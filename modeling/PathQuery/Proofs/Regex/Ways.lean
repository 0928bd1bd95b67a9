import PathQuery.Regex.Matching

/-!
# The ways in which an expression matches

`ways` lists, for an expression and a place of a text, all ways in which the expression
matches from there, in the order in which a backtracking reader tries them. The tables
of `outcomes` hold the first way after which the rest succeeds (`cell_outcomes`), so a
search finds the first way at the first place that has one (`search?_eq`).
-/

namespace PathQuery.Regex

/-! ## Cells of tables -/

section Cells

variable {β γ : Type}

/-- What a table says at a place. -/
def cell (table : List (Option β)) (i : Nat) : Option β := table[i]?.join

@[simp] theorem cell_nil (i : Nat) : cell ([] : List (Option β)) i = none := rfl

@[simp] theorem cell_cons_zero (first : Option β) (rest : List (Option β)) :
    cell (first :: rest) 0 = first := rfl

@[simp] theorem cell_cons_succ (first : Option β) (rest : List (Option β)) (i : Nat) :
    cell (first :: rest) (i + 1) = cell rest i := rfl

theorem here_eq_cell (table : List (Option β)) : here table = cell table 0 := by
  cases table <;> rfl

theorem cell_map (f : β → γ) (table : List (Option β)) (i : Nat) :
    cell (table.map (Option.map f)) i = (cell table i).map f := by
  unfold cell
  rw [List.getElem?_map]
  cases table[i]? <;> rfl

theorem cell_zipIdx_map (f : β → Nat → γ) (table : List (Option β)) (i : Nat) :
    cell (table.zipIdx.map fun (found, place) => found.map fun x => f x place) i =
      (cell table i).map fun x => f x i := by
  unfold cell
  rw [List.getElem?_map, List.getElem?_zipIdx, Nat.zero_add]
  cases table[i]? <;> rfl

theorem cell_zipWith_or {first second : List (Option β)} (h : first.length = second.length)
    (i : Nat) : cell (List.zipWith Option.or first second) i =
      (cell first i).or (cell second i) := by
  induction first generalizing second i with
  | nil =>
    rw [List.eq_nil_of_length_eq_zero h.symm]
    rfl
  | cons x first ih =>
    cases second with
    | nil => cases h
    | cons y second =>
      cases i with
      | zero => rfl
      | succ i => exact ih (Nat.succ.inj h) i

theorem cell_onlyFirst (table : List (Option β)) (i : Nat) :
    cell (onlyFirst table) i = if i = 0 then cell table i else none := by
  cases table with
  | nil => simp [onlyFirst]
  | cons first rest =>
    cases i with
    | zero => rfl
    | succ i =>
      rw [onlyFirst, cell_cons_succ, if_neg (Nat.succ_ne_zero i)]
      unfold cell
      rw [List.getElem?_map]
      cases rest[i]? <;> rfl

theorem cell_onlyLast (table : List (Option β)) (i : Nat) :
    cell (onlyLast table) i = if i + 1 = table.length then cell table i else none := by
  induction table generalizing i with
  | nil => simp [onlyLast]
  | cons first rest ih =>
    cases rest with
    | nil => cases i <;> simp [onlyLast]
    | cons second rest =>
      cases i with
      | zero => simp [onlyLast]
      | succ i =>
        rw [onlyLast, cell_cons_succ, ih, cell_cons_succ]
        · simp
        · intro h
          cases h

theorem cell_stepOver (p : Char → Bool) {text : List Char} {table : List (Option β)}
    (h : table.length = text.length + 1) (i : Nat) :
    cell (stepOver p text table) i = if text[i]?.any p then cell table (i + 1) else none := by
  induction text generalizing table i with
  | nil => cases i <;> simp [stepOver]
  | cons c text ih =>
    cases table with
    | nil => cases h
    | cons first rest =>
      cases i with
      | zero => simp [stepOver, here_eq_cell]
      | succ i => exact ih (Nat.succ.inj h) i

theorem cell_stepOverOptional (p : Char → Bool) {text : List Char} {table : List (Option β)}
    (h : table.length = text.length + 1) (i : Nat) :
    cell (stepOverOptional p text table) i =
      (if text[i]?.any p then cell table (i + 1) else none).or (cell table i) := by
  induction text generalizing table i with
  | nil => simp [stepOverOptional]
  | cons c text ih =>
    cases table with
    | nil => cases h
    | cons first rest =>
      cases i with
      | zero =>
        rw [stepOverOptional, cell_cons_zero, here_eq_cell]
        by_cases hc : p c = true <;> simp [hc]
      | succ i => exact ih (Nat.succ.inj h) i

/-- How many characters that satisfy `p` a text can begin with, the greatest number first. -/
def strides (p : Char → Bool) : List Char → List Nat
  | [] => [0]
  | c :: rest => if p c then (strides p rest).map (· + 1) ++ [0] else [0]

theorem cell_runOver (p : Char → Bool) {text : List Char} {table : List (Option β)}
    (h : table.length = text.length + 1) (i : Nat) :
    cell (runOver p text table) i =
      (strides p (text.drop i)).findSome? fun n => cell table (i + n) := by
  induction text generalizing table i with
  | nil => simp [runOver, strides]
  | cons c text ih =>
    cases table with
    | nil => cases h
    | cons first rest =>
      have hrest := Nat.succ.inj h
      cases i with
      | zero =>
        rw [runOver, cell_cons_zero, here_eq_cell, ih hrest 0, List.drop_zero, List.drop_zero,
          strides]
        by_cases hc : p c = true
        · rw [if_pos hc, if_pos hc, List.findSome?_append, List.findSome?_map]
          simp [Function.comp_def]
        · simp [hc]
      | succ i =>
        rw [runOver, cell_cons_succ, ih hrest i, List.drop_succ_cons]
        simp only [Nat.add_right_comm i 1, cell_cons_succ]

end Cells

/-! ## Tables keep their length -/

section Lengths

variable {β : Type} (p : Char → Bool) {text : List Char} {table : List (Option β)}

theorem length_onlyFirst (table : List (Option β)) : (onlyFirst table).length = table.length := by
  cases table <;> simp [onlyFirst]

theorem length_onlyLast (table : List (Option β)) : (onlyLast table).length = table.length := by
  induction table using onlyLast.induct with
  | case1 => rfl
  | case2 => rfl
  | case3 first rest hrest ih => rw [onlyLast, List.length_cons, ih, List.length_cons]; exact hrest

theorem length_stepOver (h : table.length = text.length + 1) :
    (stepOver p text table).length = text.length + 1 := by
  induction text generalizing table with
  | nil => rfl
  | cons c text ih =>
    cases table with
    | nil => cases h
    | cons first rest => rw [stepOver, List.length_cons, ih (Nat.succ.inj h), List.length_cons]

theorem length_stepOverOptional (h : table.length = text.length + 1) :
    (stepOverOptional p text table).length = text.length + 1 := by
  induction text generalizing table with
  | nil => exact h
  | cons c text ih =>
    cases table with
    | nil => cases h
    | cons first rest =>
      rw [stepOverOptional, List.length_cons, ih (Nat.succ.inj h), List.length_cons]

theorem length_runOver (h : table.length = text.length + 1) :
    (runOver p text table).length = text.length + 1 := by
  induction text generalizing table with
  | nil => exact h
  | cons c text ih =>
    cases table with
    | nil => cases h
    | cons first rest => rw [runOver, List.length_cons, ih (Nat.succ.inj h), List.length_cons]

theorem length_outcomes (mode : Mode) (e : Regex) {β : Type} {table : List (Option β)}
    (h : table.length = text.length + 1) :
    (outcomes mode text e β table).length = text.length + 1 := by
  induction e generalizing β with
  | empty => rw [outcomes, List.length_map, h]
  | textStart => rw [outcomes, List.length_map, length_onlyFirst, h]
  | textEnd => rw [outcomes, List.length_map, length_onlyLast, h]
  | char c => rw [outcomes, List.length_map, length_stepOver _ h]
  | anyRun => rw [outcomes, List.length_map, length_runOver _ h]
  | anyOne => rw [outcomes, List.length_map, length_stepOverOptional _ h]
  | cat a b iha ihb => rw [outcomes, List.length_map, iha (ihb h)]
  | alt a b iha ihb =>
    rw [outcomes, List.length_zipWith, List.length_map, List.length_map, iha h, ihb h, Nat.min_self]
  | group e ih =>
    have hends : (table.zipIdx.map fun (cell, stop) => cell.map (stop, ·)).length =
        text.length + 1 := by
      rw [List.length_map, List.length_zipIdx, h]
    rw [outcomes, List.length_map, List.length_zipIdx]
    exact ih hends
  | plainGroup e ih => exact ih h

end Lengths

/-! ## Ways -/

/-- The ways in which an expression matches from a place, each with what its groups captured and
the place where it ends, in the order in which they are tried. -/
def ways (mode : Mode) (text : List Char) : Regex → Nat → List (Captured × Nat)
  | empty, i => [([], i)]
  | textStart, i => if i = 0 then [([], i)] else []
  | textEnd, i => if i = text.length then [([], i)] else []
  | char c, i => if text[i]?.any (· == mode.canon c) then [([], i + 1)] else []
  | anyRun, i => (strides mode.covers (text.drop i)).map fun n => ([], i + n)
  | anyOne, i => (if text[i]?.any mode.covers then [([], i + 1)] else []) ++ [([], i)]
  | cat a b, i =>
    (ways mode text a i).flatMap fun first =>
      (ways mode text b first.2).map fun second => (first.1 ++ second.1, second.2)
  | alt a b, i =>
    ((ways mode text a i).map fun way => (way.1 ++ unused b, way.2)) ++
      (ways mode text b i).map fun way => (unused a ++ way.1, way.2)
  | group e, i => (ways mode text e i).map fun way => (some ⟨i, way.2⟩ :: way.1, way.2)
  | plainGroup e, i => ways mode text e i

/-- The first of some ways after which a table says something, with what it says. -/
def firstWay {β : Type} (table : List (Option β)) (found : List (Captured × Nat)) :
    Option (Captured × β) :=
  found.findSome? fun way => (cell table way.2).map (way.1, ·)

section FirstWay

variable {β γ : Type} {table : List (Option β)}

theorem firstWay_append (first second : List (Captured × Nat)) :
    firstWay table (first ++ second) = (firstWay table first).or (firstWay table second) :=
  List.findSome?_append

theorem firstWay_singleton (captured : Captured) (i : Nat) :
    firstWay table [(captured, i)] = (cell table i).map (captured, ·) := by
  rw [firstWay, List.findSome?_singleton]

/-- Changing the captures of all ways changes them in the first one. -/
theorem firstWay_map (f : Captured → Captured) (found : List (Captured × Nat)) :
    firstWay table (found.map fun way => (f way.1, way.2)) =
      (firstWay table found).map fun way => (f way.1, way.2) := by
  unfold firstWay
  rw [List.findSome?_map, List.map_findSome?]
  congr 1
  funext way
  simp only [Function.comp_apply, Option.map_map]
  rfl

theorem firstWay_flatMap (f : Captured × Nat → List (Captured × Nat))
    (found : List (Captured × Nat)) :
    firstWay table (found.flatMap f) = found.findSome? fun way => firstWay table (f way) := by
  induction found with
  | nil => rfl
  | cons way found ih =>
    rw [List.flatMap_cons, firstWay_append, ih, List.findSome?_cons]
    cases firstWay table (f way) <;> rfl

end FirstWay

/-- The table of outcomes says at each place which way is the first after which the given table
says something. -/
theorem cell_outcomes (mode : Mode) {text : List Char} (e : Regex) {β : Type}
    {table : List (Option β)} (h : table.length = text.length + 1) (i : Nat) :
    cell (outcomes mode text e β table) i = firstWay table (ways mode text e i) := by
  induction e generalizing β i with
  | empty => rw [outcomes, cell_map, ways, firstWay_singleton]
  | textStart =>
    rw [outcomes, cell_map, cell_onlyFirst, ways]
    split
    · rw [firstWay_singleton]
    · rfl
  | textEnd =>
    rw [outcomes, cell_map, cell_onlyLast, ways, h]
    simp only [Nat.add_right_cancel_iff]
    split
    · rw [firstWay_singleton]
    · rfl
  | char c =>
    rw [outcomes, cell_map, cell_stepOver _ h, ways]
    split
    · rw [firstWay_singleton]
    · rfl
  | anyRun =>
    rw [outcomes, cell_map, cell_runOver _ h, ways, firstWay, List.findSome?_map,
      List.map_findSome?]
    rfl
  | anyOne =>
    rw [outcomes, cell_map, cell_stepOverOptional _ h, ways, firstWay_append, firstWay_singleton]
    split
    · rw [firstWay_singleton, Option.map_or]
    · rfl
  | cat a b iha ihb =>
    rw [outcomes, cell_map, iha (length_outcomes mode b h), ways, firstWay_flatMap, firstWay,
      List.map_findSome?]
    congr 1
    funext first
    rw [Function.comp_apply, ihb h, firstWay_map (first.1 ++ ·), Option.map_map]
    rfl
  | alt a b iha ihb =>
    rw [outcomes, cell_zipWith_or, cell_map, cell_map, iha h, ihb h, ways, firstWay_append,
      firstWay_map (· ++ unused b), firstWay_map (unused a ++ ·)]
    rw [List.length_map, List.length_map, length_outcomes _ _ h, length_outcomes _ _ h]
  | group e ih =>
    have hends : (table.zipIdx.map fun (found, stop) => found.map (stop, ·)).length =
        text.length + 1 := by
      rw [List.length_map, List.length_zipIdx, h]
    rw [outcomes, ways]
    have hstart := cell_zipIdx_map
      (fun (way : Captured × Nat × β) start => (some (Span.mk start way.2.1) :: way.1, way.2.2))
    refine (hstart _ i).trans ?_
    rw [ih hends, firstWay, firstWay, List.map_findSome?, List.findSome?_map]
    congr 1
    funext way
    rw [Function.comp_apply, Function.comp_apply, cell_zipIdx_map (fun x stop => (stop, x)),
      Option.map_map, Option.map_map]
    rfl
  | plainGroup e ih => exact ih h i

/-! ## Searching -/

theorem le_length_of_mem_strides {p : Char → Bool} {text : List Char} {n : Nat}
    (h : n ∈ strides p text) : n ≤ text.length := by
  induction text generalizing n with
  | nil => simp_all [strides]
  | cons c text ih =>
    rw [strides] at h
    split at h
    · rcases List.mem_append.1 h with h | h
      · obtain ⟨k, hk, rfl⟩ := List.mem_map.1 h
        exact Nat.succ_le_succ (ih hk)
      · rw [List.mem_singleton.1 h]
        exact Nat.zero_le _
    · rw [List.mem_singleton.1 h]
      exact Nat.zero_le _

theorem lt_length_of_any {text : List Char} {i : Nat} {p : Char → Bool}
    (h : text[i]?.any p = true) : i < text.length := by
  refine Nat.lt_of_not_le fun hle => ?_
  rw [List.getElem?_eq_none hle] at h
  cases h

/-- A way that starts inside a text ends inside it. -/
theorem stop_le_of_mem_ways {mode : Mode} {text : List Char} {e : Regex} {i : Nat}
    (hi : i ≤ text.length) {way : Captured × Nat} (h : way ∈ ways mode text e i) :
    way.2 ≤ text.length := by
  induction e generalizing i way with
  | empty =>
    rw [List.mem_singleton.1 h]
    exact hi
  | textStart =>
    rw [ways] at h
    split at h
    · rw [List.mem_singleton.1 h]
      exact hi
    · cases h
  | textEnd =>
    rw [ways] at h
    split at h
    · rw [List.mem_singleton.1 h]
      exact hi
    · cases h
  | char c =>
    rw [ways] at h
    split at h
    · rename_i hc
      rw [List.mem_singleton.1 h]
      exact lt_length_of_any hc
    · cases h
  | anyRun =>
    obtain ⟨n, hn, rfl⟩ := List.mem_map.1 h
    have := le_length_of_mem_strides hn
    rw [List.length_drop] at this
    simp only
    omega
  | anyOne =>
    rw [ways] at h
    rcases List.mem_append.1 h with h | h
    · split at h
      · rename_i hc
        rw [List.mem_singleton.1 h]
        exact lt_length_of_any hc
      · cases h
    · rw [List.mem_singleton.1 h]
      exact hi
  | cat a b iha ihb =>
    obtain ⟨first, hfirst, h⟩ := List.mem_flatMap.1 h
    obtain ⟨second, hsecond, rfl⟩ := List.mem_map.1 h
    have hstop := ihb (iha hi hfirst) hsecond
    exact hstop
  | alt a b iha ihb =>
    rcases List.mem_append.1 h with h | h
    · obtain ⟨way, hway, rfl⟩ := List.mem_map.1 h
      have hstop := iha hi hway
      exact hstop
    · obtain ⟨way, hway, rfl⟩ := List.mem_map.1 h
      have hstop := ihb hi hway
      exact hstop
  | group e ih =>
    obtain ⟨way, hway, rfl⟩ := List.mem_map.1 h
    have hstop := ih hi hway
    exact hstop
  | plainGroup e ih => exact ih hi h

theorem findSome?_zipIdx {β γ : Type} (f : Nat → β → γ) (table : List (Option β)) :
    (table.zipIdx.findSome? fun (found, i) => found.map (f i)) =
      (List.range table.length).findSome? fun i => (cell table i).map (f i) := by
  induction table generalizing f with
  | nil => rfl
  | cons first rest ih =>
    rw [List.zipIdx_cons, List.findSome?_cons, List.zipIdx_succ, List.findSome?_map,
      List.length_cons, List.range_succ_eq_map, List.findSome?_cons, List.findSome?_map]
    have hrest := ih fun i => f (i + 1)
    have hshift : ((fun pair : Option β × Nat => pair.1.map (f pair.2)) ∘
        fun pair : Option β × Nat => (pair.1, pair.2 + 1)) =
        fun pair => pair.1.map (f (pair.2 + 1)) := rfl
    rw [hshift, hrest]
    rfl

theorem findSome?_congr {β γ : Type} {f g : β → Option γ} {xs : List β}
    (h : ∀ x ∈ xs, f x = g x) : xs.findSome? f = xs.findSome? g := by
  induction xs with
  | nil => rfl
  | cons x xs ih =>
    rw [List.findSome?_cons, List.findSome?_cons, h x List.mem_cons_self,
      ih fun y hy => h y (List.mem_cons_of_mem x hy)]

theorem cell_places {n i : Nat} (h : i ≤ n) :
    cell ((List.range (n + 1)).map some) i = some i := by
  unfold cell
  rw [List.getElem?_map, List.getElem?_range (Nat.lt_succ_of_le h)]
  rfl

/-- A search finds the first way at the first place that has one. -/
theorem search?_eq (e : Regex) (mode : Mode) (text : List Char) :
    search? e mode text =
      (List.range (text.length + 1)).findSome? fun start =>
        (ways mode (text.map mode.canon) e start).head?.map fun way =>
          ⟨⟨start, way.2⟩, way.1⟩ := by
  have hplaces : ((List.range (text.length + 1)).map some).length =
      (text.map mode.canon).length + 1 := by
    rw [List.length_map, List.length_range, List.length_map]
  have hlength := length_outcomes mode e hplaces
  rw [List.length_map] at hlength
  have hfound := findSome?_zipIdx fun start (way : Captured × Nat) =>
    Found.mk ⟨start, way.2⟩ way.1
  refine (hfound _).trans ?_
  rw [hlength]
  refine findSome?_congr fun start hstart => ?_
  have hle : start ≤ text.length := Nat.le_of_lt_succ (List.mem_range.1 hstart)
  rw [cell_outcomes mode e hplaces, firstWay]
  cases hways : ways mode (text.map mode.canon) e start with
  | nil => rfl
  | cons way rest =>
    have hstop : way.2 ≤ (text.map mode.canon).length := by
      apply stop_le_of_mem_ways (i := start)
      · rw [List.length_map]
        exact hle
      · rw [hways]
        exact List.mem_cons_self
    rw [List.length_map] at hstop
    rw [List.findSome?_cons, cell_places hstop]
    rfl

end PathQuery.Regex
