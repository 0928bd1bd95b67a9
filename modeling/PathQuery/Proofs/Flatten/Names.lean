import PathQuery.Proofs.Flatten.Leaves
import PathQuery.Proofs.Path.Quote
import PathQuery.Proofs.Tree.KeyTexts

/-!
# The texts of paths

The text of a path has a slash before each key. With escapes no other slash is bare, so the texts
of the keys can be read back (`map_text_eq_of_names_eq`), whatever they hold and if they are
empty; without escapes they can if no name has a slash. In a coherent and uniform document paths
are told apart by the texts of their keys (`eq_of_map_text_eq`), so they are by their own texts
(`eq_of_pathText_eq`).
-/

namespace PathQuery

open PathQuery.Path PathQuery.Tree

/-! ## Names behind slashes -/

namespace Path

/-- What a name ends at: the end of the text or a slash. -/
def EndsName (rest : List Char) : Prop := ∀ c ∈ rest.head?, c = '/'

section Quote

variable {p : Char → Bool}

/-- Quoted text that is not empty begins with no bare slash. -/
theorem not_endsName_quote_append {text : List Char} (hne : text ≠ [])
    (hslash : '/' ∈ text → p '/' = true) (rest : List Char) :
    ¬EndsName (quote p text ++ rest) := by
  intro hends
  cases text with
  | nil => exact hne rfl
  | cons c text =>
    by_cases hc : p c = true
    · rw [quote_cons_of_pos hc] at hends
      exact absurd (hends '\\' rfl) (by decide)
    · rw [quote_cons_of_neg hc] at hends
      have hcslash : c = '/' := hends c rfl
      exact hc (hcslash ▸ hslash (hcslash ▸ List.mem_cons_self))

theorem quote_cons_append_inj (hp : ∀ c, p c = true → p '\\' = true) {c d : Char}
    {s t rest rest' : List Char}
    (h : quote p (c :: s) ++ rest = quote p (d :: t) ++ rest') :
    c = d ∧ quote p s ++ rest = quote p t ++ rest' := by
  by_cases hc : p c = true
  · rw [quote_cons_of_pos hc, List.cons_append, List.cons_append] at h
    by_cases hd : p d = true
    · rw [quote_cons_of_pos hd, List.cons_append, List.cons_append] at h
      exact List.cons.inj (List.cons.inj h).2
    · rw [quote_cons_of_neg hd, List.cons_append] at h
      exact absurd ((List.cons.inj h).1 ▸ hp c hc) hd
  · rw [quote_cons_of_neg hc, List.cons_append] at h
    by_cases hd : p d = true
    · rw [quote_cons_of_pos hd, List.cons_append, List.cons_append] at h
      exact absurd ((List.cons.inj h).1 ▸ hp d hd) hc
    · rw [quote_cons_of_neg hd, List.cons_append] at h
      exact List.cons.inj h

/-- Quoted text is told apart from what comes after its end. -/
theorem quote_append_inj (hp : ∀ c, p c = true → p '\\' = true) {s t rest rest' : List Char}
    (hs : '/' ∈ s → p '/' = true) (ht : '/' ∈ t → p '/' = true) (hrest : EndsName rest)
    (hrest' : EndsName rest') (h : quote p s ++ rest = quote p t ++ rest') :
    s = t ∧ rest = rest' := by
  induction s generalizing t with
  | nil =>
    cases t with
    | nil => exact ⟨rfl, h⟩
    | cons d t =>
      have hrest : EndsName (quote p [] ++ rest) := hrest
      exact absurd (h ▸ hrest) (not_endsName_quote_append (List.cons_ne_nil d t) ht rest')
  | cons c s ih =>
    cases t with
    | nil =>
      have hrest' : EndsName (quote p [] ++ rest') := hrest'
      exact absurd (h ▸ hrest') (not_endsName_quote_append (List.cons_ne_nil c s) hs rest)
    | cons d t =>
      obtain ⟨rfl, htail⟩ := quote_cons_append_inj hp h
      obtain ⟨rfl, hrests⟩ := ih (fun hmem => hs (List.mem_cons_of_mem c hmem))
        (fun hmem => ht (List.mem_cons_of_mem c hmem)) htail
      exact ⟨rfl, hrests⟩

/-- The names of a path, each quoted behind a slash. -/
def names (p : Char → Bool) (path : List Key) : List Char :=
  path.flatMap fun key => '/' :: quote p key.text.toList

theorem names_cons (key : Key) (path : List Key) :
    names p (key :: path) = '/' :: (quote p key.text.toList ++ names p path) := rfl

theorem endsName_names (path : List Key) : EndsName (names p path) := by
  cases path with
  | nil => exact nofun
  | cons key path =>
    intro c hc
    exact (Option.some.inj hc).symm

/-- The names of a path can be read back. -/
theorem map_text_eq_of_names_eq (hp : ∀ c, p c = true → p '\\' = true) {path path' : List Key}
    (hslash : ∀ key ∈ path, '/' ∈ key.text.toList → p '/' = true)
    (hslash' : ∀ key ∈ path', '/' ∈ key.text.toList → p '/' = true)
    (h : names p path = names p path') : path.map Key.text = path'.map Key.text := by
  induction path generalizing path' with
  | nil =>
    cases path' with
    | nil => rfl
    | cons key' path' => cases h
  | cons key path ih =>
    cases path' with
    | nil => cases h
    | cons key' path' =>
      obtain ⟨hfirst, hbelow⟩ := List.forall_mem_cons.1 hslash
      obtain ⟨hfirst', hbelow'⟩ := List.forall_mem_cons.1 hslash'
      rw [names_cons, names_cons] at h
      obtain ⟨htext, hrest⟩ := quote_append_inj hp hfirst hfirst' (endsName_names path)
        (endsName_names path') (List.cons.inj h).2
      rw [List.map_cons, List.map_cons, String.toList_inj.1 htext, ih hbelow hbelow' hrest]

end Quote

theorem toList_foldl_slash (name : Key → String) (path : List Key) (before : String) :
    (path.foldl (fun text key => text ++ "/" ++ name key) before).toList =
      before.toList ++ path.flatMap fun key => '/' :: (name key).toList := by
  induction path generalizing before with
  | nil => exact (List.append_nil _).symm
  | cons key path ih =>
    rw [List.foldl_cons, ih, List.flatMap_cons]
    simp

/-- The text of a path holds the names of the path, quoted if escapes are asked for. -/
theorem toList_pathText_eq_names (escaped : Bool) (path : List Key) :
    (pathText escaped path).toList = names (fun c => escaped && isSpecial c) path := by
  unfold pathText names
  rw [toList_foldl_slash]
  refine List.flatMap_congr fun key _ => congrArg _ ?_
  cases escaped with
  | true =>
    rw [if_pos rfl, escapeName, String.toList_ofList, escape_eq_quote]
    rfl
  | false =>
    rw [if_neg Bool.false_ne_true]
    induction key.text.toList with
    | nil => rfl
    | cons c text ih => exact congrArg (List.cons c) ih

end Path

/-! ## Paths of a document -/

namespace Key

/-- The text of a position has digits only. -/
theorem slash_not_mem_text_index (i : Nat) : '/' ∉ (index i).text.toList := by
  intro hmem
  have htext : (index i).text.toList = Nat.toDigits 10 i := by
    rw [text, Nat.toString_eq_repr, Nat.repr_eq_ofList_toDigits, String.toList_ofList]
  rw [htext] at hmem
  exact absurd (Nat.isDigit_of_mem_toDigits (by decide) (by decide) hmem) (by decide)

end Key

namespace Tree

variable {α : Type} [Tree α] {root : α}

/-- A document in which no name has a slash. -/
def SlashFree (root : α) : Prop :=
  ∀ path node, Leads root path node → ∀ name, .name name ∈ path → '/' ∉ name.toList

theorem SlashFree.slash_not_mem_text (h : SlashFree root) {path : List Key} {node : α}
    (hleads : Leads root path node) : ∀ key ∈ path, '/' ∉ key.text.toList := by
  intro key hkey
  cases key with
  | name name => exact h path node hleads name hkey
  | index i => exact Key.slash_not_mem_text_index i

/-- In a coherent and uniform document paths are told apart by the texts of their keys. -/
theorem eq_of_map_text_eq (hc : Coherent root) (hu : Uniform root) {path path' : List Key}
    {node node' : α} (h : Leads root path node) (h' : Leads root path' node')
    (htext : path.map Key.text = path'.map Key.text) : path = path' := by
  induction h generalizing path' with
  | here => exact (List.map_eq_nil_iff.1 htext.symm).symm
  | @down root child node key path hmem _ ih =>
    cases path' with
    | nil => cases htext
    | cons key' path' =>
      obtain ⟨child', hmem', hbelow'⟩ := leads_cons_iff.1 h'
      obtain ⟨hfirst, hrest⟩ := List.cons.inj htext
      have hkey : key = key' := hu.key_eq_of_text_eq hmem hmem' hfirst
      rw [← hkey] at hmem' ⊢
      have hchild : some child = some child' :=
        (hc.child?_eq_some_iff.2 hmem).symm.trans (hc.child?_eq_some_iff.2 hmem')
      rw [← Option.some.inj hchild] at hbelow'
      rw [ih (hc.child hmem) (hu.child hmem) hbelow' hrest]

/-- The texts of paths are told apart, with escapes or where no name has a slash. -/
theorem eq_of_pathText_eq (hc : Coherent root) (hu : Uniform root) {escaped : Bool}
    (hnames : escaped = true ∨ SlashFree root) {path path' : List Key} {node node' : α}
    (h : Leads root path node) (h' : Leads root path' node')
    (htext : pathText escaped path = pathText escaped path') : path = path' := by
  have hslash : ∀ {path : List Key} {node : α}, Leads root path node → ∀ key ∈ path,
      '/' ∈ key.text.toList → (escaped && isSpecial '/') = true := by
    intro path node hleads key hkey hmem
    rcases hnames with rfl | hfree
    · rfl
    · exact absurd hmem (hfree.slash_not_mem_text hleads key hkey)
  have hbackslash : ∀ c, (escaped && isSpecial c) = true → (escaped && isSpecial '\\') = true := by
    intro c hc
    rw [(Bool.and_eq_true_iff.1 hc).1]
    rfl
  have hchars := congrArg String.toList htext
  rw [toList_pathText_eq_names, toList_pathText_eq_names] at hchars
  exact eq_of_map_text_eq hc hu h h'
    (map_text_eq_of_names_eq hbackslash (hslash h) (hslash h') hchars)

end Tree

end PathQuery
