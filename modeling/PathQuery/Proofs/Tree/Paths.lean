import PathQuery.Tree

/-!
# Paths through the entries of a document

`Leads node path target`: the keys of `path` name entries, one below the other, on
the way from `node` to `target`. Searches go through entries and look-ups through
`child?`; the two agree where every entry is found under its key (`Consistent`), and
they are the same where moreover no key stands for two entries (`Coherent`):
`Coherent.resolve?_eq_some_iff`.
-/

namespace PathQuery.Tree

variable {α : Type} [Tree α]

/-! ## Going through entries -/

/-- The keys of a path name entries, one below the other, from a node to a target. -/
inductive Leads : α → List Key → α → Prop
  | here (node : α) : Leads node [] node
  | down {node child target : α} {key : Key} {path : List Key} :
      (key, child) ∈ entries node → Leads child path target → Leads node (key :: path) target

theorem Leads.trans {node mid target : α} {before after : List Key} (h₁ : Leads node before mid)
    (h₂ : Leads mid after target) : Leads node (before ++ after) target := by
  induction h₁ with
  | here => exact h₂
  | down hmem _ ih => exact .down hmem (ih h₂)

theorem leads_singleton {node child : α} {key : Key} (h : (key, child) ∈ entries node) :
    Leads node [key] child :=
  .down h (.here child)

theorem leads_nil_iff {node target : α} : Leads node [] target ↔ target = node := by
  constructor
  · intro h
    cases h
    rfl
  · rintro rfl
    exact .here _

theorem leads_cons_iff {node target : α} {key : Key} {path : List Key} :
    Leads node (key :: path) target ↔
      ∃ child, (key, child) ∈ entries node ∧ Leads child path target := by
  constructor
  · intro h
    cases h with
    | down hmem hrest => exact ⟨_, hmem, hrest⟩
  · rintro ⟨child, hmem, hrest⟩
    exact .down hmem hrest

/-- A path through entries passes through a node at every place. -/
theorem leads_append_iff {node target : α} {before after : List Key} :
    Leads node (before ++ after) target ↔ ∃ mid, Leads node before mid ∧ Leads mid after target := by
  constructor
  · induction before generalizing node with
    | nil =>
      intro h
      exact ⟨node, .here node, h⟩
    | cons key before ih =>
      intro h
      rw [List.cons_append, leads_cons_iff] at h
      obtain ⟨child, hmem, hrest⟩ := h
      obtain ⟨mid, hbefore, hafter⟩ := ih hrest
      exact ⟨mid, .down hmem hbefore, hafter⟩
  · rintro ⟨mid, hbefore, hafter⟩
    exact hbefore.trans hafter

/-- The last step of a path through entries. -/
theorem leads_concat_iff {node target : α} {path : List Key} {key : Key} :
    Leads node (path ++ [key]) target ↔
      ∃ holder, Leads node path holder ∧ (key, target) ∈ entries holder := by
  rw [leads_append_iff]
  constructor
  · rintro ⟨holder, hpath, hlast⟩
    rw [leads_cons_iff] at hlast
    obtain ⟨child, hmem, hnil⟩ := hlast
    rw [leads_nil_iff] at hnil
    exact ⟨holder, hpath, hnil ▸ hmem⟩
  · rintro ⟨holder, hpath, hmem⟩
    exact ⟨holder, hpath, leads_singleton hmem⟩

theorem Leads.exists_of_prefix {node target : α} {before path : List Key}
    (h : Leads node path target) (hpre : before <+: path) : ∃ mid, Leads node before mid := by
  obtain ⟨after, rfl⟩ := hpre
  obtain ⟨mid, hbefore, -⟩ := leads_append_iff.1 h
  exact ⟨mid, hbefore⟩

/-! ## Looking paths up -/

@[simp] theorem resolve?_nil (node : α) : resolve? node [] = some node := rfl

@[simp] theorem resolve?_cons (node : α) (key : Key) (path : List Key) :
    resolve? node (key :: path) = (child? node key).bind fun child => resolve? child path := rfl

theorem resolve?_append (node : α) (before after : List Key) :
    resolve? node (before ++ after) =
      (resolve? node before).bind fun mid => resolve? mid after := by
  induction before generalizing node with
  | nil => rfl
  | cons key before ih =>
    rw [List.cons_append, resolve?_cons, resolve?_cons, Option.bind_assoc]
    congr 1
    funext child
    exact ih child

theorem resolve?_concat (node : α) (path : List Key) (key : Key) :
    resolve? node (path ++ [key]) = (resolve? node path).bind fun holder => child? holder key := by
  rw [resolve?_append]
  congr 1
  funext holder
  rw [resolve?_cons]
  exact Option.bind_fun_some _

/-! ## Documents whose look-ups find their entries -/

/-- A document in which every entry, at the node and everywhere below, is found under its key. -/
inductive Consistent : α → Prop
  | intro (node : α) :
      (∀ entry ∈ entries node, child? node entry.1 = some entry.2) →
      (∀ entry ∈ entries node, Consistent entry.2) → Consistent node

theorem Consistent.child?_eq {node child : α} {key : Key} (h : Consistent node)
    (hmem : (key, child) ∈ entries node) : child? node key = some child := by
  cases h with
  | intro _ hfound _ => exact hfound _ hmem

theorem Consistent.child {node child : α} {key : Key} (h : Consistent node)
    (hmem : (key, child) ∈ entries node) : Consistent child := by
  cases h with
  | intro _ _ hbelow => exact hbelow _ hmem

/-- The node that a path through entries leads to is the one that is looked up. -/
theorem Leads.resolve?_eq {node target : α} {path : List Key} (h : Leads node path target)
    (hc : Consistent node) : resolve? node path = some target := by
  induction h with
  | here => rfl
  | down hmem _ ih =>
    rw [resolve?_cons, hc.child?_eq hmem, Option.bind_some]
    exact ih (hc.child hmem)

theorem Consistent.leads_of_resolve? {node target : α} {path before : List Key}
    (hc : Consistent node) {last : α} (hpath : Leads node path last) (hpre : before <+: path)
    (h : resolve? node before = some target) : Leads node before target := by
  obtain ⟨mid, hmid⟩ := hpath.exists_of_prefix hpre
  rw [hmid.resolve?_eq hc, Option.some.injEq] at h
  exact h ▸ hmid

/-! ## Coherent documents -/

omit [Tree α] in
/-- What a key stands for where no key stands twice. -/
theorem lookup_eq_some_iff {κ : Type} [DecidableEq κ] {pairs : List (κ × α)}
    (hnodup : (pairs.map Prod.fst).Nodup) {key : κ} {value : α} :
    pairs.lookup key = some value ↔ (key, value) ∈ pairs := by
  induction pairs with
  | nil => simp
  | cons pair rest ih =>
    obtain ⟨name, first⟩ := pair
    rw [List.map_cons, List.nodup_cons] at hnodup
    obtain ⟨hnew, hrest⟩ := hnodup
    by_cases h : key = name
    · subst h
      have habsent : (key, value) ∉ rest := fun hmem => hnew (List.mem_map.2 ⟨_, hmem, rfl⟩)
      simp [habsent, eq_comm]
    · have hb : (key == name) = false := by simpa using h
      rw [List.lookup_cons, hb, List.mem_cons, ih hrest]
      simp [h]

theorem Coherent.nodup {node : α} (h : Coherent node) : ((entries node).map Prod.fst).Nodup := by
  cases h with
  | intro _ hnodup _ _ => exact hnodup

theorem Coherent.child {node child : α} {key : Key} (h : Coherent node)
    (hmem : (key, child) ∈ entries node) : Coherent child := by
  cases h with
  | intro _ _ _ hbelow => exact hbelow _ hmem

theorem Coherent.child?_eq_some_iff {node child : α} {key : Key} (h : Coherent node) :
    child? node key = some child ↔ (key, child) ∈ entries node := by
  cases h with
  | intro _ hnodup hlookup _ => rw [hlookup, lookup_eq_some_iff hnodup]

theorem Coherent.consistent {node : α} (h : Coherent node) : Consistent node := by
  induction h with
  | intro node hnodup hlookup _ ih =>
    refine .intro node ?_ ih
    intro entry hmem
    rw [hlookup, lookup_eq_some_iff hnodup]
    exact hmem

theorem Coherent.of_leads {node target : α} {path : List Key} (h : Coherent node)
    (hleads : Leads node path target) : Coherent target := by
  induction hleads with
  | here => exact h
  | down hmem _ ih => exact ih (h.child hmem)

/-- In a coherent document looking a path up and going through entries are the same. -/
theorem Coherent.resolve?_eq_some_iff {node target : α} {path : List Key} (h : Coherent node) :
    resolve? node path = some target ↔ Leads node path target := by
  constructor
  · intro hfound
    induction path generalizing node with
    | nil =>
      rw [resolve?_nil, Option.some.injEq] at hfound
      exact leads_nil_iff.2 hfound.symm
    | cons key path ih =>
      rw [resolve?_cons, Option.bind_eq_some_iff] at hfound
      obtain ⟨child, hchild, hrest⟩ := hfound
      have hmem := h.child?_eq_some_iff.1 hchild
      exact .down hmem (ih (h.child hmem) hrest)
  · intro hleads
    exact hleads.resolve?_eq h.consistent

end PathQuery.Tree
