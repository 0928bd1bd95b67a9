import PathQuery.Proofs.Pattern.Sameness
import PathQuery.Proofs.Query.FlagSets

/-!
# Queries that are the same

Queries are compared matcher by matcher and pattern by pattern. Patterns that are the same agree on
every key and node, so two compiled queries that are the same are chains of twins and find the same
answers in every document (`find_eq_of_same`).
-/

namespace PathQuery

/-! ## Matchers -/

namespace Matcher

theorem agrees_of_samePattern {p q : Option Pattern} (hp : ∀ pattern ∈ p, pattern.FromSource)
    (hq : ∀ pattern ∈ q, pattern.FromSource) (h : samePattern p q = true) :
    Option.Rel Pattern.Agrees p q := by
  unfold samePattern at h
  split at h
  · exact .none
  · exact .some (Pattern.agrees_of_same (hp _ rfl) (hq _ rfl) h)
  · cases h

/-- Matchers that are the same have patterns that agree, and both search or neither does. -/
theorem related_of_same {m n : Matcher}
    (hm : (∀ p ∈ m.key, p.FromSource) ∧ ∀ p ∈ m.value, p.FromSource)
    (hn : (∀ p ∈ n.key, p.FromSource) ∧ ∀ p ∈ n.value, p.FromSource)
    (h : m.same n = true) : Related Pattern.Agrees m n := by
  unfold same at h
  rw [Bool.and_eq_true, Bool.and_eq_true] at h
  obtain ⟨⟨hkey, hvalue⟩, hrecursive⟩ := h
  exact ⟨agrees_of_samePattern hm.1 hn.1 hkey, agrees_of_samePattern hm.2 hn.2 hvalue,
    beq_iff_eq.1 hrecursive⟩

end Matcher

/-! ## Chains -/

namespace Query

theorem forall₂_of_sameChain {ms ns : List Matcher} (hm : FromSource ⟨ms⟩) (hn : FromSource ⟨ns⟩)
    (h : sameChain ms ns = true) : List.Forall₂ (Matcher.Related Pattern.Agrees) ms ns := by
  induction ms generalizing ns with
  | nil =>
    cases ns with
    | nil => exact .nil
    | cons n ns => cases h
  | cons m ms ih =>
    cases ns with
    | nil => cases h
    | cons n ns =>
      obtain ⟨hfirst, hrest⟩ := Bool.and_eq_true_iff.1 h
      have hfirst' := Matcher.related_of_same (hm m List.mem_cons_self) (hn n List.mem_cons_self)
        hfirst
      exact .cons hfirst' (ih (fun m' hm' => hm m' (List.mem_cons_of_mem m hm'))
        (fun n' hn' => hn n' (List.mem_cons_of_mem n hn')) hrest)

/-- **Queries that are the same find the same.** Two queries, each compiled from a path with flags
of its own, that compare as the same give the same answers in the same order in every document. -/
theorem find_eq_of_same [Regex.Engine] {path path' : String} {flags flags' : Option Flags}
    {query query' : Query} (hquery : compile path flags = .ok query)
    (hquery' : compile path' flags' = .ok query') (h : query.same query' = true) {α : Type}
    [Tree α] (root : α) : find query root = find query' root := by
  have hrelated := forall₂_of_sameChain (compile_fromSource hquery) (compile_fromSource hquery') h
  exact find_eq_of_twins (hrelated.imp fun _ _ hm => hm.twins) root

/-- A count of numbers and a range without its upper end, with flags written in the path and given
to it. -/
theorem find_eq_of_same_ranges :
    ∃ query query', compile "**/1,2/a*//i" none = .ok query ∧
      compile "**/1...3/./a*" (some { ignoreCase := true }) = .ok query' ∧
      query.same query' = true ∧
      query.matchers.map (fun m => m.key.map Pattern.text) =
        [some "1,2", some "/\\A(?:a(.*))\\z/i"] ∧
      query'.matchers.map (fun m => m.key.map Pattern.text) =
        [some "1...3", some "/\\A(?:a(.*))\\z/i"] ∧
      (find query (Json.array [.null, .object [("Ab", .null)]])).map Answer.location =
        [⟨[.index 1, .name "Ab"], ["b"], [⟨0, []⟩]⟩] ∧
      find query (Json.array [.null, .object [("Ab", .null)]]) =
        find query' (Json.array [.null, .object [("Ab", .null)]]) := by
  have hcompiled : ((compile "**/1,2/a*//i" none).toOption.bind fun query =>
      (compile "**/1...3/./a*" (some { ignoreCase := true })).toOption.map fun query' =>
        (query.same query', query.matchers.map (fun m => m.key.map Pattern.text),
          query'.matchers.map (fun m => m.key.map Pattern.text),
          (find query (Json.array [.null, .object [("Ab", .null)]])).map Answer.location)) =
      some (true, [some "1,2", some "/\\A(?:a(.*))\\z/i"],
        [some "1...3", some "/\\A(?:a(.*))\\z/i"],
        [⟨[.index 1, .name "Ab"], ["b"], [⟨0, []⟩]⟩]) := by
    decide +kernel
  cases hquery : compile "**/1,2/a*//i" none with
  | error error =>
    rw [hquery] at hcompiled
    cases hcompiled
  | ok query =>
    cases hquery' : compile "**/1...3/./a*" (some { ignoreCase := true }) with
    | error error =>
      rw [hquery, hquery'] at hcompiled
      cases hcompiled
    | ok query' =>
      rw [hquery, hquery'] at hcompiled
      obtain ⟨hsame, htexts⟩ := Prod.mk.inj (Option.some.inj hcompiled)
      obtain ⟨htexts, hrest⟩ := Prod.mk.inj htexts
      obtain ⟨htexts', hfound⟩ := Prod.mk.inj hrest
      exact ⟨query, query', rfl, rfl, hsame, htexts, htexts', hfound,
        find_eq_of_same hquery hquery' hsame _⟩

end Query

end PathQuery
