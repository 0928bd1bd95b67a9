import Mathlib.Data.List.Forall2
import PathQuery.Proofs.Query.Chain

/-!
# Two chains on two documents

A relation between the nodes of two documents, which may be of two types, is a relation of twins
if related nodes have related entries under the same keys and find related children
(`Tree.Twins`). Two matchers are twins under it if they test keys and related nodes alike
(`Matcher.Twins`). Then they have the same hits, step for step two chains of twins keep the same
candidates up to the relation (`twins_step`, `twins_run`), and they give the same answers
(`map_location_find_of_twins`, and in one document `find_eq_of_twins`).
-/

namespace PathQuery

variable {α β : Type} [Tree α] [Tree β] {R : α → β → Prop}

/-! ## Documents -/

namespace Tree

/-- Related nodes have related entries under the same keys, in the same order, and find related
children under every key. -/
structure Twins (R : α → β → Prop) : Prop where
  entries : ∀ {a b}, R a b →
    List.Forall₂ (fun x y => x.1 = y.1 ∧ R x.2 y.2) (Tree.entries a) (Tree.entries b)
  child? : ∀ {a b}, R a b → ∀ key, Option.Rel R (Tree.child? a key) (Tree.child? b key)

/-- Two visits of related nodes in the same place. -/
structure Visit.Twins (R : α → β → Prop) (visit : Visit α) (other : Visit β) : Prop where
  holder : R visit.holder other.holder
  key : visit.key = other.key
  node : R visit.node other.node
  descent : visit.descent = other.descent

omit [Tree α] [Tree β] in
theorem Visit.Twins.path {visit : Visit α} {other : Visit β} (h : visit.Twins R other) :
    visit.path = other.path := by
  rw [Visit.path, Visit.path, h.descent, h.key]

namespace Twins

variable (h : Twins R) {a : α} {b : β}

include h

theorem resolve? (hab : R a b) (path : List Key) :
    Option.Rel R (Tree.resolve? a path) (Tree.resolve? b path) := by
  induction path generalizing a b with
  | nil => exact .some hab
  | cons key path ih =>
    rw [resolve?_cons, resolve?_cons]
    match Tree.child? a key, Tree.child? b key, h.child? hab key with
    | _, _, .none => exact .none
    | _, _, .some hchild => exact ih hchild

theorem visits (hab : R a b) (descent : List Key) :
    List.Forall₂ (Visit.Twins R) (Tree.visits a descent) (Tree.visits b descent) := by
  rw [Tree.visits, Tree.visits, List.forall₂_map_left_iff, List.forall₂_map_right_iff]
  exact (h.entries hab).imp fun _ _ hentry => ⟨hab, hentry.1, hentry.2, rfl⟩

theorem preorder (hab : R a b) (descent : List Key) :
    List.Forall₂ (Visit.Twins R) (Tree.preorder a descent) (Tree.preorder b descent) := by
  induction a using induction_on_entries generalizing b descent with
  | h a ih =>
    rw [preorder_eq, preorder_eq]
    have hvisits : List.Forall₂ (fun v w => (v.key, v.node) ∈ Tree.entries a ∧ Visit.Twins R v w)
        (Tree.visits a descent) (Tree.visits b descent) := by
      rw [List.forall₂_and_left]
      exact ⟨fun v hv => (mem_visits_iff.1 hv).2.2, h.visits hab descent⟩
    refine List.rel_flatMap hvisits fun v w ⟨hmem, htwins⟩ => .cons htwins ?_
    rw [← htwins.path]
    exact ih _ hmem htwins.node _

end Twins

omit [Tree α] [Tree β] in
theorem rel_lookup {xs : List (Key × α)} {ys : List (Key × β)}
    (h : List.Forall₂ (fun x y => x.1 = y.1 ∧ R x.2 y.2) xs ys) (key : Key) :
    Option.Rel R (xs.lookup key) (ys.lookup key) := by
  induction h with
  | nil => exact .none
  | @cons x y xs ys hxy _ ih =>
    obtain ⟨first, a⟩ := x
    obtain ⟨second, b⟩ := y
    obtain ⟨rfl, hnode⟩ := hxy
    rw [List.lookup_cons, List.lookup_cons]
    cases key == first with
    | true => exact .some hnode
    | false => exact ih

/-- Two types that look children up among the entries find related children where the entries are
related. -/
theorem Twins.of_lookup
    (hentries : ∀ {a b}, R a b →
      List.Forall₂ (fun x y => x.1 = y.1 ∧ R x.2 y.2) (Tree.entries a) (Tree.entries b))
    (ha : ∀ (a : α) key, Tree.child? a key = (Tree.entries a).lookup key)
    (hb : ∀ (b : β) key, Tree.child? b key = (Tree.entries b).lookup key) : Twins R := by
  refine ⟨hentries, fun hab key => ?_⟩
  rw [ha, hb]
  exact rel_lookup (hentries hab) key

theorem twins_eq : Twins (fun a b : α => a = b) := by
  refine ⟨fun {a b} hab => ?_, fun {a b} hab key => ?_⟩
  · rw [hab, List.forall₂_same]
    exact fun _ _ => ⟨rfl, rfl⟩
  · rw [hab]
    cases Tree.child? b key with
    | none => exact .none
    | some node => exact .some rfl

end Tree

open PathQuery.Tree

/-! ## Matchers -/

/-- Two matchers that test keys alike, and related nodes alike. -/
structure Matcher.Twins (R : α → β → Prop) (m n : Matcher) : Prop where
  isParent : m.isParent = n.isParent
  isNone : m.key.isNone = n.key.isNone
  recursive : m.recursive = n.recursive
  testKey : ∀ key, Matcher.test m.key (.key key) = Matcher.test n.key (.key key)
  matchValue : ∀ {a b}, R a b → m.matchValue a = n.matchValue b

/-- Two hits of related nodes in the same place, with the same captures. -/
structure Hit.Twins (R : α → β → Prop) (hit : Hit α) (other : Hit β) : Prop where
  holder : R hit.holder other.holder
  node : R hit.node other.node
  path : hit.path = other.path
  captures : hit.captures = other.captures
  splat : hit.splat = other.splat

namespace Matcher.Twins

variable {m n : Matcher} (h : m.Twins R n)

include h

theorem matchEntry {a : α} {b : β} (hab : R a b) (key : Key) :
    m.matchEntry key a = n.matchEntry key b := by
  rw [Matcher.matchEntry, Matcher.matchEntry, h.testKey, h.matchValue hab]

theorem splatOf {visit : Visit α} {other : Visit β} (hvisit : visit.Twins R other) :
    m.splatOf visit = n.splatOf other := by
  rw [Matcher.splatOf, Matcher.splatOf, h.recursive, h.isNone, hvisit.path, hvisit.descent]

theorem hit? {visit : Visit α} {other : Visit β} (hvisit : visit.Twins R other) :
    Option.Rel (Hit.Twins R) (m.hit? visit) (n.hit? other) := by
  rw [Matcher.hit?, Matcher.hit?, hvisit.key, h.matchEntry hvisit.node]
  cases n.matchEntry other.key other.node with
  | none => exact .none
  | some captures =>
    exact .some ⟨hvisit.holder, hvisit.node, hvisit.path, rfl, h.splatOf hvisit⟩

theorem forall₂_hits (hR : Tree.Twins R) {a : α} {b : β} (hab : R a b) :
    List.Forall₂ (Hit.Twins R) (m.hits a) (n.hits b) := by
  have hreach : List.Forall₂ (Visit.Twins R) (m.reach a) (n.reach b) := by
    unfold reach
    rw [h.recursive]
    split
    · exact hR.preorder hab []
    · exact hR.visits hab []
  rw [hits_eq, hits_eq]
  exact List.rel_filterMap (fun _ _ hvisit => h.hit? hvisit) hreach

end Matcher.Twins

/-! ## Steps -/

/-- Two candidates at related nodes with the same location. -/
structure Candidate.Twins (R : α → β → Prop) (candidate : Candidate α) (other : Candidate β) :
    Prop where
  holder : R candidate.holder other.holder
  node : R candidate.node other.node
  location : candidate.location = other.location

/-- Two answers at related nodes with the same location. -/
structure Answer.Twins (R : α → β → Prop) (answer : Answer α) (other : Answer β) : Prop where
  holder : R answer.holder other.holder
  key : answer.key = other.key
  location : answer.location = other.location

namespace Query

variable {m n : Matcher} {root : α} {root' : β} {candidates : List (Candidate α)}
  {others : List (Candidate β)}

theorem twins_stepInto (hR : Tree.Twins R) (h : m.Twins R n) (index : Nat)
    (hcandidates : List.Forall₂ (Candidate.Twins R) candidates others) :
    List.Forall₂ (Candidate.Twins R) (stepInto index m candidates) (stepInto index n others) := by
  refine List.rel_flatMap hcandidates fun candidate other htwins => ?_
  rw [List.forall₂_map_left_iff, List.forall₂_map_right_iff]
  refine (h.forall₂_hits hR htwins.node).imp fun hit hit' hhit => ?_
  refine ⟨hhit.holder, hhit.node, ?_⟩
  unfold extend
  dsimp only
  rw [htwins.location, hhit.path, hhit.captures, hhit.splat]

theorem rel_holderAndNode? (hR : Tree.Twins R) (hroot : R root root') (path : List Key) :
    Option.Rel (fun x y => R x.1 y.1 ∧ R x.2 y.2) (holderAndNode? root path)
      (holderAndNode? root' path) := by
  unfold holderAndNode?
  match Tree.resolve? root path, Tree.resolve? root' path, hR.resolve? hroot path with
  | _, _, .none => exact .none
  | _, _, .some hnode =>
    match Tree.resolve? root path.dropLast, Tree.resolve? root' path.dropLast,
      hR.resolve? hroot path.dropLast with
    | _, _, .none => exact .none
    | _, _, .some hholder => exact .some ⟨hholder, hnode⟩

theorem rel_parent? (hR : Tree.Twins R) (h : m.Twins R n) (hroot : R root root') (index : Nat)
    (location : Location) :
    Option.Rel (Candidate.Twins R) (parent? root index m location)
      (parent? root' index n location) := by
  unfold parent?
  dsimp only
  match holderAndNode? root location.path.dropLast, holderAndNode? root' location.path.dropLast,
    rel_holderAndNode? hR hroot location.path.dropLast with
  | _, _, .none => exact .none
  | some (holder, node), some (holder', node'), .some ⟨hholder, hnode⟩ =>
    simp only [Option.bind_eq_bind, Option.bind_some, h.matchValue hnode, h.recursive]
    cases n.matchValue node' with
    | none => exact .none
    | some captures => exact .some ⟨hholder, hnode, rfl⟩

/-- The way up relates the candidates that it keeps if those before it are in the same places and
lead to related parents. -/
theorem rel_stepOut {before after : Candidate α → Candidate β → Prop} {index : Nat}
    (hpath : ∀ {candidate other}, before candidate other →
      candidate.location.path = other.location.path)
    (hparent : ∀ {candidate other}, before candidate other →
      Option.Rel after (parent? root index m candidate.location)
        (parent? root' index n other.location))
    (hcandidates : List.Forall₂ before candidates others) (seen : List (List Key)) :
    List.Forall₂ after (stepOut root index m seen candidates)
      (stepOut root' index n seen others) := by
  induction hcandidates generalizing seen with
  | nil => exact .nil
  | @cons candidate other rest rest' hbefore _ ih =>
    have hup := hparent hbefore
    unfold stepOut
    dsimp only
    rw [hpath hbefore]
    split
    · exact ih seen
    · generalize parent? root index m candidate.location = up,
        parent? root' index n other.location = up' at hup ⊢
      cases hup with
      | none => exact ih seen
      | some hup => exact .cons hup (ih _)

theorem twins_stepOut (hR : Tree.Twins R) (h : m.Twins R n) (hroot : R root root')
    (index : Nat) (hcandidates : List.Forall₂ (Candidate.Twins R) candidates others)
    (seen : List (List Key)) :
    List.Forall₂ (Candidate.Twins R) (stepOut root index m seen candidates)
      (stepOut root' index n seen others) := by
  refine rel_stepOut (fun htwins => congrArg Location.path htwins.location) ?_ hcandidates seen
  intro candidate other htwins
  rw [htwins.location]
  exact rel_parent? hR h hroot index other.location

theorem twins_step (hR : Tree.Twins R) (h : m.Twins R n) (hroot : R root root') (index : Nat)
    (hcandidates : List.Forall₂ (Candidate.Twins R) candidates others) :
    List.Forall₂ (Candidate.Twins R) (step root index m candidates)
      (step root' index n others) := by
  unfold step
  rw [h.isParent]
  split
  · exact twins_stepOut hR h hroot index hcandidates []
  · exact twins_stepInto hR h index hcandidates

/-- Two chains of twins keep the same candidates of two related documents. -/
theorem twins_run (hR : Tree.Twins R) {ms ns : List Matcher}
    (h : List.Forall₂ (Matcher.Twins R) ms ns) (hroot : R root root') (index : Nat)
    (hcandidates : List.Forall₂ (Candidate.Twins R) candidates others) :
    List.Forall₂ (Candidate.Twins R) (run root index ms candidates)
      (run root' index ns others) := by
  induction h generalizing index candidates others with
  | nil => exact hcandidates
  | cons hm _ ih =>
    rw [run_cons, run_cons]
    exact ih (index + 1) (twins_step hR hm hroot index hcandidates)

/-! ## Answers -/

omit [Tree α] [Tree β] in
theorem rel_answer? {candidate : Candidate α} {other : Candidate β}
    (h : candidate.Twins R other) :
    Option.Rel (Answer.Twins R) (answer? candidate) (answer? other) := by
  unfold answer?
  rw [h.location]
  cases other.location.path.getLast? with
  | none => exact .none
  | some key => exact .some ⟨h.holder, rfl, rfl⟩

theorem twins_find (hR : Tree.Twins R) {query query' : Query}
    (h : List.Forall₂ (Matcher.Twins R) query.matchers query'.matchers) (hroot : R root root') :
    List.Forall₂ (Answer.Twins R) (find query root) (find query' root') :=
  List.rel_filterMap (fun _ _ hcandidate => rel_answer? hcandidate)
    (twins_run hR h hroot 0 (.cons ⟨hroot, hroot, rfl⟩ .nil))

/-- Two chains of twins give the same locations in two related documents. -/
theorem map_location_find_of_twins (hR : Tree.Twins R) {query query' : Query}
    (h : List.Forall₂ (Matcher.Twins R) query.matchers query'.matchers) (hroot : R root root') :
    (find query root).map Answer.location = (find query' root').map Answer.location := by
  rw [← List.forall₂_eq_eq_eq, List.forall₂_map_left_iff, List.forall₂_map_right_iff]
  exact (twins_find hR h hroot).imp fun _ _ htwins => htwins.location

/-- Two chains of twins give the same answers in one document. -/
theorem find_eq_of_twins {query query' : Query}
    (h : List.Forall₂ (Matcher.Twins fun a b : α => a = b) query.matchers query'.matchers)
    (root : α) : find query root = find query' root := by
  rw [← List.forall₂_eq_eq_eq]
  refine (twins_find Tree.twins_eq h rfl).imp fun _ _ ⟨hholder, hkey, hlocation⟩ => ?_
  exact Answer.mk.injEq .. ▸ ⟨hholder, hkey, hlocation⟩

end Query

end PathQuery
