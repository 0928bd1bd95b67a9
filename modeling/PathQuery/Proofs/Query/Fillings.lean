import PathQuery.Proofs.Query.Shape
import PathQuery.Proofs.Query.Twins

/-!
# Absent patterns filled in

A matcher without a pattern for its key or its value tests entries as one with `*` there, so
filling `*` in for absent patterns changes only what recursive searches are said to have gone
through: without a pattern for the key that is the whole way to an entry, its last key included.
Locations that differ in nothing else (`Location.Shortened`) stay so through every step
(`shortened_stepInto`, `shortened_stepOut`) and so through a chain (`shortened_run`).
-/

namespace PathQuery

open PathQuery.Tree

/-! ## Filling in -/

namespace Matcher

/-- The second pattern is the first one, or `*` where the first one is absent. -/
inductive Fills : Option Pattern → Option Pattern → Prop
  | kept (p : Option Pattern) : Fills p p
  | filled : Fills none (some .any)

/-- The second matcher is the first one with `*` for some of its absent patterns. -/
structure FilledIn (m n : Matcher) : Prop where
  key : Fills m.key n.key
  value : Fills m.value n.value
  recursive : m.recursive = n.recursive

/-- The key had no pattern and has `*`. -/
def KeyFilled (m n : Matcher) : Prop := m.key = none ∧ n.key = some .any

theorem Fills.test_eq {p q : Option Pattern} (h : Fills p q) {subject : Subject}
    (hsubject : ∀ other, subject ≠ .pattern other) : test p subject = test q subject := by
  cases h with
  | kept => rfl
  | filled => exact (Pattern.captures?_any hsubject).symm

theorem Fills.isParent_eq {p q : Option Pattern} (h : Fills p q) :
    p.any Pattern.isParent = q.any Pattern.isParent := by
  cases h <;> rfl

variable {α : Type} [Tree α] {m n : Matcher}

namespace FilledIn

variable (h : m.FilledIn n)

include h

theorem isParent : m.isParent = n.isParent := h.key.isParent_eq

theorem matchValue (node : α) : m.matchValue node = n.matchValue node :=
  h.value.test_eq (ofNode_ne_pattern node)

theorem matchEntry (key : Key) (node : α) : m.matchEntry key node = n.matchEntry key node := by
  have hsubject : ∀ other, Subject.key key ≠ .pattern other := nofun
  rw [Matcher.matchEntry, Matcher.matchEntry, h.matchValue, h.key.test_eq hsubject]

theorem reach (node : α) : m.reach node = n.reach node := by
  rw [Matcher.reach, Matcher.reach, h.recursive]

end FilledIn

end Matcher

/-! ## Shortened splats -/

/-- The same splat, without its last key if its segment is among the short ones. -/
structure Splat.Shortened (short : Nat → Prop) (splat other : Splat) : Prop where
  segment : splat.segment = other.segment
  shorter : short splat.segment → ∃ key, splat.path = other.path ++ [key]
  same : ¬ short splat.segment → splat.path = other.path

/-- The same location with shortened splats. -/
structure Location.Shortened (short : Nat → Prop) (location other : Location) : Prop where
  path : location.path = other.path
  captures : location.captures = other.captures
  splats : List.Forall₂ (Splat.Shortened short) location.splats other.splats

/-- The same candidate with shortened splats. -/
structure Candidate.Shortened {α : Type} (short : Nat → Prop) (candidate other : Candidate α) :
    Prop where
  holder : candidate.holder = other.holder
  node : candidate.node = other.node
  location : candidate.location.Shortened short other.location

/-- The same answer with shortened splats. -/
structure Answer.Shortened {α : Type} (short : Nat → Prop) (answer other : Answer α) : Prop where
  holder : answer.holder = other.holder
  key : answer.key = other.key
  location : answer.location.Shortened short other.location

variable {short : Nat → Prop}

theorem Splat.Shortened.eq {splat other : Splat} (h : splat.Shortened short other)
    (hshort : ¬ short splat.segment) : splat = other := by
  obtain ⟨segment, path⟩ := splat
  obtain ⟨segment', path'⟩ := other
  exact (Splat.mk.injEq ..).mpr ⟨h.segment, h.same hshort⟩

theorem Location.Shortened.eq {location other : Location} (h : location.Shortened short other)
    (hshort : ∀ i, ¬ short i) : location = other := by
  obtain ⟨path, captures, splats⟩ := location
  obtain ⟨path', captures', splats'⟩ := other
  have hsplats := h.splats.imp fun _ _ hsplat => hsplat.eq (hshort _)
  exact (Location.mk.injEq ..).mpr ⟨h.path, h.captures, List.forall₂_eq_eq_eq ▸ hsplats⟩

theorem Answer.Shortened.eq {α : Type} {answer other : Answer α} (h : answer.Shortened short other)
    (hshort : ∀ i, ¬ short i) : answer = other := by
  obtain ⟨holder, key, location⟩ := answer
  obtain ⟨holder', key', location'⟩ := other
  exact (Answer.mk.injEq ..).mpr ⟨h.holder, h.key, h.location.eq hshort⟩

/-! ## Steps -/

variable {α : Type} [Tree α] {m n : Matcher}

namespace Matcher.FilledIn

variable (h : m.FilledIn n) {index : Nat} (hshort : short index ↔ m.KeyFilled n)

include h hshort

omit [Tree α] in
/-- A recursive search for any key went through one key more than one for `*`. -/
theorem rel_splatOf (visit : Visit α) :
    Option.Rel (fun path path' => Splat.Shortened short ⟨index, path⟩ ⟨index, path'⟩)
      (m.splatOf visit) (n.splatOf visit) := by
  obtain ⟨key, value, recursive⟩ := m
  obtain ⟨key', value', recursive'⟩ := n
  obtain ⟨hkey, -, rfl : recursive = recursive'⟩ := h
  cases recursive with
  | false => exact .none
  | true =>
    cases hkey with
    | filled =>
      have : short index := hshort.2 ⟨rfl, rfl⟩
      exact .some ⟨rfl, fun _ => ⟨visit.key, rfl⟩, fun hkept => absurd this hkept⟩
    | kept p =>
      refine .some ⟨rfl, fun hfilled => ?_, fun _ => rfl⟩
      obtain ⟨hnone, hany⟩ := hshort.1 hfilled
      cases hnone.symm.trans hany

/-- From candidates at one node the two matchers lead to the same hits. -/
theorem shortened_hits (node : α) {location other : Location}
    (hlocation : location.Shortened short other) :
    List.Forall₂ (Candidate.Shortened short) ((m.hits node).map (Query.extend index location))
      ((n.hits node).map (Query.extend index other)) := by
  rw [hits_eq, hits_eq, List.map_filterMap, List.map_filterMap, h.reach]
  refine List.rel_filterMap ?_ (List.forall₂_eq_eq_eq ▸ rfl : List.Forall₂ (· = ·) _ _)
  rintro visit _ rfl
  simp only [hit?, h.matchEntry]
  cases n.matchEntry visit.key visit.node with
  | none => exact .none
  | some captures =>
    refine .some ⟨rfl, rfl, ?_, ?_, ?_⟩
    · exact congrArg (· ++ visit.path) hlocation.path
    · exact congrArg (· ++ captures) hlocation.captures
    · refine List.rel_append hlocation.splats ?_
      have hsplat := h.rel_splatOf hshort visit
      dsimp only
      generalize m.splatOf visit = splat, n.splatOf visit = splat' at hsplat ⊢
      cases hsplat with
      | none => exact .nil
      | some hsplat => exact .cons hsplat .nil

end Matcher.FilledIn

namespace Query

variable {root : α} {candidates others : List (Candidate α)} {index : Nat}

theorem shortened_stepInto (h : m.FilledIn n) (hshort : short index ↔ m.KeyFilled n)
    (hcandidates : List.Forall₂ (Candidate.Shortened short) candidates others) :
    List.Forall₂ (Candidate.Shortened short) (stepInto index m candidates)
      (stepInto index n others) := by
  refine List.rel_flatMap hcandidates fun candidate other hcandidate => ?_
  rw [hcandidate.node]
  exact h.shortened_hits hshort other.node hcandidate.location

theorem rel_parent?_of_filledIn (root : α) (h : m.FilledIn n) (hshort : ¬ short index)
    {location other : Location} (hlocation : location.Shortened short other) :
    Option.Rel (Candidate.Shortened short) (parent? root index m location)
      (parent? root index n other) := by
  unfold parent?
  dsimp only
  rw [hlocation.path, h.recursive]
  cases holderAndNode? root other.path.dropLast with
  | none => exact .none
  | some pair =>
    simp only [Option.bind_eq_bind, Option.bind_some, h.matchValue]
    cases n.matchValue pair.2 with
    | none => exact .none
    | some captures =>
      refine .some ⟨rfl, rfl, rfl, congrArg (· ++ captures) hlocation.captures, ?_⟩
      refine List.rel_append hlocation.splats ?_
      cases n.recursive with
      | false => exact .nil
      | true => exact .cons ⟨rfl, fun hfilled => absurd hfilled hshort, fun _ => rfl⟩ .nil

theorem shortened_stepOut (h : m.FilledIn n) (hshort : ¬ short index)
    (hcandidates : List.Forall₂ (Candidate.Shortened short) candidates others)
    (seen : List (List Key)) :
    List.Forall₂ (Candidate.Shortened short) (stepOut root index m seen candidates)
      (stepOut root index n seen others) :=
  rel_stepOut (fun hcandidate => hcandidate.location.path)
    (fun hcandidate => rel_parent?_of_filledIn root h hshort hcandidate.location) hcandidates seen

theorem shortened_step (h : m.FilledIn n) (hshort : short index ↔ m.KeyFilled n)
    (hcandidates : List.Forall₂ (Candidate.Shortened short) candidates others) :
    List.Forall₂ (Candidate.Shortened short) (step root index m candidates)
      (step root index n others) := by
  unfold step
  rw [h.isParent]
  split
  · rename_i hparent
    refine shortened_stepOut h (fun hfilled => ?_) hcandidates []
    rw [← h.isParent, Matcher.isParent, (hshort.1 hfilled).1] at hparent
    cases hparent
  · exact shortened_stepInto h hshort hcandidates

/-- A chain and one with `*` for some of its absent patterns keep the same candidates but for the
splats of the segments whose keys are filled in. -/
theorem shortened_run {ms ns : List Matcher} (h : List.Forall₂ Matcher.FilledIn ms ns)
    (hshort : ∀ i m n, ms[i]? = some m → ns[i]? = some n → (short (index + i) ↔ m.KeyFilled n))
    (hcandidates : List.Forall₂ (Candidate.Shortened short) candidates others) :
    List.Forall₂ (Candidate.Shortened short) (run root index ms candidates)
      (run root index ns others) := by
  induction h generalizing index candidates others with
  | nil => exact hcandidates
  | cons hm _ ih =>
    rw [run_cons, run_cons]
    refine ih (fun i m n hi hi' => ?_) (shortened_step hm (hshort 0 _ _ rfl rfl) hcandidates)
    rw [Nat.add_right_comm, Nat.add_assoc]
    exact hshort (i + 1) m n hi hi'

/-! ## Answers -/

omit [Tree α] in
theorem rel_answer?_of_shortened {candidate other : Candidate α}
    (h : candidate.Shortened short other) :
    Option.Rel (Answer.Shortened short) (answer? candidate) (answer? other) := by
  unfold answer?
  rw [h.location.path]
  cases other.location.path.getLast? with
  | none => exact .none
  | some key => exact .some ⟨h.holder, rfl, h.location⟩

theorem shortened_find {ms ns : List Matcher} (h : List.Forall₂ Matcher.FilledIn ms ns)
    (hshort : ∀ i m n, ms[i]? = some m → ns[i]? = some n → (short i ↔ m.KeyFilled n))
    (root : α) :
    List.Forall₂ (Answer.Shortened short) (find ⟨ms⟩ root) (find ⟨ns⟩ root) := by
  refine List.rel_filterMap (fun _ _ hcandidate => rel_answer?_of_shortened hcandidate) ?_
  refine shortened_run h (fun i m n hi hi' => ?_) (.cons ⟨rfl, rfl, rfl, rfl, .nil⟩ .nil)
  rw [Nat.zero_add]
  exact hshort i m n hi hi'

/-- **An absent pattern and `*` differ only in splats.** Where `*` is filled in for absent patterns
of a chain, the answers are the same, in the same order, but for the splats of the segments whose
keys were absent: each of these loses its last key. Where `*` is filled in for values only, the
answers are the same. -/
theorem find_filled {ms ns : List Matcher} (h : List.Forall₂ Matcher.FilledIn ms ns) (root : α) :
    (ms.map Matcher.key = ns.map Matcher.key → find ⟨ms⟩ root = find ⟨ns⟩ root) ∧
      List.Forall₂ (Answer.Shortened fun i => ∃ m ∈ ms[i]?, ∃ n ∈ ns[i]?, m.KeyFilled n)
        (find ⟨ms⟩ root) (find ⟨ns⟩ root) := by
  constructor
  · intro hkeys
    have hshort : ∀ (i : Nat) (m n : Matcher), ms[i]? = some m → ns[i]? = some n →
        (False ↔ m.KeyFilled n) := by
      refine fun i m n hm hn => iff_of_false id fun ⟨hnone, hany⟩ => ?_
      have hkey := congrArg (·[i]?) hkeys
      simp only [List.getElem?_map, hm, hn, Option.map_some, hnone, hany] at hkey
      cases hkey
    rw [← List.forall₂_eq_eq_eq]
    exact (shortened_find h hshort root).imp fun _ _ hanswer => hanswer.eq fun _ => id
  · refine shortened_find h (fun i m n hm hn => ?_) root
    constructor
    · rintro ⟨m', hm', n', hn', hfilled⟩
      cases hm.symm.trans hm'
      cases hn.symm.trans hn'
      exact hfilled
    · intro hfilled
      exact ⟨m, hm, n, hn, hfilled⟩

/-- Down, up and down again: the first search and the value of the step up are filled in, the last
search is not. -/
theorem find_filled_parent :
    ∃ ms ns : List Matcher,
      ms = [⟨none, none, true⟩, ⟨some .parent, none, true⟩, ⟨none, none, true⟩] ∧
      ns = [⟨some .any, none, true⟩, ⟨some .parent, some .any, true⟩, ⟨none, none, true⟩] ∧
      List.Forall₂ Matcher.FilledIn ms ns ∧
      (find ⟨ms⟩ (Json.object [("a", .object [("b", .null)])])).map Answer.location =
        [⟨[.name "a"], [], [⟨0, [.name "a"]⟩, ⟨1, []⟩, ⟨2, [.name "a"]⟩]⟩,
          ⟨[.name "a", .name "b"], [], [⟨0, [.name "a"]⟩, ⟨1, []⟩, ⟨2, [.name "a", .name "b"]⟩]⟩,
          ⟨[.name "a", .name "b"], [],
            [⟨0, [.name "a", .name "b"]⟩, ⟨1, []⟩, ⟨2, [.name "b"]⟩]⟩] ∧
      (find ⟨ns⟩ (Json.object [("a", .object [("b", .null)])])).map Answer.location =
        [⟨[.name "a"], [], [⟨0, []⟩, ⟨1, []⟩, ⟨2, [.name "a"]⟩]⟩,
          ⟨[.name "a", .name "b"], [], [⟨0, []⟩, ⟨1, []⟩, ⟨2, [.name "a", .name "b"]⟩]⟩,
          ⟨[.name "a", .name "b"], [], [⟨0, [.name "a"]⟩, ⟨1, []⟩, ⟨2, [.name "b"]⟩]⟩] ∧
      List.Forall₂ (Answer.Shortened fun i => ∃ m ∈ ms[i]?, ∃ n ∈ ns[i]?, m.KeyFilled n)
        (find ⟨ms⟩ (Json.object [("a", .object [("b", .null)])]))
        (find ⟨ns⟩ (Json.object [("a", .object [("b", .null)])])) := by
  have hfilled : List.Forall₂ Matcher.FilledIn
      [⟨none, none, true⟩, ⟨some .parent, none, true⟩, ⟨none, none, true⟩]
      [⟨some .any, none, true⟩, ⟨some .parent, some .any, true⟩, ⟨none, none, true⟩] :=
    .cons ⟨.filled, .kept _, rfl⟩ (.cons ⟨.kept _, .filled, rfl⟩
      (.cons ⟨.kept _, .kept _, rfl⟩ .nil))
  exact ⟨_, _, rfl, rfl, hfilled, by decide +kernel, by decide +kernel,
    (find_filled hfilled _).2⟩

end Query

end PathQuery
