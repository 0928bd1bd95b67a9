import PathQuery.Json.Reader
import PathQuery.Proofs.Failures
import PathQuery.Proofs.Number.Rounding
import PathQuery.Proofs.Ordered
import PathQuery.Proofs.Tree.Documents

/-!
# Documents that are read

Numbers and words are leaves in their one form (`Spelled`), and an object keeps each of its names
once. So a property that leaves have, and arrays and objects whose parts have it (`Compositional`),
holds of what a reader has put together at every lexeme (`Expected.Sound`, `sound_next`), and of
every document that is read from text (`of_read`). Such documents are coherent
(`coherent_of_read`), and their numbers are in the form that values have
(`throughout_proper_of_read`).
-/

namespace PathQuery

open Number PathQuery.Tree

namespace Number.Numeral

theorem takeDigits_lt {n : Nat} (h : n < UInt64.size) (text : List Char) :
    (takeDigits n text).1 < UInt64.size := by
  induction text generalizing n with
  | nil => exact h
  | cons c rest ih =>
    rw [takeDigits]
    dsimp only
    split
    · rename_i hnext
      exact ih hnext
    · exact h

theorem lt_of_word? {numeral : Numeral} {n : Nat} (h : numeral.word? = some n) :
    n < UInt64.size := by
  unfold word? at h
  dsimp only at h
  split at h
  · cases h
    exact takeDigits_lt (by decide) _
  · cases h

end Number.Numeral

namespace Json

/-! ## Lexemes of leaves -/

/-- A value that is no number, or a number in its one form: a double is finite, and a whole number
is unsigned only above the signed words. -/
def Proper : Json → Prop
  | float x => x.isFinite = true
  | unsigned n => Int64.maxValue.toInt < n.toNat
  | _ => True

instance : DecidablePred Proper
  | float x => inferInstanceAs (Decidable (x.isFinite = true))
  | unsigned n => inferInstanceAs (Decidable (Int64.maxValue.toInt < n.toNat))
  | null | bool _ | integer _ | string _ | array _ | object _ => .isTrue trivial

/-- A leaf that a text spells. -/
structure Spelled (value : Json) : Prop where
  scalar : value.scalar?.isSome
  proper : value.Proper

theorem spelled_whole {negative : Bool} {n : Nat} (h : n < UInt64.size) :
    (whole negative n).Spelled := by
  unfold whole
  split
  · split
    · exact ⟨rfl, rfl⟩
    · split
      · exact ⟨rfl, trivial⟩
      · exact ⟨rfl, Double.isFinite_ofInt (by omega)⟩
  · split
    · exact ⟨rfl, trivial⟩
    · rename_i habove
      refine ⟨rfl, ?_⟩
      rw [Proper, UInt64.toNat_ofNat_of_lt' h]
      omega

theorem spelled_of_numberValue {numeral : Numeral} {exponentOffset offset : Nat} {value : Json}
    (h : numberValue numeral exponentOffset offset = .ok value) : value.Spelled := by
  have hfinite : (if numeral.toDouble.isFinite then Except.ok (float numeral.toDouble)
      else .error (Fault.mk .numberTooLarge offset)) = .ok value → value.Spelled := by
    intro hok
    split at hok
    · rename_i hx
      cases hok
      exact ⟨rfl, hx⟩
    · cases hok
  unfold numberValue at h
  dsimp only at h
  split at h
  · rename_i hword
    cases h
    exact spelled_whole (Numeral.lt_of_word? hword)
  · exact hfinite h
  · split at h
    · cases h
    · exact hfinite h

theorem spelled_of_scanNumber {offset read : Nat} {text : List Char} {value : Json}
    (h : scanNumber offset text = .ok (value, read)) : value.Spelled := by
  unfold scanNumber at h
  dsimp only at h
  split at h
  · cases h
  · cases h
  · cases h
  · obtain ⟨numeral, -, h⟩ := exists_of_bind_eq_ok h
    obtain ⟨number, hnumber, h⟩ := exists_of_bind_eq_ok h
    cases h
    exact spelled_of_numberValue hnumber

theorem spelled_of_leafLexeme {result : Except Fault (Json × Nat)}
    (hresult : ∀ value read, result = .ok (value, read) → value.Spelled) {value : Json}
    (h : (leafLexeme result).1 = .leaf value) : value.Spelled := by
  cases result with
  | error fault => cases h
  | ok pair =>
    cases h
    exact hresult _ _ rfl

theorem spelled_of_lexeme {offset : Nat} {c : Char} {rest : List Char} {value : Json}
    (h : (lexeme offset c rest).1 = .leaf value) : value.Spelled := by
  have hword : ∀ (word : Json) (read : Nat) (result : Except Fault Unit), word.Spelled →
      (leafLexeme (result.map fun _ => (word, read))).1 = .leaf value → value.Spelled := by
    intro word read result hspelled hleaf
    refine spelled_of_leafLexeme (fun value' read' hok => ?_) hleaf
    cases result with
    | error fault => cases hok
    | ok _ =>
      cases hok
      exact hspelled
  unfold lexeme at h
  dsimp only at h
  split at h
  any_goals cases h
  · split at h <;> cases h
  · exact hword .null _ _ ⟨rfl, trivial⟩ h
  · exact hword (.bool true) _ _ ⟨rfl, trivial⟩ h
  · exact hword (.bool false) _ _ ⟨rfl, trivial⟩ h
  · split at h
    · exact spelled_of_leafLexeme (fun _ _ => spelled_of_scanNumber) h
    · cases h

/-- The values of lexemes are leaves. -/
theorem spelled_of_mem_lexemes {text : List Char} {offset : Nat} {value : Json}
    (h : (offset, .leaf value) ∈ lexemes text) : value.Spelled := by
  have hfrom : ∀ skip start, (offset, .leaf value) ∈ lexemesFrom skip start text →
      value.Spelled := by
    clear h
    induction text with
    | nil =>
      intro skip start hmem
      cases skip <;> cases hmem
    | cons c rest ih =>
      intro skip start hmem
      cases skip with
      | succ skip => exact ih _ _ hmem
      | zero =>
        rw [lexemesFrom] at hmem
        split at hmem
        · exact ih _ _ hmem
        · split at hmem
          · cases List.mem_singleton.1 hmem
          · cases List.mem_singleton.1 hmem
          · rename_i l skip hl
            rcases List.mem_cons.1 hmem with heq | hmem
            · obtain ⟨-, heq⟩ := Prod.mk.inj heq
              exact spelled_of_lexeme (congrArg Prod.fst (heq ▸ hl))
            · exact ih _ _ hmem
  exact hfrom 0 0 h

/-! ## The reader -/

/-- A property of values that leaves have, and arrays and objects if what they hold has it. -/
structure Compositional (Q : Json → Prop) : Prop where
  leaf : ∀ {value}, value.Spelled → Q value
  array : ∀ {items}, (∀ item ∈ items, Q item) → Q (array items)
  object : ∀ {members : List (String × Json)}, (members.map Prod.fst).Nodup →
    (∀ member ∈ members, Q member.2) → Q (object members)

/-- Values that have a property, under names that differ. -/
def Frame.Sound (Q : Json → Prop) : Frame → Prop
  | .items done => ∀ item ∈ done, Q item
  | .members done _ => (done.map Prod.fst).Nodup ∧ ∀ member ∈ done, Q member.2

variable {Q : Json → Prop}

namespace Expected

/-- The frames around, the one that is being read among them, where there is one. -/
def frames : Expected → List Frame
  | value outer => outer
  | firstItem outer => outer
  | item done outer => .items done :: outer
  | afterItem done outer => .items done :: outer
  | firstName outer => outer
  | name done outer => .members done "" :: outer
  | colon text done outer => .members done text :: outer
  | afterMember done outer => .members done "" :: outer
  | finish json => [.items [json]]

/-- All that was read so far has a property. -/
def Sound (Q : Json → Prop) (expected : Expected) : Prop := ∀ frame ∈ expected.frames, frame.Sound Q

theorem sound_deliver {json : Json} {outer : List Frame} (hjson : Q json)
    (houter : ∀ frame ∈ outer, frame.Sound Q) : (deliver json outer).Sound Q := by
  cases outer with
  | nil => exact List.forall_mem_singleton.2 (List.forall_mem_singleton.2 hjson)
  | cons frame outer =>
    obtain ⟨hframe, hrest⟩ := List.forall_mem_cons.1 houter
    cases frame with
    | items done => exact List.forall_mem_cons.2 ⟨List.forall_mem_cons.2 ⟨hjson, hframe⟩, hrest⟩
    | members done key =>
      obtain ⟨hnames, hvalues⟩ := hframe
      refine List.forall_mem_cons.2 ⟨⟨Ordered.nodup_put hnames, fun member hmember => ?_⟩, hrest⟩
      rcases Ordered.mem_put hmember with rfl | hmember
      · exact hjson
      · exact hvalues member hmember

theorem sound_startValue (hQ : Compositional Q) {limit offset : Nat} {outer : List Frame}
    {l : Lexeme} {after : Expected} (houter : ∀ frame ∈ outer, frame.Sound Q)
    (hleaf : ∀ json, l = .leaf json → json.Spelled)
    (h : startValue limit offset outer l = .ok after) : after.Sound Q := by
  cases l with
  | leaf json =>
    cases h
    exact sound_deliver (hQ.leaf (hleaf json rfl)) houter
  | string text =>
    cases h
    exact sound_deliver (hQ.leaf ⟨rfl, trivial⟩) houter
  | arrayStart =>
    rw [startValue] at h
    split at h
    · cases h
      exact houter
    · cases h
  | objectStart =>
    rw [startValue] at h
    split at h
    · cases h
      exact houter
    · cases h
  | _ => cases h

theorem sound_startName {offset : Nat} {done : List (String × Json)} {outer : List Frame}
    {l : Lexeme} {after : Expected} (hdone : (Frame.members done "").Sound Q)
    (houter : ∀ frame ∈ outer, frame.Sound Q) (h : startName offset done outer l = .ok after) :
    after.Sound Q := by
  cases l with
  | string text =>
    cases h
    exact List.forall_mem_cons.2 ⟨hdone, houter⟩
  | _ => cases h

/-- Every lexeme that is read keeps a property of what was read so far. -/
theorem sound_next (hQ : Compositional Q) {limit offset : Nat} {expected after : Expected}
    {l : Lexeme} (hsound : expected.Sound Q) (hleaf : ∀ json, l = .leaf json → json.Spelled)
    (h : next limit offset expected l = .ok after) : after.Sound Q := by
  cases expected with
  | value outer => exact sound_startValue hQ hsound hleaf h
  | firstItem outer =>
    have hitems : ∀ frame ∈ .items [] :: outer, frame.Sound Q :=
      List.forall_mem_cons.2 ⟨List.forall_mem_nil _, hsound⟩
    by_cases hend : l = .arrayEnd
    · subst hend
      cases h
      exact sound_deliver (hQ.array (List.forall_mem_nil _)) hsound
    · rw [next] at h
      · exact sound_startValue hQ hitems hleaf h
      · exact hend
  | item done outer =>
    by_cases hend : l = .arrayEnd
    · subst hend
      cases h
    · rw [next] at h
      · exact sound_startValue hQ hsound hleaf h
      · exact hend
  | afterItem done outer =>
    obtain ⟨hdone, houter⟩ := List.forall_mem_cons.1 hsound
    cases l with
    | comma =>
      cases h
      exact hsound
    | arrayEnd =>
      cases h
      refine sound_deliver (hQ.array fun item hitem => ?_) houter
      exact hdone item (List.mem_reverse.1 hitem)
    | _ => cases h
  | firstName outer =>
    have hmembers : (Frame.members [] "").Sound Q := ⟨List.nodup_nil, List.forall_mem_nil _⟩
    by_cases hend : l = .objectEnd
    · subst hend
      cases h
      exact sound_deliver (hQ.object hmembers.1 hmembers.2) hsound
    · rw [next] at h
      · exact sound_startName hmembers hsound h
      · exact hend
  | name done outer =>
    obtain ⟨hdone, houter⟩ := List.forall_mem_cons.1 hsound
    by_cases hend : l = .objectEnd
    · subst hend
      cases h
    · rw [next] at h
      · exact sound_startName hdone houter h
      · exact hend
  | colon text done outer =>
    cases l with
    | colon =>
      cases h
      exact hsound
    | _ => cases h
  | afterMember done outer =>
    obtain ⟨hdone, houter⟩ := List.forall_mem_cons.1 hsound
    cases l with
    | comma =>
      cases h
      exact hsound
    | objectEnd =>
      cases h
      exact sound_deliver (hQ.object hdone.1 hdone.2) houter
    | _ => cases h
  | finish json => cases h

theorem of_close {size : Nat} {expected : Expected} {value : Json}
    (hsound : expected.Sound Q) (h : expected.close size = .ok value) : Q value := by
  cases expected with
  | finish json =>
    cases h
    exact hsound _ List.mem_cons_self _ List.mem_cons_self
  | _ => cases h

end Expected

theorem of_assemble (hQ : Compositional Q) {limit size : Nat} {ls : List (Nat × Lexeme)}
    {expected : Expected} {value : Json} (hsound : expected.Sound Q)
    (hleaves : ∀ offset json, (offset, .leaf json) ∈ ls → json.Spelled)
    (h : assemble limit size ls expected = .ok value) : Q value := by
  induction ls generalizing expected with
  | nil => exact Expected.of_close hsound h
  | cons first rest ih =>
    obtain ⟨offset, l⟩ := first
    rw [assemble] at h
    split at h
    · rename_i after hnext
      have hleaf : ∀ json, l = .leaf json → json.Spelled := fun json heq =>
        hleaves offset json (heq ▸ List.mem_cons_self)
      refine ih (Expected.sound_next hQ hsound hleaf hnext) ?_ h
      exact fun offset json hmem => hleaves offset json (List.mem_cons_of_mem _ hmem)
    · cases h

/-! ## Documents -/

variable {limit : Nat} {text : List Char} {value : Json}

/-- **Documents that are read** have every property that passes from their parts to them. -/
theorem of_read (hQ : Compositional Q) (h : read limit text = .ok value) : Q value := by
  have hstart : (Expected.value []).Sound Q := List.forall_mem_nil _
  exact of_assemble hQ hstart (fun _ _ hmem => spelled_of_mem_lexemes hmem) h

theorem coherent_of_read (h : read limit text = .ok value) : Coherent value := by
  refine of_read ⟨fun hleaf => coherent_leaf hleaf.scalar, coherent_array_iff.2, ?_⟩ h
  exact fun hnames hvalues => coherent_object_iff.2 ⟨hnames, hvalues⟩

theorem throughout_proper_of_read (h : read limit text = .ok value) : Throughout Proper value := by
  refine of_read ⟨fun hleaf => ?_, ?_, ?_⟩ h
  · exact (throughout_leaf_iff hleaf.scalar).2 hleaf.proper
  · exact fun hitems => throughout_array_iff.2 ⟨trivial, hitems⟩
  · exact fun _ hvalues => throughout_object_iff.2 ⟨trivial, hvalues⟩

end Json

end PathQuery
