import Mathlib.Data.List.Forall2
import PathQuery.Command.Run
import PathQuery.Proofs.Json.Reader
import PathQuery.Proofs.Path.Suffix
import PathQuery.Proofs.Query.Resolution

/-!
# The find command

The command reads flags, compiles the query and reads the input, in this order, and ends at the
first of these stages that fails (`Finds`). After all of them it gives a record for each answer of
the query. A record's value is looked up in the holder of the answer, which in a document without a
name twice in an object gives the node at the answer's path (`records_record`). Whatever reads the
arguments, the program prints the records, or nothing (`find_agrees`).
-/

namespace PathQuery.Command

open PathQuery.Tree

/-! ## What the command comes to -/

/-- The first letter given that stands for no flag. -/
def strayLetter? (flags : Option String) : Option Char :=
  flags.bind fun letters => letters.toList.find? (· ∉ ['i', 'm', 'x'])

/-- The flags that the letters given stand for, unset if no letters are given. -/
def flagsNamed (flags : Option String) : Option Flags :=
  flags.map fun letters => .named letters.toList

/-- The record of a place and the node there. -/
def recordOf (location : Location) (node : Json) : Json :=
  .object [
    ("path", .ofPath location.path),
    ("value", node),
    ("captures", .array (location.captures.map .string)),
    ("splats", .array (location.splats.map fun splat => .ofPath splat.path))]

/-- The record tells where an answer is, and the node there, which is also what the holder of the
answer has under its key. -/
def Records (document : Json) (answer : Answer Json) (record : Json) : Prop :=
  ∃ node, resolve? document answer.location.path = some node ∧
    child? answer.holder answer.key = some node ∧ record = recordOf answer.location node

/-- What the command comes to: the failure of the first stage that fails, or a record for each
answer, in their order. -/
inductive Finds [Regex.Engine] (codec : Json.Codec) (query : String)
    (input flags : Option String) : Except Error (List Json) → Prop
  | unknownFlag {letter : Char} :
      strayLetter? flags = some letter →
      Finds codec query input flags (.error (.unknownFlag letter))
  | query {error : CompileError} :
      strayLetter? flags = none → Query.compile query (flagsNamed flags) = .error error →
      Finds codec query input flags (.error (.query error))
  | noInput {compiled : Query} :
      strayLetter? flags = none → Query.compile query (flagsNamed flags) = .ok compiled →
      input = none → Finds codec query input flags (.error .noInput)
  | json {compiled : Query} {text fault : String} :
      strayLetter? flags = none → Query.compile query (flagsNamed flags) = .ok compiled →
      input = some text → codec.read text = .error fault →
      Finds codec query input flags (.error (.json fault))
  | records {compiled : Query} {text : String} {document : Json} {records : List Json} :
      strayLetter? flags = none → Query.compile query (flagsNamed flags) = .ok compiled →
      input = some text → codec.read text = .ok document →
      List.Forall₂ (Records document) (compiled.find document) records →
      Finds codec query input flags (.ok records)

/-! ## The stages -/

theorem addLetters_eq (base : Flags) (letters : List Char) :
    base.addLetters letters =
      (letters.find? (· ∉ ['i', 'm', 'x'])).elim (.ok (base.union (.named letters))) .error := by
  induction letters generalizing base with
  | nil => simp [Flags.addLetters, Flags.named, Flags.union]
  | cons c rest ih =>
    have hletter := Flags.isLetter_iff (c := c)
    rw [Flags.isLetter] at hletter
    rw [Flags.addLetters, Flags.named_cons]
    cases h : Flags.ofLetter? c with
    | none =>
      rw [h, Option.isSome_none] at hletter
      have hstray : c ∉ ['i', 'm', 'x'] := fun hmem => Bool.false_ne_true (hletter.2 hmem)
      rw [List.find?_cons, decide_eq_true hstray]
      rfl
    | some flag =>
      rw [h, Option.isSome_some] at hletter
      have hflag : ¬ c ∉ ['i', 'm', 'x'] := not_not_intro (hletter.1 rfl)
      rw [List.find?_cons, decide_eq_false hflag, Option.getD_some, ← Flags.union_assoc]
      exact ih (base.union flag)

theorem mapM_readFlags_eq (flags : Option String) :
    flags.mapM readFlags =
      (strayLetter? flags).elim (.ok (flagsNamed flags)) (.error ∘ .unknownFlag) := by
  cases flags with
  | none => rfl
  | some letters =>
    rw [Option.mapM_some, readFlags, addLetters_eq, strayLetter?, Option.bind_some]
    cases letters.toList.find? (· ∉ ['i', 'm', 'x']) with
    | some letter => rfl
    | none => rw [Flags.empty_union]; rfl

variable {codec : Json.Codec} {query : String} {input flags : Option String} {compiled : Query}
  {text : String} {document : Json}

theorem find_of_strayLetter? [Regex.Engine] {letter : Char} (h : strayLetter? flags = some letter) :
    find codec query input flags = .error (.unknownFlag letter) := by
  rw [find, mapM_readFlags_eq, h]
  rfl

theorem find_of_compile_error [Regex.Engine] {error : CompileError}
    (hflags : strayLetter? flags = none)
    (h : Query.compile query (flagsNamed flags) = .error error) :
    find codec query input flags = .error (.query error) := by
  rw [find, mapM_readFlags_eq, hflags, Option.elim_none]
  simp only [bind, Except.bind, h]
  rfl

/-- After flags and query the input decides. -/
theorem find_of_compile [Regex.Engine] (hflags : strayLetter? flags = none)
    (h : Query.compile query (flagsNamed flags) = .ok compiled) :
    find codec query input flags =
      (readInput codec input).map fun document => (compiled.find document).map record := by
  rw [find, mapM_readFlags_eq, hflags, Option.elim_none]
  simp only [bind, Except.bind, h, Except.mapError]
  cases readInput codec input with
  | error error => rfl
  | ok document =>
    simp only [Query.findEach_eq, List.foldl_push_eq_append]
    simp [Except.map, pure, Except.pure]

/-! ## Records -/

/-- The value of a record is the node at the answer's path. -/
theorem records_record (hc : Consistent document) {answer : Answer Json}
    (h : answer ∈ compiled.find document) : Records document answer (record answer) := by
  obtain ⟨-, node, hnode, hchild⟩ := Query.child?_of_mem_find hc h
  refine ⟨node, hnode, hchild, ?_⟩
  rw [record, hchild]
  rfl

/-- An answer has one record. -/
theorem Records.eq {answer : Answer Json} {first second : Json}
    (hfirst : Records document answer first) (hsecond : Records document answer second) :
    first = second := by
  obtain ⟨node, hnode, -, rfl⟩ := hfirst
  obtain ⟨node', hnode', -, rfl⟩ := hsecond
  rw [Option.some.inj (hnode.symm.trans hnode')]

theorem forall₂_records_iff (hc : Consistent document) {records : List Json} :
    List.Forall₂ (Records document) (compiled.find document) records ↔
      records = (compiled.find document).map record := by
  have hall : List.Forall₂ (Records document) (compiled.find document)
      ((compiled.find document).map record) := by
    rw [List.forall₂_map_right_iff, List.forall₂_same]
    exact fun answer hmem => records_record hc hmem
  constructor
  · intro h
    have hunique : Relator.RightUnique (Records document) := fun _ _ _ => Records.eq
    exact List.right_unique_forall₂' hunique h hall
  · rintro rfl
    exact hall

/-! ## The command -/

section Codec

variable [Regex.Engine]
  (hcodec : ∀ text document, codec.read text = .ok document → Coherent document)

include hcodec

theorem finds_find (query : String) (input flags : Option String) :
    Finds codec query input flags (find codec query input flags) := by
  cases hflags : strayLetter? flags with
  | some letter =>
    rw [find_of_strayLetter? hflags]
    exact .unknownFlag hflags
  | none =>
    cases hquery : Query.compile query (flagsNamed flags) with
    | error error =>
      rw [find_of_compile_error hflags hquery]
      exact .query hflags hquery
    | ok compiled =>
      rw [find_of_compile hflags hquery]
      cases input with
      | none => exact .noInput hflags hquery rfl
      | some text =>
        cases hread : codec.read text with
        | error fault =>
          rw [readInput, hread]
          exact .json hflags hquery rfl hread
        | ok document =>
          rw [readInput, hread]
          have hc := (hcodec text document hread).consistent
          exact .records hflags hquery rfl hread ((forall₂_records_iff hc).2 rfl)

theorem Finds.find_eq {result : Except Error (List Json)}
    (h : Finds codec query input flags result) : find codec query input flags = result := by
  cases h with
  | unknownFlag hflags => exact find_of_strayLetter? hflags
  | query hflags hquery => exact find_of_compile_error hflags hquery
  | noInput hflags hquery hinput =>
    rw [find_of_compile hflags hquery, hinput]
    rfl
  | json hflags hquery hinput hread =>
    rw [find_of_compile hflags hquery, hinput, readInput, hread]
    rfl
  | @records compiled text document records hflags hquery hinput hread hrecords =>
    have hc := (hcodec text document hread).consistent
    rw [find_of_compile hflags hquery, hinput, readInput, hread,
      (forall₂_records_iff hc).1 hrecords]
    rfl

theorem find_eq_iff {result : Except Error (List Json)} :
    find codec query input flags = result ↔ Finds codec query input flags result :=
  ⟨fun h => h ▸ finds_find hcodec query input flags, fun h => h.find_eq hcodec⟩

end Codec

/-! ## What the program prints -/

theorem run_find [Regex.Engine] {read : List String → Except Outcome Invocation}
    {arguments : List String} {stdin : Stdin} {given : Option String} {pretty : Bool}
    (harguments : read arguments = .ok (.find query given flags pretty))
    (hinput : chooseInput given stdin = .ok input) :
    run codec read arguments stdin =
      outcome ((find codec query input flags).map fun records =>
        String.join (records.map (line codec pretty))) := by
  have hgiven : chooseInput (Invocation.find query given flags pretty).input? stdin = .ok input :=
    hinput
  rw [run, harguments]
  simp only [Invocation.output, hgiven, bind, Except.bind]
  cases find codec query input flags with
  | error error => rfl
  | ok records => rfl

/-- **The find command** gives the failure of the first of its stages that fails: the flags with
their first unknown letter, the query, the input that is missing, the input that is no JSON text.
After all of them it gives the records of the query's answers on the document, in their order, with
the node at each answer's path, which is always found in the answer's holder, if no object that is
read holds a name twice. Under arguments that call it, the program prints those records and nothing
else, or nothing, and exits with one and the message of the failure. -/
theorem find_agrees [Regex.Engine] (codec : Json.Codec)
    (hcodec : ∀ text document, codec.read text = .ok document → Coherent document)
    (query : String) (flags : Option String) :
    (∀ input result,
        find codec query input flags = result ↔ Finds codec query input flags result) ∧
      ∀ (read : List String → Except Outcome Invocation) arguments given pretty stdin input,
        read arguments = .ok (.find query given flags pretty) →
        chooseInput given stdin = .ok input →
        (∀ records, Finds codec query input flags (.ok records) →
          run codec read arguments stdin =
            { exit := 0, stdout := String.join (records.map (line codec pretty)),
              message := none }) ∧
          ∀ error, Finds codec query input flags (.error error) →
            run codec read arguments stdin =
              { exit := 1, stdout := "", message := some error.message } := by
  refine ⟨fun _ _ => find_eq_iff hcodec, ?_⟩
  intro read arguments given pretty stdin input harguments hinput
  rw [run_find harguments hinput]
  refine ⟨fun records h => ?_, fun error h => ?_⟩
  · rw [h.find_eq hcodec]
    rfl
  · rw [h.find_eq hcodec]
    rfl

theorem coherent_of_codec_read (h : Json.codec.read text = .ok document) :
    Coherent document := by
  cases hread : Json.read Json.nestingLimit text.toList with
  | error fault => cases (congrArg (Except.mapError _) hread).symm.trans h
  | ok value =>
    cases (congrArg (Except.mapError _) hread).symm.trans h
    exact Json.coherent_of_read hread

/-- Reads calls with a query and flags, and with `-p` for records on several lines. -/
def readCall : List String → Except Outcome Invocation
  | ["find", "-f", flags, query] => .ok (.find query none (some flags) false)
  | ["find", "-p", "-f", flags, query] => .ok (.find query none (some flags) true)
  | _ => .error { exit := 2 }

/-- An answer found on the way up, on one line and on several, and a call with which each stage
would fail. -/
theorem find_agrees_up :
    (∀ text document, Json.codec.read text = .ok document → Coherent document) ∧
      (∃ records,
        Finds Json.codec "**/=a*/.." (some "[[1, \"Ann\"], 2]") (some "i") (.ok records) ∧
        run Json.codec readCall ["find", "-f", "i", "**/=a*/.."]
            (.piped (some "[[1, \"Ann\"], 2]")) =
          { exit := 0, stdout := String.join (records.map (line Json.codec false)),
            message := none } ∧
        String.join (records.map (line Json.codec false)) =
          "\x7b\"path\":[0],\"value\":[1,\"Ann\"],\"captures\":[\"nn\"],\"splats\":[[0,1]]\x7d\n" ∧
        run Json.codec readCall ["find", "-p", "-f", "i", "**/=a*/.."]
            (.piped (some "[[1, \"Ann\"], 2]")) =
          { exit := 0, stdout := String.join (records.map (line Json.codec true)),
            message := none } ∧
        String.join (records.map (line Json.codec true)) =
          "\x7b\n  \"path\": [\n    0\n  ],\n  \"value\": [\n    1,\n    \"Ann\"\n  ],\n" ++
            "  \"captures\": [\n    \"nn\"\n  ],\n  \"splats\": [\n    [\n      0,\n" ++
            "      1\n    ]\n  ]\n\x7d\n") ∧
      Finds Json.codec "a(" none (some "iq") (.error (.unknownFlag 'q')) ∧
      run Json.codec readCall ["find", "-f", "iq", "a("] .terminal =
        { exit := 1, stdout := "",
          message := some "Unknown regex flag: 'q' (expected any of i, m, x)" } := by
  have hcodec : ∀ text document, Json.codec.read text = .ok document → Coherent document :=
    fun _ _ => coherent_of_codec_read
  refine ⟨hcodec, ?_, ?_⟩
  · obtain ⟨hfind, hcalls⟩ := find_agrees Json.codec hcodec "**/=a*/.." (some "i")
    obtain ⟨hok, herror⟩ := hcalls readCall ["find", "-f", "i", "**/=a*/.."] none false
      (.piped (some "[[1, \"Ann\"], 2]")) _ rfl rfl
    obtain ⟨hpretty, -⟩ := hcalls readCall ["find", "-p", "-f", "i", "**/=a*/.."] none true
      (.piped (some "[[1, \"Ann\"], 2]")) _ rfl rfl
    have hrun : run Json.codec readCall ["find", "-f", "i", "**/=a*/.."]
        (.piped (some "[[1, \"Ann\"], 2]")) =
          { exit := 0, stdout :=
              "\x7b\"path\":[0],\"value\":[1,\"Ann\"],\"captures\":[\"nn\"],\"splats\":[[0,1]]\x7d\n",
            message := none } := by
      decide +kernel
    have hlines : run Json.codec readCall ["find", "-p", "-f", "i", "**/=a*/.."]
        (.piped (some "[[1, \"Ann\"], 2]")) =
          { exit := 0, stdout :=
              "\x7b\n  \"path\": [\n    0\n  ],\n  \"value\": [\n    1,\n    \"Ann\"\n  ],\n" ++
                "  \"captures\": [\n    \"nn\"\n  ],\n  \"splats\": [\n    [\n      0,\n" ++
                "      1\n    ]\n  ]\n\x7d\n",
            message := none } := by
      decide +kernel
    rw [hrun] at hok herror
    cases hresult : find Json.codec "**/=a*/.." (some "[[1, \"Ann\"], 2]") (some "i") with
    | error error => exact nomatch herror error ((hfind _ _).1 hresult)
    | ok records =>
      have hfinds := (hfind _ _).1 hresult
      have hprints := hok records hfinds
      have hprints' := hlines.symm.trans (hpretty records hfinds)
      exact ⟨records, hfinds, hrun.trans hprints, (congrArg Outcome.stdout hprints).symm,
        hlines.trans hprints', (congrArg Outcome.stdout hprints').symm⟩
  · obtain ⟨-, hcalls⟩ := find_agrees Json.codec hcodec "a(" (some "iq")
    have hstray : Finds Json.codec "a(" none (some "iq") (.error (.unknownFlag 'q')) :=
      .unknownFlag (by decide +kernel)
    have hfails := (hcalls readCall ["find", "-f", "iq", "a("] none false .terminal none rfl rfl).2
    exact ⟨hstray, hfails _ hstray⟩

end PathQuery.Command
