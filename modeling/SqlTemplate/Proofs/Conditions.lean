import SqlTemplate.Proofs.Calls
import SqlTemplate.Proofs.Guards
import SqlTemplate.Proofs.Layout

/-!
# The texts of conditions

A condition has a text that says nothing of chunks and holes: a text that is checked by itself, the
tests of some columns, or a fragment that is rendered by itself and checked once more under a
qualifier (`Condition.text`). A hole for a condition is filled with just that, and the main
statement, `means_condition`, is that the bits of a condition mean its text.
-/

namespace SqlTemplate

open Render

/-! ### The specification -/

/-- What a step writes to an empty canvas without a sink. -/
def Render.bytes (step : Render Unit) : Except Error Bytes := (step.piece.result none).1

/-- A column and what holds for it. -/
def testText (s : Settings) (base : Option String) (entry : String × Value) : Except Error Bytes :=
  textOf [.ok (Name.write s.nameQuote base entry.1),
    match entry.2 with
    | .null => .ok (utf8 " IS NULL")
    | .list items => textOf [.ok (utf8 " IN ("), bytes (writeItems s 1 false items), .ok (utf8 ")")]
    | value => textOf [.ok (utf8 "="), bytes (writeValue s none value)]]

/-- The tests of all columns, in parentheses. -/
def testsText (s : Settings) (base : Option String) : List (String × Value) → Except Error Bytes
  | [] => .ok (utf8 (s.identityText true))
  | entries => textOf [.ok (utf8 "("), joined " AND " (entries.map (testText s base)), .ok (utf8 ")")]

/-- A fragment under the settings and the qualifier of a statement. Under a qualifier its text is
checked once more. -/
def fragmentText (s : Settings) (base : Option String) (f : Fragment) : Except Error Bytes := do
  s.checkEmbeds f.settings
  let text ← bytes (f.render s base)
  if base.isSome then fitText base s .nested text else return text

/-- The text of a condition. No other values give one. -/
def Condition.text (s : Settings) (base : Option String) : Condition → Except Error Bytes
  | .expression (.str text) =>
    textOf [.ok (utf8 "("), (sanitize text base s .expression).map utf8, .ok (utf8 ")")]
  | .expression (.fragment f) => textOf [.ok (utf8 "("), fragmentText s base f, .ok (utf8 ")")]
  | .pairs (.map entries) => testsText s base entries
  | .expression value | .pairs value => .error (.misuse (.conditionKind .filter value.typeName))

/-! ### Steps and their texts -/

/-- A fragment on an empty canvas is its piece. -/
theorem piece_render (s : Settings) (qualifier : Option String) (f : Fragment) :
    (f.render s qualifier).piece = pieceFrom s qualifier 0 none 0 (utf8 f.head) f.holes := by
  apply Piece.ext
  intro sink
  have hawaits : (Canvas.start .empty sink).Awaits (utf8 f.head) [] 0 := ⟨rfl, fun b _ => Iff.rfl⟩
  have hwrote := renderFrom_wrote s qualifier 0 (isLocal_holes s f.holes) hawaits
  change WroteFrom _ _ ((pieceFrom s qualifier 0 none 0 (utf8 f.head) f.holes).result sink)
    (exec (f.render s qualifier) (.start .empty sink)) at hwrote
  rw [result_piece]
  generalize exec (f.render s qualifier) (.start .empty sink) = left at hwrote ⊢
  generalize (pieceFrom s qualifier 0 none 0 (utf8 f.head) f.holes).result sink = given at hwrote ⊢
  cases hwrote with
  | ok hclosing hsink hout =>
    rw [List.nil_append] at hout
    simp [Except.map, hsink, hout]
  | error hsink hout => simp [Except.map, hsink]

theorem bytes_embedded (s : Settings) (qualifier : Option String) (f : Fragment) :
    bytes (embedded s f.settings (renderFrom s qualifier 0 f.head f.holes)) =
      (do s.checkEmbeds f.settings; bytes (f.render s qualifier)) := by
  have hwrites : Writes (embedded s f.settings (renderFrom s qualifier 0 f.head f.holes)) _ :=
    writes_embedded (isLocal_holes s f.holes)
  unfold bytes
  rw [hwrites.piece_eq, piece_render]
  cases s.checkEmbeds f.settings <;> rfl

theorem piece_expression_fragment (s : Settings) (base : Option String) (f : Fragment) :
    Hole.expression.piece s base (.fragment f) = fragmentText s base f := by
  obtain ⟨child, head, holes, sizeHint⟩ := f
  have hlocal : Local (embedded s child (renderFrom s base 0 head holes)) :=
    (writes_embedded (isLocal_holes s holes)).isLocal
  have hbytes := bytes_embedded s base ⟨child, head, holes, sizeHint⟩
  simp only [Hole.piece, writeExpression, fragmentText]
  change bytes (if base.isSome then sanitized base s .nested _ else _) = _
  cases base with
  | none =>
    simp only [Option.isSome_none, Bool.false_eq_true, if_false]
    rw [hbytes]
    cases s.checkEmbeds child with
    | error e => rfl
    | ok _ =>
      rw [ok_bind, ok_bind]
      cases bytes (Fragment.render s none ⟨child, head, holes, sizeHint⟩) <;> rfl
  | some qualifier =>
    simp only [Option.isSome_some, if_true]
    unfold bytes at hbytes ⊢
    rw [hlocal.sanitized.piece_eq, hlocal.grows.result_bind_none, hbytes, bind_assoc]
    rfl

/-- Steps one after the other write their texts one after the other. -/
theorem bytes_seq {step next : Render Unit} (h : Local step) (h' : Local next) :
    bytes (step >>= fun _ => next) = (do return (← bytes step) ++ (← bytes next)) := by
  unfold bytes
  rw [(h.seq h').piece_eq, Piece.append, h.grows.result_bind_none]
  congr 1
  funext front
  rw [h'.grows.result_bind_none]
  rfl

theorem bytes_writeText (text : String) : bytes (writeText text) = .ok (utf8 text) :=
  congrArg (fun piece : Piece Bytes => (piece.result none).1) (Writes.write (utf8 text)).piece_eq

theorem bytes_writeName (s : Settings) (qualifier : Option String) (name : String) :
    bytes (writeName s qualifier name) = .ok (Name.write s.nameQuote qualifier name) :=
  congrArg (fun piece : Piece Bytes => (piece.result none).1) (Writes.write _).piece_eq

theorem isLocal_writeItems (s : Settings) (items : List Value) : Local (writeItems s 1 false items) :=
  (emits_writeItems (closed_true s) 1 false (nestsItems_isLocal s items)).isLocal

theorem isLocal_writeValue (s : Settings) (value : Value) : Local (writeValue s none value) :=
  (emits_writeValue (closed_true s) (nests_isLocal s none value)).isLocal

theorem emits_tests (s : Settings) (entries : List (String × Value)) :
    ∀ test ∈ cellsWith (writeTest s) entries, Emits (fun _ => True) test.2 := by
  rw [← testsOf_eq]
  exact emits_testsOf (closed_true s) (nestsEntries_isLocal s entries)

theorem isLocal_writeTests (s : Settings) (base : Option String) (later : Bool)
    (entries : List (String × Value)) :
    Local (writePairs s base " AND " later (cellsWith (writeTest s) entries)) :=
  ((closed_true s).emits_writePairs base (by decide) later (emits_tests s entries)).isLocal

theorem bytes_equals {step : Render Unit} (h : Local step) :
    bytes (equals step) = textOf [.ok (utf8 "="), bytes step] := by
  rw [equals, bytes_seq (isLocal_writeText "=") h, bytes_writeText, textOf_cons, textOf_singleton]

theorem bytes_test (s : Settings) (base : Option String) (entry : String × Value) :
    bytes (writeName s base entry.1 >>= fun _ => writeTest s entry.2) = testText s base entry := by
  have hlocal : Local (writeTest s entry.2) := (emits_tests s [entry] _ List.mem_cons_self).isLocal
  rw [bytes_seq (isLocal_writeName s base entry.1) hlocal, bytes_writeName, testText, textOf_cons,
    textOf_singleton]
  obtain ⟨key, value⟩ := entry
  cases value with
  | null => rfl
  | list items =>
    have hitems : bytes (writeTest s (.list items))
        = textOf [.ok (utf8 " IN ("), bytes (writeItems s 1 false items), .ok (utf8 ")")] := by
      rw [writeTest, bytes_seq (isLocal_writeText _)
        ((isLocal_writeItems s items).seq (isLocal_writeText _)).isLocal,
        bytes_seq (isLocal_writeItems s items) (isLocal_writeText _), bytes_writeText,
        bytes_writeText, textOf_cons, textOf_cons, textOf_singleton]
    rw [hitems]
  | _ =>
    simp only [writeTest]
    rw [bytes_equals (isLocal_writeValue s _)]

/-- A test, and the others after it. -/
theorem bytes_tests_cons (s : Settings) (base : Option String) (entry : String × Value)
    (rest : List (String × Value)) :
    bytes (writePairs s base " AND " false (cellsWith (writeTest s) (entry :: rest))) =
      (do
        let own ← testText s base entry
        return own ++ (← bytes (writePairs s base " AND " true (cellsWith (writeTest s) rest)))) := by
  have htest : Local (writeTest s entry.2) := (emits_tests s [entry] _ List.mem_cons_self).isLocal
  have hsteps : writePairs s base " AND " false (cellsWith (writeTest s) (entry :: rest)) =
      ((writeName s base entry.1 >>= fun _ => writeTest s entry.2) >>= fun _ =>
        writePairs s base " AND " true (cellsWith (writeTest s) rest)) := by
    rw [bind_assoc]
    rfl
  rw [hsteps, bytes_seq ((isLocal_writeName s base entry.1).seq htest).isLocal
    (isLocal_writeTests s base true rest), bytes_test]

/-- The tests after the first, each with the separator before it. -/
theorem bytes_laterTests (s : Settings) (base : Option String) (entries : List (String × Value)) :
    bytes (writePairs s base " AND " true (cellsWith (writeTest s) entries)) =
      textOf (entries.map fun entry => do return utf8 " AND " ++ (← testText s base entry)) := by
  induction entries with
  | nil => rfl
  | cons entry rest ih =>
    have hsteps : writePairs s base " AND " true (cellsWith (writeTest s) (entry :: rest)) =
        (writeText " AND " >>= fun _ =>
          writePairs s base " AND " false (cellsWith (writeTest s) (entry :: rest))) := rfl
    rw [hsteps, bytes_seq (isLocal_writeText _) (isLocal_writeTests s base false (entry :: rest)),
      bytes_tests_cons, ih, bytes_writeText, List.map_cons, textOf_cons]
    cases testText s base entry with
    | error e => rfl
    | ok own =>
      generalize textOf _ = later
      cases later with
      | error e => rfl
      | ok later => exact congrArg Except.ok (List.append_assoc _ _ _).symm

theorem bytes_tests (s : Settings) (base : Option String) (entries : List (String × Value)) :
    bytes (writePairs s base " AND " false (cellsWith (writeTest s) entries)) =
      joined " AND " (entries.map (testText s base)) := by
  cases entries with
  | nil => rfl
  | cons entry rest =>
    rw [bytes_tests_cons, bytes_laterTests, List.map_cons, joined_cons, List.map_map]
    rfl

theorem piece_conditions_map (s : Settings) (base : Option String)
    (entries : List (String × Value)) :
    (Hole.conditions true).piece s base (.map entries) = testsText s base entries := by
  show bytes (writeConditionsOf s true base (.map entries)) = _
  rw [writeConditionsOf, testsOf_eq]
  cases entries with
  | nil => exact bytes_writeText _
  | cons entry rest =>
    have htests := isLocal_writeTests s base false (entry :: rest)
    have hsteps : writeConditions s true base (cellsWith (writeTest s) (entry :: rest)) =
        (writeText "(" >>= fun _ =>
          writePairs s base " AND " false (cellsWith (writeTest s) (entry :: rest)) >>= fun _ =>
            writeText ")") := rfl
    rw [hsteps, bytes_seq (isLocal_writeText _) (htests.seq (isLocal_writeText _)).isLocal,
      bytes_seq htests (isLocal_writeText _), bytes_tests, bytes_writeText, bytes_writeText,
      testsText, textOf_cons, textOf_cons, textOf_singleton]
    intro h
    cases h

/-! ### Conditions -/

def conditionBits (base : Option String) : Condition → List Bit
  | .expression value => qualifierBits base ++ [.text "(", .hole value, .text ")"]
  | .pairs value => qualifierBits base ++ [.text "\x7b", .hole value, .text "&"]

theorem enclosed_text (text : Except Error Bytes) :
    (text.map fun own => [Byte.openParen] ++ own ++ [Byte.closeParen]) =
      textOf [.ok (utf8 "("), text, .ok (utf8 ")")] := by
  have hopen : utf8 "(" = [Byte.openParen] := rfl
  have hclose : utf8 ")" = [Byte.closeParen] := rfl
  rw [textOf_cons, textOf_cons, textOf_singleton, hopen, hclose]
  cases text <;> rfl

/-- Where a condition stands, its text is the specified one, whatever follows. -/
theorem means_condition {s : Settings} {base : Option String} {allowed : List UInt8}
    {c : Condition} (hgiven : c.IsGiven) :
    Means s none allowed (conditionBits base c) (c.text s base) := by
  obtain ⟨clause, value, hvalue⟩ := hgiven
  cases value with
  | str text =>
    cases hvalue
    rw [Condition.text, ← enclosed_text, ← Hole.piece_expression_str]
    exact (Means.parenthesized _).qualified
  | fragment f =>
    cases hvalue
    rw [Condition.text, ← enclosed_text, ← piece_expression_fragment]
    exact (Means.parenthesized _).qualified
  | map entries =>
    rw [Condition.ofValue] at hvalue
    split at hvalue
    · cases hvalue
      rw [Condition.text, ← piece_conditions_map]
      exact (Means.conditions _).qualified
    · cases hvalue
  | _ => cases hvalue

end SqlTemplate
