import SqlTemplate.Proofs.Errors
import SqlTemplate.Proofs.Steps

/-!
# What values write

Every way to write a value is a step that appends the same piece to whatever there is, and a class
of pieces that holds literals and names and is closed under concatenation holds all that values
write. The two are proved together: `Closed s C` says what is needed of a class `C`. A property of
texts makes such a class if it holds of literals and names and survives concatenation
(`Composable`).
-/

namespace SqlTemplate

open Render

/-- The constant texts that values are put together with. -/
def punctuation : List String :=
  [", ", "(", ")", "=", " AND ", " OR ", " IN (", " IS NULL", "NULL", "DEFAULT", ") VALUES ", ",\n"]

/-- A property of texts that whatever values write has, if it is put together from such texts. -/
structure Composable (s : Settings) (P : Bytes → Prop) : Prop where
  nil : P []
  append : ∀ {x y : Bytes}, P x → P y → P (x ++ y)
  constant : ∀ text ∈ punctuation, P (utf8 text)
  identity : ∀ holds, P (utf8 (s.identityText holds))
  name : ∀ qualifier name, P (Name.write s.nameQuote qualifier name)
  literal : ∀ {value bytes}, Literal.scalar s.literalStyle value = .ok bytes → P bytes
  json : ∀ j, P (Literal.json s.literalStyle j)
  placeholder : ∀ position, P (utf8 (Render.placeholder s.family position))

/-- A class of pieces that whatever values write is in, if it is put together from such pieces. What
cannot be written is an error of the value. -/
structure Closed (s : Settings) (C : Piece Bytes → Prop) : Prop where
  nil : C (pure [])
  append : ∀ {first second : Piece Bytes}, C first → C second → C (first.append second)
  throw : ∀ {e : Error}, e.isOfTemplate = false → C (throw e)
  constant : ∀ text ∈ punctuation, C (pure (utf8 text))
  identity : ∀ holds, C (pure (utf8 (s.identityText holds)))
  name : ∀ qualifier name, C (pure (Name.write s.nameQuote qualifier name))
  json : ∀ j, C (pure (Literal.json s.literalStyle j))
  scalar : ∀ value, C (Piece.scalar s value)

theorem closed_true (s : Settings) : Closed s fun _ => True := by
  constructor <;> intros <;> trivial

namespace Closed

variable {s : Settings} {C : Piece Bytes → Prop} (hC : Closed s C)

include hC

theorem emits_text {text : String} (h : text ∈ punctuation) : Emits C (writeText text) :=
  .write (hC.constant text h)

theorem emits_separate (later : Bool) {text : String} (h : text ∈ punctuation) :
    Emits C (separate later text) := by
  cases later with
  | false => exact .pure hC.nil
  | true => exact hC.emits_text h

/-! ### Names -/

theorem emits_writeName (qualifier : Option String) (name : String) :
    Emits C (writeName s qualifier name) :=
  .write (hC.name qualifier name)

theorem intercalate {separator : String} (h : separator ∈ punctuation) {items : List Bytes}
    (hitems : ∀ item ∈ items, C (pure item)) : C (pure ((utf8 separator).intercalate items)) := by
  induction items with
  | nil => exact hC.nil
  | cons item rest ih =>
    obtain ⟨hitem, hrest⟩ := List.forall_mem_cons.mp hitems
    cases rest with
    | nil => simpa [List.intercalate] using hitem
    | cons next rest =>
      rw [List.intercalate_cons_cons, List.append_assoc]
      exact hC.append hitem (hC.append (hC.constant _ h) (ih hrest))

theorem names (qualifier : Option String) (names : List String) :
    C (pure ((utf8 ", ").intercalate (names.map (Name.write s.nameQuote qualifier)))) := by
  apply hC.intercalate (by decide)
  intro item hitem
  obtain ⟨name, -, rfl⟩ := List.mem_map.mp hitem
  exact hC.name qualifier name

/-! ### Maps and rows -/

theorem emits_equals {step : Render Unit} (h : Emits C step) : Emits C (equals step) :=
  (hC.emits_text (by decide)).seq hC.append h

theorem emits_writePairs (qualifier : Option String) {joiner : String}
    (hjoiner : joiner ∈ punctuation) (later : Bool) {cells : List Cell}
    (h : ∀ cell ∈ cells, Emits C cell.2) :
    Emits C (writePairs s qualifier joiner later cells) := by
  induction cells generalizing later with
  | nil => exact .pure hC.nil
  | cons cell rest ih =>
    obtain ⟨hcell, hrest⟩ := List.forall_mem_cons.mp h
    exact (hC.emits_separate later hjoiner).seq hC.append
      ((hC.emits_writeName qualifier cell.1).seq hC.append (hcell.seq hC.append (ih true hrest)))

theorem emits_writeAssignments (qualifier : Option String) {cells : List Cell}
    (h : ∀ cell ∈ cells, Emits C cell.2) : Emits C (writeAssignments s qualifier cells) := by
  unfold writeAssignments
  split
  · exact .throw (hC.throw rfl)
  · apply hC.emits_writePairs qualifier (by decide) false
    intro cell hcell
    obtain ⟨source, hsource, rfl⟩ := List.mem_map.mp hcell
    exact hC.emits_equals (h source hsource)

theorem emits_writeConditions (all : Bool) (qualifier : Option String) {tests : List Cell}
    (h : ∀ test ∈ tests, Emits C test.2) : Emits C (writeConditions s all qualifier tests) := by
  unfold writeConditions
  split
  · exact .write (hC.identity all)
  · refine (hC.emits_text (by decide)).seq hC.append (.seq hC.append ?_ (hC.emits_text (by decide)))
    refine hC.emits_writePairs qualifier ?_ false h
    cases all <;> decide

theorem emits_writeCell {row : List Cell} (h : ∀ cell ∈ row, Emits C cell.2) (column : String) :
    Emits C (writeCell s row column) := by
  unfold writeCell
  cases hcell : row.lookup column with
  | none =>
    apply hC.emits_text
    unfold missingCell
    split <;> decide
  | some step =>
    obtain ⟨key, hmem⟩ : ∃ key, (key, step) ∈ row := by
      rw [List.lookup_eq_some_iff] at hcell
      obtain ⟨front, back, rfl, -⟩ := hcell
      exact ⟨column, List.mem_append_right _ List.mem_cons_self⟩
    exact h _ hmem

theorem emits_writeCells {row : List Cell} (h : ∀ cell ∈ row, Emits C cell.2) (later : Bool)
    (columns : List String) : Emits C (writeCells s row later columns) := by
  induction columns generalizing later with
  | nil => exact .pure hC.nil
  | cons column rest ih =>
    exact (hC.emits_separate later (by decide)).seq hC.append
      ((hC.emits_writeCell h column).seq hC.append (ih true))

theorem emits_writeRows (columns : List String) (index : Nat) {rows : List Row}
    (h : ∀ row ∈ rows, ∀ cells, row = .ok cells → ∀ cell ∈ cells, Emits C cell.2) :
    Emits C (writeRows s columns index rows) := by
  induction rows generalizing index with
  | nil => exact .pure hC.nil
  | cons row rest ih =>
    obtain ⟨hrow, hrest⟩ := List.forall_mem_cons.mp h
    cases row with
    | error found => exact .throw (hC.throw rfl)
    | ok cells =>
      refine .lift (fun e he => hC.throw (blameless_checkColumns _ _ _ e he)) ?_
      intro _ _
      exact (hC.emits_separate _ (by decide)).seq hC.append
        ((hC.emits_text (by decide)).seq hC.append
          ((hC.emits_writeCells (hrow cells rfl) false columns).seq hC.append
            ((hC.emits_text (by decide)).seq hC.append (ih (index + 1) hrest))))

theorem emits_writeRowSet {rows : List Row}
    (h : ∀ row ∈ rows, ∀ cells, row = .ok cells → ∀ cell ∈ cells, Emits C cell.2) :
    Emits C (writeRowSet s rows) := by
  unfold writeRowSet
  split
  · exact .throw (hC.throw rfl)
  · exact .throw (hC.throw rfl)
  · exact (hC.emits_text (by decide)).seq hC.append
      ((Emits.write (hC.names none _)).seq hC.append
        ((hC.emits_text (by decide)).seq hC.append (hC.emits_writeRows _ 0 h)))

/-! ### Literals -/

theorem emits_writeScalar (value : Value) : Emits C (writeScalar s value) :=
  (Writes.writeScalar s value).emits (hC.scalar value)

theorem emits_writeJson {json : Except Error Json}
    (h : ∀ e, json = .error e → C (MonadExcept.throw e)) : Emits C (writeJson s json) :=
  .lift h fun j _ => .write (hC.json j)

theorem emits_checkDepth (depth : Nat) : Emits C (checkDepth s depth) := by
  unfold checkDepth
  split
  · exact .throw (hC.throw rfl)
  · exact .pure hC.nil

end Closed

/-! ### Properties of texts -/

namespace Composable

variable {s : Settings} {P : Bytes → Prop}

/-- The pieces whose texts have the property are such a class. -/
theorem closed (hP : Composable s P) : Closed s (Piece.Yields P) where
  nil := .pure hP.nil
  append := .append hP.append
  throw _ := .throw _
  constant text htext := .pure (hP.constant text htext)
  identity holds := .pure (hP.identity holds)
  name qualifier name := .pure (hP.name qualifier name)
  json j := .pure (hP.json j)
  scalar _ := .scalar hP.literal hP.placeholder

theorem names (hP : Composable s P) (qualifier : Option String) (names : List String) :
    P ((utf8 ", ").intercalate (names.map (Name.write s.nameQuote qualifier))) :=
  hP.closed.names qualifier names none _ rfl

end Composable

end SqlTemplate
