import SqlTemplate.Proofs.Values

/-!
# What values can fail with

Values without fragments have no template of their own, so whatever they write fails, if it does,
for the value (`blameless_piece`). Other values may fail as the fragments in them do; and a class of
errors that these are in, and all errors of values, has whatever is written in a hole in it
(`failsIn_piece`).
-/

namespace SqlTemplate

open Render

/-! ### Classes of errors -/

/-- Whatever sink there is, a piece fails with an error of a kind. -/
def Piece.FailsIn {α : Type} (P : Error → Prop) (piece : Piece α) : Prop :=
  ∀ sink, SqlTemplate.FailsIn P (piece.result sink).1

namespace Piece.FailsIn

variable {α β : Type} {P : Error → Prop}

theorem pure (a : α) : FailsIn P (Pure.pure a : Piece α) := fun _ => .ok a

theorem throw {e : Error} (h : P e) : FailsIn P (MonadExcept.throw e : Piece α) := fun _ => .error h

theorem liftM {value : Except Error α} (h : SqlTemplate.FailsIn P value) :
    FailsIn P (MonadLiftT.monadLift value : Piece α) := fun _ => h

theorem bind {piece : Piece α} {next : α → Piece β} (h : FailsIn P piece)
    (h' : ∀ a, FailsIn P (next a)) : FailsIn P (piece >>= next) := by
  intro sink
  have hpiece := h sink
  rw [result_bind]
  generalize piece.result sink = given at hpiece ⊢
  rcases given with ⟨e | a, sink'⟩
  · exact .error (hpiece e rfl)
  · exact h' a sink'

theorem append {first second : Piece Bytes} (h : FailsIn P first) (h' : FailsIn P second) :
    FailsIn P (first.append second) :=
  h.bind fun _ => h'.bind fun _ => .pure _

theorem scalar (hP : ∀ e, e.isOfTemplate = false → P e) (s : Settings) (value : Value) :
    FailsIn P (Piece.scalar s value) := by
  have hliteral : SqlTemplate.FailsIn P (Literal.scalar s.literalStyle value) :=
    (blameless_scalar _ value).mono hP
  intro sink
  cases sink with
  | none => exact hliteral
  | some values =>
    rw [result_scalar_some]
    split
    · exact .ok _
    · exact hliteral

end Piece.FailsIn

/-- A piece does not fail for a template. -/
abbrev Piece.Blameless (piece : Piece Bytes) : Prop := piece.FailsIn fun e => e.isOfTemplate = false

theorem closed_failsIn {P : Error → Prop} (hP : ∀ e, e.isOfTemplate = false → P e) (s : Settings) :
    Closed s (Piece.FailsIn P) where
  nil := .pure []
  append := .append
  throw h := .throw (hP _ h)
  constant _ _ := .pure _
  identity _ := .pure _
  name _ _ := .pure _
  json _ := .pure _
  scalar := .scalar hP s

/-! ### Holes -/

section Holes

variable {s : Settings} {qualifier : Option String} {value : Value}

theorem blameless_fitText (mode : SafeMode) (text : Bytes) :
    Blameless (fitText qualifier s mode text) := by
  unfold fitText
  split
  · exact .error rfl
  · exact .ok _

theorem blameless_namesText (kind : NameList) (next : Bytes) (value : Value) :
    Blameless (namesText s qualifier kind next value) := by
  refine (blameless_namesOf value).bind fun names _ => ?_
  split
  · cases kind with
    | orAll | optional => exact .ok _
    | nonempty => exact .error rfl
  · exact .ok _

variable {P : Error → Prop} (hP : ∀ e, e.isOfTemplate = false → P e)

include hP

theorem failsIn_fitText (qualifier : Option String) (mode : SafeMode) (text : Bytes) :
    Piece.FailsIn P (liftM (fitText qualifier s mode text)) :=
  .liftM ((blameless_fitText mode text).mono hP)

theorem emits_failsIn_sanitized {mode : SafeMode} {step : Render Unit}
    (h : Emits (Piece.FailsIn P) step) :
    Emits (Piece.FailsIn P) (sanitized qualifier s mode step) :=
  h.isLocal.sanitized.emits (h.holds.bind fun _ => failsIn_fitText hP qualifier mode _)

/-- Whatever hole a value stands in fails with an error of a value, or with one that a fragment in
the value fails with. -/
theorem failsIn_piece (next : Bytes) (hole : Hole)
    (h : value.Nests (EmitsNested s (Piece.FailsIn P)) qualifier) :
    ((Filling.ofValue s value).piece s qualifier next hole).FailsIn P := by
  have hC := closed_failsIn hP s
  have hthrow (e : Error) (he : e.isOfTemplate = false ∨ value.toJson = .error e) :
      Piece.FailsIn P (throw e : Piece Bytes) := by
    rcases he with hvalue | hjson
    · exact hC.throw hvalue
    · exact throws_toJson hC qualifier value h e hjson
  cases hole with
  | value => exact (emits_writeValue hC h).holds
  | list => exact .append (.pure _) (.append (emits_writeList hC h).holds (.pure _))
  | rows => exact (emits_writeRowsOf hC h).holds
  | name => exact .liftM (((blameless_nameOf value).map _).mono hP)
  | names kind => exact .liftM ((blameless_namesText kind next value).mono hP)
  | assignments => exact (emits_writeAssignmentsOf hC qualifier h).holds
  | conditions all => exact (emits_writeConditionsOf hC all qualifier h).holds
  | expression =>
    refine (emits_writeExpression hthrow (fun _ => failsIn_fitText hP _ _ _)
      (fun _ => failsIn_fitText hP _ _ _) ?_).holds
    rintro ⟨child, head, holes, sizeHint⟩ rfl
    have hnested : Emits _ (embedded s child (renderFrom s qualifier 0 head holes)) := h.emits
    simp only [writeExpression]
    split
    · exact emits_failsIn_sanitized hP hnested
    · exact hnested
  | qualifier => exact .liftM (((blameless_qualifierOf value).map _).mono hP)
  | bare =>
    exact (emits_writeBare hthrow (fun _ => failsIn_fitText hP _ _ _) (fun _ => .pure _) h).holds

omit hP in
/-- A value without fragments does not fail for a template, whatever hole it stands in. -/
theorem blameless_piece (next : Bytes) (hole : Hole) (h : value.FragmentFree) :
    ((Filling.ofValue s value).piece s qualifier next hole).Blameless :=
  failsIn_piece (fun _ he => he) next hole (h.nests qualifier)

end Holes

end SqlTemplate
