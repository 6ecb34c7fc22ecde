import SqlTemplate.Render

/-!
# Kinds of errors

A rendering fails for its template, if there are not as many chunks as there should be, a hole is
not closed as it is opened, or the result is no text; or it fails for a value that cannot be written
where it stands. The literal of a value, the names that it gives and the columns of its rows fail,
if they do, for the value.
-/

namespace SqlTemplate

open Render

/-- A result is no error but one of a kind. -/
def FailsIn {α : Type} (P : Error → Prop) (result : Except Error α) : Prop :=
  ∀ e, result = .error e → P e

namespace FailsIn

variable {α β : Type} {P : Error → Prop}

theorem ok (a : α) : FailsIn P (.ok a : Except Error α) := nofun

theorem error {e : Error} (h : P e) : FailsIn P (.error e : Except Error α) := by
  intro e' he
  cases he
  exact h

theorem bind {first : Except Error α} {second : α → Except Error β} (h : FailsIn P first)
    (h' : ∀ a, first = .ok a → FailsIn P (second a)) : FailsIn P (first >>= second) := by
  cases first with
  | error e => exact error (h e rfl)
  | ok a => exact h' a rfl

/-- The test at the front of a computation fails with its error. -/
theorem guard {refused : Prop} [Decidable refused] {e : Error} {rest : Unit → Except Error α}
    (he : P e) (h : FailsIn P (rest ())) :
    FailsIn P (if refused then throw e >>= rest else rest ()) := by
  split
  · exact error he
  · exact h

theorem map {result : Except Error α} (h : FailsIn P result) (f : α → β) :
    FailsIn P (f <$> result) := by
  cases result with
  | error e => exact error (h e rfl)
  | ok a => exact ok (f a)

theorem mapM {f : α → Except Error β} (h : ∀ a, FailsIn P (f a)) (items : List α) :
    FailsIn P (items.mapM f) := by
  induction items with
  | nil => exact ok []
  | cons item rest ih =>
    rw [List.mapM_cons]
    exact (h item).bind fun _ _ => ih.bind fun _ _ => ok _

theorem mono {Q : Error → Prop} {result : Except Error α} (h : FailsIn P result)
    (hQ : ∀ e, P e → Q e) : FailsIn Q result :=
  fun e he => hQ e (h e he)

end FailsIn

/-- Errors that only a template can make. -/
def Error.isOfTemplate : Error → Bool
  | .chunkCount _ _ | .enclosure _ _ _ | .invalidUtf8 _ => true
  | _ => false

/-- Errors of a statement that cannot be built, other than the want of a free alias. -/
def Error.isOfBuilding : Error → Bool
  | .misuse (.noFreeAlias _) => false
  | .misuse _ | .unsupported _ _ | .emptyRows => true
  | _ => false

/-- A result is no error of a template. -/
def Blameless {α : Type} (result : Except Error α) : Prop :=
  FailsIn (fun e => e.isOfTemplate = false) result

/-! ### Literals -/

theorem blameless_checkRange (n : Int) : Blameless (Literal.checkRange n) := by
  unfold Literal.checkRange
  split
  · exact .ok _
  · exact .error rfl

theorem blameless_scalar (style : LiteralStyle) (value : Value) :
    Blameless (Literal.scalar style value) := by
  cases value with
  | uint n => exact (blameless_checkRange _).bind fun _ _ => .ok _
  | bigint n => exact (blameless_checkRange _).bind fun _ _ => .ok _
  | float x =>
    rw [Literal.scalar]
    split
    · exact .ok _
    · exact .error rfl
  | list _ | map _ | fragment _ | foreign _ => exact .error rfl
  | _ => exact .ok _

theorem blameless_scalarJson (value : Value) : Blameless (Literal.scalarJson value) := by
  cases value with
  | bigint n => exact (blameless_checkRange _).bind fun _ _ => .ok _
  | _ => exact .ok _

/-! ### Names and rows -/

theorem blameless_nameOf (value : Value) : Blameless (nameOf value) := by
  cases value with
  | str _ | int _ | uint _ => exact .ok _
  | _ => exact .error rfl

theorem blameless_qualifierOf (value : Value) : Blameless (qualifierOf value) := by
  cases value with
  | str _ => exact .ok _
  | _ => exact .error rfl

theorem blameless_namesOf (value : Value) : Blameless (namesOf value) := by
  cases value with
  | str _ | map _ => exact .ok _
  | list items =>
    refine .mapM (fun item => ?_) items
    split
    · exact .ok _
    · exact .error rfl
  | _ => exact .error rfl

theorem blameless_checkColumns (columns : List String) (index : Nat) (row : List Cell) :
    Blameless (checkColumns columns index row) := by
  unfold checkColumns
  split
  · exact .error rfl
  · exact .ok ()

end SqlTemplate
