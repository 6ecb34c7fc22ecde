import SqlTemplate.Proofs.Fitting

/-!
# A fitted text part by part

`Lexeme.fittedFrom` joins what becomes of the lexemes of a text. Here the same is kept apart, one
part for each lexeme: what it was read from, what it becomes without a qualifier, and whether a
qualifier goes before that. All that a qualifier changes is what goes before the parts that take it
(`Lexeme.fittedFrom_eq_flatMap`).
-/

namespace SqlTemplate

/-- What becomes of a lexeme. -/
structure FittedPart where
  source : Bytes
  /-- The text without a qualifier. -/
  text : Bytes
  /-- A qualifier goes before the text. -/
  isColumn : Bool
deriving DecidableEq, Repr

/-- The text of a part under what a qualifier puts before a column. -/
def FittedPart.under (lead : Bytes) (part : FittedPart) : Bytes :=
  (if part.isColumn then lead else []) ++ part.text

/-- A word in the target dialect is what it is without a qualifier, after the qualifier if it takes
one. -/
theorem WordForm.text_eq (quote : UInt8) (lead name : Bytes) (form : WordForm) :
    form.text quote lead name
      = (if form == .qualified then lead else []) ++ form.text quote [] name := by
  cases form with
  | qualified => exact List.append_assoc _ _ _
  | _ => rfl

namespace Lexeme

variable (s : Settings) (afterAs afterDot closing : Bool)

/-- Whether a lexeme is a word that names a column without saying whose. -/
def isColumn (following : List Lexeme) : Lexeme → Bool
  | .word name => wordForm s afterAs afterDot name following == .qualified
  | _ => false

def part (following : List Lexeme) (l : Lexeme) : FittedPart where
  source := l.source
  text := if closing && l.isSpace then [] else l.fitted s [] afterAs afterDot following
  isColumn := l.isColumn s afterAs afterDot following

/-- The parts of a text. `closing` says that white space at the front is removed. -/
def partsFrom (afterAs afterDot closing : Bool) : List Lexeme → List FittedPart
  | [] => []
  | l :: rest =>
    l.part s afterAs afterDot closing rest ::
      partsFrom (l.expectsAlias afterAs) (l == .mark Byte.dot) (l.closesUp s afterAs afterDot rest)
        rest

theorem fitted_eq_lead_append (lead : Bytes) (following : List Lexeme) (l : Lexeme) :
    l.fitted s lead afterAs afterDot following
      = (if l.isColumn s afterAs afterDot following then lead else []) ++
          l.fitted s [] afterAs afterDot following := by
  cases l with
  | word name => exact WordForm.text_eq _ _ _ _
  | _ => rfl

theorem under_part (lead : Bytes) (following : List Lexeme) (l : Lexeme) :
    (l.part s afterAs afterDot closing following).under lead
      = if closing && l.isSpace then [] else l.fitted s lead afterAs afterDot following := by
  unfold FittedPart.under part
  dsimp only
  rw [fitted_eq_lead_append s afterAs afterDot lead]
  cases l with
  | space run => rfl
  | _ => simp only [isSpace, Bool.and_false, Bool.false_eq_true, if_false]

/-- The fitted text is that of its parts. -/
theorem fittedFrom_eq_flatMap (lead : Bytes) (lexemes : List Lexeme) :
    fittedFrom s lead afterAs afterDot closing lexemes
      = (partsFrom s afterAs afterDot closing lexemes).flatMap (FittedPart.under lead) := by
  induction lexemes generalizing afterAs afterDot closing with
  | nil => rfl
  | cons l rest ih => rw [fittedFrom, partsFrom, List.flatMap_cons, under_part, ih]

theorem map_source_partsFrom (lexemes : List Lexeme) :
    (partsFrom s afterAs afterDot closing lexemes).map FittedPart.source
      = lexemes.map Lexeme.source := by
  induction lexemes generalizing afterAs afterDot closing with
  | nil => rfl
  | cons l rest ih => rw [partsFrom, List.map_cons, List.map_cons, ih]; rfl

/-- The parts of a text in two: those of its end depend on its front only by whether an alias is
expected, whether the front ends in a point, and whether white space is removed. -/
theorem exists_partsFrom_append (front back : List Lexeme) :
    ∃ parts closing', partsFrom s afterAs afterDot closing (front ++ back) = parts ++
        partsFrom s (front.foldl (fun expected l => l.expectsAlias expected) afterAs)
          (front.foldl (fun _ l => l == .mark Byte.dot) afterDot) closing' back ∧
      parts.map FittedPart.source = front.map Lexeme.source := by
  induction front generalizing afterAs afterDot closing with
  | nil => exact ⟨[], closing, rfl, rfl⟩
  | cons l rest ih =>
    obtain ⟨parts, closing', hparts, hsources⟩ := ih (l.expectsAlias afterAs)
      (l == .mark Byte.dot) (l.closesUp s afterAs afterDot (rest ++ back))
    refine ⟨l.part s afterAs afterDot closing (rest ++ back) :: parts, closing', ?_, ?_⟩
    · rw [List.cons_append, partsFrom, hparts]
      rfl
    · rw [List.map_cons, List.map_cons, hsources]
      rfl

/-- A part of a text is what becomes of one of its lexemes. -/
theorem exists_of_partsFrom_eq {lexemes : List Lexeme} {before after : List FittedPart}
    {part : FittedPart} (h : partsFrom s afterAs afterDot closing lexemes = before ++ part :: after) :
    ∃ front l back closing', lexemes = front ++ l :: back ∧
      part = l.part s (front.foldl (fun expected l => l.expectsAlias expected) afterAs)
        (front.foldl (fun _ l => l == .mark Byte.dot) afterDot) closing' back ∧
      before.map FittedPart.source = front.map Lexeme.source ∧
      after.map FittedPart.source = back.map Lexeme.source := by
  induction lexemes generalizing afterAs afterDot closing before with
  | nil => exact absurd h.symm (List.append_ne_nil_of_right_ne_nil _ (List.cons_ne_nil _ _))
  | cons l rest ih =>
    rw [partsFrom] at h
    cases before with
    | nil =>
      obtain ⟨hpart, hafter⟩ := List.cons.inj h
      refine ⟨[], l, rest, closing, rfl, hpart.symm, rfl, ?_⟩
      rw [← hafter, map_source_partsFrom]
    | cons first before =>
      obtain ⟨hfirst, hrest⟩ := List.cons.inj h
      obtain ⟨front, k, back, closing', rfl, hpart, hbefore, hafter⟩ := ih _ _ _ hrest
      refine ⟨l :: front, k, back, closing', rfl, hpart, ?_, hafter⟩
      rw [List.map_cons, List.map_cons, hbefore, ← hfirst]
      rfl

/-- The sources of parts and of lexemes, joined. -/
theorem flatMap_source_eq {parts : List FittedPart} {lexemes : List Lexeme}
    (h : parts.map FittedPart.source = lexemes.map Lexeme.source) :
    parts.flatMap FittedPart.source = lexemes.flatMap Lexeme.source := by
  rw [List.flatMap_def, List.flatMap_def, h]

end Lexeme

end SqlTemplate
