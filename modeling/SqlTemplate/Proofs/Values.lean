import SqlTemplate.Proofs.Frames

/-!
# Every value writes pieces

The functions that render values call one another, down to the fragments within fragments. What a
value writes is in every class of pieces that its parts are in, if the fragments that it holds are
(`Value.Nests`); and an induction over the fragments within fragments shows that each is a step that
appends the same piece to whatever there is.
-/

namespace SqlTemplate

open Render

mutual

/-- There is no fragment in a value. -/
def Value.FragmentFree : Value → Prop
  | .list items => FragmentFreeItems items
  | .map entries => FragmentFreeEntries entries
  | .fragment _ => False
  | _ => True

def FragmentFreeItems : List Value → Prop
  | [] => True
  | item :: rest => item.FragmentFree ∧ FragmentFreeItems rest

def FragmentFreeEntries : List (String × Value) → Prop
  | [] => True
  | (_, value) :: rest => value.FragmentFree ∧ FragmentFreeEntries rest

end

/-! ### Fragments in values -/

mutual

/-- Every fragment that a value holds has a property, with the qualifier that it stands under: an
item of a list and an entry of a map stand under none. -/
def Value.Nests (F : Option String → Fragment → Prop) (qualifier : Option String) : Value → Prop
  | .list items => NestsItems F items
  | .map entries => NestsEntries F entries
  | .fragment f => F qualifier f
  | _ => True

def NestsItems (F : Option String → Fragment → Prop) : List Value → Prop
  | [] => True
  | item :: rest => item.Nests F none ∧ NestsItems F rest

def NestsEntries (F : Option String → Fragment → Prop) : List (String × Value) → Prop
  | [] => True
  | (_, value) :: rest => value.Nests F none ∧ NestsEntries F rest

end

section FragmentFree

variable {F : Option String → Fragment → Prop}

mutual

theorem Value.FragmentFree.nests :
    {value : Value} → value.FragmentFree → ∀ qualifier, value.Nests F qualifier
  | .list items, h, _ => by
    rw [Value.FragmentFree] at h
    exact nestsItems_of_fragmentFree h
  | .map entries, h, _ => by
    rw [Value.FragmentFree] at h
    exact nestsEntries_of_fragmentFree h
  | .fragment f, h, _ => h.elim
  | .null, _, _ | .bool _, _, _ | .int _, _, _ | .uint _, _, _ | .bigint _, _, _
  | .float _, _, _ | .str _, _, _ | .bytes _, _, _ | .date _, _, _ | .dateTime _, _, _
  | .json _, _, _ | .foreign _, _, _ => trivial

theorem nestsItems_of_fragmentFree :
    {items : List Value} → FragmentFreeItems items → NestsItems F items
  | [], _ => trivial
  | _ :: _, h => ⟨h.1.nests none, nestsItems_of_fragmentFree h.2⟩

theorem nestsEntries_of_fragmentFree :
    {entries : List (String × Value)} → FragmentFreeEntries entries → NestsEntries F entries
  | [], _ => trivial
  | (_, _) :: _, h => ⟨h.1.nests none, nestsEntries_of_fragmentFree h.2⟩

end

end FragmentFree

/-! ### Classes of pieces -/

/-- What a fragment writes inside one with settings `s` is in a class, and so is what it fails with
on its own, as it stands in a JSON text. -/
structure EmitsNested (s : Settings) (C : Piece Bytes → Prop) (qualifier : Option String)
    (f : Fragment) : Prop where
  emits : Emits C (embedded s f.settings (f.render s qualifier))
  throws : ∀ e, f.toSql = .error e → C (throw e)

/-- The literals of values that are no fragments. -/
inductive IsLiteral (s : Settings) : Bytes → Prop
  | scalar {value : Value} {bytes : Bytes}
      (h : Literal.scalar s.literalStyle value = .ok bytes) : IsLiteral s bytes
  | json (j : Json) : IsLiteral s (Literal.json s.literalStyle j)

section Classes

variable {s : Settings} {C : Piece Bytes → Prop} {qualifier : Option String}

mutual

/-- A value that has no JSON form fails with an error of the class. -/
theorem throws_toJson (hC : Closed s C) (qualifier : Option String) :
    (value : Value) → value.Nests (EmitsNested s C) qualifier →
      FailsIn (fun e => C (throw e)) value.toJson
  | .list items, h => by
    rw [Value.toJson]
    exact (throws_jsonItems hC items h).map _
  | .map entries, h => by
    rw [Value.toJson]
    exact (throws_jsonMembers hC entries h).map _
  | .fragment ⟨child, head, holes, sizeHint⟩, h => by
    rw [Value.toJson]
    exact FailsIn.map h.throws _
  | .null, _ | .bool _, _ | .int _, _ | .uint _, _ | .bigint _, _ | .float _, _ | .str _, _
  | .bytes _, _ | .date _, _ | .dateTime _, _ | .json _, _ | .foreign _, _ => by
    rw [Value.toJson]
    · exact fun e he => hC.throw (blameless_scalarJson _ e he)
    all_goals simp

theorem throws_jsonItems (hC : Closed s C) :
    (items : List Value) → NestsItems (EmitsNested s C) items →
      FailsIn (fun e => C (throw e)) (jsonItems items)
  | [], _ => .ok []
  | item :: rest, h => by
    rw [jsonItems]
    exact (throws_toJson hC none item h.1).bind fun _ _ =>
      (throws_jsonItems hC rest h.2).bind fun _ _ => .ok _

theorem throws_jsonMembers (hC : Closed s C) :
    (entries : List (String × Value)) → NestsEntries (EmitsNested s C) entries →
      FailsIn (fun e => C (throw e)) (jsonMembers entries)
  | [], _ => .ok []
  | (_, value) :: rest, h => by
    rw [jsonMembers]
    exact (throws_toJson hC none value h.1).bind fun _ _ =>
      (throws_jsonMembers hC rest h.2).bind fun _ _ => .ok _

end

theorem emits_writeValue (hC : Closed s C) {value : Value}
    (h : value.Nests (EmitsNested s C) qualifier) : Emits C (writeValue s qualifier value) := by
  cases value with
  | fragment f =>
    obtain ⟨child, head, holes, sizeHint⟩ := f
    rw [writeValue]
    exact h.emits
  | list items =>
    rw [writeValue]
    exact hC.emits_writeJson ((throws_jsonItems hC items h).map _)
  | map entries =>
    rw [writeValue]
    exact hC.emits_writeJson ((throws_jsonMembers hC entries h).map _)
  | _ =>
    simp only [writeValue]
    exact hC.emits_writeScalar _

theorem emits_writeItems (hC : Closed s C) (depth : Nat) (later : Bool) {items : List Value}
    (h : NestsItems (EmitsNested s C) items) : Emits C (writeItems s depth later items) := by
  match items, h with
  | [], _ =>
    rw [writeItems]
    split
    · exact .pure hC.nil
    · exact hC.emits_text (by decide)
  | .list inner :: rest, h =>
    rw [writeItems]
    apply (hC.emits_separate later (by decide)).seq hC.append
    apply (hC.emits_text (by decide)).seq hC.append
    apply (hC.emits_checkDepth (depth + 1)).seq hC.append
    apply (emits_writeItems hC (depth + 1) false h.1).seq hC.append
    exact (hC.emits_text (by decide)).seq hC.append (emits_writeItems hC depth true h.2)
  | .null :: rest, h | .bool _ :: rest, h | .int _ :: rest, h | .uint _ :: rest, h
  | .bigint _ :: rest, h | .float _ :: rest, h | .str _ :: rest, h | .bytes _ :: rest, h
  | .date _ :: rest, h | .dateTime _ :: rest, h | .json _ :: rest, h | .map _ :: rest, h
  | .fragment _ :: rest, h | .foreign _ :: rest, h =>
    simp only [writeItems]
    apply (hC.emits_separate later (by decide)).seq hC.append
    exact (emits_writeValue hC h.1).seq hC.append (emits_writeItems hC depth true h.2)

theorem emits_writeList (hC : Closed s C) {value : Value}
    (h : value.Nests (EmitsNested s C) qualifier) : Emits C (writeList s value) := by
  cases value with
  | list items =>
    rw [writeList]
    exact emits_writeItems hC 1 false h
  | _ =>
    simp only [writeList]
    exact .throw (hC.throw rfl)

theorem emits_cellsOf (hC : Closed s C) {entries : List (String × Value)}
    (h : NestsEntries (EmitsNested s C) entries) :
    ∀ cell ∈ cellsOf s entries, Emits C cell.2 := by
  induction entries with
  | nil => exact List.forall_mem_nil _
  | cons entry rest ih =>
    rw [cellsOf]
    exact List.forall_mem_cons.mpr ⟨emits_writeValue hC h.1, ih h.2⟩

theorem emits_rowsOf (hC : Closed s C) {rows : List Value}
    (h : NestsItems (EmitsNested s C) rows) :
    ∀ row ∈ rowsOf s rows, ∀ cells, row = .ok cells → ∀ cell ∈ cells, Emits C cell.2 := by
  induction rows with
  | nil => exact List.forall_mem_nil _
  | cons row rest ih =>
    cases row with
    | map entries =>
      rw [rowsOf]
      refine List.forall_mem_cons.mpr ⟨?_, ih h.2⟩
      intro cells hcells
      cases hcells
      exact emits_cellsOf hC h.1
    | _ =>
      simp only [rowsOf]
      exact List.forall_mem_cons.mpr ⟨nofun, ih h.2⟩

theorem emits_writeRowsOf (hC : Closed s C) {value : Value}
    (h : value.Nests (EmitsNested s C) qualifier) : Emits C (writeRowsOf s value) := by
  cases value with
  | list rows =>
    rw [writeRowsOf]
    exact hC.emits_writeRowSet (emits_rowsOf hC h)
  | map entries =>
    rw [writeRowsOf]
    refine hC.emits_writeRowSet (List.forall_mem_singleton.mpr ?_)
    intro cells hcells
    cases hcells
    exact emits_cellsOf hC h
  | _ =>
    simp only [writeRowsOf]
    exact .throw (hC.throw rfl)

theorem emits_writeAssignmentsOf (hC : Closed s C) (own : Option String) {value : Value}
    (h : value.Nests (EmitsNested s C) qualifier) : Emits C (writeAssignmentsOf s own value) := by
  cases value with
  | map entries =>
    rw [writeAssignmentsOf]
    exact hC.emits_writeAssignments own (emits_cellsOf hC h)
  | _ =>
    simp only [writeAssignmentsOf]
    exact .throw (hC.throw rfl)

theorem emits_testsOf (hC : Closed s C) {entries : List (String × Value)}
    (h : NestsEntries (EmitsNested s C) entries) :
    ∀ test ∈ testsOf s entries, Emits C test.2 := by
  induction entries with
  | nil => exact List.forall_mem_nil _
  | cons entry rest ih =>
    obtain ⟨key, value⟩ := entry
    have hrest := ih h.2
    cases value with
    | null =>
      simp only [testsOf]
      exact List.forall_mem_cons.mpr ⟨hC.emits_text (by decide), hrest⟩
    | list items =>
      simp only [testsOf]
      refine List.forall_mem_cons.mpr ⟨?_, hrest⟩
      exact (hC.emits_text (by decide)).seq hC.append
        ((emits_writeItems hC 1 false h.1).seq hC.append (hC.emits_text (by decide)))
    | _ =>
      simp only [testsOf]
      exact List.forall_mem_cons.mpr ⟨hC.emits_equals (emits_writeValue hC h.1), hrest⟩

theorem emits_writeConditionsOf (hC : Closed s C) (all : Bool) (own : Option String)
    {value : Value} (h : value.Nests (EmitsNested s C) qualifier) :
    Emits C (writeConditionsOf s all own value) := by
  cases value with
  | map entries =>
    rw [writeConditionsOf]
    exact hC.emits_writeConditions all own (emits_testsOf hC h)
  | _ =>
    simp only [writeConditionsOf]
    exact .throw (hC.throw rfl)

/-- An expression is a text that was checked, or a fragment. -/
theorem emits_writeExpression {value : Value}
    (hthrow : ∀ e, e.isOfTemplate = false ∨ value.toJson = .error e → C (throw e))
    (htext : ∀ text : String, C (liftM (fitText qualifier s .expression (utf8 text))))
    (hliteral : ∀ {bytes}, IsLiteral s bytes → C (liftM (fitText qualifier s .expression bytes)))
    (hfragment : ∀ f, value = .fragment f → Emits C (writeExpression s qualifier value)) :
    Emits C (writeExpression s qualifier value) := by
  cases value with
  | fragment f => exact hfragment f rfl
  | str text =>
    simp only [writeExpression]
    exact (Writes.write (utf8 text)).sanitized.emits (htext text)
  | list _ | map _ =>
    simp only [writeExpression]
    refine .sanitized_lift (fun e he => hthrow e (.inr ?_)) fun j _ => hliteral (.json j)
    rwa [Value.toJson]
  | _ =>
    simp only [writeExpression]
    exact .sanitized_lift (fun e he => hthrow e (.inl (blameless_scalar _ _ e he)))
      fun _ hbytes => hliteral (.scalar hbytes)

/-- A value that nothing encloses is a text that was checked, a literal or a fragment. -/
theorem emits_writeBare {value : Value}
    (hthrow : ∀ e, e.isOfTemplate = false ∨ value.toJson = .error e → C (throw e))
    (htext : ∀ text : String, C (liftM (fitText qualifier s .chunk (utf8 text))))
    (hliteral : ∀ {bytes}, IsLiteral s bytes → C (pure bytes))
    (h : value.Nests (EmitsNested s C) qualifier) : Emits C (writeBare s qualifier value) := by
  cases value with
  | fragment f =>
    obtain ⟨child, head, holes, sizeHint⟩ := f
    simp only [writeBare]
    exact h.emits
  | str text =>
    simp only [writeBare]
    exact (Writes.write (utf8 text)).sanitized.emits (htext text)
  | list _ | map _ =>
    simp only [writeBare]
    refine .lift (fun e he => hthrow e (.inr ?_)) fun j _ => .write (hliteral (.json j))
    rwa [Value.toJson]
  | _ =>
    simp only [writeBare]
    exact .lift (fun e he => hthrow e (.inl (blameless_scalar _ _ e he)))
      fun _ hbytes => .write (hliteral (.scalar hbytes))

end Classes

/-! ### Every value writes pieces -/

theorem isLocal_ofValue {s : Settings} {value : Value}
    (h : ∀ qualifier, value.Nests (EmitsNested s fun _ => True) qualifier) :
    (Filling.ofValue s value).IsLocal where
  value qualifier := (emits_writeValue (closed_true s) (h qualifier)).isLocal
  list := (emits_writeList (closed_true s) (h none)).isLocal
  rows := (emits_writeRowsOf (closed_true s) (h none)).isLocal
  assignments qualifier :=
    (emits_writeAssignmentsOf (closed_true s) qualifier (h none)).isLocal
  conditions all qualifier :=
    (emits_writeConditionsOf (closed_true s) all qualifier (h none)).isLocal
  expression qualifier := by
    apply Emits.isLocal (C := fun _ => True)
    refine emits_writeExpression (fun _ _ => trivial) (fun _ => trivial) (fun _ => trivial) ?_
    rintro ⟨child, head, holes, sizeHint⟩ rfl
    have hnested : Emits _ (embedded s child (renderFrom s qualifier 0 head holes)) :=
      (h qualifier).emits
    simp only [writeExpression]
    split
    · exact hnested.isLocal.sanitized.emits trivial
    · exact hnested
  bare qualifier :=
    (emits_writeBare (fun _ _ => trivial) (fun _ => trivial) (fun _ => trivial)
      (h qualifier)).isLocal

mutual

theorem nests_isLocal (s : Settings) (qualifier : Option String) :
    (value : Value) → value.Nests (EmitsNested s fun _ => True) qualifier
  | .list items => nestsItems_isLocal s items
  | .map entries => nestsEntries_isLocal s entries
  | .fragment ⟨_, _, holes, _⟩ =>
    ⟨(writes_embedded (isLocal_holes s holes)).emits trivial, fun _ _ => trivial⟩
  | .null | .bool _ | .int _ | .uint _ | .bigint _ | .float _ | .str _ | .bytes _ | .date _
  | .dateTime _ | .json _ | .foreign _ => trivial

theorem nestsItems_isLocal (s : Settings) :
    (items : List Value) → NestsItems (EmitsNested s fun _ => True) items
  | [] => trivial
  | item :: rest => ⟨nests_isLocal s none item, nestsItems_isLocal s rest⟩

theorem nestsEntries_isLocal (s : Settings) :
    (entries : List (String × Value)) → NestsEntries (EmitsNested s fun _ => True) entries
  | [] => trivial
  | (_, value) :: rest => ⟨nests_isLocal s none value, nestsEntries_isLocal s rest⟩

theorem isLocal_holes (s : Settings) :
    (holes : List (Value × String)) → ∀ hole ∈ holes, (Filling.ofValue s hole.1).IsLocal
  | [] => List.forall_mem_nil _
  | (value, _) :: rest =>
    List.forall_mem_cons.mpr
      ⟨isLocal_ofValue fun qualifier => nests_isLocal s qualifier value, isLocal_holes s rest⟩

end

/-! ### Fragments -/

/-- A step that is run for its text has run on a canvas of its own. -/
theorem Render.exec_of_toText {sizeHint : Nat} {step : Render Unit} {out : String}
    (h : toText sizeHint step = .ok out) :
    ∃ canvas, exec step (.start (.withCapacity sizeHint) none) = (.ok (), canvas) ∧
      canvas.out.toText = .ok out := by
  unfold toText at h
  split at h
  · rename_i canvas hexec
    exact ⟨canvas, hexec, h⟩
  · cases h

theorem Render.toText_of_exec {sizeHint : Nat} {step : Render Unit} {canvas : Canvas}
    (h : exec step (.start (.withCapacity sizeHint) none) = (.ok (), canvas)) :
    toText sizeHint step = canvas.out.toText := by
  unfold toText
  rw [show (step.run (.start (.withCapacity sizeHint) none)).run = _ from h]

/-- The text of a fragment is its piece without a sink. -/
theorem Fragment.result_of_toSql {f : Fragment} {out : String} (h : f.toSql = .ok out) :
    ((pieceFrom f.settings none 0 none 0 (utf8 f.head) f.holes).result none).1
      = .ok (utf8 out) := by
  obtain ⟨canvas, hexec, htext⟩ := Render.exec_of_toText h
  have hawaits : (Canvas.start (.withCapacity f.sizeHint) none).Awaits (utf8 f.head) [] 0 :=
    ⟨rfl, fun b _ => Iff.rfl⟩
  have hwrote := renderFrom_wrote f.settings none 0 (isLocal_holes f.settings f.holes) hawaits
  rw [show exec (renderFrom f.settings none 0 f.head f.holes) _ = _ from hexec] at hwrote
  change WroteFrom _ _ ((pieceFrom f.settings none 0 none 0 (utf8 f.head) f.holes).result none) _
    at hwrote
  generalize (pieceFrom f.settings none 0 none 0 (utf8 f.head) f.holes).result none = given
    at hwrote ⊢
  cases hwrote with
  | ok hclosing hsink hout =>
    rw [List.nil_append] at hout
    rw [Buffer.utf8_of_toText htext, hout]

end SqlTemplate
