import SqlTemplate.Proofs.Nesting

/-!
# Steps that a condition guards

A step is guarded if it succeeds only where a condition holds, and then writes what another step
writes. Steps that are put together from guarded steps are guarded by all their conditions: no way to
write the cells of a map, or of a set of rows, leaves a cell out.
-/

namespace SqlTemplate

open Render

/-! ### Guarded pieces and steps -/

/-- A piece is another one if a condition holds, and there is none if it does not. -/
structure Piece.Guarded (ok : Prop) (piece piece' : Piece Bytes) : Prop where
  same : ok → piece = piece'
  holds : piece.Yields fun _ => ok

namespace Piece.Guarded

variable {α : Type} {ok ok' : Prop} {piece piece' next next' : Piece Bytes}

theorem refl (h : ok) (piece : Piece Bytes) : Guarded ok piece piece :=
  ⟨fun _ => rfl, fun _ _ _ => h⟩

theorem throw (e : Error) : Guarded ok (MonadExcept.throw e) (MonadExcept.throw e) :=
  ⟨fun _ => rfl, .throw e⟩

theorem congr (hok : ok ↔ ok') (h : Guarded ok piece piece') : Guarded ok' piece piece' :=
  ⟨fun hok' => h.same (hok.mpr hok'), fun sink bytes hbytes => hok.mp (h.holds sink bytes hbytes)⟩

theorem append (h : Guarded ok piece piece') (h' : Guarded ok' next next') :
    Guarded (ok ∧ ok') (piece.append next) (piece'.append next') := by
  constructor
  · rintro ⟨hok, hok'⟩
    rw [h.same hok, h'.same hok']
  · intro sink bytes hbytes
    obtain ⟨front, hfront, hbytes⟩ := ok_of_bind hbytes
    obtain ⟨back, hback, -⟩ := ok_of_bind hbytes
    exact ⟨h.holds _ _ hfront, h'.holds _ _ hback⟩

theorem bind (h : Guarded ok piece piece') (rest : Bytes → Piece Bytes) :
    Guarded ok (piece >>= rest) (piece' >>= rest) := by
  constructor
  · intro hok
    rw [h.same hok]
  · intro sink bytes hbytes
    obtain ⟨front, hfront, -⟩ := ok_of_bind hbytes
    exact h.holds _ _ hfront

theorem lift {value : Except Error α} {pieces pieces' : α → Piece Bytes}
    (h : ∀ a, value = .ok a → Guarded ok (pieces a) (pieces' a)) :
    Guarded ok (liftM value >>= pieces) (liftM value >>= pieces') := by
  cases value with
  | error e => exact throw e
  | ok a => exact h a rfl

end Piece.Guarded

/-- A step writes what another one writes if a condition holds, and fails if it does not. -/
structure Render.Guarded (ok : Prop) (step step' : Render Unit) : Prop where
  isLocal : Local step
  isLocal' : Local step'
  piece : Piece.Guarded ok step.piece step'.piece

namespace Render.Guarded

variable {α : Type} {ok ok' : Prop} {step step' next next' : Render Unit}

theorem refl (hok : ok) (h : Local step) : Guarded ok step step :=
  ⟨h, h, .refl hok _⟩

theorem throw (e : Error) : Guarded ok (MonadExcept.throw e) (MonadExcept.throw e) := by
  refine ⟨(Writes.throw e).isLocal, (Writes.throw e).isLocal, ?_⟩
  rw [(Writes.throw e).piece_eq]
  exact .throw e

theorem congr (hok : ok ↔ ok') (h : Guarded ok step step') : Guarded ok' step step' :=
  ⟨h.isLocal, h.isLocal', h.piece.congr hok⟩

theorem seq (h : Guarded ok step step') (h' : Guarded ok' next next') :
    Guarded (ok ∧ ok') (step >>= fun _ => next) (step' >>= fun _ => next') := by
  have hseq := h.isLocal.seq h'.isLocal
  have hseq' := h.isLocal'.seq h'.isLocal'
  refine ⟨hseq.isLocal, hseq'.isLocal, ?_⟩
  rw [hseq.piece_eq, hseq'.piece_eq]
  exact h.piece.append h'.piece

/-- A step of which nothing is asked, before one that is guarded. -/
theorem after (h : Local step) (h' : Guarded ok next next') :
    Guarded ok (step >>= fun _ => next) (step >>= fun _ => next') :=
  ((refl trivial h).seq h').congr (and_iff_right trivial)

/-- A step of which nothing is asked, after one that is guarded. -/
theorem before (h : Guarded ok step step') (h' : Local next) :
    Guarded ok (step >>= fun _ => next) (step' >>= fun _ => next) :=
  (h.seq (refl trivial h')).congr (and_iff_left trivial)

theorem lift {value : Except Error α} {steps steps' : α → Render Unit}
    (h : ∀ a, value = .ok a → Guarded ok (steps a) (steps' a)) :
    Guarded ok (liftM value >>= steps) (liftM value >>= steps') := by
  cases value with
  | error e => exact throw e
  | ok a => exact h a rfl

theorem sanitized {qualifier : Option String} {s : Settings} {mode : SafeMode}
    (h : Guarded ok step step') :
    Guarded ok (Render.sanitized qualifier s mode step) (Render.sanitized qualifier s mode step') := by
  have hwrites : Writes (Render.sanitized qualifier s mode step) _ := h.isLocal.sanitized
  have hwrites' : Writes (Render.sanitized qualifier s mode step') _ := h.isLocal'.sanitized
  refine ⟨hwrites.isLocal, hwrites'.isLocal, ?_⟩
  rw [hwrites.piece_eq, hwrites'.piece_eq]
  exact h.piece.bind _

end Render.Guarded

theorem isLocal_writeText (text : String) : Local (writeText text) := (Writes.write _).isLocal

theorem isLocal_separate (later : Bool) (text : String) : Local (separate later text) :=
  (Writes.separate later text).isLocal

theorem isLocal_writeName (s : Settings) (qualifier : Option String) (name : String) :
    Local (writeName s qualifier name) := (Writes.write _).isLocal

theorem isLocal_checkDepth (s : Settings) (depth : Nat) : Local (checkDepth s depth) :=
  ((closed_true s).emits_checkDepth depth).isLocal

/-! ### Maps and rows

The cells of a map are written by one step or by another, each of which is guarded by what holds of
the value of the cell. -/

/-- The cells of a map whose values are written by `step`. -/
def cellsWith (step : Value → Render Unit) (entries : List (String × Value)) : List Cell :=
  entries.map fun entry => (entry.1, step entry.2)

theorem keys_cellsWith (step : Value → Render Unit) (entries : List (String × Value)) :
    Keyed.keys (cellsWith step entries) = Keyed.keys entries := by
  rw [Keyed.keys, cellsWith, List.map_map]
  rfl

theorem lookup_cellsWith (step : Value → Render Unit) (entries : List (String × Value))
    (column : String) : (cellsWith step entries).lookup column = (entries.lookup column).map step := by
  induction entries with
  | nil => rfl
  | cons entry rest ih =>
    obtain ⟨key, value⟩ := entry
    simp only [cellsWith, List.map_cons, List.lookup_cons] at ih ⊢
    rw [ih]
    split <;> rfl

section Maps

variable {s : Settings} {ok : Value → Prop} {step step' : Value → Render Unit}
  {entries : List (String × Value)}

theorem guarded_writePairs (qualifier : Option String) (joiner : String) (later : Bool)
    (h : ∀ entry ∈ entries, Guarded (ok entry.2) (step entry.2) (step' entry.2)) :
    Guarded (∀ entry ∈ entries, ok entry.2)
      (writePairs s qualifier joiner later (cellsWith step entries))
      (writePairs s qualifier joiner later (cellsWith step' entries)) := by
  induction entries generalizing later with
  | nil => exact .refl (List.forall_mem_nil _) Writes.pure.isLocal
  | cons entry rest ih =>
    obtain ⟨hentry, hrest⟩ := List.forall_mem_cons.mp h
    refine .congr List.forall_mem_cons.symm ?_
    exact .after (isLocal_separate later joiner)
      (.after (isLocal_writeName s qualifier entry.1) (hentry.seq (ih true hrest)))

theorem guarded_equals {condition : Prop} {own own' : Render Unit} (h : Guarded condition own own') :
    Guarded condition (equals own) (equals own') :=
  .after (isLocal_writeText "=") h

theorem guarded_writeAssignments (qualifier : Option String)
    (h : ∀ entry ∈ entries, Guarded (ok entry.2) (step entry.2) (step' entry.2)) :
    Guarded (∀ entry ∈ entries, ok entry.2)
      (writeAssignments s qualifier (cellsWith step entries))
      (writeAssignments s qualifier (cellsWith step' entries)) := by
  cases entries with
  | nil => exact .throw _
  | cons entry rest =>
    have hpairs := @guarded_writePairs s ok (fun value => equals (step value))
      (fun value => equals (step' value)) _ qualifier ", " false
      fun entry hentry => guarded_equals (h entry hentry)
    simp only [cellsWith] at hpairs
    simp only [cellsWith, writeAssignments, List.map_map]
    exact hpairs

theorem guarded_writeConditions (all : Bool) (qualifier : Option String)
    (h : ∀ entry ∈ entries, Guarded (ok entry.2) (step entry.2) (step' entry.2)) :
    Guarded (∀ entry ∈ entries, ok entry.2)
      (writeConditions s all qualifier (cellsWith step entries))
      (writeConditions s all qualifier (cellsWith step' entries)) := by
  cases entries with
  | nil => exact .refl (List.forall_mem_nil _) (isLocal_writeText _)
  | cons entry rest =>
    exact .after (isLocal_writeText "(")
      (.before (guarded_writePairs qualifier _ false h) (isLocal_writeText ")"))

theorem guarded_writeCells (later : Bool) (columns : List String)
    (h : ∀ entry ∈ entries, Guarded (ok entry.2) (step entry.2) (step' entry.2)) :
    Guarded (∀ column ∈ columns, ∀ value, entries.lookup column = some value → ok value)
      (writeCells s (cellsWith step entries) later columns)
      (writeCells s (cellsWith step' entries) later columns) := by
  induction columns generalizing later with
  | nil => exact .refl (List.forall_mem_nil _) Writes.pure.isLocal
  | cons column rest ih =>
    refine .congr List.forall_mem_cons.symm ?_
    refine .after (isLocal_separate later ", ") (.seq ?_ (ih true))
    unfold writeCell
    rw [lookup_cellsWith, lookup_cellsWith]
    cases hvalue : entries.lookup column with
    | none =>
      refine .refl ?_ (isLocal_writeText _)
      intro value hnone
      cases hnone
    | some value =>
      obtain ⟨front, back, rfl, -⟩ := List.lookup_eq_some_iff.mp hvalue
      refine (h (column, value) (List.mem_append_right _ List.mem_cons_self)).congr ?_
      constructor
      · intro hok _ hsome
        exact Option.some.inj hsome ▸ hok
      · exact fun hok => hok value rfl

theorem lookup_of_mem {entry : String × Value} (hnodup : (Keyed.keys entries).Nodup)
    (hentry : entry ∈ entries) : entries.lookup entry.1 = some entry.2 := by
  induction entries with
  | nil => cases hentry
  | cons first rest ih =>
    obtain ⟨hfirst, hrest⟩ := List.nodup_cons.mp hnodup
    rw [List.lookup_cons]
    cases hentry with
    | head => rw [beq_self_eq_true]
    | tail _ hmem =>
      have hne : entry.1 ≠ first.1 := by
        intro heq
        exact hfirst (List.mem_map.mpr ⟨entry, hmem, heq⟩)
      rw [beq_false_of_ne hne]
      exact ih hrest hmem

/-- The cells in columns that include all keys of a row are all cells of the row. -/
theorem forall_lookup_iff {columns : List String} (hnodup : (Keyed.keys entries).Nodup)
    (hkeys : ∀ entry ∈ entries, entry.1 ∈ columns) :
    (∀ column ∈ columns, ∀ value, entries.lookup column = some value → ok value) ↔
      ∀ entry ∈ entries, ok entry.2 := by
  constructor
  · intro h entry hentry
    exact h entry.1 (hkeys entry hentry) entry.2 (lookup_of_mem hnodup hentry)
  · intro h column _ value hvalue
    obtain ⟨front, back, rfl, -⟩ := List.lookup_eq_some_iff.mp hvalue
    exact h (column, value) (List.mem_append_right _ List.mem_cons_self)

end Maps

section Rows

variable {s : Settings} {step step' : Value → Render Unit}

/-- A row whose cells are written by `step`, if it is one. -/
def rowWith (step : Value → Render Unit) : Value → Row
  | .map entries => .ok (cellsWith step entries)
  | value => .error value.typeName

/-- The entries of a row. -/
def rowEntries : Value → List (String × Value)
  | .map entries => entries
  | _ => []

/-- A row has no columns but these. -/
theorem mem_of_checkColumns {columns : List String} {index : Nat} {row : List Cell}
    (h : checkColumns columns index row = .ok ()) : ∀ key ∈ Keyed.keys row, key ∈ columns := by
  unfold checkColumns at h
  split at h
  · cases h
  · rename_i hnone
    simpa using hnone

theorem guarded_writeRows (columns : List String) (index : Nat) {rows : List Value}
    (hnodup : ∀ row ∈ rows, (Keyed.keys (rowEntries row)).Nodup)
    (h : ∀ row ∈ rows, ∀ entry ∈ rowEntries row,
      Guarded (entry.2.Embeds s) (step entry.2) (step' entry.2)) :
    Guarded (∀ row ∈ rows, row.Embeds s)
      (writeRows s columns index (rows.map (rowWith step)))
      (writeRows s columns index (rows.map (rowWith step'))) := by
  induction rows generalizing index with
  | nil => exact .refl (List.forall_mem_nil _) Writes.pure.isLocal
  | cons row rest ih =>
    obtain ⟨hkeys, hkeys'⟩ := List.forall_mem_cons.mp hnodup
    obtain ⟨hrow, hrest⟩ := List.forall_mem_cons.mp h
    cases row with
    | map entries =>
      have hcheck : checkColumns columns index (cellsWith step' entries)
          = checkColumns columns index (cellsWith step entries) := by
        rw [checkColumns, checkColumns, keys_cellsWith, keys_cellsWith]
      simp only [List.map_cons, rowWith, writeRows, hcheck]
      refine .lift fun _ hcolumns => ?_
      have hmem : ∀ entry ∈ entries, entry.1 ∈ columns := by
        intro entry hentry
        apply mem_of_checkColumns hcolumns
        rw [keys_cellsWith]
        exact List.mem_map_of_mem hentry
      have hcells := (guarded_writeCells (s := s) false columns hrow).congr
        ((forall_lookup_iff hkeys hmem).trans Value.embeds_map_iff.symm)
      refine .congr List.forall_mem_cons.symm ?_
      exact .after (isLocal_separate _ _) (.after (isLocal_writeText "(")
        (hcells.seq (.after (isLocal_writeText ")") (ih (index + 1) hkeys' hrest))))
    | _ => exact .throw _

theorem guarded_writeRowSet {rows : List Value}
    (hnodup : ∀ row ∈ rows, (Keyed.keys (rowEntries row)).Nodup)
    (h : ∀ row ∈ rows, ∀ entry ∈ rowEntries row,
      Guarded (entry.2.Embeds s) (step entry.2) (step' entry.2)) :
    Guarded (∀ row ∈ rows, row.Embeds s)
      (writeRowSet s (rows.map (rowWith step))) (writeRowSet s (rows.map (rowWith step'))) := by
  cases rows with
  | nil => exact .throw _
  | cons row rest =>
    cases row with
    | map entries =>
      have hrows := guarded_writeRows (s := s) (Keyed.keys entries) 0 hnodup h
      simp only [List.map_cons, rowWith, writeRowSet, keys_cellsWith] at hrows ⊢
      exact .after (isLocal_writeText "(") (.after (Writes.write _).isLocal
        (.after (isLocal_writeText ") VALUES ") hrows))
    | _ => exact .throw _

end Rows

/-! ### Cells by value -/

/-- What holds for a column, after its name. -/
def writeTest (s : Settings) : Value → Render Unit
  | .null => writeText " IS NULL"
  | .list items => do
    writeText " IN ("
    writeItems s 1 false items
    writeText ")"
  | value => equals (writeValue s none value)

theorem cellsOf_eq (s : Settings) (entries : List (String × Value)) :
    cellsOf s entries = cellsWith (writeValue s none) entries := by
  induction entries with
  | nil => rfl
  | cons entry rest ih => rw [cellsOf, ih, cellsWith, cellsWith, List.map_cons]

theorem testsOf_eq (s : Settings) (entries : List (String × Value)) :
    testsOf s entries = cellsWith (writeTest s) entries := by
  induction entries with
  | nil => rfl
  | cons entry rest ih =>
    obtain ⟨key, value⟩ := entry
    cases value <;> simp only [testsOf, ih, cellsWith, List.map_cons, writeTest]

theorem rowsOf_eq (s : Settings) (rows : List Value) :
    rowsOf s rows = rows.map (rowWith (writeValue s none)) := by
  induction rows with
  | nil => rfl
  | cons row rest ih =>
    cases row <;> simp only [rowsOf, ih, List.map_cons, rowWith, cellsOf_eq]

end SqlTemplate
