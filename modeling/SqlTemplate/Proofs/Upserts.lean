import SqlTemplate.Proofs.Nesting
import SqlTemplate.Proofs.Selects

/-!
# Upserts

An insertion may set columns of a row that collides with another to their incoming values. If no
columns are named, they are the keys of the first row without the columns that the conflict is
about. `Statement.upsertText` is the text of such an insertion, and the main statement,
`Statement.upsert_updates_others`, is that the insertion is built exactly if there is a column to
update, and to that text.
-/

namespace SqlTemplate

open Render

/-! ### The specification -/

/-- A value gives rows, and the first of them is a map with these entries. -/
inductive FirstRow : Value → List (String × Value) → Prop
  | map (entries : List (String × Value)) : FirstRow (.map entries) entries
  | list (entries : List (String × Value)) (rest : List Value) :
    FirstRow (.list (.map entries :: rest)) entries

/-- The keys of a row that are not in the target of a conflict. -/
def updatedColumns (target : List String) (entries : List (String × Value)) : List String :=
  (Keyed.keys entries).filter fun column => !target.contains column

/-- A column that is set to its incoming value. -/
def updateText (s : Settings) (column : String) : Bytes :=
  let name := Name.write s.nameQuote none column
  if s.family = .mysql then name ++ (utf8 "=VALUES(" ++ (name ++ utf8 ")"))
  else name ++ (utf8 "=excluded." ++ name)

/-- What announces the updates: one family does not name the target. -/
def conflictText (s : Settings) (target : List String) : Bytes :=
  if s.family = .mysql then utf8 " ON DUPLICATE KEY UPDATE "
  else
    utf8 " ON CONFLICT (" ++ (utf8 ", ").intercalate (target.map (Name.write s.nameQuote none)) ++
      utf8 ") DO UPDATE SET "

namespace Statement

/-- The text of an insertion that updates these columns. -/
def upsertText (q : Statement) (rows : Value) (target updated : List String) :
    Except Error Bytes :=
  textOf [
    .ok (utf8 "INSERT INTO "),
    .ok (tableText q.settings q.table none),
    .ok (utf8 " "),
    bytes (writeRowsOf q.settings rows),
    .ok (conflictText q.settings target),
    .ok ((utf8 ", ").intercalate (updated.map (updateText q.settings)))]

end Statement

/-! ### The columns -/

theorem mem_updatedColumns {target : List String} {entries : List (String × Value)}
    {column : String} :
    column ∈ updatedColumns target entries ↔ column ∈ Keyed.keys entries ∧ column ∉ target := by
  simp [updatedColumns]

theorem updatedColumns_eq_nil_iff {target : List String} {entries : List (String × Value)} :
    updatedColumns target entries = [] ↔ ∀ column ∈ Keyed.keys entries, column ∈ target := by
  simp [updatedColumns]

/-- The first of the rows has each column once, where rows are maps as they are built. -/
theorem FirstRow.nodup_keys {rows : Value} {entries : List (String × Value)}
    (h : FirstRow rows entries) (hmade : rows.Made) : (Keyed.keys entries).Nodup := by
  cases h with
  | map => exact hmade.distinctKeys entries (.self _)
  | list => exact hmade.distinctKeys entries (.item List.mem_cons_self (.self _))

theorem FirstRow.firstRowColumns_eq {rows : Value} {entries : List (String × Value)}
    (h : FirstRow rows entries) : Statement.firstRowColumns rows = Keyed.keys entries := by
  cases h <;> rfl

/-! ### The bits of an insertion -/

def nameBits (name : String) : List Bit := [.text "\"", .hole (.str name), .text "\""]

def updateBits (family : Family) (column : String) : List Bit :=
  nameBits column ++
    if family = .mysql then .text "=VALUES(" :: (nameBits column ++ [.text ")"])
    else .text "=excluded." :: nameBits column

def updatesBits (family : Family) (columns : List String) : List Bit :=
  [Bit.text ", "].intercalate (columns.map (updateBits family))

def conflictBits (family : Family) (target : List String) : List Bit :=
  if family = .mysql then [.text " ON DUPLICATE KEY UPDATE "]
  else
    [.text " ON CONFLICT (\"", .hole (Statement.namesValue target),
      .text "\"+) DO UPDATE SET "]

def upsertBits (q : Statement) (rows : Value) (target updated : List String) : List Bit :=
  .text "INSERT INTO " :: (tableBits q.table none ++ ([.text " <", .hole rows, .text ">"] ++
    (conflictBits q.settings.family target ++ updatesBits q.settings.family updated)))

namespace Statement

/-- The columns after the first, each with the comma before it. -/
theorem pushUpdates_later (family : Family) (f : Fragment) (columns : List String) :
    pushUpdates family true f columns =
      f.pushBits (columns.flatMap fun column => .text ", " :: updateBits family column) := by
  induction columns generalizing f with
  | nil => rfl
  | cons column rest ih =>
    rw [pushUpdates, ih, List.flatMap_cons, Fragment.pushBits_append]
    by_cases hfamily : family = .mysql
    · simp only [updateBits, if_pos hfamily]
      rfl
    · simp only [updateBits, if_neg hfamily]
      rfl

theorem pushUpdates_eq (family : Family) (f : Fragment) (columns : List String) :
    pushUpdates family false f columns = f.pushBits (updatesBits family columns) := by
  cases columns with
  | nil => rfl
  | cons column rest =>
    rw [pushUpdates, pushUpdates_later, updatesBits, List.map_cons, intercalate_cons,
      List.flatMap_map, Fragment.pushBits_append]
    by_cases hfamily : family = .mysql
    · simp only [updateBits, if_pos hfamily]
      rfl
    · simp only [updateBits, if_neg hfamily]
      rfl

/-- The columns to update are derived from the rows, and there must be one. -/
theorem pushConflict_derived {dialect : Dialect} {rows : Value} {f : Fragment}
    {target : List String} {entries : List (String × Value)} (hfamily : dialect.family ≠ .mssql)
    (hfirst : FirstRow rows entries) (htarget : target ≠ []) :
    pushConflict dialect rows f (.doUpdate target []) =
      if updatedColumns target entries = [] then .error (.misuse .noConflictColumn)
      else .ok (f.pushBits (conflictBits dialect.family target ++
        updatesBits dialect.family (updatedColumns target entries))) := by
  have htarget' : target.isEmpty = false := by simpa using htarget
  have hcolumns : (firstRowColumns rows).filter (fun column => !target.contains column) =
      updatedColumns target entries := by
    rw [hfirst.firstRowColumns_eq, updatedColumns]
  simp only [pushConflict, hfamily, htarget', hcolumns, List.isEmpty_nil, Bool.false_eq_true,
    if_true, if_false]
  by_cases hnone : updatedColumns target entries = []
  · rw [hnone]
    rfl
  · rw [if_neg (by simpa using hnone), if_neg hnone, pushUpdates_eq, Fragment.pushBits_append]
    unfold conflictBits
    split <;> rfl

theorem insertFragment_derived {q : Statement} {rows : Value} {target : List String}
    {entries : List (String × Value)} (hfamily : q.settings.family ≠ .mssql)
    (hfirst : FirstRow rows entries) (htarget : target ≠ []) :
    q.insertFragment rows (.doUpdate target []) =
      if updatedColumns target entries = [] then .error (.misuse .noConflictColumn)
      else .ok ((Fragment.empty q.settings).pushBits
        (upsertBits q rows target (updatedColumns target entries))) := by
  unfold insertFragment
  dsimp only
  rw [pushConflict_derived hfamily hfirst htarget, upsertBits, Fragment.pushTable_eq_bits]
  simp only [Fragment.pushBits_text, Fragment.pushBits_append]
  rfl

end Statement

/-! ### What the bits mean -/

section Means

variable {s : Settings}

theorem means_name {allowed : List UInt8}
    (hmarks : Byte.star ∉ allowed ∧ Byte.plus ∉ allowed ∧ Byte.comma ∉ allowed) (name : String) :
    Means s none allowed (nameBits name) (.ok (Name.write s.nameQuote none name)) :=
  .name hmarks name

/-- A column and its incoming value. Only on one family the name at the end has the comma after it
that separates it from the next column. -/
theorem means_update (column : String) :
    Means s none [Byte.comma] (updateBits s.family column) (.ok (updateText s column)) := by
  have hcolumn : Means s none [0x3D] (nameBits column) _ := means_name (by decide) column
  by_cases hfamily : s.family = .mysql
  · have hparen : Means s none [Byte.comma] [.text ")"] _ := Means.nil.text_cons rfl
    have hincoming : Means s none [Byte.closeParen] (nameBits column) _ :=
      means_name (by decide) column
    have hvalue : Means s none [Byte.comma]
        (.text "=VALUES(" :: (nameBits column ++ [.text ")"])) _ :=
      Means.text_text (by decide) (hincoming.followed hparen fun _ _ =>
        startsIn_text rfl (List.mem_singleton_self _) _)
    have hupdate := hcolumn.followed hvalue fun _ _ =>
      startsIn_text rfl (List.mem_singleton_self _) _
    rw [updateBits, updateText, if_pos hfamily]
    simp only [if_pos hfamily]
    exact hupdate
  · have hvalue : Means s none [Byte.comma] (.text "=excluded." :: nameBits column) _ :=
      (Means.listed_name column).text_cons rfl
    have hupdate := hcolumn.followed hvalue fun _ _ =>
      startsIn_text rfl (List.mem_singleton_self _) _
    rw [updateBits, updateText, if_neg hfamily]
    simp only [if_neg hfamily]
    exact hupdate

theorem joined_ok {α : Type} (separator : String) (f : α → Bytes) (items : List α) :
    joined separator (items.map fun item => .ok (f item)) =
      .ok ((utf8 separator).intercalate (items.map f)) := by
  have hparts : (items.map fun item => Except.ok (ε := Error) (f item)).mapM id =
      .ok (items.map f) := by
    induction items with
    | nil => rfl
    | cons item rest ih =>
      rw [List.map_cons, List.mapM_cons, ih]
      rfl
  rw [joined, hparts]
  rfl

theorem means_updates (columns : List String) :
    Means s none [Byte.comma] (updatesBits s.family columns)
      (.ok ((utf8 ", ").intercalate (columns.map (updateText s)))) := by
  rw [← joined_ok]
  exact .intercalate (b := Byte.comma) rfl (List.mem_singleton_self _) rfl
    fun column _ => means_update column

/-- Updates begin with a quote, if there are any. -/
theorem startsIn_updates (columns : List String) (rest : List Bit) (hrest : StartsIn [] rest) :
    StartsIn [Byte.doubleQuote] (updatesBits s.family columns ++ rest) := by
  cases columns with
  | nil => exact fun b hb => absurd (hrest b hb) (List.not_mem_nil)
  | cons column columns =>
    rw [updatesBits, List.map_cons, intercalate_cons, updateBits]
    exact startsIn_text rfl (List.mem_singleton_self _) _

theorem namesOf_namesValue (names : List String) :
    namesOf (Statement.namesValue names) = .ok names := by
  rw [Statement.namesValue, namesOf]
  induction names with
  | nil => rfl
  | cons name rest ih =>
    rw [List.map_cons, List.mapM_cons, ih]
    rfl

theorem means_conflict {allowed : List UInt8} {target : List String} (htarget : target ≠ []) :
    Means s none allowed (conflictBits s.family target) (.ok (conflictText s target)) := by
  unfold conflictBits conflictText
  by_cases hfamily : s.family = .mysql
  · rw [if_pos hfamily, if_pos hfamily]
    exact Means.nil.text_cons rfl
  · rw [if_neg hfamily, if_neg hfamily]
    intro rest text _
    have hpiece : (Hole.names .nonempty).piece s none (Statement.namesValue target)
        = .ok ((utf8 ", ").intercalate (target.map (Name.write s.nameQuote none))) := by
      rw [Hole.piece, namesOf_namesValue, ok_bind, if_neg htarget]
    have hencloses : Encloses (utf8 "\"+) DO UPDATE SET " ++ utf8 (headOf rest)) Byte.doubleQuote
        (.names .nonempty) := .nonempty (.inr rfl) rfl rfl
    have hconflict := @renders_enclosed_iff s none " ON CONFLICT (\"" "\"+) DO UPDATE SET " _
      (Statement.namesValue target) _ (utf8 " ON CONFLICT (") (utf8 ") DO UPDATE SET ") text rest
      rfl hencloses rfl rfl rfl rfl
    rw [hpiece] at hconflict
    exact hconflict

theorem means_rows (rows : Value) {allowed : List UInt8} :
    Means s none allowed [.text " <", .hole rows, .text ">"]
      (do return utf8 " " ++ (← bytes (writeRowsOf s rows))) := by
  intro rest text _
  have hencloses : Encloses (utf8 ">" ++ utf8 (headOf rest)) Byte.less .rows := .rows rfl
  have hrows := @renders_enclosed_iff s none " <" ">" _ rows _ (utf8 " ") [] text rest
    rfl hencloses rfl rfl rfl rfl
  have hspec : ((Hole.rows.piece s none rows).map fun own => utf8 " " ++ own ++ []) =
      (do return utf8 " " ++ (← bytes (writeRowsOf s rows))) := by
    show (bytes (writeRowsOf s rows)).map _ = _
    cases bytes (writeRowsOf s rows) with
    | error e => rfl
    | ok own => exact congrArg Except.ok (List.append_nil _)
  rw [hspec] at hrows
  exact hrows

/-- What announces the updates begins with a space. -/
theorem startsIn_conflict (family : Family) (target : List String) (rest : List Bit) :
    StartsIn [Byte.space] (conflictBits family target ++ rest) := by
  unfold conflictBits
  split <;> exact startsIn_text rfl (List.mem_singleton_self _) _

theorem means_upsert (q : Statement) (rows : Value) {target : List String} (htarget : target ≠ [])
    (updated : List String) :
    Means q.settings none [] (upsertBits q rows target updated)
      (q.upsertText rows target updated) := by
  have hupdates := (means_updates (s := q.settings) updated).mono (List.nil_subset _)
  have hclause := (means_conflict htarget).followed hupdates (startsIn_updates updated)
  have hrows := (means_rows rows).followed hclause fun rest _ => by
    rw [List.append_assoc]
    exact startsIn_conflict q.settings.family target _
  have htable := (means_table q.table none).followed hrows
    fun _ _ => startsIn_text rfl (List.mem_singleton_self _) _
  have hinsert : (utf8 "INSERT INTO ").getLast?.any Hole.isOpener = false := rfl
  have hupsert := htable.text_cons hinsert
  rw [Statement.upsertText, textOf_cons, textOf_cons, textOf_cons, textOf_cons, textOf_cons,
    textOf_singleton]
  cases hgiven : bytes (writeRowsOf q.settings rows) with
  | error e =>
    rw [hgiven] at hupsert
    exact hupsert
  | ok own =>
    rw [hgiven] at hupsert
    show Means _ none [] _ (.ok (utf8 "INSERT INTO " ++ (_ ++ (utf8 " " ++ (own ++ _)))))
    rw [← List.append_assoc (utf8 " ")]
    exact hupsert

end Means

/-! ### Building -/

namespace Statement

theorem build_of_staged {q : Statement} {operation : Operation}
    (hstaged : q.staged = some operation) :
    q.build = (q.fragment operation).map fun f => (f, { q with staged := none }) := by
  unfold build
  rw [hstaged]
  show (q.fragment operation >>= fun f => _) = _
  cases q.fragment operation <;> rfl

theorem toSql_upsertBits_iff {q : Statement} {rows : Value} {target : List String}
    (htarget : target ≠ []) (updated : List String) (sql : String) :
    ((Fragment.empty q.settings).pushBits (upsertBits q rows target updated)).toSql = .ok sql ↔
      q.upsertText rows target updated = .ok (utf8 sql) := by
  have hmeans := means_upsert q rows htarget updated [] (utf8 sql) nofun
  rw [List.append_nil] at hmeans
  have hnothing : ∀ later : Bytes, Renders q.settings none [] later ↔ later = utf8 (headOf []) :=
    fun _ => renders_iff_of_holes_nil rfl
  rw [toSql_eq_ok_iff, hmeans]
  simp only [hnothing]
  constructor
  · rintro ⟨own, later, hown, hsql, rfl⟩
    rw [hown, hsql]
    exact congrArg Except.ok (List.append_nil own).symm
  · exact fun htext => ⟨_, _, htext, (List.append_nil _).symm, rfl⟩

/-- An insertion that updates the rows it collides with, and is not told which columns, updates those
of the first row that are not in the target, each of them once, in their order and to its own
incoming value. If there is none, it is not built, and stays staged. -/
theorem upsert_updates_others {q : Statement} {rows : Value} {entries : List (String × Value)}
    {target : List String} (hstaged : q.staged = some (.insert rows (.doUpdate target [])))
    (hfamily : q.settings.family ≠ .mssql) (hfirst : FirstRow rows entries)
    (hkeys : (Keyed.keys entries).Nodup) (htarget : target ≠ []) :
    let updated := updatedColumns target entries
    (updated.Sublist (Keyed.keys entries) ∧ updated.Nodup ∧
      ∀ column, column ∈ updated ↔ column ∈ Keyed.keys entries ∧ column ∉ target) ∧
    ((∃ f q', q.build = .ok (f, q')) ↔ ∃ column ∈ Keyed.keys entries, column ∉ target) ∧
    (∀ f q', q.build = .ok (f, q') → q' = { q with staged := none } ∧
      ∀ sql, f.toSql = .ok sql ↔ q.upsertText rows target updated = .ok (utf8 sql)) ∧
    ((∀ column ∈ Keyed.keys entries, column ∈ target) →
      q.perform .build = (.error (.misuse .noConflictColumn), q) ∧
      q.perform .toSql = (.error (.misuse .noConflictColumn), q)) := by
  intro updated
  have hbuild := build_of_staged hstaged
  rw [fragment, insertFragment_derived hfamily hfirst htarget] at hbuild
  have hcolumns : updated.Sublist (Keyed.keys entries) ∧ updated.Nodup ∧
      ∀ column, column ∈ updated ↔ column ∈ Keyed.keys entries ∧ column ∉ target :=
    ⟨List.filter_sublist, hkeys.filter _, fun _ => mem_updatedColumns⟩
  by_cases hall : ∀ column ∈ Keyed.keys entries, column ∈ target
  · rw [if_pos (updatedColumns_eq_nil_iff.mpr hall)] at hbuild
    have hrefused : ¬ ∃ f q', q.build = .ok (f, q') := by
      rintro ⟨f, q', hbuilt⟩
      rw [hbuild] at hbuilt
      cases hbuilt
    have hnone : ¬ ∃ column ∈ Keyed.keys entries, column ∉ target := by
      rintro ⟨column, hcolumn, hother⟩
      exact hother (hall column hcolumn)
    refine ⟨hcolumns, iff_of_false hrefused hnone, ?_, fun _ => ?_⟩
    · exact fun f q' hbuilt => absurd ⟨f, q', hbuilt⟩ hrefused
    · rw [perform, perform, hbuild]
      exact ⟨rfl, rfl⟩
  · rw [if_neg fun hnil => hall (updatedColumns_eq_nil_iff.mp hnil)] at hbuild
    have hsome : ∃ column ∈ Keyed.keys entries, column ∉ target := by
      simpa using hall
    refine ⟨hcolumns, iff_of_true ⟨_, _, hbuild⟩ hsome, ?_, fun h => absurd h hall⟩
    intro f q' hbuilt
    rw [hbuild] at hbuilt
    cases hbuilt
    exact ⟨rfl, toSql_upsertBits_iff htarget updated⟩

/-- Two of three columns are updated. -/
theorem upsert_updates_others_postgres :
    let s : Settings := .ofDialect .postgres
    let entries : List (String × Value) := [("id", .int 1), ("a", .int 2), ("b", .int 3)]
    let rows : Value := .list [.map entries]
    let q : Statement := ⟨s, "t", [], [], none, some (.insert rows (.doUpdate ["id"] []))⟩
    let sql := "INSERT INTO \"t\" (\"id\", \"a\", \"b\") VALUES (1, 2, 3) " ++
      "ON CONFLICT (\"id\") DO UPDATE SET \"a\"=excluded.\"a\", \"b\"=excluded.\"b\""
    FirstRow rows entries ∧ q.upsertText rows ["id"] ["a", "b"] = .ok (utf8 sql) ∧
      ∃ f q', q.build = .ok (f, q') ∧ f.toSql = .ok sql := by
  intro s entries rows q sql
  have hfirst : FirstRow rows entries := .list entries []
  have hmade : (Value.ofEntries entries).Made := by
    refine .entries (List.forall_mem_cons.mpr ⟨.scalar rfl, List.forall_mem_cons.mpr ⟨.scalar rfl, ?_⟩⟩)
    exact List.forall_mem_singleton.mpr (.scalar rfl)
  have hkeys : (Keyed.keys entries).Nodup :=
    hfirst.nodup_keys (.list (List.forall_mem_singleton.mpr hmade))
  have htext : q.upsertText rows ["id"] ["a", "b"] = .ok (utf8 sql) := by decide +kernel
  obtain ⟨-, hbuilds, hbuilt, -⟩ :=
    upsert_updates_others (q := q) rfl (by decide) hfirst hkeys (List.cons_ne_nil "id" [])
  obtain ⟨f, q', hbuild⟩ := hbuilds.mpr ⟨"a", by decide, by decide⟩
  exact ⟨hfirst, htext, f, q', hbuild, ((hbuilt f q' hbuild).2 sql).mpr htext⟩

end Statement

end SqlTemplate
