import Mathlib.Data.List.Forall2
import SqlTemplate.Proofs.Conditions
import SqlTemplate.Proofs.Rendering

/-!
# Row sets

A hole for rows is filled with the columns of the first row and, for every row, with a tuple that has
one entry for each column. Rows are matched to columns by name while they are written; here what
they write is put apart from the matching. `RowSet.tuples` are the entries alone, row by row and
column by column, and `RowSet.text` is what stands around them. Main statement:
`rowSet_rectangular`.
-/

namespace SqlTemplate

open Render

/-! ### The entries and what stands around them -/

namespace RowSet

/-- What a row has in a column: its own value, written where a value is asked for, or what stands
for one that it does not have. -/
def cell (s : Settings) (row : List (String × Value)) (column : String) : Piece Bytes :=
  match row.lookup column with
  | some value => (writeValue s none value).piece
  | none => pure (utf8 (missingCell s))

/-- What a row has in every column. -/
def tuple (s : Settings) (columns : List String) (row : List (String × Value)) :
    Piece (List Bytes) := columns.mapM (cell s row)

def tuples (s : Settings) (columns : List String) (rows : List (List (String × Value))) :
    Piece (List (List Bytes)) := rows.mapM (tuple s columns)

/-- Texts with a separator between them, and also before the first if it comes later. -/
def separated (later : Bool) (separator : String) (texts : List Bytes) : Bytes :=
  if later then texts.flatMap (utf8 separator ++ ·) else (utf8 separator).intercalate texts

def tupleText (entries : List Bytes) : Bytes :=
  utf8 "(" ++ separated false ", " entries ++ utf8 ")"

/-- The columns, quoted, and the tuples, one on each line. -/
def text (s : Settings) (columns : List String) (tuples : List (List Bytes)) : Bytes :=
  utf8 "(" ++ separated false ", " (columns.map (Name.write s.nameQuote none)) ++ utf8 ") VALUES " ++
    separated false ",\n" (tuples.map tupleText)

theorem separated_nil (later : Bool) (separator : String) : separated later separator [] = [] := by
  cases later <;> rfl

theorem separated_cons (later : Bool) (separator : String) (text : Bytes) (rest : List Bytes) :
    separated later separator (text :: rest) =
      (if later then utf8 separator else []) ++ (text ++ separated true separator rest) := by
  cases later with
  | false => exact intercalate_cons _ _ _
  | true => simp [separated]

end RowSet

open RowSet

/-! ### Steps and their entries -/

theorem writes_writeCell (s : Settings) (row : List (String × Value)) (column : String) :
    Writes (writeCell s (cellsOf s row) column) (cell s row column) := by
  rw [writeCell, cellsOf_eq, lookup_cellsWith, cell]
  cases row.lookup column with
  | none => exact .write _
  | some value => exact isLocal_writeValue s value

theorem writes_writeCells (s : Settings) (row : List (String × Value)) (later : Bool)
    (columns : List String) :
    Writes (writeCells s (cellsOf s row) later columns)
      (tuple s columns row >>= fun entries => pure (separated later ", " entries)) := by
  induction columns generalizing later with
  | nil =>
    rw [tuple, List.mapM_nil, pure_bind, separated_nil]
    exact .pure
  | cons column rest ih =>
    have hstep := (Writes.separate later ", ").seq ((writes_writeCell s row column).seq (ih true))
    have hpiece : (tuple s (column :: rest) row >>= fun entries =>
          pure (separated later ", " entries)) =
        (pure (if later then utf8 ", " else []) : Piece Bytes).append ((cell s row column).append
          (tuple s rest row >>= fun entries => pure (separated true ", " entries))) := by
      simp only [tuple, List.mapM_cons, Piece.append, bind_assoc, pure_bind, separated_cons]
    rw [hpiece]
    exact hstep

theorem isLocal_writeRows (s : Settings) (columns : List String) (index : Nat)
    (rows : List Value) : Local (writeRows s columns index (rowsOf s rows)) :=
  ((closed_true s).emits_writeRows columns index
    (emits_rowsOf (closed_true s) (nestsItems_isLocal s rows))).isLocal

theorem checkColumns_eq_ok_iff {columns : List String} {index : Nat} {row : List Cell} :
    checkColumns columns index row = .ok () ↔ ∀ key ∈ Keyed.keys row, key ∈ columns := by
  refine ⟨mem_of_checkColumns, fun h => ?_⟩
  have hnone : (Keyed.keys row).find? (fun key => !columns.contains key) = none := by simpa using h
  rw [checkColumns, hnone]

/-- The piece of a row and of the rows after it. -/
theorem piece_writeRows_cons (s : Settings) (columns : List String) (index : Nat)
    (row : List (String × Value)) (rest : List Value) :
    (writeRows s columns index (rowsOf s (.map row :: rest))).piece =
      liftM (checkColumns columns index (cellsOf s row)) >>= fun _ =>
        tuple s columns row >>= fun entries =>
          (writeRows s columns (index + 1) (rowsOf s rest)).piece >>= fun later =>
            pure ((if index != 0 then utf8 ",\n" else []) ++ (tupleText entries ++ later)) := by
  have hstep : Writes (writeRows s columns index (rowsOf s (.map row :: rest))) _ :=
    .lift fun _ _ => (Writes.separate (index != 0) ",\n").seq ((Writes.write (utf8 "(")).seq
      ((writes_writeCells s row false columns).seq ((Writes.write (utf8 ")")).seq
        (isLocal_writeRows s columns (index + 1) rest))))
  rw [hstep.piece_eq]
  simp only [Piece.append, bind_assoc, pure_bind, tupleText, List.append_assoc]

/-- Rows are written if all of them are maps, none has a column of its own, and all their entries
are made. -/
theorem result_writeRows_eq_ok_iff {s : Settings} {columns : List String} {index : Nat}
    {rows : List Value} {sink sink' : Sink} {bytes : Bytes} :
    (writeRows s columns index (rowsOf s rows)).piece.result sink = (.ok bytes, sink') ↔
      ∃ maps, rows = maps.map .map ∧ (∀ row ∈ maps, ∀ key ∈ Keyed.keys row, key ∈ columns) ∧
        ∃ made, (tuples s columns maps).result sink = (.ok made, sink') ∧
          separated (index != 0) ",\n" (made.map tupleText) = bytes := by
  induction rows generalizing index sink bytes with
  | nil =>
    have hnone : (writeRows s columns index (rowsOf s [])).piece = pure [] := Writes.pure.piece_eq
    rw [hnone]
    constructor
    · intro h
      cases h
      exact ⟨[], rfl, List.forall_mem_nil _, [], rfl, separated_nil _ _⟩
    · rintro ⟨maps, hmaps, -, made, hmade, rfl⟩
      obtain rfl := List.map_eq_nil_iff.mp hmaps.symm
      rw [tuples, List.mapM_nil] at hmade
      cases hmade
      rw [List.map_nil, separated_nil]
      rfl
  | cons value rest ih =>
    cases value with
    | map row =>
      rw [piece_writeRows_cons]
      simp only [Piece.result_bind_eq_ok_iff, Piece.result_liftM, Piece.result_pure, Prod.mk.injEq,
        Except.ok.injEq]
      constructor
      · rintro ⟨_, _, ⟨hcheck, rfl⟩, entries, _, hentries, later, _, hlater, rfl, rfl⟩
        obtain ⟨maps, rfl, hkeys, made, hmade, rfl⟩ := ih.mp hlater
        refine ⟨row :: maps, rfl, List.forall_mem_cons.mpr ⟨?_, hkeys⟩, entries :: made, ?_, ?_⟩
        · rw [cellsOf_eq] at hcheck
          rw [← keys_cellsWith (writeValue s none)]
          exact checkColumns_eq_ok_iff.mp hcheck
        · exact Piece.result_mapM_cons_eq_ok_iff.mpr ⟨entries, _, made, hentries, hmade, rfl⟩
        · rw [List.map_cons, separated_cons]
          rfl
      · rintro ⟨maps, hmaps, hkeys, made, hmade, rfl⟩
        obtain ⟨first, maps, rfl, hfirst, hrest⟩ := List.map_eq_cons_iff.mp hmaps.symm
        cases hfirst
        obtain ⟨hrow, hkeys⟩ := List.forall_mem_cons.mp hkeys
        obtain ⟨entries, between, others, hentries, hothers, rfl⟩ :=
          Piece.result_mapM_cons_eq_ok_iff.mp hmade
        refine ⟨(), sink, ⟨?_, rfl⟩, entries, between, hentries, _, sink',
          ih.mpr ⟨maps, hrest.symm, hkeys, others, hothers, rfl⟩, ?_, rfl⟩
        · rw [cellsOf_eq, checkColumns_eq_ok_iff, keys_cellsWith]
          exact hrow
        · rw [List.map_cons, separated_cons]
          rfl
    | _ =>
      refine iff_of_false (fun h => ?_) ?_
      · cases h
      · rintro ⟨maps, hmaps, -⟩
        cases maps <;> cases hmaps

/-! ### Row sets -/

/-- A value gives the rows of a row set with these columns: it is a map or a list of maps, its first
row has these keys, and no row has others. -/
structure IsRowSet (value : Value) (columns : List String) (rows : List (List (String × Value))) :
    Prop where
  gives : value = .list (rows.map .map) ∨ ∃ row, value = .map row ∧ rows = [row]
  columns_eq : rows.head?.map Keyed.keys = some columns
  keys_mem : ∀ row ∈ rows, ∀ key ∈ Keyed.keys row, key ∈ columns

theorem result_writeRowSet_eq_ok_iff {s : Settings} {values : List Value} {sink sink' : Sink}
    {bytes : Bytes} :
    (writeRowSet s (rowsOf s values)).piece.result sink = (.ok bytes, sink') ↔
      ∃ columns rows, values = rows.map .map ∧ rows.head?.map Keyed.keys = some columns ∧
        (∀ row ∈ rows, ∀ key ∈ Keyed.keys row, key ∈ columns) ∧
        ∃ made, (tuples s columns rows).result sink = (.ok made, sink') ∧
          text s columns made = bytes := by
  cases values with
  | nil =>
    refine iff_of_false (fun h => ?_) ?_
    · cases h
    · rintro ⟨columns, rows, hrows, hhead, -⟩
      obtain rfl := List.map_eq_nil_iff.mp hrows.symm
      cases hhead
  | cons value rest =>
    cases value with
    | map first =>
      have hstep : Writes (writeRowSet s (rowsOf s (.map first :: rest))) _ :=
        (Writes.write (utf8 "(")).seq ((Writes.write _).seq ((Writes.write (utf8 ") VALUES ")).seq
          (isLocal_writeRows s (Keyed.keys (cellsOf s first)) 0 (.map first :: rest))))
      rw [hstep.piece_eq]
      simp only [Piece.result_text_append_eq_ok_iff, result_writeRows_eq_ok_iff, cellsOf_eq,
        keys_cellsWith]
      constructor
      · rintro ⟨_, ⟨_, ⟨_, ⟨rows, hrows, hkeys, made, hmade, rfl⟩, rfl⟩, rfl⟩, rfl⟩
        obtain ⟨first, others, rfl, hfirst, rfl⟩ := List.map_eq_cons_iff.mp hrows.symm
        cases hfirst
        refine ⟨Keyed.keys first, first :: others, rfl, rfl, hkeys, made, hmade, ?_⟩
        simp only [text, List.append_assoc]
        rfl
      · rintro ⟨columns, rows, hrows, hhead, hkeys, made, hmade, rfl⟩
        obtain ⟨first, others, rfl, hfirst, rfl⟩ := List.map_eq_cons_iff.mp hrows.symm
        cases hfirst
        cases hhead
        refine ⟨_, ⟨_, ⟨_, ⟨first :: others, rfl, hkeys, made, hmade, rfl⟩, rfl⟩, rfl⟩, ?_⟩
        simp only [text, List.append_assoc]
        rfl
    | _ =>
      refine iff_of_false (fun h => ?_) ?_
      · cases h
      · rintro ⟨columns, rows, hrows, -⟩
        cases rows <;> cases hrows

theorem result_writeRowsOf_eq_ok_iff {s : Settings} {value : Value} {sink sink' : Sink}
    {bytes : Bytes} :
    (writeRowsOf s value).piece.result sink = (.ok bytes, sink') ↔
      ∃ columns rows made, IsRowSet value columns rows ∧
        (tuples s columns rows).result sink = (.ok made, sink') ∧ text s columns made = bytes := by
  cases value with
  | list values =>
    refine result_writeRowSet_eq_ok_iff.trans ?_
    constructor
    · rintro ⟨columns, rows, rfl, hhead, hkeys, made, hmade⟩
      exact ⟨columns, rows, made, ⟨.inl rfl, hhead, hkeys⟩, hmade⟩
    · rintro ⟨columns, rows, made, ⟨hgives, hhead, hkeys⟩, hmade⟩
      rcases hgives with hlist | ⟨row, hmap, -⟩
      · cases hlist
        exact ⟨columns, rows, rfl, hhead, hkeys, made, hmade⟩
      · cases hmap
  | map row =>
    have hrow : (writeRowSet s (rowsOf s [.map row])).piece.result sink = (.ok bytes, sink') ↔ _ :=
      result_writeRowSet_eq_ok_iff
    refine hrow.trans ?_
    constructor
    · rintro ⟨columns, rows, hrows, hhead, hkeys, made, hmade⟩
      obtain ⟨first, others, rfl, hfirst, hothers⟩ := List.map_eq_cons_iff.mp hrows.symm
      obtain rfl := List.map_eq_nil_iff.mp hothers
      cases hfirst
      exact ⟨columns, [row], made, ⟨.inr ⟨row, rfl, rfl⟩, hhead, hkeys⟩, hmade⟩
    · rintro ⟨columns, rows, made, ⟨hgives, hhead, hkeys⟩, hmade⟩
      rcases hgives with hlist | ⟨own, hmap, rfl⟩
      · cases hlist
      · cases hmap
        exact ⟨columns, [row], rfl, hhead, hkeys, made, hmade⟩
  | _ =>
    refine iff_of_false (fun h => ?_) ?_
    · cases h
    · rintro ⟨columns, rows, made, ⟨hlist | ⟨row, hmap, -⟩, -, -⟩, -⟩
      · cases hlist
      · cases hmap

/-! ### Entries one by one -/

theorem grows_cell (s : Settings) (row : List (String × Value)) (column : String) :
    (cell s row column).Grows :=
  (writes_writeCell s row column).grows

namespace Piece

variable {α β : Type} {f : α → Piece β}

theorem Grows.mapM (h : ∀ a, (f a).Grows) (xs : List α) : (xs.mapM f).Grows := by
  induction xs with
  | nil =>
    rw [List.mapM_nil]
    exact .pure []
  | cons a rest ih =>
    rw [List.mapM_cons]
    exact (h a).bind fun _ => ih.bind fun _ => .pure _

theorem Grows.eq_none_of_result {piece : Piece α} (h : piece.Grows) {result : Except Error α}
    {sink : Sink} (hresult : piece.result none = (result, sink)) : sink = none := by
  have hnone := h.result_none
  rwa [hresult] at hnone

/-- Pieces in turn are as many as there are, each made from the sink that the ones before left. -/
theorem forall₂_of_mapM (h : ∀ a, (f a).Grows) {xs : List α} {sink sink' : Sink} {made : List β}
    (hmade : (xs.mapM f).result sink = (.ok made, sink')) :
    List.Forall₂ (fun a b => ∃ reached reached' : Sink, reached.Extends sink ∧
      (f a).result reached = (.ok b, reached')) xs made := by
  induction xs generalizing sink made with
  | nil =>
    rw [List.mapM_nil] at hmade
    cases hmade
    exact .nil
  | cons a rest ih =>
    obtain ⟨b, between, others, hb, hothers, rfl⟩ := result_mapM_cons_eq_ok_iff.mp hmade
    have hbetween : between.Extends sink := by
      have hgrows := h a sink
      rwa [hb] at hgrows
    refine .cons ⟨sink, between, .refl sink, hb⟩ ((ih hothers).imp ?_)
    rintro c d ⟨reached, reached', hreached, hd⟩
    exact ⟨reached, reached', hbetween.trans hreached, hd⟩

/-- Without a sink it takes no more than that each piece is made on its own. -/
theorem exists_mapM_none_iff (h : ∀ a, (f a).Grows) {xs : List α} :
    (∃ made, ((xs.mapM f).result none).1 = .ok made) ↔
      ∀ a ∈ xs, ∃ b, ((f a).result none).1 = .ok b := by
  induction xs with
  | nil =>
    rw [List.mapM_nil]
    exact iff_of_true ⟨[], rfl⟩ (List.forall_mem_nil _)
  | cons a rest ih =>
    rw [List.forall_mem_cons, ← ih]
    simp only [fst_result_eq_ok_iff, result_mapM_cons_eq_ok_iff]
    constructor
    · rintro ⟨made, sink', b, between, others, hb, hothers, rfl⟩
      obtain rfl := (h a).eq_none_of_result hb
      exact ⟨⟨b, none, hb⟩, others, sink', hothers⟩
    · rintro ⟨⟨b, between, hb⟩, others, sink', hothers⟩
      obtain rfl := (h a).eq_none_of_result hb
      exact ⟨b :: others, sink', b, none, others, hb, hothers, rfl⟩

end Piece

theorem forall₂_tuples {s : Settings} {columns : List String}
    {rows : List (List (String × Value))} {sink sink' : Sink} {made : List (List Bytes)}
    (h : (tuples s columns rows).result sink = (.ok made, sink')) :
    List.Forall₂ (fun row entries => List.Forall₂ (fun column entry =>
      ∃ reached reached' : Sink, reached.Extends sink ∧
        (cell s row column).result reached = (.ok entry, reached')) columns entries) rows made := by
  refine (Piece.forall₂_of_mapM (fun row => .mapM (grows_cell s row) columns) h).imp ?_
  rintro row entries ⟨reached, reached', hreached, hentries⟩
  refine (Piece.forall₂_of_mapM (grows_cell s row) hentries).imp ?_
  rintro column entry ⟨between, between', hbetween, hentry⟩
  exact ⟨between, between', hreached.trans hbetween, hentry⟩

/-- A cell that is there renders as its value does, and one that is missing always does. -/
theorem exists_cell_none_iff {s : Settings} {row : List (String × Value)} {column : String} :
    (∃ entry, ((cell s row column).result none).1 = .ok entry) ↔
      ∀ value, row.lookup column = some value →
        ∃ entry, bytes (writeValue s none value) = .ok entry := by
  unfold cell
  cases row.lookup column with
  | none =>
    refine iff_of_true ⟨_, rfl⟩ fun value hvalue => ?_
    cases hvalue
  | some value =>
    constructor
    · rintro hentry _ ⟨⟩
      exact hentry
    · exact fun h => h value rfl

theorem exists_tuples_none_iff {s : Settings} {columns : List String}
    {rows : List (List (String × Value))} :
    (∃ made, ((tuples s columns rows).result none).1 = .ok made) ↔
      ∀ row ∈ rows, ∀ column ∈ columns, ∀ value, row.lookup column = some value →
        ∃ entry, bytes (writeValue s none value) = .ok entry := by
  refine (Piece.exists_mapM_none_iff fun row => .mapM (grows_cell s row) columns).trans ?_
  refine forall₂_congr fun row _ => (Piece.exists_mapM_none_iff (grows_cell s row)).trans ?_
  exact forall₂_congr fun column _ => exists_cell_none_iff

theorem fst_result_writeRowsOf_eq_ok_iff {s : Settings} {value : Value} {sink : Sink}
    {bytes : Bytes} :
    ((writeRowsOf s value).piece.result sink).1 = .ok bytes ↔
      ∃ columns rows made, IsRowSet value columns rows ∧
        ((tuples s columns rows).result sink).1 = .ok made ∧ text s columns made = bytes := by
  simp only [Piece.fst_result_eq_ok_iff, result_writeRowsOf_eq_ok_iff]
  constructor
  · rintro ⟨sink', columns, rows, made, hset, hmade, htext⟩
    exact ⟨columns, rows, made, hset, ⟨sink', hmade⟩, htext⟩
  · rintro ⟨columns, rows, made, hset, ⟨sink', hmade⟩, htext⟩
    exact ⟨sink', columns, rows, made, hset, hmade, htext⟩

/-- Without a sink a row set is written iff each value that its rows have is. -/
theorem exists_bytes_writeRowsOf_iff {s : Settings} {value : Value} :
    (∃ text, bytes (writeRowsOf s value) = .ok text) ↔
      ∃ columns rows, IsRowSet value columns rows ∧
        ∀ row ∈ rows, ∀ column ∈ columns, ∀ own, row.lookup column = some own →
          ∃ entry, bytes (writeValue s none own) = .ok entry := by
  constructor
  · rintro ⟨_, hbytes⟩
    obtain ⟨columns, rows, made, hset, hmade, -⟩ := fst_result_writeRowsOf_eq_ok_iff.mp hbytes
    exact ⟨columns, rows, hset, exists_tuples_none_iff.mp ⟨made, hmade⟩⟩
  · rintro ⟨columns, rows, hset, hcells⟩
    obtain ⟨made, hmade⟩ := exists_tuples_none_iff.mpr hcells
    exact ⟨_, fst_result_writeRowsOf_eq_ok_iff.mpr ⟨columns, rows, made, hset, hmade, rfl⟩⟩

/-! ### The hole -/

/-- A fragment whose only hole is for rows is its text around what the value writes. -/
theorem Fragment.piece_rows (s : Settings) (front back : String) (value : Value) (sizeHint : Nat) :
    Fragment.piece s ⟨s, front ++ "<", [(value, ">" ++ back)], sizeHint⟩ =
      (pure (utf8 front) : Piece Bytes).append
        ((writeRowsOf s value).piece.append (pure (utf8 back))) := by
  have hfind : Hole.find 0 (some Byte.less) (utf8 (">" ++ back)) = .ok .rows := by
    rw [utf8_append]
    rfl
  exact Fragment.piece_enclosed rfl hfind rfl rfl

/-- Rendering such a fragment puts its text around what the value writes, or fails with it. -/
theorem Fragment.renderInto_rows (s : Settings) (front back : String) (value : Value)
    (sizeHint : Nat) (out : Buffer) (sink : Sink) :
    let given := ((writeRowsOf s value).piece.result sink).1
    let rendered := Fragment.renderInto ⟨s, front ++ "<", [(value, ">" ++ back)], sizeHint⟩ out sink {}
    rendered.result = given.map (fun _ => ()) ∧ rendered.out.toList
      = out.toList ++ (given.toOption.elim [] fun bytes => utf8 front ++ bytes ++ utf8 back) :=
  renderInto_between (piece_rows s front back value sizeHint) rfl out sink

/-- A value fills a hole for rows if and only if it is a row set (a map, or a list of maps that is
not empty, with no key beyond those of the first row) and the values that its rows have are all
written. The text is that of the columns and of one tuple for each row. A tuple has one entry for
each column: what the row has in that column, whatever the order of its own keys. -/
theorem rowSet_rectangular (s : Settings) (value : Value) (sink : Sink) :
    (∀ bytes, ((writeRowsOf s value).piece.result sink).1 = .ok bytes ↔
      ∃ columns rows made, IsRowSet value columns rows ∧
        ((tuples s columns rows).result sink).1 = .ok made ∧
        List.Forall₂ (fun row entries => List.Forall₂ (fun column entry =>
          ∃ reached reached' : Sink, reached.Extends sink ∧
            (cell s row column).result reached = (.ok entry, reached')) columns entries) rows made ∧
        text s columns made = bytes) ∧
    ((∃ text, bytes (writeRowsOf s value) = .ok text) ↔
      ∃ columns rows, IsRowSet value columns rows ∧
        ∀ row ∈ rows, ∀ column ∈ columns, ∀ own, row.lookup column = some own →
          ∃ entry, bytes (writeValue s none own) = .ok entry) ∧
    ∀ front back sizeHint out,
      let given := ((writeRowsOf s value).piece.result sink).1
      let rendered :=
        Fragment.renderInto ⟨s, front ++ "<", [(value, ">" ++ back)], sizeHint⟩ out sink {}
      rendered.result = given.map (fun _ => ()) ∧ rendered.out.toList
        = out.toList ++ (given.toOption.elim [] fun bytes => utf8 front ++ bytes ++ utf8 back) := by
  refine ⟨fun bytes => fst_result_writeRowsOf_eq_ok_iff.trans ?_, exists_bytes_writeRowsOf_iff, ?_⟩
  · constructor
    · rintro ⟨columns, rows, made, hset, hmade, htext⟩
      obtain ⟨sink', hresult⟩ := Piece.fst_result_eq_ok_iff.mp hmade
      exact ⟨columns, rows, made, hset, hmade, forall₂_tuples hresult, htext⟩
    · rintro ⟨columns, rows, made, hset, hmade, -, htext⟩
      exact ⟨columns, rows, made, hset, hmade, htext⟩
  · exact fun front back sizeHint out => Fragment.renderInto_rows s front back value sizeHint out sink

/-- A row with its keys in another order, and one that lacks a key. -/
example : bytes (writeRowsOf (Settings.ofDialect .postgres) (.list
    [.map [("a", .bool true), ("b", .null)], .map [("b", .bool false), ("a", .null)],
      .map [("b", .null)]]))
    = .ok (utf8 "(\"a\", \"b\") VALUES (TRUE, NULL),\n(NULL, FALSE),\n(DEFAULT, NULL)") := by
  decide +kernel

end SqlTemplate
