import SqlTemplate.Proofs.Guards

/-!
# Fragments under the settings of the root

A fragment inside another is rendered under the settings of the outermost one, the root, and its own
settings are looked at once: to see whether its dialect may stand there. Every value is therefore
guarded by what fragments it holds: if all of them may stand in the root, it is written as if they
all had the settings of the root, and else it is refused. The main statement is
`Fragment.renderInto_under_root`.
-/

namespace SqlTemplate

open Render

/-! ### Values with other settings -/

theorem cellsWith_entriesWithSettings (s : Settings) (step : Value → Render Unit)
    (entries : List (String × Value)) :
    cellsWith step (entriesWithSettings s entries)
      = cellsWith (fun value => step (value.withSettings s)) entries := by
  rw [entriesWithSettings_eq_map, cellsWith, cellsWith, List.map_map]
  rfl

theorem rowWith_itemsWithSettings (s : Settings) (step : Value → Render Unit) (rows : List Value) :
    (itemsWithSettings s rows).map (rowWith step)
      = rows.map (rowWith fun value => step (value.withSettings s)) := by
  rw [itemsWithSettings_eq_map, List.map_map]
  refine List.map_congr_left fun row _ => ?_
  cases row with
  | map entries => exact congrArg Except.ok (cellsWith_entriesWithSettings s step entries)
  | fragment f =>
    cases f
    rfl
  | _ => rfl

mutual

/-- There is no fragment in what is encoded, and so nothing to set. -/
theorem Value.withSettings_of_encoded (s r : Settings) :
    (value : Value) → value.isPlaced .encoded = true →
      value.withSettings r = value ∧ value.Embeds s
  | .list items, h => by
    rw [Value.isPlaced] at h
    obtain ⟨hsame, hembeds⟩ := itemsWithSettings_of_encoded s r items h
    rw [Value.withSettings, hsame]
    exact ⟨rfl, Value.embeds_list_iff.mpr hembeds⟩
  | .map entries, h => by
    rw [Value.isPlaced] at h
    obtain ⟨hsame, hembeds⟩ := entriesWithSettings_of_encoded s r entries h
    rw [Value.withSettings, hsame]
    exact ⟨rfl, Value.embeds_map_iff.mpr hembeds⟩
  | .fragment ⟨_, _, _, _⟩, h => by
    rw [Value.isPlaced] at h
    cases h
  | .null, _ | .bool _, _ | .int _, _ | .uint _, _ | .bigint _, _ | .float _, _ | .str _, _
  | .bytes _, _ | .date _, _ | .dateTime _, _ | .json _, _ | .foreign _, _ => by
    refine ⟨rfl, ?_⟩
    intro f hf
    cases hf

theorem itemsWithSettings_of_encoded (s r : Settings) :
    (items : List Value) → itemsPlaced .encoded items = true →
      itemsWithSettings r items = items ∧ ∀ item ∈ items, item.Embeds s
  | [], _ => ⟨rfl, List.forall_mem_nil _⟩
  | item :: rest, h => by
    rw [itemsPlaced, Bool.and_eq_true] at h
    obtain ⟨hitem, hitem'⟩ := Value.withSettings_of_encoded s r item h.1
    obtain ⟨hrest, hrest'⟩ := itemsWithSettings_of_encoded s r rest h.2
    rw [itemsWithSettings, hitem, hrest]
    exact ⟨rfl, List.forall_mem_cons.mpr ⟨hitem', hrest'⟩⟩

theorem entriesWithSettings_of_encoded (s r : Settings) :
    (entries : List (String × Value)) → entriesPlaced .encoded entries = true →
      entriesWithSettings r entries = entries ∧ ∀ entry ∈ entries, entry.2.Embeds s
  | [], _ => ⟨rfl, List.forall_mem_nil _⟩
  | (key, value) :: rest, h => by
    rw [entriesPlaced, Bool.and_eq_true] at h
    obtain ⟨hvalue, hvalue'⟩ := Value.withSettings_of_encoded s r value h.1
    obtain ⟨hrest, hrest'⟩ := entriesWithSettings_of_encoded s r rest h.2
    rw [entriesWithSettings, hvalue, hrest]
    exact ⟨rfl, List.forall_mem_cons.mpr ⟨hvalue', hrest'⟩⟩

end

/-! ### Every value is guarded -/

section Guard

variable {s r : Settings}

theorem Value.DistinctKeys.items {items : List Value} (h : (Value.list items).DistinctKeys) :
    ∀ item ∈ items, item.DistinctKeys :=
  fun _ hitem entries hentries => h entries (.item hitem hentries)

theorem Value.DistinctKeys.entries {entries : List (String × Value)}
    (h : (Value.map entries).DistinctKeys) : ∀ entry ∈ entries, entry.2.DistinctKeys :=
  fun _ hentry other hother => h other (.entry hentry hother)

theorem Value.DistinctKeys.holes {f : Fragment} (h : (Value.fragment f).DistinctKeys) :
    ∀ hole ∈ f.holes, hole.1.DistinctKeys :=
  fun _ hhole other hother => h other (.hole hhole hother)

theorem Value.DistinctKeys.row {row : Value} (h : row.DistinctKeys) :
    (Keyed.keys (rowEntries row)).Nodup := by
  cases row with
  | map entries => exact h entries (.self _)
  | _ => exact List.nodup_nil

theorem writeItems_cons {depth : Nat} {later : Bool} {item : Value}
    (h : ∀ inner, item ≠ .list inner) (rest : List Value) :
    writeItems s depth later (item :: rest) =
      (separate later ", " >>= fun _ => writeValue s none item >>= fun _ =>
        writeItems s depth true rest) := by
  cases item with
  | list inner => exact absurd rfl (h inner)
  | _ => simp only [writeItems]

theorem Value.withSettings_ne_list {item : Value} (h : ∀ inner, item ≠ .list inner) :
    ∀ inner, item.withSettings r ≠ .list inner := by
  cases item with
  | list inner => exact absurd rfl (h inner)
  | fragment f =>
    cases f
    exact nofun
  | _ => exact nofun

/-- An item that is no list. -/
theorem guarded_writeItems_cons {depth : Nat} {later : Bool} {item : Value} {rest : List Value}
    (hlist : ∀ inner, item ≠ .list inner)
    (hitem : Guarded (item.Embeds s) (writeValue s none item)
      (writeValue s none (item.withSettings r)))
    (hrest : Guarded (∀ other ∈ rest, other.Embeds s) (writeItems s depth true rest)
      (writeItems s depth true (itemsWithSettings r rest))) :
    Guarded (∀ other ∈ item :: rest, other.Embeds s) (writeItems s depth later (item :: rest))
      (writeItems s depth later (itemsWithSettings r (item :: rest))) := by
  rw [itemsWithSettings, writeItems_cons hlist,
    writeItems_cons (Value.withSettings_ne_list hlist)]
  exact .congr List.forall_mem_cons.symm
    (.after (isLocal_separate later ", ") (hitem.seq hrest))

/-- A nested fragment is rendered if it may stand where it stands, whatever else it is set to. -/
theorem guarded_embedded (hr : s.checkEmbeds r = .ok ()) {f : Fragment} {qualifier : Option String}
    (h : Piece.Guarded (∀ hole ∈ f.holes, hole.1.Embeds s)
      (pieceFrom s qualifier 0 none 0 (utf8 f.head) f.holes)
      (pieceFrom s qualifier 0 none 0 (utf8 f.head) (holesWithSettings r f.holes))) :
    Guarded ((Value.fragment f).Embeds s)
      (embedded s f.settings (renderFrom s qualifier 0 f.head f.holes))
      (embedded s r (renderFrom s qualifier 0 f.head (holesWithSettings r f.holes))) := by
  have hwrites : Writes (embedded s f.settings (renderFrom s qualifier 0 f.head f.holes)) _ :=
    writes_embedded (isLocal_holes s f.holes)
  have hwrites' :
      Writes (embedded s r (renderFrom s qualifier 0 f.head (holesWithSettings r f.holes))) _ :=
    writes_embedded (isLocal_holes s (holesWithSettings r f.holes))
  refine ⟨hwrites.isLocal, hwrites'.isLocal, ?_⟩
  rw [hwrites.piece_eq, hwrites'.piece_eq, hr]
  cases hchild : s.checkEmbeds f.settings with
  | error e =>
    constructor
    · intro hok
      have hembeds := (Value.embeds_fragment_iff.mp hok).1
      rw [hchild] at hembeds
      cases hembeds
    · exact .throw e
  | ok _ =>
    refine h.congr ?_
    rw [Value.embeds_fragment_iff, hchild]
    exact (and_iff_right rfl).symm

/-- What is encoded is written as it is. -/
theorem guarded_piece_of_encoded (value : Value) (h : value.isPlaced .encoded = true)
    (qualifier : Option String) (next : Bytes) (hole : Hole) :
    Piece.Guarded (value.Embeds s)
      ((Filling.ofValue s value).piece s qualifier next hole)
      ((Filling.ofValue s (value.withSettings r)).piece s qualifier next hole) := by
  obtain ⟨hsame, hembeds⟩ := value.withSettings_of_encoded s r h
  rw [hsame]
  exact .refl hembeds _

theorem guarded_writeValue_of_encoded (value : Value) (h : value.isPlaced .encoded = true)
    (qualifier : Option String) :
    Guarded (value.Embeds s) (writeValue s qualifier value)
      (writeValue s qualifier (value.withSettings r)) := by
  obtain ⟨hsame, hembeds⟩ := value.withSettings_of_encoded s r h
  rw [hsame]
  exact .refl hembeds
    (emits_writeValue (closed_true s) (nests_isLocal s qualifier value)).isLocal

theorem guarded_parenthesized {ok : Prop} {step step' : Render Unit} (h : Guarded ok step step') :
    Piece.Guarded ok
      ((pure [Byte.openParen] : Piece Bytes).append (step.piece.append (pure [Byte.closeParen])))
      ((pure [Byte.openParen] : Piece Bytes).append (step'.piece.append (pure [Byte.closeParen]))) :=
  ((Piece.Guarded.refl trivial _).append (h.piece.append (.refl trivial _))).congr
    ((and_iff_right trivial).trans (and_iff_left trivial))

/-- A fragment is rendered in three kinds of holes, and refused in all others. -/
theorem guarded_piece_fragment {f : Fragment} {qualifier : Option String} {hole : Hole}
    (h : (Place.ofHole hole).renders = true → Guarded ((Value.fragment f).Embeds s)
      (embedded s f.settings (renderFrom s qualifier 0 f.head f.holes))
      (embedded s r (renderFrom s qualifier 0 f.head (holesWithSettings r f.holes))))
    (next : Bytes) :
    Piece.Guarded ((Value.fragment f).Embeds s)
      ((Filling.ofValue s (.fragment f)).piece s qualifier next hole)
      ((Filling.ofValue s ((Value.fragment f).withSettings r)).piece s qualifier next hole) := by
  obtain ⟨child, head, holes, sizeHint⟩ := f
  rw [Value.withSettings]
  cases hole with
  | value =>
    simp only [Filling.piece, Filling.ofValue, writeValue]
    exact (h rfl).piece
  | bare =>
    simp only [Filling.piece, Filling.ofValue, writeBare]
    exact (h rfl).piece
  | expression =>
    simp only [Filling.piece, Filling.ofValue, writeExpression]
    split
    · exact (h rfl).sanitized.piece
    · exact (h rfl).piece
  | list =>
    simp only [Filling.piece, Filling.ofValue, writeList]
    exact guarded_parenthesized (.throw _)
  | rows =>
    simp only [Filling.piece, Filling.ofValue, writeRowsOf]
    exact (Guarded.throw _).piece
  | assignments =>
    simp only [Filling.piece, Filling.ofValue, writeAssignmentsOf]
    exact (Guarded.throw _).piece
  | conditions all =>
    simp only [Filling.piece, Filling.ofValue, writeConditionsOf]
    exact (Guarded.throw _).piece
  | name | names kind | qualifier => exact .throw _

theorem namesOf_withSettings (items : List Value) :
    namesOf (.list (itemsWithSettings r items)) = namesOf (.list items) := by
  simp only [namesOf]
  induction items with
  | nil => rfl
  | cons item rest ih =>
    have hname : (item.withSettings r).asStr? = item.asStr? := by
      cases item with
      | fragment f =>
        cases f
        rfl
      | _ => rfl
    rw [itemsWithSettings, List.mapM_cons, List.mapM_cons, ih, hname, Value.typeName_withSettings]

/-- A list of names holds texts only. -/
theorem embeds_of_namesOf {items : List Value} {names : List String}
    (h : namesOf (.list items) = .ok names) : ∀ item ∈ items, item.Embeds s := by
  simp only [namesOf] at h
  induction items generalizing names with
  | nil => exact List.forall_mem_nil _
  | cons item rest ih =>
    rw [List.mapM_cons] at h
    obtain ⟨name, hname, h⟩ := bind_eq_ok h
    obtain ⟨later, hlater, -⟩ := bind_eq_ok h
    refine List.forall_mem_cons.mpr ⟨?_, ih hlater⟩
    intro f hf
    cases hf with
    | self => cases hname
    | item | entry | hole => cases hname

theorem guarded_piece_list {items : List Value} {hole : Hole}
    (hplaced : (Value.list items).isPlaced (.ofHole hole) = true)
    (hnodup : ∀ row ∈ items, (Keyed.keys (rowEntries row)).Nodup)
    (hitems : itemsPlaced .item items = true →
      Guarded (∀ item ∈ items, item.Embeds s) (writeItems s 1 false items)
        (writeItems s 1 false (itemsWithSettings r items)))
    (hrows : itemsPlaced .row items = true → ∀ row ∈ items, ∀ entry ∈ rowEntries row,
      Guarded (entry.2.Embeds s) (writeValue s none entry.2)
        (writeValue s none (entry.2.withSettings r)))
    (qualifier : Option String) (next : Bytes) :
    Piece.Guarded ((Value.list items).Embeds s)
      ((Filling.ofValue s (.list items)).piece s qualifier next hole)
      ((Filling.ofValue s ((Value.list items).withSettings r)).piece s qualifier next hole) := by
  cases hole with
  | value | bare | expression => exact guarded_piece_of_encoded (.list items) hplaced qualifier next _
  | list =>
    rw [Value.withSettings]
    simp only [Filling.piece, Filling.ofValue, writeList]
    exact guarded_parenthesized ((hitems hplaced).congr Value.embeds_list_iff.symm)
  | rows =>
    rw [Value.withSettings]
    simp only [Filling.piece, Filling.ofValue, writeRowsOf, rowsOf_eq, rowWith_itemsWithSettings]
    exact ((guarded_writeRowSet hnodup (hrows hplaced)).congr Value.embeds_list_iff.symm).piece
  | names kind =>
    rw [Value.withSettings]
    simp only [Filling.piece, Filling.ofValue, namesText, namesOf_withSettings]
    refine ⟨fun _ => rfl, .liftM fun hnames => ?_⟩
    obtain ⟨names, hnames, -⟩ := bind_eq_ok hnames
    exact Value.embeds_list_iff.mpr (embeds_of_namesOf hnames)
  | assignments =>
    rw [Value.withSettings]
    simp only [Filling.piece, Filling.ofValue, writeAssignmentsOf]
    exact (Guarded.throw _).piece
  | conditions all =>
    rw [Value.withSettings]
    simp only [Filling.piece, Filling.ofValue, writeConditionsOf]
    exact (Guarded.throw _).piece
  | name | qualifier => exact .throw _

theorem guarded_piece_map {entries : List (String × Value)} {hole : Hole}
    (hplaced : (Value.map entries).isPlaced (.ofHole hole) = true)
    (hnodup : (Keyed.keys entries).Nodup)
    (hvalues : entriesPlaced .value entries = true → ∀ entry ∈ entries,
      Guarded (entry.2.Embeds s) (writeValue s none entry.2)
        (writeValue s none (entry.2.withSettings r)))
    (htests : entriesPlaced .item entries = true → ∀ entry ∈ entries,
      Guarded (entry.2.Embeds s) (writeTest s entry.2) (writeTest s (entry.2.withSettings r)))
    (qualifier : Option String) (next : Bytes) :
    Piece.Guarded ((Value.map entries).Embeds s)
      ((Filling.ofValue s (.map entries)).piece s qualifier next hole)
      ((Filling.ofValue s ((Value.map entries).withSettings r)).piece s qualifier next hole) := by
  cases hole with
  | value | bare | expression | names kind =>
    exact guarded_piece_of_encoded (.map entries) hplaced qualifier next _
  | list =>
    rw [Value.withSettings]
    simp only [Filling.piece, Filling.ofValue, writeList]
    exact guarded_parenthesized (.throw _)
  | rows =>
    have hrow := @guarded_writeRowSet s (writeValue s none)
      (fun value => writeValue s none (value.withSettings r)) [.map entries]
      (List.forall_mem_singleton.mpr hnodup) (List.forall_mem_singleton.mpr (hvalues hplaced))
    rw [Value.withSettings]
    simp only [Filling.piece, Filling.ofValue, writeRowsOf, cellsOf_eq,
      cellsWith_entriesWithSettings]
    exact (hrow.congr List.forall_mem_singleton).piece
  | assignments =>
    rw [Value.withSettings]
    simp only [Filling.piece, Filling.ofValue, writeAssignmentsOf, cellsOf_eq,
      cellsWith_entriesWithSettings]
    exact ((guarded_writeAssignments qualifier (hvalues hplaced)).congr
      Value.embeds_map_iff.symm).piece
  | conditions all =>
    rw [Value.withSettings]
    simp only [Filling.piece, Filling.ofValue, writeConditionsOf, testsOf_eq,
      cellsWith_entriesWithSettings]
    exact ((guarded_writeConditions all qualifier (htests hplaced)).congr
      Value.embeds_map_iff.symm).piece
  | name | qualifier => exact .throw _

mutual

theorem guarded_writeValue (hr : s.checkEmbeds r = .ok ()) :
    (value : Value) → value.isPlaced .value = true → value.DistinctKeys →
      ∀ qualifier, Guarded (value.Embeds s) (writeValue s qualifier value)
        (writeValue s qualifier (value.withSettings r))
  | .fragment ⟨child, head, holes, sizeHint⟩, hplaced, hkeys, qualifier => by
    rw [Value.withSettings, writeValue, writeValue]
    exact guarded_embedded hr (f := ⟨child, head, holes, sizeHint⟩)
      (guarded_pieceFrom hr holes qualifier 0 none 0 (utf8 head) hplaced hkeys.holes)
  | .list items, hplaced, _, qualifier => guarded_writeValue_of_encoded (.list items) hplaced qualifier
  | .map entries, hplaced, _, qualifier => guarded_writeValue_of_encoded (.map entries) hplaced qualifier
  | .null, _, _, qualifier | .bool _, _, _, qualifier | .int _, _, _, qualifier
  | .uint _, _, _, qualifier | .bigint _, _, _, qualifier | .float _, _, _, qualifier
  | .str _, _, _, qualifier | .bytes _, _, _, qualifier | .date _, _, _, qualifier
  | .dateTime _, _, _, qualifier | .json _, _, _, qualifier | .foreign _, _, _, qualifier =>
    guarded_writeValue_of_encoded _ rfl qualifier

theorem guarded_writeItems (hr : s.checkEmbeds r = .ok ()) :
    (items : List Value) → itemsPlaced .item items = true →
      (∀ item ∈ items, item.DistinctKeys) → ∀ depth later,
        Guarded (∀ item ∈ items, item.Embeds s) (writeItems s depth later items)
          (writeItems s depth later (itemsWithSettings r items))
  | [], _, _, depth, later => by
    rw [itemsWithSettings]
    exact .refl (List.forall_mem_nil _)
      (emits_writeItems (closed_true s) depth later (nestsItems_isLocal s [])).isLocal
  | .list inner :: rest, hplaced, hkeys, depth, later => by
    rw [itemsPlaced, Bool.and_eq_true] at hplaced
    obtain ⟨hinner, hrest⟩ := List.forall_mem_cons.mp hkeys
    rw [itemsWithSettings, Value.withSettings, writeItems, writeItems]
    have hown := guarded_writeItems hr inner hplaced.1 hinner.items (depth + 1) false
    have hlater := guarded_writeItems hr rest hplaced.2 hrest depth true
    refine .congr List.forall_mem_cons.symm ?_
    exact .after (isLocal_separate later ", ") (.after (isLocal_writeText "(")
      (.after (isLocal_checkDepth s (depth + 1))
        ((hown.congr Value.embeds_list_iff.symm).seq (.after (isLocal_writeText ")") hlater))))
  | .fragment ⟨child, head, holes, sizeHint⟩ :: rest, hplaced, hkeys, depth, later => by
    rw [itemsPlaced, Bool.and_eq_true] at hplaced
    obtain ⟨hitem, hrest⟩ := List.forall_mem_cons.mp hkeys
    exact guarded_writeItems_cons nofun
      (guarded_writeValue hr (.fragment ⟨child, head, holes, sizeHint⟩) hplaced.1 hitem none)
      (guarded_writeItems hr rest hplaced.2 hrest depth true)
  | .map entries :: rest, hplaced, hkeys, depth, later => by
    rw [itemsPlaced, Bool.and_eq_true] at hplaced
    obtain ⟨-, hrest⟩ := List.forall_mem_cons.mp hkeys
    exact guarded_writeItems_cons nofun (guarded_writeValue_of_encoded (.map entries) hplaced.1 none)
      (guarded_writeItems hr rest hplaced.2 hrest depth true)
  | .null :: rest, hplaced, hkeys, depth, later | .bool _ :: rest, hplaced, hkeys, depth, later
  | .int _ :: rest, hplaced, hkeys, depth, later | .uint _ :: rest, hplaced, hkeys, depth, later
  | .bigint _ :: rest, hplaced, hkeys, depth, later | .float _ :: rest, hplaced, hkeys, depth, later
  | .str _ :: rest, hplaced, hkeys, depth, later | .bytes _ :: rest, hplaced, hkeys, depth, later
  | .date _ :: rest, hplaced, hkeys, depth, later
  | .dateTime _ :: rest, hplaced, hkeys, depth, later
  | .json _ :: rest, hplaced, hkeys, depth, later
  | .foreign _ :: rest, hplaced, hkeys, depth, later => by
    rw [itemsPlaced, Bool.and_eq_true] at hplaced
    obtain ⟨-, hrest⟩ := List.forall_mem_cons.mp hkeys
    exact guarded_writeItems_cons nofun (guarded_writeValue_of_encoded _ rfl none)
      (guarded_writeItems hr rest hplaced.2 hrest depth true)

theorem guarded_writeTest (hr : s.checkEmbeds r = .ok ()) :
    (value : Value) → value.isPlaced .item = true → value.DistinctKeys →
      Guarded (value.Embeds s) (writeTest s value) (writeTest s (value.withSettings r))
  | .fragment ⟨child, head, holes, sizeHint⟩, hplaced, hkeys =>
    guarded_equals (guarded_writeValue hr (.fragment ⟨child, head, holes, sizeHint⟩) hplaced hkeys none)
  | .list items, hplaced, hkeys => by
    have hitems := guarded_writeItems hr items hplaced hkeys.items 1 false
    rw [Value.withSettings]
    exact .after (isLocal_writeText " IN (")
      (.before (hitems.congr Value.embeds_list_iff.symm) (isLocal_writeText ")"))
  | .map entries, hplaced, _ =>
    guarded_equals (guarded_writeValue_of_encoded (.map entries) hplaced none)
  | .null, _, _ => .refl nofun (isLocal_writeText " IS NULL")
  | .bool _, _, _ | .int _, _, _ | .uint _, _, _ | .bigint _, _, _ | .float _, _, _ | .str _, _, _
  | .bytes _, _, _ | .date _, _, _ | .dateTime _, _, _ | .json _, _, _ | .foreign _, _, _ =>
    guarded_equals (guarded_writeValue_of_encoded _ rfl none)

theorem guarded_values (hr : s.checkEmbeds r = .ok ()) :
    (entries : List (String × Value)) → entriesPlaced .value entries = true →
      (∀ entry ∈ entries, entry.2.DistinctKeys) → ∀ entry ∈ entries,
        Guarded (entry.2.Embeds s) (writeValue s none entry.2)
          (writeValue s none (entry.2.withSettings r))
  | [], _, _ => List.forall_mem_nil _
  | (_, value) :: rest, hplaced, hkeys => by
    rw [entriesPlaced, Bool.and_eq_true] at hplaced
    obtain ⟨hvalue, hrest⟩ := List.forall_mem_cons.mp hkeys
    exact List.forall_mem_cons.mpr ⟨guarded_writeValue hr value hplaced.1 hvalue none,
      guarded_values hr rest hplaced.2 hrest⟩

theorem guarded_tests (hr : s.checkEmbeds r = .ok ()) :
    (entries : List (String × Value)) → entriesPlaced .item entries = true →
      (∀ entry ∈ entries, entry.2.DistinctKeys) → ∀ entry ∈ entries,
        Guarded (entry.2.Embeds s) (writeTest s entry.2) (writeTest s (entry.2.withSettings r))
  | [], _, _ => List.forall_mem_nil _
  | (_, value) :: rest, hplaced, hkeys => by
    rw [entriesPlaced, Bool.and_eq_true] at hplaced
    obtain ⟨hvalue, hrest⟩ := List.forall_mem_cons.mp hkeys
    exact List.forall_mem_cons.mpr ⟨guarded_writeTest hr value hplaced.1 hvalue,
      guarded_tests hr rest hplaced.2 hrest⟩

theorem guarded_rows (hr : s.checkEmbeds r = .ok ()) :
    (rows : List Value) → itemsPlaced .row rows = true → (∀ row ∈ rows, row.DistinctKeys) →
      ∀ row ∈ rows, ∀ entry ∈ rowEntries row,
        Guarded (entry.2.Embeds s) (writeValue s none entry.2)
          (writeValue s none (entry.2.withSettings r))
  | [], _, _ => List.forall_mem_nil _
  | .map entries :: rest, hplaced, hkeys => by
    rw [itemsPlaced, Bool.and_eq_true] at hplaced
    obtain ⟨hrow, hrest⟩ := List.forall_mem_cons.mp hkeys
    exact List.forall_mem_cons.mpr ⟨guarded_values hr entries hplaced.1 hrow.entries,
      guarded_rows hr rest hplaced.2 hrest⟩
  | .null :: rest, hplaced, hkeys | .bool _ :: rest, hplaced, hkeys | .int _ :: rest, hplaced, hkeys
  | .uint _ :: rest, hplaced, hkeys | .bigint _ :: rest, hplaced, hkeys
  | .float _ :: rest, hplaced, hkeys | .str _ :: rest, hplaced, hkeys
  | .bytes _ :: rest, hplaced, hkeys | .date _ :: rest, hplaced, hkeys
  | .dateTime _ :: rest, hplaced, hkeys | .json _ :: rest, hplaced, hkeys
  | .list _ :: rest, hplaced, hkeys | .fragment _ :: rest, hplaced, hkeys
  | .foreign _ :: rest, hplaced, hkeys => by
    rw [itemsPlaced, Bool.and_eq_true] at hplaced
    obtain ⟨-, hrest⟩ := List.forall_mem_cons.mp hkeys
    exact List.forall_mem_cons.mpr ⟨List.forall_mem_nil _, guarded_rows hr rest hplaced.2 hrest⟩

theorem guarded_piece (hr : s.checkEmbeds r = .ok ()) :
    (value : Value) → (hole : Hole) → value.isPlaced (.ofHole hole) = true → value.DistinctKeys →
      ∀ qualifier next, Piece.Guarded (value.Embeds s)
        ((Filling.ofValue s value).piece s qualifier next hole)
        ((Filling.ofValue s (value.withSettings r)).piece s qualifier next hole)
  | .fragment ⟨child, head, holes, sizeHint⟩, hole, hplaced, hkeys, qualifier, next => by
    refine guarded_piece_fragment (fun hrenders => ?_) next
    rw [Value.isPlaced, hrenders, Bool.and_eq_true] at hplaced
    exact guarded_embedded hr (f := ⟨child, head, holes, sizeHint⟩)
      (guarded_pieceFrom hr holes qualifier 0 none 0 (utf8 head) hplaced.2 hkeys.holes)
  | .list items, hole, hplaced, hkeys, qualifier, next =>
    guarded_piece_list hplaced (fun row hrow => (hkeys.items row hrow).row)
      (fun hitems => guarded_writeItems hr items hitems hkeys.items 1 false)
      (fun hrows => guarded_rows hr items hrows hkeys.items) qualifier next
  | .map entries, hole, hplaced, hkeys, qualifier, next =>
    guarded_piece_map hplaced hkeys.row (fun hvalues => guarded_values hr entries hvalues hkeys.entries)
      (fun htests => guarded_tests hr entries htests hkeys.entries) qualifier next
  | .null, hole, _, _, qualifier, next | .bool _, hole, _, _, qualifier, next
  | .int _, hole, _, _, qualifier, next | .uint _, hole, _, _, qualifier, next
  | .bigint _, hole, _, _, qualifier, next | .float _, hole, _, _, qualifier, next
  | .str _, hole, _, _, qualifier, next | .bytes _, hole, _, _, qualifier, next
  | .date _, hole, _, _, qualifier, next | .dateTime _, hole, _, _, qualifier, next
  | .json _, hole, _, _, qualifier, next | .foreign _, hole, _, _, qualifier, next =>
    guarded_piece_of_encoded _ rfl qualifier next hole

theorem guarded_pieceFrom (hr : s.checkEmbeds r = .ok ()) :
    (holes : List (Value × String)) → (inherited : Option String) → (index : Nat) →
      (captured : Option String) → (skipped : Nat) → (chunk : Bytes) →
      holesPlaced index skipped chunk holes = true → (∀ hole ∈ holes, hole.1.DistinctKeys) →
        Piece.Guarded (∀ hole ∈ holes, hole.1.Embeds s)
          (pieceFrom s inherited index captured skipped chunk holes)
          (pieceFrom s inherited index captured skipped chunk (holesWithSettings r holes))
  | [], _, _, _, _, _, _, _ => .refl (List.forall_mem_nil _) _
  | (value, following) :: rest, inherited, index, captured, skipped, chunk, hplaced, hkeys => by
    obtain ⟨hvalue, hrest⟩ := List.forall_mem_cons.mp hkeys
    rw [holesWithSettings, pieceFrom_cons, pieceFrom_cons]
    refine .lift fun hole hfind => ?_
    rw [holesPlaced, hfind, Bool.and_eq_true] at hplaced
    rw [captures_withSettings]
    have hown := guarded_piece hr value hole hplaced.1 hvalue (captured.or inherited) (utf8 following)
    have hlater := guarded_pieceFrom hr rest inherited (index + 1) (hole.captures value)
      (hole.skips (utf8 following)) (utf8 following) hplaced.2 hrest
    exact ((Piece.Guarded.refl trivial _).append (hown.append hlater)).congr
      ((and_iff_right trivial).trans List.forall_mem_cons.symm)

end

end Guard

/-! ### The root -/

namespace Fragment

theorem checkEmbeds_settings (options : Options) (s child : Settings) :
    (options.settings s).checkEmbeds child = s.checkEmbeds child := by
  unfold Options.settings Settings.setNoBackslashEscapes
  cases options.noBackslashEscapes with
  | none => rfl
  | some value =>
    dsimp only
    split <;> rfl

theorem checkEmbeds_self (s : Settings) : s.checkEmbeds s = .ok () := by
  unfold Settings.checkEmbeds
  simp

theorem guarded {f : Fragment} (hplaced : f.isPlaced = true)
    (hkeys : (Value.fragment f).DistinctKeys) (options : Options) :
    Piece.Guarded (∀ child, f.Holds child → f.settings.Admits child.settings.dialect)
      (f.piece (options.settings f.settings)) (f.uniform.piece (options.settings f.settings)) := by
  have hr : (options.settings f.settings).checkEmbeds f.settings = .ok () := by
    rw [checkEmbeds_settings]
    exact checkEmbeds_self f.settings
  refine (guarded_pieceFrom hr f.holes none 0 none 0 (utf8 f.head) hplaced hkeys.holes).congr ?_
  constructor
  · rintro h child ⟨hole, hhole, hchild⟩
    have hembeds := h hole hhole child hchild
    rw [checkEmbeds_settings] at hembeds
    exact Settings.checkEmbeds_eq_ok_iff.mp hembeds
  · intro h hole hhole child hchild
    rw [checkEmbeds_settings]
    exact Settings.checkEmbeds_eq_ok_iff.mpr (h child ⟨hole, hhole, hchild⟩)

theorem withSettings_eq_uniform (f : Fragment) :
    (Value.fragment f).withSettings f.settings = .fragment f.uniform := by
  cases f
  rfl

section SameButNested

variable {f f' : Fragment} (h : f.SameButNested f')

include h

theorem SameButNested.settings_eq : f'.settings = f.settings :=
  (congrArg Fragment.settings h).symm

theorem SameButNested.isPlaced_eq : f'.isPlaced = f.isPlaced := by
  have hplaced := congrArg Fragment.isPlaced h
  simp only [isPlaced, uniform, holesPlaced_withSettings] at hplaced
  exact hplaced.symm

theorem SameButNested.distinctKeys (hkeys : (Value.fragment f).DistinctKeys) :
    (Value.fragment f').DistinctKeys := by
  rw [← Value.distinctKeys_withSettings_iff f'.settings, withSettings_eq_uniform,
    ← show f.uniform = f'.uniform from h, ← withSettings_eq_uniform]
  exact (Value.distinctKeys_withSettings_iff f.settings).mpr hkeys

end SameButNested

/-- A tree of fragments, none of which is in a list or a map that is encoded, is rendered under the
settings of its root. If all nested fragments may stand there, their own settings decide nothing; if
one may not, nothing is rendered. -/
theorem renderInto_under_root {f : Fragment} (hplaced : f.isPlaced = true)
    (hkeys : (Value.fragment f).DistinctKeys) :
    ((∀ child, f.Holds child → f.settings.Admits child.settings.dialect) →
      ∀ f' : Fragment, f.SameButNested f' →
        (∀ child, f'.Holds child → f.settings.Admits child.settings.dialect) →
        ∀ (out : Buffer) (sink : Sink) (options : Options),
          let rendered := f.renderInto out sink options
          let rendered' := f'.renderInto out sink options
          rendered'.result = rendered.result ∧ rendered'.sink = rendered.sink ∧
            rendered'.out.toList = rendered.out.toList) ∧
    ((∃ child, f.Holds child ∧ ¬ f.settings.Admits child.settings.dialect) →
      ∀ (out : Buffer) (sink : Sink) (options : Options),
        (f.renderInto out sink options).result ≠ .ok ()) := by
  constructor
  · intro hall f' hsame hall' out sink options
    have hpiece := (guarded hplaced hkeys options).same hall
    have hpiece' := (guarded (hsame.isPlaced_eq.trans hplaced) (hsame.distinctKeys hkeys)
      options).same (by rwa [hsame.settings_eq])
    rw [hsame.settings_eq, ← show f.uniform = f'.uniform from hsame, ← hpiece] at hpiece'
    obtain ⟨hresult, hsink, hout⟩ := f.renderInto_eq out sink options
    obtain ⟨hresult', hsink', hout'⟩ := f'.renderInto_eq out sink options
    rw [hsame.settings_eq, hpiece'] at hresult' hsink' hout'
    exact ⟨hresult'.trans hresult.symm, hsink'.trans hsink.symm, hout'.trans hout.symm⟩
  · rintro ⟨child, hchild, hnot⟩ out sink options hok
    obtain ⟨hresult, -, -⟩ := f.renderInto_eq out sink options
    rw [hok] at hresult
    cases hgiven : ((f.piece (options.settings f.settings)).result sink).1 with
    | error e =>
      rw [hgiven] at hresult
      cases hresult
    | ok bytes =>
      exact hnot ((guarded hplaced hkeys options).holds sink bytes hgiven child hchild)

/-- A condition in parentheses is written in the quotes of the root, whatever quotes it was made for,
unless only one other family may read it. -/
theorem renderInto_under_root_condition :
    let nested (dialect : Dialect) : Fragment :=
      ⟨.ofDialect dialect, "`", [(.str "a", "` = '"), (.str "b", "'")], 0⟩
    let f (dialect : Dialect) : Fragment :=
      ⟨.ofDialect .postgres, "SELECT (", [(.fragment (nested dialect), ")")], 0⟩
    (f .mysql).isPlaced = true ∧
      ((f .mysql).renderInto .empty none {}).out.toList = utf8 "SELECT (\"a\" = 'b')" ∧
      ((f .postgresOnly).renderInto .empty none {}).out.toList = utf8 "SELECT (\"a\" = 'b')" ∧
      ∀ out sink options, ((f .mysqlOnly).renderInto out sink options).result ≠ .ok () := by
  intro nested f
  have hplaced : ∀ dialect, (f dialect).isPlaced = true := fun _ => by rfl
  have hwithin : ∀ dialect (value : Value), value.Within (.fragment (nested dialect)) →
      value = .fragment (nested dialect) ∨ value = .str "a" ∨ value = .str "b" := by
    intro dialect value hvalue
    cases hvalue with
    | self => exact .inl rfl
    | hole hhole hvalue =>
      simp only [nested, List.mem_cons, List.not_mem_nil, or_false] at hhole
      rcases hhole with rfl | rfl
      · cases hvalue
        exact .inr (.inl rfl)
      · cases hvalue
        exact .inr (.inr rfl)
  have hholds : ∀ dialect child, (f dialect).Holds child → child = nested dialect := by
    rintro dialect child ⟨hole, hhole, hchild⟩
    obtain rfl := List.mem_singleton.mp hhole
    rcases hwithin dialect _ hchild with h | h | h
    · exact Value.fragment.inj h
    · cases h
    · cases h
  have hkeys : ∀ dialect, (Value.fragment (f dialect)).DistinctKeys := by
    intro dialect
    have hnested : (Value.fragment (nested dialect)).Made :=
      .fragment (List.forall_mem_cons.mpr ⟨.scalar rfl, List.forall_mem_singleton.mpr (.scalar rfl)⟩)
    exact (Value.Made.fragment (f := f dialect) (List.forall_mem_singleton.mpr hnested)).distinctKeys
  have hmysql : ((f .mysql).renderInto .empty none {}).out.toList
      = utf8 "SELECT (\"a\" = 'b')" := by decide +kernel
  have hsame := (renderInto_under_root (hplaced .mysql) (hkeys .mysql)).1
    (fun child hchild => hholds _ child hchild ▸ .inl rfl) (f .postgresOnly) rfl
    (fun child hchild => hholds _ child hchild ▸ .inr rfl) .empty none {}
  refine ⟨hplaced .mysql, hmysql, hsame.2.2.trans hmysql, ?_⟩
  refine (renderInto_under_root (hplaced .mysqlOnly) (hkeys .mysqlOnly)).2 ⟨nested .mysqlOnly, ?_, ?_⟩
  · exact ⟨_, List.mem_singleton_self _, .self _⟩
  · exact fun h => h.elim nofun nofun

end Fragment

end SqlTemplate
