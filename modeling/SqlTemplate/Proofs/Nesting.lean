import SqlTemplate.Proofs.Rendering

/-!
# Fragments inside fragments

A fragment may hold others, in its holes or deeper. One that is in a list or a map is not always
rendered as a part of the statement: what becomes a JSON text is rendered on its own, and of a list
of names only the keys of a map are used. What is made of a value follows from the hole that it is in
and from what is around it there, its `Place`.
-/

namespace SqlTemplate

/-! ### Trees of fragments -/

/-- A value is another one or somewhere inside it. -/
inductive Value.Within : Value → Value → Prop
  | self (value : Value) : Within value value
  | item {inner item : Value} {items : List Value} (hitem : item ∈ items)
      (h : Within inner item) : Within inner (.list items)
  | entry {inner : Value} {entry : String × Value} {entries : List (String × Value)}
      (hentry : entry ∈ entries) (h : Within inner entry.2) : Within inner (.map entries)
  | hole {inner : Value} {hole : Value × String} {f : Fragment} (hhole : hole ∈ f.holes)
      (h : Within inner hole.1) : Within inner (.fragment f)

/-- A fragment is in one of the holes of another, at any depth. -/
def Fragment.Holds (f child : Fragment) : Prop :=
  ∃ hole ∈ f.holes, (Value.fragment child).Within hole.1

mutual

/-- A value with other settings of all fragments in it. -/
def Value.withSettings (s : Settings) : Value → Value
  | .list items => .list (itemsWithSettings s items)
  | .map entries => .map (entriesWithSettings s entries)
  | .fragment ⟨_, head, holes, sizeHint⟩ =>
    .fragment ⟨s, head, holesWithSettings s holes, sizeHint⟩
  | value => value

def itemsWithSettings (s : Settings) : List Value → List Value
  | [] => []
  | item :: rest => item.withSettings s :: itemsWithSettings s rest

def entriesWithSettings (s : Settings) : List (String × Value) → List (String × Value)
  | [] => []
  | (key, value) :: rest => (key, value.withSettings s) :: entriesWithSettings s rest

def holesWithSettings (s : Settings) : List (Value × String) → List (Value × String)
  | [] => []
  | (value, following) :: rest => (value.withSettings s, following) :: holesWithSettings s rest

end

namespace Fragment

/-- A fragment whose nested fragments all have its own settings. -/
def uniform (f : Fragment) : Fragment := { f with holes := holesWithSettings f.settings f.holes }

/-- Two fragments are the same but for the settings of the fragments in them. -/
def SameButNested (f f' : Fragment) : Prop := f.uniform = f'.uniform

end Fragment

/-- A dialect may stand in fragments with these settings: it is portable, or of their family. -/
def Settings.Admits (s : Settings) (dialect : Dialect) : Prop :=
  dialect.isOnly = false ∨ dialect.family = s.family

/-- The fragments in a value may stand in fragments with settings `s`. -/
def Value.Embeds (s : Settings) (value : Value) : Prop :=
  ∀ f, (Value.fragment f).Within value → s.checkEmbeds f.settings = .ok ()

/-- The maps in a value have distinct keys. -/
def Value.DistinctKeys (value : Value) : Prop :=
  ∀ entries, (Value.map entries).Within value → (Keyed.keys entries).Nodup

/-! ### Values that are built -/

namespace Value

/-- A value that holds no others. -/
def isScalar : Value → Bool
  | .list _ | .map _ | .fragment _ => false
  | _ => true

/-- A value as it is built, from the scalars up: a map is given its entries one by one. -/
inductive Made : Value → Prop
  | scalar {value : Value} (h : value.isScalar = true) : Made value
  | list {items : List Value} (h : ∀ item ∈ items, Made item) : Made (.list items)
  | entries {entries : List (String × Value)} (h : ∀ entry ∈ entries, Made entry.2) :
    Made (.ofEntries entries)
  | fragment {f : Fragment} (h : ∀ hole ∈ f.holes, Made hole.1) : Made (.fragment f)

/-- In a value as it is built no map has a key twice. -/
theorem Made.distinctKeys {value : Value} (h : value.Made) : value.DistinctKeys := by
  induction h with
  | scalar hscalar =>
    intro entries hentries
    cases hentries <;> cases hscalar
  | list _ ih =>
    intro entries hentries
    cases hentries with
    | item hitem hentries => exact ih _ hitem entries hentries
  | entries _ ih =>
    intro entries hentries
    cases hentries with
    | self => exact Keyed.nodup_keys_ofList _
    | entry hentry hentries => exact ih _ (Keyed.mem_of_mem_ofList hentry) entries hentries
  | fragment _ ih =>
    intro entries hentries
    cases hentries with
    | hole hhole hentries => exact ih _ hhole entries hentries

end Value

section Embeds

variable {s : Settings}

theorem Settings.checkEmbeds_eq_ok_iff {child : Settings} :
    s.checkEmbeds child = .ok () ↔ s.Admits child.dialect := by
  unfold checkEmbeds Admits family
  cases child.dialect.isOnly <;> simp

theorem Value.embeds_list_iff {items : List Value} :
    (Value.list items).Embeds s ↔ ∀ item ∈ items, item.Embeds s := by
  constructor
  · exact fun h item hitem f hf => h f (.item hitem hf)
  · intro h f hf
    cases hf with
    | item hitem hf => exact h _ hitem f hf

theorem Value.embeds_map_iff {entries : List (String × Value)} :
    (Value.map entries).Embeds s ↔ ∀ entry ∈ entries, entry.2.Embeds s := by
  constructor
  · exact fun h entry hentry f hf => h f (.entry hentry hf)
  · intro h f hf
    cases hf with
    | entry hentry hf => exact h _ hentry f hf

theorem Value.embeds_fragment_iff {f : Fragment} :
    (Value.fragment f).Embeds s ↔
      s.checkEmbeds f.settings = .ok () ∧ ∀ hole ∈ f.holes, hole.1.Embeds s := by
  constructor
  · exact fun h => ⟨h f (.self _), fun hole hhole child hchild => h child (.hole hhole hchild)⟩
  · intro h child hchild
    cases hchild with
    | self => exact h.1
    | hole hhole hchild => exact h.2 _ hhole child hchild

end Embeds

/-! ### Where fragments stand -/

/-- What is made of a value. -/
inductive Place where
  /-- Nothing of it is rendered, or it is refused. -/
  | unread
  /-- It becomes part of a JSON text, or only its keys are used. -/
  | encoded
  | value
  /-- An item of a list, which may be a list itself. -/
  | item
  | list
  | rows
  | row
  | names
  | assignments
  | conditions
deriving DecidableEq, Repr

namespace Place

def ofHole : Hole → Place
  | .value | .expression | .bare => .value
  | .list => .list
  | .rows => .rows
  | .names _ => .names
  | .assignments => .assignments
  | .conditions _ => .conditions
  | .name | .qualifier => .unread

/-- A fragment is rendered here. -/
def renders (place : Place) : Bool := place == .value || place == .item

/-- The place of the items of a list. -/
def items : Place → Place
  | .value | .encoded => .encoded
  | .list | .item => .item
  | .rows => .row
  | _ => .unread

/-- The place of the values of a map. -/
def entries : Place → Place
  | .value | .item | .names | .encoded => .encoded
  | .rows | .row | .assignments => .value
  | .conditions => .item
  | .list | .unread => .unread

end Place

mutual

/-- No fragment that a value holds at this place is in a list or a map that is encoded. -/
def Value.isPlaced (place : Place) : Value → Bool
  | .list items => itemsPlaced place.items items
  | .map entries => entriesPlaced place.entries entries
  | .fragment ⟨_, head, holes, _⟩ =>
    place != .encoded && (!place.renders || holesPlaced 0 0 (utf8 head) holes)
  | _ => true

def itemsPlaced (place : Place) : List Value → Bool
  | [] => true
  | item :: rest => item.isPlaced place && itemsPlaced place rest

def entriesPlaced (place : Place) : List (String × Value) → Bool
  | [] => true
  | (_, value) :: rest => value.isPlaced place && entriesPlaced place rest

/-- The holes after a chunk without its first `skipped` bytes, as `pieceFrom` goes through them. -/
def holesPlaced (index skipped : Nat) (chunk : Bytes) : List (Value × String) → Bool
  | [] => true
  | (value, following) :: rest =>
    match Hole.find index (chunk.drop skipped).getLast? (utf8 following) with
    | .error _ => true
    | .ok hole =>
      value.isPlaced (.ofHole hole) &&
        holesPlaced (index + 1) (hole.skips (utf8 following)) (utf8 following) rest

end

/-- No fragment in a fragment is in a list or a map that is encoded. -/
def Fragment.isPlaced (f : Fragment) : Bool := holesPlaced 0 0 (utf8 f.head) f.holes

section WithSettings

variable (s : Settings)

theorem Value.typeName_withSettings (value : Value) :
    (value.withSettings s).typeName = value.typeName := by
  cases value with
  | fragment f =>
    cases f
    rfl
  | _ => rfl

theorem captures_withSettings (hole : Hole) (value : Value) :
    hole.captures (value.withSettings s) = hole.captures value := by
  cases value with
  | fragment f =>
    cases f
    cases hole <;> rfl
  | _ => cases hole <;> rfl

theorem itemsWithSettings_eq_map (items : List Value) :
    itemsWithSettings s items = items.map (·.withSettings s) := by
  induction items with
  | nil => rfl
  | cons item rest ih => rw [itemsWithSettings, ih, List.map_cons]

theorem entriesWithSettings_eq_map (entries : List (String × Value)) :
    entriesWithSettings s entries = entries.map fun entry => (entry.1, entry.2.withSettings s) := by
  induction entries with
  | nil => rfl
  | cons entry rest ih => rw [entriesWithSettings, ih, List.map_cons]

theorem holesWithSettings_eq_map (holes : List (Value × String)) :
    holesWithSettings s holes = holes.map fun hole => (hole.1.withSettings s, hole.2) := by
  induction holes with
  | nil => rfl
  | cons hole rest ih => rw [holesWithSettings, ih, List.map_cons]

mutual

/-- Other settings do not change what is made of a value. -/
theorem isPlaced_withSettings (place : Place) :
    (value : Value) → (value.withSettings s).isPlaced place = value.isPlaced place
  | .list items => by
    rw [Value.withSettings, Value.isPlaced, Value.isPlaced, itemsPlaced_withSettings]
  | .map entries => by
    rw [Value.withSettings, Value.isPlaced, Value.isPlaced, entriesPlaced_withSettings]
  | .fragment ⟨_, head, holes, _⟩ => by
    rw [Value.withSettings, Value.isPlaced, Value.isPlaced, holesPlaced_withSettings]
  | .null | .bool _ | .int _ | .uint _ | .bigint _ | .float _ | .str _ | .bytes _ | .date _
  | .dateTime _ | .json _ | .foreign _ => rfl

theorem itemsPlaced_withSettings (place : Place) :
    (items : List Value) → itemsPlaced place (itemsWithSettings s items) = itemsPlaced place items
  | [] => rfl
  | item :: rest => by
    rw [itemsWithSettings, itemsPlaced, itemsPlaced, isPlaced_withSettings,
      itemsPlaced_withSettings]

theorem entriesPlaced_withSettings (place : Place) :
    (entries : List (String × Value)) →
      entriesPlaced place (entriesWithSettings s entries) = entriesPlaced place entries
  | [] => rfl
  | (key, value) :: rest => by
    rw [entriesWithSettings, entriesPlaced, entriesPlaced, isPlaced_withSettings,
      entriesPlaced_withSettings]

theorem holesPlaced_withSettings (index skipped : Nat) (chunk : Bytes) :
    (holes : List (Value × String)) →
      holesPlaced index skipped chunk (holesWithSettings s holes)
        = holesPlaced index skipped chunk holes
  | [] => rfl
  | (value, following) :: rest => by
    rw [holesWithSettings, holesPlaced, holesPlaced]
    simp only [isPlaced_withSettings, holesPlaced_withSettings]

end

theorem Value.Within.withSettings {inner value : Value} (h : inner.Within value) :
    (inner.withSettings s).Within (value.withSettings s) := by
  induction h with
  | self => exact .self _
  | item hitem _ ih =>
    rw [Value.withSettings, itemsWithSettings_eq_map]
    exact .item (List.mem_map_of_mem hitem) ih
  | entry hentry _ ih =>
    rw [Value.withSettings, entriesWithSettings_eq_map]
    exact .entry (List.mem_map_of_mem hentry) ih
  | @hole _ f hhole _ ih =>
    obtain ⟨child, head, holes, sizeHint⟩ := f
    rw [Value.withSettings, holesWithSettings_eq_map]
    exact .hole (List.mem_map_of_mem hhole) ih

/-- What is in a value with other settings is what was in the value, with these settings. -/
theorem Value.Within.of_withSettings {inner value : Value}
    (h : inner.Within (value.withSettings s)) :
    ∃ source : Value, source.Within value ∧ inner = source.withSettings s := by
  generalize hvalue : value.withSettings s = whole at h
  induction h generalizing value with
  | self => exact ⟨value, .self _, hvalue.symm⟩
  | item hitem _ ih =>
    cases value with
    | list items =>
      rw [Value.withSettings, itemsWithSettings_eq_map] at hvalue
      cases hvalue
      obtain ⟨item, hmem, rfl⟩ := List.mem_map.mp hitem
      obtain ⟨source, hsource, rfl⟩ := ih rfl
      exact ⟨source, .item hmem hsource, rfl⟩
    | fragment f =>
      cases f
      cases hvalue
    | _ => cases hvalue
  | entry hentry _ ih =>
    cases value with
    | map entries =>
      rw [Value.withSettings, entriesWithSettings_eq_map] at hvalue
      cases hvalue
      obtain ⟨entry, hmem, rfl⟩ := List.mem_map.mp hentry
      obtain ⟨source, hsource, rfl⟩ := ih rfl
      exact ⟨source, .entry hmem hsource, rfl⟩
    | fragment f =>
      cases f
      cases hvalue
    | _ => cases hvalue
  | hole hhole _ ih =>
    cases value with
    | fragment f =>
      obtain ⟨child, head, holes, sizeHint⟩ := f
      rw [Value.withSettings, holesWithSettings_eq_map] at hvalue
      cases hvalue
      obtain ⟨hole, hmem, rfl⟩ := List.mem_map.mp hhole
      obtain ⟨source, hsource, rfl⟩ := ih rfl
      exact ⟨source, .hole hmem hsource, rfl⟩
    | _ => cases hvalue

theorem keys_entriesWithSettings (entries : List (String × Value)) :
    Keyed.keys (entriesWithSettings s entries) = Keyed.keys entries := by
  rw [entriesWithSettings_eq_map, Keyed.keys, List.map_map]
  rfl

theorem Value.distinctKeys_withSettings_iff {value : Value} :
    (value.withSettings s).DistinctKeys ↔ value.DistinctKeys := by
  constructor
  · intro h entries hentries
    have hwithin := hentries.withSettings s
    rw [Value.withSettings] at hwithin
    rw [← keys_entriesWithSettings s]
    exact h _ hwithin
  · intro h entries hentries
    obtain ⟨source, hsource, heq⟩ := hentries.of_withSettings
    cases source with
    | map sources =>
      rw [Value.withSettings] at heq
      cases heq
      rw [keys_entriesWithSettings]
      exact h sources hsource
    | fragment f =>
      cases f
      cases heq
    | _ => cases heq

end WithSettings

end SqlTemplate
