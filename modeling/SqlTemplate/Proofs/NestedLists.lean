import SqlTemplate.Proofs.Comments
import SqlTemplate.Proofs.Externalization
import SqlTemplate.Proofs.RowSets

/-!
# Nested lists

A list is written between parentheses, and so is every list in it. `Nest` is what such a list looks
like, apart from what its items are: `Nest.text` is the text of a list whose items have texts, and
`Nest.marks` are its parentheses and commas alone. Main statement: `list_mirrors_nesting`.
-/

namespace SqlTemplate

open Render
open RowSet (separated separated_nil separated_cons)

/-! ### Lists in lists -/

/-- The items of a list, some of which are lists themselves. -/
inductive Nest (α : Type) where
  | nil
  | leaf (a : α) (rest : Nest α)
  | list (inner rest : Nest α)
deriving DecidableEq, Repr

namespace Nest

variable {α β : Type}

/-- The depth of the deepest list. The items themselves stand in a list at depth one. -/
def depth : Nest α → Nat
  | nil => 1
  | leaf _ rest => rest.depth
  | list inner rest => max (inner.depth + 1) rest.depth

/-- All items that are no lists, in order. -/
def leaves : Nest α → List α
  | nil => []
  | leaf a rest => a :: rest.leaves
  | list inner rest => inner.leaves ++ rest.leaves

/-- Makes something of every leaf, from left to right. -/
def mapM (f : α → Piece β) : Nest α → Piece (Nest β)
  | nil => return nil
  | leaf a rest => do return leaf (← f a) (← rest.mapM f)
  | list inner rest => do return list (← inner.mapM f) (← rest.mapM f)

/-- What stands between the parentheses of a list. -/
def inside : List Bytes → Bytes
  | [] => utf8 "NULL"
  | texts => (utf8 ", ").intercalate texts

/-- The texts of the items. -/
def texts : Nest Bytes → List Bytes
  | nil => []
  | leaf text rest => text :: rest.texts
  | list inner rest => (utf8 "(" ++ (inside inner.texts ++ utf8 ")")) :: rest.texts

def text (items : Nest Bytes) : Bytes := utf8 "(" ++ (inside items.texts ++ utf8 ")")

/-- The parentheses and commas of each item. -/
def itemMarks : Nest α → List Bytes
  | nil => []
  | leaf _ rest => [] :: rest.itemMarks
  | list inner rest =>
    (Byte.openParen :: ([Byte.comma].intercalate inner.itemMarks ++ [Byte.closeParen])) ::
      rest.itemMarks

def marks (items : Nest α) : Bytes :=
  Byte.openParen :: ([Byte.comma].intercalate items.itemMarks ++ [Byte.closeParen])

theorem one_le_depth (items : Nest α) : 1 ≤ items.depth := by
  induction items with
  | nil => exact Nat.le_refl 1
  | leaf a rest ih => exact ih
  | list inner rest _ ih => exact Nat.le_trans ih (Nat.le_max_right _ _)

/-! ### Leaf by leaf -/

variable {f : α → Piece β} {sink sink' : Sink}

theorem result_mapM_leaf_iff {a : α} {rest : Nest α} {made : Nest β} :
    ((leaf a rest).mapM f).result sink = (.ok made, sink') ↔
      ∃ b between others, (f a).result sink = (.ok b, between) ∧
        (rest.mapM f).result between = (.ok others, sink') ∧ leaf b others = made := by
  rw [mapM]
  exact Piece.result_both_eq_ok_iff

theorem result_mapM_list_iff {inner rest : Nest α} {made : Nest β} :
    ((list inner rest).mapM f).result sink = (.ok made, sink') ↔
      ∃ own between others, (inner.mapM f).result sink = (.ok own, between) ∧
        (rest.mapM f).result between = (.ok others, sink') ∧ list own others = made := by
  rw [mapM]
  exact Piece.result_both_eq_ok_iff

/-- What is made of a nest is nested in the same way. -/
theorem itemMarks_of_mapM {items : Nest α} {made : Nest β}
    (h : (items.mapM f).result sink = (.ok made, sink')) : made.itemMarks = items.itemMarks := by
  induction items generalizing sink sink' made with
  | nil =>
    cases h
    rfl
  | leaf a rest ih =>
    obtain ⟨b, between, others, -, hothers, rfl⟩ := result_mapM_leaf_iff.mp h
    rw [itemMarks, itemMarks, ih hothers]
  | list inner rest ihInner ih =>
    obtain ⟨own, between, others, hown, hothers, rfl⟩ := result_mapM_list_iff.mp h
    rw [itemMarks, itemMarks, ihInner hown, ih hothers]

theorem forall_leaves_of_mapM {P : β → Prop} {items : Nest α} {made : Nest β}
    (hleaf : ∀ a ∈ items.leaves, ∀ reached b, ((f a).result reached).1 = .ok b → P b)
    (h : (items.mapM f).result sink = (.ok made, sink')) : ∀ b ∈ made.leaves, P b := by
  induction items generalizing sink sink' made with
  | nil =>
    cases h
    exact List.forall_mem_nil _
  | leaf a rest ih =>
    obtain ⟨b, between, others, hb, hothers, rfl⟩ := result_mapM_leaf_iff.mp h
    obtain ⟨ha, hrest⟩ := List.forall_mem_cons.mp hleaf
    exact List.forall_mem_cons.mpr ⟨ha sink b (congrArg Prod.fst hb), ih hrest hothers⟩
  | list inner rest ihInner ih =>
    obtain ⟨own, between, others, hown, hothers, rfl⟩ := result_mapM_list_iff.mp h
    obtain ⟨hinner, hrest⟩ := List.forall_mem_append.mp hleaf
    exact List.forall_mem_append.mpr ⟨ihInner hinner hown, ih hrest hothers⟩

/-- If it does not depend on the sink whether something is made of a leaf, it does not depend on it
either whether something is made of all of them. -/
theorem exists_mapM_iff {P : α → Prop} {items : Nest α}
    (hleaf : ∀ a ∈ items.leaves, ∀ reached, (∃ b, ((f a).result reached).1 = .ok b) ↔ P a) :
    (∃ made sink', (items.mapM f).result sink = (.ok made, sink')) ↔ ∀ a ∈ items.leaves, P a := by
  induction items generalizing sink with
  | nil => exact iff_of_true ⟨nil, sink, rfl⟩ (List.forall_mem_nil _)
  | leaf a rest ih =>
    obtain ⟨ha, hrest⟩ := List.forall_mem_cons.mp hleaf
    rw [leaves, List.forall_mem_cons, ← ha sink]
    simp only [Piece.fst_result_eq_ok_iff, result_mapM_leaf_iff]
    constructor
    · rintro ⟨made, sink', b, between, others, hb, hothers, rfl⟩
      exact ⟨⟨b, between, hb⟩, (ih hrest).mp ⟨others, sink', hothers⟩⟩
    · rintro ⟨⟨b, between, hb⟩, hall⟩
      obtain ⟨others, sink', hothers⟩ := (ih hrest).mpr hall
      exact ⟨leaf b others, sink', b, between, others, hb, hothers, rfl⟩
  | list inner rest ihInner ih =>
    obtain ⟨hinner, hrest⟩ := List.forall_mem_append.mp hleaf
    rw [leaves, List.forall_mem_append, ← ihInner hinner]
    simp only [result_mapM_list_iff]
    constructor
    · rintro ⟨made, sink', own, between, others, hown, hothers, rfl⟩
      exact ⟨⟨own, between, hown⟩, (ih hrest).mp ⟨others, sink', hothers⟩⟩
    · rintro ⟨⟨own, between, hown⟩, hall⟩
      obtain ⟨others, sink', hothers⟩ := (ih hrest).mpr hall
      exact ⟨list own others, sink', own, between, others, hown, hothers, rfl⟩

end Nest

/-! ### The nest of a list value -/

mutual

/-- A value among the items of a list, with the items after it. -/
def Value.nestWith : Value → Nest Value → Nest Value
  | .list items, rest => .list (nestOf items) rest
  | value, rest => .leaf value rest

/-- How the lists among some values are nested. All other values are leaves. -/
def nestOf : List Value → Nest Value
  | [] => .nil
  | value :: rest => value.nestWith (nestOf rest)

end

example : nestOf [.list [], .null] = .list .nil (.leaf .null .nil) := rfl

/-- Induction over the items of a list and those of the lists among them. -/
@[elab_as_elim]
theorem items_induction {motive : List Value → Prop} (nil : motive [])
    (list : ∀ inner rest, motive inner → motive rest → motive (.list inner :: rest))
    (leaf : ∀ value rest, (∀ inner, value ≠ .list inner) → motive rest → motive (value :: rest)) :
    ∀ items, motive items
  | [] => nil
  | .list inner :: rest =>
    list inner rest (items_induction nil list leaf inner) (items_induction nil list leaf rest)
  | .null :: rest | .bool _ :: rest | .int _ :: rest | .uint _ :: rest | .bigint _ :: rest
  | .float _ :: rest | .str _ :: rest | .bytes _ :: rest | .date _ :: rest | .dateTime _ :: rest
  | .json _ :: rest | .map _ :: rest | .fragment _ :: rest | .foreign _ :: rest =>
    leaf _ rest (by rintro _ ⟨⟩) (items_induction nil list leaf rest)

section Leaf

variable {value : Value} (hleaf : ∀ inner, value ≠ .list inner)

include hleaf

theorem nestOf_leaf (rest : List Value) : nestOf (value :: rest) = .leaf value (nestOf rest) := by
  cases value with
  | list inner => exact absurd rfl (hleaf inner)
  | _ => rfl

theorem writeItems_leaf (s : Settings) (d : Nat) (later : Bool) (rest : List Value) :
    writeItems s d later (value :: rest) = (do
      separate later ", "
      writeValue s none value
      writeItems s d true rest) := by
  cases value with
  | list inner => exact absurd rfl (hleaf inner)
  | _ => simp only [writeItems]

end Leaf

/-! ### Items and their texts -/

/-- Items are nested no deeper than the dialect allows, and something is written for each that is no
list. -/
structure Mirrors (s : Settings) (items : List Value) (sink : Sink) (made : Nest Bytes)
    (sink' : Sink) : Prop where
  depth_le : (nestOf items).depth ≤ s.maxListDepth
  made_eq :
    ((nestOf items).mapM fun value => (writeValue s none value).piece).result sink =
      (.ok made, sink')

/-- The texts of items, and also a separator before the first if it comes later. -/
def insideAt (later : Bool) (texts : List Bytes) : Bytes :=
  if later then texts.flatMap (utf8 ", " ++ ·) else Nest.inside texts

theorem insideAt_cons (later : Bool) (text : Bytes) (rest : List Bytes) :
    insideAt later (text :: rest) =
      (if later then utf8 ", " else []) ++ (text ++ insideAt true rest) :=
  separated_cons later ", " text rest

theorem isLocal_writeItemsAt (s : Settings) (d : Nat) (later : Bool) (items : List Value) :
    Local (writeItems s d later items) :=
  (emits_writeItems (closed_true s) d later (nestsItems_isLocal s items)).isLocal

theorem result_checkDepth_append_eq_ok_iff {s : Settings} {d : Nat} {piece : Piece Bytes}
    {sink sink' : Sink} {bytes : Bytes} :
    ((checkDepth s d).piece.append piece).result sink = (.ok bytes, sink') ↔
      d ≤ s.maxListDepth ∧ piece.result sink = (.ok bytes, sink') := by
  unfold checkDepth
  split
  · rename_i hdeep
    rw [(Writes.throw _).piece_eq]
    refine iff_of_false (fun h => ?_) fun h => absurd h.1 (Nat.not_le.mpr hdeep)
    cases h
  · rename_i hdeep
    rw [Writes.pure.piece_eq, Piece.result_text_append_eq_ok_iff]
    simp [Nat.not_lt.mp hdeep]

/-- The piece of a list among items, and of the items after it. -/
theorem piece_writeItems_list (s : Settings) (d : Nat) (later : Bool) (inner rest : List Value) :
    (writeItems s d later (.list inner :: rest)).piece =
      (pure (if later then utf8 ", " else []) : Piece Bytes).append
        ((pure (utf8 "(") : Piece Bytes).append ((checkDepth s (d + 1)).piece.append
          ((writeItems s (d + 1) false inner).piece.append
            ((pure (utf8 ")") : Piece Bytes).append (writeItems s d true rest).piece)))) := by
  have hsteps := (Writes.separate later ", ").seq ((Writes.write (utf8 "(")).seq
    ((isLocal_checkDepth s (d + 1)).seq ((isLocal_writeItemsAt s (d + 1) false inner).seq
      ((Writes.write (utf8 ")")).seq (isLocal_writeItemsAt s d true rest)))))
  rw [writeItems]
  exact hsteps.piece_eq

/-- The piece of any other item, and of the items after it. -/
theorem piece_writeItems_leaf {value : Value} (hleaf : ∀ inner, value ≠ .list inner) (s : Settings)
    (d : Nat) (later : Bool) (rest : List Value) :
    (writeItems s d later (value :: rest)).piece =
      (pure (if later then utf8 ", " else []) : Piece Bytes).append
        ((writeValue s none value).piece.append (writeItems s d true rest).piece) := by
  have hsteps := (Writes.separate later ", ").seq ((isLocal_writeValue s value).seq
    (isLocal_writeItemsAt s d true rest))
  rw [writeItems_leaf hleaf]
  exact hsteps.piece_eq

theorem piece_writeItems_nil (s : Settings) (d : Nat) (later : Bool) :
    (writeItems s d later []).piece = pure (insideAt later []) := by
  rw [writeItems]
  cases later with
  | false => exact (Writes.write _).piece_eq
  | true => exact Writes.pure.piece_eq

/-- Items at depth `d` are written if the lists among them are not too deep and all their leaves are
written. -/
theorem result_writeItems_eq_ok_iff {s : Settings} {d : Nat} {later : Bool} {items : List Value}
    {sink sink' : Sink} {bytes : Bytes} (hd : d ≤ s.maxListDepth) :
    (writeItems s d later items).piece.result sink = (.ok bytes, sink') ↔
      d + (nestOf items).depth ≤ s.maxListDepth + 1 ∧ ∃ made : Nest Bytes,
        ((nestOf items).mapM fun value => (writeValue s none value).piece).result sink
          = (.ok made, sink') ∧
        insideAt later made.texts = bytes := by
  induction items using items_induction generalizing d later sink sink' bytes with
  | nil =>
    rw [piece_writeItems_nil]
    constructor
    · rintro ⟨⟩
      exact ⟨Nat.succ_le_succ hd, .nil, rfl, rfl⟩
    · rintro ⟨-, _, ⟨⟩, rfl⟩
      rfl
  | list inner rest ihInner ih =>
    have hdeeper : d + (nestOf (.list inner :: rest)).depth ≤ s.maxListDepth + 1 ↔
        d + 1 + (nestOf inner).depth ≤ s.maxListDepth + 1 ∧
          d + (nestOf rest).depth ≤ s.maxListDepth + 1 := by
      show d + max _ _ ≤ _ ↔ _
      omega
    have htext (own others : Nest Bytes) : insideAt later (Nest.list own others).texts =
        (if later then utf8 ", " else []) ++ (utf8 "(" ++ (insideAt false own.texts ++
          (utf8 ")" ++ insideAt true others.texts))) := by
      rw [Nest.texts, insideAt_cons]
      simp only [List.append_assoc]
      rfl
    rw [piece_writeItems_list, hdeeper]
    change _ ↔ _ ∧ ∃ made, ((Nest.list (nestOf inner) (nestOf rest)).mapM _).result sink = _ ∧ _
    simp only [Piece.result_text_append_eq_ok_iff, result_checkDepth_append_eq_ok_iff,
      @Piece.result_append_eq_ok_iff _ _ (writeItems s (d + 1) false inner).piece,
      Nest.result_mapM_list_iff, ih hd]
    constructor
    · rintro ⟨_, ⟨_, ⟨hdepth, _, between, _, hinner, ⟨_, ⟨hrest, others, hothers, rfl⟩, rfl⟩, rfl⟩,
        rfl⟩, rfl⟩
      obtain ⟨hdeeper, own, hown, rfl⟩ := (ihInner hdepth).mp hinner
      exact ⟨⟨hdeeper, hrest⟩, _, ⟨own, between, others, hown, hothers, rfl⟩, htext own others⟩
    · rintro ⟨⟨hinner, hrest⟩, _, ⟨own, between, others, hown, hothers, rfl⟩, rfl⟩
      have hdepth : d + 1 ≤ s.maxListDepth := by
        have hpos := (nestOf inner).one_le_depth
        omega
      have hitems : (writeItems s (d + 1) false inner).piece.result sink = _ :=
        (ihInner hdepth).mpr ⟨hinner, own, hown, rfl⟩
      exact ⟨_, ⟨_, ⟨hdepth, _, between, _, hitems, ⟨_, ⟨hrest, others, hothers, rfl⟩, rfl⟩, rfl⟩,
        rfl⟩, (htext own others).symm⟩
  | leaf value rest hleaf ih =>
    rw [piece_writeItems_leaf hleaf, nestOf_leaf hleaf]
    simp only [Piece.result_text_append_eq_ok_iff, Nest.result_mapM_leaf_iff, ih hd,
      @Piece.result_append_eq_ok_iff _ _ (writeValue s none value).piece]
    constructor
    · rintro ⟨_, ⟨own, between, _, hown, ⟨hdepth, others, hothers, rfl⟩, rfl⟩, rfl⟩
      exact ⟨hdepth, _, ⟨own, between, others, hown, hothers, rfl⟩, insideAt_cons _ _ _⟩
    · rintro ⟨hdepth, _, ⟨own, between, others, hown, hothers, rfl⟩, rfl⟩
      exact ⟨_, ⟨own, between, _, hown, ⟨hdepth, others, hothers, rfl⟩, rfl⟩,
        (insideAt_cons _ _ _).symm⟩

/-! ### Lists -/

theorem Settings.one_le_maxListDepth (s : Settings) : 1 ≤ s.maxListDepth := by
  unfold Settings.maxListDepth
  split
  · exact Nat.le_refl 1
  · split <;> decide

theorem result_writeItems_iff_mirrors {s : Settings} {items : List Value} {sink sink' : Sink}
    {bytes : Bytes} :
    (writeItems s 1 false items).piece.result sink = (.ok bytes, sink') ↔
      ∃ made, Mirrors s items sink made sink' ∧ Nest.inside made.texts = bytes := by
  rw [result_writeItems_eq_ok_iff s.one_le_maxListDepth, Nat.add_comm, Nat.add_le_add_iff_right]
  constructor
  · rintro ⟨hdepth, made, hmade, rfl⟩
    exact ⟨made, ⟨hdepth, hmade⟩, rfl⟩
  · rintro ⟨made, ⟨hdepth, hmade⟩, rfl⟩
    exact ⟨hdepth, made, hmade, rfl⟩

/-- What a list writes in a hole for one. -/
theorem result_filling_list_eq_ok_iff {s : Settings} {items : List Value}
    (qualifier : Option String) (next : Bytes) {sink sink' : Sink} {bytes : Bytes} :
    ((Filling.ofValue s (.list items)).piece s qualifier next .list).result sink
        = (.ok bytes, sink') ↔
      ∃ made, Mirrors s items sink made sink' ∧ made.text = bytes := by
  have hlist : (Filling.ofValue s (.list items)).list = writeItems s 1 false items := by
    rw [Filling.ofValue, writeList]
  have hpiece : (Filling.ofValue s (.list items)).piece s qualifier next .list =
      (pure (utf8 "(") : Piece Bytes).append
        ((writeItems s 1 false items).piece.append (pure (utf8 ")"))) := by
    rw [Filling.piece, hlist]
    rfl
  rw [hpiece, Piece.result_enclosed_eq_ok_iff]
  simp only [result_writeItems_iff_mirrors, exists_exists_and_eq_and]
  rfl

theorem Fragment.rendersAround_list (s : Settings) (items : List Value) {head following : String}
    {earlier : List (Value × String)} (later : List (Value × String))
    (hopen : (utf8 (lastOf head earlier)).getLast? = some Byte.openBracket)
    (hclose : (utf8 following).head? = some Byte.closeBracket) :
    RendersAround s head earlier (.list items) following later fun _ between text between' =>
      ∃ made, Mirrors s items between made between' ∧ made.text = text := by
  have haround := @rendersAround s _ _ (.list items) following (by decide) (.list hclose) rfl rfl
    rfl head earlier later hopen
  simp only [result_filling_list_eq_ok_iff] at haround
  exact haround

/-! ### Lists in condition sets -/

/-- A column and what holds for it. -/
def testPiece (s : Settings) (qualifier : Option String) (entry : String × Value) : Piece Bytes :=
  (pure (Name.write s.nameQuote qualifier entry.1) : Piece Bytes).append (writeTest s entry.2).piece

def joinerOf (all : Bool) : String := if all then " AND " else " OR "

theorem result_writeTest_list_eq_ok_iff {s : Settings} {items : List Value} {sink sink' : Sink}
    {bytes : Bytes} :
    (writeTest s (.list items)).piece.result sink = (.ok bytes, sink') ↔
      ∃ made, Mirrors s items sink made sink' ∧ utf8 " IN " ++ made.text = bytes := by
  have hsteps : Writes (writeTest s (.list items)) _ := (Writes.write (utf8 " IN (")).seq
    ((isLocal_writeItems s items).seq (Writes.write (utf8 ")")))
  rw [hsteps.piece_eq, Piece.result_enclosed_eq_ok_iff]
  simp only [result_writeItems_iff_mirrors, exists_exists_and_eq_and]
  rfl

theorem isLocal_writePairs_tests (s : Settings) (all : Bool) (qualifier : Option String)
    (later : Bool) (entries : List (String × Value)) :
    Local (writePairs s qualifier (joinerOf all) later (cellsWith (writeTest s) entries)) := by
  refine ((closed_true s).emits_writePairs qualifier ?_ later (emits_tests s entries)).isLocal
  cases all <;> decide

theorem result_writePairs_eq_ok_iff {s : Settings} {all : Bool} {qualifier : Option String}
    {later : Bool} {entries : List (String × Value)} {sink sink' : Sink} {bytes : Bytes} :
    (writePairs s qualifier (joinerOf all) later
        (cellsWith (writeTest s) entries)).piece.result sink = (.ok bytes, sink') ↔
      ∃ tests, (entries.mapM (testPiece s qualifier)).result sink = (.ok tests, sink') ∧
        separated later (joinerOf all) tests = bytes := by
  induction entries generalizing later sink bytes with
  | nil =>
    have hnone : (writePairs s qualifier (joinerOf all) later (cellsWith (writeTest s) [])).piece
        = pure [] := Writes.pure.piece_eq
    rw [hnone, List.mapM_nil]
    constructor
    · rintro ⟨⟩
      exact ⟨[], rfl, separated_nil _ _⟩
    · rintro ⟨_, ⟨⟩, rfl⟩
      rw [separated_nil]
      rfl
  | cons entry rest ih =>
    have htest : Local (writeTest s entry.2) := (emits_tests s [entry] _ List.mem_cons_self).isLocal
    have hsteps : Writes (writePairs s qualifier (joinerOf all) later
        (cellsWith (writeTest s) (entry :: rest))) _ :=
      (Writes.separate later (joinerOf all)).seq ((Writes.write _).seq
        (htest.seq (isLocal_writePairs_tests s all qualifier true rest)))
    rw [hsteps.piece_eq]
    simp only [Piece.result_mapM_cons_eq_ok_iff, Piece.result_text_append_eq_ok_iff,
      @Piece.result_append_eq_ok_iff _ _ (writeTest s entry.2).piece, testPiece, ih]
    constructor
    · rintro ⟨_, ⟨_, ⟨own, between, _, hown, ⟨tests, htests, rfl⟩, rfl⟩, rfl⟩, rfl⟩
      refine ⟨_, ⟨_, between, tests, ⟨own, hown, rfl⟩, htests, rfl⟩, ?_⟩
      rw [separated_cons]
      simp only [List.append_assoc]
    · rintro ⟨_, ⟨_, between, tests, ⟨own, hown, rfl⟩, htests, rfl⟩, rfl⟩
      refine ⟨_, ⟨_, ⟨own, between, _, hown, ⟨tests, htests, rfl⟩, rfl⟩, rfl⟩, ?_⟩
      rw [separated_cons]
      simp only [List.append_assoc]

/-- A set of conditions is written test by test, in parentheses. -/
theorem result_writeConditionsOf_eq_ok_iff {s : Settings} {all : Bool} {qualifier : Option String}
    {entries : List (String × Value)} (hne : entries ≠ []) {sink sink' : Sink} {bytes : Bytes} :
    (writeConditionsOf s all qualifier (.map entries)).piece.result sink = (.ok bytes, sink') ↔
      ∃ tests, (entries.mapM (testPiece s qualifier)).result sink = (.ok tests, sink') ∧
        utf8 "(" ++ ((utf8 (joinerOf all)).intercalate tests ++ utf8 ")") = bytes := by
  obtain ⟨entry, rest, rfl⟩ := List.exists_cons_of_ne_nil hne
  have htests := isLocal_writePairs_tests s all qualifier false (entry :: rest)
  have hsteps : Writes
      (writeConditions s all qualifier (cellsWith (writeTest s) (entry :: rest))) _ :=
    (Writes.write (utf8 "(")).seq (htests.seq (Writes.write (utf8 ")")))
  rw [writeConditionsOf, testsOf_eq, hsteps.piece_eq, Piece.result_enclosed_eq_ok_iff]
  simp only [result_writePairs_eq_ok_iff, exists_exists_and_eq_and]
  rfl

/-- Among other conditions a list is written as it is anywhere else. -/
theorem result_writeConditionsOf_list_eq_ok_iff {s : Settings} {all : Bool}
    {qualifier : Option String} {earlier later : List (String × Value)} {key : String}
    {items : List Value} {sink sink' : Sink} {bytes : Bytes} :
    (writeConditionsOf s all qualifier
        (.map (earlier ++ (key, .list items) :: later))).piece.result sink = (.ok bytes, sink') ↔
      ∃ before between made between' after,
        (earlier.mapM (testPiece s qualifier)).result sink = (.ok before, between) ∧
        Mirrors s items between made between' ∧
        (later.mapM (testPiece s qualifier)).result between' = (.ok after, sink') ∧
        utf8 "(" ++ ((utf8 (joinerOf all)).intercalate (before ++
          (Name.write s.nameQuote qualifier key ++ (utf8 " IN " ++ made.text)) :: after) ++
            utf8 ")") = bytes := by
  rw [result_writeConditionsOf_eq_ok_iff (by simp)]
  simp only [Piece.result_mapM_append_eq_ok_iff, Piece.result_mapM_cons_eq_ok_iff]
  have hlist : ∀ {reached reached' : Sink} {test : Bytes},
      (testPiece s qualifier (key, .list items)).result reached = (.ok test, reached') ↔
        ∃ made, Mirrors s items reached made reached' ∧
          Name.write s.nameQuote qualifier key ++ (utf8 " IN " ++ made.text) = test := by
    intro reached reached' test
    rw [testPiece, Piece.result_text_append_eq_ok_iff]
    simp only [result_writeTest_list_eq_ok_iff, exists_exists_and_eq_and]
  simp only [hlist]
  constructor
  · rintro ⟨_, ⟨before, between, _, hbefore, ⟨_, between', after, ⟨made, hmade, rfl⟩, hafter, rfl⟩,
      rfl⟩, rfl⟩
    exact ⟨before, between, made, between', after, hbefore, hmade, hafter, rfl⟩
  · rintro ⟨before, between, made, between', after, hbefore, hmade, hafter, rfl⟩
    exact ⟨_, ⟨before, between, _, hbefore, ⟨_, between', after, ⟨made, hmade, rfl⟩, hafter, rfl⟩,
      rfl⟩, rfl⟩

theorem Fragment.rendersAround_conditions (s : Settings) (all : Bool) (value : Value)
    {head following : String} {earlier : List (Value × String)} (later : List (Value × String))
    (hopen : (utf8 (lastOf head earlier)).getLast? = some Byte.openBrace)
    (hclose : (utf8 following).head? = some (if all then Byte.ampersand else Byte.bar)) :
    RendersAround s head earlier value following later fun qualifier between text between' =>
      (writeConditionsOf s all qualifier value).piece.result between = (.ok text, between') := by
  have hencloses : Encloses (utf8 following) Byte.openBrace (.conditions all) := by
    cases all with
    | true => exact .all hclose
    | false => exact .any hclose
  exact rendersAround (by decide) hencloses rfl rfl rfl later hopen

/-! ### Leaves -/

/-- The parentheses and commas of lists. -/
def isListMark (b : UInt8) : Bool := b == Byte.openParen || b == Byte.closeParen || b == Byte.comma

/-- A text opens and closes its own quotes, and has no mark of a list outside them. -/
def Unmarked (rd : Reader) (text : Bytes) : Prop :=
  ∃ code, Region.Reads rd text code ∧ ∀ b ∈ code, isListMark b = false

theorem isListMark_of_isTame {b : UInt8} (h : isTame b = true) : isListMark b = false := by
  by_contra hmark
  simp only [isListMark, Bool.not_eq_false, Bool.or_eq_true, beq_iff_eq] at hmark
  rcases hmark with (rfl | rfl) | rfl <;> exact absurd h (by decide)

theorem Unmarked.of_tame {rd : Reader} {text : Bytes} (h : ∀ b ∈ text, isTame b = true) :
    Unmarked rd text :=
  ⟨text, Region.reads_tame h, fun b hb => isListMark_of_isTame (h b hb)⟩

theorem Region.reads_muted {rd : Reader} {text : Bytes} (h : text.all isMuted = true) :
    Region.Reads rd text text :=
  .plain fun b hb => ne_quote_of_isMuted (List.all_eq_true.mp h b hb)

theorem Literal.IsDecimal.isTame {text : Bytes} (h : Literal.IsDecimal text) :
    ∀ b ∈ text, isTame b = true := by
  obtain ⟨sign, whole, fraction, rfl, hsign, -, hwhole, hfraction⟩ := h
  refine List.forall_mem_append.mpr ⟨?_, List.forall_mem_append.mpr ⟨?_, ?_⟩⟩
  · rcases hsign with rfl | rfl
    · exact List.forall_mem_nil _
    · exact List.forall_mem_singleton.mpr rfl
  · exact fun b hb => isTame_of_isDigit (hwhole b hb)
  · rcases hfraction with rfl | ⟨digits, rfl, -, hdigits⟩
    · exact List.forall_mem_nil _
    · exact List.forall_mem_cons.mpr ⟨by decide, fun b hb => isTame_of_isDigit (hdigits b hb)⟩

theorem unmarked_scalar {s : Settings} {value : Value} {bytes : Bytes}
    (h : Literal.scalar s.literalStyle value = .ok bytes) : Unmarked s.reader bytes := by
  rcases Literal.reads_scalar h with hdecimal | ⟨code, hread, hcode⟩
  · exact .of_tame hdecimal.isTame
  · exact ⟨code, hread, fun b hb => isListMark_of_isTame (isTame_of_isWord (hcode b hb))⟩

theorem unmarked_placeholder (s : Settings) (position : Nat) :
    Unmarked s.reader (utf8 (Render.placeholder s.family position)) := by
  have hsigns : ∀ b ∈ [Byte.question, Byte.dollar, Byte.commercialAt, 0x70],
      isMuted b = true ∧ isListMark b = false :=
    List.forall_iff_forall_mem.mp (by decide)
  have hall : ∀ b ∈ utf8 (Render.placeholder s.family position),
      isMuted b = true ∧ isListMark b = false := by
    intro b hb
    rcases mem_placeholder _ _ b hb with hdigit | hsign
    · exact ⟨isMuted_of_isDigit hdigit, isListMark_of_isTame (isTame_of_isDigit hdigit)⟩
    · exact hsigns b hsign
  exact ⟨_, .plain fun b hb => ne_quote_of_isMuted (hall b hb).1, fun b hb => (hall b hb).2⟩

section Leaves

variable {s : Settings} {value : Value} (hfree : value.FragmentFree)
  (hleaf : ∀ inner, value ≠ .list inner)

include hfree hleaf

/-- An item that is no list is a JSON text or a scalar. -/
theorem writeValue_leaf :
    (∃ json, writeValue s none value = writeJson s json) ∨
      writeValue s none value = writeScalar s value := by
  cases value with
  | fragment f => exact hfree.elim
  | list inner => exact absurd rfl (hleaf inner)
  | map entries => exact .inl ⟨_, by rw [writeValue]⟩
  | _ => exact .inr (by simp only [writeValue])

theorem yields_unmarked : (writeValue s none value).piece.Yields (Unmarked s.reader) := by
  rcases writeValue_leaf (s := s) hfree hleaf with ⟨json, hjson⟩ | hscalar
  · rw [hjson]
    have hemits : Emits (Piece.Yields (Unmarked s.reader)) (writeJson s json) :=
      .lift (fun _ _ => .throw _) fun j _ =>
        .write (.pure ⟨[], Literal.reads_json s j, List.forall_mem_nil _⟩)
    exact hemits.holds
  · rw [hscalar]
    exact ((Writes.writeScalar s value).emits
      (.scalar unmarked_scalar (unmarked_placeholder s))).holds

/-- Whether an item that is no list can be written does not depend on the sink: a value that goes
there has a literal. -/
theorem exists_writeValue_iff (sink : Sink) :
    (∃ text, ((writeValue s none value).piece.result sink).1 = .ok text) ↔
      ∃ text, bytes (writeValue s none value) = .ok text := by
  unfold bytes
  rcases writeValue_leaf (s := s) hfree hleaf with ⟨json, hjson⟩ | hscalar
  · have hsteps : Writes (writeJson s json) _ := .lift fun j _ => Writes.write _
    rw [hjson, hsteps.piece_eq]
    cases json <;> rfl
  · rw [hscalar, (Writes.writeScalar s value).piece_eq]
    cases sink with
    | none => rfl
    | some values =>
      rw [Piece.result_scalar_some]
      split
      · rename_i hlong
        exact iff_of_true ⟨_, rfl⟩ (exists_literal_of_isLong hlong.1)
      · rfl

end Leaves

/-! ### Reading the text back -/

namespace Nest

variable {α : Type}

/-- Outside quotes the text of a list has the marks of the list and no others. -/
theorem reads_insideAt {rd : Reader} {items : Nest Bytes}
    (h : ∀ text ∈ items.leaves, Unmarked rd text) (later : Bool) :
    ∃ code, Region.Reads rd (insideAt later items.texts) code ∧
      code.filter isListMark = separated later "," items.itemMarks := by
  have hseparator : ∀ later : Bool, ∃ code,
      Region.Reads rd (if later then utf8 ", " else []) code ∧
        code.filter isListMark = if later then utf8 "," else [] := by
    rintro (_ | _)
    · exact ⟨[], .nil, rfl⟩
    · exact ⟨utf8 ", ", Region.reads_muted rfl, rfl⟩
  induction items generalizing later with
  | nil =>
    cases later with
    | false => exact ⟨utf8 "NULL", Region.reads_muted rfl, rfl⟩
    | true => exact ⟨[], .nil, rfl⟩
  | leaf text rest ih =>
    obtain ⟨⟨code, hread, hcode⟩, hrest⟩ := List.forall_mem_cons.mp h
    obtain ⟨front, hfront, hfrontMarks⟩ := hseparator later
    obtain ⟨back, hback, hbackMarks⟩ := ih hrest true
    refine ⟨front ++ (code ++ back), ?_, ?_⟩
    · rw [texts, insideAt_cons]
      exact hfront.append (hread.append hback)
    · rw [itemMarks, separated_cons, List.filter_append, List.filter_append, hfrontMarks,
        hbackMarks, List.filter_eq_nil_iff.mpr fun b hb => by simp [hcode b hb]]
  | list inner rest ihInner ih =>
    obtain ⟨hinner, hrest⟩ := List.forall_mem_append.mp h
    obtain ⟨front, hfront, hfrontMarks⟩ := hseparator later
    obtain ⟨own, hown, hownMarks⟩ := ihInner hinner false
    obtain ⟨back, hback, hbackMarks⟩ := ih hrest true
    have hopen : Region.Reads rd (utf8 "(") (utf8 "(") := Region.reads_muted rfl
    have hclose : Region.Reads rd (utf8 ")") (utf8 ")") := Region.reads_muted rfl
    refine ⟨front ++ ((utf8 "(" ++ (own ++ utf8 ")")) ++ back), ?_, ?_⟩
    · rw [texts, insideAt_cons]
      exact hfront.append ((hopen.append (hown.append hclose)).append hback)
    · rw [itemMarks, separated_cons]
      simp only [List.filter_append, hfrontMarks, hownMarks, hbackMarks]
      rfl

/-- The marks of items close what they open, and their commas stand in parentheses. -/
theorem balanced_itemMarks (items : Nest α) {later : Bool} {depth : Nat} {rest : Bytes}
    (hrest : Balanced false (depth + 1) rest) :
    Balanced false (depth + 1) (separated later "," items.itemMarks ++ rest) := by
  have hseparator : ∀ {later : Bool} {depth : Nat} {rest : Bytes}, Balanced false (depth + 1) rest →
      Balanced false (depth + 1) ((if later then utf8 "," else []) ++ rest) := by
    intro later depth rest h
    cases later with
    | false => exact h
    | true => exact ⟨fun _ hzero => absurd hzero (Nat.succ_ne_zero depth), h⟩
  induction items generalizing later depth rest with
  | nil =>
    cases later <;> exact hrest
  | leaf a others ih =>
    rw [itemMarks, separated_cons, List.nil_append, List.append_assoc]
    exact hseparator (ih hrest)
  | list inner others ihInner ih =>
    have hclosed : Balanced false (depth + 2)
        (Byte.closeParen :: (separated true "," others.itemMarks ++ rest)) :=
      show _ ≠ 0 ∧ _ from ⟨Nat.succ_ne_zero _, ih hrest⟩
    have hinner : Balanced false (depth + 2) (separated false "," inner.itemMarks ++ _) :=
      ihInner hclosed
    rw [itemMarks, separated_cons, List.append_assoc, List.append_assoc, List.cons_append,
      List.append_assoc]
    exact hseparator hinner

theorem balanced_marks (items : Nest α) : Balanced false 0 items.marks := by
  have hclosed : Balanced false 1 [Byte.closeParen] := show _ ≠ 0 ∧ _ from ⟨Nat.one_ne_zero, rfl⟩
  have hitems : Balanced false 1 (separated false "," items.itemMarks ++ [Byte.closeParen]) :=
    items.balanced_itemMarks hclosed
  exact hitems

end Nest

/-- Only parentheses and commas decide whether a text is balanced. -/
theorem balanced_filter_iff {commas : Bool} {depth : Nat} {code : Bytes} :
    Balanced commas depth (code.filter isListMark) ↔ Balanced commas depth code := by
  induction code generalizing depth with
  | nil => rfl
  | cons b rest ih =>
    by_cases hmark : isListMark b = true
    · rw [List.filter_cons_of_pos hmark, Balanced, Balanced]
      simp only [ih]
    · rw [List.filter_cons_of_neg hmark, ih]
      simp only [isListMark, Bool.or_eq_true, beq_iff_eq, not_or] at hmark
      rw [Balanced, if_neg hmark.1.1, if_neg hmark.1.2]
      simp [hmark.2]

theorem leaves_nestOf {items : List Value} (hfree : FragmentFreeItems items) :
    ∀ value ∈ (nestOf items).leaves, value.FragmentFree ∧ ∀ inner, value ≠ .list inner := by
  induction items using items_induction with
  | nil => exact List.forall_mem_nil _
  | list inner rest ihInner ih =>
    have hinner : FragmentFreeItems inner := hfree.1
    exact List.forall_mem_append.mpr ⟨ihInner hinner, ih hfree.2⟩
  | leaf value rest hleaf ih =>
    rw [nestOf_leaf hleaf]
    exact List.forall_mem_cons.mpr ⟨⟨hfree.1, hleaf⟩, ih hfree.2⟩

/-- Whatever the sink, a list is written iff it is not nested too deep and each item that is no list
is written. -/
theorem exists_mirrors_iff {s : Settings} {items : List Value} (hfree : FragmentFreeItems items)
    (sink : Sink) :
    (∃ made sink', Mirrors s items sink made sink') ↔
      (nestOf items).depth ≤ s.maxListDepth ∧
        ∀ value ∈ (nestOf items).leaves, ∃ text, bytes (writeValue s none value) = .ok text := by
  have hleaf : ∀ value ∈ (nestOf items).leaves, ∀ reached,
      (∃ text, ((writeValue s none value).piece.result reached).1 = .ok text) ↔
        ∃ text, bytes (writeValue s none value) = .ok text := by
    intro value hvalue reached
    obtain ⟨hvalueFree, hleaf⟩ := leaves_nestOf hfree value hvalue
    exact exists_writeValue_iff hvalueFree hleaf reached
  have hleaves : (∃ made sink', Piece.result _ sink = (.ok made, sink')) ↔ _ :=
    Nest.exists_mapM_iff hleaf
  rw [← hleaves]
  constructor
  · rintro ⟨made, sink', hdepth, hmade⟩
    exact ⟨hdepth, made, sink', hmade⟩
  · rintro ⟨hdepth, made, sink', hmade⟩
    exact ⟨made, sink', hdepth, hmade⟩

/-- Read as a server reads it, the text of a list has the parentheses and commas of the list. -/
theorem Mirrors.marks_eq {s : Settings} {items : List Value} {sink sink' : Sink}
    {made : Nest Bytes} (h : Mirrors s items sink made sink') (hfree : FragmentFreeItems items) :
    (Region.after s.reader .code made.text).isOutside = true ∧
      (Region.codeBytes s.reader .code made.text).filter isListMark = (nestOf items).marks := by
  have hunmarked : ∀ text ∈ made.leaves, Unmarked s.reader text := by
    refine Nest.forall_leaves_of_mapM ?_ h.made_eq
    intro value hvalue reached text htext
    obtain ⟨hvalueFree, hleaf⟩ := leaves_nestOf hfree value hvalue
    exact yields_unmarked hvalueFree hleaf reached text htext
  obtain ⟨code, hread, hmarks⟩ := Nest.reads_insideAt hunmarked false
  have hopen : Region.Reads s.reader (utf8 "(") (utf8 "(") := Region.reads_muted rfl
  have hclose : Region.Reads s.reader (utf8 ")") (utf8 ")") := Region.reads_muted rfl
  have htext := hopen.append (hread.append hclose)
  refine ⟨htext.ends .code rfl, ?_⟩
  rw [show Region.codeBytes s.reader .code made.text = _ from htext.code_eq .code rfl,
    List.filter_append, List.filter_append, hmarks, Nest.itemMarks_of_mapM h.made_eq]
  rfl

/-- A list without fragments is written, in a hole for a list as well as among conditions, iff it is
nested no deeper than the dialect allows and each item that is no list can be written; and then its
text is that of its items between parentheses, with one pair for each list in it, so that the
parentheses and commas that a server finds outside quotes are those of the list. -/
theorem list_mirrors_nesting (s : Settings) (items : List Value)
    (hfree : FragmentFreeItems items) :
    (∀ sink, (∃ made sink', Mirrors s items sink made sink') ↔
      (nestOf items).depth ≤ s.maxListDepth ∧
        ∀ value ∈ (nestOf items).leaves, ∃ text, bytes (writeValue s none value) = .ok text) ∧
    (∀ head earlier following later,
      (utf8 (lastOf head earlier)).getLast? = some Byte.openBracket →
      (utf8 following).head? = some Byte.closeBracket →
      Fragment.RendersAround s head earlier (.list items) following later
        fun _ between text between' =>
          ∃ made, Mirrors s items between made between' ∧ made.text = text) ∧
    (∀ all qualifier earlier key later sink bytes sink',
      (writeConditionsOf s all qualifier
          (.map (earlier ++ (key, .list items) :: later))).piece.result sink = (.ok bytes, sink') ↔
        ∃ before between made between' after,
          (earlier.mapM (testPiece s qualifier)).result sink = (.ok before, between) ∧
          Mirrors s items between made between' ∧
          (later.mapM (testPiece s qualifier)).result between' = (.ok after, sink') ∧
          utf8 "(" ++ ((utf8 (joinerOf all)).intercalate (before ++
            (Name.write s.nameQuote qualifier key ++ (utf8 " IN " ++ made.text)) :: after) ++
              utf8 ")") = bytes) ∧
    (∀ all value head earlier following later,
      (utf8 (lastOf head earlier)).getLast? = some Byte.openBrace →
      (utf8 following).head? = some (if all then Byte.ampersand else Byte.bar) →
      Fragment.RendersAround s head earlier value following later
        fun qualifier between text between' =>
          (writeConditionsOf s all qualifier value).piece.result between = (.ok text, between')) ∧
    ∀ sink made sink', Mirrors s items sink made sink' →
      let code := Region.codeBytes s.reader .code made.text
      (Region.after s.reader .code made.text).isOutside = true ∧ Balanced false 0 code ∧
        code.filter isListMark = (nestOf items).marks := by
  refine ⟨exists_mirrors_iff hfree, ?_, fun _ _ _ _ _ _ _ _ =>
    result_writeConditionsOf_list_eq_ok_iff, ?_, ?_⟩
  · intro head earlier following later hopen hclose
    exact Fragment.rendersAround_list s items later hopen hclose
  · intro all value head earlier following later hopen hclose
    exact Fragment.rendersAround_conditions s all value later hopen hclose
  · intro sink made sink' hmirrors code
    obtain ⟨hends, hmarks⟩ := hmirrors.marks_eq hfree
    refine ⟨hends, balanced_filter_iff.mp ?_, hmarks⟩
    rw [hmarks]
    exact (nestOf items).balanced_marks

/-- Row values among the items, one with a mark in a string and an empty one, after another hole. -/
theorem list_mirrors_nesting_rows :
    let s : Settings := .ofDialect (.only .postgres)
    let items : List Value := [.list [.int 1, .str "(,"], .list [], .null]
    let rendered := Fragment.renderInto
      ⟨s, "SELECT ", [(.int 7, ", ["), (.list items, "];")], 0⟩ .empty none {}
    FragmentFreeItems items ∧ rendered.result = .ok () ∧
      rendered.out.toList = utf8 "SELECT 7, ((1, '(,'), (NULL), NULL);" ∧
      (Region.codeBytes s.reader .code (utf8 "((1, '(,'), (NULL), NULL)")).filter isListMark =
        utf8 "((,),(),)" := by
  intro s items rendered
  have hfree : FragmentFreeItems items := ⟨⟨trivial, trivial, trivial⟩, trivial, trivial, trivial⟩
  let made : Nest Bytes :=
    .list (.leaf (utf8 "1") (.leaf (utf8 "'(,'") .nil)) (.list .nil (.leaf (utf8 "NULL") .nil))
  have hmirrors : Mirrors s items none made none := ⟨by decide, rfl⟩
  have haround : Fragment.Surrounds s "SELECT " [(.int 7, ", [")] "];" [] none
      (none, utf8 "SELECT 7, ") none none (utf8 ";") none := ⟨rfl, rfl⟩
  obtain ⟨-, hhole, -, -, hmarks⟩ := list_mirrors_nesting s items hfree
  obtain ⟨hresult, hout⟩ :=
    hhole "SELECT " [(.int 7, ", [")] "];" [] (by decide) (by decide) 0 .empty none
  exact ⟨hfree, hresult.mpr ⟨_, _, _, _, _, _, haround, made, hmirrors, rfl⟩,
    (hout _ _ _ _ _ _ haround ⟨made, hmirrors, rfl⟩).1, (hmarks none made none hmirrors).2.2⟩

end SqlTemplate
