import SqlTemplate.Proofs.ReadBack
import SqlTemplate.Proofs.Values

/-!
# Integers of three types

A value may hold an integer as a signed word, as an unsigned word or as a larger number. In a
literal the three look the same. Their range is tested in two places: where an integer is a value on
its own, whatever its type, and where a list or a map is turned into a JSON text, which takes an
unsigned word as it is. So two values that hold the same integers in other types
(`Value.SameIntegers`) quote alike iff the tests that each meets come out the same
(`Value.quotesAlike_iff`); they come out otherwise for an unsigned word from 2^63 on that is inside
a list or a map.
-/

namespace SqlTemplate

/-! ### Integers in values -/

/-- The integer that a value is, whatever its type. -/
def Value.integer? : Value → Option Int
  | .int n => some n.toInt
  | .uint n => some n.toNat
  | .bigint n => some n
  | _ => none

mutual

/-- Two values are the same but for the types of the integers in them. -/
inductive Value.SameIntegers : Value → Value → Prop
  | refl (v : Value) : Value.SameIntegers v v
  | integer {v v' : Value} {n : Int} (h : v.integer? = some n) (h' : v'.integer? = some n) :
      Value.SameIntegers v v'
  | list {items items' : List Value} (h : SameItems items items') :
      Value.SameIntegers (.list items) (.list items')
  | map {entries entries' : List (String × Value)} (h : SameEntries entries entries') :
      Value.SameIntegers (.map entries) (.map entries')

inductive SameItems : List Value → List Value → Prop
  | nil : SameItems [] []
  | cons {v v' : Value} {rest rest' : List Value} (h : Value.SameIntegers v v')
      (hrest : SameItems rest rest') : SameItems (v :: rest) (v' :: rest')

inductive SameEntries : List (String × Value) → List (String × Value) → Prop
  | nil : SameEntries [] []
  | cons {key : String} {v v' : Value} {rest rest' : List (String × Value)}
      (h : Value.SameIntegers v v') (hrest : SameEntries rest rest') :
      SameEntries ((key, v) :: rest) ((key, v') :: rest')

end

mutual

/-- A property of a value, or of everything in it if it is a list or a map. -/
def Value.EachLeaf (P : Value → Prop) : Value → Prop
  | .list items => EachItem P items
  | .map entries => EachEntry P entries
  | value => P value

def EachItem (P : Value → Prop) : List Value → Prop
  | [] => True
  | item :: rest => item.EachLeaf P ∧ EachItem P rest

def EachEntry (P : Value → Prop) : List (String × Value) → Prop
  | [] => True
  | (_, value) :: rest => value.EachLeaf P ∧ EachEntry P rest

end

def Literal.IsInRange (n : Int) : Prop := -9223372036854775808 ≤ n ∧ n ≤ 9223372036854775807

namespace Value

/-- A value that is an integer is one of 64 bits and a sign. -/
def InRange (v : Value) : Prop := ∀ n, v.integer? = some n → Literal.IsInRange n

/-- The test of an integer in a list or a map: an unsigned word always passes. -/
def InRangeInside (v : Value) : Prop := (∃ n, v = .uint n) ∨ v.InRange

/-- Every test of an integer that is made when a value is quoted is passed. -/
def PassesRange (v : Value) : Prop := v.InRange ∧ v.EachLeaf InRangeInside

/-- Two values have the same text, or both have none because a number is out of range. -/
def QuotesAlike (style : LiteralStyle) (v v' : Value) : Prop :=
  (∃ text, v.quote style = .ok text ∧ v'.quote style = .ok text) ∨
    ∃ number number', v.quote style = .error (.range number) ∧
      v'.quote style = .error (.range number')

end Value

/-! ### Computations that test ranges -/

/-- A computation succeeds if a condition holds, and ends with a range error if not. -/
def RangeDecides {α : Type} (P : Prop) (result : Except Error α) : Prop :=
  (P ∧ ∃ a, result = .ok a) ∨ (¬P ∧ ∃ number, result = .error (.range number))

namespace RangeDecides

variable {α β : Type} {P Q : Prop} {result : Except Error α}

theorem ok (a : α) (h : P) : RangeDecides P (Except.ok a : Except Error α) := .inl ⟨h, a, rfl⟩

theorem congr (h : RangeDecides P result) (hiff : P ↔ Q) : RangeDecides Q result :=
  propext hiff ▸ h

theorem bind {next : α → Except Error β} (h : RangeDecides P result)
    (hnext : ∀ a, RangeDecides Q (next a)) : RangeDecides (P ∧ Q) (result >>= next) := by
  obtain ⟨hholds, a, rfl⟩ | ⟨hfails, number, rfl⟩ := h
  · exact (hnext a).congr (and_iff_right hholds).symm
  · exact .inr ⟨fun hboth => hfails hboth.1, number, rfl⟩

theorem map (h : RangeDecides P result) (f : α → β) : RangeDecides P (f <$> result) := by
  obtain ⟨hholds, a, rfl⟩ | ⟨hfails, number, rfl⟩ := h
  · exact .ok (f a) hholds
  · exact .inr ⟨hfails, number, rfl⟩

theorem exists_ok_iff (h : RangeDecides P result) : (∃ a, result = .ok a) ↔ P := by
  obtain ⟨hholds, hok⟩ | ⟨hfails, number, rfl⟩ := h
  · exact iff_of_true hok hholds
  · simpa using hfails

theorem checkRange (n : Int) : RangeDecides (Literal.IsInRange n) (Literal.checkRange n) := by
  unfold Literal.checkRange
  split
  · exact .ok n ‹_›
  · exact .inr ⟨‹_›, _, rfl⟩

end RangeDecides

/-! ### Values as JSON -/

theorem Literal.isInRange_toInt (n : Int64) : IsInRange n.toInt := by
  have hlow := n.le_toInt
  have hhigh := n.toInt_lt
  unfold IsInRange
  omega

theorem Value.inRange_of_integer_eq {v : Value} {n : Int} (h : v.integer? = some n) :
    v.InRange ↔ Literal.IsInRange n := by
  simp [InRange, h]

theorem Value.inRange_of_integer_none {v : Value} (h : v.integer? = none) : v.InRange := by
  simp [InRange, h]

theorem rangeDecides_scalarJson (v : Value) :
    RangeDecides v.InRangeInside (Literal.scalarJson v) := by
  cases v with
  | int n =>
    have hrange : (Value.int n).InRange :=
      (Value.inRange_of_integer_eq rfl).mpr (Literal.isInRange_toInt n)
    exact .ok _ (.inr hrange)
  | uint n => exact .ok _ (.inl ⟨n, rfl⟩)
  | bigint n =>
    have htest : RangeDecides (Literal.IsInRange n ∧ True) (Literal.scalarJson (.bigint n)) :=
      (RangeDecides.checkRange n).bind fun _ => .ok _ trivial
    refine htest.congr ?_
    simp [Value.InRangeInside, Value.inRange_of_integer_eq (v := .bigint n) rfl]
  | _ => exact .ok _ (.inr (Value.inRange_of_integer_none rfl))

mutual

theorem rangeDecides_toJson : (v : Value) → v.FragmentFree →
    RangeDecides (v.EachLeaf Value.InRangeInside) v.toJson
  | .list items, h => by
    rw [Value.toJson]
    exact (rangeDecides_jsonItems items h).map _
  | .map entries, h => by
    rw [Value.toJson]
    exact (rangeDecides_jsonMembers entries h).map _
  | .fragment _, h => h.elim
  | .null, _ | .bool _, _ | .int _, _ | .uint _, _ | .bigint _, _ | .float _, _ | .str _, _
  | .bytes _, _ | .date _, _ | .dateTime _, _ | .json _, _ | .foreign _, _ => by
    rw [Value.toJson]
    · exact rangeDecides_scalarJson _
    all_goals simp

theorem rangeDecides_jsonItems : (items : List Value) → FragmentFreeItems items →
    RangeDecides (EachItem Value.InRangeInside items) (jsonItems items)
  | [], _ => .ok [] trivial
  | item :: rest, h => by
    rw [jsonItems]
    simp only [bind_pure_comp]
    exact (rangeDecides_toJson item h.1).bind fun _ => (rangeDecides_jsonItems rest h.2).map _

theorem rangeDecides_jsonMembers : (entries : List (String × Value)) →
    FragmentFreeEntries entries →
    RangeDecides (EachEntry Value.InRangeInside entries) (jsonMembers entries)
  | [], _ => .ok [] trivial
  | (_, value) :: rest, h => by
    rw [jsonMembers]
    simp only [bind_pure_comp]
    exact (rangeDecides_toJson value h.1).bind fun _ => (rangeDecides_jsonMembers rest h.2).map _

end

/-! ### The same integers -/

theorem Value.fragmentFree_of_integer {v : Value} {n : Int} (h : v.integer? = some n) :
    v.FragmentFree := by
  cases v with
  | int m | uint m | bigint m => trivial
  | _ => cases h

mutual

theorem Value.SameIntegers.fragmentFree {v v' : Value} :
    v.SameIntegers v' → v.FragmentFree → v'.FragmentFree
  | .refl _, hfree => hfree
  | .integer _ h', _ => Value.fragmentFree_of_integer h'
  | .list h, hfree => h.fragmentFree hfree
  | .map h, hfree => h.fragmentFree hfree

theorem SameItems.fragmentFree {items items' : List Value} :
    SameItems items items' → FragmentFreeItems items → FragmentFreeItems items'
  | .nil, hfree => hfree
  | .cons h hrest, hfree => ⟨h.fragmentFree hfree.1, hrest.fragmentFree hfree.2⟩

theorem SameEntries.fragmentFree {entries entries' : List (String × Value)} :
    SameEntries entries entries' → FragmentFreeEntries entries → FragmentFreeEntries entries'
  | .nil, hfree => hfree
  | .cons h hrest, hfree => ⟨h.fragmentFree hfree.1, hrest.fragmentFree hfree.2⟩

end

theorem Literal.eq_of_checkRange {n m : Int} (h : checkRange n = .ok m) : m = n := by
  unfold checkRange at h
  split at h
  · exact (Except.ok.inj h).symm
  · cases h

theorem Value.toJson_of_integer {v : Value} {n : Int} {j : Json} (h : v.integer? = some n)
    (hok : v.toJson = .ok j) : j = .int n := by
  cases v with
  | int m | uint m =>
    cases h
    cases hok
    rfl
  | bigint m =>
    cases h
    obtain ⟨m', hrange, hjson⟩ := bind_eq_ok hok
    cases hjson
    rw [Literal.eq_of_checkRange hrange]
  | _ => cases h

mutual

theorem Value.SameIntegers.toJson_eq {v v' : Value} {j j' : Json} :
    v.SameIntegers v' → v.toJson = .ok j → v'.toJson = .ok j' → j = j'
  | .refl _, hok, hok' => Except.ok.inj (hok.symm.trans hok')
  | .integer h h', hok, hok' =>
    (Value.toJson_of_integer h hok).trans (Value.toJson_of_integer h' hok').symm
  | .list h, hok, hok' => by
    rw [Value.toJson] at hok hok'
    obtain ⟨js, hjs, hok⟩ := map_eq_ok hok
    obtain ⟨js', hjs', hok'⟩ := map_eq_ok hok'
    rw [← hok, ← hok', h.jsonItems_eq hjs hjs']
  | .map h, hok, hok' => by
    rw [Value.toJson] at hok hok'
    obtain ⟨js, hjs, hok⟩ := map_eq_ok hok
    obtain ⟨js', hjs', hok'⟩ := map_eq_ok hok'
    rw [← hok, ← hok', h.jsonMembers_eq hjs hjs']

theorem SameItems.jsonItems_eq {items items' : List Value} {js js' : List Json} :
    SameItems items items' → jsonItems items = .ok js → jsonItems items' = .ok js' → js = js'
  | .nil, hok, hok' => Except.ok.inj (hok.symm.trans hok')
  | .cons h hrest, hok, hok' => by
    rw [jsonItems] at hok hok'
    obtain ⟨j, hj, hok⟩ := bind_eq_ok hok
    obtain ⟨j', hj', hok'⟩ := bind_eq_ok hok'
    obtain ⟨rest, hr, hok⟩ := bind_eq_ok hok
    obtain ⟨rest', hr', hok'⟩ := bind_eq_ok hok'
    cases hok
    cases hok'
    rw [h.toJson_eq hj hj', hrest.jsonItems_eq hr hr']

theorem SameEntries.jsonMembers_eq {entries entries' : List (String × Value)}
    {js js' : List (String × Json)} :
    SameEntries entries entries' → jsonMembers entries = .ok js →
      jsonMembers entries' = .ok js' → js = js'
  | .nil, hok, hok' => Except.ok.inj (hok.symm.trans hok')
  | .cons h hrest, hok, hok' => by
    rw [jsonMembers] at hok hok'
    obtain ⟨j, hj, hok⟩ := bind_eq_ok hok
    obtain ⟨j', hj', hok'⟩ := bind_eq_ok hok'
    obtain ⟨rest, hr, hok⟩ := bind_eq_ok hok
    obtain ⟨rest', hr', hok'⟩ := bind_eq_ok hok'
    cases hok
    cases hok'
    rw [h.toJson_eq hj hj', hrest.jsonMembers_eq hr hr']

end

/-! ### Literals -/

section Literals

variable {style : LiteralStyle} {v v' : Value}

theorem Value.literal_of_integer {n : Int} {bytes : Bytes} (h : v.integer? = some n)
    (hok : v.literal style = .ok bytes) : bytes = Literal.chars (Json.intText n) := by
  cases v with
  | int m =>
    cases h
    exact (Except.ok.inj hok).symm
  | uint m | bigint m =>
    cases h
    obtain ⟨m', hrange, htext⟩ := bind_eq_ok hok
    cases htext
    rw [Literal.eq_of_checkRange hrange]
  | _ => cases h

theorem Value.SameIntegers.literal_eq {bytes bytes' : Bytes} (h : v.SameIntegers v')
    (hok : v.literal style = .ok bytes) (hok' : v'.literal style = .ok bytes') :
    bytes = bytes' := by
  cases h with
  | refl => exact Except.ok.inj (hok.symm.trans hok')
  | integer h h' => exact (literal_of_integer h hok).trans (literal_of_integer h' hok').symm
  | list h =>
    obtain ⟨js, hjs, hok⟩ := bind_eq_ok hok
    obtain ⟨js', hjs', hok'⟩ := bind_eq_ok hok'
    cases hok
    cases hok'
    rw [h.jsonItems_eq hjs hjs']
  | map h =>
    obtain ⟨js, hjs, hok⟩ := bind_eq_ok hok
    obtain ⟨js', hjs', hok'⟩ := bind_eq_ok hok'
    cases hok
    cases hok'
    rw [h.jsonMembers_eq hjs hjs']

theorem Value.passesRange_of_integer {n : Int} (h : v.integer? = some n) :
    v.PassesRange ↔ Literal.IsInRange n := by
  have hleaf : v.EachLeaf InRangeInside ↔ v.InRangeInside := by
    cases v with
    | int m | uint m | bigint m => exact Iff.rfl
    | _ => cases h
  rw [PassesRange, hleaf, inRange_of_integer_eq h]
  exact ⟨fun htests => htests.1,
    fun hrange => ⟨hrange, .inr ((inRange_of_integer_eq h).mpr hrange)⟩⟩

/-- A value has a literal iff it passes the tests of its integers, unless it is a number that is not
finite or a value that has no text. -/
theorem Value.rangeDecides_literal (style : LiteralStyle) (hfree : v.FragmentFree)
    (hforeign : ∀ typeName, v ≠ .foreign typeName)
    (hfinite : ∀ x, v = .float x → x.isFinite = true) :
    RangeDecides v.PassesRange (v.literal style) := by
  have hinteger {n : Int} (h : v.integer? = some n)
      (htest : RangeDecides (Literal.IsInRange n) (v.literal style)) :
      RangeDecides v.PassesRange (v.literal style) :=
    htest.congr (passesRange_of_integer h).symm
  have hother (h : v.integer? = none)
      (htests : RangeDecides (v.EachLeaf InRangeInside) (v.literal style)) :
      RangeDecides v.PassesRange (v.literal style) :=
    htests.congr (and_iff_right (inRange_of_integer_none h)).symm
  cases v with
  | int n => exact hinteger rfl (.ok _ (Literal.isInRange_toInt n))
  | uint n | bigint n => exact hinteger rfl ((RangeDecides.checkRange _).map _)
  | list items => exact hother rfl ((rangeDecides_jsonItems items hfree).map _)
  | map entries => exact hother rfl ((rangeDecides_jsonMembers entries hfree).map _)
  | fragment f => exact hfree.elim
  | foreign typeName => exact absurd rfl (hforeign typeName)
  | float x =>
    have hliteral : (float x).literal style = .ok (Literal.chars (Literal.numberLayout.text x)) :=
      if_pos (hfinite x rfl)
    rw [hliteral] at hother ⊢
    exact hother rfl (.ok _ (.inr (inRange_of_integer_none rfl)))
  | _ => exact hother rfl (.ok _ (.inr (inRange_of_integer_none rfl)))

theorem Value.FragmentFree.ne_fragment (h : v.FragmentFree) (f : Fragment) : v ≠ .fragment f := by
  rintro rfl
  exact h

theorem RangeDecides.quote {P : Prop} (hfree : v.FragmentFree)
    (h : RangeDecides P (v.literal style)) : RangeDecides P (v.quote style) := by
  obtain ⟨hholds, bytes, hbytes⟩ | ⟨hfails, number, herror⟩ := h
  · obtain ⟨text, htext, -⟩ := Value.exists_quote hfree.ne_fragment hbytes
    exact .inl ⟨hholds, text, htext⟩
  · exact .inr ⟨hfails, number, Value.quote_of_literal_error hfree.ne_fragment herror⟩

theorem Value.SameIntegers.quote_eq {text text' : String} (h : v.SameIntegers v')
    (hfree : v.FragmentFree) (hok : v.quote style = .ok text) (hok' : v'.quote style = .ok text') :
    text = text' :=
  utf8_injective (h.literal_eq (literal_of_quote hfree.ne_fragment hok)
    (literal_of_quote (h.fragmentFree hfree).ne_fragment hok'))

theorem Value.quotesAlike_of_rangeDecides (h : v.SameIntegers v') (hfree : v.FragmentFree)
    (hquote : RangeDecides v.PassesRange (v.quote style))
    (hquote' : RangeDecides v'.PassesRange (v'.quote style)) :
    QuotesAlike style v v' ↔ (v.PassesRange ↔ v'.PassesRange) := by
  obtain ⟨hpasses, text, htext⟩ | ⟨hfails, number, herror⟩ := hquote <;>
    obtain ⟨hpasses', text', htext'⟩ | ⟨hfails', number', herror'⟩ := hquote'
  · have hsame := h.quote_eq hfree htext htext'
    exact iff_of_true (.inl ⟨text, htext, hsame ▸ htext'⟩) (iff_of_true hpasses hpasses')
  · simp [QuotesAlike, *]
  · simp [QuotesAlike, *]
  · exact iff_of_true (.inr ⟨number, number', herror, herror'⟩) (iff_of_false hfails hfails')

/-- Quoting a value is a matter of ranges, unless it is a value that has no text or a number that is
not finite. -/
theorem Value.quote_cases (style : LiteralStyle) (hfree : v.FragmentFree) :
    (∃ typeName, v = .foreign typeName ∧ v.quote style = .error (.stringify typeName)) ∨
    (∃ x number, v = .float x ∧ x.isFinite = false ∧ v.quote style = .error (.range number)) ∨
    (∀ typeName, v ≠ .foreign typeName) ∧ (∀ x, v = .float x → x.isFinite = true) ∧
      RangeDecides v.PassesRange (v.quote style) := by
  by_cases hforeign : ∃ typeName, v = .foreign typeName
  · obtain ⟨typeName, rfl⟩ := hforeign
    exact .inl ⟨typeName, rfl, rfl⟩
  by_cases hfinite : ∃ x, v = .float x ∧ x.isFinite = false
  · obtain ⟨x, rfl, hx⟩ := hfinite
    have herror : (float x).literal style = .error (.range x.specialText) :=
      if_neg (ne_true_of_eq_false hx)
    exact .inr (.inl ⟨x, _, rfl, hx, quote_of_literal_error hfree.ne_fragment herror⟩)
  · push Not at hforeign hfinite
    have hnumber (x : Binary64) (hx : v = .float x) : x.isFinite = true :=
      eq_true_of_ne_false (hfinite x hx)
    have hdecides := rangeDecides_literal style hfree hforeign hnumber
    exact .inr (.inr ⟨hforeign, hnumber, hdecides.quote hfree⟩)

theorem Value.quotesAlike_self_iff (style : LiteralStyle) (hfree : v.FragmentFree) :
    QuotesAlike style v v ↔ ∀ typeName, v ≠ .foreign typeName := by
  obtain ⟨typeName, rfl, herror⟩ | ⟨x, number, rfl, -, herror⟩ | ⟨hforeign, -, hdecides⟩ :=
    quote_cases style hfree
  · simp [QuotesAlike, herror]
  · simp [QuotesAlike, herror]
  · exact iff_of_true ((quotesAlike_of_rangeDecides (.refl v) hfree hdecides hdecides).mpr Iff.rfl)
      hforeign

theorem Value.exists_quote_iff (style : LiteralStyle) (hfree : v.FragmentFree) :
    (∃ text, v.quote style = .ok text) ↔
      v.PassesRange ∧ (∀ typeName, v ≠ .foreign typeName) ∧
        ∀ x, v = .float x → x.isFinite = true := by
  obtain ⟨typeName, rfl, herror⟩ | ⟨x, number, rfl, hx, herror⟩ | ⟨hforeign, hfinite, hdecides⟩ :=
    quote_cases style hfree
  · simp [herror]
  · simp [herror, hx]
  · rw [hdecides.exists_ok_iff]
    exact (and_iff_left ⟨hforeign, hfinite⟩).symm

theorem Value.ne_of_integer {n : Int} (h : v.integer? = some n) :
    (∀ typeName, v ≠ .foreign typeName) ∧ ∀ x, v ≠ .float x := by
  cases v with
  | int m | uint m | bigint m => simp
  | _ => cases h

/-- A value that holds no fragment and one with the same integers in other types have the same text,
or both are out of range, iff the tests that the integers of each meet come out the same; a value
without a text aside, which is not out of range. A value has a text iff it passes its tests and is
itself no number that is not finite and no value without a text. -/
theorem Value.quotesAlike_iff (h : v.SameIntegers v') (hfree : v.FragmentFree)
    (style : LiteralStyle) :
    (QuotesAlike style v v' ↔
      (∀ typeName, v ≠ .foreign typeName) ∧ (v.PassesRange ↔ v'.PassesRange)) ∧
    ((∃ text, v.quote style = .ok text) ↔
      v.PassesRange ∧ (∀ typeName, v ≠ .foreign typeName) ∧
        ∀ x, v = .float x → x.isFinite = true) := by
  refine ⟨?_, exists_quote_iff style hfree⟩
  have hdecides {w : Value} (hw : w.FragmentFree)
      (hne : (∀ typeName, w ≠ .foreign typeName) ∧ ∀ x, w ≠ .float x) :
      RangeDecides w.PassesRange (w.quote style) :=
    (rangeDecides_literal style hw hne.1 fun x hx => absurd hx (hne.2 x)).quote hw
  have halike (hne : (∀ typeName, v ≠ .foreign typeName) ∧ ∀ x, v ≠ .float x)
      (hne' : (∀ typeName, v' ≠ .foreign typeName) ∧ ∀ x, v' ≠ .float x) :
      QuotesAlike style v v' ↔
        (∀ typeName, v ≠ .foreign typeName) ∧ (v.PassesRange ↔ v'.PassesRange) :=
    (quotesAlike_of_rangeDecides h hfree (hdecides hfree hne)
      (hdecides (h.fragmentFree hfree) hne')).trans (and_iff_right hne.1).symm
  cases h with
  | refl => simpa using quotesAlike_self_iff style hfree
  | integer hn hn' => exact halike (ne_of_integer hn) (ne_of_integer hn')
  | list | map => exact halike (by simp) (by simp)

end Literals

/-- An unsigned word in a map in a list is written, and the same number of a larger type is not. -/
theorem Value.quotesAlike_iff_nested :
    let style : LiteralStyle := ⟨true, false⟩
    let v : Value := .list [.int 5, .map [("a", .uint 9223372036854775808)]]
    let v' : Value := .list [.bigint 5, .map [("a", .bigint 9223372036854775808)]]
    v.SameIntegers v' ∧ v.FragmentFree ∧ ¬QuotesAlike style v v' ∧
      ∃ text, v.quote style = .ok text := by
  intro style v v'
  have hsame : v.SameIntegers v' :=
    .list (.cons (.integer rfl rfl) (.cons (.map (.cons (.integer rfl rfl) .nil)) .nil))
  have hfree : v.FragmentFree := ⟨trivial, ⟨trivial, trivial⟩, trivial⟩
  have hfive : (Value.int 5).InRange :=
    (inRange_of_integer_eq rfl).mpr (Literal.isInRange_toInt 5)
  have hpasses : v.PassesRange :=
    ⟨inRange_of_integer_none rfl, .inr hfive, ⟨.inl ⟨_, rfl⟩, trivial⟩, trivial⟩
  have hfails : ¬v'.PassesRange := by
    rintro ⟨-, -, ⟨⟨n, hn⟩ | hlarge, -⟩, -⟩
    · cases hn
    · exact absurd (hlarge _ rfl).2 (by decide)
  obtain ⟨halike, htext⟩ := quotesAlike_iff hsame hfree style
  refine ⟨hsame, hfree, fun hboth => ?_, htext.mpr ⟨hpasses, by simp [v], by simp [v]⟩⟩
  exact hfails ((halike.mp hboth).2.mp hpasses)

end SqlTemplate
