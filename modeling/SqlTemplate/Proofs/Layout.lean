import Mathlib.Data.List.Basic
import SqlTemplate.Proofs.Concatenation

/-!
# Clauses and their texts

A statement is put together as a fragment: every clause adds literal texts and holes at its end, and
what a hole asks for is found out later, from the bytes on both sides of it. A clause therefore has a
text of its own only if what follows it does not change what its last hole asks for. `Means` says
that the bits of a clause write a given text, whatever follows, as long as that begins with one of
some bytes; clauses that keep to this can be put one after the other.
-/

namespace SqlTemplate

/-! ### Bits -/

/-- A literal text or a hole. -/
inductive Bit where
  | text (sql : String)
  | hole (value : Value)

/-- The literal text before the first hole. -/
def headOf : List Bit → String
  | .text sql :: rest => sql ++ headOf rest
  | _ => ""

/-- The holes, each with the literal text up to the next one. -/
def holesOf : List Bit → List (Value × String)
  | [] => []
  | .text _ :: rest => holesOf rest
  | .hole value :: rest => (value, headOf rest) :: holesOf rest

theorem headOf_concat_text (bits : List Bit) (sql : String) :
    headOf (bits ++ [.text sql]) = if holesOf bits = [] then headOf bits ++ sql else headOf bits := by
  induction bits with
  | nil => simp [headOf, holesOf]
  | cons bit rest ih =>
    cases bit with
    | text other =>
      rw [List.cons_append, headOf, ih, holesOf, headOf]
      split
      · rw [String.append_assoc]
      · rfl
    | hole value => simp [headOf, holesOf]

theorem holesOf_concat_text (bits : List Bit) (sql : String) :
    holesOf (bits ++ [.text sql]) = Fragment.extendLast sql (holesOf bits) := by
  induction bits with
  | nil => rfl
  | cons bit rest ih =>
    cases bit with
    | text other => exact ih
    | hole value =>
      rw [List.cons_append, holesOf, ih, headOf_concat_text, holesOf]
      cases holesOf rest with
      | nil => rfl
      | cons hole later => rfl

theorem headOf_concat_hole (bits : List Bit) (value : Value) :
    headOf (bits ++ [.hole value]) = headOf bits := by
  induction bits with
  | nil => rfl
  | cons bit rest ih =>
    cases bit with
    | text sql => exact congrArg (sql ++ ·) ih
    | hole _ => rfl

theorem holesOf_concat_hole (bits : List Bit) (value : Value) :
    holesOf (bits ++ [.hole value]) = holesOf bits ++ [(value, "")] := by
  induction bits with
  | nil => rfl
  | cons bit rest ih =>
    cases bit with
    | text sql => exact ih
    | hole other =>
      rw [List.cons_append, holesOf, ih, headOf_concat_hole]
      rfl

namespace Fragment

def pushBit (f : Fragment) : Bit → Fragment
  | .text sql => f.pushSql sql
  | .hole value => f.pushParam value

def pushBits (f : Fragment) (bits : List Bit) : Fragment := bits.foldl pushBit f

theorem pushBits_append (f : Fragment) (bits bits' : List Bit) :
    f.pushBits (bits ++ bits') = (f.pushBits bits).pushBits bits' :=
  List.foldl_append

theorem pushBits_text (f : Fragment) (sql : String) (bits : List Bit) :
    f.pushBits (.text sql :: bits) = (f.pushSql sql).pushBits bits := rfl

theorem pushSql_eq (f : Fragment) (sql : String) :
    (f.pushSql sql).settings = f.settings ∧ (f.pushSql sql).holes = extendLast sql f.holes ∧
      (f.pushSql sql).head = if f.holes = [] then f.head ++ sql else f.head := by
  unfold pushSql
  split
  · rename_i hnil
    rw [hnil]
    exact ⟨rfl, rfl, rfl⟩
  · rename_i hne
    exact ⟨rfl, rfl, (if_neg hne).symm⟩

/-- The chunks of a fragment that is put together from bits. -/
theorem pushBits_empty (s : Settings) (bits : List Bit) :
    ((empty s).pushBits bits).settings = s ∧ ((empty s).pushBits bits).head = headOf bits ∧
      ((empty s).pushBits bits).holes = holesOf bits := by
  induction bits using List.reverseRecOn with
  | nil => exact ⟨rfl, rfl, rfl⟩
  | append_singleton bits bit ih =>
    obtain ⟨hsettings, hhead, hholes⟩ := ih
    rw [pushBits_append]
    show (((empty s).pushBits bits).pushBit bit).settings = s ∧ _ ∧ _
    cases bit with
    | text sql =>
      obtain ⟨hsettings', hholes', hhead'⟩ := ((empty s).pushBits bits).pushSql_eq sql
      rw [headOf_concat_text, holesOf_concat_text, ← hholes, ← hhead]
      exact ⟨hsettings'.trans hsettings, hhead', hholes'⟩
    | hole value =>
      rw [headOf_concat_hole, holesOf_concat_hole, ← hholes, ← hhead]
      exact ⟨hsettings, rfl, rfl⟩

end Fragment

/-! ### Texts put together -/

/-- Texts one after the other, if there are all of them. -/
def textOf (parts : List (Except Error Bytes)) : Except Error Bytes :=
  List.flatten <$> parts.mapM id

/-- Texts with a separator between them, if there are all of them. -/
def joined (separator : String) (parts : List (Except Error Bytes)) : Except Error Bytes :=
  (utf8 separator).intercalate <$> parts.mapM id

theorem textOf_cons (part : Except Error Bytes) (rest : List (Except Error Bytes)) :
    textOf (part :: rest) = (do return (← part) ++ (← textOf rest)) := by
  unfold textOf
  rw [List.mapM_cons]
  cases part with
  | error e => rfl
  | ok own =>
    cases rest.mapM id with
    | error e => rfl
    | ok later => rfl

theorem textOf_singleton (part : Except Error Bytes) : textOf [part] = part := by
  rw [textOf_cons]
  cases part with
  | error e => rfl
  | ok own => exact congrArg Except.ok (List.append_nil own)

theorem intercalate_cons {α : Type} (separator first : List α) (rest : List (List α)) :
    separator.intercalate (first :: rest) = first ++ rest.flatMap (separator ++ ·) := by
  induction rest generalizing first with
  | nil => simp [List.intercalate]
  | cons second rest ih =>
    rw [List.intercalate_cons_cons, ih, List.flatMap_cons]
    simp only [List.append_assoc]

/-- A text, and each of the others with the separator before it. -/
theorem joined_cons (separator : String) (part : Except Error Bytes)
    (rest : List (Except Error Bytes)) :
    joined separator (part :: rest) =
      (do return (← part) ++ (← textOf (rest.map fun other => do
        return utf8 separator ++ (← other)))) := by
  have hrest : textOf (rest.map fun other => do return utf8 separator ++ (← other))
      = (rest.mapM id).map (·.flatMap (utf8 separator ++ ·)) := by
    induction rest with
    | nil => rfl
    | cons other rest ih =>
      rw [List.map_cons, textOf_cons, ih, List.mapM_cons]
      cases other with
      | error e => rfl
      | ok own =>
        cases rest.mapM id with
        | error e => rfl
        | ok later => rfl
  unfold joined
  rw [hrest, List.mapM_cons]
  cases part with
  | error e => rfl
  | ok own =>
    cases rest.mapM id with
    | error e => rfl
    | ok later => exact congrArg Except.ok (intercalate_cons _ _ _)

/-! ### The bits of a text -/

/-- These bits, the first hole of which stands under the qualifier `captured`, render to a text. -/
def Renders (s : Settings) (captured : Option String) (bits : List Bit) (text : Bytes) : Prop :=
  Concatenates s captured (utf8 (headOf bits)) (holesOf bits) text

/-- The text of a fragment is what its bits render to. -/
theorem toSql_eq_ok_iff {s : Settings} {bits : List Bit} {sql : String} :
    ((Fragment.empty s).pushBits bits).toSql = .ok sql ↔ Renders s none bits (utf8 sql) := by
  obtain ⟨hsettings, hhead, hholes⟩ := Fragment.pushBits_empty s bits
  have hiff := concatenates_iff s 0 none 0 (utf8 (headOf bits)) [] (holesOf bits) (utf8 sql)
    fun b _ => Iff.rfl
  constructor
  · intro h
    have hresult := Fragment.result_of_toSql h
    rw [hsettings, hhead, hholes] at hresult
    exact hiff.mpr ⟨_, rfl, hresult⟩
  · intro h
    obtain ⟨out, hout, hresult⟩ := hiff.mp h
    rw [List.nil_append] at hout
    rw [← hout, ← hsettings, ← hhead, ← hholes] at hresult
    obtain ⟨sql', hsql', hbytes⟩ := Fragment.toSql_of_result hresult (isText_utf8 sql)
    rwa [← utf8_injective hbytes]

/-- Literal texts alone. -/
theorem renders_iff_of_holes_nil {s : Settings} {captured : Option String} {bits : List Bit}
    {text : Bytes} (hholes : holesOf bits = []) :
    Renders s captured bits text ↔ text = utf8 (headOf bits) := by
  unfold Renders
  rw [hholes]
  constructor
  · intro h
    cases h
    rfl
  · rintro rfl
    exact .last

/-- The texts around a hole leave it one kind. -/
theorem Stands.unique {written next : Bytes} {hole hole' : Hole} (h : Stands written next hole)
    (h' : Stands written next hole') : hole = hole' :=
  Except.ok.inj (((Hole.find_eq_ok_iff 0).mpr h).symm.trans ((Hole.find_eq_ok_iff 0).mpr h'))

/-- What is written for the first hole, when it is known what it asks for. -/
theorem concatenates_cons_iff {s : Settings} {captured : Option String} {written text : Bytes}
    {value : Value} {next : String} {rest : List (Value × String)} {hole : Hole}
    (hstands : Stands written (utf8 next) hole) :
    Concatenates s captured written ((value, next) :: rest) text ↔
      ∃ own later, hole.piece s captured value = .ok own ∧
        text = hole.before written ++ own ++ later ∧
        Concatenates s (hole.captures value) (hole.remains value (utf8 next)) rest later := by
  constructor
  · intro h
    cases h with
    | hole hstands' hpiece hrest =>
      obtain rfl := hstands.unique hstands'
      exact ⟨_, _, hpiece, rfl, hrest⟩
  · rintro ⟨own, later, hown, rfl, hlater⟩
    exact .hole hstands hown hlater

/-- A text is written as it is if the next hole is enclosed by what comes after the text. -/
theorem concatenates_append_of_kept {s : Settings} {captured : Option String}
    {front written text : Bytes} {holes : List (Value × String)}
    (hkept : ∀ b, Hole.isOpener b = true →
      ((front ++ written).getLast? = some b ↔ written.getLast? = some b)) :
    Concatenates s captured (front ++ written) holes text ↔
      ∃ later, text = front ++ later ∧ Concatenates s captured written holes later := by
  have hown := fun later =>
    concatenates_iff s 0 captured 0 written [] holes later fun b _ => Iff.rfl
  refine (concatenates_iff s 0 captured 0 written front holes text hkept).trans ?_
  constructor
  · rintro ⟨later, rfl, hlater⟩
    exact ⟨later, rfl, (hown later).mpr ⟨later, rfl, hlater⟩⟩
  · rintro ⟨later, rfl, hlater⟩
    obtain ⟨_, rfl, hresult⟩ := (hown later).mp hlater
    exact ⟨_, rfl, hresult⟩

/-- A text that does not open an enclosure leaves it to what comes after whether one is opened. -/
theorem kept_of_any_eq_false {front : Bytes} (hfront : front.getLast?.any Hole.isOpener = false)
    (written : Bytes) (b : UInt8) (hb : Hole.isOpener b = true) :
    (front ++ written).getLast? = some b ↔ written.getLast? = some b := by
  rw [List.getLast?_append]
  cases hwritten : written.getLast? with
  | some last => rfl
  | none =>
    constructor
    · intro hlast
      rw [show front.getLast? = some b from hlast] at hfront
      exact absurd (hfront.symm.trans hb) Bool.false_ne_true
    · intro hnone
      cases hnone

/-- A text that does not open an enclosure is written as it is. -/
theorem concatenates_append_iff {s : Settings} {captured : Option String}
    {front written text : Bytes} {holes : List (Value × String)}
    (hfront : front.getLast?.any Hole.isOpener = false) :
    Concatenates s captured (front ++ written) holes text ↔
      ∃ later, text = front ++ later ∧ Concatenates s captured written holes later :=
  concatenates_append_of_kept (kept_of_any_eq_false hfront written)

/-! ### What clauses mean -/

/-- The bytes that bits may begin with. -/
def StartsIn (allowed : List UInt8) (bits : List Bit) : Prop :=
  ∀ b ∈ (utf8 (headOf bits)).head?, b ∈ allowed

/-- Whatever bits follow these, beginning with an allowed byte, these write what `spec` gives, and
fail where it fails. -/
def Means (s : Settings) (captured : Option String) (allowed : List UInt8) (bits : List Bit)
    (spec : Except Error Bytes) : Prop :=
  ∀ rest text, StartsIn allowed rest → (Renders s captured (bits ++ rest) text ↔
    ∃ own later, spec = .ok own ∧ text = own ++ later ∧ Renders s none rest later)

/-- A hole between two texts that enclose it, before whatever comes next. What it leaves of them
stays around its own text. -/
theorem renders_enclosed_iff {s : Settings} {captured : Option String} {opener closer : String}
    {o : UInt8} {value : Value} {hole : Hole} {front back text : Bytes} {rest : List Bit}
    (hlast : (utf8 opener).getLast? = some o)
    (hencloses : Encloses (utf8 closer ++ utf8 (headOf rest)) o hole)
    (hcaptures : hole.captures value = none) (hbefore : hole.before (utf8 opener) = front)
    (hremains : hole.remains value (utf8 closer ++ utf8 (headOf rest)) =
      back ++ utf8 (headOf rest))
    (hback : back.getLast?.any Hole.isOpener = false) :
    Renders s captured ([.text opener, .hole value, .text closer] ++ rest) text ↔
      ∃ own later, (hole.piece s captured value).map (fun own => front ++ own ++ back) = .ok own ∧
        text = own ++ later ∧ Renders s none rest later := by
  unfold Renders
  rw [List.cons_append, List.cons_append, List.cons_append, List.nil_append]
  simp only [headOf, holesOf, String.append_empty]
  rw [← utf8_append] at hencloses hremains
  rw [concatenates_cons_iff (.enclosed hlast hencloses), hremains, hcaptures, hbefore]
  simp only [concatenates_append_iff hback]
  constructor
  · rintro ⟨own, remains, hown, rfl, later, rfl, hlater⟩
    refine ⟨front ++ own ++ back, later, ?_, (List.append_assoc _ back later).symm, hlater⟩
    rw [hown]
    rfl
  · rintro ⟨all, later, hall, rfl, hlater⟩
    cases hown : hole.piece s captured value with
    | error e =>
      rw [hown] at hall
      cases hall
    | ok own =>
      rw [hown] at hall
      cases hall
      exact ⟨own, back ++ later, rfl, List.append_assoc _ back later, later, rfl, hlater⟩

/-- The bits begin with an allowed byte, or there are none. -/
def Leads (allowed : List UInt8) (bits : List Bit) : Prop :=
  ∀ rest, StartsIn allowed rest → StartsIn allowed (bits ++ rest)

theorem leads_nil (allowed : List UInt8) : Leads allowed [] := fun _ h => h

theorem startsIn_text {allowed : List UInt8} {sql : String} {b : UInt8}
    (hhead : (utf8 sql).head? = some b) (hb : b ∈ allowed) (rest : List Bit) :
    StartsIn allowed (.text sql :: rest) := by
  intro c hc
  have hne : utf8 sql ≠ [] := by
    intro hnil
    rw [hnil] at hhead
    cases hhead
  rw [headOf, utf8_append, List.head?_append_of_ne_nil _ hne, hhead] at hc
  cases hc
  exact hb

theorem leads_text {allowed : List UInt8} {sql : String} {b : UInt8}
    (hhead : (utf8 sql).head? = some b) (hb : b ∈ allowed) (rest : List Bit) :
    Leads allowed (.text sql :: rest) := fun _ _ => startsIn_text hhead hb _

namespace Means

variable {s : Settings} {captured : Option String} {allowed : List UInt8} {bits bits' : List Bit}
  {spec spec' : Except Error Bytes}

theorem mono {allowed' : List UInt8} (h : Means s captured allowed bits spec)
    (hsubset : allowed' ⊆ allowed) : Means s captured allowed' bits spec :=
  fun rest text hrest => h rest text fun b hb => hsubset (hrest b hb)

/-- Bits before others that begin as these ask for, whatever the others ask for themselves. -/
theorem followed {allowed' : List UInt8} (h : Means s captured allowed bits spec)
    (h' : Means s none allowed' bits' spec')
    (hstarts : ∀ rest, StartsIn allowed' rest → StartsIn allowed (bits' ++ rest)) :
    Means s captured allowed' (bits ++ bits') (do return (← spec) ++ (← spec')) := by
  intro rest text hrest
  rw [List.append_assoc, h _ _ (hstarts rest hrest)]
  constructor
  · rintro ⟨own, later, rfl, rfl, hlater⟩
    obtain ⟨own', later', rfl, rfl, hlater'⟩ := (h' _ _ hrest).mp hlater
    exact ⟨own ++ own', later', rfl, (List.append_assoc _ _ _).symm, hlater'⟩
  · rintro ⟨both, later, hboth, rfl, hlater⟩
    obtain ⟨own, hown, hboth⟩ := bind_eq_ok hboth
    obtain ⟨own', hown', hboth⟩ := bind_eq_ok hboth
    cases hboth
    exact ⟨own, own' ++ later, hown, List.append_assoc _ _ _,
      (h' _ _ hrest).mpr ⟨own', later, hown', rfl, hlater⟩⟩

theorem append (h : Means s captured allowed bits spec) (h' : Means s none allowed bits' spec')
    (hleads : Leads allowed bits') :
    Means s captured allowed (bits ++ bits') (do return (← spec) ++ (← spec')) :=
  h.followed h' hleads

/-- No bits. -/
theorem nil : Means s none allowed [] (.ok []) := by
  intro rest text _
  constructor
  · exact fun h => ⟨[], text, rfl, rfl, h⟩
  · rintro ⟨own, later, hown, rfl, hlater⟩
    cases hown
    exact hlater

/-- A literal text, if the next hole is enclosed by what comes after the text. -/
theorem text_of_kept {sql : String}
    (hkept : ∀ rest, StartsIn allowed rest → ∀ b, Hole.isOpener b = true →
      ((utf8 sql ++ utf8 (headOf (bits ++ rest))).getLast? = some b ↔
        (utf8 (headOf (bits ++ rest))).getLast? = some b))
    (h : Means s none allowed bits spec) :
    Means s none allowed (.text sql :: bits) (do return utf8 sql ++ (← spec)) := by
  intro rest text hrest
  unfold Renders
  rw [List.cons_append, headOf, holesOf, utf8_append, concatenates_append_of_kept (hkept rest hrest)]
  constructor
  · rintro ⟨inner, rfl, hinner⟩
    obtain ⟨own, later, rfl, rfl, hlater⟩ := (h rest inner hrest).mp hinner
    exact ⟨utf8 sql ++ own, later, rfl, (List.append_assoc _ _ _).symm, hlater⟩
  · rintro ⟨all, later, hall, rfl, hlater⟩
    obtain ⟨own, hown, hall⟩ := bind_eq_ok hall
    cases hall
    exact ⟨own ++ later, List.append_assoc _ _ _,
      (h rest _ hrest).mpr ⟨own, later, hown, rfl, hlater⟩⟩

/-- A literal text that does not open an enclosure, whatever follows. -/
theorem text_cons {sql : String} (hsql : (utf8 sql).getLast?.any Hole.isOpener = false)
    (h : Means s none allowed bits spec) :
    Means s none allowed (.text sql :: bits) (do return utf8 sql ++ (← spec)) :=
  h.text_of_kept fun _ _ => kept_of_any_eq_false hsql _

/-- A literal text right before another one, whatever byte it ends in. -/
theorem text_text {sql next : String} (hnext : utf8 next ≠ [])
    (h : Means s none allowed (.text next :: bits) spec) :
    Means s none allowed (.text sql :: .text next :: bits) (do return utf8 sql ++ (← spec)) := by
  refine h.text_of_kept fun rest _ b _ => ?_
  have hne : utf8 (headOf (.text next :: bits ++ rest)) ≠ [] := by
    rw [List.cons_append, headOf, utf8_append]
    exact List.append_ne_nil_of_left_ne_nil hnext _
  rw [List.getLast?_append_of_ne_nil _ hne]

/-- A hole between two bytes that enclose it. What it leaves of them stays around its text. -/
theorem enclosed {opener closer : String} {o c : UInt8} {value : Value} {hole : Hole}
    {front back : Bytes} (hopener : utf8 opener = [o]) (hcloser : utf8 closer = [c])
    (hencloses : ∀ next : Bytes, (∀ b ∈ next.head?, b ∈ allowed) → Encloses (c :: next) o hole)
    (hcaptures : hole.captures value = none) (hbefore : hole.before [o] = front)
    (hremains : ∀ next, hole.remains value (c :: next) = back ++ next)
    (hback : back.getLast?.any Hole.isOpener = false) :
    Means s captured allowed [.text opener, .hole value, .text closer]
      ((hole.piece s captured value).map fun own => front ++ own ++ back) := by
  intro rest text hrest
  have hlast : (utf8 opener).getLast? = some o := by
    rw [hopener]
    rfl
  have hnext : utf8 closer ++ utf8 (headOf rest) = c :: utf8 (headOf rest) := by
    rw [hcloser]
    rfl
  refine renders_enclosed_iff hlast ?_ hcaptures (hopener ▸ hbefore) ?_ hback
  · rw [hnext]
    exact hencloses _ hrest
  · rw [hnext]
    exact hremains _

/-- A name between quotes. -/
theorem name (hmarks : Byte.star ∉ allowed ∧ Byte.plus ∉ allowed ∧ Byte.comma ∉ allowed)
    (name : String) :
    Means s none allowed [.text "\"", .hole (.str name), .text "\""]
      (.ok (Name.write s.nameQuote none name)) := by
  have hquote : utf8 "\"" = [Byte.doubleQuote] := rfl
  have hname := @enclosed s none allowed "\"" "\"" _ _ (.str name) .name [] [] hquote hquote
    ?_ rfl rfl (fun _ => rfl) rfl
  · simp only [List.nil_append, List.append_nil] at hname
    exact hname
  · intro next hnext
    refine .name (.inr rfl) rfl ?_
    intro b hb
    have hallowed := hnext b (List.head?_eq_getElem? ▸ hb)
    exact ⟨fun heq => hmarks.1 (heq ▸ hallowed), fun heq => hmarks.2.1 (heq ▸ hallowed),
      fun heq => hmarks.2.2 (heq ▸ hallowed)⟩

/-- A name between quotes in a list. The comma after it makes the hole one for several names, but the
comma stays. -/
theorem listed_name (name : String) :
    Means s none [Byte.comma] [.text "\"", .hole (.str name), .text "\""]
      (.ok (Name.write s.nameQuote none name)) := by
  intro rest text hrest
  cases hhead : (utf8 (headOf rest)).head? with
  | none =>
    have hnone : StartsIn [] rest := by
      intro b hb
      rw [hhead] at hb
      cases hb
    exact Means.name (by decide) name rest text hnone
  | some b =>
    obtain rfl : b = Byte.comma := List.mem_singleton.mp (hrest b hhead)
    have hpiece : (Hole.names .optional).piece s none (.str name)
        = .ok (Name.write s.nameQuote none name) := by
      rw [Hole.piece, Render.namesOf, ok_bind, if_neg (List.cons_ne_nil _ _), List.map_singleton,
        List.intercalate_singleton]
    have hmark : (utf8 "\"" ++ utf8 (headOf rest))[1]? = some Byte.comma := by
      rw [← hhead, List.head?_eq_getElem?]
      rfl
    have hencloses := Encloses.optional (.inr rfl) rfl hmark
    have hlisted := @renders_enclosed_iff s none "\"" "\"" _ (.str name) _ [] [] text rest
      rfl hencloses rfl rfl rfl rfl
    rw [hpiece] at hlisted
    simpa [Except.map] using hlisted

/-- A value in parentheses. -/
theorem parenthesized (value : Value) :
    Means s captured allowed [.text "(", .hole value, .text ")"]
      ((Hole.expression.piece s captured value).map fun own =>
        [Byte.openParen] ++ own ++ [Byte.closeParen]) :=
  enclosed rfl rfl (fun _ _ => .expression rfl) (by rfl) rfl (fun _ => rfl) rfl

/-- Conditions that must all hold. -/
theorem conditions (value : Value) :
    Means s captured allowed [.text "\x7b", .hole value, .text "&"]
      ((Hole.conditions true).piece s captured value) := by
  have hconditions := @enclosed s captured allowed "\x7b" "&" _ _ value (.conditions true) [] []
    rfl rfl (fun _ _ => .all rfl) rfl rfl (fun _ => rfl) rfl
  have hplain : ∀ result : Except Error Bytes, result.map (fun own => [] ++ own ++ []) = result := by
    intro result
    cases result with
    | error e => rfl
    | ok own => simp [Except.map]
  rw [hplain] at hconditions
  exact hconditions

/-- A text that nothing encloses. -/
theorem bare (hdot : Byte.dot ∉ allowed) (item : String) :
    Means s captured allowed [.hole (.str item)]
      ((sanitize item captured s .chunk).map utf8) := by
  intro rest text hrest
  have hstands : Stands (utf8 "") (utf8 (headOf rest)) .bare := by
    refine .bare nofun ?_
    intro hhead
    exact hdot (hrest _ hhead)
  unfold Renders
  rw [List.singleton_append, holesOf]
  exact (concatenates_cons_iff hstands).trans (by rw [Hole.piece_bare_str]; rfl)

end Means

/-- A hole for a qualifier, if there is one. -/
def qualifierBits : Option String → List Bit
  | none => []
  | some qualifier => [.hole (.str qualifier), .text "."]

/-- What stands under a qualifier, after the qualifier. -/
theorem Means.qualified {s : Settings} {allowed : List UInt8} {bits : List Bit}
    {spec : Except Error Bytes} {qualifier : Option String}
    (h : Means s qualifier allowed bits spec) :
    Means s none allowed (qualifierBits qualifier ++ bits) spec := by
  cases qualifier with
  | none => exact h
  | some qualifier =>
    intro rest text hrest
    have hnext : utf8 (headOf (.text "." :: (bits ++ rest)))
        = Byte.dot :: utf8 (headOf (bits ++ rest)) := by
      rw [headOf, utf8_append, show utf8 "." = [Byte.dot] from rfl]
      rfl
    have hstands : Stands (utf8 "") (utf8 (headOf (.text "." :: (bits ++ rest)))) .qualifier := by
      refine .qualifier nofun ?_
      rw [hnext]
      rfl
    rw [← h rest text hrest]
    unfold Renders
    rw [qualifierBits, List.append_assoc, List.cons_append, List.cons_append, List.nil_append,
      holesOf]
    refine (concatenates_cons_iff hstands).trans ?_
    rw [hnext]
    constructor
    · rintro ⟨own, inner, hnothing, rfl, hinner⟩
      cases hnothing
      exact hinner
    · exact fun hinner => ⟨[], text, rfl, rfl, hinner⟩

/-! ### Several clauses -/

section Several

variable {α : Type} {s : Settings} {allowed : List UInt8} {items : List α}
  {bitsOf : α → List Bit} {specOf : α → Except Error Bytes}

theorem Leads.append {bits bits' : List Bit} (h : Leads allowed bits) (h' : Leads allowed bits') :
    Leads allowed (bits ++ bits') := by
  intro rest hrest
  rw [List.append_assoc]
  exact h _ (h' rest hrest)

theorem leads_flatMap (h : ∀ item ∈ items, Leads allowed (bitsOf item)) :
    Leads allowed (items.flatMap bitsOf) := by
  induction items with
  | nil => exact leads_nil allowed
  | cons item rest ih =>
    obtain ⟨hitem, hrest⟩ := List.forall_mem_cons.mp h
    rw [List.flatMap_cons]
    exact hitem.append (ih hrest)

theorem Means.flatMap (h : ∀ item ∈ items, Means s none allowed (bitsOf item) (specOf item))
    (hleads : ∀ item ∈ items, Leads allowed (bitsOf item)) :
    Means s none allowed (items.flatMap bitsOf) (textOf (items.map specOf)) := by
  induction items with
  | nil => exact .nil
  | cons item rest ih =>
    obtain ⟨hitem, hrest⟩ := List.forall_mem_cons.mp h
    obtain ⟨-, hleads'⟩ := List.forall_mem_cons.mp hleads
    rw [List.flatMap_cons, List.map_cons, textOf_cons]
    exact hitem.append (ih hrest hleads') (leads_flatMap hleads')

/-- Items with a separator between them. -/
theorem Means.intercalate {separator : String} {b : UInt8}
    (hhead : (utf8 separator).head? = some b) (hb : b ∈ allowed)
    (hlast : (utf8 separator).getLast?.any Hole.isOpener = false)
    (h : ∀ item ∈ items, Means s none allowed (bitsOf item) (specOf item)) :
    Means s none allowed ([Bit.text separator].intercalate (items.map bitsOf))
      (joined separator (items.map specOf)) := by
  cases items with
  | nil => exact .nil
  | cons item rest =>
    obtain ⟨hitem, hrest⟩ := List.forall_mem_cons.mp h
    rw [List.map_cons, List.map_cons, intercalate_cons, joined_cons, List.flatMap_map, List.map_map]
    refine hitem.append ?_ (leads_flatMap fun other _ => leads_text hhead hb _)
    exact .flatMap (fun other hother => (hrest other hother).text_cons hlast)
      fun other _ => leads_text hhead hb _

end Several

end SqlTemplate
