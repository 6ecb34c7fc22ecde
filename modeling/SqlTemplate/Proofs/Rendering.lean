import SqlTemplate.Proofs.Concatenation
import SqlTemplate.Proofs.Parts

/-!
# Rendering into a buffer

A fragment may be rendered to the end of a buffer that holds a statement already. While it is, bytes
of the buffer are taken back and moved; but a fragment has a piece of its own
(`Fragment.piece`), and by `Fragment.renderInto_eq` the buffer decides nothing: rendering appends the
text of the piece, or, after an error, leaves the buffer as it was. A hole that encloses its value
can be looked at apart from the rest of the fragment (`Fragment.rendersAround`).
-/

namespace SqlTemplate

open Render

namespace Fragment

/-- What a fragment writes on its own, under settings `s`. -/
def piece (s : Settings) (f : Fragment) : Piece Bytes :=
  pieceFrom s none 0 none 0 (utf8 f.head) f.holes

theorem grows_piece (s : Settings) (f : Fragment) : (f.piece s).Grows :=
  grows_pieceFrom (isLocal_holes s f.holes)

/-- Rendering appends the text of the piece, or nothing, to whatever the buffer holds. -/
theorem renderInto_eq (f : Fragment) (out : Buffer) (sink : Sink) (options : Options) :
    let given := (f.piece (options.settings f.settings)).result sink
    (f.renderInto out sink options).result = given.1.map (fun _ => ()) ∧
      (f.renderInto out sink options).sink = given.2 ∧
      (f.renderInto out sink options).out.toList = out.toList ++ given.1.toOption.getD [] := by
  have hstart : (Canvas.start (out.reserve f.sizeHint) sink).out.toList = out.toList :=
    Buffer.toList_reserve out f.sizeHint
  have hawaits : (Canvas.start (out.reserve f.sizeHint) sink).Awaits (utf8 f.head) out.toList 0 := by
    refine ⟨?_, fun b _ => Iff.rfl⟩
    rw [hstart]
    rfl
  have hwrote := renderFrom_wrote (options.settings f.settings) none 0
    (isLocal_holes (options.settings f.settings) f.holes) hawaits
  change WroteFrom _ _ ((f.piece (options.settings f.settings)).result sink)
    ((f.render (options.settings f.settings) none).run (.start (out.reserve f.sizeHint) sink)).run
    at hwrote
  unfold renderInto
  dsimp only
  generalize ((f.render (options.settings f.settings) none).run
    (.start (out.reserve f.sizeHint) sink)).run = left at hwrote ⊢
  generalize (f.piece (options.settings f.settings)).result sink = given at hwrote ⊢
  cases hwrote with
  | ok hclosing hsink hout => exact ⟨rfl, hsink, hout⟩
  | error hsink hout =>
    refine ⟨rfl, hsink, ?_⟩
    rw [hstart] at hout
    obtain ⟨more, hmore⟩ := hout
    change (Buffer.truncate _ _).toList = out.toList ++ []
    rw [Buffer.toList_truncate, ← hmore, List.append_nil]
    exact List.take_left' rfl

/-- Rendering succeeds iff there is a piece, and appends its text. -/
theorem renderInto_ok (f : Fragment) (out : Buffer) (sink : Sink) :
    let rendered := f.renderInto out sink {}
    (rendered.result = .ok () ↔
      ∃ bytes sink', (f.piece f.settings).result sink = (.ok bytes, sink')) ∧
      ∀ bytes sink', (f.piece f.settings).result sink = (.ok bytes, sink') →
        rendered.out.toList = out.toList ++ bytes ∧ rendered.sink = sink' := by
  intro rendered
  obtain ⟨hresult, hsink, hout⟩ := f.renderInto_eq out sink {}
  change rendered.result = ((f.piece f.settings).result sink).1.map _ at hresult
  change rendered.sink = ((f.piece f.settings).result sink).2 at hsink
  change rendered.out.toList = out.toList ++ ((f.piece f.settings).result sink).1.toOption.getD []
    at hout
  rcases hgiven : (f.piece f.settings).result sink with ⟨_ | bytes, sink'⟩ <;>
    rw [hgiven] at hresult hsink hout
  · refine ⟨iff_of_false ?_ ?_, ?_⟩
    · rw [hresult]
      rintro ⟨⟩
    · rintro ⟨_, _, ⟨⟩⟩
    · rintro _ _ ⟨⟩
  · refine ⟨iff_of_true hresult ⟨bytes, sink', rfl⟩, ?_⟩
    rintro _ _ ⟨⟩
    exact ⟨hout, hsink⟩

/-! ### A single hole -/

/-- A chunk with the last hole of a fragment is the piece of the hole between two texts. -/
theorem pieceFrom_singleton {s : Settings} {inherited : Option String} {index : Nat}
    {captured : Option String} {skipped : Nat} {chunk : Bytes} {value : Value} {following : String}
    {hole : Hole}
    (hfind : Hole.find index (chunk.drop skipped).getLast? (utf8 following) = .ok hole) :
    pieceFrom s inherited index captured skipped chunk [(value, following)] =
      (pure (hole.front (chunk.drop skipped)) : Piece Bytes).append
        (((Filling.ofValue s value).piece s (captured.or inherited) (utf8 following) hole).append
          (pure ((utf8 following).drop (hole.skips (utf8 following))))) := by
  rw [pieceFrom_cons, hfind]
  rfl

/-- A fragment that encloses its only hole is the piece of the hole between the texts around the
enclosure. -/
theorem piece_enclosed {s : Settings} {front opener closing back : String} {o : UInt8}
    {hole : Hole} {value : Value} {sizeHint : Nat} (hopener : utf8 opener = [o])
    (hfind : Hole.find 0 (some o) (utf8 (closing ++ back)) = .ok hole) (hopens : hole.opens = 1)
    (hskips : hole.skips (utf8 (closing ++ back)) = (utf8 closing).length) :
    piece s ⟨s, front ++ opener, [(value, closing ++ back)], sizeHint⟩ =
      (pure (utf8 front) : Piece Bytes).append
        (((Filling.ofValue s value).piece s none (utf8 (closing ++ back)) hole).append
          (pure (utf8 back))) := by
  have hopen : utf8 (front ++ opener) = utf8 front ++ [o] := by rw [utf8_append, hopener]
  have hfound : Hole.find 0 ((utf8 (front ++ opener)).drop 0).getLast? (utf8 (closing ++ back))
      = .ok hole := by
    rw [List.drop_zero, hopen, List.getLast?_concat]
    exact hfind
  have hback : (utf8 (closing ++ back)).drop (hole.skips (utf8 (closing ++ back))) = utf8 back := by
    rw [hskips, utf8_append]
    exact List.drop_left' rfl
  rw [piece, pieceFrom_singleton hfound, List.drop_zero, Hole.front_of_opens hopens, hopen,
    List.dropLast_concat, hback]
  rfl

/-- Rendering a fragment that is a piece between two texts puts these around what the piece is, or
fails with it. -/
theorem renderInto_between {s : Settings} {f : Fragment} {own : Piece Bytes} {front back : Bytes}
    (h : f.piece s = (pure front : Piece Bytes).append (own.append (pure back)))
    (hsettings : f.settings = s) (out : Buffer) (sink : Sink) :
    let given := (own.result sink).1
    let rendered := f.renderInto out sink {}
    rendered.result = given.map (fun _ => ()) ∧ rendered.out.toList
      = out.toList ++ (given.toOption.elim [] fun bytes => front ++ bytes ++ back) := by
  subst hsettings
  intro given rendered
  obtain ⟨hresult, -, hout⟩ := f.renderInto_eq out sink {}
  have hpiece : ((f.piece f.settings).result sink).1
      = given.map fun bytes => front ++ (bytes ++ back) := by
    rw [h, Piece.append, pure_bind, Piece.result_bind, Piece.append, Piece.result_bind]
    show _ = Except.map _ (own.result sink).1
    rcases own.result sink with ⟨_ | bytes, sink'⟩ <;> rfl
  change rendered.result = ((f.piece f.settings).result sink).1.map _ at hresult
  change rendered.out.toList = out.toList ++ ((f.piece f.settings).result sink).1.toOption.getD []
    at hout
  rw [hpiece] at hresult hout
  refine ⟨hresult.trans ?_, hout.trans ?_⟩
  · cases given <;> rfl
  · cases given with
    | error e => rfl
    | ok bytes => exact congrArg (out.toList ++ ·) (List.append_assoc _ _ _).symm

/-! ### A hole among others -/

/-- What a chunk and the holes after it write up to another hole that encloses its value, without the
byte that opens it, and the qualifier that the value stands under. -/
def upTo (s : Settings) (inherited : Option String) (index : Nat) (captured : Option String)
    (skipped : Nat) (chunk : Bytes) : List (Value × String) → Piece (Option String × Bytes)
  | [] => return (captured.or inherited, (chunk.drop skipped).dropLast)
  | (value, following) :: rest => do
    let hole ← liftM (Hole.find index (chunk.drop skipped).getLast? (utf8 following))
    let own ← (Filling.ofValue s value).piece s (captured.or inherited) (utf8 following) hole
    let later ← upTo s inherited (index + 1) (hole.captures value)
      (hole.skips (utf8 following)) (utf8 following) rest
    return (later.1, hole.front (chunk.drop skipped) ++ (own ++ later.2))

/-- What the rest of a fragment writes before and after such a hole. -/
structure Surrounds (s : Settings) (head : String) (earlier : List (Value × String))
    (following : String) (later : List (Value × String)) (sink : Sink)
    (before : Option String × Bytes) (between between' : Sink) (after : Bytes) (sink' : Sink) :
    Prop where
  before_eq : (upTo s none 0 none 0 (utf8 head) earlier).result sink = (.ok before, between)
  after_eq : (pieceFrom s none (earlier.length + 1) none 1 (utf8 following) later).result between' =
    (.ok after, sink')

/-- A fragment with a hole for this value renders iff the value is written there, as `written` says
for each qualifier and sink, and the rest of the fragment around it. -/
def RendersAround (s : Settings) (head : String) (earlier : List (Value × String)) (value : Value)
    (following : String) (later : List (Value × String))
    (written : Option String → Sink → Bytes → Sink → Prop) : Prop :=
  ∀ (sizeHint : Nat) (out : Buffer) (sink : Sink),
    let rendered :=
      renderInto ⟨s, head, earlier ++ (value, following) :: later, sizeHint⟩ out sink {}
    (rendered.result = .ok () ↔ ∃ before between text between' after sink',
      Surrounds s head earlier following later sink before between between' after sink' ∧
        written before.1 between text between') ∧
      ∀ before between text between' after sink',
        Surrounds s head earlier following later sink before between between' after sink' →
        written before.1 between text between' →
          rendered.out.toList = out.toList ++ (before.2 ++ (text ++ after)) ∧
            rendered.sink = sink'

section Among

variable {s : Settings} {o : UInt8} {hole : Hole} {value : Value} {following : String}
  (ho : o ∉ Hole.closers) (hencloses : Encloses (utf8 following) o hole)
  (hopens : hole.opens = 1) (hcaptures : hole.captures value = none)

include ho hencloses hopens hcaptures

/-- The piece of a hole that encloses its value stands between what is written up to it and what the
holes after it write. -/
theorem pieceFrom_among (inherited : Option String) (index : Nat) (captured : Option String)
    {skipped : Nat} {chunk : String} {earlier : List (Value × String)}
    (later : List (Value × String)) (hlast : (utf8 (lastOf chunk earlier)).getLast? = some o)
    (hkept : (utf8 chunk).getLast? = some o → ((utf8 chunk).drop skipped).getLast? = some o) :
    pieceFrom s inherited index captured skipped (utf8 chunk)
        (earlier ++ (value, following) :: later) = (do
      let before ← upTo s inherited index captured skipped (utf8 chunk) earlier
      let own ← (Filling.ofValue s value).piece s before.1 (utf8 following) hole
      let after ← pieceFrom s inherited (index + earlier.length + 1) none
        (hole.skips (utf8 following)) (utf8 following) later
      return before.2 ++ (own ++ after)) := by
  have hfind (index : Nat) : Hole.find index [o].getLast? (utf8 following) = .ok hole :=
    (Hole.find_eq_ok_iff index).mpr (.enclosed rfl hencloses)
  have hliftM (kind : Hole) :
      (liftM (Except.ok kind : Except Error Hole) : Piece Hole) = pure kind := rfl
  induction earlier generalizing index captured skipped chunk with
  | nil =>
    rw [List.nil_append, pieceFrom, hkept hlast, ← List.getLast?_singleton, hfind, hliftM,
      pure_bind, hcaptures, Hole.front_of_opens hopens]
    rfl
  | cons first rest ih =>
    obtain ⟨own, next⟩ := first
    rw [List.cons_append, pieceFrom, upTo]
    cases hstands : Hole.find index ((utf8 chunk).drop skipped).getLast? (utf8 next) with
    | error e => rfl
    | ok kind =>
      have hstands := (Hole.find_eq_ok_iff index).mp hstands
      have hrest := ih (index + 1) (kind.captures own) hlast (hstands.getLast?_drop_skips ho)
      have hindex : index + 1 + rest.length = index + (rest.length + 1) := by omega
      rw [hliftM, pure_bind, pure_bind, hrest, List.length_cons, hindex]
      simp only [bind_assoc, pure_bind, List.append_assoc]

theorem rendersAround (hskips : hole.skips (utf8 following) = 1) {head : String}
    {earlier : List (Value × String)} (later : List (Value × String))
    (hlast : (utf8 (lastOf head earlier)).getLast? = some o) :
    RendersAround s head earlier value following later fun qualifier between text between' =>
      ((Filling.ofValue s value).piece s qualifier (utf8 following) hole).result between =
        (.ok text, between') := by
  intro sizeHint out sink rendered
  have hpiece : piece s ⟨s, head, earlier ++ (value, following) :: later, sizeHint⟩ = _ :=
    pieceFrom_among ho hencloses hopens hcaptures none 0 none later hlast id
  have hgiven : ∀ bytes sink', (piece s ⟨s, head, earlier ++ (value, following) :: later,
      sizeHint⟩).result sink = (.ok bytes, sink') ↔ ∃ before between text between' after,
        Surrounds s head earlier following later sink before between between' after sink' ∧
          ((Filling.ofValue s value).piece s before.1 (utf8 following) hole).result between =
            (.ok text, between') ∧ before.2 ++ (text ++ after) = bytes := by
    intro bytes sink'
    rw [hpiece, Nat.zero_add, hskips, Piece.result_bind_eq_ok_iff]
    simp only [Piece.result_both_eq_ok_iff]
    constructor
    · rintro ⟨before, between, hbefore, text, between', after, htext, hafter, rfl⟩
      exact ⟨before, between, text, between', after, ⟨hbefore, hafter⟩, htext, rfl⟩
    · rintro ⟨before, between, text, between', after, ⟨hbefore, hafter⟩, htext, rfl⟩
      exact ⟨before, between, hbefore, text, between', after, htext, hafter, rfl⟩
  obtain ⟨hresult, hout⟩ := renderInto_ok
    ⟨s, head, earlier ++ (value, following) :: later, sizeHint⟩ out sink
  simp only [hgiven] at hresult hout
  refine ⟨hresult.trans ?_, ?_⟩
  · constructor
    · rintro ⟨_, sink', before, between, text, between', after, haround, htext, -⟩
      exact ⟨before, between, text, between', after, sink', haround, htext⟩
    · rintro ⟨before, between, text, between', after, sink', haround, htext⟩
      exact ⟨_, sink', before, between, text, between', after, haround, htext, rfl⟩
  · intro before between text between' after sink' haround htext
    exact hout _ _ ⟨before, between, text, between', after, haround, htext, rfl⟩

end Among

/-! ### The buffer -/

/-- Rendering appends a text that does not depend on the buffer, or leaves the buffer as it was; and
it puts nothing into the sink but after what is there. -/
theorem renderInto_appends (f : Fragment) (options : Options) (sink : Sink) (out out' : Buffer) :
    let first := f.renderInto out sink options
    let second := f.renderInto out' sink options
    second.result = first.result ∧ second.sink = first.sink ∧ Sink.Extends first.sink sink ∧
      (first.result = .ok () → ∃ text,
        first.out.toList = out.toList ++ text ∧ second.out.toList = out'.toList ++ text) ∧
      ∀ e, first.result = .error e →
        first.out.toList = out.toList ∧ second.out.toList = out'.toList := by
  intro first second
  obtain ⟨hresult, hsink, hout⟩ := f.renderInto_eq out sink options
  obtain ⟨hresult', hsink', hout'⟩ := f.renderInto_eq out' sink options
  refine ⟨hresult'.trans hresult.symm, hsink'.trans hsink.symm, ?_, ?_, ?_⟩
  · rw [show first.sink = _ from hsink]
    exact f.grows_piece _ sink
  · exact fun _ => ⟨_, hout, hout'⟩
  · intro e he
    rw [show first.result = _ from hresult] at he
    cases hgiven : ((f.piece (options.settings f.settings)).result sink).1 with
    | ok text =>
      rw [hgiven] at he
      cases he
    | error _ =>
      rw [hgiven] at hout hout'
      exact ⟨hout.trans (List.append_nil _), hout'.trans (List.append_nil _)⟩

end Fragment

end SqlTemplate
