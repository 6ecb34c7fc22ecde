import SqlTemplate.Proofs.Concatenation
import SqlTemplate.Proofs.Rendering

/-!
# Every rendering is a text

Rendering cuts chunks and checks texts byte by byte, but never inside a character: all bytes that it
takes away are ASCII, and what values write are texts. So what a fragment writes is a text, with a
sink or without one and however deep its values nest (`isText_pieceFrom`). It follows that the text
of a fragment is its piece, errors included (`Fragment.toSql_map_utf8`), and that it is put together
from its chunks and holes whether or not there are fragments among its values
(`Fragment.toSql_eq_ok_iff_concatenates`).
-/

namespace SqlTemplate

open Render

/-! ### The bytes around a hole -/

theorem Stands.isText_front {written next : Bytes} {hole : Hole} (h : Stands written next hole)
    (htext : IsText written) : IsText (hole.front written) := by
  have hbefore := h.isText_before htext
  rw [Hole.before_eq] at hbefore
  cases hole with
  | list => exact (hbefore.cut (by decide)).1
  | _ => simpa [Hole.opening] using hbefore

theorem Stands.isText_drop {written next : Bytes} {hole : Hole} (h : Stands written next hole)
    (htext : IsText next) : IsText (next.drop (hole.skips next)) := by
  rw [← List.take_append_drop (hole.skips next) next] at htext
  exact htext.drop_ascii h.lt_of_mem_take

/-- The names of a list, with the comma after them where it stays. -/
theorem isText_namesText {s : Settings} {qualifier : Option String} {kind : NameList}
    {written next bytes : Bytes} {value : Value} (hstands : Stands written next (.names kind))
    (h : namesText s qualifier kind next value = .ok bytes) : IsText bytes := by
  have hP := composable_isText s
  obtain ⟨names, -, h⟩ := bind_eq_ok h
  split at h
  · cases kind with
    | orAll =>
      cases h
      exact hP.name qualifier "*"
    | nonempty => cases h
    | optional =>
      cases h
      exact .nil
  · cases h
    refine (hP.names qualifier names).append (.of_ascii ?_)
    split
    · exact fun b hb => hstands.lt_of_mem_take b (List.mem_of_mem_drop hb)
    · exact nofun

/-! ### Pieces -/

theorem Piece.Yields.lift {α : Type} {P : Bytes → Prop} {value : Except Error α}
    {pieces : α → Piece Bytes} (h : ∀ a, value = .ok a → Yields P (pieces a)) :
    Yields P (MonadLiftT.monadLift value >>= pieces) := by
  cases value with
  | error e => exact throw e
  | ok a => exact h a rfl

/-- A text that is checked once more stays a text. -/
theorem emits_isText_sanitized {s : Settings} {qualifier : Option String} {mode : SafeMode}
    {step : Render Unit} (h : Emits (Piece.Yields IsText) step) :
    Emits (Piece.Yields IsText) (sanitized qualifier s mode step) := by
  refine h.isLocal.sanitized.emits ?_
  intro sink bytes hbytes
  obtain ⟨text, htext, hbytes⟩ := Piece.ok_of_bind hbytes
  exact isText_fitText (h.holds _ _ htext) hbytes

/-- What is written in a hole of any kind is a text if what nested fragments write is. -/
theorem isText_piece {s : Settings} {qualifier : Option String} {value : Value} {hole : Hole}
    {written next : Bytes} (hstands : Stands written next hole)
    (h : value.Nests (EmitsNested s (Piece.Yields IsText)) qualifier) :
    Piece.Yields IsText ((Filling.ofValue s value).piece s qualifier next hole) := by
  have hP := composable_isText s
  have hC := hP.closed
  cases hole with
  | value => exact (emits_writeValue hC h).holds
  | list =>
    exact .append .append (.pure (.singleton (by decide)))
      (.append .append (emits_writeList hC h).holds (.pure (.singleton (by decide))))
  | rows => exact (emits_writeRowsOf hC h).holds
  | name =>
    refine .liftM fun {bytes} hbytes => ?_
    change (nameOf value).map _ = _ at hbytes
    cases hname : nameOf value with
    | error e =>
      rw [hname] at hbytes
      cases hbytes
    | ok name =>
      rw [hname] at hbytes
      cases hbytes
      exact hP.name qualifier name
  | names kind => exact .liftM fun hbytes => isText_namesText hstands hbytes
  | assignments => exact (emits_writeAssignmentsOf hC qualifier h).holds
  | conditions all => exact (emits_writeConditionsOf hC all qualifier h).holds
  | expression =>
    refine (emits_writeExpression (fun _ _ => .throw _)
      (fun text => .liftM (isText_fitText (isText_utf8 text)))
      (fun hliteral => .liftM (isText_fitText (isText_literal hliteral))) ?_).holds
    rintro ⟨child, head, holes, sizeHint⟩ rfl
    have hnested : Emits _ (embedded s child (renderFrom s qualifier 0 head holes)) := h.emits
    simp only [writeExpression]
    split
    · exact emits_isText_sanitized hnested
    · exact hnested
  | qualifier =>
    refine .liftM fun {bytes} hbytes => ?_
    change (qualifierOf value).map _ = _ at hbytes
    cases hname : qualifierOf value with
    | error e =>
      rw [hname] at hbytes
      cases hbytes
    | ok name =>
      rw [hname] at hbytes
      cases hbytes
      exact .nil
  | bare =>
    exact (emits_writeBare (fun _ _ => .throw _)
      (fun text => .liftM (isText_fitText (isText_utf8 text)))
      (fun hliteral => .pure (isText_literal hliteral)) h).holds

mutual

theorem nests_isText (s : Settings) (qualifier : Option String) :
    (value : Value) → value.Nests (EmitsNested s (Piece.Yields IsText)) qualifier
  | .list items => nestsItems_isText s items
  | .map entries => nestsEntries_isText s entries
  | .fragment ⟨_, head, holes, _⟩ =>
    ⟨(writes_embedded (isLocal_holes s holes)).emits (.lift fun _ _ =>
      isText_pieceFrom s qualifier 0 none 0 (utf8 head) holes (isText_utf8 head)),
      fun _ _ => .throw _⟩
  | .null | .bool _ | .int _ | .uint _ | .bigint _ | .float _ | .str _ | .bytes _ | .date _
  | .dateTime _ | .json _ | .foreign _ => trivial

theorem nestsItems_isText (s : Settings) :
    (items : List Value) → NestsItems (EmitsNested s (Piece.Yields IsText)) items
  | [] => trivial
  | item :: rest => ⟨nests_isText s none item, nestsItems_isText s rest⟩

theorem nestsEntries_isText (s : Settings) :
    (entries : List (String × Value)) → NestsEntries (EmitsNested s (Piece.Yields IsText)) entries
  | [] => trivial
  | (_, value) :: rest => ⟨nests_isText s none value, nestsEntries_isText s rest⟩

/-- What is left of a chunk and the holes after it write a text. -/
theorem isText_pieceFrom (s : Settings) (inherited : Option String) (index : Nat)
    (captured : Option String) (skipped : Nat) (chunk : Bytes) :
    (holes : List (Value × String)) → IsText (chunk.drop skipped) →
      Piece.Yields IsText (pieceFrom s inherited index captured skipped chunk holes)
  | [], h => by
    rw [pieceFrom]
    exact .pure h
  | (value, following) :: rest, h => by
    rw [pieceFrom_cons]
    refine .lift fun hole hfind => ?_
    have hstands := (Hole.find_eq_ok_iff index).mp hfind
    have hlater := isText_pieceFrom s inherited (index + 1) (hole.captures value)
      (hole.skips (utf8 following)) (utf8 following) rest (hstands.isText_drop (isText_utf8 _))
    exact .append .append (.pure (hstands.isText_front h))
      (.append .append (isText_piece hstands (nests_isText s _ value)) hlater)

end

/-! ### Fragments -/

namespace Fragment

theorem isText_piece (s : Settings) (f : Fragment) : Piece.Yields IsText (f.piece s) :=
  isText_pieceFrom s none 0 none 0 (utf8 f.head) f.holes (isText_utf8 f.head)

/-- The text of a fragment is its piece without a sink, and it fails as the piece does. -/
theorem toSql_map_utf8 (f : Fragment) :
    f.toSql.map utf8 = ((f.piece f.settings).result none).1 := by
  have hawaits : (Canvas.start (.withCapacity f.sizeHint) none).Awaits (utf8 f.head) [] 0 :=
    ⟨rfl, fun b _ => Iff.rfl⟩
  have hwrote := renderFrom_wrote f.settings none 0 (isLocal_holes f.settings f.holes) hawaits
  have htext := f.isText_piece f.settings none
  change WroteFrom _ _ ((f.piece f.settings).result none)
    ((f.render f.settings none).run (.start (.withCapacity f.sizeHint) none)).run at hwrote
  unfold toSql toText
  generalize ((f.render f.settings none).run (.start (.withCapacity f.sizeHint) none)).run = left
    at hwrote ⊢
  generalize (f.piece f.settings).result none = given at hwrote htext ⊢
  cases hwrote with
  | ok hclosing hsink hout =>
    rw [List.nil_append] at hout
    obtain ⟨out, hread, hbytes⟩ := Buffer.exists_toText (hout ▸ htext _ rfl)
    dsimp only
    rw [hread, Except.map, hbytes, hout]
  | error => rfl

/-- The text of a fragment fails as its piece does. -/
theorem failsIn_toSql {P : Error → Prop} {f : Fragment}
    (h : FailsIn P ((f.piece f.settings).result none).1) : FailsIn P f.toSql := by
  intro e he
  refine h e ?_
  rw [← toSql_map_utf8, he]
  rfl

/-- A fragment renders to a text iff the text is put together from its chunks and holes. -/
theorem toSql_eq_ok_iff_concatenates {f : Fragment} {out : String} :
    f.toSql = .ok out ↔ Concatenates f.settings none (utf8 f.head) f.holes (utf8 out) := by
  have hiff := concatenates_iff f.settings 0 none 0 (utf8 f.head) [] f.holes (utf8 out)
    fun b _ => Iff.rfl
  constructor
  · exact fun h => hiff.mpr ⟨_, rfl, result_of_toSql h⟩
  · intro h
    obtain ⟨_, hout, hresult⟩ := hiff.mp h
    rw [List.nil_append] at hout
    obtain ⟨out', hout', hbytes⟩ := toSql_of_result hresult (hout ▸ isText_utf8 out)
    rwa [← utf8_injective (hbytes.trans hout.symm)]

end Fragment

theorem Concatenates.isText_of_written {s : Settings} {captured : Option String} {written text : Bytes}
    {holes : List (Value × String)} (h : Concatenates s captured written holes text)
    (hwritten : IsText written) : IsText text := by
  obtain ⟨_, rfl, hresult⟩ :=
    (concatenates_iff s 0 captured 0 written [] holes text fun b _ => Iff.rfl).mp h
  exact isText_pieceFrom s none 0 captured 0 written holes hwritten _ _ hresult

end SqlTemplate
