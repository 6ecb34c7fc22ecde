import SqlTemplate.Proofs.Fillings

/-!
# Fragments as frames and pieces

What a fragment renders to, written down without a canvas: the literal texts around the holes, less
the bytes that enclose these, with the piece of each hole between them. `Hole.opens` and
`Hole.skips` say how many bytes of the chunks go with a hole of each kind; they depend on the chunks
alone. The list of names that takes the comma after it away when it is empty is read the other way
round: the comma goes with the hole, and a list with names writes it.
-/

namespace SqlTemplate

open Render

/-! ### The bytes that go with a hole -/

namespace Hole

/-- How many bytes at the end of the chunk before a hole enclose it. -/
def opens : Hole → Nat
  | .expression | .qualifier | .bare => 0
  | _ => 1

/-- How many bytes at the front of the chunk after a hole go with it. -/
def skips (next : Bytes) : Hole → Nat
  | .expression | .bare => 0
  | .names .optional => if next[2]? = some Byte.space then 3 else 2
  | .names _ => 2
  | _ => 1

/-- The qualifier that a hole with this value gives to the next one. -/
def captures (hole : Hole) (value : Value) : Option String :=
  match hole, value with
  | .qualifier, .str text => some text
  | _, _ => none

/-- What precedes a hole is of interest only where it may enclose it. -/
theorem find_congr {index : Nat} {opener opener' : Option UInt8} {next : Bytes}
    (h : ∀ b, isOpener b = true → (opener = some b ↔ opener' = some b)) :
    find index opener next = find index opener' next := by
  have hnone : ∀ {o : Option UInt8}, (∀ b, isOpener b = true → o ≠ some b) →
      find index o next = find index none next := by
    intro o ho
    cases o with
    | none => rfl
    | some b =>
      have hb : ¬ isOpener b = true := fun hopens => ho b hopens rfl
      simp only [find, if_neg hb]
  by_cases hopens : ∃ b, isOpener b = true ∧ opener = some b
  · obtain ⟨b, hb, hopener⟩ := hopens
    rw [hopener, (h b hb).mp hopener]
  · rw [hnone fun b hb heq => hopens ⟨b, hb, heq⟩,
      hnone fun b hb heq => hopens ⟨b, hb, (h b hb).mpr heq⟩]

/-- A hole that goes with a byte before it follows one that opens an enclosure. -/
theorem exists_of_find {index : Nat} {opener : Option UInt8} {next : Bytes} {hole : Hole}
    (h : find index opener next = .ok hole) (hopens : hole.opens ≠ 0) :
    ∃ b, opener = some b ∧ isOpener b = true := by
  have hunenclosed : ∀ {hole : Hole},
      Except.ok (ε := Error) (if next.head? = some Byte.dot then .qualifier else .bare) = .ok hole →
        hole.opens = 0 := by
    intro hole hhole
    cases hhole
    split <;> rfl
  cases opener with
  | none => exact absurd (hunenclosed h) hopens
  | some b =>
    refine ⟨b, rfl, ?_⟩
    by_contra hb
    simp only [find, if_neg hb] at h
    exact hopens (hunenclosed h)

end Hole

/-! ### The piece of a hole -/

/-- The text of a list of names, and of the comma that goes with it. -/
def namesText (s : Settings) (qualifier : Option String) (kind : NameList) (next : Bytes)
    (value : Value) : Except Error Bytes := do
  let names ← namesOf value
  if names.isEmpty then
    match kind with
    | .orAll => .ok (Name.write s.nameQuote qualifier "*")
    | .nonempty => .error (.wrongShape .someName "empty list")
    | .optional => .ok []
  else
    .ok ((utf8 ", ").intercalate (names.map (Name.write s.nameQuote qualifier)) ++
      if kind = .optional then (next.take ((Hole.names kind).skips next)).drop 1 else [])

namespace Filling

/-- What a filling writes in a hole of each kind, with the bytes that go with the hole. -/
def piece (s : Settings) (qualifier : Option String) (next : Bytes) (f : Filling) :
    Hole → Piece Bytes
  | .value => (f.value qualifier).piece
  | .list =>
    (pure [Byte.openParen] : Piece Bytes).append (f.list.piece.append (pure [Byte.closeParen]))
  | .rows => f.rows.piece
  | .name => liftM ((nameOf f.source).map (Name.write s.nameQuote qualifier))
  | .names kind => liftM (namesText s qualifier kind next f.source)
  | .assignments => (f.assignments qualifier).piece
  | .conditions all => (f.conditions all qualifier).piece
  | .expression => (f.expression qualifier).piece
  | .qualifier => liftM ((qualifierOf f.source).map fun _ => [])
  | .bare => (f.bare qualifier).piece

/-- All steps of a filling write pieces. -/
structure IsLocal (f : Filling) : Prop where
  value : ∀ qualifier, Local (f.value qualifier)
  list : Local f.list
  rows : Local f.rows
  assignments : ∀ qualifier, Local (f.assignments qualifier)
  conditions : ∀ all qualifier, Local (f.conditions all qualifier)
  expression : ∀ qualifier, Local (f.expression qualifier)
  bare : ∀ qualifier, Local (f.bare qualifier)

/-- What a value offers to the holes of a fragment with settings `s`. -/
def ofValue (s : Settings) (value : Value) : Filling where
  source := value
  value := fun qualifier => writeValue s qualifier value
  list := writeList s value
  rows := writeRowsOf s value
  assignments := fun qualifier => writeAssignmentsOf s qualifier value
  conditions := fun all qualifier => writeConditionsOf s all qualifier value
  expression := fun qualifier => writeExpression s qualifier value
  bare := fun qualifier => writeBare s qualifier value

end Filling

theorem renderFrom_nil (s : Settings) (inherited : Option String) (index : Nat) (chunk : String) :
    renderFrom s inherited index chunk [] = writeChunk chunk := by
  rw [renderFrom]

theorem renderFrom_cons (s : Settings) (inherited : Option String) (index : Nat) (chunk : String)
    (value : Value) (following : String) (rest : List (Value × String)) :
    renderFrom s inherited index chunk ((value, following) :: rest) =
      (do
        writeChunk chunk
        Filling.fill s inherited index (utf8 following) (.ofValue s value)
        renderFrom s inherited (index + 1) following rest) := by
  rw [renderFrom]
  rfl

/-! ### A hole on the canvas -/

/-- Before the text `chunk` is written: the canvas will hold `text` and then what is left of the
chunk without its first `skipped` bytes. -/
structure Canvas.Awaits (c : Canvas) (chunk text : Bytes) (skipped : Nat) : Prop where
  text_eq : c.out.toList ++ (c.closing.replacement.toList ++ chunk.drop c.closing.skipped)
    = text ++ chunk.drop skipped
  opener : ∀ b, Hole.isOpener b = true →
    ((chunk.drop c.closing.skipped).getLast? = some b ↔ (chunk.drop skipped).getLast? = some b)

/-- How a hole before the text `next` leaves the canvas: what was there is followed by the piece of
the hole, and what goes with it of `next` is still to be left out. -/
inductive Filled (front next : Bytes) (hole : Hole) (value : Value) :
    Except Error Bytes × Sink → Except Error Unit × Canvas → Prop
  | ok {bytes : Bytes} {sink : Sink} {c' : Canvas} (hsink : c'.sink = sink)
      (hcaptured : c'.captured = hole.captures value) (hfront : front <+: c'.out.toList)
      (hawaits : c'.Awaits next (front ++ bytes) (hole.skips next)) :
      Filled front next hole value (.ok bytes, sink) (.ok (), c')
  | error {e : Error} {sink : Sink} {c' : Canvas} (hsink : c'.sink = sink)
      (hout : front <+: c'.out.toList) :
      Filled front next hole value (.error e, sink) (.error e, c')

theorem Buffer.toList_pop (b : Buffer) : b.pop.toList = b.toList.dropLast := by
  rw [pop, toList_truncate, List.dropLast_eq_take]
  rfl

/-- The front that a hole leaves of what is written before it. -/
def Hole.front (hole : Hole) (written : Bytes) : Bytes := written.take (written.length - hole.opens)

theorem Hole.front_of_opens {hole : Hole} (h : hole.opens = 1) (written : Bytes) :
    hole.front written = written.dropLast := by
  rw [front, h, List.dropLast_eq_take]

theorem Hole.opens_eq (hole : Hole) : hole.opens = 0 ∨ hole.opens = 1 := by
  cases hole <;> simp [opens]

theorem Hole.front_append {hole : Hole} {x y : Bytes} (h : hole.opens ≠ 0 → y ≠ []) :
    hole.front (x ++ y) = x ++ hole.front y := by
  rcases hole.opens_eq with hopens | hopens
  · simp [front, hopens, List.take_of_length_le]
  · rw [front_of_opens hopens, front_of_opens hopens,
      List.dropLast_append_of_ne_nil (h (by rw [hopens]; exact Nat.one_ne_zero))]

/-- A step between a byte that is dropped before it and one that is left out after it. -/
theorem Local.enclosed {step : Render Unit} {c : Canvas} {next : Bytes} {hole : Hole}
    {value : Value} (h : Local step) (hc : c.Clear) (hopens : hole.opens = 1)
    (hskips : hole.skips next = 1) (hcaptures : hole.captures value = none) :
    Filled (hole.front c.out.toList) next hole value (step.piece.result c.sink)
      (exec (do dropLast; step; close (.skip 1)) c) := by
  have hdropped : exec dropLast c = (.ok (), { c with out := c.out.pop }) := rfl
  have hstep := h.wrote { c with out := c.out.pop } hc
  rw [exec_bind_ok hdropped, exec_bind, Hole.front_of_opens hopens, ← Buffer.toList_pop]
  change Wrote _ (step.piece.result c.sink) _ at hstep
  generalize exec step { c with out := c.out.pop } = left at hstep ⊢
  generalize step.piece.result c.sink = given at hstep ⊢
  cases hstep with
  | ok hclear hsink hout =>
    refine .ok hsink (hclear.1.trans hcaptures.symm) (hout ▸ List.prefix_append _ _) ⟨?_, ?_⟩
    · rw [hskips, ← hout]
      rfl
    · rw [hskips]
      exact fun b _ => Iff.rfl
  | error hsink hout => exact .error hsink hout

theorem Buffer.toList_setLast {b : Buffer} (h : b.toList ≠ []) (byte : UInt8) :
    (b.setLast byte).toList = b.toList.dropLast ++ [byte] := by
  have hsize : b.bytes.size ≠ 0 := fun hsize => h (List.length_eq_zero_iff.mp hsize)
  rw [setLast, if_neg hsize, toList_push, toList_pop]

/-- A list, whose brackets become parentheses. -/
theorem Local.parenthesized {step : Render Unit} {c : Canvas} {next : Bytes} {value : Value}
    (h : Local step) (hc : c.Clear) (hne : c.out.toList ≠ []) :
    Filled (Hole.list.front c.out.toList) next .list value
      (((pure [Byte.openParen] : Piece Bytes).append
        (step.piece.append (pure [Byte.closeParen]))).result c.sink)
      (exec (do setLast Byte.openParen; step; close ⟨1, some Byte.closeParen⟩) c) := by
  have hset : exec (setLast Byte.openParen) c
      = (.ok (), { c with out := c.out.setLast Byte.openParen }) := rfl
  have hout : (c.out.setLast Byte.openParen).toList
      = Hole.list.front c.out.toList ++ [Byte.openParen] := by
    rw [Buffer.toList_setLast hne, Hole.front_of_opens rfl]
  have hstep := h.wrote { c with out := c.out.setLast Byte.openParen } hc
  rw [exec_bind_ok hset, exec_bind]
  change Wrote _ (step.piece.result c.sink) _ at hstep
  have hpiece : ((pure [Byte.openParen] : Piece Bytes).append
      (step.piece.append (pure [Byte.closeParen]))).result c.sink =
      match step.piece.result c.sink with
      | (.ok bytes, sink) => (.ok (Byte.openParen :: (bytes ++ [Byte.closeParen])), sink)
      | (.error e, sink) => (.error e, sink) := by
    simp only [Piece.append, Piece.result_bind, Piece.result_pure]
    rcases step.piece.result c.sink with ⟨_ | _, _⟩ <;> rfl
  rw [hpiece]
  generalize exec step { c with out := c.out.setLast Byte.openParen } = left at hstep ⊢
  generalize step.piece.result c.sink = given at hstep ⊢
  cases hstep with
  | ok hclear hsink htext =>
    rw [hout, List.append_assoc] at htext
    refine .ok hsink hclear.1 (htext ▸ List.prefix_append _ _) ⟨?_, fun b _ => Iff.rfl⟩
    show _ ++ ([Byte.closeParen] ++ next.drop 1) = _ ++ next.drop 1
    rw [htext]
    simp
  | error hsink hprefix =>
    refine .error hsink (List.IsPrefix.trans ?_ hprefix)
    rw [hout]
    exact List.prefix_append _ _

/-- A step that nothing encloses. -/
theorem Local.unenclosed {step : Render Unit} {c : Canvas} {next : Bytes} {hole : Hole}
    {value : Value} (h : Local step) (hc : c.Clear) (hopens : hole.opens = 0)
    (hskips : hole.skips next = 0) (hcaptures : hole.captures value = none) :
    Filled (hole.front c.out.toList) next hole value (step.piece.result c.sink)
      (exec step c) := by
  have hstep := h.wrote c hc
  have hfront : hole.front c.out.toList = c.out.toList := by
    rw [Hole.front, hopens]
    exact List.take_length
  rw [hfront]
  generalize exec step c = left at hstep ⊢
  generalize step.piece.result c.sink = given at hstep ⊢
  cases hstep with
  | ok hclear hsink hout =>
    refine .ok hsink (hclear.1.trans hcaptures.symm) (hout ▸ List.prefix_append _ _) ⟨?_, ?_⟩
    · rw [hskips, hclear.2, ← hout]
      rfl
    · rw [hskips, hclear.2]
      exact fun b _ => Iff.rfl
  | error hsink hout => exact .error hsink hout

/-- A text between a byte that is dropped before it and `n` that are left out after it, where
`kept` is left of what goes with the hole. -/
theorem filled_skip {c : Canvas} {text : Bytes} {out : Buffer} (hole : Hole) (value : Value)
    (next kept : Bytes) (n : Nat) (hc : c.Clear) (hopens : hole.opens = 1)
    (hcaptures : hole.captures value = none)
    (hout : out.toList = c.out.toList.dropLast ++ text)
    (hkept : next.drop n = kept ++ next.drop (hole.skips next))
    (hopener : ∀ b, Hole.isOpener b = true →
      ((next.drop n).getLast? = some b ↔ (next.drop (hole.skips next)).getLast? = some b)) :
    Filled (hole.front c.out.toList) next hole value (.ok (text ++ kept), c.sink)
      (.ok (), { c with out := out, closing := .skip n }) := by
  have hfront : hole.front c.out.toList <+: out.toList := by
    rw [Hole.front_of_opens hopens, hout]
    exact List.prefix_append _ _
  refine .ok rfl (hc.1.trans hcaptures.symm) hfront ⟨?_, hopener⟩
  show out.toList ++ ([] ++ next.drop n) = _
  rw [hout, Hole.front_of_opens hopens, List.nil_append, hkept]
  simp only [List.append_assoc]

theorem Buffer.toList_pop_append (b : Buffer) (text : Bytes) :
    (b.pop.append text).toList = b.toList.dropLast ++ text := by
  rw [toList_append, toList_pop]

theorem Hole.front_prefix_pop {hole : Hole} (h : hole.opens = 1) (b : Buffer) :
    hole.front b.toList <+: b.pop.toList := by
  simp only [front_of_opens h, Buffer.toList_pop, List.prefix_refl]

theorem filled_name {c : Canvas} {next : Bytes} {s : Settings} {qualifier : Option String}
    {value : Value} (hc : c.Clear) :
    Filled (Hole.name.front c.out.toList) next .name value
      ((liftM ((nameOf value).map (Name.write s.nameQuote qualifier)) : Piece Bytes).result c.sink)
      (exec (do dropLast; writeName s qualifier (← nameOf value); close (.skip 1)) c) := by
  cases nameOf value with
  | error e => exact .error rfl (Hole.front_prefix_pop rfl c.out)
  | ok name =>
    have hskip := filled_skip .name value next [] 1 hc rfl rfl
      (Buffer.toList_pop_append _ (Name.write s.nameQuote qualifier name)) rfl fun b _ => Iff.rfl
    rw [List.append_nil] at hskip
    exact hskip

/-- The bytes that an optional list of names takes away after its closing quote are no openers. -/
theorem opener_drop_optional {next : Bytes} (hcomma : next[1]? = some Byte.comma) {b : UInt8}
    (hb : Hole.isOpener b = true) :
    ((next.drop 1).getLast? = some b ↔
      (next.drop ((Hole.names .optional).skips next)).getLast? = some b) := by
  have hcommaNe : Byte.comma ≠ b := by
    rintro rfl
    exact absurd hb (by decide)
  have hspaceNe : Byte.space ≠ b := by
    rintro rfl
    exact absurd hb (by decide)
  match next, hcomma with
  | [_, _], rfl => simp [Hole.skips, hcommaNe]
  | _ :: _ :: d :: rest, rfl =>
    by_cases hspace : d = Byte.space
    · subst hspace
      cases rest with
      | nil => simp [Hole.skips, hspaceNe]
      | cons e rest => simp [Hole.skips]
    · simp [Hole.skips, hspace]

/-- What is left out of a text beyond its first byte, put back before the rest. -/
theorem drop_eq_kept_append {n : Nat} (hn : 1 ≤ n) (text : Bytes) :
    text.drop 1 = (text.take n).drop 1 ++ text.drop n := by
  cases text with
  | nil => simp
  | cons b rest =>
    obtain ⟨m, rfl⟩ : ∃ m, n = m + 1 := ⟨n - 1, by omega⟩
    simp

theorem liftM_ok_bind {α β : Type} (a : α) (next : α → Render β) :
    (liftM (Except.ok a : Except Error α) >>= next) = next a := rfl

theorem ok_bind {ε α β : Type} (a : α) (next : α → Except ε β) :
    (Except.ok a >>= next) = next a := rfl

theorem filled_names {c : Canvas} {next : Bytes} {s : Settings} {qualifier : Option String}
    {value : Value} {kind : NameList} (hc : c.Clear)
    (hcomma : kind = .optional → next[1]? = some Byte.comma) :
    Filled ((Hole.names kind).front c.out.toList) next (.names kind) value
      ((liftM (namesText s qualifier kind next value) : Piece Bytes).result c.sink)
      (exec (do dropLast; close (.skip (← writeNameList s qualifier kind next value))) c) := by
  have hfront : (Hole.names kind).front c.out.toList <+: c.out.pop.toList :=
    Hole.front_prefix_pop rfl c.out
  have hskip := fun text kept n => filled_skip (.names kind) value next kept n hc rfl rfl
    (Buffer.toList_pop_append _ text)
  cases hnames : namesOf value with
  | error e =>
    unfold namesText writeNameList
    rw [hnames]
    exact .error rfl hfront
  | ok names =>
    unfold namesText writeNameList
    rw [hnames, liftM_ok_bind, ok_bind]
    split
    · cases kind with
      | orAll =>
        have hall := hskip (Name.write s.nameQuote qualifier "*") [] 2 rfl fun b _ => Iff.rfl
        rw [List.append_nil] at hall
        exact hall
      | nonempty => exact .error rfl hfront
      | optional =>
        have hnone : c.out.pop.toList = c.out.toList.dropLast ++ [] := by
          rw [Buffer.toList_pop, List.append_nil]
        exact filled_skip _ _ _ [] _ hc rfl rfl hnone rfl fun b _ => Iff.rfl
    · cases kind with
      | orAll => exact hskip _ [] 2 rfl fun b _ => Iff.rfl
      | nonempty => exact hskip _ [] 2 rfl fun b _ => Iff.rfl
      | optional =>
        refine hskip _ _ 1 ?_ fun b hb => opener_drop_optional (hcomma rfl) hb
        have hle : 1 ≤ (Hole.names .optional).skips next := by
          simp only [Hole.skips]
          split <;> decide
        rw [if_pos rfl]
        exact drop_eq_kept_append hle next

theorem filled_qualifier {c : Canvas} {next : Bytes} {value : Value} :
    Filled (Hole.qualifier.front c.out.toList) next .qualifier value
      ((liftM ((qualifierOf value).map fun _ => ([] : Bytes)) : Piece Bytes).result c.sink)
      (exec (do capture (← qualifierOf value); close (.skip 1)) c) := by
  have hfront : Hole.qualifier.front c.out.toList = c.out.toList := List.take_length
  rw [hfront]
  cases value with
  | str text =>
    refine @Filled.ok _ _ _ _ [] _ _ rfl rfl (List.prefix_refl _) ⟨?_, fun b _ => Iff.rfl⟩
    rw [List.append_nil]
    rfl
  | _ => exact .error rfl (List.prefix_refl _)

/-- Every kind of hole is filled with its piece. -/
theorem Filling.IsLocal.filled_write {c : Canvas} {s : Settings} {qualifier : Option String}
    {next : Bytes} {f : Filling} {hole : Hole} (hf : f.IsLocal) (hc : c.Clear)
    (hopens : hole.opens ≠ 0 → c.out.toList ≠ [])
    (hcomma : hole = .names .optional → next[1]? = some Byte.comma) :
    Filled (hole.front c.out.toList) next hole f.source
      ((f.piece s qualifier next hole).result c.sink)
      (exec (f.write s qualifier next hole) c) := by
  cases hole with
  | value => exact (hf.value qualifier).enclosed hc rfl rfl rfl
  | list => exact hf.list.parenthesized hc (hopens nofun)
  | rows => exact hf.rows.enclosed hc rfl rfl rfl
  | name => exact filled_name hc
  | names kind => exact filled_names hc fun hkind => hcomma (by rw [hkind])
  | assignments => exact (hf.assignments qualifier).enclosed hc rfl rfl rfl
  | conditions all => exact (hf.conditions all qualifier).enclosed hc rfl rfl rfl
  | expression => exact (hf.expression qualifier).unenclosed hc rfl rfl rfl
  | qualifier => exact filled_qualifier
  | bare => exact (hf.bare qualifier).unenclosed hc rfl rfl rfl

/-- An optional list of names is told by the comma after its closing quote. -/
theorem Hole.comma_of_find {index : Nat} {opener : Option UInt8} {next : Bytes}
    (h : find index opener next = .ok (.names .optional)) : next[1]? = some Byte.comma := by
  unfold find enclosed? at h
  grind

/-! ### A fragment on the canvas -/

/-- What a chunk and the holes after it write, without the first `skipped` bytes of the chunk. -/
def pieceFrom (s : Settings) (inherited : Option String) (index : Nat) (captured : Option String)
    (skipped : Nat) (chunk : Bytes) : List (Value × String) → Piece Bytes
  | [] => return chunk.drop skipped
  | (value, following) :: rest => do
    let hole ← liftM (Hole.find index (chunk.drop skipped).getLast? (utf8 following))
    let own ← (Filling.ofValue s value).piece s (captured.or inherited) (utf8 following) hole
    let later ← pieceFrom s inherited (index + 1) (hole.captures value)
      (hole.skips (utf8 following)) (utf8 following) rest
    return hole.front (chunk.drop skipped) ++ (own ++ later)

/-- A hole is the piece of its value between the rest of the chunk and what comes later. -/
theorem pieceFrom_cons (s : Settings) (inherited : Option String) (index : Nat)
    (captured : Option String) (skipped : Nat) (chunk : Bytes) (value : Value) (following : String)
    (rest : List (Value × String)) :
    pieceFrom s inherited index captured skipped chunk ((value, following) :: rest) =
      (liftM (Hole.find index (chunk.drop skipped).getLast? (utf8 following)) >>= fun hole =>
        (pure (hole.front (chunk.drop skipped)) : Piece Bytes).append
          (((Filling.ofValue s value).piece s (captured.or inherited) (utf8 following) hole).append
            (pieceFrom s inherited (index + 1) (hole.captures value)
              (hole.skips (utf8 following)) (utf8 following) rest))) := by
  rw [pieceFrom]
  simp only [Piece.append, bind_assoc, pure_bind]

/-- How a canvas that held `text` is left by the rest of a fragment. -/
inductive WroteFrom (c : Canvas) (text : Bytes) :
    Except Error Bytes × Sink → Except Error Unit × Canvas → Prop
  | ok {bytes : Bytes} {sink : Sink} {c' : Canvas} (hclosing : c'.closing = .none)
      (hsink : c'.sink = sink) (hout : c'.out.toList = text ++ bytes) :
      WroteFrom c text (.ok bytes, sink) (.ok (), c')
  | error {e : Error} {sink : Sink} {c' : Canvas} (hsink : c'.sink = sink)
      (hout : c.out.toList <+: c'.out.toList) :
      WroteFrom c text (.error e, sink) (.error e, c')

/-- A canvas on which a chunk was just written. -/
def Canvas.afterChunk (c : Canvas) (chunk : Bytes) : Canvas :=
  { c with
    out := c.out.append (c.closing.replacement.toList ++ chunk.drop c.closing.skipped)
    closing := .none
    opener := (chunk.drop c.closing.skipped).getLast? }

theorem exec_writeChunk (chunk : String) (c : Canvas) :
    exec (writeChunk chunk) c = (.ok (), c.afterChunk (utf8 chunk)) := rfl

theorem exec_fill (s : Settings) (inherited : Option String) (index : Nat) (next : Bytes)
    (f : Filling) (c : Canvas) :
    exec (f.fill s inherited index next) c =
      match Hole.find index c.opener next with
      | .error e => (.error e, { c with captured := none })
      | .ok hole =>
        exec (f.write s (c.captured.or inherited) next hole) { c with captured := none } := by
  show exec (liftM (Hole.find index c.opener next) >>= fun hole =>
    f.write s (c.captured.or inherited) next hole) { c with captured := none } = _
  cases Hole.find index c.opener next with
  | error e => rfl
  | ok hole => rfl

/-- A chunk that is written together with the hole after it. -/
theorem filled_hole (s : Settings) (inherited : Option String) {index : Nat} {chunk : String}
    {next text : Bytes} {skipped : Nat} {f : Filling} {hole : Hole} {c : Canvas} (hf : f.IsLocal)
    (hawaits : c.Awaits (utf8 chunk) text skipped)
    (hfind : Hole.find index ((utf8 chunk).drop skipped).getLast? next = .ok hole) :
    Filled (text ++ hole.front ((utf8 chunk).drop skipped)) next hole f.source
      ((f.piece s (c.captured.or inherited) next hole).result c.sink)
      (exec (f.fill s inherited index next) (c.afterChunk (utf8 chunk))) := by
  have hsame : Hole.find index (c.afterChunk (utf8 chunk)).opener next = .ok hole := by
    rw [← hfind]
    exact Hole.find_congr hawaits.opener
  have hout : (c.afterChunk (utf8 chunk)).out.toList = text ++ (utf8 chunk).drop skipped := by
    rw [← hawaits.text_eq]
    exact Buffer.toList_append _ _
  have hne : hole.opens ≠ 0 → (utf8 chunk).drop skipped ≠ [] := by
    intro hopens hnil
    obtain ⟨b, hb, -⟩ := Hole.exists_of_find hfind hopens
    rw [hnil] at hb
    cases hb
  rw [exec_fill, hsame, ← Hole.front_append hne, ← hout]
  refine hf.filled_write (c := { c.afterChunk (utf8 chunk) with captured := none }) ⟨rfl, rfl⟩ ?_ ?_
  · intro hopens hnil
    rw [show (c.afterChunk (utf8 chunk)).out.toList = [] from hnil] at hout
    exact hne hopens (List.append_eq_nil_iff.mp hout.symm).2
  · rintro rfl
    exact Hole.comma_of_find hfind

/-- The byte that a hole takes back is one of the chunk before it. -/
theorem Canvas.Awaits.prefix_front {c : Canvas} {chunk text next : Bytes} {skipped index : Nat}
    {hole : Hole} (h : c.Awaits chunk text skipped)
    (hfind : Hole.find index (chunk.drop skipped).getLast? next = .ok hole) :
    c.out.toList <+: text ++ hole.front (chunk.drop skipped) := by
  have hlast : hole.opens ≠ 0 → chunk.drop skipped ≠ [] ∧
      c.closing.replacement.toList ++ chunk.drop c.closing.skipped ≠ [] := by
    intro hopens
    obtain ⟨b, hb, hopener⟩ := Hole.exists_of_find hfind hopens
    have hb' := (h.opener b hopener).mpr hb
    constructor
    · intro hnil
      rw [hnil] at hb
      cases hb
    · intro hnil
      rw [(List.append_eq_nil_iff.mp hnil).2] at hb'
      cases hb'
  rw [← Hole.front_append fun hopens => (hlast hopens).1, ← h.text_eq,
    Hole.front_append fun hopens => (hlast hopens).2]
  exact List.prefix_append _ _

theorem renderFrom_wrote (s : Settings) (inherited : Option String) (index : Nat)
    {chunk : String} {holes : List (Value × String)} {c : Canvas} {text : Bytes} {skipped : Nat}
    (hholes : ∀ hole ∈ holes, (Filling.ofValue s hole.1).IsLocal)
    (hawaits : c.Awaits (utf8 chunk) text skipped) :
    WroteFrom c text
      ((pieceFrom s inherited index c.captured skipped (utf8 chunk) holes).result c.sink)
      (exec (renderFrom s inherited index chunk holes) c) := by
  induction holes generalizing index chunk c text skipped with
  | nil =>
    rw [renderFrom_nil]
    refine .ok rfl rfl ?_
    rw [← hawaits.text_eq]
    exact Buffer.toList_append _ _
  | cons hole rest ih =>
    obtain ⟨value, following⟩ := hole
    obtain ⟨hvalue, hrest⟩ := List.forall_mem_cons.mp hholes
    rw [renderFrom_cons, exec_bind_ok (exec_writeChunk chunk c), exec_bind, pieceFrom]
    cases hfind : Hole.find index ((utf8 chunk).drop skipped).getLast? (utf8 following) with
    | error e =>
      have hsame : Hole.find index (c.afterChunk (utf8 chunk)).opener (utf8 following)
          = .error e := by
        rw [← hfind]
        exact Hole.find_congr hawaits.opener
      rw [exec_fill, hsame]
      refine .error rfl ?_
      rw [show (c.afterChunk (utf8 chunk)).out.toList = _ from Buffer.toList_append _ _]
      exact List.prefix_append _ _
    | ok hole =>
      have hfilled := filled_hole s inherited hvalue hawaits hfind
      simp only [Piece.result_bind, Piece.result_liftM]
      generalize exec ((Filling.ofValue s value).fill s inherited index (utf8 following))
        (c.afterChunk (utf8 chunk)) = left at hfilled ⊢
      generalize ((Filling.ofValue s value).piece s (c.captured.or inherited) (utf8 following)
        hole).result c.sink = given at hfilled ⊢
      cases hfilled with
      | @ok bytes sink c' hsink hcaptured hfront hnext =>
        have hlater := ih (index + 1) hrest hnext
        rw [hcaptured, hsink] at hlater
        dsimp only
        change WroteFrom c' _ ((pieceFrom s inherited (index + 1) (hole.captures value) _ _
          rest).result sink) _ at hlater
        generalize exec (renderFrom s inherited (index + 1) following rest) c' = left at hlater ⊢
        generalize (pieceFrom s inherited (index + 1) (hole.captures value)
          (hole.skips (utf8 following)) (utf8 following) rest).result sink = given at hlater ⊢
        cases hlater with
        | ok hclosing hsink' hout => exact .ok hclosing hsink' (by rw [hout]; simp)
        | error hsink' hout =>
          exact .error hsink' ((hawaits.prefix_front hfind).trans (hfront.trans hout))
      | error hsink hout =>
        exact .error hsink ((hawaits.prefix_front hfind).trans hout)

theorem Filling.IsLocal.grows (s : Settings) (qualifier : Option String) (next : Bytes)
    {f : Filling} (hf : f.IsLocal) (hole : Hole) : (f.piece s qualifier next hole).Grows := by
  cases hole with
  | value => exact (hf.value qualifier).grows
  | list => exact (Piece.Grows.pure _).append (hf.list.grows.append (.pure _))
  | rows => exact hf.rows.grows
  | name | names kind | qualifier => exact .liftM _
  | assignments => exact (hf.assignments qualifier).grows
  | conditions all => exact (hf.conditions all qualifier).grows
  | expression => exact (hf.expression qualifier).grows
  | bare => exact (hf.bare qualifier).grows

theorem grows_pieceFrom {s : Settings} {inherited : Option String} {index : Nat}
    {captured : Option String} {skipped : Nat} {chunk : Bytes} {holes : List (Value × String)}
    (hholes : ∀ hole ∈ holes, (Filling.ofValue s hole.1).IsLocal) :
    (pieceFrom s inherited index captured skipped chunk holes).Grows := by
  induction holes generalizing index captured skipped chunk with
  | nil => exact .pure _
  | cons hole rest ih =>
    obtain ⟨hvalue, hrest⟩ := List.forall_mem_cons.mp hholes
    rw [pieceFrom]
    exact .bind (.liftM _) fun hole => .bind (hvalue.grows s _ _ hole) fun own =>
      .bind (ih hrest) fun later => .pure _

/-- A fragment inside a fragment is a piece, whatever it leaves behind itself. -/
theorem writes_embedded {s child : Settings} {qualifier : Option String} {head : String}
    {holes : List (Value × String)}
    (hholes : ∀ hole ∈ holes, (Filling.ofValue s hole.1).IsLocal) :
    Writes (embedded s child (renderFrom s qualifier 0 head holes))
      (liftM (s.checkEmbeds child) >>= fun _ =>
        pieceFrom s qualifier 0 none 0 (utf8 head) holes) := by
  refine .lift fun _ _ => ⟨?_, grows_pieceFrom hholes⟩
  intro c hc
  have hawaits : ({ c with captured := none } : Canvas).Awaits (utf8 head) c.out.toList 0 := by
    constructor
    · rw [hc.2]
      rfl
    · rw [hc.2]
      exact fun b _ => Iff.rfl
  have hwrote := renderFrom_wrote s qualifier 0 hholes hawaits
  change Wrote c _ (exec (get >>= fun left => _) c)
  rw [exec_bind_ok (exec_get c), exec_bind_ok (exec_modify _ c), exec_bind]
  change WroteFrom _ _ ((pieceFrom s qualifier 0 none 0 (utf8 head) holes).result c.sink) _
    at hwrote
  generalize exec (renderFrom s qualifier 0 head holes) { c with captured := none } = left
    at hwrote ⊢
  generalize (pieceFrom s qualifier 0 none 0 (utf8 head) holes).result c.sink = given at hwrote ⊢
  cases hwrote with
  | ok hclosing hsink hout => exact .ok ⟨hc.1, rfl⟩ hsink hout
  | error hsink hout => exact .error hsink hout

end SqlTemplate
