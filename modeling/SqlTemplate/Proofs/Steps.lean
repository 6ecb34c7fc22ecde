import SqlTemplate.Proofs.Fitting
import SqlTemplate.Render

/-!
# What a step of rendering writes

Rendering writes to one buffer that all values of a statement share, and hands the context of a hole
from chunk to chunk. A step is nevertheless a text: whatever the buffer holds, the step appends the
same bytes to it, and it leaves no qualifier and no closing byte behind. Only the sink is seen, and
only extended. `Writes step piece` says this of a step, with `piece` what it appends for each state
of the sink, and the lemmas here carry it through the ways in which steps are put together.
-/

namespace SqlTemplate

variable {α β : Type}

/-! ### Running steps -/

namespace Render

/-- What a step gives back, and the canvas it leaves. -/
def exec (step : Render α) (c : Canvas) : Except Error α × Canvas := (step.run.run c).run

@[simp] theorem exec_pure (a : α) (c : Canvas) : exec (pure a) c = (.ok a, c) := rfl

@[simp] theorem exec_throw (e : Error) (c : Canvas) :
    exec (throw e : Render α) c = (.error e, c) := rfl

@[simp] theorem exec_liftM (result : Except Error α) (c : Canvas) :
    exec (liftM result : Render α) c = (result, c) := rfl

@[simp] theorem exec_modify (f : Canvas → Canvas) (c : Canvas) :
    exec (modify f) c = (.ok (), f c) := rfl

@[simp] theorem exec_get (c : Canvas) : exec (get : Render Canvas) c = (.ok c, c) := rfl

theorem exec_bind (step : Render α) (next : α → Render β) (c : Canvas) :
    exec (step >>= next) c =
      match exec step c with
      | (.ok a, c') => exec (next a) c'
      | (.error e, c') => (.error e, c') := by
  simp only [exec, ExceptT.run_bind, StateT.run_bind, Id.run_bind]
  rcases (step.run.run c).run with ⟨_ | _, _⟩ <;> rfl

theorem exec_bind_ok {step : Render α} {next : α → Render β} {c c' : Canvas} {a : α}
    (h : exec step c = (.ok a, c')) : exec (step >>= next) c = exec (next a) c' := by
  rw [exec_bind, h]

end Render

/-! ### Pieces -/

abbrev Sink := Option (Array Value)

/-- A sink that holds what another one holds, and possibly more after it. -/
def Sink.Extends (later first : Sink) : Prop :=
  ∃ more : Array Value, later = first.map (· ++ more)

theorem Sink.Extends.refl (sink : Sink) : sink.Extends sink := by
  refine ⟨#[], ?_⟩
  cases sink <;> simp

theorem Sink.Extends.trans {first second third : Sink} (h : second.Extends first)
    (h' : third.Extends second) : third.Extends first := by
  obtain ⟨more, rfl⟩ := h
  obtain ⟨more', rfl⟩ := h'
  refine ⟨more ++ more', ?_⟩
  cases first <;> simp

/-- Something made without a canvas: it sees the sink and may extend it. -/
abbrev Piece := ExceptT Error (StateM Sink)

namespace Piece

def result (piece : Piece α) (sink : Sink) : Except Error α × Sink := (piece.run.run sink).run

@[simp] theorem result_pure (a : α) (sink : Sink) :
    result (pure a) sink = (.ok a, sink) := rfl

@[simp] theorem result_throw (e : Error) (sink : Sink) :
    result (throw e : Piece α) sink = (.error e, sink) := rfl

@[simp] theorem result_liftM (value : Except Error α) (sink : Sink) :
    result (liftM value : Piece α) sink = (value, sink) := rfl

theorem result_bind (piece : Piece α) (next : α → Piece β) (sink : Sink) :
    result (piece >>= next) sink =
      match result piece sink with
      | (.ok a, sink') => result (next a) sink'
      | (.error e, sink') => (.error e, sink') := by
  simp only [result, ExceptT.run_bind, StateT.run_bind, Id.run_bind]
  rcases (piece.run.run sink).run with ⟨_ | _, _⟩ <;> rfl

/-- A piece in two parts that succeeds has succeeded in both. -/
theorem ok_of_bind {piece : Piece α} {next : α → Piece β} {sink : Sink} {b : β}
    (h : ((piece >>= next).result sink).1 = .ok b) :
    ∃ a, (piece.result sink).1 = .ok a ∧ ((next a).result (piece.result sink).2).1 = .ok b := by
  rw [result_bind] at h
  generalize piece.result sink = given at h ⊢
  rcases given with ⟨_ | a, sink'⟩
  · cases h
  · exact ⟨a, rfl, h⟩

/-- Pieces are equal if they give the same for every sink. -/
theorem ext {first second : Piece α} (h : ∀ sink, result first sink = result second sink) :
    first = second := funext h

/-- One piece after another. -/
def append (first second : Piece Bytes) : Piece Bytes := do
  let front ← first
  let back ← second
  return front ++ back

/-- A piece that only adds to the sink. -/
def Grows (piece : Piece α) : Prop := ∀ sink, (result piece sink).2.Extends sink

theorem Grows.pure (a : α) : Grows (pure a : Piece α) := fun sink => .refl sink

theorem Grows.liftM (value : Except Error α) : Grows (liftM value : Piece α) := fun sink =>
  .refl sink

theorem Grows.bind {piece : Piece α} {next : α → Piece β} (h : Grows piece)
    (hnext : ∀ a, Grows (next a)) : Grows (piece >>= next) := by
  intro sink
  have hfirst := h sink
  rw [result_bind]
  generalize result piece sink = given at hfirst ⊢
  rcases given with ⟨_ | a, sink'⟩
  · exact hfirst
  · exact hfirst.trans (hnext a sink')

theorem Grows.append {first second : Piece Bytes} (h : Grows first) (h' : Grows second) :
    Grows (first.append second) :=
  h.bind fun _ => h'.bind fun _ => .pure _

/-- Without a sink there is none later. -/
theorem Grows.result_none {piece : Piece α} (h : Grows piece) : (result piece none).2 = none := by
  obtain ⟨more, hmore⟩ := h none
  exact hmore

/-! ### Pieces in turn -/

variable {γ : Type} {sink sink' : Sink}

theorem fst_result_eq_ok_iff {piece : Piece α} {a : α} :
    (piece.result sink).1 = .ok a ↔ ∃ sink', piece.result sink = (.ok a, sink') := by
  constructor
  · exact fun h => ⟨_, Prod.ext h rfl⟩
  · rintro ⟨sink', h⟩
    rw [h]

theorem result_bind_eq_ok_iff {piece : Piece α} {next : α → Piece β} {b : β} :
    (piece >>= next).result sink = (.ok b, sink') ↔
      ∃ a between, piece.result sink = (.ok a, between) ∧
        (next a).result between = (.ok b, sink') := by
  rw [result_bind]
  constructor
  · intro h
    rcases hgiven : piece.result sink with ⟨_ | a, between⟩ <;> rw [hgiven] at h
    · cases h
    · exact ⟨a, between, rfl, h⟩
  · rintro ⟨a, between, ha, hb⟩
    rw [ha]
    exact hb

/-- Two pieces, and something that is made of both. -/
theorem result_both_eq_ok_iff {first : Piece α} {second : Piece β} {make : α → β → γ} {c : γ} :
    (first >>= fun a => second >>= fun b => pure (make a b)).result sink = (.ok c, sink') ↔
      ∃ a between b, first.result sink = (.ok a, between) ∧
        second.result between = (.ok b, sink') ∧ make a b = c := by
  simp only [result_bind_eq_ok_iff, result_pure, Prod.mk.injEq, Except.ok.injEq]
  constructor
  · rintro ⟨a, between, ha, b, _, hb, rfl, rfl⟩
    exact ⟨a, between, b, ha, hb, rfl⟩
  · rintro ⟨a, between, b, ha, hb, rfl⟩
    exact ⟨a, between, ha, b, sink', hb, rfl, rfl⟩

theorem result_append_eq_ok_iff {first second : Piece Bytes} {bytes : Bytes} :
    (first.append second).result sink = (.ok bytes, sink') ↔
      ∃ front between back, first.result sink = (.ok front, between) ∧
        second.result between = (.ok back, sink') ∧ front ++ back = bytes :=
  result_both_eq_ok_iff

/-- A constant text before a piece. -/
theorem result_text_append_eq_ok_iff {text bytes : Bytes} {piece : Piece Bytes} :
    ((pure text : Piece Bytes).append piece).result sink = (.ok bytes, sink') ↔
      ∃ back, piece.result sink = (.ok back, sink') ∧ text ++ back = bytes := by
  rw [result_append_eq_ok_iff]
  constructor
  · rintro ⟨_, _, back, ⟨⟩, hback, rfl⟩
    exact ⟨back, hback, rfl⟩
  · rintro ⟨back, hback, rfl⟩
    exact ⟨text, sink, back, rfl, hback, rfl⟩

/-- A piece between two constant texts. -/
theorem result_enclosed_eq_ok_iff {front back bytes : Bytes} {piece : Piece Bytes} :
    ((pure front : Piece Bytes).append (piece.append (pure back))).result sink =
        (.ok bytes, sink') ↔
      ∃ own, piece.result sink = (.ok own, sink') ∧ front ++ (own ++ back) = bytes := by
  rw [result_text_append_eq_ok_iff]
  simp only [result_append_eq_ok_iff]
  constructor
  · rintro ⟨_, ⟨own, _, _, hown, ⟨⟩, rfl⟩, rfl⟩
    exact ⟨own, hown, rfl⟩
  · rintro ⟨own, hown, rfl⟩
    exact ⟨_, ⟨own, _, _, hown, rfl, rfl⟩, rfl⟩

theorem result_mapM_cons_eq_ok_iff {f : α → Piece β} {a : α} {rest : List α} {made : List β} :
    ((a :: rest).mapM f).result sink = (.ok made, sink') ↔
      ∃ b between others, (f a).result sink = (.ok b, between) ∧
        (rest.mapM f).result between = (.ok others, sink') ∧ b :: others = made := by
  rw [List.mapM_cons]
  exact result_both_eq_ok_iff

theorem result_mapM_append_eq_ok_iff {f : α → Piece β} {xs ys : List α} {made : List β} :
    ((xs ++ ys).mapM f).result sink = (.ok made, sink') ↔
      ∃ front between back, (xs.mapM f).result sink = (.ok front, between) ∧
        (ys.mapM f).result between = (.ok back, sink') ∧ front ++ back = made := by
  rw [List.mapM_append]
  exact result_both_eq_ok_iff

end Piece

/-! ### Steps that write pieces -/

/-- No hole has left anything behind. -/
def Canvas.Clear (c : Canvas) : Prop := c.captured = none ∧ c.closing = .none

/-- How a canvas is left by a step that appends bytes: with these at its end, or, after an error,
with what it held at its front. -/
inductive Wrote (c : Canvas) : Except Error Bytes × Sink → Except Error Unit × Canvas → Prop
  | ok {bytes : Bytes} {sink : Sink} {c' : Canvas} (hclear : c'.Clear) (hsink : c'.sink = sink)
      (hout : c'.out.toList = c.out.toList ++ bytes) : Wrote c (.ok bytes, sink) (.ok (), c')
  | error {e : Error} {sink : Sink} {c' : Canvas} (hsink : c'.sink = sink)
      (hout : c.out.toList <+: c'.out.toList) : Wrote c (.error e, sink) (.error e, c')

/-- A step appends a piece to whatever there is. -/
structure Writes (step : Render Unit) (piece : Piece Bytes) : Prop where
  wrote : ∀ c : Canvas, c.Clear → Wrote c (piece.result c.sink) (Render.exec step c)
  grows : piece.Grows

/-- What a step appends to an empty canvas. -/
def Render.piece (step : Render Unit) : Piece Bytes :=
  ExceptT.mk fun sink =>
    let left := Render.exec step (.start .empty sink)
    (left.1.map fun _ => left.2.out.toList, left.2.sink)

theorem Render.result_piece (step : Render Unit) (sink : Sink) :
    (piece step).result sink =
      let left := exec step (.start .empty sink)
      (left.1.map fun _ => left.2.out.toList, left.2.sink) := rfl

theorem Canvas.toList_start (sink : Sink) : (Canvas.start .empty sink).out.toList = [] := rfl

/-- A piece that a step appends anywhere is the one that it appends to an empty canvas. -/
theorem Writes.piece_eq {step : Render Unit} {piece : Piece Bytes} (h : Writes step piece) :
    step.piece = piece := by
  apply Piece.ext
  intro sink
  have hwrote := h.wrote (.start .empty sink) ⟨rfl, rfl⟩
  rw [Render.result_piece]
  change Wrote _ (piece.result sink) _ at hwrote
  generalize Render.exec step (.start .empty sink) = left at hwrote ⊢
  generalize piece.result sink = given at hwrote ⊢
  cases hwrote with
  | ok hclear hsink hout =>
    rw [Canvas.toList_start, List.nil_append] at hout
    simp [Except.map, hsink, hout]
  | error hsink hout => simp [Except.map, hsink]

/-- A step appends the same piece to whatever there is. -/
abbrev Local (step : Render Unit) : Prop := Writes step step.piece

theorem Writes.isLocal {step : Render Unit} {piece : Piece Bytes} (h : Writes step piece) :
    Local step := by
  rw [Local, h.piece_eq]
  exact h

namespace Writes

variable {step : Render Unit} {piece : Piece Bytes}

theorem pure : Writes (Pure.pure ()) (Pure.pure []) where
  wrote _ hc := .ok hc rfl (List.append_nil _).symm
  grows := .pure []

theorem write (bytes : Bytes) : Writes (Render.write bytes) (Pure.pure bytes) where
  wrote _ hc := .ok hc rfl (Buffer.toList_append _ _)
  grows := .pure bytes

theorem throw (e : Error) : Writes (MonadExcept.throw e) (MonadExcept.throw e) where
  wrote _ _ := .error rfl (List.prefix_refl _)
  grows := .liftM (.error e)

theorem seq {next : Render Unit} {piece' : Piece Bytes} (h : Writes step piece)
    (h' : Writes next piece') : Writes (step >>= fun _ => next) (piece.append piece') where
  wrote c hc := by
    have hfirst := h.wrote c hc
    rw [Piece.append, Piece.result_bind, Render.exec_bind]
    generalize Render.exec step c = left at hfirst ⊢
    generalize piece.result c.sink = given at hfirst ⊢
    cases hfirst with
    | @ok bytes _ c' hclear hsink hout =>
      have hsecond := h'.wrote c' hclear
      subst hsink
      simp only [Piece.result_bind]
      generalize Render.exec next c' = left at hsecond ⊢
      generalize piece'.result c'.sink = given at hsecond ⊢
      cases hsecond with
      | ok hclear' hsink' hout' =>
        exact .ok hclear' hsink' (by rw [hout', hout, List.append_assoc])
      | error hsink' hout' =>
        refine .error hsink' (List.IsPrefix.trans ?_ hout')
        rw [hout]
        exact List.prefix_append _ _
    | error hsink hout => exact .error hsink hout
  grows := h.grows.append h'.grows

/-- A result that needs no canvas, and what follows from it. -/
theorem lift {value : Except Error α} {next : α → Render Unit} {pieces : α → Piece Bytes}
    (h : ∀ a, value = .ok a → Writes (next a) (pieces a)) :
    Writes (liftM value >>= next) (liftM value >>= pieces) := by
  cases value with
  | error e => exact throw e
  | ok a => exact h a rfl

theorem sanitized {qualifier : Option String} {s : Settings} {mode : SafeMode}
    (h : Writes step piece) :
    Writes (Render.sanitized qualifier s mode step)
      (piece >>= fun text => liftM (fitText qualifier s mode text)) where
  wrote c hc := by
    have hstep := h.wrote c hc
    change Wrote c _ (Render.exec (get >>= fun left => _) c)
    rw [Render.exec_bind_ok (Render.exec_get c), Render.exec_bind, Piece.result_bind]
    generalize Render.exec step c = left at hstep ⊢
    generalize piece.result c.sink = given at hstep ⊢
    cases hstep with
    | @ok bytes _ c' hclear hsink hout =>
      have htail : c'.out.tail c.out.size = bytes := by
        rw [Buffer.tail, hout]
        exact List.drop_left' rfl
      have hfront : c'.out.toList.take c.out.size = c.out.toList := by
        rw [hout]
        exact List.take_left' rfl
      have hstart : c.out.size ≤ c'.out.size := by
        have hlength := congrArg List.length hout
        rw [List.length_append] at hlength
        have hsize : ∀ b : Buffer, b.size = b.toList.length := fun b => rfl
        rw [hsize, hsize]
        omega
      have hspec := Buffer.sanitize_eq hstart qualifier s mode
      rw [htail, hfront] at hspec
      simp only [Render.exec_bind_ok (Render.exec_get c'), Piece.result_liftM]
      cases hfit : fitText qualifier s mode bytes with
      | error e =>
        rw [hfit] at hspec
        simp only at hspec
        rw [hspec]
        exact .error hsink (hout ▸ List.prefix_append _ _)
      | ok fitted =>
        rw [hfit] at hspec
        obtain ⟨out, hok, htext⟩ := hspec
        rw [hok]
        exact .ok hclear hsink htext
    | error hsink hout => exact .error hsink hout
  grows := h.grows.bind fun _ => .liftM _

theorem separate (later : Bool) (text : String) :
    Writes (Render.separate later text) (Pure.pure (if later then utf8 text else [])) := by
  cases later with
  | false => exact pure
  | true => exact write (utf8 text)

end Writes

/-! ### Scalars -/

/-- The piece of a value that holds no other value: its literal, or, if it is long and there is a
sink with room, what stands for its place in the sink. -/
def Piece.scalar (s : Settings) (value : Value) : Piece Bytes :=
  ExceptT.mk fun sink =>
    match sink with
    | none => (Literal.scalar s.literalStyle value, none)
    | some values =>
      if Render.isLong s value ∧ values.size < Render.sinkLimit then
        (.ok (utf8 (Render.placeholder s.family (values.size + 1))), some (values.push value))
      else (Literal.scalar s.literalStyle value, some values)

theorem Piece.result_scalar_some (s : Settings) (value : Value) (values : Array Value) :
    (scalar s value).result (some values) =
      if Render.isLong s value ∧ values.size < Render.sinkLimit then
        (.ok (utf8 (Render.placeholder s.family (values.size + 1))), some (values.push value))
      else (Literal.scalar s.literalStyle value, some values) := rfl

theorem Piece.Grows.scalar (s : Settings) (value : Value) : Grows (scalar s value) := by
  intro sink
  cases sink with
  | none => exact .refl none
  | some values =>
    rw [result_scalar_some]
    split
    · exact ⟨#[value], by simp⟩
    · exact .refl (some values)

theorem Render.exec_externalize (s : Settings) (value : Value) (c : Canvas) :
    exec (externalize s value) c =
      match c.sink with
      | none => (.ok false, c)
      | some values =>
        if sinkLimit ≤ values.size then (.ok false, c)
        else (.ok true, { c with
          sink := some (values.push value)
          out := c.out.append (utf8 (placeholder s.family (values.size + 1))) }) := by
  unfold externalize
  rw [exec_bind_ok (exec_get c)]
  cases c.sink with
  | none => rfl
  | some values =>
    dsimp only
    split <;> rfl

theorem Writes.writeScalar (s : Settings) (value : Value) :
    Writes (Render.writeScalar s value) (Piece.scalar s value) where
  wrote c hc := by
    have hliteral : Wrote c (Literal.scalar s.literalStyle value, c.sink)
        (Render.exec (liftM (Literal.scalar s.literalStyle value) >>= Render.write) c) := by
      cases Literal.scalar s.literalStyle value with
      | error e => exact .error rfl (List.prefix_refl _)
      | ok bytes => exact .ok hc rfl (Buffer.toList_append _ _)
    unfold Render.writeScalar
    by_cases hlong : Render.isLong s value = true
    · simp only [hlong, if_true]
      rw [Render.exec_bind, Render.exec_externalize]
      cases hsink : c.sink with
      | none =>
        rw [hsink] at hliteral
        exact hliteral
      | some values =>
        rw [hsink] at hliteral
        rw [Piece.result_scalar_some]
        by_cases hfull : Render.sinkLimit ≤ values.size
        · rw [if_neg (by omega)]
          simp only [if_pos hfull]
          exact hliteral
        · rw [if_pos ⟨hlong, by omega⟩]
          simp only [if_neg hfull]
          exact .ok hc rfl (Buffer.toList_append _ _)
    · simp only [hlong]
      have hinline : (Piece.scalar s value).result c.sink
          = (Literal.scalar s.literalStyle value, c.sink) := by
        cases c.sink with
        | none => rfl
        | some values =>
          rw [Piece.result_scalar_some, if_neg fun h => hlong h.1]
      rw [hinline]
      exact hliteral
  grows := .scalar s value

/-! ### Properties of what is written -/

/-- Whatever a piece is, it has a property. -/
def Piece.Yields (P : Bytes → Prop) (piece : Piece Bytes) : Prop :=
  ∀ sink bytes, (piece.result sink).1 = .ok bytes → P bytes

namespace Piece.Yields

variable {P : Bytes → Prop} {piece piece' : Piece Bytes}

theorem pure {bytes : Bytes} (h : P bytes) : Yields P (Pure.pure bytes) := by
  intro sink bytes' hbytes
  exact Except.ok.inj hbytes ▸ h

theorem throw (e : Error) : Yields P (MonadExcept.throw e) := nofun

theorem append (happend : ∀ {x y : Bytes}, P x → P y → P (x ++ y)) (h : Yields P piece)
    (h' : Yields P piece') : Yields P (piece.append piece') := by
  intro sink bytes hbytes
  obtain ⟨front, hfront, hbytes⟩ := ok_of_bind hbytes
  obtain ⟨back, hback, hbytes⟩ := ok_of_bind hbytes
  cases hbytes
  exact happend (h _ _ hfront) (h' _ _ hback)

theorem liftM {value : Except Error Bytes} (h : ∀ {bytes : Bytes}, value = .ok bytes → P bytes) :
    Yields P (MonadLiftT.monadLift value) := fun _ _ hbytes => h hbytes

theorem scalar {s : Settings} {value : Value}
    (hliteral : ∀ {bytes : Bytes}, Literal.scalar s.literalStyle value = .ok bytes → P bytes)
    (hplaceholder : ∀ position, P (utf8 (Render.placeholder s.family position))) :
    Yields P (Piece.scalar s value) := by
  intro sink bytes hbytes
  cases sink with
  | none => exact hliteral hbytes
  | some values =>
    rw [result_scalar_some] at hbytes
    split at hbytes
    · exact Except.ok.inj hbytes ▸ hplaceholder _
    · exact hliteral hbytes

end Piece.Yields

/-- A step appends the same piece to whatever there is, and the piece is in a class. -/
structure Emits (C : Piece Bytes → Prop) (step : Render Unit) : Prop where
  isLocal : Local step
  holds : C step.piece

theorem Writes.emits {C : Piece Bytes → Prop} {step : Render Unit} {piece : Piece Bytes}
    (h : Writes step piece) (hpiece : C piece) : Emits C step := by
  refine ⟨h.isLocal, ?_⟩
  rw [h.piece_eq]
  exact hpiece

namespace Emits

variable {C : Piece Bytes → Prop} {step next : Render Unit}

theorem pure (h : C (Pure.pure [])) : Emits C (Pure.pure ()) := Writes.pure.emits h

theorem write {bytes : Bytes} (h : C (Pure.pure bytes)) : Emits C (Render.write bytes) :=
  (Writes.write bytes).emits h

theorem throw {e : Error} (h : C (MonadExcept.throw e)) : Emits C (MonadExcept.throw e) :=
  (Writes.throw e).emits h

theorem seq (happend : ∀ {first second : Piece Bytes}, C first → C second →
      C (first.append second))
    (h : Emits C step) (h' : Emits C next) : Emits C (step >>= fun _ => next) :=
  (h.isLocal.seq h'.isLocal).emits (happend h.holds h'.holds)

theorem lift {value : Except Error α} {steps : α → Render Unit}
    (hthrow : ∀ e, value = .error e → C (MonadExcept.throw e))
    (h : ∀ a, value = .ok a → Emits C (steps a)) : Emits C (liftM value >>= steps) := by
  cases value with
  | error e => exact throw (hthrow e rfl)
  | ok a => exact h a rfl

/-- A text that is written and then checked is the checked text. -/
theorem sanitized_lift {qualifier : Option String} {s : Settings} {mode : SafeMode}
    {value : Except Error α} {text : α → Bytes}
    (hthrow : ∀ e, value = .error e → C (MonadExcept.throw e))
    (h : ∀ a, value = .ok a → C (liftM (fitText qualifier s mode (text a)))) :
    Emits C (Render.sanitized qualifier s mode
      (liftM value >>= fun a => Render.write (text a))) := by
  cases value with
  | error e => exact (Writes.throw e).sanitized.emits (hthrow e rfl)
  | ok a => exact (Writes.write (text a)).sanitized.emits (h a rfl)

end Emits

end SqlTemplate
