import SqlTemplate.Proofs.Rendering

/-!
# Values in a sink

With a sink at hand, a long value goes there and a placeholder is written for it. Two renderings of
one fragment, one with a sink and one without, agree but for that: they end in the same way, and
their texts are the same up to the placeholders, which are numbered by the places of the values in
the sink (`Fragment.renderInto_externalizes`).

A fragment in parentheses under a qualifier is the exception, because its text is checked once more.
The check sees a literal in the one text and a placeholder in the other, and need not accept both.
Fragments without one are `unchecked`, and the two renderings are followed side by side through
every piece of them (`Piece.Agrees`).
-/

namespace SqlTemplate

open Render

/-! ### Fragments that are not checked again -/

def Value.isFragment : Value → Bool
  | .fragment _ => true
  | _ => false

mutual

/-- No fragment in a value stands in parentheses under a qualifier. The value itself stands under
`qualifier`. -/
def Value.unchecked (qualifier : Option String) : Value → Bool
  | .list items => uncheckedItems items
  | .map entries => uncheckedEntries entries
  | .fragment ⟨_, head, holes, _⟩ => uncheckedHoles qualifier 0 none 0 (utf8 head) holes
  | _ => true

def uncheckedItems : List Value → Bool
  | [] => true
  | item :: rest => item.unchecked none && uncheckedItems rest

def uncheckedEntries : List (String × Value) → Bool
  | [] => true
  | (_, value) :: rest => value.unchecked none && uncheckedEntries rest

/-- The holes after a chunk without its first `skipped` bytes, as `pieceFrom` goes through them. -/
def uncheckedHoles (inherited : Option String) (index : Nat) (captured : Option String)
    (skipped : Nat) (chunk : Bytes) : List (Value × String) → Bool
  | [] => true
  | (value, following) :: rest =>
    match Hole.find index (chunk.drop skipped).getLast? (utf8 following) with
    | .error _ => true
    | .ok hole =>
      !(hole == .expression && (captured.or inherited).isSome && value.isFragment) &&
        value.unchecked (captured.or inherited) &&
        uncheckedHoles inherited (index + 1) (hole.captures value) (hole.skips (utf8 following))
          (utf8 following) rest

end

/-- No fragment in a fragment stands in parentheses under a qualifier. -/
def Fragment.unchecked (f : Fragment) : Bool := uncheckedHoles none 0 none 0 (utf8 f.head) f.holes

/-! ### Two texts side by side -/

/-- Values that went to a sink that held `n`: they are long, and the sink had room for them. -/
structure Pushed (s : Settings) (n : Nat) (values : List Value) : Prop where
  long : ∀ value ∈ values, isLong s value = true
  room : n + values.length ≤ max n sinkLimit

theorem Pushed.nil (s : Settings) (n : Nat) : Pushed s n [] :=
  ⟨List.forall_mem_nil _, le_max_left n sinkLimit⟩

theorem Pushed.append {s : Settings} {n : Nat} {values values' : List Value}
    (h : Pushed s n values) (h' : Pushed s (n + values.length) values') :
    Pushed s n (values ++ values') := by
  refine ⟨List.forall_mem_append.mpr ⟨h.long, h'.long⟩, ?_⟩
  have hroom := h.room
  have hroom' := h'.room
  rw [List.length_append]
  omega

/-- Two texts are the same but for the literals of `values` in the first: in the second there are
the placeholders of the places in a sink from the one after `n` on. -/
inductive Externalizes (s : Settings) : Nat → List Value → Bytes → Bytes → Prop
  | text (n : Nat) (text : Bytes) : Externalizes s n [] text text
  | value {n : Nat} {value : Value} {values : List Value} {literal inline external : Bytes}
      (front : Bytes) (hliteral : Literal.scalar s.literalStyle value = .ok literal)
      (hrest : Externalizes s (n + 1) values inline external) :
      Externalizes s n (value :: values) (front ++ (literal ++ inline))
        (front ++ (utf8 (placeholder s.family (n + 1)) ++ external))

namespace Externalizes

variable {s : Settings} {n : Nat} {values values' : List Value}
  {inline external inline' external' : Bytes}

theorem prepend (text : Bytes) (h : Externalizes s n values inline external) :
    Externalizes s n values (text ++ inline) (text ++ external) := by
  cases h with
  | text => exact .text n (text ++ inline)
  | value front hliteral hrest =>
    have hvalue := Externalizes.value (text ++ front) hliteral hrest
    rw [List.append_assoc, List.append_assoc] at hvalue
    exact hvalue

theorem append (h : Externalizes s n values inline external)
    (h' : Externalizes s (n + values.length) values' inline' external') :
    Externalizes s n (values ++ values') (inline ++ inline') (external ++ external') := by
  induction h with
  | text _ text => exact h'.prepend text
  | @value n value values _ _ _ front hliteral _ ih =>
    have hcount : n + (value :: values).length = n + 1 + values.length := by
      rw [List.length_cons]
      omega
    rw [hcount] at h'
    simp only [List.cons_append, List.append_assoc]
    exact .value front hliteral (ih h')

end Externalizes

/-! ### Two runs side by side -/

/-- Every long value has a literal. -/
theorem exists_literal_of_isLong {s : Settings} {value : Value}
    (h : isLong s value = true) :
    ∃ literal, Literal.scalar s.literalStyle value = .ok literal := by
  cases value with
  | str text => exact ⟨_, rfl⟩
  | bytes bytes => exact ⟨_, rfl⟩
  | _ => cases h

/-- What a piece gives to no sink, and what it gives to one that holds `values`. -/
inductive Agreed (s : Settings) (values : Array Value) :
    Except Error Bytes × Sink → Except Error Bytes × Sink → Prop
  | ok {pushed : List Value} {inline external : Bytes} {sink : Sink}
      (hpushed : Pushed s values.size pushed) (hsink : sink = some (values ++ pushed.toArray))
      (htexts : Externalizes s values.size pushed inline external) :
      Agreed s values (.ok inline, none) (.ok external, sink)
  | error {pushed : List Value} {sink : Sink} (hpushed : Pushed s values.size pushed)
      (hsink : sink = some (values ++ pushed.toArray)) (e : Error) :
      Agreed s values (.error e, none) (.error e, sink)

theorem Agreed.refl (s : Settings) (values : Array Value) (result : Except Error Bytes) :
    Agreed s values (result, none) (result, some values) := by
  have hsink : some values = some (values ++ ([] : List Value).toArray) := by
    rw [Array.append_empty]
  cases result with
  | ok text => exact .ok (.nil s _) hsink (.text _ text)
  | error e => exact .error (.nil s _) hsink e

/-- With any sink, a piece does the same as without, but for the placeholders. -/
def Piece.Agrees (s : Settings) (piece : Piece Bytes) : Prop :=
  ∀ values : Array Value, Agreed s values (piece.result none) (piece.result (some values))

namespace Piece.Agrees

variable {α : Type} {s : Settings} {first second : Piece Bytes}

theorem liftM (value : Except Error Bytes) : Agrees s (MonadLiftT.monadLift value) :=
  fun values => .refl s values value

theorem pure (text : Bytes) : Agrees s (Pure.pure text) := liftM (.ok text)

theorem throw (e : Error) : Agrees s (MonadExcept.throw e) := liftM (.error e)

theorem lift {value : Except Error α} {pieces : α → Piece Bytes}
    (h : ∀ a, value = .ok a → Agrees s (pieces a)) :
    Agrees s (MonadLiftT.monadLift value >>= pieces) := by
  cases value with
  | error e => exact throw e
  | ok a => exact h a rfl

/-- The second of two pieces finds the sink longer by what the first put there. -/
theorem append (h : Agrees s first) (h' : Agrees s second) : Agrees s (first.append second) := by
  intro values
  have hfirst := h values
  rw [Piece.append, result_bind, result_bind]
  generalize first.result none = inline at hfirst ⊢
  generalize first.result (some values) = external at hfirst ⊢
  cases hfirst with
  | error hpushed hsink e => exact .error hpushed hsink e
  | @ok pushed _ _ _ hpushed hsink htexts =>
    have hsecond := h' (values ++ pushed.toArray)
    have hsize : (values ++ pushed.toArray).size = values.size + pushed.length := by simp
    have hjoin : ∀ more : List Value,
        values ++ pushed.toArray ++ more.toArray = values ++ (pushed ++ more).toArray := by simp
    subst hsink
    simp only [result_bind]
    generalize second.result none = inline at hsecond ⊢
    generalize second.result (some (values ++ pushed.toArray)) = external at hsecond ⊢
    cases hsecond with
    | error hpushed' hsink e =>
      rw [hsize] at hpushed'
      exact .error (hpushed.append hpushed') (hsink.trans (congrArg some (hjoin _))) e
    | ok hpushed' hsink htexts' =>
      rw [hsize] at hpushed' htexts'
      exact .ok (hpushed.append hpushed') (hsink.trans (congrArg some (hjoin _)))
        (htexts.append htexts')

/-- A value is pushed if it is long and there is room; else both write its literal. -/
theorem scalar (value : Value) : Agrees s (Piece.scalar s value) := by
  intro values
  rw [result_scalar_some]
  split
  · rename_i h
    obtain ⟨hlong, hroom⟩ := h
    obtain ⟨literal, hliteral⟩ := exists_literal_of_isLong hlong
    have hpushed : Pushed s values.size [value] := by
      refine ⟨List.forall_mem_singleton.mpr hlong, ?_⟩
      rw [List.length_singleton]
      omega
    have htexts := Externalizes.value (n := values.size) [] hliteral (.text _ [])
    simp only [List.nil_append, List.append_nil] at htexts
    have hagreed := Agreed.ok hpushed rfl htexts
    rw [← hliteral] at hagreed
    exact hagreed
  · exact .refl s values _

end Piece.Agrees

/-! ### Pieces of fragments -/

theorem closed_agrees (s : Settings) : Closed s (Piece.Agrees s) where
  nil := .pure []
  append := .append
  throw _ := .throw _
  constant _ _ := .pure _
  identity _ := .pure _
  name _ _ := .pure _
  json _ := .pure _
  scalar := .scalar

/-- A hole of any kind, unless its text is checked again. -/
theorem agrees_piece {s : Settings} {qualifier : Option String} {value : Value} {hole : Hole}
    (next : Bytes) (h : value.Nests (EmitsNested s (Piece.Agrees s)) qualifier)
    (hchecked : (hole == .expression && qualifier.isSome && value.isFragment) = false) :
    Piece.Agrees s ((Filling.ofValue s value).piece s qualifier next hole) := by
  have hC := closed_agrees s
  cases hole with
  | value => exact (emits_writeValue hC h).holds
  | list => exact (Piece.Agrees.pure _).append ((emits_writeList hC h).holds.append (.pure _))
  | rows => exact (emits_writeRowsOf hC h).holds
  | name | names kind | qualifier => exact .liftM _
  | assignments => exact (emits_writeAssignmentsOf hC qualifier h).holds
  | conditions all => exact (emits_writeConditionsOf hC all qualifier h).holds
  | expression =>
    refine (emits_writeExpression (fun _ _ => .throw _) (fun _ => .liftM _) (fun _ => .liftM _)
      ?_).holds
    rintro ⟨child, head, holes, sizeHint⟩ rfl
    have hqualifier : qualifier.isSome = false := by simpa [Value.isFragment] using hchecked
    simp only [writeExpression, hqualifier]
    exact h.emits
  | bare =>
    exact (emits_writeBare (fun _ _ => .throw _) (fun _ => .liftM _) (fun _ => .pure _) h).holds

mutual

theorem nests_agrees (s : Settings) (qualifier : Option String) :
    (value : Value) → value.unchecked qualifier = true →
      value.Nests (EmitsNested s (Piece.Agrees s)) qualifier
  | .list items, h => nestsItems_agrees s items h
  | .map entries, h => nestsEntries_agrees s entries h
  | .fragment ⟨_, head, holes, _⟩, h =>
    ⟨(writes_embedded (isLocal_holes s holes)).emits
      (.lift fun _ _ => agrees_pieceFrom s qualifier 0 none 0 (utf8 head) holes h),
      fun _ _ => .throw _⟩
  | .null, _ | .bool _, _ | .int _, _ | .uint _, _ | .bigint _, _ | .float _, _ | .str _, _
  | .bytes _, _ | .date _, _ | .dateTime _, _ | .json _, _ | .foreign _, _ => trivial

theorem nestsItems_agrees (s : Settings) :
    (items : List Value) → uncheckedItems items = true →
      NestsItems (EmitsNested s (Piece.Agrees s)) items
  | [], _ => trivial
  | item :: rest, h => by
    rw [uncheckedItems, Bool.and_eq_true] at h
    exact ⟨nests_agrees s none item h.1, nestsItems_agrees s rest h.2⟩

theorem nestsEntries_agrees (s : Settings) :
    (entries : List (String × Value)) → uncheckedEntries entries = true →
      NestsEntries (EmitsNested s (Piece.Agrees s)) entries
  | [], _ => trivial
  | (_, value) :: rest, h => by
    rw [uncheckedEntries, Bool.and_eq_true] at h
    exact ⟨nests_agrees s none value h.1, nestsEntries_agrees s rest h.2⟩

theorem agrees_pieceFrom (s : Settings) (inherited : Option String) (index : Nat)
    (captured : Option String) (skipped : Nat) (chunk : Bytes) :
    (holes : List (Value × String)) →
      uncheckedHoles inherited index captured skipped chunk holes = true →
      Piece.Agrees s (pieceFrom s inherited index captured skipped chunk holes)
  | [], _ => by
    rw [pieceFrom]
    exact .pure _
  | (value, following) :: rest, h => by
    rw [pieceFrom_cons]
    refine .lift fun hole hfind => ?_
    rw [uncheckedHoles, hfind] at h
    simp only [Bool.and_eq_true, Bool.not_eq_true'] at h
    obtain ⟨⟨hchecked, hvalue⟩, hrest⟩ := h
    have hown := agrees_piece (utf8 following) (nests_agrees s _ value hvalue) hchecked
    exact (Piece.Agrees.pure _).append
      (hown.append (agrees_pieceFrom s inherited (index + 1) _ _ (utf8 following) rest hrest))

end

/-! ### Fragments -/

/-- Rendering with a sink ends as rendering without one. The sink takes long values as long as it
has room, and where its text has the placeholder of such a value, the other has its literal. -/
theorem Fragment.renderInto_externalizes (f : Fragment) (hunchecked : f.unchecked = true)
    (options : Options) (out : Buffer) (values : Array Value) :
    let s := options.settings f.settings
    let inline := f.renderInto out none options
    let external := f.renderInto out (some values) options
    external.result = inline.result ∧
      ∃ pushed : List Value,
        Pushed s values.size pushed ∧ external.sink = some (values ++ pushed.toArray) ∧
        (inline.result = .ok () → ∃ text text',
          Externalizes s values.size pushed text text' ∧
          inline.out.toList = out.toList ++ text ∧ external.out.toList = out.toList ++ text') := by
  intro s inline external
  obtain ⟨hresult, -, hout⟩ := f.renderInto_eq out none options
  obtain ⟨hresult', hsink', hout'⟩ := f.renderInto_eq out (some values) options
  have hagreed : Agreed s values ((f.piece s).result none) ((f.piece s).result (some values)) :=
    agrees_pieceFrom s none 0 none 0 (utf8 f.head) f.holes hunchecked values
  change inline.result = ((f.piece s).result none).1.map _ at hresult
  change inline.out.toList = _ ++ ((f.piece s).result none).1.toOption.getD [] at hout
  change external.result = ((f.piece s).result (some values)).1.map _ at hresult'
  change external.sink = ((f.piece s).result (some values)).2 at hsink'
  change external.out.toList = _ ++ ((f.piece s).result (some values)).1.toOption.getD [] at hout'
  generalize (f.piece s).result none = given at hagreed hresult hout
  generalize (f.piece s).result (some values) = given' at hagreed hresult' hsink' hout'
  cases hagreed with
  | ok hpushed hsink htexts =>
    exact ⟨hresult'.trans hresult.symm, _, hpushed, hsink'.trans hsink,
      fun _ => ⟨_, _, htexts, hout, hout'⟩⟩
  | error hpushed hsink e =>
    refine ⟨hresult'.trans hresult.symm, _, hpushed, hsink'.trans hsink, ?_⟩
    intro hok
    rw [hresult] at hok
    cases hok

/-- The places in the sink are counted across a list and a nested fragment. -/
theorem Fragment.renderInto_externalizes_nested :
    let s := { Settings.ofDialect .postgres with inlineLimit := 2 }
    let nested : Fragment := ⟨s, "c = '", [(.str "ghi", "'")], 0⟩
    let f : Fragment := ⟨s, "SELECT '", [(.str "abc", "' IN ["),
      (.list [.str "de", .str "def"], "] AND ("), (.fragment nested, ")")], 0⟩
    f.unchecked = true ∧
      ∃ pushed,
        Pushed s 1 pushed ∧
        (f.renderInto .empty (some #[.null]) {}).sink = some (#[.null] ++ pushed.toArray) ∧
        Externalizes s 1 pushed
          (utf8 "SELECT 'abc' IN ('de', 'def') AND (c = 'ghi')")
          (utf8 "SELECT $2 IN ('de', $3) AND (c = $4)") := by
  intro s nested f
  have hunchecked : f.unchecked = true := by decide +kernel
  have hresult : (f.renderInto .empty none {}).result = .ok () := by decide +kernel
  have hinline : (f.renderInto .empty none {}).out.toList
      = utf8 "SELECT 'abc' IN ('de', 'def') AND (c = 'ghi')" := by decide +kernel
  have hexternal : (f.renderInto .empty (some #[.null]) {}).out.toList
      = utf8 "SELECT $2 IN ('de', $3) AND (c = $4)" := by decide +kernel
  obtain ⟨-, pushed, hpushed, hsink, hok⟩ :=
    f.renderInto_externalizes hunchecked {} .empty #[.null]
  obtain ⟨text, text', htexts, hout, hout'⟩ := hok hresult
  rw [hinline] at hout
  rw [hexternal] at hout'
  cases hout
  cases hout'
  exact ⟨hunchecked, pushed, hpushed, hsink, htexts⟩

end SqlTemplate
