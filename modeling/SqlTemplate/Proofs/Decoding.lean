import SqlTemplate.Proofs.Aliases
import SqlTemplate.Proofs.Encoding
import SqlTemplate.Proofs.Failures
import SqlTemplate.Proofs.ReadBack

/-!
# What is handed out can be read

Statements, safe texts and literals are made of bytes, and handed out only if the bytes are a text.
They always are: whatever is written is a text (`Fragment.isText_piece`), and what checking leaves
of a text is one (`isText_fitText`). So no rendering, of a fragment or of one in a JSON text, fails
because its bytes cannot be read (`renderings_are_texts`).
-/

namespace SqlTemplate

open Render

/-- An error other than that of bytes that are no text. -/
def Error.IsReadable (e : Error) : Prop := ∀ fault, e ≠ .invalidUtf8 fault

theorem Error.isReadable_of_isOfTemplate {e : Error} (h : e.isOfTemplate = false) :
    e.IsReadable := by
  rintro fault rfl
  cases h

theorem FailsIn.ne_invalidUtf8 {α : Type} {result : Except Error α}
    (h : FailsIn Error.IsReadable result) (fault : Utf8.Fault) :
    result ≠ .error (.invalidUtf8 fault) :=
  fun herror => h _ herror fault rfl

theorem Blameless.readable {α : Type} {result : Except Error α} (h : Blameless result) :
    FailsIn Error.IsReadable result :=
  h.mono fun _ => Error.isReadable_of_isOfTemplate

/-! ### Fragments -/

theorem readable_find (index : Nat) (opener : Option UInt8) (next : Bytes) :
    FailsIn Error.IsReadable (Hole.find index opener next) := by
  cases opener with
  | none => exact .ok _
  | some b =>
    by_cases hb : Hole.isOpener b = true
    · simp only [Hole.find, if_pos hb]
      cases Hole.enclosed? b next with
      | some hole => exact .ok hole
      | none =>
        refine .error fun fault h => ?_
        cases h
    · simp only [Hole.find, if_neg hb]
      exact .ok _

theorem blameless_checkEmbeds (parent child : Settings) : Blameless (parent.checkEmbeds child) := by
  unfold Settings.checkEmbeds
  split
  · exact .error rfl
  · exact .ok ()

mutual

theorem nests_readable (s : Settings) (qualifier : Option String) :
    (value : Value) → value.Nests (EmitsNested s (Piece.FailsIn Error.IsReadable)) qualifier
  | .list items => nestsItems_readable s items
  | .map entries => nestsEntries_readable s entries
  | .fragment ⟨child, head, holes, _⟩ =>
    ⟨(writes_embedded (isLocal_holes s holes)).emits
      (.bind (.liftM (blameless_checkEmbeds s child).readable) fun _ =>
        readable_pieceFrom s qualifier 0 none 0 (utf8 head) holes),
      fun e he => .throw (Fragment.failsIn_toSql
        (readable_pieceFrom child none 0 none 0 (utf8 head) holes none) e he)⟩
  | .null | .bool _ | .int _ | .uint _ | .bigint _ | .float _ | .str _ | .bytes _ | .date _
  | .dateTime _ | .json _ | .foreign _ => trivial

theorem nestsItems_readable (s : Settings) :
    (items : List Value) → NestsItems (EmitsNested s (Piece.FailsIn Error.IsReadable)) items
  | [] => trivial
  | item :: rest => ⟨nests_readable s none item, nestsItems_readable s rest⟩

theorem nestsEntries_readable (s : Settings) :
    (entries : List (String × Value)) →
      NestsEntries (EmitsNested s (Piece.FailsIn Error.IsReadable)) entries
  | [] => trivial
  | (_, value) :: rest => ⟨nests_readable s none value, nestsEntries_readable s rest⟩

/-- What is left of a chunk and the holes after it do not fail because bytes cannot be read. -/
theorem readable_pieceFrom (s : Settings) (inherited : Option String) (index : Nat)
    (captured : Option String) (skipped : Nat) (chunk : Bytes) :
    (holes : List (Value × String)) →
      (pieceFrom s inherited index captured skipped chunk holes).FailsIn Error.IsReadable
  | [] => by
    rw [pieceFrom]
    exact .pure _
  | (value, following) :: rest => by
    rw [pieceFrom_cons]
    refine .bind (.liftM (readable_find _ _ _)) fun hole => ?_
    have hown := failsIn_piece (fun _ => Error.isReadable_of_isOfTemplate) (utf8 following) hole
      (nests_readable s (captured.or inherited) value)
    exact .append (.pure _) (.append hown (readable_pieceFrom s inherited (index + 1) _ _ _ rest))

end

theorem Fragment.readable_toSql (f : Fragment) : FailsIn Error.IsReadable f.toSql :=
  failsIn_toSql (readable_pieceFrom f.settings none 0 none 0 (utf8 f.head) f.holes none)

/-! ### Statements -/

theorem Name.readable_pickAlias (chain : List String) (taken : String → Bool) :
    FailsIn Error.IsReadable (pickAlias chain taken) := by
  unfold pickAlias
  split
  · exact .ok _
  · refine .error fun fault h => ?_
    cases h

namespace Statement

theorem readable_build (q : Statement) : FailsIn Error.IsReadable q.build := by
  have hbuilding (e : Error) (he : e.isOfBuilding = true) : e.IsReadable := by
    rintro fault rfl
    cases he
  have hbase : FailsIn Error.IsReadable q.baseAlias := by
    unfold baseAlias
    split
    · exact .ok none
    · exact (Name.readable_pickAlias _ _).map _
  exact failsIn_build hbuilding hbase fun base _ => Name.readable_pickAlias _ _

theorem readable_toSql (q : Statement) : FailsIn Error.IsReadable (q.perform .toSql).1 := by
  unfold perform
  cases hbuild : q.build with
  | error e => exact .error (q.readable_build e hbuild)
  | ok built => exact built.1.readable_toSql.map _

end Statement

/-! ### Literals -/

theorem readable_of_throws {α : Type} {result : Except Error α}
    (h : FailsIn (fun e => Piece.FailsIn Error.IsReadable (throw e : Piece Bytes)) result) :
    FailsIn Error.IsReadable result :=
  h.mono fun e he => he none e rfl

theorem Value.readable_literal (style : LiteralStyle) (v : Value) :
    FailsIn Error.IsReadable (v.literal style) := by
  -- a JSON text does not depend on the settings that it is written under
  have hC := closed_failsIn (fun _ => Error.isReadable_of_isOfTemplate) (.ofDialect .mysql)
  unfold literal
  split
  · rename_i items
    exact (readable_of_throws (throws_jsonItems hC items (nestsItems_readable _ items))).map _
  · rename_i entries
    exact (readable_of_throws
      (throws_jsonMembers hC entries (nestsEntries_readable _ entries))).map _
  · exact (blameless_scalar style _).readable

theorem Value.readable_quote (style : LiteralStyle) (v : Value) :
    FailsIn Error.IsReadable (v.quote style) := by
  by_cases hfragment : ∃ f, v = .fragment f
  · obtain ⟨f, rfl⟩ := hfragment
    exact f.readable_toSql
  · have hfragment (f : Fragment) (hf : v = .fragment f) : False := hfragment ⟨f, hf⟩
    cases hliteral : v.literal style with
    | error e =>
      rw [quote_of_literal_error hfragment hliteral]
      exact .error (v.readable_literal style e hliteral)
    | ok bytes =>
      obtain ⟨text, htext, -⟩ := exists_quote hfragment hliteral
      rw [htext]
      exact .ok text

/-! ### Texts -/

theorem Fragment.exists_text_of_renderInto {f : Fragment} {out : Buffer} {sink : Sink}
    {options : Options} (h : (f.renderInto out sink options).result = .ok ()) :
    ∃ text : String, (f.renderInto out sink options).out.toList = out.toList ++ utf8 text := by
  obtain ⟨hresult, -, hout⟩ := f.renderInto_eq out sink options
  rw [h] at hresult
  cases hgiven : ((f.piece (options.settings f.settings)).result sink).1 with
  | error e =>
    rw [hgiven] at hresult
    cases hresult
  | ok bytes =>
    obtain ⟨text, rfl⟩ := f.isText_piece _ sink bytes hgiven
    rw [hgiven] at hout
    exact ⟨text, hout⟩

theorem Buffer.exists_text_of_sanitize {text : String} {before after : Buffer} {start : Nat}
    {qualifier : Option String} {s : Settings} {mode : SafeMode} (hstart : start ≤ before.size)
    (htail : before.tail start = utf8 text)
    (h : before.sanitize start qualifier s mode = .ok after) :
    ∃ fitted : String, after.toList = before.toList.take start ++ utf8 fitted := by
  have hspec := sanitize_eq hstart qualifier s mode
  rw [htail, h] at hspec
  cases hfit : fitText qualifier s mode (utf8 text) with
  | error e =>
    rw [hfit] at hspec
    cases hspec
  | ok bytes =>
    rw [hfit] at hspec
    obtain ⟨_, ⟨⟩, hbytes⟩ := hspec
    obtain ⟨fitted, rfl⟩ := isText_fitText (isText_utf8 text) hfit
    exact ⟨fitted, hbytes⟩

theorem readable_sanitize (text : String) (qualifier : Option String) (s : Settings)
    (mode : SafeMode) : FailsIn Error.IsReadable (sanitize text qualifier s mode) := fun e he =>
  (blameless_fitText mode (utf8 text)).readable e (sanitize_eq_error_iff.mp he)

/-- What rendering appends to a buffer is a text, and so is what checking leaves of a text that
stands in one; and nothing that is handed out as a text is refused because its bytes are none. -/
theorem renderings_are_texts :
    (∀ (f : Fragment) (out : Buffer) (sink : Option (Array Value)) (options : Fragment.Options),
      (f.renderInto out sink options).result = .ok () →
        ∃ text : String, (f.renderInto out sink options).out.toList = out.toList ++ utf8 text) ∧
    (∀ (text : String) (before after : Buffer) (start : Nat) (qualifier : Option String)
      (s : Settings) (mode : SafeMode), start ≤ before.size → before.tail start = utf8 text →
        before.sanitize start qualifier s mode = .ok after →
          ∃ fitted : String, after.toList = before.toList.take start ++ utf8 fitted) ∧
    ∀ fault,
      (∀ f : Fragment, f.toSql ≠ .error (.invalidUtf8 fault)) ∧
      (∀ q : Statement, (q.perform .toSql).1 ≠ .error (.invalidUtf8 fault)) ∧
      (∀ text qualifier s mode, sanitize text qualifier s mode ≠ .error (.invalidUtf8 fault)) ∧
      ∀ (v : Value) style, v.quote style ≠ .error (.invalidUtf8 fault) :=
  ⟨fun _ _ _ _ hok => Fragment.exists_text_of_renderInto hok,
    fun _ _ _ _ _ _ _ hstart htail hok => Buffer.exists_text_of_sanitize hstart htail hok,
    fun fault => ⟨fun f => f.readable_toSql.ne_invalidUtf8 fault,
      fun q => q.readable_toSql.ne_invalidUtf8 fault,
      fun text qualifier s mode => (readable_sanitize text qualifier s mode).ne_invalidUtf8 fault,
      fun v style => (v.readable_quote style).ne_invalidUtf8 fault⟩⟩

/-- A name of two bytes that takes a qualifier, and a pair of a backslash and the first byte of one.
-/
theorem renderings_are_texts_pair :
    let s := Settings.ofDialect .mysql
    let f : Fragment := ⟨s, "SELECT (", [(.str "é = '\\é'", ")")], 0⟩
    (∃ text : String, (f.renderInto .empty none {}).result = .ok () ∧
      (f.renderInto .empty none {}).out.toList = utf8 text) ∧
    ∃ (after : Buffer) (fitted : String),
      (Buffer.ofText "é = '\\é'").sanitize 0 (some "t") s .nested = .ok after ∧
        after.toList = utf8 fitted := by
  intro s f
  obtain ⟨hrendered, hchecked, -⟩ := renderings_are_texts
  have hok : (f.renderInto .empty none {}).result = .ok () := by decide +kernel
  have haccepted : ((Buffer.ofText "é = '\\é'").sanitize 0 (some "t") s .nested).isOk = true := by
    decide +kernel
  obtain ⟨text, htext⟩ := hrendered f .empty none {} hok
  refine ⟨⟨text, hok, htext⟩, ?_⟩
  cases hafter : (Buffer.ofText "é = '\\é'").sanitize 0 (some "t") s .nested with
  | error e =>
    rw [hafter] at haccepted
    exact absurd haccepted Bool.false_ne_true
  | ok after =>
    obtain ⟨fitted, hfitted⟩ := hchecked "é = '\\é'" _ _ 0 _ _ _ (Nat.zero_le _) rfl hafter
    exact ⟨after, fitted, rfl, hfitted⟩

end SqlTemplate
