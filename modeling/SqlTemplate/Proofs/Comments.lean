import Mathlib.Data.List.Chain
import SqlTemplate.Proofs.Literals
import SqlTemplate.Proofs.Locality
import SqlTemplate.Proofs.SafeText

/-!
# Where a comment comes from

A value without fragments never writes a comment in a hole that stands outside quotes: literals,
names, lists and maps of them are quiet (`Quiet`), and a safe text is checked for comments when it
is written. What is not checked are the seams: a minus at the end of a chunk and the sign of a
number after it make a comment, and so do a minus and a safe text that starts with one. Nor does
anything keep a hole away from a place inside quotes of the template, where what it writes is read
the other way round, or a safe text from a qualifier that is a bare star.
`Fragment.hasComment_toSql` says that this is all.
-/

namespace SqlTemplate

open Region Render

variable {rd : Reader}

/-! ### Quiet texts -/

/-- Read outside quotes, a text leaves none open and has no comment. -/
structure Calm (rd : Reader) (text : Bytes) : Prop where
  ends : ∀ r : Region, r.isOutside = true → (after rd r text).isOutside = true
  noComment : ∀ r : Region, r.isOutside = true → ¬ HasComment rd r text

/-- A calm text that starts no comment with what follows it either. -/
structure Quiet (rd : Reader) (text : Bytes) : Prop extends Calm rd text where
  last : ∀ (r : Region) (b : UInt8), r.isOutside = true → text.getLast? = some b →
    after rd r text = .code → b ≠ Byte.minus ∧ b ≠ Byte.slash

theorem Quiet.nil : Quiet rd [] where
  ends _ hr := hr
  noComment r _ := not_hasComment_nil r
  last := nofun

theorem Quiet.append {x y : Bytes} (hx : Quiet rd x) (hy : Quiet rd y) : Quiet rd (x ++ y) where
  ends r hr := by
    rw [after_append]
    exact hy.ends _ (hx.ends r hr)
  noComment r hr := by
    rw [hasComment_append]
    rintro (hcomment | hcomment | ⟨a, b, hlast, -, hopens, hcode, -⟩)
    · exact hx.noComment r hr hcomment
    · exact hy.noComment _ (hx.ends r hr) hcomment
    · have hne := hx.last r a hr hlast hcode
      rcases hopens with ⟨rfl, -⟩ | ⟨rfl, -⟩
      · exact hne.1 rfl
      · exact hne.2 rfl
  last r b hr hlast hcode := by
    cases y with
    | nil =>
      rw [List.append_nil] at hlast hcode
      exact hx.last r b hr hlast hcode
    | cons c y =>
      rw [List.getLast?_append_of_ne_nil _ (List.cons_ne_nil c y)] at hlast
      rw [after_append] at hcode
      exact hy.last _ b (hx.ends r hr) hlast hcode

/-- A text is quiet if no minus and no slash stands in it outside quotes. -/
theorem Region.Reads.quiet {text code : Bytes} (h : Reads rd text code)
    (hcode : ∀ b ∈ code, b ≠ Byte.minus ∧ b ≠ Byte.slash) : Quiet rd text where
  ends := h.ends
  noComment r hr := not_hasComment_of_codeBytes (by rwa [h.code_eq r hr])
  last r b hr hlast hafter := by
    obtain ⟨x, rfl⟩ := List.getLast?_eq_some_iff.mp hlast
    apply hcode b
    rw [← h.code_eq r hr]
    exact mem_codeBytes_of_after hafter

/-- Bytes that mean nothing by themselves. -/
def isMuted (b : UInt8) : Bool :=
  b != Byte.apostrophe && b != Byte.doubleQuote && b != Byte.backtick && b != Byte.minus &&
    b != Byte.slash

theorem ne_quote_of_isMuted {b : UInt8} (h : isMuted b = true) :
    b ≠ Byte.apostrophe ∧ b ≠ rd.quote := by
  simp only [isMuted, Bool.and_eq_true, bne_iff_ne] at h
  refine ⟨h.1.1.1.1, ?_⟩
  rcases rd.quote_eq with hq | hq <;> rw [hq]
  · exact h.1.1.1.2
  · exact h.1.1.2

theorem quiet_of_isMuted {text : Bytes} (h : ∀ b ∈ text, isMuted b = true) : Quiet rd text := by
  apply (Reads.plain fun b hb => ne_quote_of_isMuted (h b hb)).quiet
  intro b hb
  have hmuted := h b hb
  simp only [isMuted, Bool.and_eq_true, bne_iff_ne] at hmuted
  exact ⟨hmuted.1.2, hmuted.2⟩

theorem isMuted_of_isWord {b : UInt8} (h : Byte.isWord b = true) : isMuted b = true := by
  simp only [isMuted, Bool.and_eq_true, bne_iff_ne]
  refine ⟨⟨⟨⟨?_, ?_⟩, ?_⟩, ?_⟩, ?_⟩ <;>
  · rintro rfl
    exact absurd h (by decide)

theorem isMuted_of_isDigit {b : UInt8} (h : Byte.isDigit b = true) : isMuted b = true :=
  isMuted_of_isWord (isWord_of_isDigit h)

/-- A minus before a quiet text that does not start with another one. -/
theorem Quiet.minus_cons {text : Bytes} (h : Quiet rd text) (hne : text ≠ [])
    (hhead : text.head? ≠ some Byte.minus) : Quiet rd (Byte.minus :: text) := by
  have hcode : ∀ r : Region, r.isOutside = true → step rd r Byte.minus = .code := by
    intro r hr
    rw [step_of_isOutside hr, enter_eq_code]
    refine ⟨by decide, ?_⟩
    rcases rd.quote_eq with hq | hq <;> rw [hq] <;> decide
  refine ⟨⟨?_, ?_⟩, ?_⟩
  · intro r hr
    rw [after_cons, hcode r hr]
    exact h.ends .code rfl
  · intro r hr
    rw [show Byte.minus :: text = [Byte.minus] ++ text from rfl, hasComment_append]
    rintro (hcomment | hcomment | ⟨a, b, hlast, hb, hopens, -⟩)
    · exact not_hasComment_singleton r _ hcomment
    · rw [after_cons, after_nil, hcode r hr] at hcomment
      exact h.noComment .code rfl hcomment
    · obtain rfl : Byte.minus = a := Option.some.inj hlast
      rcases hopens with ⟨-, rfl⟩ | ⟨hslash, -⟩
      · exact hhead hb
      · exact absurd hslash (by decide)
  · intro r b hr hlast hafter
    rw [after_cons, hcode r hr] at hafter
    rw [show Byte.minus :: text = [Byte.minus] ++ text from rfl,
      List.getLast?_append_of_ne_nil _ hne] at hlast
    exact h.last .code b rfl hlast hafter

/-! ### Literals are quiet -/

/-- A number has at most one minus, and that at its front. -/
theorem Literal.IsDecimal.quiet {text : Bytes} (h : Literal.IsDecimal text) : Quiet rd text := by
  obtain ⟨sign, whole, fraction, rfl, hsign, hne, hwhole, hfraction⟩ := h
  have hwhole' : ∀ b ∈ whole, isMuted b = true := fun b hb => isMuted_of_isDigit (hwhole b hb)
  have hfraction' : ∀ b ∈ fraction, isMuted b = true := by
    rcases hfraction with rfl | ⟨digits, rfl, -, hdigits⟩
    · exact List.forall_mem_nil _
    · exact List.forall_mem_cons.mpr ⟨by decide, fun b hb => isMuted_of_isDigit (hdigits b hb)⟩
  have hnumber : Quiet rd (whole ++ fraction) :=
    quiet_of_isMuted (List.forall_mem_append.mpr ⟨hwhole', hfraction'⟩)
  rcases hsign with rfl | rfl
  · exact hnumber
  · apply hnumber.minus_cons (by simp [hne])
    intro hhead
    have hmem : Byte.minus ∈ whole ++ fraction := List.mem_of_mem_head? hhead
    exact absurd (List.forall_mem_append.mpr ⟨hwhole', hfraction'⟩ _ hmem) (by decide)

/-- What a byte string puts outside quotes is a word. -/
theorem Literal.reads_byteString (s : Settings) (isMssql : Bool) (bytes : Bytes) :
    ∃ code, Reads s.reader (Literal.byteString isMssql bytes) code ∧
      ∀ b ∈ code, Byte.isWord b = true := by
  have hdigits : ∀ b ∈ hexText bytes, Byte.isWord b = true := fun b hb =>
    isWord_of_isHexDigit (Literal.isHexDigit_of_mem_hexText b hb)
  unfold Literal.byteString
  split
  · have hwords : ∀ b ∈ utf8 "0x" ++ hexText bytes, Byte.isWord b = true :=
      List.forall_mem_append.mpr ⟨by decide +kernel, hdigits⟩
    exact ⟨_, reads_tame fun b hb => isTame_of_isWord (hwords b hb), hwords⟩
  · have hopen : utf8 "x'" = [0x78, Byte.apostrophe] := by decide +kernel
    rw [hopen]
    exact ⟨_, Lexeme.reads_prefixed (by decide) hdigits, List.forall_mem_singleton.mpr (by decide)⟩

/-- A literal is a number, or it puts nothing outside quotes but a word. -/
theorem Literal.reads_scalar {s : Settings} {value : Value} {bytes : Bytes}
    (h : Literal.scalar s.literalStyle value = .ok bytes) :
    Literal.IsDecimal bytes ∨
      ∃ code, Reads s.reader bytes code ∧ ∀ b ∈ code, Byte.isWord b = true := by
  have hword : ∀ {word : Bytes}, (∀ b ∈ word, Byte.isWord b = true) →
      ∃ code, Reads s.reader word code ∧ ∀ b ∈ code, Byte.isWord b = true :=
    fun hall => ⟨_, reads_tame fun b hb => isTame_of_isWord (hall b hb), hall⟩
  cases value with
  | null =>
    cases h
    exact .inr (hword (by decide +kernel))
  | bool b =>
    cases h
    refine .inr (hword ?_)
    cases s.literalStyle.isMssql <;> cases b <;> decide +kernel
  | int n =>
    cases h
    exact .inl (Literal.isDecimal_intText _)
  | uint n =>
    obtain ⟨m, -, h⟩ := bind_eq_ok h
    cases h
    exact .inl (Literal.isDecimal_intText _)
  | bigint n =>
    obtain ⟨m, -, h⟩ := bind_eq_ok h
    cases h
    exact .inl (Literal.isDecimal_intText _)
  | float x =>
    simp only [Literal.scalar] at h
    split at h
    · cases h
      exact .inl (Literal.isDecimal_text x)
    · cases h
  | str text =>
    cases h
    exact .inr ⟨[], Literal.reads_string s _, List.forall_mem_nil _⟩
  | bytes bytes =>
    cases h
    exact .inr (Literal.reads_byteString s _ _)
  | date d =>
    cases h
    exact .inr ⟨[], Literal.reads_dateText (Literal.mem_dateText d), List.forall_mem_nil _⟩
  | dateTime t =>
    cases h
    exact .inr ⟨[], Literal.reads_dateText (Literal.mem_dateTimeText t), List.forall_mem_nil _⟩
  | json j =>
    cases h
    exact .inr ⟨[], Literal.reads_json s j, List.forall_mem_nil _⟩
  | list items | map entries | fragment f | foreign name => cases h

theorem quiet_scalar {s : Settings} {value : Value} {bytes : Bytes}
    (h : Literal.scalar s.literalStyle value = .ok bytes) : Quiet s.reader bytes := by
  rcases Literal.reads_scalar h with hdecimal | ⟨code, hread, hcode⟩
  · exact hdecimal.quiet
  · refine hread.quiet fun b hb => ?_
    have hword := hcode b hb
    constructor <;>
    · rintro rfl
      exact absurd hword (by decide)

theorem quiet_name {s : Settings} (qualifier : Option String) (name : String) :
    Quiet s.reader (Name.write s.nameQuote qualifier name) := by
  obtain ⟨code, hlead, hcode⟩ := reads_lead s.reader qualifier
  obtain ⟨code', hname, hcode'⟩ := reads_writeDotted s.reader name
  refine (hlead.append hname).quiet (List.forall_mem_append.mpr ⟨?_, ?_⟩)
  · intro b hb
    rcases hcode b hb with rfl | rfl <;> decide
  · intro b hb
    rcases hcode' b hb with rfl | rfl <;> decide

theorem mem_placeholder (family : Family) (position : Nat) :
    ∀ b ∈ utf8 (Render.placeholder family position),
      Byte.isDigit b = true ∨ b ∈ [Byte.question, Byte.dollar, Byte.commercialAt, 0x70] := by
  have hdigits : ∀ b ∈ utf8 (toString position),
      Byte.isDigit b = true ∨ b ∈ [Byte.question, Byte.dollar, Byte.commercialAt, 0x70] := by
    rw [Literal.chars_toString]
    exact fun b hb => .inl (Literal.isDigit_of_mem_chars (Literal.isDigit_toDigits position) b hb)
  cases family with
  | mysql | sqlite =>
    show ∀ b ∈ utf8 "?", _
    decide +kernel
  | postgres =>
    rw [show Render.placeholder .postgres position = "$" ++ toString position from rfl,
      utf8_append]
    exact List.forall_mem_append.mpr ⟨by decide +kernel, hdigits⟩
  | mssql =>
    rw [show Render.placeholder .mssql position = "@p" ++ toString position from rfl,
      utf8_append]
    exact List.forall_mem_append.mpr ⟨by decide +kernel, hdigits⟩

theorem quiet_placeholder {s : Settings} (position : Nat) :
    Quiet s.reader (utf8 (Render.placeholder s.family position)) := by
  have hmuted : ∀ b ∈ [Byte.question, Byte.dollar, Byte.commercialAt, 0x70], isMuted b = true :=
    List.forall_iff_forall_mem.mp (by decide)
  refine quiet_of_isMuted fun b hb => ?_
  rcases mem_placeholder _ _ b hb with hdigit | hsign
  · exact isMuted_of_isDigit hdigit
  · exact hmuted b hsign

theorem composable_quiet (s : Settings) : Composable s (Quiet s.reader) where
  nil := .nil
  append := .append
  constant text htext := by
    have hmuted : ∀ text ∈ punctuation, ∀ b ∈ utf8 text, isMuted b = true := by decide +kernel
    exact quiet_of_isMuted (hmuted text htext)
  identity holds := by
    apply quiet_of_isMuted
    unfold Settings.identityText
    cases s.family <;> cases holds <;> decide +kernel
  name := quiet_name
  literal := quiet_scalar
  json j := (Literal.reads_json s j).quiet (List.forall_mem_nil _)
  placeholder := quiet_placeholder

/-! ### The text of a hole is calm -/

theorem calm_of_fitText {s : Settings} {qualifier : Option String} {mode : SafeMode}
    {text bytes : Bytes} (hmode : mode ≠ .nested) (hqualifier : StartsNamed qualifier)
    (h : fitText qualifier s mode text = .ok bytes) : Calm s.reader bytes := by
  obtain ⟨lexemes, haccepted, -, rfl⟩ := fitText_ok h
  obtain ⟨code, hread, -⟩ := haccepted.reads qualifier false false false hmode
  exact ⟨hread.ends, fun r hr => haccepted.not_hasComment hmode hqualifier hr⟩

/-- The names of a list are quiet, and so are the comma and the space after them. -/
theorem quiet_namesText {s : Settings} {qualifier : Option String} {kind : NameList} {next : Bytes}
    {value : Value} {text : Bytes}
    (hcomma : kind = .optional → next[1]? = some Byte.comma)
    (h : namesText s qualifier kind next value = .ok text) : Quiet s.reader text := by
  obtain ⟨names, -, h⟩ := bind_eq_ok h
  split at h
  · cases kind with
    | orAll => exact Except.ok.inj h ▸ quiet_name qualifier "*"
    | nonempty => cases h
    | optional => exact Except.ok.inj h ▸ Quiet.nil
  · cases h
    apply ((composable_quiet s).names qualifier names).append
    split
    · rename_i hkind
      apply quiet_of_isMuted
      intro b hb
      have hkept : b = Byte.comma ∨ b = Byte.space := by
        subst hkind
        match next, hcomma rfl with
        | _ :: _ :: rest, rfl =>
          simp only [Hole.skips] at hb
          split at hb
          · rename_i hspace
            cases rest with
            | nil => cases hspace
            | cons d rest =>
              cases hspace
              simpa using hb
          · exact Or.inl (by simpa using hb)
      rcases hkept with rfl | rfl <;> decide
    · exact Quiet.nil

/-- The hole writes a text that the library checks under the qualifier of the hole. -/
def Hole.isChecked : Hole → Bool
  | .expression | .bare => true
  | _ => false

theorem Frame.calm_text {s : Settings} {qualifier : Option String} {frame : Frame} {index : Nat}
    {value : Value} {text : Bytes}
    (hfind : Hole.find index frame.written.getLast? frame.next = .ok frame.hole)
    (hfree : value.FragmentFree)
    (hqualifier : frame.hole.isChecked = true → StartsNamed qualifier)
    (h : frame.text s qualifier value = .ok text) : Calm s.reader text := by
  have hP := composable_quiet s
  have hC := hP.closed
  obtain ⟨written, hole, next⟩ := frame
  unfold Frame.text at h
  cases hole with
  | value => exact ((emits_writeValue hC (hfree.nests qualifier)).holds _ _ h).toCalm
  | list =>
    have hlist : Piece.Yields (Quiet s.reader) ((pure [Byte.openParen] : Piece Bytes).append
        ((writeList s value).piece.append (pure [Byte.closeParen]))) :=
      .append .append (.pure (quiet_of_isMuted (List.forall_mem_singleton.mpr rfl)))
        (.append .append (emits_writeList hC (hfree.nests none)).holds
          (.pure (quiet_of_isMuted (List.forall_mem_singleton.mpr rfl))))
    exact (hlist _ _ h).toCalm
  | rows => exact ((emits_writeRowsOf hC (hfree.nests none)).holds _ _ h).toCalm
  | name =>
    change (nameOf value).map (Name.write s.nameQuote qualifier) = .ok text at h
    cases hname : nameOf value with
    | error e =>
      rw [hname] at h
      cases h
    | ok name =>
      rw [hname] at h
      cases h
      exact (quiet_name qualifier name).toCalm
  | names kind =>
    refine (quiet_namesText ?_ h).toCalm
    intro hkind
    subst hkind
    exact Hole.comma_of_find hfind
  | assignments =>
    exact ((emits_writeAssignmentsOf hC qualifier (hfree.nests none)).holds _ _ h).toCalm
  | conditions all =>
    exact ((emits_writeConditionsOf hC all qualifier (hfree.nests none)).holds _ _ h).toCalm
  | expression =>
    have hfit : ∀ text bytes, fitText qualifier s .expression text = .ok bytes →
        Calm s.reader bytes := fun text bytes => calm_of_fitText nofun (hqualifier rfl)
    have hC : Emits (Piece.Yields (Calm s.reader)) (writeExpression s qualifier value) := by
      refine emits_writeExpression (fun _ _ => .throw _) (fun text => .liftM (hfit _ _))
        (fun {bytes} _ => .liftM (hfit bytes _)) ?_
      rintro f rfl
      exact hfree.elim
    exact hC.holds _ _ h
  | qualifier =>
    rw [Frame.text_of_qualifier rfl h]
    exact Quiet.nil.toCalm
  | bare =>
    have hfit : ∀ text bytes, fitText qualifier s .chunk text = .ok bytes →
        Calm s.reader bytes := fun text bytes => calm_of_fitText nofun (hqualifier rfl)
    have hliteral : ∀ {bytes}, IsLiteral s bytes → Calm s.reader bytes := by
      rintro bytes (hscalar | j)
      · exact (hP.literal hscalar).toCalm
      · exact (hP.json j).toCalm
    have hC : Emits (Piece.Yields (Calm s.reader)) (writeBare s qualifier value) :=
      emits_writeBare (fun _ _ => .throw _) (fun text => .liftM (hfit _ _))
        (fun h => .pure (hliteral h)) (hfree.nests qualifier)
    exact hC.holds _ _ h

/-! ### Where texts meet -/

/-- A comment starts where a text ends and another one begins: the last byte of the one and the
first of the other start it, outside quotes. -/
def Region.Seam (rd : Reader) (r : Region) (front back : Bytes) : Prop :=
  ∃ a b, front.getLast? = some a ∧ back.head? = some b ∧ OpensComment a b ∧ after rd r front = .code

/-- The second byte of a comment is no quote. -/
theorem step_of_opensComment {a b : UInt8} (h : OpensComment a b) : step rd .code b = .code := by
  show enter rd b = .code
  rw [enter_eq_code]
  rcases h with ⟨-, rfl⟩ | ⟨-, rfl⟩ <;> refine ⟨by decide, ?_⟩ <;>
  · rcases rd.quote_eq with hq | hq <;> rw [hq] <;> decide

theorem hasComment_append_iff_seam {r : Region} {x y : Bytes} :
    HasComment rd r (x ++ y) ↔ HasComment rd r x ∨ HasComment rd (after rd r x) y ∨
      Seam rd r x y := by
  rw [hasComment_append]
  refine or_congr_right (or_congr_right ?_)
  constructor
  · rintro ⟨a, b, hlast, hhead, hopens, hcode, -⟩
    exact ⟨a, b, hlast, hhead, hopens, hcode⟩
  · rintro ⟨a, b, hlast, hhead, hopens, hcode⟩
    exact ⟨a, b, hlast, hhead, hopens, hcode, by rw [hcode, step_of_opensComment hopens]⟩

/-- A comment in texts that follow one another starts in one of them, or where two of them meet. -/
theorem hasComment_flatten {r : Region} {texts : List Bytes} :
    HasComment rd r texts.flatten ↔
      (∃ k, Seam rd r (texts.take k).flatten (texts.drop k).flatten) ∨
        ∃ k text, texts[k]? = some text ∧
          HasComment rd (after rd r (texts.take k).flatten) text := by
  constructor
  · intro h
    induction texts generalizing r with
    | nil => exact absurd h (not_hasComment_nil r)
    | cons text rest ih =>
      rw [List.flatten_cons, hasComment_append_iff_seam] at h
      rcases h with hown | hlater | hseam
      · exact Or.inr ⟨0, text, rfl, hown⟩
      · rcases ih hlater with ⟨k, a, b, hlast, hhead, hopens, hcode⟩ | ⟨k, other, hother, hown⟩
        · refine Or.inl ⟨k + 1, a, b, ?_, hhead, hopens, ?_⟩
          · rw [List.take_succ_cons, List.flatten_cons, List.getLast?_append, hlast, Option.some_or]
          · rw [List.take_succ_cons, List.flatten_cons, after_append, hcode]
        · refine Or.inr ⟨k + 1, other, hother, ?_⟩
          rw [List.take_succ_cons, List.flatten_cons, after_append]
          exact hown
      · refine Or.inl ⟨1, ?_⟩
        simpa using hseam
  · rintro (⟨k, hseam⟩ | ⟨k, text, htext, hown⟩)
    · rw [← List.take_append_drop k texts, List.flatten_append, hasComment_append_iff_seam]
      exact Or.inr (Or.inr hseam)
    · obtain ⟨hk, rfl⟩ := List.getElem?_eq_some_iff.mp htext
      rw [← List.take_append_drop k texts, List.flatten_append, hasComment_append_iff_seam,
        List.drop_eq_getElem_cons hk, List.flatten_cons, hasComment_append_iff_seam]
      exact Or.inr (Or.inl (Or.inl hown))

/-! ### Comments in a fragment -/

/-- No two bytes that stand side by side start a comment, inside quotes or outside. -/
def CommentFree (text : Bytes) : Prop := text.IsChain fun a b => ¬ OpensComment a b

instance (text : Bytes) : Decidable (CommentFree text) :=
  inferInstanceAs (Decidable (List.IsChain _ _))

theorem CommentFree.not_hasComment {text : Bytes} (h : CommentFree text) (r : Region) :
    ¬ HasComment rd r text :=
  not_hasComment_of_infix fun _ _ _ _ htext =>
    List.isChain_iff_forall_rel_of_append_cons_cons.mp h htext

/-- The texts that a fragment is woven from, in order. -/
def segments (last : Bytes) : List Frame → List Bytes → List Bytes
  | frame :: frames, text :: texts =>
    frame.hole.front frame.written :: text :: segments last frames texts
  | _, _ => [last]

theorem weave_eq_flatten (last : Bytes) (frames : List Frame) (texts : List Bytes) :
    weave last frames texts = (segments last frames texts).flatten := by
  induction frames generalizing texts with
  | nil => exact (List.append_nil last).symm
  | cons frame frames ih =>
    cases texts with
    | nil => exact (List.append_nil last).symm
    | cons text texts => rw [weave, segments, List.flatten_cons, List.flatten_cons, ih]

/-- The text of hole `i` has that of every hole before it and two chunks more in front of it. -/
theorem segments_text {last : Bytes} {frames : List Frame} {texts : List Bytes} {i : Nat}
    {text : Bytes} (hlength : texts.length = frames.length) (h : texts[i]? = some text) :
    (segments last frames texts)[2 * i + 1]? = some text := by
  induction frames generalizing texts i with
  | nil =>
    rw [List.length_eq_zero_iff.mp hlength] at h
    cases h
  | cons frame frames ih =>
    match texts, hlength with
    | first :: rest, hlength =>
      cases i with
      | zero => exact h
      | succ i => exact ih (Nat.succ.inj hlength) h

theorem mem_segments {last : Bytes} {frames : List Frame} {texts : List Bytes} {k : Nat}
    {segment : Bytes} (h : (segments last frames texts)[k]? = some segment) :
    segment = last ∨ (∃ frame ∈ frames, segment = frame.hole.front frame.written) ∨
      ∃ i frame, k = 2 * i + 1 ∧ frames[i]? = some frame ∧ texts[i]? = some segment := by
  have hlast : ∀ {k : Nat}, [last][k]? = some segment → segment = last := by
    intro k hk
    exact List.mem_singleton.mp (List.mem_of_getElem? hk)
  induction frames generalizing texts k with
  | nil => exact Or.inl (hlast h)
  | cons frame frames ih =>
    cases texts with
    | nil => exact Or.inl (hlast h)
    | cons text texts =>
      match k with
      | 0 => exact Or.inr (Or.inl ⟨frame, List.mem_cons_self, (Option.some.inj h).symm⟩)
      | 1 => exact Or.inr (Or.inr ⟨0, frame, rfl, rfl, h⟩)
      | k + 2 =>
        rcases ih h with heq | ⟨other, hother, heq⟩ | ⟨i, other, hk, hother, htext⟩
        · exact Or.inl heq
        · exact Or.inr (Or.inl ⟨other, List.mem_cons_of_mem _ hother, heq⟩)
        · exact Or.inr (Or.inr ⟨i + 1, other, by omega, hother, htext⟩)

/-- Nothing keeps comments out of the text of a hole: it starts inside quotes, or it may be a safe
text under a qualifier that is a bare star. -/
def Frame.Exposed (frame : Frame) (qualifier : Option String) (start : Region) : Prop :=
  start.isOutside = false ∨ frame.hole.isChecked = true ∧ ¬ StartsNamed qualifier

/-- A comment in the text of a fragment without fragments starts where two texts meet, or in the
text of an exposed hole, and nowhere else. -/
theorem Fragment.hasComment_toSql {f : Fragment} {out : String}
    (hfree : ∀ value ∈ f.params, value.FragmentFree)
    (hchunks : ∀ frames last, f.frames = .ok (frames, last) →
      CommentFree last ∧ ∀ frame ∈ frames, CommentFree (frame.hole.front frame.written))
    (h : f.toSql = .ok out) :
    ∃ frames last texts, f.frames = .ok (frames, last) ∧
      textsFrom f.settings none frames f.params = .ok texts ∧
      utf8 out = (segments last frames texts).flatten ∧
      (HasComment f.settings.reader .code (utf8 out) ↔
        (∃ k, Seam f.settings.reader .code ((segments last frames texts).take k).flatten
          ((segments last frames texts).drop k).flatten) ∨
        ∃ i frame text, frames[i]? = some frame ∧ texts[i]? = some text ∧
          let start := after f.settings.reader .code
            ((segments last frames texts).take (2 * i + 1)).flatten
          frame.Exposed (qualifierAt none frames f.params i) start ∧
            HasComment f.settings.reader start text) := by
  obtain ⟨frames, last, texts, hframes, htexts, hout⟩ := weave_of_toSql h
  rw [weave_eq_flatten] at hout
  refine ⟨frames, last, texts, hframes, htexts, hout, ?_⟩
  obtain ⟨hlast, hfronts⟩ := hchunks frames last hframes
  have hlength : frames.length = f.params.length := by
    rw [length_framesFrom hframes, List.length_map, params, List.length_map]
  obtain ⟨hcount, hall⟩ := textsFrom_getElem? hlength htexts
  rw [hout, hasComment_flatten]
  refine or_congr_right ⟨?_, ?_⟩
  · rintro ⟨k, segment, hsegment, hown⟩
    rcases mem_segments hsegment with rfl | ⟨frame, hframe, rfl⟩ | ⟨i, frame, rfl, hframe, htext⟩
    · exact absurd hown (hlast.not_hasComment _)
    · exact absurd hown ((hfronts frame hframe).not_hasComment _)
    · refine ⟨i, frame, segment, hframe, htext, ?_, hown⟩
      -- a hole that is not exposed writes a calm text
      by_contra hexposed
      simp only [Frame.Exposed, not_or, not_and, not_not, Bool.not_eq_false] at hexposed
      obtain ⟨houtside, hqualifier⟩ := hexposed
      have hbound : i < f.params.length := by
        rw [← hlength, ← hcount]
        exact (List.getElem?_eq_some_iff.mp htext).1
      obtain ⟨text, htext', hfilled⟩ := hall i frame _ hframe (List.getElem?_eq_getElem hbound)
      obtain rfl : segment = text := Option.some.inj (htext.symm.trans htext')
      obtain ⟨index, hfind⟩ := find_of_mem_framesFrom hframes frame (List.mem_of_getElem? hframe)
      have hcalm := Frame.calm_text hfind (hfree _ (List.getElem_mem hbound)) hqualifier hfilled
      exact hcalm.noComment _ houtside hown
  · rintro ⟨i, frame, text, hframe, htext, -, hown⟩
    exact ⟨2 * i + 1, text, segments_text hcount htext, hown⟩

/-- A minus at the end of a chunk meets the sign of the number after it. -/
theorem Fragment.hasComment_toSql_minus :
    let f : Fragment := ⟨Settings.ofDialect .postgres, "SELECT 10-", [(.int (-1), "")], 0⟩
    let rd := (Settings.ofDialect .postgres).reader
    (∀ value ∈ f.params, value.FragmentFree) ∧
      (∀ frames last, f.frames = .ok (frames, last) →
        CommentFree last ∧ ∀ frame ∈ frames, CommentFree (frame.hole.front frame.written)) ∧
      f.toSql = .ok "SELECT 10--1" ∧ HasComment rd .code (utf8 "SELECT 10--1") ∧
      ∃ frames last texts, f.frames = .ok (frames, last) ∧
        textsFrom f.settings none frames f.params = .ok texts ∧
        utf8 "SELECT 10--1" = (segments last frames texts).flatten ∧
        (HasComment rd .code (utf8 "SELECT 10--1") ↔
          (∃ k, Seam rd .code ((segments last frames texts).take k).flatten
            ((segments last frames texts).drop k).flatten) ∨
          ∃ i frame text, frames[i]? = some frame ∧ texts[i]? = some text ∧
            let start := after rd .code ((segments last frames texts).take (2 * i + 1)).flatten
            frame.Exposed (qualifierAt none frames f.params i) start ∧
              HasComment rd start text) := by
  intro f rd
  have hfree : ∀ value ∈ f.params, value.FragmentFree :=
    List.forall_mem_singleton.mpr (by simp only [Value.FragmentFree])
  have hframes : f.frames = .ok ([⟨utf8 "SELECT 10-", .bare, utf8 ""⟩], utf8 "") := by rfl
  have hchunks : ∀ frames last, f.frames = .ok (frames, last) →
      CommentFree last ∧ ∀ frame ∈ frames, CommentFree (frame.hole.front frame.written) := by
    intro frames last heq
    rw [hframes] at heq
    cases heq
    exact ⟨by decide +kernel, List.forall_mem_singleton.mpr (by decide +kernel)⟩
  have h : f.toSql = .ok "SELECT 10--1" := by decide +kernel
  have hcomment : HasComment rd .code (utf8 "SELECT 10--1") :=
    ⟨utf8 "SELECT 10", Byte.minus, Byte.minus, utf8 "1", by decide +kernel, by decide,
      by decide +kernel, by decide +kernel⟩
  exact ⟨hfree, hchunks, h, hcomment, hasComment_toSql hfree hchunks h⟩

end SqlTemplate
