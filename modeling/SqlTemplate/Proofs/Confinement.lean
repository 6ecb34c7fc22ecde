import SqlTemplate.Proofs.Numerals
import SqlTemplate.Proofs.Region

/-!
# Confined texts

What is promised of a text that comes from anyone and is put into a statement: the server reads it
as a text that opens and closes its own literals, names and parentheses, and nothing in it outside
of these ends the statement around it, starts a comment, or changes how a literal is read. The
promise is `Confined`; the lemmas here are about texts alone and say how each part of it is carried
from two texts to the text they make together.
-/

namespace SqlTemplate

/-- Bytes that end a statement, bind a parameter or quote a name in one dialect or another. -/
def bannedBytes : List UInt8 :=
  [Byte.nul, Byte.semicolon, Byte.commercialAt, Byte.dollar, Byte.hash, Byte.colon,
    Byte.openBracket, Byte.closeBracket, Byte.openBrace, Byte.closeBrace, Byte.question,
    Byte.doubleQuote, Byte.backtick]

/-- From depth `depth` on, the parentheses of a text close at or above depth zero and end there, and
commas stand at depth zero only if `commas` says so. -/
def Balanced (commas : Bool) : Nat → Bytes → Prop
  | depth, [] => depth = 0
  | depth, b :: rest =>
    if b = Byte.openParen then Balanced commas (depth + 1) rest
    else if b = Byte.closeParen then depth ≠ 0 ∧ Balanced commas (depth - 1) rest
    else (b = Byte.comma → depth = 0 → commas = true) ∧ Balanced commas depth rest

/-- The run of word bytes at the end of a text. -/
def trailingRun (text : Bytes) : Bytes := text.rtakeWhile Byte.isWord

/-- The letters that mark national, hexadecimal and bit strings. -/
def isPrefixLetter (b : UInt8) : Bool :=
  b == 0x6E || b == 0x4E || b == 0x78 || b == 0x58 || b == 0x62 || b == 0x42

/-- A text ends in a number whose exponent follows its point directly: the digits before the point
are those the number starts with. -/
def EndsInExponent (s : Settings) (text : Bytes) : Prop :=
  ∃ front letter digits, text = front ++ Byte.dot :: letter :: digits ∧ ScansTo s front .whole ∧
    (letter = 0x65 ∨ letter = 0x45) ∧ digits ≠ [] ∧ ∀ b ∈ digits, Byte.isDigit b = true

/-- A string literal may follow a text directly: no word ends there that would change how the
literal is read, unless it is the exponent of a number. -/
def AllowsLiteral (s : Settings) (text : Bytes) : Prop :=
  ∀ b, (trailingRun text).head? = some b → Byte.isWordStart b = true →
    (∃ letter, trailingRun text = [letter] ∧ isPrefixLetter letter = true) ∨ EndsInExponent s text

/-- Read by its server, a text opens and closes its own literals, names and parentheses, and stays
within the expression or the part of a statement that it stands for. -/
structure Confined (s : Settings) (mode : SafeMode) (text : Bytes) : Prop where
  closed : (Region.after s.reader .code text).isOutside = true
  clean : ∀ b ∈ Region.codeBytes s.reader .code text, b ∉ bannedBytes
  noComment : ¬ Region.HasComment s.reader .code text
  balanced : Balanced (mode != .expression) 0 (Region.codeBytes s.reader .code text)
  literals : ∀ front rest, text = front ++ Byte.apostrophe :: rest →
    (Region.after s.reader .code front).isOutside = true → AllowsLiteral s front

/-! ### Bytes outside quotes -/

/-- Bytes of words, of the space between them, and of what qualifies a name. -/
def isPlain (b : UInt8) : Bool :=
  Byte.isWord b || Byte.isSpace b || b == Byte.dot || b == Byte.star

/-- The bytes that lexemes other than marks put outside quotes: numbers may have signs. -/
def isTame (b : UInt8) : Bool := isPlain b || b == Byte.plus || b == Byte.minus

theorem isWord_of_isPrefixLetter {b : UInt8} (h : isPrefixLetter b = true) :
    Byte.isWord b = true := by
  grind [isPrefixLetter, Byte.isWord, Byte.isWordStart, Byte.isLetter]

theorem not_isWordStart_of_isDigit {b : UInt8} (h : Byte.isDigit b = true) :
    Byte.isWordStart b = false := by
  grind [Byte.isDigit, Byte.isWordStart, Byte.isLetter]

theorem isPlain_of_isWord {b : UInt8} (h : Byte.isWord b = true) : isPlain b = true := by
  simp [isPlain, h]

theorem isPlain_of_isSpace {b : UInt8} (h : Byte.isSpace b = true) : isPlain b = true := by
  simp [isPlain, h]

theorem isTame_of_isPlain {b : UInt8} (h : isPlain b = true) : isTame b = true := by
  simp [isTame, h]

theorem isTame_of_isWord {b : UInt8} (h : Byte.isWord b = true) : isTame b = true :=
  isTame_of_isPlain (isPlain_of_isWord h)

theorem isTame_of_isDigit {b : UInt8} (h : Byte.isDigit b = true) : isTame b = true :=
  isTame_of_isWord (isWord_of_isDigit h)

theorem not_mem_bannedBytes_of_isTame {b : UInt8} (h : isTame b = true) : b ∉ bannedBytes := by
  simp only [bannedBytes, List.mem_cons, List.not_mem_nil, or_false]
  rintro (rfl | rfl | rfl | rfl | rfl | rfl | rfl | rfl | rfl | rfl | rfl | rfl | rfl) <;>
    revert h <;> decide

/-- Quotes are not tame. -/
theorem ne_quote_of_isTame {rd : Reader} {b : UInt8} (h : isTame b = true) :
    b ≠ Byte.apostrophe ∧ b ≠ rd.quote := by
  constructor
  · rintro rfl
    revert h
    decide
  · rintro rfl
    rcases rd.quote_eq with hq | hq <;> rw [hq] at h <;> revert h <;> decide

theorem Region.reads_tame {rd : Reader} {text : Bytes} (h : ∀ b ∈ text, isTame b = true) :
    Region.Reads rd text text :=
  .plain fun b hb => ne_quote_of_isTame (h b hb)

/-! ### Balance -/

theorem Balanced.tame_append {commas : Bool} {depth : Nat} {code rest : Bytes}
    (h : ∀ b ∈ code, isTame b = true) (hrest : Balanced commas depth rest) :
    Balanced commas depth (code ++ rest) := by
  induction code with
  | nil => exact hrest
  | cons b code ih =>
    obtain ⟨hb, hcode⟩ := List.forall_mem_cons.mp h
    have hopen : b ≠ Byte.openParen := by
      rintro rfl
      revert hb
      decide
    have hclose : b ≠ Byte.closeParen := by
      rintro rfl
      revert hb
      decide
    have hcomma : b ≠ Byte.comma := by
      rintro rfl
      revert hb
      decide
    rw [List.cons_append, Balanced, if_neg hopen, if_neg hclose]
    exact ⟨fun hb => absurd hb hcomma, ih hcode⟩

/-- The depths that the reader keeps are those of the parentheses it leaves in the text. -/
theorem Balanced.mark_cons {mode : SafeMode} {depth next : Nat} {b : UInt8} {rest : Bytes}
    (h : Lexeme.depthAfter mode depth (.mark b) = .ok next)
    (hrest : Balanced (mode != .expression) next rest) :
    Balanced (mode != .expression) depth (b :: rest) := by
  simp only [Lexeme.depthAfter] at h
  rw [Balanced]
  split at h
  · rename_i hopen
    cases h
    rw [if_pos hopen]
    exact hrest
  rename_i hopen
  rw [if_neg hopen]
  split at h
  · rename_i hclose
    rw [if_pos hclose]
    split at h
    · cases h
    · rename_i hdepth
      cases h
      exact ⟨hdepth, hrest⟩
  rename_i hclose
  rw [if_neg hclose]
  split at h
  · cases h
  · rename_i hcomma
    cases h
    refine ⟨?_, hrest⟩
    intro hb hdepth
    simp only [bne_iff_ne, ne_eq]
    exact fun hmode => hcomma ⟨hb, hdepth, hmode⟩

/-! ### Words at the end of a text -/

theorem trailingRun_append {x y : Bytes} (h : ∀ b ∈ y, Byte.isWord b = true) :
    trailingRun (x ++ y) = trailingRun x ++ y := by
  induction y generalizing x with
  | nil => simp
  | cons b y ih =>
    obtain ⟨hb, hy⟩ := List.forall_mem_cons.mp h
    have hsplit : x ++ b :: y = (x ++ [b]) ++ y := by simp
    rw [hsplit, ih hy, trailingRun, List.rtakeWhile_concat_pos _ _ _ hb]
    exact List.append_assoc _ _ _

theorem trailingRun_concat {x : Bytes} {b : UInt8} (h : Byte.isWord b = false) :
    trailingRun (x ++ [b]) = [] :=
  List.rtakeWhile_concat_neg _ _ _ (by simp [h])

theorem trailingRun_of_getLast? {text : Bytes} {b : UInt8} (hlast : text.getLast? = some b)
    (hb : Byte.isWord b = false) : trailingRun text = [] := by
  obtain ⟨front, rfl⟩ := List.getLast?_eq_some_iff.mp hlast
  exact trailingRun_concat hb

/-- No word ends a text: its last bytes are no word bytes, or the run of them starts with a
digit. -/
def EndsInNoWord (text : Bytes) : Prop :=
  ∀ b, (trailingRun text).head? = some b → Byte.isWordStart b = false

variable {s : Settings}

theorem EndsInNoWord.allowsLiteral {text : Bytes} (h : EndsInNoWord text) :
    AllowsLiteral s text := by
  intro b hb hstart
  rw [h b hb] at hstart
  cases hstart

theorem endsInNoWord_nil : EndsInNoWord [] := by
  intro b hb
  simp [trailingRun, List.rtakeWhile] at hb

theorem endsInNoWord_concat {x : Bytes} {b : UInt8} (h : Byte.isWord b = false) :
    EndsInNoWord (x ++ [b]) := by
  intro c hc
  rw [trailingRun_concat h] at hc
  cases hc

/-- A run of word bytes that starts with a digit is no word, and makes none of what it follows. -/
theorem EndsInNoWord.append_run {x y : Bytes} (hx : EndsInNoWord x)
    (hy : ∀ b ∈ y, Byte.isWord b = true)
    (hhead : ∀ b, y.head? = some b → Byte.isDigit b = true) : EndsInNoWord (x ++ y) := by
  intro b hb
  rw [trailingRun_append hy, List.head?_append] at hb
  cases hrun : (trailingRun x).head? with
  | none =>
    rw [hrun, Option.none_or] at hb
    exact not_isWordStart_of_isDigit (hhead b hb)
  | some c =>
    rw [hrun, Option.some_or] at hb
    cases hb
    exact hx b hrun

theorem EndsInNoWord.allowsLiteral_concat {x : Bytes} {letter : UInt8} (hx : EndsInNoWord x)
    (hletter : isPrefixLetter letter = true) : AllowsLiteral s (x ++ [letter]) := by
  have hrun : trailingRun (x ++ [letter]) = trailingRun x ++ [letter] :=
    trailingRun_append (List.forall_mem_singleton.mpr (isWord_of_isPrefixLetter hletter))
  intro b hb hstart
  rw [hrun] at hb ⊢
  cases hx' : trailingRun x with
  | nil => exact Or.inl ⟨letter, rfl, hletter⟩
  | cons c run =>
    obtain rfl : c = b := by simpa [hx'] using hb
    rw [hx c (by rw [hx', List.head?_cons])] at hstart
    cases hstart

/-- Where a reader of numbers is clear, no word ends: it has just read no word byte, or the last
digit of a hexadecimal literal. -/
theorem ScansTo.endsInNoWord {text : Bytes} (h : ScansTo s text .clear) : EndsInNoWord text := by
  generalize hn : Numeral.clear = n at h
  induction h with
  | nil => exact endsInNoWord_nil
  | byte _ b => exact endsInNoWord_concat (Numeral.not_isWord_of_step_eq_clear hn.symm)
  | literal _ _ hdigits _ ih =>
    refine (ih rfl).append_run ?_ ?_
    · exact List.forall_mem_append.mpr
        ⟨by decide +kernel, fun b hb => isWord_of_isHexDigit (hdigits b hb)⟩
    · intro b hb
      obtain rfl : Byte.zero = b := Option.some.inj hb
      decide

/-! ### Literals in a text -/

/-- Every string literal in a text that follows `before` may stand where it does. -/
def LiteralsAllowed (s : Settings) (before text : Bytes) : Prop :=
  ∀ front rest, text = front ++ Byte.apostrophe :: rest →
    (Region.after s.reader .code (before ++ front)).isOutside = true →
    AllowsLiteral s (before ++ front)

theorem LiteralsAllowed.append {before x y : Bytes}
    (hx : LiteralsAllowed s before x) (hy : LiteralsAllowed s (before ++ x) y) :
    LiteralsAllowed s before (x ++ y) := by
  intro front rest htext hout
  rcases List.append_eq_append_iff.mp htext with ⟨w, rfl, hw⟩ | ⟨w, rfl, hw⟩
  · rw [← List.append_assoc] at hout ⊢
    exact hy w rest hw hout
  · cases w with
    | nil =>
      rw [List.append_nil] at hy
      have hallowed := hy [] rest hw.symm
      rw [List.append_nil] at hallowed
      exact hallowed hout
    | cons c w =>
      rw [List.cons_append, List.cons.injEq] at hw
      obtain ⟨rfl, -⟩ := hw
      exact hx front w rfl hout

theorem literalsAllowed_of_not_mem {before text : Bytes}
    (h : Byte.apostrophe ∉ text) : LiteralsAllowed s before text := by
  rintro front rest rfl
  exact absurd (List.mem_append_right _ List.mem_cons_self) h

/-- Inside a text with no word bytes outside quotes every literal but one at its front follows a
byte that is no word byte. -/
theorem Region.Reads.literalsAllowed {before text code : Bytes}
    (h : Region.Reads s.reader text code) (hcode : ∀ b ∈ code, Byte.isWord b = false)
    (hbefore : (Region.after s.reader .code before).isOutside = true)
    (hhead : text.head? = some Byte.apostrophe → AllowsLiteral s before) :
    LiteralsAllowed s before text := by
  intro front rest htext hout
  rcases List.eq_nil_or_concat front with rfl | ⟨x, b, rfl⟩
  · rw [List.append_nil]
    exact hhead (by rw [htext]; rfl)
  · rw [List.concat_eq_append] at htext hout ⊢
    have hb : Byte.isWord b = false := by
      rw [Region.after_append] at hout
      rcases Region.isOutside_concat hout with hafter | rfl | rfl
      · have hmem := Region.mem_codeBytes_of_after (y := Byte.apostrophe :: rest) hafter
        have hwhole : x ++ b :: Byte.apostrophe :: rest = text := by simp [htext]
        rw [hwhole, h.code_eq _ hbefore] at hmem
        exact hcode b hmem
      · decide
      · rcases s.reader.quote_eq with hq | hq <;> rw [hq] <;> decide
    rw [← List.append_assoc]
    exact (endsInNoWord_concat hb).allowsLiteral

end SqlTemplate
