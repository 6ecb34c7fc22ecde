import SqlTemplate.Proofs.ReadBack
import SqlTemplate.Proofs.Reading

/-!
# The tokens of a text

`Server.tokens` cuts a text into tokens as a server does. It knows nothing of the lexemes of a safe
text and refuses none: a comment, and a quote that is not closed, take the rest of the text. A token
says what the server makes of it, and not how it is written: a word is a name like one between
quotes, a literal is its content.

A lexeme at the front of a text is read as the tokens it stands for (`Lexeme.tokens`), if the server
goes no further than the lexeme (`Server.tokens_append`).
-/

namespace SqlTemplate

namespace Server

/-! ### Tokens -/

/-- What a server has to be told of the language of a text. -/
structure Rules where
  /-- Whether a backslash in a string escapes the byte after it. -/
  escapes : Bool
  /-- The quotes around names. -/
  nameQuotes : List UInt8
  /-- Whether `U&` before a quote announces Unicode escapes. -/
  unicode : Bool

/-- Safe texts have names in either kind of quotes. -/
def Rules.source (s : Settings) : Rules :=
  ⟨s.usesBackslashEscapes, [Byte.doubleQuote, Byte.backtick], s.family = .postgres⟩

def Rules.target (s : Settings) : Rules :=
  ⟨s.usesBackslashEscapes, [s.nameQuote], s.family = .postgres⟩

inductive Token where
  | name (name : Bytes)
  /-- The string after it has national characters. -/
  | national
  /-- The string or the name after it has Unicode escapes. -/
  | unicode
  | string (content : Bytes)
  /-- A byte string, by the values of its digits. -/
  | hex (digits : List (Option UInt8))
  | bits (digits : Bytes)
  | number (text : Bytes)
  | placeholder (text : Bytes)
  /-- A byte of punctuation or of an operator, which may go on with the next byte. -/
  | mark (b : UInt8) (goesOn : Bool)
  /-- A comment or an open quote, and what comes after it. -/
  | unclosed (text : Bytes)
deriving DecidableEq, Repr

/-- What a byte after a backslash stands for. -/
def unescaped (b : UInt8) : Bytes :=
  if b = 0x30 then [0x00]
  else if b = 0x62 then [0x08]
  else if b = 0x6E then [0x0A]
  else if b = 0x72 then [0x0D]
  else if b = 0x74 then [0x09]
  else if b = 0x5A then [0x1A]
  else if b = 0x25 ∨ b = 0x5F then [Byte.backslash, b]
  else [b]

/-- What stands between quotes, from behind the first of them on, and the text after the second. -/
def quotedText (escapes : Bool) (quote : UInt8) : Bytes → Option (Bytes × Bytes)
  | [] => none
  | b :: rest =>
    if b = quote then
      match rest with
      | c :: after =>
        if c = quote then
          (quotedText escapes quote after).map fun found => (c :: found.1, found.2)
        else some ([], rest)
      | [] => some ([], [])
    else if b = Byte.backslash && escapes then
      match rest with
      | c :: after =>
        (quotedText escapes quote after).map fun found => (unescaped c ++ found.1, found.2)
      | [] => none
    else (quotedText escapes quote rest).map fun found => (b :: found.1, found.2)

/-- What stands before the next apostrophe, and the text after it. -/
def digitText (text : Bytes) : Option (Bytes × Bytes) :=
  match text.dropWhile (· != Byte.apostrophe) with
  | _ :: rest => some (text.takeWhile (· != Byte.apostrophe), rest)
  | [] => none

/-- The token of a quoted text, if the quotes are closed. -/
def closed (token : Bytes → Token) (text : Bytes) : Option (Bytes × Bytes) → List Token × Bytes
  | some (content, rest) => ([token content], rest)
  | none => ([.unclosed text], [])

/-- The token that a word starts: itself, or a literal of which it is the first letter. -/
def firstOfWord (r : Rules) (name rest : Bytes) : List Token × Bytes :=
  match rest with
  | b :: after =>
    if b = Byte.apostrophe ∧ (name = [0x78] ∨ name = [0x58]) then
      closed (fun digits => .hex (digits.map digitValue)) after (digitText after)
    else if b = Byte.apostrophe ∧ (name = [0x62] ∨ name = [0x42]) then
      closed .bits after (digitText after)
    else if b = Byte.apostrophe ∧ (name = [0x6E] ∨ name = [0x4E]) then ([.national], rest)
    else if r.unicode = true ∧ (name = [0x75] ∨ name = [0x55]) ∧ b = Byte.ampersand ∧
        (after.head? = some Byte.apostrophe ∨ after.head? = some Byte.doubleQuote) then
      ([.unicode], after)
    else ([.name name], rest)
  | [] => ([.name name], [])

/-- The token of a number, which is a byte string if it is hexadecimal. -/
def numberToken (text : Bytes) : Token :=
  match text with
  | zero :: x :: digits =>
    if zero = Byte.zero ∧ (x = 0x78 ∨ x = 0x58) then .hex (digits.map digitValue)
    else .number text
  | _ => .number text

/-- The bytes that operators are made of. -/
def isOperator (b : UInt8) : Bool :=
  b == 0x21 || b == 0x25 || b == Byte.ampersand || b == Byte.star || b == Byte.plus ||
    b == Byte.minus || b == Byte.slash || b == Byte.less || b == 0x3D || b == Byte.greater ||
    b == 0x5E || b == Byte.bar || b == 0x7E

/-- Whether an operator goes on after the byte `b`. -/
def goesOn (b : UInt8) (rest : Bytes) : Bool := isOperator b && rest.head?.any isOperator

/-- The first token of a text, none if the text starts with white space, and what is left. -/
def first (r : Rules) (b : UInt8) (rest : Bytes) : List Token × Bytes :=
  if Byte.isSpace b then ([], rest)
  else if Byte.isWordStart b then
    firstOfWord r (b :: rest.takeWhile Byte.isWord) (rest.dropWhile Byte.isWord)
  else if Byte.isDigit b then
    let length := Lexeme.numberLength (b :: rest)
    ([numberToken ((b :: rest).take length)], (b :: rest).drop length)
  else if b = Byte.apostrophe then closed .string rest (quotedText r.escapes b rest)
  else if b ∈ r.nameQuotes then closed .name rest (quotedText false b rest)
  else if b = Byte.minus ∧ rest.head? = some Byte.minus ∨
      b = Byte.slash ∧ rest.head? = some Byte.star then ([.unclosed (b :: rest)], [])
  else
    let length := Lexeme.placeholderLength (b :: rest)
    if length ≠ 0 then ([.placeholder ((b :: rest).take length)], (b :: rest).drop length)
    else ([.mark b (goesOn b rest)], rest)

theorem length_quotedText {escapes : Bool} {quote : UInt8} {text content rest : Bytes}
    (h : quotedText escapes quote text = some (content, rest)) : rest.length < text.length := by
  fun_induction quotedText escapes quote text generalizing content rest <;>
    simp_all [Option.map_eq_some_iff] <;> grind

theorem length_digitText {text content rest : Bytes} (h : digitText text = some (content, rest)) :
    rest.length < text.length := by
  have hshorter := (List.dropWhile_suffix (· != Byte.apostrophe) (l := text)).length_le
  unfold digitText at h
  grind

theorem length_closed {token : Bytes → Token} {text : Bytes} {found : Option (Bytes × Bytes)}
    (h : ∀ content rest, found = some (content, rest) → rest.length < text.length) :
    (closed token text found).2.length ≤ text.length := by
  cases found with
  | none => exact Nat.zero_le _
  | some found => exact (h found.1 found.2 rfl).le

theorem length_firstOfWord (r : Rules) (name rest : Bytes) :
    (firstOfWord r name rest).2.length ≤ rest.length := by
  have hdigits (token : Bytes → Token) (after : Bytes) :
      (closed token after (digitText after)).2.length ≤ after.length :=
    length_closed fun _ _ => length_digitText
  unfold firstOfWord
  split
  · split
    · exact (hdigits _ _).trans (Nat.le_succ _)
    split
    · exact (hdigits _ _).trans (Nat.le_succ _)
    split
    · exact Nat.le_refl _
    split
    · exact Nat.le_succ _
    · exact Nat.le_refl _
  · exact Nat.le_refl _

theorem length_first (r : Rules) (b : UInt8) (rest : Bytes) :
    (first r b rest).2.length ≤ rest.length := by
  unfold first
  split
  · exact Nat.le_refl _
  split
  · exact (length_firstOfWord r _ _).trans (List.dropWhile_suffix _).length_le
  split
  · have hpos := Lexeme.numberLength_pos b rest (by assumption)
    simp only [List.length_drop, List.length_cons]
    omega
  split
  · exact length_closed fun _ _ => length_quotedText
  split
  · exact length_closed fun _ _ => length_quotedText
  split
  · exact Nat.zero_le _
  · dsimp only
    split
    · simp only [List.length_drop, List.length_cons]
      omega
    · exact Nat.le_refl _

/-- The tokens of a text. -/
def tokens (r : Rules) : Bytes → List Token
  | [] => []
  | b :: rest => (first r b rest).1 ++ tokens r (first r b rest).2
termination_by text => text.length
decreasing_by
  have := length_first r b rest
  simp only [List.length_cons]
  omega

/-! ### Quoted texts -/

theorem quotedText_doubled {quote : UInt8} (name text : Bytes) :
    quotedText false quote (doubled quote name ++ text)
      = (quotedText false quote text).map fun found => (name ++ found.1, found.2) := by
  induction name with
  | nil =>
    rw [doubled, List.nil_append]
    cases quotedText false quote text <;> rfl
  | cons b name ih =>
    rw [doubled]
    split
    · rename_i hquoted
      rw [List.cons_append, List.cons_append, quotedText, if_pos hquoted, if_pos hquoted, ih]
      cases quotedText false quote text <;> rfl
    · rename_i hother
      rw [List.cons_append, quotedText.eq_def]
      dsimp only
      rw [if_neg hother, if_neg (by simp), ih]
      cases quotedText false quote text <;> rfl

/-- A quote that is not doubled is the last. -/
theorem quotedText_quote {escapes : Bool} {quote : UInt8} {rest : Bytes}
    (hrest : rest.head? ≠ some quote) :
    quotedText escapes quote (quote :: rest) = some ([], rest) := by
  cases rest with
  | nil => simp [quotedText]
  | cons b rest =>
    have hb : b ≠ quote := fun h => hrest (congrArg some h)
    simp [quotedText, hb]

theorem quotedText_name {quote : UInt8} {name rest : Bytes} (hrest : rest.head? ≠ some quote) :
    quotedText false quote (doubled quote name ++ quote :: rest) = some (name, rest) := by
  rw [quotedText_doubled, quotedText_quote hrest]
  simp

end Server

/-- What a step of a string literal stands for. -/
def StringPart.content : StringPart → Bytes
  | .plain b => [b]
  | .pair => [Byte.apostrophe]
  | .escaped b => Server.unescaped b

namespace Server

theorem quotedText_part {escapes : Bool} {part : StringPart} (text : Bytes)
    (hproper : part.Proper escapes) :
    quotedText escapes Byte.apostrophe (part.source ++ text)
      = (quotedText escapes Byte.apostrophe text).map
          fun found => (part.content ++ found.1, found.2) := by
  cases part with
  | plain b =>
    obtain ⟨-, hquote, hescape⟩ := hproper
    have hplain : ¬ (b = Byte.backslash && escapes) = true := by simpa using hescape
    rw [StringPart.source, List.cons_append, List.nil_append, quotedText.eq_def]
    dsimp only
    rw [if_neg hquote, if_neg hplain]
    rfl
  | pair =>
    rw [StringPart.source, List.cons_append, List.cons_append, List.nil_append, quotedText,
      if_pos rfl, if_pos rfl]
    rfl
  | escaped b =>
    obtain ⟨rfl, -⟩ := hproper
    rw [StringPart.source, List.cons_append, List.cons_append, List.nil_append, quotedText,
      if_neg (by decide), if_pos (by decide)]
    rfl

theorem quotedText_parts {escapes : Bool} {parts : List StringPart} {rest : Bytes}
    (hproper : ∀ part ∈ parts, part.Proper escapes) (hrest : rest.head? ≠ some Byte.apostrophe) :
    quotedText escapes Byte.apostrophe
        (parts.flatMap StringPart.source ++ Byte.apostrophe :: rest)
      = some (parts.flatMap StringPart.content, rest) := by
  induction parts with
  | nil => exact quotedText_quote hrest
  | cons part parts ih =>
    obtain ⟨hpart, hparts⟩ := List.forall_mem_cons.mp hproper
    rw [List.flatMap_cons, List.append_assoc, quotedText_part _ hpart, ih hparts]
    rfl

theorem digitText_append {digits : Bytes} (rest : Bytes)
    (hdigits : ∀ b ∈ digits, Byte.isWord b = true) :
    digitText (digits ++ Byte.apostrophe :: rest) = some (digits, rest) := by
  have hother : ∀ b ∈ digits, (b != Byte.apostrophe) = true := by
    intro b hb
    rw [bne_iff_ne]
    rintro rfl
    exact absurd (hdigits _ hb) (by decide)
  obtain ⟨htake, hdrop⟩ := Lexeme.takeWhile_append_stop hother (by simp) (y := Byte.apostrophe :: rest)
  rw [digitText, hdrop, htake]

end Server

/-! ### Tokens of lexemes -/

namespace Lexeme

open Server

/-- What a server makes of a lexeme before the text `rest`. -/
def tokens (rest : Bytes) : Lexeme → List Token
  | .space _ => []
  | .word name | .quotedName _ name => [.name name]
  | .national _ => [.national]
  | .string parts => [.string (parts.flatMap StringPart.content)]
  | .hexString _ digits => [.hex (digits.map digitValue)]
  | .bitString _ digits => [.bits digits]
  | .number text => [numberToken text]
  | .placeholder text => [.placeholder text]
  | .mark b => [.mark b (goesOn b rest)]

/-- A server goes no further than the lexeme. -/
def Ends (r : Rules) (rest : Bytes) : Lexeme → Prop
  | .space _ => True
  | .word name =>
    (Lexeme.word name).Leaves rest ∧ (r.unicode = true → ¬ OpensEscape name rest)
  | .number text => numberLength (text ++ rest) = text.length
  | .placeholder text => placeholderLength (text ++ rest) = text.length
  | l => l.Leaves rest

theorem ends_of_stops {escapes : Bool} {mode : SafeMode} {l : Lexeme} {rest : Bytes} (r : Rules)
    (hproper : l.Proper escapes mode) (hleaves : l.Leaves rest) (hstops : l.Stops rest) :
    l.Ends r rest := by
  cases l with
  | space run => trivial
  | word name => exact ⟨hleaves, fun _ => hstops⟩
  | number text => exact IsNumber.numberLength_append hproper hleaves hstops
  | placeholder text => exact (isPlaceholder_of_proper hproper).placeholderLength_append hstops
  | _ => exact hleaves

end Lexeme

namespace Server

variable {r : Rules}

theorem tokens_cons (b : UInt8) (rest : Bytes) :
    tokens r (b :: rest) = (first r b rest).1 ++ tokens r (first r b rest).2 := by
  rw [tokens]

theorem tokens_spaces {run : Bytes} (text : Bytes) (hrun : ∀ b ∈ run, Byte.isSpace b = true) :
    tokens r (run ++ text) = tokens r text := by
  induction run with
  | nil => rfl
  | cons b run ih =>
    obtain ⟨hb, hrun⟩ := List.forall_mem_cons.mp hrun
    rw [List.cons_append, tokens_cons, first, if_pos hb]
    exact ih hrun

theorem first_of_isWordStart {b : UInt8} {rest : Bytes} (name : Bytes)
    (hb : Byte.isWordStart b = true) (hname : ∀ c ∈ name, Byte.isWord c = true)
    (hrest : ∀ c, rest.head? = some c → Byte.isWord c = false) :
    first r b (name ++ rest) = firstOfWord r (b :: name) rest := by
  obtain ⟨htake, hdrop⟩ := Lexeme.takeWhile_append_stop hname hrest
  rw [first, Lexeme.not_isSpace_of_isWordStart hb, hb, htake, hdrop]
  rfl

/-- A word that neither an apostrophe nor an escape makes a part of a literal. -/
theorem firstOfWord_of_ends {name rest : Bytes} (hends : (Lexeme.word name).Ends r rest) :
    firstOfWord r name rest = ([.name name], rest) := by
  cases rest with
  | nil => rfl
  | cons b rest =>
    have hb : b ≠ Byte.apostrophe := (hends.1 b rfl).2
    unfold firstOfWord
    dsimp only
    rw [if_neg (hb ·.1), if_neg (hb ·.1), if_neg (hb ·.1), if_neg]
    rintro ⟨hunicode, hletter, rfl, hafter⟩
    exact hends.2 hunicode ⟨hletter, rest, rfl, hafter⟩

/-- A letter directly before an apostrophe. -/
theorem first_of_letter {letter : UInt8} (rest : Bytes) (hletter : Byte.isWordStart letter = true) :
    first r letter (Byte.apostrophe :: rest)
      = firstOfWord r [letter] (Byte.apostrophe :: rest) := by
  refine first_of_isWordStart [] hletter (List.forall_mem_nil _) ?_
  intro c hc
  obtain rfl : Byte.apostrophe = c := Option.some.inj hc
  decide

theorem first_of_isDigit {b : UInt8} (rest : Bytes) (hb : Byte.isDigit b = true) :
    first r b rest = ([numberToken ((b :: rest).take (Lexeme.numberLength (b :: rest)))],
      (b :: rest).drop (Lexeme.numberLength (b :: rest))) := by
  have hspace : Byte.isSpace b = false := by grind [Byte.isSpace, Byte.isDigit]
  have hstart : Byte.isWordStart b = false := by
    grind [Byte.isWordStart, Byte.isLetter, Byte.isDigit]
  rw [first, hspace, hstart, hb]
  rfl

theorem first_of_nameQuote {quote : UInt8} (rest : Bytes)
    (hquote : quote = Byte.doubleQuote ∨ quote = Byte.backtick) (hmem : quote ∈ r.nameQuotes) :
    first r quote rest = closed .name rest (quotedText false quote rest) := by
  have hother : Byte.isSpace quote = false ∧ Byte.isWordStart quote = false ∧
      Byte.isDigit quote = false ∧ quote ≠ Byte.apostrophe := by
    rcases hquote with rfl | rfl <;> decide
  rw [first, hother.1, hother.2.1, hother.2.2.1, if_neg Bool.false_ne_true,
    if_neg Bool.false_ne_true, if_neg Bool.false_ne_true, if_neg hother.2.2.2, if_pos hmem]

/-- A byte that opens no word, number or literal and no comment. -/
theorem first_of_other {b : UInt8} {rest : Bytes} (hspace : Byte.isSpace b = false)
    (hstart : Byte.isWordStart b = false) (hdigit : Byte.isDigit b = false)
    (hquote : b ≠ Byte.apostrophe) (hname : b ∉ r.nameQuotes)
    (hminus : b = Byte.minus → rest.head? ≠ some Byte.minus)
    (hslash : b = Byte.slash → rest.head? ≠ some Byte.star) :
    first r b rest
      = if Lexeme.placeholderLength (b :: rest) ≠ 0 then
          ([.placeholder ((b :: rest).take (Lexeme.placeholderLength (b :: rest)))],
            (b :: rest).drop (Lexeme.placeholderLength (b :: rest)))
        else ([.mark b (goesOn b rest)], rest) := by
  have hcomment : ¬ (b = Byte.minus ∧ rest.head? = some Byte.minus ∨
      b = Byte.slash ∧ rest.head? = some Byte.star) := by
    rintro (⟨hb, hhead⟩ | ⟨hb, hhead⟩)
    · exact hminus hb hhead
    · exact hslash hb hhead
  rw [first, hspace, hstart, hdigit, if_neg Bool.false_ne_true, if_neg Bool.false_ne_true,
    if_neg Bool.false_ne_true, if_neg hquote, if_neg hname, if_neg hcomment]

theorem first_of_sign {b : UInt8} (rest : Bytes)
    (hquotes : ∀ quote ∈ r.nameQuotes, quote = Byte.doubleQuote ∨ quote = Byte.backtick)
    (hsign : b = Byte.question ∨ b = Byte.dollar ∨ b = Byte.commercialAt)
    (hlength : Lexeme.placeholderLength (b :: rest) ≠ 0) :
    first r b rest
      = ([.placeholder ((b :: rest).take (Lexeme.placeholderLength (b :: rest)))],
          (b :: rest).drop (Lexeme.placeholderLength (b :: rest))) := by
  have hother : b ∉ r.nameQuotes := by
    intro hmem
    rcases hsign with rfl | rfl | rfl <;> exact absurd (hquotes _ hmem) (by decide)
  obtain ⟨hspace, hstart, hdigit, hquote, hminus, hslash⟩ :
      Byte.isSpace b = false ∧ Byte.isWordStart b = false ∧ Byte.isDigit b = false ∧
        b ≠ Byte.apostrophe ∧ b ≠ Byte.minus ∧ b ≠ Byte.slash := by
    rcases hsign with rfl | rfl | rfl <;> decide
  rw [first_of_other hspace hstart hdigit hquote hother (absurd · hminus) (absurd · hslash),
    if_pos hlength]

/-- A lexeme at the front of a text that is no white space is the first that is read. -/
theorem first_append {mode : SafeMode} {l : Lexeme} {text : Bytes}
    (hquotes : ∀ quote ∈ r.nameQuotes, quote = Byte.doubleQuote ∨ quote = Byte.backtick)
    (hquoted : ∀ quote name, l = .quotedName quote name → quote ∈ r.nameQuotes)
    (hspace : l.isSpace = false) (hproper : l.Proper r.escapes mode) (hends : l.Ends r text) :
    ∃ b rest, l.source ++ text = b :: rest ∧ first r b rest = (l.tokens text, text) := by
  cases l with
  | space run => cases hspace
  | word name =>
    obtain ⟨⟨b, hb, hstart⟩, hname⟩ := hproper
    obtain ⟨name, rfl⟩ := List.head?_eq_some_iff.mp hb
    refine ⟨b, name ++ text, rfl, ?_⟩
    rw [first_of_isWordStart name hstart (List.forall_mem_cons.mp hname).2
      fun c hc => (hends.1 c hc).1, firstOfWord_of_ends hends]
    rfl
  | national letter =>
    obtain ⟨after, rfl⟩ := List.head?_eq_some_iff.mp hends
    refine ⟨letter, Byte.apostrophe :: after, rfl, ?_⟩
    rcases hproper with rfl | rfl <;>
    · rw [first_of_letter after (by decide)]
      rfl
  | string parts =>
    have hread := quotedText_parts hproper hends
    refine ⟨Byte.apostrophe, parts.flatMap StringPart.source ++ [Byte.apostrophe] ++ text, rfl, ?_⟩
    rw [List.append_assoc, List.singleton_append, first, if_neg (by decide), if_neg (by decide),
      if_neg (by decide), if_pos rfl, hread]
    rfl
  | quotedName quote name =>
    have hread : quotedText false quote (doubled quote name ++ quote :: text)
        = some (name, text) := quotedText_name hends
    have hmem := hquoted quote name rfl
    refine ⟨quote, doubled quote name ++ [quote] ++ text, rfl, ?_⟩
    rw [List.append_assoc, List.singleton_append, first_of_nameQuote _ (hquotes quote hmem) hmem,
      hread]
    rfl
  | hexString letter digits =>
    have hread := digitText_append text fun b hb =>
      isWord_of_isHexDigit (hproper.2.1 b hb)
    refine ⟨letter, Byte.apostrophe :: (digits ++ [Byte.apostrophe] ++ text), rfl, ?_⟩
    rw [List.append_assoc, List.singleton_append,
      first_of_letter _ (by rcases hproper.1 with rfl | rfl <;> decide)]
    unfold firstOfWord
    dsimp only
    rw [if_pos ⟨rfl, by rcases hproper.1 with rfl | rfl <;> simp⟩, hread]
    rfl
  | bitString letter digits =>
    have hread := digitText_append text fun b hb => isWord_of_isBit (hproper.2 b hb)
    refine ⟨letter, Byte.apostrophe :: (digits ++ [Byte.apostrophe] ++ text), rfl, ?_⟩
    rw [List.append_assoc, List.singleton_append,
      first_of_letter _ (by rcases hproper.1 with rfl | rfl <;> decide)]
    unfold firstOfWord
    dsimp only
    rw [if_neg (by rcases hproper.1 with rfl | rfl <;> decide),
      if_pos ⟨rfl, by rcases hproper.1 with rfl | rfl <;> simp⟩, hread]
    rfl
  | number number =>
    obtain ⟨b, hb, hdigit⟩ := Lexeme.IsNumber.head? hproper
    have hlength : Lexeme.numberLength (number ++ text) = number.length := hends
    obtain ⟨digits, rfl⟩ := List.head?_eq_some_iff.mp hb
    refine ⟨b, digits ++ text, rfl, ?_⟩
    rw [first_of_isDigit _ hdigit, ← List.cons_append, hlength, List.take_left, List.drop_left]
    rfl
  | placeholder place =>
    obtain ⟨b, hb, hsign⟩ := (Lexeme.isPlaceholder_of_proper hproper).head?
    have hlength : Lexeme.placeholderLength (place ++ text) = place.length := hends
    obtain ⟨digits, rfl⟩ := List.head?_eq_some_iff.mp hb
    have hpos : Lexeme.placeholderLength (b :: (digits ++ text)) ≠ 0 := by
      rw [← List.cons_append, hlength]
      exact Nat.succ_ne_zero _
    refine ⟨b, digits ++ text, rfl, ?_⟩
    rw [first_of_sign _ hquotes hsign hpos, ← List.cons_append, hlength, List.take_left,
      List.drop_left]
    rfl
  | mark b =>
    have hnone := Lexeme.placeholderLength_mark text hproper
    obtain ⟨hspace, hstart, hdigit, hquote, hdouble, hback, -, -⟩ := hproper
    have hother : b ∉ r.nameQuotes := fun hmem => (hquotes b hmem).elim hdouble hback
    refine ⟨b, text, rfl, ?_⟩
    rw [first_of_other hspace hstart hdigit hquote hother hends.1 hends.2, hnone,
      if_neg (by decide)]
    rfl

/-- A lexeme at the front of a text is read first. -/
theorem tokens_append {mode : SafeMode} {l : Lexeme} {text : Bytes}
    (hquotes : ∀ quote ∈ r.nameQuotes, quote = Byte.doubleQuote ∨ quote = Byte.backtick)
    (hquoted : ∀ quote name, l = .quotedName quote name → quote ∈ r.nameQuotes)
    (hproper : l.Proper r.escapes mode) (hends : l.Ends r text) :
    tokens r (l.source ++ text) = l.tokens text ++ tokens r text := by
  cases hspace : l.isSpace with
  | true =>
    cases l with
    | space run => exact tokens_spaces text hproper.2
    | _ => cases hspace
  | false =>
    obtain ⟨b, rest, hsource, hfirst⟩ := first_append hquotes hquoted hspace hproper hends
    rw [hsource, tokens_cons, hfirst]

end Server

end SqlTemplate
