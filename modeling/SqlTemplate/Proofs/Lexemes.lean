import Mathlib.Data.List.TakeWhile
import SqlTemplate.Sanitize.Lexeme

/-!
# What an accepted text consists of

The reader of safe texts is described once, by what holds of the lexemes it returns: each has the
form of its kind (`Lexeme.Proper`), the text after it does not extend it (`Lexeme.Leaves`), the
parentheses match, and the sources of the lexemes joined are the text. `Lexeme.Accepted` puts this
together for a list of lexemes, and `Lexeme.readAll_ok` says that the reader returns such lists
only. Proofs about accepted texts are inductions on `Lexeme.Accepted` and do not look into the
readers.
-/

namespace SqlTemplate

/-- The text that lexemes were read from. -/
def Lexeme.sources (lexemes : List Lexeme) : Bytes := lexemes.flatMap Lexeme.source

/-! ### Bytes of words -/

theorem isWord_of_isDigit {b : UInt8} (h : Byte.isDigit b = true) : Byte.isWord b = true := by
  simp [Byte.isWord, h]

theorem isWord_of_isHexDigit {b : UInt8} (h : Byte.isHexDigit b = true) :
    Byte.isWord b = true := by
  grind [Byte.isHexDigit, Byte.isWord, Byte.isWordStart, Byte.isLetter]

theorem isWord_of_isBit {b : UInt8} (h : Lexeme.isBit b = true) : Byte.isWord b = true := by
  grind [Lexeme.isBit, Byte.isWord, Byte.isDigit]

/-- What only bytes of words are, no other byte is. -/
theorem not_of_not_isWord {p : UInt8 → Bool} {b : UInt8} (hp : p b = true → Byte.isWord b = true)
    (h : Byte.isWord b = false) : p b = false := by
  by_contra hb
  rw [hp (by simpa using hb)] at h
  cases h

/-! ### The forms of lexemes -/

/-- A step of a string literal that neither ends the literal nor hides what it stands for. -/
def StringPart.Proper (escapes : Bool) : StringPart → Prop
  | .plain b => b ≠ Byte.nul ∧ b ≠ Byte.apostrophe ∧ (b = Byte.backslash → escapes = false)
  | .pair => True
  | .escaped b => escapes = true ∧ b ≠ Byte.nul

namespace Lexeme

/-- The exponent of a number, if it has one. -/
def IsExponent (text : Bytes) : Prop :=
  text = [] ∨ ∃ letter sign digits, text = letter :: (sign ++ digits) ∧
    (letter = 0x65 ∨ letter = 0x45) ∧ (sign = [] ∨ sign = [Byte.plus] ∨ sign = [Byte.minus]) ∧
    digits ≠ [] ∧ ∀ b ∈ digits, Byte.isDigit b = true

/-- The fraction of a number, if it has one. -/
def IsFraction (text : Bytes) : Prop :=
  text = [] ∨ ∃ digits, text = Byte.dot :: digits ∧ ∀ b ∈ digits, Byte.isDigit b = true

/-- A number in decimal digits or, after a zero and the letter, in hexadecimal ones. -/
def IsNumber (text : Bytes) : Prop :=
  (∃ letter digits, text = Byte.zero :: letter :: digits ∧ (letter = 0x78 ∨ letter = 0x58) ∧
    ∀ b ∈ digits, Byte.isHexDigit b = true) ∨
  ∃ whole fraction exponent, text = whole ++ (fraction ++ exponent) ∧ whole ≠ [] ∧
    (∀ b ∈ whole, Byte.isDigit b = true) ∧ IsFraction fraction ∧ IsExponent exponent

def Proper (escapes : Bool) (mode : SafeMode) : Lexeme → Prop
  | .space run => run ≠ [] ∧ ∀ b ∈ run, Byte.isSpace b = true
  | .word name =>
    (∃ b, name.head? = some b ∧ Byte.isWordStart b = true) ∧ ∀ b ∈ name, Byte.isWord b = true
  | .national letter => letter = 0x6E ∨ letter = 0x4E
  | .string parts => ∀ part ∈ parts, part.Proper escapes
  | .quotedName quote name =>
    (quote = Byte.doubleQuote ∨ quote = Byte.backtick) ∧ name ≠ [] ∧ Byte.nul ∉ name
  | .hexString letter digits =>
    (letter = 0x78 ∨ letter = 0x58) ∧ (∀ b ∈ digits, Byte.isHexDigit b = true) ∧
      digits.length % 2 = 0
  | .bitString letter digits => (letter = 0x62 ∨ letter = 0x42) ∧ ∀ b ∈ digits, isBit b = true
  | .number text => IsNumber text
  | .placeholder text =>
    mode = .nested ∧ ∃ rest, text = rest.take (placeholderLength rest) ∧ placeholderLength rest ≠ 0
  | .mark b =>
    Byte.isSpace b = false ∧ Byte.isWordStart b = false ∧ Byte.isDigit b = false ∧
      b ≠ Byte.apostrophe ∧ b ≠ Byte.doubleQuote ∧ b ≠ Byte.backtick ∧ b ≠ Byte.question ∧
      isForbidden b = false

/-- The text after a lexeme does not extend it, and makes no comment with it. -/
def Leaves (rest : Bytes) : Lexeme → Prop
  | .space _ => ∀ b, rest.head? = some b → Byte.isSpace b = false
  | .word _ => ∀ b, rest.head? = some b → Byte.isWord b = false ∧ b ≠ Byte.apostrophe
  | .national _ => rest.head? = some Byte.apostrophe
  | .string _ => rest.head? ≠ some Byte.apostrophe
  | .quotedName quote _ => rest.head? ≠ some quote
  | .number _ => ∀ b, rest.head? = some b → Byte.isWord b = false
  | .mark b =>
    (b = Byte.minus → rest.head? ≠ some Byte.minus) ∧ (b = Byte.slash → rest.head? ≠ some Byte.star)
  | _ => True

/-- Lexemes of an accepted text that starts at depth `depth` of parentheses. -/
inductive Accepted (escapes : Bool) (mode : SafeMode) : Nat → List Lexeme → Prop
  | nil : Accepted escapes mode 0 []
  | cons {l : Lexeme} {rest : List Lexeme} {depth next : Nat} (hproper : l.Proper escapes mode)
      (hleaves : l.Leaves (sources rest)) (hdepth : depthAfter mode depth l = .ok next)
      (hrest : Accepted escapes mode next rest) : Accepted escapes mode depth (l :: rest)

/-! ### What each reader returns -/

theorem head?_dropWhile_not {p : UInt8 → Bool} {text : Bytes} {b : UInt8}
    (h : (text.dropWhile p).head? = some b) : p b = false := by
  induction text with
  | nil => simp at h
  | cons c rest ih =>
    rw [List.dropWhile_cons] at h
    split at h
    · exact ih h
    · rename_i hc
      obtain rfl : c = b := by simpa using h
      simpa using hc

/-- A run of bytes that satisfy `p`, before one that does not. -/
theorem takeWhile_append_stop {p : UInt8 → Bool} {x y : Bytes} (hx : ∀ b ∈ x, p b = true)
    (hy : ∀ b, y.head? = some b → p b = false) :
    (x ++ y).takeWhile p = x ∧ (x ++ y).dropWhile p = y := by
  rw [List.takeWhile_append_of_pos hx, List.dropWhile_append_of_pos hx]
  cases y with
  | nil => exact ⟨List.append_nil x, rfl⟩
  | cons b y =>
    have hb := hy b rfl
    rw [List.takeWhile_cons_of_neg (by simp [hb]), List.dropWhile_cons_of_neg (by simp [hb])]
    exact ⟨List.append_nil x, rfl⟩

theorem readString_ok {escapes : Bool} {text rest : Bytes} {parts : List StringPart}
    (h : readString escapes text = .ok (parts, rest)) :
    (∀ part ∈ parts, part.Proper escapes) ∧
      parts.flatMap StringPart.source ++ Byte.apostrophe :: rest = text ∧
      rest.head? ≠ some Byte.apostrophe := by
  fun_induction readString escapes text generalizing parts rest with
  | case1 | case2 | case6 | case7 => cases h
  | case3 text hnul ih =>
    obtain ⟨⟨inner, after⟩, hread, hok⟩ := bind_eq_ok h
    cases hok
    obtain ⟨hproper, hsource, hhead⟩ := ih hread
    refine ⟨List.forall_mem_cons.mpr ⟨trivial, hproper⟩, ?_, hhead⟩
    rw [List.flatMap_cons, List.append_assoc, hsource]
    rfl
  | case4 c text hc hnul =>
    cases h
    exact ⟨List.forall_mem_nil _, rfl, by simpa using hc⟩
  | case5 =>
    cases h
    exact ⟨List.forall_mem_nil _, rfl, by simp⟩
  | case8 b hnul hquote hescape c text hc ih =>
    obtain ⟨⟨inner, after⟩, hread, hok⟩ := bind_eq_ok h
    cases hok
    obtain ⟨hproper, hsource, hhead⟩ := ih hread
    simp only [Bool.and_eq_true, decide_eq_true_eq] at hescape
    refine ⟨List.forall_mem_cons.mpr ⟨⟨hescape.2, hc⟩, hproper⟩, ?_, hhead⟩
    rw [List.flatMap_cons, List.append_assoc, hsource, hescape.1]
    rfl
  | case9 b text hnul hquote hescape ih =>
    obtain ⟨⟨inner, after⟩, hread, hok⟩ := bind_eq_ok h
    cases hok
    obtain ⟨hproper, hsource, hhead⟩ := ih hread
    refine ⟨List.forall_mem_cons.mpr ⟨⟨hnul, hquote, ?_⟩, hproper⟩, ?_, hhead⟩
    · intro hb
      simpa [hb] using hescape
    · rw [List.flatMap_cons, List.append_assoc, hsource]
      rfl

theorem readQuotedName_ok {quote : UInt8} {text name rest : Bytes}
    (h : readQuotedName quote text = .ok (name, rest)) :
    (quote ≠ Byte.nul → Byte.nul ∉ name) ∧ doubled quote name ++ quote :: rest = text ∧
      rest.head? ≠ some quote := by
  fun_induction readQuotedName quote text generalizing name rest with
  | case1 | case2 => cases h
  | case3 text hnul ih =>
    obtain ⟨⟨inner, after⟩, hread, hok⟩ := bind_eq_ok h
    cases hok
    obtain ⟨hnone, hsource, hhead⟩ := ih hread
    refine ⟨?_, ?_, hhead⟩
    · intro hquote
      exact List.not_mem_cons_of_ne_of_not_mem (Ne.symm hquote) (hnone hquote)
    · rw [doubled, if_pos rfl, List.cons_append, List.cons_append, hsource]
  | case4 c text hc hnul =>
    cases h
    exact ⟨fun _ => List.not_mem_nil, rfl, by simpa using hc⟩
  | case5 =>
    cases h
    exact ⟨fun _ => List.not_mem_nil, rfl, by simp⟩
  | case6 b text hnul hquote ih =>
    obtain ⟨⟨inner, after⟩, hread, hok⟩ := bind_eq_ok h
    cases hok
    obtain ⟨hnone, hsource, hhead⟩ := ih hread
    refine ⟨?_, ?_, hhead⟩
    · intro hq
      exact List.not_mem_cons_of_ne_of_not_mem (Ne.symm hnul) (hnone hq)
    · rw [doubled, if_neg hquote, List.cons_append, hsource]

theorem readHexString_ok {text digits rest : Bytes} (h : readHexString text = .ok (digits, rest)) :
    (∀ b ∈ digits, Byte.isHexDigit b = true) ∧ digits.length % 2 = 0 ∧
      digits ++ Byte.apostrophe :: rest = text := by
  unfold readHexString at h
  dsimp only at h
  split at h
  · rename_i b after hdrop
    split at h
    · rename_i hend
      cases h
      refine ⟨fun _ hb => List.mem_takeWhile_imp hb, hend.2, ?_⟩
      rw [← hend.1, ← hdrop, List.takeWhile_append_dropWhile]
    · cases h
  · cases h

theorem readBitString_ok {text digits rest : Bytes} (h : readBitString text = .ok (digits, rest)) :
    (∀ b ∈ digits, isBit b = true) ∧ digits ++ Byte.apostrophe :: rest = text := by
  unfold readBitString at h
  split at h
  · rename_i b after hdrop
    split at h
    · rename_i hend
      cases h
      refine ⟨fun _ hb => List.mem_takeWhile_imp hb, ?_⟩
      rw [← hend, ← hdrop, List.takeWhile_append_dropWhile]
    · cases h
  · cases h

theorem readWord_ok (escapes : Bool) (mode : SafeMode) {name text rest : Bytes} {l : Lexeme}
    (hstart : ∃ b, name.head? = some b ∧ Byte.isWordStart b = true)
    (hname : ∀ b ∈ name, Byte.isWord b = true)
    (htext : ∀ b, text.head? = some b → Byte.isWord b = false)
    (h : readWord name text = .ok (l, rest)) :
    l.Proper escapes mode ∧ l.source ++ rest = name ++ text ∧ l.Leaves rest := by
  unfold readWord at h
  split at h
  · rename_i b after
    split at h
    · rename_i hquote
      split at h
      · rename_i letter
        split at h
        · rename_i hhex
          obtain ⟨⟨digits, final⟩, hread, hok⟩ := bind_eq_ok h
          cases hok
          obtain ⟨hdigits, heven, hsource⟩ := readHexString_ok hread
          refine ⟨⟨hhex, hdigits, heven⟩, ?_, trivial⟩
          simp [source, hquote, ← hsource]
        split at h
        · rename_i hnational
          cases h
          exact ⟨hnational, rfl, by simp [Leaves, hquote]⟩
        split at h
        · rename_i hbits
          obtain ⟨⟨digits, final⟩, hread, hok⟩ := bind_eq_ok h
          cases hok
          obtain ⟨hdigits, hsource⟩ := readBitString_ok hread
          refine ⟨⟨hbits, hdigits⟩, ?_, trivial⟩
          simp [source, hquote, ← hsource]
        · cases h
      · cases h
    · rename_i hquote
      split at h
      · cases h
      · cases h
        refine ⟨⟨hstart, hname⟩, rfl, ?_⟩
        intro c hc
        obtain rfl : b = c := by simpa using hc
        exact ⟨htext b rfl, hquote⟩
  · cases h
    exact ⟨⟨hstart, hname⟩, rfl, fun c hc => by simp at hc⟩

/-! ### Numbers -/

theorem take_run (p : UInt8 → Bool) (text : Bytes) : text.take (run p text) = text.takeWhile p :=
  (List.prefix_iff_eq_take.mp (List.takeWhile_prefix p)).symm

theorem forall_mem_take_run (p : UInt8 → Bool) (text : Bytes) :
    ∀ b ∈ text.take (run p text), p b = true := by
  rw [take_run]
  exact fun _ hb => List.mem_takeWhile_imp hb

theorem take_run_ne_nil {p : UInt8 → Bool} {text : Bytes} (h : run p text ≠ 0) :
    text.take (run p text) ≠ [] := by
  rw [take_run]
  exact fun hnil => h (by rw [run, hnil, List.length_nil])

theorem isFraction_take (text : Bytes) : IsFraction (text.take (fractionLength text)) := by
  unfold fractionLength
  split
  · rename_i b rest
    split
    · rename_i hdot
      refine Or.inr ⟨rest.take (run Byte.isDigit rest), ?_, forall_mem_take_run _ _⟩
      rw [hdot, Nat.add_comm, List.take_succ_cons]
    · exact Or.inl rfl
  · exact Or.inl rfl

theorem isExponent_take (text : Bytes) : IsExponent (text.take (exponentLength text)) := by
  unfold exponentLength
  split
  · rename_i letter rest
    split
    · rename_i hletter
      split
      · rename_i sign rest'
        split
        · rename_i hsign
          split
          · exact Or.inl rfl
          · rename_i hdigits
            refine Or.inr ⟨letter, [sign], rest'.take (run Byte.isDigit rest'), ?_, hletter, ?_,
              take_run_ne_nil hdigits, forall_mem_take_run _ _⟩
            · rw [Nat.add_comm, List.take_succ_cons, List.take_succ_cons]
              rfl
            · rcases hsign with rfl | rfl
              · exact Or.inr (Or.inl rfl)
              · exact Or.inr (Or.inr rfl)
        · split
          · exact Or.inl rfl
          · rename_i hdigits
            refine Or.inr ⟨letter, [], (sign :: rest').take (run Byte.isDigit (sign :: rest')), ?_,
              hletter, Or.inl rfl, take_run_ne_nil hdigits, forall_mem_take_run _ _⟩
            rw [Nat.add_comm, List.take_succ_cons]
            rfl
      · exact Or.inl rfl
    · exact Or.inl rfl
  · exact Or.inl rfl

theorem isNumber_take {b : UInt8} {rest : Bytes} (hb : Byte.isDigit b = true) :
    IsNumber ((b :: rest).take (numberLength (b :: rest))) := by
  have hwhole : run Byte.isDigit (b :: rest) ≠ 0 := Nat.ne_of_gt (run_cons_pos _ _ _ hb)
  unfold numberLength
  split
  · rename_i zero letter digits heq
    split
    · rename_i hhex
      refine Or.inl ⟨letter, digits.take (run Byte.isHexDigit digits), ?_, hhex.2,
        forall_mem_take_run _ _⟩
      rw [heq, hhex.1, Nat.add_comm, List.take_succ_cons, List.take_succ_cons]
    · refine Or.inr ⟨_, _, _, ?_, take_run_ne_nil hwhole, forall_mem_take_run _ _,
        isFraction_take ((b :: rest).drop (run Byte.isDigit (b :: rest))),
        isExponent_take (((b :: rest).drop (run Byte.isDigit (b :: rest))).drop
          (fractionLength ((b :: rest).drop (run Byte.isDigit (b :: rest)))))⟩
      rw [List.take_add, List.take_add, List.append_assoc, List.drop_drop]
  · refine Or.inr ⟨_, [], [], (List.append_nil _).symm, take_run_ne_nil hwhole,
      forall_mem_take_run _ _, Or.inl rfl, Or.inl rfl⟩

theorem readNumber_ok {escapes : Bool} {mode : SafeMode} {b : UInt8} {text rest : Bytes}
    {l : Lexeme} (hb : Byte.isDigit b = true) (h : readNumber (b :: text) = .ok (l, rest)) :
    l.Proper escapes mode ∧ l.source ++ rest = b :: text ∧ l.Leaves rest := by
  unfold readNumber at h
  dsimp only at h
  split at h
  · cases h
  · rename_i hstop
    cases h
    refine ⟨isNumber_take hb, List.take_append_drop _ _, ?_⟩
    intro c hc
    cases hrest : (b :: text).drop (numberLength (b :: text)) with
    | nil => simp [hrest] at hc
    | cons d after =>
      obtain rfl : d = c := by simpa [hrest] using hc
      simpa [hrest, startsWord] using hstop

/-! ### Placeholders -/

/-- What a placeholder starts with, if it is no question mark. -/
def IsPlaceholderSign (sign : Bytes) : Prop :=
  sign = [Byte.dollar] ∨ sign = [Byte.commercialAt, 0x70] ∨ sign = [Byte.commercialAt, 0x50]

/-- A bind placeholder: a question mark, or a number after `$` or `@p`. -/
def IsPlaceholder (text : Bytes) : Prop :=
  text = [Byte.question] ∨
    ∃ sign digits, text = sign ++ digits ∧ IsPlaceholderSign sign ∧
      digits ≠ [] ∧ ∀ b ∈ digits, Byte.isDigit b = true

theorem placeholderLength_cases (text : Bytes) :
    placeholderLength text = 0 ∨
    (∃ rest, text = Byte.question :: rest ∧ placeholderLength text = 1) ∨
    ∃ sign rest, text = sign ++ rest ∧ IsPlaceholderSign sign ∧ run Byte.isDigit rest ≠ 0 ∧
      placeholderLength text = sign.length + run Byte.isDigit rest := by
  unfold placeholderLength
  split
  · rename_i b rest
    split
    · rename_i hquestion
      exact Or.inr (Or.inl ⟨rest, by rw [hquestion], rfl⟩)
    split
    · rename_i hdollar
      split
      · exact Or.inl rfl
      · rename_i hdigits
        exact Or.inr (Or.inr ⟨[Byte.dollar], rest, by rw [hdollar]; rfl, Or.inl rfl, hdigits, rfl⟩)
    split
    · rename_i hat
      split
      · rename_i p digits
        split
        · rename_i hform
          refine Or.inr (Or.inr ⟨[Byte.commercialAt, p], digits, by rw [hat]; rfl, ?_, hform.2, rfl⟩)
          rcases hform.1 with rfl | rfl
          · exact Or.inr (Or.inl rfl)
          · exact Or.inr (Or.inr rfl)
        · exact Or.inl rfl
      · exact Or.inl rfl
    · exact Or.inl rfl
  · exact Or.inl rfl

theorem isPlaceholder_take (text : Bytes) :
    placeholderLength text = 0 ∨ IsPlaceholder (text.take (placeholderLength text)) := by
  rcases placeholderLength_cases text with h | ⟨rest, rfl, h⟩ | ⟨sign, rest, rfl, hsign, hdigits, h⟩
  · exact Or.inl h
  · rw [h]
    exact Or.inr (Or.inl rfl)
  · rw [h, List.take_length_add_append]
    exact Or.inr (Or.inr ⟨sign, _, rfl, hsign, take_run_ne_nil hdigits, forall_mem_take_run _ _⟩)

theorem isPlaceholder_of_proper {escapes : Bool} {mode : SafeMode} {text : Bytes}
    (h : (Lexeme.placeholder text).Proper escapes mode) : IsPlaceholder text := by
  obtain ⟨-, rest, htext, hlength⟩ := h
  rw [htext]
  exact (isPlaceholder_take rest).resolve_left hlength

/-! ### First bytes -/

theorem head?_of_forall_mem {p : UInt8 → Bool} {text : Bytes} (hne : text ≠ [])
    (h : ∀ b ∈ text, p b = true) : ∃ b, text.head? = some b ∧ p b = true := by
  cases text with
  | nil => exact absurd rfl hne
  | cons b rest => exact ⟨b, rfl, h b List.mem_cons_self⟩

theorem IsNumber.head? {text : Bytes} (h : IsNumber text) :
    ∃ b, text.head? = some b ∧ Byte.isDigit b = true := by
  rcases h with ⟨letter, digits, rfl, -⟩ | ⟨whole, fraction, exponent, rfl, hne, hwhole, -⟩
  · exact ⟨Byte.zero, rfl, by decide⟩
  · obtain ⟨b, hb, hdigit⟩ := head?_of_forall_mem hne hwhole
    exact ⟨b, by rw [List.head?_append, hb, Option.some_or], hdigit⟩

theorem IsPlaceholder.head? {text : Bytes} (h : IsPlaceholder text) :
    ∃ b, text.head? = some b ∧
      (b = Byte.question ∨ b = Byte.dollar ∨ b = Byte.commercialAt) := by
  rcases h with rfl | ⟨sign, digits, rfl, hsign, -⟩
  · exact ⟨Byte.question, rfl, Or.inl rfl⟩
  · rcases hsign with rfl | rfl | rfl
    · exact ⟨Byte.dollar, rfl, Or.inr (Or.inl rfl)⟩
    · exact ⟨Byte.commercialAt, rfl, Or.inr (Or.inr rfl)⟩
    · exact ⟨Byte.commercialAt, rfl, Or.inr (Or.inr rfl)⟩

/-- The bytes that a lexeme may start with. -/
def StartsAs (b : UInt8) : Lexeme → Prop
  | .space _ => Byte.isSpace b = true
  | .word _ => Byte.isWordStart b = true
  | .national _ => b = 0x6E ∨ b = 0x4E
  | .string _ => b = Byte.apostrophe
  | .quotedName quote _ => b = quote ∧ (b = Byte.doubleQuote ∨ b = Byte.backtick)
  | .hexString _ _ => b = 0x78 ∨ b = 0x58
  | .bitString _ _ => b = 0x62 ∨ b = 0x42
  | .number _ => Byte.isDigit b = true
  | .placeholder _ => b = Byte.question ∨ b = Byte.dollar ∨ b = Byte.commercialAt
  | .mark c =>
    b = c ∧ Byte.isSpace b = false ∧ b ≠ Byte.doubleQuote ∧ b ≠ Byte.backtick

theorem Proper.head? {escapes : Bool} {mode : SafeMode} {l : Lexeme} (h : l.Proper escapes mode) :
    ∃ b, l.source.head? = some b ∧ l.StartsAs b := by
  cases l with
  | space run => exact head?_of_forall_mem h.1 h.2
  | word name => exact h.1
  | national letter => exact ⟨letter, rfl, h⟩
  | string parts => exact ⟨Byte.apostrophe, rfl, rfl⟩
  | quotedName quote name => exact ⟨quote, rfl, rfl, h.1⟩
  | hexString letter digits | bitString letter digits => exact ⟨letter, rfl, h.1⟩
  | number text => exact IsNumber.head? h
  | placeholder text => exact (isPlaceholder_of_proper h).head?
  | mark b => exact ⟨b, rfl, rfl, h.1, h.2.2.2.2.1, h.2.2.2.2.2.1⟩

/-- A byte that opens no other lexeme opens a mark. -/
theorem StartsAs.eq_mark {l : Lexeme} {b : UInt8} (h : l.StartsAs b)
    (hb : b = Byte.openParen ∨ b = Byte.dot ∨ b = Byte.ampersand) : l = .mark b := by
  cases l with
  | mark c => rw [h.1]
  | quotedName quote name =>
    rcases hb with rfl | rfl | rfl <;> exact absurd h.2 (by decide)
  | _ =>
    rcases hb with rfl | rfl | rfl <;>
      simp +decide [StartsAs] at h

/-- A quote around names opens a name. -/
theorem StartsAs.eq_quotedName {l : Lexeme} {b : UInt8} (h : l.StartsAs b)
    (hb : b = Byte.doubleQuote ∨ b = Byte.backtick) : ∃ name, l = .quotedName b name := by
  cases l with
  | quotedName quote name => exact ⟨name, by rw [h.1]⟩
  | mark c => exact (hb.elim h.2.2.1 h.2.2.2).elim
  | _ => rcases hb with rfl | rfl <;> simp +decide [StartsAs] at h

theorem StartsAs.isSpace {l : Lexeme} {b : UInt8} (h : l.StartsAs b)
    (hb : Byte.isSpace b = true) : ∃ run, l = .space run := by
  cases l with
  | space run => exact ⟨run, rfl⟩
  | word name => exact absurd hb (by grind [StartsAs, Byte.isSpace, Byte.isWordStart, Byte.isLetter])
  | number text => exact absurd hb (by grind [StartsAs, Byte.isSpace, Byte.isDigit])
  | mark c =>
    rw [h.2.1] at hb
    cases hb
  | string parts =>
    obtain rfl : b = Byte.apostrophe := h
    exact absurd hb (by decide)
  | quotedName quote name => rcases h.2 with rfl | rfl <;> exact absurd hb (by decide)
  | placeholder text => rcases h with rfl | rfl | rfl <;> exact absurd hb (by decide)
  | national letter | hexString letter digits | bitString letter digits =>
    rcases h with rfl | rfl <;> exact absurd hb (by decide)

/-! ### The reader -/

theorem next_ok {escapes : Bool} {mode : SafeMode} {b : UInt8} {text rest : Bytes} {l : Lexeme}
    (h : next escapes mode b text = .ok (l, rest)) :
    l.Proper escapes mode ∧ l.source ++ rest = b :: text ∧ l.Leaves rest := by
  unfold next at h
  split at h
  · rename_i hspace
    cases h
    refine ⟨⟨by simp, List.forall_mem_cons.mpr ⟨hspace, fun _ hc => List.mem_takeWhile_imp hc⟩⟩, ?_,
      fun _ hc => head?_dropWhile_not hc⟩
    simp [source]
  rename_i hspace
  split at h
  · rename_i hstart
    have hword : Byte.isWord b = true := by simp [Byte.isWord, hstart]
    obtain ⟨hproper, hsource, hleaves⟩ := readWord_ok escapes mode
      ⟨b, rfl, hstart⟩
      (List.forall_mem_cons.mpr ⟨hword, fun _ hc => List.mem_takeWhile_imp hc⟩)
      (fun _ hc => head?_dropWhile_not hc) h
    refine ⟨hproper, ?_, hleaves⟩
    rw [hsource, List.cons_append, List.takeWhile_append_dropWhile]
  rename_i hstart
  split at h
  · rename_i hquote
    obtain ⟨⟨parts, after⟩, hread, hok⟩ := bind_eq_ok h
    cases hok
    obtain ⟨hproper, hsource, hhead⟩ := readString_ok hread
    refine ⟨hproper, ?_, hhead⟩
    rw [source, hquote, ← hsource, List.cons_append, List.cons_append, List.append_assoc]
    rfl
  rename_i hquote
  split at h
  · rename_i hname
    obtain ⟨⟨name, after⟩, hread, hok⟩ := bind_eq_ok h
    obtain ⟨hnone, hsource, hhead⟩ := readQuotedName_ok hread
    dsimp only at hok
    split at hok
    · cases hok
    · rename_i hempty
      cases hok
      refine ⟨⟨hname, hempty, hnone ?_⟩, ?_, hhead⟩
      · rcases hname with rfl | rfl <;> decide
      · rw [source, ← hsource, List.cons_append, List.cons_append, List.append_assoc]
        rfl
  rename_i hname
  split at h
  · rename_i hdigit
    exact readNumber_ok hdigit h
  rename_i hdigit
  split at h
  · cases h
  rename_i hminus
  split at h
  · cases h
  rename_i hslash
  split at h
  · rename_i hplace
    cases h
    exact ⟨⟨hplace.1, b :: text, rfl, hplace.2⟩, List.take_append_drop _ _, trivial⟩
  split at h
  · cases h
  rename_i hquestion
  split at h
  · cases h
  rename_i hforbidden
  cases h
  rw [not_or] at hname
  refine ⟨⟨by simpa using hspace, by simpa using hstart, by simpa using hdigit, hquote, hname.1,
    hname.2, hquestion, by simpa using hforbidden⟩, rfl, ?_, ?_⟩
  · exact fun hb hhead => hminus ⟨hb, hhead⟩
  · exact fun hb hhead => hslash ⟨hb, hhead⟩

/-- The lexemes that the reader returns are accepted ones, and their sources make up the text. -/
theorem readAll_ok {escapes : Bool} {mode : SafeMode} {depth : Nat} {text : Bytes}
    {lexemes : List Lexeme} (h : readAll escapes mode depth text = .ok lexemes) :
    Accepted escapes mode depth lexemes ∧ sources lexemes = text := by
  fun_induction readAll escapes mode depth text generalizing lexemes with
  | case1 =>
    cases h
    exact ⟨.nil, rfl⟩
  | case2 | case3 | case4 => cases h
  | case5 depth b text l after hread next hdepth ih =>
    cases hrest : readAll escapes mode next after with
    | error e =>
      rw [hrest] at h
      cases h
    | ok rest =>
      rw [hrest] at h
      cases h
      obtain ⟨haccepted, hsources⟩ := ih hrest
      obtain ⟨hproper, hsource, hleaves⟩ := next_ok hread
      refine ⟨.cons hproper (hsources ▸ hleaves) hdepth haccepted, ?_⟩
      rw [sources, List.flatMap_cons]
      exact (congrArg (l.source ++ ·) hsources).trans hsource

end Lexeme

end SqlTemplate
