import SqlTemplate.Proofs.Lexemes
import SqlTemplate.Settings

/-!
# Where numbers stand in a text

The exponent of a number looks like a word where only a point stands between it and the digits, and
so does a column after a point. What is before the point tells them apart: digits that a number
starts with, or anything else, such as the digits at the end of a name or those of a fraction. The
automaton `Numeral` goes through a text from left to right and keeps what it takes to say so. The
bytes between quotes need no care, since the closing quote leaves it where it started.

A hexadecimal literal that is written as a number has nothing after it that separates it from what
comes next. The text alone does not say where it ends, so `ScansTo` may leave it behind at any pair
of digits.
-/

namespace SqlTemplate

/-- What a reader of numbers has just come through. -/
inductive Numeral where
  /-- No word and no number. -/
  | clear
  /-- A word, or a number in hexadecimal digits. -/
  | word
  /-- The decimal digits that a number starts with. -/
  | whole
  /-- The point of a number, the sign of its exponent, or digits after one of them or after the
  letter of the exponent. -/
  | tail
  /-- The letter of an exponent. -/
  | letter
deriving DecidableEq, Repr

namespace Numeral

/-- Where a byte leads that no number goes on with. -/
def leave (b : UInt8) : Numeral := if Byte.isWord b then .word else .clear

def step : Numeral → UInt8 → Numeral
  | .clear, b => if Byte.isDigit b then .whole else leave b
  | .word, b => leave b
  | .whole, b =>
    if Byte.isDigit b then .whole
    else if b = Byte.dot then .tail
    else if b = 0x65 ∨ b = 0x45 then .letter
    else leave b
  | .tail, b =>
    if Byte.isDigit b then .tail
    else if b = 0x65 ∨ b = 0x45 then .letter
    else leave b
  | .letter, b =>
    if Byte.isDigit b ∨ b = Byte.plus ∨ b = Byte.minus then .tail else leave b

/-! ### One byte -/

theorem leave_of_isWord {b : UInt8} (h : Byte.isWord b = true) : leave b = .word := if_pos h

theorem leave_of_not_isWord {b : UInt8} (h : Byte.isWord b = false) : leave b = .clear :=
  if_neg (by simp [h])

/-- A reader that is clear has just read no word byte. -/
theorem not_isWord_of_step_eq_clear {n : Numeral} {b : UInt8} (h : n.step b = .clear) :
    Byte.isWord b = false := by
  cases n <;> simp only [step, leave] at h <;> grind

/-- A byte that is no word byte leaves the reader clear, unless a number goes on with it. -/
theorem step_eq_clear {n : Numeral} {b : UInt8} (hword : Byte.isWord b = false)
    (hwhole : n = .whole → b ≠ Byte.dot) (hletter : n ≠ .letter) : n.step b = .clear := by
  have hdigit : Byte.isDigit b = false := not_of_not_isWord isWord_of_isDigit hword
  have hexponent : ¬ (b = 0x65 ∨ b = 0x45) := by
    rintro (rfl | rfl) <;> exact absurd hword (by decide)
  have hleave := leave_of_not_isWord hword
  cases n with
  | clear => simp [step, hdigit, hleave]
  | word => exact hleave
  | whole => simp [step, hdigit, hwhole rfl, hexponent, hleave]
  | tail => simp [step, hdigit, hexponent, hleave]
  | letter => exact absurd rfl hletter

/-- Bytes that no number goes on with and that belong to no word. -/
def isBreak (b : UInt8) : Bool :=
  !Byte.isWord b && b != Byte.dot && b != Byte.plus && b != Byte.minus

theorem step_of_isBreak (n : Numeral) {b : UInt8} (h : isBreak b = true) : n.step b = .clear := by
  simp only [isBreak, Bool.and_eq_true, Bool.not_eq_true', bne_iff_ne, ne_eq] at h
  obtain ⟨⟨⟨hword, hdot⟩, hplus⟩, hminus⟩ := h
  cases n with
  | letter =>
    have hdigit : Byte.isDigit b = false := not_of_not_isWord isWord_of_isDigit hword
    simp [step, hdigit, hplus, hminus, leave_of_not_isWord hword]
  | _ => exact step_eq_clear hword (fun _ => hdot) (by decide)

/-! ### Runs of bytes -/

theorem foldl_step_of_forall {n : Numeral} {run : Bytes} (h : ∀ b ∈ run, n.step b = n) :
    run.foldl step n = n := by
  induction run with
  | nil => rfl
  | cons b run ih =>
    obtain ⟨hb, hrun⟩ := List.forall_mem_cons.mp h
    rw [List.foldl_cons, hb, ih hrun]

/-- Where the first byte of a run leads, the others stay. -/
theorem foldl_step_eq {n next : Numeral} {run : Bytes} (hne : run ≠ [])
    (hfirst : ∀ b, run.head? = some b → n.step b = next) (hrun : ∀ b ∈ run, next.step b = next) :
    run.foldl step n = next := by
  obtain ⟨b, rest, rfl⟩ := List.exists_cons_of_ne_nil hne
  rw [List.foldl_cons, hfirst b rfl]
  exact foldl_step_of_forall (List.forall_mem_cons.mp hrun).2

theorem foldl_step_tail {digits : Bytes} (h : ∀ b ∈ digits, Byte.isDigit b = true) :
    digits.foldl step .tail = .tail :=
  foldl_step_of_forall fun b hb => if_pos (h b hb)

end Numeral

/-! ### Texts -/

/-- A reader of numbers may come through a text to `n`. -/
inductive ScansTo (s : Settings) : Bytes → Numeral → Prop
  | nil : ScansTo s [] .clear
  | byte {text : Bytes} {n : Numeral} (h : ScansTo s text n) (b : UInt8) :
      ScansTo s (text ++ [b]) (n.step b)
  /-- A hexadecimal literal that is written as a number is left behind whole. -/
  | literal {text digits : Bytes} (h : ScansTo s text .clear) (hfamily : s.family = .mssql)
      (hdigits : ∀ b ∈ digits, Byte.isHexDigit b = true) (heven : digits.length % 2 = 0) :
      ScansTo s (text ++ (utf8 "0x" ++ digits)) .clear

variable {s : Settings} {text : Bytes} {n : Numeral}

theorem ScansTo.append (h : ScansTo s text n) (more : Bytes) :
    ScansTo s (text ++ more) (more.foldl Numeral.step n) := by
  induction more generalizing text n with
  | nil => rwa [List.append_nil]
  | cons b more ih =>
    have hnext := ih (h.byte b)
    rwa [List.append_assoc] at hnext

theorem exists_scansTo (s : Settings) (text : Bytes) : ∃ n, ScansTo s text n :=
  ⟨_, ScansTo.nil.append text⟩

/-- Where no hexadecimal literal is written as a number, the reader is an automaton. -/
theorem scansTo_iff_foldl (hfamily : s.family ≠ .mssql) :
    ScansTo s text n ↔ text.foldl Numeral.step .clear = n := by
  constructor
  · intro h
    induction h with
    | nil => rfl
    | byte h b ih => rw [List.foldl_append, ih, List.foldl_cons, List.foldl_nil]
    | literal _ hmssql => exact absurd hmssql hfamily
  · rintro rfl
    exact ScansTo.nil.append text

/-- A number starts with the digit of `1.e5`, and with none of those in `t1.e5` and `1.5.e5`. -/
example : ScansTo (Settings.ofDialect .postgres) (utf8 "1") .whole ∧
    ¬ ScansTo (Settings.ofDialect .postgres) (utf8 "t1") .whole ∧
    ¬ ScansTo (Settings.ofDialect .postgres) (utf8 "1.5") .whole := by
  simp only [scansTo_iff_foldl (s := Settings.ofDialect .postgres) (by decide)]
  decide +kernel

theorem scansTo_of_getLast? {b : UInt8} (hlast : text.getLast? = some b)
    (hb : Numeral.isBreak b = true) : ScansTo s text .clear := by
  obtain ⟨front, rfl⟩ := List.getLast?_eq_some_iff.mp hlast
  obtain ⟨n, hfront⟩ := exists_scansTo s front
  exact Numeral.step_of_isBreak n hb ▸ hfront.byte b

/-- A literal ends a text that leaves the reader clear, if word bytes do. -/
theorem ScansTo.exists_literal {b : UInt8} (h : ScansTo s text .clear)
    (hlast : text.getLast? = some b) (hb : Byte.isWord b = true) :
    ∃ front digits, text = front ++ (utf8 "0x" ++ digits) ∧ ScansTo s front .clear ∧
      s.family = .mssql ∧ (∀ b ∈ digits, Byte.isHexDigit b = true) ∧ digits.length % 2 = 0 := by
  generalize hn : Numeral.clear = n at h
  cases h with
  | nil => cases hlast
  | byte _ c =>
    obtain rfl : c = b := by simpa using hlast
    rw [Numeral.not_isWord_of_step_eq_clear hn.symm] at hb
    cases hb
  | literal h hfamily hdigits heven => exact ⟨_, _, rfl, h, hfamily, hdigits, heven⟩

/-! ### Words and numbers -/

theorem ScansTo.digits {digits : Bytes} (h : ScansTo s text .clear) (hne : digits ≠ [])
    (hdigits : ∀ b ∈ digits, Byte.isDigit b = true) : ScansTo s (text ++ digits) .whole := by
  have hend : digits.foldl Numeral.step .clear = .whole :=
    Numeral.foldl_step_eq hne (fun b hb => if_pos (hdigits b (List.mem_of_mem_head? hb)))
      fun b hb => if_pos (hdigits b hb)
  exact hend ▸ h.append digits

theorem ScansTo.word {name : Bytes} (h : ScansTo s text .clear)
    (hstart : ∃ b, name.head? = some b ∧ Byte.isWordStart b = true)
    (hname : ∀ b ∈ name, Byte.isWord b = true) : ScansTo s (text ++ name) .word := by
  obtain ⟨b, hb, hstart⟩ := hstart
  have hend : name.foldl Numeral.step .clear = .word := by
    refine Numeral.foldl_step_eq ?_ ?_ fun c hc => Numeral.leave_of_isWord (hname c hc)
    · rintro rfl
      cases hb
    · intro c hc
      obtain rfl : b = c := Option.some.inj (hb.symm.trans hc)
      have hdigit : Byte.isDigit b = false := by
        grind [Byte.isDigit, Byte.isWordStart, Byte.isLetter]
      simp [Numeral.step, hdigit, Numeral.leave_of_isWord (hname b (List.mem_of_mem_head? hb))]
  exact hend ▸ h.append name

namespace Lexeme

theorem IsFraction.foldl_step {fraction : Bytes} (h : IsFraction fraction) :
    fraction = [] ∨ fraction.foldl Numeral.step .whole = .tail := by
  rcases h with rfl | ⟨digits, rfl, hdigits⟩
  · exact Or.inl rfl
  · exact Or.inr (Numeral.foldl_step_tail hdigits)

theorem IsExponent.foldl_step {exponent : Bytes} (h : IsExponent exponent)
    (hn : n = .whole ∨ n = .tail) : exponent = [] ∨ exponent.foldl Numeral.step n = .tail := by
  rcases h with rfl | ⟨letter, sign, digits, rfl, hletter, hsign, hne, hdigits⟩
  · exact Or.inl rfl
  right
  have hfirst : n.step letter = .letter := by
    rcases hn with rfl | rfl <;> rcases hletter with rfl | rfl <;> decide
  rw [List.foldl_cons, hfirst, List.foldl_append]
  rcases hsign with rfl | rfl | rfl
  · exact Numeral.foldl_step_eq hne
      (fun b hb => if_pos (Or.inl (hdigits b (List.mem_of_mem_head? hb))))
      fun b hb => if_pos (hdigits b hb)
  · exact Numeral.foldl_step_tail hdigits
  · exact Numeral.foldl_step_tail hdigits

/-- Behind a number the reader is at no letter of it, and at its first digits only if it has no
other bytes. -/
theorem IsNumber.scansTo {number : Bytes} (hnumber : IsNumber number)
    (h : ScansTo s text .clear) :
    ∃ n, ScansTo s (text ++ number) n ∧ n ≠ .letter ∧
      (n = .whole → ∀ b ∈ number, Byte.isDigit b = true) := by
  rcases hnumber with ⟨letter, digits, rfl, hletter, hdigits⟩ |
    ⟨whole, fraction, exponent, rfl, hne, hwhole, hfraction, hexponent⟩
  · have hend : (Byte.zero :: letter :: digits).foldl Numeral.step .clear = .word := by
      have hfirst : (Numeral.step .clear Byte.zero).step letter = .word := by
        rcases hletter with rfl | rfl <;> decide
      rw [List.foldl_cons, List.foldl_cons, hfirst]
      exact Numeral.foldl_step_of_forall fun b hb =>
        Numeral.leave_of_isWord (isWord_of_isHexDigit (hdigits b hb))
    exact ⟨.word, hend ▸ h.append _, by decide, (absurd · (by decide))⟩
  · have hdigits := h.digits hne hwhole
    have htail (hend : (fraction ++ exponent).foldl Numeral.step .whole = .tail) :
        ∃ n, ScansTo s (text ++ (whole ++ (fraction ++ exponent))) n ∧ n ≠ .letter ∧
          (n = .whole → ∀ b ∈ whole ++ (fraction ++ exponent), Byte.isDigit b = true) := by
      rw [← List.append_assoc]
      exact ⟨.tail, hend ▸ hdigits.append _, by decide, (absurd · (by decide))⟩
    rcases hfraction.foldl_step with rfl | hpoint
    · rcases hexponent.foldl_step (Or.inl rfl) with rfl | hend
      · refine ⟨.whole, ?_, by decide, fun _ => ?_⟩ <;> simpa
      · exact htail hend
    · rcases hexponent.foldl_step (Or.inr rfl) with rfl | hend
      · exact htail (by rwa [List.append_nil])
      · exact htail (by rw [List.foldl_append, hpoint, hend])

end Lexeme

end SqlTemplate
