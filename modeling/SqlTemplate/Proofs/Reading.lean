import SqlTemplate.Proofs.Lexemes

/-!
# The reader, characterized

`Lexeme.readAll_ok` says what the lexemes of an accepted text are like; here is the converse. A
lexeme is the first of a text iff it has the form of its kind and the text after it does not extend
it, neither where the lexeme ends (`Lexeme.Leaves`) nor where the reader looks further ahead
(`Lexeme.Stops`). By `Lexeme.next_eq_ok_iff` and `Lexeme.readAll_eq_ok_iff` it is enough to say what
the lexemes of a text are in order to know how it is read.
-/

namespace SqlTemplate.Lexeme

/-- A word and the text after it open a literal or a name with Unicode escapes. -/
def OpensEscape (name rest : Bytes) : Prop :=
  (name = [0x75] ∨ name = [0x55]) ∧ ∃ after, rest = Byte.ampersand :: after ∧
    (after.head? = some Byte.apostrophe ∨ after.head? = some Byte.doubleQuote)

/-- The reader goes no further than the lexeme and does not refuse it for what follows. -/
def Stops (rest : Bytes) : Lexeme → Prop
  | .word name => ¬ OpensEscape name rest
  | .number text => (∀ b ∈ text, Byte.isDigit b = true) → rest.head? ≠ some Byte.dot
  | .placeholder text =>
    text ≠ [Byte.question] → ∀ b, rest.head? = some b → Byte.isDigit b = false
  | _ => True

/-! ### Strings, names and digits between quotes -/

theorem readString_part {escapes : Bool} {part : StringPart} (text : Bytes)
    (hproper : part.Proper escapes) :
    readString escapes (part.source ++ text)
      = (readString escapes text).map fun result => (part :: result.1, result.2) := by
  cases part with
  | plain b =>
    obtain ⟨hnul, hquote, hescape⟩ := hproper
    have hplain : ¬ (b = Byte.backslash && escapes) = true := by
      simpa using hescape
    rw [StringPart.source, List.cons_append, List.nil_append, readString.eq_def]
    dsimp only
    rw [if_neg hnul, if_neg hquote, if_neg hplain]
    rfl
  | pair =>
    rw [StringPart.source, List.cons_append, List.cons_append, List.nil_append, readString,
      if_neg (by decide), if_pos rfl]
    dsimp only
    rw [if_pos rfl]
    rfl
  | escaped b =>
    obtain ⟨rfl, hnul⟩ := hproper
    rw [StringPart.source, List.cons_append, List.cons_append, List.nil_append, readString,
      if_neg (by decide), if_neg (by decide)]
    dsimp only
    rw [if_pos (by decide), if_neg hnul]
    rfl

theorem readString_append {escapes : Bool} {parts : List StringPart} {rest : Bytes}
    (hproper : ∀ part ∈ parts, part.Proper escapes) (hrest : rest.head? ≠ some Byte.apostrophe) :
    readString escapes (parts.flatMap StringPart.source ++ Byte.apostrophe :: rest)
      = .ok (parts, rest) := by
  induction parts with
  | nil =>
    rw [List.flatMap_nil, List.nil_append]
    cases rest with
    | nil => rfl
    | cons b rest =>
      have hb : b ≠ Byte.apostrophe := fun h => hrest (congrArg some h)
      rw [readString, if_neg (by decide), if_pos rfl]
      exact if_neg hb
  | cons part parts ih =>
    obtain ⟨hpart, hparts⟩ := List.forall_mem_cons.mp hproper
    rw [List.flatMap_cons, List.append_assoc, readString_part _ hpart, ih hparts]
    rfl

theorem readQuotedName_doubled {quote : UInt8} {name : Bytes} (text : Bytes)
    (hquote : quote ≠ Byte.nul) (hname : Byte.nul ∉ name) :
    readQuotedName quote (doubled quote name ++ text)
      = (readQuotedName quote text).map fun result => (name ++ result.1, result.2) := by
  induction name with
  | nil =>
    rw [doubled, List.nil_append]
    cases readQuotedName quote text <;> rfl
  | cons b name ih =>
    obtain ⟨hb, hname⟩ := not_or.mp (mt List.mem_cons.mpr hname)
    rw [doubled]
    split
    · rename_i hquoted
      subst hquoted
      rw [List.cons_append, List.cons_append, readQuotedName, if_neg hquote, if_pos rfl]
      dsimp only
      rw [if_pos rfl, ih hname]
      cases readQuotedName b text <;> rfl
    · rename_i hother
      rw [List.cons_append, readQuotedName.eq_def]
      dsimp only
      rw [if_neg (Ne.symm hb), if_neg hother, ih hname]
      cases readQuotedName quote text <;> rfl

theorem readQuotedName_quote {quote : UInt8} {rest : Bytes} (hquote : quote ≠ Byte.nul)
    (hrest : rest.head? ≠ some quote) : readQuotedName quote (quote :: rest) = .ok ([], rest) := by
  cases rest with
  | nil => simp [readQuotedName, hquote]
  | cons b rest =>
    have hb : b ≠ quote := fun h => hrest (congrArg some h)
    simp [readQuotedName, hquote, hb]

theorem readQuotedName_append {quote : UInt8} {name rest : Bytes} (hquote : quote ≠ Byte.nul)
    (hname : Byte.nul ∉ name) (hrest : rest.head? ≠ some quote) :
    readQuotedName quote (doubled quote name ++ quote :: rest) = .ok (name, rest) := by
  rw [readQuotedName_doubled _ hquote hname, readQuotedName_quote hquote hrest]
  simp [Except.map]

theorem readHexString_append {digits : Bytes} (rest : Bytes)
    (hdigits : ∀ b ∈ digits, Byte.isHexDigit b = true) (heven : digits.length % 2 = 0) :
    readHexString (digits ++ Byte.apostrophe :: rest) = .ok (digits, rest) := by
  obtain ⟨htake, hdrop⟩ := takeWhile_append_stop (y := Byte.apostrophe :: rest) hdigits (by
    intro b hb
    obtain rfl : Byte.apostrophe = b := Option.some.inj hb
    decide)
  simp [readHexString, htake, hdrop, heven]

theorem readBitString_append {digits : Bytes} (rest : Bytes)
    (hdigits : ∀ b ∈ digits, isBit b = true) :
    readBitString (digits ++ Byte.apostrophe :: rest) = .ok (digits, rest) := by
  obtain ⟨htake, hdrop⟩ := takeWhile_append_stop (y := Byte.apostrophe :: rest) hdigits (by
    intro b hb
    obtain rfl : Byte.apostrophe = b := Option.some.inj hb
    decide)
  simp [readBitString, htake, hdrop]

/-! ### Numbers -/

theorem drop_run (p : UInt8 → Bool) (text : Bytes) : text.drop (run p text) = text.dropWhile p := by
  have hsplit : text.drop (run p text) = (text.takeWhile p ++ text.dropWhile p).drop (run p text) := by
    rw [List.takeWhile_append_dropWhile]
  rw [hsplit, run, List.drop_left]

theorem run_append {p : UInt8 → Bool} {x y : Bytes} (hx : ∀ b ∈ x, p b = true)
    (hy : ∀ b, y.head? = some b → p b = false) : run p (x ++ y) = x.length := by
  rw [run, (takeWhile_append_stop hx hy).1]

theorem fractionLength_append {fraction rest : Bytes} (h : IsFraction fraction)
    (hrest : ∀ b, rest.head? = some b → Byte.isDigit b = false)
    (hpoint : fraction = [] → rest.head? ≠ some Byte.dot) :
    fractionLength (fraction ++ rest) = fraction.length := by
  rcases h with rfl | ⟨digits, rfl, hdigits⟩
  · cases rest with
    | nil => rfl
    | cons b rest =>
      have hb : b ≠ Byte.dot := fun h => hpoint rfl (congrArg some h)
      exact if_neg hb
  · rw [List.cons_append, fractionLength, if_pos rfl, run_append hdigits hrest, List.length_cons,
      Nat.add_comm]

theorem exponentLength_append {exponent rest : Bytes} (h : IsExponent exponent)
    (hrest : ∀ b, rest.head? = some b → Byte.isWord b = false) :
    exponentLength (exponent ++ rest) = exponent.length := by
  rcases h with rfl | ⟨letter, sign, digits, rfl, hletter, hsign, hne, hdigits⟩
  · cases rest with
    | nil => rfl
    | cons b rest =>
      have hb : ¬ (b = 0x65 ∨ b = 0x45) := by
        rintro (rfl | rfl) <;> exact absurd (hrest _ rfl) (by decide)
      exact if_neg hb
  · have hrun : run Byte.isDigit (digits ++ rest) = digits.length :=
      run_append hdigits fun b hb => not_of_not_isWord isWord_of_isDigit (hrest b hb)
    have hpos : digits.length ≠ 0 := fun h => hne (List.length_eq_zero_iff.mp h)
    have hsigned {c : UInt8} (hc : c = Byte.plus ∨ c = Byte.minus) :
        exponentLength (letter :: c :: (digits ++ rest)) = 2 + digits.length := by
      unfold exponentLength
      dsimp only
      rw [if_pos hletter, if_pos hc, hrun, if_neg hpos]
    rcases hsign with rfl | rfl | rfl
    · obtain ⟨d, digits, rfl⟩ := List.exists_cons_of_ne_nil hne
      have hd : ¬ (d = Byte.plus ∨ d = Byte.minus) := by
        rintro (rfl | rfl) <;> exact absurd (hdigits _ List.mem_cons_self) (by decide)
      change exponentLength (letter :: d :: (digits ++ rest)) = _
      unfold exponentLength
      dsimp only
      rw [if_pos hletter, if_neg hd, ← List.cons_append, hrun, if_neg hpos, Nat.add_comm]
      rfl
    · exact (hsigned (Or.inl rfl)).trans (Nat.add_comm _ _)
    · exact (hsigned (Or.inr rfl)).trans (Nat.add_comm _ _)

/-- What a text that starts with a digit holds of a number, where it is not hexadecimal. -/
theorem numberLength_decimal {a : UInt8} {text : Bytes} (ha : Byte.isDigit a = true)
    (hdecimal : ∀ x, text.head? = some x → x ≠ 0x78 ∧ x ≠ 0x58) :
    numberLength (a :: text)
      = run Byte.isDigit (a :: text)
        + fractionLength ((a :: text).drop (run Byte.isDigit (a :: text)))
        + exponentLength ((a :: text).drop (run Byte.isDigit (a :: text)
            + fractionLength ((a :: text).drop (run Byte.isDigit (a :: text))))) := by
  cases text with
  | nil =>
    have hrun : run Byte.isDigit [a] = 1 := by simp [run, ha]
    rw [hrun]
    exact hrun
  | cons x text =>
    have hx : ¬ (a = Byte.zero ∧ (x = 0x78 ∨ x = 0x58)) := fun h =>
      h.2.elim (hdecimal x rfl).1 (hdecimal x rfl).2
    unfold numberLength
    dsimp only
    rw [if_neg hx]

theorem IsNumber.numberLength_append {text rest : Bytes} (h : IsNumber text)
    (hrest : ∀ b, rest.head? = some b → Byte.isWord b = false)
    (hpoint : (∀ b ∈ text, Byte.isDigit b = true) → rest.head? ≠ some Byte.dot) :
    numberLength (text ++ rest) = text.length := by
  rcases h with ⟨letter, digits, rfl, hletter, hdigits⟩ |
    ⟨whole, fraction, exponent, rfl, hne, hwhole, hfraction, hexponent⟩
  · have hrun : run Byte.isHexDigit (digits ++ rest) = digits.length :=
      run_append hdigits fun b hb => not_of_not_isWord isWord_of_isHexDigit (hrest b hb)
    change numberLength (Byte.zero :: letter :: (digits ++ rest)) = _
    unfold numberLength
    dsimp only
    rw [if_pos ⟨rfl, hletter⟩, hrun, Nat.add_comm]
    rfl
  · -- No digit follows the whole part, none the fraction, and no `x` the first digit.
    have hafterFraction : ∀ b, (exponent ++ rest).head? = some b →
        (b = 0x65 ∨ b = 0x45) ∨ exponent = [] ∧ rest.head? = some b := by
      intro b hb
      rcases hexponent with rfl | ⟨letter, sign, digits, rfl, hletter, -⟩
      · exact Or.inr ⟨rfl, hb⟩
      · exact Or.inl (Option.some.inj hb ▸ hletter)
    have hafterWhole : ∀ b, (fraction ++ (exponent ++ rest)).head? = some b →
        Byte.isDigit b = false ∧ b ≠ 0x78 ∧ b ≠ 0x58 := by
      intro b hb
      rcases hfraction with rfl | ⟨digits, rfl, -⟩
      · rcases hafterFraction b hb with (rfl | rfl) | ⟨-, hb⟩
        · decide
        · decide
        · have hb := hrest b hb
          refine ⟨not_of_not_isWord isWord_of_isDigit hb, ?_, ?_⟩ <;>
          · rintro rfl
            exact absurd hb (by decide)
      · obtain rfl : Byte.dot = b := Option.some.inj hb
        decide
    have hrun : run Byte.isDigit (whole ++ (fraction ++ (exponent ++ rest))) = whole.length :=
      run_append hwhole fun b hb => (hafterWhole b hb).1
    have hfractionLength : fractionLength (fraction ++ (exponent ++ rest)) = fraction.length := by
      apply fractionLength_append hfraction
      · intro b hb
        rcases hafterFraction b hb with (rfl | rfl) | ⟨-, hb⟩
        · decide
        · decide
        · exact not_of_not_isWord isWord_of_isDigit (hrest b hb)
      · intro hempty hdot
        rcases hafterFraction _ hdot with h | ⟨hempty', hdot⟩
        · exact absurd h (by decide)
        · refine hpoint ?_ hdot
          rw [hempty, hempty', List.append_nil, List.append_nil]
          exact hwhole
    obtain ⟨a, others, rfl⟩ := List.exists_cons_of_ne_nil hne
    rw [List.append_assoc, List.append_assoc, List.cons_append,
      numberLength_decimal (hwhole a List.mem_cons_self), ← List.cons_append, hrun, List.drop_left,
      hfractionLength, List.drop_length_add_append, List.drop_left,
      exponentLength_append hexponent hrest]
    · simp only [List.length_append, Nat.add_assoc]
    · intro x hx
      cases others with
      | nil => exact (hafterWhole x hx).2
      | cons d others =>
        obtain rfl : d = x := Option.some.inj hx
        have hd := hwhole d (List.mem_cons_of_mem _ List.mem_cons_self)
        constructor <;>
        · rintro rfl
          exact absurd hd (by decide)

/-- A point after digits belongs to the number. -/
theorem head?_drop_numberLength {b : UInt8} {text : Bytes} (hb : Byte.isDigit b = true)
    (hdigits : ∀ c ∈ (b :: text).take (numberLength (b :: text)), Byte.isDigit c = true) :
    ((b :: text).drop (numberLength (b :: text))).head? ≠ some Byte.dot := by
  intro hdot
  obtain ⟨rest, hrest⟩ := List.head?_eq_some_iff.mp hdot
  obtain ⟨whole, hwhole⟩ : ∃ whole, (b :: text).take (numberLength (b :: text)) = whole := ⟨_, rfl⟩
  have hsplit : b :: text = whole ++ Byte.dot :: rest := by
    rw [← hwhole, ← hrest, List.take_append_drop]
  rw [hwhole] at hdigits
  have hdecimal : ∀ x, text.head? = some x → x ≠ 0x78 ∧ x ≠ 0x58 := by
    intro x hx
    cases whole with
    | nil =>
      obtain rfl : b = Byte.dot := (List.cons.inj hsplit).1
      exact absurd hb (by decide)
    | cons d others =>
      rw [(List.cons.inj hsplit).2] at hx
      cases others with
      | nil =>
        obtain rfl : Byte.dot = x := Option.some.inj hx
        decide
      | cons c others =>
        obtain rfl : c = x := Option.some.inj hx
        have hc := hdigits c (List.mem_cons_of_mem _ List.mem_cons_self)
        constructor <;>
        · rintro rfl
          exact absurd hc (by decide)
  have hrun : run Byte.isDigit (b :: text) = whole.length := by
    rw [hsplit]
    refine run_append hdigits ?_
    intro c hc
    obtain rfl : Byte.dot = c := Option.some.inj hc
    decide
  have hfraction : 0 < fractionLength ((b :: text).drop (run Byte.isDigit (b :: text))) := by
    rw [hrun, hsplit, List.drop_left, fractionLength, if_pos rfl]
    omega
  have hlength := numberLength_decimal hb hdecimal
  have hwholeLength : whole.length = numberLength (b :: text) := by
    have htotal := congrArg List.length hrest
    have hsum := congrArg List.length hsplit
    rw [List.length_drop] at htotal
    simp only [List.length_append, List.length_cons] at htotal hsum
    omega
  omega

/-! ### Placeholders -/

theorem IsPlaceholder.placeholderLength_append {text rest : Bytes} (h : IsPlaceholder text)
    (hrest : text ≠ [Byte.question] → ∀ b, rest.head? = some b → Byte.isDigit b = false) :
    placeholderLength (text ++ rest) = text.length := by
  rcases h with rfl | ⟨sign, digits, rfl, hsign, hne, hdigits⟩
  · rfl
  · have hform : sign ++ digits ≠ [Byte.question] := by
      rcases hsign with rfl | rfl | rfl <;> exact fun h => absurd (List.cons.inj h).1 (by decide)
    have hrun : run Byte.isDigit (digits ++ rest) = digits.length :=
      run_append hdigits (hrest hform)
    have hpos : digits.length ≠ 0 := fun h => hne (List.length_eq_zero_iff.mp h)
    have hnumbered {p : UInt8} (hp : p = 0x70 ∨ p = 0x50) :
        placeholderLength (Byte.commercialAt :: p :: (digits ++ rest)) = 2 + digits.length := by
      unfold placeholderLength
      dsimp only
      rw [if_neg (by decide), if_neg (by decide), if_pos rfl, hrun, if_pos ⟨hp, hpos⟩]
    rcases hsign with rfl | rfl | rfl
    · change placeholderLength (Byte.dollar :: (digits ++ rest)) = _
      unfold placeholderLength
      dsimp only
      rw [if_neg (by decide), if_pos rfl, hrun, if_neg hpos, Nat.add_comm]
      rfl
    · exact (hnumbered (Or.inl rfl)).trans (Nat.add_comm _ _)
    · exact (hnumbered (Or.inr rfl)).trans (Nat.add_comm _ _)

theorem not_isDigit_drop_placeholderLength {text : Bytes} {b : UInt8}
    (hlength : placeholderLength text ≠ 0)
    (hform : text.take (placeholderLength text) ≠ [Byte.question])
    (hb : (text.drop (placeholderLength text)).head? = some b) : Byte.isDigit b = false := by
  rcases placeholderLength_cases text with h | ⟨rest, rfl, h⟩ | ⟨sign, rest, rfl, -, -, h⟩
  · exact absurd h hlength
  · rw [h] at hform
    exact absurd rfl hform
  · rw [h, List.drop_length_add_append, drop_run] at hb
    exact head?_dropWhile_not hb

theorem placeholderLength_mark {escapes : Bool} {mode : SafeMode} {b : UInt8} (rest : Bytes)
    (hproper : (Lexeme.mark b).Proper escapes mode) : placeholderLength (b :: rest) = 0 := by
  obtain ⟨-, -, -, -, -, -, hquestion, hforbidden⟩ := hproper
  by_contra hplace
  obtain ⟨d, hd, hsign⟩ := ((isPlaceholder_take (b :: rest)).resolve_left hplace).head?
  obtain rfl : b = d := by
    rw [List.head?_take, if_neg hplace] at hd
    exact Option.some.inj hd
  rcases hsign with rfl | rfl | rfl
  · exact hquestion rfl
  · cases hforbidden
  · cases hforbidden

/-! ### One lexeme -/

theorem stops_of_readWord {name text rest : Bytes} {l : Lexeme}
    (h : readWord name text = .ok (l, rest)) : l.Stops rest := by
  unfold readWord at h
  split at h
  · rename_i b after
    split at h
    · split at h
      · split at h
        · obtain ⟨_, -, hok⟩ := bind_eq_ok h
          cases hok
          trivial
        split at h
        · cases h
          trivial
        split at h
        · obtain ⟨_, -, hok⟩ := bind_eq_ok h
          cases hok
          trivial
        · cases h
      · cases h
    · split at h
      · cases h
      · rename_i hescape
        cases h
        rintro ⟨hname, after', hrest, hquote⟩
        obtain ⟨rfl, rfl⟩ := List.cons.inj hrest
        exact hescape ⟨hname, rfl, hquote⟩
  · cases h
    rintro ⟨-, after, hrest, -⟩
    cases hrest

theorem stops_of_next {escapes : Bool} {mode : SafeMode} {b : UInt8} {text rest : Bytes}
    {l : Lexeme} (h : next escapes mode b text = .ok (l, rest)) : l.Stops rest := by
  unfold next at h
  split at h
  · cases h
    trivial
  split at h
  · exact stops_of_readWord h
  split at h
  · obtain ⟨_, -, hok⟩ := bind_eq_ok h
    cases hok
    trivial
  split at h
  · obtain ⟨⟨name, after⟩, -, hok⟩ := bind_eq_ok h
    dsimp only at hok
    split at hok
    · cases hok
    · cases hok
      trivial
  split at h
  · rename_i hdigit
    unfold readNumber at h
    dsimp only at h
    split at h
    · cases h
    · cases h
      exact head?_drop_numberLength hdigit
  split at h
  · cases h
  split at h
  · cases h
  split at h
  · rename_i hplace
    cases h
    exact fun hform c hc => not_isDigit_drop_placeholderLength hplace.2 hform hc
  split at h
  · cases h
  split at h
  · cases h
  cases h
  trivial

theorem not_isSpace_of_isWordStart {b : UInt8} (h : Byte.isWordStart b = true) :
    Byte.isSpace b = false := by
  grind [Byte.isSpace, Byte.isWordStart, Byte.isLetter]

theorem next_of_isWordStart {escapes : Bool} {mode : SafeMode} {b : UInt8} {rest : Bytes}
    (name : Bytes) (hb : Byte.isWordStart b = true) (hname : ∀ c ∈ name, Byte.isWord c = true)
    (hrest : ∀ c, rest.head? = some c → Byte.isWord c = false) :
    next escapes mode b (name ++ rest) = readWord (b :: name) rest := by
  obtain ⟨htake, hdrop⟩ := takeWhile_append_stop hname hrest
  rw [next, not_isSpace_of_isWordStart hb, hb, htake, hdrop]
  rfl

theorem readWord_of_stops {name rest : Bytes} (hleaves : (Lexeme.word name).Leaves rest)
    (hstops : (Lexeme.word name).Stops rest) : readWord name rest = .ok (.word name, rest) := by
  cases rest with
  | nil => rfl
  | cons b rest =>
    have hescape : ¬ ((name = [0x75] ∨ name = [0x55]) ∧ b = Byte.ampersand ∧
        (rest.head? = some Byte.apostrophe ∨ rest.head? = some Byte.doubleQuote)) :=
      fun ⟨hname, hb, hquote⟩ => hstops ⟨hname, rest, by rw [hb], hquote⟩
    unfold readWord
    dsimp only
    rw [if_neg (hleaves b rfl).2, if_neg hescape]

/-- A letter directly before an apostrophe. -/
theorem next_of_letter {escapes : Bool} {mode : SafeMode} {letter : UInt8} {rest : Bytes}
    (hletter : Byte.isWordStart letter = true) :
    next escapes mode letter (Byte.apostrophe :: rest)
      = readWord [letter] (Byte.apostrophe :: rest) := by
  refine next_of_isWordStart [] hletter (List.forall_mem_nil _) ?_
  intro c hc
  obtain rfl : Byte.apostrophe = c := Option.some.inj hc
  decide

theorem readNumber_append {text rest : Bytes} (h : IsNumber text)
    (hleaves : (Lexeme.number text).Leaves rest) (hstops : (Lexeme.number text).Stops rest) :
    readNumber (text ++ rest) = .ok (.number text, rest) := by
  have hword : startsWord rest = false := by
    cases rest with
    | nil => rfl
    | cons b rest => exact hleaves b rfl
  simp [readNumber, h.numberLength_append hleaves hstops, hword]

/-- A byte that opens nothing else opens a mark, unless the mode allows placeholders. -/
theorem next_of_other {escapes : Bool} {mode : SafeMode} {b : UInt8} {rest : Bytes}
    (hspace : Byte.isSpace b = false) (hstart : Byte.isWordStart b = false)
    (hdigit : Byte.isDigit b = false) (hquote : b ≠ Byte.apostrophe)
    (hname : ¬ (b = Byte.doubleQuote ∨ b = Byte.backtick))
    (hminus : b = Byte.minus → rest.head? ≠ some Byte.minus)
    (hslash : b = Byte.slash → rest.head? ≠ some Byte.star) :
    next escapes mode b rest
      = if mode = .nested ∧ placeholderLength (b :: rest) ≠ 0 then
          .ok (.placeholder ((b :: rest).take (placeholderLength (b :: rest))),
            (b :: rest).drop (placeholderLength (b :: rest)))
        else if b = Byte.question then .error .bindPlaceholder
        else if isForbidden b then .error (.forbidden b)
        else .ok (.mark b, rest) := by
  rw [next, hspace, hstart, hdigit, if_neg Bool.false_ne_true, if_neg Bool.false_ne_true,
    if_neg hquote, if_neg hname, if_neg Bool.false_ne_true, if_neg fun h => hminus h.1 h.2,
    if_neg fun h => hslash h.1 h.2]

theorem next_of_proper {escapes : Bool} {mode : SafeMode} {b : UInt8} {text rest : Bytes}
    {l : Lexeme} (hsource : l.source ++ rest = b :: text) (hproper : l.Proper escapes mode)
    (hleaves : l.Leaves rest) (hstops : l.Stops rest) :
    next escapes mode b text = .ok (l, rest) := by
  cases l with
  | space run =>
    obtain ⟨c, run, rfl⟩ := List.exists_cons_of_ne_nil hproper.1
    obtain ⟨rfl, rfl⟩ := List.cons.inj hsource
    obtain ⟨hc, hrun⟩ := List.forall_mem_cons.mp hproper.2
    obtain ⟨htake, hdrop⟩ := takeWhile_append_stop hrun hleaves
    change next escapes mode c (run ++ rest) = _
    rw [next, hc, if_pos rfl, htake, hdrop]
  | word name =>
    obtain ⟨⟨c, hc, hstart⟩, hname⟩ := hproper
    obtain ⟨name, rfl⟩ := List.head?_eq_some_iff.mp hc
    obtain ⟨rfl, rfl⟩ := List.cons.inj hsource
    refine (next_of_isWordStart name hstart (fun d hd => hname d (List.mem_cons_of_mem _ hd))
      fun d hd => (hleaves d hd).1).trans ?_
    exact readWord_of_stops hleaves hstops
  | national letter =>
    obtain ⟨after, rfl⟩ := List.head?_eq_some_iff.mp hleaves
    obtain ⟨rfl, rfl⟩ := List.cons.inj hsource
    rcases hproper with rfl | rfl <;> exact next_of_letter (by decide)
  | string parts =>
    obtain ⟨rfl, rfl⟩ := List.cons.inj hsource
    have hread := readString_append hproper hleaves
    change next escapes mode Byte.apostrophe
      (parts.flatMap StringPart.source ++ [Byte.apostrophe] ++ rest) = _
    rw [List.append_assoc, List.singleton_append, next, if_neg (by decide), if_neg (by decide),
      if_pos rfl, hread]
    rfl
  | quotedName quote name =>
    obtain ⟨rfl, rfl⟩ := List.cons.inj hsource
    obtain ⟨hquote, hne, hnul⟩ := hproper
    have hread := readQuotedName_append (by rcases hquote with rfl | rfl <;> decide) hnul hleaves
    change next escapes mode quote (doubled quote name ++ [quote] ++ rest) = _
    rw [List.append_assoc, List.singleton_append, next,
      if_neg (by rcases hquote with rfl | rfl <;> decide),
      if_neg (by rcases hquote with rfl | rfl <;> decide),
      if_neg (by rcases hquote with rfl | rfl <;> decide), if_pos hquote, hread]
    change (if name = [] then _ else _) = _
    rw [if_neg hne]
    rfl
  | hexString letter digits =>
    obtain ⟨rfl, rfl⟩ := List.cons.inj hsource
    obtain ⟨hletter, hdigits, heven⟩ := hproper
    have hread := readHexString_append rest hdigits heven
    change next escapes mode letter
      (Byte.apostrophe :: (digits ++ [Byte.apostrophe] ++ rest)) = _
    rw [next_of_letter (by rcases hletter with rfl | rfl <;> decide), List.append_assoc,
      List.singleton_append]
    unfold readWord
    dsimp only
    rw [if_pos rfl, if_pos hletter, hread]
    rfl
  | bitString letter digits =>
    obtain ⟨rfl, rfl⟩ := List.cons.inj hsource
    obtain ⟨hletter, hdigits⟩ := hproper
    have hread := readBitString_append rest hdigits
    change next escapes mode letter
      (Byte.apostrophe :: (digits ++ [Byte.apostrophe] ++ rest)) = _
    rw [next_of_letter (by rcases hletter with rfl | rfl <;> decide), List.append_assoc,
      List.singleton_append]
    unfold readWord
    dsimp only
    rw [if_pos rfl, if_neg (by rcases hletter with rfl | rfl <;> decide),
      if_neg (by rcases hletter with rfl | rfl <;> decide), if_pos hletter, hread]
    rfl
  | number number =>
    obtain ⟨c, hc, hdigit⟩ := IsNumber.head? hproper
    have hread := readNumber_append hproper hleaves hstops
    obtain ⟨number, rfl⟩ := List.head?_eq_some_iff.mp hc
    obtain ⟨rfl, rfl⟩ := List.cons.inj hsource
    have hname : ¬ (c = Byte.doubleQuote ∨ c = Byte.backtick) := by
      rintro (rfl | rfl) <;> exact absurd hdigit (by decide)
    have hquote : c ≠ Byte.apostrophe := by
      rintro rfl
      exact absurd hdigit (by decide)
    have hspace : Byte.isSpace c = false := by grind [Byte.isSpace, Byte.isDigit]
    have hstart : Byte.isWordStart c = false := by
      grind [Byte.isWordStart, Byte.isLetter, Byte.isDigit]
    rw [next, hspace, hstart, if_neg Bool.false_ne_true, if_neg Bool.false_ne_true, if_neg hquote,
      if_neg hname, if_pos hdigit]
    exact hread
  | placeholder place =>
    have hform := isPlaceholder_of_proper hproper
    have hlength := hform.placeholderLength_append hstops
    obtain ⟨c, hc, hsign⟩ := hform.head?
    have hpos : place.length ≠ 0 := by
      intro hempty
      rw [List.length_eq_zero_iff.mp hempty] at hc
      cases hc
    change place ++ rest = _ at hsource
    obtain rfl : c = b := by
      have hhead := congrArg List.head? hsource
      rw [List.head?_append, hc, Option.some_or] at hhead
      exact Option.some.inj hhead
    obtain ⟨hspace, hstart, hdigit, hquote, hname, hminus, hslash⟩ :
        Byte.isSpace c = false ∧ Byte.isWordStart c = false ∧ Byte.isDigit c = false ∧
          c ≠ Byte.apostrophe ∧ ¬ (c = Byte.doubleQuote ∨ c = Byte.backtick) ∧
          c ≠ Byte.minus ∧ c ≠ Byte.slash := by
      rcases hsign with rfl | rfl | rfl <;> decide
    rw [next_of_other hspace hstart hdigit hquote hname (absurd · hminus) (absurd · hslash),
      ← hsource, hlength, if_pos ⟨hproper.1, hpos⟩, List.take_left, List.drop_left]
  | mark c =>
    obtain ⟨rfl, rfl⟩ := List.cons.inj hsource
    have hnone : ¬ (mode = .nested ∧ placeholderLength (c :: rest) ≠ 0) :=
      fun hplace => hplace.2 (placeholderLength_mark rest hproper)
    obtain ⟨hspace, hstart, hdigit, hquote, hdouble, hback, hquestion, hforbidden⟩ := hproper
    refine (next_of_other hspace hstart hdigit hquote (not_or.mpr ⟨hdouble, hback⟩) hleaves.1
      hleaves.2).trans ?_
    rw [if_neg hnone, if_neg hquestion, hforbidden]
    rfl

/-- The reader returns a lexeme iff it has the form of its kind and goes no further. -/
theorem next_eq_ok_iff {escapes : Bool} {mode : SafeMode} {b : UInt8} {text rest : Bytes}
    {l : Lexeme} :
    next escapes mode b text = .ok (l, rest) ↔
      l.source ++ rest = b :: text ∧ l.Proper escapes mode ∧ l.Leaves rest ∧ l.Stops rest := by
  constructor
  · intro h
    obtain ⟨hproper, hsource, hleaves⟩ := next_ok h
    exact ⟨hsource, hproper, hleaves, stops_of_next h⟩
  · rintro ⟨hsource, hproper, hleaves, hstops⟩
    exact next_of_proper hsource hproper hleaves hstops

/-! ### Whole texts -/

/-- Each of the lexemes stops before the next. -/
def AllStop : List Lexeme → Prop
  | [] => True
  | l :: rest => l.Stops (sources rest) ∧ AllStop rest

theorem readAll_cons {escapes : Bool} {mode : SafeMode} {depth after : Nat} {b : UInt8}
    {text rest : Bytes} {l : Lexeme} (hread : next escapes mode b text = .ok (l, rest))
    (hdepth : depthAfter mode depth l = .ok after) :
    readAll escapes mode depth (b :: text) = (readAll escapes mode after rest).map (l :: ·) := by
  rw [readAll]
  split
  · rename_i hother
    rw [hread] at hother
    cases hother
  · rename_i hother
    rw [hread] at hother
    cases hother
    rw [hdepth]

/-- A lexeme at the front of a text is read first. -/
theorem readAll_append {escapes : Bool} {mode : SafeMode} {depth after : Nat} {text : Bytes}
    {l : Lexeme} (hproper : l.Proper escapes mode) (hleaves : l.Leaves text)
    (hstops : l.Stops text) (hdepth : depthAfter mode depth l = .ok after) :
    readAll escapes mode depth (l.source ++ text)
      = (readAll escapes mode after text).map (l :: ·) := by
  obtain ⟨b, hb, -⟩ := hproper.head?
  obtain ⟨rest, hsource⟩ : ∃ rest, l.source ++ text = b :: rest := by
    rw [← List.head?_eq_some_iff, List.head?_append, hb, Option.some_or]
  rw [hsource]
  exact readAll_cons (next_of_proper hsource hproper hleaves hstops) hdepth

/-- The letter of a Unicode escape is refused. -/
theorem readAll_of_opensEscape {escapes : Bool} {mode : SafeMode} {name text : Bytes} (depth : Nat)
    (h : OpensEscape name text) :
    readAll escapes mode depth (name ++ text) = .error .unicodeEscape := by
  obtain ⟨hname, after, rfl, hquote⟩ := h
  obtain ⟨letter, rfl, hletter⟩ : ∃ letter, name = [letter] ∧ Byte.isWordStart letter = true := by
    rcases hname with rfl | rfl <;> exact ⟨_, rfl, by decide⟩
  have hread : next escapes mode letter (Byte.ampersand :: after) = .error .unicodeEscape := by
    refine (next_of_isWordStart [] hletter (List.forall_mem_nil _) ?_).trans ?_
    · intro c hc
      obtain rfl : Byte.ampersand = c := Option.some.inj hc
      decide
    · unfold readWord
      dsimp only
      rw [if_neg (by decide), if_pos ⟨hname, rfl, hquote⟩]
  rw [List.singleton_append, readAll]
  split
  · rename_i hother
    rw [hread] at hother
    exact congrArg Except.error (Except.error.inj hother).symm
  · rename_i hother
    rw [hread] at hother
    cases hother

/-- A text is read as lexemes iff these are accepted ones that stop before each other and make up
the text. -/
theorem readAll_eq_ok_iff {escapes : Bool} {mode : SafeMode} {depth : Nat} {text : Bytes}
    {lexemes : List Lexeme} :
    readAll escapes mode depth text = .ok lexemes ↔
      Accepted escapes mode depth lexemes ∧ AllStop lexemes ∧ sources lexemes = text := by
  constructor
  · intro h
    obtain ⟨haccepted, hsources⟩ := readAll_ok h
    refine ⟨haccepted, ?_, hsources⟩
    clear haccepted hsources
    fun_induction readAll escapes mode depth text generalizing lexemes with
    | case1 =>
      cases h
      trivial
    | case2 | case3 | case4 => cases h
    | case5 depth b text l after hread next hdepth ih =>
      cases hrest : readAll escapes mode next after with
      | error e =>
        rw [hrest] at h
        cases h
      | ok rest =>
        rw [hrest] at h
        cases h
        refine ⟨?_, ih hrest⟩
        rw [(readAll_ok hrest).2]
        exact stops_of_next hread
  · rintro ⟨haccepted, hstop, rfl⟩
    induction haccepted with
    | nil => simp [sources, readAll]
    | @cons l rest depth after hproper hleaves hdepth hrest ih =>
      change readAll escapes mode depth (l.source ++ sources rest) = _
      rw [readAll_append hproper hleaves hstop.1 hdepth, ih hstop.2]
      rfl

end SqlTemplate.Lexeme
