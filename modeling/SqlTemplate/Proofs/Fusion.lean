import SqlTemplate.Proofs.Refitting
import SqlTemplate.Proofs.Tokens

/-!
# Lexemes that run together

Fitting a text to its dialect moves no byte from one lexeme to another, but it writes quotes around
words and takes them away from hexadecimal literals, also where lexemes touch. So the tokens of the
text that was checked and of the one that goes to the server are the same iff no two lexemes run
together (`sanitize_tokens_iff`).
-/

namespace SqlTemplate

namespace Lexeme

open Server

variable {s : Settings} {mode : SafeMode} {afterAs afterDot closing : Bool} {depth : Nat}

/-- A lexeme of the target dialect becomes another one with the text after it: a name with a name, a
number with digits, a bare word with what makes it the opening of Unicode escapes. -/
def Fuses (s : Settings) (text : Bytes) : Lexeme → Prop
  | .word name => s.family = .postgres ∧ OpensEscape name text
  | .quotedName quote _ => text.head? = some quote
  | .number own => ∃ digits b, own = Byte.zero :: 0x78 :: digits ∧ text.head? = some b ∧
      Byte.isHexDigit b = true
  | .placeholder place =>
    place ≠ [Byte.question] ∧ ∃ b, text.head? = some b ∧ Byte.isDigit b = true
  | _ => False

/-- Some lexeme becomes another one with the text after it, where the lexemes are fitted without a
qualifier. -/
def RunsTogether (s : Settings) (afterAs afterDot : Bool) : List Lexeme → Prop
  | [] => False
  | l :: rest =>
    (l.refit s afterAs afterDot rest).Fuses s (l.fittedAfter s [] afterAs afterDot rest) ∨
      RunsTogether s (l.expectsAlias afterAs) (l == .mark Byte.dot) rest

theorem kept_of_isOperator {b : UInt8} (h : isOperator b = true) : Kept [] b := by
  simp only [isOperator, Bool.or_eq_true, beq_iff_eq, or_assoc] at h
  rcases h with rfl | rfl | rfl | rfl | rfl | rfl | rfl | rfl | rfl | rfl | rfl | rfl | rfl <;>
    exact ⟨by decide, by decide, nofun⟩

/-- An operator goes on in the target dialect iff it did before. -/
theorem goesOn_fittedFrom {rest : List Lexeme} (b : UInt8)
    (hrest : Accepted s.usesBackslashEscapes mode depth rest) :
    goesOn b (fittedFrom s [] afterAs afterDot false rest) = goesOn b (sources rest) := by
  have hhead (p : UInt8) (hp : isOperator p = true) :
      (fittedFrom s [] afterAs afterDot false rest).head? = some p ↔
        (sources rest).head? = some p :=
    head?_fittedFrom_eq_iff hrest (kept_of_isOperator hp)
  have hany : (fittedFrom s [] afterAs afterDot false rest).head?.any isOperator
      = (sources rest).head?.any isOperator := by
    rw [Bool.eq_iff_iff, Option.any_eq_true, Option.any_eq_true]
    constructor
    · rintro ⟨p, hp, hoperator⟩
      exact ⟨p, (hhead p hoperator).mp hp, hoperator⟩
    · rintro ⟨p, hp, hoperator⟩
      exact ⟨p, (hhead p hoperator).mpr hp, hoperator⟩
  rw [goesOn, goesOn, hany]

theorem content_refitted (part : StringPart) :
    (refitted part).content = part.content := by
  unfold refitted
  split
  · rename_i hpart
    rw [hpart]
    decide
  · rfl

/-- A lexeme stands for the same tokens in the target dialect. -/
theorem tokens_refit {l : Lexeme} {rest : List Lexeme} (afterAs afterDot : Bool)
    (hrest : Accepted s.usesBackslashEscapes mode depth rest) :
    (l.refit s afterAs afterDot rest).tokens (l.fittedAfter s [] afterAs afterDot rest)
      = l.tokens (sources rest) := by
  cases l with
  | word name =>
    simp only [refit]
    cases wordForm s afterAs afterDot name rest <;> rfl
  | string parts => simp only [refit, tokens, List.flatMap_map, content_refitted]
  | hexString letter digits =>
    simp only [refit]
    split <;> rfl
  | mark b =>
    exact congrArg (fun joined => [Token.mark b joined]) (goesOn_fittedFrom b hrest)
  | _ => rfl

theorem numberLength_hex (text : Bytes) :
    numberLength (Byte.zero :: 0x78 :: text) = 2 + run Byte.isHexDigit text := by
  rw [numberLength, if_pos ⟨rfl, Or.inl rfl⟩]

/-- Where lexemes do not run together, a server goes no further than one of them. -/
theorem ends_refit {l : Lexeme} {rest : List Lexeme} (afterAs afterDot : Bool)
    (hproper : l.Proper s.usesBackslashEscapes mode) (hleaves : l.Leaves (sources rest))
    (hstops : l.Stops (sources rest)) (hrest : Accepted s.usesBackslashEscapes mode depth rest)
    (hfuses : ¬ (l.refit s afterAs afterDot rest).Fuses s
      (l.fittedAfter s [] afterAs afterDot rest)) :
    (l.refit s afterAs afterDot rest).Ends (.target s)
      (l.fittedAfter s [] afterAs afterDot rest) := by
  by_cases hhex : s.family = .mssql ∧ ∃ letter digits, l = .hexString letter digits
  · -- The literal is a number, and a word may follow it directly.
    obtain ⟨hfamily, letter, digits, rfl⟩ := hhex
    simp only [refit, if_pos hfamily] at hfuses ⊢
    have hrun : run Byte.isHexDigit
        (digits ++ (Lexeme.hexString letter digits).fittedAfter s [] afterAs afterDot rest)
        = digits.length := by
      refine run_append hproper.2.1 fun b hb => ?_
      by_contra hdigit
      exact hfuses ⟨digits, b, rfl, hb, by simpa using hdigit⟩
    exact (numberLength_hex _).trans ((congrArg (2 + ·) hrun).trans (Nat.add_comm _ _))
  · have hslash : l = .mark Byte.slash →
        (l.fittedAfter s [] afterAs afterDot rest).head? ≠ some Byte.star := by
      rintro rfl
      have hkept : Kept [] Byte.star := kept_of_isOperator (by decide)
      exact mt (head?_fittedFrom_eq_iff hrest hkept).mp (hleaves.2 rfl)
    have hleaves' : (l.refit s afterAs afterDot rest).Leaves
        (l.fittedAfter s [] afterAs afterDot rest) := by
      refine leaves_refit afterAs afterDot none hleaves hrest ?_ ?_ hslash
      · intro name hname
        rw [hname] at hfuses
        exact fun hhead => hfuses hhead
      · intro hfamily letter digits hl
        exact absurd ⟨hfamily, letter, digits, hl⟩ hhex
    have hproper' := proper_refit afterAs afterDot rest hproper
    have hnumber : ∀ number, l.refit s afterAs afterDot rest = .number number →
        (Lexeme.number number).Stops (l.fittedAfter s [] afterAs afterDot rest) := by
      intro number hl
      rw [← hl]
      refine stops_refit afterAs afterDot none hstops hrest ?_ ?_
      · intro name hname
        rw [hname] at hl
        cases hl
      · rintro place rfl hform
        cases hl
    generalize l.refit s afterAs afterDot rest = refitted at *
    cases refitted with
    | space run => trivial
    | word name =>
      refine ⟨hleaves', fun hunicode hopens => hfuses ⟨?_, hopens⟩⟩
      simpa [Rules.target] using hunicode
    | number number => exact IsNumber.numberLength_append hproper' hleaves' (hnumber number rfl)
    | placeholder place =>
      apply (isPlaceholder_of_proper hproper').placeholderLength_append
      intro hform b hb
      by_contra hdigit
      exact hfuses ⟨hform, b, hb, by simpa using hdigit⟩
    | _ => exact hleaves'

theorem target_nameQuotes (s : Settings) :
    ∀ quote ∈ (Rules.target s).nameQuotes, quote = Byte.doubleQuote ∨ quote = Byte.backtick := by
  intro quote hmem
  rw [List.mem_singleton.mp hmem]
  exact nameQuote_cases s

/-! ### Where lexemes run together -/

/-- A server reads another token than the lexeme first. -/
def Misread (s : Settings) (text : Bytes) (l : Lexeme) : Prop :=
  ∃ b rest found own after, l.source ++ text = b :: rest ∧
    first (.target s) b rest = ([found], after) ∧ l.tokens text = [own] ∧ found ≠ own

theorem misread_word {name text : Bytes} (hfamily : s.family = .postgres)
    (hopens : OpensEscape name text) : (Lexeme.word name).Misread s text := by
  obtain ⟨hletter, rest, rfl, hquote⟩ := hopens
  have hunicode : (Rules.target s).unicode = true := by simp [Rules.target, hfamily]
  have hnext : ∀ c, (Byte.ampersand :: rest).head? = some c → Byte.isWord c = false := by
    intro c hc
    obtain rfl : Byte.ampersand = c := Option.some.inj hc
    decide
  obtain ⟨letter, rfl, hstart⟩ :
      ∃ letter, name = [letter] ∧ Byte.isWordStart letter = true := by
    rcases hletter with rfl | rfl <;> exact ⟨_, rfl, by decide⟩
  have hquotes : Byte.ampersand ≠ Byte.apostrophe := by decide
  have hother : Token.unicode ≠ .name [letter] := by
    intro hsame
    cases hsame
  refine ⟨letter, Byte.ampersand :: rest, .unicode, .name [letter], rest, rfl, ?_, rfl, hother⟩
  refine (first_of_isWordStart [] hstart (List.forall_mem_nil _) hnext).trans ?_
  unfold firstOfWord
  dsimp only
  rw [if_neg (hquotes ·.1), if_neg (hquotes ·.1), if_neg (hquotes ·.1),
    if_pos ⟨hunicode, hletter, rfl, hquote⟩]

/-- The name goes on behind the two quotes, or is not closed. -/
theorem misread_quotedName {name text : Bytes} (hhead : text.head? = some s.nameQuote) :
    (Lexeme.quotedName s.nameQuote name).Misread s text := by
  obtain ⟨rest, rfl⟩ := List.head?_eq_some_iff.mp hhead
  have hread : quotedText false s.nameQuote
      (doubled s.nameQuote name ++ [s.nameQuote] ++ s.nameQuote :: rest)
      = (quotedText false s.nameQuote rest).map
          fun found => (name ++ s.nameQuote :: found.1, found.2) := by
    rw [List.append_assoc, List.singleton_append, quotedText_doubled, quotedText, if_pos rfl,
      if_pos rfl]
    cases quotedText false s.nameQuote rest <;> rfl
  have hfirst := first_of_nameQuote (r := .target s)
    (doubled s.nameQuote name ++ [s.nameQuote] ++ s.nameQuote :: rest) (nameQuote_cases s)
    (List.mem_singleton_self _)
  rw [hread] at hfirst
  cases hmore : quotedText false s.nameQuote rest with
  | none =>
    rw [hmore] at hfirst
    refine ⟨_, _, _, _, _, rfl, hfirst, rfl, ?_⟩
    intro hsame
    cases hsame
  | some found =>
    rw [hmore] at hfirst
    refine ⟨_, _, _, _, _, rfl, hfirst, rfl, ?_⟩
    intro hsame
    have hlength := congrArg List.length (Token.name.inj hsame)
    simp at hlength

theorem misread_number {digits text : Bytes} {b : UInt8} (hb : text.head? = some b)
    (hdigit : Byte.isHexDigit b = true) :
    (Lexeme.number (Byte.zero :: 0x78 :: digits)).Misread s text := by
  obtain ⟨rest, rfl⟩ := List.head?_eq_some_iff.mp hb
  have hrun : run Byte.isHexDigit (digits ++ b :: rest) ≠ digits.length := by
    intro hlength
    have htake : (digits ++ b :: rest).takeWhile Byte.isHexDigit = digits := by
      rw [← take_run, hlength, List.take_left]
    have hdigits : ∀ d ∈ digits, Byte.isHexDigit d = true := by
      rw [← htake]
      exact fun _ hd => List.mem_takeWhile_imp hd
    rw [List.takeWhile_append_of_pos hdigits, List.takeWhile_cons_of_pos hdigit] at htake
    simp at htake
  have hfirst := first_of_isDigit (r := .target s) (b := Byte.zero)
    (0x78 :: (digits ++ b :: rest)) (by decide)
  rw [numberLength_hex, Nat.add_comm, List.take_succ_cons, List.take_succ_cons] at hfirst
  refine ⟨_, _, _, _, _, rfl, hfirst, rfl, ?_⟩
  intro hsame
  have hlength := congrArg List.length (Token.hex.inj hsame)
  rw [List.length_map, List.length_map, take_run] at hlength
  exact hrun hlength

theorem misread_placeholder {place text : Bytes} {b : UInt8} (hplace : IsPlaceholder place)
    (hform : place ≠ [Byte.question]) (hb : text.head? = some b) (hdigit : Byte.isDigit b = true) :
    (Lexeme.placeholder place).Misread s text := by
  have hmore : text.takeWhile Byte.isDigit ≠ [] := by
    obtain ⟨rest, rfl⟩ := List.head?_eq_some_iff.mp hb
    rw [List.takeWhile_cons_of_pos hdigit]
    exact List.cons_ne_nil _ _
  have hlonger : IsPlaceholder (place ++ text.takeWhile Byte.isDigit) := by
    rcases hplace with rfl | ⟨sign, digits, rfl, hsign, hne, hdigits⟩
    · exact absurd rfl hform
    · refine Or.inr ⟨sign, digits ++ text.takeWhile Byte.isDigit, List.append_assoc _ _ _, hsign,
        by simp [hne], ?_⟩
      exact List.forall_mem_append.mpr ⟨hdigits, fun _ hd => List.mem_takeWhile_imp hd⟩
  have hend : ∀ c, (text.dropWhile Byte.isDigit).head? = some c → Byte.isDigit c = false :=
    fun _ hc => head?_dropWhile_not hc
  have hlength := hlonger.placeholderLength_append fun _ => hend
  rw [List.append_assoc, List.takeWhile_append_dropWhile] at hlength
  obtain ⟨c, hc, hsign⟩ := hplace.head?
  obtain ⟨digits, rfl⟩ := List.head?_eq_some_iff.mp hc
  have hfirst := first_of_sign (r := .target s) (digits ++ text) (target_nameQuotes s) hsign
    (by rw [← List.cons_append, hlength]; exact Nat.succ_ne_zero _)
  refine ⟨_, _, _, _, _, rfl, hfirst, rfl, ?_⟩
  intro hsame
  have hplace := congrArg List.length (Token.placeholder.inj hsame)
  have hpos := List.length_pos_of_ne_nil hmore
  have hsplit := congrArg List.length (List.takeWhile_append_dropWhile (p := Byte.isDigit) (l := text))
  rw [← List.cons_append, hlength] at hplace
  simp only [List.length_append, List.length_cons, List.length_take] at hplace hsplit
  omega

/-- Where a lexeme becomes another one with the text after it, the first token is another one. -/
theorem Fuses.misread {l : Lexeme} {text : Bytes} (h : l.Fuses s text)
    (hproper : l.Proper s.usesBackslashEscapes mode)
    (hquoted : ∀ quote name, l = .quotedName quote name → quote = s.nameQuote) :
    l.Misread s text := by
  cases l with
  | word name => exact misread_word h.1 h.2
  | quotedName quote name =>
    obtain rfl := hquoted quote name rfl
    exact misread_quotedName h
  | number number =>
    obtain ⟨digits, b, rfl, hb, hdigit⟩ := h
    exact misread_number hb hdigit
  | placeholder place =>
    obtain ⟨hform, b, hb, hdigit⟩ := h
    exact misread_placeholder (isPlaceholder_of_proper hproper) hform hb hdigit
  | _ => exact h.elim

/-! ### Whole texts -/

/-- The lexemes of a text are read by a server one after the other. -/
theorem tokens_source_cons {l : Lexeme} {rest : List Lexeme}
    (hproper : l.Proper s.usesBackslashEscapes mode) (hleaves : l.Leaves (sources rest))
    (hstops : l.Stops (sources rest)) :
    Server.tokens (.source s) (sources (l :: rest))
      = l.tokens (sources rest) ++ Server.tokens (.source s) (sources rest) := by
  refine tokens_append (r := .source s) ?_ ?_ hproper (ends_of_stops _ hproper hleaves hstops)
  · intro quote hmem
    simpa [Rules.source] using hmem
  · rintro quote name rfl
    simpa [Rules.source] using hproper.1

/-- A server finds the same tokens in the lexemes and in their text in the target dialect iff none of
them runs together with the next. -/
theorem Accepted.tokens_fittedFrom_iff {lexemes : List Lexeme}
    (h : Accepted s.usesBackslashEscapes mode depth lexemes) (hstop : AllStop lexemes)
    (afterAs afterDot closing : Bool) :
    Server.tokens (.target s) (fittedFrom s [] afterAs afterDot closing lexemes)
        = Server.tokens (.source s) (sources lexemes) ↔
      ¬ RunsTogether s afterAs afterDot lexemes := by
  induction h generalizing afterAs afterDot closing with
  | nil =>
    refine iff_of_true ?_ id
    change Server.tokens (.target s) [] = Server.tokens (.source s) []
    rw [Server.tokens, Server.tokens]
  | @cons l rest depth after hproper hleaves hdepth hrest ih =>
    have hnext := ih hstop.2 (l.expectsAlias afterAs) (l == .mark Byte.dot)
      (l.closesUp s afterAs afterDot rest)
    rw [tokens_source_cons hproper hleaves hstop.1, RunsTogether]
    obtain ⟨own, htext, hown⟩ := fittedFrom_cons s [] afterAs afterDot closing l rest
    rw [htext]
    rcases hown with rfl | ⟨-, hspace, rfl⟩
    · have hnone : l.leadOf s [] afterAs afterDot rest = [] :=
        (leadOf_cases s [] afterAs afterDot rest l).elim id And.left
      have hproper' := proper_refit afterAs afterDot rest hproper
      rw [fitted_eq _ _ _ _ hproper, hnone, List.nil_append]
      have hquoted : ∀ quote name, l.refit s afterAs afterDot rest = .quotedName quote name →
          quote = s.nameQuote := fun _ _ => eq_nameQuote_of_refit
      by_cases hfuses : (l.refit s afterAs afterDot rest).Fuses s
          (l.fittedAfter s [] afterAs afterDot rest)
      · refine iff_of_false ?_ (not_not.mpr (Or.inl hfuses))
        obtain ⟨b, others, found, own, after, hsource, hfirst, hown, hother⟩ :=
          hfuses.misread hproper' hquoted
        rw [← tokens_refit afterAs afterDot hrest, hown, hsource, tokens_cons, hfirst]
        exact fun hsame => hother (List.cons.inj hsame).1
      · have hends := ends_refit afterAs afterDot hproper hleaves hstop.1 hrest hfuses
        rw [tokens_append (target_nameQuotes s) ?_ hproper' hends,
          tokens_refit afterAs afterDot hrest, List.append_cancel_left_eq, hnext, not_or,
          and_iff_right hfuses]
        exact fun quote name hl => List.mem_singleton.mpr (hquoted quote name hl)
    · -- White space that is closed up has no token.
      cases l with
      | space run =>
        rw [List.nil_append]
        exact hnext.trans (not_congr (or_iff_right id).symm)
      | _ => cases hspace

end Lexeme

/-- A server finds the same tokens in an accepted text and in what goes to it iff no two lexemes of
the text run together: no name touches a name, no hexadecimal literal that becomes a number touches
a digit after it or a placeholder before it, and no bare `u` before an ampersand comes to stand
before quotes. -/
theorem sanitize_tokens_iff {text out : String} {s : Settings} {mode : SafeMode}
    (h : sanitize text none s mode = .ok out) :
    ∃ lexemes, Lexeme.readAll s.usesBackslashEscapes mode 0 (utf8 text) = .ok lexemes ∧
      (Server.tokens (.target s) (utf8 out) = Server.tokens (.source s) (utf8 text) ↔
        ¬ Lexeme.RunsTogether s false false lexemes) := by
  have hfit := fitText_of_sanitize h
  unfold fitText at hfit
  cases hread : Lexeme.readAll s.usesBackslashEscapes mode 0 (utf8 text) with
  | error reason =>
    rw [hread] at hfit
    cases hfit
  | ok lexemes =>
    rw [hread] at hfit
    have hout : Lexeme.fittedFrom s [] false false false lexemes = utf8 out := Except.ok.inj hfit
    obtain ⟨haccepted, hstop, hsources⟩ := Lexeme.readAll_eq_ok_iff.mp hread
    refine ⟨lexemes, rfl, ?_⟩
    rw [← hout, ← hsources]
    exact haccepted.tokens_fittedFrom_iff hstop false false false

/-- Two names that touch become one; names and a literal that stay apart do not. -/
theorem sanitize_tokens_iff_names :
    let s := Settings.ofDialect .postgres
    let t := Settings.ofDialect .mssql
    (sanitize "\"price\"total" none s .chunk = .ok "\"price\"\"total\"" ∧
      Server.tokens (.source s) (utf8 "\"price\"total")
        = [.name (utf8 "price"), .name (utf8 "total")] ∧
      Server.tokens (.target s) (utf8 "\"price\"\"total\"") = [.name (utf8 "price\"total")]) ∧
    sanitize "total=x'0A'" none t .expression = .ok "\"total\"=0x0A" ∧
      Server.tokens (.target t) (utf8 "\"total\"=0x0A")
        = Server.tokens (.source t) (utf8 "total=x'0A'") := by
  intro s t
  have htouch : sanitize "\"price\"total" none s .chunk = .ok "\"price\"\"total\"" := by
    decide +kernel
  have hapart : sanitize "total=x'0A'" none t .expression = .ok "\"total\"=0x0A" := by
    decide +kernel
  refine ⟨⟨htouch, by decide +kernel, by decide +kernel⟩, hapart, ?_⟩
  obtain ⟨lexemes, hread, hiff⟩ := sanitize_tokens_iff hapart
  have hlexemes : Lexeme.readAll t.usesBackslashEscapes .expression 0 (utf8 "total=x'0A'")
      = .ok [.word (utf8 "total"), .mark 0x3D, .hexString 0x78 (utf8 "0A")] := by decide +kernel
  rw [hlexemes] at hread
  cases hread
  have hname : (Lexeme.word (utf8 "total")).refit t false false
      [.mark 0x3D, .hexString 0x78 (utf8 "0A")] = .quotedName Byte.doubleQuote (utf8 "total") := by
    decide +kernel
  have hnumber : (Lexeme.hexString 0x78 (utf8 "0A")).refit t false false []
      = .number (utf8 "0x0A") := by decide +kernel
  refine hiff.mpr ?_
  rintro (htouches | htouches | htouches | htouches)
  · rw [hname] at htouches
    have hquote : List.head? _ = some Byte.doubleQuote := htouches
    exact absurd hquote (by decide +kernel)
  · exact htouches
  · change Lexeme.Fuses t [] ((Lexeme.hexString 0x78 (utf8 "0A")).refit t false false []) at htouches
    rw [hnumber] at htouches
    obtain ⟨_, _, -, hnone, -⟩ := htouches
    cases hnone
  · exact htouches

end SqlTemplate
