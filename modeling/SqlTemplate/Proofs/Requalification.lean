import SqlTemplate.Proofs.Idempotence

/-!
# Checking a text again under another qualifier

A text that was checked and fitted under one qualifier may come to stand where another holds. The
second pass then refuses it or leaves it alone: it qualifies nothing that the first left without a
qualifier, and quotes nothing (`sanitize_requalified`). Nothing is said of hexadecimal literals that
are written as numbers, which run together with what follows them.

A fitted text may be refused, because a star in the first qualifier or a bare `u` makes something
else of it, and its lexemes are not known where names have become one. So `Lexeme.Settled` does not
say what the lexemes of a text are, but only that they are fitted already, if there are any.
-/

namespace SqlTemplate

namespace Lexeme

variable {s : Settings} {mode : SafeMode} {afterAs afterDot closing : Bool} {text : Bytes}
  {depth : Nat} {rest : List Lexeme}

/-- If a text is read as lexemes, these are fitted already, under every qualifier. -/
def Settled (s : Settings) (mode : SafeMode) (afterAs afterDot : Bool) (text : Bytes) : Prop :=
  ∀ depth lexemes, readAll s.usesBackslashEscapes mode depth text = .ok lexemes →
    ∀ lead, fittedFrom s lead afterAs afterDot false lexemes = text

/-- A text is settled, also where a name at its front becomes one with a name before it. -/
structure Requalifies (s : Settings) (mode : SafeMode) (afterAs afterDot : Bool) (text : Bytes) :
    Prop where
  settled : Settled s mode afterAs afterDot text
  named : ∀ later, text = s.nameQuote :: later → ∀ name rest,
    readQuotedName s.nameQuote later = .ok (name, rest) → Settled s mode false false rest

/-! ### Reading from the front -/

/-- A text that starts with a lexeme is read as that lexeme first. -/
theorem exists_of_readAll_append {escapes : Bool} {l : Lexeme} {lexemes : List Lexeme}
    (hproper : l.Proper escapes mode) (hleaves : l.Leaves text) (hstops : l.Stops text)
    (h : readAll escapes mode depth (l.source ++ text) = .ok lexemes) :
    ∃ after others, lexemes = l :: others ∧ readAll escapes mode after text = .ok others := by
  obtain ⟨haccepted, hstop, hsources⟩ := readAll_eq_ok_iff.mp h
  obtain ⟨b, hb, -⟩ := hproper.head?
  obtain ⟨more, hmore⟩ : ∃ more, l.source ++ text = b :: more := by
    rw [← List.head?_eq_some_iff, List.head?_append, hb, Option.some_or]
  cases haccepted with
  | nil =>
    rw [hmore] at hsources
    cases hsources
  | @cons first others _ after hproper' hleaves' hdepth' hrest' =>
    have hfirst := next_eq_ok_iff.mpr ⟨hmore, hproper, hleaves, hstops⟩
    have hsame := next_eq_ok_iff.mpr ⟨hsources.trans hmore, hproper', hleaves', hstop.1⟩
    rw [hfirst] at hsame
    cases hsame
    exact ⟨after, others, rfl, readAll_eq_ok_iff.mpr ⟨hrest', hstop.2, rfl⟩⟩

/-- A comment is refused. -/
theorem readAll_of_comment {escapes : Bool} (depth : Nat) (h : text.head? = some Byte.star) :
    readAll escapes mode depth (Byte.slash :: text) = .error .comment := by
  have hread : next escapes mode Byte.slash text = .error .comment := by
    rw [next, if_neg (by decide), if_neg (by decide), if_neg (by decide), if_neg (by decide),
      if_neg (by decide), if_neg (fun hminus => absurd hminus.1 (by decide)), if_pos ⟨rfl, h⟩]
  rw [readAll]
  split
  · rename_i hother
    rw [hread] at hother
    exact congrArg Except.error (Except.error.inj hother).symm
  · rename_i hother
    rw [hread] at hother
    cases hother

/-- A name with the byte zero is not read. -/
theorem readQuotedName_nul {quote : UInt8} {name : Bytes} (text : Bytes) (hquote : quote ≠ Byte.nul)
    (hname : Byte.nul ∈ name) :
    readQuotedName quote (doubled quote name ++ text) = .error .nulInName := by
  obtain ⟨front, back, rfl, hfront⟩ := List.eq_append_cons_of_mem hname
  rw [doubled_append, List.append_assoc, readQuotedName_doubled _ hquote hfront, doubled,
    if_neg (Ne.symm hquote), List.cons_append, readQuotedName.eq_def]
  rfl

/-! ### Putting texts together -/

/-- A text that is refused at its start is settled. -/
theorem Requalifies.of_refused {reason : Rejection}
    (h : ∀ depth, readAll s.usesBackslashEscapes mode depth text = .error reason)
    (hhead : text.head? ≠ some s.nameQuote) : Requalifies s mode afterAs afterDot text where
  settled depth lexemes hread := by
    rw [h depth] at hread
    cases hread
  named later htext := absurd (congrArg List.head? htext) hhead

/-- A lexeme that is no name and is fitted already, before a text that is settled. -/
theorem Requalifies.cons {l : Lexeme}
    (h : Requalifies s mode (l.expectsAlias afterAs) (l == .mark Byte.dot) text)
    (hproper : l.Proper s.usesBackslashEscapes mode) (hleaves : l.Leaves text)
    (hstops : l.Stops text) (hname : ∀ name, l ≠ .quotedName s.nameQuote name)
    (hstays : ∀ lead depth others, Accepted s.usesBackslashEscapes mode depth others →
      sources others = text → l.fitted s lead afterAs afterDot others = l.source ∧
        (l.closesUp s afterAs afterDot others = true →
          (sources others).head? = some Byte.openParen)) :
    Requalifies s mode afterAs afterDot (l.source ++ text) where
  settled depth lexemes hread lead := by
    obtain ⟨after, others, rfl, hothers⟩ := exists_of_readAll_append hproper hleaves hstops hread
    obtain ⟨haccepted, -, hsources⟩ := readAll_eq_ok_iff.mp hothers
    obtain ⟨hsame, hcloses⟩ := hstays lead after others haccepted hsources
    exact fittedFrom_of_stays haccepted hsame hcloses (h.settled after others hothers lead)
  named later htext := by
    obtain ⟨b, hb, hstart⟩ := hproper.head?
    have hhead := congrArg List.head? htext
    rw [List.head?_append, hb, Option.some_or] at hhead
    obtain rfl : b = s.nameQuote := Option.some.inj hhead
    obtain ⟨name, hl⟩ := hstart.eq_quotedName (nameQuote_cases s)
    exact absurd hl (hname name)

/-- What follows a name decides on a text that starts with the quote of names. -/
theorem Requalifies.of_named {later : Bytes}
    (h : ∀ name rest, readQuotedName s.nameQuote later = .ok (name, rest) →
      Settled s mode false false rest) :
    Requalifies s mode afterAs afterDot (s.nameQuote :: later) where
  settled depth lexemes hread lead := by
    obtain ⟨haccepted, hstop, hsources⟩ := readAll_eq_ok_iff.mp hread
    cases haccepted with
    | nil => cases hsources
    | @cons l others _ after hproper hleaves hdepth hrest =>
      obtain ⟨b, hb, hstart⟩ := hproper.head?
      have hhead := congrArg List.head? hsources
      rw [sources, List.flatMap_cons, List.head?_append, hb, Option.some_or] at hhead
      obtain rfl : b = s.nameQuote := Option.some.inj hhead
      obtain ⟨name, rfl⟩ := hstart.eq_quotedName (nameQuote_cases s)
      have hname : readQuotedName s.nameQuote later = .ok (name, sources others) := by
        have htail : doubled s.nameQuote name ++ [s.nameQuote] ++ sources others = later :=
          (List.cons.inj hsources).2
        rw [← htail, List.append_assoc]
        exact readQuotedName_append (nameQuote_ne_nul s) hproper.2.2 hleaves
      have hothers := h name _ hname after others
        (readAll_eq_ok_iff.mpr ⟨hrest, hstop.2, rfl⟩) lead
      rw [← hsources]
      exact congrArg ((Lexeme.quotedName s.nameQuote name).source ++ ·) hothers
  named _ htext := by
    cases htext
    exact h

/-- A name in front of a text, which becomes one with a name there. -/
theorem Requalifies.name (h : Requalifies s mode false false text) (name : Bytes)
    (afterAs afterDot : Bool) :
    Requalifies s mode afterAs afterDot (Name.enclose s.nameQuote name ++ text) := by
  have hquote := nameQuote_ne_nul s
  change Requalifies s mode afterAs afterDot
    (s.nameQuote :: (doubled s.nameQuote name ++ [s.nameQuote] ++ text))
  refine Requalifies.of_named fun whole rest hread => ?_
  rw [List.append_assoc, List.singleton_append] at hread
  by_cases hnul : Byte.nul ∈ name
  · rw [readQuotedName_nul _ hquote hnul] at hread
    cases hread
  rw [readQuotedName_doubled _ hquote hnul] at hread
  by_cases hhead : text.head? = some s.nameQuote
  · -- The two quotes are one of the name.
    obtain ⟨later, rfl⟩ := List.head?_eq_some_iff.mp hhead
    rw [readQuotedName, if_neg hquote, if_pos rfl, if_pos rfl] at hread
    cases hmore : readQuotedName s.nameQuote later with
    | error reason =>
      rw [hmore] at hread
      cases hread
    | ok found =>
      rw [hmore] at hread
      cases hread
      exact h.named later rfl found.1 found.2 hmore
  · rw [readQuotedName_quote hquote hhead] at hread
    cases hread
    exact h.settled

/-- A mark that is no comment with the text after it. -/
theorem Requalifies.mark {b : UInt8} (h : Requalifies s mode false (b == Byte.dot) text)
    (hproper : (Lexeme.mark b).Proper s.usesBackslashEscapes mode)
    (hleaves : (Lexeme.mark b).Leaves text) :
    Requalifies s mode afterAs afterDot (b :: text) := by
  have hdot : (Lexeme.mark b == .mark Byte.dot) = (b == Byte.dot) := by
    rw [Bool.eq_iff_iff, beq_iff_eq, beq_iff_eq, Lexeme.mark.injEq]
  refine Requalifies.cons (l := .mark b) ?_ hproper hleaves trivial (fun _ => nofun)
    fun _ _ _ _ _ => ⟨rfl, nofun⟩
  rw [hdot]
  exact h

/-- The segments of a qualifier in front of a text. -/
theorem Requalifies.segments (segments : List Bytes)
    (h : ∀ afterAs afterDot, Requalifies s mode afterAs afterDot text) (afterAs afterDot : Bool) :
    Requalifies s mode afterAs afterDot
      (segments.flatMap (fun segment => Name.writeSegment s.nameQuote segment ++ [Byte.dot]) ++
        text) := by
  induction segments generalizing afterAs afterDot with
  | nil => exact h afterAs afterDot
  | cons segment segments ih =>
    have hdot (afterAs afterDot : Bool) : Requalifies s mode afterAs afterDot (Byte.dot ::
        (segments.flatMap (fun segment => Name.writeSegment s.nameQuote segment ++ [Byte.dot]) ++
          text)) :=
      Requalifies.mark (ih false true) (by simp +decide [Proper]) (by simp +decide [Leaves])
    rw [List.flatMap_cons, List.append_assoc, List.append_assoc, Name.writeSegment]
    split
    · rename_i hstar
      rw [hstar]
      exact Requalifies.mark (b := Byte.star) (hdot false false) (by simp +decide [Proper])
        (by simp +decide [Leaves])
    · exact (hdot false false).name segment afterAs afterDot

/-! ### Whole texts -/

/-- A lexeme in front of a text that is settled. -/
theorem requalifies_fitted {l : Lexeme} {after : Nat} (qualifier : Option String)
    (hfamily : s.family ≠ .mssql)
    (hproper : l.Proper s.usesBackslashEscapes mode) (hleaves : l.Leaves (sources rest))
    (hstops : l.Stops (sources rest)) (hrest : Accepted s.usesBackslashEscapes mode after rest)
    (h : Requalifies s mode (l.expectsAlias afterAs) (l == .mark Byte.dot)
      (l.fittedAfter s (Name.lead s.nameQuote qualifier) afterAs afterDot rest)) :
    Requalifies s mode afterAs afterDot
      (l.fitted s (Name.lead s.nameQuote qualifier) afterAs afterDot rest ++
        l.fittedAfter s (Name.lead s.nameQuote qualifier) afterAs afterDot rest) := by
  have hproper' := proper_refit afterAs afterDot rest hproper
  rw [fitted_eq _ _ _ _ hproper, List.append_assoc]
  by_cases hname : ∃ name, l.refit s afterAs afterDot rest = .quotedName s.nameQuote name
  · obtain ⟨name, hrefit⟩ := hname
    rw [← expectsAlias_refit l afterAs afterDot rest, ← refit_eq_mark l afterAs afterDot rest,
      hrefit] at h
    obtain ⟨segments, hlead, -⟩ := Name.lead_eq s.nameQuote qualifier
    rw [hrefit]
    rcases leadOf_cases s (Name.lead s.nameQuote qualifier) afterAs afterDot rest l with
      hnone | ⟨hown, -⟩
    · rw [hnone]
      exact h.name name afterAs afterDot
    · have hsegments := Requalifies.segments segments (h.name name) afterAs afterDot
      rw [← hlead] at hsegments
      rw [hown]
      exact hsegments
  have hnone : l.leadOf s (Name.lead s.nameQuote qualifier) afterAs afterDot rest = [] :=
    (leadOf_cases s _ afterAs afterDot rest l).resolve_right fun hlead => hname hlead.2
  rw [hnone, List.nil_append]
  have hhead : ∀ text, ((l.refit s afterAs afterDot rest).source ++ text).head?
      ≠ some s.nameQuote := by
    intro text hquote
    obtain ⟨b, hb, hstart⟩ := hproper'.head?
    rw [List.head?_append, hb, Option.some_or] at hquote
    obtain rfl : b = s.nameQuote := Option.some.inj hquote
    exact hname (hstart.eq_quotedName (nameQuote_cases s))
  by_cases hescape : ∃ name, l.refit s afterAs afterDot rest = .word name ∧
      OpensEscape name (l.fittedAfter s (Name.lead s.nameQuote qualifier) afterAs afterDot rest)
  · obtain ⟨name, hrefit, hopens⟩ := hescape
    have hhead := hhead (l.fittedAfter s (Name.lead s.nameQuote qualifier) afterAs afterDot rest)
    rw [hrefit] at hhead ⊢
    exact Requalifies.of_refused (fun depth => readAll_of_opensEscape depth hopens) hhead
  by_cases hcomment : l = .mark Byte.slash ∧
      (l.fittedAfter s (Name.lead s.nameQuote qualifier) afterAs afterDot rest).head?
        = some Byte.star
  · obtain ⟨rfl, hstar⟩ := hcomment
    exact Requalifies.of_refused (fun depth => readAll_of_comment depth hstar) (hhead _)
  have hleaves' := leaves_refit afterAs afterDot qualifier hleaves hrest
    (fun name hrefit => absurd ⟨name, hrefit⟩ hname) (absurd · hfamily)
    (fun hl hstar => hcomment ⟨hl, hstar⟩)
  have hstops' := stops_refit afterAs afterDot qualifier hstops hrest
    (fun name hrefit hopens => hescape ⟨name, hrefit, hopens⟩) (fun _ _ _ => (absurd · hfamily))
  rw [← expectsAlias_refit l afterAs afterDot rest, ← refit_eq_mark l afterAs afterDot rest] at h
  exact Requalifies.cons h hproper' hleaves' hstops' (fun name hrefit => hname ⟨name, hrefit⟩)
    fun lead _ _ hothers hsources => stays_refit afterAs afterDot lead hrest hothers hsources

theorem requalifies_nil : Requalifies s mode afterAs afterDot [] where
  settled depth lexemes hread lead := by
    obtain ⟨haccepted, -, hsources⟩ := readAll_eq_ok_iff.mp hread
    cases haccepted with
    | nil => rfl
    | @cons l _ _ _ hproper =>
      obtain ⟨b, hb, -⟩ := hproper.head?
      rw [sources, List.flatMap_cons, List.append_eq_nil_iff] at hsources
      rw [hsources.1] at hb
      cases hb
  named _ htext := by cases htext

/-- A fitted text is settled. -/
theorem Accepted.requalifies {lexemes : List Lexeme} (qualifier : Option String)
    (hfamily : s.family ≠ .mssql) (h : Accepted s.usesBackslashEscapes mode depth lexemes)
    (hstop : AllStop lexemes) (afterAs afterDot closing : Bool)
    (hclosing : closing = true → opensCall lexemes = true ∧ afterAs = false ∧ afterDot = false) :
    Requalifies s mode afterAs afterDot
      (fittedFrom s (Name.lead s.nameQuote qualifier) afterAs afterDot closing lexemes) := by
  induction h generalizing afterAs afterDot closing with
  | nil => exact requalifies_nil
  | @cons l rest depth after hproper hleaves hdepth hrest ih =>
    have hnext := ih hstop.2 (l.expectsAlias afterAs) (l == .mark Byte.dot)
      (l.closesUp s afterAs afterDot rest) fun hcloses => flags_of_closesUp hcloses
    obtain ⟨own, htext, hown⟩ := fittedFrom_cons s (Name.lead s.nameQuote qualifier) afterAs
      afterDot closing l rest
    rw [htext]
    rcases hown with rfl | ⟨rfl, hspace, rfl⟩
    · exact requalifies_fitted qualifier hfamily hproper hleaves hstop.1 hrest hnext
    · obtain ⟨-, rfl, rfl⟩ := hclosing rfl
      cases l with
      | space run => exact hnext
      | _ => cases hspace

/-! ### Unicode escapes -/

/-- Where names stand between backticks, a text that opens an escape did so before it was fitted. -/
theorem opensEscape_of_fittedFrom {name : Bytes} {lexemes : List Lexeme} (qualifier : Option String)
    (hfamily : s.family = .mysql) (h : Accepted s.usesBackslashEscapes mode depth lexemes)
    (hopens : OpensEscape name
      (fittedFrom s (Name.lead s.nameQuote qualifier) afterAs afterDot false lexemes)) :
    OpensEscape name (sources lexemes) := by
  have hkept {p : UInt8} (hp : p = Byte.ampersand ∨ p = Byte.apostrophe) :
      Kept (Name.lead s.nameQuote qualifier) p := by
    rcases hp with rfl | rfl <;> exact kept_lead s qualifier (by decide) (by decide) (by decide)
  obtain ⟨hname, after, hafter, hquote⟩ := hopens
  have hhead := (head?_fittedFrom_eq_iff h (hkept (Or.inl rfl))).mp (by rw [hafter, List.head?_cons])
  obtain ⟨others, rfl⟩ := List.head?_eq_some_iff.mp
    ((h.head?_eq_mark_iff (Or.inr (Or.inr rfl))).mp hhead)
  cases h with
  | cons hproper hleaves hdepth hothers =>
    obtain rfl : fittedFrom s (Name.lead s.nameQuote qualifier) false false false others = after :=
      (List.cons.inj hafter).2
    refine ⟨hname, sources others, rfl, ?_⟩
    rcases hquote with hquote | hquote
    · exact Or.inl ((head?_fittedFrom_eq_iff hothers (hkept (Or.inr rfl))).mp hquote)
    · have hbacktick := eq_nameQuote_of_head?_fittedFrom hothers hquote (Or.inl rfl)
      rw [Settings.nameQuote, hfamily] at hbacktick
      exact absurd hbacktick (by decide)

/-- Where names stand between backticks, no text makes an escape. -/
theorem not_makesEscape {lexemes : List Lexeme} (qualifier : Option String)
    (hfamily : s.family = .mysql) (h : Accepted s.usesBackslashEscapes mode depth lexemes)
    (hstop : AllStop lexemes) (afterAs afterDot : Bool) :
    ¬ MakesEscape s (Name.lead s.nameQuote qualifier) afterAs afterDot lexemes := by
  induction h generalizing afterAs afterDot with
  | nil => exact id
  | @cons l rest depth after hproper hleaves hdepth hrest ih =>
    cases l with
    | word name =>
      rintro (⟨-, hopens⟩ | hlater)
      · exact hstop.1 (opensEscape_of_fittedFrom qualifier hfamily hrest hopens)
      · exact ih hstop.2 _ _ hlater
    | _ => exact ih hstop.2 _ _

end Lexeme

/-- Another qualifier does not change a text that was checked and fitted, though the text may be
refused; where names stand between backticks it is not, if the first qualifier is made of names. -/
theorem sanitize_requalified {text out : String} {first : Option String} {s : Settings}
    {mode : SafeMode} (hfamily : s.family ≠ .mssql) (h : sanitize text first s mode = .ok out)
    (second : Option String) :
    (sanitize out second s mode = .ok out ∨
      ∃ reason, sanitize out second s mode = .error (.unsafeText (utf8 out) reason)) ∧
    (s.family = .mysql → NamesOnly first → sanitize out second s mode = .ok out) := by
  obtain ⟨lexemes, hread, hout⟩ := fitText_eq_ok_iff.mp (fitText_of_sanitize h)
  obtain ⟨haccepted, hstop, -⟩ := Lexeme.readAll_eq_ok_iff.mp hread
  have hsettled := (haccepted.requalifies first hfamily hstop false false false
    (absurd · Bool.false_ne_true)).settled 0
  rw [← hout] at hsettled
  have hsame {others : List Lexeme}
      (hothers : Lexeme.readAll s.usesBackslashEscapes mode 0 (utf8 out) = .ok others) :
      sanitize out second s mode = .ok out := by
    rw [sanitize_eq_ok_iff, fitText_eq_ok_iff]
    exact ⟨others, hothers, (hsettled others hothers _).symm⟩
  constructor
  · cases hothers : Lexeme.readAll s.usesBackslashEscapes mode 0 (utf8 out) with
    | ok others => exact Or.inl (hsame hothers)
    | error reason => exact Or.inr ⟨reason, sanitize_eq_error_iff.mpr (by rw [fitText, hothers])⟩
  · intro hmysql hnames
    have hrereads := haccepted.rereads hnames hstop (absurd · hfamily) false false false
      (absurd · Bool.false_ne_true)
    rw [← hout] at hrereads
    obtain ⟨others, hothers, -⟩ := hrereads.settles
      (Lexeme.not_makesEscape first hmysql haccepted hstop false false)
    exact hsame hothers

/-- Names keep the first qualifier; the letter before a name is refused. -/
theorem sanitize_requalified_names :
    (sanitize "a + b" (some "t") (Settings.ofDialect .mysql) .expression
        = .ok "`t`.`a` + `t`.`b`" ∧
      sanitize "`t`.`a` + `t`.`b`" (some "u") (Settings.ofDialect .mysql) .expression
        = .ok "`t`.`a` + `t`.`b`") ∧
    (sanitize "1 AS u&b" none (Settings.ofDialect .postgres) .chunk = .ok "1 AS u&\"b\"" ∧
      ∃ reason, sanitize "1 AS u&\"b\"" (some "t") (Settings.ofDialect .postgres) .chunk
        = .error (.unsafeText (utf8 "1 AS u&\"b\"") reason)) := by
  constructor
  · have hsafe : sanitize "a + b" (some "t") (Settings.ofDialect .mysql) .expression
        = .ok "`t`.`a` + `t`.`b`" := by decide +kernel
    have hnames : NamesOnly (some "t") := by
      intro name hname
      cases hname
      decide +kernel
    exact ⟨hsafe, (sanitize_requalified (by decide) hsafe (some "u")).2 rfl hnames⟩
  · have hsafe : sanitize "1 AS u&b" none (Settings.ofDialect .postgres) .chunk
        = .ok "1 AS u&\"b\"" := by decide +kernel
    refine ⟨hsafe, ?_⟩
    rcases (sanitize_requalified (by decide) hsafe (some "t")).1 with hsame | hrefused
    · exact absurd hsame (by decide +kernel)
    · exact hrefused

end SqlTemplate
