import Mathlib.Data.List.Chain
import SqlTemplate.Proofs.Characters
import SqlTemplate.Proofs.Refitting

/-!
# Checking a text again

A text that was checked and fitted to its dialect is checked again where it becomes a part of
another. `sanitize_sanitize_iff` says when the second pass leaves it alone. Two things stand in the
way. A bare `u` before an ampersand and a name makes the opening of a literal with Unicode escapes
once the name is between double quotes (`Lexeme.MakesEscape`); this the second pass refuses. And
where hexadecimal literals are written as numbers, they run together with the word beside them
(`Lexeme.StaysApart`).

The second pass reads other lexemes than the first: a name that was a word is now between quotes,
names that touch have become one, a qualifier has become lexemes of its own. `Lexeme.Rereads` is
what is carried from the end of a text to its start.
-/

namespace SqlTemplate

/-! ### Qualifiers -/

/-- A qualifier, where there is one, is made of names. -/
def NamesOnly (qualifier : Option String) : Prop :=
  ∀ name, qualifier = some name → ∀ segment ∈ Name.segments (utf8 name),
    segment ≠ [] ∧ Byte.nul ∉ segment ∧ segment ≠ [Byte.star]

theorem namesOnly_none : NamesOnly none := by
  intro name hname
  cases hname

/-- The text of names, each with a dot after it. -/
def Name.dotted (quote : UInt8) (names : List Bytes) : Bytes :=
  names.flatMap fun name => Name.enclose quote name ++ [Byte.dot]

theorem Name.intercalate_append_dot {segments : List Bytes} (hne : segments ≠ []) :
    [Byte.dot].intercalate segments ++ [Byte.dot]
      = segments.flatMap fun segment => segment ++ [Byte.dot] := by
  induction segments with
  | nil => exact absurd rfl hne
  | cons segment rest ih =>
    cases rest with
    | nil => simp [List.intercalate]
    | cons next others =>
      rw [List.intercalate_cons_cons, List.append_assoc, List.append_assoc,
        ih (List.cons_ne_nil _ _)]
      simp only [List.flatMap_cons, List.append_assoc]

/-- What a qualifier puts before a name: its segments, each with a dot after it. -/
theorem Name.lead_eq (quote : UInt8) (qualifier : Option String) :
    ∃ segments : List Bytes, Name.lead quote qualifier
        = segments.flatMap (fun segment => Name.writeSegment quote segment ++ [Byte.dot]) ∧
      ∀ segment ∈ segments, ∃ name, qualifier = some name ∧
        segment ∈ Name.segments (utf8 name) := by
  cases qualifier with
  | none => exact ⟨[], rfl, List.forall_mem_nil _⟩
  | some name =>
    rw [Name.lead]
    split
    · exact ⟨[], rfl, List.forall_mem_nil _⟩
    · refine ⟨Name.segments (utf8 name), ?_, fun segment hsegment => ⟨name, rfl, hsegment⟩⟩
      have hne : (Name.segments (utf8 name)).map (Name.writeSegment quote) ≠ [] :=
        mt List.map_eq_nil_iff.mp (List.splitOn_ne_nil _ _)
      rw [Name.writeDotted, Name.intercalate_append_dot hne, List.flatMap_map]

theorem NamesOnly.lead_eq {qualifier : Option String} (h : NamesOnly qualifier) (quote : UInt8) :
    ∃ names, Name.lead quote qualifier = Name.dotted quote names ∧
      ∀ name ∈ names, name ≠ [] ∧ Byte.nul ∉ name := by
  obtain ⟨segments, hlead, hsegments⟩ := Name.lead_eq quote qualifier
  have hnames : ∀ segment ∈ segments,
      segment ≠ [] ∧ Byte.nul ∉ segment ∧ segment ≠ [Byte.star] := by
    intro segment hsegment
    obtain ⟨name, hname, hmem⟩ := hsegments segment hsegment
    exact h name hname segment hmem
  refine ⟨segments, ?_, fun segment hsegment =>
    ⟨(hnames segment hsegment).1, (hnames segment hsegment).2.1⟩⟩
  rw [hlead, Name.dotted]
  refine List.flatMap_congr fun segment hsegment => ?_
  rw [Name.writeSegment, if_neg (hnames segment hsegment).2.2]

theorem NamesOnly.startsNamed {qualifier : Option String} (h : NamesOnly qualifier) :
    StartsNamed qualifier := by
  intro name hname hstar
  exact (h name hname [Byte.star] (List.mem_of_mem_head? hstar)).2.2 rfl

namespace Lexeme

variable {s : Settings} {mode : SafeMode} {afterAs afterDot closing : Bool} {lead : Bytes}
  {depth after : Nat} {text : Bytes} {refused : Prop}

/-! ### What the second pass meets -/

/-- A bare word and the text after it in the target dialect open a literal or a name with Unicode
escapes. -/
def MakesEscape (s : Settings) (lead : Bytes) (afterAs afterDot : Bool) : List Lexeme → Prop
  | [] => False
  | .word name :: rest =>
    wordForm s afterAs afterDot name rest = .bare ∧
        OpensEscape name (fittedFrom s lead (isAs name) false false rest) ∨
      MakesEscape s lead (isAs name) false rest
  | l :: rest => MakesEscape s lead (l.expectsAlias afterAs) (l == .mark Byte.dot) rest

/-- Neighbours that stay apart where hexadecimal literals are written as numbers: no byte of a word
follows such a literal, and no digits of a placeholder precede it. -/
def StaysApart : Lexeme → Lexeme → Prop
  | .hexString _ _, next => ∀ b, next.source.head? = some b → Byte.isWord b = false
  | .placeholder text, .hexString _ _ => text = [Byte.question]
  | _, _ => True

/-- How a fitted text is read: either it is read as lexemes that are fitted already, or it is
refused. A name at its front may become one with a name before it. -/
structure Rereads (s : Settings) (lead : Bytes) (mode : SafeMode) (afterAs afterDot : Bool)
    (depth : Nat) (text : Bytes) (refused : Prop) : Prop where
  named : text.head? = some s.nameQuote → ∃ name rest, name ≠ [] ∧
    readQuotedName s.nameQuote text.tail = .ok (name, rest)
  settles : ¬ refused → ∃ lexemes,
    readAll s.usesBackslashEscapes mode depth text = .ok lexemes ∧
      fittedFrom s lead afterAs afterDot false lexemes = text
  fails : refused → ∃ reason, readAll s.usesBackslashEscapes mode depth text = .error reason

theorem nameQuote_ne_nul (s : Settings) : s.nameQuote ≠ Byte.nul := by
  rcases nameQuote_cases s with h | h <;>
  · rw [h]
    decide

/-- No white space is removed before a mark. -/
theorem fittedFrom_mark {b : UInt8} {rest : List Lexeme} :
    fittedFrom s lead afterAs afterDot closing (.mark b :: rest)
      = fittedFrom s lead afterAs afterDot false (.mark b :: rest) := by
  cases closing <;> rfl

/-- A lexeme that is fitted already, before lexemes that are. -/
theorem fittedFrom_of_stays {l : Lexeme} {lexemes : List Lexeme}
    (haccepted : Accepted s.usesBackslashEscapes mode depth lexemes)
    (hsame : l.fitted s lead afterAs afterDot lexemes = l.source)
    (hcloses : l.closesUp s afterAs afterDot lexemes = true →
      (sources lexemes).head? = some Byte.openParen)
    (hfitted : fittedFrom s lead (l.expectsAlias afterAs) (l == .mark Byte.dot) false lexemes
      = text) :
    fittedFrom s lead afterAs afterDot false (l :: lexemes) = l.source ++ text := by
  rw [fittedFrom, Bool.false_and, if_neg Bool.false_ne_true, hsame]
  cases hclosing : l.closesUp s afterAs afterDot lexemes with
  | false => rw [hfitted]
  | true =>
    obtain ⟨others, rfl⟩ := List.head?_eq_some_iff.mp
      ((haccepted.head?_eq_mark_iff (Or.inl rfl)).mp (hcloses hclosing))
    rw [fittedFrom_mark, hfitted]

/-- A lexeme that is fitted already, before a text that is. -/
theorem Rereads.cons {l : Lexeme}
    (h : Rereads s lead mode (l.expectsAlias afterAs) (l == .mark Byte.dot) after text refused)
    (hproper : l.Proper s.usesBackslashEscapes mode) (hleaves : l.Leaves text)
    (hstops : l.Stops text) (hdepth : depthAfter mode depth l = .ok after)
    (hstays : ∀ lexemes, Accepted s.usesBackslashEscapes mode after lexemes →
      sources lexemes = text → l.fitted s lead afterAs afterDot lexemes = l.source ∧
        (l.closesUp s afterAs afterDot lexemes = true →
          (sources lexemes).head? = some Byte.openParen)) :
    Rereads s lead mode afterAs afterDot depth (l.source ++ text) refused where
  named hquote := by
    obtain ⟨b, hb, hstart⟩ := hproper.head?
    rw [List.head?_append, hb, Option.some_or] at hquote
    obtain rfl : b = s.nameQuote := Option.some.inj hquote
    obtain ⟨name, rfl⟩ := hstart.eq_quotedName (nameQuote_cases s)
    refine ⟨name, text, hproper.2.1, ?_⟩
    change readQuotedName s.nameQuote (doubled s.nameQuote name ++ [s.nameQuote] ++ text) = _
    rw [List.append_assoc]
    exact readQuotedName_append (nameQuote_ne_nul s) hproper.2.2 hleaves
  settles hrefused := by
    obtain ⟨lexemes, hread, hfitted⟩ := h.settles hrefused
    obtain ⟨haccepted, -, hsources⟩ := readAll_eq_ok_iff.mp hread
    obtain ⟨hsame, hcloses⟩ := hstays lexemes haccepted hsources
    refine ⟨l :: lexemes, ?_, fittedFrom_of_stays haccepted hsame hcloses hfitted⟩
    rw [readAll_append hproper hleaves hstops hdepth, hread]
    rfl
  fails hrefused := by
    obtain ⟨reason, hread⟩ := h.fails hrefused
    refine ⟨reason, ?_⟩
    rw [readAll_append hproper hleaves hstops hdepth, hread]
    rfl

/-- A lexeme that is no word and stays as it is, before a text that is read again. -/
theorem Rereads.keep {l : Lexeme}
    (h : Rereads s lead mode (l.expectsAlias afterAs) (l == .mark Byte.dot) after text refused)
    (hproper : l.Proper s.usesBackslashEscapes mode) (hleaves : l.Leaves text)
    (hstops : l.Stops text) (hdepth : depthAfter mode depth l = .ok after)
    (hstays : ∀ lexemes, l.fitted s lead afterAs afterDot lexemes = l.source ∧
      l.closesUp s afterAs afterDot lexemes = false) :
    Rereads s lead mode afterAs afterDot depth (l.source ++ text) refused :=
  h.cons hproper hleaves hstops hdepth fun lexemes _ _ => ⟨(hstays lexemes).1, fun hcloses =>
    absurd ((hstays lexemes).2.symm.trans hcloses) Bool.false_ne_true⟩

/-! ### Names -/

theorem doubled_append (quote : UInt8) (x y : Bytes) :
    doubled quote (x ++ y) = doubled quote x ++ doubled quote y := by
  induction x with
  | nil => rfl
  | cons b x ih =>
    rw [List.cons_append, doubled, doubled, ih]
    split <;> rfl

/-- What is known of a text with a name in front is known of the text after the name. -/
theorem Rereads.rest {name : Bytes}
    (h : Rereads s lead mode false false depth
      ((Lexeme.quotedName s.nameQuote name).source ++ text) refused)
    (hproper : (Lexeme.quotedName s.nameQuote name).Proper s.usesBackslashEscapes mode)
    (hleaves : text.head? ≠ some s.nameQuote) :
    Rereads s lead mode false false depth text refused where
  named hquote := absurd hquote hleaves
  settles hrefused := by
    obtain ⟨lexemes, hread, hfitted⟩ := h.settles hrefused
    rw [readAll_append hproper hleaves trivial rfl] at hread
    cases hrest : readAll s.usesBackslashEscapes mode depth text with
    | error reason =>
      rw [hrest] at hread
      cases hread
    | ok others =>
      rw [hrest] at hread
      cases hread
      exact ⟨others, rfl, List.append_cancel_left hfitted⟩
  fails hrefused := by
    obtain ⟨reason, hread⟩ := h.fails hrefused
    rw [readAll_append hproper hleaves trivial rfl] at hread
    cases hrest : readAll s.usesBackslashEscapes mode depth text with
    | error reason => exact ⟨reason, rfl⟩
    | ok others =>
      rw [hrest] at hread
      cases hread

/-- A name in front of a text, which becomes one with a name there. -/
theorem Rereads.name {name : Bytes} (h : Rereads s lead mode false false depth text refused)
    (hne : name ≠ []) (hnul : Byte.nul ∉ name) (afterAs afterDot : Bool) :
    Rereads s lead mode afterAs afterDot depth (Name.enclose s.nameQuote name ++ text) refused := by
  have hlonger {name : Bytes} {text : Bytes}
      (h : Rereads s lead mode false false depth text refused) (hne : name ≠ [])
      (hnul : Byte.nul ∉ name) (hleaves : text.head? ≠ some s.nameQuote) :
      Rereads s lead mode afterAs afterDot depth
        ((Lexeme.quotedName s.nameQuote name).source ++ text) refused :=
    Rereads.keep (l := .quotedName s.nameQuote name) h ⟨nameQuote_cases s, hne, hnul⟩ hleaves
      trivial rfl fun _ => ⟨rfl, rfl⟩
  by_cases hhead : text.head? = some s.nameQuote
  · obtain ⟨rest, rfl⟩ := List.head?_eq_some_iff.mp hhead
    obtain ⟨other, after, hother, hread⟩ := h.named rfl
    obtain ⟨hotherNul, hsource, hleaves⟩ := readQuotedName_ok hread
    have hproper : (Lexeme.quotedName s.nameQuote other).Proper s.usesBackslashEscapes mode :=
      ⟨nameQuote_cases s, hother, hotherNul (nameQuote_ne_nul s)⟩
    have htext : s.nameQuote :: rest = (Lexeme.quotedName s.nameQuote other).source ++ after := by
      change _ = rest at hsource
      rw [source, ← hsource, List.cons_append, List.cons_append, List.append_assoc]
      rfl
    have hjoined : Name.enclose s.nameQuote name ++ s.nameQuote :: rest
        = (Lexeme.quotedName s.nameQuote (name ++ s.nameQuote :: other)).source ++ after := by
      rw [htext, source, source, Name.enclose, doubled_append, doubled, if_pos rfl]
      simp only [List.cons_append, List.append_assoc, List.nil_append]
    rw [hjoined]
    rw [htext] at h
    refine hlonger (h.rest hproper hleaves) (by simp) ?_ hleaves
    rw [List.mem_append, List.mem_cons]
    rintro (h | h | h)
    · exact hnul h
    · exact nameQuote_ne_nul s h.symm
    · exact hproper.2.2 h
  · exact hlonger h hne hnul hhead

/-- Names with dots in front of a text, as a qualifier is written. -/
theorem Rereads.dotted {names : List Bytes}
    (h : ∀ afterAs afterDot, Rereads s lead mode afterAs afterDot depth text refused)
    (hnames : ∀ name ∈ names, name ≠ [] ∧ Byte.nul ∉ name) (afterAs afterDot : Bool) :
    Rereads s lead mode afterAs afterDot depth (Name.dotted s.nameQuote names ++ text) refused := by
  induction names generalizing afterAs afterDot with
  | nil => exact h afterAs afterDot
  | cons name names ih =>
    obtain ⟨⟨hne, hnul⟩, hrest⟩ := List.forall_mem_cons.mp hnames
    have hdot : Rereads s lead mode false false depth
        ((Lexeme.mark Byte.dot).source ++ (Name.dotted s.nameQuote names ++ text)) refused := by
      refine Rereads.keep (l := .mark Byte.dot) (ih hrest false true) ?_ ?_ trivial rfl fun _ =>
        ⟨rfl, rfl⟩
      · simp +decide [Proper]
      · exact ⟨fun hminus => absurd hminus (by decide), fun hslash => absurd hslash (by decide)⟩
    have hname := hdot.name hne hnul afterAs afterDot
    rw [Name.dotted, List.flatMap_cons, List.append_assoc, List.append_assoc]
    exact hname

/-! ### Lexemes -/

theorem Rereads.congr {other : Prop}
    (h : Rereads s lead mode afterAs afterDot depth text refused) (heq : refused ↔ other) :
    Rereads s lead mode afterAs afterDot depth text other := propext heq ▸ h

/-- The first of the lexemes makes an escape if it stays a word and opens one. -/
theorem makesEscape_cons (l : Lexeme) (rest : List Lexeme) :
    MakesEscape s lead afterAs afterDot (l :: rest) ↔
      (∃ name, l.refit s afterAs afterDot rest = .word name ∧
        OpensEscape name (l.fittedAfter s lead afterAs afterDot rest)) ∨
      MakesEscape s lead (l.expectsAlias afterAs) (l == .mark Byte.dot) rest := by
  cases l with
  | word name =>
    rw [MakesEscape]
    refine or_congr ?_ Iff.rfl
    simp only [refit, fittedAfter, closesUp]
    cases hform : wordForm s afterAs afterDot name rest with
    | bare =>
      have hflags : (Lexeme.word name == .mark Byte.dot) = false ∧
          (WordForm.bare == WordForm.called) = false := ⟨rfl, rfl⟩
      simp [expectsAlias, hflags]
    | called =>
      refine iff_of_false (by simp) ?_
      rintro ⟨_, -, -, after, hafter, -⟩
      have hhead := (head?_fittedFrom_of_opensCall (wordForm_eq_called hform).2).symm.trans
        (congrArg List.head? hafter)
      exact absurd (Option.some.inj hhead) (by decide)
    | quoted | qualified => simp
  | hexString letter digits =>
    simp only [MakesEscape, refit]
    split <;> simp
  | _ => simp [MakesEscape, refit]

/-- No byte of a word follows a hexadecimal literal that stays apart. -/
theorem head?_sources_of_staysApart {letter : UInt8} {digits : Bytes} {rest : List Lexeme}
    (hrest : Accepted s.usesBackslashEscapes mode depth rest)
    (hapart : ∀ next, rest.head? = some next → StaysApart (.hexString letter digits) next)
    (b : UInt8) (hb : (sources rest).head? = some b) : Byte.isWord b = false := by
  cases hrest with
  | nil => cases hb
  | @cons next others _ _ hnext _ _ _ =>
    obtain ⟨c, hc, -⟩ := hnext.head?
    rw [sources, List.flatMap_cons, List.head?_append, hc, Option.some_or, ← hc] at hb
    exact hapart next rfl b hb

/-- A lexeme before a text that is read again. -/
theorem rereads_fitted {l : Lexeme} {rest : List Lexeme} {qualifier : Option String}
    (hqualifier : NamesOnly qualifier) (hproper : l.Proper s.usesBackslashEscapes mode)
    (hleaves : l.Leaves (sources rest)) (hstops : l.Stops (sources rest))
    (hdepth : depthAfter mode depth l = .ok after)
    (hrest : Accepted s.usesBackslashEscapes mode after rest)
    (hapart : s.family = .mssql → ∀ next, rest.head? = some next → StaysApart l next)
    (h : Rereads s (Name.lead s.nameQuote qualifier) mode (l.expectsAlias afterAs)
      (l == .mark Byte.dot) after
      (l.fittedAfter s (Name.lead s.nameQuote qualifier) afterAs afterDot rest)
      (MakesEscape s (Name.lead s.nameQuote qualifier) (l.expectsAlias afterAs)
        (l == .mark Byte.dot) rest)) :
    Rereads s (Name.lead s.nameQuote qualifier) mode afterAs afterDot depth
      (l.fitted s (Name.lead s.nameQuote qualifier) afterAs afterDot rest ++
        l.fittedAfter s (Name.lead s.nameQuote qualifier) afterAs afterDot rest)
      (MakesEscape s (Name.lead s.nameQuote qualifier) afterAs afterDot (l :: rest)) := by
  have hproper' := proper_refit afterAs afterDot rest hproper
  rw [fitted_eq _ _ _ _ hproper, List.append_assoc]
  rw [← expectsAlias_refit l afterAs afterDot rest, ← refit_eq_mark l afterAs afterDot rest] at h
  rw [← depthAfter_refit l afterAs afterDot rest] at hdepth
  by_cases hname : ∃ name, l.refit s afterAs afterDot rest = .quotedName s.nameQuote name
  · -- A name, which may become one with a name after it, and the qualifier before it.
    obtain ⟨name, hrefit⟩ := hname
    rw [hrefit] at h hproper' hdepth
    obtain rfl : depth = after := Except.ok.inj hdepth
    have hnamed := h.name hproper'.2.1 hproper'.2.2
    obtain ⟨names, hlead, hnames⟩ :
        ∃ names, l.leadOf s (Name.lead s.nameQuote qualifier) afterAs afterDot rest
            = Name.dotted s.nameQuote names ∧ ∀ name ∈ names, name ≠ [] ∧ Byte.nul ∉ name := by
      rcases leadOf_cases s (Name.lead s.nameQuote qualifier) afterAs afterDot rest l with
        hnone | ⟨hlead, -⟩
      · exact ⟨[], hnone, List.forall_mem_nil _⟩
      · rw [hlead]
        exact hqualifier.lead_eq s.nameQuote
    rw [hlead, hrefit]
    refine (Rereads.dotted hnamed hnames afterAs afterDot).congr ?_
    rw [makesEscape_cons, hrefit, ← expectsAlias_refit l afterAs afterDot rest,
      ← refit_eq_mark l afterAs afterDot rest, hrefit]
    simp
  · -- Any other lexeme: it is refused for the escape that it opens, or read once more.
    have hnone : l.leadOf s (Name.lead s.nameQuote qualifier) afterAs afterDot rest = [] :=
      (leadOf_cases s _ afterAs afterDot rest l).resolve_right fun hlead => hname hlead.2
    rw [hnone, List.nil_append]
    by_cases hescape : ∃ name, l.refit s afterAs afterDot rest = .word name ∧
        OpensEscape name (l.fittedAfter s (Name.lead s.nameQuote qualifier) afterAs afterDot rest)
    · have hrefused := (makesEscape_cons l rest).mpr (Or.inl hescape)
      obtain ⟨name, hrefit, hopens⟩ := hescape
      rw [hrefit] at hproper' ⊢
      exact {
        named := fun hquote => by
          obtain ⟨b, hb, hstart⟩ := hproper'.head?
          rw [List.head?_append, hb, Option.some_or] at hquote
          obtain rfl : b = s.nameQuote := Option.some.inj hquote
          obtain ⟨_, hquoted⟩ := hstart.eq_quotedName (nameQuote_cases s)
          cases hquoted
        settles := fun hnot => absurd hrefused hnot
        fails := fun _ => ⟨.unicodeEscape, readAll_of_opensEscape depth hopens⟩ }
    · have hslash : Kept (Name.lead s.nameQuote qualifier) Byte.star :=
        kept_of_startsNamed s hqualifier.startsNamed (by decide) (by decide)
      have hleaves' := leaves_refit afterAs afterDot qualifier hleaves hrest
        (fun name hrefit => absurd ⟨name, hrefit⟩ hname)
        (fun hfamily letter digits hl => head?_sources_of_staysApart hrest (hl ▸ hapart hfamily))
        (fun hl => by
          subst hl
          exact mt (head?_fittedFrom_eq_iff hrest hslash).mp (hleaves.2 rfl))
      have hstops' := stops_refit afterAs afterDot qualifier hstops hrest
        (fun name hrefit hopens => hescape ⟨name, hrefit, hopens⟩)
        (fun place hl hform hfamily letter digits hhead => by
          subst hl
          exact hform (hapart hfamily _ hhead))
      refine (Rereads.cons h hproper' hleaves' hstops' hdepth ?_).congr ?_
      · exact fun others hothers hsources => stays_refit afterAs afterDot _ hrest hothers hsources
      · rw [makesEscape_cons, expectsAlias_refit, refit_eq_mark]
        exact (or_iff_right hescape).symm

/-! ### Whole texts -/

theorem rereads_nil : Rereads s lead mode afterAs afterDot 0 [] False where
  named hquote := by cases hquote
  settles _ := ⟨[], by rw [readAll, if_pos rfl], rfl⟩
  fails hrefused := hrefused.elim

/-- A fitted text is read again as lexemes that stay as they are, unless it makes an escape. -/
theorem Accepted.rereads {lexemes : List Lexeme} {qualifier : Option String}
    (h : Accepted s.usesBackslashEscapes mode depth lexemes) (hqualifier : NamesOnly qualifier)
    (hstop : AllStop lexemes) (hapart : s.family = .mssql → lexemes.IsChain StaysApart)
    (afterAs afterDot closing : Bool)
    (hclosing : closing = true → opensCall lexemes = true ∧ afterAs = false ∧ afterDot = false) :
    Rereads s (Name.lead s.nameQuote qualifier) mode afterAs afterDot depth
      (fittedFrom s (Name.lead s.nameQuote qualifier) afterAs afterDot closing lexemes)
      (MakesEscape s (Name.lead s.nameQuote qualifier) afterAs afterDot lexemes) := by
  induction h generalizing afterAs afterDot closing with
  | nil => exact rereads_nil
  | @cons l rest depth after hproper hleaves hdepth hrest ih =>
    have hchain (hfamily : s.family = .mssql) := List.isChain_cons.mp (hapart hfamily)
    have hnext := ih hstop.2 (fun hfamily => (hchain hfamily).2) (l.expectsAlias afterAs)
      (l == .mark Byte.dot) (l.closesUp s afterAs afterDot rest) fun hcloses =>
        flags_of_closesUp hcloses
    obtain ⟨own, htext, hown⟩ := fittedFrom_cons s (Name.lead s.nameQuote qualifier) afterAs
      afterDot closing l rest
    rw [htext]
    rcases hown with rfl | ⟨rfl, hspace, rfl⟩
    · exact rereads_fitted hqualifier hproper hleaves hstop.1 hdepth hrest
        (fun hfamily => (hchain hfamily).1) hnext
    · -- The white space goes, and what follows is the call that it stood before.
      obtain ⟨-, rfl, rfl⟩ := hclosing rfl
      cases l with
      | space run =>
        obtain rfl : depth = after := Except.ok.inj hdepth
        exact hnext
      | _ => cases hspace

end Lexeme

/-- The second pass leaves a text alone iff the first made no escape, where hexadecimal literals stay
apart from their neighbours. -/
theorem sanitize_sanitize_iff {text out : String} {qualifier : Option String} {s : Settings}
    {mode : SafeMode} {lexemes : List Lexeme} (hqualifier : NamesOnly qualifier)
    (hread : Lexeme.readAll s.usesBackslashEscapes mode 0 (utf8 text) = .ok lexemes)
    (hapart : s.family = .mssql → lexemes.IsChain Lexeme.StaysApart)
    (h : sanitize text qualifier s mode = .ok out) :
    sanitize out qualifier s mode = .ok out ↔
      ¬ Lexeme.MakesEscape s (Name.lead s.nameQuote qualifier) false false lexemes := by
  obtain ⟨haccepted, hstop, -⟩ := Lexeme.readAll_eq_ok_iff.mp hread
  have hout : utf8 out
      = Lexeme.fittedFrom s (Name.lead s.nameQuote qualifier) false false false lexemes := by
    have hfit := fitText_of_sanitize h
    rw [fitText, hread] at hfit
    exact (Except.ok.inj hfit).symm
  have hrereads := haccepted.rereads hqualifier hstop hapart false false false
    (absurd · Bool.false_ne_true)
  rw [← hout] at hrereads
  rw [sanitize_eq_ok_iff, fitText]
  constructor
  · intro hagain hescape
    obtain ⟨reason, hfails⟩ := hrereads.fails hescape
    rw [hfails] at hagain
    cases hagain
  · intro hescape
    obtain ⟨others, hothers, hfitted⟩ := hrereads.settles hescape
    rw [hothers]
    exact congrArg Except.ok hfitted

/-- A number that was a literal is read again; the letter before a name is refused. -/
theorem sanitize_sanitize_iff_literal :
    (sanitize "x'0A' = b" (some "t") (Settings.ofDialect .mssql) .expression
        = .ok "0x0A = \"t\".\"b\"" ∧
      sanitize "0x0A = \"t\".\"b\"" (some "t") (Settings.ofDialect .mssql) .expression
        = .ok "0x0A = \"t\".\"b\"") ∧
    (sanitize "1 AS u&b" none (Settings.ofDialect .postgres) .chunk = .ok "1 AS u&\"b\"" ∧
      sanitize "1 AS u&\"b\"" none (Settings.ofDialect .postgres) .chunk
        ≠ .ok "1 AS u&\"b\"") := by
  constructor
  · have hsafe : sanitize "x'0A' = b" (some "t") (Settings.ofDialect .mssql) .expression
        = .ok "0x0A = \"t\".\"b\"" := by decide +kernel
    have hnames : NamesOnly (some "t") := by
      intro name hname
      cases hname
      decide +kernel
    have hread : Lexeme.readAll (Settings.ofDialect .mssql).usesBackslashEscapes .expression 0
        (utf8 "x'0A' = b") = .ok [.hexString 0x78 (utf8 "0A"), .space [Byte.space], .mark 0x3D,
          .space [Byte.space], .word (utf8 "b")] := by decide +kernel
    refine ⟨hsafe, (sanitize_sanitize_iff hnames hread (fun _ => ?_) hsafe).mpr ?_⟩
    · refine List.isChain_cons_cons.mpr ⟨?_, by simp [Lexeme.StaysApart]⟩
      intro b hb
      obtain rfl : Byte.space = b := Option.some.inj hb
      decide
    · rintro (⟨-, hname, -⟩ | hnone)
      · exact absurd hname (by decide +kernel)
      · exact hnone
  · have hsafe : sanitize "1 AS u&b" none (Settings.ofDialect .postgres) .chunk
        = .ok "1 AS u&\"b\"" := by decide +kernel
    have hread : Lexeme.readAll (Settings.ofDialect .postgres).usesBackslashEscapes .chunk 0
        (utf8 "1 AS u&b") = .ok [.number (utf8 "1"), .space [Byte.space], .word (utf8 "AS"),
          .space [Byte.space], .word (utf8 "u"), .mark Byte.ampersand, .word (utf8 "b")] := by
      decide +kernel
    have hiff := sanitize_sanitize_iff namesOnly_none hread
      (fun hfamily => absurd hfamily (by decide)) hsafe
    refine ⟨hsafe, fun hagain => hiff.mp hagain ?_⟩
    refine Or.inr (Or.inl ⟨by decide +kernel, Or.inl (by decide +kernel), utf8 "\"b\"", ?_, Or.inr ?_⟩)
    · decide +kernel
    · decide +kernel

end SqlTemplate
