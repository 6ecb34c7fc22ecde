import SqlTemplate.Proofs.Characters
import SqlTemplate.Proofs.Reading

/-!
# What is accepted, across modes and settings

A wider mode refuses less: it may read placeholders, or let a comma stand outside parentheses, and
reads everything else in the same way. So a text that is accepted in one mode is accepted in every
wider one, as the same lexemes, and these are fitted alike. Of the settings the reader sees only
whether backslashes escape; the words of the dialect, its family and the qualifier decide how the
lexemes are written, never whether there are any.
-/

namespace SqlTemplate

/-- The mode `wider` reads placeholders if `mode` does, and minds commas only if `mode` does. -/
def SafeMode.WidensTo (mode wider : SafeMode) : Prop :=
  (mode = .nested → wider = .nested) ∧ (wider = .expression → mode = .expression)

instance (mode wider : SafeMode) : Decidable (mode.WidensTo wider) :=
  inferInstanceAs (Decidable (_ ∧ _))

namespace Lexeme

variable {escapes : Bool} {mode wider : SafeMode}

theorem Proper.widen {l : Lexeme} (h : l.Proper escapes mode) (hmode : mode.WidensTo wider) :
    l.Proper escapes wider := by
  cases l with
  | placeholder text => exact ⟨hmode.1 h.1, h.2⟩
  | _ => exact h

theorem depthAfter_widen {l : Lexeme} {depth next : Nat}
    (h : depthAfter mode depth l = .ok next) (hmode : mode.WidensTo wider) :
    depthAfter wider depth l = .ok next := by
  cases l with
  | mark b =>
    -- Only the test for a comma outside parentheses reads the mode.
    have hcomma (hb : b = Byte.comma ∧ depth = 0 ∧ wider = .expression) :
        b = Byte.comma ∧ depth = 0 ∧ mode = .expression := ⟨hb.1, hb.2.1, hmode.2 hb.2.2⟩
    unfold depthAfter at h ⊢
    grind
  | _ => exact h

theorem Accepted.widen {depth : Nat} {lexemes : List Lexeme}
    (h : Accepted escapes mode depth lexemes) (hmode : mode.WidensTo wider) :
    Accepted escapes wider depth lexemes := by
  induction h with
  | nil => exact .nil
  | cons hproper hleaves hdepth _ ih =>
    exact .cons (hproper.widen hmode) hleaves (depthAfter_widen hdepth hmode) ih

/-- A wider mode reads an accepted text as the same lexemes. -/
theorem readAll_widen {depth : Nat} {text : Bytes} {lexemes : List Lexeme}
    (h : readAll escapes mode depth text = .ok lexemes) (hmode : mode.WidensTo wider) :
    readAll escapes wider depth text = .ok lexemes := by
  obtain ⟨haccepted, hstop, hsources⟩ := readAll_eq_ok_iff.mp h
  exact readAll_eq_ok_iff.mpr ⟨haccepted.widen hmode, hstop, hsources⟩

end Lexeme

theorem fitText_widen {qualifier : Option String} {s : Settings} {mode wider : SafeMode}
    {text out : Bytes} (h : fitText qualifier s mode text = .ok out)
    (hmode : mode.WidensTo wider) : fitText qualifier s wider text = .ok out := by
  obtain ⟨lexemes, hread, hout⟩ := fitText_eq_ok_iff.mp h
  exact fitText_eq_ok_iff.mpr ⟨lexemes, Lexeme.readAll_widen hread hmode, hout⟩

/-- A wider mode makes the same of an accepted text. -/
theorem sanitize_widen {text out : String} {qualifier : Option String} {s : Settings}
    {mode wider : SafeMode} (h : sanitize text qualifier s mode = .ok out)
    (hmode : mode.WidensTo wider) : sanitize text qualifier s wider = .ok out :=
  sanitize_eq_ok_iff.mpr (fitText_widen (sanitize_eq_ok_iff.mp h) hmode)

/-- A text is refused iff the reader refuses it, and for the reader's reason. -/
theorem sanitize_eq_error_iff_readAll {text : String} {qualifier : Option String} {s : Settings}
    {mode : SafeMode} {e : Error} :
    sanitize text qualifier s mode = .error e ↔
      ∃ reason, Lexeme.readAll s.usesBackslashEscapes mode 0 (utf8 text) = .error reason ∧
        e = .unsafeText (utf8 text) reason := by
  rw [sanitize_eq_error_iff, fitText]
  cases Lexeme.readAll s.usesBackslashEscapes mode 0 (utf8 text) with
  | error reason => simp [eq_comm]
  | ok lexemes => simp

/-- Settings that agree on backslash escapes refuse the same texts, with the same error. -/
theorem sanitize_eq_error_congr {s s' : Settings}
    (hescapes : s.usesBackslashEscapes = s'.usesBackslashEscapes) (text : String)
    (qualifier qualifier' : Option String) (mode : SafeMode) (e : Error) :
    sanitize text qualifier s mode = .error e ↔ sanitize text qualifier' s' mode = .error e := by
  rw [sanitize_eq_error_iff_readAll, sanitize_eq_error_iff_readAll, hescapes]

theorem exists_eq_ok_iff {α : Type} {result : Except Error α} :
    (∃ a, result = .ok a) ↔ ¬ ∃ e, result = .error e := by
  cases result <;> simp

/-- A text that is accepted as an expression is accepted as a chunk, and one that is accepted as a
chunk inside rendered text, each time with the same result. Settings that agree on backslash escapes
accept the same texts in each mode, whatever the qualifiers, and refuse the others alike. -/
theorem sanitize_mono_of_escapes (text : String) :
    (∀ qualifier s out, sanitize text qualifier s .expression = .ok out →
      sanitize text qualifier s .chunk = .ok out) ∧
    (∀ qualifier s out, sanitize text qualifier s .chunk = .ok out →
      sanitize text qualifier s .nested = .ok out) ∧
    ∀ mode (s s' : Settings) (qualifier qualifier' : Option String),
      s.usesBackslashEscapes = s'.usesBackslashEscapes →
      ((∃ out, sanitize text qualifier s mode = .ok out) ↔
        ∃ out, sanitize text qualifier' s' mode = .ok out) ∧
      ∀ e, sanitize text qualifier s mode = .error e ↔
        sanitize text qualifier' s' mode = .error e := by
  refine ⟨fun _ _ _ h => sanitize_widen h (by decide), fun _ _ _ h => sanitize_widen h (by decide),
    fun mode s s' qualifier qualifier' hescapes => ?_⟩
  have hrefused := sanitize_eq_error_congr hescapes text qualifier qualifier' mode
  refine ⟨?_, hrefused⟩
  rw [exists_eq_ok_iff, exists_eq_ok_iff]
  exact not_congr (exists_congr hrefused)

/-- One comparison in two dialects, under a qualifier and without one. -/
theorem sanitize_mono_of_escapes_comparison :
    sanitize "Id = 'a'" (some "t") (Settings.ofDialect .postgres) .nested
      = .ok "\"t\".\"Id\" = 'a'" ∧
    ∃ out, sanitize "Id = 'a'" none (Settings.ofDialect .sqliteOnly) .expression = .ok out := by
  obtain ⟨hchunk, hnested, hpolicy⟩ := sanitize_mono_of_escapes "Id = 'a'"
  have hexpression : sanitize "Id = 'a'" (some "t") (Settings.ofDialect .postgres) .expression
      = .ok "\"t\".\"Id\" = 'a'" := by decide +kernel
  refine ⟨hnested _ _ _ (hchunk _ _ _ hexpression), ?_⟩
  exact (hpolicy .expression (Settings.ofDialect .postgres) (Settings.ofDialect .sqliteOnly)
    (some "t") none rfl).1.mp ⟨_, hexpression⟩

end SqlTemplate
