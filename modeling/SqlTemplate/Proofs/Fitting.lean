import SqlTemplate.Proofs.Edits
import SqlTemplate.Proofs.Lexemes
import SqlTemplate.Sanitize

/-!
# The text of fitted lexemes

What the edits of an accepted text make of it, written down lexeme by lexeme: `Lexeme.fitted` is
the text of one lexeme in the target dialect, and `Lexeme.fittedFrom` joins the texts. The only edit
that reaches beyond its lexeme is the one that closes up a call; it is accounted to the white space
it removes. `Buffer.sanitize_eq` says that checking and fitting the tail of a buffer is `fitText` on
the bytes of the tail, whatever stands before them.
-/

namespace SqlTemplate

/-! ### Rebuilding part by part -/

namespace Edit

theorem InOrder.append {length source middle : Nat} {first second : List Edit}
    (hfirst : InOrder middle source first) (hsecond : InOrder length middle second) :
    InOrder length source (first ++ second) := by
  induction first generalizing source with
  | nil =>
    cases second with
    | nil => exact Nat.le_trans hfirst hsecond
    | cons edit rest => exact ⟨Nat.le_trans hfirst hsecond.1, hsecond.2⟩
  | cons edit rest ih => exact ⟨hfirst.1, ih hfirst.2⟩

theorem rebuild_append {length source : Nat} {x y : Bytes} {first second : List Edit}
    (hfirst : InOrder (source + x.length) source first)
    (hsecond : InOrder length (source + x.length) second) :
    rebuild source (x ++ y) (first ++ second)
      = rebuild source x first ++ rebuild (source + x.length) y second := by
  induction first generalizing source x with
  | nil =>
    cases second with
    | nil => rfl
    | cons edit rest =>
      have hstart := hsecond.1
      have hkept : edit.start - source = x.length + (edit.start - (source + x.length)) := by omega
      simp only [List.nil_append, rebuild]
      rw [hkept, List.take_length_add_append, Nat.add_assoc, List.drop_length_add_append]
      simp only [List.append_assoc]
  | cons edit rest ih =>
    obtain ⟨hstart, hrest⟩ := hfirst
    have hend := hrest.source_le
    have hkept : edit.start - source ≤ x.length := by omega
    have hlen : edit.start + edit.removed
        + (x.drop (edit.start - source + edit.removed)).length = source + x.length := by
      rw [List.length_drop]
      omega
    have hih := @ih (edit.start + edit.removed) (x.drop (edit.start - source + edit.removed))
      (by rwa [hlen]) (by rwa [hlen])
    rw [hlen] at hih
    simp only [List.cons_append, rebuild]
    rw [List.take_append_of_le_length hkept, List.drop_append_of_le_length (by omega), hih]
    simp only [List.append_assoc]

end Edit

/-! ### The forms of a word -/

/-- How a word stands in the target dialect. -/
inductive WordForm where
  | bare
  /-- Bare, with the white space before its parenthesis removed. -/
  | called
  | quoted
  | qualified
deriving DecidableEq, Repr

namespace WordForm

def text (quote : UInt8) (lead name : Bytes) : WordForm → Bytes
  | .bare | .called => name
  | .quoted => quote :: name ++ [quote]
  | .qualified => lead ++ quote :: name ++ [quote]

/-- The edits of a word apart from closing it up. -/
def edits (quote : UInt8) (lead : Bytes) (start stop : Nat) : WordForm → List Edit
  | .bare | .called => []
  | .quoted => Lexeme.quoteEdits quote [] start stop
  | .qualified => Lexeme.quoteEdits quote lead start stop

theorem rebuild_quoteEdits (quote : UInt8) (lead name : Bytes) (start : Nat) :
    Edit.InOrder (start + name.length) start
        (Lexeme.quoteEdits quote lead start (start + name.length)) ∧
      Edit.rebuild start name (Lexeme.quoteEdits quote lead start (start + name.length))
        = lead ++ quote :: name ++ [quote] := by
  constructor
  · simp [Lexeme.quoteEdits, Edit.InOrder]
  · simp [Lexeme.quoteEdits, Edit.rebuild]

theorem rebuild_edits (form : WordForm) (quote : UInt8) (lead name : Bytes) (start : Nat) :
    Edit.InOrder (start + name.length) start
        (form.edits quote lead start (start + name.length)) ∧
      Edit.rebuild start name (form.edits quote lead start (start + name.length))
        = form.text quote lead name := by
  cases form with
  | bare | called => exact ⟨Nat.le_add_right _ _, rfl⟩
  | quoted => exact rebuild_quoteEdits quote [] name start
  | qualified => exact rebuild_quoteEdits quote lead name start

end WordForm

/-- What a backslash before an apostrophe becomes; all else in a string literal stays. -/
def StringPart.fitted (part : StringPart) : Bytes :=
  if part = .escaped Byte.apostrophe then [Byte.apostrophe, Byte.apostrophe] else part.source

namespace Lexeme

def wordForm (s : Settings) (afterAs afterDot : Bool) (name : Bytes) (following : List Lexeme) :
    WordForm :=
  if isAs name then .bare
  else if afterAs && !opensCall following then if s.alwaysQuote then .quoted else .bare
  else if afterDot || startsWithDot following then
    if s.alwaysQuote || !s.idents.allows name then .quoted else .bare
  else if s.idents.allows name then .bare
  else if opensCall following then if s.functions.allows name then .called else .quoted
  else .qualified

/-- A bare word is the keyword before an alias, an alias, or on the list of words. -/
theorem wordForm_eq_bare {s : Settings} {afterAs afterDot : Bool} {name : Bytes} {following : List Lexeme}
    (h : wordForm s afterAs afterDot name following = .bare) :
    isAs name = true ∨ (afterAs = true ∧ opensCall following = false) ∨
      s.idents.allows name = true := by
  unfold wordForm at h
  split at h
  · exact Or.inl ‹_›
  split at h
  · rename_i halias
    rw [Bool.and_eq_true, Bool.not_eq_true'] at halias
    exact Or.inr (Or.inl halias)
  split at h
  · split at h
    · cases h
    · rename_i hallows
      exact Or.inr (Or.inr (by simp_all))
  split at h
  · exact Or.inr (Or.inr ‹_›)
  split at h
  · split at h <;> cases h
  · cases h

theorem wordForm_eq_called {s : Settings} {afterAs afterDot : Bool} {name : Bytes} {following : List Lexeme}
    (h : wordForm s afterAs afterDot name following = .called) :
    s.functions.allows name = true ∧ opensCall following = true := by
  unfold wordForm at h
  split at h
  · cases h
  split at h
  · split at h <;> cases h
  split at h
  · split at h <;> cases h
  split at h
  · cases h
  split at h
  · rename_i hcall
    split at h
    · exact ⟨‹_›, hcall⟩
    · cases h
  · cases h

/-- Whether the white space after a lexeme is removed. -/
def closesUp (s : Settings) (afterAs afterDot : Bool) (following : List Lexeme) : Lexeme → Bool
  | .word name => wordForm s afterAs afterDot name following == .called
  | _ => false

/-- The text of a lexeme in the target dialect. -/
def fitted (s : Settings) (lead : Bytes) (afterAs afterDot : Bool) (following : List Lexeme) :
    Lexeme → Bytes
  | .word name => (wordForm s afterAs afterDot name following).text s.nameQuote lead name
  | .string parts => Byte.apostrophe :: parts.flatMap StringPart.fitted ++ [Byte.apostrophe]
  | .quotedName _ name => Name.enclose s.nameQuote name
  | .hexString letter digits =>
    if s.family = .mssql then utf8 "0x" ++ digits else (Lexeme.hexString letter digits).source
  | l => l.source

def isSpace : Lexeme → Bool
  | .space _ => true
  | _ => false

/-- The text of lexemes in the target dialect. `closing` says that white space at the front is
removed. -/
def fittedFrom (s : Settings) (lead : Bytes) (afterAs afterDot closing : Bool) :
    List Lexeme → Bytes
  | [] => []
  | l :: rest =>
    (if closing && l.isSpace then [] else l.fitted s lead afterAs afterDot rest) ++
      fittedFrom s lead (l.expectsAlias afterAs) (l == .mark Byte.dot)
        (l.closesUp s afterAs afterDot rest) rest

/-! ### Edits of one lexeme -/

/-- Removes the white space at the front of the lexemes from position `start` on, if asked to. -/
def closingEdits (closing : Bool) (start : Nat) (lexemes : List Lexeme) : List Edit :=
  if closing && (leadingSpace lexemes).length ≠ 0 then
    [⟨start, (leadingSpace lexemes).length, []⟩]
  else []

theorem wordEdits_eq (s : Settings) (lead : Bytes) (afterAs afterDot : Bool) (start : Nat)
    (name : Bytes) (following : List Lexeme) :
    wordEdits s lead afterAs afterDot start name following
      = (wordForm s afterAs afterDot name following).edits s.nameQuote lead start
            (start + name.length) ++
          closingEdits (wordForm s afterAs afterDot name following == .called)
            (start + name.length) following := by
  simp only [wordEdits, wordForm]
  split
  · rfl
  split
  · split <;> rfl
  split
  · split <;> rfl
  split
  · rfl
  split
  · split
    · by_cases hgap : (leadingSpace following).length = 0 <;>
        simp [hgap, closingEdits, WordForm.edits]
    · rfl
  · exact (List.append_nil _).symm

/-- The edits of a lexeme within its own text. -/
def ownEdits (s : Settings) (lead : Bytes) (afterAs afterDot : Bool) (start : Nat)
    (following : List Lexeme) : Lexeme → List Edit
  | .word name =>
    (wordForm s afterAs afterDot name following).edits s.nameQuote lead start (start + name.length)
  | l => l.edits s lead afterAs afterDot start following

theorem edits_eq (s : Settings) (lead : Bytes) (afterAs afterDot : Bool) (start : Nat)
    (following : List Lexeme) (l : Lexeme) :
    l.edits s lead afterAs afterDot start following
      = l.ownEdits s lead afterAs afterDot start following ++
          closingEdits (l.closesUp s afterAs afterDot following) (start + l.source.length)
            following := by
  cases l with
  | word name => exact wordEdits_eq s lead afterAs afterDot start name following
  | _ => exact (List.append_nil _).symm

theorem rebuild_stringEdits (start : Nat) (parts : List StringPart) :
    Edit.InOrder (start + (parts.flatMap StringPart.source).length) start
        (stringEdits start parts) ∧
      Edit.rebuild start (parts.flatMap StringPart.source) (stringEdits start parts)
        = parts.flatMap StringPart.fitted := by
  induction parts generalizing start with
  | nil => exact ⟨Nat.le_refl _, rfl⟩
  | cons part rest ih =>
    obtain ⟨horder, hrebuild⟩ := ih (start + part.source.length)
    rw [Nat.add_assoc, ← List.length_append] at horder
    by_cases hpart : part = .escaped Byte.apostrophe
    · have hedits : stringEdits start (part :: rest)
          = [⟨start, 2, [Byte.apostrophe, Byte.apostrophe]⟩] ++
              stringEdits (start + part.source.length) rest := by
        rw [stringEdits, if_pos hpart]
        rfl
      have hown : Edit.InOrder (start + part.source.length) start
          [⟨start, 2, [Byte.apostrophe, Byte.apostrophe]⟩] := by
        subst hpart
        exact ⟨Nat.le_refl _, Nat.le_refl _⟩
      rw [List.flatMap_cons, List.flatMap_cons, hedits]
      refine ⟨hown.append horder, ?_⟩
      rw [Edit.rebuild_append hown horder, hrebuild]
      subst hpart
      simp [Edit.rebuild, StringPart.fitted, StringPart.source]
    · have hedits : stringEdits start (part :: rest)
          = [] ++ stringEdits (start + part.source.length) rest := by
        rw [stringEdits, if_neg hpart]
        rfl
      have hown : Edit.InOrder (start + part.source.length) start [] := Nat.le_add_right _ _
      rw [List.flatMap_cons, List.flatMap_cons, hedits]
      refine ⟨hown.append horder, ?_⟩
      rw [Edit.rebuild_append hown horder, hrebuild, StringPart.fitted, if_neg hpart]
      rfl

theorem rebuild_ownEdits (s : Settings) (lead : Bytes) (afterAs afterDot : Bool) (start : Nat)
    (following : List Lexeme) (l : Lexeme) :
    Edit.InOrder (start + l.source.length) start
        (l.ownEdits s lead afterAs afterDot start following) ∧
      Edit.rebuild start l.source (l.ownEdits s lead afterAs afterDot start following)
        = l.fitted s lead afterAs afterDot following := by
  cases l with
  | word name => exact WordForm.rebuild_edits _ _ _ _ _
  | string parts =>
    obtain ⟨horder, hrebuild⟩ := rebuild_stringEdits (start + 1) parts
    have hopen : Edit.InOrder (start + [Byte.apostrophe].length) start [] := Nat.le_add_right _ _
    have hclose : Edit.InOrder
        (start + 1 + (parts.flatMap StringPart.source).length + [Byte.apostrophe].length)
        (start + 1 + (parts.flatMap StringPart.source).length) [] := Nat.le_add_right _ _
    have hedits : (Lexeme.string parts).ownEdits s lead afterAs afterDot start following
        = [] ++ (stringEdits (start + 1) parts ++ []) := (List.append_nil _).symm
    have hsource : (Lexeme.string parts).source
        = [Byte.apostrophe] ++ (parts.flatMap StringPart.source ++ [Byte.apostrophe]) := rfl
    have hend : start + (Lexeme.string parts).source.length
        = start + 1 + (parts.flatMap StringPart.source).length + [Byte.apostrophe].length := by
      rw [hsource, List.length_append, List.length_append]
      simp only [List.length_singleton]
      omega
    rw [hend, hedits]
    refine ⟨hopen.append (horder.append hclose), ?_⟩
    rw [hsource, Edit.rebuild_append hopen (horder.append hclose), List.length_singleton,
      Edit.rebuild_append horder hclose]
    exact congrArg (fun body => [Byte.apostrophe] ++ (body ++ [Byte.apostrophe])) hrebuild
  | quotedName quote name =>
    by_cases hquote : quote = s.nameQuote
    · simp only [ownEdits, edits, hquote, if_true]
      exact ⟨Nat.le_add_right _ _, rfl⟩
    · simp [ownEdits, edits, hquote, Edit.InOrder, Edit.rebuild, fitted]
  | hexString letter digits =>
    by_cases hfamily : s.family = .mssql
    · simp [ownEdits, edits, hfamily, Edit.InOrder, Edit.rebuild, fitted]
    · simp only [ownEdits, edits, fitted, if_neg hfamily]
      exact ⟨Nat.le_add_right _ _, rfl⟩
  | _ => exact ⟨Nat.le_add_right _ _, rfl⟩

/-! ### Edits of a whole text -/

theorem closingEdits_cons_of_not_isSpace {closing : Bool} {start : Nat} {l : Lexeme}
    {rest : List Lexeme} (h : l.isSpace = false) : closingEdits closing start (l :: rest) = [] := by
  cases l with
  | space run => cases h
  | _ => simp [closingEdits, leadingSpace]

theorem closingEdits_false (start : Nat) (lexemes : List Lexeme) :
    closingEdits false start lexemes = [] := rfl

/-- The edits of lexemes are in order, and rebuilding with them gives the fitted text. -/
theorem rebuild_editsFrom (s : Settings) (lead : Bytes) (afterAs afterDot closing : Bool)
    (start : Nat) (lexemes : List Lexeme) :
    Edit.InOrder (start + (sources lexemes).length) start
        (closingEdits closing start lexemes ++
          editsFrom s lead afterAs afterDot start lexemes) ∧
      Edit.rebuild start (sources lexemes)
          (closingEdits closing start lexemes ++ editsFrom s lead afterAs afterDot start lexemes)
        = fittedFrom s lead afterAs afterDot closing lexemes := by
  induction lexemes generalizing afterAs afterDot closing start with
  | nil =>
    have hnone : closingEdits closing start [] = [] := by simp [closingEdits, leadingSpace]
    rw [hnone]
    exact ⟨Nat.le_refl _, rfl⟩
  | cons l rest ih =>
    obtain ⟨horder, hrebuild⟩ := ih (l.expectsAlias afterAs) (l == .mark Byte.dot)
      (l.closesUp s afterAs afterDot rest) (start + l.source.length)
    rw [Nat.add_assoc, ← List.length_append] at horder
    by_cases hremoved : closing = true ∧ l.isSpace = true
    · obtain ⟨rfl, hspace⟩ := hremoved
      cases l with
      | space run =>
        have hgap : Edit.InOrder (start + run.length) start
            (closingEdits true start (.space run :: rest)) := by
          by_cases hrun : run = []
          · simp [closingEdits, leadingSpace, hrun, Edit.InOrder]
          · simp [closingEdits, leadingSpace, hrun, Edit.InOrder]
        have hnothing : Edit.rebuild start run (closingEdits true start (.space run :: rest))
            = [] := by
          by_cases hrun : run = []
          · simp [closingEdits, leadingSpace, hrun, Edit.rebuild]
          · simp [closingEdits, leadingSpace, hrun, Edit.rebuild]
        refine ⟨hgap.append horder, ?_⟩
        apply (Edit.rebuild_append hgap horder).trans
        rw [hnothing]
        exact hrebuild
      | _ => cases hspace
    · have hnone : closingEdits closing start (l :: rest) = [] := by
        cases closing with
        | false => rfl
        | true => exact closingEdits_cons_of_not_isSpace (by simpa using hremoved)
      have hkept : (closing && l.isSpace) = false := by
        rwa [← Bool.and_eq_true, Bool.not_eq_true] at hremoved
      obtain ⟨hown, hownRebuild⟩ := rebuild_ownEdits s lead afterAs afterDot start rest l
      rw [hnone, editsFrom, edits_eq, List.nil_append, List.append_assoc]
      refine ⟨hown.append horder, ?_⟩
      apply (Edit.rebuild_append hown horder).trans
      rw [fittedFrom, hkept, hownRebuild]
      exact congrArg (l.fitted s lead afterAs afterDot rest ++ ·) hrebuild

/-- The edits of a text that is read keep within it. -/
theorem rebuild_of_readAll {escapes : Bool} {mode : SafeMode} {depth : Nat} {text : Bytes}
    {lexemes : List Lexeme} (hread : readAll escapes mode depth text = .ok lexemes) (s : Settings)
    (lead : Bytes) :
    Edit.InOrder text.length 0 (editsFrom s lead false false 0 lexemes) ∧
      Edit.rebuild 0 text (editsFrom s lead false false 0 lexemes)
        = fittedFrom s lead false false false lexemes := by
  have hedits := rebuild_editsFrom s lead false false false 0 lexemes
  rwa [closingEdits_false, List.nil_append, (readAll_ok hread).2, Nat.zero_add] at hedits

end Lexeme

/-! ### Checking and fitting a text -/

/-- The bytes of a text that is checked and fitted on its own. -/
def fitText (qualifier : Option String) (s : Settings) (mode : SafeMode) (text : Bytes) :
    Except Error Bytes :=
  match Lexeme.readAll s.usesBackslashEscapes mode 0 text with
  | .error reason => .error (.unsafeText text reason)
  | .ok lexemes =>
    .ok (Lexeme.fittedFrom s (Name.lead s.nameQuote qualifier) false false false lexemes)

theorem fitText_eq_ok_iff {qualifier : Option String} {s : Settings} {mode : SafeMode}
    {text out : Bytes} :
    fitText qualifier s mode text = .ok out ↔
      ∃ lexemes, Lexeme.readAll s.usesBackslashEscapes mode 0 text = .ok lexemes ∧
        out = Lexeme.fittedFrom s (Name.lead s.nameQuote qualifier) false false false lexemes := by
  unfold fitText
  cases hread : Lexeme.readAll s.usesBackslashEscapes mode 0 text with
  | error reason => simp
  | ok lexemes => simp [eq_comm]

theorem fitText_ok {qualifier : Option String} {s : Settings} {mode : SafeMode}
    {text out : Bytes} (h : fitText qualifier s mode text = .ok out) :
    ∃ lexemes, Lexeme.Accepted s.usesBackslashEscapes mode 0 lexemes ∧
      Lexeme.sources lexemes = text ∧
      out = Lexeme.fittedFrom s (Name.lead s.nameQuote qualifier) false false false lexemes := by
  obtain ⟨lexemes, hread, hout⟩ := fitText_eq_ok_iff.mp h
  obtain ⟨haccepted, hsources⟩ := Lexeme.readAll_ok hread
  exact ⟨lexemes, haccepted, hsources, hout⟩

namespace Buffer

/-- Checking and fitting the tail of a buffer does to its bytes what it does to them alone, and
leaves what stands before. -/
theorem sanitize_eq {b : Buffer} {start : Nat} (hstart : start ≤ b.size)
    (qualifier : Option String) (s : Settings) (mode : SafeMode) :
    match fitText qualifier s mode (b.tail start) with
    | .ok bytes => ∃ fitted, b.sanitize start qualifier s mode = .ok fitted ∧
        fitted.toList = b.toList.take start ++ bytes
    | .error e => b.sanitize start qualifier s mode = .error e := by
  unfold fitText sanitize
  dsimp only
  cases hread : Lexeme.readAll s.usesBackslashEscapes mode 0 (b.tail start) with
  | error reason => rfl
  | ok lexemes =>
    obtain ⟨horder, hrebuild⟩ :=
      Lexeme.rebuild_of_readAll hread s (Name.lead s.nameQuote qualifier)
    rw [length_tail] at horder
    dsimp only
    split
    · rename_i hnone
      refine ⟨b, rfl, ?_⟩
      rw [← hrebuild, hnone, Edit.rebuild, tail, List.take_append_drop]
    · refine ⟨_, rfl, ?_⟩
      rw [toList_edit hstart horder, hrebuild]

end Buffer

/-- A buffer that is read as a text holds the bytes of that text. -/
theorem Buffer.utf8_of_toText {b : Buffer} {text : String} (h : b.toText = .ok text) :
    utf8 text = b.toList := by
  unfold Buffer.toText at h
  split at h
  · rename_i valid hvalid
    cases h
    unfold String.fromUTF8? at hvalid
    split at hvalid
    · cases hvalid
      rfl
    · cases hvalid
  · cases h

theorem fitText_of_sanitize {text out : String} {qualifier : Option String} {s : Settings}
    {mode : SafeMode} (h : sanitize text qualifier s mode = .ok out) :
    fitText qualifier s mode (utf8 text) = .ok (utf8 out) := by
  obtain ⟨fitted, hfitted, htext⟩ := bind_eq_ok h
  have hspec := Buffer.sanitize_eq (b := Buffer.ofText text) (Nat.zero_le _) qualifier s mode
  change match fitText qualifier s mode (utf8 text) with
    | .ok bytes => _
    | .error e => _ at hspec
  cases hfit : fitText qualifier s mode (utf8 text) with
  | error e =>
    rw [hfit] at hspec
    rw [hfitted] at hspec
    cases hspec
  | ok bytes =>
    rw [hfit] at hspec
    obtain ⟨b, hb, hbytes⟩ := hspec
    rw [hfitted] at hb
    cases hb
    rw [Buffer.utf8_of_toText htext, hbytes]
    rfl

end SqlTemplate
