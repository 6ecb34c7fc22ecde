import Mathlib.Data.List.DropRight
import SqlTemplate.Name
import SqlTemplate.Settings

/-!
# How a server reads a statement

The part of a server's lexer that decides what a byte of a statement belongs to: a string literal
between apostrophes, an identifier between the quotes of the dialect, or neither. It is an automaton
over the bytes of the text. A quote inside its own enclosure is written twice; the automaton leaves
the enclosure at the first of the two and enters it again at the second, which `Region.literalEnd`
and `Region.nameEnd` tell from a new one.
-/

namespace SqlTemplate

/-- What a server needs to know to tell literals and identifiers from the rest. -/
structure Reader where
  /-- A backslash in a string literal takes the next byte with it. -/
  escapes : Bool
  /-- The quote of identifiers. -/
  quote : UInt8
  quote_eq : quote = Byte.doubleQuote ∨ quote = Byte.backtick

/-- What the byte just read belongs to. -/
inductive Region where
  | code
  | literal
  /-- In a string literal, after a backslash. -/
  | escape
  /-- After an apostrophe in a string literal, which closes it unless another one follows. -/
  | literalEnd
  | name
  /-- After a quote in an identifier, which closes it unless another one follows. -/
  | nameEnd
deriving DecidableEq, Repr

/-- How the server of a dialect reads. -/
def Settings.reader (s : Settings) : Reader where
  escapes := s.usesBackslashEscapes
  quote := s.nameQuote
  quote_eq := by
    unfold Settings.nameQuote Family.nameQuote
    split
    · exact Or.inr rfl
    · exact Or.inl rfl

/-- The two bytes that start a comment. -/
def OpensComment (a b : UInt8) : Prop :=
  (a = Byte.minus ∧ b = Byte.minus) ∨ (a = Byte.slash ∧ b = Byte.star)

instance (a b : UInt8) : Decidable (OpensComment a b) := inferInstanceAs (Decidable (_ ∨ _))

namespace Region

/-- No literal and no identifier is open. -/
def isOutside : Region → Bool
  | .code | .literalEnd | .nameEnd => true
  | _ => false

variable (rd : Reader)

/-- The region of a byte that follows the end of an enclosure or none. -/
def enter (b : UInt8) : Region :=
  if b = Byte.apostrophe then .literal else if b = rd.quote then .name else .code

/-- The region of the next byte. -/
def step : Region → UInt8 → Region
  | .code, b => enter rd b
  | .literal, b =>
    if b = Byte.apostrophe then .literalEnd
    else if b = Byte.backslash ∧ rd.escapes = true then .escape
    else .literal
  | .escape, _ => .literal
  | .literalEnd, b => if b = Byte.apostrophe then .literal else enter rd b
  | .name, b => if b = rd.quote then .nameEnd else .name
  | .nameEnd, b => if b = rd.quote then .name else enter rd b

/-- The region at the end of a text. -/
def after (r : Region) (text : Bytes) : Region := text.foldl (step rd) r

/-- The bytes of a text outside string literals and quoted identifiers. -/
def codeBytes : Region → Bytes → Bytes
  | _, [] => []
  | r, b :: rest =>
    if step rd r b = .code then b :: codeBytes (step rd r b) rest else codeBytes (step rd r b) rest

/-- A comment starts in a text outside string literals and quoted identifiers. -/
def HasComment (r : Region) (text : Bytes) : Prop :=
  ∃ x a b y, text = x ++ a :: b :: y ∧ OpensComment a b ∧
    after rd r (x ++ [a]) = .code ∧ after rd r (x ++ [a, b]) = .code

variable {rd}

/-! ### One byte -/

theorem quote_ne_apostrophe : rd.quote ≠ Byte.apostrophe := by
  rcases rd.quote_eq with h | h <;> rw [h] <;> decide

theorem step_of_isOutside {r : Region} (h : r.isOutside = true) (b : UInt8) :
    step rd r b = enter rd b := by
  cases r with
  | code => rfl
  | literalEnd =>
    simp only [step, enter]
    split <;> rfl
  | nameEnd =>
    have hne : rd.quote ≠ Byte.apostrophe := quote_ne_apostrophe
    simp only [step, enter]
    split
    · rename_i hb
      rw [if_neg (hb ▸ hne)]
    · rfl
  | literal | escape | name => cases h

theorem step_apostrophe {r : Region} (h : r.isOutside = true) :
    step rd r Byte.apostrophe = .literal := by
  rw [step_of_isOutside h, enter, if_pos rfl]

theorem step_quote {r : Region} (h : r.isOutside = true) : step rd r rd.quote = .name := by
  rw [step_of_isOutside h, enter, if_neg quote_ne_apostrophe, if_pos rfl]

theorem enter_eq_code {b : UInt8} :
    enter rd b = .code ↔ b ≠ Byte.apostrophe ∧ b ≠ rd.quote := by
  simp only [enter]
  split
  · simp [*]
  · split <;> simp [*]

/-! ### Texts -/

@[simp] theorem after_nil (r : Region) : after rd r [] = r := rfl

@[simp] theorem after_cons (r : Region) (b : UInt8) (text : Bytes) :
    after rd r (b :: text) = after rd (step rd r b) text := rfl

theorem after_append (r : Region) (x y : Bytes) :
    after rd r (x ++ y) = after rd (after rd r x) y := List.foldl_append

theorem codeBytes_append (r : Region) (x y : Bytes) :
    codeBytes rd r (x ++ y) = codeBytes rd r x ++ codeBytes rd (after rd r x) y := by
  induction x generalizing r with
  | nil => rfl
  | cons b rest ih =>
    simp only [List.cons_append, codeBytes, after_cons, ih]
    split <;> rfl

/-- The last byte of a text after which no enclosure is open tells how it was closed. -/
theorem isOutside_concat {r : Region} {text : Bytes} {b : UInt8}
    (h : (after rd r (text ++ [b])).isOutside = true) :
    after rd r (text ++ [b]) = .code ∨ b = Byte.apostrophe ∨ b = rd.quote := by
  rw [after_append, after_cons, after_nil] at h ⊢
  by_cases hout : (after rd r text).isOutside = true
  · rw [step_of_isOutside hout, enter_eq_code]
    by_cases hb : b = Byte.apostrophe
    · exact Or.inr (Or.inl hb)
    · by_cases hq : b = rd.quote
      · exact Or.inr (Or.inr hq)
      · exact Or.inl ⟨hb, hq⟩
  · cases hr : after rd r text with
    | code | literalEnd | nameEnd => simp [hr, isOutside] at hout
    | literal =>
      rw [hr] at h
      simp only [step] at h
      split at h
      · rename_i hb
        exact Or.inr (Or.inl hb)
      · split at h <;> cases h
    | escape =>
      rw [hr] at h
      cases h
    | name =>
      rw [hr] at h
      simp only [step] at h
      split at h
      · rename_i hb
        exact Or.inr (Or.inr hb)
      · cases h

/-! ### Comments at a seam -/

theorem hasComment_append {r : Region} {x y : Bytes} :
    HasComment rd r (x ++ y) ↔ HasComment rd r x ∨ HasComment rd (after rd r x) y ∨
      ∃ a b, x.getLast? = some a ∧ y.head? = some b ∧ OpensComment a b ∧
        after rd r x = .code ∧ step rd (after rd r x) b = .code := by
  constructor
  · rintro ⟨u, a, b, v, htext, hopens, ha, hb⟩
    rcases List.append_eq_append_iff.mp htext with ⟨w, rfl, hy⟩ | ⟨w, rfl, hw⟩
    · rw [List.append_assoc, after_append] at ha hb
      exact Or.inr (Or.inl ⟨w, a, b, v, hy, hopens, ha, hb⟩)
    · cases w with
      | nil =>
        rw [List.append_nil]
        refine Or.inr (Or.inl ⟨[], a, b, v, hw.symm, hopens, ?_, ?_⟩)
        · rwa [after_append] at ha
        · rwa [after_append] at hb
      | cons c w =>
        rw [List.cons_append, List.cons.injEq] at hw
        obtain ⟨rfl, hw⟩ := hw
        cases w with
        | nil =>
          have hsplit : u ++ [a, b] = (u ++ [a]) ++ [b] := by simp
          rw [hsplit, after_append] at hb
          exact Or.inr (Or.inr ⟨a, b, by simp, by rw [← List.nil_append y, ← hw]; rfl, hopens, ha,
            hb⟩)
        | cons d w =>
          rw [List.cons_append, List.cons.injEq] at hw
          obtain ⟨rfl, hw⟩ := hw
          exact Or.inl ⟨u, a, b, w, rfl, hopens, ha, hb⟩
  · rintro (⟨u, a, b, v, rfl, hopens, ha, hb⟩ | ⟨u, a, b, v, rfl, hopens, ha, hb⟩ |
      ⟨a, b, hlast, hhead, hopens, hcode, hstep⟩)
    · exact ⟨u, a, b, v ++ y, by simp, hopens, ha, hb⟩
    · refine ⟨x ++ u, a, b, v, by simp, hopens, ?_, ?_⟩
      · rw [List.append_assoc, after_append, ha]
      · rw [List.append_assoc, after_append, hb]
    · obtain ⟨u, rfl⟩ := List.getLast?_eq_some_iff.mp hlast
      cases y with
      | nil => cases hhead
      | cons c v =>
        obtain rfl : c = b := by simpa using hhead
        refine ⟨u, a, c, v, by simp, hopens, hcode, ?_⟩
        have hsplit : u ++ [a, c] = (u ++ [a]) ++ [c] := by simp
        rw [hsplit, after_append]
        exact hstep

theorem not_hasComment_nil (r : Region) : ¬ HasComment rd r [] := by
  rintro ⟨x, a, b, y, htext, -⟩
  simp at htext

theorem not_hasComment_singleton (r : Region) (b : UInt8) : ¬ HasComment rd r [b] := by
  rintro ⟨x, a, c, y, htext, -⟩
  have hlength := congrArg List.length htext
  simp only [List.length_append, List.length_cons, List.length_nil] at hlength
  omega

/-- A text whose neighbouring bytes start no comment has none in any region. -/
theorem not_hasComment_of_infix {r : Region} {text : Bytes}
    (h : ∀ x a b y, text = x ++ a :: b :: y → ¬ OpensComment a b) : ¬ HasComment rd r text := by
  rintro ⟨x, a, b, y, htext, hopens, -⟩
  exact h x a b y htext hopens

theorem mem_codeBytes_of_after {r : Region} {x y : Bytes} {b : UInt8}
    (h : after rd r (x ++ [b]) = .code) : b ∈ codeBytes rd r (x ++ b :: y) := by
  rw [codeBytes_append]
  apply List.mem_append_right
  rw [after_append, after_cons, after_nil] at h
  rw [codeBytes, if_pos h]
  exact List.mem_cons_self

/-- The first byte of a comment is a minus or a slash. -/
theorem not_hasComment_of_codeBytes {r : Region} {text : Bytes}
    (h : ∀ b ∈ codeBytes rd r text, b ≠ Byte.minus ∧ b ≠ Byte.slash) :
    ¬ HasComment rd r text := by
  rintro ⟨x, a, b, y, rfl, hopens, ha, -⟩
  have hmem := h a (mem_codeBytes_of_after ha)
  rcases hopens with ⟨rfl, -⟩ | ⟨rfl, -⟩
  · exact hmem.1 rfl
  · exact hmem.2 rfl

/-! ### Texts that open and close their enclosures

`Reads rd text code` says of a text that, read where no enclosure is open, it leaves none open, and
that `code` is what stands in it outside literals and identifiers. -/

structure Reads (rd : Reader) (text code : Bytes) : Prop where
  ends : ∀ r : Region, r.isOutside = true → (after rd r text).isOutside = true
  code_eq : ∀ r : Region, r.isOutside = true → codeBytes rd r text = code

theorem Reads.nil : Reads rd [] [] := ⟨fun _ h => h, fun _ _ => rfl⟩

theorem Reads.append {x y c d : Bytes} (hx : Reads rd x c) (hy : Reads rd y d) :
    Reads rd (x ++ y) (c ++ d) where
  ends r hr := by
    rw [after_append]
    exact hy.ends _ (hx.ends r hr)
  code_eq r hr := by rw [codeBytes_append, hx.code_eq r hr, hy.code_eq _ (hx.ends r hr)]

/-- A text without quotes stays outside. -/
theorem after_plain {r : Region} (hr : r.isOutside = true) {text : Bytes} (hne : text ≠ [])
    (h : ∀ b ∈ text, b ≠ Byte.apostrophe ∧ b ≠ rd.quote) : after rd r text = .code := by
  induction text generalizing r with
  | nil => exact absurd rfl hne
  | cons b rest ih =>
    obtain ⟨hb, hrest⟩ := List.forall_mem_cons.mp h
    rw [after_cons, step_of_isOutside hr, enter_eq_code.mpr hb]
    cases rest with
    | nil => rfl
    | cons c rest => exact ih rfl (List.cons_ne_nil c rest) hrest

theorem Reads.plain {text : Bytes} (h : ∀ b ∈ text, b ≠ Byte.apostrophe ∧ b ≠ rd.quote) :
    Reads rd text text where
  ends r hr := by
    by_cases hne : text = []
    · rw [hne]
      exact hr
    · rw [after_plain hr hne h]
      rfl
  code_eq r hr := by
    induction text generalizing r with
    | nil => rfl
    | cons b rest ih =>
      obtain ⟨hb, hrest⟩ := List.forall_mem_cons.mp h
      rw [codeBytes, step_of_isOutside hr, enter_eq_code.mpr hb, if_pos rfl, ih hrest _ rfl]

/-- A text that begins and ends inside the same enclosure. -/
structure Inside (rd : Reader) (r : Region) (text : Bytes) : Prop where
  after_eq : after rd r text = r
  code_eq : codeBytes rd r text = []

theorem Inside.nil (r : Region) : Inside rd r [] := ⟨rfl, rfl⟩

theorem Inside.append {r : Region} {x y : Bytes} (hx : Inside rd r x) (hy : Inside rd r y) :
    Inside rd r (x ++ y) where
  after_eq := by rw [after_append, hx.after_eq, hy.after_eq]
  code_eq := by rw [codeBytes_append, hx.code_eq, hx.after_eq, hy.code_eq]; rfl

theorem Inside.flatMap {α : Type} {r : Region} {f : α → Bytes} {items : List α}
    (h : ∀ item ∈ items, Inside rd r (f item)) : Inside rd r (items.flatMap f) := by
  induction items with
  | nil => exact Inside.nil r
  | cons item rest ih =>
    obtain ⟨hitem, hrest⟩ := List.forall_mem_cons.mp h
    rw [List.flatMap_cons]
    exact hitem.append (ih hrest)

theorem Inside.byte {r : Region} {b : UInt8} (h : step rd r b = r) (hr : r ≠ .code) :
    Inside rd r [b] := by
  refine ⟨h, ?_⟩
  rw [codeBytes, h, if_neg hr]
  rfl

theorem Inside.pair {r : Region} (mid : Region) {b c : UInt8} (h : step rd r b = mid)
    (h' : step rd mid c = r) (hr : r ≠ .code) (hmid : mid ≠ .code) : Inside rd r [b, c] := by
  refine ⟨by simp [h, h'], ?_⟩
  simp [codeBytes, h, h', hr, hmid]

theorem inside_literal_apostrophes : Inside rd .literal [Byte.apostrophe, Byte.apostrophe] :=
  .pair .literalEnd rfl rfl nofun nofun

theorem inside_literal_escaped (h : rd.escapes = true) (b : UInt8) :
    Inside rd .literal [Byte.backslash, b] := by
  refine .pair .escape ?_ rfl nofun nofun
  have hne : Byte.backslash ≠ Byte.apostrophe := by decide
  simp [step, hne, h]

theorem inside_literal_byte {b : UInt8} (hb : b ≠ Byte.apostrophe)
    (hescape : b = Byte.backslash → rd.escapes = false) : Inside rd .literal [b] := by
  refine .byte ?_ nofun
  simp only [step, if_neg hb]
  rw [if_neg]
  rintro ⟨rfl, h⟩
  simp [hescape rfl] at h

theorem inside_literal {text : Bytes} (h : ∀ b ∈ text, b ≠ Byte.apostrophe ∧ b ≠ Byte.backslash) :
    Inside rd .literal text := by
  induction text with
  | nil => exact Inside.nil _
  | cons b rest ih =>
    obtain ⟨hb, hrest⟩ := List.forall_mem_cons.mp h
    exact (inside_literal_byte hb.1 fun heq => absurd heq hb.2).append (ih hrest)

theorem inside_name (segment : Bytes) : Inside rd .name (doubled rd.quote segment) := by
  induction segment with
  | nil => exact Inside.nil _
  | cons b rest ih =>
    by_cases hb : b = rd.quote
    · rw [doubled, if_pos hb, hb]
      have hpair : Inside rd .name [rd.quote, rd.quote] :=
        .pair .nameEnd (by simp [step]) (by simp [step]) nofun nofun
      exact hpair.append ih
    · rw [doubled, if_neg hb]
      have hbyte : Inside rd .name [b] := .byte (by simp [step, hb]) nofun
      exact hbyte.append ih

theorem reads_literal {body : Bytes} (h : Inside rd .literal body) :
    Reads rd (Byte.apostrophe :: body ++ [Byte.apostrophe]) [] where
  ends r hr := by
    rw [List.cons_append, after_cons, step_apostrophe hr, after_append, h.after_eq]
    rfl
  code_eq r hr := by
    rw [List.cons_append, codeBytes, step_apostrophe hr, if_neg nofun, codeBytes_append, h.code_eq,
      h.after_eq]
    rfl

theorem reads_enclose (rd : Reader) (segment : Bytes) :
    Reads rd (Name.enclose rd.quote segment) [] where
  ends r hr := by
    rw [Name.enclose, List.cons_append, after_cons, step_quote hr, after_append,
      (inside_name segment).after_eq]
    simp [step, isOutside]
  code_eq r hr := by
    rw [Name.enclose, List.cons_append, codeBytes, step_quote hr, if_neg nofun, codeBytes_append,
      (inside_name segment).code_eq, (inside_name segment).after_eq]
    simp [codeBytes, step]

/-! ### Names -/

theorem reads_writeSegment (rd : Reader) (segment : Bytes) :
    ∃ code, Reads rd (Name.writeSegment rd.quote segment) code ∧ ∀ b ∈ code, b = Byte.star := by
  unfold Name.writeSegment
  split
  · rename_i hstar
    refine ⟨segment, Reads.plain ?_, by simp [hstar]⟩
    rw [hstar]
    intro b hb
    obtain rfl := List.mem_singleton.mp hb
    refine ⟨by decide, ?_⟩
    rcases rd.quote_eq with h | h <;> rw [h] <;> decide
  · exact ⟨[], reads_enclose rd segment, List.forall_mem_nil _⟩

theorem reads_dot : Reads rd [Byte.dot] [Byte.dot] := by
  apply Reads.plain
  intro b hb
  obtain rfl := List.mem_singleton.mp hb
  refine ⟨by decide, ?_⟩
  rcases rd.quote_eq with h | h <;> rw [h] <;> decide

theorem reads_intercalate {sep sepCode : Bytes} {P : UInt8 → Prop} (hsep : Reads rd sep sepCode)
    (hsepCode : ∀ b ∈ sepCode, P b) {items : List Bytes}
    (h : ∀ item ∈ items, ∃ code, Reads rd item code ∧ ∀ b ∈ code, P b) :
    ∃ code, Reads rd (sep.intercalate items) code ∧ ∀ b ∈ code, P b := by
  induction items with
  | nil => exact ⟨[], Reads.nil, List.forall_mem_nil _⟩
  | cons item rest ih =>
    obtain ⟨⟨code, hitem, hcode⟩, hrest⟩ := List.forall_mem_cons.mp h
    cases rest with
    | nil =>
      refine ⟨code, ?_, hcode⟩
      simpa [List.intercalate] using hitem
    | cons next rest =>
      obtain ⟨codes, hcodes, hall⟩ := ih hrest
      refine ⟨code ++ (sepCode ++ codes), ?_, ?_⟩
      · rw [List.intercalate_cons_cons, List.append_assoc]
        exact hitem.append (hsep.append hcodes)
      · simp only [List.forall_mem_append]
        exact ⟨hcode, hsepCode, hall⟩

/-- Outside quotes a written name consists of dots and stars. -/
theorem reads_writeDotted (rd : Reader) (name : String) :
    ∃ code, Reads rd (Name.writeDotted rd.quote name) code ∧
      ∀ b ∈ code, b = Byte.dot ∨ b = Byte.star := by
  apply reads_intercalate reads_dot (by simp)
  intro item hitem
  obtain ⟨segment, -, rfl⟩ := List.mem_map.mp hitem
  obtain ⟨code, hread, hcode⟩ := reads_writeSegment rd segment
  exact ⟨code, hread, fun b hb => Or.inr (hcode b hb)⟩

theorem reads_lead (rd : Reader) (qualifier : Option String) :
    ∃ code, Reads rd (Name.lead rd.quote qualifier) code ∧
      ∀ b ∈ code, b = Byte.dot ∨ b = Byte.star := by
  unfold Name.lead
  split
  · exact ⟨[], Reads.nil, List.forall_mem_nil _⟩
  · split
    · exact ⟨[], Reads.nil, List.forall_mem_nil _⟩
    · rename_i qualifier _
      obtain ⟨code, hread, hcode⟩ := reads_writeDotted rd qualifier
      refine ⟨code ++ [Byte.dot], hread.append reads_dot, ?_⟩
      simp only [List.forall_mem_append]
      exact ⟨hcode, by simp⟩

end Region

end SqlTemplate
