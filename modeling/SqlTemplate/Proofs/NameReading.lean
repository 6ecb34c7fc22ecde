import SqlTemplate.Proofs.Layout
import SqlTemplate.Proofs.Rendering
import SqlTemplate.Proofs.Tokens

/-!
# Names read back

A reader of names that knows nothing of how they are written takes parts with dots between them:
each is a star, or a text between quotes in which a quote is doubled. Whatever stands in a name, dots
and quotes of either kind included, the reader finds the segments of the qualifier and of the name
again, and a list of names is read name by name. Main statement: `Name.readNames_written`.
-/

namespace SqlTemplate

open Render

namespace Name

/-! ### The reader -/

/-- A part of a name: everything there is, or what stands between quotes. -/
inductive Part where
  | all
  | quoted (segment : Bytes)
deriving DecidableEq, Repr

/-- The part at the front of a text, and what is left of the text. -/
def readPart (quote : UInt8) : Bytes → Option (Part × Bytes)
  | [] => none
  | b :: rest =>
    if b = Byte.star then some (.all, rest)
    else if b = quote then
      (Server.quotedText false quote rest).map fun found => (.quoted found.1, found.2)
    else none

/-- Items at the front of a text, `most` of them at most, with a separator between them. -/
def readSeparated {α : Type} (separator : Bytes) (item : Bytes → Option (α × Bytes)) :
    Nat → Bytes → Option (List α × Bytes)
  | 0, _ => none
  | most + 1, text => do
    let (first, rest) ← item text
    if separator <+: rest then
      let (others, rest) ← readSeparated separator item most (rest.drop separator.length)
      return (first :: others, rest)
    else return ([first], rest)

/-- The parts of the name at the front of a text, and what is left of the text. -/
def readName (quote : UInt8) (text : Bytes) : Option (List Part × Bytes) :=
  readSeparated [Byte.dot] (readPart quote) text.length text

/-- The names that a whole text consists of. -/
def readNames (quote : UInt8) (text : Bytes) : Option (List (List Part)) := do
  let (names, rest) ← readSeparated (utf8 ", ") (readName quote) text.length text
  if rest = [] then return names else none

/-! ### What there is to read -/

def partOf (segment : Bytes) : Part := if segment = [Byte.star] then .all else .quoted segment

/-- The segments of the qualifier, unless it is empty, and those of the name. -/
def allSegments (qualifier : Option String) (name : String) : List Bytes :=
  (match qualifier with
    | none => []
    | some qualifier => if qualifier.isEmpty then [] else segments (utf8 qualifier)) ++
  segments (utf8 name)

def partsOf (qualifier : Option String) (name : String) : List Part :=
  (allSegments qualifier name).map partOf

/-! ### Separated items -/

theorem intercalate_append {α : Type} (separator : List α) {front back : List (List α)}
    (hfront : front ≠ []) (hback : back ≠ []) :
    separator.intercalate (front ++ back) =
      separator.intercalate front ++ separator ++ separator.intercalate back := by
  obtain ⟨first, front, rfl⟩ := List.exists_cons_of_ne_nil hfront
  obtain ⟨second, back, rfl⟩ := List.exists_cons_of_ne_nil hback
  rw [List.cons_append, intercalate_cons, intercalate_cons, intercalate_cons, List.flatMap_append,
    List.flatMap_cons]
  simp only [List.append_assoc]

theorem length_le_length_intercalate {α : Type} (separator : List α) {items : List (List α)}
    (h : ∀ item ∈ items, item ≠ []) : items.length ≤ (separator.intercalate items).length := by
  induction items with
  | nil => exact Nat.zero_le _
  | cons first rest ih =>
    obtain ⟨hfirst, hrest⟩ := List.forall_mem_cons.mp h
    have hpos := List.length_pos_of_ne_nil hfirst
    cases rest with
    | nil =>
      rw [List.intercalate_singleton]
      exact hpos
    | cons second rest =>
      have hlater := ih hrest
      rw [List.intercalate_cons_cons, List.length_append, List.length_append, List.length_cons]
      omega

/-- Items are read back one by one if each is, before the separator and before what comes after the
last. -/
theorem readSeparated_intercalate {α β : Type} {separator after : Bytes}
    {item : Bytes → Option (α × Bytes)} {write : β → Bytes} {read : β → α}
    (hitem : ∀ b rest, separator <+: rest ∨ rest = after →
      item (write b ++ rest) = some (read b, rest))
    (hafter : ¬ separator <+: after) {items : List β} (hne : items ≠ []) {most : Nat}
    (hmost : items.length ≤ most) :
    readSeparated separator item most (separator.intercalate (items.map write) ++ after) =
      some (items.map read, after) := by
  induction items generalizing most with
  | nil => exact absurd rfl hne
  | cons first rest ih =>
    obtain ⟨most, rfl⟩ : ∃ n, most = n + 1 :=
      Nat.exists_eq_add_one.mpr (Nat.lt_of_lt_of_le (Nat.succ_pos _) hmost)
    rw [List.length_cons, Nat.add_le_add_iff_right] at hmost
    cases rest with
    | nil =>
      have hfirst := hitem first after (.inr rfl)
      simp only [readSeparated, List.map_cons, List.map_nil, List.intercalate_singleton]
      rw [hfirst]
      exact if_neg hafter
    | cons second rest =>
      have hlater := ih (List.cons_ne_nil second rest) hmost
      have hfirst := hitem first (separator ++
        (separator.intercalate ((second :: rest).map write) ++ after)) (.inl (List.prefix_append _ _))
      rw [List.map_cons, List.map_cons, List.intercalate_cons_cons, ← List.map_cons,
        List.append_assoc, List.append_assoc, readSeparated, hfirst]
      show (if _ then _ else _) = _
      rw [if_pos (List.prefix_append _ _), List.drop_left' rfl, hlater]
      rfl

/-! ### Names -/

section Names

variable {quote : UInt8} (hquote : quote = Byte.doubleQuote ∨ quote = Byte.backtick)

include hquote

theorem readPart_writeSegment {segment rest : Bytes} (hrest : rest.head? ≠ some quote) :
    readPart quote (writeSegment quote segment ++ rest) = some (partOf segment, rest) := by
  have hstar : quote ≠ Byte.star := by
    rcases hquote with rfl | rfl <;> decide
  by_cases hsegment : segment = [Byte.star]
  · rw [writeSegment, partOf, if_pos hsegment, if_pos hsegment, hsegment]
    rfl
  · rw [writeSegment, partOf, if_neg hsegment, if_neg hsegment, enclose, List.append_assoc,
      List.cons_append, readPart, if_neg hstar, if_pos rfl, List.singleton_append,
      Server.quotedText_name hrest]
    rfl

omit hquote in
theorem writeSegment_ne_nil (segment : Bytes) : writeSegment quote segment ≠ [] := by
  unfold writeSegment
  split
  · rename_i hstar
    rw [hstar]
    exact List.cons_ne_nil _ _
  · exact List.cons_ne_nil _ _

omit hquote in
/-- A written name is all its segments with dots between them. -/
theorem write_eq_intercalate (qualifier : Option String) (name : String) :
    write quote qualifier name =
      [Byte.dot].intercalate ((allSegments qualifier name).map (writeSegment quote)) := by
  have hne : ∀ text : Bytes, (segments text).map (writeSegment quote) ≠ [] := fun text hnil =>
    List.splitOn_ne_nil _ _ (List.map_eq_nil_iff.mp hnil)
  cases qualifier with
  | none => rfl
  | some qualifier =>
    by_cases hempty : qualifier.isEmpty = true
    · rw [write, lead, allSegments]
      simp only [if_pos hempty, List.nil_append]
      rfl
    · rw [write, lead, allSegments]
      simp only [if_neg hempty, List.map_append]
      rw [intercalate_append _ (hne _) (hne _)]
      rfl

omit hquote in
theorem allSegments_ne_nil (qualifier : Option String) (name : String) :
    allSegments qualifier name ≠ [] := fun hnil =>
  List.splitOn_ne_nil _ _ (List.append_eq_nil_iff.mp hnil).2

omit hquote in
theorem length_allSegments_le (qualifier : Option String) (name : String) :
    (allSegments qualifier name).length ≤ (write quote qualifier name).length := by
  have hne : ∀ item ∈ (allSegments qualifier name).map (writeSegment quote), item ≠ [] :=
    List.forall_mem_map.mpr fun segment _ => writeSegment_ne_nil segment
  have hlength := length_le_length_intercalate [Byte.dot] hne
  rwa [List.length_map, ← write_eq_intercalate] at hlength

omit hquote in
theorem write_ne_nil (qualifier : Option String) (name : String) :
    write quote qualifier name ≠ [] := by
  intro hnil
  have hlength := @length_allSegments_le quote qualifier name
  rw [hnil] at hlength
  exact allSegments_ne_nil qualifier name (List.length_eq_zero_iff.mp (Nat.le_zero.mp hlength))

/-- A name is read back where no quote and no dot follows it. -/
theorem readName_write (qualifier : Option String) (name : String) {rest : Bytes}
    (hrest : rest.head? ≠ some quote) (hdot : rest.head? ≠ some Byte.dot) :
    readName quote (write quote qualifier name ++ rest) = some (partsOf qualifier name, rest) := by
  have hmost : (allSegments qualifier name).length ≤ (write quote qualifier name ++ rest).length := by
    rw [List.length_append]
    exact Nat.le_add_right_of_le (length_allSegments_le qualifier name)
  have hnone : ¬ [Byte.dot] <+: rest := by
    rintro ⟨later, rfl⟩
    exact hdot rfl
  rw [readName, write_eq_intercalate] at *
  refine readSeparated_intercalate ?_ hnone (allSegments_ne_nil qualifier name) hmost
  rintro segment later (⟨later, rfl⟩ | rfl)
  · refine readPart_writeSegment hquote ?_
    rcases hquote with rfl | rfl <;> exact nofun
  · exact readPart_writeSegment hquote hrest

/-- A list of names is read back name by name. -/
theorem readNames_intercalate (qualifier : Option String) {names : List String} (hne : names ≠ []) :
    readNames quote ((utf8 ", ").intercalate (names.map (write quote qualifier))) =
      some (names.map (partsOf qualifier)) := by
  have hmost : names.length ≤
      ((utf8 ", ").intercalate (names.map (write quote qualifier))).length := by
    have hnames : ∀ item ∈ names.map (write quote qualifier), item ≠ [] :=
      List.forall_mem_map.mpr fun name _ => write_ne_nil qualifier name
    have hlength := length_le_length_intercalate (utf8 ", ") hnames
    rwa [List.length_map] at hlength
  have hread : readSeparated (utf8 ", ") (readName quote)
      ((utf8 ", ").intercalate (names.map (write quote qualifier))).length
      ((utf8 ", ").intercalate (names.map (write quote qualifier)) ++ []) =
        some (names.map (partsOf qualifier), []) := by
    refine readSeparated_intercalate ?_ (by decide) hne hmost
    rintro name rest (⟨later, rfl⟩ | rfl)
    · refine readName_write hquote qualifier name ?_ nofun
      rcases hquote with rfl | rfl <;> exact nofun
    · exact readName_write hquote qualifier name nofun nofun
  rw [List.append_nil] at hread
  rw [readNames, hread]
  rfl

end Names

end Name

/-! ### Lists of names in a fragment -/

/-- The mark after the quotes of a hole for a list of names. -/
def NameList.mark : NameList → String
  | .orAll => "*"
  | .nonempty => "+"
  | .optional => ","

/-- What is left of the mark where there are names. -/
def NameList.kept : NameList → String
  | .optional => ","
  | _ => ""

/-- A fragment with a hole for a list of names, and before it one for a qualifier if there is one. -/
def Fragment.ofNames (s : Settings) (qualifier : Option String) (kind : NameList)
    (front quote back : String) (value : Value) (sizeHint : Nat) : Fragment :=
  match qualifier with
  | none => ⟨s, front ++ quote, [(value, quote ++ (kind.mark ++ back))], sizeHint⟩
  | some qualifier =>
    ⟨s, front, [(.str qualifier, "." ++ quote), (value, quote ++ (kind.mark ++ back))], sizeHint⟩

section Holes

variable {s : Settings} {qualifier : Option String} {kind : NameList} {front quote back : String}
  {value : Value} {names : List String}

theorem find_names (index : Nat) {lead : Bytes} (hquote : quote = "\"" ∨ quote = "`") :
    Hole.find index (lead ++ utf8 quote).getLast? (utf8 (quote ++ (kind.mark ++ back))) =
      .ok (.names kind) := by
  rw [utf8_append, utf8_append]
  rcases hquote with rfl | rfl <;>
  · rw [show utf8 _ = [_] from rfl, List.getLast?_concat]
    cases kind <;> rfl

/-- What goes with the hole beyond its quotes, put back before the rest of the text. -/
theorem kept_append_drop (hquote : quote = "\"" ∨ quote = "`") :
    let next := utf8 (quote ++ (kind.mark ++ back))
    (if kind = .optional then (next.take ((Hole.names kind).skips next)).drop 1 else []) ++
      next.drop ((Hole.names kind).skips next) = utf8 (kind.kept ++ back) := by
  intro next
  have hnext : next = utf8 quote ++ (utf8 kind.mark ++ utf8 back) := by
    rw [← utf8_append, ← utf8_append]
  rw [utf8_append kind.kept]
  cases kind with
  | optional =>
    have hskips : 1 ≤ (Hole.names .optional).skips next := by
      simp only [Hole.skips]
      split <;> decide
    rw [if_pos rfl, ← drop_eq_kept_append hskips, hnext]
    rcases hquote with rfl | rfl <;> rfl
  | _ =>
    rw [hnext]
    rcases hquote with rfl | rfl <;> rfl

/-- What the hole writes, and what is left of the text after it. -/
theorem piece_names (hquote : quote = "\"" ∨ quote = "`") (hnames : namesOf value = .ok names)
    (hne : names ≠ []) :
    let next := utf8 (quote ++ (kind.mark ++ back))
    ((Filling.ofValue s value).piece s qualifier next (.names kind)).append
        (pure (next.drop ((Hole.names kind).skips next))) =
      (pure ((utf8 ", ").intercalate (names.map (Name.write s.nameQuote qualifier))) :
        Piece Bytes).append (pure (utf8 (kind.kept ++ back))) := by
  intro next
  have htext : namesText s qualifier kind next value =
      .ok ((utf8 ", ").intercalate (names.map (Name.write s.nameQuote qualifier)) ++
        if kind = .optional then (next.take ((Hole.names kind).skips next)).drop 1 else []) := by
    unfold namesText
    rw [hnames, ok_bind, if_neg (by simpa using hne)]
  show (liftM (namesText s qualifier kind next value) : Piece Bytes).append _ = _
  rw [htext, ← kept_append_drop hquote]
  show pure _ = (pure _ : Piece Bytes)
  rw [List.append_assoc]

/-- The last chunk before the hole, of which `lead` is left before the quote. -/
theorem pieceFrom_names {index skipped : Nat} {chunk lead : Bytes}
    (hquote : quote = "\"" ∨ quote = "`") (hchunk : chunk.drop skipped = lead ++ utf8 quote)
    (hnames : namesOf value = .ok names) (hne : names ≠ []) :
    pieceFrom s none index qualifier skipped chunk [(value, quote ++ (kind.mark ++ back))] =
      (pure lead : Piece Bytes).append
        ((pure ((utf8 ", ").intercalate (names.map (Name.write s.nameQuote qualifier))) :
          Piece Bytes).append (pure (utf8 (kind.kept ++ back)))) := by
  have hfind : Hole.find index (chunk.drop skipped).getLast?
      (utf8 (quote ++ (kind.mark ++ back))) = .ok (.names kind) := by
    rw [hchunk]
    exact find_names index hquote
  have hfront : (Hole.names kind).front (chunk.drop skipped) = lead := by
    rw [Hole.front_of_opens (by cases kind <;> rfl), hchunk]
    rcases hquote with rfl | rfl <;> exact List.dropLast_concat
  rw [Fragment.pieceFrom_singleton hfind, hfront, Option.or_none, piece_names hquote hnames hne]

theorem piece_ofNames {sizeHint : Nat} (hquote : quote = "\"" ∨ quote = "`")
    (hfront : qualifier.isSome → (utf8 front).getLast?.any Hole.isOpener = false)
    (hnames : namesOf value = .ok names) (hne : names ≠ []) :
    (Fragment.ofNames s qualifier kind front quote back value sizeHint).piece s =
      (pure (utf8 front) : Piece Bytes).append
        ((pure ((utf8 ", ").intercalate (names.map (Name.write s.nameQuote qualifier))) :
          Piece Bytes).append (pure (utf8 (kind.kept ++ back)))) := by
  cases qualifier with
  | none => exact pieceFrom_names hquote (utf8_append front quote) hnames hne
  | some qualifier =>
    have hfind : Hole.find 0 (utf8 front).getLast? (utf8 ("." ++ quote)) = .ok .qualifier := by
      refine (Hole.find_eq_ok_iff 0).mpr (.qualifier ?_ ?_)
      · intro b hb
        have hopens := hfront rfl
        rwa [hb, Option.any_some] at hopens
      · rw [utf8_append]
        rfl
    have hlead : Hole.qualifier.front (utf8 front) = utf8 front := List.take_length
    have hdot : (utf8 ("." ++ quote)).drop 1 = [] ++ utf8 quote := by
      rw [utf8_append]
      rfl
    show pieceFrom s none 0 none 0 (utf8 front) [(.str qualifier, "." ++ quote), (value, _)] = _
    rw [pieceFrom_cons, List.drop_zero, hfind]
    show (pure (Hole.qualifier.front (utf8 front)) : Piece Bytes).append
      ((pure [] : Piece Bytes).append (pieceFrom s none 1 (some qualifier) 1 (utf8 ("." ++ quote))
        [(value, quote ++ (kind.mark ++ back))])) = _
    rw [hlead, pieceFrom_names hquote hdot hnames hne]
    rfl

theorem exec_writeNameList (hnames : namesOf value = .ok names) (hne : names ≠ []) (next : Bytes)
    (c : Canvas) :
    exec (writeNameList s qualifier kind next value) c =
      (.ok (if kind = .optional then 1 else 2),
        { c with
          out := c.out.append
            ((utf8 ", ").intercalate (names.map (Name.write s.nameQuote qualifier))) }) := by
  unfold writeNameList
  rw [hnames, liftM_ok_bind, if_neg (by simpa using hne)]
  cases kind <;> rfl

end Holes

/-- Names are found again in what is written for them. A reader of dotted parts takes the whole text
of a name and gives the segments of its qualifier, if that is not empty, and its own, of which only
stars are unquoted. Where a hole for names has any, it writes a text that consists of those names,
whatever mark the hole has, and the fragment around the hole puts it between its own texts. -/
theorem Name.readNames_written :
    (∀ quote : UInt8, quote = Byte.doubleQuote ∨ quote = Byte.backtick → ∀ qualifier name,
      readName quote (write quote qualifier name) = some (partsOf qualifier name, [])) ∧
    ∀ (s : Settings) (value : Value) (names : List String), namesOf value = .ok names →
      names ≠ [] → ∀ (qualifier : Option String) (kind : NameList), ∃ text,
        readNames s.nameQuote text = some (names.map (partsOf qualifier)) ∧
        (∀ next c, exec (writeNameList s qualifier kind next value) c =
          (.ok (if kind = .optional then 1 else 2), { c with out := c.out.append text })) ∧
        ∀ front quote back sizeHint out sink, quote = "\"" ∨ quote = "`" →
          (qualifier.isSome → (utf8 front).getLast?.any Hole.isOpener = false) →
          let rendered := (Fragment.ofNames s qualifier kind front quote back value
            sizeHint).renderInto out sink {}
          rendered.result = .ok () ∧ rendered.out.toList
            = out.toList ++ (utf8 front ++ text ++ utf8 (kind.kept ++ back)) := by
  refine ⟨fun quote hquote qualifier name => ?_, ?_⟩
  · have hread : readName quote (write quote qualifier name ++ []) = _ :=
      readName_write hquote qualifier name nofun nofun
    rwa [List.append_nil] at hread
  · intro s value names hnames hne qualifier kind
    refine ⟨_, readNames_intercalate s.reader.quote_eq qualifier hne,
      exec_writeNameList hnames hne, ?_⟩
    intro front quote back sizeHint out sink hquote hfront
    have hsettings : (Fragment.ofNames s qualifier kind front quote back value sizeHint).settings
        = s := by
      cases qualifier <;> rfl
    exact Fragment.renderInto_between (piece_ofNames hquote hfront hnames hne) hsettings out sink

/-- Quotes of both kinds and a dot beside them, a star among the segments, and a list under a
qualifier. -/
theorem Name.readNames_written_seams :
    let s : Settings := .ofDialect .mysql
    let value : Value := .list [.str "`.\"", .str "*"]
    let f : Fragment := Fragment.ofNames s (some "t`") .optional "SELECT " "\"" " 1" value 0
    readName Byte.backtick (write Byte.backtick (some "") "``.*") =
        some ([.quoted (utf8 "``"), .all], []) ∧
      namesOf value = .ok ["`.\"", "*"] ∧
      ∃ text, readNames Byte.backtick text = some
          [[.quoted (utf8 "t`"), .quoted (utf8 "`"), .quoted (utf8 "\"")],
            [.quoted (utf8 "t`"), .all]] ∧
        (f.renderInto .empty none {}).out.toList = utf8 "SELECT " ++ text ++ utf8 ", 1" := by
  intro s value f
  have hnames : namesOf value = .ok ["`.\"", "*"] := rfl
  obtain ⟨hname, hlist⟩ := readNames_written
  obtain ⟨text, hread, -, hrendered⟩ :=
    hlist s value _ hnames (List.cons_ne_nil _ _) (some "t`") .optional
  refine ⟨hname _ (.inr rfl) _ _, hnames, text, hread, ?_⟩
  exact (hrendered "SELECT " "\"" " 1" 0 .empty none (.inl rfl) fun _ => rfl).2

end SqlTemplate
