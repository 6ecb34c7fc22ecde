import SqlTemplate.Proofs.Characters
import SqlTemplate.Proofs.Values

/-!
# Fragments as concatenations

Rendering takes back bytes that it has written, and puts off what becomes of bytes that it has not
written yet. Here is the same without either: what is left of each chunk is cut out of it first, and
then the chunks and the texts of the values are put one after the other. `Stands` says what a hole
asks for, from the bytes around it; `Hole.remains` and `Hole.before` say what it takes from the chunk
after it and from the one before; `Hole.piece` is what a value writes in it on its own.
`Fragment.toSql_iff_concatenates` says that a fragment without nested fragments renders if and only
if it can be put together in this way, and to that text.
-/

namespace SqlTemplate

open Render

/-! ### Holes and the bytes around them -/

/-- The enclosures: the byte before a hole, the text after it, and what the hole asks for. -/
inductive Encloses (next : Bytes) : UInt8 → Hole → Prop
  | value (hclose : next.head? = some Byte.apostrophe) : Encloses next Byte.apostrophe .value
  | list (hclose : next.head? = some Byte.closeBracket) : Encloses next Byte.openBracket .list
  | rows (hclose : next.head? = some Byte.greater) : Encloses next Byte.less .rows
  | assignments (hclose : next.head? = some Byte.closeBrace) :
    Encloses next Byte.openBrace .assignments
  | all (hclose : next.head? = some Byte.ampersand) :
    Encloses next Byte.openBrace (.conditions true)
  | any (hclose : next.head? = some Byte.bar) : Encloses next Byte.openBrace (.conditions false)
  | expression (hclose : next.head? = some Byte.closeParen) :
    Encloses next Byte.openParen .expression
  | name {quote : UInt8} (hquote : quote = Byte.backtick ∨ quote = Byte.doubleQuote)
      (hclose : next.head? = some quote)
      (hmark : ∀ b ∈ next[1]?, b ≠ Byte.star ∧ b ≠ Byte.plus ∧ b ≠ Byte.comma) :
      Encloses next quote .name
  | orAll {quote : UInt8} (hquote : quote = Byte.backtick ∨ quote = Byte.doubleQuote)
      (hclose : next.head? = some quote) (hmark : next[1]? = some Byte.star) :
      Encloses next quote (.names .orAll)
  | nonempty {quote : UInt8} (hquote : quote = Byte.backtick ∨ quote = Byte.doubleQuote)
      (hclose : next.head? = some quote) (hmark : next[1]? = some Byte.plus) :
      Encloses next quote (.names .nonempty)
  | optional {quote : UInt8} (hquote : quote = Byte.backtick ∨ quote = Byte.doubleQuote)
      (hclose : next.head? = some quote) (hmark : next[1]? = some Byte.comma) :
      Encloses next quote (.names .optional)

/-- A hole stands between the texts `written` and `next`: enclosed by them, or with no opening byte
before it. -/
inductive Stands (written next : Bytes) : Hole → Prop
  | enclosed {opener : UInt8} {hole : Hole} (hlast : written.getLast? = some opener)
      (hencloses : Encloses next opener hole) : Stands written next hole
  | qualifier (hopen : ∀ b ∈ written.getLast?, Hole.isOpener b = false)
      (hdot : next.head? = some Byte.dot) : Stands written next .qualifier
  | bare (hopen : ∀ b ∈ written.getLast?, Hole.isOpener b = false)
      (hdot : next.head? ≠ some Byte.dot) : Stands written next .bare

namespace Hole

/-- The text before a hole without the byte that opens its enclosure. A bracket becomes a
parenthesis. -/
def before (written : Bytes) : Hole → Bytes
  | .expression | .qualifier | .bare => written
  | .list => written.dropLast ++ [Byte.openParen]
  | _ => written.dropLast

/-- The text after a hole without the bytes that close its enclosure. A bracket becomes a
parenthesis, and the comma after an optional list of names stays if there are names. -/
def remains (value : Value) (next : Bytes) : Hole → Bytes
  | .expression | .bare => next
  | .list => Byte.closeParen :: next.drop 1
  | .names .optional =>
    if namesOf value = .ok [] then next.drop (if next[2]? = some Byte.space then 3 else 2)
    else next.drop 1
  | .names _ => next.drop 2
  | _ => next.drop 1

/-- What a value writes in a hole of each kind under a qualifier, on an empty canvas. -/
def piece (s : Settings) (qualifier : Option String) (value : Value) : Hole → Except Error Bytes
  | .value => ((writeValue s qualifier value).piece.result none).1
  | .list => ((writeList s value).piece.result none).1
  | .rows => ((writeRowsOf s value).piece.result none).1
  | .name => (nameOf value).map (Name.write s.nameQuote qualifier)
  | .names kind => do
    let names ← namesOf value
    if names = [] then
      match kind with
      | .orAll => .ok (Name.write s.nameQuote qualifier "*")
      | .nonempty => .error (.wrongShape .someName "empty list")
      | .optional => .ok []
    else .ok ((utf8 ", ").intercalate (names.map (Name.write s.nameQuote qualifier)))
  | .assignments => ((writeAssignmentsOf s qualifier value).piece.result none).1
  | .conditions all => ((writeConditionsOf s all qualifier value).piece.result none).1
  | .expression => ((writeExpression s qualifier value).piece.result none).1
  | .qualifier => (qualifierOf value).map fun _ => []
  | .bare => ((writeBare s qualifier value).piece.result none).1

end Hole

/-- The text of what is left of a chunk, `written`, and of the holes after it, the first of which
stands under the qualifier `captured`. -/
inductive Concatenates (s : Settings) :
    Option String → Bytes → List (Value × String) → Bytes → Prop
  | last {captured : Option String} {written : Bytes} : Concatenates s captured written [] written
  | hole {captured : Option String} {written own text : Bytes} {value : Value} {next : String}
      {rest : List (Value × String)} {hole : Hole} (hstands : Stands written (utf8 next) hole)
      (hpiece : hole.piece s captured value = .ok own)
      (hrest : Concatenates s (hole.captures value) (hole.remains value (utf8 next)) rest text) :
      Concatenates s captured written ((value, next) :: rest)
        (hole.before written ++ own ++ text)

/-! ### What a hole asks for -/

theorem Hole.encloses_of_enclosed? {opener : UInt8} {next : Bytes} {hole : Hole}
    (hopener : isOpener opener = true) (h : enclosed? opener next = some hole) :
    Encloses next opener hole := by
  have hone {closer : UInt8} {kind : Hole}
      (hkind : (if next.head? = some closer then some kind else none) = some hole) :
      next.head? = some closer ∧ kind = hole := by
    split at hkind
    · exact ⟨‹_›, Option.some.inj hkind⟩
    · cases hkind
  unfold enclosed? at h
  dsimp only at h
  split at h
  · rename_i hopens
    obtain ⟨hclose, rfl⟩ := hone h
    exact hopens ▸ .value hclose
  rename_i hapostrophe
  split at h
  · rename_i hopens
    obtain ⟨hclose, rfl⟩ := hone h
    exact hopens ▸ .list hclose
  rename_i hbracket
  split at h
  · rename_i hopens
    obtain ⟨hclose, rfl⟩ := hone h
    exact hopens ▸ .rows hclose
  rename_i hless
  split at h
  · rename_i hopens
    split at h
    · cases h
      exact hopens ▸ .assignments ‹_›
    split at h
    · cases h
      exact hopens ▸ .all ‹_›
    · obtain ⟨hclose, rfl⟩ := hone h
      exact hopens ▸ .any hclose
  rename_i hbrace
  split at h
  · rename_i hopens
    obtain ⟨hclose, rfl⟩ := hone h
    exact hopens ▸ .expression hclose
  rename_i hparen
  have hquote : opener = Byte.backtick ∨ opener = Byte.doubleQuote := by
    simpa [isOpener, hapostrophe, hbracket, hless, hbrace, hparen] using hopener
  split at h
  · rename_i hclose
    split at h
    · rename_i b hb
      split at h
      · cases h
        exact .orAll hquote hclose (by simp_all)
      rename_i hstar
      split at h
      · cases h
        exact .nonempty hquote hclose (by simp_all)
      rename_i hplus
      split at h
      · cases h
        exact .optional hquote hclose (by simp_all)
      · rename_i hcomma
        cases h
        refine .name hquote hclose ?_
        intro c hc
        obtain rfl : b = c := Option.some.inj (hb.symm.trans hc)
        exact ⟨hstar, hplus, hcomma⟩
    · rename_i hnone
      cases h
      exact .name hquote hclose (by simp [hnone])
  · cases h

theorem Encloses.isOpener {opener : UInt8} {next : Bytes} {hole : Hole}
    (h : Encloses next opener hole) : Hole.isOpener opener = true := by
  cases h with
  | name hquote | orAll hquote | nonempty hquote | optional hquote =>
    rcases hquote with rfl | rfl <;> rfl
  | _ => rfl

theorem Encloses.enclosed? {opener : UInt8} {next : Bytes} {hole : Hole}
    (h : Encloses next opener hole) : Hole.enclosed? opener next = some hole := by
  have hquoted {quote : UInt8} (hquote : quote = Byte.backtick ∨ quote = Byte.doubleQuote)
      (hclose : next.head? = some quote) : Hole.enclosed? quote next =
        next[1]?.elim (some .name) fun b =>
          if b = Byte.star then some (.names .orAll)
          else if b = Byte.plus then some (.names .nonempty)
          else if b = Byte.comma then some (.names .optional)
          else some .name := by
    unfold Hole.enclosed?
    rcases hquote with rfl | rfl
    · refine (if_pos hclose).trans ?_
      cases next[1]? <;> rfl
    · refine (if_pos hclose).trans ?_
      cases next[1]? <;> rfl
  cases h with
  | name hquote hclose hmark =>
    rw [hquoted hquote hclose]
    cases hb : next[1]? with
    | none => rfl
    | some b =>
      obtain ⟨hstar, hplus, hcomma⟩ := hmark b hb
      change (if b = Byte.star then _ else _) = _
      rw [if_neg hstar, if_neg hplus, if_neg hcomma]
  | orAll hquote hclose hmark | nonempty hquote hclose hmark | optional hquote hclose hmark =>
    rw [hquoted hquote hclose, hmark]
    rfl
  | value hclose | list hclose | rows hclose | expression hclose => exact if_pos hclose
  | assignments hclose | all hclose | any hclose =>
    simp only [Hole.enclosed?, hclose]
    rfl

/-- The kind that rendering finds for a hole is the one that it stands for. -/
theorem Hole.find_eq_ok_iff (index : Nat) {written next : Bytes} {hole : Hole} :
    find index written.getLast? next = .ok hole ↔ Stands written next hole := by
  constructor
  · intro h
    have hunenclosed (hopen : ∀ b ∈ written.getLast?, isOpener b = false)
        (hkind : (if next.head? = some Byte.dot then Hole.qualifier else .bare) = hole) :
        Stands written next hole := by
      subst hkind
      split
      · exact .qualifier hopen ‹_›
      · exact .bare hopen ‹_›
    unfold find at h
    cases hlast : written.getLast? with
    | none =>
      rw [hlast] at h
      exact hunenclosed (by simp [hlast]) (Except.ok.inj h)
    | some b =>
      rw [hlast] at h
      dsimp only at h
      split at h
      · rename_i hopener
        split at h
        · rename_i kind hkind
          cases h
          exact .enclosed hlast (encloses_of_enclosed? hopener hkind)
        · cases h
      · rename_i hopener
        refine hunenclosed ?_ (Except.ok.inj h)
        rw [hlast]
        intro c hc
        cases hc
        simpa using hopener
  · have hunenclosed (hopen : ∀ b ∈ written.getLast?, isOpener b = false) :
        find index written.getLast? next
          = .ok (if next.head? = some Byte.dot then .qualifier else .bare) := by
      unfold find
      cases hlast : written.getLast? with
      | none => rfl
      | some b => simp only [hopen b hlast, Bool.false_eq_true, if_false]
    intro h
    cases h with
    | enclosed hlast hencloses =>
      simp only [find, hlast, hencloses.isOpener, if_true, hencloses.enclosed?]
    | qualifier hopen hdot => rw [hunenclosed hopen, if_pos hdot]
    | bare hopen hdot => rw [hunenclosed hopen, if_neg hdot]

/-! ### What a hole takes and writes -/

namespace Hole

/-- What is put before the text of a hole in place of its opening byte. -/
def opening : Hole → Bytes
  | .list => [Byte.openParen]
  | _ => []

/-- What is left of the bytes that go with a hole after its text. -/
def kept (value : Value) (next : Bytes) : Hole → Bytes
  | .list => [Byte.closeParen]
  | .names .optional =>
    if namesOf value = .ok [] then [] else (next.take ((Hole.names .optional).skips next)).drop 1
  | _ => []

theorem before_eq (hole : Hole) (written : Bytes) :
    hole.before written = hole.front written ++ hole.opening := by
  have hdrop (h : hole.opens = 1) : hole.front written = written.dropLast := front_of_opens h written
  have hall (h : hole.opens = 0) : hole.front written = written := by
    rw [front, h]
    exact List.take_length
  cases hole with
  | expression | qualifier | bare => rw [hall rfl]; exact (List.append_nil _).symm
  | list => rw [hdrop rfl]; rfl
  | _ => rw [hdrop rfl]; exact (List.append_nil _).symm

theorem one_le_skips_optional (next : Bytes) : 1 ≤ (Hole.names .optional).skips next := by
  simp only [skips]
  split <;> decide

theorem remains_eq (hole : Hole) (value : Value) (next : Bytes) :
    hole.remains value next = hole.kept value next ++ next.drop (hole.skips next) := by
  cases hole with
  | names kind =>
    cases kind with
    | optional =>
      simp only [remains, kept]
      split
      · rfl
      · exact drop_eq_kept_append (one_le_skips_optional next) next
    | _ => rfl
  | _ => rfl

/-- What is left after a hole ends in an opening byte only if the chunk does. -/
theorem getLast?_remains {written next : Bytes} {hole : Hole} (h : Stands written next hole)
    (value : Value) {b : UInt8} (hb : isOpener b = true) :
    (hole.remains value next).getLast? = some b ↔
      (next.drop (hole.skips next)).getLast? = some b := by
  cases hole with
  | list =>
    have hne : Byte.closeParen ≠ b := by
      rintro rfl
      exact absurd hb (by decide)
    rw [remains_eq]
    change (Byte.closeParen :: next.drop 1).getLast? = some b ↔ (next.drop 1).getLast? = some b
    cases next.drop 1 with
    | nil => simp [hne]
    | cons c rest => rw [List.getLast?_cons_cons]
  | names kind =>
    cases kind with
    | optional =>
      have hcomma : next[1]? = some Byte.comma :=
        comma_of_find ((find_eq_ok_iff 0).mpr h)
      simp only [remains]
      split
      · rfl
      · exact opener_drop_optional hcomma hb
    | _ => rfl
  | _ => rfl

/-- What a filling writes in a hole is the text of the value between what takes the place of the
enclosing bytes. -/
theorem result_piece (s : Settings) (qualifier : Option String) (value : Value) (next : Bytes)
    (hole : Hole) :
    (((Filling.ofValue s value).piece s qualifier next hole).result none).1 =
      (hole.piece s qualifier value).map fun own =>
        hole.opening ++ (own ++ hole.kept value next) := by
  have hplain (result : Except Error Bytes) :
      result.map (fun own => [] ++ (own ++ [])) = result := by
    cases result with
    | error e => rfl
    | ok own => simp [Except.map]
  cases hole with
  | list =>
    change ((((pure [Byte.openParen] : Piece Bytes).append
      ((writeList s value).piece.append (pure [Byte.closeParen])))).result none).1 = _
    simp only [Piece.append, Piece.result_bind, Piece.result_pure, piece]
    rcases (writeList s value).piece.result none with ⟨_ | _, _⟩ <;> rfl
  | names kind =>
    change namesText s qualifier kind next value = _
    simp only [namesText, piece, kept]
    cases namesOf value with
    | error e => rfl
    | ok names =>
      rw [ok_bind, ok_bind]
      by_cases hnames : names = []
      · subst hnames
        cases kind <;> simp [opening, Except.map]
      · have hempty : names.isEmpty = false := by simpa using hnames
        have hok : (Except.ok names : Except Error (List String)) ≠ .ok [] :=
          fun h => hnames (Except.ok.inj h)
        rw [hempty, if_neg hnames]
        cases kind <;> simp [opening, Except.map, hok]
  | _ => exact (hplain _).symm

end Hole

/-! ### Fragments -/

theorem Piece.Grows.result_bind_none {α β : Type} {piece : Piece α} (h : piece.Grows)
    (next : α → Piece β) :
    ((piece >>= next).result none).1
      = (piece.result none).1 >>= fun a => ((next a).result none).1 := by
  have hnone := h.result_none
  rw [Piece.result_bind]
  generalize piece.result none = given at hnone ⊢
  rcases given with ⟨_ | a, sink⟩
  · rfl
  · cases hnone
    rfl

/-- A fragment without a sink, one hole after another. -/
theorem result_pieceFrom_cons (s : Settings) (index : Nat) (captured : Option String)
    (skipped : Nat) (chunk : Bytes) (value : Value) (following : String)
    (rest : List (Value × String)) :
    ((pieceFrom s none index captured skipped chunk ((value, following) :: rest)).result none).1 =
      (do
        let hole ← Hole.find index (chunk.drop skipped).getLast? (utf8 following)
        let own ← hole.piece s captured value
        let later ← ((pieceFrom s none (index + 1) (hole.captures value)
          (hole.skips (utf8 following)) (utf8 following) rest).result none).1
        return hole.before (chunk.drop skipped) ++
          (own ++ (hole.kept value (utf8 following) ++ later))) := by
  have hlocal := isLocal_holes s [(value, following)] (value, following) List.mem_cons_self
  rw [pieceFrom, (Piece.Grows.liftM _).result_bind_none, Piece.result_liftM]
  congr 1
  funext hole
  rw [(hlocal.grows s _ _ hole).result_bind_none, Hole.result_piece, Option.or_none]
  cases hole.piece s captured value with
  | error e => rfl
  | ok own =>
    dsimp only [Except.map]
    rw [ok_bind, ok_bind, (grows_pieceFrom (isLocal_holes s rest)).result_bind_none]
    congr 1
    funext later
    simp only [Hole.before_eq, List.append_assoc]
    rfl

/-- A fragment is put together from what is left of its chunks and the texts of its values. In
front of what is left of the first chunk may stand `kept`, which is not for the next hole to take. -/
theorem concatenates_iff (s : Settings) (index : Nat) (captured : Option String) (skipped : Nat)
    (chunk kept : Bytes) (holes : List (Value × String)) (text : Bytes)
    (hkept : ∀ b, Hole.isOpener b = true →
      ((kept ++ chunk.drop skipped).getLast? = some b ↔ (chunk.drop skipped).getLast? = some b)) :
    Concatenates s captured (kept ++ chunk.drop skipped) holes text ↔
      ∃ out, text = kept ++ out ∧
        ((pieceFrom s none index captured skipped chunk holes).result none).1 = .ok out := by
  induction holes generalizing index captured skipped chunk kept text with
  | nil =>
    constructor
    · intro h
      cases h
      exact ⟨_, rfl, rfl⟩
    · rintro ⟨out, rfl, hout⟩
      cases hout
      exact .last
  | cons hole rest ih =>
    obtain ⟨value, following⟩ := hole
    have hsame (kind : Hole) : Stands (kept ++ chunk.drop skipped) (utf8 following) kind ↔
        Hole.find index (chunk.drop skipped).getLast? (utf8 following) = .ok kind := by
      rw [← Hole.find_eq_ok_iff index, Hole.find_congr hkept]
    have hbefore {kind : Hole}
        (hfind : Hole.find index (chunk.drop skipped).getLast? (utf8 following) = .ok kind) :
        kind.before (kept ++ chunk.drop skipped) = kept ++ kind.before (chunk.drop skipped) := by
      rw [Hole.before_eq, Hole.before_eq, Hole.front_append, List.append_assoc]
      intro hopens hnil
      obtain ⟨b, hb, -⟩ := Hole.exists_of_find hfind hopens
      rw [hnil] at hb
      cases hb
    have hlater {kind : Hole} (hstands : Stands (kept ++ chunk.drop skipped) (utf8 following) kind)
        (text : Bytes) := by
      refine ih (index + 1) (kind.captures value) (kind.skips (utf8 following)) (utf8 following)
        (kind.kept value (utf8 following)) text ?_
      intro b hb
      rw [← Hole.remains_eq]
      exact Hole.getLast?_remains hstands value hb
    rw [result_pieceFrom_cons]
    constructor
    · intro h
      cases h with
      | @hole _ _ own text _ _ _ kind hstands hpiece hrest =>
        have hfind := (hsame kind).mp hstands
        rw [Hole.remains_eq] at hrest
        obtain ⟨later, rfl, hout⟩ := (hlater hstands text).mp hrest
        refine ⟨_, ?_, by rw [hfind, ok_bind, hpiece, ok_bind, hout, ok_bind]; rfl⟩
        rw [hbefore hfind]
        simp only [List.append_assoc]
    · rintro ⟨out, rfl, hout⟩
      obtain ⟨kind, hfind, hout⟩ := bind_eq_ok hout
      obtain ⟨own, hpiece, hout⟩ := bind_eq_ok hout
      obtain ⟨later, hlast, hout⟩ := bind_eq_ok hout
      cases hout
      have hstands := (hsame kind).mpr hfind
      have hrest := (hlater hstands _).mpr ⟨later, rfl, hlast⟩
      rw [← Hole.remains_eq] at hrest
      have hall := Concatenates.hole hstands hpiece hrest
      rw [hbefore hfind] at hall
      simpa only [List.append_assoc] using hall

/-! ### What is put together is a text -/

theorem composable_isText (s : Settings) : Composable s IsText where
  nil := .nil
  append := .append
  constant text _ := isText_utf8 text
  identity _ := isText_utf8 _
  name qualifier name := Name.isText_write s.nameQuote_lt qualifier name
  literal := Literal.isText_scalar
  json _ := Literal.isText_string _ (Literal.isText_chars _)
  placeholder _ := isText_utf8 _

theorem isText_literal {s : Settings} {bytes : Bytes} (h : IsLiteral s bytes) : IsText bytes := by
  cases h with
  | scalar h => exact (composable_isText s).literal h
  | json j => exact (composable_isText s).json j

theorem Hole.isText_piece {s : Settings} {qualifier : Option String} {value : Value} {hole : Hole}
    {own : Bytes} (hfree : value.FragmentFree) (h : hole.piece s qualifier value = .ok own) :
    IsText own := by
  have hP := composable_isText s
  have hC := hP.closed
  cases hole with
  | value => exact (emits_writeValue hC (hfree.nests qualifier)).holds _ _ h
  | list => exact (emits_writeList hC (hfree.nests none)).holds _ _ h
  | rows => exact (emits_writeRowsOf hC (hfree.nests none)).holds _ _ h
  | name =>
    cases hname : nameOf value with
    | error e =>
      rw [piece, hname] at h
      cases h
    | ok name =>
      rw [piece, hname] at h
      cases h
      exact hP.name qualifier name
  | names kind =>
    obtain ⟨names, -, h⟩ := bind_eq_ok h
    split at h
    · cases kind with
      | orAll =>
        cases h
        exact hP.name qualifier "*"
      | nonempty => cases h
      | optional =>
        cases h
        exact .nil
    · cases h
      exact hP.names qualifier names
  | assignments =>
    exact (emits_writeAssignmentsOf hC qualifier (hfree.nests none)).holds _ _ h
  | conditions all =>
    exact (emits_writeConditionsOf hC all qualifier (hfree.nests none)).holds _ _ h
  | expression =>
    have hexpression : Emits (Piece.Yields IsText) (writeExpression s qualifier value) := by
      refine emits_writeExpression (fun _ _ => .throw _)
        (fun text => .liftM (isText_fitText (isText_utf8 text)))
        (fun hliteral => .liftM (isText_fitText (isText_literal hliteral))) ?_
      rintro f rfl
      exact hfree.elim
    exact hexpression.holds _ _ h
  | qualifier =>
    cases hname : qualifierOf value with
    | error e =>
      rw [piece, hname] at h
      cases h
    | ok name =>
      rw [piece, hname] at h
      cases h
      exact .nil
  | bare =>
    have hbare : Emits (Piece.Yields IsText) (writeBare s qualifier value) :=
      emits_writeBare (fun _ _ => .throw _) (fun text => .liftM (isText_fitText (isText_utf8 text)))
        (fun hliteral => .pure (isText_literal hliteral)) (hfree.nests qualifier)
    exact hbare.holds _ _ h

theorem Hole.lt_of_isOpener {b : UInt8} (h : isOpener b = true) : b < 0x80 := by
  grind [isOpener]

theorem Stands.isText_before {written next : Bytes} {hole : Hole} (h : Stands written next hole)
    (htext : IsText written) : IsText (hole.before written) := by
  cases h with
  | qualifier | bare => exact htext
  | @enclosed opener _ hlast hencloses =>
    have hwritten : written = written.dropLast ++ [opener] := by
      rw [List.dropLast_append_getLast? opener hlast]
    have hfront : IsText written.dropLast := by
      rw [hwritten] at htext
      exact (htext.cut (Hole.lt_of_isOpener hencloses.isOpener)).1
    cases hole with
    | expression | qualifier | bare => exact htext
    | list => exact hfront.append (.singleton (by decide))
    | _ => exact hfront

/-- The bytes that close an enclosure or go with one that does. -/
def Hole.closers : List UInt8 :=
  [Byte.apostrophe, Byte.closeBracket, Byte.greater, Byte.closeBrace, Byte.ampersand, Byte.bar,
    Byte.backtick, Byte.doubleQuote, Byte.star, Byte.plus, Byte.comma, Byte.space, Byte.dot]

theorem Stands.mem_closers {written next : Bytes} {hole : Hole} (h : Stands written next hole) :
    ∀ b ∈ next.take (hole.skips next), b ∈ Hole.closers := by
  have hone {a : UInt8} (hhead : next.head? = some a) (ha : a ∈ Hole.closers) :
      ∀ b ∈ next.take 1, b ∈ Hole.closers := by
    cases next with
    | nil => cases hhead
    | cons c rest =>
      cases hhead
      exact List.forall_mem_singleton.mpr ha
  have htwo {a b : UInt8} (hhead : next.head? = some a) (ha : a ∈ Hole.closers)
      (hmark : next[1]? = some b) (hb : b ∈ Hole.closers) :
      ∀ c ∈ next.take 2, c ∈ Hole.closers := by
    match next, hhead, hmark with
    | _ :: _ :: _, rfl, rfl =>
      exact List.forall_mem_cons.mpr ⟨ha, List.forall_mem_singleton.mpr hb⟩
  have hquoted {quote : UInt8} (hquote : quote = Byte.backtick ∨ quote = Byte.doubleQuote) :
      quote ∈ Hole.closers := by
    rcases hquote with rfl | rfl <;> decide
  cases h with
  | bare => exact nofun
  | qualifier hopen hdot => exact hone hdot (by decide)
  | enclosed hlast hencloses =>
    cases hencloses with
    | expression => exact nofun
    | name hquote hclose => exact hone hclose (hquoted hquote)
    | orAll hquote hclose hmark => exact htwo hclose (hquoted hquote) hmark (by decide)
    | nonempty hquote hclose hmark => exact htwo hclose (hquoted hquote) hmark (by decide)
    | optional hquote hclose hmark =>
      have hfront := htwo hclose (hquoted hquote) hmark (by decide)
      simp only [Hole.skips]
      split
      · rename_i hspace
        rw [List.take_add_one, hspace]
        exact List.forall_mem_append.mpr ⟨hfront, List.forall_mem_singleton.mpr (by decide)⟩
      · exact hfront
    | value hclose | list hclose | rows hclose | assignments hclose | all hclose | any hclose =>
      exact hone hclose (by decide)

/-- The bytes that close an enclosure are ASCII. -/
theorem Stands.lt_of_mem_take {written next : Bytes} {hole : Hole} (h : Stands written next hole) :
    ∀ b ∈ next.take (hole.skips next), b < 0x80 := by
  have hascii : ∀ b ∈ Hole.closers, b < 0x80 := List.forall_iff_forall_mem.mp (by decide)
  exact fun b hb => hascii b (h.mem_closers b hb)

/-- What goes with a hole at the front of a chunk leaves the byte at its end, unless that closes
something. -/
theorem Stands.getLast?_drop_skips {written next : Bytes} {hole : Hole} {o : UInt8}
    (h : Stands written next hole) (ho : o ∉ Hole.closers) (hlast : next.getLast? = some o) :
    (next.drop (hole.skips next)).getLast? = some o := by
  rw [List.getLast?_drop, if_neg, hlast]
  intro hshort
  have hmem := List.mem_of_getLast? hlast
  rw [← List.take_of_length_le hshort] at hmem
  exact ho (h.mem_closers o hmem)

theorem Stands.isText_remains {written next : Bytes} {hole : Hole} (h : Stands written next hole)
    (value : Value) (htext : IsText next) : IsText (hole.remains value next) := by
  have hclose := h.lt_of_mem_take
  rw [Hole.remains_eq]
  refine IsText.append (.of_ascii ?_) ?_
  · unfold Hole.kept
    split
    · exact List.forall_mem_singleton.mpr (by decide)
    · split
      · exact nofun
      · exact fun b hb => hclose b (List.mem_of_mem_drop hb)
    · exact nofun
  · rw [← List.take_append_drop (hole.skips next) next] at htext
    exact htext.drop_ascii hclose

theorem Concatenates.isText {s : Settings} {captured : Option String} {written text : Bytes}
    {holes : List (Value × String)} (h : Concatenates s captured written holes text)
    (hfree : ∀ hole ∈ holes, hole.1.FragmentFree) (hwritten : IsText written) : IsText text := by
  induction h with
  | last => exact hwritten
  | hole hstands hpiece _ ih =>
    obtain ⟨hvalue, hrest⟩ := List.forall_mem_cons.mp hfree
    have hown := Hole.isText_piece hvalue hpiece
    have hlater := ih hrest (hstands.isText_remains _ (isText_utf8 _))
    exact ((hstands.isText_before hwritten).append hown).append hlater

/-! ### The text of a fragment -/

/-- A text that is checked within a statement becomes what it becomes on its own. -/
theorem result_piece_sanitized (s : Settings) (qualifier : Option String) (mode : SafeMode)
    (text : String) :
    ((sanitized qualifier s mode (writeText text)).piece.result none).1
      = (sanitize text qualifier s mode).map utf8 := by
  change ((sanitized qualifier s mode (write (utf8 text))).piece.result none).1 = _
  rw [(Writes.write (utf8 text)).sanitized.piece_eq, sanitize_map_utf8]
  rfl

theorem Hole.piece_expression_str (s : Settings) (qualifier : Option String) (text : String) :
    Hole.expression.piece s qualifier (.str text)
      = (sanitize text qualifier s .expression).map utf8 := by
  simp only [piece, writeExpression]
  exact result_piece_sanitized s qualifier .expression text

theorem Hole.piece_bare_str (s : Settings) (qualifier : Option String) (text : String) :
    Hole.bare.piece s qualifier (.str text) = (sanitize text qualifier s .chunk).map utf8 := by
  simp only [piece, writeBare]
  exact result_piece_sanitized s qualifier .chunk text

theorem Fragment.toSql_of_result {f : Fragment} {text : Bytes}
    (h : ((pieceFrom f.settings none 0 none 0 (utf8 f.head) f.holes).result none).1 = .ok text)
    (htext : IsText text) : ∃ out, f.toSql = .ok out ∧ utf8 out = text := by
  have hawaits : (Canvas.start (.withCapacity f.sizeHint) none).Awaits (utf8 f.head) [] 0 :=
    ⟨rfl, fun b _ => Iff.rfl⟩
  have hwrote := renderFrom_wrote f.settings none 0 (isLocal_holes f.settings f.holes) hawaits
  change WroteFrom _ _ ((pieceFrom f.settings none 0 none 0 (utf8 f.head) f.holes).result none) _
    at hwrote
  generalize hexec : exec (renderFrom f.settings none 0 f.head f.holes) _ = left at hwrote
  generalize (pieceFrom f.settings none 0 none 0 (utf8 f.head) f.holes).result none = given
    at h hwrote
  cases hwrote with
  | ok hclosing hsink hout =>
    cases h
    rw [List.nil_append] at hout
    obtain ⟨out, hread, hbytes⟩ := Buffer.exists_toText (hout ▸ htext)
    exact ⟨out, (Render.toText_of_exec hexec).trans hread, hbytes.trans hout⟩
  | error => cases h

/-- A fragment whose values hold no fragments renders if and only if every hole is closed as it is
opened and its value can be written there, and then to the concatenation of what is left of its
chunks and the texts of its values. A text in parentheses or with nothing around it is written as it
is checked on its own. -/
theorem Fragment.toSql_iff_concatenates {f : Fragment}
    (hfree : ∀ value ∈ f.params, value.FragmentFree) :
    (∀ text, (∃ out, f.toSql = .ok out ∧ utf8 out = text) ↔
      Concatenates f.settings none (utf8 f.head) f.holes text) ∧
    ∀ qualifier text,
      Hole.expression.piece f.settings qualifier (.str text)
          = (sanitize text qualifier f.settings .expression).map utf8 ∧
        Hole.bare.piece f.settings qualifier (.str text)
          = (sanitize text qualifier f.settings .chunk).map utf8 := by
  have hiff := fun text =>
    concatenates_iff f.settings 0 none 0 (utf8 f.head) [] f.holes text fun b _ => Iff.rfl
  have hholes : ∀ hole ∈ f.holes, hole.1.FragmentFree := fun hole hmem =>
    hfree hole.1 (List.mem_map_of_mem hmem)
  refine ⟨?_, fun qualifier text =>
    ⟨Hole.piece_expression_str _ _ _, Hole.piece_bare_str _ _ _⟩⟩
  intro text
  constructor
  · rintro ⟨out, hout, rfl⟩
    exact (hiff (utf8 out)).mpr ⟨_, rfl, result_of_toSql hout⟩
  · intro h
    obtain ⟨_, rfl, hresult⟩ := (hiff text).mp h
    exact toSql_of_result hresult (h.isText hholes (isText_utf8 f.head))

/-- A qualifier, the name under it, and a list, whose brackets become parentheses. -/
theorem Fragment.toSql_iff_concatenates_list :
    let f : Fragment := ⟨Settings.ofDialect .postgres, "SELECT ",
      [(.str "t", ".`"), (.str "a", "` IN ["), (.list [.int 1, .int 2], "]")], 0⟩
    f.toSql = .ok "SELECT \"t\".\"a\" IN (1, 2)" ∧
      Concatenates f.settings none (utf8 f.head) f.holes
        (utf8 "SELECT \"t\".\"a\" IN (1, 2)") := by
  intro f
  have hout : f.toSql = .ok "SELECT \"t\".\"a\" IN (1, 2)" := by decide +kernel
  have hfree : ∀ value ∈ f.params, value.FragmentFree := by
    simp [f, params, Value.FragmentFree, FragmentFreeItems]
  exact ⟨hout, ((toSql_iff_concatenates hfree).1 _).mp ⟨_, hout, rfl⟩⟩

end SqlTemplate
