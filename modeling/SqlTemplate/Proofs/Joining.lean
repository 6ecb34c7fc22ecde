import SqlTemplate.Proofs.Conditions
import SqlTemplate.Proofs.Encoding
import SqlTemplate.Proofs.Parts

/-!
# Fragments joined and nested

One fragment can be put after another in two ways: their chunks are joined at the seam, or the second
becomes the value of a hole that nothing encloses. What a hole asks for is read off the chunk before
it and the first bytes of the chunk after it, so a chunk that grows at the seam could change the last
hole of the first fragment, or the first hole of the second. It does not if the last chunk is long
enough to hold all that its hole reads and does not end in a byte that opens an enclosure. Then both
ways give the text of the first fragment and after it the text of the second
(`Fragment.toSql_concat_iff`).
-/

namespace SqlTemplate

open Render

/-! ### Longer chunks -/

namespace Hole

variable {next : Bytes} (more : Bytes)

/-- A hole reads no more than two bytes of the chunk after it. -/
theorem find_append (index : Nat) (opener : Option UInt8) (h : 2 ≤ next.length) :
    find index opener (next ++ more) = find index opener next := by
  have hhead : (next ++ more).head? = next.head? :=
    List.head?_append_of_ne_nil _ (List.length_pos_iff.mp (by omega))
  have hmark : (next ++ more)[1]? = next[1]? := List.getElem?_append_left (by omega)
  unfold find enclosed?
  rw [hhead, hmark]

theorem stands_append_iff (h : 2 ≤ next.length) {written : Bytes} {hole : Hole} :
    Stands written (next ++ more) hole ↔ Stands written next hole := by
  rw [← find_eq_ok_iff 0, ← find_eq_ok_iff 0, find_append more 0 _ h]

/-- A hole takes no more than three bytes of the chunk after it. -/
theorem remains_append (h : 3 ≤ next.length) (value : Value) (hole : Hole) :
    hole.remains value (next ++ more) = hole.remains value next ++ more := by
  have hdrop {n : Nat} (hn : n ≤ 3) : (next ++ more).drop n = next.drop n ++ more :=
    List.drop_append_of_le_length (by omega)
  have hspace : (next ++ more)[2]? = next[2]? := List.getElem?_append_left (by omega)
  cases hole with
  | names kind =>
    cases kind with
    | optional =>
      simp only [remains, hspace]
      split
      · exact hdrop (by split <;> decide)
      · exact hdrop (by decide)
    | _ => exact hdrop (by decide)
  | expression | bare => rfl
  | list => exact congrArg (Byte.closeParen :: ·) (hdrop (by decide))
  | _ => exact hdrop (by decide)

end Hole

theorem Stands.captures_eq_none {written next : Bytes} {hole : Hole} (h : Stands written next hole)
    (hdot : next.head? ≠ some Byte.dot) (value : Value) : hole.captures value = none := by
  cases h with
  | enclosed _ hencloses => cases hencloses <;> rfl
  | qualifier _ hhead => exact absurd hhead hdot
  | bare => rfl

/-- What is left of a chunk that ends in no opening byte ends in none. -/
theorem Stands.getLast?_remains {written next : Bytes} {hole : Hole} (h : Stands written next hole)
    (hopen : next.getLast?.any Hole.isOpener = false) (value : Value) :
    (hole.remains value next).getLast?.any Hole.isOpener = false := by
  cases hlast : (hole.remains value next).getLast? with
  | none => rfl
  | some b =>
    by_contra hb
    have hopener : Hole.isOpener b = true := by simpa using hb
    have hdrop := (Hole.getLast?_remains h value hopener).mp hlast
    rw [List.getLast?_drop] at hdrop
    split at hdrop
    · cases hdrop
    · rw [hdrop] at hopen
      exact hb hopen

/-! ### Chunks that are joined -/

section Joined

variable {s : Settings} {captured : Option String} {written text : Bytes}
  {value : Value} {next : String} {rest : List (Value × String)}

theorem concatenates_cons_iff_exists :
    Concatenates s captured written ((value, next) :: rest) text ↔
      ∃ hole own later, Stands written (utf8 next) hole ∧
        hole.piece s captured value = .ok own ∧ text = hole.before written ++ own ++ later ∧
        Concatenates s (hole.captures value) (hole.remains value (utf8 next)) rest later := by
  constructor
  · intro h
    cases h with
    | hole hstands hpiece hrest => exact ⟨_, _, _, hstands, hpiece, rfl, hrest⟩
  · rintro ⟨hole, own, later, hstands, hown, rfl, hlater⟩
    exact .hole hstands hown hlater

theorem concatenates_nil_iff : Concatenates s captured written [] text ↔ text = written := by
  constructor
  · intro h
    cases h
    rfl
  · rintro rfl
    exact .last

/-- Where the last chunk holds all that its hole reads, what is put after it comes after the text. -/
theorem concatenates_join_iff {holes more : List (Value × String)} {last first : String}
    (hlength : 3 ≤ (utf8 last).length) (hdot : (utf8 last).head? ≠ some Byte.dot)
    (hopen : (utf8 last).getLast?.any Hole.isOpener = false) :
    Concatenates s captured written (holes ++ (value, last ++ first) :: more) text ↔
      ∃ x y, text = x ++ y ∧ Concatenates s captured written (holes ++ [(value, last)]) x ∧
        Concatenates s none (utf8 first) more y := by
  induction holes generalizing captured written text with
  | nil =>
    simp only [List.nil_append, concatenates_cons_iff_exists, concatenates_nil_iff, utf8_append]
    constructor
    · rintro ⟨hole, own, later, hstands, hown, rfl, hlater⟩
      rw [Hole.stands_append_iff _ (by omega)] at hstands
      rw [Hole.remains_append _ hlength, hstands.captures_eq_none hdot,
        concatenates_append_iff (hstands.getLast?_remains hopen value)] at hlater
      obtain ⟨y, rfl, hy⟩ := hlater
      exact ⟨_, y, (List.append_assoc _ _ _).symm, ⟨hole, own, _, hstands, hown, rfl, rfl⟩, hy⟩
    · rintro ⟨x, y, rfl, ⟨hole, own, later, hstands, hown, rfl, rfl⟩, hy⟩
      refine ⟨hole, own, hole.remains value (utf8 last) ++ y,
        (Hole.stands_append_iff _ (by omega)).mpr hstands, hown, List.append_assoc _ _ _, ?_⟩
      rw [Hole.remains_append _ hlength, hstands.captures_eq_none hdot,
        concatenates_append_iff (hstands.getLast?_remains hopen value)]
      exact ⟨y, rfl, hy⟩
  | cons hole holes ih =>
    obtain ⟨other, following⟩ := hole
    simp only [List.cons_append, concatenates_cons_iff_exists, ih]
    constructor
    · rintro ⟨hole, own, later, hstands, hown, rfl, x, y, rfl, hx, hy⟩
      exact ⟨_, y, (List.append_assoc _ _ _).symm, ⟨hole, own, x, hstands, hown, rfl, hx⟩, hy⟩
    · rintro ⟨x, y, rfl, ⟨hole, own, later, hstands, hown, rfl, hx⟩, hy⟩
      exact ⟨hole, own, later ++ y, hstands, hown, List.append_assoc _ _ _, later, y, rfl, hx, hy⟩

end Joined

/-! ### Fragments -/

namespace Fragment

variable {a b : Fragment}

/-- A fragment whose last hole reads no further than the last chunk goes, and whose end does not
open an enclosure. -/
structure Seals (f : Fragment) : Prop where
  long : f.holes = [] ∨ 3 ≤ (utf8 f.lastChunk).length ∧ (utf8 f.lastChunk).head? ≠ some Byte.dot
  closed : ∀ o ∈ (utf8 f.lastChunk).getLast?, Hole.isOpener o = false

theorem Seals.any_isOpener (h : a.Seals) :
    (utf8 a.lastChunk).getLast?.any Hole.isOpener = false := by
  cases hlast : (utf8 a.lastChunk).getLast? with
  | none => rfl
  | some o => exact h.closed o hlast

/-- What is put after a sealed fragment, as text and as holes, comes after its text. -/
theorem concatenates_pushSql_iff (h : a.Seals) {first : String} {more : List (Value × String)}
    {text : Bytes} :
    Concatenates a.settings none (utf8 (a.pushSql first).head) ((a.pushSql first).holes ++ more)
        text ↔
      ∃ x y, text = x ++ y ∧ Concatenates a.settings none (utf8 a.head) a.holes x ∧
        Concatenates a.settings none (utf8 first) more y := by
  have hopen := h.any_isOpener
  rcases a.pushSql_cases first with
    ⟨hholes, hholes', hhead⟩ | ⟨holes, value, last, hholes, hholes', hhead⟩
  · rw [lastChunk, hholes, lastOf] at hopen
    rw [hholes', hhead, List.nil_append, utf8_append, concatenates_append_iff hopen, hholes]
    simp only [concatenates_nil_iff]
    constructor
    · rintro ⟨y, rfl, hy⟩
      exact ⟨_, y, rfl, rfl, hy⟩
    · rintro ⟨x, y, rfl, rfl, hy⟩
      exact ⟨y, rfl, hy⟩
  · have hlast : a.lastChunk = last := by rw [lastChunk, hholes, lastOf_concat]
    obtain ⟨hlength, hdot⟩ := h.long.resolve_left (by simp [hholes])
    rw [hlast] at hlength hdot hopen
    rw [hholes', hhead, hholes, List.append_assoc, List.singleton_append]
    exact concatenates_join_iff hlength hdot hopen

/-- A text put together from two is so already as a string. -/
theorem exists_append_iff {P Q : Bytes → Prop} {out : String} (hP : ∀ {x}, P x → IsText x)
    (hQ : ∀ {y}, Q y → IsText y) :
    (∃ x y, utf8 out = x ++ y ∧ P x ∧ Q y) ↔
      ∃ x y, P (utf8 x) ∧ Q (utf8 y) ∧ out = x ++ y := by
  constructor
  · rintro ⟨x, y, hout, hx, hy⟩
    obtain ⟨x, rfl⟩ := hP hx
    obtain ⟨y, rfl⟩ := hQ hy
    rw [← utf8_append] at hout
    exact ⟨x, y, hx, hy, utf8_injective hout⟩
  · rintro ⟨x, y, hx, hy, rfl⟩
    exact ⟨_, _, utf8_append x y, hx, hy⟩

/-- A fragment in a hole that nothing encloses writes what it writes on its own, under the settings
of the fragment around it. -/
theorem concatenates_bare_fragment_iff {s : Settings} (hembeds : s.checkEmbeds b.settings = .ok ())
    {text : Bytes} :
    Concatenates s none (utf8 "") [(.fragment b, "")] text ↔
      Concatenates s none (utf8 b.head) b.holes text := by
  have hstands : Stands (utf8 "") (utf8 "") .bare := by
    refine .bare (fun o h => ?_) (by decide)
    cases h
  have hpiece : Hole.bare.piece s none (.fragment b) = ((b.piece s).result none).1 := by
    obtain ⟨child, head, holes, sizeHint⟩ := b
    change bytes (embedded s child (renderFrom s none 0 head holes)) = _
    rw [bytes_embedded s none ⟨child, head, holes, sizeHint⟩, hembeds, ok_bind, bytes, piece_render]
    rfl
  have halone := concatenates_iff s 0 none 0 (utf8 b.head) [] b.holes text fun _ _ => Iff.rfl
  simp only [List.nil_append, exists_eq_left'] at halone
  rw [concatenates_cons_iff hstands, hpiece]
  refine Iff.trans ?_ halone.symm
  clear halone
  constructor
  · rintro ⟨own, later, hown, rfl, hlater⟩
    cases hlater
    exact hown.trans (congrArg Except.ok (List.append_nil own).symm)
  · exact fun hown => ⟨text, [], hown, (List.append_nil text).symm, .last⟩

theorem extendLast_empty (holes : List (Value × String)) : extendLast "" holes = holes := by
  induction holes with
  | nil => rfl
  | cons hole rest ih =>
    obtain ⟨value, chunk⟩ := hole
    cases rest with
    | nil => rw [extendLast, String.append_empty]
    | cons next rest => exact congrArg ((value, chunk) :: ·) ih

/-- A hole after a sealed fragment comes after its text. -/
theorem concatenates_pushParam_iff (h : a.Seals) {value : Value} {text : Bytes} :
    Concatenates a.settings none (utf8 (a.pushParam value).head) (a.pushParam value).holes text ↔
      ∃ x y, text = x ++ y ∧ Concatenates a.settings none (utf8 a.head) a.holes x ∧
        Concatenates a.settings none (utf8 "") [(value, "")] y := by
  obtain ⟨-, hholes, hhead⟩ := a.pushSql_eq ""
  rw [← concatenates_pushSql_iff h, hholes, hhead, extendLast_empty, String.append_empty, ite_self]
  rfl

theorem concat_eq_ok (hembeds : a.settings.checkEmbeds b.settings = .ok ()) :
    ∃ c, a.concat b = .ok c ∧ c.settings = a.settings ∧ c.head = (a.pushSql b.head).head ∧
      c.holes = (a.pushSql b.head).holes ++ b.holes := by
  refine ⟨{ a.pushSql b.head with
    holes := (a.pushSql b.head).holes ++ b.holes
    sizeHint := (a.pushSql b.head).sizeHint + b.sizeHint }, ?_, (a.pushSql_eq b.head).1, rfl, rfl⟩
  rw [concat, hembeds]
  rfl

/-- The chunks and the values of a fragment make the same fragment again, under any settings. -/
theorem ofChunks_chunks (s : Settings) (f : Fragment) :
    ∃ sizeHint, ofChunks s f.chunks f.params = .ok ⟨s, f.head, f.holes, sizeHint⟩ := by
  refine ⟨hintOf f.chunks f.params, ?_⟩
  have hzip : f.params.zip (f.holes.map (·.2)) = f.holes := by
    rw [params, List.zip_map', List.map_id'']
    exact fun _ => rfl
  have hlength : (f.holes.map (·.2)).length = f.params.length := by simp [params]
  unfold ofChunks chunks
  dsimp only
  rw [if_pos hlength, hzip]

/-- A fragment that may be embedded can be put after a sealed one. Joining the two gives a text iff
each has one, the second under the settings of the first, and then it is the one text and after it
the other; and to push the second as a value gives the same texts as joining it. -/
theorem toSql_concat_iff (hembeds : a.settings.checkEmbeds b.settings = .ok ()) (hseals : a.Seals) :
    ∃ c again, a.concat b = .ok c ∧ ofChunks a.settings b.chunks b.params = .ok again ∧
      ∀ out,
        (c.toSql = .ok out ↔ ∃ x y, a.toSql = .ok x ∧ again.toSql = .ok y ∧ out = x ++ y) ∧
        ((a.pushParam (.fragment b)).toSql = .ok out ↔ c.toSql = .ok out) := by
  obtain ⟨c, hc, hsettings, hhead, hholes⟩ := concat_eq_ok hembeds
  obtain ⟨sizeHint, hagain⟩ := ofChunks_chunks a.settings b
  refine ⟨c, _, hc, hagain, fun out => ?_⟩
  simp only [toSql_eq_ok_iff_concatenates, hsettings, hhead, hholes]
  rw [concatenates_pushSql_iff hseals]
  constructor
  · exact exists_append_iff (fun hx => hx.isText_of_written (isText_utf8 _))
      fun hy => hy.isText_of_written (isText_utf8 _)
  · change Concatenates a.settings none _ _ _ ↔ _
    rw [concatenates_pushParam_iff hseals]
    simp only [concatenates_bare_fragment_iff hembeds]

/-- A fragment written for MySQL is joined to one for Postgres, or pushed as its value. -/
theorem toSql_concat_iff_filter :
    let a : Fragment := ⟨.ofDialect .postgres, "SELECT `", [(.str "a", "` FROM t WHERE ")], 0⟩
    let b : Fragment := ⟨.ofDialect .mysql, "`", [(.str "b", "` IN ["),
      (.list [.int 1, .int 2], "]")], 0⟩
    let out := "SELECT \"a\" FROM t WHERE \"b\" IN (1, 2)"
    a.Seals ∧ ∃ c, a.concat b = .ok c ∧ c.toSql = .ok out ∧
      (a.pushParam (.fragment b)).toSql = .ok out := by
  intro a b out
  have hseals : a.Seals := ⟨Or.inr (by decide +kernel), by decide +kernel⟩
  have hfirst : a.toSql = .ok "SELECT \"a\" FROM t WHERE " := by decide +kernel
  have hsecond : toSql ⟨.ofDialect .postgres, b.head, b.holes, hintOf b.chunks b.params⟩
      = .ok "\"b\" IN (1, 2)" := by decide +kernel
  obtain ⟨c, again, hc, hagain, hout⟩ := toSql_concat_iff (a := a) (b := b) rfl hseals
  obtain rfl : _ = again := Except.ok.inj hagain
  have hjoined := (hout out).1.mpr ⟨_, _, hfirst, hsecond, by decide +kernel⟩
  exact ⟨hseals, c, hc, hjoined, (hout out).2.mpr hjoined⟩

end Fragment

end SqlTemplate
