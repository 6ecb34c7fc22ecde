import Mathlib.Data.List.Chain
import SqlTemplate.Proofs.Calls
import SqlTemplate.Proofs.Encoding
import SqlTemplate.Proofs.Failures
import SqlTemplate.Proofs.Parts

/-!
# Statements are well enclosed

Whether a hole is closed as it is opened depends on the last byte of the chunk before it and the
first of the chunk after it, whatever else is pushed before and after. A fragment is `Enclosed` if its
neighbouring chunks fit in this way; and while a statement is put together, every clause also leaves
a chunk behind that opens nothing (`Tidy`), so that the next clause may begin with a hole of its own.
All fragments of statements are enclosed, for any clauses, and without fragments in their values
they fail for their values alone (`Statement.build_blameless`).
-/

namespace SqlTemplate

open Render

/-! ### Neighbouring chunks -/

namespace Hole

/-- A chunk closes what the chunk before it opens, if that opens anything. -/
def fits (before after : Bytes) : Bool :=
  before.getLast?.all fun o => !isOpener o || (enclosed? o after).isSome

theorem isSome_enclosed?_cons (o b : UInt8) (rest : Bytes) :
    (enclosed? o (b :: rest)).isSome = (enclosed? o [b]).isSome := by
  unfold enclosed?
  simp only [List.head?_cons]
  grind

/-- No hole is closed by nothing. -/
theorem fits_nil_iff {before : Bytes} :
    fits before [] = true ↔ before.getLast?.any isOpener = false := by
  have hnone (o : UInt8) : (enclosed? o []).isSome = false := by
    unfold enclosed?
    simp
  unfold fits
  cases before.getLast? with
  | none => simp
  | some o => simp [hnone]

theorem fits_append {before after : Bytes} (h : fits before after = true) (more : Bytes) :
    fits before (after ++ more) = true := by
  cases after with
  | nil =>
    rw [fits_nil_iff] at h
    unfold fits
    cases hlast : before.getLast? with
    | none => rfl
    | some o =>
      have ho : isOpener o = false := by simpa [hlast] using h
      simp [ho]
  | cons b after =>
    unfold fits at h ⊢
    simp only [List.cons_append, isSome_enclosed?_cons _ b (after ++ more)]
    simpa only [isSome_enclosed?_cons _ b after] using h

theorem fits_append_left {before : Bytes} (hne : before ≠ []) (front after : Bytes) :
    fits (front ++ before) after = fits before after := by
  rw [fits, fits, List.getLast?_append_of_ne_nil _ hne]

/-- Between neighbouring chunks that fit, it is known what a hole asks for, whatever is left of the
first. -/
theorem exists_find {before after : Bytes} (h : fits before after = true) (index skipped : Nat) :
    ∃ hole, find index (before.drop skipped).getLast? after = .ok hole := by
  cases hlast : (before.drop skipped).getLast? with
  | none => exact ⟨_, rfl⟩
  | some o =>
    by_cases hopener : isOpener o = true
    · rw [List.getLast?_drop] at hlast
      split at hlast
      · cases hlast
      · have hclosed : (enclosed? o after).isSome = true := by
          simpa [fits, hlast, hopener] using h
        obtain ⟨hole, hhole⟩ := Option.isSome_iff_exists.mp hclosed
        exact ⟨hole, by simp [find, hopener, hhole]⟩
    · exact ⟨_, by simp [find, hopener]; rfl⟩

end Hole

/-- What is left of a chunk and the holes after it fail for no template where the chunks fit and the
values hold no fragments. -/
theorem blameless_pieceFrom (s : Settings) (inherited : Option String) (index : Nat)
    (captured : Option String) (skipped : Nat) (chunk : String) {holes : List (Value × String)}
    (hfits : (chunk :: holes.map (·.2)).IsChain fun before after =>
      Hole.fits (utf8 before) (utf8 after) = true)
    (hfree : ∀ hole ∈ holes, hole.1.FragmentFree) :
    (pieceFrom s inherited index captured skipped (utf8 chunk) holes).Blameless := by
  induction holes generalizing index captured skipped chunk with
  | nil =>
    rw [pieceFrom]
    exact .liftM (.ok _)
  | cons hole rest ih =>
    obtain ⟨value, following⟩ := hole
    rw [List.map_cons, List.isChain_cons_cons] at hfits
    obtain ⟨hvalue, hrest⟩ := List.forall_mem_cons.mp hfree
    obtain ⟨kind, hkind⟩ := Hole.exists_find hfits.1 index skipped
    rw [pieceFrom_cons, hkind]
    exact .append (.liftM (.ok _)) (.append (blameless_piece _ kind hvalue)
      (ih (index + 1) _ _ following hfits.2 hrest))

/-! ### Fragments that are put together -/

namespace Fragment

/-- Neighbouring chunks fit, and the values are of a kind. -/
structure Enclosed (V : Value → Prop) (f : Fragment) : Prop where
  fits : f.chunks.IsChain fun before after => Hole.fits (utf8 before) (utf8 after) = true
  values : ∀ value ∈ f.params, V value

/-- A fragment that is enclosed opens nothing at its end. -/
structure Tidy (V : Value → Prop) (f : Fragment) : Prop extends Enclosed V f where
  closed : (utf8 f.lastChunk).getLast?.any Hole.isOpener = false

section Pushes

variable {V : Value → Prop} {f : Fragment}

theorem Enclosed.pushSql (h : f.Enclosed V) (sql : String) : (f.pushSql sql).Enclosed V := by
  obtain ⟨front, hchunks, hchunks'⟩ := f.chunks_pushSql sql
  refine ⟨?_, by rw [params_pushSql]; exact h.values⟩
  have hfits := h.fits
  rw [hchunks, List.isChain_append] at hfits
  rw [hchunks', List.isChain_append]
  refine ⟨hfits.1, List.isChain_singleton _, fun before hbefore after hafter => ?_⟩
  cases hafter
  rw [utf8_append]
  exact Hole.fits_append (hfits.2.2 before hbefore _ rfl) _

/-- A text that opens nothing, whatever it is put after. -/
theorem Enclosed.pushWords (h : f.Enclosed V) (sql : String) (hne : (utf8 sql).isEmpty = false)
    (hsql : (utf8 sql).getLast?.any Hole.isOpener = false) : (f.pushSql sql).Tidy V := by
  refine ⟨h.pushSql sql, ?_⟩
  rw [lastChunk_pushSql, utf8_append,
    List.getLast?_append_of_ne_nil _ (List.isEmpty_eq_false_iff.mp hne)]
  exact hsql

theorem chunks_eq_concat (f : Fragment) : ∃ front, f.chunks = front ++ [f.lastChunk] := by
  obtain ⟨front, hchunks, -⟩ := f.chunks_pushSql ""
  exact ⟨front, hchunks⟩

/-- A chunk that fits the last one is put after it. -/
theorem Enclosed.fits_concat (h : f.Enclosed V) {chunk : String}
    (hchunk : Hole.fits (utf8 f.lastChunk) (utf8 chunk) = true) :
    (f.chunks ++ [chunk]).IsChain fun before after =>
      Hole.fits (utf8 before) (utf8 after) = true := by
  obtain ⟨front, hfront⟩ := f.chunks_eq_concat
  refine List.isChain_append.mpr ⟨h.fits, List.isChain_singleton _, fun before hbefore after hafter => ?_⟩
  rw [hfront, List.getLast?_concat] at hbefore
  cases hbefore
  cases hafter
  exact hchunk

theorem Tidy.pushParam (h : f.Tidy V) {value : Value} (hvalue : V value) :
    (f.pushParam value).Tidy V := by
  refine ⟨⟨?_, ?_⟩, ?_⟩
  · rw [chunks_pushParam]
    exact h.fits_concat (Hole.fits_nil_iff.mpr h.closed)
  · simpa [params, Fragment.pushParam] using
      List.forall_mem_append.mpr ⟨h.values, List.forall_mem_singleton.mpr hvalue⟩
  · rw [lastChunk, Fragment.pushParam, lastOf_concat]
    rfl

/-- Texts that may stand around a hole: the second closes what the first opens. -/
def areAround (opener closer : String) : Bool :=
  !(utf8 opener).isEmpty && Hole.fits (utf8 opener) (utf8 closer)

/-- A hole with the texts around it, whatever text it is put after. -/
theorem Enclosed.pushHole (h : f.Enclosed V) {opener closer : String} {value : Value}
    (hvalue : V value) (haround : areAround opener closer = true) :
    (((f.pushSql opener).pushParam value).pushSql closer).Enclosed V := by
  simp only [areAround, Bool.and_eq_true, Bool.not_eq_true', List.isEmpty_eq_false_iff] at haround
  obtain ⟨hopener, hfits⟩ := haround
  have hopened := h.pushSql opener
  obtain ⟨hholes, hhead⟩ := (f.pushSql opener).holes_pushParam value closer
  have hchunks : (((f.pushSql opener).pushParam value).pushSql closer).chunks
      = (f.pushSql opener).chunks ++ [closer] := by
    rw [chunks, hholes, hhead, List.map_append]
    rfl
  constructor
  · rw [hchunks]
    refine hopened.fits_concat ?_
    rw [lastChunk_pushSql, utf8_append, Hole.fits_append_left hopener]
    exact hfits
  · rw [params, hholes, List.map_append]
    exact List.forall_mem_append.mpr ⟨hopened.values, List.forall_mem_singleton.mpr hvalue⟩

end Pushes

/-! ### Clauses

Every clause begins with words of its own, so it may be put after whatever is enclosed; what comes
after a name or a condition may not begin with a hole. -/

/-- The values that statements make themselves are of the kind: names, and lists of names. -/
structure TakesNames (V : Value → Prop) : Prop where
  str : ∀ text, V (.str text)
  names : ∀ names, V (Statement.namesValue names)

section Clauses

variable {V : Value → Prop} {f : Fragment}

theorem Enclosed.pushConjunction (h : f.Enclosed V) (isFirst : Bool) :
    (f.pushConjunction isFirst).Tidy V := by
  cases isFirst <;> exact h.pushWords _ rfl rfl

variable (hV : TakesNames V)

include hV

theorem Enclosed.pushName (h : f.Enclosed V) (name : String) : (f.pushName name).Enclosed V :=
  h.pushHole (hV.str name) rfl

theorem Tidy.pushQualifier (h : f.Tidy V) (qualifier : Option String) :
    (f.pushQualifier qualifier).Tidy V := by
  cases qualifier with
  | none => exact h
  | some qualifier => exact (h.pushParam (hV.str qualifier)).pushWords _ rfl rfl

theorem Tidy.pushCondition (h : f.Tidy V) (qualifier : Option String) {c : Condition}
    (hc : V c.value) : (f.pushCondition qualifier c).Enclosed V := by
  have hqualified := (h.pushQualifier hV qualifier).toEnclosed
  cases c with
  | expression value => exact hqualified.pushHole hc rfl
  | pairs value => exact hqualified.pushHole hc rfl

theorem Enclosed.pushTable (h : f.Enclosed V) (table : String) (aliasName : Option String) :
    (f.pushTable table aliasName).Enclosed V := by
  have htable := h.pushName hV table
  cases aliasName with
  | none => exact htable
  | some aliasName => exact (htable.pushSql " AS ").pushName hV aliasName

theorem Tidy.pushItems (h : f.Tidy V) (qualifier : Option String) (later : Bool)
    (items : List String) : (f.pushItems qualifier later items).Tidy V := by
  induction items generalizing f later with
  | nil => exact h
  | cons item rest ih =>
    refine ih (.pushParam (.pushQualifier hV ?_ qualifier) (hV.str item)) true
    split
    · exact h.pushWords _ rfl rfl
    · exact h

theorem Enclosed.pushFilters (h : f.Enclosed V) (qualifier : Option String) (isFirst : Bool)
    {filters : List Condition} (hfilters : ∀ c ∈ filters, V c.value) :
    (f.pushFilters qualifier isFirst filters).Enclosed V := by
  induction filters generalizing f isFirst with
  | nil => exact h
  | cons c rest ih =>
    obtain ⟨hc, hrest⟩ := List.forall_mem_cons.mp hfilters
    exact ih ((h.pushConjunction isFirst).pushCondition hV qualifier hc) false hrest

theorem Enclosed.pushJoins (h : f.Enclosed V) {joins : List Join}
    (hjoins : ∀ j ∈ joins, V j.condition.value) : (f.pushJoins joins).Enclosed V := by
  induction joins generalizing f with
  | nil => exact h
  | cons j rest ih =>
    obtain ⟨hj, hrest⟩ := List.forall_mem_cons.mp hjoins
    have htable := (h.pushSql j.keyword).pushTable hV j.table j.aliasName
    exact ih ((htable.pushWords _ rfl rfl).pushCondition hV none hj) hrest

end Clauses

end Fragment

/-! ### Statements -/

/-- The value that an operation is given. -/
def Operation.value? : Operation → Option Value
  | .insert rows _ => some rows
  | .insertFrom _ source => some (.fragment source)
  | .update set => some set
  | .select _ | .delete | .truncate => none

namespace Statement

open Fragment

/-- The values that a statement was given: those of its conditions, and that of its operation. -/
def values (q : Statement) : List Value :=
  q.conditions.map Condition.value ++ (q.staged.bind Operation.value?).toList

variable {V : Value → Prop} (hV : TakesNames V) {q : Statement} {f f' : Fragment}

theorem enclosed_empty (s : Settings) : (Fragment.empty s).Enclosed V :=
  ⟨List.isChain_singleton _, List.forall_mem_nil _⟩

theorem enclosed_pushPage {page : Page} {dialect : Dialect} {isOrdered : Bool} (hf : f.Enclosed V)
    (h : page.push dialect isOrdered f = .ok f') : f'.Enclosed V := by
  unfold Page.push at h
  split at h
  · cases h
    exact hf
  split at h
  · cases h
  · cases h
    refine Enclosed.pushSql ?_ _
    split
    · exact hf.pushSql _
    · exact hf

include hV

theorem enclosed_pushGrouping (hf : f.Enclosed V) (base : Option String) {grouping : Option Grouping}
    (hgrouping : ∀ c ∈ grouping.bind Grouping.having, V c.value) :
    (pushGrouping base f grouping).Enclosed V := by
  cases grouping with
  | none => exact hf
  | some grouping =>
    obtain ⟨columns, having⟩ := grouping
    have hitems := (hf.pushWords " GROUP BY " rfl rfl).pushItems hV base false columns
    cases having with
    | none => exact hitems.toEnclosed
    | some c =>
      exact (hitems.toEnclosed.pushWords _ rfl rfl).pushCondition hV base (hgrouping c rfl)

theorem tidy_pushColumns (hf : f.Tidy V) (base : Option String) (columns : List String) :
    (if columns.isEmpty then f.pushSql "*" else f.pushItems base false columns).Tidy V := by
  split
  · exact hf.toEnclosed.pushWords _ rfl rfl
  · exact hf.pushItems hV base false columns

theorem enclosed_pushOrder (hf : f.Enclosed V) (base : Option String) (orderBy : List String) :
    (if !orderBy.isEmpty then (f.pushSql " ORDER BY ").pushItems base false orderBy
      else f).Enclosed V := by
  split
  · exact (Tidy.pushItems hV (hf.pushWords _ rfl rfl) base false orderBy).toEnclosed
  · exact hf

omit hV in
/-- What the conditions of a statement are like, clause by clause. -/
theorem forall_conditions_iff :
    (∀ c ∈ q.conditions, V c.value) ↔ (∀ j ∈ q.joins, V j.condition.value) ∧
      (∀ c ∈ q.filters, V c.value) ∧ ∀ c ∈ q.grouping.bind Grouping.having, V c.value := by
  simp only [conditions, List.forall_mem_append, List.forall_mem_map, Option.mem_toList, and_assoc,
    Option.mem_def]

theorem enclosed_selectFragment (hq : ∀ c ∈ q.conditions, V c.value) {what : Select}
    (h : q.selectFragment what = .ok f) : f.Enclosed V := by
  obtain ⟨hjoins, hfilters, hgrouping⟩ := forall_conditions_iff.mp hq
  obtain ⟨base, -, h⟩ := bind_eq_ok h
  refine enclosed_pushPage (enclosed_pushOrder hV ?_ base what.orderBy) h
  refine enclosed_pushGrouping hV (.pushFilters hV ?_ base true hfilters) base hgrouping
  refine .pushJoins hV (.pushTable hV (.pushSql ?_ " FROM ") q.table base) hjoins
  refine (tidy_pushColumns hV ?_ base what.columns).toEnclosed
  split <;> exact (enclosed_empty q.settings).pushWords _ rfl rfl

/-! ### Insertions -/

theorem enclosed_pushUpdates (hf : f.Enclosed V) (family : Family) (later : Bool)
    (columns : List String) : (pushUpdates family later f columns).Enclosed V := by
  induction columns generalizing f later with
  | nil => exact hf
  | cons column rest ih =>
    have hcolumn : ((if later then f.pushSql ", " else f).pushName column).Enclosed V := by
      refine .pushName hV ?_ column
      split
      · exact hf.pushSql _
      · exact hf
    refine ih ?_ true
    split
    · exact ((hcolumn.pushSql "=VALUES(").pushName hV column).pushSql ")"
    · exact (hcolumn.pushSql "=excluded.").pushName hV column

omit hV in
/-- What is pushed to update the rows that collide, where this is not refused. -/
theorem pushConflict_doUpdate_ok {dialect : Dialect} {rows : Value} {target columns : List String}
    (h : pushConflict dialect rows f (.doUpdate target columns) = .ok f') :
    ∃ updated, f' = pushUpdates dialect.family false
      (if dialect.family = .mysql then f.pushSql " ON DUPLICATE KEY UPDATE "
        else ((f.pushSql " ON CONFLICT (\"").pushParam (namesValue target)).pushSql
          "\"+) DO UPDATE SET ") updated := by
  unfold pushConflict at h
  obtain ⟨-, h⟩ := guard_eq_ok h
  dsimp only at h
  split at h
  · obtain ⟨-, h⟩ := guard_eq_ok h
    obtain ⟨-, h⟩ := guard_eq_ok h
    obtain ⟨-, h⟩ := guard_eq_ok h
    exact ⟨_, (Except.ok.inj h).symm⟩
  · obtain ⟨-, h⟩ := guard_eq_ok h
    exact ⟨_, (Except.ok.inj h).symm⟩

theorem enclosed_pushConflict {dialect : Dialect} {rows : Value} {conflict : OnConflict}
    (hf : f.Enclosed V) (h : pushConflict dialect rows f conflict = .ok f') : f'.Enclosed V := by
  cases conflict with
  | fail =>
    cases h
    exact hf
  | doNothing =>
    simp only [pushConflict] at h
    split at h
    · cases h
    · split at h
      · cases h
      · cases h
        exact ((((hf.pushSql _).pushName hV _).pushSql "=").pushName hV _)
    · cases h
      exact hf.pushSql _
  | doUpdate target columns =>
    obtain ⟨updated, rfl⟩ := pushConflict_doUpdate_ok h
    refine enclosed_pushUpdates hV ?_ dialect.family false updated
    split
    · exact hf.pushSql _
    · exact hf.pushHole (hV.names target) rfl

theorem enclosed_insertFragment {rows : Value} {conflict : OnConflict} (hrows : V rows)
    (h : q.insertFragment rows conflict = .ok f) : f.Enclosed V := by
  refine enclosed_pushConflict hV ?_ h
  exact (((enclosed_empty q.settings).pushSql _).pushTable hV q.table none).pushHole hrows rfl

theorem enclosed_insertFromFragment {columns : List String} {source : Fragment}
    (hsource : V (.fragment source)) : (q.insertFromFragment columns source).Enclosed V := by
  have htable := ((enclosed_empty q.settings).pushSql "INSERT INTO ").pushTable hV q.table none
  refine (Tidy.pushParam (Enclosed.pushWords ?_ _ rfl rfl) hsource).toEnclosed
  split
  · exact htable
  · exact htable.pushHole (hV.names columns) rfl

/-! ### Updates and deletions -/

theorem enclosed_pushSameRow (hf : f.Enclosed V) (family : Family) (subject base : String) :
    (pushSameRow family subject base f).Enclosed V :=
  ((((hf.pushName hV subject).pushSql _).pushSql _).pushName hV base).pushSql _

omit hV in
theorem enclosed_pushAssignments (hf : f.Enclosed V) {set : Value} (hset : V set) :
    (pushAssignments set f).Enclosed V :=
  hf.pushHole hset rfl

theorem enclosed_pushQualifiedAssignments (hf : f.Tidy V) (base : String) {set : Value}
    (hset : V set) : (pushQualifiedAssignments base set f).Enclosed V :=
  enclosed_pushAssignments (hf.pushQualifier hV (some base)).toEnclosed hset

/-- The own table under its alias, with all joins. -/
theorem enclosed_pushJoined (hf : f.Enclosed V) (hq : ∀ c ∈ q.conditions, V c.value)
    (aliasName : String) : ((f.pushTable q.table (some aliasName)).pushJoins q.joins).Enclosed V :=
  (hf.pushTable hV q.table (some aliasName)).pushJoins hV (forall_conditions_iff.mp hq).1

theorem enclosed_pushOwnFilters (hf : f.Enclosed V) (hq : ∀ c ∈ q.conditions, V c.value)
    (qualifier : Option String) (isFirst : Bool) :
    (f.pushFilters qualifier isFirst q.filters).Enclosed V :=
  hf.pushFilters hV qualifier isFirst (forall_conditions_iff.mp hq).2.1

/-- All joins with the own table once more, the two matched row by row. -/
theorem enclosed_pushMatched (hf : f.Enclosed V) (hq : ∀ c ∈ q.conditions, V c.value)
    (family : Family) (subject base : String) :
    (pushSameRow family subject base (((f.pushTable q.table (some base)).pushJoins
      q.joins).pushConjunction true)).Enclosed V :=
  enclosed_pushSameRow hV ((enclosed_pushJoined hV hf hq base).pushConjunction true).toEnclosed _ _ _

/-- Rows matched by a first join, whose condition moves among the filters. -/
theorem enclosed_pushFirst {first : Join} {rest : List Join} (hf : f.Enclosed V)
    (hq : ∀ c ∈ q.conditions, V c.value) (hjoins : q.joins = first :: rest) :
    ((((f.pushSource first).pushJoins rest).pushConjunction true).pushCondition none
      first.condition).Enclosed V := by
  have hall := (forall_conditions_iff.mp hq).1
  rw [hjoins] at hall
  obtain ⟨hfirst, hrest⟩ := List.forall_mem_cons.mp hall
  have htables := (hf.pushTable hV first.table first.aliasName).pushJoins hV hrest
  exact (htables.pushConjunction true).pushCondition hV none hfirst

theorem enclosed_updateFrom (hf : f.Enclosed V) (hq : ∀ c ∈ q.conditions, V c.value) {set : Value}
    (hset : V set) {base : String} (h : q.updateFrom set base f = .ok f') : f'.Enclosed V := by
  have htarget (aliasName : String) : ((pushAssignments set
      (((f.pushSql "UPDATE ").pushTable q.table (some aliasName)).pushSql " SET ")).pushSql
        " FROM ").Enclosed V :=
    (enclosed_pushAssignments (((hf.pushSql _).pushTable hV q.table _).pushSql _) hset).pushSql _
  unfold updateFrom at h
  split at h
  · cases h
  · rename_i first rest hjoins
    split at h
    · obtain ⟨subject, -, h⟩ := bind_eq_ok h
      cases h
      exact enclosed_pushMatched hV (htarget subject) hq _ _ _
    · cases h
      exact enclosed_pushFirst hV (htarget base) hq hjoins

theorem enclosed_updateFragment (hq : ∀ c ∈ q.conditions, V c.value) {set : Value} (hset : V set)
    (h : q.updateFragment set = .ok f) : f.Enclosed V := by
  have hempty : (Fragment.empty q.settings).Enclosed V := enclosed_empty q.settings
  obtain ⟨base, -, h⟩ := bind_eq_ok h
  cases base with
  | none =>
    cases h
    have htable := (hempty.pushSql "UPDATE ").pushTable hV q.table none
    exact enclosed_pushOwnFilters hV (enclosed_pushAssignments (htable.pushSql _) hset) hq _ _
  | some base =>
    dsimp only at h
    split at h
    · cases h
      have htables := enclosed_pushJoined hV (hempty.pushSql "UPDATE ") hq base
      have hset := enclosed_pushQualifiedAssignments hV (htables.pushWords " SET " rfl rfl) base hset
      exact enclosed_pushOwnFilters hV hset hq _ _
    · cases h
      have hname := (hempty.pushSql "UPDATE ").pushName hV base
      have hset := enclosed_pushQualifiedAssignments hV (hname.pushWords " SET " rfl rfl) base hset
      exact enclosed_pushOwnFilters hV (enclosed_pushJoined hV (hset.pushSql _) hq base) hq _ _
    · obtain ⟨from', hfrom, h⟩ := bind_eq_ok h
      cases h
      exact enclosed_pushOwnFilters hV (enclosed_updateFrom hV hempty hq hset hfrom) hq _ _
    · obtain ⟨from', hfrom, h⟩ := bind_eq_ok h
      cases h
      exact enclosed_pushOwnFilters hV (enclosed_updateFrom hV hempty hq hset hfrom) hq _ _

theorem enclosed_deleteUsing (hf : f.Enclosed V) (hq : ∀ c ∈ q.conditions, V c.value)
    {base : String} (h : q.deleteUsing base f = .ok f') : f'.Enclosed V := by
  have htarget (aliasName : String) : (((f.pushSql "DELETE FROM ").pushTable q.table
      (some aliasName)).pushSql " USING ").Enclosed V :=
    ((hf.pushSql _).pushTable hV q.table _).pushSql _
  unfold deleteUsing at h
  split at h
  · cases h
  · rename_i first rest hjoins
    split at h
    · obtain ⟨subject, -, h⟩ := bind_eq_ok h
      cases h
      exact enclosed_pushMatched hV (htarget subject) hq _ _ _
    · cases h
      exact enclosed_pushFirst hV (htarget base) hq hjoins

theorem enclosed_deleteFragment (hq : ∀ c ∈ q.conditions, V c.value)
    (h : q.deleteFragment = .ok f) : f.Enclosed V := by
  have hempty : (Fragment.empty q.settings).Enclosed V := enclosed_empty q.settings
  obtain ⟨base, -, h⟩ := bind_eq_ok h
  cases base with
  | none =>
    cases h
    exact enclosed_pushOwnFilters hV ((hempty.pushSql _).pushTable hV q.table none) hq _ _
  | some base =>
    have hjoined : (((((Fragment.empty q.settings).pushSql "DELETE ").pushName base).pushSql
        " FROM ").pushTable q.table (some base) |>.pushJoins q.joins).Enclosed V :=
      enclosed_pushJoined hV (((hempty.pushSql _).pushName hV base).pushSql _) hq base
    dsimp only at h
    split at h
    · cases h
      exact enclosed_pushOwnFilters hV hjoined hq _ _
    · cases h
      exact enclosed_pushOwnFilters hV hjoined hq _ _
    · obtain ⟨using', husing, h⟩ := bind_eq_ok h
      cases h
      exact enclosed_pushOwnFilters hV (enclosed_deleteUsing hV hempty hq husing) hq _ _
    · cases h
      have htable := (hempty.pushSql "DELETE FROM ").pushTable hV q.table none
      have hrows := ((htable.pushSql " WHERE rowid IN (SELECT ").pushName hV base).pushSql ".rowid FROM "
      exact (enclosed_pushOwnFilters hV (enclosed_pushJoined hV hrows hq base) hq _ _).pushSql _

theorem enclosed_truncateFragment : q.truncateFragment.Enclosed V :=
  ((enclosed_empty q.settings).pushSql _).pushTable hV q.table none

/-- The fragment of a statement is enclosed, and its values are those of the statement, names and
lists of names. -/
theorem enclosed_build {q' : Statement} (h : q.build = .ok (f, q'))
    (hvalues : ∀ value ∈ q.values, V value) : f.Enclosed V := by
  simp only [values, List.forall_mem_append, List.forall_mem_map, Option.mem_toList] at hvalues
  obtain ⟨hq, hstaged⟩ := hvalues
  unfold build at h
  split at h
  · cases h
  · rename_i operation hoperation
    rw [hoperation] at hstaged
    obtain ⟨built, hbuilt, h⟩ := bind_eq_ok h
    cases h
    cases operation with
    | select what => exact enclosed_selectFragment hV hq hbuilt
    | insert rows conflict => exact enclosed_insertFragment hV (hstaged rows rfl) hbuilt
    | insertFrom columns source =>
      cases hbuilt
      exact enclosed_insertFromFragment hV (hstaged _ rfl)
    | update set => exact enclosed_updateFragment hV hq (hstaged set rfl) hbuilt
    | delete => exact enclosed_deleteFragment hV hq hbuilt
    | truncate =>
      cases hbuilt
      exact enclosed_truncateFragment hV

omit hV in
theorem takesNames_fragmentFree : TakesNames Value.FragmentFree where
  str _ := trivial
  names names := by
    rw [namesValue, Value.FragmentFree]
    induction names with
    | nil => trivial
    | cons name rest ih => exact ⟨trivial, ih⟩

end Statement

/-- An enclosed fragment without fragments in its values fails for its values alone, with a sink or
without one, and if it is rendered for its text. -/
theorem Fragment.Enclosed.blameless {f : Fragment} (h : f.Enclosed Value.FragmentFree) :
    (∀ (out : Buffer) (sink : Sink) (options : Options),
      Blameless (f.renderInto out sink options).result) ∧ Blameless f.toSql := by
  have hfree : ∀ hole ∈ f.holes, hole.1.FragmentFree := fun hole hhole =>
    h.values hole.1 (List.mem_map_of_mem hhole)
  have hpiece (s : Settings) : (f.piece s).Blameless :=
    blameless_pieceFrom s none 0 none 0 f.head h.fits hfree
  constructor
  · intro out sink options
    rw [(f.renderInto_eq out sink options).1]
    exact (hpiece _ sink).map _
  · exact failsIn_toSql (hpiece f.settings none)

namespace Statement

/-- Whatever clauses a statement has and whatever operation is staged, if it is built then the
fragment has one chunk more than values and every hole is closed as it is opened. If the statement
was given no fragments, then rendering the fragment, with a sink or without one, does not fail for
the number of its chunks, for a hole that is not closed, or for bytes that are no text. -/
theorem build_blameless {q q' : Statement} {f : Fragment} (h : q.build = .ok (f, q')) :
    f.chunks.length = f.params.length + 1 ∧
      (f.chunks.IsChain fun before after => Hole.fits (utf8 before) (utf8 after) = true) ∧
      ((∀ value ∈ q.values, value.FragmentFree) →
        (∀ (out : Buffer) (sink : Option (Array Value)) (options : Fragment.Options) (e : Error),
          (f.renderInto out sink options).result = .error e → e.isOfTemplate = false) ∧
        ∀ e, f.toSql = .error e → e.isOfTemplate = false) := by
  refine ⟨by simp [Fragment.chunks, Fragment.params], ?_, fun hfree => ?_⟩
  · exact (enclosed_build (V := fun _ => True) ⟨fun _ => trivial, fun _ => trivial⟩ h
      fun _ _ => trivial).fits
  · exact (enclosed_build takesNames_fragmentFree h hfree).blameless

/-- A deletion from a table that is joined to itself, with a filter that is refused: it fails, and
not for its template. -/
theorem build_blameless_delete :
    let q : Statement := ⟨.ofDialect .postgres, "t",
      [⟨.left, "u", none, .expression (.str "1")⟩],
      [.pairs (.map [("a", .list [.int 1, .null])]), .expression (.str "c;")], none, some .delete⟩
    ∃ f q', q.build = .ok (f, q') ∧ f.chunks.length = f.params.length + 1 ∧
      (∃ e, f.toSql = .error e) ∧ ∀ e, f.toSql = .error e → e.isOfTemplate = false := by
  intro q
  have hrefused : (q.build.toOption.map fun built => built.1.toSql.isOk) = some false := by
    decide +kernel
  obtain ⟨f, hbuild⟩ : ∃ f, q.build = .ok (f, { q with staged := none }) := ⟨_, rfl⟩
  have hfails : ∃ e, f.toSql = .error e := by
    rw [hbuild] at hrefused
    cases hsql : f.toSql with
    | error e => exact ⟨e, rfl⟩
    | ok sql => simp [hsql, Except.toOption, Except.isOk, Except.toBool] at hrefused
  obtain ⟨hlength, -, hrendered⟩ := build_blameless hbuild
  have hfree : ∀ value ∈ q.values, value.FragmentFree := by
    simp [q, values, conditions, Condition.value, Operation.value?, Value.FragmentFree,
      FragmentFreeEntries, FragmentFreeItems]
  exact ⟨f, _, hbuild, hlength, hfails, (hrendered hfree).2⟩

end Statement

end SqlTemplate
