import SqlTemplate.Proofs.Parts
import SqlTemplate.Statement

/-!
# No filter is lost

An update or a deletion that is built has every condition of its joins and every filter once, where
the server reads it as that. The families put a statement together in different ways, but each of
them in the same order: what precedes the joins, the joins, what follows them, and the conjuncts of
the `WHERE` clause. `Statement.Assembly` says so, `Statement.exists_assembly` is the case analysis,
and `Statement.conditions_of_build` reads the filters off the parts.
-/

namespace SqlTemplate

/-- The operation changes or deletes rows that are there. -/
def Operation.changesRows : Operation → Bool
  | .update _ | .delete => true
  | _ => false

/-- The literal texts between the filters of a statement. -/
def connectives : List String :=
  ["UPDATE ", "DELETE FROM ", "DELETE ", " SET ", " FROM ", " USING ", " AS ", ".rowid FROM "]

/-- The part is no filter and contains none. -/
def Part.IsPlain : Part → Prop
  | .text sql => sql ∈ connectives
  | .name _ | .assignments _ _ => True
  | .condition _ _ => False

namespace Statement

/-- The family has no join of the changed table, which starts the statement at the first join. -/
def startsAtJoin (q : Statement) : Operation → Bool
  | .update _ => q.settings.family = .postgres || q.settings.family = .sqlite
  | .delete => q.settings.family = .postgres
  | _ => false

/-- The deletion selects the rows that it deletes. -/
def selectsRows (q : Statement) (operation : Operation) : Bool :=
  match operation with
  | .delete => q.settings.family = .sqlite && !q.joins.isEmpty
  | _ => false

/-- The joins that are written as such: the first one is not where it is the source. -/
def writtenJoins (q : Statement) (operation : Operation) : List Join :=
  match q.startsAtJoin operation, q.joins with
  | true, first :: rest => if first.kind = .inner then rest else first :: rest
  | _, joins => joins

/-- The column by which the rows of a table are told apart. -/
def rowColumn (q : Statement) : String :=
  if q.settings.family = .postgres then ".ctid" else ".rowid"

/-- What stands before the filters of a statement that starts at the first join. -/
def leadConjuncts (q : Statement) (operation : Operation) (base : Option String)
    (subject : String) : List Conjunct :=
  match q.startsAtJoin operation, q.joins, base with
  | true, first :: _, some base =>
    if first.kind = .inner then [.condition none first.condition]
    else [.sameRow q.rowColumn subject base]
  | _, _, _ => []

/-- The members of the `WHERE` clause. -/
def conjuncts (q : Statement) (operation : Operation) (base : Option String)
    (subject : String) : List Conjunct :=
  q.leadConjuncts operation base subject ++ q.filters.map (.condition base)

/-- How a fragment that changes rows is put together: plain parts, the joins, plain parts, and the
`WHERE` clause. A deletion that selects its rows has all of it in the one subquery. -/
structure Assembly (q : Statement) (operation : Operation) (f : Fragment) where
  base : Option String
  subject : String
  before : List Part
  between : List Part
  after : List Part
  base_eq : q.baseAlias = .ok base
  subject_eq : ∀ column alias',
    .sameRow column subject alias' ∈ q.conjuncts operation base subject →
      q.subjectAlias alias' = .ok subject
  eq : f = (Fragment.empty q.settings).pushParts
    (before ++ (q.writtenJoins operation).flatMap Join.parts ++ between ++
      conjunctionParts true (q.conjuncts operation base subject) ++ after)
  plain : ∀ part ∈ between, part.IsPlain
  outside : q.selectsRows operation = false → (∀ part ∈ before, part.IsPlain) ∧ after = []
  inside : q.selectsRows operation = true → ∃ front inner,
    before = front ++ .text " WHERE rowid IN (SELECT " :: inner ∧ (∀ part ∈ front, part.IsPlain) ∧
      (∀ part ∈ inner, part.IsPlain) ∧ after = [.text ")"]

/-! ### The forms of a statement -/

theorem baseAlias_ok {q : Statement} {base : Option String} (h : q.baseAlias = .ok base) :
    base = none ∧ q.joins = [] ∨ base.isSome ∧ q.joins ≠ [] := by
  unfold baseAlias at h
  split at h
  · rename_i hnil
    cases h
    exact Or.inl ⟨rfl, List.isEmpty_iff.mp hnil⟩
  · rename_i hne
    cases hpick : Name.pickAlias Name.baseAliases q.isJoined with
    | error e =>
      rw [hpick] at h
      cases h
    | ok picked =>
      rw [hpick] at h
      cases h
      exact Or.inr ⟨rfl, fun hnil => hne (List.isEmpty_iff.mpr hnil)⟩

theorem isPlain_tableParts (table : String) (aliasName : Option String) :
    ∀ part ∈ tableParts table aliasName, part.IsPlain := by
  cases aliasName <;> simp [tableParts, Part.IsPlain, connectives]

/-- A conjunct before the filters, which stand under the alias of the changed table. -/
theorem pushLead_eq (f : Fragment) (conjunct : Conjunct) (base : Option String)
    (filters : List Condition) :
    ((f.pushConjunction true).pushParts conjunct.parts).pushFilters base false filters =
      f.pushParts (conjunctionParts true (conjunct :: filters.map (.condition base))) := by
  rw [Fragment.pushFilters_eq, Fragment.pushConjunct_eq]

/-- A statement that does not start at the first join has its joins and filters in their order. -/
theorem Assembly.ofParts {q : Statement} {operation : Operation} {base : Option String}
    (hbase : q.baseAlias = .ok base) (hstarts : q.joins = [] ∨ q.startsAtJoin operation = false)
    (before between : List Part) (hselects : q.selectsRows operation = false)
    (hbefore : ∀ part ∈ before, part.IsPlain) (hbetween : ∀ part ∈ between, part.IsPlain) :
    Nonempty (q.Assembly operation
      ((((Fragment.empty q.settings).pushParts before).pushJoins q.joins).pushParts
        between |>.pushFilters base true q.filters)) := by
  have hlead : q.leadConjuncts operation base "" = [] := by
    rcases hstarts with hnil | hstarts
    · simp [leadConjuncts, hnil]
    · simp [leadConjuncts, hstarts]
  have hwritten : q.writtenJoins operation = q.joins := by
    rcases hstarts with hnil | hstarts
    · simp [writtenJoins, hnil]
    · simp [writtenJoins, hstarts]
  have hconjuncts : q.conjuncts operation base "" = q.filters.map (.condition base) := by
    rw [conjuncts, hlead, List.nil_append]
  exact ⟨{
    base, subject := "", before, between, after := []
    base_eq := hbase
    subject_eq := by
      rw [hconjuncts]
      simp
    eq := by
      rw [hconjuncts, hwritten, List.append_nil, Fragment.pushParts_append,
        Fragment.pushParts_append, Fragment.pushParts_append, Fragment.pushJoins_eq,
        Fragment.pushFilters_eq]
    plain := hbetween
    outside := fun _ => ⟨hbefore, rfl⟩
    inside := fun htrue => absurd htrue (by rw [hselects]; exact Bool.false_ne_true) }⟩

/-- A statement that starts at the first join has one conjunct before the filters. -/
theorem Assembly.ofLead {q : Statement} {operation : Operation} {base : Option String}
    {subject : String} {conjunct : Conjunct} (hbase : q.baseAlias = .ok base)
    (hlead : q.leadConjuncts operation base subject = [conjunct])
    (hsubject : ∀ column alias', .sameRow column subject alias' = conjunct →
      q.subjectAlias alias' = .ok subject)
    (before : List Part) (hselects : q.selectsRows operation = false)
    (hbefore : ∀ part ∈ before, part.IsPlain) :
    Nonempty (q.Assembly operation
      ((((((Fragment.empty q.settings).pushParts before).pushJoins
        (q.writtenJoins operation)).pushConjunction true).pushParts conjunct.parts).pushFilters
          base false q.filters)) := by
  have hconjuncts : q.conjuncts operation base subject
      = conjunct :: q.filters.map (.condition base) := by
    rw [conjuncts, hlead, List.singleton_append]
  exact ⟨{
    base, subject, before, between := [], after := []
    base_eq := hbase
    subject_eq := by
      intro column alias' hmem
      rw [hconjuncts, List.mem_cons] at hmem
      rcases hmem with heq | hmem
      · exact hsubject column alias' heq
      · simp at hmem
    eq := by
      rw [hconjuncts, List.append_nil, List.append_nil, Fragment.pushParts_append,
        Fragment.pushParts_append, Fragment.pushJoins_eq, pushLead_eq]
    plain := List.forall_mem_nil _
    outside := fun _ => ⟨hbefore, rfl⟩
    inside := fun htrue => absurd htrue (by rw [hselects]; exact Bool.false_ne_true) }⟩

theorem pushSameRow_eq (q : Statement) (subject base : String) (f : Fragment) :
    pushSameRow q.settings.family subject base f =
      f.pushParts (Conjunct.sameRow q.rowColumn subject base).parts := rfl

theorem pushCondition_eq (qualifier : Option String) (c : Condition) (f : Fragment) :
    f.pushCondition qualifier c = f.pushParts (Conjunct.condition qualifier c).parts := rfl

section StartsAtJoin

variable {q : Statement} {operation : Operation} {first : Join} {rest : List Join}
  (hstarts : q.startsAtJoin operation = true) (hjoins : q.joins = first :: rest)

include hstarts hjoins

theorem lead_of_left (hkind : first.kind = .left) (base subject : String) :
    q.leadConjuncts operation (some base) subject = [.sameRow q.rowColumn subject base] ∧
      q.writtenJoins operation = q.joins := by
  simp [leadConjuncts, writtenJoins, hstarts, hjoins, hkind]

theorem lead_of_inner (hkind : first.kind = .inner) (base subject : String) :
    q.leadConjuncts operation (some base) subject = [.condition none first.condition] ∧
      q.writtenJoins operation = rest := by
  simp [leadConjuncts, writtenJoins, hstarts, hjoins, hkind]

variable {base : String} (hbase : q.baseAlias = .ok (some base))
  (hselects : q.selectsRows operation = false)

include hbase hselects

/-- A left join before the filters stays where it is, and the changed row is the joined one. -/
theorem Assembly.ofLeft (hkind : first.kind = .left) {subject : String}
    (hsubject : q.subjectAlias base = .ok subject) (before : List Part)
    (hbefore : ∀ part ∈ before, part.IsPlain) :
    Nonempty (q.Assembly operation
      ((pushSameRow q.settings.family subject base ((((Fragment.empty q.settings).pushParts
        before).pushJoins q.joins).pushConjunction true)).pushFilters (some base) false
          q.filters)) := by
  obtain ⟨hlead, hwritten⟩ := lead_of_left hstarts hjoins hkind base subject
  rw [pushSameRow_eq, ← hwritten]
  apply Assembly.ofLead hbase hlead _ before hselects hbefore
  intro column alias' heq
  cases heq
  exact hsubject

/-- The condition of an inner join moves before the filters, and its table is the source. -/
theorem Assembly.ofInner (hkind : first.kind = .inner) (before : List Part)
    (hbefore : ∀ part ∈ before, part.IsPlain) :
    Nonempty (q.Assembly operation
      ((((((Fragment.empty q.settings).pushParts before).pushSource first).pushJoins
        rest).pushConjunction true).pushCondition none first.condition |>.pushFilters (some base)
          false q.filters)) := by
  obtain ⟨hlead, hwritten⟩ := lead_of_inner hstarts hjoins hkind base ""
  rw [pushCondition_eq, Fragment.pushSource, Fragment.pushTable_eq, ← Fragment.pushParts_append,
    ← hwritten]
  apply Assembly.ofLead hbase hlead _ _ hselects
  · exact List.forall_mem_append.mpr ⟨hbefore, isPlain_tableParts _ _⟩
  · intro column alias' heq
    cases heq

end StartsAtJoin

/-- An update from the first joined table on. -/
theorem exists_assembly_updateFrom {q : Statement} {set : Value} {base : String} {f : Fragment}
    (hbase : q.baseAlias = .ok (some base)) (hstarts : q.startsAtJoin (.update set) = true)
    (h : q.updateFrom set base (Fragment.empty q.settings) = .ok f) :
    Nonempty (q.Assembly (.update set) (f.pushFilters (some base) false q.filters)) := by
  unfold updateFrom at h
  cases hjoins : q.joins with
  | nil =>
    rw [hjoins] at h
    cases h
  | cons first rest =>
    simp only [hjoins] at h
    cases hkind : first.kind with
    | left =>
      simp only [hkind] at h
      obtain ⟨subject, hsubject, h⟩ := bind_eq_ok h
      cases h
      have hbefore : ∀ g : Fragment,
          ((pushAssignments set (((g.pushSql "UPDATE ").pushTable q.table (some subject)).pushSql
            " SET ")).pushSql " FROM ").pushTable q.table (some base) =
          g.pushParts [.text "UPDATE ", .name q.table, .text " AS ", .name subject, .text " SET ",
            .assignments none set, .text " FROM ", .name q.table, .text " AS ", .name base] :=
        fun _ => rfl
      rw [hbefore, ← hjoins]
      exact Assembly.ofLeft hstarts hjoins hbase rfl hkind hsubject _
        (by simp [Part.IsPlain, connectives])
    | inner =>
      simp only [hkind] at h
      cases h
      have hbefore : ∀ g : Fragment,
          (pushAssignments set (((g.pushSql "UPDATE ").pushTable q.table (some base)).pushSql
            " SET ")).pushSql " FROM " =
          g.pushParts [.text "UPDATE ", .name q.table, .text " AS ", .name base, .text " SET ",
            .assignments none set, .text " FROM "] := fun _ => rfl
      rw [hbefore]
      exact Assembly.ofInner hstarts hjoins hbase rfl hkind _ (by simp [Part.IsPlain, connectives])

theorem exists_assembly_update {q : Statement} {set : Value} {f : Fragment}
    (h : q.updateFragment set = .ok f) : Nonempty (q.Assembly (.update set) f) := by
  obtain ⟨base, hbase, h⟩ := bind_eq_ok h
  rcases baseAlias_ok hbase with ⟨rfl, hnil⟩ | ⟨hsome, hne⟩
  · cases h
    have hbefore : ∀ g : Fragment,
        pushAssignments set (((g.pushSql "UPDATE ").pushTable q.table none).pushSql " SET ") =
        ((g.pushParts [.text "UPDATE ", .name q.table, .text " SET ",
          .assignments none set]).pushJoins q.joins).pushParts [] := by
      intro g
      rw [hnil]
      rfl
    rw [hbefore]
    exact Assembly.ofParts hbase (Or.inl hnil) _ [] rfl (by simp [Part.IsPlain, connectives])
      (List.forall_mem_nil _)
  · obtain ⟨base, rfl⟩ := Option.isSome_iff_exists.mp hsome
    cases hfamily : q.settings.family with
    | mysql =>
      simp only [hfamily] at h
      cases h
      have hstarts : q.startsAtJoin (.update set) = false := by simp [startsAtJoin, hfamily]
      have hbefore : ∀ g : Fragment, (g.pushSql "UPDATE ").pushTable q.table (some base) =
          g.pushParts [.text "UPDATE ", .name q.table, .text " AS ", .name base] := fun _ => rfl
      have hbetween : ∀ g : Fragment, pushQualifiedAssignments base set (g.pushSql " SET ") =
          g.pushParts [.text " SET ", .assignments (some base) set] := fun _ => rfl
      rw [hbefore, hbetween]
      exact Assembly.ofParts hbase (Or.inr hstarts) _ _ rfl (by simp [Part.IsPlain, connectives])
        (by simp [Part.IsPlain, connectives])
    | mssql =>
      simp only [hfamily] at h
      cases h
      have hstarts : q.startsAtJoin (.update set) = false := by simp [startsAtJoin, hfamily]
      have hbefore : ∀ g : Fragment,
          ((pushQualifiedAssignments base set (((g.pushSql "UPDATE ").pushName base).pushSql
            " SET ")).pushSql " FROM ").pushTable q.table (some base) =
          g.pushParts [.text "UPDATE ", .name base, .text " SET ", .assignments (some base) set,
            .text " FROM ", .name q.table, .text " AS ", .name base] := fun _ => rfl
      rw [hbefore]
      exact Assembly.ofParts hbase (Or.inr hstarts) _ [] rfl (by simp [Part.IsPlain, connectives])
        (List.forall_mem_nil _)
    | postgres | sqlite =>
      simp only [hfamily] at h
      obtain ⟨started, hstarted, h⟩ := bind_eq_ok h
      cases h
      exact exists_assembly_updateFrom hbase (by simp [startsAtJoin, hfamily]) hstarted

/-- A deletion that uses the joined tables from the first on. -/
theorem exists_assembly_deleteUsing {q : Statement} {base : String} {f : Fragment}
    (hbase : q.baseAlias = .ok (some base)) (hfamily : q.settings.family = .postgres)
    (h : q.deleteUsing base (Fragment.empty q.settings) = .ok f) :
    Nonempty (q.Assembly .delete (f.pushFilters (some base) false q.filters)) := by
  have hstarts : q.startsAtJoin .delete = true := by simp [startsAtJoin, hfamily]
  have hselects : q.selectsRows .delete = false := by simp [selectsRows, hfamily]
  unfold deleteUsing at h
  cases hjoins : q.joins with
  | nil =>
    rw [hjoins] at h
    cases h
  | cons first rest =>
    simp only [hjoins] at h
    cases hkind : first.kind with
    | left =>
      simp only [hkind] at h
      obtain ⟨subject, hsubject, h⟩ := bind_eq_ok h
      cases h
      have hbefore : ∀ g : Fragment,
          (((g.pushSql "DELETE FROM ").pushTable q.table (some subject)).pushSql
            " USING ").pushTable q.table (some base) =
          g.pushParts [.text "DELETE FROM ", .name q.table, .text " AS ", .name subject,
            .text " USING ", .name q.table, .text " AS ", .name base] := fun _ => rfl
      rw [← hfamily, hbefore, ← hjoins]
      exact Assembly.ofLeft hstarts hjoins hbase hselects hkind hsubject _
        (by simp [Part.IsPlain, connectives])
    | inner =>
      simp only [hkind] at h
      cases h
      have hbefore : ∀ g : Fragment,
          ((g.pushSql "DELETE FROM ").pushTable q.table (some base)).pushSql " USING " =
          g.pushParts [.text "DELETE FROM ", .name q.table, .text " AS ", .name base,
            .text " USING "] := fun _ => rfl
      rw [hbefore]
      exact Assembly.ofInner hstarts hjoins hbase hselects hkind _
        (by simp [Part.IsPlain, connectives])

/-- A deletion of the rows that a query selects. -/
theorem exists_assembly_deleteSelected {q : Statement} {base : String}
    (hbase : q.baseAlias = .ok (some base)) (hne : q.joins ≠ [])
    (hfamily : q.settings.family = .sqlite) :
    let f := ((Fragment.empty q.settings).pushSql "DELETE FROM ").pushTable q.table none
    let f := ((f.pushSql " WHERE rowid IN (SELECT ").pushName base).pushSql ".rowid FROM "
    let f := (f.pushTable q.table (some base)).pushJoins q.joins
    Nonempty (q.Assembly .delete ((f.pushFilters (some base) true q.filters).pushSql ")")) := by
  intro f₁ f₂ f₃
  have hstarts : q.startsAtJoin .delete = false := by simp [startsAtJoin, hfamily]
  have hselects : q.selectsRows .delete = true := by simp [selectsRows, hfamily, hne]
  have hconjuncts :
      q.conjuncts .delete (some base) "" = q.filters.map (.condition (some base)) := by
    simp [conjuncts, leadConjuncts, hstarts]
  have hwritten : q.writtenJoins .delete = q.joins := by simp [writtenJoins, hstarts]
  have hbefore : ∀ g : Fragment,
      (((((g.pushSql "DELETE FROM ").pushTable q.table none).pushSql
        " WHERE rowid IN (SELECT ").pushName base).pushSql ".rowid FROM ").pushTable q.table
          (some base) =
      g.pushParts ([.text "DELETE FROM ", .name q.table] ++ .text " WHERE rowid IN (SELECT " ::
        [.name base, .text ".rowid FROM ", .name q.table, .text " AS ", .name base]) :=
    fun _ => rfl
  have hafter : ∀ g : Fragment, g.pushSql ")" = g.pushParts [.text ")"] := fun _ => rfl
  exact ⟨{
    base := some base, subject := "", before := _, between := [], after := [.text ")"]
    base_eq := hbase
    subject_eq := by
      rw [hconjuncts]
      simp
    eq := by
      rw [hconjuncts, hwritten, List.append_nil, Fragment.pushParts_append,
        Fragment.pushParts_append, Fragment.pushParts_append, ← hbefore, ← Fragment.pushJoins_eq,
        ← Fragment.pushFilters_eq, ← hafter]
    plain := List.forall_mem_nil _
    outside := fun hfalse => absurd hselects (by rw [hfalse]; exact Bool.false_ne_true)
    inside := fun _ => ⟨_, _, rfl, by simp [Part.IsPlain, connectives],
      by simp [Part.IsPlain, connectives], rfl⟩ }⟩

theorem exists_assembly_delete {q : Statement} {f : Fragment} (h : q.deleteFragment = .ok f) :
    Nonempty (q.Assembly .delete f) := by
  obtain ⟨base, hbase, h⟩ := bind_eq_ok h
  rcases baseAlias_ok hbase with ⟨rfl, hnil⟩ | ⟨hsome, hne⟩
  · cases h
    have hbefore : ∀ g : Fragment, (g.pushSql "DELETE FROM ").pushTable q.table none =
        ((g.pushParts [.text "DELETE FROM ", .name q.table]).pushJoins q.joins).pushParts [] := by
      intro g
      rw [hnil]
      rfl
    rw [hbefore]
    exact Assembly.ofParts hbase (Or.inl hnil) _ [] (by simp [selectsRows, hnil])
      (by simp [Part.IsPlain, connectives]) (List.forall_mem_nil _)
  · obtain ⟨base, rfl⟩ := Option.isSome_iff_exists.mp hsome
    cases hfamily : q.settings.family with
    | mysql | mssql =>
      simp only [hfamily] at h
      cases h
      have hstarts : q.startsAtJoin .delete = false := by simp [startsAtJoin, hfamily]
      have hbefore : ∀ g : Fragment,
          (((g.pushSql "DELETE ").pushName base).pushSql " FROM ").pushTable q.table (some base) =
          g.pushParts [.text "DELETE ", .name base, .text " FROM ", .name q.table, .text " AS ",
            .name base] := fun _ => rfl
      rw [hbefore]
      exact Assembly.ofParts hbase (Or.inr hstarts) _ [] (by simp [selectsRows, hfamily])
        (by simp [Part.IsPlain, connectives]) (List.forall_mem_nil _)
    | postgres =>
      simp only [hfamily] at h
      obtain ⟨started, hstarted, h⟩ := bind_eq_ok h
      cases h
      exact exists_assembly_deleteUsing hbase hfamily hstarted
    | sqlite =>
      simp only [hfamily] at h
      cases h
      exact exists_assembly_deleteSelected hbase hne hfamily

/-- Every update and every deletion that is built is put together like this. -/
theorem exists_assembly {q : Statement} {operation : Operation} {f : Fragment}
    (hchanges : operation.changesRows = true) (h : q.fragment operation = .ok f) :
    Nonempty (q.Assembly operation f) := by
  cases operation with
  | update set => exact exists_assembly_update h
  | delete => exact exists_assembly_delete h
  | _ => cases hchanges

end Statement

/-! ### What the parts hold -/

/-- The values that a conjunct tests. -/
def Conjunct.conditions : Conjunct → List Value
  | .condition _ c => [c.value]
  | .sameRow _ _ _ => []

theorem conditions_of_isPlain {parts : List Part} (h : ∀ part ∈ parts, part.IsPlain) :
    parts.flatMap Part.conditions = [] := by
  apply List.flatMap_eq_nil_iff.mpr
  intro part hpart
  cases part with
  | condition qualifier c => exact absurd (h _ hpart) id
  | _ => rfl

theorem conditions_tableParts (table : String) (aliasName : Option String) :
    (tableParts table aliasName).flatMap Part.conditions = [] :=
  conditions_of_isPlain (Statement.isPlain_tableParts table aliasName)

theorem conditions_joins (joins : List Join) :
    (joins.flatMap Join.parts).flatMap Part.conditions = joins.map (·.condition.value) := by
  induction joins with
  | nil => rfl
  | cons j rest ih =>
    have hown : j.parts.flatMap Part.conditions = [j.condition.value] := by
      rw [Join.parts, List.flatMap_append, List.flatMap_cons, conditions_tableParts]
      rfl
    rw [List.flatMap_cons, List.flatMap_append, hown, ih]
    rfl

theorem conditions_conjunctionParts (isFirst : Bool) (conjuncts : List Conjunct) :
    (conjunctionParts isFirst conjuncts).flatMap Part.conditions =
      conjuncts.flatMap Conjunct.conditions := by
  induction conjuncts generalizing isFirst with
  | nil => rfl
  | cons conjunct rest ih =>
    have hown : conjunct.parts.flatMap Part.conditions = conjunct.conditions := by
      cases conjunct <;> rfl
    rw [conjunctionParts, List.flatMap_append, List.flatMap_cons, hown, ih]
    rfl

/-- No plain part and no join has a word with this letter, which is the first of `WHERE`. -/
theorem not_mem_of_isPlain {parts : List Part} (h : ∀ part ∈ parts, part.IsPlain) :
    ∀ sql, .text sql ∈ parts → 0x57 ∉ utf8 sql := by
  have hall : ∀ sql ∈ connectives, 0x57 ∉ utf8 sql := by decide +kernel
  exact fun sql hmem => hall sql (h _ hmem)

theorem not_mem_joins {joins : List Join} :
    ∀ sql, .text sql ∈ joins.flatMap Join.parts → 0x57 ∉ utf8 sql := by
  intro sql hmem
  obtain ⟨j, -, hmem⟩ := List.mem_flatMap.mp hmem
  rcases List.mem_append.mp hmem with hmem | hmem
  · rcases List.mem_cons.mp hmem with heq | htable
    · obtain rfl : sql = j.keyword := Part.text.inj heq
      unfold Join.keyword
      cases j.kind <;> decide +kernel
    · exact not_mem_of_isPlain (Statement.isPlain_tableParts _ _) sql htable
  · obtain rfl : sql = " ON " := by simpa using hmem
    decide +kernel

namespace Statement

/-- The joins are written as such, or the condition of the first one leads the filters. -/
theorem conditions_perm {q : Statement} {base : Option String} (hbase : q.baseAlias = .ok base)
    (operation : Operation) (subject : String) :
    ((q.writtenJoins operation).map (·.condition.value) ++
        (q.conjuncts operation base subject).flatMap Conjunct.conditions).Perm
      (q.joins.map (·.condition.value) ++ q.filters.map Condition.value) := by
  have hfilters : (q.filters.map (Conjunct.condition base)).flatMap Conjunct.conditions
      = q.filters.map Condition.value := by
    rw [List.flatMap_map]
    exact List.map_eq_flatMap.symm
  rw [conjuncts, List.flatMap_append, hfilters, ← List.append_assoc]
  apply List.Perm.append_right
  cases hstarts : q.startsAtJoin operation with
  | false => simp [writtenJoins, leadConjuncts, hstarts]
  | true =>
    rcases baseAlias_ok hbase with ⟨rfl, hnil⟩ | ⟨hsome, -⟩
    · simp [writtenJoins, leadConjuncts, hstarts, hnil]
    · obtain ⟨base, rfl⟩ := Option.isSome_iff_exists.mp hsome
      cases hjoins : q.joins with
      | nil => simp [writtenJoins, leadConjuncts, hjoins]
      | cons first rest =>
        cases hkind : first.kind with
        | left =>
          obtain ⟨hlead, hwritten⟩ := lead_of_left hstarts hjoins hkind base subject
          rw [hlead, hwritten, hjoins]
          exact List.Perm.of_eq (List.append_nil _)
        | inner =>
          obtain ⟨hlead, hwritten⟩ := lead_of_inner hstarts hjoins hkind base subject
          rw [hlead, hwritten]
          exact List.perm_append_singleton _ _

theorem Assembly.conditionParams_eq {q : Statement} {operation : Operation} {f : Fragment}
    (a : q.Assembly operation f) :
    f.conditionParams = (q.writtenJoins operation).map (·.condition.value) ++
      (q.conjuncts operation a.base a.subject).flatMap Conjunct.conditions := by
  have hempty : (Fragment.empty q.settings).Settled := Or.inl rfl
  have hends : a.before.flatMap Part.conditions = [] ∧ a.after.flatMap Part.conditions = [] := by
    cases hselects : q.selectsRows operation with
    | false =>
      obtain ⟨hbefore, hafter⟩ := a.outside hselects
      exact ⟨conditions_of_isPlain hbefore, by rw [hafter]; rfl⟩
    | true =>
      obtain ⟨front, inner, hbefore, hfront, hinner, hafter⟩ := a.inside hselects
      refine ⟨?_, by rw [hafter]; rfl⟩
      rw [hbefore, List.flatMap_append, List.flatMap_cons, conditions_of_isPlain hfront,
        conditions_of_isPlain hinner]
      rfl
  apply (congrArg Fragment.conditionParams a.eq).trans
  rw [Fragment.conditionParams_pushParts hempty]
  simp only [List.flatMap_append, hends.1, hends.2, conditions_joins, conditions_of_isPlain a.plain,
    conditions_conjunctionParts, List.nil_append, List.append_nil]
  rfl

theorem Assembly.says_where {q : Statement} {operation : Operation} {f : Fragment}
    (a : q.Assembly operation f) :
    f.Says "WHERE" ↔
      q.conjuncts operation a.base a.subject ≠ [] ∨ q.selectsRows operation = true := by
  constructor
  · intro hsays
    by_contra hnone
    rw [not_or, not_not, Bool.not_eq_true] at hnone
    obtain ⟨hconjuncts, hselects⟩ := hnone
    obtain ⟨hbefore, hafter⟩ := a.outside hselects
    have hmarks : ∀ mark ∈ Fragment.marks, 0x57 ∉ utf8 mark := by decide +kernel
    have hempty : (Fragment.empty q.settings).Lacks 0x57 := by
      rw [Fragment.Lacks, show (Fragment.empty q.settings).chunks = [""] from rfl]
      decide +kernel
    have hlacks : f.Lacks 0x57 := by
      rw [a.eq, hconjuncts, hafter]
      apply Fragment.lacks_pushParts hmarks hempty
      intro sql hmem
      simp only [conjunctionParts, List.append_nil, List.mem_append] at hmem
      rcases hmem with (hmem | hmem) | hmem
      · exact not_mem_of_isPlain hbefore sql hmem
      · exact not_mem_joins sql hmem
      · exact not_mem_of_isPlain a.plain sql hmem
    exact hlacks.not_says (by decide +kernel) hsays
  · intro hsome
    rw [a.eq]
    refine Fragment.says_pushParts (Or.inr ?_)
    rcases hsome with hconjuncts | hselects
    · obtain ⟨conjunct, rest, heq⟩ := List.exists_cons_of_ne_nil hconjuncts
      refine ⟨" WHERE ", ?_, utf8 " ", utf8 " ", by decide +kernel⟩
      rw [heq]
      simp [conjunctionParts]
    · obtain ⟨front, inner, hbefore, -⟩ := a.inside hselects
      refine ⟨" WHERE rowid IN (SELECT ", ?_, utf8 " ", utf8 " rowid IN (SELECT ",
        by decide +kernel⟩
      rw [hbefore]
      simp

/-- An update or a deletion that is built tests every condition of its joins and every filter once:
its parts are those of an assembly, and their conditions are all that the holes of the fragment ask
for. It says `WHERE` if there is something to test, or if it selects its rows. -/
theorem conditions_of_build {q q' : Statement} {operation : Operation} {f : Fragment}
    (hstaged : q.staged = some operation) (hchanges : operation.changesRows = true)
    (h : q.build = .ok (f, q')) :
    ∃ a : q.Assembly operation f,
      f.conditionParams = (q.writtenJoins operation).map (·.condition.value) ++
        (q.conjuncts operation a.base a.subject).flatMap Conjunct.conditions ∧
      f.conditionParams.Perm (q.joins.map (·.condition.value) ++ q.filters.map Condition.value) ∧
      (f.Says "WHERE" ↔
        q.conjuncts operation a.base a.subject ≠ [] ∨ q.selectsRows operation = true) := by
  unfold build at h
  rw [hstaged] at h
  obtain ⟨built, hbuilt, h⟩ := bind_eq_ok h
  cases h
  obtain ⟨a⟩ := exists_assembly hchanges hbuilt
  refine ⟨a, a.conditionParams_eq, ?_, a.says_where⟩
  rw [a.conditionParams_eq]
  exact conditions_perm a.base_eq operation a.subject

/-- The condition of the first join moves before the filters of an update. -/
theorem conditions_of_build_update :
    let on : Condition := .expression (.str "u.id = b.user_id")
    let filter : Condition := .expression (.str "total > 100")
    let operation : Operation := .update (.map [("status", .str "big")])
    let q : Statement :=
      ⟨.ofDialect .postgres, "orders", [⟨.inner, "users", some "u", on⟩], [filter], none,
        some operation⟩
    q.staged = some operation ∧ operation.changesRows = true ∧
      ∃ f q', q.build = .ok (f, q') ∧
        f.chunks = ["UPDATE \"", "\" AS \"", "\" SET \x7b", "\x7d FROM \"", "\" AS \"",
          "\" WHERE (", ") AND ", ".(", ")"] ∧
        ∃ a : q.Assembly operation f,
          f.conditionParams = (q.writtenJoins operation).map (·.condition.value) ++
            (q.conjuncts operation a.base a.subject).flatMap Conjunct.conditions ∧
          f.conditionParams.Perm
            (q.joins.map (·.condition.value) ++ q.filters.map Condition.value) ∧
          (f.Says "WHERE" ↔
            q.conjuncts operation a.base a.subject ≠ [] ∨ q.selectsRows operation = true) := by
  intro on filter operation q
  have hbuilt : ∃ f q', q.build = .ok (f, q') ∧
      f.chunks = ["UPDATE \"", "\" AS \"", "\" SET \x7b", "\x7d FROM \"", "\" AS \"", "\" WHERE (",
        ") AND ", ".(", ")"] := ⟨_, _, rfl, by decide +kernel⟩
  obtain ⟨f, q', h, hchunks⟩ := hbuilt
  exact ⟨rfl, rfl, f, q', h, hchunks, conditions_of_build rfl rfl h⟩

/-- The row identity before the filters stands in no hole for conditions: the only one is that of
the join. -/
theorem row_identity_unenclosed :
    let on : Condition := .expression (.str "1")
    let operation : Operation := .update (.map [("a", .int 1)])
    let q : Statement := ⟨.ofDialect .postgres, "t", [⟨.left, "u", some "x", on⟩], [], none,
      some operation⟩
    q.baseAlias = .ok (some "b") ∧ q.subjectAlias "b" = .ok "subj" ∧
      q.conjuncts operation (some "b") "subj" = [.sameRow ".ctid" "subj" "b"] ∧
      ∃ f q', q.build = .ok (f, q') ∧ f.conditionParams.length = 1 ∧
        f.chunks = ["UPDATE \"", "\" AS \"", "\" SET \x7b", "\x7d FROM \"", "\" AS \"",
          "\" LEFT JOIN \"", "\" AS \"", "\" ON (", ") WHERE \"", "\".ctid = \"", "\".ctid"] := by
  intro on operation q
  exact ⟨rfl, rfl, rfl, _, _, rfl, by decide +kernel, by decide +kernel⟩

end Statement

end SqlTemplate
