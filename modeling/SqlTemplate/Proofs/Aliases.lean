import SqlTemplate.Proofs.Calls
import SqlTemplate.Proofs.Errors

/-!
# Aliases never run out

A joined statement picks an alias for its own table from a chain of four, and in a join with itself a
second one from another chain. The last name of each chain is reserved: no table or alias of that
name can be joined. But the test reads the table as it is given, and the statement knows it by what
the settings map it to. A reserved name is free in every statement iff the settings map no table to
it (`ne_reserved_run_iff`); the main statement is `hasAliases_run_iff`.
-/

namespace SqlTemplate

/-- The settings map no table that can be joined to the name. -/
def Settings.Spares (s : Settings) (name : String) : Prop :=
  ∀ table, table ≠ "" → Name.isReserved table = false → s.mapTable table ≠ name

namespace Name

theorem isReserved_iff {name : String} :
    isReserved name = true ↔ name = "_base_table" ∨ name = "_subj_table" := by
  simp [isReserved]

theorem checkReserved_eq_ok_iff {name : String} :
    checkReserved name = .ok () ↔ isReserved name = false := by
  unfold checkReserved
  split <;> simp_all

theorem pickAlias_ok {chain : List String} {taken : String → Bool} {name : String}
    (h : pickAlias chain taken = .ok name) : name ∈ chain ∧ taken name = false := by
  unfold pickAlias at h
  split at h
  · rename_i found hfound
    cases h
    exact ⟨List.mem_of_find?_eq_some hfound, by simpa using List.find?_some hfound⟩
  · cases h

/-- A chain with a free name is not exhausted. -/
theorem exists_pickAlias {chain : List String} {taken : String → Bool} {name : String}
    (hmem : name ∈ chain) (hfree : taken name = false) :
    ∃ picked, pickAlias chain taken = .ok picked := by
  unfold pickAlias
  cases hfind : chain.find? fun name => !taken name with
  | some picked => exact ⟨picked, rfl⟩
  | none => exact absurd (List.find?_eq_none.mp hfind name hmem) (by simp [hfree])

theorem pickAlias_eq_error {chain : List String} {taken : String → Bool}
    (h : ∀ name ∈ chain, taken name = true) :
    pickAlias chain taken = .error (.misuse (.noFreeAlias chain)) := by
  have hnone : (chain.find? fun name => !taken name) = none :=
    List.find?_eq_none.mpr fun name hname => by simp [h name hname]
  simp only [pickAlias, hnone]

end Name

/-- The join that a statement is asked for. -/
def Join.asked (s : Settings) (kind : JoinKind) (table aliasName : String) (c : Condition) : Join :=
  ⟨kind, s.mapTable table, if aliasName.isEmpty then none else some aliasName, c⟩

theorem Join.name_asked (s : Settings) (kind : JoinKind) (table aliasName : String)
    (c : Condition) :
    (asked s kind table aliasName c).name
      = if aliasName.isEmpty then s.mapTable table else aliasName := by
  unfold Join.name asked
  split <;> rfl

namespace Statement

variable {q q' : Statement} {s : Settings}

/-! ### What a join stores -/

theorem join_eq_ok_iff {kind : JoinKind} {table aliasName : String} {condition : Value} :
    q.join kind table aliasName condition = .ok q' ↔
      (q.staged = none ∧ q.filters = [] ∧ q.grouping = none) ∧
      (table ≠ "" ∧ Name.isReserved table = false ∧ Name.isReserved aliasName = false) ∧
      ∃ c, Condition.ofValue .join condition = .ok c ∧
        q.isJoined (Join.asked q.settings kind table aliasName c).name = false ∧
        q' = { q with joins := q.joins ++ [.asked q.settings kind table aliasName c] } := by
  constructor
  · intro h
    obtain ⟨_, hunstaged, h⟩ := bind_eq_ok h
    obtain ⟨hearly, h⟩ := guard_eq_ok h
    obtain ⟨_, htable, h⟩ := bind_eq_ok h
    obtain ⟨_, halias, h⟩ := bind_eq_ok h
    obtain ⟨hne, h⟩ := guard_eq_ok h
    obtain ⟨c, hc, h⟩ := bind_eq_ok h
    obtain ⟨hnew, h⟩ := guard_eq_ok h
    obtain ⟨hfilters, hgrouping⟩ : q.filters = [] ∧ q.grouping = none := by simpa using hearly
    exact ⟨⟨checkUnstaged_ok hunstaged, hfilters, hgrouping⟩, ⟨by simpa using hne,
      Name.checkReserved_eq_ok_iff.mp htable, Name.checkReserved_eq_ok_iff.mp halias⟩, c, hc,
      Bool.not_eq_true _ ▸ hnew, (Except.ok.inj h).symm⟩
  · rintro ⟨⟨hstaged, hfilters, hgrouping⟩, ⟨hne, htable, halias⟩, c, hc, hnew, rfl⟩
    unfold Join.asked at hnew ⊢
    simp only [join, checkUnstaged, hstaged, hfilters, hgrouping, Name.checkReserved, htable, halias,
      hc, hnew, bind, Except.bind, pure, Except.pure]
    simp [hne]

theorem effect_build_ok (h : q.build.map (·.2) = .ok q') : q' = { q with staged := none } := by
  cases hbuild : q.build with
  | error e =>
    rw [hbuild] at h
    cases h
  | ok built =>
    rw [hbuild] at h
    cases h
    exact build_ok hbuild

/-- A call stores a join that it was asked for, or no join. -/
theorem joins_perform (q : Statement) (call : Call) :
    (q.perform call).2.joins = q.joins ∨
      ∃ kind table aliasName c, table ≠ "" ∧ Name.isReserved table = false ∧
        Name.isReserved aliasName = false ∧ (q.perform call).2.joins
          = q.joins ++ [.asked q.settings kind table aliasName c] := by
  cases h : q.effect call with
  | error e => exact Or.inl (congrArg joins (congrArg Prod.snd (perform_of_effect_error h)))
  | ok q' =>
    rw [(perform_of_effect_ok h).1]
    cases call with
    | join kind table aliasName condition =>
      obtain ⟨-, ⟨hne, htable, halias⟩, c, -, -, rfl⟩ := join_eq_ok_iff.mp h
      exact Or.inr ⟨kind, table, aliasName, c, hne, htable, halias, rfl⟩
    | filter condition =>
      obtain ⟨-, -, c, -, rfl⟩ := filter_ok h
      exact Or.inl rfl
    | groupBy columns having =>
      obtain ⟨-, -, -, c, -, rfl⟩ := groupBy_ok h
      exact Or.inl rfl
    | stage operation =>
      obtain ⟨-, -, rfl⟩ := stage_ok h
      exact Or.inl rfl
    | build | toSql =>
      obtain rfl := effect_build_ok h
      exact Or.inl rfl

/-! ### Reserved names -/

/-- A join that is stored has the name only if a table that may be joined is mapped to it. -/
theorem ne_reserved_perform {name : String} (hname : Name.isReserved name = true)
    (hspares : q.settings.Spares name) (h : ∀ j ∈ q.joins, j.name ≠ name) (call : Call) :
    ∀ j ∈ (q.perform call).2.joins, j.name ≠ name := by
  rcases q.joins_perform call with heq | ⟨kind, table, aliasName, c, hne, htable, halias, heq⟩
  · rwa [heq]
  · rw [heq, List.forall_mem_append]
    refine ⟨h, List.forall_mem_singleton.mpr ?_⟩
    rw [Join.name_asked]
    split
    · exact hspares table hne htable
    · rintro rfl
      rw [hname] at halias
      cases halias

theorem ne_reserved_run {name : String} (hname : Name.isReserved name = true)
    (hspares : q.settings.Spares name) (h : ∀ j ∈ q.joins, j.name ≠ name) (calls : List Call) :
    ∀ j ∈ (q.run calls).joins, j.name ≠ name := by
  induction calls generalizing q with
  | nil => exact h
  | cons call rest ih =>
    have hsettings := (q.subject_run [call]).1
    exact ih (hsettings ▸ hspares) (ne_reserved_perform hname hspares h call)

/-- What a statement is after the calls that join tables to one without clauses. -/
theorem perform_join (kind : JoinKind) {table aliasName : String} (text : String)
    (hplain : q.staged = none ∧ q.filters = [] ∧ q.grouping = none) (hne : table ≠ "")
    (htable : Name.isReserved table = false) (halias : Name.isReserved aliasName = false)
    (hnew : ∀ j ∈ q.joins,
      j.name ≠ if aliasName.isEmpty then q.settings.mapTable table else aliasName) :
    (q.perform (.join kind table aliasName (.str text))).2 = { q with joins := q.joins ++
      [.asked q.settings kind table aliasName (.expression (.str text))] } := by
  have hfresh : q.isJoined (Join.asked q.settings kind table aliasName
      (.expression (.str text))).name = false := by
    rw [Join.name_asked]
    exact isJoined_eq_false_iff.mpr hnew
  have hjoin : q.effect (.join kind table aliasName (.str text)) = .ok { q with joins := q.joins ++
      [.asked q.settings kind table aliasName (.expression (.str text))] } :=
    join_eq_ok_iff.mpr ⟨hplain, ⟨hne, htable, halias⟩, .expression (.str text), rfl, hfresh, rfl⟩
  exact (perform_of_effect_ok hjoin).1

/-- A reserved name is free after every run of calls iff the settings map no table to it. -/
theorem ne_reserved_run_iff {name table : String} (h : ofTable s table = .ok q)
    (hname : Name.isReserved name = true) :
    (∀ calls, ∀ j ∈ (q.run calls).joins, j.name ≠ name) ↔ s.Spares name := by
  obtain rfl := ofTable_ok h
  constructor
  · intro hrun other hne hother hmap
    have hempty : Name.isReserved "" = false := by decide
    have hjoin := perform_join (q := ⟨s, s.mapTable table, [], [], none, none⟩) .inner "1"
      ⟨rfl, rfl, rfl⟩ hne hother hempty (List.forall_mem_nil _)
    refine hrun [.join .inner other "" (.str "1")] (.asked s .inner other "" (.expression (.str "1")))
      ?_ ?_
    · change _ ∈ (Statement.perform _ _).2.joins
      rw [hjoin]
      exact List.mem_singleton_self _
    · rw [Join.name_asked]
      exact hmap
  · exact fun hspares => ne_reserved_run hname hspares (List.forall_mem_nil _)

/-! ### The chains -/

theorem exists_baseAlias (h : ∀ j ∈ q.joins, j.name ≠ "_base_table") :
    ∃ base, q.baseAlias = .ok base := by
  unfold baseAlias
  split
  · exact ⟨none, rfl⟩
  · have hlast : "_base_table" ∈ Name.baseAliases := by decide
    obtain ⟨base, hbase⟩ := Name.exists_pickAlias hlast (isJoined_eq_false_iff.mpr h)
    exact ⟨some base, by rw [hbase]; rfl⟩

theorem mem_baseAliases {base : String} (h : q.baseAlias = .ok (some base)) :
    base ∈ Name.baseAliases := by
  unfold baseAlias at h
  split at h
  · cases h
  · cases hpick : Name.pickAlias Name.baseAliases q.isJoined with
    | error e =>
      rw [hpick] at h
      cases h
    | ok picked =>
      rw [hpick] at h
      cases h
      exact (Name.pickAlias_ok hpick).1

/-- The rows to be changed have an alias beside that of their table. -/
theorem exists_subjectAlias (h : ∀ j ∈ q.joins, j.name ≠ "_subj_table") {base : String}
    (hbase : q.baseAlias = .ok (some base)) :
    ∃ subject, q.subjectAlias base = .ok subject ∧ subject ≠ base ∧
      ∀ j ∈ q.joins, j.name ≠ subject := by
  have hother : "_subj_table" ≠ base := by
    rintro rfl
    exact absurd (mem_baseAliases hbase) (by decide)
  have hlast : "_subj_table" ∈ Name.subjectAliases := by decide
  have hfree : ("_subj_table" == base || q.isJoined "_subj_table") = false := by
    simpa [hother] using isJoined_eq_false_iff.mpr h
  obtain ⟨subject, hsubject⟩ : ∃ subject, q.subjectAlias base = .ok subject :=
    Name.exists_pickAlias hlast hfree
  have htaken := (Name.pickAlias_ok hsubject).2
  rw [Bool.or_eq_false_iff] at htaken
  exact ⟨subject, hsubject, by simpa using htaken.1, isJoined_eq_false_iff.mp htaken.2⟩

/-! ### Building -/

/-- A step does not fail for lack of a free alias. -/
def FindsAlias {α : Type} (result : Except Error α) : Prop :=
  FailsIn (fun e => ∀ chain, e ≠ .misuse (.noFreeAlias chain)) result

section Building

variable {P : Error → Prop} (hP : ∀ e, e.isOfBuilding = true → P e)

include hP

theorem failsIn_pushPage (page : Page) (dialect : Dialect) (isOrdered : Bool) (f : Fragment) :
    FailsIn P (page.push dialect isOrdered f) := by
  unfold Page.push
  split
  · exact .ok _
  split
  · exact .error (hP _ rfl)
  · exact .ok _

theorem failsIn_pushConflict (dialect : Dialect) (rows : Value) (f : Fragment)
    (conflict : OnConflict) : FailsIn P (pushConflict dialect rows f conflict) := by
  cases conflict with
  | fail => exact .ok _
  | doNothing =>
    simp only [pushConflict]
    split
    · exact .error (hP _ rfl)
    · split
      · exact .error (hP _ rfl)
      · exact .ok _
    · exact .ok _
  | doUpdate target columns =>
    unfold pushConflict
    refine FailsIn.guard (hP _ rfl) ?_
    dsimp only
    split
    · exact .guard (hP _ rfl) (.guard (hP _ rfl) (.guard (hP _ rfl) (.ok _)))
    · exact .guard (hP _ rfl) (.ok _)

theorem failsIn_updateFrom {base : String} (hsubject : FailsIn P (q.subjectAlias base))
    (set : Value) (f : Fragment) : FailsIn P (q.updateFrom set base f) := by
  unfold updateFrom
  cases q.joins with
  | nil => exact .error (hP _ rfl)
  | cons first rest =>
    dsimp only
    cases first.kind with
    | inner => exact .ok _
    | left => exact hsubject.bind fun subject _ => .ok _

theorem failsIn_deleteUsing {base : String} (hsubject : FailsIn P (q.subjectAlias base))
    (f : Fragment) : FailsIn P (q.deleteUsing base f) := by
  unfold deleteUsing
  cases q.joins with
  | nil => exact .error (hP _ rfl)
  | cons first rest =>
    dsimp only
    cases first.kind with
    | inner => exact .ok _
    | left => exact hsubject.bind fun subject _ => .ok _

theorem failsIn_fragment (hbase : FailsIn P q.baseAlias)
    (hsubject : ∀ base, q.baseAlias = .ok (some base) → FailsIn P (q.subjectAlias base))
    (operation : Operation) : FailsIn P (q.fragment operation) := by
  cases operation with
  | select what => exact hbase.bind fun base _ => failsIn_pushPage hP _ _ _ _
  | insert rows conflict => exact failsIn_pushConflict hP _ _ _ _
  | insertFrom columns source => exact .ok _
  | truncate => exact .ok _
  | update set =>
    refine hbase.bind fun base hbase => ?_
    cases base with
    | none => exact .ok _
    | some base =>
      have hfrom := failsIn_updateFrom hP (hsubject base hbase) set
      dsimp only
      cases q.settings.family with
      | mysql | mssql => exact .ok _
      | postgres | sqlite => exact (hfrom _).bind fun f _ => .ok _
  | delete =>
    refine hbase.bind fun base hbase => ?_
    cases base with
    | none => exact .ok _
    | some base =>
      have husing := failsIn_deleteUsing hP (hsubject base hbase)
      dsimp only
      cases q.settings.family with
      | mysql | mssql | sqlite => exact .ok _
      | postgres => exact (husing _).bind fun f _ => .ok _

/-- Whatever finding the aliases of a statement fails with, building it fails with that or for a
reason of its own. -/
theorem failsIn_build (hbase : FailsIn P q.baseAlias)
    (hsubject : ∀ base, q.baseAlias = .ok (some base) → FailsIn P (q.subjectAlias base)) :
    FailsIn P q.build := by
  unfold build
  cases q.staged with
  | none => exact .error (hP _ rfl)
  | some operation =>
    exact (failsIn_fragment hP hbase hsubject operation).bind fun f _ => .ok _

end Building

/-! ### Every run of calls -/

/-- No table is joined under a reserved name, and the chains have a free alias wherever the statement
needs one. -/
structure HasAliases (q : Statement) : Prop where
  unreserved : ∀ j ∈ q.joins, Name.isReserved j.name = false
  base : ∃ base, q.baseAlias = .ok base
  build : FindsAlias q.build
  subject : ∀ base, q.baseAlias = .ok (some base) → ∃ subject, q.subjectAlias base = .ok subject ∧
    subject ≠ base ∧ ∀ j ∈ q.joins, j.name ≠ subject

theorem hasAliases_of_ne_reserved (hbase : ∀ j ∈ q.joins, j.name ≠ "_base_table")
    (hsubject : ∀ j ∈ q.joins, j.name ≠ "_subj_table") : q.HasAliases where
  unreserved := by
    intro j hj
    rw [← Bool.not_eq_true, Name.isReserved_iff, not_or]
    exact ⟨hbase j hj, hsubject j hj⟩
  base := exists_baseAlias hbase
  subject := fun base => exists_subjectAlias hsubject
  build := by
    obtain ⟨base, hfound⟩ := exists_baseAlias hbase
    have hbuilding (e : Error) (he : e.isOfBuilding = true) (chain : List String) :
        e ≠ .misuse (.noFreeAlias chain) := by
      rintro rfl
      cases he
    refine failsIn_build hbuilding (hfound ▸ FailsIn.ok base) fun base h => ?_
    obtain ⟨subject, hfound, -⟩ := exists_subjectAlias hsubject h
    exact hfound ▸ FailsIn.ok subject

theorem run_append_singleton (q : Statement) (calls : List Call) (call : Call) :
    q.run (calls ++ [call]) = ((q.run calls).perform call).2 := by
  rw [run, List.foldl_append]
  rfl

/-- Calls that join one table under each of the aliases. -/
def joinsUnder (aliases : List String) : List Call :=
  aliases.map fun aliasName => .join .inner "t" aliasName (.str "1")

/-- Aliases that are free, each once, are all joined. -/
theorem names_run_joinsUnder {aliases : List String}
    (hplain : q.staged = none ∧ q.filters = [] ∧ q.grouping = none)
    (haliases : ∀ name ∈ aliases, name ≠ "" ∧ Name.isReserved name = false)
    (hnodup : (q.joins.map Join.name ++ aliases).Nodup) :
    let q' := q.run (joinsUnder aliases)
    (q'.staged = none ∧ q'.filters = [] ∧ q'.grouping = none) ∧
      q'.joins.map Join.name = q.joins.map Join.name ++ aliases := by
  induction aliases generalizing q with
  | nil => exact ⟨hplain, (List.append_nil _).symm⟩
  | cons name rest ih =>
    obtain ⟨⟨hne, hname⟩, hrest⟩ := List.forall_mem_cons.mp haliases
    have hasked (c : Condition) : (Join.asked q.settings .inner "t" name c).name = name := by
      rw [Join.name_asked, if_neg (by simpa using hne)]
    have hfresh : ∀ j ∈ q.joins,
        j.name ≠ if name.isEmpty then q.settings.mapTable "t" else name := by
      intro j hj heq
      rw [if_neg (by simpa using hne)] at heq
      exact (List.nodup_append.mp hnodup).2.2 _ (List.mem_map_of_mem hj) _ List.mem_cons_self heq
    have hjoin := perform_join .inner "1" hplain (by decide) (by decide) hname hfresh
    have hnext := ih (q := (q.perform (.join .inner "t" name (.str "1"))).2)
    rw [hjoin, List.map_append, List.map_singleton, hasked, List.append_assoc,
      List.singleton_append, ← hjoin] at hnext
    exact hnext (hjoin ▸ hplain) hrest hnodup

/-- A chain is exhausted where each of its names is joined. -/
theorem baseAlias_eq_error (h : q.joins.map Join.name = Name.baseAliases) :
    q.baseAlias = .error (.misuse (.noFreeAlias Name.baseAliases)) := by
  have htaken : ∀ name ∈ Name.baseAliases, q.isJoined name = true := by
    intro name hname
    rw [← h] at hname
    obtain ⟨j, hj, rfl⟩ := List.mem_map.mp hname
    exact List.any_eq_true.mpr ⟨j, hj, by simp⟩
  unfold baseAlias
  rw [if_neg, Name.pickAlias_eq_error htaken]
  · rfl
  · intro hempty
    rw [List.isEmpty_iff.mp hempty] at h
    cases h

/-- Where the other names are joined, a table that is mapped to the last one exhausts the chain. -/
theorem baseAlias_perform_join {table : String}
    (hplain : q.staged = none ∧ q.filters = [] ∧ q.grouping = none)
    (hnames : q.joins.map Join.name = ["b", "base", "base_table"]) (hne : table ≠ "")
    (htable : Name.isReserved table = false) (hmap : q.settings.mapTable table = "_base_table") :
    (q.perform (.join .inner table "" (.str "1"))).2.baseAlias
      = .error (.misuse (.noFreeAlias Name.baseAliases)) := by
  have hfresh : ∀ j ∈ q.joins,
      j.name ≠ if "".isEmpty then q.settings.mapTable table else "" := by
    intro j hj heq
    rw [if_pos (by decide), hmap] at heq
    have hmem := List.mem_map_of_mem (f := Join.name) hj
    rw [hnames, heq] at hmem
    exact absurd hmem (by decide)
  apply baseAlias_eq_error
  rw [perform_join .inner "1" hplain hne htable (by decide) hfresh, List.map_append, hnames,
    List.map_singleton, Join.name_asked, if_pos (by decide), hmap]
  rfl

/-- The statement finds an alias for its own table after every run of calls iff the settings map no
table to the last name of the chain. -/
theorem exists_baseAlias_run_iff {table : String} (h : ofTable s table = .ok q) :
    (∀ calls, ∃ base, (q.run calls).baseAlias = .ok base) ↔ s.Spares "_base_table" := by
  constructor
  · intro hrun other hne hother hmap
    obtain rfl := ofTable_ok h
    have hnodup : ["b", "base", "base_table"].Nodup := by decide
    obtain ⟨hplain, hnames⟩ := names_run_joinsUnder (q := ⟨s, s.mapTable table, [], [], none, none⟩)
      ⟨rfl, rfl, rfl⟩ (by decide) hnodup
    obtain ⟨base, hbase⟩ := hrun (joinsUnder ["b", "base", "base_table"] ++
      [.join .inner other "" (.str "1")])
    rw [run_append_singleton, baseAlias_perform_join hplain hnames hne hother] at hbase
    · cases hbase
    · rw [(subject_run _ _).1]
      exact hmap
  · exact fun hspares calls =>
      exists_baseAlias ((ne_reserved_run_iff h (by decide)).mpr hspares calls)

/-- However a statement on a table was put together, by calls that succeeded and calls that were
refused, it has its aliases, iff the settings map no table that may be joined to a reserved name. -/
theorem hasAliases_run_iff {table : String} (h : ofTable s table = .ok q) :
    (∀ calls, (q.run calls).HasAliases) ↔
      s.Spares "_base_table" ∧ s.Spares "_subj_table" := by
  rw [← ne_reserved_run_iff h (by decide), ← ne_reserved_run_iff h (by decide)]
  constructor
  · intro hrun
    have hne (name : String) (hname : Name.isReserved name = true) (calls : List Call) :
        ∀ j ∈ (q.run calls).joins, j.name ≠ name := by
      rintro j hj rfl
      exact absurd hname (by simp [(hrun calls).unreserved j hj])
    exact ⟨hne _ (by decide), hne _ (by decide)⟩
  · exact fun hne calls => hasAliases_of_ne_reserved (hne.1 calls) (hne.2 calls)

/-- A mapper that puts a prefix before each table makes `_base_table` of `_table`: three joins under
the other names of the chain and one of that table leave no alias. Without a mapper no run does. -/
theorem hasAliases_run_iff_prefix :
    let plain := Settings.ofDialect .postgres
    let prefixed := { plain with mapTable? := some ("_base" ++ ·) }
    let q : Statement := ⟨prefixed, "_baset", [], [], none, none⟩
    let calls : List Call := joinsUnder ["b", "base", "base_table"] ++
      [.join .inner "_table" "" (.str "1")]
    (ofTable prefixed "t" = .ok q ∧
      (q.run calls).joins.map Join.name = ["b", "base", "base_table", "_base_table"] ∧
      (q.run calls).baseAlias = .error (.misuse (.noFreeAlias Name.baseAliases)) ∧
      ¬ ∀ calls, (q.run calls).HasAliases) ∧
    ofTable plain "t" = .ok ⟨plain, "t", [], [], none, none⟩ ∧
      ∀ calls, (Statement.run ⟨plain, "t", [], [], none, none⟩ calls).HasAliases := by
  intro plain prefixed q calls
  have htable : ofTable prefixed "t" = .ok q := by rfl
  have hplain : ofTable plain "t" = .ok ⟨plain, "t", [], [], none, none⟩ := by rfl
  refine ⟨⟨htable, by decide +kernel, by decide +kernel, ?_⟩, hplain, ?_⟩
  · rw [hasAliases_run_iff htable]
    intro hspares
    exact hspares.1 "_table" (by decide) (by decide) (by decide)
  · refine (hasAliases_run_iff hplain).mpr ⟨fun table _ htable => ?_, fun table _ htable => ?_⟩
    all_goals
    · rintro rfl
      exact absurd htable (by decide)

end Statement

end SqlTemplate
