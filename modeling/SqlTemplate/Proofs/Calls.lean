import Mathlib.Data.List.Basic
import SqlTemplate.Statement

/-!
# What calls keep to

A statement is put together by calls, each of which may be refused. One lemma for each kind of call
says what it does when it is not: `join_ok`, `filter_ok`, `groupBy_ok`, `stage_ok` and `build_ok`.
Together they are all that a call can do to a statement (`Advances`); what no call breaks holds after
every run of them (`wellFormed_run`). The main statement is `orderly_run`.
-/

namespace SqlTemplate

/-- A clause takes the condition from a value. -/
def Condition.IsGiven (c : Condition) : Prop :=
  ∃ (clause : Clause) (value : Value), ofValue clause value = .ok c

namespace Statement

/-- The conditions of all clauses. -/
def conditions (q : Statement) : List Condition :=
  q.joins.map Join.condition ++ q.filters ++ (q.grouping.bind Grouping.having).toList

/-- The clauses that an operation goes with. -/
def Suits (q : Statement) : Operation → Prop
  | .select _ => True
  | .update _ | .delete => q.grouping = none
  | .insert _ _ | .insertFrom _ _ | .truncate =>
    q.joins = [] ∧ q.filters = [] ∧ q.grouping = none

/-- No two tables of a statement have the same name, its conditions are given by values, and its
clauses suit the staged operation. -/
structure WellFormed (q : Statement) : Prop where
  nodup : (q.joins.map Join.name).Nodup
  given : ∀ c ∈ q.conditions, c.IsGiven
  suits : ∀ operation, q.staged = some operation → q.Suits operation

/-- The statement after a sequence of calls, whatever each of them gives back. -/
def run (q : Statement) (calls : List Call) : Statement :=
  calls.foldl (fun q call => (q.perform call).2) q

/-! ### Calls that succeed -/

/-- A computation that returns has passed the test at its front. -/
theorem guard_eq_ok {α : Type} {refused : Prop} [Decidable refused] {e : Error}
    {rest : Unit → Except Error α} {a : α}
    (h : (if refused then throw e >>= rest else rest ()) = .ok a) :
    ¬ refused ∧ rest () = .ok a := by
  split at h
  · cases h
  · exact ⟨‹_›, h⟩

theorem isJoined_eq_false_iff {q : Statement} {name : String} :
    q.isJoined name = false ↔ ∀ j ∈ q.joins, j.name ≠ name := by
  simp [isJoined]

theorem checkUnstaged_ok {q : Statement} (h : q.checkUnstaged = .ok ()) : q.staged = none := by
  unfold checkUnstaged at h
  split at h
  · cases h
  · assumption

theorem ofTable_ok {s : Settings} {name : String} {q : Statement}
    (h : ofTable s name = .ok q) : q = ⟨s, s.mapTable name, [], [], none, none⟩ := by
  obtain ⟨_, -, h⟩ := bind_eq_ok h
  obtain ⟨-, h⟩ := guard_eq_ok h
  exact (Except.ok.inj h).symm

theorem join_ok {q q' : Statement} {kind : JoinKind} {table aliasName : String}
    {condition : Value} (h : q.join kind table aliasName condition = .ok q') :
    q.staged = none ∧ q.filters = [] ∧ q.grouping = none ∧
      ∃ j : Join, j.condition.IsGiven ∧ q.isJoined j.name = false ∧
        q' = { q with joins := q.joins ++ [j] } := by
  obtain ⟨_, hunstaged, h⟩ := bind_eq_ok h
  obtain ⟨hearly, h⟩ := guard_eq_ok h
  obtain ⟨_, -, h⟩ := bind_eq_ok h
  obtain ⟨_, -, h⟩ := bind_eq_ok h
  obtain ⟨-, h⟩ := guard_eq_ok h
  obtain ⟨c, hgiven, h⟩ := bind_eq_ok h
  obtain ⟨hnew, h⟩ := guard_eq_ok h
  obtain ⟨hfilters, hgrouping⟩ : q.filters = [] ∧ q.grouping = none := by simpa using hearly
  exact ⟨checkUnstaged_ok hunstaged, hfilters, hgrouping, _, ⟨.join, condition, hgiven⟩,
    Bool.not_eq_true _ ▸ hnew, (Except.ok.inj h).symm⟩

theorem filter_ok {q q' : Statement} {condition : Value} (h : q.filter condition = .ok q') :
    q.staged = none ∧ q.grouping = none ∧
      ∃ c : Condition, c.IsGiven ∧ q' = { q with filters := q.filters ++ [c] } := by
  obtain ⟨_, hunstaged, h⟩ := bind_eq_ok h
  obtain ⟨hearly, h⟩ := guard_eq_ok h
  obtain ⟨c, hgiven, h⟩ := bind_eq_ok h
  exact ⟨checkUnstaged_ok hunstaged, by simpa using hearly, c, ⟨.filter, condition, hgiven⟩,
    (Except.ok.inj h).symm⟩

theorem groupBy_ok {q q' : Statement} {columns : List String} {having : Option Value}
    (h : q.groupBy columns having = .ok q') :
    q.staged = none ∧ q.grouping = none ∧ columns ≠ [] ∧
      ∃ c : Option Condition, (∀ d ∈ c, d.IsGiven) ∧
        q' = { q with grouping := some ⟨columns, c⟩ } := by
  obtain ⟨_, hunstaged, h⟩ := bind_eq_ok h
  obtain ⟨honce, h⟩ := guard_eq_ok h
  obtain ⟨hsome, h⟩ := guard_eq_ok h
  obtain ⟨c, hc, h⟩ := bind_eq_ok h
  refine ⟨checkUnstaged_ok hunstaged, by simpa using honce, by simpa using hsome, c, ?_,
    (Except.ok.inj h).symm⟩
  cases having with
  | none =>
    cases hc
    exact nofun
  | some value =>
    rw [Option.mapM_some] at hc
    obtain ⟨d, hgiven, hc⟩ := bind_eq_ok hc
    cases hc
    intro e he
    cases he
    exact ⟨.having, value, hgiven⟩

theorem suits_of_checkSuits {q : Statement} {operation : Operation}
    (h : q.checkSuits operation = .ok ()) : q.Suits operation := by
  cases operation with
  | select what => trivial
  | update set | delete =>
    simp only [checkSuits] at h
    split at h
    · cases h
    · rename_i hnone
      simpa [Suits] using hnone
  | insert rows conflict | insertFrom columns source | truncate =>
    simp only [checkSuits] at h
    split at h
    · cases h
    · rename_i hnone
      simpa [Suits, and_assoc] using hnone

theorem stage_ok {q q' : Statement} {operation : Operation} (h : q.stage operation = .ok q') :
    q.staged = none ∧ q.Suits operation ∧ q' = { q with staged := some operation } := by
  obtain ⟨_, hunstaged, h⟩ := bind_eq_ok h
  obtain ⟨_, hsuits, h⟩ := bind_eq_ok h
  exact ⟨checkUnstaged_ok hunstaged, suits_of_checkSuits hsuits, (Except.ok.inj h).symm⟩

theorem build_ok {q q' : Statement} {f : Fragment} (h : q.build = .ok (f, q')) :
    q' = { q with staged := none } := by
  unfold build at h
  split at h
  · cases h
  · obtain ⟨built, -, h⟩ := bind_eq_ok h
    cases h
    rfl

/-! ### One call -/

/-- All that a call can do to a statement that it changes. -/
inductive Advances (q : Statement) : Statement → Prop
  | join (hstaged : q.staged = none) (hfilters : q.filters = []) (hgrouping : q.grouping = none)
      (j : Join) (hgiven : j.condition.IsGiven) (hnew : q.isJoined j.name = false) :
      Advances q { q with joins := q.joins ++ [j] }
  | filter (hstaged : q.staged = none) (hgrouping : q.grouping = none) (c : Condition)
      (hgiven : c.IsGiven) : Advances q { q with filters := q.filters ++ [c] }
  | groupBy (hstaged : q.staged = none) (hgrouping : q.grouping = none) (grouping : Grouping)
      (hgiven : ∀ c ∈ grouping.having, c.IsGiven) :
      Advances q { q with grouping := some grouping }
  | stage (hstaged : q.staged = none) (operation : Operation) (hsuits : q.Suits operation) :
      Advances q { q with staged := some operation }
  | build : Advances q { q with staged := none }

/-- What a call does to a statement, if it does anything. -/
def effect (q : Statement) : Call → Except Error Statement
  | .join kind table aliasName condition => q.join kind table aliasName condition
  | .filter condition => q.filter condition
  | .groupBy columns having => q.groupBy columns having
  | .stage operation => q.stage operation
  | .build | .toSql => q.build.map (·.2)

theorem advances_of_effect {q q' : Statement} {call : Call} (h : q.effect call = .ok q') :
    q.Advances q' := by
  cases call with
  | join kind table aliasName condition =>
    obtain ⟨hstaged, hfilters, hgrouping, j, hgiven, hnew, rfl⟩ := join_ok h
    exact .join hstaged hfilters hgrouping j hgiven hnew
  | filter condition =>
    obtain ⟨hstaged, hgrouping, c, hgiven, rfl⟩ := filter_ok h
    exact .filter hstaged hgrouping c hgiven
  | groupBy columns having =>
    obtain ⟨hstaged, hgrouping, -, c, hgiven, rfl⟩ := groupBy_ok h
    exact .groupBy hstaged hgrouping ⟨columns, c⟩ hgiven
  | stage operation =>
    obtain ⟨hstaged, hsuits, rfl⟩ := stage_ok h
    exact .stage hstaged operation hsuits
  | build | toSql =>
    simp only [effect] at h
    cases hbuild : q.build with
    | error e =>
      rw [hbuild] at h
      cases h
    | ok built =>
      rw [hbuild] at h
      cases h
      obtain ⟨f, q'⟩ := built
      obtain rfl := build_ok hbuild
      exact .build

theorem perform_of_effect_error {q : Statement} {call : Call} {e : Error}
    (h : q.effect call = .error e) : q.perform call = (.error e, q) := by
  cases call with
  | join | filter | groupBy | stage =>
    simp only [effect] at h
    rw [perform, h]
    rfl
  | build | toSql =>
    simp only [effect] at h
    cases hbuild : q.build with
    | error e' =>
      rw [hbuild] at h
      cases h
      rw [perform, hbuild]
    | ok built =>
      rw [hbuild] at h
      cases h

/-- Only a call that asks for the text of a statement can do its part and fail. -/
theorem perform_of_effect_ok {q q' : Statement} {call : Call} (h : q.effect call = .ok q') :
    (q.perform call).2 = q' ∧ ∀ e, (q.perform call).1 = .error e → call = .toSql := by
  cases call with
  | join | filter | groupBy | stage =>
    simp only [effect] at h
    rw [perform, h]
    refine ⟨rfl, ?_⟩
    intro e he
    cases he
  | build | toSql =>
    simp only [effect] at h
    cases hbuild : q.build with
    | error e =>
      rw [hbuild] at h
      cases h
    | ok built =>
      rw [hbuild] at h
      cases h
      rw [perform, hbuild]
      refine ⟨rfl, ?_⟩
      intro e he
      first | rfl | cases he

/-- A call leaves the statement as it was, or does to it what the call is for. -/
theorem perform_advances (q : Statement) (call : Call) :
    (q.perform call).2 = q ∨ q.Advances (q.perform call).2 := by
  cases h : q.effect call with
  | error e => exact Or.inl (congrArg Prod.snd (perform_of_effect_error h))
  | ok q' =>
    rw [(perform_of_effect_ok h).1]
    exact Or.inr (advances_of_effect h)

/-- A call that is refused changes nothing, except that a statement which is built for its text is
built even if the text cannot be rendered. -/
theorem perform_error {q : Statement} {call : Call} {e : Error}
    (h : (q.perform call).1 = .error e) :
    (q.perform call).2 = q ∨ call = .toSql ∧
      ∃ f, q.build = .ok (f, (q.perform call).2) ∧
        (q.perform call).2 = { q with staged := none } := by
  cases heffect : q.effect call with
  | error e => exact Or.inl (congrArg Prod.snd (perform_of_effect_error heffect))
  | ok q' =>
    obtain ⟨hsnd, htext⟩ := perform_of_effect_ok heffect
    obtain rfl := htext e h
    rw [hsnd]
    simp only [effect] at heffect
    cases hbuild : q.build with
    | error e =>
      rw [hbuild] at heffect
      cases heffect
    | ok built =>
      rw [hbuild] at heffect
      cases heffect
      exact Or.inr ⟨rfl, built.1, rfl, build_ok hbuild⟩

/-! ### What calls preserve -/

theorem Advances.given {q q' : Statement} (h : q.Advances q') (hq : ∀ c ∈ q.conditions, c.IsGiven) :
    ∀ c ∈ q'.conditions, c.IsGiven := by
  simp only [conditions, List.forall_mem_append] at hq ⊢
  obtain ⟨⟨hjoins, hfilters⟩, hgrouping⟩ := hq
  cases h with
  | join hstaged hnofilters hnogrouping j hgiven =>
    refine ⟨⟨?_, hfilters⟩, hgrouping⟩
    rw [List.map_append, List.forall_mem_append]
    exact ⟨hjoins, List.forall_mem_singleton.mpr hgiven⟩
  | filter hstaged hnogrouping c hgiven =>
    refine ⟨⟨hjoins, ?_⟩, hgrouping⟩
    exact List.forall_mem_append.mpr ⟨hfilters, List.forall_mem_singleton.mpr hgiven⟩
  | groupBy hstaged hnogrouping grouping hgiven =>
    exact ⟨⟨hjoins, hfilters⟩, fun c hc => hgiven c (Option.mem_toList.mp hc)⟩
  | stage | build => exact ⟨⟨hjoins, hfilters⟩, hgrouping⟩

theorem Advances.wellFormed {q q' : Statement} (h : q.Advances q') (hq : q.WellFormed) :
    q'.WellFormed := by
  have hgiven := h.given hq.given
  cases h with
  | join hstaged hfilters hgrouping j _ hnew =>
    refine ⟨?_, hgiven, fun operation hoperation => absurd (hstaged.symm.trans hoperation) (by simp)⟩
    have hfresh : j.name ∉ q.joins.map Join.name := by
      intro hmem
      obtain ⟨other, hother, heq⟩ := List.mem_map.mp hmem
      exact isJoined_eq_false_iff.mp hnew other hother heq
    rw [List.map_append, List.map_singleton]
    exact List.nodup_append.mpr ⟨hq.nodup, List.pairwise_singleton _ _, fun a ha b hb heq =>
      hfresh (List.mem_singleton.mp hb ▸ heq ▸ ha)⟩
  | filter hstaged | groupBy hstaged =>
    exact ⟨hq.nodup, hgiven,
      fun operation hoperation => absurd (hstaged.symm.trans hoperation) (by simp)⟩
  | stage hstaged operation hsuits =>
    refine ⟨hq.nodup, hgiven, ?_⟩
    intro other hother
    cases hother
    cases operation <;> exact hsuits
  | build =>
    refine ⟨hq.nodup, hgiven, ?_⟩
    intro other hother
    cases hother

/-- While an operation is staged, the clauses stay as they are. -/
theorem Advances.clauses_eq {q q' : Statement} (h : q.Advances q') (hstaged : q.staged ≠ none) :
    q'.joins = q.joins ∧ q'.filters = q.filters ∧ q'.grouping = q.grouping := by
  cases h with
  | join hnone | filter hnone | groupBy hnone | stage hnone => exact absurd hnone hstaged
  | build => exact ⟨rfl, rfl, rfl⟩

/-- A statement stays on its table, under its settings. -/
theorem Advances.subject_eq {q q' : Statement} (h : q.Advances q') :
    q'.settings = q.settings ∧ q'.table = q.table := by
  cases h <;> exact ⟨rfl, rfl⟩

theorem subject_run (q : Statement) (calls : List Call) :
    (q.run calls).settings = q.settings ∧ (q.run calls).table = q.table := by
  induction calls generalizing q with
  | nil => exact ⟨rfl, rfl⟩
  | cons call rest ih =>
    obtain ⟨hsettings, htable⟩ := ih (q.perform call).2
    rcases q.perform_advances call with heq | hadvances
    · exact ⟨hsettings.trans (congrArg settings heq), htable.trans (congrArg table heq)⟩
    · exact ⟨hsettings.trans hadvances.subject_eq.1, htable.trans hadvances.subject_eq.2⟩

theorem wellFormed_run {q : Statement} (h : q.WellFormed) (calls : List Call) :
    (q.run calls).WellFormed := by
  induction calls generalizing q with
  | nil => exact h
  | cons call rest ih =>
    refine ih ?_
    show (q.perform call).2.WellFormed
    rcases q.perform_advances call with heq | hadvances
    · rwa [heq]
    · exact hadvances.wellFormed h

theorem wellFormed_ofTable {s : Settings} {name : String} {q : Statement}
    (h : ofTable s name = .ok q) : q.WellFormed := by
  obtain rfl := ofTable_ok h
  refine ⟨List.nodup_nil, List.forall_mem_nil _, ?_⟩
  intro operation hoperation
  cases hoperation

/-- The alias of the statement's own table is none of the names that are joined to it. -/
theorem ne_of_baseAlias {q : Statement} {base : String} (h : q.baseAlias = .ok (some base)) :
    ∀ j ∈ q.joins, j.name ≠ base := by
  apply isJoined_eq_false_iff.mp
  unfold baseAlias Name.pickAlias at h
  split at h
  · cases h
  split at h
  · rename_i found hfound
    cases h
    simpa using List.find?_some hfound
  · cases h

/-- What holds of a statement and of any call that comes next. -/
structure Orderly (q : Statement) (call : Call) : Prop where
  names_nodup : (q.joins.map Join.name).Nodup
  base_ne : ∀ base, q.baseAlias = .ok (some base) → ∀ j ∈ q.joins, j.name ≠ base
  suits : ∀ operation, q.staged = some operation → q.Suits operation
  /-- What is staged is built with the clauses that it was staged with. -/
  frozen : q.staged ≠ none → (q.perform call).2.joins = q.joins ∧
    (q.perform call).2.filters = q.filters ∧ (q.perform call).2.grouping = q.grouping
  /-- A refusal changes nothing; but what is built for its text is built even if the text cannot be
  rendered. -/
  refused : ∀ e, (q.perform call).1 = .error e → (q.perform call).2 = q ∨
    call = .toSql ∧ ∃ f, q.build = .ok (f, (q.perform call).2) ∧
      (q.perform call).2 = { q with staged := none }
  built : ∀ f q', q.build = .ok (f, q') → q' = { q with staged := none }

/-- However a statement on a table was put together, by calls that succeeded and calls that were
refused, it is orderly at the next call. -/
theorem orderly_run {s : Settings} {name : String} {q : Statement} (h : ofTable s name = .ok q)
    (calls : List Call) (call : Call) : (q.run calls).Orderly call := by
  have hq := wellFormed_run (wellFormed_ofTable h) calls
  refine ⟨hq.nodup, fun base => ne_of_baseAlias, hq.suits, ?_, fun e => perform_error,
    fun f q' => build_ok⟩
  intro hstaged
  rcases (q.run calls).perform_advances call with heq | hadvances
  · rw [heq]
    exact ⟨rfl, rfl, rfl⟩
  · exact hadvances.clauses_eq hstaged

/-- A join of a table that is joined already is refused, an update is staged, and then a filter comes
too late. -/
theorem orderly_run_update :
    let q : Statement := ⟨.ofDialect .postgres, "t", [], [], none, none⟩
    let calls : List Call :=
      [.join .inner "u" "b" (.str "1"), .join .left "v" "b" (.str "2"),
        .stage (.update (.map [("a", .int 1)]))]
    ofTable (.ofDialect .postgres) "t" = .ok q ∧
      (q.run calls).joins.map Join.name = ["b"] ∧
      (q.run calls).baseAlias = .ok (some "base") ∧
      (q.run calls).Orderly (.filter (.str "a")) := by
  intro q calls
  have htable : ofTable (.ofDialect .postgres) "t" = .ok q := rfl
  exact ⟨htable, by decide +kernel, by decide +kernel, orderly_run htable calls _⟩

end Statement

end SqlTemplate
