import Mathlib.Data.List.Basic
import SqlTemplate.Render.Hole
import SqlTemplate.Statement.Change

/-!
# The parts of a statement

Statements are put together from literal texts, names, assignments and conditions, one after the
other. `Fragment.pushParts` is that, and every clause is a list of parts. What can be read off the
parts holds of the fragment: which of its holes are for conditions (`conditionParams_pushParts`),
and which words its literal texts contain (`says_pushParts`).
-/

namespace SqlTemplate

inductive Part where
  | text (sql : String)
  | name (name : String)
  | assignments (qualifier : Option String) (set : Value)
  | condition (qualifier : Option String) (condition : Condition)

namespace Fragment

def pushPart (f : Fragment) : Part → Fragment
  | .text sql => f.pushSql sql
  | .name name => f.pushName name
  | .assignments qualifier set => Statement.pushAssignments set (f.pushQualifier qualifier)
  | .condition qualifier condition => f.pushCondition qualifier condition

def pushParts (f : Fragment) (parts : List Part) : Fragment := parts.foldl pushPart f

theorem pushParts_append (f : Fragment) (parts parts' : List Part) :
    f.pushParts (parts ++ parts') = (f.pushParts parts).pushParts parts' :=
  List.foldl_append

end Fragment

/-! ### Clauses as parts -/

def tableParts (table : String) : Option String → List Part
  | none => [.name table]
  | some aliasName => [.name table, .text " AS ", .name aliasName]

def Join.parts (j : Join) : List Part :=
  .text j.keyword :: tableParts j.table j.aliasName ++ [.text " ON ", .condition none j.condition]

/-- What stands between the words of a `WHERE` clause: a condition, or that two aliases of one table
name the same row. -/
inductive Conjunct where
  | condition (qualifier : Option String) (condition : Condition)
  | sameRow (column subject base : String)

def Conjunct.parts : Conjunct → List Part
  | .condition qualifier c => [.condition qualifier c]
  | .sameRow column subject base =>
    [.name subject, .text column, .text " = ", .name base, .text column]

/-- Conjuncts, each with the word before it. -/
def conjunctionParts (isFirst : Bool) : List Conjunct → List Part
  | [] => []
  | conjunct :: rest =>
    .text (if isFirst then " WHERE " else " AND ") :: conjunct.parts ++ conjunctionParts false rest

namespace Fragment

theorem pushTable_eq (f : Fragment) (table : String) (aliasName : Option String) :
    f.pushTable table aliasName = f.pushParts (tableParts table aliasName) := by
  cases aliasName <;> rfl

theorem pushJoins_eq (f : Fragment) (joins : List Join) :
    f.pushJoins joins = f.pushParts (joins.flatMap Join.parts) := by
  induction joins generalizing f with
  | nil => rfl
  | cons j rest ih =>
    rw [pushJoins, ih, List.flatMap_cons, pushParts_append, pushSource, pushTable_eq]
    congr 1
    rw [Join.parts, ← List.singleton_append, List.append_assoc, pushParts_append, pushParts_append]
    rfl

theorem pushConjunct_eq (f : Fragment) (isFirst : Bool) (conjunct : Conjunct)
    (rest : List Conjunct) :
    f.pushParts (conjunctionParts isFirst (conjunct :: rest)) =
      ((f.pushConjunction isFirst).pushParts conjunct.parts).pushParts
        (conjunctionParts false rest) := by
  rw [conjunctionParts, ← List.singleton_append, List.append_assoc, pushParts_append,
    pushParts_append]
  rfl

theorem pushFilters_eq (f : Fragment) (qualifier : Option String) (isFirst : Bool)
    (conditions : List Condition) :
    f.pushFilters qualifier isFirst conditions =
      f.pushParts (conjunctionParts isFirst (conditions.map (.condition qualifier))) := by
  induction conditions generalizing f isFirst with
  | nil => rfl
  | cons condition rest ih =>
    rw [pushFilters, ih, List.map_cons, pushConjunct_eq]
    rfl

end Fragment

/-! ### The last literal text -/

/-- The last of the literal texts `before` and those after the holes. -/
def lastOf (before : String) : List (Value × String) → String
  | [] => before
  | (_, after) :: rest => lastOf after rest

theorem lastOf_concat (before : String) (holes : List (Value × String)) (hole : Value × String) :
    lastOf before (holes ++ [hole]) = hole.2 := by
  induction holes generalizing before with
  | nil => rfl
  | cons first rest ih => exact ih first.2

namespace Fragment

/-- The literal text that a fragment ends in. -/
def lastChunk (f : Fragment) : String := lastOf f.head f.holes

theorem extendLast_concat (sql : String) (holes : List (Value × String)) (value : Value)
    (chunk : String) :
    extendLast sql (holes ++ [(value, chunk)]) = holes ++ [(value, chunk ++ sql)] := by
  induction holes with
  | nil => rfl
  | cons first rest ih =>
    cases rest with
    | nil => rfl
    | cons second rest =>
      rw [List.cons_append, List.cons_append, extendLast]
      · exact congrArg (first :: ·) ih
      · exact nofun

theorem pushSql_of_holes {f : Fragment} (h : f.holes ≠ []) (sql : String) :
    f.pushSql sql =
      { f with holes := extendLast sql f.holes, sizeHint := f.sizeHint + sql.utf8ByteSize } := by
  unfold pushSql
  split
  · rename_i hnil
    exact absurd hnil h
  · rfl

/-- A text is appended to the head of a fragment without holes, and to the last hole otherwise. -/
theorem pushSql_cases (f : Fragment) (sql : String) :
    (f.holes = [] ∧ (f.pushSql sql).holes = [] ∧ (f.pushSql sql).head = f.head ++ sql) ∨
      ∃ holes value chunk, f.holes = holes ++ [(value, chunk)] ∧
        (f.pushSql sql).holes = holes ++ [(value, chunk ++ sql)] ∧
          (f.pushSql sql).head = f.head := by
  rcases List.eq_nil_or_concat f.holes with hnil | ⟨holes, ⟨value, chunk⟩, hholes⟩
  · refine Or.inl ⟨hnil, ?_⟩
    rw [pushSql, hnil]
    exact ⟨rfl, rfl⟩
  · rw [List.concat_eq_append] at hholes
    have hne : f.holes ≠ [] := by simp [hholes]
    refine Or.inr ⟨holes, value, chunk, hholes, ?_, ?_⟩
    · rw [pushSql_of_holes hne, hholes]
      exact extendLast_concat sql holes value chunk
    · rw [pushSql_of_holes hne]

theorem lastChunk_pushSql (f : Fragment) (sql : String) :
    (f.pushSql sql).lastChunk = f.lastChunk ++ sql := by
  rcases f.pushSql_cases sql with
    ⟨hholes, hholes', hhead⟩ | ⟨holes, value, chunk, hholes, hholes', -⟩
  · rw [lastChunk, lastChunk, hholes, hholes', hhead]
    rfl
  · rw [lastChunk, lastChunk, hholes, hholes', lastOf_concat, lastOf_concat]

theorem lastChunk_pushParam (f : Fragment) (value : Value) (sql : String) :
    ((f.pushParam value).pushSql sql).lastChunk = sql := by
  rw [lastChunk_pushSql, lastChunk, pushParam, lastOf_concat, String.empty_append]

theorem holes_pushParam (f : Fragment) (value : Value) (sql : String) :
    ((f.pushParam value).pushSql sql).holes = f.holes ++ [(value, sql)] ∧
      ((f.pushParam value).pushSql sql).head = f.head := by
  have hne : (f.pushParam value).holes ≠ [] := by simp [pushParam]
  rw [pushSql_of_holes hne, pushParam, extendLast_concat, String.empty_append]
  exact ⟨rfl, rfl⟩

end Fragment

/-! ### The holes for conditions -/

namespace Hole

theorem enclosed?_eq_expression {opener : UInt8} {next : Bytes} :
    enclosed? opener next = some .expression ↔
      opener = Byte.openParen ∧ next.head? = some Byte.closeParen := by
  unfold enclosed?
  grind

theorem enclosed?_eq_conditions {opener : UInt8} {next : Bytes} :
    enclosed? opener next = some (.conditions true) ↔
      opener = Byte.openBrace ∧ next.head? = some Byte.ampersand := by
  unfold enclosed?
  grind

/-- A hole of a kind that is not told by what follows alone is enclosed. -/
theorem find_eq_enclosed {index : Nat} {opener : Option UInt8} {next : Bytes} {hole : Hole}
    (hqualifier : hole ≠ .qualifier) (hbare : hole ≠ .bare) :
    find index opener next = .ok hole ↔
      ∃ b, opener = some b ∧ isOpener b = true ∧ enclosed? b next = some hole := by
  unfold find
  cases opener with
  | none => grind
  | some b =>
    by_cases hb : isOpener b = true
    · cases henclosed : enclosed? b next with
      | none => simp [hb, henclosed]
      | some kind => simp [hb, henclosed]
    · grind

theorem find_eq_expression (index : Nat) {opener : Option UInt8} {next : Bytes} :
    find index opener next = .ok .expression ↔
      opener = some Byte.openParen ∧ next.head? = some Byte.closeParen := by
  rw [find_eq_enclosed (by decide) (by decide)]
  simp only [enclosed?_eq_expression]
  constructor
  · rintro ⟨b, hopener, -, rfl, hhead⟩
    exact ⟨hopener, hhead⟩
  · rintro ⟨hopener, hhead⟩
    exact ⟨_, hopener, rfl, rfl, hhead⟩

theorem find_eq_conditions (index : Nat) {opener : Option UInt8} {next : Bytes} :
    find index opener next = .ok (.conditions true) ↔
      opener = some Byte.openBrace ∧ next.head? = some Byte.ampersand := by
  rw [find_eq_enclosed (by decide) (by decide)]
  simp only [enclosed?_eq_conditions]
  constructor
  · rintro ⟨b, hopener, -, rfl, hhead⟩
    exact ⟨hopener, hhead⟩
  · rintro ⟨hopener, hhead⟩
    exact ⟨_, hopener, rfl, rfl, hhead⟩

end Hole

/-- The literal texts around a hole ask for a condition. -/
def isConditionHole (before after : String) : Bool :=
  match Hole.find 0 (utf8 before).getLast? (utf8 after) with
  | .ok .expression | .ok (.conditions true) => true
  | _ => false

theorem isConditionHole_iff {before after : String} :
    isConditionHole before after = true ↔
      ((utf8 before).getLast? = some Byte.openParen ∧
        (utf8 after).head? = some Byte.closeParen) ∨
      ((utf8 before).getLast? = some Byte.openBrace ∧
        (utf8 after).head? = some Byte.ampersand) := by
  rw [← Hole.find_eq_expression 0, ← Hole.find_eq_conditions 0]
  unfold isConditionHole
  split <;> simp_all

/-- The values in holes for conditions. -/
def conditionsFrom (before : String) : List (Value × String) → List Value
  | [] => []
  | (value, after) :: rest =>
    (if isConditionHole before after then [value] else []) ++ conditionsFrom after rest

theorem conditionsFrom_concat (before : String) (holes : List (Value × String)) (value : Value)
    (after : String) :
    conditionsFrom before (holes ++ [(value, after)]) =
      conditionsFrom before holes ++
        if isConditionHole (lastOf before holes) after then [value] else [] := by
  induction holes generalizing before with
  | nil => exact List.append_nil _
  | cons first rest ih =>
    rw [List.cons_append, conditionsFrom, conditionsFrom, ih, lastOf, List.append_assoc]

namespace Fragment

def conditionParams (f : Fragment) : List Value := conditionsFrom f.head f.holes

/-- What follows at the end of a fragment does not stand right after a hole. -/
def Settled (f : Fragment) : Prop := f.holes = [] ∨ utf8 f.lastChunk ≠ []

/-- A text at the end of a fragment leaves the holes as they are. -/
theorem conditionParams_pushSql {f : Fragment} (hf : f.Settled) (sql : String) :
    (f.pushSql sql).Settled ∧ (f.pushSql sql).conditionParams = f.conditionParams := by
  rcases f.pushSql_cases sql with
    ⟨hholes, hholes', -⟩ | ⟨holes, value, chunk, hholes, hholes', hhead⟩
  · refine ⟨Or.inl hholes', ?_⟩
    rw [conditionParams, conditionParams, hholes, hholes']
    rfl
  · have hchunk : utf8 chunk ≠ [] := by
      rcases hf with hnil | hne
      · simp [hnil] at hholes
      · rwa [lastChunk, hholes, lastOf_concat] at hne
    have hsame : ∀ before,
        isConditionHole before (chunk ++ sql) = isConditionHole before chunk := by
      intro before
      rw [Bool.eq_iff_iff, isConditionHole_iff, isConditionHole_iff, utf8_append,
        List.head?_append_of_ne_nil _ hchunk]
    refine ⟨Or.inr ?_, ?_⟩
    · rw [lastChunk, hholes', lastOf_concat, utf8_append]
      exact List.append_ne_nil_of_left_ne_nil hchunk _
    · rw [conditionParams, conditionParams, hholes, hholes', hhead, conditionsFrom_concat,
        conditionsFrom_concat, hsame]

theorem conditionParams_pushParam (f : Fragment) (value : Value) (sql : String)
    (hsql : utf8 sql ≠ []) :
    ((f.pushParam value).pushSql sql).Settled ∧
      ((f.pushParam value).pushSql sql).conditionParams =
        f.conditionParams ++ if isConditionHole f.lastChunk sql then [value] else [] := by
  obtain ⟨hholes, hhead⟩ := f.holes_pushParam value sql
  refine ⟨Or.inr ?_, ?_⟩
  · rwa [lastChunk_pushParam]
  · rw [conditionParams, hholes, hhead, conditionsFrom_concat]
    rfl

end Fragment

def Condition.value : Condition → Value
  | .expression value | .pairs value => value

/-- The values in the holes for conditions of a part. -/
def Part.conditions : Part → List Value
  | .condition _ c => [c.value]
  | _ => []

namespace Fragment

/-- A hole between two texts that it does not share with what stands around it. -/
theorem conditionParams_pushHole {f : Fragment} (hf : f.Settled) (value : Value)
    {opener closer : String} (hopener : utf8 opener ≠ []) (hcloser : utf8 closer ≠ []) :
    (((f.pushSql opener).pushParam value).pushSql closer).Settled ∧
      (((f.pushSql opener).pushParam value).pushSql closer).conditionParams =
        f.conditionParams ++ if isConditionHole opener closer then [value] else [] := by
  obtain ⟨hsettled, hparams⟩ := (f.pushSql opener).conditionParams_pushParam value closer hcloser
  refine ⟨hsettled, ?_⟩
  have hsame :
      isConditionHole (f.pushSql opener).lastChunk closer = isConditionHole opener closer := by
    rw [Bool.eq_iff_iff, isConditionHole_iff, isConditionHole_iff, lastChunk_pushSql,
      utf8_append, List.getLast?_append_of_ne_nil _ hopener]
  rw [hparams, hsame, (conditionParams_pushSql hf opener).2]

theorem conditionParams_pushQualifier {f : Fragment} (hf : f.Settled) (qualifier : Option String) :
    (f.pushQualifier qualifier).Settled ∧
      (f.pushQualifier qualifier).conditionParams = f.conditionParams := by
  cases qualifier with
  | none => exact ⟨hf, rfl⟩
  | some qualifier =>
    have hdot : utf8 "." = [Byte.dot] := by decide +kernel
    have hhole : isConditionHole f.lastChunk "." = false := by
      rw [← Bool.not_eq_true, isConditionHole_iff, hdot]
      rintro (⟨-, hhead⟩ | ⟨-, hhead⟩) <;> exact absurd hhead (by decide)
    obtain ⟨hsettled, hparams⟩ :=
      f.conditionParams_pushParam (.str qualifier) "." (by rw [hdot]; exact nofun)
    refine ⟨hsettled, ?_⟩
    rw [pushQualifier, hparams, hhole]
    exact List.append_nil _

theorem conditionParams_pushPart {f : Fragment} (hf : f.Settled) (part : Part) :
    (f.pushPart part).Settled ∧
      (f.pushPart part).conditionParams = f.conditionParams ++ part.conditions := by
  cases part with
  | text sql =>
    rw [show Part.conditions (.text sql) = [] from rfl, List.append_nil]
    exact conditionParams_pushSql hf sql
  | name name =>
    exact conditionParams_pushHole hf (.str name) (by decide +kernel) (by decide +kernel)
  | assignments qualifier set =>
    obtain ⟨hsettled, hparams⟩ := conditionParams_pushQualifier hf qualifier
    rw [← hparams]
    exact conditionParams_pushHole hsettled set (by decide +kernel) (by decide +kernel)
  | condition qualifier c =>
    obtain ⟨hsettled, hparams⟩ := conditionParams_pushQualifier hf qualifier
    rw [← hparams]
    cases c with
    | expression value | pairs value =>
      exact conditionParams_pushHole hsettled value (by decide +kernel) (by decide +kernel)

/-- The holes for conditions are those of the parts, in order. -/
theorem conditionParams_pushParts {f : Fragment} (hf : f.Settled) (parts : List Part) :
    (f.pushParts parts).conditionParams = f.conditionParams ++ parts.flatMap Part.conditions := by
  induction parts generalizing f with
  | nil => exact (List.append_nil _).symm
  | cons part rest ih =>
    obtain ⟨hsettled, hparams⟩ := conditionParams_pushPart hf part
    show ((f.pushPart part).pushParts rest).conditionParams = _
    rw [ih hsettled, hparams, List.flatMap_cons, List.append_assoc]

/-! ### The words of the literal texts -/

/-- A literal text of the fragment contains a word. -/
def Says (f : Fragment) (word : String) : Prop := ∃ chunk ∈ f.chunks, utf8 word <:+: utf8 chunk

/-- No literal text of the fragment contains a byte. -/
def Lacks (f : Fragment) (b : UInt8) : Prop := ∀ chunk ∈ f.chunks, b ∉ utf8 chunk

theorem Lacks.not_says {f : Fragment} {b : UInt8} {word : String} (h : f.Lacks b)
    (hb : b ∈ utf8 word) : ¬ f.Says word := by
  rintro ⟨chunk, hchunk, hword⟩
  exact h chunk hchunk (hword.subset hb)

theorem chunks_pushSql (f : Fragment) (sql : String) :
    ∃ front, f.chunks = front ++ [f.lastChunk] ∧
      (f.pushSql sql).chunks = front ++ [f.lastChunk ++ sql] := by
  rcases f.pushSql_cases sql with
    ⟨hholes, hholes', hhead⟩ | ⟨holes, value, chunk, hholes, hholes', hhead⟩
  · refine ⟨[], ?_, ?_⟩
    · rw [chunks, lastChunk, hholes]
      rfl
    · rw [chunks, lastChunk, hholes, hholes', hhead]
      rfl
  · refine ⟨f.head :: holes.map (·.2), ?_, ?_⟩
    · rw [chunks, lastChunk, hholes, lastOf_concat, List.map_append]
      rfl
    · rw [chunks, lastChunk, hholes, hholes', hhead, lastOf_concat, List.map_append]
      rfl

theorem params_pushSql (f : Fragment) (sql : String) : (f.pushSql sql).params = f.params := by
  rcases f.pushSql_cases sql with
    ⟨hholes, hholes', -⟩ | ⟨holes, value, chunk, hholes, hholes', -⟩
  · rw [params, params, hholes, hholes']
  · rw [params, params, hholes, hholes', List.map_append, List.map_append]
    rfl

theorem chunks_pushParam (f : Fragment) (value : Value) :
    (f.pushParam value).chunks = f.chunks ++ [""] := by
  simp [chunks, pushParam]

theorem says_pushSql (f : Fragment) {word sql : String}
    (h : f.Says word ∨ utf8 word <:+: utf8 sql) :
    (f.pushSql sql).Says word := by
  obtain ⟨front, hchunks, hchunks'⟩ := f.chunks_pushSql sql
  have hlast : ∀ {part : Bytes}, part <:+: utf8 f.lastChunk ∨ part <:+: utf8 sql →
      part <:+: utf8 (f.lastChunk ++ sql) := by
    rw [utf8_append]
    rintro part (hpart | hpart)
    · exact hpart.trans (List.prefix_append _ _).isInfix
    · exact hpart.trans (List.suffix_append _ _).isInfix
  rw [Says, hchunks']
  rcases h with ⟨chunk, hchunk, hword⟩ | hword
  · rw [hchunks] at hchunk
    rcases List.mem_append.mp hchunk with hfront | hchunk
    · exact ⟨chunk, List.mem_append_left _ hfront, hword⟩
    · obtain rfl := List.mem_singleton.mp hchunk
      exact ⟨_, List.mem_append_right _ (List.mem_singleton.mpr rfl), hlast (Or.inl hword)⟩
  · exact ⟨_, List.mem_append_right _ (List.mem_singleton.mpr rfl), hlast (Or.inr hword)⟩

theorem says_pushParam {f : Fragment} {word : String} (h : f.Says word) (value : Value) :
    (f.pushParam value).Says word := by
  obtain ⟨chunk, hchunk, hword⟩ := h
  rw [Says, chunks_pushParam]
  exact ⟨chunk, List.mem_append_left _ hchunk, hword⟩

theorem lacks_pushSql {f : Fragment} {b : UInt8} {sql : String} (h : f.Lacks b)
    (hsql : b ∉ utf8 sql) : (f.pushSql sql).Lacks b := by
  obtain ⟨front, hchunks, hchunks'⟩ := f.chunks_pushSql sql
  rw [Lacks, hchunks, List.forall_mem_append, List.forall_mem_singleton] at h
  rw [Lacks, hchunks', List.forall_mem_append, List.forall_mem_singleton, utf8_append,
    List.mem_append]
  exact ⟨h.1, not_or.mpr ⟨h.2, hsql⟩⟩

theorem lacks_pushParam {f : Fragment} {b : UInt8} (h : f.Lacks b) (value : Value) :
    (f.pushParam value).Lacks b := by
  rw [Lacks, chunks_pushParam, List.forall_mem_append, List.forall_mem_singleton]
  exact ⟨h, by simp [show utf8 "" = [] from rfl]⟩

/-- The texts that parts put around their holes. -/
def marks : List String := ["\"", "\x7b", "\x7d", ".", "(", ")", "&"]

theorem says_pushQualifier {f : Fragment} {word : String} (h : f.Says word)
    (qualifier : Option String) : (f.pushQualifier qualifier).Says word := by
  cases qualifier with
  | none => exact h
  | some qualifier => exact says_pushSql _ (Or.inl (says_pushParam h _))

theorem says_pushHole {f : Fragment} {word opener closer : String} (h : f.Says word)
    (value : Value) : (((f.pushSql opener).pushParam value).pushSql closer).Says word :=
  says_pushSql _ (Or.inl (says_pushParam (says_pushSql _ (Or.inl h)) value))

theorem says_pushPart {f : Fragment} {word : String} (h : f.Says word) (part : Part) :
    (f.pushPart part).Says word := by
  cases part with
  | text sql => exact says_pushSql _ (Or.inl h)
  | name name => exact says_pushHole h _
  | assignments qualifier set => exact says_pushHole (says_pushQualifier h qualifier) _
  | condition qualifier c =>
    cases c <;> exact says_pushHole (says_pushQualifier h qualifier) _

/-- A word of a literal text among the parts is one of the fragment. -/
theorem says_pushParts {f : Fragment} {word : String} {parts : List Part}
    (h : f.Says word ∨ ∃ sql, .text sql ∈ parts ∧ utf8 word <:+: utf8 sql) :
    (f.pushParts parts).Says word := by
  induction parts generalizing f with
  | nil =>
    rcases h with hsays | ⟨sql, hmem, -⟩
    · exact hsays
    · cases hmem
  | cons part rest ih =>
    refine ih (f := f.pushPart part) ?_
    rcases h with hsays | ⟨sql, hmem, hword⟩
    · exact Or.inl (says_pushPart hsays part)
    · rcases List.mem_cons.mp hmem with rfl | hrest
      · exact Or.inl (says_pushSql _ (Or.inr hword))
      · exact Or.inr ⟨sql, hrest, hword⟩

section Lacks

variable {f : Fragment} {b : UInt8} (hmarks : ∀ mark ∈ marks, b ∉ utf8 mark)

include hmarks

theorem lacks_pushQualifier (h : f.Lacks b) (qualifier : Option String) :
    (f.pushQualifier qualifier).Lacks b := by
  cases qualifier with
  | none => exact h
  | some qualifier => exact lacks_pushSql (lacks_pushParam h _) (hmarks _ (by decide))

theorem lacks_pushHole {opener closer : String} (h : f.Lacks b) (value : Value)
    (hopener : opener ∈ marks) (hcloser : closer ∈ marks) :
    (((f.pushSql opener).pushParam value).pushSql closer).Lacks b :=
  lacks_pushSql (lacks_pushParam (lacks_pushSql h (hmarks _ hopener)) value) (hmarks _ hcloser)

theorem lacks_pushPart {part : Part} (h : f.Lacks b)
    (htext : ∀ sql, part = .text sql → b ∉ utf8 sql) : (f.pushPart part).Lacks b := by
  cases part with
  | text sql => exact lacks_pushSql h (htext sql rfl)
  | name name => exact lacks_pushHole hmarks h _ (by decide) (by decide)
  | assignments qualifier set =>
    exact lacks_pushHole hmarks (lacks_pushQualifier hmarks h qualifier) _ (by decide) (by decide)
  | condition qualifier c =>
    have hqualifier := lacks_pushQualifier hmarks h qualifier
    cases c <;> exact lacks_pushHole hmarks hqualifier _ (by decide) (by decide)

theorem lacks_pushParts {parts : List Part} (h : f.Lacks b)
    (hparts : ∀ sql, .text sql ∈ parts → b ∉ utf8 sql) : (f.pushParts parts).Lacks b := by
  induction parts generalizing f with
  | nil => exact h
  | cons part rest ih =>
    refine ih (lacks_pushPart hmarks h ?_) ?_
    · intro sql hsql
      exact hparts sql (hsql ▸ List.mem_cons_self)
    · intro sql hsql
      exact hparts sql (List.mem_cons_of_mem _ hsql)

end Lacks

end Fragment

end SqlTemplate
