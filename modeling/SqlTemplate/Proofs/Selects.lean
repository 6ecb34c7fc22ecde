import SqlTemplate.Proofs.Conditions
import SqlTemplate.Proofs.Filters

/-!
# The text of a query

A query has a direct specification: its clauses in their order, each of them the text of what it was
given, checked or quoted by itself. `Statement.selectText` says so. The query itself is put together
as one fragment and rendered, and the main statement, `Statement.toSql_iff_selectText`, is that it
has the specified text, and none where there is none.
-/

namespace SqlTemplate

/-! ### The specification -/

/-- A table between quotes, with its alias if it has one. -/
def tableText (s : Settings) (table : String) : Option String → Bytes
  | none => Name.write s.nameQuote none table
  | some aliasName =>
    Name.write s.nameQuote none table ++ (utf8 " AS " ++ Name.write s.nameQuote none aliasName)

/-- Items with commas between them, each checked by itself. -/
def itemsText (s : Settings) (base : Option String) (items : List String) : Except Error Bytes :=
  joined ", " (items.map fun item => (sanitize item base s .chunk).map utf8)

def Join.text (s : Settings) (j : Join) : Except Error Bytes :=
  textOf [.ok (utf8 j.keyword), .ok (tableText s j.table j.aliasName), .ok (utf8 " ON "),
    j.condition.text s none]

def filtersText (s : Settings) (base : Option String) : List Condition → Except Error Bytes
  | [] => .ok []
  | filters => textOf [.ok (utf8 " WHERE "), joined " AND " (filters.map (·.text s base))]

def havingText (s : Settings) (base : Option String) : Option Condition → Except Error Bytes
  | none => .ok []
  | some condition => textOf [.ok (utf8 " HAVING "), condition.text s base]

def groupingText (s : Settings) (base : Option String) : Option Grouping → Except Error Bytes
  | none => .ok []
  | some grouping =>
    textOf [.ok (utf8 " GROUP BY "), itemsText s base grouping.columns,
      havingText s base grouping.having]

def orderText (s : Settings) (base : Option String) : List String → Except Error Bytes
  | [] => .ok []
  | items => textOf [.ok (utf8 " ORDER BY "), itemsText s base items]

/-- The clause of a page. One family has it only after an order. -/
def pageText (family : Family) (isOrdered : Bool) (page : Page) : String :=
  if page.isEmpty then ""
  else if !isOrdered && family = .mssql then " ORDER BY (SELECT NULL)" ++ page.clause family
  else page.clause family

/-- Without an order, a page needs a dialect in only-mode. -/
def Page.Suits (page : Page) (dialect : Dialect) (isOrdered : Bool) : Prop :=
  page.isEmpty = true ∨ isOrdered = true ∨ dialect.isOnly = true

namespace Statement

/-- The clauses of a query in their order, without its page. -/
def clausesText (q : Statement) (base : Option String) (what : Select) : Except Error Bytes :=
  textOf [
    .ok (utf8 (if what.isDistinct then "SELECT DISTINCT " else "SELECT ")),
    if what.columns.isEmpty then .ok (utf8 "*") else itemsText q.settings base what.columns,
    .ok (utf8 " FROM "),
    .ok (tableText q.settings q.table base),
    textOf (q.joins.map (·.text q.settings)),
    filtersText q.settings base q.filters,
    groupingText q.settings base q.grouping,
    orderText q.settings base what.orderBy]

/-- The text of a query. -/
def selectText (q : Statement) (base : Option String) (what : Select) : Except Error Bytes := do
  return (← q.clausesText base what) ++
    utf8 (pageText q.settings.family (!what.orderBy.isEmpty) what.page)

end Statement

/-! ### The clauses -/

/-- A space is none of the marks that make a quoted name stand for several. -/
theorem marks_not_mem : Byte.star ∉ [Byte.space] ∧ Byte.plus ∉ [Byte.space] ∧
    Byte.comma ∉ [Byte.space] := by decide

def tableBits (table : String) (aliasName : Option String) : List Bit :=
  [.text "\"", .hole (.str table), .text "\""] ++
    match aliasName with
    | none => []
    | some aliasName => [.text " AS ", .text "\"", .hole (.str aliasName), .text "\""]

def itemsBits (base : Option String) (items : List String) : List Bit :=
  [Bit.text ", "].intercalate (items.map fun item => qualifierBits base ++ [.hole (.str item)])

def joinBits (j : Join) : List Bit :=
  .text j.keyword :: (tableBits j.table j.aliasName ++
    .text " ON " :: conditionBits none j.condition)

def filtersBits (base : Option String) : List Condition → List Bit
  | [] => []
  | filters => .text " WHERE " :: [Bit.text " AND "].intercalate (filters.map (conditionBits base))

def havingBits (base : Option String) : Option Condition → List Bit
  | none => []
  | some condition => .text " HAVING " :: conditionBits base condition

def groupingBits (base : Option String) : Option Grouping → List Bit
  | none => []
  | some grouping => .text " GROUP BY " ::
    (itemsBits base grouping.columns ++ havingBits base grouping.having)

def orderBits (base : Option String) : List String → List Bit
  | [] => []
  | items => .text " ORDER BY " :: itemsBits base items

section Clauses

variable {s : Settings} {base : Option String}

/-- The bits begin with a space, or there are none, and they mean a text when a space comes next. -/
structure IsClause (s : Settings) (bits : List Bit) (spec : Except Error Bytes) : Prop where
  means : Means s none [Byte.space] bits spec
  leads : Leads [Byte.space] bits

theorem Means.clause {bits bits' : List Bit} {spec spec' : Except Error Bytes}
    (h : Means s none [Byte.space] bits spec) (h' : IsClause s bits' spec') :
    Means s none [Byte.space] (bits ++ bits') (do return (← spec) ++ (← spec')) :=
  h.append h'.means h'.leads

namespace IsClause

variable {bits bits' : List Bit} {spec spec' : Except Error Bytes}

/-- A clause that is left out. -/
theorem nil : IsClause s [] (.ok []) := ⟨.nil, leads_nil _⟩

/-- A clause opens with its words. -/
theorem words {sql : String} (hhead : (utf8 sql).head? = some Byte.space)
    (hlast : (utf8 sql).getLast?.any Hole.isOpener = false)
    (h : Means s none [Byte.space] bits spec) :
    IsClause s (.text sql :: bits) (do return utf8 sql ++ (← spec)) :=
  ⟨h.text_cons hlast, leads_text hhead (List.mem_singleton_self _) bits⟩

theorem append (h : IsClause s bits spec) (h' : IsClause s bits' spec') :
    IsClause s (bits ++ bits') (do return (← spec) ++ (← spec')) :=
  ⟨h.means.clause h', h.leads.append h'.leads⟩

end IsClause

theorem means_table (table : String) (aliasName : Option String) :
    Means s none [Byte.space] (tableBits table aliasName) (.ok (tableText s table aliasName)) := by
  cases aliasName with
  | none => exact .name marks_not_mem table
  | some aliasName =>
    exact (Means.name marks_not_mem table).clause
      (.words rfl rfl (.name marks_not_mem aliasName))

theorem means_items (items : List String) :
    Means s none [Byte.space] (itemsBits base items) (itemsText s base items) := by
  have hdot : Byte.dot ∉ [Byte.space, Byte.comma] := by decide
  have hitems : Means s none [Byte.space, Byte.comma] (itemsBits base items)
      (itemsText s base items) :=
    .intercalate (b := Byte.comma) rfl (by decide) rfl
      fun item _ => (Means.bare hdot item).qualified
  exact hitems.mono (by decide)

theorem isClause_join {j : Join} (hgiven : j.condition.IsGiven) :
    IsClause s (joinBits j) (j.text s) := by
  have hhead : (utf8 j.keyword).head? = some Byte.space := by
    rw [Join.keyword]
    cases j.kind <;> rfl
  have hlast : (utf8 j.keyword).getLast?.any Hole.isOpener = false := by
    rw [Join.keyword]
    cases j.kind <;> rfl
  rw [Join.text, textOf_cons, textOf_cons, textOf_cons, textOf_singleton]
  exact .words hhead hlast ((means_table _ _).clause (.words rfl rfl (means_condition hgiven)))

theorem isClause_joins {joins : List Join} (hgiven : ∀ j ∈ joins, j.condition.IsGiven) :
    IsClause s (joins.flatMap joinBits) (textOf (joins.map (·.text s))) where
  means := .flatMap (fun j hj => (isClause_join (hgiven j hj)).means)
    fun j hj => (isClause_join (s := s) (hgiven j hj)).leads
  leads := leads_flatMap fun j hj => (isClause_join (s := s) (hgiven j hj)).leads

theorem isClause_filters {filters : List Condition} (hgiven : ∀ c ∈ filters, c.IsGiven) :
    IsClause s (filtersBits base filters) (filtersText s base filters) := by
  cases filters with
  | nil => exact .nil
  | cons first rest =>
    rw [filtersText, textOf_cons, textOf_singleton]
    · refine .words rfl rfl ?_
      exact .intercalate (b := Byte.space) rfl (by decide) rfl
        fun c hc => means_condition (hgiven c hc)
    · intro h
      cases h

theorem isClause_having {having : Option Condition} (hgiven : ∀ c ∈ having, c.IsGiven) :
    IsClause s (havingBits base having) (havingText s base having) := by
  cases having with
  | none => exact .nil
  | some condition =>
    rw [havingText, textOf_cons, textOf_singleton]
    exact .words rfl rfl (means_condition (hgiven condition rfl))

theorem isClause_grouping {grouping : Option Grouping}
    (hgiven : ∀ c ∈ grouping.bind Grouping.having, c.IsGiven) :
    IsClause s (groupingBits base grouping) (groupingText s base grouping) := by
  cases grouping with
  | none => exact .nil
  | some grouping =>
    rw [groupingText, textOf_cons, textOf_cons, textOf_singleton]
    exact .words rfl rfl ((means_items _).clause (isClause_having hgiven))

theorem isClause_order (items : List String) :
    IsClause s (orderBits base items) (orderText s base items) := by
  cases items with
  | nil => exact .nil
  | cons first rest =>
    rw [orderText, textOf_cons, textOf_singleton]
    · exact .words rfl rfl (means_items _)
    · intro h
      cases h

end Clauses

/-! ### The clause of a page -/

/-- The bits of a page, which are literal texts. -/
def pageBits (family : Family) (isOrdered : Bool) (page : Page) : List Bit :=
  if page.isEmpty then []
  else if !isOrdered && family = .mssql then
    [.text " ORDER BY (SELECT NULL)", .text (page.clause family)]
  else [.text (page.clause family)]

theorem headOf_pageBits (family : Family) (isOrdered : Bool) (page : Page) :
    headOf (pageBits family isOrdered page) = pageText family isOrdered page := by
  unfold pageBits pageText
  split
  · rfl
  · split
    · exact congrArg (" ORDER BY (SELECT NULL)" ++ ·) String.append_empty
    · exact String.append_empty

theorem holesOf_pageBits (family : Family) (isOrdered : Bool) (page : Page) :
    holesOf (pageBits family isOrdered page) = [] := by
  unfold pageBits
  split
  · rfl
  · split <;> rfl

theorem head?_utf8_append {front : String} {b : UInt8} (hfront : (utf8 front).head? = some b)
    (back : String) : (utf8 (front ++ back)).head? = some b := by
  rw [utf8_append]
  cases hbytes : utf8 front with
  | nil =>
    rw [hbytes] at hfront
    cases hfront
  | cons c rest =>
    rw [hbytes] at hfront
    exact hfront

theorem head?_clause {page : Page} (hpage : page.isEmpty = false) (family : Family) :
    (utf8 (page.clause family)).head? = some Byte.space := by
  have hlimit : (utf8 " LIMIT ").head? = some Byte.space := rfl
  have hoffset : (utf8 " OFFSET ").head? = some Byte.space := rfl
  unfold Page.clause
  split
  · exact head?_utf8_append (head?_utf8_append hoffset _) _
  · exact head?_utf8_append (head?_utf8_append (head?_utf8_append
      (head?_utf8_append hoffset _) _) _) _
  · exact head?_utf8_append (head?_utf8_append (head?_utf8_append hlimit _) _) _
  · exact head?_utf8_append hlimit _
  · exact head?_utf8_append rfl _
  · exact head?_utf8_append rfl _
  · exact head?_utf8_append hoffset _
  · rename_i hnone hnone'
    simp [Page.isEmpty, hnone, hnone'] at hpage

theorem startsIn_pageBits (family : Family) (isOrdered : Bool) (page : Page) :
    StartsIn [Byte.space] (pageBits family isOrdered page) := by
  unfold pageBits
  split
  · exact nofun
  · rename_i hpage
    have hclause := head?_clause (Bool.not_eq_true _ ▸ hpage) family
    have hnothing : StartsIn [Byte.space] [] := nofun
    have horder : (utf8 " ORDER BY (SELECT NULL)").head? = some Byte.space := rfl
    have hspace : Byte.space ∈ [Byte.space] := List.mem_singleton_self _
    split
    · exact leads_text horder hspace [.text _] [] hnothing
    · exact leads_text hclause hspace [] [] hnothing

/-! ### The fragment of a query -/

namespace Fragment

theorem pushQualifier_eq (f : Fragment) (base : Option String) :
    f.pushQualifier base = f.pushBits (qualifierBits base) := by
  cases base <;> rfl

theorem pushCondition_eq_bits (f : Fragment) (base : Option String) (c : Condition) :
    f.pushCondition base c = f.pushBits (conditionBits base c) := by
  cases c <;> cases base <;> rfl

theorem pushTable_eq_bits (f : Fragment) (table : String) (aliasName : Option String) :
    f.pushTable table aliasName = f.pushBits (tableBits table aliasName) := by
  cases aliasName <;> rfl

/-- The items after the first, each with the comma before it. -/
theorem pushItems_later (f : Fragment) (base : Option String) (items : List String) :
    f.pushItems base true items =
      f.pushBits (items.flatMap fun item =>
        .text ", " :: (qualifierBits base ++ [.hole (.str item)])) := by
  induction items generalizing f with
  | nil => rfl
  | cons item rest ih =>
    rw [pushItems, ih, List.flatMap_cons, pushBits_append, pushQualifier_eq]
    cases base <;> rfl

theorem pushItems_eq (f : Fragment) (base : Option String) (items : List String) :
    f.pushItems base false items = f.pushBits (itemsBits base items) := by
  cases items with
  | nil => rfl
  | cons item rest =>
    rw [pushItems, pushItems_later, itemsBits, List.map_cons, intercalate_cons, List.flatMap_map,
      pushBits_append, pushQualifier_eq]
    cases base <;> rfl

theorem pushJoins_eq_bits (f : Fragment) (joins : List Join) :
    f.pushJoins joins = f.pushBits (joins.flatMap joinBits) := by
  induction joins generalizing f with
  | nil => rfl
  | cons j rest ih =>
    rw [pushJoins, ih, pushSource, pushTable_eq_bits, pushCondition_eq_bits, List.flatMap_cons,
      joinBits, pushBits_append, pushBits_text, pushBits_append, pushBits_text]

/-- The conditions after the first, each with the word before it. -/
theorem pushFilters_later (f : Fragment) (base : Option String) (filters : List Condition) :
    f.pushFilters base false filters =
      f.pushBits (filters.flatMap fun c => .text " AND " :: conditionBits base c) := by
  induction filters generalizing f with
  | nil => rfl
  | cons c rest ih =>
    rw [pushFilters, ih, List.flatMap_cons, pushBits_append, pushCondition_eq_bits]
    rfl

theorem pushFilters_eq_bits (f : Fragment) (base : Option String) (filters : List Condition) :
    f.pushFilters base true filters = f.pushBits (filtersBits base filters) := by
  cases filters with
  | nil => rfl
  | cons c rest =>
    rw [pushFilters, pushFilters_later, filtersBits, List.map_cons, intercalate_cons,
      List.flatMap_map, pushBits_text, pushBits_append, pushCondition_eq_bits]
    · rfl
    · intro h
      cases h

theorem pushGrouping_eq (f : Fragment) (base : Option String) (grouping : Option Grouping) :
    Statement.pushGrouping base f grouping = f.pushBits (groupingBits base grouping) := by
  cases grouping with
  | none => rfl
  | some grouping =>
    obtain ⟨columns, having⟩ := grouping
    rw [Statement.pushGrouping, groupingBits, pushBits_text, pushBits_append, pushItems_eq]
    cases having with
    | none => rfl
    | some condition => exact pushCondition_eq_bits _ _ _

theorem pushOrder_eq (f : Fragment) (base : Option String) (items : List String) :
    (if !items.isEmpty then (f.pushSql " ORDER BY ").pushItems base false items else f) =
      f.pushBits (orderBits base items) := by
  cases items with
  | nil => rfl
  | cons item rest =>
    exact pushItems_eq _ _ _

theorem pushPage_eq_ok_iff {f f' : Fragment} {page : Page} {dialect : Dialect} {isOrdered : Bool} :
    page.push dialect isOrdered f = .ok f' ↔
      page.Suits dialect isOrdered ∧ f' = f.pushBits (pageBits dialect.family isOrdered page) := by
  unfold Page.push pageBits
  by_cases hempty : page.isEmpty = true
  · rw [if_pos hempty, if_pos hempty]
    constructor
    · exact fun h => ⟨.inl hempty, (Except.ok.inj h).symm⟩
    · rintro ⟨-, rfl⟩
      rfl
  rw [if_neg hempty, if_neg hempty]
  by_cases hrefused : (!isOrdered && !dialect.isOnly) = true
  · rw [if_pos hrefused]
    have hneither : ¬ page.Suits dialect isOrdered := by
      obtain ⟨hordered, honly⟩ : isOrdered = false ∧ dialect.isOnly = false := by
        simpa using hrefused
      simp [Page.Suits, hempty, hordered, honly]
    constructor
    · intro h
      cases h
    · exact fun h => absurd h.1 hneither
  · rw [if_neg hrefused]
    have hsuits : page.Suits dialect isOrdered := by
      refine .inr ?_
      cases hordered : isOrdered with
      | true => exact .inl rfl
      | false =>
        rw [hordered] at hrefused
        exact .inr (by simpa using hrefused)
    constructor
    · intro h
      cases h
      refine ⟨hsuits, ?_⟩
      split <;> rfl
    · rintro ⟨-, rfl⟩
      split <;> rfl

end Fragment

namespace Statement

def columnsBits (base : Option String) (columns : List String) : List Bit :=
  if columns.isEmpty then [.text "*"] else itemsBits base columns

theorem pushColumns_eq (f : Fragment) (base : Option String) (columns : List String) :
    (if columns.isEmpty then f.pushSql "*" else f.pushItems base false columns) =
      f.pushBits (columnsBits base columns) := by
  unfold columnsBits
  split
  · rfl
  · exact f.pushItems_eq base columns

/-- The clauses of a query, without its page. -/
def selectBits (q : Statement) (base : Option String) (what : Select) : List Bit :=
  .text (if what.isDistinct then "SELECT DISTINCT " else "SELECT ") ::
    (columnsBits base what.columns ++ .text " FROM " ::
      (tableBits q.table base ++ (q.joins.flatMap joinBits ++ (filtersBits base q.filters ++
        (groupingBits base q.grouping ++ orderBits base what.orderBy)))))

theorem pushBits_selectBits (q : Statement) (base : Option String) (what : Select) (f : Fragment) :
    f.pushBits (q.selectBits base what) =
      (let f := f.pushSql (if what.isDistinct then "SELECT DISTINCT " else "SELECT ")
      let f := if what.columns.isEmpty then f.pushSql "*" else f.pushItems base false what.columns
      let f := ((f.pushSql " FROM ").pushTable q.table base).pushJoins q.joins
      let f := pushGrouping base (f.pushFilters base true q.filters) q.grouping
      if !what.orderBy.isEmpty then (f.pushSql " ORDER BY ").pushItems base false what.orderBy
      else f) := by
  dsimp only
  rw [Fragment.pushOrder_eq, Fragment.pushGrouping_eq, Fragment.pushFilters_eq_bits,
    Fragment.pushJoins_eq_bits, Fragment.pushTable_eq_bits, pushColumns_eq, selectBits,
    Fragment.pushBits_text, Fragment.pushBits_append, Fragment.pushBits_text,
    Fragment.pushBits_append, Fragment.pushBits_append, Fragment.pushBits_append,
    Fragment.pushBits_append]

theorem selectFragment_eq_ok_iff {q : Statement} {what : Select} {f : Fragment} :
    q.selectFragment what = .ok f ↔
      ∃ base, q.baseAlias = .ok base ∧
        what.page.Suits q.settings.dialect (!what.orderBy.isEmpty) ∧
        f = (Fragment.empty q.settings).pushBits (q.selectBits base what ++
          pageBits q.settings.family (!what.orderBy.isEmpty) what.page) := by
  simp only [Fragment.pushBits_append, pushBits_selectBits]
  unfold selectFragment
  cases q.baseAlias with
  | error e =>
    constructor
    · intro h
      cases h
    · rintro ⟨base, h, -⟩
      cases h
  | ok base =>
    rw [ok_bind]
    refine Fragment.pushPage_eq_ok_iff.trans ?_
    constructor
    · exact fun h => ⟨base, rfl, h⟩
    · rintro ⟨_, hbase, h⟩
      cases hbase
      exact h

theorem means_columns {s : Settings} (base : Option String) (columns : List String) :
    Means s none [Byte.space] (columnsBits base columns)
      (if columns.isEmpty then .ok (utf8 "*") else itemsText s base columns) := by
  unfold columnsBits
  split
  · exact Means.nil.text_cons rfl
  · exact means_items columns

theorem means_select {q : Statement} (hgiven : ∀ c ∈ q.conditions, c.IsGiven)
    (base : Option String) (what : Select) :
    Means q.settings none [Byte.space] (q.selectBits base what) (q.clausesText base what) := by
  simp only [conditions, List.forall_mem_append] at hgiven
  obtain ⟨⟨hjoins, hfilters⟩, hgrouping⟩ := hgiven
  have hverb : (utf8 (if what.isDistinct then "SELECT DISTINCT " else "SELECT ")).getLast?.any
      Hole.isOpener = false := by
    cases what.isDistinct <;> rfl
  have hjoins' : ∀ j ∈ q.joins, j.condition.IsGiven :=
    fun j hj => hjoins _ (List.mem_map_of_mem hj)
  have hgrouping' : ∀ c ∈ q.grouping.bind Grouping.having, c.IsGiven :=
    fun c hc => hgrouping c (Option.mem_toList.mpr hc)
  rw [clausesText, textOf_cons, textOf_cons, textOf_cons, textOf_cons, textOf_cons, textOf_cons,
    textOf_cons, textOf_singleton]
  refine .text_cons hverb ((means_columns base _).clause (.words rfl rfl ?_))
  refine (means_table _ _).clause ((isClause_joins hjoins').append ?_)
  exact (isClause_filters hfilters).append
    ((isClause_grouping hgrouping').append (isClause_order _))

theorem toSql_selectBits_iff {q : Statement} (hgiven : ∀ c ∈ q.conditions, c.IsGiven)
    (base : Option String) (what : Select) (sql : String) :
    ((Fragment.empty q.settings).pushBits (q.selectBits base what ++
        pageBits q.settings.family (!what.orderBy.isEmpty) what.page)).toSql = .ok sql ↔
      q.selectText base what = .ok (utf8 sql) := by
  rw [toSql_eq_ok_iff, means_select hgiven base what _ _ (startsIn_pageBits _ _ _)]
  simp only [renders_iff_of_holes_nil (holesOf_pageBits _ _ _), headOf_pageBits]
  unfold selectText
  cases q.clausesText base what with
  | error e =>
    constructor
    · rintro ⟨own, later, h, -⟩
      cases h
    · intro h
      cases h
  | ok own =>
    constructor
    · rintro ⟨_, _, h, hsql, rfl⟩
      cases h
      rw [hsql]
      rfl
    · intro h
      exact ⟨own, _, rfl, (Except.ok.inj h).symm, rfl⟩

/-- A query whose conditions are given by values has the specified text. -/
theorem exists_fragment_iff {q : Statement} {what : Select} {sql : String}
    (hgiven : ∀ c ∈ q.conditions, c.IsGiven) :
    (∃ f, q.selectFragment what = .ok f ∧ f.toSql = .ok sql) ↔
      ∃ base, q.baseAlias = .ok base ∧
        what.page.Suits q.settings.dialect (!what.orderBy.isEmpty) ∧
        q.selectText base what = .ok (utf8 sql) := by
  constructor
  · rintro ⟨f, hfragment, hsql⟩
    obtain ⟨base, hbase, hpage, rfl⟩ := selectFragment_eq_ok_iff.mp hfragment
    exact ⟨base, hbase, hpage, (toSql_selectBits_iff hgiven base what sql).mp hsql⟩
  · rintro ⟨base, hbase, hpage, htext⟩
    exact ⟨_, selectFragment_eq_ok_iff.mpr ⟨base, hbase, hpage, rfl⟩,
      (toSql_selectBits_iff hgiven base what sql).mpr htext⟩

/-- A query that is staged is built into its fragment. -/
theorem exists_build_iff {q : Statement} {what : Select} {f : Fragment}
    (hstaged : q.staged = some (.select what)) :
    (∃ q', q.build = .ok (f, q')) ↔ q.selectFragment what = .ok f := by
  unfold build
  rw [hstaged]
  constructor
  · rintro ⟨q', h⟩
    obtain ⟨built, hbuilt, h⟩ := bind_eq_ok h
    cases h
    exact hbuilt
  · intro h
    refine ⟨{ q with staged := none }, ?_⟩
    show (q.selectFragment what >>= fun built => _) = _
    rw [h]
    rfl

theorem baseAlias_eq_none_iff {q : Statement} {base : Option String}
    (h : q.baseAlias = .ok base) : base = none ↔ q.joins = [] := by
  rcases baseAlias_ok h with ⟨rfl, hnil⟩ | ⟨hsome, hne⟩
  · exact iff_of_true rfl hnil
  · exact iff_of_false (Option.isSome_iff_ne_none.mp hsome) hne

/-- However a query was put together, by calls that succeeded and calls that were refused, it is
built and rendered to the specified text, or to none if there is none. -/
theorem toSql_iff_selectText {s : Settings} {name : String} {q : Statement} {calls : List Call}
    {what : Select} (htable : ofTable s name = .ok q)
    (hstaged : (q.run calls).staged = some (.select what)) :
    (q.run calls).settings = s ∧ (q.run calls).table = s.mapTable name ∧
      (∀ base, (q.run calls).baseAlias = .ok base → (base = none ↔ (q.run calls).joins = [])) ∧
      ∀ sql, (∃ f q', (q.run calls).build = .ok (f, q') ∧ f.toSql = .ok sql) ↔
        ∃ base, (q.run calls).baseAlias = .ok base ∧
          what.page.Suits s.dialect (!what.orderBy.isEmpty) ∧
          (q.run calls).selectText base what = .ok (utf8 sql) := by
  have hgiven := (wellFormed_run (wellFormed_ofTable htable) calls).given
  obtain ⟨hsettings, hname⟩ := q.subject_run calls
  obtain rfl := ofTable_ok htable
  refine ⟨hsettings, hname, fun base => baseAlias_eq_none_iff, ?_⟩
  intro sql
  have hiff := @exists_fragment_iff _ what sql hgiven
  rw [hsettings] at hiff
  rw [← hiff]
  simp only [← exists_build_iff hstaged, exists_and_right]

/-- A query with a join, filters of all forms, a group, an order and a page. -/
theorem toSql_iff_selectText_joined :
    let s : Settings := .ofDialect .postgres
    let q : Statement := ⟨s, "t", [], [], none, none⟩
    let child : Fragment := ⟨s, "'", [(.int 3, "'")], 0⟩
    let what : Select := ⟨["a"], false, ["a"], ⟨some 5, none⟩⟩
    let calls : List Call :=
      [.join .left "u" "v" (.str "1"), .filter (.str "x"), .filter (.map [("c", .null)]),
        .filter (.fragment child), .groupBy ["a"] (some (.str "2")), .stage (.select what)]
    let sql := "SELECT \"b\".\"a\" FROM \"t\" AS \"b\" LEFT JOIN \"u\" AS \"v\" ON (1) " ++
      "WHERE (\"b\".\"x\") AND (\"b\".\"c\" IS NULL) AND (3) GROUP BY \"b\".\"a\" HAVING (2) " ++
      "ORDER BY \"b\".\"a\" LIMIT 5"
    ofTable s "t" = .ok q ∧ (q.run calls).staged = some (.select what) ∧
      (q.run calls).selectText (some "b") what = .ok (utf8 sql) ∧
      ∃ f q', (q.run calls).build = .ok (f, q') ∧ f.toSql = .ok sql := by
  intro s q child what calls sql
  have htable : ofTable s "t" = .ok q := rfl
  have hstaged : (q.run calls).staged = some (.select what) := rfl
  have hbase : (q.run calls).baseAlias = .ok (some "b") := by decide +kernel
  have htext : (q.run calls).selectText (some "b") what = .ok (utf8 sql) := by decide +kernel
  obtain ⟨-, -, -, hiff⟩ := toSql_iff_selectText htable hstaged
  exact ⟨htable, hstaged, htext, (hiff sql).mpr ⟨some "b", hbase, .inr (.inl rfl), htext⟩⟩

end Statement

end SqlTemplate
