import PgTextsearch.Planner.QueryTree

/-!
# Tenant injection (`planner/hooks.c`)

When the WHERE clause of a query compares the tenant column of a BM25 index with an integer,
the hooks write the integer into the `bm25query` constants, so that the index scan returns
the rows of that tenant only.  The comparison is looked for among the conjuncts by
range-table number and attribute number; at which query level the variable lives is not
looked at, neither for the compared nor for the scored column.

## Main results

* `tenant_injection_sound` — an injected tenant is the tenant of every row that can satisfy
  the conditions if the comparison found is about the scored row; if it is about a row of
  another level and nothing else restricts the scored row, it is not.
* `outer_tenant_injected` — a correlated subquery restricted to the tenant of its outer row.
-/

namespace PgTextsearch.Planner

/-! ## Looking for the comparison -/

/-- What the hooks look up in the catalogs: the `<@>` operator, operator names, the tenant
attribute of an index, and constant folding of a function call. -/
structure Catalog where
  textTpqueryOperatorOid : Nat
  opname : Nat → Option String
  tenantAttnum : Nat → Option Nat
  evalConstExpressions : Nat → List Node → Option Const

/-- A comparison of a column with an integer constant. -/
structure Comparison where
  opno : Nat
  var : Var
  value : Int

/-- The low 32 bits of an integer. -/
def low32 (i : Int) : Nat := (i % 4294967296).toNat

/-- A non-NULL integer constant. -/
def Const.integer : Const → Option Int
  | int4 value => value
  | int8 value => value
  | _ => none

/-- `Var op Const`, in either order. -/
def comparisonOf : Node → Option Comparison
  | .opExpr opno [.var v, .const c] => c.integer.map fun value => ⟨opno, v, value⟩
  | .opExpr opno [.const c, .var v] => c.integer.map fun value => ⟨opno, v, value⟩
  | _ => none

/-- The conditions a top-level AND is made of. -/
def conjuncts : Node → List Node
  | .boolExpr .andExpr args => args
  | node => [node]

section Hooks

variable (cat : Catalog)

/-- The comparison, if it is on the right attribute of the right range-table entry and its
operator is called `=`. -/
def equalityOn (matches_ : Var → Bool) (node : Node) : Option Comparison :=
  (comparisonOf node).filter fun c => matches_ c.var && cat.opname c.opno == some "="

/-- `find_equality_const_for_column`. -/
def findEqualityConstForColumn (quals : Node) (varno attnum : Nat) : Option Comparison :=
  (conjuncts quals).findSome? (equalityOn cat fun v => v.varno == varno && v.varattno == attnum)

/-- The right operand of `<@>`, after folding a function call. -/
def foldedConst : Node → Option Const
  | .const c => some c
  | .funcExpr funcid args => cat.evalConstExpressions funcid args
  | _ => none

/-- `get_var_relation_and_attnum`: the entry is a relation of the query at hand. -/
def isRelationVar (rtable : List RangeTblEntry) (v : Var) : Bool :=
  match v.varno with
  | 0 => false
  | i + 1 =>
      match rtable[i]? with
      | some (.relation _) => true
      | _ => false

/-- A tenant written into a `bm25query`: the row that is scored, by level and range-table
number, its tenant attribute, the comparison found, and the tenant. -/
structure Injection where
  level : Nat
  varno : Nat
  attnum : Nat
  found : Comparison
  tenantId : Nat

/-- `try_inject_tenant_into_opexpr`. -/
def tryInjectTenantIntoOpexpr (quals : Node) (rtable : List RangeTblEntry) (call : OpCall) :
    Option Injection :=
  if call.1 ≠ cat.textTpqueryOperatorOid then none
  else
    match call.2 with
    | [.var v, right] =>
        match foldedConst cat right with
        | some (.tpquery (some tpquery)) =>
            if tpquery.indexOid = 0 ∨ tpquery.tenantId ≠ 0 then none
            else
              match cat.tenantAttnum tpquery.indexOid with
              | none => none
              | some attnum =>
                  if !isRelationVar rtable v then none
                  else
                    (findEqualityConstForColumn cat quals v.varno attnum).map fun found =>
                      ⟨v.varlevelsup, v.varno, attnum, found, low32 found.value⟩
        | _ => none
    | _ => none

/-- `inject_tenant_predicate`: the score expressions of the target list, then those anywhere
in the WHERE clause. -/
def injectTenantPredicate (query : Query) : List Injection :=
  match query.quals with
  | none => []
  | some quals =>
      query.targetList.filterMap (fun expr =>
        match expr with
        | .opExpr opno args => tryInjectTenantIntoOpexpr cat quals query.rtable (opno, args)
        | _ => none) ++
      quals.opExprs.filterMap (tryInjectTenantIntoOpexpr cat quals query.rtable)

mutual

/-- The queries `resolve_indexes_in_query` comes to: the query, and those in sublinks, common
table expressions and FROM subqueries. -/
def Query.resolved : Query → List Query
  | .mk rtable quals targetList havingQual cteList =>
      .mk rtable quals targetList havingQual cteList ::
        (resolvedOfNodes targetList ++ resolvedOfOption quals ++ resolvedOfOption havingQual ++
          resolvedOfQueries cteList ++ resolvedOfEntries rtable)

def Node.resolved : Node → List Query
  | .var _ => []
  | .const _ => []
  | .opExpr _ args => resolvedOfNodes args
  | .boolExpr _ args => resolvedOfNodes args
  | .funcExpr _ args => resolvedOfNodes args
  | .subLink testexpr subselect => subselect.resolved ++ resolvedOfNodes testexpr

def resolvedOfNodes : List Node → List Query
  | [] => []
  | node :: rest => node.resolved ++ resolvedOfNodes rest

def resolvedOfOption : Option Node → List Query
  | none => []
  | some node => node.resolved

def resolvedOfQueries : List Query → List Query
  | [] => []
  | query :: rest => query.resolved ++ resolvedOfQueries rest

def RangeTblEntry.resolved : RangeTblEntry → List Query
  | .relation _ => []
  | .subquery query => query.resolved
  | .other => []

def resolvedOfEntries : List RangeTblEntry → List Query
  | [] => []
  | entry :: rest => entry.resolved ++ resolvedOfEntries rest

end

/-- `resolve_indexes_in_query` on a query tree, as far as tenants go: every injection with
the query whose conditions it was taken from. -/
def resolveIndexesInQuery (tree : Query) : List (Query × Injection) :=
  tree.resolved.flatMap fun query => (injectTenantPredicate cat query).map fun inj => (query, inj)

/-- `RelOptInfo`: a base relation with the conditions that involve no other relation. -/
structure RelOptInfo where
  relid : Nat
  baserestrictinfo : List Node
  own : ∀ clause ∈ baserestrictinfo, ∀ v ∈ clause.vars, v.varno = relid ∧ v.varlevelsup = 0

/-- `IndexPath` on a BM25 index. -/
structure IndexPath where
  indexOid : Nat
  indexorderbys : List Node

/-- `find_equality_const_in_restrictinfo`. -/
def findEqualityConstInRestrictinfo (rel : RelOptInfo) (attnum : Nat) : Option Comparison :=
  rel.baserestrictinfo.findSome? (equalityOn cat fun v => v.varattno == attnum)

/-- The ORDER BY expressions a tenant is written into. -/
def takesTenant : Node → Bool
  | .opExpr opno [_, right] =>
      opno == cat.textTpqueryOperatorOid &&
        match foldedConst cat right with
        | some (.tpquery (some tpquery)) => tpquery.tenantId == 0
        | _ => false
  | _ => false

/-- `inject_tenant_in_indexpaths`. -/
def injectTenantInIndexpaths (pathlist : List IndexPath) (rel : RelOptInfo) : List Injection :=
  pathlist.flatMap fun path =>
    match cat.tenantAttnum path.indexOid with
    | none => []
    | some attnum =>
        match findEqualityConstInRestrictinfo cat rel attnum with
        | none => []
        | some found =>
            (path.indexorderbys.filter (takesTenant cat)).map fun _ =>
              ⟨0, rel.relid, attnum, found, low32 found.value⟩

end Hooks

/-! ## What an injection means -/

section Meaning

variable (S : Semantics)

/-- Every row that can satisfy the conditions has the injected tenant. -/
def Injection.Sound (inj : Injection) (conditions : List Node) : Prop :=
  ∀ rows, (∀ cond ∈ conditions, cond.eval S rows = .bool true) →
    ∃ i, rows inj.level inj.varno inj.attnum = .int i ∧ low32 i = inj.tenantId

/-- The operator is equality of integers. -/
def IntegerEquality (opno : Nat) : Prop :=
  ∀ a b, S.op opno [a, b] = .bool true → ∃ i, a = .int i ∧ b = .int i

/-- The comparison found is integer equality and about the scored row, not about a row of
another query level. -/
structure Injection.OnScoredRow (inj : Injection) : Prop where
  level : inj.found.var.varlevelsup = inj.level
  equality : IntegerEquality S inj.found.opno

/-- The conditions can hold, and none of them mentions the tenant column of the scored
row. -/
structure Injection.Unrestricted (inj : Injection) (quals : Node) : Prop where
  satisfiable : ∃ rows, quals.eval S rows = .bool true
  unmentioned : (⟨inj.varno, inj.attnum, inj.level⟩ : Var) ∉ quals.vars
  noSubLink : quals.subselects = []

variable {S} {cat : Catalog}

/-- What `equalityOn` finds. -/
theorem equalityOn_eq_some {matches_ : Var → Bool} {node : Node} {c : Comparison}
    (h : equalityOn cat matches_ node = some c) :
    matches_ c.var = true ∧ c.var ∈ node.vars ∧ ∀ rows, node.eval S rows = .bool true →
      IntegerEquality S c.opno →
      rows c.var.varlevelsup c.var.varno c.var.varattno = .int c.value := by
  obtain ⟨hcomp, hcond⟩ := Option.filter_eq_some_iff.1 h
  have hmatch := (Bool.and_eq_true _ _).mp hcond
  have hconst : ∀ {c : Const} {i : Int}, c.integer = some i → c.datum = .int i := by
    intro c i hi
    cases c <;> simp_all [Const.integer, Const.datum]
  unfold comparisonOf at hcomp
  split at hcomp
  · obtain ⟨value, hvalue, rfl⟩ := Option.map_eq_some_iff.1 hcomp
    refine ⟨hmatch.1, by simp [Node.vars, varsOfList], ?_⟩
    intro rows htrue heq
    simp only [Node.eval, evalList, hconst hvalue] at htrue
    obtain ⟨i, hleft, hright⟩ := heq _ _ htrue
    cases hright
    exact hleft
  · obtain ⟨value, hvalue, rfl⟩ := Option.map_eq_some_iff.1 hcomp
    refine ⟨hmatch.1, by simp [Node.vars, varsOfList], ?_⟩
    intro rows htrue heq
    simp only [Node.eval, evalList, hconst hvalue] at htrue
    obtain ⟨i, hleft, hright⟩ := heq _ _ htrue
    cases hleft
    exact hright
  · cases hcomp

/-- The conjuncts of a true condition are true. -/
theorem eval_conjuncts {quals : Node} {rows : Rows} (h : quals.eval S rows = .bool true) :
    ∀ node ∈ conjuncts quals, node.eval S rows = .bool true := by
  unfold conjuncts
  split
  · exact eval_and_true S h
  · intro node hnode
    rw [List.mem_singleton.1 hnode]
    exact h

/-- What an injection into a score expression was taken from. -/
theorem tryInject_eq_some {quals : Node} {rtable : List RangeTblEntry} {call : OpCall}
    {inj : Injection} (h : tryInjectTenantIntoOpexpr cat quals rtable call = some inj) :
    findEqualityConstForColumn cat quals inj.varno inj.attnum = some inj.found ∧
      inj.tenantId = low32 inj.found.value := by
  unfold tryInjectTenantIntoOpexpr at h
  split at h
  · cases h
  · split at h
    · split at h
      · split at h
        · cases h
        · split at h
          · cases h
          · split at h
            · cases h
            · obtain ⟨found, hfound, rfl⟩ := Option.map_eq_some_iff.1 h
              exact ⟨hfound, rfl⟩
      · cases h
    · cases h

/-- Every injection of a query was taken from its WHERE clause. -/
theorem mem_injectTenantPredicate {query : Query} {inj : Injection}
    (h : inj ∈ injectTenantPredicate cat query) : ∃ quals, query.quals = some quals ∧
      findEqualityConstForColumn cat quals inj.varno inj.attnum = some inj.found ∧
      inj.tenantId = low32 inj.found.value := by
  unfold injectTenantPredicate at h
  split at h
  · exact absurd h List.not_mem_nil
  · rename_i quals hquals
    refine ⟨quals, hquals, ?_⟩
    cases List.mem_append.1 h with
    | inl htarget =>
        obtain ⟨expr, -, hexpr⟩ := List.mem_filterMap.1 htarget
        split at hexpr
        · exact tryInject_eq_some hexpr
        · cases hexpr
    | inr hqual =>
        obtain ⟨call, -, hcall⟩ := List.mem_filterMap.1 hqual
        exact tryInject_eq_some hcall

/-- The comparison found in a WHERE clause. -/
theorem findEqualityConst_spec {quals : Node} {varno attnum : Nat} {c : Comparison}
    (h : findEqualityConstForColumn cat quals varno attnum = some c) :
    c.var.varno = varno ∧ c.var.varattno = attnum ∧ ∀ rows, quals.eval S rows = .bool true →
      IntegerEquality S c.opno →
      rows c.var.varlevelsup c.var.varno c.var.varattno = .int c.value := by
  obtain ⟨node, hnode, heq⟩ := List.exists_of_findSome?_eq_some h
  obtain ⟨hmatch, -, hvalue⟩ := equalityOn_eq_some (S := S) heq
  have hvar := (Bool.and_eq_true _ _).mp hmatch
  refine ⟨beq_iff_eq.1 hvar.1, beq_iff_eq.1 hvar.2, ?_⟩
  intro rows htrue hint
  exact hvalue rows (eval_conjuncts htrue node hnode) hint

/-- An injection found on the scored row is sound. -/
theorem sound_of_onScoredRow {query : Query} {inj : Injection}
    (hmem : inj ∈ injectTenantPredicate cat query) (hrow : inj.OnScoredRow S) :
    inj.Sound S query.quals.toList := by
  obtain ⟨quals, hquals, hfound, hid⟩ := mem_injectTenantPredicate hmem
  obtain ⟨hvarno, hattno, hvalue⟩ := findEqualityConst_spec (S := S) hfound
  intro rows hconds
  have htrue := hconds quals (by simp [hquals])
  have heq := hvalue rows htrue hrow.equality
  rw [hvarno, hattno, hrow.level] at heq
  exact ⟨_, heq, hid.symm⟩

/-- Where the tenant column is unrestricted, no tenant may be injected. -/
theorem not_sound_of_unrestricted {query : Query} {quals : Node} (hquals : query.quals = some quals)
    {inj : Injection} (h : inj.Unrestricted S quals) : ¬ inj.Sound S query.quals.toList := by
  intro hsound
  obtain ⟨rows, htrue⟩ := h.satisfiable
  -- the same rows with another tenant in the scored row
  obtain ⟨rows', hrows'⟩ : ∃ rows' : Rows, rows' = fun level varno attnum =>
      if level = inj.level ∧ varno = inj.varno ∧ attnum = inj.attnum then
        .int (inj.tenantId + 1)
      else rows level varno attnum := ⟨_, rfl⟩
  have hother : ∀ level varno attnum,
      ¬ (level = inj.level ∧ varno = inj.varno ∧ attnum = inj.attnum) →
        rows' level varno attnum = rows level varno attnum := by
    intro level varno attnum hne
    rw [hrows']
    exact if_neg hne
  have hscored : rows' inj.level inj.varno inj.attnum = .int (inj.tenantId + 1) := by
    rw [hrows']
    exact if_pos ⟨rfl, rfl, rfl⟩
  have hsame : quals.eval S rows' = quals.eval S rows := by
    apply Node.eval_congr S quals _ h.noSubLink
    intro v hv
    refine hother _ _ _ fun heq => ?_
    apply h.unmentioned
    rw [← heq.1, ← heq.2.1, ← heq.2.2]
    exact hv
  obtain ⟨i, hi, hlow⟩ := hsound rows' (by
    intro cond hcond
    rw [hquals, Option.toList_some, List.mem_singleton] at hcond
    rw [hcond, hsame, htrue])
  rw [hscored] at hi
  cases hi
  unfold low32 at hlow
  omega

/-- An injection into an index path is taken from a condition on the relation itself. -/
theorem sound_of_indexpath {pathlist : List IndexPath} {rel : RelOptInfo} {inj : Injection}
    (hmem : inj ∈ injectTenantInIndexpaths cat pathlist rel)
    (hint : IntegerEquality S inj.found.opno) : inj.Sound S rel.baserestrictinfo := by
  obtain ⟨path, -, hpath⟩ := List.mem_flatMap.1 hmem
  split at hpath
  · exact absurd hpath List.not_mem_nil
  · rename_i attnum _
    split at hpath
    · exact absurd hpath List.not_mem_nil
    · rename_i found hfound
      obtain ⟨_, -, rfl⟩ := List.mem_map.1 hpath
      obtain ⟨clause, hclause, heq⟩ := List.exists_of_findSome?_eq_some hfound
      obtain ⟨hmatch, hvar, hvalue⟩ := equalityOn_eq_some (S := S) heq
      obtain ⟨hvarno, hlevel⟩ := rel.own clause hclause _ hvar
      intro rows hconds
      have hrow := hvalue rows (hconds clause hclause) hint
      rw [hvarno, hlevel, beq_iff_eq.1 hmatch] at hrow
      exact ⟨_, hrow, rfl⟩

end Meaning

/-- **Tenant injection** in a query tree of any nesting, and in the index paths of a base
relation. -/
theorem tenant_injection_sound (cat : Catalog) (S : Semantics) :
    (∀ tree query inj, (query, inj) ∈ resolveIndexesInQuery cat tree → inj.tenantId ≠ 0 →
      (inj.OnScoredRow S → inj.Sound S query.quals.toList) ∧
      (∀ quals, query.quals = some quals → inj.Unrestricted S quals →
        ¬ inj.Sound S query.quals.toList)) ∧
    (∀ pathlist rel inj, inj ∈ injectTenantInIndexpaths cat pathlist rel → inj.tenantId ≠ 0 →
      IntegerEquality S inj.found.opno → inj.Sound S rel.baserestrictinfo) := by
  constructor
  · intro tree query inj hmem _
    obtain ⟨query', -, hin⟩ := List.mem_flatMap.1 hmem
    obtain ⟨inj', hinj, heq⟩ := List.mem_map.1 hin
    cases heq
    exact ⟨sound_of_onScoredRow hinj, fun quals hquals h => not_sound_of_unrestricted hquals h⟩
  · intro pathlist rel inj hmem _ hint
    exact sound_of_indexpath hmem hint

/-! ## Two queries on one table -/

/-- A catalog with one BM25 index (77) whose tenant column is attribute 2; 9 is `<@>` and 96
is `=` on integers. -/
def docsCatalog : Catalog where
  textTpqueryOperatorOid := 9
  opname := fun opno => if opno = 96 then some "=" else none
  tenantAttnum := fun indexOid => if indexOid = 77 then some 2 else none
  evalConstExpressions := fun _ _ => none

/-- Integer equality, and nothing else that matters. -/
def equalitySemantics : Semantics where
  op := fun opno args =>
    match args with
    | [.int a, .int b] => if opno = 96 then .bool (a == b) else .null
    | _ => .null
  func := fun _ _ => .null
  subLink := fun _ _ _ => .null

/-- `body <@> …` on the first relation of the query. -/
def scoreExpr : Node := .opExpr 9 [.var ⟨1, 1, 0⟩, .const (.tpquery (some ⟨77, 0⟩))]

/-- `tenant = 5` on the first relation so many levels up. -/
def tenantIsFive (levelsup : Nat) : Node :=
  .opExpr 96 [.var ⟨1, 2, levelsup⟩, .const (.int4 (some 5))]

/-- `SELECT body <@> … FROM docs WHERE tenant = 5`, the tenant column so many levels up. -/
def scoreQuery (levelsup : Nat) : Query :=
  .mk [.relation 1] (some (tenantIsFive levelsup)) [scoreExpr] none []

/-- The query with `scoreQuery` as a subquery of its target list. -/
def aroundScoreQuery (levelsup : Nat) : Query :=
  .mk [.relation 1] none [.subLink [] (scoreQuery levelsup)] none []

theorem tenant_injection_sound_scoreQuery :
    (⟨0, 1, 2, ⟨96, ⟨1, 2, 0⟩, 5⟩, 5⟩ : Injection).Sound equalitySemantics
      [tenantIsFive 0] := by
  apply ((tenant_injection_sound docsCatalog equalitySemantics).1 (scoreQuery 0) (scoreQuery 0)
    ⟨0, 1, 2, ⟨96, ⟨1, 2, 0⟩, 5⟩, 5⟩ (List.mem_cons_self) (by decide)).1
  constructor
  · rfl
  · intro a b hab
    simp only [equalitySemantics] at hab
    split at hab
    · rename_i i j heq
      cases heq
      have hval : i = j := by simpa using hab
      exact ⟨i, rfl, congrArg Datum.int hval.symm⟩
    · cases hab

/-- A correlated subquery whose outer row has tenant 5 is restricted to tenant 5 itself. -/
theorem outer_tenant_injected : ¬ ∀ tree query inj,
    (query, inj) ∈ resolveIndexesInQuery docsCatalog tree → inj.tenantId ≠ 0 →
      inj.Sound equalitySemantics query.quals.toList := by
  intro hall
  have hsound := hall (aroundScoreQuery 1) (scoreQuery 1)
    ⟨0, 1, 2, ⟨96, ⟨1, 2, 1⟩, 5⟩, 5⟩ (List.mem_cons_self) (by decide)
  refine not_sound_of_unrestricted rfl ?_ hsound
  constructor
  · exact ⟨fun _ _ _ => .int 5, by decide⟩
  · decide
  · decide

end PgTextsearch.Planner
