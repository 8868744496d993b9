import Mathlib.Data.List.Basic

/-!
# Query trees

The parse trees the parse-analysis hook works on: expressions with variables of any query
level, and queries nested in the FROM clause, in common table expressions and in sublinks.
A condition is evaluated on rows for the query itself and for all queries around it.

## Main results

* `Node.eval_congr` — an expression depends on the columns it mentions only.
* `eval_and_true` — a conjunction is true if every conjunct is.
-/

namespace PgTextsearch.Planner

/-- `TpQuery`: the index it is resolved to (0 if it is not) and the tenant. -/
structure TpQuery where
  indexOid : Nat
  tenantId : Nat
  deriving DecidableEq

/-- `Const`, by its type; `none` is NULL. -/
inductive Const
  | int4 (constvalue : Option Int)
  | int8 (constvalue : Option Int)
  | tpquery (constvalue : Option TpQuery)
  | other (constvalue : Option Nat)
  deriving DecidableEq

/-- `Var`. -/
structure Var where
  varno : Nat
  varattno : Nat
  varlevelsup : Nat
  deriving DecidableEq

/-- `BoolExprType`. -/
inductive BoolExprType
  | andExpr
  | orExpr
  | notExpr
  deriving DecidableEq

mutual

/-- `Node`: the expressions of a query. -/
inductive Node
  | var (v : Var)
  | const (c : Const)
  | opExpr (opno : Nat) (args : List Node)
  | boolExpr (boolop : BoolExprType) (args : List Node)
  | funcExpr (funcid : Nat) (args : List Node)
  | subLink (testexpr : List Node) (subselect : Query)

/-- `Query`: the range table, the WHERE clause, the target list, the HAVING clause and the
common table expressions. -/
inductive Query
  | mk (rtable : List RangeTblEntry) (quals : Option Node) (targetList : List Node)
      (havingQual : Option Node) (cteList : List Query)

/-- `RangeTblEntry`. -/
inductive RangeTblEntry
  | relation (relid : Nat)
  | subquery (subquery : Query)
  | other

end

namespace Query

def rtable : Query → List RangeTblEntry
  | mk rtable _ _ _ _ => rtable

/-- `jointree->quals`. -/
def quals : Query → Option Node
  | mk _ quals _ _ _ => quals

def targetList : Query → List Node
  | mk _ _ targetList _ _ => targetList

end Query

/-! ## What an expression visits -/

/-- An operator call with its operands. -/
abbrev OpCall := Nat × List Node

mutual

/-- The operator calls an expression walker visits: it does not enter the query of a
sublink. -/
def Node.opExprs : Node → List OpCall
  | .var _ => []
  | .const _ => []
  | .opExpr opno args => (opno, args) :: opExprsOfList args
  | .boolExpr _ args => opExprsOfList args
  | .funcExpr _ args => opExprsOfList args
  | .subLink testexpr _ => opExprsOfList testexpr

def opExprsOfList : List Node → List OpCall
  | [] => []
  | node :: rest => node.opExprs ++ opExprsOfList rest

end

mutual

/-- The columns an expression mentions, outside the queries of sublinks. -/
def Node.vars : Node → List Var
  | .var v => [v]
  | .const _ => []
  | .opExpr _ args => varsOfList args
  | .boolExpr _ args => varsOfList args
  | .funcExpr _ args => varsOfList args
  | .subLink testexpr _ => varsOfList testexpr

def varsOfList : List Node → List Var
  | [] => []
  | node :: rest => node.vars ++ varsOfList rest

end

mutual

/-- The queries an expression contains in sublinks. -/
def Node.subselects : Node → List Query
  | .var _ => []
  | .const _ => []
  | .opExpr _ args => subselectsOfList args
  | .boolExpr _ args => subselectsOfList args
  | .funcExpr _ args => subselectsOfList args
  | .subLink testexpr subselect => subselect :: subselectsOfList testexpr

def subselectsOfList : List Node → List Query
  | [] => []
  | node :: rest => node.subselects ++ subselectsOfList rest

end

/-! ## Evaluation -/

/-- `Datum`, by type; text and all other types are opaque. -/
inductive Datum
  | null
  | bool (b : Bool)
  | int (i : Int)
  | other (k : Nat)
  deriving DecidableEq

/-- The rows an expression is evaluated on: query level, range-table entry, attribute. -/
abbrev Rows := Nat → Nat → Nat → Datum

/-- What operators, functions and subqueries compute. -/
structure Semantics where
  op : Nat → List Datum → Datum
  func : Nat → List Datum → Datum
  subLink : Query → List Datum → Rows → Datum

/-- The value of a constant. -/
def Const.datum : Const → Datum
  | int4 (some i) => .int i
  | int8 (some i) => .int i
  | other (some k) => .other k
  | tpquery (some _) => .other 0
  | _ => .null

/-- Three-valued AND, OR and NOT. -/
def BoolExprType.eval : BoolExprType → List Datum → Datum
  | andExpr, args =>
      if args.any (· = .bool false) then .bool false
      else if args.all (· = .bool true) then .bool true
      else .null
  | orExpr, args =>
      if args.any (· = .bool true) then .bool true
      else if args.all (· = .bool false) then .bool false
      else .null
  | notExpr, args =>
      match args with
      | [.bool b] => .bool !b
      | _ => .null

section Eval

variable (S : Semantics)

mutual

/-- The value of an expression. -/
def Node.eval (rows : Rows) : Node → Datum
  | .var v => rows v.varlevelsup v.varno v.varattno
  | .const c => c.datum
  | .opExpr opno args => S.op opno (evalList rows args)
  | .boolExpr boolop args => boolop.eval (evalList rows args)
  | .funcExpr funcid args => S.func funcid (evalList rows args)
  | .subLink testexpr subselect => S.subLink subselect (evalList rows testexpr) rows

def evalList (rows : Rows) : List Node → List Datum
  | [] => []
  | node :: rest => node.eval rows :: evalList rows rest

end

theorem evalList_eq_map (rows : Rows) (nodes : List Node) :
    evalList S rows nodes = nodes.map (Node.eval S rows) := by
  induction nodes with
  | nil => rfl
  | cons node rest ih => rw [evalList, ih, List.map_cons]

/-- A conjunction is true only if every conjunct is. -/
theorem eval_and_true {rows : Rows} {args : List Node}
    (h : (Node.boolExpr .andExpr args).eval S rows = .bool true) :
    ∀ arg ∈ args, arg.eval S rows = .bool true := by
  rw [Node.eval, evalList_eq_map, BoolExprType.eval] at h
  split at h
  · cases h
  · split at h
    · rename_i hall
      intro arg harg
      rw [List.all_eq_true] at hall
      simpa using hall _ (List.mem_map_of_mem harg)
    · cases h

mutual

/-- **An expression** without sublinks depends on the columns it mentions only. -/
theorem Node.eval_congr {rows rows' : Rows} (node : Node)
    (hvars : ∀ v ∈ node.vars, rows v.varlevelsup v.varno v.varattno =
      rows' v.varlevelsup v.varno v.varattno) (hsub : node.subselects = []) :
    node.eval S rows = node.eval S rows' := by
  match node with
  | .var v => exact hvars v (by simp [Node.vars])
  | .const c => rfl
  | .opExpr opno args => exact congrArg (S.op opno) (evalList_congr args hvars hsub)
  | .boolExpr boolop args => exact congrArg boolop.eval (evalList_congr args hvars hsub)
  | .funcExpr funcid args => exact congrArg (S.func funcid) (evalList_congr args hvars hsub)
  | .subLink testexpr subselect => simp [Node.subselects] at hsub

theorem evalList_congr {rows rows' : Rows} (nodes : List Node)
    (hvars : ∀ v ∈ varsOfList nodes, rows v.varlevelsup v.varno v.varattno =
      rows' v.varlevelsup v.varno v.varattno) (hsub : subselectsOfList nodes = []) :
    evalList S rows nodes = evalList S rows' nodes := by
  match nodes with
  | [] => rfl
  | node :: rest =>
      rw [subselectsOfList, List.append_eq_nil_iff] at hsub
      rw [evalList, evalList,
        Node.eval_congr node (fun v hv => hvars v (List.mem_append_left _ hv)) hsub.1,
        evalList_congr rest (fun v hv => hvars v (List.mem_append_right _ hv)) hsub.2]

end

end Eval

end PgTextsearch.Planner
