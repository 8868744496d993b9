import Mathlib.Algebra.GroupWithZero.Nat
import Mathlib.Data.Fin.Tuple.Basic
import Mathlib.Data.Fin.VecNotation
import Mathlib.Data.List.Basic
import Mathlib.Data.List.Sort

/-!
# Plans and their execution

The plan trees the planner hook walks, with as much of the executor as decides what
`bm25_get_current_score()` returns: which tuple a BM25 index scan emitted last whenever a
plan node computes its target list.

The executor runs on rows whose columns are expressions over the columns of the tuples the
scans emitted, so that one run stands for every content of the tables.  What a run leaves
open (the tuples a scan returns, the rows a join accepts, the order of a merge) is a
`Schedule`.

## Main results

* `Expr.eval_bind` — a column traced down to the scans has the value of the column.
* `pull_append` — the rows of a plan node are taken one by one, in order.
-/

namespace PgTextsearch.Planner

/-! ## Expressions -/

/-- `Expr`: variables, constants (`none` is NULL) and operator calls. -/
inductive Expr (Var : Type)
  | var (v : Var)
  | const (constvalue : Option Nat)
  | opExpr (opno : Nat) (left right : Expr Var)
  deriving DecidableEq

/-- What constants and operators stand for. -/
structure Meaning (Value : Type) where
  const : Option Nat → Value
  op : Nat → Value → Value → Value

namespace Expr

variable {Var Var' Value : Type}

/-- The value of an expression. -/
def eval (M : Meaning Value) (env : Var → Value) : Expr Var → Value
  | var v => env v
  | const c => M.const c
  | opExpr opno left right => M.op opno (eval M env left) (eval M env right)

/-- Every variable replaced by an expression. -/
def bind (f : Var → Expr Var') : Expr Var → Expr Var'
  | var v => f v
  | const c => const c
  | opExpr opno left right => opExpr opno (bind f left) (bind f right)

theorem eval_bind (M : Meaning Value) (env : Var' → Value) (f : Var → Expr Var')
    (e : Expr Var) : (e.bind f).eval M env = e.eval M fun v => (f v).eval M env := by
  induction e with
  | var v => rfl
  | const c => rfl
  | opExpr opno left right ihLeft ihRight => simp only [bind, eval, ihLeft, ihRight]

end Expr

/-- A variable of a plan expression: an attribute of the tuple scanned or of the outer
child's row, or of the inner child's row. -/
inductive PlanVar
  | outer (attno : Nat)
  | inner (attno : Nat)
  deriving DecidableEq

/-- A column of a tuple that a scan emitted. -/
structure Column where
  scan : Nat
  tuple : Nat
  attno : Nat
  deriving DecidableEq

/-- A row: every attribute, traced down to the tuples of the scans. -/
abbrev Row := Nat → Expr Column

/-- The tuple a scan emits. -/
def tupleRow (scan tuple : Nat) : Row := fun attno => .var ⟨scan, tuple, attno⟩

/-- What an expression over one input row sees. -/
def outerInput (row : Row) : PlanVar → Expr Column
  | .outer attno => row attno
  | .inner _ => .const none

/-- What an expression over two input rows sees. -/
def joinInput (outer inner : Row) : PlanVar → Expr Column
  | .outer attno => outer attno
  | .inner attno => inner attno

/-! ## Plans -/

/-- The ORDER BY of an index scan: the indexed column, or an expression over columns,
against the query. -/
structure IndexOrderBy where
  key : Expr PlanVar
  query : Expr PlanVar

/-- `Plan`, with a target list of entries of some kind on every node.  `prefetch`: the
hash join fetches its first outer row before it builds the hash table. -/
inductive Plan (Entry : Type)
  | seqScan (targetlist : List Entry) (planNodeId : Nat)
  | indexScan (targetlist : List Entry) (planNodeId relam : Nat)
      (indexorderby : Option IndexOrderBy)
  | result (targetlist : List Entry) (lefttree : Plan Entry)
  | sort (targetlist : List Entry) (planNodeId : Nat) (lefttree : Plan Entry)
  | subqueryScan (targetlist : List Entry) (subplan : Plan Entry)
  | append (targetlist : List Entry) (n : Nat) (appendplans : Fin n → Plan Entry)
  | mergeAppend (targetlist : List Entry) (planNodeId n : Nat)
      (mergeplans : Fin n → Plan Entry)
  | nestLoop (targetlist : List Entry) (planNodeId : Nat) (lefttree righttree : Plan Entry)
  | hashJoin (targetlist : List Entry) (planNodeId : Nat) (prefetch : Bool)
      (lefttree righttree : Plan Entry)

/-- What a run of a plan leaves open: the tuples every scan returns for the outer rows it
depends on, each with whether the filter of the node lets it pass, which pairs of rows a
join accepts, and which of two rows a sort or a merge puts first. -/
structure Schedule where
  returns : Nat → List Row → List (Nat × Bool)
  joins : Nat → Row → Row → Bool
  precedes : Nat → Row → Row → Bool

/-- What happens while a plan runs: a BM25 index scan emits a tuple with the score
expression of its ORDER BY, a node computes its target list, a node hands out a row. -/
inductive Event (Entry : Type)
  | score (e : Expr Column)
  | project (targetlist : List Entry) (input : PlanVar → Expr Column)
  | yield (row : Row)

/-! ## The executor -/

section Executor

variable {Entry : Type}

/-- The events up to the first row, and the row with what follows. -/
def pull : List (Event Entry) → List (Event Entry) × Option (Row × List (Event Entry))
  | [] => ([], none)
  | .yield row :: rest => ([], some (row, rest))
  | event :: rest => (event :: (pull rest).1, (pull rest).2)

/-- The list is its first row's events, the row and the rest. -/
theorem pull_append (l : List (Event Entry)) :
    l = (pull l).1 ++ (pull l).2.elim [] fun next => .yield next.1 :: next.2 := by
  induction l with
  | nil => rfl
  | cons event rest ih =>
      cases event with
      | yield row => rfl
      | score e => exact congrArg (List.cons _) ih
      | project targetlist input => exact congrArg (List.cons _) ih

/-- Every row of a child, replaced by what the parent does with it. -/
def onRows (f : Row → List (Event Entry)) (l : List (Event Entry)) : List (Event Entry) :=
  l.flatMap fun event =>
    match event with
    | .yield row => f row
    | event => [event]

/-- The rows a node hands out. -/
def rowsOf (l : List (Event Entry)) : List Row :=
  l.filterMap fun event =>
    match event with
    | .yield row => some row
    | _ => none

/-- What happens besides the rows. -/
def withoutRows (l : List (Event Entry)) : List (Event Entry) := onRows (fun _ => []) l

/-- The first row that none of the others precedes strictly, with the slots before and
after it. -/
def pickFirst {α : Type} (precedes : α → α → Bool) : List α → Option (List α × α × List α)
  | [] => none
  | slot :: rest =>
      match pickFirst precedes rest with
      | none => some ([], slot, rest)
      | some (before, first, after) =>
          if precedes first slot && !precedes slot first then
            some (slot :: before, first, after)
          else some ([], slot, rest)

/-- A slot of a merge: the row a child is at, and what follows. -/
abbrev MergeSlot (Entry : Type) := Row × List (Event Entry)

/-- `ExecMergeAppend` after its start: the first row is handed out, and its child moves on
before the next row is chosen.  Every round takes a row out of the slots. -/
def mergeLoop (project : Row → List (Event Entry)) (precedes : Row → Row → Bool) :
    Nat → List (MergeSlot Entry) → List (Event Entry)
  | 0, _ => []
  | fuel + 1, slots =>
      match pickFirst (fun s t => precedes s.1 t.1) slots with
      | none => []
      | some (before, first, after) =>
          project first.1 ++ (pull first.2).1 ++
            mergeLoop project precedes fuel (before ++ (pull first.2).2.toList ++ after)

/-- `ExecMergeAppend`: every child is asked for its first row first. -/
def merge (project : Row → List (Event Entry)) (precedes : Row → Row → Bool)
    (children : List (List (Event Entry))) : List (Event Entry) :=
  children.flatMap (fun child => (pull child).1) ++
    mergeLoop project precedes (children.map List.length).sum
      (children.filterMap fun child => (pull child).2)

variable (scoreOpno bm25Am : Nat) (expr : Entry → Expr PlanVar) (run : Schedule)

/-- The row a target list computes; attributes it does not have are NULL. -/
def projectedRow (targetlist : List Entry) (input : PlanVar → Expr Column) : Row :=
  fun attno => (targetlist[attno]?.map fun entry => (expr entry).bind input).getD (.const none)

/-- A node computes its target list and hands out the row. -/
def projectRow (targetlist : List Entry) (input : PlanVar → Expr Column) : List (Event Entry) :=
  [.project targetlist input, .yield (projectedRow expr targetlist input)]

/-- A join on a pair of rows. -/
def joinRow (targetlist : List Entry) (planNodeId : Nat) (outer inner : Row) :
    List (Event Entry) :=
  if run.joins planNodeId outer inner then projectRow expr targetlist (joinInput outer inner)
  else []

/-- The score expression of an index scan's ORDER BY. -/
def IndexOrderBy.scoreExpr (o : IndexOrderBy) (scan tuple : Nat) : Expr Column :=
  (Expr.opExpr scoreOpno o.key o.query).bind (outerInput (tupleRow scan tuple))

/-- An index scan on the tuples it returns: `tp_gettuple` sets the cached score before the
executor looks at the tuple. -/
def scanEvents (targetlist : List Entry) (planNodeId : Nat) (orderby : Option IndexOrderBy)
    (tuples : List (Nat × Bool)) : List (Event Entry) :=
  tuples.flatMap fun t =>
    (orderby.map fun o => Event.score (o.scoreExpr scoreOpno planNodeId t.1)).toList ++
      if t.2 then projectRow expr targetlist (outerInput (tupleRow planNodeId t.1)) else []

/-- The executor on a plan, for the outer rows it depends on. -/
def exec : Plan Entry → List Row → List (Event Entry)
  | .seqScan targetlist planNodeId, params =>
      scanEvents scoreOpno expr targetlist planNodeId none (run.returns planNodeId params)
  | .indexScan targetlist planNodeId relam indexorderby, params =>
      scanEvents scoreOpno expr targetlist planNodeId
        (if relam = bm25Am then indexorderby else none) (run.returns planNodeId params)
  | .result targetlist lefttree, params =>
      onRows (fun row => projectRow expr targetlist (outerInput row)) (exec lefttree params)
  | .sort targetlist planNodeId lefttree, params =>
      withoutRows (exec lefttree params) ++
        ((rowsOf (exec lefttree params)).insertionSort fun r s =>
          run.precedes planNodeId r s = true).flatMap fun row =>
            projectRow expr targetlist (outerInput row)
  | .subqueryScan targetlist subplan, params =>
      onRows (fun row => projectRow expr targetlist (outerInput row)) (exec subplan params)
  | .append targetlist _ appendplans, params =>
      (List.ofFn fun i => exec (appendplans i) params).flatMap
        (onRows fun row => projectRow expr targetlist (outerInput row))
  | .mergeAppend targetlist planNodeId _ mergeplans, params =>
      merge (fun row => projectRow expr targetlist (outerInput row)) (run.precedes planNodeId)
        (List.ofFn fun i => exec (mergeplans i) params)
  | .nestLoop targetlist planNodeId lefttree righttree, params =>
      onRows (fun outer => onRows (joinRow expr run targetlist planNodeId outer)
        (exec righttree (outer :: params))) (exec lefttree params)
  | .hashJoin targetlist planNodeId prefetch lefttree righttree, params =>
      let outer := exec lefttree params
      let inner := exec righttree params
      let probe := onRows fun row =>
        (rowsOf inner).flatMap (joinRow expr run targetlist planNodeId row)
      if prefetch then
        match (pull outer).2 with
        | none => (pull outer).1
        | some (row, rest) => (pull outer).1 ++ withoutRows inner ++ probe (.yield row :: rest)
      else withoutRows inner ++ probe outer

end Executor

end PgTextsearch.Planner
