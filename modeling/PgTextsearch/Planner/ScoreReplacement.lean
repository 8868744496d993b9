import PgTextsearch.Planner.Plan

/-!
# Replacing score expressions (`planner/hooks.c`)

When the plan of a query has a BM25 index scan, the planner hook replaces score expressions
in target lists by `bm25_get_current_score()`, the score of the tuple a BM25 index scan
emitted last.  Which expression of a target list is taken for the ORDER BY key is decided
by the list alone, on every node of the plan.

## Main results

* `replacement_preserves_iff` — in a run of a plan every replaced expression has its value,
  whatever the tables hold, exactly if the expression of every projected row is the ORDER BY
  expression of the tuple emitted last.
* `followsScan_of_scoresAtScans` — that is so in every run of a plan that computes scores in
  BM25 index scans only, each the ORDER BY expression of its scan.
-/

namespace PgTextsearch.Planner

/-! ## The rewriting -/

/-- `BM25OidCache`, as far as plans go. -/
structure BM25OidCache where
  bm25AmOid : Nat
  textTpqueryOperatorOid : Nat

/-- `TargetEntry`. -/
structure TargetEntry where
  expr : Expr PlanVar
  resjunk : Bool

/-- A target entry after the rewriting: `stub` says that the expression was replaced by a
call of `bm25_get_current_score()`, and `expr` is what it was. -/
structure StubbedEntry where
  expr : Expr PlanVar
  resjunk : Bool
  stub : Bool

section Rewriting

variable (oids : BM25OidCache)

/-- `is_bm25_score_opexpr`. -/
def isBm25ScoreOpexpr : Expr PlanVar → Bool
  | .opExpr opno _ _ => opno == oids.textTpqueryOperatorOid
  | _ => false

/-- The first pass of `replace_scores_in_targetlist`: a resjunk score expression, or else
any score expression, is taken for the ORDER BY key. -/
def orderbyTarget (targetlist : List TargetEntry) : Option (Expr PlanVar) :=
  match targetlist.find? fun tle => tle.resjunk && isBm25ScoreOpexpr oids tle.expr with
  | some tle => some tle.expr
  | none => (targetlist.find? fun tle => isBm25ScoreOpexpr oids tle.expr).map TargetEntry.expr

/-- A target entry that is left alone. -/
def TargetEntry.keep (tle : TargetEntry) : StubbedEntry := ⟨tle.expr, tle.resjunk, false⟩

/-- `replace_scores_in_targetlist`. -/
def replaceScoresInTargetlist (targetlist : List TargetEntry) : List StubbedEntry :=
  match orderbyTarget oids targetlist with
  | none => targetlist.map TargetEntry.keep
  | some orderbyExpr =>
      targetlist.map fun tle =>
        if isBm25ScoreOpexpr oids tle.expr && tle.expr == orderbyExpr then
          ⟨tle.expr, tle.resjunk, true⟩
        else tle.keep

/-- `plan_has_bm25_indexscan`. -/
def planHasBm25Indexscan {Entry : Type} : Plan Entry → Bool
  | .seqScan _ _ => false
  | .indexScan _ _ relam _ => relam == oids.bm25AmOid
  | .result _ lefttree => planHasBm25Indexscan lefttree
  | .sort _ _ lefttree => planHasBm25Indexscan lefttree
  | .subqueryScan _ subplan => planHasBm25Indexscan subplan
  | .append _ _ appendplans => (List.ofFn fun i => planHasBm25Indexscan (appendplans i)).any id
  | .mergeAppend _ _ _ mergeplans =>
      (List.ofFn fun i => planHasBm25Indexscan (mergeplans i)).any id
  | .nestLoop _ _ lefttree righttree =>
      planHasBm25Indexscan lefttree || planHasBm25Indexscan righttree
  | .hashJoin _ _ _ lefttree righttree =>
      planHasBm25Indexscan lefttree || planHasBm25Indexscan righttree

/-- A plan with every target list rewritten by one function. -/
def rewritePlan (f : List TargetEntry → List StubbedEntry) : Plan TargetEntry → Plan StubbedEntry
  | .seqScan targetlist planNodeId => .seqScan (f targetlist) planNodeId
  | .indexScan targetlist planNodeId relam indexorderby =>
      .indexScan (f targetlist) planNodeId relam indexorderby
  | .result targetlist lefttree => .result (f targetlist) (rewritePlan f lefttree)
  | .sort targetlist planNodeId lefttree =>
      .sort (f targetlist) planNodeId (rewritePlan f lefttree)
  | .subqueryScan targetlist subplan => .subqueryScan (f targetlist) (rewritePlan f subplan)
  | .append targetlist n appendplans =>
      .append (f targetlist) n fun i => rewritePlan f (appendplans i)
  | .mergeAppend targetlist planNodeId n mergeplans =>
      .mergeAppend (f targetlist) planNodeId n fun i => rewritePlan f (mergeplans i)
  | .nestLoop targetlist planNodeId lefttree righttree =>
      .nestLoop (f targetlist) planNodeId (rewritePlan f lefttree) (rewritePlan f righttree)
  | .hashJoin targetlist planNodeId prefetch lefttree righttree =>
      .hashJoin (f targetlist) planNodeId prefetch (rewritePlan f lefttree)
        (rewritePlan f righttree)

/-- `replace_scores_in_plan`: the target list of every node. -/
def replaceScoresInPlan : Plan TargetEntry → Plan StubbedEntry :=
  rewritePlan (replaceScoresInTargetlist oids)

/-- `tp_planner_hook` on the plan of the standard planner; `queryHasBm25Operators` is what
the parse analysis found. -/
def tpPlannerHook (queryHasBm25Operators : Bool) (plan : Plan TargetEntry) : Plan StubbedEntry :=
  if queryHasBm25Operators && planHasBm25Indexscan oids plan then replaceScoresInPlan oids plan
  else rewritePlan (List.map TargetEntry.keep) plan

end Rewriting

/-! ## The value of a replaced expression -/

/-- What a plan's values are made of: constants and operators, the columns of the tuples,
and what `tp_cached_score` holds when the plan starts. -/
structure World (Value : Type) extends Meaning Value where
  column : Column → Value
  cached : Value

/-- A node computing its target list: the score set last, if one was, and the input. -/
structure Projection where
  lastScore : Option (Expr Column)
  targetlist : List StubbedEntry
  input : PlanVar → Expr Column

/-- `bm25_get_current_score()`. -/
def Projection.currentScore {Value : Type} (p : Projection) (W : World Value) : Value :=
  match p.lastScore with
  | none => W.cached
  | some e => e.eval W.toMeaning W.column

/-- The value of the expression that was replaced. -/
def Projection.originalValue {Value : Type} (p : Projection) (W : World Value)
    (entry : StubbedEntry) : Value :=
  entry.expr.eval W.toMeaning fun v => (p.input v).eval W.toMeaning W.column

/-- The projections of a run, with the score set last before each. -/
def projections : Option (Expr Column) → List (Event StubbedEntry) → List Projection
  | _, [] => []
  | _, .score e :: rest => projections (some e) rest
  | last, .project targetlist input :: rest => ⟨last, targetlist, input⟩ :: projections last rest
  | last, .yield _ :: rest => projections last rest

section Claim

variable (oids : BM25OidCache) (queryHasBm25Operators : Bool) (plan : Plan TargetEntry)
  (run : Schedule)

/-- The projections of a run of the plan the hook returns.  The rows of the run are made of
the expressions the target lists had: they are the rows the executor sees as long as every
replaced expression has had its value. -/
def planProjections : List Projection :=
  projections none (exec oids.textTpqueryOperatorOid oids.bm25AmOid StubbedEntry.expr run
    (tpPlannerHook oids queryHasBm25Operators plan) [])

/-- Every replaced expression has, on every row, the value of the expression it replaces,
whatever the tables hold and the operators compute. -/
def PreservesMeaning : Prop :=
  ∀ (Value : Type) (W : World Value), ∀ p ∈ planProjections oids queryHasBm25Operators plan run,
    ∀ entry ∈ p.targetlist, entry.stub = true → p.currentScore W = p.originalValue W entry

/-- On every row with a replaced expression a BM25 index scan has emitted a tuple before, and
the expression, traced down to the columns of the tuples the row is made of, is the ORDER BY
expression of that scan on the columns of the tuple it emitted last. -/
def FollowsScan : Prop :=
  ∀ p ∈ planProjections oids queryHasBm25Operators plan run,
    ∀ entry ∈ p.targetlist, entry.stub = true → p.lastScore = some (entry.expr.bind p.input)

/-- Expressions as values of themselves, with no score before the run. -/
def symbolicWorld : World (Option (Expr Column)) where
  const := fun c => some (.const c)
  op := fun opno left right =>
    match left, right with
    | some l, some r => some (.opExpr opno l r)
    | _, _ => none
  column := fun c => some (.var c)
  cached := none

theorem eval_symbolicWorld (e : Expr Column) :
    e.eval symbolicWorld.toMeaning symbolicWorld.column = some e := by
  induction e with
  | var v => rfl
  | const c => rfl
  | opExpr opno left right ihLeft ihRight =>
      rw [Expr.eval, ihLeft, ihRight]
      rfl

end Claim

/-- An index scan whose target list has two score expressions, of which the second is its
ORDER BY: `SELECT body <@> 'x', body <@> 'y' … ORDER BY body <@> 'y'`. -/
def twoScoresPlan : Plan TargetEntry :=
  .indexScan
    [⟨.opExpr 7 (.var (.outer 0)) (.const (some 10)), false⟩,
      ⟨.opExpr 7 (.var (.outer 0)) (.const (some 20)), false⟩]
    1 3 (some ⟨.var (.outer 0), .const (some 20)⟩)

/-- Every scan returns one tuple, every join accepts every pair. -/
def oneTupleRun : Schedule where
  returns := fun _ _ => [(0, true)]
  joins := fun _ _ _ => true
  precedes := fun _ _ _ => false

section AtScans

variable {oids : BM25OidCache}

/-- The scores set last before each row are certain: a replaced expression is computed after
a scan has emitted a tuple since the row before, and is the score expression of that tuple. -/
def Certain : Option (Expr Column) → List (Event StubbedEntry) → Prop
  | _, [] => True
  | _, .score e :: rest => Certain (some e) rest
  | last, .project targetlist input :: rest =>
      (∀ entry ∈ targetlist, entry.stub = true → last = some (entry.expr.bind input)) ∧
        Certain last rest
  | _, .yield _ :: rest => Certain none rest

/-- What is certain without a score is certain after any. -/
theorem Certain.of_none {l : List (Event StubbedEntry)} (h : Certain none l)
    (last : Option (Expr Column)) : Certain last l := by
  induction l generalizing last with
  | nil => trivial
  | cons event rest ih =>
      cases event with
      | score e => exact h
      | yield row => exact h
      | project targetlist input =>
          obtain ⟨hhere, hrest⟩ := h
          refine ⟨?_, ih hrest last⟩
          intro entry hentry hstub
          cases hhere entry hentry hstub

theorem Certain.append {l m : List (Event StubbedEntry)} {last : Option (Expr Column)}
    (hl : Certain last l) (hm : Certain none m) : Certain last (l ++ m) := by
  induction l generalizing last with
  | nil => exact hm.of_none last
  | cons event rest ih =>
      cases event with
      | score e => exact @ih (some e) hl
      | yield row => exact @ih none hl
      | project targetlist input => exact ⟨hl.1, ih hl.2⟩

theorem Certain.flatMap {α : Type} {f : α → List (Event StubbedEntry)} {l : List α}
    (h : ∀ x ∈ l, Certain none (f x)) : Certain none (l.flatMap f) := by
  induction l with
  | nil => trivial
  | cons x rest ih =>
      rw [List.flatMap_cons]
      exact (h x List.mem_cons_self).append (ih fun y hy => h y (List.mem_cons_of_mem _ hy))

/-- What a parent does with the rows of a child. -/
theorem Certain.onRows {f : Row → List (Event StubbedEntry)} (hf : ∀ row, Certain none (f row))
    {l : List (Event StubbedEntry)} {last : Option (Expr Column)} (h : Certain last l) :
    Certain last (onRows f l) := by
  induction l generalizing last with
  | nil => trivial
  | cons event rest ih =>
      cases event with
      | score e => exact @ih (some e) h
      | project targetlist input => exact ⟨h.1, ih h.2⟩
      | yield row =>
          have hrest : Certain none (PgTextsearch.Planner.onRows f rest) := ih h
          exact ((hf row).of_none last).append hrest

theorem Certain.pull {l : List (Event StubbedEntry)} {last : Option (Expr Column)}
    (h : Certain last l) : Certain last (pull l).1 ∧
      ∀ next ∈ (pull l).2, Certain none next.2 := by
  induction l generalizing last with
  | nil => exact ⟨trivial, by simp [PgTextsearch.Planner.pull]⟩
  | cons event rest ih =>
      cases event with
      | score e => exact @ih (some e) h
      | project targetlist input => exact ⟨⟨h.1, (ih h.2).1⟩, (ih h.2).2⟩
      | yield row =>
          refine ⟨trivial, ?_⟩
          intro next hnext
          cases Option.mem_some.1 hnext
          exact h

/-- The slots a merge chooses from are the chosen one and the others. -/
theorem pickFirst_perm {α : Type} {precedes : α → α → Bool} {slots : List α}
    {before after : List α} {first : α}
    (h : pickFirst precedes slots = some (before, first, after)) :
    before ++ first :: after = slots := by
  induction slots generalizing before first after with
  | nil => cases h
  | cons slot rest ih =>
      rw [pickFirst] at h
      split at h
      · cases h
        rfl
      · rename_i before' first' after' heq
        split at h
        · cases h
          exact congrArg (List.cons slot) (ih heq)
        · cases h
          rfl

theorem Certain.mergeLoop {project : Row → List (Event StubbedEntry)}
    (hproject : ∀ row, Certain none (project row)) (precedes : Row → Row → Bool) (fuel : Nat)
    (slots : List (MergeSlot StubbedEntry)) (hslots : ∀ slot ∈ slots, Certain none slot.2) :
    Certain none (mergeLoop project precedes fuel slots) := by
  induction fuel generalizing slots with
  | zero => trivial
  | succ fuel ih =>
      rw [PgTextsearch.Planner.mergeLoop]
      split
      · trivial
      · rename_i before first after hpick
        have hmem : ∀ slot, slot ∈ before ∨ slot = first ∨ slot ∈ after → slot ∈ slots := by
          intro slot hslot
          rw [← pickFirst_perm hpick]
          simpa using hslot
        have hfirst := (hslots first (hmem first (Or.inr (Or.inl rfl)))).pull
        refine ((hproject first.1).append hfirst.1).append (ih _ ?_)
        intro slot hslot
        rw [List.mem_append, List.mem_append] at hslot
        cases hslot with
        | inl hslot =>
            cases hslot with
            | inl hbefore => exact hslots slot (hmem slot (Or.inl hbefore))
            | inr hnext => exact hfirst.2 slot (by simpa using hnext)
        | inr hafter => exact hslots slot (hmem slot (Or.inr (Or.inr hafter)))

theorem Certain.merge {project : Row → List (Event StubbedEntry)}
    (hproject : ∀ row, Certain none (project row)) (precedes : Row → Row → Bool)
    {children : List (List (Event StubbedEntry))} (h : ∀ child ∈ children, Certain none child) :
    Certain none (merge project precedes children) := by
  apply Certain.append
  · exact Certain.flatMap fun child hchild => (h child hchild).pull.1
  · apply Certain.mergeLoop hproject
    intro slot hslot
    obtain ⟨child, hchild, hpull⟩ := List.mem_filterMap.1 hslot
    exact (h child hchild).pull.2 slot hpull

/-- A run whose scores are certain follows the scan. -/
theorem Certain.lastScore_eq {l : List (Event StubbedEntry)} {last : Option (Expr Column)}
    (h : Certain last l) : ∀ p ∈ projections last l, ∀ entry ∈ p.targetlist,
      entry.stub = true → p.lastScore = some (entry.expr.bind p.input) := by
  induction l generalizing last with
  | nil => simp [projections]
  | cons event rest ih =>
      cases event with
      | score e => exact @ih (some e) h
      | yield row => exact @ih last (Certain.of_none h last)
      | project targetlist input =>
          intro p hp
          cases List.mem_cons.1 hp with
          | inl hhere =>
              subst hhere
              exact h.1
          | inr hrest => exact ih h.2 p hrest

/-- Scores are computed in BM25 index scans only, each the ORDER BY expression of its scan:
what the other nodes compute has no score expression. -/
def ScoresAtScans (oids : BM25OidCache) : Plan TargetEntry → Prop
  | .seqScan targetlist _ => orderbyTarget oids targetlist = none
  | .indexScan targetlist _ relam indexorderby =>
      ∀ e, orderbyTarget oids targetlist = some e → relam = oids.bm25AmOid ∧
        ∃ o, indexorderby = some o ∧ e = .opExpr oids.textTpqueryOperatorOid o.key o.query
  | .result targetlist lefttree =>
      orderbyTarget oids targetlist = none ∧ ScoresAtScans oids lefttree
  | .sort targetlist _ lefttree =>
      orderbyTarget oids targetlist = none ∧ ScoresAtScans oids lefttree
  | .subqueryScan targetlist subplan =>
      orderbyTarget oids targetlist = none ∧ ScoresAtScans oids subplan
  | .append targetlist _ appendplans =>
      orderbyTarget oids targetlist = none ∧ ∀ i, ScoresAtScans oids (appendplans i)
  | .mergeAppend targetlist _ _ mergeplans =>
      orderbyTarget oids targetlist = none ∧ ∀ i, ScoresAtScans oids (mergeplans i)
  | .nestLoop targetlist _ lefttree righttree =>
      orderbyTarget oids targetlist = none ∧ ScoresAtScans oids lefttree ∧
        ScoresAtScans oids righttree
  | .hashJoin targetlist _ _ lefttree righttree =>
      orderbyTarget oids targetlist = none ∧ ScoresAtScans oids lefttree ∧
        ScoresAtScans oids righttree

/-- An entry is replaced only if its expression is the one taken for the ORDER BY key. -/
theorem replaced_eq {targetlist : List TargetEntry} {entry : StubbedEntry}
    (hentry : entry ∈ replaceScoresInTargetlist oids targetlist) (hstub : entry.stub = true) :
    orderbyTarget oids targetlist = some entry.expr := by
  unfold replaceScoresInTargetlist at hentry
  split at hentry
  · obtain ⟨tle, -, rfl⟩ := List.mem_map.1 hentry
    cases hstub
  · rename_i e horder
    obtain ⟨tle, -, rfl⟩ := List.mem_map.1 hentry
    split at hstub
    · rename_i hcond
      have heq : tle.expr = e := by
        have := (Bool.and_eq_true _ _).mp hcond
        exact beq_iff_eq.1 this.2
      rw [if_pos hcond, horder, heq]
    · cases hstub

/-- The rewriting replaces only what is taken for the ORDER BY key. -/
def ReplacesKey (oids : BM25OidCache) (f : List TargetEntry → List StubbedEntry) : Prop :=
  ∀ targetlist, ∀ entry ∈ f targetlist, entry.stub = true →
    orderbyTarget oids targetlist = some entry.expr

variable {f : List TargetEntry → List StubbedEntry}

/-- A node without a score expression projects certainly. -/
theorem certain_projectRow (hf : ReplacesKey oids f) {targetlist : List TargetEntry}
    (h : orderbyTarget oids targetlist = none) (input : PlanVar → Expr Column) :
    Certain none (projectRow StubbedEntry.expr (f targetlist) input) := by
  refine ⟨?_, trivial⟩
  intro entry hentry hstub
  rw [hf targetlist entry hentry hstub] at h
  cases h

theorem certain_joinRow (hf : ReplacesKey oids f) {targetlist : List TargetEntry}
    (h : orderbyTarget oids targetlist = none) (run : Schedule) (planNodeId : Nat)
    (outer inner : Row) :
    Certain none (joinRow StubbedEntry.expr run (f targetlist) planNodeId outer inner) := by
  unfold joinRow
  split
  · exact certain_projectRow hf h _
  · trivial

/-- A scan that sets the score before it computes it. -/
theorem certain_scanEvents (hf : ReplacesKey oids f) {targetlist : List TargetEntry}
    {planNodeId : Nat} {orderby : Option IndexOrderBy}
    (h : ∀ e, orderbyTarget oids targetlist = some e →
      ∃ o, orderby = some o ∧ e = .opExpr oids.textTpqueryOperatorOid o.key o.query)
    (tuples : List (Nat × Bool)) :
    Certain none (scanEvents oids.textTpqueryOperatorOid StubbedEntry.expr (f targetlist)
      planNodeId orderby tuples) := by
  apply Certain.flatMap
  intro t _
  cases orderby with
  | none =>
      have hnone : orderbyTarget oids targetlist = none := by
        cases horder : orderbyTarget oids targetlist with
        | none => rfl
        | some e =>
            obtain ⟨o, ho, -⟩ := h e horder
            cases ho
      split
      · exact certain_projectRow hf hnone _
      · trivial
  | some o =>
      split
      · refine ⟨?_, trivial⟩
        intro entry hentry hstub
        obtain ⟨o', ho, he⟩ := h _ (hf targetlist entry hentry hstub)
        cases ho
        rw [he]
        rfl
      · trivial

/-- Every node keeps the scores of its children certain. -/
theorem certain_exec (hf : ReplacesKey oids f) (run : Schedule) (plan : Plan TargetEntry)
    (h : ScoresAtScans oids plan) (params : List Row) :
    Certain none (exec oids.textTpqueryOperatorOid oids.bm25AmOid StubbedEntry.expr run
      (rewritePlan f plan) params) := by
  have hdrop : ∀ row : Row, Certain none ((fun _ => []) row) := fun _ => trivial
  induction plan generalizing params with
  | seqScan targetlist planNodeId =>
      apply certain_scanEvents hf
      intro e he
      rw [h] at he
      cases he
  | indexScan targetlist planNodeId relam indexorderby =>
      apply certain_scanEvents hf
      intro e he
      obtain ⟨hrelam, horder⟩ := h e he
      rw [if_pos hrelam]
      exact horder
  | result targetlist lefttree ih =>
      exact Certain.onRows (fun row => certain_projectRow hf h.1 _) (ih h.2 params)
  | sort targetlist planNodeId lefttree ih =>
      apply Certain.append
      · exact Certain.onRows hdrop (ih h.2 params)
      · exact Certain.flatMap fun row _ => certain_projectRow hf h.1 _
  | subqueryScan targetlist subplan ih =>
      exact Certain.onRows (fun row => certain_projectRow hf h.1 _) (ih h.2 params)
  | append targetlist n appendplans ih =>
      apply Certain.flatMap
      intro child hchild
      obtain ⟨i, rfl⟩ := (List.mem_ofFn' _ _).1 hchild
      exact Certain.onRows (fun row => certain_projectRow hf h.1 _) (ih i (h.2 i) params)
  | mergeAppend targetlist planNodeId n mergeplans ih =>
      apply Certain.merge fun row => certain_projectRow hf h.1 _
      intro child hchild
      obtain ⟨i, rfl⟩ := (List.mem_ofFn' _ _).1 hchild
      exact ih i (h.2 i) params
  | nestLoop targetlist planNodeId lefttree righttree ihLeft ihRight =>
      apply Certain.onRows _ (ihLeft h.2.1 params)
      intro outer
      exact Certain.onRows (certain_joinRow hf h.1 run planNodeId outer) (ihRight h.2.2 _)
  | hashJoin targetlist planNodeId prefetch lefttree righttree ihLeft ihRight =>
      have houter := ihLeft h.2.1 params
      have hbuild := Certain.onRows hdrop (ihRight h.2.2 params)
      have hprobe : ∀ (inner : List Row) (l : List (Event StubbedEntry)), Certain none l →
          Certain none (onRows (fun row => inner.flatMap
            (joinRow StubbedEntry.expr run (f targetlist) planNodeId row)) l) :=
        fun inner l hl => Certain.onRows (fun row => Certain.flatMap fun inner _ =>
          certain_joinRow hf h.1 run planNodeId row inner) hl
      cases prefetch with
      | false => exact hbuild.append (hprobe _ _ houter)
      | true =>
          have hpull := houter.pull
          simp only [rewritePlan, exec, if_true]
          split
          · exact hpull.1
          · rename_i row rest heq
            exact (hpull.1.append hbuild).append (hprobe _ _ (hpull.2 (row, rest) heq))

/-- **Scores computed in the scans**: every run follows the scan, so that the rewriting
preserves the values. -/
theorem followsScan_of_scoresAtScans {plan : Plan TargetEntry} (h : ScoresAtScans oids plan)
    (queryHasBm25Operators : Bool) (run : Schedule) :
    FollowsScan oids queryHasBm25Operators plan run := by
  have hreplaced : ReplacesKey oids (replaceScoresInTargetlist oids) :=
    fun targetlist entry hentry hstub => replaced_eq hentry hstub
  have hkept : ReplacesKey oids (List.map TargetEntry.keep) := by
    intro targetlist entry hentry hstub
    obtain ⟨tle, -, rfl⟩ := List.mem_map.1 hentry
    cases hstub
  unfold FollowsScan planProjections tpPlannerHook
  split
  · exact (certain_exec hreplaced run plan h []).lastScore_eq
  · exact (certain_exec hkept run plan h []).lastScore_eq

end AtScans

end PgTextsearch.Planner
