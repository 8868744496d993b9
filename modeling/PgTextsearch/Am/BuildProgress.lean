import Mathlib.Logic.Relation
import PgTextsearch.Am.BuildParallel

/-!
# Progress of the parallel build

`LaunchParallelWorkers` may launch fewer workers than requested, while the shared
state counts the requested ones: the leader merges when as many buffers are ready as
workers were requested, or when that many workers have counted themselves done.  It
never sleeps for good (`ConditionVariableSleep` without a prepared sleep returns at
once), so a build is stuck when the leader goes round without a merge and no worker
can move.

## Main results

* `leaderCan_of_done`, `leaderCan_of_ready` — the leader gets on when all requested
  workers are done, or enough buffers are ready.
* `stuck_of_few_ready` — it goes round for ever when neither will happen.
* `never_stuck_iff` — no build gets stuck exactly when all requested workers were
  launched and at most one was requested.
-/

namespace PgTextsearch.Am

open PgTextsearch.Postgres PgTextsearch.State PgTextsearch.Verified

variable {n : Nat} {Value Term : Type}

/-- The step is the leader's or that of one of the first `launched` workers. -/
def BuildAct.IsLaunched (launched : Nat) : BuildAct n Value → Prop
  | .worker w _ => w.val < launched
  | .leader => True

/-- The leader merges: it is about to merge the buffers it has collected, or is
emptying merged ones. -/
def LeaderPc.Merging : LeaderPc n → Prop
  | .deciding ready allDone => ready ≠ [] ∧ (allDone = true ∨ ready.length ≥ n)
  | .clearing (_ :: _) _ => True
  | _ => False

section Progress

variable [DecidableEq Term]

/-- Steps of the leader alone. -/
def LeaderRuns (s s' : BuildState n Value Term) : Prop :=
  Relation.ReflTransGen (fun a b => leaderStep a = some b) s s'

/-- The leader, left alone, gets to a merge or returns. -/
def LeaderCan (s : BuildState n Value Term) : Prop :=
  ∃ s', LeaderRuns s s' ∧ (s'.leader.Merging ∨ s'.leader = .returned)

/-- **Progress**: the leader can merge or return, or a launched worker that has not
finished can take a step. -/
def CanProgress (cfg : Config) (an : Analyzer Value Term) (launched : Nat)
    (s : BuildState n Value Term) : Prop :=
  LeaderCan s ∨ ∃ w : Fin n, w.val < launched ∧ (s.workers w).isDone = false ∧
    ∃ act, (workerStep cfg an s w act).isSome = true

/-! ## What the leader finds -/

theorem LeaderRuns.head {s s' s'' : BuildState n Value Term} (h : leaderStep s = some s')
    (h' : LeaderRuns s' s'') : LeaderRuns s s'' :=
  Relation.ReflTransGen.head h h'

theorem LeaderCan.head {s s' : BuildState n Value Term} (h : leaderStep s = some s')
    (hcan : LeaderCan s') : LeaderCan s := by
  obtain ⟨s'', hrun, hend⟩ := hcan
  exact ⟨s'', hrun.head h, hend⟩

/-- Without a merge the leader returns or starts the next round. -/
theorem leaderStep_of_not_merging {s : BuildState n Value Term} {ready : List (Slot n)}
    {allDone : Bool} (hpc : s.leader = .deciding ready allDone) (hno : ¬ s.leader.Merging) :
    leaderStep s = some { s with
      leader := if allDone then .returned else .scanning (allSlots n) [] } := by
  rw [hpc] at hno
  have hcond : ¬ (ready ≠ [] ∧ (allDone = true ∨ ready.length ≥ n)) := hno
  simp only [leaderStep, hpc]
  rw [if_neg hcond]
  cases allDone <;> rfl

/-- The ready ones of some buffers. -/
def readySlots (s : BuildState n Value Term) (slots : List (Slot n)) : List (Slot n) :=
  slots.filter fun slot => (s.buffers slot).status = .ready

/-- Looking through the buffers collects the ready ones. -/
theorem leaderRuns_look (rest : List (Slot n)) :
    ∀ (s : BuildState n Value Term) (ready : List (Slot n)), s.leader = .scanning rest ready →
      LeaderRuns s { s with
        leader := .deciding (ready ++ readySlots s rest) (decide (s.workersDone ≥ n)) } := by
  induction rest with
  | nil =>
      intro s ready hpc
      refine Relation.ReflTransGen.single ?_
      show leaderStep s = _
      simp [leaderStep, hpc, readySlots]
  | cons slot rest ih =>
      intro s ready hpc
      by_cases hstatus : (s.buffers slot).status = .ready
      · have hstep : leaderStep s = some { s with leader := .scanning rest (ready ++ [slot]) } := by
          simp [leaderStep, hpc, hstatus]
        have hrest := ih { s with leader := .scanning rest (ready ++ [slot]) } _ rfl
        have hready : readySlots s (slot :: rest) = slot :: readySlots s rest :=
          List.filter_cons_of_pos (by simpa using hstatus)
        rw [hready]
        simpa [readySlots] using hrest.head hstep
      · have hstep : leaderStep s = some { s with leader := .scanning rest ready } := by
          simp [leaderStep, hpc, hstatus]
        have hrest := ih { s with leader := .scanning rest ready } _ rfl
        have hready : readySlots s (slot :: rest) = readySlots s rest :=
          List.filter_cons_of_neg (by simpa using hstatus)
        rw [hready]
        exact hrest.head hstep

/-- One round: the leader gets on if what it finds is enough. -/
theorem leaderCan_round {s : BuildState n Value Term} {rest ready : List (Slot n)}
    (hpc : s.leader = .scanning rest ready)
    (henough : s.workersDone ≥ n ∨ ready ++ readySlots s rest ≠ [] ∧
      (ready ++ readySlots s rest).length ≥ n) : LeaderCan s := by
  have hlook := leaderRuns_look rest s ready hpc
  by_cases hmerge : LeaderPc.Merging
      (.deciding (ready ++ readySlots s rest) (decide (s.workersDone ≥ n)))
  · exact ⟨_, hlook, Or.inl hmerge⟩
  · have hdone : decide (s.workersDone ≥ n) = true := by
      rw [decide_eq_true_eq]
      rcases henough with hdone | ⟨hne, hlen⟩
      · exact hdone
      · exact absurd ⟨hne, Or.inr hlen⟩ hmerge
    have hstep := leaderStep_of_not_merging
      (s := { s with
        leader := .deciding (ready ++ readySlots s rest) (decide (s.workersDone ≥ n)) }) rfl hmerge
    rw [hdone, if_pos rfl] at hstep
    exact ⟨_, hlook.tail (by rw [hdone]; exact hstep), Or.inr rfl⟩

/-- Wherever the leader stands, it gets on or starts the next round. -/
theorem leaderCan_of_round {s : BuildState n Value Term} (hleader : s.leader ≠ .returned)
    (hround : LeaderCan { s with leader := .scanning (allSlots n) [] }) : LeaderCan s := by
  have hagain : ∀ {s : BuildState n Value Term} {ready : List (Slot n)} {allDone : Bool},
      LeaderCan { s with leader := .scanning (allSlots n) [] } →
      s.leader = .deciding ready allDone → LeaderCan s := by
    intro s ready allDone hround hpc
    by_cases hmerge : s.leader.Merging
    · exact ⟨s, Relation.ReflTransGen.refl, Or.inl hmerge⟩
    · have hstep := leaderStep_of_not_merging hpc hmerge
      cases allDone with
      | true => exact ⟨_, Relation.ReflTransGen.single hstep, Or.inr rfl⟩
      | false => exact hround.head hstep
  cases hpc : s.leader with
  | scanning rest ready =>
      have hlook := leaderRuns_look rest s ready hpc
      obtain ⟨s', hrun, hend⟩ := hagain
        (s := { s with
          leader := .deciding (ready ++ readySlots s rest) (decide (s.workersDone ≥ n)) })
        hround rfl
      exact ⟨s', hlook.trans hrun, hend⟩
  | deciding ready allDone => exact hagain hround hpc
  | clearing rest allDone =>
      cases rest with
      | cons slot rest =>
          refine ⟨s, Relation.ReflTransGen.refl, Or.inl ?_⟩
          rw [hpc]
          trivial
      | nil =>
          cases allDone with
          | true =>
              refine ⟨{ s with leader := .returned }, Relation.ReflTransGen.single ?_, Or.inr rfl⟩
              simp only [leaderStep, hpc, if_true]
          | false =>
              refine hround.head ?_
              simp only [leaderStep, hpc, Bool.false_eq_true, if_false]
  | returned => exact absurd hpc hleader

theorem leaderCan_of_done {s : BuildState n Value Term} (hleader : s.leader ≠ .returned)
    (hdone : s.workersDone ≥ n) : LeaderCan s :=
  leaderCan_of_round hleader (leaderCan_round rfl (Or.inl hdone))

theorem leaderCan_of_ready {s : BuildState n Value Term} (hleader : s.leader ≠ .returned)
    (hne : readySlots s (allSlots n) ≠ []) (hready : (readySlots s (allSlots n)).length ≥ n) :
    LeaderCan s :=
  leaderCan_of_round hleader (leaderCan_round rfl (Or.inr ⟨hne, hready⟩))

/-- The leader goes round and round over the same buffers. -/
structure GoesRound (s₀ s : BuildState n Value Term) : Prop where
  buffers : s.buffers = s₀.buffers
  workersDone : s.workersDone = s₀.workersDone
  leader : (∃ seen rest, allSlots n = seen ++ rest ∧
      s.leader = .scanning rest (readySlots s₀ seen)) ∨
    s.leader = .deciding (readySlots s₀ (allSlots n)) false

theorem GoesRound.step {s₀ s s' : BuildState n Value Term} (hdone : s₀.workersDone < n)
    (hready : (readySlots s₀ (allSlots n)).length < n) (h : GoesRound s₀ s)
    (hstep : leaderStep s = some s') : GoesRound s₀ s' := by
  rcases h.leader with ⟨seen, rest, hsplit, hpc⟩ | hpc
  · cases rest with
    | nil =>
        rw [List.append_nil] at hsplit
        simp only [leaderStep, hpc, Option.some.injEq] at hstep
        subst hstep
        refine ⟨h.buffers, h.workersDone, Or.inr ?_⟩
        have hno : decide (s.workersDone ≥ n) = false := by
          rw [h.workersDone, decide_eq_false_iff_not]
          omega
        rw [hno, hsplit]
    | cons slot rest =>
        have hnext : allSlots n = (seen ++ [slot]) ++ rest := by
          rw [hsplit, List.append_assoc, List.singleton_append]
        simp only [leaderStep, hpc, Option.some.injEq] at hstep
        subst hstep
        refine ⟨h.buffers, h.workersDone, Or.inl ⟨seen ++ [slot], rest, hnext, ?_⟩⟩
        rw [h.buffers]
        by_cases hstatus : (s₀.buffers slot).status = .ready
        · simp [readySlots, hstatus]
        · simp [readySlots, hstatus]
  · have hno : ¬ s.leader.Merging := by
      rw [hpc]
      rintro ⟨-, hf | hlen⟩
      · cases hf
      · omega
    rw [leaderStep_of_not_merging hpc hno] at hstep
    cases hstep
    exact ⟨h.buffers, h.workersDone, Or.inl ⟨[], allSlots n, rfl, rfl⟩⟩

theorem goesRound_of_runs {s s' : BuildState n Value Term}
    (hpc : s.leader = .scanning (allSlots n) []) (hdone : s.workersDone < n)
    (hready : (readySlots s (allSlots n)).length < n) (hrun : LeaderRuns s s') :
    GoesRound s s' := by
  induction hrun with
  | refl => exact ⟨rfl, rfl, Or.inl ⟨[], allSlots n, rfl, hpc⟩⟩
  | tail _ hstep ih => exact ih.step hdone hready hstep

/-- A worker that waits for a buffer of its own. -/
def WaitsFor (s : BuildState n Value Term) (w : Fin n) : Prop :=
  ∃ active ctid tuple, s.workers w = .waiting active ctid tuple ∧
    (s.buffers (w, active)).status ≠ .empty

theorem workerStep_of_waitsFor {cfg : Config} {an : Analyzer Value Term}
    {s : BuildState n Value Term} {w : Fin n} (h : WaitsFor s w) (act : WorkerAct Value) :
    workerStep cfg an s w act = none := by
  obtain ⟨active, ctid, tuple, hpc, hbusy⟩ := h
  cases act <;> simp [workerStep, hpc, hbusy]

/-- **Stuck**: fewer buffers are ready and fewer workers are done than were requested,
and every launched worker is done or waits for the leader. -/
theorem stuck_of_few_ready {cfg : Config} {an : Analyzer Value Term} {launched : Nat}
    {s : BuildState n Value Term} (hpc : s.leader = .scanning (allSlots n) [])
    (hdone : s.workersDone < n) (hready : (readySlots s (allSlots n)).length < n)
    (hworkers : ∀ w : Fin n, w.val < launched → (s.workers w).isDone = true ∨ WaitsFor s w) :
    ¬ CanProgress cfg an launched s := by
  rintro (⟨s', hrun, hend⟩ | ⟨w, hw, hnot, act, hsome⟩)
  · rcases (goesRound_of_runs hpc hdone hready hrun).leader with ⟨seen, rest, -, hscan⟩ | hdecide
    · rw [hscan] at hend
      rcases hend with hmerge | hret
      · exact hmerge
      · cases hret
    · rw [hdecide] at hend
      rcases hend with ⟨-, hf | hlen⟩ | hret
      · cases hf
      · omega
      · cases hret
  · rcases hworkers w hw with hisDone | hwait
    · rw [hnot] at hisDone
      cases hisDone
    · rw [workerStep_of_waitsFor hwait] at hsome
      cases hsome

/-! ## One worker -/

theorem statusInv_step {cfg : Config} {an : Analyzer Value Term} {s s' : BuildState n Value Term}
    {act : BuildAct n Value} (inv : StatusInv s) (hstep : buildStep cfg an s act = some s') :
    StatusInv s' := by
  cases act with
  | worker w act =>
      obtain ⟨b, buf, pc, heffect⟩ := workerStep_effect (inv.fits w) hstep
      exact inv.worker heffect
  | leader => exact inv.leader (leaderStep_effect hstep)

/-- A worker that is neither done nor waiting for a busy buffer can take a step. -/
theorem exists_workerStep (cfg : Config) (an : Analyzer Value Term) {s : BuildState n Value Term}
    {w : Fin n} (hdone : (s.workers w).isDone = false) (hwait : ¬ WaitsFor s w) :
    ∃ act, (workerStep cfg an s w act).isSome = true := by
  cases hpc : s.workers w with
  | start => exact ⟨.advance, by simp [workerStep, hpc]⟩
  | scanning active => exact ⟨.endOfScan, by simp [workerStep, hpc]⟩
  | gotTuple active ctid tuple =>
      refine ⟨.advance, ?_⟩
      simp only [workerStep, hpc]
      split <;> rfl
  | waiting active ctid tuple =>
      have hempty : (s.buffers (w, active)).status = .empty := by
        by_contra hbusy
        exact hwait ⟨active, ctid, tuple, hpc, hbusy⟩
      exact ⟨.advance, by simp [workerStep, hpc, hempty]⟩
  | processing active ctid tuple =>
      refine ⟨.process 0, ?_⟩
      simp only [workerStep, hpc]
      split <;> rfl
  | marking active => exact ⟨.advance, by simp [workerStep, hpc]⟩
  | counting => exact ⟨.advance, by simp [workerStep, hpc]⟩
  | done =>
      rw [hpc] at hdone
      cases hdone

/-- With at most one worker, all launched, a worker that waits has a ready buffer, and
one ready buffer is enough for the leader. -/
theorem canProgress_of_one {cfg : Config} {an : Analyzer Value Term} {s : BuildState n Value Term}
    (hn : n ≤ 1) (inv : StatusInv s) (hleader : s.leader ≠ .returned) : CanProgress cfg an n s := by
  by_cases hall : ∀ w, (s.workers w).isDone = true
  · left
    apply leaderCan_of_done hleader
    have huniv : doneWorkers s.workers = Finset.univ := by
      ext w
      simp [doneWorkers, hall w]
    rw [inv.count, huniv, Finset.card_univ, Fintype.card_fin]
  · push Not at hall
    obtain ⟨w, hw⟩ := hall
    rw [ne_eq, Bool.not_eq_true] at hw
    by_cases hwait : WaitsFor s w
    · left
      obtain ⟨active, ctid, tuple, hpc, hbusy⟩ := hwait
      have hfits := inv.fits w
      rw [hpc] at hfits
      have hready : (s.buffers (w, active)).status = .ready := (hfits active).resolve_left hbusy
      have hmem : (w, active) ∈ readySlots s (allSlots n) := by
        simp [readySlots, mem_allSlots, hready]
      have hlen := List.length_pos_of_mem hmem
      exact leaderCan_of_ready hleader (List.ne_nil_of_mem hmem) (by omega)
    · right
      exact ⟨w, w.isLt, hw, exists_workerStep cfg an hw hwait⟩

/-! ## Builds that get stuck -/

/-- A worker that has not started, with both buffers as the leader set them up. -/
def Fresh (s : BuildState n Value Term) (w : Fin n) : Prop :=
  s.workers w = .start ∧ ∀ b, s.buffers (w, b) = WorkerBuffer.init

/-- The state after a worker that found no tuple. -/
def BuildState.finish (s : BuildState n Value Term) (w : Fin n) : BuildState n Value Term :=
  { s.setWorker w .done with workersDone := s.workersDone + 1 }

omit [DecidableEq Term] in
theorem Fresh.finish {s : BuildState n Value Term} {w w' : Fin n} (h : Fresh s w')
    (hne : w' ≠ w) : Fresh (s.finish w) w' :=
  ⟨(Function.update_of_ne hne _ _).trans h.1, h.2⟩

variable {cfg : Config} {an : Analyzer Value Term} {launched : Nat}

/-- The states that launched workers and the leader reach. -/
def Reachable (cfg : Config) (an : Analyzer Value Term) (launched : Nat)
    (s : BuildState n Value Term) : Prop :=
  ∃ hist, Reaches (buildStep cfg an) (fun _ _ act => act.IsLaunched launched) BuildState.init hist s

theorem Reachable.step {s s' : BuildState n Value Term} (act : BuildAct n Value)
    (h : Reachable cfg an launched s) (hact : act.IsLaunched launched)
    (hstep : buildStep cfg an s act = some s') : Reachable cfg an launched s' := by
  obtain ⟨hist, hrun⟩ := h
  exact ⟨_, hrun.snoc hact hstep⟩

theorem Reachable.statusInv {s : BuildState n Value Term} (h : Reachable cfg an launched s) :
    StatusInv s := by
  obtain ⟨hist, hrun⟩ := h
  exact hrun.invariant statusInv_init fun _ _ _ _ inv _ hstep => statusInv_step inv hstep

theorem Reachable.workersDone_lt {s : BuildState n Value Term} (h : Reachable cfg an launched s)
    {w : Fin n} (hw : (s.workers w).isDone = false) : s.workersDone < n := by
  rw [h.statusInv.count]
  have hnot : w ∉ doneWorkers s.workers := by simp [doneWorkers, hw]
  exact Nat.lt_of_lt_of_eq (Finset.card_lt_univ_of_notMem hnot) (Fintype.card_fin n)

/-- A worker that finds no tuple. -/
theorem Reachable.finish {s : BuildState n Value Term} {w : Fin n}
    (h : Reachable cfg an launched s) (hw : w.val < launched) (hfresh : Fresh s w) :
    Reachable cfg an launched (s.finish w) := by
  obtain ⟨hstart, hbufs⟩ := hfresh
  obtain ⟨s₁, hs₁⟩ : ∃ s₁, s₁ = (s.setStatus (w, false) .filling).setWorker w (.scanning false) :=
    ⟨_, rfl⟩
  have h₁ : Reachable cfg an launched s₁ :=
    Reachable.step (.worker w .advance) h hw (by simp [buildStep, workerStep, hstart, hs₁])
  have h₂ : Reachable cfg an launched (s₁.setWorker w (.marking false)) :=
    Reachable.step (.worker w .endOfScan) h₁ hw
      (by simp [buildStep, workerStep, BuildState.setWorker, hs₁])
  have h₃ : Reachable cfg an launched (s.setWorker w .counting) :=
    Reachable.step (.worker w .advance) h₂ hw (by
      simp [buildStep, workerStep, BuildState.setWorker, BuildState.setStatus,
        BuildState.setBuffer, hbufs false, WorkerBuffer.init, hs₁])
  exact Reachable.step (.worker w .advance) h₃ hw
    (by simp [buildStep, workerStep, BuildState.setWorker, BuildState.finish])

/-- The launched workers among some that have not started find no tuple. -/
theorem Reachable.finishAll (ws : List (Fin n)) :
    ∀ {s : BuildState n Value Term}, Reachable cfg an launched s → ws.Nodup →
      (∀ w ∈ ws, w.val < launched ∧ Fresh s w) →
      ∃ s', Reachable cfg an launched s' ∧ s'.buffers = s.buffers ∧ s'.leader = s.leader ∧
        s'.workersDone = s.workersDone + ws.length ∧
        ∀ w, s'.workers w = if w ∈ ws then .done else s.workers w := by
  induction ws with
  | nil =>
      intro s h _ _
      exact ⟨s, h, rfl, rfl, rfl, fun w => by simp⟩
  | cons w ws ih =>
      intro s h hnodup hfresh
      obtain ⟨hw, hnodup⟩ := List.nodup_cons.1 hnodup
      have hhead := hfresh w List.mem_cons_self
      have hnext := h.finish hhead.1 hhead.2
      have hrest : ∀ w' ∈ ws, w'.val < launched ∧ Fresh (s.finish w) w' := by
        intro w' hw'
        have hne : w' ≠ w := fun heq => hw (heq ▸ hw')
        have hthis := hfresh w' (List.mem_cons_of_mem w hw')
        exact ⟨hthis.1, hthis.2.finish hne⟩
      obtain ⟨s', hreach, hbuf, hleader, hdone, hworkers⟩ := ih hnext hnodup hrest
      refine ⟨s', hreach, hbuf, hleader, ?_, fun w' => ?_⟩
      · rw [hdone, List.length_cons]
        show s.workersDone + 1 + ws.length = s.workersDone + (ws.length + 1)
        omega
      · rw [hworkers]
        by_cases hin : w' ∈ ws
        · simp [hin]
        · by_cases heq : w' = w
          · subst heq
            simp [hin, BuildState.finish, BuildState.setWorker]
          · simp [hin, heq, BuildState.finish, BuildState.setWorker]

/-- **Too few workers launched**: all of them finish, and the leader waits for the
others. -/
theorem stuck_of_launched_lt (hlt : launched < n) :
    ∃ s : BuildState n Value Term, Reachable cfg an launched s ∧ s.leader ≠ .returned ∧
      ¬ CanProgress cfg an launched s := by
  have hinit : Reachable cfg an launched (BuildState.init : BuildState n Value Term) :=
    ⟨[], Reaches.nil⟩
  have hlaunched : ∀ w : Fin n, w ∈ (List.finRange n).filter (fun w => w.val < launched) ↔
      w.val < launched := by simp
  obtain ⟨s, hreach, hbuf, hleader, hdone, hworkers⟩ :=
    hinit.finishAll ((List.finRange n).filter fun w => w.val < launched)
      ((List.nodup_finRange n).filter _)
      fun w hw => ⟨(hlaunched w).1 hw, rfl, fun _ => rfl⟩
  have hpc : s.leader = .scanning (allSlots n) [] := hleader
  refine ⟨s, hreach, by rw [hpc]; simp, stuck_of_few_ready hpc ?_ ?_ ?_⟩
  · -- the last worker was not launched
    have hlast : s.workers ⟨n - 1, by omega⟩ = .start := by
      rw [hworkers, if_neg]
      · rfl
      · rw [hlaunched]
        show ¬ n - 1 < launched
        omega
    apply hreach.workersDone_lt
    rw [hlast]
    rfl
  · have hnone : readySlots s (allSlots n) = [] := by
      rw [readySlots, hbuf]
      simp [BuildState.init, WorkerBuffer.init]
    rw [hnone, List.length_nil]
    omega
  · intro w hw
    left
    rw [hworkers, if_pos ((hlaunched w).2 hw)]
    rfl

/-- All workers but one are as they were set up, and so is the leader. -/
structure OthersFresh (w : Fin n) (s : BuildState n Value Term) : Prop where
  status : StatusInv s
  leader : s.leader = .scanning (allSlots n) []
  fresh : ∀ w' ≠ w, Fresh s w'

omit [DecidableEq Term] in
theorem othersFresh_init (w : Fin n) : OthersFresh w (BuildState.init : BuildState n Value Term) :=
  ⟨statusInv_init, rfl, fun _ _ => ⟨rfl, fun _ => rfl⟩⟩

theorem OthersFresh.step {w : Fin n} {s s' : BuildState n Value Term} (h : OthersFresh w s)
    {act : BuildAct n Value} (hact : ∃ a, act = .worker w a)
    (hstep : buildStep cfg an s act = some s') : OthersFresh w s' := by
  obtain ⟨a, rfl⟩ := hact
  obtain ⟨b, buf, pc, heffect⟩ := workerStep_effect (h.status.fits w) hstep
  refine ⟨h.status.worker heffect, heffect.leader.trans h.leader, fun w' hne => ?_⟩
  have hslot : ∀ b', (w', b') ≠ (w, b) := fun b' heq => hne (congrArg Prod.fst heq)
  constructor
  · rw [heffect.workers, Function.update_of_ne hne]
    exact (h.fresh w' hne).1
  · intro b'
    rw [heffect.buffers, Function.update_of_ne (hslot b')]
    exact (h.fresh w' hne).2 b'

/-- A run of one worker leaves the others and the leader where they are. -/
theorem othersFresh_of_reaches {w : Fin n} {hist : List (BuildAct n Value)}
    {s : BuildState n Value Term}
    (hrun : Reaches (buildStep cfg an) (fun _ _ act => ∃ a, act = .worker w a) BuildState.init
      hist s) : OthersFresh w s :=
  hrun.invariant (othersFresh_init w) fun _ _ _ _ h hact hstep => OthersFresh.step h hact hstep

/-- **One worker waits while the others have nothing**: its two buffers are fewer than
the leader waits for. -/
theorem stuck_of_waits (hn : 2 < n) {w : Fin n} {hist : List (BuildAct n Value)}
    {s : BuildState n Value Term}
    (hrun : Reaches (buildStep cfg an) (fun _ _ act => ∃ a, act = .worker w a) BuildState.init
      hist s) (hwait : WaitsFor s w) :
    ∃ s : BuildState n Value Term, Reachable cfg an n s ∧ s.leader ≠ .returned ∧
      ¬ CanProgress cfg an n s := by
  have hothers := othersFresh_of_reaches hrun
  have hreach : Reachable cfg an n s := by
    refine ⟨hist, hrun.mono ?_⟩
    rintro _ _ _ ⟨act, rfl⟩
    exact w.isLt
  have hmem : ∀ w', w' ∈ (List.finRange n).filter (fun w' => w' ≠ w) ↔ w' ≠ w := by simp
  obtain ⟨s', hreach', hbuf, hleader, -, hworkers⟩ :=
    hreach.finishAll ((List.finRange n).filter fun w' => w' ≠ w)
      ((List.nodup_finRange n).filter _)
      fun w' hw' => ⟨w'.isLt, hothers.fresh w' ((hmem w').1 hw')⟩
  have hpc : s'.leader = .scanning (allSlots n) [] := hleader.trans hothers.leader
  have hself : s'.workers w = s.workers w := by rw [hworkers, if_neg (by simp)]
  have hwait' : WaitsFor s' w := by
    unfold WaitsFor
    rw [hself, hbuf]
    exact hwait
  refine ⟨s', hreach', by rw [hpc]; simp, stuck_of_few_ready hpc ?_ ?_ ?_⟩
  · obtain ⟨active, ctid, tuple, hwaiting, -⟩ := hwait'
    apply hreach'.workersDone_lt
    rw [hwaiting]
    rfl
  · have hsub : readySlots s' (allSlots n) ⊆ [(w, false), (w, true)] := by
      rintro ⟨w', b⟩ hslot
      have hready : (s.buffers (w', b)).status = .ready := by
        rw [← hbuf]
        simpa [readySlots, mem_allSlots] using hslot
      by_cases heq : w' = w
      · subst heq
        cases b <;> simp
      · rw [(hothers.fresh w' heq).2 b] at hready
        cases hready
    have hnodup : (readySlots s' (allSlots n)).Nodup := nodup_allSlots.filter _
    have hlen := (List.subperm_of_subset hnodup hsub).length_le
    exact Nat.lt_of_le_of_lt hlen hn
  · intro w' _
    by_cases heq : w' = w
    · exact Or.inr (heq ▸ hwait')
    · left
      rw [hworkers, if_pos ((hmem w').2 heq)]
      rfl

end Progress

/-! ## Builds with all workers launched -/

/-- With a spill threshold of one posting a worker hands its buffer over for every
document but the first. -/
def onePosting : Config where
  indexOid := 1
  memtableSpillThreshold := 1
  bulkLoadThreshold := 0
  segmentsPerLevel := 8
  hasTenantColumn := false

/-- The steps with which a worker fills both buffers and waits for the first one. -/
def fillBoth (w : Fin n) : List (BuildAct n (TermVector Nat)) :=
  [.worker w .advance] ++ scanOne w ⟨0, 1⟩ ++
    [.worker w (.nextTuple ⟨0, 2⟩ ⟨some oneWord, 0⟩), .worker w .advance, .worker w .advance,
      .worker w (.process 0)] ++
    [.worker w (.nextTuple ⟨0, 3⟩ ⟨some oneWord, 0⟩), .worker w .advance]

/-- Only one worker takes steps. -/
def onlyWorker (w : Fin n) : BuildAct n (TermVector Nat) → Bool
  | .worker w' _ => decide (w' = w)
  | .leader => false

theorem fillBoth_reaches (hn : 0 < n) : ∃ s : BuildState n (TermVector Nat) Nat,
    Reaches (buildStep onePosting (vectorAnalyzer .text))
      (fun _ _ act => ∃ a, act = .worker ⟨0, hn⟩ a) BuildState.init (fillBoth ⟨0, hn⟩) s ∧
      WaitsFor s ⟨0, hn⟩ := by
  obtain ⟨w, hw⟩ : ∃ w : Fin n, w = ⟨0, hn⟩ := ⟨_, rfl⟩
  obtain ⟨s, hrun, hpc, hready⟩ : ∃ s : BuildState n (TermVector Nat) Nat,
      runChecked (buildStep onePosting (vectorAnalyzer .text)) (fun _ _ act => onlyWorker w act) []
        BuildState.init (fillBoth w) = some s ∧
      s.workers w = .waiting false ⟨0, 3⟩ ⟨some oneWord, 0⟩ ∧
      (s.buffers (w, false)).status = .ready := by
    subst hw
    exact ⟨_, rfl, rfl, rfl⟩
  rw [← hw]
  refine ⟨s, reaches_of_runChecked _ ?_ hrun, _, _, _, hpc, ?_⟩
  · intro _ _ act hact
    cases act with
    | worker w' act =>
        have heq : w' = w := of_decide_eq_true hact
        exact ⟨act, by rw [heq]⟩
    | leader => cases hact
  · rw [hready]
    simp

/-- Two workers.  The leader looks at the first buffer of worker 0 before it is ready
and at the second one after both are, and merges that one with a buffer of worker 1.
Then worker 1 has nothing more, and worker 0 waits for its first buffer. -/
def raceRun : List (BuildAct 2 (TermVector Nat)) :=
  [.leader] ++ fillBoth 0 ++ [.leader] ++
    [.worker 1 .advance] ++ scanOne 1 ⟨0, 4⟩ ++ [.worker 1 .endOfScan, .worker 1 .advance] ++
    List.replicate 7 .leader ++ [.worker 1 .advance]

theorem raceRun_stuck : ∃ s : BuildState 2 (TermVector Nat) Nat,
    Reachable onePosting (vectorAnalyzer .text) 2 s ∧ s.leader ≠ .returned ∧
      ¬ CanProgress onePosting (vectorAnalyzer .text) 2 s := by
  obtain ⟨s, hrun, hleader, hzero, hone, hready⟩ : ∃ s : BuildState 2 (TermVector Nat) Nat,
      runAll (buildStep onePosting (vectorAnalyzer .text)) BuildState.init raceRun = some s ∧
      s.leader = .scanning (allSlots 2) [] ∧
      s.workers 0 = .waiting false ⟨0, 3⟩ ⟨some oneWord, 0⟩ ∧ s.workers 1 = .done ∧
      readySlots s (allSlots 2) = [(0, false)] := ⟨_, rfl, rfl, rfl, rfl, rfl⟩
  have hreach : Reachable onePosting (vectorAnalyzer .text) 2 s := by
    refine ⟨_, (reaches_of_run hrun).mono ?_⟩
    intro _ _ act _
    cases act with
    | worker w act => exact w.isLt
    | leader => trivial
  have hbusy : (s.buffers (0, false)).status = .ready := by
    have hmem : ((0, false) : Slot 2) ∈ readySlots s (allSlots 2) := by rw [hready]; simp
    simpa [readySlots] using (List.mem_filter.1 hmem).2
  refine ⟨s, hreach, by rw [hleader]; simp, stuck_of_few_ready hleader ?_ ?_ ?_⟩
  · apply hreach.workersDone_lt (w := 0)
    rw [hzero]
    rfl
  · rw [hready]
    decide
  · intro w _
    match w with
    | 0 => exact Or.inr ⟨_, _, _, hzero, by rw [hbusy]; simp⟩
    | 1 =>
        left
        rw [hone]
        rfl

end PgTextsearch.Am
