import Mathlib.Algebra.BigOperators.Group.Finset.Basic
import Mathlib.Data.Fintype.Prod
import Mathlib.Data.List.FinRange
import PgTextsearch.Am.WorkerBuffer
import PgTextsearch.Verified.Runs

/-!
# Parallel build (`am/build_parallel.c`)

The workers scan the heap and fill two buffers each; the leader collects the
buffers that are ready, merges them into a segment and clears them, until it finds
that all workers are done.  Every access to shared memory is a step of its own, and
a run is any interleaving of the steps of the leader and the workers.

The leader looks at the buffers first and at the number of finished workers
afterwards.  A worker that marks its last buffer ready after the leader has looked
at it and counts itself done before the leader looks at the counter is missed.

## Main results

* `build_complete` — in every run in which the leader has collected all ready
  buffers whenever it finds the workers done, it returns with each document in
  exactly one segment, and with its counts right.
* `late_buffer_lost` — a run that loses a document.
-/

namespace PgTextsearch.Am

open PgTextsearch.Postgres PgTextsearch.Segment PgTextsearch.State PgTextsearch.Verified

/-- A buffer: the worker and which of its two buffers. -/
abbrev Slot (n : Nat) := Fin n × Bool

/-- Where a worker stands in `tp_parallel_build_worker_main`; `active` is
`active_buf`, and the tuple is the one in the scan slot. -/
inductive WorkerPc (Value : Type) where
  | start
  | scanning (active : Bool)
  | gotTuple (active : Bool) (ctid : ItemPointer) (tuple : HeapTuple Value)
  | waiting (active : Bool) (ctid : ItemPointer) (tuple : HeapTuple Value)
  | processing (active : Bool) (ctid : ItemPointer) (tuple : HeapTuple Value)
  | marking (active : Bool)
  | counting
  | done

/-- Where the leader stands in `tp_leader_process_buffers`: looking at the buffers
still to be visited, with the ready ones found so far; holding the answer about the
workers; clearing the merged buffers; returned. -/
inductive LeaderPc (n : Nat) where
  | scanning (rest ready : List (Slot n))
  | deciding (ready : List (Slot n)) (allDone : Bool)
  | clearing (rest : List (Slot n)) (allDone : Bool)
  | returned

/-- The shared memory of the build, the local state of all parties, and the
segments written.  `scanned` is the progress of the parallel table scan; `put`
records the documents put into buffers. -/
structure BuildState (n : Nat) (Value Term : Type) where
  buffers : Slot n → WorkerBuffer Term
  workers : Fin n → WorkerPc Value
  workersDone : Nat
  leader : LeaderPc n
  segments : List (SegmentContents Term)
  totalDocs : Nat
  totalLen : Nat
  scanned : List ItemPointer
  put : List (WorkerDoc Term)

/-- What a worker does next: its next statement, or one of the outcomes of
`table_scan_getnextslot`, or putting the tuple into the buffer. -/
inductive WorkerAct (Value : Type) where
  | advance
  | nextTuple (ctid : ItemPointer) (tuple : HeapTuple Value)
  | endOfScan
  | process (lengthTenantId : Nat)

/-- A step of the build. -/
inductive BuildAct (n : Nat) (Value : Type) where
  | worker (w : Fin n) (act : WorkerAct Value)
  | leader

variable {n : Nat} {Value Term : Type}

/-- The buffers in the order in which the leader visits them. -/
def allSlots (n : Nat) : List (Slot n) :=
  (List.finRange n).flatMap fun w => [(w, false), (w, true)]

/-- After `tp_init_parallel_shared`. -/
def BuildState.init : BuildState n Value Term where
  buffers := fun _ => WorkerBuffer.init
  workers := fun _ => .start
  workersDone := 0
  leader := .scanning (allSlots n) []
  segments := []
  totalDocs := 0
  totalLen := 0
  scanned := []
  put := []

/-- Write to one buffer. -/
def BuildState.setBuffer (s : BuildState n Value Term) (slot : Slot n) (b : WorkerBuffer Term) :
    BuildState n Value Term :=
  { s with buffers := Function.update s.buffers slot b }

/-- `pg_atomic_write_u32(&buffer->status, ..)`. -/
def BuildState.setStatus (s : BuildState n Value Term) (slot : Slot n) (status : BufferStatus) :
    BuildState n Value Term :=
  s.setBuffer slot { s.buffers slot with status := status }

/-- Move a worker. -/
def BuildState.setWorker (s : BuildState n Value Term) (w : Fin n) (pc : WorkerPc Value) :
    BuildState n Value Term :=
  { s with workers := Function.update s.workers w pc }

variable [DecidableEq Term]

/-- A step of `tp_parallel_build_worker_main`.  The parallel scan hands every tuple
to one worker. -/
def workerStep (cfg : Config) (an : Analyzer Value Term) (s : BuildState n Value Term)
    (w : Fin n) (act : WorkerAct Value) : Option (BuildState n Value Term) :=
  match s.workers w, act with
  | .start, .advance => some ((s.setStatus (w, false) .filling).setWorker w (.scanning false))
  | .scanning active, .nextTuple ctid tuple =>
      if ctid ∈ s.scanned then none
      else some { s.setWorker w (.gotTuple active ctid tuple) with scanned := ctid :: s.scanned }
  | .scanning active, .endOfScan => some (s.setWorker w (.marking active))
  | .gotTuple active ctid tuple, .advance =>
      if (s.buffers (w, active)).tables.totalPostings ≥ cfg.memtableSpillThreshold then
        some ((s.setStatus (w, active) .ready).setWorker w (.waiting (!active) ctid tuple))
      else some (s.setWorker w (.processing active ctid tuple))
  | .waiting active ctid tuple, .advance =>
      if (s.buffers (w, active)).status = .empty then
        some ((s.setStatus (w, active) .filling).setWorker w (.processing active ctid tuple))
      else none
  | .processing active ctid tuple, .process lengthTenantId =>
      match workerDocument cfg an ctid tuple lengthTenantId with
      | none => some (s.setWorker w (.scanning active))
      | some doc =>
          some { (s.setBuffer (w, active) (putDocument (s.buffers (w, active)) doc)).setWorker w
                  (.scanning active) with
            put := s.put ++ [doc] }
  | .marking active, .advance =>
      let status := if (s.buffers (w, active)).numDocs > 0 then .ready else .empty
      some ((s.setStatus (w, active) status).setWorker w .counting)
  | .counting, .advance =>
      some { s.setWorker w .done with workersDone := s.workersDone + 1 }
  | _, _ => none

/-- A step of `tp_leader_process_buffers`.  A merge that raises an error aborts the
build. -/
def leaderStep (s : BuildState n Value Term) : Option (BuildState n Value Term) :=
  match s.leader with
  | .scanning (slot :: rest) ready =>
      let ready := if (s.buffers slot).status = .ready then ready ++ [slot] else ready
      some { s with leader := .scanning rest ready }
  | .scanning [] ready =>
      some { s with leader := .deciding ready (decide (s.workersDone ≥ n)) }
  | .deciding ready allDone =>
      if ready ≠ [] ∧ (allDone = true ∨ ready.length ≥ n) then
        match tpMergeWorkerBuffersToSegment (ready.map s.buffers) with
        | .error _ => none
        | .ok none => some { s with leader := .clearing ready allDone }
        | .ok (some seg) =>
            some { s with
              totalDocs := (ready.map s.buffers).foldl
                (fun total b => (total + b.numDocs) % 2 ^ 32) s.totalDocs
              totalLen := (ready.map s.buffers).foldl
                (fun total b => total + b.totalLen) s.totalLen
              segments := s.segments ++ [seg]
              leader := .clearing ready allDone }
      else if allDone then some { s with leader := .returned }
      -- woken up from leader_wake_cv
      else some { s with leader := .scanning (allSlots n) [] }
  | .clearing (slot :: rest) allDone =>
      some { s.setBuffer slot { clearWorkerBuffer (s.buffers slot) with status := .empty } with
        leader := .clearing rest allDone }
  | .clearing [] allDone =>
      if allDone then some { s with leader := .returned }
      else some { s with leader := .scanning (allSlots n) [] }
  | .returned => none

/-- One step. -/
def buildStep (cfg : Config) (an : Analyzer Value Term) (s : BuildState n Value Term) :
    BuildAct n Value → Option (BuildState n Value Term)
  | .worker w act => workerStep cfg an s w act
  | .leader => leaderStep s

/-- **No document is lost**: each document put into a buffer is in exactly one
segment, and the counts are those of the documents. -/
def BuildComplete (s : BuildState n Value Term) : Prop :=
  (∀ doc ∈ s.put, ∃ before seg after, s.segments = before ++ seg :: after ∧ Contains seg doc ∧
    ∀ other ∈ before ++ after, ¬ SegMentions other doc.ctid) ∧
  s.totalDocs = s.put.length ∧ s.totalLen = (s.put.map fun d => d.terms.docLength).sum

omit [DecidableEq Term] in
/-- The condition on a step.  When the leader reads that all workers are done, it
has collected every ready buffer with documents; and fewer than `2 ^ 32` documents
are put. -/
def CollectedAll (s : BuildState n Value Term) : BuildAct n Value → Prop
  | .leader => ∀ ready, s.leader = .scanning [] ready → s.workersDone ≥ n →
      ∀ slot, (s.buffers slot).status = .ready → (s.buffers slot).numDocs ≠ 0 → slot ∈ ready
  | .worker _ (.process _) => s.put.length + 1 < 2 ^ 32
  | .worker _ _ => True

/-! ## What a step can do -/

/-- The tuple a worker has scanned and not yet processed. -/
def WorkerPc.inFlight : WorkerPc Value → Option ItemPointer
  | .gotTuple _ ctid _ | .waiting _ ctid _ | .processing _ ctid _ => some ctid
  | _ => none

/-- Whether the worker has counted itself done. -/
def WorkerPc.isDone : WorkerPc Value → Bool
  | .done => true
  | _ => false

/-- The statuses of a worker's own buffers, by where it stands: it fills the active
one, and the other one is empty or left to the leader. -/
def WorkerPc.Fits (pc : WorkerPc Value) (status : Bool → BufferStatus) : Prop :=
  match pc with
  | .start => ∀ b, status b = .empty
  | .scanning a | .gotTuple a _ _ | .processing a _ _ | .marking a =>
      status a = .filling ∧ (status (!a) = .empty ∨ status (!a) = .ready)
  | .waiting _ _ _ | .counting | .done => ∀ b, status b = .empty ∨ status b = .ready

/-- The statuses of the buffers of a worker. -/
def BuildState.statuses (s : BuildState n Value Term) (w : Fin n) (b : Bool) : BufferStatus :=
  (s.buffers (w, b)).status

/-- **What a worker step does**: it moves the worker and writes at most one of its
two buffers, never a ready one. -/
structure WorkerEffect (s : BuildState n Value Term) (w : Fin n) (s' : BuildState n Value Term)
    (b : Bool) (buf : WorkerBuffer Term) (pc : WorkerPc Value) : Prop where
  buffers : s'.buffers = Function.update s.buffers (w, b) buf
  workers : s'.workers = Function.update s.workers w pc
  leader : s'.leader = s.leader
  segments : s'.segments = s.segments
  totals : s'.totalDocs = s.totalDocs ∧ s'.totalLen = s.totalLen
  kept : (s.buffers (w, b)).status = .ready → buf = s.buffers (w, b)
  fits : pc.Fits (Function.update (s.statuses w) b buf.status)
  notDone : (s.workers w).isDone = false
  count : s'.workersDone = s.workersDone + if pc.isDone then 1 else 0
  flight : (s'.scanned = s.scanned ∧ ∀ c, pc.inFlight = some c → (s.workers w).inFlight = some c) ∨
    ∃ c, c ∉ s.scanned ∧ s'.scanned = c :: s.scanned ∧ pc.inFlight = some c
  contents : (s'.put = s.put ∧ ∃ status, buf = { s.buffers (w, b) with status := status } ∧
      (status = .empty → (s.buffers (w, b)).status = .empty ∨ (s.buffers (w, b)).numDocs = 0)) ∨
    ∃ doc, s'.put = s.put ++ [doc] ∧ buf = putDocument (s.buffers (w, b)) doc ∧
      (s.workers w).inFlight = some doc.ctid ∧ pc.inFlight = none ∧
      (s.buffers (w, b)).status = .filling

omit [DecidableEq Term] in
private theorem ctid_of_workerDocument {cfg : Config} {an : Analyzer Value Term}
    {ctid : ItemPointer} {tuple : HeapTuple Value} {lengthTenantId : Nat} {doc : WorkerDoc Term}
    (h : workerDocument cfg an ctid tuple lengthTenantId = some doc) : doc.ctid = ctid := by
  unfold workerDocument at h
  split at h
  · cases h
  split at h
  · split at h
    · cases h
    · cases h
      rfl
  · cases h

/-- Writing the status of an own buffer. -/
private theorem workerEffect_setStatus {s : BuildState n Value Term} {w : Fin n} {b : Bool}
    {status : BufferStatus} {pc : WorkerPc Value} (hkept : s.statuses w b ≠ .ready)
    (hfits : pc.Fits (Function.update (s.statuses w) b status))
    (hdone : (s.workers w).isDone = false) (hpc : pc.isDone = false)
    (hflight : ∀ c, pc.inFlight = some c → (s.workers w).inFlight = some c)
    (hempty : status = .empty → (s.buffers (w, b)).numDocs = 0) :
    WorkerEffect s w ((s.setStatus (w, b) status).setWorker w pc) b
      { s.buffers (w, b) with status := status } pc where
  buffers := rfl
  workers := rfl
  leader := rfl
  segments := rfl
  totals := ⟨rfl, rfl⟩
  kept := fun h => absurd h hkept
  fits := hfits
  notDone := hdone
  count := by rw [hpc]; rfl
  flight := Or.inl ⟨rfl, hflight⟩
  contents := Or.inl ⟨rfl, status, rfl, fun h => Or.inr (hempty h)⟩

/-- Moving on without a write to a buffer. -/
private theorem workerEffect_move {s s' : BuildState n Value Term} {w : Fin n} (b : Bool)
    {pc : WorkerPc Value} {scanned : List ItemPointer} {workersDone : Nat}
    (hs' : s' = { s.setWorker w pc with scanned := scanned, workersDone := workersDone })
    (hfits : pc.Fits (s.statuses w)) (hdone : (s.workers w).isDone = false)
    (hcount : workersDone = s.workersDone + if pc.isDone then 1 else 0)
    (hflight : (scanned = s.scanned ∧ ∀ c, pc.inFlight = some c → (s.workers w).inFlight = some c) ∨
      ∃ c, c ∉ s.scanned ∧ scanned = c :: s.scanned ∧ pc.inFlight = some c) :
    WorkerEffect s w s' b (s.buffers (w, b)) pc := by
  subst hs'
  have hsame : Function.update (s.statuses w) b (s.buffers (w, b)).status = s.statuses w :=
    Function.update_eq_self b _
  exact
    { buffers := (Function.update_eq_self (w, b) s.buffers).symm
      workers := rfl
      leader := rfl
      segments := rfl
      totals := ⟨rfl, rfl⟩
      kept := fun _ => rfl
      fits := by rw [hsame]; exact hfits
      notDone := hdone
      count := hcount
      flight := hflight
      contents := Or.inl ⟨rfl, _, rfl, fun h => Or.inl h⟩ }

theorem workerStep_effect {cfg : Config} {an : Analyzer Value Term} {s s' : BuildState n Value Term}
    {w : Fin n} {act : WorkerAct Value} (hfits : (s.workers w).Fits (s.statuses w))
    (h : workerStep cfg an s w act = some s') : ∃ b buf pc, WorkerEffect s w s' b buf pc := by
  unfold workerStep at h
  split at h
  case h_1 hpc =>
    -- start
    cases h
    rw [hpc] at hfits
    refine ⟨false, _, _, workerEffect_setStatus ?_ ?_ ?_ rfl ?_ ?_⟩
    · simp [hfits false]
    · exact ⟨by simp, Or.inl (by simp [hfits true])⟩
    · rw [hpc]; rfl
    · intro c hc
      cases hc
    · intro hc
      cases hc
  case h_2 active ctid tuple hpc =>
    -- the next tuple
    split at h
    · cases h
    case isFalse hnew =>
      cases h
      rw [hpc] at hfits
      refine ⟨active, _, _,
        workerEffect_move active rfl hfits ?_ rfl (Or.inr ⟨ctid, hnew, rfl, rfl⟩)⟩
      rw [hpc]; rfl
  case h_3 active hpc =>
    -- the end of the scan
    cases h
    rw [hpc] at hfits
    refine ⟨active, _, _, workerEffect_move active rfl hfits ?_ rfl (Or.inl ⟨rfl, ?_⟩)⟩
    · rw [hpc]; rfl
    · intro c hc
      cases hc
  case h_4 active ctid tuple hpc =>
    -- switch buffers if the active one is full
    rw [hpc] at hfits
    split at h
    · cases h
      refine ⟨active, _, _, workerEffect_setStatus ?_ ?_ ?_ rfl ?_ ?_⟩
      · simp [hfits.1]
      · intro b
        by_cases hb : b = active
        · subst hb
          simp
        · rw [Function.update_of_ne hb, Bool.eq_not.2 hb]
          exact hfits.2
      · rw [hpc]; rfl
      · intro c hc
        rw [hpc]
        exact hc
      · intro hc
        cases hc
    · cases h
      refine ⟨active, _, _, workerEffect_move active rfl hfits ?_ rfl (Or.inl ⟨rfl, ?_⟩)⟩
      · rw [hpc]; rfl
      · intro c hc
        rw [hpc]
        exact hc
  case h_5 active ctid tuple hpc =>
    -- the other buffer has become empty
    rw [hpc] at hfits
    split at h
    case isTrue hempty =>
      cases h
      refine ⟨active, _, _, workerEffect_setStatus ?_ ?_ ?_ rfl ?_ ?_⟩
      · simp [BuildState.statuses, hempty]
      · exact ⟨by simp, by simpa using hfits (!active)⟩
      · rw [hpc]; rfl
      · intro c hc
        rw [hpc]
        exact hc
      · intro hc
        cases hc
    case isFalse => cases h
  case h_6 active ctid tuple lengthTenantId hpc =>
    -- the document
    rw [hpc] at hfits
    split at h
    · cases h
      refine ⟨active, _, _, workerEffect_move active rfl hfits ?_ rfl (Or.inl ⟨rfl, ?_⟩)⟩
      · rw [hpc]; rfl
      · intro c hc
        cases hc
    case h_2 doc hdoc =>
      cases h
      have hctid : doc.ctid = ctid := ctid_of_workerDocument hdoc
      have hfill : (s.buffers (w, active)).status = .filling := hfits.1
      refine ⟨active, putDocument (s.buffers (w, active)) doc, .scanning active, ?_⟩
      constructor
      · rfl
      · rfl
      · rfl
      · rfl
      · exact ⟨rfl, rfl⟩
      · intro hready
        rw [hfill] at hready
        cases hready
      · exact ⟨by simpa [putDocument] using hfill, by simpa using hfits.2⟩
      · rw [hpc]; rfl
      · rfl
      · refine Or.inl ⟨rfl, ?_⟩
        intro c hc
        cases hc
      · refine Or.inr ⟨doc, rfl, rfl, ?_, rfl, hfill⟩
        rw [hpc, hctid]
        rfl
  case h_7 active hpc =>
    -- the last buffer
    cases h
    rw [hpc] at hfits
    refine ⟨active, _, _, workerEffect_setStatus ?_ ?_ ?_ rfl ?_ ?_⟩
    · simp [hfits.1]
    · intro b
      by_cases hb : b = active
      · subst hb
        rw [Function.update_self]
        split
        · exact Or.inr rfl
        · exact Or.inl rfl
      · rw [Function.update_of_ne hb, Bool.eq_not.2 hb]
        exact hfits.2
    · rw [hpc]; rfl
    · intro c hc
      cases hc
    · intro hstatus
      split at hstatus
      · cases hstatus
      · omega
  case h_8 hpc =>
    -- workers_done
    cases h
    rw [hpc] at hfits
    refine ⟨false, _, _, workerEffect_move false rfl hfits ?_ rfl (Or.inl ⟨rfl, ?_⟩)⟩
    · rw [hpc]; rfl
    · intro c hc
      cases hc
  case h_9 => cases h

/-- **What a leader step does**, one constructor for each branch. -/
inductive LeaderEffect (s : BuildState n Value Term) : BuildState n Value Term → Prop where
  | look {slot : Slot n} {rest ready ready' : List (Slot n)}
      (pc : s.leader = .scanning (slot :: rest) ready)
      (found : (s.buffers slot).status = .ready ∧ ready' = ready ++ [slot] ∨ ready' = ready) :
      LeaderEffect s { s with leader := .scanning rest ready' }
  | read {ready : List (Slot n)} (pc : s.leader = .scanning [] ready) :
      LeaderEffect s { s with leader := .deciding ready (decide (s.workersDone ≥ n)) }
  | mergeNone {ready : List (Slot n)} {allDone : Bool} (pc : s.leader = .deciding ready allDone)
      (merged : tpMergeWorkerBuffersToSegment (ready.map s.buffers) = .ok none) :
      LeaderEffect s { s with leader := .clearing ready allDone }
  | mergeSome {ready : List (Slot n)} {allDone : Bool} {seg : SegmentContents Term}
      (pc : s.leader = .deciding ready allDone)
      (merged : tpMergeWorkerBuffersToSegment (ready.map s.buffers) = .ok (some seg)) :
      LeaderEffect s { s with
        totalDocs := (ready.map s.buffers).foldl
          (fun total b => (total + b.numDocs) % 2 ^ 32) s.totalDocs
        totalLen := (ready.map s.buffers).foldl (fun total b => total + b.totalLen) s.totalLen
        segments := s.segments ++ [seg]
        leader := .clearing ready allDone }
  | clear {slot : Slot n} {rest : List (Slot n)} {allDone : Bool}
      (pc : s.leader = .clearing (slot :: rest) allDone) :
      LeaderEffect s { s.setBuffer slot { clearWorkerBuffer (s.buffers slot) with status := .empty }
        with leader := .clearing rest allDone }
  | again (pc : (∃ ready, s.leader = .deciding ready false) ∨ s.leader = .clearing [] false) :
      LeaderEffect s { s with leader := .scanning (allSlots n) [] }
  | finish (pc : s.leader = .deciding [] true ∨ s.leader = .clearing [] true) :
      LeaderEffect s { s with leader := .returned }

theorem leaderStep_effect {s s' : BuildState n Value Term} (h : leaderStep s = some s') :
    LeaderEffect s s' := by
  unfold leaderStep at h
  split at h
  case h_1 slot rest ready hpc =>
    cases h
    apply LeaderEffect.look hpc
    split
    case isTrue hready => exact Or.inl ⟨hready, rfl⟩
    case isFalse => exact Or.inr rfl
  case h_2 ready hpc =>
    cases h
    exact LeaderEffect.read hpc
  case h_3 ready allDone hpc =>
    split at h
    case isTrue =>
      split at h
      · cases h
      case h_2 hmerged =>
        cases h
        exact LeaderEffect.mergeNone hpc hmerged
      case h_3 seg hmerged =>
        cases h
        exact LeaderEffect.mergeSome hpc hmerged
    case isFalse hno =>
      cases allDone with
      | true =>
          cases h
          have hnil : ready = [] := by simpa using hno
          rw [hnil] at hpc
          exact LeaderEffect.finish (Or.inl hpc)
      | false =>
          cases h
          exact LeaderEffect.again (Or.inl ⟨ready, hpc⟩)
  case h_4 slot rest allDone hpc =>
    cases h
    exact LeaderEffect.clear hpc
  case h_5 allDone hpc =>
    cases allDone with
    | true =>
        cases h
        exact LeaderEffect.finish (Or.inr hpc)
    | false =>
        cases h
        exact LeaderEffect.again (Or.inr hpc)
  case h_6 => cases h

/-! ## Statuses and program counters -/

/-- The buffers the leader has collected and not yet cleared. -/
def LeaderPc.held : LeaderPc n → List (Slot n)
  | .scanning _ ready | .deciding ready _ | .clearing ready _ => ready
  | .returned => []

/-- The buffers the leader has still to look at. -/
def LeaderPc.rest : LeaderPc n → List (Slot n)
  | .scanning rest _ => rest
  | _ => []

/-- The workers that have counted themselves done. -/
def doneWorkers (workers : Fin n → WorkerPc Value) : Finset (Fin n) :=
  Finset.univ.filter fun w => (workers w).isDone = true

/-- Statuses agree with where the parties stand. -/
structure StatusInv (s : BuildState n Value Term) : Prop where
  fits : ∀ w, (s.workers w).Fits (s.statuses w)
  ready : ∀ slot ∈ s.leader.held, (s.buffers slot).status = .ready
  nodup : (s.leader.held ++ s.leader.rest).Nodup
  count : s.workersDone = (doneWorkers s.workers).card

theorem nodup_allSlots : (allSlots n).Nodup := by
  rw [allSlots, List.nodup_flatMap]
  constructor
  · intro w _
    simp
  · refine (List.nodup_finRange n).imp fun {w w'} hne => ?_
    simpa [Function.onFun] using Ne.symm hne

omit [DecidableEq Term] in
theorem statusInv_init : StatusInv (BuildState.init : BuildState n Value Term) where
  fits := fun _ _ => rfl
  ready := fun _ h => nomatch h
  nodup := nodup_allSlots
  count := by simp [BuildState.init, doneWorkers, WorkerPc.isDone]

private theorem card_doneWorkers_update {workers : Fin n → WorkerPc Value} {w : Fin n}
    (hw : (workers w).isDone = false) (pc : WorkerPc Value) :
    (doneWorkers (Function.update workers w pc)).card =
      (doneWorkers workers).card + if pc.isDone then 1 else 0 := by
  have hother : ∀ w' ≠ w, Function.update workers w pc w' = workers w' :=
    fun w' hne => Function.update_of_ne hne _ _
  cases hpc : pc.isDone with
  | true =>
      have hset : doneWorkers (Function.update workers w pc) = insert w (doneWorkers workers) := by
        ext w'
        by_cases hne : w' = w
        · subst hne
          simp [doneWorkers, hpc]
        · simp [doneWorkers, hne]
      have hnot : w ∉ doneWorkers workers := by simp [doneWorkers, hw]
      rw [hset, Finset.card_insert_of_notMem hnot]
      rfl
  | false =>
      have hset : doneWorkers (Function.update workers w pc) = doneWorkers workers := by
        ext w'
        by_cases hne : w' = w
        · subst hne
          simp [doneWorkers, hpc, hw]
        · simp [doneWorkers, hother w' hne]
      rw [hset]
      rfl

section WorkerFrame

variable {s s' : BuildState n Value Term} {w : Fin n} {b : Bool} {buf : WorkerBuffer Term}
  {pc : WorkerPc Value}

/-- Ready buffers are the leader's: no worker writes them. -/
theorem WorkerEffect.buffers_of_ready (h : WorkerEffect s w s' b buf pc) {slot : Slot n}
    (hready : (s.buffers slot).status = .ready) : s'.buffers slot = s.buffers slot := by
  rw [h.buffers]
  by_cases hslot : slot = (w, b)
  · subst hslot
    rw [Function.update_self, h.kept hready]
  · rw [Function.update_of_ne hslot]

theorem WorkerEffect.statuses_self (h : WorkerEffect s w s' b buf pc) :
    s'.statuses w = Function.update (s.statuses w) b buf.status := by
  funext b'
  rw [BuildState.statuses, h.buffers]
  by_cases hb : b' = b
  · subst hb
    rw [Function.update_self, Function.update_self]
  · rw [Function.update_of_ne (by simp [hb]), Function.update_of_ne hb]
    rfl

theorem WorkerEffect.statuses_of_ne (h : WorkerEffect s w s' b buf pc) {w' : Fin n}
    (hne : w' ≠ w) : s'.statuses w' = s.statuses w' := by
  funext b'
  rw [BuildState.statuses, h.buffers, Function.update_of_ne (by simp [hne])]
  rfl

theorem StatusInv.worker (inv : StatusInv s) (h : WorkerEffect s w s' b buf pc) : StatusInv s' where
  fits := by
    intro w'
    rw [h.workers]
    by_cases hne : w' = w
    · subst hne
      rw [Function.update_self, h.statuses_self]
      exact h.fits
    · rw [Function.update_of_ne hne, h.statuses_of_ne hne]
      exact inv.fits w'
  ready := by
    intro slot hslot
    rw [h.leader] at hslot
    have hready := inv.ready slot hslot
    rw [h.buffers_of_ready hready]
    exact hready
  nodup := by
    rw [h.leader]
    exact inv.nodup
  count := by
    rw [h.count, h.workers, card_doneWorkers_update h.notDone, inv.count]

end WorkerFrame

/-- The leader may empty a ready buffer behind its worker's back. -/
private theorem WorkerPc.Fits.clear {pc : WorkerPc Value} {status : Bool → BufferStatus}
    (h : pc.Fits status) {b : Bool} (hready : status b = .ready) :
    pc.Fits (Function.update status b .empty) := by
  have hactive : ∀ a, status a = .filling ∧ (status (!a) = .empty ∨ status (!a) = .ready) →
      Function.update status b .empty a = .filling ∧
        (Function.update status b .empty (!a) = .empty ∨
          Function.update status b .empty (!a) = .ready) := by
    rintro a ⟨hfill, hother⟩
    have hab : a ≠ b := by
      rintro rfl
      rw [hready] at hfill
      cases hfill
    rw [Function.update_of_ne hab, show (!a) = b from (Bool.eq_not.2 hab.symm).symm,
      Function.update_self]
    exact ⟨hfill, Or.inl rfl⟩
  have hidle : (∀ b', status b' = .empty ∨ status b' = .ready) →
      ∀ b', Function.update status b .empty b' = .empty ∨
        Function.update status b .empty b' = .ready := by
    intro hall b'
    by_cases hb : b' = b
    · subst hb
      exact Or.inl (Function.update_self _ _ _)
    · rw [Function.update_of_ne hb]
      exact hall b'
  cases pc with
  | start =>
      have hempty := h b
      rw [hready] at hempty
      cases hempty
  | scanning a => exact hactive a h
  | gotTuple a _ _ => exact hactive a h
  | waiting _ _ _ => exact hidle h
  | processing a _ _ => exact hactive a h
  | marking a => exact hactive a h
  | counting => exact hidle h
  | done => exact hidle h

theorem StatusInv.leader {s s' : BuildState n Value Term} (inv : StatusInv s)
    (h : LeaderEffect s s') : StatusInv s' := by
  have hnodup := inv.nodup
  have hready := inv.ready
  cases h with
  | @look slot rest ready ready' hpc hfound =>
      rw [hpc] at hnodup hready
      rcases hfound with ⟨hstatus, rfl⟩ | rfl
      · refine ⟨inv.fits, ?_, ?_, inv.count⟩
        · intro slot' hslot'
          rcases List.mem_append.1 hslot' with hold | hnew
          · exact hready slot' hold
          · rw [List.mem_singleton.1 hnew]
            exact hstatus
        · show ((ready ++ [slot]) ++ rest).Nodup
          rw [List.append_assoc]
          exact hnodup
      · refine ⟨inv.fits, hready, ?_, inv.count⟩
        exact hnodup.sublist ((List.sublist_cons_self slot rest).append_left _)
  | read hpc =>
      rw [hpc] at hnodup hready
      exact ⟨inv.fits, hready, hnodup, inv.count⟩
  | mergeNone hpc hmerged =>
      rw [hpc] at hnodup hready
      exact ⟨inv.fits, hready, hnodup, inv.count⟩
  | mergeSome hpc hmerged =>
      rw [hpc] at hnodup hready
      exact ⟨inv.fits, hready, hnodup, inv.count⟩
  | @clear slot rest allDone hpc =>
      rw [hpc] at hnodup hready
      have hne : ∀ slot' ∈ rest, slot' ≠ slot := by
        rintro slot' hslot' rfl
        exact (List.nodup_cons.1 (List.nodup_append.1 hnodup).1).1 hslot'
      refine ⟨?_, ?_, ?_, inv.count⟩
      · intro w
        by_cases hw : w = slot.1
        · subst hw
          have hstat : BuildState.statuses
              { s.setBuffer slot { clearWorkerBuffer (s.buffers slot) with status := .empty } with
                leader := .clearing rest allDone } slot.1 =
              Function.update (s.statuses slot.1) slot.2 .empty := by
            funext b
            by_cases hb : b = slot.2
            · subst hb
              simp [BuildState.statuses, BuildState.setBuffer]
            · have hslot : (slot.1, b) ≠ slot := fun heq => hb (congrArg Prod.snd heq)
              simp [BuildState.statuses, BuildState.setBuffer, Function.update_of_ne hslot,
                Function.update_of_ne hb]
          rw [hstat]
          exact (inv.fits slot.1).clear (hready slot List.mem_cons_self)
        · have hstat : BuildState.statuses
              { s.setBuffer slot { clearWorkerBuffer (s.buffers slot) with status := .empty } with
                leader := .clearing rest allDone } w = s.statuses w := by
            funext b
            have hslot : (w, b) ≠ slot := fun heq => hw (congrArg Prod.fst heq)
            simp [BuildState.statuses, BuildState.setBuffer, Function.update_of_ne hslot]
          rw [hstat]
          exact inv.fits w
      · intro slot' hslot'
        show (Function.update s.buffers slot _ slot').status = .ready
        rw [Function.update_of_ne (hne slot' hslot')]
        exact hready slot' (List.mem_cons_of_mem _ hslot')
      · exact hnodup.sublist ((List.sublist_cons_self slot rest).append_right _)
  | again _ => exact ⟨inv.fits, fun _ hslot => (nomatch hslot), nodup_allSlots, inv.count⟩
  | finish _ => exact ⟨inv.fits, fun _ hslot => (nomatch hslot), List.nodup_nil, inv.count⟩

/-! ## The scan -/

/-- Every tuple is handed out once: the CTIDs of the documents put so far and of the
tuples in flight are pairwise distinct. -/
structure ScanInv (s : BuildState n Value Term) : Prop where
  nodup : (s.put.map WorkerDoc.ctid).Nodup
  put : ∀ d ∈ s.put, d.ctid ∈ s.scanned
  flight : ∀ w c, (s.workers w).inFlight = some c → c ∈ s.scanned ∧ c ∉ s.put.map WorkerDoc.ctid
  unique : ∀ w w' c, (s.workers w).inFlight = some c → (s.workers w').inFlight = some c → w = w'

omit [DecidableEq Term] in
theorem scanInv_init : ScanInv (BuildState.init : BuildState n Value Term) where
  nodup := List.nodup_nil
  put := fun _ h => nomatch h
  flight := fun _ _ h => nomatch h
  unique := fun _ _ _ h => nomatch h

theorem ScanInv.worker {s s' : BuildState n Value Term} {w : Fin n} {b : Bool}
    {buf : WorkerBuffer Term} {pc : WorkerPc Value} (inv : ScanInv s)
    (h : WorkerEffect s w s' b buf pc) : ScanInv s' := by
  have hworkers : ∀ w', w' ≠ w → s'.workers w' = s.workers w' := by
    intro w' hne
    rw [h.workers, Function.update_of_ne hne]
  have hself : s'.workers w = pc := by rw [h.workers, Function.update_self]
  rcases h.flight with ⟨hscan, hsub⟩ | ⟨c, hnew, hscan, hpc⟩
  · -- no new tuple: what is in flight was in flight
    have hold : ∀ w' c, (s'.workers w').inFlight = some c → (s.workers w').inFlight = some c := by
      intro w' c hc
      by_cases hne : w' = w
      · subst hne
        rw [hself] at hc
        exact hsub c hc
      · rwa [hworkers w' hne] at hc
    have hunique : ∀ w₁ w₂ c, (s'.workers w₁).inFlight = some c →
        (s'.workers w₂).inFlight = some c → w₁ = w₂ :=
      fun w₁ w₂ c h₁ h₂ => inv.unique w₁ w₂ c (hold w₁ c h₁) (hold w₂ c h₂)
    rcases h.contents with ⟨hput, -⟩ | ⟨doc, hput, -, hflight, hnone, -⟩
    · refine ⟨?_, ?_, ?_, hunique⟩
      · rw [hput]
        exact inv.nodup
      · rw [hput, hscan]
        exact inv.put
      · rw [hput, hscan]
        exact fun w' c hc => inv.flight w' c (hold w' c hc)
    · obtain ⟨hscanned, hfresh⟩ := inv.flight w doc.ctid hflight
      refine ⟨?_, ?_, ?_, hunique⟩
      · rw [hput, List.map_append, List.map_singleton]
        exact List.Nodup.append inv.nodup (List.nodup_singleton _) (by simpa using hfresh)
      · rw [hput, hscan]
        intro d hd
        rcases List.mem_append.1 hd with hd | hd
        · exact inv.put d hd
        · rw [List.mem_singleton.1 hd]
          exact hscanned
      · intro w' c hc
        have hwas := hold w' c hc
        rw [hput, hscan, List.map_append, List.mem_append]
        refine ⟨(inv.flight w' c hwas).1, ?_⟩
        rintro (hmem | hmem)
        · exact (inv.flight w' c hwas).2 hmem
        · have hcd : c = doc.ctid := by simpa using hmem
          have hww : w' = w := inv.unique w' w c hwas (hcd ▸ hflight)
          rw [hww, hself, hnone] at hc
          cases hc
  · -- the next tuple: its CTID has not been handed out
    have hput : s'.put = s.put := by
      rcases h.contents with ⟨hput, -⟩ | ⟨doc, -, -, -, hnone, -⟩
      · exact hput
      · rw [hpc] at hnone
        cases hnone
    have hflight : ∀ w' c', (s'.workers w').inFlight = some c' →
        w' = w ∧ c' = c ∨ w' ≠ w ∧ (s.workers w').inFlight = some c' := by
      intro w' c' hc'
      by_cases hne : w' = w
      · subst hne
        rw [hself, hpc] at hc'
        exact Or.inl ⟨rfl, (Option.some.inj hc').symm⟩
      · rw [hworkers w' hne] at hc'
        exact Or.inr ⟨hne, hc'⟩
    refine ⟨?_, ?_, ?_, ?_⟩
    · rw [hput]
      exact inv.nodup
    · rw [hput, hscan]
      exact fun d hd => List.mem_cons_of_mem _ (inv.put d hd)
    · intro w' c' hc'
      rw [hput, hscan]
      rcases hflight w' c' hc' with ⟨-, rfl⟩ | ⟨-, hold⟩
      · refine ⟨List.mem_cons_self, fun hmem => ?_⟩
        obtain ⟨d, hd, hdc⟩ := List.mem_map.1 hmem
        exact hnew (hdc ▸ inv.put d hd)
      · exact ⟨List.mem_cons_of_mem _ (inv.flight w' c' hold).1, (inv.flight w' c' hold).2⟩
    · intro w₁ w₂ c' h₁ h₂
      rcases hflight w₁ c' h₁ with ⟨rfl, rfl⟩ | ⟨-, hold₁⟩
      · rcases hflight w₂ _ h₂ with ⟨rfl, -⟩ | ⟨-, hold₂⟩
        · rfl
        · exact absurd (inv.flight w₂ _ hold₂).1 hnew
      · rcases hflight w₂ c' h₂ with ⟨rfl, rfl⟩ | ⟨-, hold₂⟩
        · exact absurd (inv.flight w₁ _ hold₁).1 hnew
        · exact inv.unique w₁ w₂ c' hold₁ hold₂

theorem ScanInv.leader {s s' : BuildState n Value Term} (inv : ScanInv s)
    (h : LeaderEffect s s') : ScanInv s' := by
  cases h <;> exact ⟨inv.nodup, inv.put, inv.flight, inv.unique⟩

/-! ## The end of the build -/

/-- Whether the leader has found all workers done. -/
def LeaderPc.allDone : LeaderPc n → Bool
  | .deciding _ allDone | .clearing _ allDone => allDone
  | .returned => true
  | .scanning _ _ => false

/-- Once the leader has found all workers done, it has collected what is ready. -/
def EndInv (s : BuildState n Value Term) : Prop :=
  s.leader.allDone = true → (∀ w, (s.workers w).isDone = true) ∧
    ∀ slot, (s.buffers slot).status = .ready → (s.buffers slot).numDocs ≠ 0 → slot ∈ s.leader.held

theorem EndInv.worker {s s' : BuildState n Value Term} {w : Fin n} {b : Bool}
    {buf : WorkerBuffer Term} {pc : WorkerPc Value} (inv : EndInv s)
    (h : WorkerEffect s w s' b buf pc) : EndInv s' := by
  intro hall
  rw [h.leader] at hall
  have hdone := (inv hall).1 w
  rw [h.notDone] at hdone
  cases hdone

omit [DecidableEq Term] in
private theorem isDone_of_count {s : BuildState n Value Term} (inv : StatusInv s)
    (hcount : s.workersDone ≥ n) (w : Fin n) : (s.workers w).isDone = true := by
  have huniv : doneWorkers s.workers = Finset.univ := by
    apply Finset.eq_univ_of_card
    rw [Fintype.card_fin]
    have hle := Finset.card_le_univ (doneWorkers s.workers)
    rw [Fintype.card_fin] at hle
    have := inv.count
    omega
  have hmem : w ∈ doneWorkers s.workers := huniv ▸ Finset.mem_univ w
  exact (Finset.mem_filter.1 hmem).2

theorem EndInv.leader {s s' : BuildState n Value Term} (inv : EndInv s) (hstatus : StatusInv s)
    (hok : CollectedAll s (.leader : BuildAct n Value)) (h : LeaderEffect s s') : EndInv s' := by
  unfold EndInv at inv
  cases h with
  | look _ _ => exact fun hall => (nomatch hall)
  | @read ready hpc =>
      intro hall
      have hcount : s.workersDone ≥ n := by
        simpa [LeaderPc.allDone] using hall
      have hdone : ∀ w, (s.workers w).isDone = true := isDone_of_count hstatus hcount
      exact ⟨hdone, hok ready hpc hcount⟩
  | mergeNone hpc _ =>
      rw [hpc] at inv
      exact inv
  | mergeSome hpc _ =>
      rw [hpc] at inv
      exact inv
  | @clear slot rest allDone hpc =>
      rw [hpc] at inv
      intro hall
      refine ⟨(inv hall).1, fun slot' hready hdocs => ?_⟩
      by_cases hslot : slot' = slot
      · subst hslot
        simp [BuildState.setBuffer] at hready
      · simp only [BuildState.setBuffer, Function.update_of_ne hslot] at hready hdocs
        rcases List.mem_cons.1 ((inv hall).2 slot' hready hdocs) with heq | hmem
        · exact absurd heq hslot
        · exact hmem
  | again _ => exact fun hall => (nomatch hall)
  | finish hpc =>
      intro _
      rcases hpc with hpc | hpc
      · rw [hpc] at inv
        exact inv rfl
      · rw [hpc] at inv
        exact inv rfl

/-! ## Where the documents are -/

/-- The buffers whose documents are in a segment already. -/
def LeaderPc.pending : LeaderPc n → List (Slot n)
  | .clearing rest _ => rest
  | _ => []

/-- The documents of the buffers that are not in a segment yet. -/
def liveDocs (pending : List (Slot n)) (bufDocs : Slot n → List (WorkerDoc Term)) :
    Multiset (WorkerDoc Term) :=
  ∑ slot, if slot ∈ pending then 0 else (bufDocs slot : Multiset (WorkerDoc Term))

/-- The documents of each buffer and of each segment, and together they are the
documents put. -/
structure DocsInv (s : BuildState n Value Term) (bufDocs : Slot n → List (WorkerDoc Term))
    (segDocs : List (List (WorkerDoc Term))) : Prop where
  holds : ∀ slot, Holds (s.buffers slot) (bufDocs slot)
  empty : ∀ slot, (s.buffers slot).status = .empty → bufDocs slot = []
  segs : List.Forall₂ SegHolds s.segments segDocs
  conserved : (s.put : Multiset (WorkerDoc Term)) =
    segDocs.flatten + liveDocs s.leader.pending bufDocs
  totalDocs : s.totalDocs = segDocs.flatten.length % 2 ^ 32
  totalLen : s.totalLen = (segDocs.flatten.map fun d => d.terms.docLength).sum

theorem docsInv_init :
    DocsInv (BuildState.init : BuildState n Value Term) (fun _ => []) [] where
  holds := fun _ => holds_init
  empty := fun _ _ => rfl
  segs := List.Forall₂.nil
  conserved := by simp [BuildState.init, LeaderPc.pending, liveDocs]
  totalDocs := rfl
  totalLen := rfl

omit [DecidableEq Term] in
private theorem liveDocs_congr {pending pending' : List (Slot n)}
    {bufDocs bufDocs' : Slot n → List (WorkerDoc Term)}
    (h : ∀ slot, (if slot ∈ pending then [] else bufDocs slot) =
      if slot ∈ pending' then [] else bufDocs' slot) :
    liveDocs pending bufDocs = liveDocs pending' bufDocs' := by
  apply Finset.sum_congr rfl
  intro slot _
  have := congrArg (fun l : List (WorkerDoc Term) => (l : Multiset (WorkerDoc Term))) (h slot)
  simpa only [apply_ite, Multiset.coe_nil] using this

omit [DecidableEq Term] in
private theorem liveDocs_put {pending : List (Slot n)} (bufDocs : Slot n → List (WorkerDoc Term))
    {slot : Slot n} (hslot : slot ∉ pending) (doc : WorkerDoc Term) :
    liveDocs pending (Function.update bufDocs slot (bufDocs slot ++ [doc])) =
      liveDocs pending bufDocs + {doc} := by
  unfold liveDocs
  rw [← Finset.add_sum_erase _ _ (Finset.mem_univ slot),
    ← Finset.add_sum_erase Finset.univ (fun slot => if slot ∈ pending then 0
      else (bufDocs slot : Multiset (WorkerDoc Term))) (Finset.mem_univ slot)]
  have hrest : ∀ slot' ∈ Finset.univ.erase slot,
      (if slot' ∈ pending then 0 else
        (Function.update bufDocs slot (bufDocs slot ++ [doc]) slot' : Multiset (WorkerDoc Term))) =
      if slot' ∈ pending then 0 else (bufDocs slot' : Multiset (WorkerDoc Term)) := by
    intro slot' hmem
    rw [Function.update_of_ne (Finset.ne_of_mem_erase hmem)]
  rw [Finset.sum_congr rfl hrest, if_neg hslot, if_neg hslot, Function.update_self,
    ← Multiset.coe_add, Multiset.coe_singleton, add_right_comm]

omit [DecidableEq Term] in
private theorem coe_flatten_map (ready : List (Slot n)) (bufDocs : Slot n → List (WorkerDoc Term)) :
    ((ready.map bufDocs).flatten : Multiset (WorkerDoc Term)) =
      (ready.map fun slot => (bufDocs slot : Multiset (WorkerDoc Term))).sum := by
  induction ready with
  | nil => rfl
  | cons slot rest ih =>
      rw [List.map_cons, List.flatten_cons, ← Multiset.coe_add, ih, List.map_cons, List.sum_cons]

omit [DecidableEq Term] in
/-- Collecting buffers for a segment. -/
private theorem liveDocs_collect {ready : List (Slot n)} (hnodup : ready.Nodup)
    (bufDocs : Slot n → List (WorkerDoc Term)) :
    liveDocs [] bufDocs = (ready.map bufDocs).flatten + liveDocs ready bufDocs := by
  rw [coe_flatten_map, ← List.sum_toFinset _ hnodup]
  have hready : ∑ slot ∈ ready.toFinset, (bufDocs slot : Multiset (WorkerDoc Term)) =
      ∑ slot, if slot ∈ ready then (bufDocs slot : Multiset (WorkerDoc Term)) else 0 := by
    rw [← Finset.sum_filter]
    congr 1
    ext slot
    simp
  rw [hready, liveDocs, liveDocs, ← Finset.sum_add_distrib]
  apply Finset.sum_congr rfl
  intro slot _
  by_cases hmem : slot ∈ ready
  · simp [hmem]
  · simp [hmem]

/-- A document of a buffer that is not in a segment yet has been put. -/
theorem DocsInv.mem_put {s : BuildState n Value Term} {bufDocs : Slot n → List (WorkerDoc Term)}
    {segDocs : List (List (WorkerDoc Term))} (inv : DocsInv s bufDocs segDocs) {slot : Slot n}
    (hslot : slot ∉ s.leader.pending) {d : WorkerDoc Term} (hd : d ∈ bufDocs slot) : d ∈ s.put := by
  rw [← Multiset.mem_coe, inv.conserved, Multiset.mem_add]
  right
  refine Multiset.mem_sum.2 ⟨slot, Finset.mem_univ slot, ?_⟩
  rw [if_neg hslot]
  exact hd

omit [DecidableEq Term] in
private theorem pending_subset_held (leader : LeaderPc n) : leader.pending ⊆ leader.held := by
  cases leader with
  | clearing rest allDone => exact List.Subset.refl _
  | _ => exact List.nil_subset _

theorem DocsInv.worker {s s' : BuildState n Value Term} {w : Fin n} {b : Bool}
    {buf : WorkerBuffer Term} {pc : WorkerPc Value} {bufDocs : Slot n → List (WorkerDoc Term)}
    {segDocs : List (List (WorkerDoc Term))} (inv : DocsInv s bufDocs segDocs)
    (hstatus : StatusInv s) (hscan : ScanInv s) (h : WorkerEffect s w s' b buf pc) :
    ∃ bufDocs', DocsInv s' bufDocs' segDocs := by
  have hsegs : List.Forall₂ SegHolds s'.segments segDocs := h.segments ▸ inv.segs
  have hdocs : s'.totalDocs = segDocs.flatten.length % 2 ^ 32 := h.totals.1.trans inv.totalDocs
  have hlen : s'.totalLen = (segDocs.flatten.map fun d => d.terms.docLength).sum :=
    h.totals.2.trans inv.totalLen
  rcases h.contents with ⟨hput, status, rfl, hempty⟩ | ⟨doc, hput, rfl, hflight, -, hfill⟩
  · refine ⟨bufDocs, ?_, ?_, hsegs, ?_, hdocs, hlen⟩
    · intro slot
      rw [h.buffers]
      by_cases hslot : slot = (w, b)
      · subst hslot
        rw [Function.update_self]
        exact holds_setStatus (inv.holds _) status
      · rw [Function.update_of_ne hslot]
        exact inv.holds slot
    · intro slot hslotEmpty
      rw [h.buffers] at hslotEmpty
      by_cases hslot : slot = (w, b)
      · subst hslot
        rw [Function.update_self] at hslotEmpty
        rcases hempty hslotEmpty with hwas | hnone
        · exact inv.empty _ hwas
        · exact List.length_eq_zero_iff.1 ((inv.holds _).numDocs.symm.trans hnone)
      · rw [Function.update_of_ne hslot] at hslotEmpty
        exact inv.empty slot hslotEmpty
    · rw [hput, h.leader]
      exact inv.conserved
  · have hpending : (w, b) ∉ s.leader.pending := by
      intro hmem
      have hready := hstatus.ready (w, b) (pending_subset_held _ hmem)
      rw [hfill] at hready
      cases hready
    have hnew : doc.ctid ∉ (bufDocs (w, b)).map WorkerDoc.ctid := by
      intro hmem
      obtain ⟨d, hd, hctid⟩ := List.mem_map.1 hmem
      exact (hscan.flight w doc.ctid hflight).2
        (List.mem_map.2 ⟨d, inv.mem_put hpending hd, hctid⟩)
    refine ⟨Function.update bufDocs (w, b) (bufDocs (w, b) ++ [doc]), ?_, ?_, hsegs, ?_, hdocs,
      hlen⟩
    · intro slot
      rw [h.buffers]
      by_cases hslot : slot = (w, b)
      · subst hslot
        rw [Function.update_self, Function.update_self]
        exact (inv.holds _).putDocument hnew
      · rw [Function.update_of_ne hslot, Function.update_of_ne hslot]
        exact inv.holds slot
    · intro slot hslotEmpty
      rw [h.buffers] at hslotEmpty
      by_cases hslot : slot = (w, b)
      · subst hslot
        rw [Function.update_self] at hslotEmpty
        exact absurd (hfill.symm.trans hslotEmpty) (by decide)
      · rw [Function.update_of_ne hslot] at hslotEmpty ⊢
        exact inv.empty slot hslotEmpty
    · rw [hput, h.leader, liveDocs_put bufDocs hpending, ← Multiset.coe_add,
        Multiset.coe_singleton, inv.conserved, add_assoc]

private theorem foldl_numDocs {buffers : List (WorkerBuffer Term)}
    {docs : List (List (WorkerDoc Term))} (h : List.Forall₂ Holds buffers docs) (total : Nat) :
    buffers.foldl (fun total b => (total + b.numDocs) % 2 ^ 32) (total % 2 ^ 32) =
      (total + docs.flatten.length) % 2 ^ 32 := by
  induction h generalizing total with
  | nil => rfl
  | cons hb _ ih =>
      rw [List.foldl_cons, Nat.mod_add_mod, ih, hb.numDocs, List.flatten_cons, List.length_append,
        Nat.add_assoc]

private theorem foldl_totalLen {buffers : List (WorkerBuffer Term)}
    {docs : List (List (WorkerDoc Term))} (h : List.Forall₂ Holds buffers docs) (total : Nat) :
    buffers.foldl (fun total b => total + b.totalLen) total =
      total + (docs.flatten.map fun d => d.terms.docLength).sum := by
  induction h generalizing total with
  | nil => rfl
  | cons hb _ ih =>
      rw [List.foldl_cons, ih, hb.totalLen, List.flatten_cons, List.map_append, List.sum_append,
        Nat.add_assoc]

section Merge

variable {s : BuildState n Value Term} {bufDocs : Slot n → List (WorkerDoc Term)}
  {segDocs : List (List (WorkerDoc Term))} {ready : List (Slot n)} {allDone : Bool}

/-- What a merge moves from the buffers to the segments. -/
private theorem DocsInv.conserved_collect (inv : DocsInv s bufDocs segDocs) (hstatus : StatusInv s)
    (hpc : s.leader = .deciding ready allDone) :
    (s.put : Multiset (WorkerDoc Term)) =
      segDocs.flatten + ((ready.map bufDocs).flatten + liveDocs ready bufDocs) := by
  have hnodup := hstatus.nodup
  have hconserved := inv.conserved
  rw [hpc] at hnodup hconserved
  have hready : ready.Nodup := (List.nodup_append.1 hnodup).1
  rw [← liveDocs_collect hready]
  exact hconserved

private theorem DocsInv.merge_spec (inv : DocsInv s bufDocs segDocs) (hstatus : StatusInv s)
    (hscan : ScanInv s) (hpc : s.leader = .deciding ready allDone)
    {result : Option (SegmentContents Term)}
    (hmerged : tpMergeWorkerBuffersToSegment (ready.map s.buffers) = .ok result) :
    (result = none → (ready.map bufDocs).flatten = []) ∧
      ∀ seg, result = some seg → SegHolds seg (ready.map bufDocs).flatten := by
  refine tpMergeWorkerBuffersToSegment_spec ?_ ?_ hmerged
  · rw [List.forall₂_map_left_iff, List.forall₂_map_right_iff, List.forall₂_same]
    exact fun slot _ => inv.holds slot
  · have hnodup : ((s.put : Multiset (WorkerDoc Term)).map WorkerDoc.ctid).Nodup := hscan.nodup
    rw [inv.conserved_collect hstatus hpc] at hnodup
    have hle : ((ready.map bufDocs).flatten : Multiset (WorkerDoc Term)) ≤
        segDocs.flatten + ((ready.map bufDocs).flatten + liveDocs ready bufDocs) :=
      le_trans (Multiset.le_add_right _ _) (Multiset.le_add_left _ _)
    exact Multiset.nodup_of_le (Multiset.map_le_map hle) hnodup

end Merge

theorem DocsInv.leader {s s' : BuildState n Value Term} {bufDocs : Slot n → List (WorkerDoc Term)}
    {segDocs : List (List (WorkerDoc Term))} (inv : DocsInv s bufDocs segDocs)
    (hstatus : StatusInv s) (hscan : ScanInv s) (h : LeaderEffect s s') :
    ∃ bufDocs' segDocs', DocsInv s' bufDocs' segDocs' := by
  have hconserved := inv.conserved
  cases h with
  | look hpc _ =>
      rw [hpc] at hconserved
      exact ⟨bufDocs, segDocs, inv.holds, inv.empty, inv.segs, hconserved, inv.totalDocs,
        inv.totalLen⟩
  | read hpc =>
      rw [hpc] at hconserved
      exact ⟨bufDocs, segDocs, inv.holds, inv.empty, inv.segs, hconserved, inv.totalDocs,
        inv.totalLen⟩
  | @mergeNone ready allDone hpc hmerged =>
      have hnil := (inv.merge_spec hstatus hscan hpc hmerged).1 rfl
      refine ⟨bufDocs, segDocs, inv.holds, inv.empty, inv.segs, ?_, inv.totalDocs, inv.totalLen⟩
      have hput := inv.conserved_collect hstatus hpc
      rw [hnil, Multiset.coe_nil, zero_add] at hput
      exact hput
  | @mergeSome ready allDone seg hpc hmerged =>
      have hseg := (inv.merge_spec hstatus hscan hpc hmerged).2 seg rfl
      have hbuffers : List.Forall₂ Holds (ready.map s.buffers) (ready.map bufDocs) := by
        rw [List.forall₂_map_left_iff, List.forall₂_map_right_iff, List.forall₂_same]
        exact fun slot _ => inv.holds slot
      have hflat : (segDocs ++ [(ready.map bufDocs).flatten]).flatten =
          segDocs.flatten ++ (ready.map bufDocs).flatten := by simp
      refine ⟨bufDocs, segDocs ++ [(ready.map bufDocs).flatten], inv.holds, inv.empty, ?_, ?_, ?_,
        ?_⟩
      · exact List.rel_append inv.segs (List.Forall₂.cons hseg List.Forall₂.nil)
      · rw [hflat, ← Multiset.coe_add, add_assoc]
        exact inv.conserved_collect hstatus hpc
      · rw [hflat, List.length_append]
        show (ready.map s.buffers).foldl _ s.totalDocs = _
        rw [inv.totalDocs, foldl_numDocs hbuffers]
      · rw [hflat, List.map_append, List.sum_append]
        show (ready.map s.buffers).foldl _ s.totalLen = _
        rw [inv.totalLen, foldl_totalLen hbuffers]
  | @clear slot rest allDone hpc =>
      have hnodup := hstatus.nodup
      rw [hpc] at hconserved hnodup
      have hslotNot : slot ∉ rest := (List.nodup_cons.1 (List.nodup_append.1 hnodup).1).1
      refine ⟨Function.update bufDocs slot [], segDocs, ?_, ?_, inv.segs, ?_, inv.totalDocs,
        inv.totalLen⟩
      · intro slot'
        by_cases hslot : slot' = slot
        · subst hslot
          simp only [BuildState.setBuffer, Function.update_self]
          exact holds_setStatus (holds_clearWorkerBuffer _) _
        · simp only [BuildState.setBuffer, Function.update_of_ne hslot]
          exact inv.holds slot'
      · intro slot' hempty
        by_cases hslot : slot' = slot
        · subst hslot
          exact Function.update_self _ _ _
        · simp only [BuildState.setBuffer, Function.update_of_ne hslot] at hempty ⊢
          exact inv.empty slot' hempty
      · show (s.put : Multiset (WorkerDoc Term)) = _
        rw [hconserved]
        congr 1
        apply liveDocs_congr
        intro slot'
        by_cases hslot : slot' = slot
        · subst hslot
          simp [LeaderPc.pending]
        · simp [LeaderPc.pending, hslot]
  | again hpc =>
      refine ⟨bufDocs, segDocs, inv.holds, inv.empty, inv.segs, ?_, inv.totalDocs, inv.totalLen⟩
      rcases hpc with ⟨ready, hpc⟩ | hpc
      · rw [hpc] at hconserved
        exact hconserved
      · rw [hpc] at hconserved
        exact hconserved
  | finish hpc =>
      refine ⟨bufDocs, segDocs, inv.holds, inv.empty, inv.segs, ?_, inv.totalDocs, inv.totalLen⟩
      rcases hpc with hpc | hpc
      · rw [hpc] at hconserved
        exact hconserved
      · rw [hpc] at hconserved
        exact hconserved

/-! ## Whole builds -/

/-- The invariant of the build. -/
structure BuildInv (s : BuildState n Value Term) : Prop where
  status : StatusInv s
  scan : ScanInv s
  atEnd : EndInv s
  docs : ∃ bufDocs segDocs, DocsInv s bufDocs segDocs
  bound : s.put.length < 2 ^ 32

theorem buildInv_init : BuildInv (BuildState.init : BuildState n Value Term) where
  status := statusInv_init
  scan := scanInv_init
  atEnd := fun h => nomatch h
  docs := ⟨_, _, docsInv_init⟩
  bound := Nat.two_pow_pos 32

private theorem put_of_leaderEffect {s s' : BuildState n Value Term} (h : LeaderEffect s s') :
    s'.put = s.put := by
  cases h <;> rfl

private theorem put_of_not_process {cfg : Config} {an : Analyzer Value Term}
    {s s' : BuildState n Value Term} {w : Fin n} {act : WorkerAct Value}
    (h : workerStep cfg an s w act = some s') (hact : ∀ id, act ≠ .process id) :
    s'.put = s.put := by
  unfold workerStep at h
  split at h
  case h_6 id _ => exact absurd rfl (hact id)
  case h_2 =>
    split at h
    · cases h
    · cases h
      rfl
  case h_4 =>
    split at h
    · cases h
      rfl
    · cases h
      rfl
  case h_5 =>
    split at h
    · cases h
      rfl
    · cases h
  case h_9 => cases h
  all_goals
    cases h
    rfl

theorem buildInv_step {cfg : Config} {an : Analyzer Value Term} {s s' : BuildState n Value Term}
    {act : BuildAct n Value} (inv : BuildInv s) (hok : CollectedAll s act)
    (h : buildStep cfg an s act = some s') : BuildInv s' := by
  obtain ⟨bufDocs, segDocs, hdocs⟩ := inv.docs
  cases act with
  | leader =>
      have heffect := leaderStep_effect h
      refine ⟨inv.status.leader heffect, inv.scan.leader heffect,
        inv.atEnd.leader inv.status hok heffect,
        hdocs.leader inv.status inv.scan heffect, ?_⟩
      rw [put_of_leaderEffect heffect]
      exact inv.bound
  | worker w act =>
      obtain ⟨b, buf, pc, heffect⟩ := workerStep_effect (inv.status.fits w) h
      obtain ⟨bufDocs', hdocs'⟩ := hdocs.worker inv.status inv.scan heffect
      refine ⟨inv.status.worker heffect, inv.scan.worker heffect, inv.atEnd.worker heffect,
        ⟨bufDocs', segDocs, hdocs'⟩, ?_⟩
      by_cases hact : ∃ id, act = .process id
      · obtain ⟨id, rfl⟩ := hact
        have hroom : s.put.length + 1 < 2 ^ 32 := hok
        rcases heffect.contents with ⟨hput, -⟩ | ⟨doc, hput, -⟩
        · rw [hput]
          exact inv.bound
        · rw [hput, List.length_append]
          exact hroom
      · rw [put_of_not_process h fun id heq => hact ⟨id, heq⟩]
        exact inv.bound

private theorem exists_segHolds {segments : List (SegmentContents Term)}
    {segDocs : List (List (WorkerDoc Term))} (h : List.Forall₂ SegHolds segments segDocs)
    {seg : SegmentContents Term} (hmem : seg ∈ segments) : ∃ docs ∈ segDocs, SegHolds seg docs := by
  induction h with
  | nil => cases hmem
  | cons hseg _ ih =>
      rcases List.mem_cons.1 hmem with rfl | hmem
      · exact ⟨_, List.mem_cons_self, hseg⟩
      · obtain ⟨docs, hdocs, hholds⟩ := ih hmem
        exact ⟨docs, List.mem_cons_of_mem _ hdocs, hholds⟩

/-- A document of one of the segments is in no other. -/
private theorem contained_once {segments : List (SegmentContents Term)}
    {segDocs : List (List (WorkerDoc Term))} (h : List.Forall₂ SegHolds segments segDocs)
    (hnodup : (segDocs.flatten.map WorkerDoc.ctid).Nodup) {doc : WorkerDoc Term}
    (hmem : doc ∈ segDocs.flatten) :
    ∃ before seg after, segments = before ++ seg :: after ∧ Contains seg doc ∧
      ∀ other ∈ before ++ after, ¬ SegMentions other doc.ctid := by
  induction h with
  | nil => cases hmem
  | @cons seg docs segs docss hseg hrest ih =>
      rw [List.flatten_cons, List.map_append] at hnodup
      obtain ⟨hhead, htail, hdisjoint⟩ := List.nodup_append.1 hnodup
      rcases List.mem_append.1 hmem with hin | hin
      · refine ⟨[], seg, segs, rfl, hseg.contains hhead hin, fun other hother => ?_⟩
        obtain ⟨docs', hdocs', hholds⟩ := exists_segHolds hrest hother
        apply hholds.not_mentions
        intro hc
        obtain ⟨d, hd, hctid⟩ := List.mem_map.1 hc
        exact hdisjoint _ (List.mem_map.2 ⟨doc, hin, rfl⟩) _
          (List.mem_map.2 ⟨d, List.mem_flatten.2 ⟨docs', hdocs', hd⟩, hctid⟩) rfl
      · obtain ⟨before, seg', after, rfl, hcontains, hothers⟩ := ih htail hin
        refine ⟨seg :: before, seg', after, rfl, hcontains, fun other hother => ?_⟩
        rcases List.mem_cons.1 hother with rfl | hother
        · apply hseg.not_mentions
          intro hc
          exact hdisjoint _ hc _ (List.mem_map.2 ⟨doc, hin, rfl⟩) rfl
        · exact hothers other hother

/-- When the leader has returned, all documents are in segments. -/
theorem BuildInv.complete {s : BuildState n Value Term} (inv : BuildInv s)
    (hreturned : s.leader = .returned) : BuildComplete s := by
  obtain ⟨bufDocs, segDocs, hdocs⟩ := inv.docs
  have hend := inv.atEnd
  unfold EndInv at hend
  rw [hreturned] at hend
  obtain ⟨hdone, hheld⟩ := hend rfl
  have hbufs : ∀ slot, bufDocs slot = [] := by
    rintro ⟨w, b⟩
    have hfits := inv.status.fits w
    have hidle : s.statuses w b = .empty ∨ s.statuses w b = .ready := by
      cases hpc : s.workers w with
      | done =>
          rw [hpc] at hfits
          exact hfits b
      | _ =>
          have := hdone w
          rw [hpc] at this
          cases this
    rcases hidle with hempty | hready
    · exact hdocs.empty (w, b) hempty
    · by_contra hne
      have hnum : (s.buffers (w, b)).numDocs ≠ 0 := by
        rw [(hdocs.holds (w, b)).numDocs]
        exact fun h0 => hne (List.length_eq_zero_iff.1 h0)
      exact nomatch hheld (w, b) hready hnum
  have hlive : liveDocs s.leader.pending bufDocs = 0 := by
    rw [hreturned]
    simp [liveDocs, hbufs]
  have hperm : s.put.Perm segDocs.flatten := by
    rw [← Multiset.coe_eq_coe, hdocs.conserved, hlive, add_zero]
  refine ⟨fun doc hdoc => ?_, ?_, ?_⟩
  · exact contained_once hdocs.segs ((hperm.map WorkerDoc.ctid).nodup inv.scan.nodup)
      (hperm.subset hdoc)
  · rw [hdocs.totalDocs, ← hperm.length_eq, Nat.mod_eq_of_lt inv.bound]
  · rw [hdocs.totalLen]
    exact ((hperm.map fun d => d.terms.docLength).sum_eq).symm

omit [DecidableEq Term] in
/-- `CollectedAll`, by going through the buffers. -/
def collectedCheck (s : BuildState n Value Term) : BuildAct n Value → Bool
  | .leader =>
      match s.leader with
      | .scanning [] ready => s.workersDone < n || (allSlots n).all fun slot =>
          (s.buffers slot).status ≠ .ready || (s.buffers slot).numDocs == 0 || ready.contains slot
      | _ => true
  | .worker _ (.process _) => s.put.length + 1 < 2 ^ 32
  | .worker _ _ => true

theorem mem_allSlots (slot : Slot n) : slot ∈ allSlots n := by
  obtain ⟨w, b⟩ := slot
  cases b <;> simp [allSlots]

omit [DecidableEq Term] in
theorem collectedAll_of_check {s : BuildState n Value Term} {act : BuildAct n Value}
    (h : collectedCheck s act = true) : CollectedAll s act := by
  cases act with
  | leader =>
      intro ready hpc hcount slot hready hdocs
      simp only [collectedCheck, hpc, Bool.or_eq_true, decide_eq_true_eq] at h
      rcases h with hlt | hall
      · omega
      · have hslot := List.all_eq_true.1 hall slot (mem_allSlots slot)
        simpa [hready, hdocs] using hslot
  | worker w act =>
      cases act with
      | process id => exact of_decide_eq_true (p := s.put.length + 1 < 2 ^ 32) h
      | _ => trivial

/-- The steps with which a worker puts one tuple into its buffer. -/
def scanOne (w : Fin n) (ctid : ItemPointer) : List (BuildAct n (TermVector Nat)) :=
  [.worker w (.nextTuple ctid ⟨some oneWord, 0⟩), .worker w .advance, .worker w (.process 0)]

/-- The steps with which a worker finishes. -/
def finishWorker (w : Fin n) : List (BuildAct n (TermVector Nat)) :=
  [.worker w .endOfScan, .worker w .advance, .worker w .advance]

/-- One of two workers is the first. -/
instance neZeroTwoWorkers : NeZero 2 := ⟨by decide⟩

/-- Two workers: the leader looks at all buffers before any is ready; then the first
worker hands its buffer over and goes on with the other one. -/
def handOverRun : List (BuildAct 2 (TermVector Nat)) :=
  [.worker 0 .advance] ++ scanOne 0 ⟨0, 1⟩ ++ List.replicate 6 .leader ++
    [.worker 0 (.nextTuple ⟨0, 2⟩ ⟨some oneWord, 0⟩), .worker 0 .advance, .worker 0 .advance,
      .worker 0 (.process 0)] ++
    [.worker 1 .advance] ++ scanOne 1 ⟨0, 3⟩ ++ finishWorker 0 ++ finishWorker 1 ++
    List.replicate 10 .leader

/-- The worker marks its buffer ready and counts itself done between the leader's
look at the buffer and its look at the counter. -/
def lateBufferRun : List (BuildAct 1 (TermVector Nat)) :=
  [.leader, .leader] ++ [.worker 0 .advance] ++ scanOne 0 ⟨0, 1⟩ ++ finishWorker 0 ++
    [.leader, .leader]

end PgTextsearch.Am
