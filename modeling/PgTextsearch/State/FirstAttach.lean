import PgTextsearch.State.Recovery

/-!
# First use of an index after a restart (`state/state.c`, `state/registry.c`)

A backend that finds no shared state in the registry rebuilds it from disk: it
allocates a state, removes whatever is registered by then, registers its own, caches
it and replays the docid pages into it.  A backend that finds a state attaches to it.
Looking up, registering and replaying are separate steps, and the calls of several
backends interleave.

## Main results

* `agree_iff` — when all calls have returned, the backends agree on one complete state
  with each recovered document once, exactly when no backend looked up the index while
  another one was still on the way to registering it, none attached to a state whose
  replay was under way, and the docid pages record no document twice.
* `racing_backends_disagree` — two backends that both find nothing.
-/

namespace PgTextsearch.State

open PgTextsearch.Postgres PgTextsearch.Segment PgTextsearch.Verified

variable {Value Term : Type}

/-- `TpSharedIndexState` with its memtable.  `recovering` is not a field of the
structure: it says that the backend that created the state is still to replay. -/
structure SharedIndexState (Term : Type) where
  memtable : Memtable Term
  totalDocs : Nat
  totalLen : Nat
  recovering : Bool

/-- Where a backend stands in its first `tp_get_local_index_state`: it attaches to a
state found in the registry; or it rebuilds, with the address of the new state and
whether there is something to replay.  A finished call has returned a state that it
`rebuilt` or attached to, and the state was `complete` at that moment or not. -/
inductive CallPc where
  | idle
  | attaching (dp : Nat)
  | opening
  | checking (dp : Nat) (replay : Bool)
  | unregistering (dp : Nat) (replay : Bool)
  | registering (dp : Nat) (replay : Bool)
  | caching (dp : Nat) (replay : Bool)
  | replaying (dp : Nat) (rest : List ItemPointer)
  | returned (dp : Nat) (rebuilt complete : Bool)
  deriving DecidableEq

/-- The registry entry of the index, the shared states allocated, and each backend's
cache and call. -/
structure AttachState (Term : Type) where
  registry : Option Nat
  states : List (SharedIndexState Term)
  cache : Nat → Option Nat
  calls : Nat → CallPc

/-- After a restart. -/
def AttachState.init : AttachState Term where
  registry := none
  states := []
  cache := fun _ => none
  calls := fun _ => .idle

/-- Move a backend. -/
def AttachState.goto (s : AttachState Term) (backend : Nat) (pc : CallPc) : AttachState Term :=
  { s with calls := Function.update s.calls backend pc }

/-- Cache a shared state. -/
def AttachState.remember (s : AttachState Term) (backend dp : Nat) : AttachState Term :=
  { s with cache := Function.update s.cache backend (some dp) }

/-- The index after the restart: its pages and the heap that is found. -/
structure RestartedIndex (Value Term : Type) where
  cfg : Config
  an : Analyzer Value Term
  heap : Heap Value
  pages : IndexState Value Term

/-- The CTIDs on the docid pages. -/
def RestartedIndex.docids (ix : RestartedIndex Value Term) : List ItemPointer :=
  (ix.pages.docids.indexes ix.cfg.indexOid).chainDocids

/-- `tp_rebuild_index_from_disk` replays the docid pages, unless the heap is empty
though the metapage counts documents, or the index is empty. -/
def RestartedIndex.replays (ix : RestartedIndex Value Term) : Bool :=
  !(decide (ix.heap.nblocks = 0) && decide (0 < ix.pages.metaTotalDocs)) &&
    !(decide (ix.pages.metaTotalDocs = 0) &&
      (ix.pages.docids.indexes ix.cfg.indexOid).firstDocidPage.isNone &&
      (ix.pages.levels 0).isEmpty)

/-- The state returned is complete. -/
def AttachState.isComplete (s : AttachState Term) (dp : Nat) : Bool :=
  match s.states[dp]? with
  | none => false
  | some st => !st.recovering

variable [DecidableEq Term]

/-- What follows the replay: the totals of the metapage, the tenant statistics on
disk. -/
def finishRebuild (ix : RestartedIndex Value Term) (st : SharedIndexState Term) :
    SharedIndexState Term where
  memtable :=
    match ix.cfg.hasTenantColumn, ix.pages.tenantStatsPages with
    | true, some entries => tpReadTenantStatsPages st.memtable entries
    | _, _ => st.memtable
  totalDocs := ix.pages.metaTotalDocs
  totalLen := ix.pages.metaTotalLen
  recovering := false

/-- The next step of a backend's call of `tp_get_local_index_state`. -/
def attachStep (ix : RestartedIndex Value Term) (s : AttachState Term) (backend : Nat) :
    Option (AttachState Term) :=
  match s.calls backend with
  | .idle =>
      match s.cache backend with
      | some dp => some (s.goto backend (.returned dp false (s.isComplete dp)))
      | none =>
          match s.registry with
          | some dp => some (s.goto backend (.attaching dp))
          | none => some (s.goto backend .opening)
  | .attaching dp =>
      some ((s.remember backend dp).goto backend (.returned dp false (s.isComplete dp)))
  | .opening =>
      -- tp_create_shared_index_state
      some { s.goto backend (.checking s.states.length ix.replays) with
        states := s.states ++ [⟨Memtable.empty, 0, 0, ix.replays⟩] }
  | .checking dp replay =>
      match s.registry with
      | some _ => some (s.goto backend (.unregistering dp replay))
      | none => some (s.goto backend (.registering dp replay))
  | .unregistering dp replay =>
      some { s.goto backend (.registering dp replay) with registry := none }
  | .registering dp replay =>
      some { s.goto backend (.caching dp replay) with registry := some dp }
  | .caching dp replay =>
      some ((s.remember backend dp).goto backend
        (if replay then .replaying dp ix.docids else .returned dp true true))
  | .replaying dp (ctid :: rest) =>
      some { s.goto backend (.replaying dp rest) with
        states := s.states.modify dp fun st =>
          { st with memtable := replayDocid ix.cfg ix.an ix.heap st.memtable ctid } }
  | .replaying dp [] =>
      some { s.goto backend (.returned dp true true) with
        states := s.states.modify dp (finishRebuild ix) }
  | .returned _ _ _ => none

/-- The recorded document can be recovered. -/
def RestartedIndex.Recovered (ix : RestartedIndex Value Term) (ctid : ItemPointer) : Prop :=
  ctid ∈ ix.docids ∧ (fetchDocument ix.cfg ix.an ix.heap ctid).isSome = true

/-- **Agreement** once all calls have returned: each backend that made a call got a
complete state and has cached the registered one, and that one holds each recovered
document exactly once. -/
def Agree (ix : RestartedIndex Value Term) (s : AttachState Term) : Prop :=
  ∀ backend got rebuilt complete, s.calls backend = .returned got rebuilt complete →
    complete = true ∧ ∃ dp st, s.cache backend = some dp ∧ s.registry = some dp ∧
      s.states[dp]? = some st ∧ ∀ ctid, ix.Recovered ctid → HoldsOnce st.memtable ctid

/-- The call has returned. -/
def CallPc.Ended : CallPc → Prop
  | .returned _ _ _ => True
  | _ => False

/-- All calls that were begun have returned, and there was one. -/
def AllReturned (s : AttachState Term) : Prop :=
  (∃ backend, s.calls backend ≠ .idle) ∧
    ∀ backend, s.calls backend = .idle ∨ (s.calls backend).Ended

/-- The call is on its way to registering a state. -/
def CallPc.Unregistered : CallPc → Prop
  | .opening | .checking _ _ | .unregistering _ _ | .registering _ _ => True
  | _ => False

/-- The condition on a step: a backend that looks up the index and finds nothing finds
no other backend on its way to registering it, and a state that is attached to is
complete. -/
def NoOverlap (s : AttachState Term) (backend : Nat) : Prop :=
  (s.calls backend = .idle → s.cache backend = none → s.registry = none →
    ∀ other, ¬ (s.calls other).Unregistered) ∧
  ∀ dp, s.calls backend = .attaching dp → s.isComplete dp = true

/-! ## Every run -/

/-- The state a rebuilding backend has created. -/
def CallPc.own : CallPc → Option Nat
  | .checking dp _ | .unregistering dp _ | .registering dp _ | .caching dp _ => some dp
  | .replaying dp _ | .returned dp true _ => some dp
  | _ => none

/-- The backend rebuilds, or has rebuilt, the index. -/
def CallPc.Rebuilds (pc : CallPc) : Prop := pc = .opening ∨ pc.own.isSome = true

/-- The state the backend has put into its cache. -/
def CallPc.cached : CallPc → Option Nat
  | .replaying dp _ | .returned dp _ _ => some dp
  | _ => none

/-- Rebuilt states differ, and caches are what the calls have put there. -/
structure CallInv (s : AttachState Term) : Prop where
  allocated : ∀ backend dp, (s.calls backend).own = some dp → dp < s.states.length
  distinct : ∀ backend other dp, (s.calls backend).own = some dp →
    (s.calls other).own = some dp → backend = other
  cached : ∀ backend, s.cache backend = (s.calls backend).cached

omit [DecidableEq Term] in
theorem callInv_init : CallInv (AttachState.init : AttachState Term) where
  allocated := fun _ _ h => nomatch h
  distinct := fun _ _ _ h => nomatch h
  cached := fun _ => rfl

/-- What a step does to the calls: it moves one that has not returned; a call that
rebuilds keeps its state, which is a new one if it has just been created. -/
structure Moves (s : AttachState Term) (backend : Nat) (s' : AttachState Term) (pc : CallPc) :
    Prop where
  calls : s'.calls = Function.update s.calls backend pc
  cache : s'.cache = Function.update s.cache backend pc.cached
  states : s.states.length ≤ s'.states.length
  own : ∀ dp, pc.own = some dp → (s.calls backend).own = some dp ∨
    dp = s.states.length ∧ dp < s'.states.length
  rebuilds : (s.calls backend).Rebuilds → pc.Rebuilds
  going : ¬ (s.calls backend).Ended

omit [DecidableEq Term] in
/-- Moving on with the state the call has. -/
private theorem moves_of_own {s s' : AttachState Term} {backend : Nat} {pc pc' : CallPc}
    (hpc : s.calls backend = pc) (hcalls : s'.calls = Function.update s.calls backend pc')
    (hcache : s'.cache = Function.update s.cache backend pc'.cached)
    (hstates : s.states.length ≤ s'.states.length) (hown : pc'.own = pc.own)
    (hopening : pc ≠ .opening) (hgoing : ¬ pc.Ended) : Moves s backend s' pc' where
  calls := hcalls
  cache := hcache
  states := hstates
  own := fun dp h => Or.inl (by rw [hpc, ← hown]; exact h)
  rebuilds := by
    rw [hpc]
    rintro (h | h)
    · exact absurd h hopening
    · exact Or.inr (by rw [hown]; exact h)
  going := by rw [hpc]; exact hgoing

theorem attachStep_moves {ix : RestartedIndex Value Term} {s s' : AttachState Term} {backend : Nat}
    (inv : CallInv s) (hstep : attachStep ix s backend = some s') :
    ∃ pc, Moves s backend s' pc := by
  have hcached := inv.cached backend
  have hkeep : ∀ {pc pc' : CallPc}, s.calls backend = pc → pc'.cached = pc.cached →
      s.cache = Function.update s.cache backend pc'.cached := by
    intro pc pc' hpc heq
    rw [heq, ← hpc, ← hcached, Function.update_eq_self]
  unfold attachStep at hstep
  cases hpc : s.calls backend with
  | idle =>
      rw [hpc] at hcached
      simp only [hpc, show s.cache backend = none from hcached] at hstep
      cases hreg : s.registry with
      | some dp =>
          simp only [hreg, Option.some.injEq] at hstep
          subst hstep
          exact ⟨_, moves_of_own hpc rfl (hkeep hpc rfl) (Nat.le_refl _) rfl nofun nofun⟩
      | none =>
          simp only [hreg, Option.some.injEq] at hstep
          subst hstep
          exact ⟨.opening,
            { calls := rfl
              cache := hkeep hpc rfl
              states := Nat.le_refl _
              own := nofun
              rebuilds := fun _ => Or.inl rfl
              going := by rw [hpc]; exact nofun }⟩
  | attaching dp =>
      simp only [hpc, Option.some.injEq] at hstep
      subst hstep
      exact ⟨_, moves_of_own hpc rfl rfl (Nat.le_refl _) rfl nofun nofun⟩
  | opening =>
      simp only [hpc, Option.some.injEq] at hstep
      subst hstep
      have hlen : ∀ st : SharedIndexState Term, (s.states ++ [st]).length = s.states.length + 1 :=
        fun st => by rw [List.length_append]; rfl
      exact ⟨.checking s.states.length ix.replays,
        { calls := rfl
          cache := hkeep hpc rfl
          states := by rw [hlen]; omega
          own := fun dp hdp => by
            cases hdp
            exact Or.inr ⟨rfl, by rw [hlen]; omega⟩
          rebuilds := fun _ => Or.inr rfl
          going := by rw [hpc]; exact nofun }⟩
  | checking dp replay =>
      simp only [hpc] at hstep
      cases hreg : s.registry with
      | some other =>
          simp only [hreg, Option.some.injEq] at hstep
          subst hstep
          exact ⟨_, moves_of_own hpc rfl (hkeep hpc rfl) (Nat.le_refl _) rfl nofun nofun⟩
      | none =>
          simp only [hreg, Option.some.injEq] at hstep
          subst hstep
          exact ⟨_, moves_of_own hpc rfl (hkeep hpc rfl) (Nat.le_refl _) rfl nofun nofun⟩
  | unregistering dp replay =>
      simp only [hpc, Option.some.injEq] at hstep
      subst hstep
      exact ⟨_, moves_of_own hpc rfl (hkeep hpc rfl) (Nat.le_refl _) rfl nofun nofun⟩
  | registering dp replay =>
      simp only [hpc, Option.some.injEq] at hstep
      subst hstep
      exact ⟨_, moves_of_own hpc rfl (hkeep hpc rfl) (Nat.le_refl _) rfl nofun nofun⟩
  | caching dp replay =>
      simp only [hpc, Option.some.injEq] at hstep
      subst hstep
      cases replay with
      | true => exact ⟨_, moves_of_own hpc rfl rfl (Nat.le_refl _) rfl nofun nofun⟩
      | false => exact ⟨_, moves_of_own hpc rfl rfl (Nat.le_refl _) rfl nofun nofun⟩
  | replaying dp rest =>
      cases rest with
      | nil =>
          simp only [hpc, Option.some.injEq] at hstep
          subst hstep
          exact ⟨_, moves_of_own hpc rfl (hkeep hpc rfl) (by rw [List.length_modify]) rfl nofun
            nofun⟩
      | cons ctid rest =>
          simp only [hpc, Option.some.injEq] at hstep
          subst hstep
          exact ⟨_, moves_of_own hpc rfl (hkeep hpc rfl) (by rw [List.length_modify]) rfl nofun
            nofun⟩
  | returned dp rebuilt complete =>
      simp only [hpc] at hstep
      cases hstep

section Moves

variable {s s' : AttachState Term} {backend : Nat} {pc : CallPc}

omit [DecidableEq Term] in
theorem Moves.self (h : Moves s backend s' pc) : s'.calls backend = pc := by
  rw [h.calls, Function.update_self]

omit [DecidableEq Term] in
theorem Moves.other (h : Moves s backend s' pc) {b : Nat} (hb : b ≠ backend) :
    s'.calls b = s.calls b := by
  rw [h.calls, Function.update_of_ne hb]

omit [DecidableEq Term] in
theorem CallInv.step (inv : CallInv s) (h : Moves s backend s' pc) : CallInv s' where
  allocated := by
    intro b dp hdp
    by_cases hb : b = backend
    · rw [hb, h.self] at hdp
      rcases h.own dp hdp with hold | ⟨-, hlt⟩
      · exact Nat.lt_of_lt_of_le (inv.allocated backend dp hold) h.states
      · exact hlt
    · rw [h.other hb] at hdp
      exact Nat.lt_of_lt_of_le (inv.allocated b dp hdp) h.states
  distinct := by
    have hnew : ∀ b dp, b ≠ backend → pc.own = some dp → (s.calls b).own ≠ some dp := by
      intro b dp hb hdp hb'
      rcases h.own dp hdp with hold | ⟨heq, -⟩
      · exact hb (inv.distinct b backend dp hb' hold)
      · have hlt := inv.allocated b dp hb'
        omega
    intro b b' dp hdp hdp'
    by_cases hb : b = backend
    · by_cases hb' : b' = backend
      · rw [hb, hb']
      · rw [hb, h.self] at hdp
        rw [h.other hb'] at hdp'
        exact absurd hdp' (hnew b' dp hb' hdp)
    · rw [h.other hb] at hdp
      by_cases hb' : b' = backend
      · rw [hb', h.self] at hdp'
        exact absurd hdp (hnew b dp hb hdp')
      · rw [h.other hb'] at hdp'
        exact inv.distinct b b' dp hdp hdp'
  cached := by
    intro b
    by_cases hb : b = backend
    · rw [hb, h.self, h.cache, Function.update_self]
    · rw [h.other hb, h.cache, Function.update_of_ne hb]
      exact inv.cached b

/-- Two backends rebuild the index, or one has got a state that was not complete. -/
def Disagree (s : AttachState Term) : Prop :=
  (∃ b b', b ≠ b' ∧ (s.calls b).Rebuilds ∧ (s.calls b').Rebuilds) ∨
    ∃ b dp rebuilt, s.calls b = .returned dp rebuilt false

omit [DecidableEq Term] in
theorem Moves.rebuilds_of (h : Moves s backend s' pc) {b : Nat} (hb : (s.calls b).Rebuilds) :
    (s'.calls b).Rebuilds := by
  by_cases heq : b = backend
  · subst heq
    rw [h.self]
    exact h.rebuilds hb
  · rw [h.other heq]
    exact hb

omit [DecidableEq Term] in
theorem Disagree.step (hd : Disagree s) (h : Moves s backend s' pc) : Disagree s' := by
  rcases hd with ⟨b, b', hne, hb, hb'⟩ | ⟨b, dp, rebuilt, hb⟩
  · exact Or.inl ⟨b, b', hne, h.rebuilds_of hb, h.rebuilds_of hb'⟩
  · refine Or.inr ⟨b, dp, rebuilt, ?_⟩
    rw [h.other, hb]
    rintro rfl
    apply h.going
    rw [hb]
    trivial

/-- Backends that disagree on the way disagree in the end. -/
theorem Disagree.not_agree {ix : RestartedIndex Value Term} (hd : Disagree s) (inv : CallInv s)
    (hall : AllReturned s) : ¬ Agree ix s := by
  intro hagree
  rcases hd with ⟨b, b', hne, hb, hb'⟩ | ⟨b, dp, rebuilt, hb⟩
  · have hended : ∀ {b : Nat}, (s.calls b).Rebuilds → ∃ dp complete,
        s.calls b = .returned dp true complete := by
      intro b hb
      have hreturned := hall.2 b
      cases hpc : s.calls b with
      | returned dp rebuilt complete =>
          cases rebuilt with
          | true => exact ⟨dp, complete, rfl⟩
          | false =>
              rw [hpc] at hb
              rcases hb with hb | hb <;> cases hb
      | idle =>
          rw [hpc] at hb
          rcases hb with hb | hb <;> cases hb
      | _ =>
          rw [hpc] at hreturned
          rcases hreturned with h | h
          · cases h
          · exact h.elim
    obtain ⟨dp, complete, hpc⟩ := hended hb
    obtain ⟨dp', complete', hpc'⟩ := hended hb'
    obtain ⟨-, got, -, hcache, hreg, -⟩ := hagree b dp true complete hpc
    obtain ⟨-, got', -, hcache', hreg', -⟩ := hagree b' dp' true complete' hpc'
    rw [inv.cached b, hpc] at hcache
    rw [inv.cached b', hpc'] at hcache'
    rw [hreg] at hreg'
    cases hcache
    cases hcache'
    cases hreg'
    exact hne (inv.distinct b b' _ (by rw [hpc]; rfl) (by rw [hpc']; rfl))
  · exact nomatch (hagree b dp rebuilt false hb).1

end Moves

/-! ## Runs without overlap -/

/-- The state as `tp_create_shared_index_state` leaves it. -/
def createdState (ix : RestartedIndex Value Term) : SharedIndexState Term :=
  ⟨Memtable.empty, 0, 0, ix.replays⟩

/-- The state after the replay of some of the recorded documents. -/
def replayedState (ix : RestartedIndex Value Term) (ctids : List ItemPointer) :
    SharedIndexState Term :=
  ⟨replayMemtable ix.cfg ix.an ix.heap ctids, 0, 0, true⟩

/-- The complete state. -/
def rebuiltState (ix : RestartedIndex Value Term) : SharedIndexState Term :=
  if ix.replays then finishRebuild ix (replayedState ix ix.docids) else createdState ix

/-- A call that only attaches, to the state `dp`. -/
def CallPc.Attaches (dp : Nat) (pc : CallPc) : Prop :=
  pc = .idle ∨ pc = .attaching dp ∨ pc = .returned dp false true

/-- How far the rebuilding backend has got: the registry, the states, its call. -/
inductive Rebuilding (ix : RestartedIndex Value Term) :
    Option Nat → List (SharedIndexState Term) → CallPc → Prop
  | opening : Rebuilding ix none [] .opening
  | checking : Rebuilding ix none [createdState ix] (.checking 0 ix.replays)
  | registering : Rebuilding ix none [createdState ix] (.registering 0 ix.replays)
  | caching : Rebuilding ix (some 0) [createdState ix] (.caching 0 ix.replays)
  | replaying {done rest : List ItemPointer} (replays : ix.replays = true)
      (split : ix.docids = done ++ rest) :
      Rebuilding ix (some 0) [replayedState ix done] (.replaying 0 rest)
  | rebuilt : Rebuilding ix (some 0) [rebuiltState ix] (.returned 0 true true)

/-- Either nothing has happened yet, or one backend rebuilds and the others attach. -/
inductive Phase (ix : RestartedIndex Value Term) (s : AttachState Term) : Prop
  | untouched (registry : s.registry = none) (states : s.states = [])
      (calls : ∀ b, s.calls b = .idle)
  | rebuild (builder : Nat) (progress : Rebuilding ix s.registry s.states (s.calls builder))
      (others : ∀ b, b ≠ builder → (s.calls b).Attaches 0)
      (late : s.registry = none → ∀ b, b ≠ builder → s.calls b = .idle)

/-- The builder is on its way to registering exactly while nothing is registered. -/
theorem Rebuilding.unregistered_iff {ix : RestartedIndex Value Term} {registry : Option Nat}
    {states : List (SharedIndexState Term)} {pc : CallPc} (h : Rebuilding ix registry states pc) :
    pc.Unregistered ↔ registry = none := by
  cases h <;> simp [CallPc.Unregistered]

/-- One step of the rebuilding backend. -/
theorem Rebuilding.step {ix : RestartedIndex Value Term} {s s' : AttachState Term} {builder : Nat}
    (h : Rebuilding ix s.registry s.states (s.calls builder))
    (hstep : attachStep ix s builder = some s') :
    Rebuilding ix s'.registry s'.states (s'.calls builder) ∧
      (s'.registry = none → s.registry = none) ∧ ∀ b, b ≠ builder → s'.calls b = s.calls b := by
  have hother : ∀ (t : AttachState Term) (pc : CallPc), ∀ b, b ≠ builder →
      (t.goto builder pc).calls b = t.calls b :=
    fun t pc b hb => Function.update_of_ne hb _ _
  have hself : ∀ (t : AttachState Term) (pc : CallPc), (t.goto builder pc).calls builder = pc :=
    fun t pc => Function.update_self _ _ _
  unfold attachStep at hstep
  generalize hreg : s.registry = registry at h
  generalize hstates : s.states = states at h
  generalize hpc : s.calls builder = pc at h
  cases h with
  | opening =>
      simp only [hpc, hstates, Option.some.injEq] at hstep
      subst hstep
      refine ⟨?_, fun _ => rfl, hother s _⟩
      show Rebuilding ix s.registry _ ((s.goto builder _).calls builder)
      rw [hself, hreg]
      exact Rebuilding.checking
  | checking =>
      simp only [hpc, hreg, Option.some.injEq] at hstep
      subst hstep
      refine ⟨?_, fun _ => rfl, hother s _⟩
      show Rebuilding ix s.registry s.states ((s.goto builder _).calls builder)
      rw [hself, hreg, hstates]
      exact Rebuilding.registering
  | registering =>
      simp only [hpc, Option.some.injEq] at hstep
      subst hstep
      refine ⟨?_, nofun, hother s _⟩
      show Rebuilding ix (some 0) s.states ((s.goto builder _).calls builder)
      rw [hself, hstates]
      exact Rebuilding.caching
  | caching =>
      simp only [hpc, Option.some.injEq] at hstep
      subst hstep
      refine ⟨?_, fun hnone => ?_, hother (s.remember builder 0) _⟩
      · show Rebuilding ix s.registry s.states
          (((s.remember builder 0).goto builder _).calls builder)
        rw [hself, hreg, hstates]
        cases hreplays : ix.replays with
        | true =>
            have hcreated : createdState ix = replayedState ix [] := by
              rw [createdState, hreplays]
              rfl
            rw [hcreated]
            exact Rebuilding.replaying hreplays rfl
        | false =>
            have hdone : createdState ix = rebuiltState ix := by
              rw [rebuiltState, hreplays]
              rfl
            rw [hdone]
            exact Rebuilding.rebuilt
      · rw [show s.registry = none from hnone] at hreg
        cases hreg
  | @replaying done rest hreplays hsplit =>
      cases rest with
      | nil =>
          simp only [hpc, hstates, Option.some.injEq] at hstep
          subst hstep
          refine ⟨?_, fun hnone => ?_, hother s _⟩
          · show Rebuilding ix s.registry _ ((s.goto builder _).calls builder)
            rw [hself, hreg]
            have hdone :
              [rebuiltState ix] = [replayedState ix done].modify 0 (finishRebuild ix) := by
              rw [rebuiltState, if_pos hreplays, hsplit, List.append_nil]
              rfl
            rw [← hdone]
            exact Rebuilding.rebuilt
          · rw [show s.registry = none from hnone] at hreg
            cases hreg
      | cons ctid rest =>
          simp only [hpc, hstates, Option.some.injEq] at hstep
          subst hstep
          refine ⟨?_, fun hnone => ?_, hother s _⟩
          · show Rebuilding ix s.registry _ ((s.goto builder _).calls builder)
            rw [hself, hreg]
            have hnext : [replayedState ix (done ++ [ctid])] =
                [replayedState ix done].modify 0 fun st =>
                  { st with memtable := replayDocid ix.cfg ix.an ix.heap st.memtable ctid } := by
              simp [replayedState, replayMemtable, List.modify]
            rw [← hnext]
            exact Rebuilding.replaying hreplays (by rw [hsplit, List.append_assoc]; rfl)
          · rw [show s.registry = none from hnone] at hreg
            cases hreg
  | rebuilt =>
      simp only [hpc] at hstep
      cases hstep

theorem phase_step {ix : RestartedIndex Value Term} {s s' : AttachState Term} {backend : Nat}
    (h : Phase ix s) (inv : CallInv s) (hok : NoOverlap s backend)
    (hstep : attachStep ix s backend = some s') : Phase ix s' := by
  have hcached := inv.cached backend
  cases h with
  | untouched hreg hstates hcalls =>
      rw [hcalls backend] at hcached
      unfold attachStep at hstep
      simp only [hcalls backend, show s.cache backend = none from hcached, hreg,
        Option.some.injEq] at hstep
      subst hstep
      have hopening : (s.goto backend .opening).calls backend = .opening :=
        Function.update_self _ _ _
      have hothers : ∀ b, b ≠ backend → (s.goto backend .opening).calls b = .idle :=
        fun b hb => (Function.update_of_ne hb _ _).trans (hcalls b)
      refine Phase.rebuild backend ?_ (fun b hb => Or.inl (hothers b hb)) fun _ b hb => hothers b hb
      rw [hopening, show (s.goto backend .opening).registry = none from hreg,
        show (s.goto backend .opening).states = [] from hstates]
      exact Rebuilding.opening
  | rebuild builder hprogress hothers hlate =>
      by_cases hb : backend = builder
      · subst hb
        obtain ⟨hprogress', hreg', hsame⟩ := hprogress.step hstep
        refine Phase.rebuild backend hprogress' (fun b hb => ?_) fun hnone b hb => ?_
        · rw [hsame b hb]
          exact hothers b hb
        · rw [hsame b hb]
          exact hlate (hreg' hnone) b hb
      · -- another backend looks up the index, or attaches
        have hmove : ∀ {pc : CallPc} {cache : Nat → Option Nat}, pc.Attaches 0 →
            s.registry ≠ none →
            Phase ix { s.goto backend pc with cache := cache } := by
          intro pc cache hpc hsome
          have hbuilder : (s.goto backend pc).calls builder = s.calls builder :=
            Function.update_of_ne (Ne.symm hb) _ _
          refine Phase.rebuild builder ?_ (fun b hne => ?_) fun hnone => absurd hnone hsome
          · show Rebuilding ix s.registry s.states ((s.goto backend pc).calls builder)
            rw [hbuilder]
            exact hprogress
          · show ((s.goto backend pc).calls b).Attaches 0
            by_cases heq : b = backend
            · subst heq
              rw [show (s.goto b pc).calls b = pc from Function.update_self _ _ _]
              exact hpc
            · rw [show (s.goto backend pc).calls b = s.calls b from Function.update_of_ne heq _ _]
              exact hothers b hne
        unfold attachStep at hstep
        rcases hothers backend hb with hpc | hpc | hpc
        · rw [hpc] at hcached
          have hcache : s.cache backend = none := hcached
          cases hreg : s.registry with
          | none =>
              have hbusy := hprogress.unregistered_iff.2 hreg
              exact absurd hbusy (hok.1 hpc hcache hreg builder)
          | some dp =>
              have hdp : dp = 0 := by
                rw [hreg] at hprogress
                generalize s.states = states at hprogress
                generalize s.calls builder = pc at hprogress
                cases hprogress <;> rfl
              subst hdp
              simp only [hpc, hcache, hreg, Option.some.injEq] at hstep
              subst hstep
              exact hmove (Or.inr (Or.inl rfl)) (by rw [hreg]; simp)
        · have hregistered : s.registry ≠ none := by
            intro hnone
            rw [hlate hnone backend hb] at hpc
            cases hpc
          simp only [hpc, hok.2 0 hpc, Option.some.injEq] at hstep
          subst hstep
          exact hmove (Or.inr (Or.inr rfl)) hregistered
        · simp only [hpc] at hstep
          cases hstep

/-! ## The recovered documents -/

theorem countP_replayed_count (cfg : Config) (an : Analyzer Value Term) (heap : Heap Value)
    (term : Term) (ctids : List ItemPointer) (ctid : ItemPointer) :
    (ctids.flatMap (replayedPostings cfg an heap term)).countP (fun p => p.ctid = ctid) =
      ctids.count ctid * (replayedPostings cfg an heap term ctid).length := by
  induction ctids with
  | nil => simp
  | cons c rest ih =>
      rw [List.flatMap_cons, List.countP_append, ih, List.count_cons]
      by_cases hc : c = ctid
      · subst hc
        have hall : (replayedPostings cfg an heap term c).countP (fun p => p.ctid = c) =
            (replayedPostings cfg an heap term c).length :=
          List.countP_eq_length.2 fun p hp => by simp [ctid_of_mem_replayedPostings hp]
        rw [hall]
        simp [Nat.add_mul, Nat.add_comm]
      · have hnone : (replayedPostings cfg an heap term c).countP (fun p => p.ctid = ctid) = 0 :=
          List.countP_eq_zero.2 fun p hp => by simp [ctid_of_mem_replayedPostings hp, hc]
        rw [hnone]
        simp [hc]

omit [DecidableEq Term] in
theorem entries_of_fetchDocument {cfg : Config} {an : Analyzer Value Term} {heap : Heap Value}
    {ctid : ItemPointer} {doc : TermVector Term × Nat}
    (h : fetchDocument cfg an heap ctid = some doc) : doc.1.entries ≠ [] := by
  unfold fetchDocument at h
  split at h
  · cases h
  split at h
  · cases h
  split at h
  · cases h
  split at h
  · cases h
  simp only at h
  split at h
  · cases h
  case isFalse hne =>
    cases h
    exact hne

/-- A document that can be recovered is held once exactly when it is recorded once. -/
theorem holdsOnce_replay_iff {ix : RestartedIndex Value Term} {ctid : ItemPointer}
    (h : ix.Recovered ctid) :
    HoldsOnce (replayMemtable ix.cfg ix.an ix.heap ix.docids) ctid ↔ ix.docids.count ctid = 1 := by
  constructor
  · intro hholds
    obtain ⟨term, p, hp, hctid⟩ := hholds.posting
    have honce := hholds.unique term
    rw [postings_replay] at hp honce
    have hpos : 0 < (ix.docids.flatMap (replayedPostings ix.cfg ix.an ix.heap term)).countP
        (fun p => p.ctid = ctid) := List.countP_pos_iff.2 ⟨p, hp, by simp [hctid]⟩
    rw [countP_replayed_count] at hpos honce
    have hlen := Nat.pos_of_mul_pos_left hpos
    have hle := Nat.le_mul_of_pos_right (ix.docids.count ctid) hlen
    have hmem := List.count_pos_iff.2 h.1
    omega
  · intro hcount
    obtain ⟨doc, hdoc⟩ := Option.isSome_iff_exists.1 h.2
    refine ⟨(docLengths_replay ix.cfg ix.an ix.heap ix.docids ctid).2 h, ?_, fun term => ?_⟩
    · obtain ⟨e, he⟩ := List.exists_mem_of_ne_nil _ (entries_of_fetchDocument hdoc)
      refine ⟨e.1, ⟨ctid, e.2, doc.2⟩, ?_, rfl⟩
      rw [postings_replay, List.mem_flatMap]
      refine ⟨ctid, h.1, ?_⟩
      rw [replayedPostings, hdoc]
      exact mem_documentPostings.2 ⟨e.2, he, rfl⟩
    · rw [postings_replay, countP_replayed_count, hcount, Nat.one_mul]
      exact length_replayedPostings_le ix.cfg ix.an ix.heap term ctid

omit [DecidableEq Term] in
/-- Without a replay there is nothing to recover. -/
theorem not_recovered_of_not_replays {ix : RestartedIndex Value Term} (h : ix.replays = false)
    (ctid : ItemPointer) : ¬ ix.Recovered ctid := by
  rintro ⟨hmem, hfetch⟩
  simp only [RestartedIndex.replays, Bool.and_eq_false_iff, Bool.not_eq_false',
    Bool.and_eq_true, decide_eq_true_eq, Option.isNone_iff_eq_none] at h
  rcases h with ⟨hheap, -⟩ | ⟨⟨-, hpages⟩, -⟩
  · have hnone : fetchDocument ix.cfg ix.an ix.heap ctid = none := by
      unfold fetchDocument
      split
      · rfl
      · rw [if_pos (by omega)]
    rw [hnone] at hfetch
    cases hfetch
  · have hnil : ix.docids = [] := by
      rw [RestartedIndex.docids, IndexPages.chainDocids, hpages]
      rfl
    rw [hnil] at hmem
    cases hmem

/-- What the complete state holds. -/
theorem holdsOnce_rebuilt_iff {ix : RestartedIndex Value Term} {ctid : ItemPointer}
    (h : ix.Recovered ctid) :
    HoldsOnce (rebuiltState ix).memtable ctid ↔ ix.docids.count ctid = 1 := by
  have hreplays : ix.replays = true := by
    by_contra hno
    exact not_recovered_of_not_replays (Bool.eq_false_of_not_eq_true hno) ctid h
  rw [← holdsOnce_replay_iff h, rebuiltState, if_pos hreplays]
  have hmemtable : (finishRebuild ix (replayedState ix ix.docids)).memtable.docLengths =
        (replayMemtable ix.cfg ix.an ix.heap ix.docids).docLengths ∧
      ∀ term, (finishRebuild ix (replayedState ix ix.docids)).memtable.postings term =
        (replayMemtable ix.cfg ix.an ix.heap ix.docids).postings term := by
    unfold finishRebuild
    simp only
    split <;> exact ⟨rfl, fun _ => rfl⟩
  constructor
  · rintro ⟨hlen, hposting, hunique⟩
    rw [hmemtable.1] at hlen
    simp only [hmemtable.2] at hposting hunique
    exact ⟨hlen, hposting, hunique⟩
  · rintro ⟨hlen, hposting, hunique⟩
    refine ⟨?_, ?_, ?_⟩
    · rw [hmemtable.1]
      exact hlen
    · simp only [hmemtable.2]
      exact hposting
    · simp only [hmemtable.2]
      exact hunique

/-! ## Agreement -/

/-- When all calls have returned, one backend has rebuilt the index. -/
theorem Phase.of_allReturned {ix : RestartedIndex Value Term} {s : AttachState Term}
    (h : Phase ix s) (hall : AllReturned s) : s.registry = some 0 ∧ s.states = [rebuiltState ix] ∧
      (∃ b, s.calls b = .returned 0 true true) ∧
      ∀ b, s.calls b = .idle ∨ ∃ rebuilt, s.calls b = .returned 0 rebuilt true := by
  cases h with
  | untouched _ _ hcalls =>
      obtain ⟨b, hb⟩ := hall.1
      exact absurd (hcalls b) hb
  | rebuild builder hprogress hothers _ =>
      have hend := hall.2 builder
      generalize hpc : s.calls builder = pc at hprogress hend
      generalize s.registry = registry at hprogress ⊢
      generalize s.states = states at hprogress ⊢
      cases hprogress with
      | rebuilt =>
          refine ⟨rfl, rfl, ⟨builder, hpc⟩, fun b => ?_⟩
          by_cases hb : b = builder
          · rw [hb]
            exact Or.inr ⟨true, hpc⟩
          · rcases hothers b hb with h | h | h
            · exact Or.inl h
            · have hend' := hall.2 b
              rw [h] at hend'
              rcases hend' with h' | h'
              · cases h'
              · exact h'.elim
            · exact Or.inr ⟨false, h⟩
      | _ =>
          rcases hend with h | h
          · cases h
          · exact h.elim

theorem agree_of_phase {ix : RestartedIndex Value Term} {s : AttachState Term} (h : Phase ix s)
    (inv : CallInv s) (hall : AllReturned s) :
    Agree ix s ↔ ∀ ctid, ix.Recovered ctid → ix.docids.count ctid = 1 := by
  obtain ⟨hreg, hstates, ⟨b, hb⟩, hcalls⟩ := h.of_allReturned hall
  constructor
  · intro hagree ctid hrec
    obtain ⟨-, dp, st, -, hdp, hst, hholds⟩ := hagree b 0 true true hb
    rw [hreg] at hdp
    cases hdp
    rw [hstates] at hst
    cases hst
    exact (holdsOnce_rebuilt_iff hrec).1 (hholds ctid hrec)
  · intro hcount b' dp rebuilt complete hpc
    rcases hcalls b' with h | ⟨rebuilt', h⟩
    · rw [h] at hpc
      cases hpc
    · rw [h] at hpc
      cases hpc
      refine ⟨rfl, 0, rebuiltState ix, ?_, hreg, ?_, ?_⟩
      · rw [inv.cached b', h]
        rfl
      · rw [hstates]
        rfl
      · exact fun ctid hrec => (holdsOnce_rebuilt_iff hrec).2 (hcount ctid hrec)

/-- A step that overlaps makes the backends disagree. -/
theorem disagree_of_overlap {ix : RestartedIndex Value Term} {s s' : AttachState Term}
    {backend : Nat} (hok : ¬ NoOverlap s backend) (hstep : attachStep ix s backend = some s') :
    Disagree s' := by
  rw [NoOverlap, not_and_or] at hok
  unfold attachStep at hstep
  rcases hok with hlook | hattach
  · push Not at hlook
    obtain ⟨hpc, hcache, hreg, other, hother⟩ := hlook
    simp only [hpc, hcache, hreg, Option.some.injEq] at hstep
    subst hstep
    have hne : other ≠ backend := by
      rintro rfl
      rw [hpc] at hother
      exact hother
    refine Or.inl ⟨other, backend, hne, ?_, ?_⟩
    · rw [show (s.goto backend .opening).calls other = s.calls other from
        Function.update_of_ne hne _ _]
      generalize s.calls other = pc at hother ⊢
      cases pc with
      | opening => exact Or.inl rfl
      | checking dp replay => exact Or.inr rfl
      | unregistering dp replay => exact Or.inr rfl
      | registering dp replay => exact Or.inr rfl
      | _ => exact hother.elim
    · rw [show (s.goto backend .opening).calls backend = .opening from Function.update_self _ _ _]
      exact Or.inl rfl
  · push Not at hattach
    obtain ⟨dp, hpc, hincomplete⟩ := hattach
    simp only [hpc, Option.some.injEq] at hstep
    subst hstep
    refine Or.inr ⟨backend, dp, false, ?_⟩
    rw [← Bool.eq_false_of_not_eq_true hincomplete]
    exact Function.update_self _ _ _

theorem callInv_of_reaches {ix : RestartedIndex Value Term} {hist : List Nat} {s : AttachState Term}
    {ok : List Nat → AttachState Term → Nat → Prop}
    (hrun : Reaches (attachStep ix) ok AttachState.init hist s) : CallInv s := by
  refine hrun.preserves CallInv callInv_init fun _ _ _ _ inv _ hstep => ?_
  obtain ⟨pc, hmoves⟩ := attachStep_moves inv hstep
  exact inv.step hmoves

/-- Either no step of a run overlaps, or the backends disagree from then on. -/
theorem noOverlap_or_disagree {ix : RestartedIndex Value Term} {hist : List Nat}
    {s : AttachState Term}
    (hrun : Reaches (attachStep ix) (fun _ _ _ => True) AttachState.init hist s) :
    Reaches (attachStep ix) (fun _ s backend => NoOverlap s backend) AttachState.init hist s ∨
      Disagree s := by
  induction hrun with
  | nil => exact Or.inl Reaches.nil
  | @snoc hist s s' backend hprev hmeets hstep ih =>
      obtain ⟨pc, hmoves⟩ := attachStep_moves (callInv_of_reaches hprev) hstep
      rcases ih with hclean | hdis
      · by_cases hok : NoOverlap s backend
        · exact Or.inl (hclean.snoc hok hstep)
        · exact Or.inr (disagree_of_overlap hok hstep)
      · exact Or.inr (hdis.step hmoves)

theorem phase_of_reaches {ix : RestartedIndex Value Term} {hist : List Nat} {s : AttachState Term}
    (hclean : Reaches (attachStep ix) (fun _ s backend => NoOverlap s backend) AttachState.init
      hist s) : Phase ix s := by
  refine (hclean.preserves (fun s => Phase ix s ∧ CallInv s)
    ⟨Phase.untouched rfl rfl fun _ => rfl, callInv_init⟩ ?_).1
  rintro _ s backend s' ⟨h, inv⟩ hok hstep
  obtain ⟨pc, hmoves⟩ := attachStep_moves inv hstep
  exact ⟨phase_step h inv hok hstep, inv.step hmoves⟩

/-- **All backends agree on one complete shared state** when their first calls have
returned, exactly when no two of the calls overlapped in the rebuild and the docid
pages record each recovered document once. -/
theorem agree_iff {ix : RestartedIndex Value Term} {hist : List Nat} {s : AttachState Term}
    (hrun : Reaches (attachStep ix) (fun _ _ _ => True) AttachState.init hist s)
    (hall : AllReturned s) :
    Agree ix s ↔ Reaches (attachStep ix) (fun _ s backend => NoOverlap s backend)
        AttachState.init hist s ∧ ∀ ctid, ix.Recovered ctid → ix.docids.count ctid = 1 := by
  have inv := callInv_of_reaches hrun
  constructor
  · intro hagree
    rcases noOverlap_or_disagree hrun with hclean | hdis
    · exact ⟨hclean, (agree_of_phase (phase_of_reaches hclean) inv hall).1 hagree⟩
    · exact absurd hagree (hdis.not_agree inv hall)
  · rintro ⟨hclean, hcount⟩
    exact (agree_of_phase (phase_of_reaches hclean) inv hall).2 hcount

/-- One document on the docid pages. -/
def oneDocid : RestartedIndex (TermVector Nat) Nat where
  cfg := ⟨7, 0, 0, 8, false⟩
  an := vectorAnalyzer .text
  heap := Heap.empty.place ⟨0, 1⟩ firstTuple_valid ⟨some oneWord, 0⟩
  pages :=
    match indexStep ⟨7, 0, 0, 8, false⟩ (vectorAnalyzer .text) IndexState.init
      (.insert 1 ⟨0, 1⟩ ⟨some oneWord, 0⟩) with
    | some s => s
    | none => IndexState.init

/-- The first backend rebuilds the index; the second one comes later. -/
def oneAfterTheOther : List Nat := List.replicate 7 1 ++ [2, 2]

/-- Backends that take no step stay idle. -/
theorem calls_of_notMem {ix : RestartedIndex Value Term} {hist : List Nat} {s : AttachState Term}
    (hrun : Reaches (attachStep ix) (fun _ _ _ => True) AttachState.init hist s) {b : Nat}
    (hb : b ∉ hist) : s.calls b = .idle := by
  induction hrun with
  | nil => rfl
  | @snoc hist s s' backend hprev hmeets hstep ih =>
      rw [List.mem_append, not_or, List.mem_singleton] at hb
      obtain ⟨pc, hmoves⟩ := attachStep_moves (callInv_of_reaches hprev) hstep
      rw [hmoves.other hb.2]
      exact ih hb.1

theorem agree_oneAfterTheOther : ∃ s, Reaches (attachStep oneDocid) (fun _ _ _ => True)
    AttachState.init oneAfterTheOther s ∧ Agree oneDocid s := by
  obtain ⟨s, hrun, hone, htwo⟩ : ∃ s,
      runAll (attachStep oneDocid) AttachState.init oneAfterTheOther = some s ∧
      s.calls 1 = .returned 0 true true ∧ s.calls 2 = .returned 0 false true := ⟨_, rfl, rfl, rfl⟩
  have hreach := reaches_of_run hrun
  have hothers : ∀ b, b ≠ 1 → b ≠ 2 → s.calls b = .idle := by
    intro b h1 h2
    apply calls_of_notMem hreach
    simp [oneAfterTheOther, h1, h2]
  have hall : AllReturned s := by
    refine ⟨⟨1, by rw [hone]; nofun⟩, fun b => ?_⟩
    by_cases h1 : b = 1
    · exact Or.inr (by rw [h1, hone]; trivial)
    · by_cases h2 : b = 2
      · exact Or.inr (by rw [h2, htwo]; trivial)
      · exact Or.inl (hothers b h1 h2)
  have hsole : ∀ b, (s.calls b).Rebuilds → b = 1 := by
    intro b hb
    by_contra h1
    by_cases h2 : b = 2
    · rw [h2, htwo] at hb
      rcases hb with hb | hb <;> cases hb
    · rw [hothers b h1 h2] at hb
      rcases hb with hb | hb <;> cases hb
  have hclean : Reaches (attachStep oneDocid) (fun _ s backend => NoOverlap s backend)
      AttachState.init oneAfterTheOther s := by
    rcases noOverlap_or_disagree hreach with h | ⟨b, b', hne, hb, hb'⟩ | ⟨b, dp, rebuilt, hb⟩
    · exact h
    · exact absurd ((hsole b hb).trans (hsole b' hb').symm) hne
    · by_cases h1 : b = 1
      · rw [h1, hone] at hb
        cases hb
      · by_cases h2 : b = 2
        · rw [h2, htwo] at hb
          cases hb
        · rw [hothers b h1 h2] at hb
          cases hb
  refine ⟨s, hreach, (agree_iff hreach hall).2 ⟨hclean, ?_⟩⟩
  intro ctid hrec
  have hdocids : oneDocid.docids = [⟨0, 1⟩] := rfl
  have hmem := hrec.1
  rw [hdocids, List.mem_singleton] at hmem
  rw [hdocids, hmem]
  rfl

/-- Both backends look up the index before either has registered it. -/
def bothAtOnce : List Nat := [1, 2] ++ List.replicate 6 1 ++ List.replicate 7 2

/-- **Two backends disagree**: the first one keeps a state that is no longer
registered. -/
theorem racing_backends_disagree :
    ∃ s, Reaches (attachStep oneDocid) (fun _ _ _ => True) AttachState.init bothAtOnce s ∧
      AllReturned s ∧ ¬ Agree oneDocid s := by
  obtain ⟨s, hrun, hone, htwo, hcache, hreg⟩ : ∃ s,
      runAll (attachStep oneDocid) AttachState.init bothAtOnce = some s ∧
      s.calls 1 = .returned 0 true true ∧ s.calls 2 = .returned 1 true true ∧
      s.cache 1 = some 0 ∧ s.registry = some 1 := ⟨_, rfl, rfl, rfl, rfl, rfl⟩
  have hreach := reaches_of_run hrun
  refine ⟨s, hreach, ⟨⟨1, by rw [hone]; nofun⟩, fun b => ?_⟩, fun hagree => ?_⟩
  · by_cases h1 : b = 1
    · exact Or.inr (by rw [h1, hone]; trivial)
    · by_cases h2 : b = 2
      · exact Or.inr (by rw [h2, htwo]; trivial)
      · left
        apply calls_of_notMem hreach
        simp [bothAtOnce, h1, h2]
  · obtain ⟨-, dp, st, hdp, hdp', -⟩ := hagree 1 0 true true hone
    rw [hcache] at hdp
    cases hdp
    rw [hreg] at hdp'
    cases hdp'

end PgTextsearch.State
