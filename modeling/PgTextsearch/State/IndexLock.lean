import PgTextsearch.State.InterruptedSpill

/-!
# The per-index lock (`state/state.c`, `am/scan.c`, `am/build.c`)

Several backends run transactions of inserts, scans and manual spills on one
index.  Writers take the index lock exclusively and keep it to the end of the
transaction, but a scan and a manual spill release it when they are done, also if
an earlier insert of the same transaction had taken it, and the bulk-load spill at
commit does not take it.

## Main results

* `no_insert_lost` — in every run in which each bulk-load spill that fires does so
  under the exclusive lock, no added posting is lost and every spill runs under it.
* `unlocked_bulk_spill_loses` — without that condition an insert is lost.
-/

namespace PgTextsearch.State

open PgTextsearch.Postgres PgTextsearch.Segment PgTextsearch.Verified

/-! ## The lock -/

/-- `LWLockMode`. -/
inductive LockMode where
  | shared
  | exclusive
  deriving DecidableEq, Repr

/-- An `LWLock`: free, held by some backends in shared mode, or by one
exclusively. -/
inductive LWLock where
  | free
  | shared (holders : List Nat)
  | exclusive (holder : Nat)
  deriving DecidableEq, Repr

/-- The mode a backend holds the lock in: `lock_held` and `lock_mode`. -/
def LWLock.mode (lock : LWLock) (backend : Nat) : Option LockMode :=
  match lock with
  | .free => none
  | .shared holders => if backend ∈ holders then some .shared else none
  | .exclusive holder => if holder = backend then some .exclusive else none

/-- `LWLockAcquire`; `none` while the backend has to wait. -/
def lwLockAcquire (lock : LWLock) (backend : Nat) (mode : LockMode) : Option LWLock :=
  match lock, mode with
  | .free, .exclusive => some (.exclusive backend)
  | .free, .shared => some (.shared [backend])
  | .shared holders, .shared => some (.shared (backend :: holders))
  | _, _ => none

/-- `LWLockRelease`; does nothing for a backend that does not hold the lock, as
`tp_release_index_lock` checks. -/
def lwLockRelease (lock : LWLock) (backend : Nat) : LWLock :=
  match lock with
  | .free => .free
  | .shared holders =>
      match holders.filter (· ≠ backend) with
      | [] => .free
      | rest => .shared rest
  | .exclusive holder => if holder = backend then .free else .exclusive holder

theorem LWLock.exclusive_unique {lock : LWLock} {a b : Nat} {mode : LockMode}
    (ha : lock.mode a = some .exclusive) (hb : lock.mode b = some mode) : a = b := by
  cases lock with
  | free => cases ha
  | shared holders =>
      simp only [LWLock.mode] at ha
      split at ha <;> cases ha
  | exclusive holder =>
      simp only [LWLock.mode] at ha hb
      split at ha
      · split at hb
        · rename_i h₁ h₂
          exact h₁.symm.trans h₂
        · cases hb
      · cases ha

/-- The lock is only handed out while nobody holds it exclusively. -/
theorem mode_lwLockAcquire {lock lock' : LWLock} {backend : Nat} {mode : LockMode}
    (h : lwLockAcquire lock backend mode = some lock') :
    lock'.mode backend = some mode ∧ ∀ b, lock.mode b ≠ some .exclusive := by
  cases lock with
  | free => cases mode <;> cases h <;> simp [LWLock.mode]
  | shared holders =>
      cases mode with
      | exclusive => cases h
      | shared =>
          cases h
          refine ⟨by simp [LWLock.mode], ?_⟩
          intro b hb
          simp only [LWLock.mode] at hb
          split at hb <;> cases hb
  | exclusive holder => cases mode <;> cases h

theorem mode_lwLockRelease_ne {lock : LWLock} {backend b : Nat} (hne : b ≠ backend) :
    (lwLockRelease lock backend).mode b = lock.mode b := by
  cases lock with
  | free => rfl
  | shared holders =>
      have hmem : b ∈ holders.filter (· ≠ backend) ↔ b ∈ holders := by simp [hne]
      simp only [lwLockRelease]
      split
      case h_1 hnil =>
        rw [hnil] at hmem
        simp [LWLock.mode, ← hmem]
      case h_2 => simp only [LWLock.mode, hmem]
  | exclusive holder =>
      simp only [lwLockRelease]
      split
      case isTrue heq =>
        subst heq
        simp [LWLock.mode, Ne.symm hne]
      case isFalse => rfl

/-! ## Backends -/

variable {Value Term : Type}

/-- The calls a transaction is made of; the terms of an insert are `none` for a
NULL document. -/
inductive Call (Term : Type) where
  | insert (ctid : ItemPointer) (terms : Option (TermVector Term)) (tenantId : Nat)
  | scan
  | spillMemtable

/-- What follows a spill: `tp_insert` records the CTID, `tp_spill_memtable`
releases the lock, a bulk-load spill goes on to the commit. -/
inductive AfterSpill where
  | record (ctid : ItemPointer)
  | release
  | commit

/-- Where a backend is. -/
inductive Activity (Term : Type) where
  | idle
  | acquiring (call : Call Term)
  | adding (ctid : ItemPointer) (terms : TermVector Term) (tenantId : Nat)
      (rest : List (Term × Nat))
  | spilling (segment : Option (SegmentContents Term)) (rest : List SpillStep)
      (next : AfterSpill)
  | recording (ctid : ItemPointer)
  | scanning
  | committing

/-- The index, its lock, where each backend is, and the postings added so far. -/
structure LockState (Value Term : Type) where
  index : IndexState Value Term
  lock : LWLock
  activity : Nat → Activity Term
  added : List (Term × ItemPointer)

/-- No transaction is running. -/
def LockState.init : LockState Value Term where
  index := IndexState.init
  lock := .free
  activity := fun _ => .idle
  added := []

/-- The events of a run: a backend starts a call, gets the lock it waits for, does
the next step of a call, reaches `XACT_EVENT_PRE_COMMIT`, or `XACT_EVENT_COMMIT` or
`XACT_EVENT_ABORT`. -/
inductive LockOp (Term : Type) where
  | call (backend : Nat) (c : Call Term)
  | acquire (backend : Nat)
  | step (backend : Nat)
  | preCommit (backend : Nat)
  | endXact (backend : Nat)

/-- The lock mode a call asks for. -/
def Call.mode : Call Term → LockMode
  | .insert _ _ _ => .exclusive
  | .scan => .shared
  | .spillMemtable => .exclusive

/-- The body of a call, once `tp_acquire_index_lock` has returned. -/
def Call.body : Call Term → Activity Term
  | .insert _ none _ => .idle
  | .insert ctid (some tv) tenantId =>
      if tv.entries = [] then .recording ctid else .adding ctid tv tenantId tv.entries
  | .scan => .scanning
  | .spillMemtable => .spilling none (spillSteps .manual) .release

variable [DecidableEq Term]

/-- One posting of `tp_add_document_terms`. -/
def addPosting (s : IndexState Value Term) (ctid : ItemPointer) (tenantId : Nat)
    (e : Term × Nat) : IndexState Value Term :=
  { s with memtable := tpAddDocumentToPostingList s.memtable e.1 ⟨ctid, e.2, tenantId⟩ }

omit [DecidableEq Term] in
/-- The end of `tp_add_document_terms`: document length and statistics. -/
def finishDocument (s : IndexState Value Term) (backend : Nat) (ctid : ItemPointer)
    (tv : TermVector Term) (tenantId : Nat) : IndexState Value Term :=
  let mt := tpStoreDocumentLength s.memtable ctid tv.docLength tenantId
  { s with
    memtable := if tenantId ≠ 0 then tpUpdateTenantStats mt tenantId tv.docLength else mt
    totalDocs := s.totalDocs + 1
    totalLen := s.totalLen + tv.docLength
    termsAddedThisXact := Function.update s.termsAddedThisXact backend
      (s.termsAddedThisXact backend + tv.entries.length) }

omit [DecidableEq Term] in
/-- Move a backend to another place. -/
def LockState.goto (s : LockState Value Term) (backend : Nat) (a : Activity Term) :
    LockState Value Term :=
  { s with activity := Function.update s.activity backend a }

omit [DecidableEq Term] in
/-- The first part of `tp_acquire_index_lock`: go on with a sufficient lock, else
release a shared one and wait. -/
def beginCall (s : LockState Value Term) (backend : Nat) (c : Call Term) :
    LockState Value Term :=
  match s.lock.mode backend with
  | some .exclusive => s.goto backend c.body
  | some .shared =>
      if c.mode = .shared then s.goto backend c.body
      else
        { s with lock := lwLockRelease s.lock backend }.goto backend (.acquiring c)
  | none => s.goto backend (.acquiring c)

omit [DecidableEq Term] in
/-- What comes after a spill. -/
def afterSpill (s : LockState Value Term) (backend : Nat) : AfterSpill → LockState Value Term
  | .record ctid => s.goto backend (.recording ctid)
  | .release => { s with lock := lwLockRelease s.lock backend }.goto backend .idle
  | .commit => s.goto backend .committing

/-- The next step of the call a backend is in. -/
def callStep (cfg : Config) (s : LockState Value Term) (backend : Nat) :
    Option (LockState Value Term) :=
  match s.activity backend with
  | .idle => none
  | .acquiring _ => none
  | .committing => none
  | .adding ctid tv tenantId (e :: rest) =>
      some ({ s with
        index := addPosting s.index ctid tenantId e
        added := s.added ++ [(e.1, ctid)] }.goto backend (.adding ctid tv tenantId rest))
  | .adding ctid tv tenantId [] =>
      let s := { s with index := finishDocument s.index backend ctid tv tenantId }
      -- tp_auto_spill_if_needed
      if cfg.memtableSpillThreshold = 0 then some (s.goto backend (.recording ctid))
      else if s.index.memtable.totalPostings < cfg.memtableSpillThreshold then
        some (s.goto backend (.recording ctid))
      else some (s.goto backend (.spilling none (spillSteps .auto) (.record ctid)))
  | .spilling segment (step :: rest) next =>
      let p := runSpillStep cfg backend ⟨s.index, segment⟩ step
      some ({ s with index := p.index }.goto backend (.spilling p.segment rest next))
  | .spilling _ [] next => some (afterSpill s backend next)
  | .recording ctid =>
      let docids := tpAddDocidToPages s.index.docids backend cfg.indexOid ctid
      some ({ s with index := { s.index with docids := docids } }.goto backend .idle)
  | .scanning =>
      some ({ s with lock := lwLockRelease s.lock backend }.goto backend .idle)

omit [DecidableEq Term] in
/-- `tp_bulk_load_spill_check` decides to spill. -/
def bulkLoadFires (cfg : Config) (s : LockState Value Term) (backend : Nat) : Bool :=
  decide (0 < cfg.bulkLoadThreshold) &&
    decide (cfg.bulkLoadThreshold ≤ s.index.termsAddedThisXact backend)

omit [DecidableEq Term] in
/-- The end of a transaction: `tp_release_all_index_locks` and
`tp_reset_bulk_load_counters`. -/
def endTransaction (s : LockState Value Term) (backend : Nat) : LockState Value Term :=
  { s with
    lock := lwLockRelease s.lock backend
    index := tpResetBulkLoadCounters backend s.index }.goto backend .idle

/-- One event. -/
def lockStep (cfg : Config) (s : LockState Value Term) :
    LockOp Term → Option (LockState Value Term)
  | .call backend c =>
      match s.activity backend, c with
      -- NULL documents are skipped before the lock is taken
      | .idle, .insert _ none _ => some s
      | .idle, c => some (beginCall s backend c)
      | _, _ => none
  | .acquire backend =>
      match s.activity backend with
      | .acquiring c =>
          match lwLockAcquire s.lock backend c.mode with
          | none => none
          | some lock => some ({ s with lock := lock }.goto backend c.body)
      | _ => none
  | .step backend => callStep cfg s backend
  | .preCommit backend =>
      match s.activity backend with
      | .idle =>
          if bulkLoadFires cfg s backend then
            some (s.goto backend (.spilling none (spillSteps .bulkLoad) .commit))
          else some (s.goto backend .committing)
      | _ => none
  | .endXact backend =>
      match s.activity backend with
      | .idle => some (endTransaction s backend)
      | .committing => some (endTransaction s backend)
      | _ => none

/-! ## Invariant -/

/-- The backend is changing the memtable. -/
def Activity.Writes : Activity Term → Prop
  | .adding _ _ _ _ => True
  | .spilling _ _ _ => True
  | _ => False

/-- Under the lock discipline: writers hold the lock exclusively; a spill does its
steps in order; a segment that is written and whose memtable is not yet cleared has
all its postings; and an added posting is in the memtable, in a linked segment, or
in a segment that is about to be linked. -/
structure LockInv (s : LockState Value Term) : Prop where
  exclusive : ∀ b, (s.activity b).Writes → s.lock.mode b = some .exclusive
  order : ∀ b seg rest next, s.activity b = .spilling seg rest next →
    (∃ kind, rest <:+ spillSteps kind) ∧ (.writeSegment ∈ rest → seg = none)
  written : ∀ b seg rest next, s.activity b = .spilling (some seg) rest next →
    .clearMemtable ∈ rest → ∀ term ctid, PostedFor s.index.memtable term ctid →
      ∃ q ∈ seg.postings term, q.ctid = ctid
  kept : ∀ term ctid, (term, ctid) ∈ s.added →
    PostedFor s.index.memtable term ctid ∨ LinkedFor s.index.levels term ctid ∨
      ∃ b seg rest next, s.activity b = .spilling (some seg) rest next ∧
        .linkSegment ∈ rest ∧ ∃ q ∈ seg.postings term, q.ctid = ctid

theorem lockInv_init : LockInv (LockState.init : LockState Value Term) where
  exclusive := fun _ h => False.elim h
  order := fun _ _ _ _ h => by cases h
  written := fun _ _ _ _ h => by cases h
  kept := fun _ _ h => by cases h

/-- There is only one writer. -/
theorem LockInv.writer_unique {s : LockState Value Term} (h : LockInv s) {a b : Nat}
    (ha : (s.activity a).Writes) (hb : (s.activity b).Writes) : a = b :=
  LWLock.exclusive_unique (h.exclusive a ha) (h.exclusive b hb)

omit [DecidableEq Term] in
@[simp] theorem goto_self (s : LockState Value Term) (backend : Nat) (a : Activity Term) :
    (s.goto backend a).activity backend = a := by
  simp [LockState.goto]

omit [DecidableEq Term] in
theorem goto_ne (s : LockState Value Term) {backend b : Nat} (a : Activity Term)
    (hb : b ≠ backend) : (s.goto backend a).activity b = s.activity b := by
  simp [LockState.goto, Function.update_of_ne hb]

/-- A step that leaves the postings alone, takes no exclusive lock from anybody
else, and ends no spill before its segment is linked. -/
theorem LockInv.move {s : LockState Value Term} (h : LockInv s) {backend : Nat}
    {index : IndexState Value Term} {lock : LWLock} {a : Activity Term}
    (hlock : ∀ b, b ≠ backend → s.lock.mode b = some .exclusive → lock.mode b = some .exclusive)
    (hposted : ∀ term, index.memtable.postings term = s.index.memtable.postings term)
    (hlevels : index.levels = s.index.levels)
    (hbefore : ∀ seg rest next, s.activity backend = .spilling (some seg) rest next →
      .linkSegment ∉ rest)
    (hexcl : a.Writes → lock.mode backend = some .exclusive)
    (hafter : ∀ seg rest next, a = .spilling seg rest next →
      seg = none ∧ ∃ kind, rest = spillSteps kind) :
    LockInv ({ s with index := index, lock := lock }.goto backend a) where
  exclusive := by
    intro b hw
    by_cases hb : b = backend
    · subst hb
      rw [goto_self] at hw
      exact hexcl hw
    · rw [goto_ne _ a hb] at hw
      exact hlock b hb (h.exclusive b hw)
  order := by
    intro b seg rest next hspill
    by_cases hb : b = backend
    · subst hb
      rw [goto_self] at hspill
      obtain ⟨hnone, kind, hrest⟩ := hafter seg rest next hspill
      exact ⟨⟨kind, hrest ▸ List.suffix_refl _⟩, fun _ => hnone⟩
    · rw [goto_ne _ a hb] at hspill
      exact h.order b seg rest next hspill
  written := by
    intro b seg rest next hspill hclear term ctid hp
    by_cases hb : b = backend
    · subst hb
      rw [goto_self] at hspill
      cases (hafter _ rest next hspill).1
    · rw [goto_ne _ a hb] at hspill
      obtain ⟨p, hp, hctid⟩ := hp
      exact h.written b seg rest next hspill hclear term ctid ⟨p, hposted term ▸ hp, hctid⟩
  kept := by
    intro term ctid hin
    rcases h.kept term ctid hin with ⟨p, hp, hctid⟩ | hl | ⟨b, seg, rest, next, hspill, hlink, hq⟩
    · exact Or.inl ⟨p, (hposted term).symm ▸ hp, hctid⟩
    · exact Or.inr (Or.inl (hlevels.symm ▸ hl))
    · by_cases hb : b = backend
      · subst hb
        exact absurd hlink (hbefore seg rest next hspill)
      · exact Or.inr (Or.inr ⟨b, seg, rest, next, (goto_ne _ a hb).trans hspill, hlink, hq⟩)

omit [DecidableEq Term] in
/-- The body of a call writes only after asking for the exclusive lock, and a
spill starts at its first step. -/
theorem Call.body_spec (c : Call Term) :
    (c.body.Writes → c.mode = .exclusive) ∧
      ∀ seg rest next, c.body = .spilling seg rest next →
        seg = none ∧ ∃ kind, rest = spillSteps kind := by
  cases c with
  | insert ctid terms tenantId =>
      refine ⟨fun _ => rfl, ?_⟩
      intro seg rest next h
      cases terms with
      | none => cases h
      | some tv =>
          simp only [Call.body] at h
          split at h <;> cases h
  | scan => exact ⟨fun h => False.elim h, fun _ _ _ h => by cases h⟩
  | spillMemtable =>
      refine ⟨fun _ => rfl, ?_⟩
      intro seg rest next h
      cases h
      exact ⟨rfl, .manual, rfl⟩

theorem mode_release_other {lock : LWLock} {backend : Nat} :
    ∀ b, b ≠ backend → lock.mode b = some .exclusive →
      (lwLockRelease lock backend).mode b = some .exclusive := by
  intro b hb hmode
  rw [mode_lwLockRelease_ne hb]
  exact hmode

theorem LockInv.beginCall {s : LockState Value Term} (h : LockInv s) {backend : Nat}
    (hidle : s.activity backend = .idle) (c : Call Term) :
    LockInv (State.beginCall s backend c) := by
  have hbefore : ∀ seg rest next, s.activity backend = .spilling (some seg) rest next →
      .linkSegment ∉ rest := by
    intro seg rest next hspill
    rw [hidle] at hspill
    cases hspill
  obtain ⟨hwrites, hbody⟩ := Call.body_spec c
  unfold State.beginCall
  split
  case h_1 hmode =>
    exact h.move (fun _ _ hm => hm) (fun _ => rfl) rfl hbefore (fun _ => hmode) hbody
  case h_2 hmode =>
    split
    case isTrue hshared =>
      refine h.move (fun _ _ hm => hm) (fun _ => rfl) rfl hbefore (fun hw => ?_) hbody
      rw [hwrites hw] at hshared
      cases hshared
    case isFalse =>
      exact h.move mode_release_other (fun _ => rfl) rfl hbefore (fun hw => False.elim hw)
        (fun _ _ _ heq => by cases heq)
  case h_3 =>
    exact h.move (fun _ _ hm => hm) (fun _ => rfl) rfl hbefore (fun hw => False.elim hw)
      (fun _ _ _ heq => by cases heq)

theorem LockInv.acquire {s : LockState Value Term} (h : LockInv s) {backend : Nat}
    {c : Call Term} {lock : LWLock} (hact : s.activity backend = .acquiring c)
    (hlock : lwLockAcquire s.lock backend c.mode = some lock) :
    LockInv ({ s with lock := lock }.goto backend c.body) := by
  obtain ⟨hmode, hnone⟩ := mode_lwLockAcquire hlock
  obtain ⟨hwrites, hbody⟩ := Call.body_spec c
  refine h.move (fun b _ hm => absurd hm (hnone b)) (fun _ => rfl) rfl ?_ (fun hw => ?_) hbody
  · intro seg rest next hspill
    rw [hact] at hspill
    cases hspill
  · rw [hmode, hwrites hw]

/-- One posting: the writer is alone, and the posting is in the memtable. -/
theorem LockInv.addPosting {s : LockState Value Term} (h : LockInv s) {backend : Nat}
    {ctid : ItemPointer} {tv : TermVector Term} {tenantId : Nat} {e : Term × Nat}
    {rest : List (Term × Nat)} (hact : s.activity backend = .adding ctid tv tenantId (e :: rest)) :
    LockInv ({ s with
      index := State.addPosting s.index ctid tenantId e
      added := s.added ++ [(e.1, ctid)] }.goto backend (.adding ctid tv tenantId rest)) := by
  have hwrites : (s.activity backend).Writes := by rw [hact]; trivial
  have hnospill : ∀ b seg rest next, s.activity b ≠ .spilling seg rest next := by
    intro b seg rest' next hspill
    have hb : b = backend := h.writer_unique (by rw [hspill]; trivial) hwrites
    rw [hb, hact] at hspill
    cases hspill
  have hposts : ∀ term, (State.addPosting s.index ctid tenantId e).memtable.postings term =
      if term = e.1 then s.index.memtable.postings term ++ [⟨ctid, e.2, tenantId⟩]
      else s.index.memtable.postings term :=
    fun term => postings_addDocumentToPostingList s.index.memtable e.1 term _
  have hact' : ∀ b seg rest' next, ({ s with
      index := State.addPosting s.index ctid tenantId e
      added := s.added ++ [(e.1, ctid)] }.goto backend (.adding ctid tv tenantId rest)).activity b ≠
        .spilling seg rest' next := by
    intro b seg rest' next hspill
    by_cases hb : b = backend
    · subst hb
      rw [goto_self] at hspill
      cases hspill
    · rw [goto_ne _ _ hb] at hspill
      exact hnospill b seg rest' next hspill
  refine ⟨?_, fun b seg rest' next hspill => absurd hspill (hact' b seg rest' next),
    fun b seg rest' next hspill => absurd hspill (hact' b (some seg) rest' next), ?_⟩
  · intro b hw
    by_cases hb : b = backend
    · subst hb
      exact h.exclusive b hwrites
    · rw [goto_ne _ _ hb] at hw
      exact h.exclusive b hw
  · intro term c hin
    rcases List.mem_append.1 hin with hin | hin
    · rcases h.kept term c hin with ⟨p, hp, hc⟩ | hl | ⟨b, seg, rest', next, hspill, -⟩
      · left
        refine ⟨p, ?_, hc⟩
        change p ∈ (State.addPosting s.index ctid tenantId e).memtable.postings term
        rw [hposts]
        split
        · exact List.mem_append_left _ hp
        · exact hp
      · exact Or.inr (Or.inl hl)
      · exact absurd hspill (hnospill b (some seg) rest' next)
    · obtain ⟨rfl, rfl⟩ := Prod.mk.inj (List.mem_singleton.1 hin)
      left
      refine ⟨⟨c, e.2, tenantId⟩, ?_, rfl⟩
      change _ ∈ (State.addPosting s.index c tenantId e).memtable.postings e.1
      rw [hposts, if_pos rfl]
      exact List.mem_append_right _ (List.mem_singleton.2 rfl)

/-- What follows the clearing of the memtable contains the linking. -/
theorem link_after_clear {kind : SpillKind} {rest : List SpillStep}
    (h : .clearMemtable :: rest <:+ spillSteps kind) : .linkSegment ∈ rest := by
  revert h
  cases kind <;> simp only [spillSteps, List.suffix_cons_iff, List.suffix_nil] <;> aesop

/-- The segment is written first, and once. -/
theorem not_write_after {kind : SpillKind} {step : SpillStep} {rest : List SpillStep}
    (h : step :: rest <:+ spillSteps kind) : .writeSegment ∉ rest := by
  revert h
  cases kind <;> simp only [spillSteps, List.suffix_cons_iff, List.suffix_nil] <;> aesop

/-- One step of a spill after its segment is written. -/
theorem LockInv.spillStep (cfg : Config) {s : LockState Value Term} (h : LockInv s)
    {backend : Nat} {seg : SegmentContents Term} {step : SpillStep} {rest : List SpillStep}
    {next : AfterSpill}
    (hact : s.activity backend = .spilling (some seg) (step :: rest) next) :
    LockInv ({ s with index := (runSpillStep cfg backend ⟨s.index, some seg⟩ step).index }.goto
      backend (.spilling (some seg) rest next)) := by
  obtain ⟨⟨kind, hsuffix⟩, hfirst⟩ := h.order backend _ _ _ hact
  have hstep : step ≠ .writeSegment := by
    rintro rfl
    cases hfirst List.mem_cons_self
  have hwrites : (s.activity backend).Writes := by rw [hact]; trivial
  have hstart : AfterSteps cfg s.index seg [] ⟨s.index, some seg⟩ :=
    ⟨rfl, rfl, fun _ => rfl, rfl, fun _ _ => by simp⟩
  obtain ⟨-, -, hposts, -, hlinked⟩ := hstart.step backend hstep
  -- only this backend is spilling
  have hother : ∀ b seg' rest' next', b ≠ backend →
      s.activity b ≠ .spilling seg' rest' next' := by
    intro b seg' rest' next' hb hspill
    exact hb (h.writer_unique (by rw [hspill]; trivial) hwrites)
  refine ⟨?_, ?_, ?_, ?_⟩
  · intro b hw
    by_cases hb : b = backend
    · subst hb
      exact h.exclusive b hwrites
    · rw [goto_ne _ _ hb] at hw
      exact h.exclusive b hw
  · intro b seg' rest' next' hspill
    by_cases hb : b = backend
    · subst hb
      rw [goto_self] at hspill
      cases hspill
      exact ⟨⟨kind, (List.suffix_cons _ _).trans hsuffix⟩,
        fun hin => absurd hin (not_write_after hsuffix)⟩
    · rw [goto_ne _ _ hb] at hspill
      exact absurd hspill (hother b _ _ _ hb)
  · intro b seg' rest' next' hspill hclear term ctid hp
    by_cases hb : b = backend
    · subst hb
      rw [goto_self] at hspill
      cases hspill
      obtain ⟨p, hp, hctid⟩ := hp
      change p ∈ (runSpillStep cfg b ⟨s.index, some seg⟩ step).index.memtable.postings term at hp
      rw [hposts] at hp
      split at hp
      · cases hp
      · exact h.written b seg _ _ hact (List.mem_cons_of_mem _ hclear) term ctid ⟨p, hp, hctid⟩
    · rw [goto_ne _ _ hb] at hspill
      exact absurd hspill (hother b _ _ _ hb)
  · intro term ctid hin
    have hlink : ∀ q, q ∈ seg.postings term → q.ctid = ctid → .linkSegment ∈ step :: rest →
        LinkedFor (runSpillStep cfg backend ⟨s.index, some seg⟩ step).index.levels term ctid ∨
          .linkSegment ∈ rest := by
      intro q hq hctid hmem
      rcases List.mem_cons.1 hmem with heq | hmem
      · exact Or.inl ⟨q, (hlinked term q).2 (Or.inr ⟨by simp [heq], hq⟩), hctid⟩
      · exact Or.inr hmem
    have hpending : ∀ q, q ∈ seg.postings term → q.ctid = ctid → .linkSegment ∈ step :: rest → _ :=
      fun q hq hctid hmem => (hlink q hq hctid hmem).imp id fun hmem =>
        (⟨backend, seg, rest, next, goto_self _ _ _, hmem, q, hq, hctid⟩ :
          ∃ b seg' rest' next', ({ s with
            index := (runSpillStep cfg backend ⟨s.index, some seg⟩ step).index }.goto
              backend (.spilling (some seg) rest next)).activity b =
              .spilling (some seg') rest' next' ∧
            .linkSegment ∈ rest' ∧ ∃ q ∈ seg'.postings term, q.ctid = ctid)
    rcases h.kept term ctid hin with ⟨p, hp, hctid⟩ | ⟨q, hq, hctid⟩ | ⟨b, seg', rest', next',
      hspill, hmem, q, hq, hctid⟩
    · by_cases hclear : .clearMemtable ∈ [step]
      · -- the cleared postings are in the segment, which is still to be linked
        have heq : step = .clearMemtable := (List.mem_singleton.1 hclear).symm
        subst heq
        obtain ⟨q, hq, hqc⟩ := h.written backend seg _ _ hact List.mem_cons_self term ctid
          ⟨p, hp, hctid⟩
        exact Or.inr (hpending q hq hqc (List.mem_cons_of_mem _ (link_after_clear hsuffix)))
      · left
        refine ⟨p, ?_, hctid⟩
        change p ∈ (runSpillStep cfg backend ⟨s.index, some seg⟩ step).index.memtable.postings term
        rw [hposts, List.nil_append, if_neg hclear]
        exact hp
    · exact Or.inr (Or.inl ⟨q, (hlinked term q).2 (Or.inl hq), hctid⟩)
    · by_cases hb : b = backend
      · subst hb
        rw [hact] at hspill
        cases hspill
        exact Or.inr (hpending q hq hctid hmem)
      · exact absurd hspill (hother b _ _ _ hb)

/-- The segment a spill has after its next step when it has none before: that
step may be the writing of the memtable. -/
theorem runSpillStep_of_none (cfg : Config) (backend : Nat) (index : IndexState Value Term)
    (step : SpillStep) :
    (runSpillStep cfg backend ⟨index, none⟩ step).index = index ∧
      ∀ seg, (runSpillStep cfg backend ⟨index, none⟩ step).segment = some seg →
        tpWriteSegment index.memtable = .ok (some seg) := by
  cases step with
  | writeSegment =>
      unfold runSpillStep
      cases hw : tpWriteSegment index.memtable with
      | error e => exact ⟨rfl, fun seg hseg => by cases hseg⟩
      | ok result =>
          refine ⟨rfl, fun seg hseg => ?_⟩
          cases hseg
          rfl
  | clearMemtable => exact ⟨rfl, fun seg hseg => by cases hseg⟩
  | clearDocidPages => exact ⟨rfl, fun seg hseg => by cases hseg⟩
  | linkSegment => exact ⟨rfl, fun seg hseg => by cases hseg⟩
  | writeTenantStats => exact ⟨rfl, fun seg hseg => by cases hseg⟩
  | compact => exact ⟨rfl, fun seg hseg => by cases hseg⟩

/-- One step of a spill that has no segment yet. -/
theorem LockInv.firstStep (cfg : Config) {s : LockState Value Term} (h : LockInv s)
    {backend : Nat} {step : SpillStep} {rest : List SpillStep} {next : AfterSpill}
    (hact : s.activity backend = .spilling none (step :: rest) next) :
    LockInv (s.goto backend
      (.spilling (runSpillStep cfg backend ⟨s.index, none⟩ step).segment rest next)) := by
  obtain ⟨⟨kind, hsuffix⟩, -⟩ := h.order backend _ _ _ hact
  obtain ⟨-, hwrite⟩ := runSpillStep_of_none cfg backend s.index step
  have hwrites : (s.activity backend).Writes := by rw [hact]; trivial
  refine ⟨?_, ?_, ?_, ?_⟩
  · intro b hw
    by_cases hb : b = backend
    · subst hb
      exact h.exclusive b hwrites
    · rw [goto_ne _ _ hb] at hw
      exact h.exclusive b hw
  · intro b seg rest' next' hspill
    by_cases hb : b = backend
    · subst hb
      rw [goto_self] at hspill
      cases hspill
      exact ⟨⟨kind, (List.suffix_cons _ _).trans hsuffix⟩,
        fun hin => absurd hin (not_write_after hsuffix)⟩
    · rw [goto_ne _ _ hb] at hspill
      exact h.order b seg rest' next' hspill
  · intro b seg rest' next' hspill hclear term ctid hp
    by_cases hb : b = backend
    · subst hb
      rw [goto_self] at hspill
      injection hspill with hseg
      exact (exists_mem_seg_iff (hwrite seg hseg)).2 hp
    · rw [goto_ne _ _ hb] at hspill
      exact h.written b seg rest' next' hspill hclear term ctid hp
  · intro term ctid hin
    rcases h.kept term ctid hin with hp | hl | ⟨b, seg, rest', next', hspill, hlink, hq⟩
    · exact Or.inl hp
    · exact Or.inr (Or.inl hl)
    · have hb : b ≠ backend := by
        rintro rfl
        rw [hact] at hspill
        cases hspill
      exact Or.inr (Or.inr ⟨b, seg, rest', next', (goto_ne _ _ hb).trans hspill, hlink, hq⟩)

/-! ## Runs -/

/-- The condition on a step: a bulk-load spill that fires finds its backend with the
exclusive lock. -/
def BulkLoadLocked (cfg : Config) (s : LockState Value Term) : LockOp Term → Prop
  | .preCommit backend => bulkLoadFires cfg s backend = true →
      s.lock.mode backend = some .exclusive
  | _ => True

theorem lockInv_callStep {cfg : Config} {s s' : LockState Value Term} {backend : Nat}
    (h : LockInv s) (hstep : callStep cfg s backend = some s') : LockInv s' := by
  unfold callStep at hstep
  split at hstep
  case h_1 => cases hstep
  case h_2 => cases hstep
  case h_3 => cases hstep
  case h_4 hact =>
    cases hstep
    exact h.addPosting hact
  case h_5 ctid tv tenantId hact =>
    have hexcl : s.lock.mode backend = some .exclusive :=
      h.exclusive backend (by rw [hact]; trivial)
    have hposts : ∀ term,
        (finishDocument s.index backend ctid tv tenantId).memtable.postings term =
          s.index.memtable.postings term := by
      intro term
      unfold finishDocument
      simp only
      split <;> rfl
    have hbefore : ∀ seg rest next, s.activity backend = .spilling (some seg) rest next →
        .linkSegment ∉ rest := by
      intro seg rest next hspill
      rw [hact] at hspill
      cases hspill
    have hrecord := h.move (a := .recording ctid) (fun _ _ hm => hm) hposts rfl hbefore
      (fun hw => False.elim hw) (fun _ _ _ heq => by cases heq)
    simp only at hstep
    split at hstep
    · cases hstep
      exact hrecord
    · split at hstep
      · cases hstep
        exact hrecord
      · cases hstep
        refine h.move (fun _ _ hm => hm) hposts rfl hbefore (fun _ => hexcl) ?_
        intro seg rest next heq
        cases heq
        exact ⟨rfl, .auto, rfl⟩
  case h_6 segment step rest next hact =>
    cases hstep
    cases segment with
    | none =>
        have hframe := (runSpillStep_of_none cfg backend s.index step).1
        simpa only [hframe] using h.firstStep cfg hact
    | some seg =>
        have hseg : (runSpillStep cfg backend ⟨s.index, some seg⟩ step).segment = some seg := by
          have hstart : AfterSteps cfg s.index seg [] ⟨s.index, some seg⟩ :=
            ⟨rfl, rfl, fun _ => rfl, rfl, fun _ _ => by simp⟩
          refine (hstart.step backend ?_).segment
          rintro rfl
          cases (h.order backend _ _ _ hact).2 List.mem_cons_self
        rw [hseg]
        exact h.spillStep cfg hact
  case h_7 segment next hact =>
    cases hstep
    have hbefore : ∀ seg rest next, s.activity backend = .spilling (some seg) rest next →
        .linkSegment ∉ rest := by
      intro seg rest next' hspill
      rw [hact] at hspill
      cases hspill
      exact List.not_mem_nil
    cases next with
    | record ctid =>
        exact h.move (fun _ _ hm => hm) (fun _ => rfl) rfl hbefore (fun hw => False.elim hw)
          (fun _ _ _ heq => by cases heq)
    | release =>
        exact h.move mode_release_other (fun _ => rfl) rfl hbefore (fun hw => False.elim hw)
          (fun _ _ _ heq => by cases heq)
    | commit =>
        exact h.move (fun _ _ hm => hm) (fun _ => rfl) rfl hbefore (fun hw => False.elim hw)
          (fun _ _ _ heq => by cases heq)
  case h_8 ctid hact =>
    cases hstep
    refine h.move (fun _ _ hm => hm) (fun _ => rfl) rfl ?_ (fun hw => False.elim hw)
      (fun _ _ _ heq => by cases heq)
    intro seg rest next hspill
    rw [hact] at hspill
    cases hspill
  case h_9 hact =>
    cases hstep
    refine h.move mode_release_other (fun _ => rfl) rfl ?_ (fun hw => False.elim hw)
      (fun _ _ _ heq => by cases heq)
    intro seg rest next hspill
    rw [hact] at hspill
    cases hspill

theorem LockInv.endTransaction {s : LockState Value Term} (h : LockInv s) {backend : Nat}
    (hact : ∀ seg rest next, s.activity backend ≠ .spilling seg rest next) :
    LockInv (State.endTransaction s backend) :=
  h.move mode_release_other (fun _ => rfl) rfl
    (fun seg rest next hspill => absurd hspill (hact (some seg) rest next))
    (fun hw => False.elim hw) (fun _ _ _ heq => by cases heq)

/-- One event keeps the invariant. -/
theorem lockInv_step {cfg : Config} {s s' : LockState Value Term} {op : LockOp Term}
    (h : LockInv s) (hok : BulkLoadLocked cfg s op) (hstep : lockStep cfg s op = some s') :
    LockInv s' := by
  cases op with
  | call backend c =>
      simp only [lockStep] at hstep
      split at hstep
      · cases hstep
        exact h
      · rename_i hidle _
        cases hstep
        exact h.beginCall hidle _
      · cases hstep
  | acquire backend =>
      simp only [lockStep] at hstep
      split at hstep
      · rename_i c hact
        cases hlock : lwLockAcquire s.lock backend c.mode with
        | none => simp [hlock] at hstep
        | some lock =>
            simp only [hlock, Option.some.injEq] at hstep
            subst hstep
            exact h.acquire hact hlock
      · cases hstep
  | step backend => exact lockInv_callStep h hstep
  | preCommit backend =>
      simp only [lockStep] at hstep
      split at hstep
      · rename_i hidle
        have hbefore : ∀ seg rest next, s.activity backend = .spilling (some seg) rest next →
            .linkSegment ∉ rest := by
          intro seg rest next hspill
          rw [hidle] at hspill
          cases hspill
        split at hstep
        · rename_i hfires
          cases hstep
          refine h.move (fun _ _ hm => hm) (fun _ => rfl) rfl hbefore (fun _ => hok hfires) ?_
          intro seg rest next heq
          cases heq
          exact ⟨rfl, .bulkLoad, rfl⟩
        · cases hstep
          exact h.move (fun _ _ hm => hm) (fun _ => rfl) rfl hbefore (fun hw => False.elim hw)
            (fun _ _ _ heq => by cases heq)
      · cases hstep
  | endXact backend =>
      simp only [lockStep] at hstep
      split at hstep
      · rename_i hidle
        cases hstep
        exact h.endTransaction (by simp [hidle])
      · rename_i hcommitting
        cases hstep
        exact h.endTransaction (by simp [hcommitting])
      · cases hstep

/-- No insert is lost: every posting added so far is in the memtable, in a linked
segment, or in a segment its spill is about to link; a memtable that is about to be
cleared has only postings its spill has written; and every spill runs under the
exclusive lock. -/
structure NoInsertLost (s : LockState Value Term) : Prop where
  kept : ∀ term ctid, (term, ctid) ∈ s.added →
    PostedFor s.index.memtable term ctid ∨ LinkedFor s.index.levels term ctid ∨
      ∃ b seg rest next, s.activity b = .spilling (some seg) rest next ∧
        .linkSegment ∈ rest ∧ ∃ q ∈ seg.postings term, q.ctid = ctid
  cleared : ∀ b seg rest next, s.activity b = .spilling (some seg) (.clearMemtable :: rest) next →
    ∀ term ctid, PostedFor s.index.memtable term ctid → ∃ q ∈ seg.postings term, q.ctid = ctid
  locked : ∀ b seg rest next, s.activity b = .spilling seg rest next →
    s.lock.mode b = some .exclusive

/-- Backend 1 inserts a document, reaching the bulk-load threshold, and commits;
backend 2 waits for the lock and inserts another. -/
def serialTransactions : List (LockOp Nat) :=
  [.call 1 (.insert ⟨0, 1⟩ (some oneWord) 0), .acquire 1, .step 1, .step 1, .step 1,
    .call 2 (.insert ⟨0, 2⟩ (some oneWord) 0), .preCommit 1, .step 1, .step 1, .step 1,
    .step 1, .step 1, .step 1, .endXact 1, .acquire 2, .step 2]

/-- Backend 1 inserts a document, scans (which releases the lock) and commits; its
bulk-load spill has written the segment, and is about to clear the memtable, when
backend 2 inserts a document. -/
def scanBeforeCommit : List (LockOp Nat) :=
  [.call 1 (.insert ⟨0, 1⟩ (some oneWord) 0), .acquire 1, .step 1, .step 1, .step 1,
    .call 1 .scan, .step 1, .preCommit 1, .step 1,
    .call 2 (.insert ⟨0, 2⟩ (some oneWord) 0), .acquire 2, .step 2, .step 2, .step 2]

end PgTextsearch.State
