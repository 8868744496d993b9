import PgTextsearch.Segment.Contents
import PgTextsearch.Segment.Pages
import PgTextsearch.Verified.Runs

/-!
# Level chains (`segment/merge.c`, `am/build.c`, `am/build_parallel.c`)

The metapage keeps the head and the number of segments of every level; the segments
of a level are chained through their headers.  Spills and merges put a segment in
front of a chain, the leader of a parallel build appends to one.  The counters are
16 bits wide, and a merge believes the counter: it reads that many segments before it
clears the head.

## Main definitions

* `pageOp` — spills with their compactions, and serial and parallel builds.
* `LevelInvariant` — counters, chains and the segments written agree.
* `PageOwnership` — no page has two owners, and the free pages exist and have none.
-/

namespace PgTextsearch.Segment.Pages

open PgTextsearch.Verified

/-- The relation and the metapage's levels, and (for the statements) the segments that
were written and not yet consumed by a merge. -/
structure IndexPages where
  storage : Storage
  levelHeads : Nat → Option Nat
  levelCounts : Nat → Nat
  written : List SegmentPages

/-- An index file that holds the metapage and nothing else. -/
def IndexPages.fresh : IndexPages where
  storage := ⟨1, fun _ => .other, [], 0⟩
  levelHeads := fun _ => none
  levelCounts := fun _ => 0
  written := []

/-- `pg_textsearch.segments_per_level`, within the limits of the setting. -/
structure SegmentsPerLevel where
  value : Nat
  min_le : 2 ≤ value
  le_max : value ≤ 64

/-- Set `next_segment` in the header at a block. -/
def setNextSegment (content : Nat → PageContent) (root : Nat) (next : Option Nat) :
    Nat → PageContent :=
  match content root with
  | .segmentHeader header =>
      Function.update content root (.segmentHeader { header with nextSegment := next })
  | _ => content

/-- Link a segment as the head of a level.  `level_counts` is an array of `uint16`. -/
def linkSegment (s : IndexPages) (level : Nat) (root : Nat) : IndexPages :=
  let storage :=
    match s.levelHeads level with
    | none => s.storage
    | some head => { s.storage with
        content := setNextSegment s.storage.content root (some head) }
  { s with
    storage := storage
    levelHeads := Function.update s.levelHeads level (some root)
    levelCounts := Function.update s.levelCounts level ((s.levelCounts level + 1) % 2 ^ 16) }

/-! ## Merges -/

/-- A segment that a merge has opened: its pages, and whether it becomes a source. -/
structure MergeSource where
  root : Nat
  pages : List Nat
  hasTerms : Bool
  deriving DecidableEq, Repr

/-- The loop of `tp_merge_level_segments` that opens the segments of the level: it ends
with the chain or when `segment_count` sources are there. -/
def collectSources (st : Storage) : Nat → Nat → Option Nat → Except PageError (List MergeSource)
  | fuel, wanted, current =>
      match current, wanted with
      | some root, wanted + 1 =>
          match fuel with
          | 0 => .error .loopLimit
          | fuel + 1 => do
              match ← tpSegmentOpen st root with
              | none => return []
              | some reader =>
                  let pages ← tpSegmentCollectPages st root
                  let hasTerms := decide (0 < reader.header.numTerms)
                  let rest ← collectSources st fuel
                    (if hasTerms then wanted else wanted + 1) reader.header.nextSegment
                  return ⟨root, pages, hasTerms⟩ :: rest
      | _, _ => return []

/-- The metapage update of a merge: the source level is emptied, the merged segment
becomes the head of the next one. -/
def linkMerged (s : IndexPages) (level : Nat) (sources : List MergeSource)
    (seg : SegmentPages) (storage : Storage) : IndexPages :=
  linkSegment
    { s with
      storage := storage
      levelHeads := Function.update s.levelHeads level none
      levelCounts := Function.update s.levelCounts level 0
      written := seg :: s.written.filter (fun w => w.root ∉ sources.map MergeSource.root) }
    (level + 1) seg.root

/-- `tp_merge_level_segments`; no result stands for `InvalidBlockNumber`. -/
def tpMergeLevelSegments (fsm : FreeSpaceMap) (size : SegmentSize) (s : IndexPages)
    (level : Nat) : Except PageError (Option IndexPages) :=
  if level ≥ tpMaxLevels - 1 then return none
  else if s.levelHeads level = none ∨ s.levelCounts level = 0 then return none
  else do
    let sources ← collectSources s.storage s.storage.nblocks (s.levelCounts level)
      (s.levelHeads level)
    if sources.all (fun src => !src.hasTerms) then return none
    let (seg, storage) ← writeSegment fsm size s.storage
    let s := linkMerged s level sources seg storage
    let storage ← tpSegmentFreePages (sources.flatMap MergeSource.pages) s.storage
    return some { s with storage := storage }

/-- `tp_maybe_compact_level`; a merge into level `l` has the size `sizes l`. -/
def tpMaybeCompactLevel (fsm : FreeSpaceMap) (perLevel : SegmentsPerLevel)
    (sizes : Nat → SegmentSize) : Nat → IndexPages → Nat → Except PageError IndexPages
  | 0, s, _ => return s
  | fuel + 1, s, level =>
      if level ≥ tpMaxLevels - 1 then return s
      else if s.levelCounts level < perLevel.value then return s
      else do
        match ← tpMergeLevelSegments fsm (sizes (level + 1)) s level with
        | none => return s
        | some s => tpMaybeCompactLevel fsm perLevel sizes fuel s (level + 1)

/-! ## Spills and builds -/

/-- Write a segment and remember it. -/
def writeAndRecord (fsm : FreeSpaceMap) (size : SegmentSize) (s : IndexPages) :
    Except PageError (SegmentPages × IndexPages) := do
  let (seg, storage) ← writeSegment fsm size s.storage
  return (seg, { s with storage := storage, written := seg :: s.written })

/-- The three runtime spills: write and link the segment, write `statsPages` pages of
tenant statistics, compact. -/
def spill (fsm : FreeSpaceMap) (perLevel : SegmentsPerLevel) (size : SegmentSize)
    (sizes : Nat → SegmentSize) (statsPages : Nat) (s : IndexPages) :
    Except PageError IndexPages := do
  let (seg, s) ← writeAndRecord fsm size s
  let s := linkSegment s 0 seg.root
  tpMaybeCompactLevel fsm perLevel sizes tpMaxLevels
    { s with storage := s.storage.extend statsPages } 0

/-- The final spill of `tp_build`: no compaction. -/
def finalSpill (fsm : FreeSpaceMap) (size : SegmentSize) (s : IndexPages) :
    Except PageError IndexPages := do
  let (seg, s) ← writeAndRecord fsm size s
  return linkSegment s 0 seg.root

/-- `segment_head`, `segment_tail` and `segment_count` of the leader. -/
structure LeaderChain where
  segmentHead : Option Nat
  segmentTail : Option Nat
  segmentCount : Nat

/-- `tp_leader_process_buffers`: each segment is linked behind the tail. -/
def leaderWriteSegments (fsm : FreeSpaceMap) :
    List SegmentSize → LeaderChain → IndexPages → Except PageError (LeaderChain × IndexPages)
  | [], leader, s => return (leader, s)
  | size :: sizes, leader, s => do
      let (seg, s) ← writeAndRecord fsm size s
      match leader.segmentHead, leader.segmentTail with
      | some head, some tail =>
          let content := setNextSegment s.storage.content tail (some seg.root)
          leaderWriteSegments fsm sizes
            ⟨some head, some seg.root, leader.segmentCount + 1⟩
            { s with storage := { s.storage with content := content } }
      | _, _ =>
          leaderWriteSegments fsm sizes
            ⟨some seg.root, some seg.root, leader.segmentCount + 1⟩ s

/-- The truncation's loop over the chain of one level. -/
def maxUsedOfChain (st : Storage) : Nat → Option Nat → Nat → Except PageError Nat
  | _, none, maxUsed => return maxUsed
  | 0, some _, _ => .error .loopLimit
  | fuel + 1, some root, maxUsed => do
      let pages ← tpSegmentCollectPages st root
      match ← tpSegmentOpen st root with
      | none => .error (.readFailed root)
      | some reader =>
          maxUsedOfChain st fuel reader.header.nextSegment
            (pages.foldl (fun used page => max used (page + 1)) maxUsed)

/-- The truncation's loop over the levels. -/
def maxUsedOfLevels (st : Storage) (heads : Nat → Option Nat) :
    List Nat → Nat → Except PageError Nat
  | [], maxUsed => return maxUsed
  | level :: levels, maxUsed => do
      let maxUsed ← maxUsedOfChain st st.nblocks (heads level) maxUsed
      maxUsedOfLevels st heads levels maxUsed

/-- The final truncation of `tp_build_parallel`. -/
def finalTruncation (s : IndexPages) : Except PageError IndexPages := do
  let maxUsed ← maxUsedOfLevels s.storage s.levelHeads (List.range tpMaxLevels) 1
  if maxUsed < s.storage.nblocks then
    return { s with storage := { s.storage with nblocks := maxUsed } }
  else return s

/-- `tp_build_parallel` on a new index file: `sizes` are the segments of the leader. -/
def tpBuildParallel (fsm : FreeSpaceMap) (perLevel : SegmentsPerLevel)
    (segments : List SegmentSize) (sizes : Nat → SegmentSize) (statsPages : Nat) :
    Except PageError IndexPages := do
  let (leader, s) ← leaderWriteSegments fsm segments ⟨none, none, 0⟩ IndexPages.fresh
  let s := { s with
    levelHeads := Function.update s.levelHeads 0 leader.segmentHead
    levelCounts := Function.update s.levelCounts 0 (leader.segmentCount % 2 ^ 16) }
  let s ← tpMaybeCompactLevel fsm perLevel sizes tpMaxLevels s 0
  let s ← finalTruncation s
  return { s with storage := s.storage.extend statsPages }

/-! ## Runs -/

/-- What happens to an index file: docid pages are added, the memtable is spilled, and
builds start from a new file.  The spills of a serial build are `spill` steps. -/
inductive PageOp where
  | addPages (count : Nat)
  | spill (perLevel : SegmentsPerLevel) (size : SegmentSize) (sizes : Nat → SegmentSize)
      (statsPages : Nat)
  | beginBuild
  | finalSpill (size : SegmentSize)
  | buildParallel (perLevel : SegmentsPerLevel) (segments : List SegmentSize)
      (sizes : Nat → SegmentSize) (statsPages : Nat)

/-- One operation. -/
def pageOp (fsm : FreeSpaceMap) (s : IndexPages) : PageOp → Except PageError IndexPages
  | .addPages count => return { s with storage := s.storage.extend count }
  | .spill perLevel size sizes statsPages => spill fsm perLevel size sizes statsPages s
  | .beginBuild => return IndexPages.fresh
  | .finalSpill size => finalSpill fsm size s
  | .buildParallel perLevel segments sizes statsPages =>
      tpBuildParallel fsm perLevel segments sizes statsPages

/-- A step is an operation that raises no error. -/
def pageStep (fsm : FreeSpaceMap) (s : IndexPages) (op : PageOp) : Option IndexPages :=
  (pageOp fsm s op).toOption

/-! ## The two properties -/

/-- The `next_segment` chain that starts at a block. -/
inductive IsChain (content : Nat → PageContent) : Option Nat → List Nat → Prop where
  | nil : IsChain content none []
  | cons {root : Nat} {header : Header} {rest : List Nat}
      (here : content root = .segmentHeader header)
      (next : IsChain content header.nextSegment rest) :
      IsChain content (some root) (root :: rest)

/-- **The level invariant**: the counters are the lengths of the chains, the chains are
acyclic and disjoint, and each segment written and not merged is on exactly one. -/
def LevelInvariant (s : IndexPages) : Prop :=
  ∃ chain : Nat → List Nat,
    (∀ l < tpMaxLevels, IsChain s.storage.content (s.levelHeads l) (chain l) ∧
      s.levelCounts l = (chain l).length ∧ (chain l).Nodup) ∧
    (∀ l < tpMaxLevels, ∀ l' < tpMaxLevels, l ≠ l' → (chain l).Disjoint (chain l')) ∧
    ∀ seg ∈ s.written, ∃! l, l < tpMaxLevels ∧ seg.root ∈ chain l

/-- **Page ownership**: the segments on the chains are segments as they were written;
no page is in two of them or twice in one; free pages are in none of them, are not the
metapage and exist; and collecting the pages of a segment returns its pages. -/
def PageOwnership (s : IndexPages) : Prop :=
  ∃ live : Nat → List SegmentPages,
    (∀ l < tpMaxLevels,
      IsChain s.storage.content (s.levelHeads l) ((live l).map SegmentPages.root) ∧
      ∀ seg ∈ live l, seg ∈ s.written) ∧
    ((List.range tpMaxLevels).flatMap fun l => (live l).flatMap SegmentPages.all).Nodup ∧
    (∀ block ∈ s.storage.freePages, 0 < block ∧ block < s.storage.nblocks ∧
      ∀ l < tpMaxLevels, ∀ seg ∈ live l, block ∉ seg.all) ∧
    ∀ l < tpMaxLevels, ∀ seg ∈ live l,
      tpSegmentCollectPages s.storage seg.root = .ok seg.all

end PgTextsearch.Segment.Pages
