import PgTextsearch.Segment.PostingIterator

/-!
# Seeking in a posting iterator (`segment/scan.c`)

`tp_segment_posting_iterator_seek` searches the skip entries of the whole list, from the first
block on, and loads the block it finds: where the iterator stood before does not matter.

## Main results

* `seek_spec` — a seek stands on the first posting of the list that is not below the target.
-/

namespace PgTextsearch.Segment.PostingIterator

open PgTextsearch.Postgres PgTextsearch.Verified

/-- The last document id that the skip entry of a block has on disk. -/
def readLastDocId (it : PostingIterator) (block : Nat) : Nat :=
  (it.dictEntry.blocks.getD block default).skip.lastDocId

/-- `tp_segment_posting_iterator_seek`: the posting found, if any.  A CTID is not resolved
here, see `tp_segment_posting_iterator_next`. -/
def seek (it : PostingIterator) (targetDocId : Nat) : Option SegmentPosting × PostingIterator :=
  if !it.initialized || it.finished then (none, it)
  else
    let blockCount := it.dictEntry.blockCount
    let targetBlock := lowerBound (fun mid => decide (it.readLastDocId mid < targetDocId))
      blockCount 0 (blockCount - 1)
    if targetBlock ≥ blockCount then (none, { it with finished := true })
    else
      let loaded := ({ it with currentBlock := targetBlock, currentInBlock := 0 }
        : PostingIterator).loadBlock
      if !loaded.1 then (none, { loaded.2 with finished := true })
      else
        let scanned := scanBlock targetDocId loaded.2.skipEntry.docCount loaded.2
        if scanned.currentInBlock < scanned.skipEntry.docCount then
          (some scanned.current.output, scanned)
        else if scanned.currentBlock + 1 ≥ blockCount then
          (none, { scanned with currentBlock := scanned.currentBlock + 1, finished := true })
        else
          ({ scanned with currentBlock := scanned.currentBlock + 1, currentInBlock := 0 }
            : PostingIterator).next

variable {it : PostingIterator}

theorem readLastDocId_eq {block : Nat} {blk : Block}
    (hblk : it.dictEntry.blocks[block]? = some blk) :
    it.readLastDocId block = blk.skip.lastDocId := by
  rw [readLastDocId, List.getD_eq_getElem?_getD, hblk, Option.getD_some]

/-- After loading the right block, the scan of a seek is the one of `seek_term_to_doc`: it
never has to look at a further block. -/
theorem Positioned.scan_of_seek {target : Nat} (hp : it.Positioned) (hfin : it.finished = false)
    (htarget : target ≤ it.skipEntry.lastDocId ∨
      it.currentBlock + 1 = it.dictEntry.blocks.length) :
    (if (scanBlock target it.skipEntry.docCount it).currentInBlock <
        (scanBlock target it.skipEntry.docCount it).skipEntry.docCount then
      (some (scanBlock target it.skipEntry.docCount it).current.output,
        scanBlock target it.skipEntry.docCount it)
    else if (scanBlock target it.skipEntry.docCount it).currentBlock + 1 ≥
        it.dictEntry.blockCount then
      (none, { scanBlock target it.skipEntry.docCount it with
        currentBlock := (scanBlock target it.skipEntry.docCount it).currentBlock + 1
        finished := true })
    else
      ({ scanBlock target it.skipEntry.docCount it with
        currentBlock := (scanBlock target it.skipEntry.docCount it).currentBlock + 1
        currentInBlock := 0 } : PostingIterator).next) =
      ((it.scanOrNextBlock target).2.rem.head?.map BlockPosting.output,
        (it.scanOrNextBlock target).2) := by
  obtain ⟨blk, hblk, hskip, hpost, hin⟩ := hp.cached hfin
  have hcount : it.skipEntry.docCount = blk.postings.length := by
    rw [hskip, hp.wf.docCount_eq blk (List.mem_of_getElem? hblk)]
  have hspec := scanOrNextBlock_spec hp hfin htarget
  have hscan := scanBlock_eq target it.skipEntry.docCount hpost hcount (by omega) hin.le
  unfold scanOrNextBlock at hspec ⊢
  rw [hscan] at hspec ⊢
  dsimp only at hspec ⊢
  by_cases hstop : it.currentInBlock +
      ((blk.postings.drop it.currentInBlock).takeWhile (·.docId < target)).length <
        it.skipEntry.docCount
  · rw [if_pos hstop] at hspec ⊢
    rw [if_pos hstop, hspec.1.head?_rem hfin]
    rfl
  · -- the scan can only run off the last block
    have hlast : it.currentBlock + 1 = it.dictEntry.blocks.length := by
      cases htarget with
      | inr hend => exact hend
      | inl hreach =>
          have hne := hp.scan_reaches hblk hskip hin hreach
          rw [← drop_length_takeWhile, List.drop_drop] at hne
          exact absurd (List.drop_eq_nil_of_le (by omega)) hne
    have hge : it.currentBlock + 1 ≥ it.dictEntry.blockCount := by
      rw [hp.wf.blockCount_eq]
      omega
    rw [if_neg hstop, if_neg hstop, if_pos hge]
    have hnext : ({ it with currentInBlock := it.currentInBlock +
        ((blk.postings.drop it.currentInBlock).takeWhile (·.docId < target)).length }
        : PostingIterator).nextBlock.2 = { it with
          currentBlock := it.currentBlock + 1
          currentInBlock := it.currentInBlock +
            ((blk.postings.drop it.currentInBlock).takeWhile (·.docId < target)).length
          finished := true } := by
      simp [nextBlock, hge]
    rw [hnext]
    rfl

/-- **Seeking** stands on the first posting of the whole list that is not below the target,
wherever the iterator stood, and answers with it. -/
theorem seek_spec (hwf : it.dictEntry.WellFormed) (hinit : it.initialized = true)
    (hfin : it.finished = false) (target : Nat) :
    (it.seek target).2.Positioned ∧ (it.seek target).2.dictEntry = it.dictEntry ∧
      (it.seek target).2.rem = it.dictEntry.postings.dropWhile (·.docId < target) ∧
      (it.seek target).1 =
        ((it.dictEntry.postings.dropWhile (·.docId < target)).head?.map BlockPosting.output) := by
  have hguard : ¬ ((!it.initialized || it.finished) = true) := by simp [hinit, hfin]
  obtain ⟨block, hblock⟩ : ∃ block, block = lowerBound
    (fun mid => decide (it.readLastDocId mid < target)) it.dictEntry.blockCount 0
    (it.dictEntry.blockCount - 1) := ⟨_, rfl⟩
  have hcount := hwf.blockCount_eq
  have hmono : ∀ i j, 0 ≤ i → i ≤ j → j < it.dictEntry.blockCount - 1 →
      decide (it.readLastDocId j < target) = true →
      decide (it.readLastDocId i < target) = true := by
    intro i j _ hij hj hb
    have hjb := List.getElem?_eq_getElem (show j < it.dictEntry.blocks.length by omega)
    have hib := List.getElem?_eq_getElem (show i < it.dictEntry.blocks.length by omega)
    rw [decide_eq_true_eq, readLastDocId_eq hjb] at hb
    rw [decide_eq_true_eq, readLastDocId_eq hib]
    exact lt_of_le_of_lt (hwf.lastDocId_mono hib hjb hij) hb
  obtain ⟨-, hhigh, hbelow, hstop⟩ := lowerBound_spec _ it.dictEntry.blockCount 0
    (it.dictEntry.blockCount - 1) hmono (Nat.zero_le _) (by omega)
  rw [← hblock] at hhigh hbelow hstop
  have hwhole : it.dictEntry.postings =
      (it.dictEntry.blocks.drop 0).flatMap Block.postings := rfl
  by_cases hempty : it.dictEntry.blocks = []
  · have hge : block ≥ it.dictEntry.blockCount := by
      rw [hcount, hempty]
      exact Nat.zero_le _
    have heq : it.seek target = (none, { it with finished := true }) := by
      simp only [seek, if_neg hguard, ← hblock, if_pos hge]
    rw [heq, hwhole, hempty]
    exact ⟨⟨hwf, hinit, fun h => by simp at h⟩, rfl, rem_finished rfl, rfl⟩
  · have hpos := List.length_pos_of_ne_nil hempty
    have htgt := List.getElem?_eq_getElem (show block < it.dictEntry.blocks.length by omega)
    obtain ⟨it', hload, hitp, hitfin, hitdict, hitblock, hitskip, hitrem⟩ :=
      exists_loadBlock_at hwf hinit hfin htgt
    have hskipped : ∀ i, 0 ≤ i → i < block → ∀ b, it.dictEntry.blocks[i]? = some b →
        b.skip.lastDocId < target := by
      intro i h0 hi b hb
      have hlt := hbelow i h0 hi
      rwa [decide_eq_true_eq, readLastDocId_eq hb] at hlt
    have htarget : target ≤ it'.skipEntry.lastDocId ∨
        it'.currentBlock + 1 = it'.dictEntry.blocks.length := by
      by_cases hend : block < it.dictEntry.blockCount - 1
      · have hreach := hstop hend
        rw [decide_eq_false_iff_not, readLastDocId_eq htgt] at hreach
        exact Or.inl (by rw [hitskip]; exact Nat.not_lt.1 hreach)
      · exact Or.inr (by rw [hitblock, hitdict]; omega)
    have heq : it.seek target = ((it'.scanOrNextBlock target).2.rem.head?.map BlockPosting.output,
        (it'.scanOrNextBlock target).2) := by
      rw [← hitp.scan_of_seek hitfin htarget]
      simp only [seek, if_neg hguard, ← hblock,
        if_neg (show ¬ block ≥ it.dictEntry.blockCount by omega), hload, hitdict]
      simp
    obtain ⟨h1, h2, h3, -⟩ := scanOrNextBlock_spec hitp hitfin htarget
    rw [hitrem, ← dropWhile_skipped hwf (Nat.zero_le block) hskipped, ← hwhole] at h3
    rw [heq]
    exact ⟨h1, h2.trans hitdict, h3, by rw [h3]⟩

end PgTextsearch.Segment.PostingIterator
