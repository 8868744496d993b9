import Mathlib.Algebra.GroupWithZero.Nat
import PgTextsearch.Verified.DistinctKeys
import PgTextsearch.Verified.SortedUnion

/-!
# Segment merge in Rust (`rust/src/segment/merge.rs`, `docmap.rs`)

The merge collects the terms of all sources, and for each term the posting lists of the
sources that have it, with the document ids moved to the range of their source.

## Main results

* `buildMergeRemap_getElem?` — the maps shift each source behind the ones before it.
* `mergePostings_eq` — merging the posting lists of some sources with their maps.
* `mergeTermLists_conserves` — the merged lists hold every posting once, in order.
-/

namespace PgTextsearch.Rust

open PgTextsearch.Verified

/-- `PostingEntry`. -/
structure PostingEntry where
  docId : Nat
  frequency : Nat
  fieldnorm : Nat
  tenantId : Nat
  deriving DecidableEq, Repr

/-- One source: terms with their posting lists. -/
abbrev TermList (Term : Type) := List (Term × List PostingEntry)

/-! ## Remapping tables -/

/-- The loop of `build_merge_remap` from the document id `nextId` on; `next_id` is a 32-bit
counter. -/
def remapFrom : Nat → List Nat → List (List Nat)
  | _, [] => []
  | nextId, count :: rest =>
      let next := (nextId + count) % 2 ^ 32
      List.range' nextId (next - nextId) :: remapFrom next rest

/-- `build_merge_remap`. -/
def buildMergeRemap (docCounts : List Nat) : List (List Nat) := remapFrom 0 docCounts

/-- `total_docs`. -/
def totalDocs (docCounts : List Nat) : Nat := docCounts.sum

/-! ## Merging -/

/-- The body of the inner loop of `merge_postings`; `none` is an index past the end of a
map, or a missing map. -/
def remapPosting (docIdMaps : Option (List (List Nat))) (srcIdx : Nat) (posting : PostingEntry) :
    Option PostingEntry :=
  match docIdMaps with
  | some maps => do
      let map ← maps[srcIdx]?
      let newDocId ← map[posting.docId]?
      pure { posting with docId := newDocId }
  | none => some posting

/-- The loops of `merge_postings` from source `srcIdx` on. -/
def collectPostings (docIdMaps : Option (List (List Nat))) :
    Nat → List (List PostingEntry) → Option (List PostingEntry)
  | _, [] => some []
  | srcIdx, source :: rest => do
      let postings ← source.mapM (remapPosting docIdMaps srcIdx)
      let others ← collectPostings docIdMaps (srcIdx + 1) rest
      pure (postings ++ others)

/-- The stable sort by document id. -/
def sortByDocId (postings : List PostingEntry) : List PostingEntry :=
  postings.mergeSort fun a b => decide (a.docId ≤ b.docId)

/-- `merge_postings`. -/
def mergePostings (sources : List (List PostingEntry)) (docIdMaps : Option (List (List Nat))) :
    Option (List PostingEntry) :=
  (collectPostings docIdMaps 0 sources).map sortByDocId

variable {Term : Type} [LinearOrder Term]

/-- The sources that have the term: its postings there and the index of the source. -/
def termSources (sources : List (TermList Term)) (term : Term) :
    List (List PostingEntry × Nat) :=
  sources.zipIdx.filterMap fun (source, srcIdx) =>
    (source.find? fun e => e.1 = term).map fun e => (e.2, srcIdx)

/-- The merged posting list of one term. -/
def mergeTerm (sources : List (TermList Term)) (docIdMaps : Option (List (List Nat)))
    (term : Term) : Option (List PostingEntry) :=
  let found := termSources sources term
  match docIdMaps with
  | some maps => do
      let srcMaps ← found.mapM fun s => maps[s.2]?
      mergePostings (found.map Prod.fst) (some srcMaps)
  | none => mergePostings (found.map Prod.fst) none

/-- The loop of `merge_term_lists` over the terms. -/
def mergeTerms (sources : List (TermList Term)) (docIdMaps : Option (List (List Nat))) :
    List Term → Option (TermList Term)
  | [] => some []
  | term :: rest =>
      if (termSources sources term).isEmpty then mergeTerms sources docIdMaps rest
      else do
        let merged ← mergeTerm sources docIdMaps term
        let others ← mergeTerms sources docIdMaps rest
        pure ((term, merged) :: others)

/-- `merge_term_lists`. -/
def mergeTermLists (sources : List (TermList Term)) (docIdMaps : Option (List (List Nat))) :
    Option (TermList Term) :=
  mergeTerms sources docIdMaps (sortedUnion (sources.flatMap fun source => source.map Prod.fst))

/-! ## What the maps do -/

/-- The documents of a source come behind those of the sources before it. -/
def newDocId (docCounts : List Nat) (srcIdx docId : Nat) : Nat :=
  (docCounts.take srcIdx).sum + docId

/-- Looking up an old document id in the map of a source. -/
def mapped (maps : List (List Nat)) (srcIdx docId : Nat) : Option Nat := do
  let map ← maps[srcIdx]?
  map[docId]?

@[simp] theorem length_remapFrom (nextId : Nat) (docCounts : List Nat) :
    (remapFrom nextId docCounts).length = docCounts.length := by
  induction docCounts generalizing nextId with
  | nil => rfl
  | cons count rest ih => simp [remapFrom, ih]

/-- **The maps**: the map of source `i` shifts its documents behind the ones before it. -/
theorem remapFrom_getElem? {nextId : Nat} {docCounts : List Nat}
    (htotal : nextId + docCounts.sum < 2 ^ 32) (i : Nat) :
    (remapFrom nextId docCounts)[i]? =
      (docCounts[i]?).map fun count => List.range' (nextId + (docCounts.take i).sum) count := by
  induction docCounts generalizing nextId i with
  | nil => rfl
  | cons count rest ih =>
      rw [List.sum_cons] at htotal
      have hnext : (nextId + count) % 2 ^ 32 = nextId + count := Nat.mod_eq_of_lt (by omega)
      simp only [remapFrom, hnext]
      cases i with
      | zero => simp
      | succ i =>
          rw [List.getElem?_cons_succ, List.getElem?_cons_succ, ih (by omega), List.take_succ_cons,
            List.sum_cons, Nat.add_assoc]

theorem buildMergeRemap_getElem? {docCounts : List Nat} (htotal : totalDocs docCounts < 2 ^ 32)
    (i : Nat) : (buildMergeRemap docCounts)[i]? =
      (docCounts[i]?).map fun count => List.range' (docCounts.take i).sum count := by
  have hfits : 0 + totalDocs docCounts < 2 ^ 32 := by rwa [Nat.zero_add]
  have hfrom := remapFrom_getElem? hfits i
  rwa [Nat.zero_add] at hfrom

/-- An old document id is mapped exactly if the source has it, to its shifted place. -/
theorem mapped_eq_some_iff {docCounts : List Nat} (htotal : totalDocs docCounts < 2 ^ 32)
    {i d x : Nat} : mapped (buildMergeRemap docCounts) i d = some x ↔
      d < docCounts.getD i 0 ∧ x = newDocId docCounts i d := by
  unfold mapped newDocId
  rw [buildMergeRemap_getElem? htotal]
  cases hi : docCounts[i]? with
  | none => simp [hi]
  | some count =>
      simp only [Option.map_some, Option.bind_eq_bind, Option.bind_some,
        List.getD_eq_getElem?_getD, hi, Option.getD_some]
      by_cases hd : d < count
      · rw [List.getElem?_range' hd]
        simp [hd, eq_comm]
      · rw [List.getElem?_eq_none (by simpa using hd)]
        simp [hd]

/-- Sources before a source have their documents before it. -/
theorem sum_take_add_getD_le (docCounts : List Nat) {i j : Nat} (hij : i < j) :
    (docCounts.take i).sum + docCounts.getD i 0 ≤ (docCounts.take j).sum := by
  induction docCounts generalizing i j with
  | nil => simp
  | cons count rest ih =>
      cases j with
      | zero => exact absurd hij (Nat.not_lt_zero _)
      | succ j =>
          cases i with
          | zero => simp
          | succ i =>
              have hrest := ih (Nat.lt_of_succ_lt_succ hij)
              simp only [List.take_succ_cons, List.sum_cons, List.getD_cons_succ]
              omega

/-- **New document ids** determine the source and the old document id. -/
theorem newDocId_inj {docCounts : List Nat} {i j d e : Nat} (hd : d < docCounts.getD i 0)
    (he : e < docCounts.getD j 0) (heq : newDocId docCounts i d = newDocId docCounts j e) :
    i = j ∧ d = e := by
  unfold newDocId at heq
  rcases Nat.lt_trichotomy i j with hlt | hij | hgt
  · have := sum_take_add_getD_le docCounts hlt
    omega
  · subst hij
    exact ⟨rfl, by omega⟩
  · have := sum_take_add_getD_le docCounts hgt
    omega

/-! ## Merging the posting lists of a term -/

/-- The posting with its new document id. -/
def PostingEntry.moved (docCounts : List Nat) (srcIdx : Nat) (p : PostingEntry) : PostingEntry :=
  { p with docId := newDocId docCounts srcIdx p.docId }

/-- Posting lists with their maps at hand, every document id within its map. -/
theorem collectPostings_eq (before : List (List Nat))
    (pairs : List (List PostingEntry × List Nat))
    (hin : ∀ pair ∈ pairs, ∀ p ∈ pair.1, p.docId < pair.2.length) :
    collectPostings (some (before ++ pairs.map Prod.snd)) before.length (pairs.map Prod.fst) =
      some (pairs.flatMap fun pair =>
        pair.1.map fun p => { p with docId := pair.2.getD p.docId 0 }) := by
  induction pairs generalizing before with
  | nil => rfl
  | cons pair rest ih =>
      have hslot : (before ++ (pair :: rest).map Prod.snd)[before.length]? = some pair.2 := by simp
      have hposting : ∀ p : PostingEntry, p.docId < pair.2.length →
          remapPosting (some (before ++ (pair :: rest).map Prod.snd)) before.length p =
            some { p with docId := pair.2.getD p.docId 0 } := by
        intro p hp
        unfold remapPosting
        rw [List.getD_eq_getElem?_getD, List.getElem?_eq_getElem hp]
        simp only [hslot, Option.bind_eq_bind, Option.bind_some, List.getElem?_eq_getElem hp]
        rfl
      have hmap : ∀ ps : List PostingEntry, (∀ p ∈ ps, p.docId < pair.2.length) →
          ps.mapM (remapPosting (some (before ++ (pair :: rest).map Prod.snd)) before.length) =
            some (ps.map fun p => { p with docId := pair.2.getD p.docId 0 }) := by
        intro ps
        induction ps with
        | nil => exact fun _ => rfl
        | cons p ps ihps =>
            intro hps
            rw [List.mapM_cons, hposting p (hps p List.mem_cons_self),
              ihps fun q hq => hps q (List.mem_cons_of_mem _ hq)]
            rfl
      have hrest := ih (before ++ [pair.2]) fun q hq => hin q (List.mem_cons_of_mem _ hq)
      rw [List.length_append, List.length_singleton, List.append_assoc, List.singleton_append]
        at hrest
      have hfirst := hmap pair.1 (hin pair List.mem_cons_self)
      rw [List.map_cons] at hfirst
      simp only [List.map_cons, collectPostings, hfirst, hrest, Option.bind_eq_bind,
        Option.bind_some]
      rfl

/-! ## Merging the term lists -/

/-- Sources the merge is meant for: as many as document counts, distinct terms, distinct
document ids below the source's count, and at most 2³² documents. -/
structure MergeInput (docCounts : List Nat) (sources : List (TermList Term)) : Prop where
  aligned : docCounts.length = sources.length
  total : totalDocs docCounts < 2 ^ 32
  distinctTerms : ∀ source ∈ sources, (source.map Prod.fst).Nodup
  distinctDocs : ∀ source ∈ sources, ∀ e ∈ source, (e.2.map PostingEntry.docId).Nodup
  below : ∀ i source, sources[i]? = some source →
    ∀ e ∈ source, ∀ p ∈ e.2, p.docId < docCounts.getD i 0

/-- The postings the sources have for a term, with their new document ids. -/
def sourcePostings (docCounts : List Nat) (sources : List (TermList Term)) (term : Term) :
    List PostingEntry :=
  sources.zipIdx.flatMap fun (source, srcIdx) =>
    ((source.filter fun e => e.1 = term).flatMap Prod.snd).map (PostingEntry.moved docCounts srcIdx)

/-- What a merge keeps of its sources. -/
structure Conserves (docCounts : List Nat) (sources : List (TermList Term))
    (merged : TermList Term) : Prop where
  increasing : (merged.map Prod.fst).Pairwise (· < ·)
  union : ∀ term, term ∈ merged.map Prod.fst ↔ ∃ source ∈ sources, term ∈ source.map Prod.fst
  postings : ∀ e ∈ merged, e.2.Perm (sourcePostings docCounts sources e.1)
  sorted : ∀ e ∈ merged, e.2.Pairwise (·.docId < ·.docId)

section Merge

variable {docCounts : List Nat} {sources : List (TermList Term)}

/-- A found posting list belongs to an entry of its source. -/
theorem mem_termSources {term : Term} {s : List PostingEntry × Nat}
    (hs : s ∈ termSources sources term) :
    ∃ source, sources[s.2]? = some source ∧ (term, s.1) ∈ source := by
  obtain ⟨⟨source, srcIdx⟩, hmem, hfind⟩ := List.mem_filterMap.1 hs
  simp only [Option.map_eq_some_iff] at hfind
  obtain ⟨e, he, rfl⟩ := hfind
  refine ⟨source, List.mem_zipIdx_iff_getElem?.1 hmem, ?_⟩
  have hterm : e.1 = term := by simpa using List.find?_some he
  rw [← hterm]
  exact List.mem_of_find?_eq_some he

/-- With distinct terms, the sources found for a term hold all its postings. -/
theorem flatMap_termSources (hinput : MergeInput docCounts sources) (term : Term) :
    (termSources sources term).flatMap (fun s => s.1.map (PostingEntry.moved docCounts s.2)) =
      sourcePostings docCounts sources term := by
  unfold termSources sourcePostings
  rw [List.filterMap_eq_flatMap_toList, List.flatMap_assoc]
  apply List.flatMap_congr
  intro ⟨source, srcIdx⟩ hmem
  have hsource : source ∈ sources := List.mem_of_getElem? (List.mem_zipIdx_iff_getElem?.1 hmem)
  cases hfind : source.find? (fun e => e.1 = term) with
  | none =>
      have hnil : source.filter (fun e => e.1 = term) = [] := by
        rw [List.filter_eq_nil_iff]
        exact List.find?_eq_none.1 hfind
      simp [hfind, hnil]
  | some e =>
      have hterm : e.1 = term := by simpa using List.find?_some hfind
      have hone := DistinctKeys.filter_eq_singleton (hinput.distinctTerms source hsource)
        (List.mem_of_find?_eq_some hfind) hterm
      simp [hfind, hone]

/-- The postings of one source, under their entry. -/
theorem MergeInput.mem_filter (hinput : MergeInput docCounts sources) {source : TermList Term}
    {srcIdx : Nat} (hmem : (source, srcIdx) ∈ sources.zipIdx) (term : Term) {p : PostingEntry}
    (hp : p ∈ (source.filter fun e => e.1 = term).flatMap Prod.snd) :
    p.docId < docCounts.getD srcIdx 0 := by
  obtain ⟨e, he, hpe⟩ := List.mem_flatMap.1 hp
  exact hinput.below srcIdx source (List.mem_zipIdx_iff_getElem?.1 hmem) e
    (List.mem_filter.1 he).1 p hpe

/-- No new document id occurs twice in the postings of a term. -/
theorem sourcePostings_distinct (hinput : MergeInput docCounts sources) (term : Term) :
    (sourcePostings docCounts sources term).Pairwise (·.docId ≠ ·.docId) := by
  unfold sourcePostings
  rw [List.pairwise_flatMap]
  constructor
  · intro ⟨source, srcIdx⟩ hmem
    have hsource : source ∈ sources := List.mem_of_getElem? (List.mem_zipIdx_iff_getElem?.1 hmem)
    have hone : ((source.filter fun e => e.1 = term).flatMap Prod.snd).Pairwise
        (·.docId ≠ ·.docId) := by
      cases hfind : source.find? (fun e => e.1 = term) with
      | none =>
          have hnil : source.filter (fun e => e.1 = term) = [] := by
            rw [List.filter_eq_nil_iff]
            exact List.find?_eq_none.1 hfind
          rw [hnil]
          exact .nil
      | some e =>
          have hterm : e.1 = term := by simpa using List.find?_some hfind
          have hmem := List.mem_of_find?_eq_some hfind
          rw [DistinctKeys.filter_eq_singleton (hinput.distinctTerms source hsource) hmem hterm,
            List.flatMap_singleton]
          exact List.pairwise_map.1
            (List.nodup_iff_pairwise_ne.1 (hinput.distinctDocs source hsource e hmem))
    rw [List.pairwise_map]
    exact hone.imp fun hne heq => hne (Nat.add_left_cancel heq)
  · have hindex : sources.zipIdx.Pairwise (·.2 ≠ ·.2) := by
      rw [← List.pairwise_map, ← List.nodup_iff_pairwise_ne, List.zipIdx_map_snd]
      exact List.nodup_range'
    refine hindex.imp_of_mem fun {a b} ha hb hne x hx y hy heq => hne ?_
    obtain ⟨p, hp, rfl⟩ := List.mem_map.1 hx
    obtain ⟨q, hq, rfl⟩ := List.mem_map.1 hy
    exact (newDocId_inj (hinput.mem_filter ha term hp) (hinput.mem_filter hb term hq) heq).1

/-- **One term**: its merged list is the sorted list of the sources' postings. -/
theorem mergeTerm_eq (hinput : MergeInput docCounts sources) (term : Term) :
    mergeTerm sources (some (buildMergeRemap docCounts)) term =
      some (sortByDocId (sourcePostings docCounts sources term)) := by
  have hslot : ∀ s ∈ termSources sources term, (buildMergeRemap docCounts)[s.2]? =
      some (List.range' (docCounts.take s.2).sum (docCounts.getD s.2 0)) := by
    intro s hs
    obtain ⟨source, hsource, -⟩ := mem_termSources hs
    have hlen : s.2 < docCounts.length := by
      rw [hinput.aligned]
      exact (List.getElem?_eq_some_iff.1 hsource).1
    rw [buildMergeRemap_getElem? hinput.total, List.getD_eq_getElem?_getD,
      List.getElem?_eq_getElem hlen]
    rfl
  have hmaps : (termSources sources term).mapM (fun s => (buildMergeRemap docCounts)[s.2]?) =
      some ((termSources sources term).map fun s =>
        List.range' (docCounts.take s.2).sum (docCounts.getD s.2 0)) := by
    generalize termSources sources term = found at hslot
    induction found with
    | nil => rfl
    | cons s rest ih =>
        rw [List.mapM_cons, hslot s List.mem_cons_self,
          ih fun q hq => hslot q (List.mem_cons_of_mem _ hq)]
        rfl
  have hcollect := collectPostings_eq [] ((termSources sources term).map fun s =>
      (s.1, List.range' (docCounts.take s.2).sum (docCounts.getD s.2 0))) (by
    intro pair hpair p hp
    obtain ⟨s, hs, rfl⟩ := List.mem_map.1 hpair
    obtain ⟨source, hsource, hentry⟩ := mem_termSources hs
    rw [List.length_range']
    exact hinput.below s.2 source hsource _ hentry p hp)
  simp only [List.nil_append, List.length_nil, List.map_map] at hcollect
  unfold mergeTerm mergePostings
  simp only [hmaps, Option.bind_eq_bind, Option.bind_some]
  refine (congrArg (Option.map sortByDocId) hcollect).trans ?_
  rw [Option.map_some, ← flatMap_termSources hinput term, List.flatMap_map]
  congr 2
  apply List.flatMap_congr
  intro s hs
  obtain ⟨source, hsource, hentry⟩ := mem_termSources hs
  apply List.map_congr_left
  intro p hp
  have hlt := hinput.below s.2 source hsource _ hentry p hp
  have hnew : (List.range' (docCounts.take s.2).sum (docCounts.getD s.2 0)).getD p.docId 0 =
      newDocId docCounts s.2 p.docId := by
    rw [List.getD_eq_getElem?_getD, List.getElem?_range' hlt, Option.getD_some, Nat.one_mul]
    rfl
  rw [hnew]
  rfl

/-- A term of the union is found in some source. -/
theorem termSources_isEmpty_iff (term : Term) : (termSources sources term).isEmpty = true ↔
    ∀ source ∈ sources, term ∉ source.map Prod.fst := by
  rw [List.isEmpty_iff]
  constructor
  · intro hnil source hsource hterm
    obtain ⟨e, he, rfl⟩ := List.mem_map.1 hterm
    obtain ⟨srcIdx, hidx⟩ := List.mem_iff_getElem?.1 hsource
    have hne := List.filterMap_eq_nil_iff.1 hnil (source, srcIdx)
      (List.mem_zipIdx_iff_getElem?.2 hidx)
    rw [Option.map_eq_none_iff, List.find?_eq_none] at hne
    exact hne e he (by simp)
  · intro hnone
    apply List.filterMap_eq_nil_iff.2
    intro ⟨source, srcIdx⟩ hmem
    rw [Option.map_eq_none_iff, List.find?_eq_none]
    intro e he heq
    have hterm : e.1 = term := by simpa using heq
    exact hnone source (List.mem_of_getElem? (List.mem_zipIdx_iff_getElem?.1 hmem))
      (hterm ▸ List.mem_map_of_mem he)

/-- The loop over terms that all occur in some source. -/
theorem mergeTerms_eq (hinput : MergeInput docCounts sources) {terms : List Term}
    (hterms : ∀ term ∈ terms, ∃ source ∈ sources, term ∈ source.map Prod.fst) :
    mergeTerms sources (some (buildMergeRemap docCounts)) terms =
      some (terms.map fun term => (term, sortByDocId (sourcePostings docCounts sources term))) := by
  induction terms with
  | nil => rfl
  | cons term rest ih =>
      have hfound : (termSources sources term).isEmpty ≠ true := by
        rw [Ne, termSources_isEmpty_iff]
        intro hnone
        obtain ⟨source, hsource, hterm⟩ := hterms term List.mem_cons_self
        exact hnone source hsource hterm
      rw [mergeTerms, if_neg hfound, mergeTerm_eq hinput,
        ih fun t ht => hterms t (List.mem_cons_of_mem _ ht)]
      rfl

theorem sortByDocId_perm (postings : List PostingEntry) : (sortByDocId postings).Perm postings :=
  List.mergeSort_perm _ _

theorem sortByDocId_pairwise {postings : List PostingEntry}
    (hdistinct : postings.Pairwise (·.docId ≠ ·.docId)) :
    (sortByDocId postings).Pairwise (·.docId < ·.docId) := by
  have hle : (sortByDocId postings).Pairwise (·.docId ≤ ·.docId) :=
    mergeSort_pairwise_key PostingEntry.docId postings
  have hne : (sortByDocId postings).Pairwise (·.docId ≠ ·.docId) :=
    hdistinct.perm (sortByDocId_perm postings).symm fun h => h.symm
  exact (hle.and hne).imp fun h => lt_of_le_of_ne h.1 h.2

end Merge

/-- **The merge conserves postings**: with the maps of `build_merge_remap` it succeeds, keeps
every term once and in order, and every posting of every source under its new document id,
which determines the source and the old one. -/
theorem mergeTermLists_conserves (docCounts : List Nat) (sources : List (TermList Term))
    (hinput : MergeInput docCounts sources) :
    (∃ merged, mergeTermLists sources (some (buildMergeRemap docCounts)) = some merged ∧
      Conserves docCounts sources merged) ∧
    (∀ i d, d < docCounts.getD i 0 →
      mapped (buildMergeRemap docCounts) i d = some (newDocId docCounts i d)) ∧
    ∀ i j d e x, mapped (buildMergeRemap docCounts) i d = some x →
      mapped (buildMergeRemap docCounts) j e = some x → i = j ∧ d = e := by
  refine ⟨⟨_, mergeTerms_eq hinput fun term hterm => ?_, ?_⟩, fun i d hd => ?_, ?_⟩
  · obtain ⟨source, hsource, hmem⟩ := List.mem_flatMap.1 ((mem_sortedUnion _ _).1 hterm)
    exact ⟨source, hsource, hmem⟩
  · constructor
    case increasing =>
      rw [List.map_map]
      simpa [Function.comp_def] using sortedUnion_pairwise _
    case union =>
      intro term
      rw [List.map_map]
      simp [Function.comp_def]
    case postings =>
      intro e he
      obtain ⟨term, -, rfl⟩ := List.mem_map.1 he
      exact sortByDocId_perm _
    case sorted =>
      intro e he
      obtain ⟨term, -, rfl⟩ := List.mem_map.1 he
      exact sortByDocId_pairwise (sourcePostings_distinct hinput term)
  · exact (mapped_eq_some_iff hinput.total).2 ⟨hd, rfl⟩
  · intro i j d e x hi hj
    obtain ⟨hd, hx⟩ := (mapped_eq_some_iff hinput.total).1 hi
    obtain ⟨he, hx'⟩ := (mapped_eq_some_iff hinput.total).1 hj
    exact newDocId_inj hd he (hx.symm.trans hx')

/-- Two sources that share one of their terms. -/
def twoSources : List (TermList Nat) :=
  [[(1, [⟨0, 1, 42, 0⟩]), (2, [⟨1, 2, 42, 0⟩])], [(2, [⟨0, 3, 55, 7⟩]), (3, [⟨1, 1, 30, 7⟩])]]

theorem mergeTermLists_conserves_two :
    (∃ merged, mergeTermLists twoSources (some (buildMergeRemap [2, 2])) = some merged ∧
      Conserves [2, 2] twoSources merged) ∧
    (∀ i d, d < [2, 2].getD i 0 →
      mapped (buildMergeRemap [2, 2]) i d = some (newDocId [2, 2] i d)) ∧
    ∀ i j d e x, mapped (buildMergeRemap [2, 2]) i d = some x →
      mapped (buildMergeRemap [2, 2]) j e = some x → i = j ∧ d = e := by
  apply mergeTermLists_conserves [2, 2] twoSources
  constructor
  case aligned => rfl
  case total => decide
  case distinctTerms => decide
  case distinctDocs => decide
  case below =>
    have hbelow : ∀ i < twoSources.length, ∀ e ∈ twoSources.getD i [], ∀ p ∈ e.2,
        p.docId < [2, 2].getD i 0 := by decide
    intro i source hsource
    have hi := (List.getElem?_eq_some_iff.1 hsource).1
    have hget : twoSources.getD i [] = source := by
      rw [List.getD_eq_getElem?_getD, hsource, Option.getD_some]
    exact hget ▸ hbelow i hi

end PgTextsearch.Rust
