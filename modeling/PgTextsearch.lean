import PgTextsearch.Verified.KLargest
import PgTextsearch.Postgres
import PgTextsearch.Query.Scoring
import PgTextsearch.Verified.MinHeap
import PgTextsearch.Segment.BlockWriter
import PgTextsearch.Segment.PostingIterator
import PgTextsearch.Query.TopKHeap
import PgTextsearch.Query.TermState
import PgTextsearch.Query.Wand
import PgTextsearch.Query.WandCursors
import PgTextsearch.Query.WandCorrect
import PgTextsearch.State.DocidPages
import PgTextsearch.Memtable.Posting
import PgTextsearch.Segment.Contents
import PgTextsearch.State.Index
import PgTextsearch.State.Recovery
import PgTextsearch.State.InterruptedSpill
import PgTextsearch.State.IndexLock
import PgTextsearch.Am.Vacuum
import PgTextsearch.Am.WorkerBuffer
import PgTextsearch.Am.BuildParallel
import PgTextsearch.Query.SingleTerm
import PgTextsearch.Segment.LevelChains
import PgTextsearch.State.Extraction
import PgTextsearch.Segment.LevelInvariant
import PgTextsearch.Am.Build
import PgTextsearch.Am.Corpus
import PgTextsearch.Am.BuildSpec
import PgTextsearch.Am.CorpusStats
import PgTextsearch.Am.TenantStats
import PgTextsearch.Am.SegmentHeaders
import PgTextsearch.Am.BuildEquivalence
import PgTextsearch.Segment.Compression
import PgTextsearch.Verified.NWayMerge
import PgTextsearch.Segment.Merge
import PgTextsearch.Segment.MergeCorrect
import PgTextsearch.Verified.PagedFile
import PgTextsearch.Segment.Dictionary
import PgTextsearch.Segment.FileFormat
import PgTextsearch.Segment.FileReader
import PgTextsearch.Segment.FileWriter
import PgTextsearch.Am.BuildProgress
import PgTextsearch.Am.Scan
import PgTextsearch.State.FirstAttach
import PgTextsearch.Am.Rebuild
import PgTextsearch.Query.ScoreDocuments
import PgTextsearch.Query.Candidates
import PgTextsearch.Query.IdfCache
import PgTextsearch.Query.Operator
import PgTextsearch.Query.OperatorAgreement
import PgTextsearch.Query.TopKSearch
import PgTextsearch.Query.Exhaustive
import PgTextsearch.Query.PathAgreement
import PgTextsearch.Query.SegmentRows
import PgTextsearch.Query.Compaction
import PgTextsearch.Segment.Spill
import PgTextsearch.Query.Corpus
import PgTextsearch.Query.IndexRuns
import PgTextsearch.Query.LevelCounts
import PgTextsearch.Planner.Plan
import PgTextsearch.Planner.ScoreReplacement
import PgTextsearch.Planner.QueryTree
import PgTextsearch.Planner.TenantInjection
import PgTextsearch.Segment.CompressionChecks
import PgTextsearch.Query.TopKRuns
import PgTextsearch.Query.PartialSort
import PgTextsearch.Segment.TenantRanges
import PgTextsearch.Query.TenantDocFreq
import PgTextsearch.Types.Vector
import PgTextsearch.Segment.Stream
import PgTextsearch.Segment.StreamRead
import PgTextsearch.Segment.StreamFaithful
import PgTextsearch.Segment.StoredLists
import PgTextsearch.Segment.CompressedReads
import PgTextsearch.Query.TenantFilter
import PgTextsearch.Query.IdfCacheRuns
import PgTextsearch.Types.Query
import PgTextsearch.Rust.TopKHeap
import PgTextsearch.Rust.TermState
import PgTextsearch.Rust.WandPivot
import PgTextsearch.Rust.Merge
import PgTextsearch.Segment.DictionaryLookup
import PgTextsearch.Rust.Dictionary
import PgTextsearch.Segment.IteratorSeek
import PgTextsearch.Query.CursorSeek
import PgTextsearch.Query.TenantSearch
import PgTextsearch.Segment.RoundTrip
import PgTextsearch.Rust.SegmentBuilder
import PgTextsearch.Rust.SegmentReader
import PgTextsearch.Rust.SingleTerm
import PgTextsearch.Memtable.DsaRuns
import PgTextsearch.Segment.PageAccounting
