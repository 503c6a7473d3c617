import Proton.AggregateFunctions.DistinctRetract
import Proton.Checkpoint.CheckpointCoordinator
import Proton.Cluster.EncodeMetaKey
import Proton.Common.KeyBatch
import Proton.Common.KeyExpiry
import Proton.IO.KeyPrefixEnd
import Proton.LocalLog.AppendOnlyFile
import Proton.LocalLog.BufferedParsing
import Proton.LocalLog.CommitInterleaving
import Proton.LocalLog.Indexes.HeadTrim
import Proton.LocalLog.LogEntryCache
import Proton.LocalLog.Retention
import Proton.Storages.MergeTree.MergedSequenceInfo
import Proton.Storages.MergeTree.MissingRanges
import Proton.Storages.Stream.CommittedBlocks
import Proton.Storages.Stream.HistoricalCatchUp
import Proton.Storages.Stream.NativeLogPolling
import Proton.Storages.Stream.StreamingStoreSource
import Proton.Streaming.Aggregator.ChangelogEmission
import Proton.Streaming.Aggregator.HybridChangelog
import Proton.Streaming.Aggregator.HybridUpdates
import Proton.Streaming.Aggregator.HybridWindows
import Proton.Streaming.ChangelogLatest
import Proton.Streaming.DedupTransform
import Proton.Streaming.HashJoin.BlockInsertion
import Proton.Streaming.HashJoin.ChangelogJoin
import Proton.Streaming.HashJoin.RangeAsofRowRefs
import Proton.Streaming.HashJoin.RangeBuckets
import Proton.Streaming.HashJoin.SortedLookupContainer
import Proton.Streaming.HopBuckets
import Proton.Streaming.HopValidation
import Proton.Streaming.LimitByTransform
import Proton.Streaming.SessionBounds
import Proton.Streaming.TumblePartition
import Proton.Streaming.WindowMerge
