import WiscKey.ValueLog.Refinement
import WiscKey.ValueLog.Interleaving
import WiscKey.ValueLog.AppendOnly
import WiscKey.ValueLog.Versions
import WiscKey.ValueLog.HeadPointer
import WiscKey.Flash.EraseSafety
import WiscKey.Flash.NftlCollect
import WiscKey.Flash.BlBuffer
import WiscKey.Flash.DftlCache
import WiscKey.Flash.StripeErase
import WiscKey.Flash.LruListDirty
import WiscKey.Flash.LruListSramRun
import WiscKey.Flash.AccessedPages
import WiscKey.Flash.ListIntegrity
import WiscKey.Log.RoundTrip
import WiscKey.Write.GroupCommitRun
import WiscKey.Version.ManifestExact
import WiscKey.Version.GetNewest
import WiscKey.Files.ObsoleteRun
import WiscKey.Trace.LevelZero
import WiscKey.Trace.Coverage
import WiscKey.Trace.Failure
import WiscKey.Trace.Reads
import WiscKey.Trace.Addresses
import WiscKey.Log.Torn
import WiscKey.Log.Offset
import WiscKey.ValueLog.Frame
import WiscKey.Iterator.DbIterRun
import WiscKey.Repair.Newest
import WiscKey.Beyond.LatestWrite
import WiscKey.Beyond.SubPages
import WiscKey.Beyond.Regional
import WiscKey.Beyond.Victim
import WiscKey.Compaction.Lookup
import WiscKey.Version.EditReuse
import WiscKey.Version.BuilderSequence
import WiscKey.Write.BatchLog
import WiscKey.Table.FilterBlock
import WiscKey.Table.FilterPolicy
import WiscKey.MemTable.MemTable
import WiscKey.Table.BlockRoundTrip
import WiscKey.Version.OverlapClosure
import WiscKey.Table.IndexKeys
import WiscKey.Compaction.GrandparentOverlap
import WiscKey.Table.Merger
import WiscKey.Table.TwoLevelIterator
import WiscKey.Compaction.BaseLevelRun
import WiscKey.Version.OverlapScan
import WiscKey.Version.ApproximateOffset
import WiscKey.Core.FileNameGrammar
import WiscKey.Core.Varint
import WiscKey.MemEnv.FileState
import WiscKey.Beyond.BlockList
import WiscKey.Cache.LruCacheRun
import WiscKey.Engine.Ages
import WiscKey.Engine.Scan
import WiscKey.Table.Format
import WiscKey.Table.BlockIterator
import WiscKey.Table.TableBuilder
import WiscKey.Table.TableBuilderRun
import WiscKey.Table.TableFinish
import WiscKey.Table.Table
import WiscKey.Table.TableRun
