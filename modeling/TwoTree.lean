import TwoTree.LockManager.Protocol
import TwoTree.ConcurrentTwoBTree.Remove
import TwoTree.ConcurrentTwoBTree.Linearization
import TwoTree.TwoBTree.Refinement
import TwoTree.TwoIHeap.Refinement
import TwoTree.ConcurrentPartitionedBTree.Placeholders
import TwoTree.BTreeCachedVS.Refinement
import TwoTree.TwoLSMT.Refinement
import TwoTree.BidirectionalMigration.Visibility
import TwoTree.AntiCaching.Refinement
import TwoTree.LinearHashing.Lookup
import TwoTree.OverflowHeap.Refinement
import TwoTree.BufferManager.FreeList
import TwoTree.ConcurrencyRecovery.GroupCommiter
import TwoTree.ConcurrencyRecovery.WalChunk
import TwoTree.TpcC.Adapter
import TwoTree.Heap.Indexed
import TwoTree.TwoHash.Evictions
import TwoTree.BTree.PartialMerge
import TwoTree.BTree.Iterator
import TwoTree.BTree.Upsert
import TwoTree.TpcC.WalUpdates
import TwoTree.Heap.Returns
import TwoTree.LinearHashing.Guards
import TwoTree.BTreeOlc.Scan
import TwoTree.LinearHashing.Writers
