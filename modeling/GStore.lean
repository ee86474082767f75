import GStore.Lib.Search
import GStore.Lib.Sorted
import GStore.Lib.Buffer
import GStore.Lib.Groups
import GStore.Lib.Run
import GStore.Lib.Runs
import GStore.Lib.Links
import GStore.Lib.Checked
import GStore.Lib.Conjunctive
import GStore.Lib.UnionFind
import GStore.Lib.Toggle
import GStore.Lib.Chunks
import GStore.KVstore.Layout
import GStore.KVstore.Single
import GStore.KVstore.Predicate
import GStore.KVstore.Batch
import GStore.KVstore.BlockManager
import GStore.KVstore.FreeRuns
import GStore.KVstore.BlockStore
import GStore.Util.Version
import GStore.Util.GraphLock
import GStore.Util.Transaction
import GStore.KVstore.IVEntry
import GStore.KVstore.IVArray
import GStore.KVstore.CacheArray
import GStore.KVstore.CacheCoherence
import GStore.KVstore.CacheOps
import GStore.KVstore.CachePins
import GStore.KVstore.CacheFiles
import GStore.KVstore.IVCache
import GStore.KVstore.ISCache
import GStore.KVstore.Store
import GStore.KVstore.Triples
import GStore.KVstore.KeyLists
import GStore.KVstore.BatchUpdates
import GStore.KVstore.Reads
import GStore.KVstore.Mvcc
import GStore.Txn.System
import GStore.Txn.Merge
import GStore.Txn.Chain
import GStore.Txn.Calls
import GStore.Txn.Visible
import GStore.Txn.Solo
import GStore.Txn.History
import GStore.Txn.WellFormed
import GStore.Txn.Snapshot
import GStore.Txn.Latch
import GStore.Txn.Locks
import GStore.Txn.Checkpoint
import GStore.Lib.StableSort
import GStore.Query.MultitypeValue
import GStore.Query.Expression
import GStore.Query.TermOrder
import GStore.Query.TermText
import GStore.Query.IntegerExpression
import GStore.Util.Stream
import GStore.Database.Terms
import GStore.Database.Database
import GStore.Database.IdInfo
import GStore.Database.CSR
import GStore.Database.Dense
import GStore.Query.PathQuery
import GStore.Lib.QuickSort
import GStore.Query.Varset
import GStore.Query.TempResult
import GStore.Query.Solutions
import GStore.Query.Projection
import GStore.Query.Candidates
import GStore.Query.Pattern
import GStore.Query.PatternBlocks
import GStore.Query.UnionExpansion
import GStore.Query.PlanTree
import GStore.Query.EdgeFilter
import GStore.Query.TableJoin
import GStore.Query.Blocks
import GStore.Query.DepthFirst
import GStore.Query.DepthRows
import GStore.Query.Limit
import GStore.Database.Invariant
import GStore.Database.Bijection
import GStore.Database.Statistics
import GStore.Database.SubBatch
import GStore.Database.BatchRemove
import GStore.Database.BatchTerms
import GStore.Database.BatchInsert
import GStore.Lib.Traversal
import GStore.Query.KleeneClosure
import GStore.Lib.SwapFilter
import GStore.Query.Filter
import GStore.Query.EntityGraph
import GStore.Lib.Triangles
import GStore.Query.LabelledGraph
import GStore.Query.Triangles
import GStore.Query.ConstantPattern
import GStore.Lib.Distance
import GStore.Lib.SimplePaths
import GStore.Lib.Loop
import GStore.Query.ShortestPath
import GStore.Query.AllShortestPaths
import GStore.Query.EnumeratePaths
import GStore.Query.Coefficients
import GStore.Query.UpdateTemplate
import GStore.Query.WCC
import GStore.Query.ExtendRecord
import GStore.Util.StringUtil
import GStore.Query.IDListWithAppending
import GStore.Query.RowBounds
import GStore.Cluster.LogChain
