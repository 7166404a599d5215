import Registry.Bits.Distance
import Registry.Core.BlobStore
import Registry.Core.BulkBuild
import Registry.Core.BulkTree
import Registry.Core.Deadlines
import Registry.Core.FirstWrite
import Registry.Core.Hamt
import Registry.Core.HamtTrie
import Registry.Core.Iscc
import Registry.Core.IsccQuery
import Registry.Core.IsccStore
import Registry.Core.IsccText
import Registry.Core.IsccWalk
import Registry.Core.LegacyKey
import Registry.Core.Libraries
import Registry.Core.Nearest
import Registry.Core.Node
import Registry.Core.PathCopy
import Registry.Core.Readback
import Registry.Core.Record
import Registry.Core.Segments
import Registry.Core.Similarity
import Registry.Core.Tabulated
import Registry.Core.TabulatedIndex
import Registry.Core.Trees
import Registry.Core.Walk
import Registry.Core.Walkers
import Registry.Daemon.Admission
import Registry.Daemon.Alone
import Registry.Daemon.Api
import Registry.Daemon.BuildTrees
import Registry.Daemon.BulkAgreement
import Registry.Daemon.BulkLoad
import Registry.Daemon.Client
import Registry.Daemon.Converge
import Registry.Daemon.Cycle
import Registry.Daemon.Durability
import Registry.Daemon.Gc
import Registry.Daemon.ImportPaths
import Registry.Daemon.Index
import Registry.Daemon.Ingest
import Registry.Daemon.KeyLines
import Registry.Daemon.Linearize
import Registry.Daemon.Loop
import Registry.Daemon.Protect
import Registry.Daemon.Publisher
import Registry.Daemon.Queue
import Registry.Daemon.Readable
import Registry.Daemon.Repair
import Registry.Daemon.Republish
import Registry.Daemon.Requests
import Registry.Daemon.Retention
import Registry.Daemon.Retimestamp
import Registry.Daemon.Roots
import Registry.Daemon.Scheduled
import Registry.Daemon.Settle
import Registry.Daemon.Sweep
import Registry.Daemon.System
import Registry.Daemon.Takedown
import Registry.Daemon.Verify
import Registry.Daemon.World
import Registry.Effect.Emits
import Registry.Effect.Interpret
import Registry.Effect.Pool
import Registry.Effect.Prog
import Registry.Sorting.Truncate
import Registry.Storectl.Reader
import Registry.Storectl.Reads
import Registry.Storectl.Seed
import Registry.Storectl.SimilarityQuery
import Registry.Text.Base32
import Registry.Text.Lines
import Registry.Text.Numerals
import Registry.Trie.Basic
import Registry.Trie.Canonical
import Registry.Trie.Shape
import Registry.Viewer.CodeIndex
import Registry.Viewer.Ranking
import Registry.Viewer.SyncLoop
