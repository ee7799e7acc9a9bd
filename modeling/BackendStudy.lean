import BackendStudy.RbTree.Delete
import BackendStudy.RbTree.Removal
import BackendStudy.Lib.Runs
import BackendStudy.RbTree.Map
import BackendStudy.BTree.Model
import BackendStudy.BTree.Insert
import BackendStudy.BTree.Delete
import BackendStudy.Lib.Chain
import BackendStudy.MemPool.Model
import BackendStudy.MemPool.Blocks
import BackendStudy.MemPool.Pieces
import BackendStudy.MemPool.Buckets
import BackendStudy.Deadlock.Model
import BackendStudy.Deadlock.Invariant
import BackendStudy.Deadlock.Steps
import BackendStudy.Deadlock.Detector
import BackendStudy.ThreadPool.Model
import BackendStudy.ThreadPool.WakeUp
import BackendStudy.ThreadPool.Accounting
import BackendStudy.Deadlock.Lifetimes
import BackendStudy.ConnPool.Model
import BackendStudy.ConnPool.Ownership
import BackendStudy.MemPool.AutoClear
import BackendStudy.MemPool.Current
import BackendStudy.BTree.Bounds
import BackendStudy.BTree.Shape
import BackendStudy.BTree.Emptied
import BackendStudy.BTree.Hollow
import BackendStudy.Redis.Format
import BackendStudy.Dns.Model
import BackendStudy.Dns.Bounds
import BackendStudy.Dns.Decode
import BackendStudy.Stack.Model
import BackendStudy.Stack.Frames
import BackendStudy.ConnPool.Waiters
import BackendStudy.Redis.Connection
import BackendStudy.Redis.Prepared
import BackendStudy.RbTree.Sequence
import BackendStudy.BTree.LeafKeys
import BackendStudy.BTree.Split
import BackendStudy.Dns.Name
import BackendStudy.Dns.Encoding
import BackendStudy.Dns.Cursor
import BackendStudy.Dns.Request
import BackendStudy.Dns.RoundTrip
import BackendStudy.Kmp.Model
import BackendStudy.Kmp.Table
import BackendStudy.Kmp.Search
import BackendStudy.Deadlock.Pass
import BackendStudy.ThreadPool.Size
import BackendStudy.ThreadPool.Callers
import BackendStudy.ThreadPool.Growth
import BackendStudy.MemPool.Skipped
import BackendStudy.Lib.EndAround
import BackendStudy.Stack.Checksum
import BackendStudy.Stack.Ping
import BackendStudy.Stack.Mac
import BackendStudy.LinkedList.Model
import BackendStudy.Lib.Race
import BackendStudy.LinkedList.Heap
import BackendStudy.LinkedList.Looped
import BackendStudy.Lib.Reversal
import BackendStudy.LinkedList.Reverse
import BackendStudy.LinkedList.Clear
import BackendStudy.Lib.Crossing
import BackendStudy.LinkedList.Crossed
import BackendStudy.Lib.Streams
import BackendStudy.Reactor.Model
import BackendStudy.Reactor.Echo
import BackendStudy.Hiredis.Reader
import BackendStudy.Hiredis.Scan
import BackendStudy.Lib.Incremental
import BackendStudy.Lib.Decimal
import BackendStudy.Hiredis.Protocol
import BackendStudy.Hiredis.Objects
import BackendStudy.Hiredis.Memory
import BackendStudy.Hiredis.Tasks
import BackendStudy.Hiredis.Items
import BackendStudy.Hiredis.Replies
import BackendStudy.Hiredis.Sessions
import BackendStudy.Hiredis.Commands
import BackendStudy.Hiredis.Context
import BackendStudy.Hiredis.Pipeline
import BackendStudy.Hiredis.Refinement
import BackendStudy.Lib.Arena
import BackendStudy.Lib.Assoc
import BackendStudy.Hiredis.Dict
import BackendStudy.Hiredis.Buckets
import BackendStudy.Hiredis.Entries
import BackendStudy.Hiredis.Associations
import BackendStudy.Hiredis.Iterators
import BackendStudy.Memleak.Model
import BackendStudy.Memleak.Leaks
import BackendStudy.Dns.Pool
import BackendStudy.Dns.Holders
import BackendStudy.Dns.Callbacks
