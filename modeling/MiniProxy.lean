import MiniProxy.Lib.Run
import MiniProxy.Lib.Exec
import MiniProxy.Lib.Buf
import MiniProxy.Lib.Lines
import MiniProxy.Lib.Words
import MiniProxy.Lib.DList
import MiniProxy.Lib.Lru
import MiniProxy.Nio.Model
import MiniProxy.Nio.Readline
import MiniProxy.Nio.Split
import MiniProxy.Nio.Blocks
import MiniProxy.Nio.Writen
import MiniProxy.Proxy.Forward
import MiniProxy.Proxy.Uri
import MiniProxy.Proxy.UriForm
import MiniProxy.Proxy.Request
import MiniProxy.Proxy.Worker
import MiniProxy.Proxy.Run
import MiniProxy.Proxy.Load
import MiniProxy.Proxy.Hits
import MiniProxy.Proxy.Replay
import MiniProxy.Lib.Threads
import MiniProxy.Lib.Fifo
import MiniProxy.Lib.Lifetime
import MiniProxy.Sbuf.Model
import MiniProxy.Sbuf.Count
import MiniProxy.Sbuf.Fifo
import MiniProxy.Sbuf.Wrap
import MiniProxy.Cache.RwLock
import MiniProxy.Lib.Code
import MiniProxy.Cache.Code
import MiniProxy.Cache.Discipline
import MiniProxy.Lib.Outline
import MiniProxy.Cache.Model
import MiniProxy.Cache.Repr
import MiniProxy.Cache.Calls
import MiniProxy.Cache.Queue
import MiniProxy.Cache.Policy
import MiniProxy.Cache.Lifetime
import MiniProxy.Cache.Fresh
import MiniProxy.Cache.Threads
import MiniProxy.Cache.Integrity
import MiniProxy.Cache.Alive
import MiniProxy.Cache.Eviction
import MiniProxy.Cache.Points
import MiniProxy.Cache.Sections
import MiniProxy.Cache.Reading
import MiniProxy.Cache.Refine
import MiniProxy.Cache.Atomic
import MiniProxy.Cache.Duplicates
import MiniProxy.Proxy.Descriptors
import MiniProxy.Proxy.Complete
import MiniProxy.Proxy.Smuggling
import MiniProxy.Proxy.Intake
import MiniProxy.Proxy.Bounds
import MiniProxy.Proxy.Replies
import MiniProxy.Proxy.Ends
import MiniProxy.Proxy.Capture
import MiniProxy.Nio.Rio
import MiniProxy.Nio.Client
import MiniProxy.Lib.Dispatch
import MiniProxy.Proxy.Pool
import MiniProxy.Proxy.Handoff
import MiniProxy.Proxy.Transparent
import MiniProxy.Proxy.Transaction
import MiniProxy.Cache.Contents
import MiniProxy.Cache.Ownership
import MiniProxy.Cache.Retention
import MiniProxy.Cache.Destroy
