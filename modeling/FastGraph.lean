import FastGraph.Net.Proofs.Fragmentation
import FastGraph.Net.Proofs.Closing
import FastGraph.Net.Proofs.EndOfFile
import FastGraph.Net.Proofs.Sending
import FastGraph.Protocol.Proofs.Stability
import FastGraph.Protocol.Proofs.Grammar
import FastGraph.Protocol.Proofs.Inline
import FastGraph.Protocol.Proofs.Progress
import FastGraph.Kv.Proofs.Hashmap
import FastGraph.Kv.Proofs.Probing
import FastGraph.Kv.Proofs.Expiry
import FastGraph.Kv.Proofs.Deadlines
import FastGraph.Kv.Proofs.Eviction
import FastGraph.Kv.Proofs.Snapshot
import FastGraph.Graph.Proofs.Edges
import FastGraph.Graph.Proofs.DijkstraCsr
import FastGraph.Graph.Proofs.Distances
import FastGraph.Graph.Proofs.Removal
import FastGraph.Graph.Proofs.RemoveNode
import FastGraph.SortedSet.Proofs.SortedSetEngine
import FastGraph.Persistence.Proofs.Rdb
import FastGraph.Persistence.Proofs.FailedLoad
import FastGraph.Persistence.Proofs.Save
import FastGraph.Persistence.Proofs.Writers
import FastGraph.Persistence.Proofs.Clocks
import FastGraph.Persistence.Proofs.Reload
import FastGraph.Persistence.Proofs.Counts
import FastGraph.Dispatch.Proofs.Errors
import FastGraph.Dispatch.Proofs.TimeToLive
import FastGraph.Graph.Proofs.BfsPath
import FastGraph.Graph.Proofs.Cheapest
import FastGraph.Graph.Proofs.TopoSort
import FastGraph.Net.Proofs.Exceptions
import FastGraph.Graph.Proofs.OpaqueIds
import FastGraph.Graph.Proofs.QueryArena
import FastGraph.Index.Proofs.RemoveNode
import FastGraph.SortedSet.Proofs.Members
import FastGraph.Dispatch.Proofs.LabelReaders
import FastGraph.Dispatch.Proofs.Ranges
import FastGraph.Dispatch.Proofs.SetExpire
import FastGraph.Dispatch.Proofs.SetOptions
import FastGraph.Memory.Proofs.Arena
import FastGraph.Net.Proofs.Connections
import FastGraph.Index.Proofs.Chains
import FastGraph.Thread.Proofs.ThreadPool
import FastGraph.Net.Proofs.IdealServer
import FastGraph.Net.Proofs.Lifetimes
import FastGraph.Net.Proofs.Reactor
import FastGraph.Net.Proofs.Timers
import FastGraph.Net.Proofs.Posting
import FastGraph.Dispatch.Proofs.Frames
import FastGraph.Memory.Proofs.SlabAllocator
import FastGraph.Index.Proofs.SharedSlab
import FastGraph.Graph.Proofs.IdealGraph
import FastGraph.Dispatch.Proofs.GraphHistory
import FastGraph.Graph.Proofs.Searches
