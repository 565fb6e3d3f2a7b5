import NeuroVerse.Lib.Run
import NeuroVerse.Lib.Trie
import NeuroVerse.Lib.TrieNodes
import NeuroVerse.Lib.Memory
import NeuroVerse.Lib.Heap
import NeuroVerse.Lib.StdString
import NeuroVerse.Lib.Align
import NeuroVerse.Lib.FreeList
import NeuroVerse.Lib.Blocks
import NeuroVerse.Lib.X86
import NeuroVerse.Lib.ErrorState
import NeuroVerse.Lib.Threads
import NeuroVerse.Lib.Fifo
import NeuroVerse.Lib.Framing
import NeuroVerse.Lib.Counter
import NeuroVerse.Lib.Since
import NeuroVerse.Lib.BinarySearch
import NeuroVerse.Lib.Intervals
import NeuroVerse.Lib.Walk
import NeuroVerse.Lib.AtomicWord
import NeuroVerse.Lib.Cascade
import NeuroVerse.Lib.OrderedMap
import NeuroVerse.Core.Capability
import NeuroVerse.Core.Io
import NeuroVerse.Core.ObjectTable
import NeuroVerse.Core.Registry
import NeuroVerse.Core.Dangling
import NeuroVerse.Core.Irq
import NeuroVerse.Core.Log
import NeuroVerse.Sec.CapSpace
import NeuroVerse.Sec.FiniteMap
import NeuroVerse.Sec.NodeCount
import NeuroVerse.Sec.CapOps
import NeuroVerse.Sec.Transfer
import NeuroVerse.Sec.World
import NeuroVerse.Sec.Revocation
import NeuroVerse.Sec.Provenance
import NeuroVerse.Sec.EpochRevoke
import NeuroVerse.Sec.Gated
import NeuroVerse.Net.Channel
import NeuroVerse.Net.Address
import NeuroVerse.Net.Socket
import NeuroVerse.Audio.Pipeline
import NeuroVerse.Audio.Rendering
import NeuroVerse.Dev.Driver
import NeuroVerse.Learn.Optimizer
import NeuroVerse.Bridge.Ffi
import NeuroVerse.Ui.Scene
import NeuroVerse.Lib.StepMappings
import NeuroVerse.Lib.Sponge
import NeuroVerse.Pkg.Keccak
import NeuroVerse.Pkg.Fips202
import NeuroVerse.Pkg.Sha3
import NeuroVerse.Pkg.Padding
import NeuroVerse.Pkg.Streaming
import NeuroVerse.Pkg.Squeeze
import NeuroVerse.Pkg.Store
import NeuroVerse.Pkg.Manifest
import NeuroVerse.Pkg.Sponge
import NeuroVerse.Pkg.Package
import NeuroVerse.Pkg.Digest
import NeuroVerse.Boot.Protocol
import NeuroVerse.Boot.TextForm
import NeuroVerse.Boot.Chain
import NeuroVerse.Fs.Vfs
import NeuroVerse.Fs.MemFS
import NeuroVerse.Fs.PathMap
import NeuroVerse.Fs.Append
import NeuroVerse.Fs.OverlayFS
import NeuroVerse.Fs.OverlayVNode
import NeuroVerse.Fs.CopyUp
import NeuroVerse.Fs.Plain
import NeuroVerse.Fs.LowerLayer
import NeuroVerse.Fs.RamFS
import NeuroVerse.Fs.VNodeTrait
import NeuroVerse.Fs.Eviction
import NeuroVerse.Fs.Accounting
import NeuroVerse.Fs.Charging
import NeuroVerse.Jit.Ir
import NeuroVerse.Jit.Emit
import NeuroVerse.Jit.Engine
import NeuroVerse.Jit.Lowering
import NeuroVerse.Jit.Calling
import NeuroVerse.Mem.Arena
import NeuroVerse.Mem.Pool
import NeuroVerse.Mem.PageTable
import NeuroVerse.Mem.VmaTree
import NeuroVerse.Mem.AddressMap
import NeuroVerse.Fabric.Membership
import NeuroVerse.Fabric.Detector
import NeuroVerse.Fabric.Calls
import NeuroVerse.Fabric.Transitions
import NeuroVerse.Fabric.Observers
import NeuroVerse.Fabric.LocalRecord
import NeuroVerse.Sched.Scheduler
import NeuroVerse.Sched.Deadline
import NeuroVerse.Sched.Cancel
import NeuroVerse.Sched.Shutdown
import NeuroVerse.Sched.Balance
import NeuroVerse.Sched.Settling
import NeuroVerse.Sched.WorkStealing
import NeuroVerse.Proc.Lifetime
import NeuroVerse.Proc.Process
import NeuroVerse.Ipc.Endpoint
import NeuroVerse.Ipc.Delivery
import NeuroVerse.Ipc.Reentry
import NeuroVerse.Ipc.EndpointPair
import NeuroVerse.Ipc.AwaitRecv
import NeuroVerse.Ipc.AwaitSend
import NeuroVerse.Ipc.BoundedFifos
import NeuroVerse.Ipc.Message
import NeuroVerse.Ipc.Blocking
import NeuroVerse.Ipc.LostWakeup
import NeuroVerse.Sec.CapIpc
import NeuroVerse.Pulse.Metric
import NeuroVerse.Pulse.Atomics
