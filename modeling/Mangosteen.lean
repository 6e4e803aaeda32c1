import Mangosteen.Library.Solo
import Mangosteen.Library.Transition
import Mangosteen.Library.Simulation
import Mangosteen.Library.AtomicObject
import Mangosteen.Library.Termination
import Mangosteen.Library.Program
import Mangosteen.Library.Ownership
import Mangosteen.Library.PersistentMemory
import Mangosteen.Library.Confined
import Mangosteen.Library.OpenAddressing
import Mangosteen.Library.RelyGuarantee
import Mangosteen.Library.Cyclic
import Mangosteen.Library.RedoLog
import Mangosteen.Instrumentation
import Mangosteen.WriteAhead
import Mangosteen.Producer
import Mangosteen.Dequeue
import Mangosteen.Consumer
import Mangosteen.RingBuffer
import Mangosteen.Slots
import Mangosteen.Overrun
import Mangosteen.Session
import Mangosteen.Delivery
import Mangosteen.RegionTable
import Mangosteen.Enqueue
import Mangosteen.Memory
import Mangosteen.SoloRing
import Mangosteen.BackEnd
import Mangosteen.SoloBackEnd
import Mangosteen.Channel
import Mangosteen.Transactions
import Mangosteen.Atomicity
import Mangosteen.Isolation
import Mangosteen.Image
import Mangosteen.Refinement
import Mangosteen.Restart
import Mangosteen.Metadata
import Mangosteen.Relaunch
import Mangosteen.Described
import Mangosteen.CommitOrder
import Mangosteen.Connection
import Mangosteen.RequestResponse
import Mangosteen.Bypass
import Mangosteen.ThreadMemory
import Mangosteen.FlatCombining
import Mangosteen.SpinLock
import Mangosteen.MmapHook
import Mangosteen.Combining
import Mangosteen.Launch
import Mangosteen.Deployment
import Mangosteen.RegionFiles
import Mangosteen.PrivateStores
import Mangosteen.Drain
import Mangosteen.Recovery
import Mangosteen.Incarnations
import Mangosteen.RecoveredTable
import Mangosteen.SoloRestart
import Mangosteen.Library.RegisterMachine
import Mangosteen.LineCollector
import Mangosteen.CollectorRuns
import Mangosteen.CollectedLines
import Mangosteen.CombinerGate
import Mangosteen.HashSet
import Mangosteen.ReferenceAgreement
import Mangosteen.StopBatches
import Mangosteen.WrittenPages
import Mangosteen.RingRoom
import Mangosteen.MemcpyRecord
import Mangosteen.RegionMap
import Mangosteen.RebuiltMap
import Mangosteen.LoggedMappings
import Mangosteen.Arena
import Mangosteen.MemcpyChunks
import Mangosteen.RequestBuffer
import Mangosteen.LineSet
import Mangosteen.Library.ByteMemory
import Mangosteen.Library.LinkedList
import Mangosteen.TransientAllocator
import Mangosteen.FreeList
import Mangosteen.Carving
import Mangosteen.BlockPools
import Mangosteen.SizeClasses
import Mangosteen.UserData
import Mangosteen.Service
import Mangosteen.ServiceHistory
import Mangosteen.TextCopy
import Mangosteen.ServiceRuns
import Mangosteen.Completion
import Mangosteen.CrashRecovery
import Mangosteen.EventLoop
import Mangosteen.EventLoopRuns
import Mangosteen.EmittedStores
