import Bikaya.Library.Runs
import Bikaya.Library.SeparatedQueues
import Bikaya.Library.StableInsert
import Bikaya.Library.AgingQueue
import Bikaya.Library.WakingQueue
import Bikaya.Library.PriorityScheduler
import Bikaya.Library.SliceRotation
import Bikaya.Library.TimeAccounts
import Bikaya.Library.OrderedForest
import Bikaya.Library.LinkRing
import Bikaya.Library.SeparatedRings
import Bikaya.Library.CountingSemaphore
import Bikaya.Library.Lockstep
import Bikaya.Library.BitFields
import Bikaya.Library.Numerals
import Bikaya.Library.Cells
import Bikaya.Library.ByteMemory
import Bikaya.Core.System
import Bikaya.Core.SystemMps
import Bikaya.Core.Kernel
import Bikaya.Core.Pcb
import Bikaya.Core.Asl
import Bikaya.Core.Scheduler
import Bikaya.Core.Interrupts
import Bikaya.Core.Registers
import Bikaya.Core.Handler
import Bikaya.Core.Operations
import Bikaya.Core.Entries
import Bikaya.Core.Links
import Bikaya.Core.LinkedKernel
import Bikaya.Core.LinkedHandler
import Bikaya.Core.Terminal
import Bikaya.Core.Memory
import Bikaya.Core.MemoryHandler
import Bikaya.Proofs.ProcessQueue
import Bikaya.Proofs.SemaphoreList
import Bikaya.Proofs.Residence
import Bikaya.Proofs.ProcessTree
import Bikaya.Proofs.Removal
import Bikaya.Proofs.Termination
import Bikaya.Proofs.RunningProcess
import Bikaya.Proofs.Effects
import Bikaya.Proofs.Boot
import Bikaya.Proofs.Preservation
import Bikaya.Proofs.Conservation
import Bikaya.Proofs.Semaphores
import Bikaya.Proofs.Capacity
import Bikaya.Proofs.DeviceQueues
import Bikaya.Proofs.Ageing
import Bikaya.Proofs.Ancestry
import Bikaya.Proofs.Outstanding
import Bikaya.Proofs.Dispatch
import Bikaya.Proofs.Starvation
import Bikaya.Proofs.SemaphoreStarvation
import Bikaya.Proofs.Registrations
import Bikaya.Proofs.Responses
import Bikaya.Proofs.AgeingOverflow
import Bikaya.Proofs.Exceptions
import Bikaya.Proofs.Handlers
import Bikaya.Proofs.Entries
import Bikaya.Proofs.Timers
import Bikaya.Proofs.CpuTime
import Bikaya.Proofs.TimeLedger
import Bikaya.Proofs.Launch
import Bikaya.Proofs.WallClock
import Bikaya.Proofs.Contexts
import Bikaya.Proofs.Containment
import Bikaya.Proofs.PassUp
import Bikaya.Proofs.TableBounds
import Bikaya.Proofs.TimeSlices
import Bikaya.Proofs.DeviceProtocol
import Bikaya.Proofs.Deliveries
import Bikaya.Proofs.Registers
import Bikaya.Proofs.Completions
import Bikaya.Proofs.Links
import Bikaya.Proofs.QueueLinks
import Bikaya.Proofs.TreeLinks
import Bikaya.Proofs.TreeOperations
import Bikaya.Proofs.Subtrees
import Bikaya.Proofs.SemaphoreLinks
import Bikaya.Proofs.BlockedSubtrees
import Bikaya.Proofs.StatusRegister
import Bikaya.Proofs.Conversions
import Bikaya.Proofs.StateMemory
import Bikaya.Proofs.StateFrames
import Bikaya.Proofs.MemoryStates
import Bikaya.Proofs.MemoryHandlers
import Bikaya.Proofs.MemoryRuns
import Bikaya.Proofs.Threads
import Bikaya.Proofs.TreeFrames
import Bikaya.Proofs.Representation
import Bikaya.Proofs.SemaphoreRepresentation
import Bikaya.Proofs.LinkedScheduler
import Bikaya.Proofs.LinkedOperations
import Bikaya.Proofs.LinkedTermination
import Bikaya.Proofs.LinkedBoot
import Bikaya.Proofs.LinkedRuns
import Bikaya.Proofs.LinkedHandlers
import Bikaya.Proofs.LostProcesses
import Bikaya.Proofs.MutualExclusion
