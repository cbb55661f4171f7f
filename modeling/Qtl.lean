import Qtl.Base.Trace
import Qtl.Base.Window
import Qtl.Base.StableOrder
import Qtl.Base.StableMerge
import Qtl.Base.ChainTree
import Qtl.Base.FixedWidth
import Qtl.Base.Text
import Qtl.Base.Calendar
import Qtl.Spsc
import Qtl.SpscInterleaving
import Qtl.Queue
import Qtl.EventTree
import Qtl.EventTreeShape
import Qtl.EventTreeRebalance
import Qtl.EventTreeRead
import Qtl.EventTreeTracked
import Qtl.EventTreeInsert
import Qtl.EventTreeBuild
import Qtl.EventTreeRun
import Qtl.EventTreeGuard
import Qtl.EventTreeHeld
import Qtl.EventTreeMerge
import Qtl.EventTreeFirst
import Qtl.EventTreeStream
import Qtl.Datetime
import Qtl.DatetimeParse
import Qtl.DatetimeFormat
import Qtl.EventRef
import Qtl.Base.OrderedTree
import Qtl.SpscObserve
import Qtl.QueueWakeup
import Qtl.ReminderQueue
import Qtl.Pipe
import Qtl.PipeRegistration
import Qtl.Bus
import Qtl.BusSchedule
import Qtl.BusStore
import Qtl.BusWallClock
import Qtl.BusClear
import Qtl.PipeTracked
import Qtl.BusRealtime
import Qtl.EventTreeTaken
import Qtl.EventHolders
import Qtl.BusOwnership
import Qtl.BusConserved
import Qtl.SpscIdle
import Qtl.DatetimeNormalise
import Qtl.DatetimeTm
import Qtl.DatetimeStored
import Qtl.Clock
import Qtl.BusClocks
import Qtl.DatetimeReads
import Qtl.DatetimeBuffer
import Qtl.BusMemory
import Qtl.Base.ColoredTree
import Qtl.RbTree
import Qtl.RbHeld
import Qtl.RbRead
import Qtl.RbInsert
import Qtl.RbRemove
import Qtl.ReminderNodes
import Qtl.ReminderRefines
import Qtl.Base.Fuel
import Qtl.RbFuel
import Qtl.ReminderDepth
import Qtl.Base.HappensBefore
import Qtl.Base.ReleaseAcquire
import Qtl.Base.VectorClock
import Qtl.SpscMemory
import Qtl.SpscMemoryRun
import Qtl.SpscMemoryOrders
import Qtl.Base.Simulation
import Qtl.BusSystem
import Qtl.BusRefines
import Qtl.BusServes
import Qtl.Base.Atomicity
import Qtl.EventTreeSteps
import Qtl.EventTreeMovers
import Qtl.EventTreeAtomic
import Qtl.EventTreeLocal
import Qtl.BusPart
import Qtl.BusReplay
import Qtl.BusSimulation
import Qtl.BusComplete
import Qtl.BusEnds
