import IotBase.MapfileEnumeration
import IotBase.MapfileFaults
import IotBase.MapfileHandles
import IotBase.MapfileSet
import IotBase.MapfileCompact
import IotBase.MapfileLongKey
import IotBase.MapfileAccess
import IotBase.MapfileSlots
import IotBase.MapfileLocation
import IotBase.DispatchFifo
import IotBase.DispatchSendOnly
import IotBase.DispatchMisdelivery
import IotBase.DispatchExclusion
import IotBase.DispatchSession
import IotBase.DispatchOutcome
import IotBase.DispatchSelect
import IotBase.LogRecord
import IotBase.LogLayout
import IotBase.LogRetention
import IotBase.LogBound
import IotBase.LogFailure
import IotBase.LogPosition
import IotBase.OrderedTable
import IotBase.SubdevRefinement
import IotBase.SubdevSweep
import IotBase.SubdevThreads
import IotBase.SubdevUnique
import IotBase.ProtocolBuild
import IotBase.JsonFile
import IotBase.SubdevUthashRun
import IotBase.DispatchPoll
import IotBase.MapfileSpread
import IotBase.MapfileResources
import IotBase.MapfileRepair
import IotBase.MapfileWriters
import IotBase.LogThreads
import IotBase.LogLimits
import IotBase.ProtocolLifecycle
import IotBase.FileResources
