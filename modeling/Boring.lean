import Boring.Library.StepRuns
import Boring.Library.LinkedCells
import Boring.Library.Bindings
import Boring.Library.WordBytes
import Boring.Library.PoolCounts
import Boring.Library.Ledgers
import Boring.Library.RandomTape
import Boring.Library.HandleTables
import Boring.Library.CompletionPorts
import Boring.Library.ListParts
import Boring.Library.DoublyLinked
import Boring.Library.RoseTrees
import Boring.South.SouthHeap
import Boring.South.MonitorTargets
import Boring.South.SouthXml
import Boring.South.DeviceMonitors
import Boring.South.DeviceRuns
import Boring.South.MonitorXml
import Boring.South.DeviceForests
import Boring.South.MonitorStatus
import Boring.Base.StringUtil
import Boring.Base.Trimming
import Boring.Base.Splitters
import Boring.Base.HexText
import Boring.Base.HexNumbers
import Boring.Base.IniFile
import Boring.Base.IniBindings
import Boring.Base.IniRoundTrip
import Boring.Base.IniInjection
import Boring.Base.FailedSaves
import Boring.Base.IniMerge
import Boring.Base.IniReadings
import Boring.Base.IniGrammar
import Boring.Base.IniBuffers
import Boring.Base.DirtyFlag
import Boring.Base.StringMaps
import Boring.Base.ByteOrder
import Boring.Base.Streams
import Boring.Base.StreamRoundTrip
import Boring.Base.OutTape
import Boring.Base.InStreamBounds
import Boring.Base.Layouts
import Boring.Base.StringRecords
import Boring.Io.WiocpShutdown
import Boring.Io.PacketDispatch
import Boring.IocpServer.WorkerLoop
import Boring.IocpServer.IocpLifecycle
import Boring.IocpServer.ResourceAccounts
import Boring.IocpServer.WorkerSurvival
import Boring.IocpServer.StopWaits
import Boring.IocpServer.FailedStart
import Boring.IocpServer.IoContexts
import Boring.IocpServer.AcceptPool
import Boring.IocpServer.SocketOwners
import Boring.IocpServer.ClientContexts
import Boring.South.TinyXmlText
import Boring.South.TinyXmlCodec
import Boring.South.TinyXmlReferences
import Boring.South.TinyXmlTree
import Boring.South.TinyXmlLayouts
import Boring.Library.Outcomes
import Boring.South.TinyXmlParser
import Boring.South.TinyXmlSafety
import Boring.South.TinyXmlAccepted
import Boring.South.TinyXmlLeaves
import Boring.South.TinyXmlRoundTrip
import Boring.South.TinyXmlFiles
import Boring.South.TinyXmlSettled
import Boring.South.UploadedXml
import Boring.South.TinyXmlDom
import Boring.South.TinyXmlForests
import Boring.South.TinyXmlDeletion
import Boring.South.TinyXmlLinks
import Boring.South.TinyXmlClones
import Boring.South.TinyXmlEdits
import Boring.South.TinyXmlCalls
import Boring.South.TinyXmlRuns
import Boring.South.TinyXmlWalks
import Boring.South.TinyXmlPrints
