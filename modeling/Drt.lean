import Drt.App.WorkerPoolConservation
import Drt.Core.Thread.MessageQueue
import Drt.Core.Thread.Wakeup
import Drt.Sql.QueueMain
import Drt.Core.Eval.IntTree
import Drt.Net.Http.HttpStatus
import Drt.Net.Rpc.RpcServer
import Drt.Sql.ConnectionAccounts
import Drt.Core.Atomic.LockpWakeup
import Drt.Core.Cmodel.Inheritance
import Drt.Core.Cmodel.Variant
import Drt.Sql.ConnectionWakeup
import Drt.Util.FileTransaction
import Drt.Util.ModelPurity
import Drt.Config.IniLookupSafe
import Drt.Core.Cmodel.VariantKeys
import Drt.Core.Cmodel.VariantOrder
import Drt.Net.Rpc.FastRpcSessions
import Drt.Net.Rpc.XmlRpcResults
import Drt.Core.Struct.ArraySort
import Drt.Core.Struct.AvlCreating
import Drt.Core.Struct.HashMove
import Drt.Core.Struct.ListRuns
import Drt.Net.Rpc.FastRpcIntegers
import Drt.Core.Struct.AvlReference
import Drt.Net.Rpc.XmlRpcTimes
import Drt.Net.Rpc.XmlRpcNames
import Drt.Net.Rpc.XmlRpcSkip
import Drt.Net.Rpc.XmlRpcLookaheadRuns
import Drt.Core.Types.StringSearch
import Drt.Core.Types.StringReplace
import Drt.Core.Eval.TokenGrammar
import Drt.Core.Types.FormatConforming
import Drt.Net.Http.HttpContentLength
import Drt.Net.Http.HttpPersistence
import Drt.Net.Http.HttpContents
import Drt.Io.Stream.StreamErrors
import Drt.Core.Types.StringCompare
import Drt.Core.Types.StringOrder
import Drt.Core.Parse.VarStrings
import Drt.Core.Types.StringIndexArguments
import Drt.Core.Thread.MessageSerials
import Drt.Util.TagHierarchy
import Drt.Util.DrtagMerge
import Drt.Core.Struct.ContainerSerializer
import Drt.Sql.ResultBindings
import Drt.App.ApplicationCache
import Drt.Xml.XmlDoc
import Drt.Sql.InsertFilter
import Drt.Core.Eval.ByteSwap
import Drt.Util.EndParenthesis
import Drt.Util.IndentReader
import Drt.Util.FileContexts
import Drt.Gui.WidgetTree
import Drt.Core.Atomic.LockpConditional
import Drt.Core.Mem.MMSystemHeap
