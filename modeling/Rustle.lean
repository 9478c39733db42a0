import Rustle.Library.Text
import Rustle.Library.Regex
import Rustle.Library.Visit
import Rustle.Library.VisitClosure
import Rustle.Library.AddressOrder
import Rustle.Library.Concat
import Rustle.Library.BoundedSearch
import Rustle.Library.DeepSearch
import Rustle.Library.JoinSearch
import Rustle.Library.GrowingLoop
import Rustle.Library.FaultyLoop
import Rustle.Library.Scan
import Rustle.Library.CheckedSum
import Rustle.Library.Backtrack
import Rustle.Library.GapEdit
import Rustle.Library.Tracking
import Rustle.Library.ClosestAbove
import Rustle.Library.Greedy
import Rustle.Library.SequenceMatcher
import Rustle.Library.WordReplace
import Rustle.Library.Dict
import Rustle.Library.PosixPath
import Rustle.Library.Directory
import Rustle.Library.Prerequisites
import Rustle.Library.WholeLines
import Rustle.Llvm.Module
import Rustle.Llvm.NearCore
import Rustle.Llvm.CallGraphSearch
import Rustle.Llvm.UserFlow
import Rustle.Llvm.UserClosure
import Rustle.Llvm.FindUsers
import Rustle.Llvm.FindUsersOrder
import Rustle.Llvm.FunctionCallers
import Rustle.Llvm.Mode
import Rustle.Pass.YoctoAttach
import Rustle.Pass.Callback
import Rustle.Pass.SiteLines
import Rustle.Pass.UpgradeFunc
import Rustle.Pass.StorageGas
import Rustle.Pass.NftOwnerCheck
import Rustle.Pass.ExtCall
import Rustle.Pass.Reentrancy
import Rustle.Pass.ReentrancyWalk
import Rustle.Pass.ReentrancyArguments
import Rustle.Pass.UnsavedChanges
import Rustle.Pass.NftApprovalCheck
import Rustle.Pass.AddressIndependence
import Rustle.Pass.Forwarding
import Rustle.Pass.SelfTransfer
import Rustle.Pass.UnregisteredReceiver
import Rustle.Pass.Descent
import Rustle.Pass.UnhandledPromise
import Rustle.Pass.UnclaimedStorageFee
import Rustle.Pass.ZeroTests
import Rustle.Pass.ComplexLoop
import Rustle.Pass.NullSafety
import Rustle.Pass.DivBeforeMul
import Rustle.Pass.PrepaidGas
import Rustle.Pass.NepInterface
import Rustle.Detector.IncorrectJsonType
import Rustle.Detector.StructMembers
import Rustle.Detector.UnsafeMathToml
import Rustle.Detector.DupCollectionId
import Rustle.Detector.UnusedRet
import Rustle.Detector.LockCallback
import Rustle.Detector.Inconsistency
import Rustle.Source.FindFunc
import Rustle.Source.Prepare
import Rustle.Source.LineNumbers
import Rustle.Source.NearBindgen
import Rustle.Source.EnclosingBlock
import Rustle.Source.FindStruct
import Rustle.Source.StructLayout
import Rustle.Source.GlobalVars
import Rustle.Source.DeclaredAt
import Rustle.Source.GapReading
import Rustle.Source.LastLine
import Rustle.Source.TrailingComment
import Rustle.Audit.Loaders
import Rustle.Audit.Matching
import Rustle.Audit.Report
import Rustle.Audit.Notes
import Rustle.Audit.SourceFindings
import Rustle.Audit.CallbackNotes
import Rustle.Audit.ChainedNotes
import Rustle.Audit.Coverage
import Rustle.Audit.Driver
import Rustle.Audit.Makefile
import Rustle.Audit.Session
import Rustle.Audit.Invocation
import Rustle.Audit.Pipeline
import Rustle.Audit.DetectorNames
import Rustle.Audit.InconsistencyNotes
import Rustle.Audit.Iteration
import Rustle.Audit.CsvImport
import Rustle.Audit.JsonTypeNotes
import Rustle.Audit.NameNotes
