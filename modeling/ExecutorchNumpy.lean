import ExecutorchNumpy.Binding
import ExecutorchNumpy.OutputConversion
import ExecutorchNumpy.OutputLists
import ExecutorchNumpy.OutputLayout
import ExecutorchNumpy.InputMarshal
import ExecutorchNumpy.PublicApi
import ExecutorchNumpy.MethodSignatures
import ExecutorchNumpy.Openvino
import ExecutorchNumpy.OpenvinoAgreement
import ExecutorchNumpy.ErrorHierarchy
import ExecutorchNumpy.Library.Interleaving
import ExecutorchNumpy.Library.Linearizable
import ExecutorchNumpy.CoreThreads
import ExecutorchNumpy.Serializability
import ExecutorchNumpy.GilThreads
import ExecutorchNumpy.EnvThreads
import ExecutorchNumpy.CallHistory
import ExecutorchNumpy.SoloRuns
import ExecutorchNumpy.LinearizableCalls
import ExecutorchNumpy.Library.FairRuns
import ExecutorchNumpy.CallsReturn
import ExecutorchNumpy.Library.Isolation
import ExecutorchNumpy.Sessions
import ExecutorchNumpy.ReferenceKernel
import ExecutorchNumpy.PinFile
import ExecutorchNumpy.PinRows
import ExecutorchNumpy.PinTable
import ExecutorchNumpy.PinRelease
import ExecutorchNumpy.RuntimePin
import ExecutorchNumpy.KernelGuard
import ExecutorchNumpy.LinkLine
import ExecutorchNumpy.Library.Registry
import ExecutorchNumpy.RuntimeInfo
import ExecutorchNumpy.UsdtNotes
import ExecutorchNumpy.UsdtGuard
import ExecutorchNumpy.Glob
import ExecutorchNumpy.LibraryLookup
