import OlaLang.AggregateMemory
import OlaLang.ArrayBounds
import OlaLang.ArrayInitializer
import OlaLang.ArrayLiteral
import OlaLang.ArrayPaths
import OlaLang.ArraySlice
import OlaLang.Assignment
import OlaLang.BoolWidth
import OlaLang.CallArguments
import OlaLang.CompareLowering
import OlaLang.Comparison
import OlaLang.ConstantAgreement
import OlaLang.ConstantEval
import OlaLang.ContractCall
import OlaLang.ContractStorage
import OlaLang.ControlFlow
import OlaLang.ControlFlowBlocks
import OlaLang.ControlFlowSound
import OlaLang.Corelib
import OlaLang.DataLayout
import OlaLang.DeadCode
import OlaLang.DecodeSpec
import OlaLang.DeleteWalk
import OlaLang.DepthFirstTree
import OlaLang.DominanceFrontier
import OlaLang.DominatorTree
import OlaLang.Dominators
import OlaLang.EncodeSpec
import OlaLang.EncodedValues
import OlaLang.Encoding
import OlaLang.Exec
import OlaLang.Expression
import OlaLang.FieldArithmetic
import OlaLang.FieldConstants
import OlaLang.FieldsConcat
import OlaLang.Frame
import OlaLang.FrameBalance
import OlaLang.FrameLayout
import OlaLang.FramePointer
import OlaLang.Functions
import OlaLang.Goldilocks
import OlaLang.HeapLayout
import OlaLang.HeapSeparation
import OlaLang.HeapMemory
import OlaLang.InsertionRoom
import OlaLang.LayoutLists
import OlaLang.LengauerTarjan
import OlaLang.LinkedLists
import OlaLang.LiteralRange
import OlaLang.Liveness
import OlaLang.LivenessSound
import OlaLang.Locals
import OlaLang.LocalsCheck
import OlaLang.LocalsRun
import OlaLang.Machine
import OlaLang.MachineCode
import OlaLang.OperationRuns
import OlaLang.ParseConstants
import OlaLang.ParseInstructions
import OlaLang.ParseModule
import OlaLang.ParseTypes
import OlaLang.Parsing
import OlaLang.PhiElimination
import OlaLang.PointerAddress
import OlaLang.ProgramPoints
import OlaLang.ProphetChecks
import OlaLang.Reachability
import OlaLang.Regalloc
import OlaLang.RegallocEnds
import OlaLang.RegallocSound
import OlaLang.Resolution
import OlaLang.ResolutionUnique
import OlaLang.Rounds
import OlaLang.Run
import OlaLang.SignatureDecode
import OlaLang.Signatures
import OlaLang.Simulation
import OlaLang.SizeAgreement
import OlaLang.SizeMismatch
import OlaLang.SlotElimination
import OlaLang.SlotTree
import OlaLang.SpillKeeps
import OlaLang.SpillLayout
import OlaLang.SpillMeaning
import OlaLang.SpillRun
import OlaLang.SpillSound
import OlaLang.SpillSpec
import OlaLang.Spiller
import OlaLang.Storage
import OlaLang.StorageCell
import OlaLang.StorageDelete
import OlaLang.StorageWalk
import OlaLang.StringCompare
import OlaLang.StringLiteral
import OlaLang.StructRecursion
import OlaLang.StructSizes
import OlaLang.StructTypes
import OlaLang.Symtable
import OlaLang.Types
import OlaLang.U32Division
import OlaLang.U32Exactness
import OlaLang.U32Faithful
import OlaLang.U32Op
import OlaLang.UseDef
import OlaLang.VRegUsers
import OlaLang.Walks
