import OlaLang.Goldilocks

/-! Machine functions of the code generator: operands with their flags, instructions, blocks in
layout order and frame slots. A block is named by its place in the layout, in which the lowering
creates the blocks. -/
namespace OlaLang
namespace Codegen

/-- A physical register. -/
structure Reg where
  cls : ℕ
  idx : ℕ
  deriving DecidableEq

abbrev VReg := ℕ
abbrev BasicBlockId := ℕ
abbrev SlotId := ℕ

/-- The general registers. -/
def GR (idx : ℕ) : Reg := ⟨0,idx⟩

inductive Opcode
  | ADDri | ADDrr | MULri | MULrr | ANDri | ANDrr | ORri | ORrr | XORri | XORrr
  | EQri | EQrr | ASSERTri | ASSERTrr | MOVri | MOVrr | MOV
  | JMPi | JMPr | CJMPi | CJMPr | CALL | SCCALL | RET | END
  | SLOAD | SSTORE | POSEIDON | MLOADi | MLOADr | MSTOREi | MSTOREr
  | RANGECHECK | SIGCHECK | NOT | NEQ | GTE | PROPHET | Phi
  | TLOADri | TLOADrr | TSTOREi | TSTOREr
  deriving DecidableEq

inductive OperandData
  | reg (r : Reg) | vreg (v : VReg)
  | int8 (i : BitVec 8) | int32 (i : BitVec 32) | int64 (i : BitVec 64)
  | memStart | slot (s : SlotId) | block (b : BasicBlockId)
  | label (name : String) | globalAddress (name : String) | none
  deriving DecidableEq

structure Operand where
  data : OperandData
  input : Bool
  output : Bool
  implicit : Bool
  deriving DecidableEq

namespace Operand

def plain (data : OperandData) : Operand := ⟨data,false,false,false⟩
def asInput (data : OperandData) : Operand := ⟨data,true,false,false⟩
def asOutput (data : OperandData) : Operand := ⟨data,false,true,false⟩
def implicitOutput (data : OperandData) : Operand := ⟨data,false,true,true⟩
def inputOutput (data : OperandData) : Operand := ⟨data,true,true,false⟩

end Operand

structure InstructionData where
  opcode : Opcode
  operands : List Operand
  deriving DecidableEq

namespace OperandData

def asVReg? : OperandData → Option VReg
  | .vreg v => some v
  | _ => .none

def asReg? : OperandData → Option Reg
  | .reg r => some r
  | _ => .none

def asBlock? : OperandData → Option BasicBlockId
  | .block b => some b
  | _ => .none

end OperandData

namespace InstructionData

variable (inst : InstructionData)

def inputVregs : List VReg :=
  inst.operands.filterMap fun op => if op.input then op.data.asVReg? else none

def outputVregs : List VReg :=
  inst.operands.filterMap fun op => if op.output then op.data.asVReg? else none

def inputRegs : List Reg :=
  inst.operands.filterMap fun op => if op.input then op.data.asReg? else none

def outputRegs : List Reg :=
  inst.operands.filterMap fun op => if op.output then op.data.asReg? else none

/-- The virtual registers that are read, with the places of their operands. -/
def inputVregsWithIndexes : List (ℕ × VReg) :=
  inst.operands.zipIdx.filterMap fun (op,i) =>
    if op.input then op.data.asVReg?.map fun v => (i,v) else none

def blockAt (i : ℕ) : Option BasicBlockId := inst.operands[i]?.bind fun op => op.data.asBlock?

def isCall : Bool := inst.opcode = .CALL

def isPhi : Bool := inst.opcode = .Phi

end InstructionData

structure BasicBlock where
  insts : List InstructionData
  preds : List BasicBlockId
  succs : List BasicBlockId

/-- A slot of the frame, with its size and alignment in bytes. -/
structure Slot where
  size : ℕ
  align : ℕ

structure Function where
  name : String
  blocks : List BasicBlock
  slots : List Slot
  usedCsr : List Reg
  isDeclaration : Bool

/-- The instructions of a block; a block that is not there has none. -/
def Function.insts (f : Function) (b : BasicBlockId) : List InstructionData :=
  (f.blocks[b]?.map BasicBlock.insts).getD []

theorem insts_subset (f : Function) (b : BasicBlockId) {inst : InstructionData}
    (h : inst ∈ f.insts b) : inst ∈ f.blocks.flatMap BasicBlock.insts := by
  cases hb : f.blocks[b]? with
  | none => simp [Function.insts,hb] at h
  | some block =>
    rw [Function.insts,hb] at h
    exact List.mem_flatMap.mpr ⟨block,List.mem_of_getElem? hb,h⟩

def Function.preds (f : Function) (b : BasicBlockId) : List BasicBlockId :=
  (f.blocks[b]?.map BasicBlock.preds).getD []

/-- The field element an immediate is printed as: 64-bit words are printed without a sign. -/
def OperandData.immediate? : OperandData → Option Felt
  | .int8 i => some (i.toInt : Felt)
  | .int32 i => some (i.toInt : Felt)
  | .int64 i => some (i.toNat : Felt)
  | _ => .none

end Codegen
end OlaLang
