import OlaLang.MachineCode
import Mathlib.Data.Finset.Basic

/-! Live sets of the blocks of a machine function, and the live segments that are built from them
in layout order. -/
namespace OlaLang
namespace Codegen
namespace Liveness

/-- A register the analysis follows. -/
inductive LReg
  | phys (r : Reg)
  | virt (v : VReg)
  deriving DecidableEq

structure BlockData where
  defs : Finset LReg
  liveIn : Finset LReg
  liveOut : Finset LReg

abbrev Data := BasicBlockId → BlockData

def Data.addLiveIn (data : Data) (b : BasicBlockId) (r : LReg) : Data :=
  Function.update data b { data b with liveIn := insert r (data b).liveIn }

def Data.addLiveOut (data : Data) (b : BasicBlockId) (r : LReg) : Data :=
  Function.update data b { data b with liveOut := insert r (data b).liveOut }

def outputs (inst : InstructionData) : List LReg :=
  inst.outputVregs.map .virt ++ inst.outputRegs.map .phys

def setDef (f : Function) : Data := fun b => ⟨((f.insts b).flatMap outputs).toFinset,∅,∅⟩

/-- Backwards from block `b`, in which `input` is read or at whose end it is live. For an operand of
a phi only its own predecessor is followed. -/
def propagateReg (f : Function) (input : LReg) :
    ℕ → BasicBlockId → Option BasicBlockId → Data → Option Data
  | 0, _, _, _ => none
  | fuel+1, b, phiPred, data =>
    if input ∈ (data b).defs then some data
    else if input ∈ (data b).liveIn then some data
    else (f.preds b).foldlM (fun data pred =>
        if phiPred.any (pred ≠ ·) then some data
        else if input ∈ (data pred).liveOut then some data
        else propagateReg f input fuel pred none (data.addLiveOut pred input))
      (data.addLiveIn b input)

/-- The registers an instruction reads; the operand of a phi comes with its block. -/
def visitInst (inst : InstructionData) : List (LReg × Option BasicBlockId) :=
  (inst.inputVregsWithIndexes.map fun (i,v) =>
    (.virt v,if inst.isPhi then inst.blockAt (i + 1) else none)) ++
  inst.inputRegs.map fun r => (.phys r,none)

/-- The reads of all instructions in layout order. -/
def visits (f : Function) : List (BasicBlockId × LReg × Option BasicBlockId) :=
  (List.range f.blocks.length).flatMap fun b =>
    (f.insts b).flatMap fun inst => (visitInst inst).map fun read => (b,read)

def visit (f : Function) (data : Data) : Option Data :=
  (visits f).foldlM (fun data (b,input,phiPred) =>
    propagateReg f input (f.blocks.length + 1) b phiPred data) data

/-! ### Live segments -/

structure ProgramPoint where
  block : ℕ
  inst : ℕ
  deriving DecidableEq

def ProgramPoint.le (p q : ProgramPoint) : Prop :=
  p.block < q.block ∨ p.block = q.block ∧ p.inst ≤ q.inst

instance (p q : ProgramPoint) : Decidable (p.le q) := inferInstanceAs (Decidable (_ ∨ _))

def STEP : ℕ := 16

structure LiveSegment where
  start : ProgramPoint
  stop : ProgramPoint
  deriving DecidableEq

def LiveSegment.newPoint (pp : ProgramPoint) : LiveSegment := ⟨pp,pp⟩

def LiveSegment.setStop (pp : ProgramPoint) (seg : LiveSegment) : LiveSegment :=
  { seg with stop := pp }

/-- The segments of one block: one for a virtual register, a list for a physical one. -/
structure LocalRanges where
  vregs : VReg → Option LiveSegment
  regs : Reg → Option (List LiveSegment)

namespace LocalRanges

def segments (l : LocalRanges) : LReg → List LiveSegment
  | .virt v => (l.vregs v).toList
  | .phys r => (l.regs r).getD []

/-- The segments at the head of a block. -/
def enter (b : BasicBlockId) (liveIn : Finset LReg) : LocalRanges where
  vregs v := if .virt v ∈ liveIn then some (.newPoint ⟨b,0⟩) else none
  regs r := if .phys r ∈ liveIn then some [.newPoint ⟨b,0⟩] else none

/-- An occurrence at `pp`; a register without a segment gets one from `start`. -/
def touchVreg (start pp : ProgramPoint) (l : LocalRanges) (v : VReg) : LocalRanges :=
  let seg := (l.vregs v).getD (.newPoint start)
  { l with vregs := Function.update l.vregs v (some (seg.setStop pp)) }

def touchReg (pp : ProgramPoint) (l : LocalRanges) (r : Reg) : LocalRanges :=
  let segs := (l.regs r).getD []
  { l with regs := Function.update l.regs r (some (segs ++ [.newPoint pp])) }

/-- The instruction at `pp`: its inputs, then its outputs. -/
def visitInst (pp : ProgramPoint) (inst : InstructionData) (l : LocalRanges) : LocalRanges :=
  let l := inst.inputVregs.foldl (touchVreg ⟨pp.block,0⟩ pp) l
  let l := inst.inputRegs.foldl (touchReg pp) l
  let l := inst.outputVregs.foldl (touchVreg pp pp) l
  inst.outputRegs.foldl (touchReg pp) l

def scan (b : BasicBlockId) : ℕ → List InstructionData → LocalRanges → LocalRanges
  | _, [], l => l
  | n, inst::rest, l => scan b (n + STEP) rest (l.visitInst ⟨b,n⟩ inst)

def has (l : LocalRanges) : LReg → Bool
  | .virt v => (l.vregs v).isSome
  | .phys r => (l.regs r).any fun segs => !segs.isEmpty

def extendLast (pp : ProgramPoint) (segs : List LiveSegment) : List LiveSegment :=
  segs.dropLast ++ segs.getLast?.toList.map (.setStop pp)

/-- The segments at the end of a block. A register that is live there and has none is a panic. -/
def leave (pp : ProgramPoint) (liveOut : Finset LReg) (l : LocalRanges) : Option LocalRanges :=
  if ∀ r ∈ liveOut, l.has r then some {
    vregs v := if .virt v ∈ liveOut then (l.vregs v).map (.setStop pp) else l.vregs v
    regs r := if .phys r ∈ liveOut then (l.regs r).map (extendLast pp) else l.regs r }
  else none

end LocalRanges

def blockRanges (f : Function) (data : Data) (b : BasicBlockId) : Option LocalRanges :=
  ((LocalRanges.enter b (data b).liveIn).scan b STEP (f.insts b)).leave
    ⟨b,STEP * ((f.insts b).length + 1)⟩ (data b).liveOut

structure Analysis where
  blockData : Data
  ranges : LReg → List LiveSegment

/-- `analyze_function`. -/
def analyzeFunction (f : Function) : Option Analysis := do
  let data ← visit f (setDef f)
  let locals ← (List.range f.blocks.length).mapM (blockRanges f data)
  pure ⟨data,fun r => locals.flatMap fun l => l.segments r⟩

/-! ### Liveness -/

def lreg? : OperandData → Option LReg
  | .reg r => some (.phys r)
  | .vreg v => some (.virt v)
  | _ => none

/-- Operand `i` of the instruction is an input that names the register. -/
def ReadsAt (inst : InstructionData) (r : LReg) (i : ℕ) : Prop :=
  ∃ op, inst.operands[i]? = some op ∧ op.input = true ∧ lreg? op.data = some r

/-- The instruction reads the register where it stands; a phi reads at the end of a predecessor. -/
def Reads (inst : InstructionData) (r : LReg) : Prop :=
  inst.isPhi = false ∧ ∃ i, ReadsAt inst r i

/-- A phi of block `b` has the register as its operand for the block `pred`. -/
def PhiReads (f : Function) (b : BasicBlockId) (r : LReg) (pred : BasicBlockId) : Prop :=
  ∃ inst ∈ f.insts b, inst.isPhi = true ∧ ∃ i, ReadsAt inst r i ∧ inst.blockAt (i + 1) = some pred

/-- Some path from before instruction `i` of block `b` reads `r` before it is written. -/
inductive LiveAt (f : Function) (r : LReg) : BasicBlockId → ℕ → Prop
  | read {b i inst} : (f.insts b)[i]? = some inst → Reads inst r → LiveAt f r b i
  | step {b i inst} : (f.insts b)[i]? = some inst → r ∉ outputs inst → LiveAt f r b (i + 1) →
      LiveAt f r b i
  | phi {b pred} : pred ∈ f.preds b → PhiReads f b r pred → LiveAt f r pred (f.insts pred).length
  | edge {b pred} : pred ∈ f.preds b → LiveAt f r b 0 → LiveAt f r pred (f.insts pred).length

/-- The points between instruction `i` of block `b` and the one before it lie in a segment. -/
def Covered (segs : List LiveSegment) (b : BasicBlockId) (i : ℕ) : Prop :=
  ∃ seg ∈ segs, seg.start.le ⟨b,STEP * i⟩ ∧ ProgramPoint.le ⟨b,STEP * (i + 1)⟩ seg.stop

/-- The analysis succeeds, and has register `r` wherever it is live. -/
def Sound (f : Function) (r : LReg) : Prop :=
  ∃ live, analyzeFunction f = some live ∧
    (∀ b i, LiveAt f r b i → Covered (live.ranges r) b i) ∧
    ∀ b, LiveAt f r b 0 → ∀ pred ∈ f.preds b,
      r ∈ (live.blockData pred).liveOut ∧ r ∈ (live.blockData b).liveIn

end Liveness
end Codegen
end OlaLang
