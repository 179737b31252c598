import OlaLang.ProgramPoints
import Mathlib.Data.List.Sort

/-! The spiller: every definition of a virtual register is followed by a store to a new slot and
every use is preceded by a load from it, each with a virtual register of its own. -/
namespace OlaLang
namespace Codegen

/-- `replace_vreg`, on the operands. -/
def InstructionData.replaceVreg (source target : VReg) (inst : InstructionData) : InstructionData :=
  { inst with operands := inst.operands.map fun op =>
      if op.data = .vreg source then { op with data := .vreg target } else op }

namespace Spiller

open Liveness ProgramPoints

/-- An instruction that names a virtual register, with what it does to it. -/
structure VRegUser where
  inst : InstId
  read : Bool
  write : Bool
  deriving DecidableEq

/-- A machine function with its virtual registers and their users, and the part of its liveness
that the spiller keeps up to date. `vregs` are the sizes and alignments of their types. -/
structure State where
  insts : InstId → InstructionData
  parent : InstId → BasicBlockId
  preds : BasicBlockId → List BasicBlockId
  nextInst : ℕ
  vregs : VReg → Slot
  nextVReg : ℕ
  users : VReg → List VRegUser
  slots : List Slot
  numbering : Numbering

/-! ### Instructions and their users -/

def storeVregToSlot (slot : SlotId) (vreg : VReg) : InstructionData where
  opcode := .MSTOREr
  operands := [.plain .memStart,.plain .none,.plain (.slot slot),.plain .none,.asInput .none,
    .asInput .none,.plain .none,.asInput (.vreg vreg)]

def loadFromSlot (slot : SlotId) (vreg : VReg) : InstructionData where
  opcode := .MLOADr
  operands := [.asOutput (.vreg vreg),.plain .memStart,.plain .none,.plain (.slot slot),.plain .none,
    .asInput .none,.asInput .none,.plain .none]

namespace State

/-- `create_inst`: one user for each register of the instruction. -/
def createInst (f : State) (inst : InstructionData) (block : BasicBlockId) : State :=
  { f with
    insts := Function.update f.insts f.nextInst inst
    parent := Function.update f.parent f.nextInst block
    nextInst := f.nextInst+1
    users := fun v =>
      if v ∈ inst.inputVregs ∨ v ∈ inst.outputVregs then
        f.users v ++ [⟨f.nextInst,decide (v ∈ inst.inputVregs),decide (v ∈ inst.outputVregs)⟩]
      else f.users v }

/-- `create_from`: a new register of the same type. -/
def createFrom (f : State) (vreg : VReg) : State :=
  { f with vregs := Function.update f.vregs f.nextVReg (f.vregs vreg), nextVReg := f.nextVReg+1 }

/-- `replace_vreg`, with the users of both registers. -/
def replaceVreg (f : State) (i : InstId) (source target : VReg) : Except Fault State :=
  match (f.users source).find? (·.inst = i) with
  | none => .error .panic
  | some user => .ok { f with
      insts := Function.update f.insts i ((f.insts i).replaceVreg source target)
      users := Function.update
        (Function.update f.users source ((f.users source).eraseP (·.inst = i)))
        target (f.users target ++ [user]) }

end State

/-! ### Spills and reloads -/

/-- One turn of the loops of `insert_spill` and `insert_reload`: the instruction gets a register of
its own, and the new instruction that `make` builds for it goes to its place. -/
def rewriteUser (fuel : ℕ) (make : VReg → InstructionData) (op : InstId → InstId → BasicBlockId → Op)
    (vreg : VReg) (f : State) (i : InstId) : Except Fault (VReg × State) := do
  let newVreg := f.nextVReg
  let f ← (f.createFrom vreg).replaceVreg i vreg newVreg
  if (f.vregs newVreg).size = 4 then do
    let block := f.parent i
    let inst := f.nextInst
    let f := f.createInst (make newVreg) block
    let numbering ← step fuel (op i inst block) f.numbering
    .ok (newVreg,{ f with numbering := numbering })
  else .error .panic

def rewriteUsers (fuel : ℕ) (make : VReg → InstructionData)
    (op : InstId → InstId → BasicBlockId → Op) (vreg : VReg) :
    List InstId → State → Except Fault (List VReg × State)
  | [], f => .ok ([],f)
  | i::rest, f => do
    let (newVreg,f) ← rewriteUser fuel make op vreg f i
    let (newVregs,f) ← rewriteUsers fuel make op vreg rest f
    .ok (newVreg::newVregs,f)

/-- The order of two instructions by their points. -/
def State.pointLe (f : State) (a b : InstId) : Bool :=
  ((f.numbering.point? a).getD ⟨0,0⟩).le ((f.numbering.point? b).getD ⟨0,0⟩)

/-- `dedup_by`: an element goes when it is the same as the last one kept. -/
def dedupBy (same : InstId → InstId → Bool) : Option InstId → List InstId → List InstId
  | _, [] => []
  | kept, a::rest =>
    if kept.any (same a) then dedupBy same kept rest else a::dedupBy same (some a) rest

/-- The definitions from the last point to the first one, without one that follows another. -/
def State.defs (f : State) (vreg : VReg) : List InstId :=
  dedupBy (fun a b => prevInstOf a (f.numbering.insts (f.parent a)) = some b) none
    ((((f.users vreg).filter (·.write)).map (·.inst)).mergeSort fun a b => f.pointLe b a)

def State.uses (f : State) (vreg : VReg) : List InstId :=
  ((f.users vreg).filter (·.read)).map (·.inst)

def insertSpill (fuel : ℕ) (vreg : VReg) (slot : SlotId) (f : State) :
    Except Fault (List VReg × State) :=
  rewriteUsers fuel (storeVregToSlot slot) .after vreg (f.defs vreg) f

def insertReload (fuel : ℕ) (vreg : VReg) (slot : SlotId) (f : State) :
    Except Fault (List VReg × State) :=
  rewriteUsers fuel (loadFromSlot slot) .before vreg (f.uses vreg) f

/-! ### Live ranges of the new registers -/

def userPoints (n : Numbering) : List VRegUser → Except Fault (List (VRegUser × ProgramPoint))
  | [] => .ok []
  | user::rest => do
    let pp ← n.pointOf user.inst
    let others ← userPoints n rest
    .ok ((user,pp)::others)

def least : List ProgramPoint → Option ProgramPoint
  | [] => none
  | pp::rest => some (rest.foldl (fun a b => if b.le a then b else a) pp)

def greatest : List ProgramPoint → Option ProgramPoint
  | [] => none
  | pp::rest => some (rest.foldl (fun a b => if a.le b then b else a) pp)

def setRange (n : Numbering) (r : LReg) (segs : List LiveSegment) : Numbering :=
  { n with ranges := (r,segs)::n.ranges.filter fun range => range.1 ≠ r }

/-- `compute_live_ranges`: from the first definition to the last use that is not a definition. -/
def computeLiveRanges (f : State) (vreg : VReg) : Except Fault State := do
  let points ← userPoints f.numbering (f.users vreg)
  match least ((points.filter (·.1.write)).map (·.2)),
      greatest ((points.filter fun p => !p.1.write && p.1.read).map (·.2)) with
  | some start, some stop =>
    .ok { f with numbering := setRange f.numbering (.virt vreg) [⟨start,stop⟩] }
  | _, _ => .error .panic

def computeAllRanges : List VReg → State → Except Fault State
  | [], f => .ok f
  | v::rest, f => do
    let f ← computeLiveRanges f v
    computeAllRanges rest f

/-- `remove_vreg` -/
def removeVreg (f : State) (vreg : VReg) : State :=
  { f with numbering := { f.numbering with
    ranges := f.numbering.ranges.filter fun range => range.1 ≠ .virt vreg } }

/-- `Spiller::spill`, with the new registers. -/
def spill (fuel : ℕ) (vreg : VReg) (f : State) : Except Fault (List VReg × State) := do
  let slot := f.slots.length
  let f := { f with slots := f.slots ++ [f.vregs vreg] }
  let (spilled,f) ← insertSpill fuel vreg slot f
  let (reloaded,f) ← insertReload fuel vreg slot f
  let f ← computeAllRanges (spilled ++ reloaded) f
  .ok (spilled ++ reloaded,removeVreg f vreg)

end Spiller
end Codegen
end OlaLang
