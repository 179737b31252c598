import OlaLang.Spiller

/-! The register allocator: the registers that live across a call are spilled, and the others are
taken from a worklist and get the first register that is free where they live, or are spilled and
their new registers go to the end of the list. -/
namespace OlaLang
namespace Codegen

def Liveness.LiveSegment.interfere (x y : LiveSegment) : Bool :=
  !decide (y.stop.le x.start) && !decide (x.stop.le y.start)

/-- One summand of the weight of a live range, in unsigned 32-bit numbers. -/
def Liveness.LiveSegment.weight (seg : LiveSegment) : Except Fault ℕ :=
  if seg.start.inst ≤ seg.stop.inst ∧ seg.start.block ≤ seg.stop.block then do
    let blocks ← ProgramPoints.u32 (seg.stop.block-seg.start.block+10)
    ProgramPoints.u32 ((seg.stop.inst-seg.start.inst)*blocks)
  else .error .panic

namespace Regalloc

open Liveness ProgramPoints Spiller

/-! ### Live ranges -/

def interfereAll (xs ys : List LiveSegment) : Bool := xs.any fun x => ys.any fun y => x.interfere y

def rangeOf (n : Numbering) (r : LReg) : Option (List LiveSegment) := n.ranges.lookup r

def vregRange (n : Numbering) (v : VReg) : Except Fault (List LiveSegment) :=
  (rangeOf n (.virt v)).elim (.error .panic) .ok

/-- `interfere`; a register without ranges is free. -/
def interfere (n : Numbering) (reg : Reg) (v : VReg) : Except Fault Bool :=
  match rangeOf n (.phys reg) with
  | none => .ok false
  | some regRange => (vregRange n v).map fun vregRange => interfereAll vregRange regRange

/-- `merge` -/
def merge (xs ys : List LiveSegment) : List LiveSegment :=
  (xs ++ ys).mergeSort fun x y => x.start.le y.start

/-- `assign` -/
def assign (n : Numbering) (reg : Reg) (v : VReg) : Except Fault Numbering :=
  (vregRange n v).map fun range =>
    setRange n (.phys reg) (merge ((rangeOf n (.phys reg)).getD []) range)

def weight : ℕ → List LiveSegment → Except Fault ℕ
  | a, [] => .ok a
  | a, seg::rest => do
    let w ← seg.weight
    let sum ← u32 (a+w)
    weight sum rest

/-! ### The analysis of liveness -/

/-- The function as the analysis sees it. -/
def machineFunction (f : Spiller.State) : Function where
  name := ""
  blocks := f.numbering.layout.mapIdx fun b insts => ⟨insts.map f.insts,f.preds b,[]⟩
  slots := f.slots
  usedCsr := []
  isDeclaration := false

/-- The registers that an instruction reads or writes. -/
def touchedRegs (inst : InstructionData) : List LReg :=
  inst.inputVregs.map .virt ++ inst.outputVregs.map .virt ++
    (inst.inputRegs.map .phys ++ inst.outputRegs.map .phys)

def touched (f : Spiller.State) : List LReg :=
  (f.numbering.layout.flatten.flatMap fun i => touchedRegs (f.insts i)).dedup

/-- `analyze_function`: the points and the live ranges that the allocator starts with. Only a
register with a segment has an entry. -/
def analyze (f : Spiller.State) : Except Fault Spiller.State := do
  let live ← (analyzeFunction (machineFunction f)).elim (.error .panic) .ok
  let points ← numberBlocks 0 f.numbering.layout
  let ranges := (touched f).map fun r => (r,live.ranges r)
  .ok { f with numbering :=
    ⟨f.numbering.layout,points,ranges.filter fun range => range.2 ≠ []⟩ }

/-! ### The registers of a function -/

def allVregsOf (inst : InstructionData) : List VReg := inst.operands.filterMap (·.data.asVReg?)

/-- The set of the registers that the instructions name. -/
def allVregs (f : Spiller.State) : List VReg :=
  (f.numbering.layout.flatten.flatMap fun i => allVregsOf (f.insts i)).dedup

/-- The order in which a hash set gives its elements. -/
structure HashOrder where
  order : List VReg → List VReg
  perm : ∀ l, (order l).Perm l

/-- The registers of the set that live across instruction `i`. -/
def aliveAround (n : Numbering) (pp : ProgramPoint) : List VReg → Except Fault (List VReg)
  | [] => .ok []
  | v::rest => do
    let range ← vregRange n v
    let others ← aliveAround n pp rest
    .ok (if interfereAll range [.newPoint pp] then v::others else others)

def aliveAroundCalls (f : Spiller.State) (vregs : List VReg) : List InstId → Except Fault (List VReg)
  | [] => .ok []
  | i::rest =>
    if (f.insts i).isCall then do
      let pp ← f.numbering.pointOf i
      let here ← aliveAround f.numbering pp vregs
      let others ← aliveAroundCalls f vregs rest
      .ok (here ++ others)
    else aliveAroundCalls f vregs rest

/-- `collect_vregs_alive_around_call` -/
def collectVregsAliveAroundCall (f : Spiller.State) (vregs : List VReg) : Except Fault (List VReg) :=
  aliveAroundCalls f vregs f.numbering.layout.flatten

def spillAroundCalls (fuel : ℕ) : List VReg → List VReg → Spiller.State → Except Fault (List VReg × Spiller.State)
  | [], vregs, f => .ok (vregs,f)
  | v::rest, vregs, f => do
    let (newVregs,f) ← spill fuel v f
    spillAroundCalls fuel rest (vregs.erase v ++ newVregs) f

def isCopy (inst : InstructionData) : Bool := inst.opcode = .MOVri ∨ inst.opcode = .MOVrr

/-- `find_preferred_registers`, with the instructions that were visited. Every level visits an
instruction that no other one has visited, which bounds their number. -/
def findPreferredRegisters (f : Spiller.State) : ℕ → VReg → List InstId → List Reg × List InstId
  | 0, _, visited => ([],visited)
  | depth+1, vreg, visited => (f.users vreg).foldl (fun (list,visited) user =>
      if user.inst ∈ visited then (list,visited)
      else if user.write ∨ isCopy (f.insts user.inst) = false then (list,user.inst::visited)
      else match (f.insts user.inst).outputRegs, (f.insts user.inst).outputVregs with
        | reg::_, _ => (reg::list,user.inst::visited)
        | [], dst::_ =>
          let (more,visited) := findPreferredRegisters f depth dst (user.inst::visited)
          (list ++ more,visited)
        | [], [] => (list,user.inst::visited)) ([],visited)

/-- `collect_preferred_registers` -/
def collectPreferredRegisters (f : Spiller.State) (vregs : List VReg) (v : VReg) : List Reg :=
  if v ∈ vregs then (findPreferredRegisters f (f.nextInst + 1) v []).1 else []

/-! ### The worklist -/

/-- The start and the weight of a live range. -/
def sortKey (n : Numbering) (v : VReg) : Except Fault (ProgramPoint × ℕ) :=
  match rangeOf n (.virt v) with
  | some (seg::rest) => (weight 0 (seg::rest)).map fun w => (seg.start,w)
  | _ => .error .panic

def keyLe (a b : ProgramPoint × ℕ) : Bool :=
  decide (a.1.le b.1) && (!decide (b.1.le a.1) || decide (a.2 ≤ b.2))

def sortKeys (n : Numbering) : List VReg → Except Fault (List (VReg × ProgramPoint × ℕ))
  | [] => .ok []
  | v::rest => do
    let key ← sortKey n v
    let others ← sortKeys n rest
    .ok ((v,key)::others)

/-- `sort_by`; nothing is compared in a list of one element. -/
def sortWorklist (n : Numbering) (vregs : List VReg) : Except Fault (List VReg) :=
  if vregs.length ≤ 1 then .ok vregs
  else (sortKeys n vregs).map fun keys => (keys.mergeSort fun a b => keyLe a.2 b.2).map (·.1)

def gprList : List Reg := [GR 1,GR 2,GR 3,GR 4]

def csrList : List Reg := [GR 5,GR 6,GR 7,GR 8]

/-- A call in the first block of the layout. -/
def firstBlockCalls (f : Spiller.State) : Bool :=
  match f.numbering.layout with
  | [] => false
  | insts::_ => insts.any fun i => (f.insts i).isCall

structure Alloc where
  f : Spiller.State
  worklist : List VReg
  spillRegs : List VReg
  assigned : VReg → Option Reg

/-- The registers for `v`, in the order in which they are tried: the last one is kept for the
registers of the spiller. -/
def Alloc.availables (preferred : VReg → List Reg) (s : Alloc) (v : VReg) : List Reg :=
  let availables := if firstBlockCalls s.f then csrList else gprList ++ csrList
  preferred v ++ if v ∈ s.spillRegs then availables else availables.dropLast

def firstFree (n : Numbering) (v : VReg) : List Reg → Except Fault (Option Reg)
  | [] => .ok none
  | reg::rest => do
    let taken ← interfere n reg v
    if taken then firstFree n v rest else .ok (some reg)

/-- One turn of the loop, with the register that was popped and the rest of the list. -/
def Alloc.turn (fuel : ℕ) (preferred : VReg → List Reg) (s : Alloc) (v : VReg)
    (rest : List VReg) : Except Fault Alloc := do
  let reg ← firstFree s.f.numbering v (s.availables preferred v)
  match reg with
  | some reg => do
    let numbering ← assign s.f.numbering reg v
    .ok { s with
      f := { s.f with numbering := numbering }
      worklist := rest
      assigned := Function.update s.assigned v (some reg) }
  | none => do
    let (newVregs,f) ← spill fuel v s.f
    .ok { s with f := f, worklist := rest ++ newVregs, spillRegs := newVregs ++ s.spillRegs }

/-- The loop; the fuel bounds its turns, and the renumberings in each. -/
def allocate (preferred : VReg → List Reg) : ℕ → Alloc → Except Fault Alloc
  | 0, _ => .error .diverge
  | fuel+1, s => match s.worklist with
    | [] => .ok s
    | v::rest => do
      let s ← s.turn fuel preferred v rest
      allocate preferred fuel s

/-! ### The function with its registers -/

/-- `rewrite`, for all registers that have one. -/
def rewriteRegs (assigned : VReg → Option Reg) (inst : InstructionData) : InstructionData :=
  { inst with operands := inst.operands.map fun op =>
      match op.data.asVReg?.bind assigned with
      | some reg => { op with data := .reg reg }
      | none => op }

def isCsr (reg : Reg) : Bool := reg ∈ [GR 4,GR 5,GR 6,GR 7,GR 8]

/-- The callee-saved registers that were given. -/
def usedCsr (s : Alloc) : List Reg :=
  (((s.f.numbering.layout.flatten.flatMap fun i => allVregsOf (s.f.insts i)).filterMap
    s.assigned).filter isCsr).dedup

/-- The first part of `run_on_function`: the spills around the calls, and the worklist. -/
def start (hash : HashOrder) (fuel : ℕ) (f : Spiller.State) :
    Except Fault ((VReg → List Reg) × Alloc) := do
  let vregs := hash.order (allVregs f)
  let around ← collectVregsAliveAroundCall f vregs
  let (vregs,f) ← spillAroundCalls fuel around vregs f
  let vregs := hash.order vregs
  let worklist ← sortWorklist f.numbering vregs
  .ok (collectPreferredRegisters f vregs,⟨f,worklist,[],fun _ => none⟩)

/-- `run_on_function`, after the analysis of liveness. -/
def runOnFunction (hash : HashOrder) (fuel : ℕ) (f : Spiller.State) : Except Fault (Spiller.State × List Reg) := do
  let (preferred,s) ← start hash fuel f
  let s ← allocate preferred fuel s
  .ok ({ s.f with insts := fun i => rewriteRegs s.assigned (s.f.insts i) },usedCsr s)

end Regalloc
end Codegen
end OlaLang
