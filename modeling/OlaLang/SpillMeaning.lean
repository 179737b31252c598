import OlaLang.SpillRun

/-! What a spilled function does. The instructions are given any meaning that depends on the values
they read, and the cell of the new slot is apart from the rest of the machine; on every path the
function with the spill then runs as the one without it, unless an instruction reads and writes the
register or a phi reads it. -/
namespace OlaLang
namespace Codegen
namespace Spiller

open Liveness ProgramPoints

/-! ### Running a path -/

/-- The operands of an instruction, but for the names of its virtual registers. -/
def shape (inst : InstructionData) : List Operand :=
  inst.operands.map fun op => if op.data.asVReg?.isSome then { op with data := .none } else op

/-- A meaning of the instructions: from the values of the inputs and the block a phi is entered
from, the values of the outputs and the change of the rest of the machine. -/
structure Meaning (V W : Type) where
  out : Opcode → List Operand → Option BasicBlockId → List V → W → ℕ → V
  world : Opcode → List Operand → Option BasicBlockId → List V → W → W

/-- The registers, the cell of the slot, and the rest of the machine. -/
structure Cpu (V W : Type) where
  regs : LReg → V
  cell : V
  world : W

/-- The registers an instruction reads; a phi reads those that come from the block before. -/
def inputsOf (inst : InstructionData) (pred : Option BasicBlockId) : List LReg :=
  inst.operands.zipIdx.filterMap fun (op,i) =>
    if op.input = true ∧ (inst.isPhi = true → pred.isSome = true ∧ inst.blockAt (i + 1) = pred) then
      lreg? op.data
    else none

def outputsOf (inst : InstructionData) : List LReg :=
  inst.operands.filterMap fun op => if op.output then lreg? op.data else none

def writeFrom {V : Type} (out : ℕ → V) : ℕ → List LReg → (LReg → V) → LReg → V
  | _, [], regs => regs
  | k, r::rest, regs => writeFrom out (k+1) rest (Function.update regs r (out k))

/-- The register that the instruction stores to the slot. -/
def storedReg? (slot : SlotId) (inst : InstructionData) : Option VReg :=
  inst.inputVregs.head?.filter fun v => inst = storeVregToSlot slot v

/-- The register that the instruction loads from the slot. -/
def loadedReg? (slot : SlotId) (inst : InstructionData) : Option VReg :=
  inst.outputVregs.head?.filter fun v => inst = loadFromSlot slot v

section
variable {V W : Type} (m : Meaning V W) (slot : SlotId) (pred : Option BasicBlockId)

/-- The values an instruction reads: a phi reads the registers at the entry of the block. -/
def valuesOf (entry : LReg → V) (inst : InstructionData) (c : Cpu V W) : List V :=
  (inputsOf inst pred).map (if inst.isPhi then entry else c.regs)

/-- An instruction that does not move the register to or from the slot. -/
def execOther (entry : LReg → V) (inst : InstructionData) (c : Cpu V W) : Cpu V W where
  regs := writeFrom (m.out inst.opcode (shape inst) pred (valuesOf pred entry inst c) c.world) 0
    (outputsOf inst) c.regs
  cell := c.cell
  world := m.world inst.opcode (shape inst) pred (valuesOf pred entry inst c) c.world

def exec (entry : LReg → V) (inst : InstructionData) (c : Cpu V W) : Cpu V W :=
  match storedReg? slot inst with
  | some v => { c with cell := c.regs (.virt v) }
  | none => match loadedReg? slot inst with
    | some v => { c with regs := Function.update c.regs (.virt v) c.cell }
    | none => execOther m pred entry inst c

def execAll (entry : LReg → V) : List InstructionData → Cpu V W → Cpu V W
  | [], c => c
  | inst::rest, c => execAll entry rest (exec m slot pred entry inst c)

end

def State.blockInsts (f : State) (b : BasicBlockId) : List InstructionData :=
  (f.numbering.insts b).map f.insts

/-- The blocks of the path one after the other, the first one entered from `pred`. -/
def runPath {V W : Type} (m : Meaning V W) (slot : SlotId) (f : State) :
    Option BasicBlockId → List BasicBlockId → Cpu V W → Cpu V W
  | _, [], c => c
  | pred, b::rest, c =>
    runPath m slot f (some b) rest (execAll m slot pred c.regs (f.blockInsts b) c)

/-- A path of the control flow graph. -/
def IsWalk (f : State) : Option BasicBlockId → List BasicBlockId → Prop
  | _, [] => True
  | pred, b::rest => (∀ p, pred = some p → p ∈ f.preds b) ∧ IsWalk f (some b) rest

/-- A register of the function before the spill. -/
def Old (f : State) (lr : LReg) : Prop := ∀ v : ℕ, lr = .virt v → v < f.nextVReg

/-- The two machines agree on the registers but for the spilled one, whose value is in the cell. -/
structure Agree {V W : Type} (f : State) (r : VReg) (c c' : Cpu V W) : Prop where
  regs : ∀ lr, lr ≠ .virt r → Old f lr → c'.regs lr = c.regs lr
  cell : c'.cell = c.regs (.virt r)
  world : c'.world = c.world

/-- On every path the function after the spill does what the one before it does. -/
def Preserves (f f' : State) (r : VReg) : Prop :=
  ∀ (V W : Type) (m : Meaning V W) pred path (c c' : Cpu V W), IsWalk f pred path →
    Agree f r c c' →
    Agree f r (runPath m f.slots.length f pred path c) (runPath m f.slots.length f' pred path c')

/-- No instruction reads and writes the register, and no phi reads it from a predecessor. -/
structure Separate (f : State) (r : VReg) : Prop where
  noReadWrite : ∀ i ∈ f.numbering.layout.flatten, (f.insts i).isPhi = false →
    r ∈ (f.insts i).inputVregs → r ∉ (f.insts i).outputVregs
  noPhi : ∀ b, ∀ i ∈ f.numbering.insts b, (f.insts i).isPhi = true → ∀ p ∈ f.preds b,
    .virt r ∉ inputsOf (f.insts i) (some p)

variable {f f' : State} {r v slot : ℕ} {inst : InstructionData} {pred : Option BasicBlockId}

/-! ### Instructions with another register -/

/-- `v` for `r`. -/
def substReg (r v : VReg) (lr : LReg) : LReg := if lr = .virt r then .virt v else lr

theorem lreg_replace (d : OperandData) :
    lreg? (if d = .vreg r then .vreg v else d) = (lreg? d).map (substReg r v) := by
  by_cases hd : d = .vreg r
  · rw [if_pos hd,hd]
    simp [lreg?,substReg]
  · rw [if_neg hd]
    cases d with
    | vreg w =>
      have hw : w ≠ r := fun heq => hd (by rw [heq])
      simp [lreg?,substReg,hw]
    | reg p => simp [lreg?,substReg]
    | _ => rfl

/-- The operand of the instruction with another register. -/
def substOperand (r v : VReg) (op : Operand) : Operand :=
  if op.data = .vreg r then { op with data := .vreg v } else op

theorem replaceVreg_operands : (inst.replaceVreg r v).operands =
    inst.operands.map (substOperand r v) := rfl

theorem substOperand_data (op : Operand) : (substOperand r v op).data =
    if op.data = .vreg r then .vreg v else op.data := by
  rw [substOperand]
  split <;> rfl

theorem substOperand_flags (op : Operand) : (substOperand r v op).input = op.input ∧
    (substOperand r v op).output = op.output ∧ (substOperand r v op).implicit = op.implicit := by
  rw [substOperand]
  split <;> exact ⟨rfl,rfl,rfl⟩

theorem asBlock_replace (d : OperandData) :
    (if d = .vreg r then OperandData.vreg v else d).asBlock? = d.asBlock? := by
  by_cases hd : d = .vreg r
  · rw [if_pos hd,hd]
    rfl
  · rw [if_neg hd]

theorem blockAt_replace (i : ℕ) : (inst.replaceVreg r v).blockAt i = inst.blockAt i := by
  rw [InstructionData.blockAt,InstructionData.blockAt,replaceVreg_operands,List.getElem?_map]
  cases inst.operands[i]? with
  | none => rfl
  | some op =>
    show (substOperand r v op).data.asBlock? = op.data.asBlock?
    rw [substOperand_data,asBlock_replace]

theorem shape_replace : shape (inst.replaceVreg r v) = shape inst := by
  rw [shape,shape,replaceVreg_operands,List.map_map]
  apply List.map_congr_left
  intro op _
  show (if (substOperand r v op).data.asVReg?.isSome then
    { substOperand r v op with data := .none } else substOperand r v op) = _
  by_cases hd : op.data = .vreg r
  · have hsubst : substOperand r v op = { op with data := .vreg v } := if_pos hd
    rw [hsubst]
    simp [hd,OperandData.asVReg?]
  · have hsubst : substOperand r v op = op := if_neg hd
    rw [hsubst]

theorem inputsOf_replace : inputsOf (inst.replaceVreg r v) pred =
    (inputsOf inst pred).map (substReg r v) := by
  rw [inputsOf,inputsOf,replaceVreg_operands,List.zipIdx_map,List.filterMap_map,
    List.map_filterMap]
  apply List.filterMap_congr
  rintro ⟨op,i⟩ _
  show (if (substOperand r v op).input = true ∧ ((inst.replaceVreg r v).isPhi = true →
    pred.isSome = true ∧ (inst.replaceVreg r v).blockAt (i + 1) = pred) then
    lreg? (substOperand r v op).data else none) = _
  have hphi : (inst.replaceVreg r v).isPhi = inst.isPhi := rfl
  rw [(substOperand_flags op).1,blockAt_replace,hphi,substOperand_data]
  show _ = Option.map (substReg r v) (if op.input = true ∧ (inst.isPhi = true →
    pred.isSome = true ∧ inst.blockAt (i + 1) = pred) then lreg? op.data else none)
  by_cases h : op.input = true ∧ (inst.isPhi = true → pred.isSome = true ∧
      inst.blockAt (i + 1) = pred)
  · rw [if_pos h,if_pos h]
    exact lreg_replace op.data
  · rw [if_neg h,if_neg h]
    rfl

theorem outputsOf_replace : outputsOf (inst.replaceVreg r v) =
    (outputsOf inst).map (substReg r v) := by
  rw [outputsOf,outputsOf,replaceVreg_operands,List.filterMap_map,List.map_filterMap]
  apply List.filterMap_congr
  intro op _
  show (if (substOperand r v op).output = true then lreg? (substOperand r v op).data else none) = _
  rw [(substOperand_flags op).2.1,substOperand_data]
  cases op.output with
  | true => exact lreg_replace op.data
  | false => rfl

theorem map_substReg {l : List LReg} (h : .virt r ∉ l) : l.map (substReg r v) = l := by
  conv => rhs; rw [← List.map_id l]
  apply List.map_congr_left
  intro lr hlr
  exact if_neg fun heq : lr = .virt r => h (heq ▸ hlr)

theorem mem_outputsOf : .virt r ∈ outputsOf inst ↔ r ∈ inst.outputVregs := by
  rw [outputsOf,InstructionData.outputVregs,List.mem_filterMap,List.mem_filterMap]
  refine exists_congr fun op => and_congr_right fun _ => ?_
  cases op.output with
  | false => simp
  | true => cases op.data <;> simp [lreg?,OperandData.asVReg?]

theorem mem_inputsOf (hphi : inst.isPhi = false) :
    .virt r ∈ inputsOf inst pred ↔ r ∈ inst.inputVregs := by
  have hinputs : inputsOf inst pred = inst.operands.filterMap fun op =>
      if op.input then lreg? op.data else none := by
    rw [inputsOf]
    conv => rhs; rw [← List.zipIdx_map_fst 0 inst.operands,List.filterMap_map]
    apply List.filterMap_congr
    rintro ⟨op,i⟩ _
    simp [hphi]
  rw [hinputs,InstructionData.inputVregs,List.mem_filterMap,List.mem_filterMap]
  refine exists_congr fun op => and_congr_right fun _ => ?_
  cases op.input with
  | false => simp
  | true => cases op.data <;> simp [lreg?,OperandData.asVReg?]

/-! ### Writes and the slot -/

section
variable {V W : Type} {out : ℕ → V} {k : ℕ} {rs : List LReg} {regs regs' : LReg → V} {lr : LReg}
  {m : Meaning V W} {c c' : Cpu V W} {entry entry' : LReg → V}

/-- Writes under a renaming: a register that agrees, or is written, agrees afterwards. -/
theorem writeFrom_map {σ : LReg → LReg} (hinj : ∀ x ∈ rs, σ x = σ lr → x = lr)
    (h : regs' (σ lr) = regs lr ∨ lr ∈ rs) :
    writeFrom out k (rs.map σ) regs' (σ lr) = writeFrom out k rs regs lr := by
  induction rs generalizing k regs regs' with
  | nil => exact h.resolve_right (by simp)
  | cons x rest ih =>
    rw [List.forall_mem_cons] at hinj
    rw [List.map_cons,writeFrom,writeFrom]
    apply ih hinj.2
    by_cases hx : x = lr
    · left
      rw [hx,Function.update_self,Function.update_self]
    · rcases h with h | h
      · left
        rw [Function.update_of_ne (Ne.symm hx),Function.update_of_ne
          fun heq => hx (hinj.1 heq.symm)]
        exact h
      · exact Or.inr ((List.mem_cons.mp h).resolve_left (Ne.symm hx))

theorem writeFrom_congr (h : regs' lr = regs lr) :
    writeFrom out k rs regs' lr = writeFrom out k rs regs lr := by
  induction rs generalizing k regs regs' with
  | nil => exact h
  | cons x rest ih =>
    apply ih
    rw [Function.update_apply,Function.update_apply,h]

theorem writeFrom_of_not_mem (h : lr ∉ rs) : writeFrom out k rs regs lr = regs lr := by
  induction rs generalizing k regs with
  | nil => rfl
  | cons x rest ih =>
    rw [List.mem_cons,not_or] at h
    rw [writeFrom,ih h.2,Function.update_of_ne h.1]

/-- The instruction does not name the slot. -/
def NoSlot (slot : SlotId) (inst : InstructionData) : Prop :=
  ∀ op ∈ inst.operands, op.data ≠ .slot slot

theorem NoSlot.replace (h : NoSlot slot inst) : NoSlot slot (inst.replaceVreg r v) := by
  intro op hop
  rw [replaceVreg_operands] at hop
  rcases List.mem_map.mp hop with ⟨op',hop',rfl⟩
  rw [substOperand_data]
  split
  · exact fun h => by cases h
  · exact h op' hop'

theorem NoSlot.stored (h : NoSlot slot inst) : storedReg? slot inst = none := by
  rw [storedReg?,Option.filter_eq_none_iff]
  intro w _
  rw [decide_eq_true_iff]
  rintro rfl
  exact h (.plain (.slot slot)) (by simp [storeVregToSlot]) rfl

theorem NoSlot.loaded (h : NoSlot slot inst) : loadedReg? slot inst = none := by
  rw [loadedReg?,Option.filter_eq_none_iff]
  intro w _
  rw [decide_eq_true_iff]
  rintro rfl
  exact h (.plain (.slot slot)) (by simp [loadFromSlot]) rfl

theorem exec_other (h : NoSlot slot inst) :
    exec m slot pred entry inst c = execOther m pred entry inst c := by
  rw [exec,h.stored]
  show (match loadedReg? slot inst with
    | some v => _
    | none => execOther m pred entry inst c) = _
  rw [h.loaded]

theorem exec_store : exec m slot pred entry (storeVregToSlot slot v) c =
    { c with cell := c.regs (.virt v) } := by
  have hstored : storedReg? slot (storeVregToSlot slot v) = some v := by
    simp [storedReg?,storeVregToSlot,InstructionData.inputVregs,Operand.plain,Operand.asInput,
      OperandData.asVReg?]
  rw [exec,hstored]

theorem exec_load : exec m slot pred entry (loadFromSlot slot v) c =
    { c with regs := Function.update c.regs (.virt v) c.cell } := by
  have hstored : storedReg? slot (loadFromSlot slot v) = none := by
    simp [storedReg?,loadFromSlot,InstructionData.inputVregs,Operand.plain,Operand.asInput,
      Operand.asOutput,OperandData.asVReg?]
  have hloaded : loadedReg? slot (loadFromSlot slot v) = some v := by
    simp [loadedReg?,loadFromSlot,InstructionData.outputVregs,Operand.plain,Operand.asInput,
      Operand.asOutput,OperandData.asVReg?]
  rw [exec,hstored]
  show (match loadedReg? slot (loadFromSlot slot v) with
    | some v => _
    | none => _) = _
  rw [hloaded]

end

end Spiller
end Codegen
end OlaLang
