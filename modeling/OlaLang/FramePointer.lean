import OlaLang.MachineCode
import Mathlib.Logic.Relation

/-! The frame pointer `r9` of compiled functions: prologue and epilogue, the printed text, and runs
of a program through nested calls. -/
namespace OlaLang
namespace Codegen
namespace FramePointer

/-- The frame pointer. -/
def R9 : Reg := GR 9

/-! ### Frame slots -/

/-- `(x + align - 1) & !(align - 1)`. -/
def alignTo (offset align : ℕ) : ℕ :=
  (offset + align - 1) - ((offset + align - 1) &&& (align - 1))

/-- The offset after the slots, with the greatest alignment. -/
def offsets : List Slot → ℕ → ℕ → ℕ × ℕ
  | [], offset, align => (offset,align)
  | slot::rest, offset, align =>
    let offset := if offset % slot.align = 0 then offset else alignTo offset slot.align
    offsets rest (offset + slot.size) (max align slot.align)

def ensureComputedOffsets (slots : List Slot) : ℕ :=
  let (offset,align) := offsets slots 0 1
  if offset % align = 0 then offset else alignTo offset align

def hasCall (f : Function) : Bool := (f.blocks.flatMap BasicBlock.insts).any InstructionData.isCall

/-- A function with calls gets two more slots, for the return address and the frame pointer. -/
def eliminateSlot (f : Function) : Function :=
  if hasCall f then { f with slots := f.slots ++ [⟨4,4⟩,⟨4,4⟩] } else f

/-! ### Prologue and epilogue -/

def roundup (n align : BitVec 32) : BitVec 32 := (n + align - 1) &&& ~~~(align - 1)

/-- By how much the frame pointer moves. -/
def adj (f : Function) : ℤ :=
  let slotSize := ensureComputedOffsets f.slots
  let saved := 1 + f.usedCsr.length
  ((roundup (.ofNat 32 (slotSize + saved * 1 + 1)) 1 - .ofNat 32 (saved * 1 + 1)).sdiv 4).toInt

def mstoreFp : InstructionData := ⟨.MSTOREr,[.asOutput (.reg R9),.asInput (.reg R9)]⟩

def addFp (i : ℤ) : InstructionData :=
  ⟨.ADDri,[.inputOutput (.reg R9),.inputOutput (.reg R9),.asInput (.int32 (BitVec.ofInt 32 i))]⟩

def subFp (i : ℤ) : InstructionData :=
  ⟨.ADDri,[.asOutput (.reg R9),.inputOutput (.reg R9),.asInput (.int32 (BitVec.ofInt 32 (-i)))]⟩

def prologue (f : Function) : List InstructionData :=
  (if 0 < adj f then [addFp (adj f)] else []) ++ if hasCall f then [mstoreFp] else []

def epilogue (f : Function) (inst : InstructionData) : List InstructionData :=
  if inst.opcode = .RET ∧ 0 < adj f then [subFp (adj f),inst] else [inst]

def insertEpilogue (f : Function) (b : BasicBlock) : BasicBlock :=
  { b with insts := b.insts.flatMap (epilogue f) }

/-- `run_on_function`; a function without blocks is a panic. -/
def insertProEpi (f : Function) : Option Function :=
  if f.isDeclaration then some f
  else match f.blocks with
    | [] => none
    | entry::blocks =>
      let entry := { entry with insts := prologue f ++ entry.insts }
      some { f with blocks := (entry::blocks).map (insertEpilogue f) }

/-! ### The printed text -/

inductive Line
  | inst (inst : InstructionData)
  | saveFp   -- `mstore [r9,-2] r9`
  | ret
  | bareRet   -- the `ret` of a block without instructions
  | fin   -- `end`

/-- The store of the frame pointer, as the printer recognises it. -/
def isSaveFp (inst : InstructionData) : Bool :=
  inst.opcode = .MSTOREr ∧ (inst.operands[0]?.map Operand.data) = some (.reg R9) ∧
    (inst.operands[1]?.map Operand.data) = some (.reg R9)

def printInst (name : String) (inst : InstructionData) : Line :=
  if isSaveFp inst then .saveFp
  else if inst.opcode = .RET then if name = "main" ∨ name = "call" then .fin else .ret
  else .inst inst

def printBlock (name : String) (b : BasicBlock) : List Line :=
  match b.insts.getLast? with
  | none => [.bareRet]
  | some _ => b.insts.map (printInst name)

/-- The text of a function from one of its labels on. -/
def text (f : Function) (b : BasicBlockId) : List Line :=
  (f.blocks.drop b).flatMap (printBlock f.name)

/-! ### Runs -/

/-- A place in the program: a function and the rest of its text. -/
structure Pc where
  fn : ℕ
  rest : List Line

inductive Cell
  | felt (x : Felt)
  | pc (p : Pc)

structure Machine where
  regs : Reg → Felt
  mem : Felt → Cell

def Machine.fp (m : Machine) : Felt := m.regs R9

def Machine.store (m : Machine) (a : Felt) (c : Cell) : Machine :=
  { m with mem := Function.update m.mem a c }

def Machine.set (m : Machine) (r : Reg) (x : Felt) : Machine :=
  { m with regs := Function.update m.regs r x }

/-- The instructions other than jumps, calls and returns: they change their outputs and the cells
they store to. -/
structure VM where
  exec : InstructionData → Machine → Option Machine
  stores : InstructionData → Machine → Set Felt
  exec_regs : ∀ {inst m m'}, exec inst m = some m' → ∀ r ∉ inst.outputRegs, m'.regs r = m.regs r
  exec_mem : ∀ {inst m m'}, exec inst m = some m' → ∀ a ∉ stores inst m, m'.mem a = m.mem a
  exec_add : ∀ {inst m d a c rd ra v}, inst.opcode = .ADDri → inst.operands = [d,a,c] →
    d.output = true → d.data = .reg rd → a.data = .reg ra → c.data.immediate? = some v →
    exec inst m = some (m.set rd (m.regs ra + v))

/-- A function that was entered: the frame pointer, and the two cells below it, at its entry. -/
structure Link where
  fn : ℕ
  fp : Felt
  pc : Cell
  frame : Cell

structure State where
  pc : Pc
  machine : Machine
  links : List Link

/-- The program and the function a place is in. -/
def functionAt (P : List Function) (fn : ℕ) : Function := P[fn]?.getD ⟨"",[],[],[],true⟩

def callee (P : List Function) (inst : InstructionData) : Option ℕ := do
  let op ← inst.operands.getLast?
  match op.data with
  | .label name => P.findIdx? fun g => g.name = name ∧ g.isDeclaration = false
  | _ => none

variable (P : List Function) (vm : VM)

def jump (s : State) (target : Operand) : Option State := do
  let b ← target.data.asBlock?
  pure { s with pc := ⟨s.pc.fn,text (functionAt P s.pc.fn) b⟩ }

/-- The return address goes below the frame pointer. -/
def call (s : State) (rest : List Line) (g : ℕ) : State :=
  let m := s.machine.store (s.machine.fp - 1) (.pc ⟨s.pc.fn,rest⟩)
  ⟨⟨g,text (functionAt P g) 0⟩,m,⟨g,m.fp,m.mem (m.fp - 1),m.mem (m.fp - 2)⟩::s.links⟩

/-- The return address and the frame pointer of the caller are taken from below the frame pointer. A
return from the outermost function ends the run. -/
def ret (s : State) : Option State :=
  match s.machine.mem (s.machine.fp - 1), s.machine.mem (s.machine.fp - 2), s.links with
  | .pc p, .felt x, _::caller::links => some ⟨p,s.machine.set R9 x,caller::links⟩
  | _, _, _ => none

def step (s : State) : Option State := match s.pc.rest with
  | [] | .fin::_ => none
  | .saveFp::rest => some { s with
      pc := ⟨s.pc.fn,rest⟩
      machine := s.machine.store (s.machine.fp - 2) (.felt s.machine.fp) }
  | .ret::_ | .bareRet::_ => ret s
  | .inst inst::rest => match inst.opcode, inst.operands with
    | .JMPr, [target] => jump P s target
    | .CJMPr, [cond,target] => do
      let c ← cond.data.asReg?
      if s.machine.regs c = 1 then jump P s target
      else pure { s with pc := ⟨s.pc.fn,rest⟩ }
    | .CALL, _ => do
      let g ← callee P inst
      pure (call P s rest g)
    | _, _ => do
      let m ← vm.exec inst s.machine
      pure { s with pc := ⟨s.pc.fn,rest⟩, machine := m }

/-- The function is at an exit: a `ret` of its own or the one printed for an empty block. -/
inductive AtExit : State → Bool → Prop
  | ret {s rest} : s.pc.rest = .ret::rest → AtExit s false
  | bareRet {s rest} : s.pc.rest = .bareRet::rest → AtExit s true

/-- The frame pointer and the two cells below it are those of the entry. -/
def Balanced (s : State) : Prop := ∀ link links, s.links = link::links →
  s.machine.fp = link.fp ∧ s.machine.mem (link.fp - 1) = link.pc ∧
    s.machine.mem (link.fp - 2) = link.frame

/-- The cells of the links: those of the frames, and in a function with calls the saved frame
pointer. -/
def Linked (s : State) (a : Felt) : Prop :=
  (∃ link ∈ s.links, a = link.fp - 1 ∨ a = link.fp - 2) ∨
    hasCall (functionAt P s.pc.fn) = true ∧ a = s.machine.fp - 2

/-- No store reaches a cell of a link, and the frames stay below the end of memory. -/
def Guarded (s : State) : Prop :=
  (∀ inst rest, s.pc.rest = .inst inst::rest → ∀ a ∈ vm.stores inst s.machine, ¬ Linked P s a) ∧
    ∀ link ∈ s.links, link.fp.val + (adj (functionAt P link.fn)).toNat < FIELD_ORDER

/-- A step after which the run is still followed: an exit is a `ret` of the function, or the function
has no frame. -/
def Follows (s s' : State) : Prop := Guarded P vm s ∧
  (∀ bare, AtExit s bare → bare = false ∨ adj (functionAt P s.pc.fn) ≤ 0) ∧ step P vm s = some s'

/-- The entry of a function of the program, with room for the two cells below the frame pointer. -/
structure Start (s : State) : Prop where
  fn : s.pc.fn < P.length
  declared : (functionAt P s.pc.fn).isDeclaration = false
  rest : s.pc.rest = text (functionAt P s.pc.fn) 0
  room : 2 ≤ s.machine.fp.val
  links : s.links = [⟨s.pc.fn,s.machine.fp,s.machine.mem (s.machine.fp - 1),
    s.machine.mem (s.machine.fp - 2)⟩]

/-- A function as it comes to the passes: no instruction writes the frame pointer or looks like the
store of it, none jumps to the entry, and the size of the frame is an `i32`. -/
structure Lowered (f : Function) : Prop where
  writes : ∀ b ∈ f.blocks, ∀ inst ∈ b.insts, R9 ∉ inst.outputRegs
  saves : ∀ b ∈ f.blocks, ∀ inst ∈ b.insts, isSaveFp inst = false
  jumps : ∀ b ∈ f.blocks, ∀ inst ∈ b.insts, ∀ op ∈ inst.operands, op.data ≠ .block 0
  aligned : ∀ slot ∈ f.slots, 0 < slot.align
  fits : ensureComputedOffsets (eliminateSlot f).slots + (1 + f.usedCsr.length) + 1 < 2^31

/-- A function of the program: the passes made it from a lowered one. -/
def Built (g : Function) : Prop := ∃ f, Lowered f ∧ insertProEpi (eliminateSlot f) = some g

/-! ### The size of the frame -/

theorem roundup_one (n : BitVec 32) : roundup n 1 = n := by
  have h : n + 1 - 1 = n := BitVec.add_sub_cancel n 1
  have h' : ~~~((1 : BitVec 32) - 1) = BitVec.allOnes 32 := by decide
  rw [roundup,h,h',BitVec.and_allOnes]

theorem adj_eq {f : Function}
    (h : ensureComputedOffsets f.slots + (1 + f.usedCsr.length) + 1 < 2^31) :
    adj f = (ensureComputedOffsets f.slots / 4 : ℕ) := by
  have hsize : BitVec.ofNat 32 (ensureComputedOffsets f.slots + (1 + f.usedCsr.length) * 1 + 1) -
      BitVec.ofNat 32 ((1 + f.usedCsr.length) * 1 + 1) =
        BitVec.ofNat 32 (ensureComputedOffsets f.slots) := by
    apply BitVec.eq_of_toNat_eq
    simp only [BitVec.toNat_sub,BitVec.toNat_ofNat]
    omega
  have hint : (BitVec.ofNat 32 (ensureComputedOffsets f.slots)).toInt =
      (ensureComputedOffsets f.slots : ℤ) := by
    rw [BitVec.toInt_eq_toNat_of_lt] <;> rw [BitVec.toNat_ofNat,Nat.mod_eq_of_lt (by omega)]
    omega
  have hfour : (4 : BitVec 32).toInt = 4 := by decide
  simp only [adj,roundup_one,hsize,BitVec.toInt_sdiv,hint,hfour]
  have hdiv : ((ensureComputedOffsets f.slots : ℕ) : ℤ).tdiv 4 =
      (ensureComputedOffsets f.slots / 4 : ℕ) := (Int.natCast_div _ 4).symm
  rw [hdiv,Int.bmod_eq_of_le (by omega) (by omega)]

theorem alignTo_le (offset : ℕ) {align : ℕ} (h : 0 < align) : offset ≤ alignTo offset align := by
  have hand : (offset + align - 1) &&& (align - 1) ≤ align - 1 := Nat.and_le_right
  rw [alignTo]
  omega

theorem offsets_le (slots : List Slot) (h : ∀ slot ∈ slots, 0 < slot.align) (offset align : ℕ)
    (halign : 0 < align) : offset + (slots.map Slot.size).sum ≤ (offsets slots offset align).1 ∧
      0 < (offsets slots offset align).2 := by
  induction slots generalizing offset align with
  | nil => exact ⟨le_refl _,halign⟩
  | cons slot rest ih =>
    have hslot := h slot List.mem_cons_self
    have hle : offset ≤ if offset % slot.align = 0 then offset else alignTo offset slot.align := by
      split
      · exact le_refl _
      · exact alignTo_le offset hslot
    obtain ⟨hsum,hpos⟩ := ih (fun slot' hmem => h slot' (List.mem_cons_of_mem _ hmem))
      ((if offset % slot.align = 0 then offset else alignTo offset slot.align) + slot.size)
      (max align slot.align) (by omega)
    rw [offsets,List.map_cons,List.sum_cons]
    exact ⟨by omega,hpos⟩

theorem ensureComputedOffsets_le {slots : List Slot} (h : ∀ slot ∈ slots, 0 < slot.align) :
    (slots.map Slot.size).sum ≤ ensureComputedOffsets slots := by
  obtain ⟨hsum,hpos⟩ := offsets_le slots h 0 1 Nat.one_pos
  rw [ensureComputedOffsets]
  rcases hoff : offsets slots 0 1 with ⟨offset,align⟩
  rw [hoff] at hsum hpos
  simp only at hsum hpos ⊢
  split
  · omega
  · exact (by omega : _ ≤ offset).trans (alignTo_le offset hpos)

theorem eliminateSlot_blocks (f : Function) : (eliminateSlot f).blocks = f.blocks := by
  rw [eliminateSlot]
  split <;> rfl

theorem eliminateSlot_usedCsr (f : Function) : (eliminateSlot f).usedCsr = f.usedCsr := by
  rw [eliminateSlot]
  split <;> rfl

theorem hasCall_eliminateSlot (f : Function) : hasCall (eliminateSlot f) = hasCall f := by
  rw [hasCall,hasCall,eliminateSlot_blocks]

/-- The size of the frame in cells. -/
theorem Lowered.adj_eq {f : Function} (h : Lowered f) :
    adj (eliminateSlot f) = (ensureComputedOffsets (eliminateSlot f).slots / 4 : ℕ) :=
  FramePointer.adj_eq (by rw [eliminateSlot_usedCsr]; exact h.fits)

/-- The frame of a function with calls has room for the two cells. -/
theorem two_le_adj {f : Function} (h : Lowered f) (hcall : hasCall f = true) :
    2 ≤ adj (eliminateSlot f) := by
  have haligned : ∀ slot ∈ (eliminateSlot f).slots, 0 < slot.align := by
    intro slot hslot
    rw [eliminateSlot,if_pos hcall] at hslot
    rcases List.mem_append.mp hslot with hslot|hslot
    · exact h.aligned slot hslot
    · simp only [List.mem_cons,List.not_mem_nil,or_false] at hslot
      rcases hslot with rfl|rfl <;> decide
  have hle := ensureComputedOffsets_le haligned
  have hsum : 8 ≤ ((eliminateSlot f).slots.map Slot.size).sum := by
    rw [eliminateSlot,if_pos hcall,List.map_append,List.sum_append]
    exact Nat.le_add_left 8 _
  rw [h.adj_eq]
  have hdiv : 2 ≤ ensureComputedOffsets (eliminateSlot f).slots / 4 := by omega
  exact_mod_cast hdiv

end FramePointer
end Codegen
end OlaLang
