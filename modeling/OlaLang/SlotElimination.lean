import OlaLang.FramePointer

/-! The types of the IR and their sizes, the offsets of the frame slots, and the elimination of the
memory operands that name a slot. -/
namespace OlaLang
namespace Codegen
namespace SlotElimination

open FramePointer

/-! ### The data layout -/

inductive IrType
  | void | i1 | i8 | i16 | i32 | i64
  | pointer (inner : IrType)
  | array (inner : IrType) (numElements : ℕ)
  | struct (elems : List IrType) (isPacked : Bool)

mutual

/-- `get_size_of` and `get_align_of`, in bytes. -/
def IrType.layout : IrType → ℕ × ℕ
  | .void => (0,0)
  | .i1 | .i8 => (1,1)
  | .i16 => (2,2)
  | .i32 | .i64 | .pointer _ => (4,4)
  | .array inner numElements => (inner.layout.1 * numElements,inner.layout.1)
  | .struct elems isPacked =>
    let (offset,align) := structLayout isPacked elems 0 1
    (if offset % align = 0 then offset else alignTo offset align,align)

/-- The offset behind the elements of a struct, with the greatest alignment. -/
def structLayout (isPacked : Bool) : List IrType → ℕ → ℕ → ℕ × ℕ
  | [], offset, align => (offset,align)
  | elem::rest, offset, align =>
    let elemAlign := if isPacked then 1 else elem.layout.2
    let offset := if offset % elemAlign = 0 then offset else alignTo offset elemAlign
    structLayout isPacked rest (offset + elem.layout.1) (max align elemAlign)

end

def IrType.getSizeOf (ty : IrType) : ℕ := ty.layout.1

def IrType.getAlignOf (ty : IrType) : ℕ := ty.layout.2

/-- `element`; a struct has none. -/
def IrType.element : IrType → Option IrType
  | .pointer inner | .array inner _ => some inner
  | _ => none

/-! ### Memory operands -/

/-- The six operands behind a `MemStart`. -/
structure Mem where
  label : OperandData
  slot : OperandData
  imm : OperandData
  base : OperandData
  index : OperandData
  scale : OperandData
  deriving DecidableEq

def Mem.operands (m : Mem) : List Operand :=
  [.plain .memStart,.plain m.label,.plain m.slot,.plain m.imm,.asInput m.base,.asInput m.index,
    .plain m.scale]

/-- `[slot + imm]`. -/
def Mem.ofSlot (slot : SlotId) (imm : OperandData) : Mem :=
  ⟨.none,.slot slot,imm,.none,.none,.none⟩

structure Regs where
  reg : Reg → Felt
  vreg : VReg → Felt

def Regs.value (r : Regs) : OperandData → Option Felt
  | .reg x => some (r.reg x)
  | .vreg v => some (r.vreg v)
  | _ => none

/-- The cell a memory operand addresses: what stands between the printed brackets is added. -/
def Mem.address (r : Regs) (m : Mem) : Option Felt := match m.slot, m.label with
  | .none, .none => do
    let base ← r.value m.base
    match m.index, m.imm, m.scale with
    | .none, .none, .none => pure base
    | .none, .int32 i, .none => pure (base + (i.toInt : Felt))
    | .none, .int64 i, .none => pure (base + (i.toInt : Felt))
    | index, .none, .none => do
      let x ← r.value index
      pure (base + x)
    | index, .int32 i, .none => do
      let x ← r.value index
      pure (base + x + (i.toInt : Felt))
    | index, .none, .int32 k => do
      let x ← r.value index
      pure (if k = 0 then base else base + x + (k.toInt : Felt))
    | index, .int32 i, .int32 k => do
      let x ← r.value index
      -- the texts are `[base,index,+k]`, `[base,+i]` and `[base,+i,index,+k]`
      pure (if i = 0 then base + x + (k.toInt : Felt)
        else if k = 0 then base + (i.toInt : Felt)
        else base + (i.toInt : Felt) + x + (k.toInt : Felt))
    | _, _, _ => none
  | .none, label => match m.imm, m.base, m.index, m.scale with
    | .none, .none, .none, .none => r.value label
    | _, _, _, _ => none
  | _, _ => none

/-! ### The pass -/

/-- `slot.offset` of the slots: where they end, in bytes. -/
def slotOffsets : List Slot → ℕ → List ℕ
  | [], _ => []
  | slot::rest, offset =>
    let offset := (if offset % slot.align = 0 then offset else alignTo offset slot.align) + slot.size
    offset::slotOffsets rest offset

/-- In a function with calls the two cells below the frame pointer are skipped. -/
def skipSaved (call : Bool) (size : ℤ) : ℤ :=
  let size := if call then size - 2 else size
  if 0 < size then -size else size

variable (offsets : List ℕ) (call : Bool)

def rewriteMem (m : Mem) : Option Mem := match m.slot, m.imm with
  | .slot slot, .none => do
    let off ← offsets[slot]?
    let size := skipSaved call ((0 - (off : ℤ)).tdiv 4)
    pure { m with slot := .none, imm := .int32 (.ofInt 32 size), base := .reg R9 }
  | .slot slot, .int32 imm => do
    let off ← offsets[slot]?
    let size := skipSaved call ((-imm.toInt - (off : ℤ)).tdiv 4)
    pure { m with slot := .none, imm := .int32 (.ofInt 32 size), base := .reg R9 }
  | .slot slot, .int64 imm => do
    let off ← offsets[slot]?
    let size := skipSaved call ((imm.toInt - (off : ℤ)).tdiv 4)
    pure { m with slot := .none, imm := .int64 (.ofInt 64 size), base := .reg R9 }
  -- the offset of the slot is not used
  | .slot _, .reg r => pure { m with slot := .none, imm := .reg r, base := .reg R9 }
  | _, _ => none

/-- The memory operands of an instruction. -/
def rewriteOperands : List Operand → Option (List Operand)
  | [] => some []
  | op::rest => if op.data = .memStart then match rest with
      | label::slot::imm::base::index::scale::rest => do
        let m ← rewriteMem offsets call
          ⟨label.data,slot.data,imm.data,base.data,index.data,scale.data⟩
        let rest ← rewriteOperands rest
        pure (op::label::{ slot with data := m.slot }::{ imm with data := m.imm }::
          { base with data := m.base }::index::scale::rest)
      | _ => none
    else do
      let rest ← rewriteOperands rest
      pure (op::rest)

/-- The address of a slot, as the immediate that is added to the frame pointer. -/
def slotAddress (off : ℕ) : ℤ :=
  let size : ℤ := (off : ℤ) / 4
  let size := if call then -size - 2 else size
  if 0 < size then -size else size

def isSlot : OperandData → Bool
  | .slot _ => true
  | _ => false

/-- One instruction of the worklist; the others stay as they are. -/
def rewriteInst (inst : InstructionData) : Option InstructionData :=
  if inst.operands.any fun op => isSlot op.data then
    match inst.opcode, inst.operands.getLast? with
    | .ADDri, some op => match op.data with
      | .slot slot => do
        let off ← offsets[slot]?
        let imm := OperandData.int32 (.ofInt 32 (slotAddress call off))
        pure { inst with operands := inst.operands.dropLast ++ [{ op with data := imm }] }
      | _ => do
        let operands ← rewriteOperands offsets call inst.operands
        pure { inst with operands := operands }
    | _, _ => do
      let operands ← rewriteOperands offsets call inst.operands
      pure { inst with operands := operands }
  else some inst

/-- `run_on_function`. -/
def runOnFunction (f : Function) : Option Function := do
  let g := eliminateSlot f
  let blocks ← g.blocks.mapM fun b => do
    let insts ← b.insts.mapM (rewriteInst (slotOffsets g.slots 0) (hasCall f))
    pure { b with insts := insts }
  pure { g with blocks := blocks }

/-! ### The places of the slots -/

/-- Where an element of a slot that ends at `off` comes to lie, relative to the frame pointer. -/
def place (off : ℕ) (element : ℤ) : ℤ := element - (off / 4 : ℕ) - if call then 2 else 0

variable {offsets call}

theorem toInt_ofInt {w : ℕ} {x : ℤ} (hlo : -2^31 ≤ x) (hhi : x < 2^31) (hw : 32 ≤ w) :
    (BitVec.ofInt w x).toInt = x := by
  have hpow : (2 : ℤ)^31 ≤ 2^(w-1) := by
    exact pow_le_pow_right₀ (by norm_num) (by omega)
  exact BitVec.toInt_ofInt_eq_self (by omega) (by omega) (by omega)

/-- Numbers of less than 62 bits are told apart in the field. -/
theorem intCast_injective (fp : Felt) {x y : ℤ} (hx : -2^62 ≤ x ∧ x < 2^62)
    (hy : -2^62 ≤ y ∧ y < 2^62) (h : fp + (x : Felt) = fp + (y : Felt)) : x = y := by
  have hdvd := (ZMod.intCast_eq_intCast_iff_dvd_sub x y FIELD_ORDER).mp (add_left_cancel h)
  have habs : |y - x| < (FIELD_ORDER : ℤ) := by
    rw [abs_lt]
    constructor <;> norm_num <;> omega
  have hzero := Int.eq_zero_of_abs_lt_dvd hdvd habs
  omega

theorem tdiv_four_of_nonpos {x : ℤ} (h : x ≤ 0) : x.tdiv 4 = -((-x) / 4) := by
  have hneg : x.tdiv 4 = -((-x).tdiv 4) := by rw [Int.neg_tdiv,neg_neg]
  rw [hneg,Int.tdiv_eq_ediv_of_nonneg (by omega)]

/-- A displacement inside the slot, or below it, is divided towards the slot. -/
theorem skipSaved_tdiv {off : ℕ} {bytes : ℤ} (h : bytes ≤ off) :
    skipSaved call ((bytes - off).tdiv 4) = -((off - bytes) / 4) - if call then 2 else 0 := by
  have hneg : -(bytes - (off : ℤ)) = off - bytes := by ring
  rw [skipSaved,tdiv_four_of_nonpos (by omega),hneg]
  cases call <;> simp <;> omega

/-- The displacement of an element of the slot. -/
theorem skipSaved_element {off e : ℕ} (h : 4*e ≤ off) :
    skipSaved call ((4*(e : ℤ) - off).tdiv 4) = place call off e := by
  rw [skipSaved_tdiv (by omega),place]
  omega

theorem slotOffsets_length (slots : List Slot) (offset : ℕ) :
    (slotOffsets slots offset).length = slots.length := by
  induction slots generalizing offset with
  | nil => rfl
  | cons slot rest ih => simp [slotOffsets,ih]

theorem aligned_le (offset : ℕ) {align : ℕ} (h : 0 < align) :
    offset ≤ if offset % align = 0 then offset else alignTo offset align := by
  split
  · exact le_refl _
  · exact alignTo_le offset h

/-- A slot lies behind what was there before it. -/
theorem slotOffsets_ge {slots : List Slot} (h : ∀ slot ∈ slots, 0 < slot.align) {offset i off : ℕ}
    {slot : Slot} (hoff : (slotOffsets slots offset)[i]? = some off) (hslot : slots[i]? = some slot) :
    offset + slot.size ≤ off := by
  induction slots generalizing offset i with
  | nil => simp at hslot
  | cons first rest ih =>
    have hle := aligned_le offset (h first List.mem_cons_self)
    cases i with
    | zero =>
      simp only [slotOffsets,List.getElem?_cons_zero,Option.some.injEq] at hoff hslot
      subst hslot
      omega
    | succ i =>
      simp only [slotOffsets,List.getElem?_cons_succ] at hoff hslot
      have hrest := ih (fun s hs => h s (List.mem_cons_of_mem _ hs)) hoff hslot
      omega

/-- Two slots do not overlap. -/
theorem slotOffsets_lt {slots : List Slot} (h : ∀ slot ∈ slots, 0 < slot.align)
    {offset i j off off' : ℕ} {slot : Slot} (hij : i < j)
    (hoff : (slotOffsets slots offset)[i]? = some off)
    (hoff' : (slotOffsets slots offset)[j]? = some off') (hslot : slots[j]? = some slot) :
    off + slot.size ≤ off' := by
  induction slots generalizing offset i j with
  | nil => simp at hslot
  | cons first rest ih =>
    have hrest := fun s hs => h s (List.mem_cons_of_mem _ hs)
    cases j with
    | zero => omega
    | succ j =>
      simp only [slotOffsets,List.getElem?_cons_succ] at hoff' hslot
      cases i with
      | zero =>
        simp only [slotOffsets,List.getElem?_cons_zero,Option.some.injEq] at hoff
        subst hoff
        exact slotOffsets_ge hrest hoff' hslot
      | succ i =>
        simp only [slotOffsets,List.getElem?_cons_succ] at hoff
        exact ih hrest (by omega) hoff hoff' hslot

/-- The offset of a slot of the function, and the bytes of the slots behind it, are in the frame. -/
theorem slotOffsets_le_offsets {slots more : List Slot} (h : ∀ slot ∈ slots ++ more, 0 < slot.align)
    {offset align i off : ℕ} (halign : 0 < align)
    (hoff : (slotOffsets slots offset)[i]? = some off) :
    off + (more.map Slot.size).sum ≤ (FramePointer.offsets (slots ++ more) offset align).1 := by
  induction slots generalizing offset align i with
  | nil => simp [slotOffsets] at hoff
  | cons first rest ih =>
    have hfirst := h first (by simp)
    have hrest : ∀ slot ∈ rest ++ more, 0 < slot.align := fun slot hmem => h slot (by simp_all)
    rw [List.cons_append,FramePointer.offsets]
    cases i with
    | zero =>
      simp only [slotOffsets,List.getElem?_cons_zero,Option.some.injEq] at hoff
      have hle := (offsets_le (rest ++ more) hrest off (max align first.align) (by omega)).1
      rw [List.map_append,List.sum_append] at hle
      subst hoff
      exact (by omega : _ ≤ _).trans hle
    | succ i =>
      simp only [slotOffsets,List.getElem?_cons_succ] at hoff
      exact ih hrest (by omega) hoff

theorem slotOffsets_append {slots more : List Slot} {offset i : ℕ} (h : i < slots.length) :
    (slotOffsets (slots ++ more) offset)[i]? = (slotOffsets slots offset)[i]? := by
  induction slots generalizing offset i with
  | nil => simp at h
  | cons first rest ih =>
    cases i with
    | zero => rfl
    | succ i => exact ih (by simpa using h)

/-! ### Functions -/

/-- The slots of a function as they were added: every one has an alignment, and the size of the
frame is an `i32`. -/
structure Sized (f : Function) : Prop where
  aligned : ∀ slot ∈ f.slots, 0 < slot.align
  fits : ensureComputedOffsets (eliminateSlot f).slots + (1 + f.usedCsr.length) + 1 < 2^31

/-- The offsets that the pass works with. -/
def frameOffsets (f : Function) : List ℕ := slotOffsets (eliminateSlot f).slots 0

theorem frameOffsets_eq (f : Function) {slot : SlotId} (h : slot < f.slots.length) :
    (frameOffsets f)[slot]? = (slotOffsets f.slots 0)[slot]? := by
  rw [frameOffsets,eliminateSlot]
  split
  · exact slotOffsets_append h
  · rfl

theorem Sized.adj {f : Function} (h : Sized f) :
    FramePointer.adj (eliminateSlot f) = (ensureComputedOffsets (eliminateSlot f).slots / 4 : ℕ) :=
  adj_eq (by rw [eliminateSlot_usedCsr]; exact h.fits)

theorem offsets_le_ensureComputedOffsets {slots : List Slot} (h : ∀ slot ∈ slots, 0 < slot.align) :
    (FramePointer.offsets slots 0 1).1 ≤ ensureComputedOffsets slots :=
  aligned_le _ (offsets_le slots h 0 1 Nat.one_pos).2

/-- A slot and the two cells below it are in the frame. -/
theorem Sized.frame {f : Function} (h : Sized f) {slot : SlotId} {off : ℕ}
    (hoff : (slotOffsets f.slots 0)[slot]? = some off) :
    off + (if hasCall f then 8 else 0) ≤ ensureComputedOffsets (eliminateSlot f).slots := by
  rw [eliminateSlot]
  split
  · have hall : ∀ slot ∈ f.slots ++ [⟨4,4⟩,⟨4,4⟩], 0 < slot.align := by
      intro slot hmem
      rcases List.mem_append.mp hmem with hmem | hmem
      · exact h.aligned slot hmem
      · simp only [List.mem_cons,List.not_mem_nil,or_false] at hmem
        rcases hmem with rfl | rfl <;> exact Nat.succ_pos 3
    have hle := slotOffsets_le_offsets hall Nat.one_pos hoff
    exact (show off + 8 ≤ _ from hle).trans (offsets_le_ensureComputedOffsets hall)
  · have hall : ∀ slot ∈ f.slots ++ [], 0 < slot.align := by simpa using h.aligned
    have hle := slotOffsets_le_offsets hall Nat.one_pos hoff
    rw [List.append_nil] at hle hall
    exact (show off + 0 ≤ _ from hle).trans (offsets_le_ensureComputedOffsets hall)

/-! ### Instructions -/

theorem rewriteOperands_cons {op : Operand} (h : op.data ≠ .memStart) (rest : List Operand) :
    rewriteOperands offsets call (op::rest) =
      (do let rest ← rewriteOperands offsets call rest
          pure (op::rest)) := by
  rw [rewriteOperands.eq_def]
  exact if_neg h

theorem rewriteOperands_plain {ops : List Operand} (h : ∀ op ∈ ops, op.data ≠ .memStart) :
    rewriteOperands offsets call ops = some ops := by
  induction ops with
  | nil => rfl
  | cons op rest ih =>
    rw [List.forall_mem_cons] at h
    rw [rewriteOperands_cons h.1,ih h.2]
    rfl

theorem rewriteOperands_mem (pre post : List Operand) {m m' : Mem}
    (hpre : ∀ op ∈ pre, op.data ≠ .memStart) (hpost : ∀ op ∈ post, op.data ≠ .memStart)
    (hm : rewriteMem offsets call m = some m') (hlabel : m'.label = m.label)
    (hindex : m'.index = m.index) (hscale : m'.scale = m.scale) :
    rewriteOperands offsets call (pre ++ (m.operands ++ post)) =
      some (pre ++ (m'.operands ++ post)) := by
  induction pre with
  | nil =>
    have hgroup : (⟨m.label,m.slot,m.imm,m.base,m.index,m.scale⟩ : Mem) = m := rfl
    simp [Mem.operands,rewriteOperands,Operand.plain,Operand.asInput,hgroup,hm,
      rewriteOperands_plain hpost,hlabel,hindex,hscale]
  | cons op rest ih =>
    rw [List.forall_mem_cons] at hpre
    rw [List.cons_append,rewriteOperands_cons hpre.1,ih hpre.2]
    rfl

end SlotElimination
end Codegen
end OlaLang
