import OlaLang.SlotElimination

/-! Array values in memory: the store of all cells of a value to an alloca, and the load of them. -/
namespace OlaLang
namespace Codegen
namespace AggregateMemory

open FramePointer SlotElimination

/-! ### Lowering -/

/-- An element of a constant array. -/
inductive Constant
  | int32 (i : BitVec 32) | int64 (i : BitVec 64) | undef

def Constant.operand : Constant → OperandData
  | .int32 i => .int32 i
  | .int64 i => .int64 i
  | .undef => .int32 0

/-- An array value: a constant, `zeroinitializer` or `undef`, or the registers of an argument or an
instruction. -/
inductive Aggregate
  | array (elems : List Constant)
  | zero
  | registers (vregs : List VReg)

/-- The number of cells of a type. -/
def cells (ty : IrType) : ℕ := ty.getSizeOf / 4

/-- `get_operands_for_const`. -/
def operandsForConst (ty : IrType) : Aggregate → List OperandData
  | .array elems => elems.map Constant.operand
  | .zero => List.replicate (cells ty) (.int32 0)
  | .registers _ => []

def storeComponent (slot : SlotId) (idx : ℕ) (src : VReg) : InstructionData :=
  ⟨.MSTOREr,(Mem.ofSlot slot (.int64 (.ofInt 64 (4*idx)))).operands ++ [.asInput (.vreg src)]⟩

/-- An index past the registers is a panic. -/
def storeComponents (slot : SlotId) (sz : ℕ) (vregs : List VReg) : Option (List InstructionData) :=
  if sz ≤ vregs.length then
    some ((List.range sz).map fun idx => storeComponent slot idx (vregs.getD (sz - idx - 1) 0))
  else none

def moveConstant (ops : List OperandData) (fresh idx : ℕ) : InstructionData :=
  ⟨.MOVri,[.asOutput (.vreg (fresh + idx)),.plain (ops.getD idx .none)]⟩

/-- `lower_store` to an alloca; a constant of less than two cells is refused. -/
def lowerStore (slot : SlotId) (ty : IrType) (fresh : VReg) : Aggregate → Option (List InstructionData)
  | .registers vregs => storeComponents slot (cells ty) vregs
  | konst =>
    let ops := operandsForConst ty konst
    if 1 < cells ty ∧ cells ty ≤ ops.length then do
      let stores ← storeComponents slot (cells ty) (List.range' fresh (cells ty))
      pure ((List.range (cells ty)).map (moveConstant ops fresh) ++ stores)
    else none

def loadComponent (slot : SlotId) (sz : ℕ) (output : VReg) (idx : ℕ) : InstructionData :=
  let imm : OperandData := if sz = 1 then .none else .int64 (.ofInt 64 (-4*idx+12))
  ⟨.MLOADr,.asOutput (.vreg (output + idx))::(Mem.ofSlot slot imm).operands⟩

/-- `lower_load` from an alloca. -/
def lowerLoad (slot : SlotId) (ty : IrType) (output : VReg) : List InstructionData :=
  (List.range (cells ty)).map (loadComponent slot (cells ty) output)

/-- The store of a value and a load of the same alloca, with their slots eliminated. The registers
from `fresh` on are new. -/
def storeAndLoad (f : Function) (slot : SlotId) (ty : IrType) (fresh : VReg) (v : Aggregate) :
    Option (List InstructionData) := do
  let store ← lowerStore slot ty fresh v
  (store ++ lowerLoad slot ty (fresh + cells ty)).mapM (rewriteInst (frameOffsets f) (hasCall f))

/-! ### Runs -/

structure State where
  regs : Regs
  mem : Felt → Felt

def State.set (s : State) (v : VReg) (x : Felt) : State :=
  { s with regs := { s.regs with vreg := Function.update s.regs.vreg v x } }

def State.store (s : State) (a x : Felt) : State := { s with mem := Function.update s.mem a x }

def exec (s : State) (inst : InstructionData) : Option State := match inst.opcode, inst.operands with
  | .MOVri, [d,c] => do
    let v ← d.data.asVReg?
    let x ← c.data.immediate?
    pure (s.set v x)
  | .MSTOREr, [_,label,slot,imm,base,index,scale,src] => do
    let a ← Mem.address s.regs ⟨label.data,slot.data,imm.data,base.data,index.data,scale.data⟩
    let x ← s.regs.value src.data
    pure (s.store a x)
  | .MLOADr, [d,_,label,slot,imm,base,index,scale] => do
    let v ← d.data.asVReg?
    let a ← Mem.address s.regs ⟨label.data,slot.data,imm.data,base.data,index.data,scale.data⟩
    pure (s.set v (s.mem a))
  | _, _ => none

def run (code : List InstructionData) (s : State) : Option State := code.foldlM exec s

/-- The words of a value. -/
def Aggregate.words (ty : IrType) (s : State) : Aggregate → List Felt
  | .array elems => elems.map fun c => c.operand.immediate?.getD 0
  | .zero => List.replicate (cells ty) 0
  | .registers vregs => vregs.map s.regs.vreg

/-- The cell of an element of the alloca. -/
def cell (f : Function) (off : ℕ) (s : State) (e : ℕ) : Felt :=
  s.regs.reg R9 + (place (hasCall f) off e : Felt)

/-- The registers of the value are older than the ones of the code. -/
def Older (fresh : VReg) : Aggregate → Prop
  | .registers vregs => ∀ v ∈ vregs, v < fresh
  | _ => True

/-- The load gives the words of the value, and only the cells of the alloca change. -/
def RoundTrip (f : Function) (slot : SlotId) (off : ℕ) (ty : IrType) (v : Aggregate) : Prop :=
  ∀ fresh, Older fresh v → ∀ s, ∃ code t, storeAndLoad f slot ty fresh v = some code ∧
    run code s = some t ∧
    (List.range (cells ty)).map (fun k => t.regs.vreg (fresh + cells ty + k)) = v.words ty s ∧
    ∀ a, (∀ e < cells ty, a ≠ cell f off s e) → t.mem a = s.mem a

/-- The value comes back: one of four cells, or one of at most one cell that is in registers. -/
def Returns (ty : IrType) : Aggregate → Prop
  | .array elems => elems.length = 4 ∧ cells ty = 4
  | .zero => cells ty = 4
  | .registers vregs => vregs.length = cells ty ∧ (cells ty ≤ 1 ∨ cells ty = 4)

/-! ### The code of the pass -/

/-- What became of a component store. -/
def storedAt (size : ℤ) (src : VReg) : InstructionData :=
  ⟨.MSTOREr,(⟨.none,.none,.int64 (.ofInt 64 size),.reg R9,.none,.none⟩ : Mem).operands ++
    [.asInput (.vreg src)]⟩

/-- What became of a component load. -/
def loadedAt (imm : OperandData) (output : VReg) : InstructionData :=
  ⟨.MLOADr,.asOutput (.vreg output)::(⟨.none,.none,imm,.reg R9,.none,.none⟩ : Mem).operands⟩

variable {offsets : List ℕ} {call : Bool} {slot : SlotId} {off : ℕ}

theorem rewriteInst_store {m m' : Mem} {src : OperandData} (hsrc : src ≠ .memStart)
    (hslot : m.slot = .slot slot) (hm : rewriteMem offsets call m = some m')
    (hsame : m'.label = m.label ∧ m'.index = m.index ∧ m'.scale = m.scale) :
    rewriteInst offsets call ⟨.MSTOREr,m.operands ++ [.asInput src]⟩ =
      some ⟨.MSTOREr,m'.operands ++ [.asInput src]⟩ := by
  have hany : (m.operands ++ [Operand.asInput src]).any (fun op => isSlot op.data) = true := by
    simp [Mem.operands,Operand.plain,hslot,isSlot]
  have hops := rewriteOperands_mem [] [.asInput src] (by simp)
    (by simpa [Operand.asInput] using hsrc) hm hsame.1 hsame.2.1 hsame.2.2
  rw [rewriteInst,if_pos hany]
  simp only [List.nil_append] at hops
  simp [hops]

theorem rewriteInst_load {m m' : Mem} {output : VReg} (hslot : m.slot = .slot slot)
    (hm : rewriteMem offsets call m = some m')
    (hsame : m'.label = m.label ∧ m'.index = m.index ∧ m'.scale = m.scale) :
    rewriteInst offsets call ⟨.MLOADr,.asOutput (.vreg output)::m.operands⟩ =
      some ⟨.MLOADr,.asOutput (.vreg output)::m'.operands⟩ := by
  have hany : (Operand.asOutput (.vreg output)::m.operands).any (fun op => isSlot op.data) = true := by
    simp [Mem.operands,Operand.plain,hslot,isSlot]
  have hops := rewriteOperands_mem [.asOutput (.vreg output)] []
    (by simp [Operand.asOutput]) (by simp) hm hsame.1 hsame.2.1 hsame.2.2
  rw [rewriteInst,if_pos hany]
  simp only [List.append_nil,List.cons_append,List.nil_append] at hops
  simp [hops]

theorem rewriteInst_storeComponent (call : Bool) (hoff : offsets[slot]? = some off) {idx : ℕ} (h : 4*idx ≤ off)
    (hfits : off < 2^31) (src : VReg) :
    rewriteInst offsets call (storeComponent slot idx src) =
      some (storedAt (place call off idx) src) := by
  have himm : (BitVec.ofInt 64 (4*(idx : ℤ))).toInt = 4*(idx : ℤ) :=
    toInt_ofInt (by omega) (by omega) (by omega)
  have hm : rewriteMem offsets call (Mem.ofSlot slot (.int64 (.ofInt 64 (4*idx)))) =
      some ⟨.none,.none,.int64 (.ofInt 64 (place call off idx)),.reg R9,.none,.none⟩ := by
    simp only [rewriteMem,Mem.ofSlot,hoff,Option.bind_eq_bind,Option.bind_some,himm,
      skipSaved_element h]
    rfl
  exact rewriteInst_store (by simp) rfl hm ⟨rfl,rfl,rfl⟩

/-- Where the load looks for a component, relative to the frame pointer. -/
def loadPlace (call : Bool) (off sz idx : ℕ) : ℤ :=
  skipSaved call (((if sz = 1 then 0 else -4*(idx : ℤ)+12) - (off : ℤ)).tdiv 4)

/-- As an operand of the load. -/
def loadImm (call : Bool) (off sz idx : ℕ) : OperandData :=
  if sz = 1 then .int32 (.ofInt 32 (loadPlace call off sz idx))
  else .int64 (.ofInt 64 (loadPlace call off sz idx))

theorem rewriteInst_loadComponent (call : Bool) (hoff : offsets[slot]? = some off) {sz idx : ℕ} (output : VReg)
    (h : 4*idx < 2^31) :
    rewriteInst offsets call (loadComponent slot sz output idx) =
      some (loadedAt (loadImm call off sz idx) (output + idx)) := by
  have himm : (BitVec.ofInt 64 (-4*(idx : ℤ)+12)).toInt = -4*(idx : ℤ)+12 :=
    BitVec.toInt_ofInt_eq_self (by omega) (by omega) (by omega)
  by_cases hone : sz = 1
  · have hm : rewriteMem offsets call (Mem.ofSlot slot .none) =
        some ⟨.none,.none,loadImm call off sz idx,.reg R9,.none,.none⟩ := by
      simp only [rewriteMem,Mem.ofSlot,hoff,Option.bind_eq_bind,Option.bind_some,loadImm,loadPlace,
        if_pos hone]
      rfl
    rw [loadComponent,if_pos hone]
    exact rewriteInst_load rfl hm ⟨rfl,rfl,rfl⟩
  · have hm : rewriteMem offsets call (Mem.ofSlot slot (.int64 (.ofInt 64 (-4*idx+12)))) =
        some ⟨.none,.none,loadImm call off sz idx,.reg R9,.none,.none⟩ := by
      simp only [rewriteMem,Mem.ofSlot,hoff,Option.bind_eq_bind,Option.bind_some,loadImm,loadPlace,
        if_neg hone,himm]
      rfl
    rw [loadComponent,if_neg hone]
    exact rewriteInst_load rfl hm ⟨rfl,rfl,rfl⟩

theorem mapM_map_some {α β γ : Type} {g : β → Option γ} {h : α → β} {k : α → γ} {l : List α}
    (hl : ∀ x ∈ l, g (h x) = some (k x)) : (l.map h).mapM g = some (l.map k) := by
  induction l with
  | nil => rfl
  | cons x rest ih =>
    rw [List.forall_mem_cons] at hl
    simp [List.mapM_cons,hl.1,ih hl.2]

/-! ### What the code does -/

theorem exec_storedAt (s : State) {size : ℤ} (hlo : -2^31 ≤ size) (hhi : size < 2^31) (src : VReg) :
    exec s (storedAt size src) = some (s.store (s.regs.reg R9 + (size : Felt)) (s.regs.vreg src)) := by
  have himm : (BitVec.ofInt 64 size).toInt = size := toInt_ofInt hlo hhi (by omega)
  simp [exec,storedAt,Mem.operands,Operand.plain,Operand.asInput,Mem.address,Regs.value,himm]

theorem exec_loadedAt (s : State) {sz idx : ℕ} (hlo : -2^31 ≤ loadPlace call off sz idx)
    (hhi : loadPlace call off sz idx < 2^31) (output : VReg) :
    exec s (loadedAt (loadImm call off sz idx) output) =
      some (s.set output (s.mem (s.regs.reg R9 + (loadPlace call off sz idx : Felt)))) := by
  have h32 : (BitVec.ofInt 32 (loadPlace call off sz idx)).toInt = loadPlace call off sz idx :=
    toInt_ofInt hlo hhi (by omega)
  have h64 : (BitVec.ofInt 64 (loadPlace call off sz idx)).toInt = loadPlace call off sz idx :=
    toInt_ofInt hlo hhi (by omega)
  by_cases hone : sz = 1
  · subst hone
    simp [exec,loadedAt,loadImm,Mem.operands,Operand.plain,Operand.asInput,Operand.asOutput,
      Mem.address,Regs.value,OperandData.asVReg?,h32]
  · simp [exec,loadedAt,loadImm,hone,Mem.operands,Operand.plain,Operand.asInput,Operand.asOutput,
      Mem.address,Regs.value,OperandData.asVReg?,h64]

theorem run_append (code more : List InstructionData) (s : State) :
    run (code ++ more) s = (run code s).bind (run more) := by
  simp only [run,List.foldlM_append]
  rfl

theorem place_bounds {off e : ℕ} (hfits : off < 2^31) (h : 4*e ≤ off) :
    -2^31 ≤ place call off e ∧ place call off e < 2^31 := by
  unfold place
  cases call <;> simp <;> omega

/-- The stores of the first `n` cells. -/
theorem stores_run (call : Bool) (s : State) (hfits : off < 2^31) (src : ℕ → VReg) (n : ℕ) (h : 4*n ≤ off) :
    ∃ t, run ((List.range n).map fun idx : ℕ => storedAt (place call off idx) (src idx)) s = some t ∧
      t.regs = s.regs ∧
      (∀ e < n, t.mem (s.regs.reg R9 + (place call off e : Felt)) = s.regs.vreg (src e)) ∧
      ∀ a, (∀ e < n, a ≠ s.regs.reg R9 + (place call off e : Felt)) → t.mem a = s.mem a := by
  induction n with
  | zero => exact ⟨s,rfl,rfl,by simp,by simp⟩
  | succ n ih =>
    rcases ih (by omega) with ⟨t,hrun,hregs,hmem,hsame⟩
    have hbounds : -2^31 ≤ place call off n ∧ place call off n < 2^31 :=
      place_bounds hfits (by omega)
    have hexec := exec_storedAt t hbounds.1 hbounds.2 (src n)
    rw [hregs] at hexec
    refine ⟨t.store (s.regs.reg R9 + (place call off n : Felt)) (s.regs.vreg (src n)),?_,hregs,?_,?_⟩
    · rw [List.range_succ,List.map_append,run_append,hrun]
      simp [run,hexec]
    · intro e he
      by_cases heq : e = n
      · subst heq
        exact Function.update_self _ _ _
      · have hne : s.regs.reg R9 + (place call off e : Felt) ≠
            s.regs.reg R9 + (place call off n : Felt) := by
          intro hcells
          have hbounds' : -2^31 ≤ place call off e ∧ place call off e < 2^31 :=
            place_bounds hfits (by omega)
          have := intCast_injective _ (by omega) (by omega) hcells
          unfold place at this
          omega
        exact (Function.update_of_ne hne _ _).trans (hmem e (by omega))
    · intro a ha
      rw [← hsame a fun e he => ha e (by omega)]
      exact Function.update_of_ne (ha n (by omega)) _ _

/-- The loads of the first `n` cells. -/
theorem loads_run (s : State) {sz : ℕ} (output n : ℕ)
    (h : ∀ idx < n, -2^31 ≤ loadPlace call off sz idx ∧ loadPlace call off sz idx < 2^31) :
    ∃ t, run ((List.range n).map fun idx =>
        loadedAt (loadImm call off sz idx) (output + idx)) s = some t ∧
      t.mem = s.mem ∧ t.regs.reg = s.regs.reg ∧
      ∀ idx < n, t.regs.vreg (output + idx) =
        s.mem (s.regs.reg R9 + (loadPlace call off sz idx : Felt)) := by
  induction n with
  | zero => exact ⟨s,rfl,rfl,rfl,by simp⟩
  | succ n ih =>
    rcases ih (fun idx hidx => h idx (by omega)) with ⟨t,hrun,hmem,hreg,hvreg⟩
    have hbounds := h n (by omega)
    have hexec := exec_loadedAt t hbounds.1 hbounds.2 (output + n)
    rw [hmem,hreg] at hexec
    refine ⟨t.set (output + n) (s.mem (s.regs.reg R9 + (loadPlace call off sz n : Felt))),?_,hmem,
      hreg,?_⟩
    · rw [List.range_succ,List.map_append,run_append,hrun]
      simp [run,hexec]
    · intro idx hidx
      by_cases heq : idx = n
      · subst heq
        exact Function.update_self _ _ _
      · exact (Function.update_of_ne (fun hsum => heq (Nat.add_left_cancel hsum)) _ _).trans
          (hvreg idx (by omega))

/-- The constants come into the new registers. -/
theorem moves_run (s : State) {ops : List OperandData} (fresh n : ℕ)
    (h : ∀ idx < n, ∃ x, (ops.getD idx .none).immediate? = some x) :
    ∃ t, run ((List.range n).map (moveConstant ops fresh)) s = some t ∧ t.mem = s.mem ∧
      t.regs.reg = s.regs.reg ∧ (∀ idx < n, some (t.regs.vreg (fresh + idx)) =
        (ops.getD idx .none).immediate?) := by
  induction n with
  | zero => exact ⟨s,rfl,rfl,rfl,by simp⟩
  | succ n ih =>
    rcases ih (fun idx hidx => h idx (by omega)) with ⟨t,hrun,hmem,hreg,hvreg⟩
    rcases h n (by omega) with ⟨x,hx⟩
    have hexec : exec t (moveConstant ops fresh n) = some (t.set (fresh + n) x) := by
      simp only [exec,moveConstant,Operand.asOutput,Operand.plain,OperandData.asVReg?,hx]
      rfl
    refine ⟨t.set (fresh + n) x,?_,hmem,hreg,?_⟩
    · rw [List.range_succ,List.map_append,run_append,hrun]
      simp [run,hexec]
    · intro idx hidx
      by_cases heq : idx = n
      · subst heq
        rw [hx]
        exact congrArg some (Function.update_self _ _ _)
      · rw [← hvreg idx (by omega)]
        exact congrArg some
          (Function.update_of_ne (fun hsum => heq (Nat.add_left_cancel hsum)) _ _)

/-! ### The round trip -/

theorem operand_immediate (c : Constant) : ∃ x, c.operand.immediate? = some x := by
  cases c <;> exact ⟨_,rfl⟩

theorem operandsForConst_immediate {ty : IrType} {v : Aggregate} {idx : ℕ}
    (h : idx < (operandsForConst ty v).length) :
    ((operandsForConst ty v).getD idx .none).immediate? = some ((v.words ty s).getD idx 0) := by
  cases v with
  | registers vregs => exact absurd h (Nat.not_lt_zero idx)
  | zero =>
    have hlt : idx < cells ty := by simpa [operandsForConst] using h
    simp [operandsForConst,Aggregate.words,hlt,OperandData.immediate?]
  | array elems =>
    have hlt : idx < elems.length := by simpa [operandsForConst] using h
    rcases operand_immediate elems[idx] with ⟨x,hx⟩
    simp [operandsForConst,Aggregate.words,hlt,hx]

theorem rewriteInst_move {ops : List OperandData} {fresh idx : ℕ} {x : Felt}
    (h : (ops.getD idx .none).immediate? = some x) :
    rewriteInst offsets call (moveConstant ops fresh idx) = some (moveConstant ops fresh idx) := by
  have hslot : isSlot (ops.getD idx .none) = false := by
    cases hop : ops.getD idx .none <;> simp_all [OperandData.immediate?,isSlot]
  rw [rewriteInst,if_neg]
  simpa [moveConstant,Operand.asOutput,Operand.plain,isSlot] using hslot

/-- The alloca: a slot of the size of the type that ends at `off`. -/
structure Alloca (f : Function) (slot : SlotId) (off : ℕ) (ty : IrType) : Prop where
  offset : (frameOffsets f)[slot]? = some off
  room : ty.getSizeOf ≤ off
  fits : off < 2^31

theorem Alloca.cells_le {f : Function} {ty : IrType} (h : Alloca f slot off ty) :
    4*cells ty ≤ off := by
  have := h.room
  unfold cells
  omega

/-- The stores of the cells of a value whose words are in registers. -/
theorem storeComponents_run {f : Function} {ty : IrType} (h : Alloca f slot off ty)
    {vregs : List VReg} {store : List InstructionData}
    (hstore : storeComponents slot (cells ty) vregs = some store) (s : State) :
    ∃ code t, store.mapM (rewriteInst (frameOffsets f) (hasCall f)) = some code ∧
      run code s = some t ∧ t.regs = s.regs ∧
      (∀ e < cells ty, t.mem (cell f off s e) = s.regs.vreg (vregs.getD (cells ty - e - 1) 0)) ∧
      ∀ a, (∀ e < cells ty, a ≠ cell f off s e) → t.mem a = s.mem a := by
  have hle := h.cells_le
  rw [storeComponents] at hstore
  split at hstore
  · cases hstore
    rcases stores_run (hasCall f) s h.fits (fun e => vregs.getD (cells ty - e - 1) 0)
      (cells ty) hle with ⟨t,hrun,hregs,hmem,hsame⟩
    have hcode := mapM_map_some (l := List.range (cells ty)) fun idx hidx =>
      rewriteInst_storeComponent (hasCall f) h.offset
        (by have := List.mem_range.mp hidx; omega : 4*idx ≤ off) h.fits
        (vregs.getD (cells ty - idx - 1) 0)
    exact ⟨_,t,hcode,hrun,hregs,hmem,hsame⟩
  · cases hstore

theorem lowerStore_const (slot : SlotId) (ty : IrType) (fresh : VReg) {v : Aggregate}
    (h : ∀ vregs, v ≠ .registers vregs) : lowerStore slot ty fresh v =
      if 1 < cells ty ∧ cells ty ≤ (operandsForConst ty v).length then do
        let stores ← storeComponents slot (cells ty) (List.range' fresh (cells ty))
        pure ((List.range (cells ty)).map (moveConstant (operandsForConst ty v) fresh) ++ stores)
      else none := by
  cases v with
  | registers vregs => exact absurd rfl (h vregs)
  | array elems => rfl
  | zero => rfl

/-- What the store of a value leaves behind: its words in the cells of the alloca, the last one
first. -/
def Stores (f : Function) (off : ℕ) (ty : IrType) (v : Aggregate) (s t : State) : Prop :=
  t.regs.reg = s.regs.reg ∧
    (∀ e < cells ty, t.mem (cell f off s e) = (v.words ty s).getD (cells ty - e - 1) 0) ∧
    ∀ a, (∀ e < cells ty, a ≠ cell f off s e) → t.mem a = s.mem a

theorem lowerStore_registers {f : Function} {ty : IrType} (h : Alloca f slot off ty)
    {vregs : List VReg} {fresh : VReg} {store : List InstructionData}
    (hstore : lowerStore slot ty fresh (.registers vregs) = some store) (s : State) :
    ∃ code t, store.mapM (rewriteInst (frameOffsets f) (hasCall f)) = some code ∧
      run code s = some t ∧ Stores f off ty (.registers vregs) s t := by
  rcases storeComponents_run h hstore s with ⟨code,t,hcode,hrun,hregs,hmem,hsame⟩
  refine ⟨code,t,hcode,hrun,congrArg Regs.reg hregs,?_,hsame⟩
  intro e he
  have hlen : cells ty ≤ vregs.length := by
    by_contra hlt
    rw [lowerStore,storeComponents,if_neg hlt] at hstore
    cases hstore
  rw [hmem e he]
  simp [Aggregate.words,List.getD_eq_getElem?_getD,List.getElem?_eq_getElem
    (show cells ty - e - 1 < vregs.length by omega)]

theorem lowerStore_constant {f : Function} {ty : IrType} (h : Alloca f slot off ty) {v : Aggregate}
    (hconst : ∀ vregs, v ≠ .registers vregs) {fresh : ℕ} {store : List InstructionData}
    (hstore : lowerStore slot ty fresh v = some store) (s : State) :
    ∃ code t, store.mapM (rewriteInst (frameOffsets f) (hasCall f)) = some code ∧
      run code s = some t ∧ Stores f off ty v s t := by
  rw [lowerStore_const slot ty fresh hconst] at hstore
  split at hstore
  · rename_i hlen
    have himm : ∀ idx < cells ty, ((operandsForConst ty v).getD idx .none).immediate? =
        some ((v.words ty s).getD idx 0) := fun idx hidx =>
      operandsForConst_immediate (by omega)
    rcases moves_run s fresh (cells ty) (fun idx hidx => ⟨_,himm idx hidx⟩) with
      ⟨m,hmoves,hmem,hreg,hvreg⟩
    rcases Option.bind_eq_some_iff.mp hstore with ⟨stores,hstores,heq⟩
    cases heq
    rcases storeComponents_run h hstores m with ⟨code,t,hcode,hrun,hregs,hcells,hsame⟩
    have hcell : ∀ e : ℕ, cell f off s e = cell f off m e := fun e => by rw [cell,cell,hreg]
    have hmovesCode : ((List.range (cells ty)).map
        (moveConstant (operandsForConst ty v) fresh)).mapM (rewriteInst (frameOffsets f) (hasCall f)) =
          some ((List.range (cells ty)).map (moveConstant (operandsForConst ty v) fresh)) :=
      mapM_map_some fun idx hidx => rewriteInst_move (himm idx (List.mem_range.mp hidx))
    refine ⟨(List.range (cells ty)).map (moveConstant (operandsForConst ty v) fresh) ++ code,t,?_,?_,
      by rw [hregs,hreg],?_,?_⟩
    · rw [List.mapM_append,hmovesCode,hcode]
      rfl
    · rw [run_append,hmoves]
      exact hrun
    · intro e he
      have hsource : (List.range' fresh (cells ty)).getD (cells ty - e - 1) 0 =
          fresh + (cells ty - e - 1) := by
        simp [List.getD_eq_getElem?_getD,show cells ty - e - 1 < cells ty by omega]
      rw [hcell,hcells e he,hsource]
      exact Option.some.inj ((hvreg _ (by omega)).trans (himm _ (by omega)))
    · intro a ha
      rw [← hmem]
      exact hsame a fun e he => hcell e ▸ ha e he
  · cases hstore

/-- The cells of the alloca get the words of the value. -/
theorem lowerStore_run {f : Function} {ty : IrType} (h : Alloca f slot off ty) {v : Aggregate}
    {fresh : VReg} {store : List InstructionData} (hstore : lowerStore slot ty fresh v = some store)
    (s : State) :
    ∃ code t, store.mapM (rewriteInst (frameOffsets f) (hasCall f)) = some code ∧
      run code s = some t ∧ Stores f off ty v s t := by
  cases v with
  | registers vregs => exact lowerStore_registers h hstore s
  | array elems => exact lowerStore_constant h (by simp) hstore s
  | zero => exact lowerStore_constant h (by simp) hstore s

theorem loadPlace_bounds (call : Bool) {sz idx : ℕ} (hfits : off < 2^31) (hidx : idx < sz) (h : 4*sz ≤ off) :
    -2^31 ≤ loadPlace call off sz idx ∧ loadPlace call off sz idx < 2^31 := by
  have hbytes : ∃ bytes : ℤ, (if sz = 1 then 0 else -4*(idx : ℤ)+12) = bytes ∧
      -4*(idx : ℤ) ≤ bytes ∧ bytes ≤ 12 := by
    split <;> exact ⟨_,rfl,by omega,by omega⟩
  rcases hbytes with ⟨bytes,heq,hlo,hhi⟩
  rw [loadPlace,heq]
  by_cases hle : bytes ≤ off
  · rw [skipSaved_tdiv hle]
    cases call <;> simp <;> omega
  · rw [skipSaved,Int.tdiv_eq_ediv_of_nonneg (by omega)]
    cases call <;> simp <;> omega

/-- The load looks for component `idx` where element `3 - idx` lies. -/
theorem loadPlace_eq {sz idx : ℕ} (hone : sz ≠ 1) (h : 12 ≤ off + 4*idx) :
    loadPlace call off sz idx = place call off (3 - (idx : ℤ)) := by
  rw [loadPlace,if_neg hone,skipSaved_tdiv (by omega),place]
  omega

theorem loadPlace_one {idx : ℕ} : loadPlace call off 1 idx = place call off 0 := by
  rw [loadPlace,if_pos rfl,skipSaved_tdiv (by omega),place]
  omega

theorem lowerLoad_run {f : Function} {ty : IrType} (h : Alloca f slot off ty) (output : ℕ)
    (s : State) :
    ∃ code t, (lowerLoad slot ty output).mapM (rewriteInst (frameOffsets f) (hasCall f)) = some code ∧
      run code s = some t ∧ t.mem = s.mem ∧ ∀ idx < cells ty, t.regs.vreg (output + idx) =
        s.mem (s.regs.reg R9 + (loadPlace (hasCall f) off (cells ty) idx : Felt)) := by
  have hle := h.cells_le
  have hfits := h.fits
  rcases loads_run s output (cells ty) (fun idx hidx => loadPlace_bounds (hasCall f) hfits hidx hle) with ⟨t,hrun,hmem,_,hvreg⟩
  have hcode : (lowerLoad slot ty output).mapM (rewriteInst (frameOffsets f) (hasCall f)) =
      some ((List.range (cells ty)).map fun idx =>
        loadedAt (loadImm (hasCall f) off (cells ty) idx) (output + idx)) := by
    refine mapM_map_some fun idx hidx => rewriteInst_loadComponent (hasCall f) h.offset output ?_
    have := List.mem_range.mp hidx
    omega
  exact ⟨_,t,hcode,hrun,hmem,hvreg⟩

/-- The store and the load: what the registers of the load hold at the end. -/
theorem storeAndLoad_run {f : Function} {ty : IrType} (h : Alloca f slot off ty) {v : Aggregate}
    {fresh : ℕ} {store : List InstructionData} (hstore : lowerStore slot ty fresh v = some store)
    (s : State) :
    ∃ code t, storeAndLoad f slot ty fresh v = some code ∧ run code s = some t ∧
      (∃ m, Stores f off ty v s m ∧ t.mem = m.mem) ∧
      ∀ idx < cells ty, t.regs.vreg (fresh + cells ty + idx) =
        t.mem (s.regs.reg R9 + (loadPlace (hasCall f) off (cells ty) idx : Felt)) := by
  rcases lowerStore_run h hstore s with ⟨code,m,hcode,hrun,hstores⟩
  rcases lowerLoad_run h (fresh + cells ty) m with ⟨code',t,hcode',hrun',hmem,hvreg⟩
  refine ⟨code ++ code',t,?_,?_,⟨m,hstores,hmem⟩,?_⟩
  · simp only [storeAndLoad,hstore,Option.bind_eq_bind,Option.bind_some,List.mapM_append,hcode,hcode']
    rfl
  · rw [run_append,hrun]
    exact hrun'
  · intro idx hidx
    rw [hvreg idx hidx,hmem,hstores.1]

theorem words_length (ty : IrType) (s : State) (v : Aggregate) : (v.words ty s).length = match v with
    | .array elems => elems.length
    | .zero => cells ty
    | .registers vregs => vregs.length := by
  cases v <;> simp [Aggregate.words]

theorem lowerStore_some {slot : SlotId} {ty : IrType} {fresh : VReg} {v : Aggregate}
    (hconst : ∀ vregs, v ≠ .registers vregs) (hlt : 1 < cells ty)
    (hle : cells ty ≤ (operandsForConst ty v).length) :
    ∃ store, lowerStore slot ty fresh v = some store := by
  have hstores : ∃ stores,
      storeComponents slot (cells ty) (List.range' fresh (cells ty)) = some stores :=
    ⟨_,if_pos (by simp)⟩
  rcases hstores with ⟨stores,hstores⟩
  exact ⟨_,by rw [lowerStore_const slot ty fresh hconst,if_pos ⟨hlt,hle⟩,hstores]; rfl⟩

/-- A value that comes back is stored. -/
theorem Returns.stored {ty : IrType} {v : Aggregate} (h : Returns ty v) (slot : SlotId)
    (fresh : VReg) : ∃ store, lowerStore slot ty fresh v = some store := by
  cases v with
  | registers vregs => exact ⟨_,by rw [lowerStore,storeComponents,if_pos h.1.ge]⟩
  | array elems =>
    have hcells : cells ty = 4 := h.2
    exact lowerStore_some (v := .array elems) (by simp) (by omega)
      (by simp [operandsForConst,h.1,hcells])
  | zero =>
    have hcells : cells ty = 4 := h
    exact lowerStore_some (v := .zero) (by simp) (by omega) (by simp [operandsForConst])

theorem Returns.length {ty : IrType} {v : Aggregate} (h : Returns ty v) (s : State) :
    (v.words ty s).length = cells ty ∧ (cells ty ≤ 1 ∨ cells ty = 4) := by
  rw [words_length]
  cases v with
  | registers vregs => exact h
  | array elems => exact ⟨h.1.trans h.2.symm,Or.inr h.2⟩
  | zero => exact ⟨rfl,Or.inr h⟩

/-- Every component is loaded from the cell it was stored to. -/
theorem loadPlace_stored {sz idx : ℕ} (hsz : sz ≤ 1 ∨ sz = 4) (hidx : idx < sz) (hle : 4*sz ≤ off) :
    loadPlace call off sz idx = place call off ((sz - idx - 1 : ℕ) : ℤ) := by
  rcases hsz with hsz | rfl
  · obtain ⟨rfl,rfl⟩ : sz = 1 ∧ idx = 0 := by omega
    exact loadPlace_one
  · rw [loadPlace_eq (by omega) (by omega)]
    congr 1
    omega

/-- A component that the load of a larger or a smaller value looks for outside the alloca. -/
theorem loadPlace_outside (call : Bool) {sz : ℕ} (hsz : ¬ (sz ≤ 1 ∨ sz = 4)) (hle : 4*sz ≤ off) :
    ∃ idx < sz, ∃ e : ℤ, loadPlace call off sz idx = place call off e ∧
      (-(sz : ℤ) ≤ e ∧ e < 0 ∨ (sz : ℤ) ≤ e ∧ e ≤ sz) := by
  by_cases hsmall : sz < 4
  · exact ⟨3 - sz,by omega,_,loadPlace_eq (by omega) (by omega),by omega⟩
  · exact ⟨sz - 1,by omega,_,loadPlace_eq (by omega) (by omega),by omega⟩

/-- A machine whose registers hold zero and whose memory holds `x`. -/
def uniform (x : Felt) : State := ⟨⟨fun _ => 0,fun _ => 0⟩,fun _ => x⟩

theorem words_uniform (ty : IrType) (v : Aggregate) (x : Felt) :
    v.words ty (uniform x) = v.words ty (uniform 0) := by
  cases v <;> rfl

theorem place_ne {sz : ℕ} (hfits : off < 2^31) (hle : 4*sz ≤ off) {e : ℤ}
    (he : -(sz : ℤ) ≤ e ∧ e < 0 ∨ (sz : ℤ) ≤ e ∧ e ≤ sz) {e' : ℕ} (he' : e' < sz) :
    (place call off e : Felt) ≠ (place call off e' : Felt) := by
  intro heq
  have hbound : ∀ x : ℤ, -(sz : ℤ) ≤ x → x ≤ sz → -2^62 ≤ place call off x ∧ place call off x < 2^62 := by
    intro x hlo hhi
    unfold place
    cases call <;> simp <;> omega
  have hsame := intCast_injective 0 (hbound e (by omega) (by omega))
    (hbound e' (by omega) (by omega)) (congrArg (0 + ·) heq)
  unfold place at hsame
  omega

theorem lowerStore_constant_lt {ty : IrType} {fresh : VReg} {v : Aggregate}
    {store : List InstructionData} (hconst : ∀ vregs, v ≠ .registers vregs)
    (h : lowerStore slot ty fresh v = some store) : 1 < cells ty := by
  rw [lowerStore_const slot ty fresh hconst] at h
  split at h
  · rename_i hlt
    exact hlt.1
  · cases h

theorem exists_older (v : Aggregate) : ∃ fresh, Older fresh v := by
  cases v with
  | array elems => exact ⟨0,trivial⟩
  | zero => exact ⟨0,trivial⟩
  | registers vregs =>
    induction vregs with
    | nil => exact ⟨0,by simp [Older]⟩
    | cons r rest ih =>
      rcases ih with ⟨fresh,h⟩
      refine ⟨max fresh (r + 1),fun v hv => ?_⟩
      rcases List.mem_cons.mp hv with rfl | hv
      · exact lt_of_lt_of_le (Nat.lt_succ_self v) (le_max_right _ _)
      · exact lt_of_lt_of_le (h v hv) (le_max_left _ _)

/-- What a round trip says of a memory that holds `x` everywhere. -/
theorem RoundTrip.of_uniform {f : Function} {ty : IrType} (h : Alloca f slot off ty) {v : Aggregate}
    (htrip : RoundTrip f slot off ty v) (x : Felt) :
    (∃ fresh store, lowerStore slot ty fresh v = some store) ∧
      (v.words ty (uniform 0)).length = cells ty ∧
      ∀ idx < cells ty, (∀ e < cells ty, (loadPlace (hasCall f) off (cells ty) idx : Felt) ≠
        (place (hasCall f) off e : Felt)) → (v.words ty (uniform 0)).getD idx 0 = x := by
  rcases exists_older v with ⟨fresh,hfresh⟩
  rcases htrip fresh hfresh (uniform x) with ⟨code,t,hcode,hrun,hout,_⟩
  rw [words_uniform] at hout
  rcases Option.bind_eq_some_iff.mp hcode with ⟨store,hstore,_⟩
  rcases storeAndLoad_run h hstore (uniform x) with
    ⟨code',t',hcode',hrun',⟨m,hstores,hmem⟩,hvreg⟩
  obtain rfl : code = code' := Option.some.inj (hcode.symm.trans hcode')
  obtain rfl : t = t' := Option.some.inj (hrun.symm.trans hrun')
  refine ⟨⟨fresh,store,hstore⟩,by rw [← hout]; simp,fun idx hidx houtside => ?_⟩
  have hx : m.mem ((uniform x).regs.reg R9 +
      (loadPlace (hasCall f) off (cells ty) idx : Felt)) = x :=
    hstores.2.2 _ fun e he heq => houtside e he (add_left_cancel heq)
  rw [← hout]
  simpa [hidx,hvreg idx hidx,hmem] using hx

/-- The slot of an alloca. -/
theorem alloca_of_slot {f : Function} (h : Sized f) {ty : IrType} {align : ℕ}
    (hslot : f.slots[slot]? = some ⟨ty.getSizeOf,align⟩) (hoff : (frameOffsets f)[slot]? = some off) :
    Alloca f slot off ty := by
  have hlt : slot < f.slots.length := by
    by_contra hge
    rw [List.getElem?_eq_none (Nat.le_of_not_lt hge)] at hslot
    cases hslot
  have hoff' := (frameOffsets_eq f hlt).symm.trans hoff
  have hroom := slotOffsets_ge h.aligned hoff' hslot
  have hframe := h.frame hoff'
  have hfits := h.fits
  exact ⟨hoff,by simpa using hroom,by omega⟩

theorem RoundTrip.returns {f : Function} {ty : IrType} (h : Alloca f slot off ty) {v : Aggregate}
    (htrip : RoundTrip f slot off ty v) : Returns ty v := by
  have hle := h.cells_le
  rcases htrip.of_uniform h 0 with ⟨⟨fresh,store,hstore⟩,hlen,_⟩
  have hsz : cells ty ≤ 1 ∨ cells ty = 4 := by
    by_contra hsz
    rcases loadPlace_outside (hasCall f) hsz hle with ⟨idx,hidx,e,hplace,he⟩
    rcases htrip.of_uniform h ((v.words ty (uniform 0)).getD idx 0 + 1) with ⟨_,_,hword⟩
    refine absurd (hword idx hidx fun e' he' => ?_) (by simp)
    rw [hplace]
    exact place_ne h.fits hle he he'
  rw [words_length] at hlen
  cases v with
  | registers vregs => exact ⟨hlen,hsz⟩
  | array elems =>
    have hlt := lowerStore_constant_lt (v := .array elems) (by simp) hstore
    exact ⟨hlen.trans (by omega),by omega⟩
  | zero =>
    have hlt := lowerStore_constant_lt (v := .zero) (by simp) hstore
    exact (by omega : cells ty = 4)

theorem Returns.roundTrip {f : Function} {ty : IrType} (h : Alloca f slot off ty) {v : Aggregate}
    (hreturns : Returns ty v) : RoundTrip f slot off ty v := by
  intro fresh _ s
  have hle := h.cells_le
  have hlen := hreturns.length s
  rcases hreturns.stored slot fresh with ⟨store,hstore⟩
  rcases storeAndLoad_run h hstore s with ⟨code,t,hcode,hrun,⟨m,hstores,hmem⟩,hvreg⟩
  refine ⟨code,t,hcode,hrun,?_,fun a ha => ?_⟩
  · refine List.ext_getElem (by simp [hlen.1]) fun idx hidx _ => ?_
    have hlt : idx < cells ty := by simpa using hidx
    have hword := hstores.2.1 (cells ty - idx - 1) (by omega)
    rw [show cells ty - (cells ty - idx - 1) - 1 = idx by omega] at hword
    rw [List.getElem_map,List.getElem_range,hvreg idx hlt,loadPlace_stored hlen.2 hlt hle,hmem]
    exact hword.trans (by simp [hlen.1,hlt])
  · rw [hmem]
    exact hstores.2.2 a ha

/-- A store to an alloca and a load of it give an array value back, and change no other cell,
exactly when it has four cells or is in at most one register. -/
theorem aggregate_round_trip_iff {f : Function} (h : Sized f) {slot : SlotId} {ty : IrType}
    {align off : ℕ} (hslot : f.slots[slot]? = some ⟨ty.getSizeOf,align⟩)
    (hoff : (frameOffsets f)[slot]? = some off) (v : Aggregate) :
    RoundTrip f slot off ty v ↔ Returns ty v :=
  ⟨fun htrip => htrip.returns (alloca_of_slot h hslot hoff),
    fun hreturns => hreturns.roundTrip (alloca_of_slot h hslot hoff)⟩

/-- A function without calls whose only slot is an array of `n` words. -/
def oneArray (n : ℕ) : Function := ⟨"array",[],[⟨4*n,4⟩],[],false⟩

theorem aggregate_round_trip_iff_four :
    RoundTrip (oneArray 4) 0 16 (.array .i64 4) (.registers [0,1,2,3]) := by
  have hsized : Sized (oneArray 4) := ⟨by simp [oneArray],by decide⟩
  have hslot : (oneArray 4).slots[0]? = some ⟨(IrType.array .i64 4).getSizeOf,4⟩ := rfl
  exact (aggregate_round_trip_iff hsized hslot rfl _).mpr ⟨rfl,Or.inr rfl⟩

/-- Of two words one is read behind the alloca. -/
theorem pair_not_returned : ¬ RoundTrip (oneArray 2) 0 8 (.array .i64 2) (.registers [0,1]) := by
  intro htrip
  have hsized : Sized (oneArray 2) := ⟨by simp [oneArray],by decide⟩
  have hslot : (oneArray 2).slots[0]? = some ⟨(IrType.array .i64 2).getSizeOf,4⟩ := rfl
  have hcells : cells (.array .i64 2) = 2 := rfl
  have hreturns := (htrip.returns (alloca_of_slot hsized hslot rfl)).2
  omega

end AggregateMemory
end Codegen
end OlaLang
