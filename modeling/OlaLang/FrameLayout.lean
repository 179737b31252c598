import OlaLang.PointerAddress
import OlaLang.Spiller

/-! The layout of the frame: the cells that the memory operands of slots address once the slots are
eliminated, against the frame of the prologue and the two cells that calls use. -/
namespace OlaLang
namespace Codegen
namespace FrameLayout

open FramePointer SlotElimination

/-! ### Accesses -/

/-- The memory operands of a slot that the lowering and the spiller write: of a scalar, with a
displacement, and with an index register. -/
inductive Form
  | plain
  | imm32 (i : BitVec 32)
  | imm64 (i : BitVec 64)
  | index (v : VReg)
  | imm32Index (i : BitVec 32) (v : VReg)
  | imm32Scaled (i : BitVec 32) (v : VReg)

def Form.mem (slot : SlotId) : Form → Mem
  | .plain => Mem.ofSlot slot .none
  | .imm32 i => Mem.ofSlot slot (.int32 i)
  | .imm64 i => Mem.ofSlot slot (.int64 i)
  | .index v => ⟨.none,.slot slot,.none,.none,.vreg v,.none⟩
  | .imm32Index i v => ⟨.none,.slot slot,.int32 i,.none,.vreg v,.none⟩
  | .imm32Scaled i v => ⟨.none,.slot slot,.int32 i,.none,.vreg v,.int32 4⟩

/-- The displacement as the pass reads it, in bytes from the low end of the slot. -/
def Form.bytes : Form → ℤ
  | .plain | .index _ => 0
  | .imm64 i => i.toInt
  | .imm32 i | .imm32Index i _ | .imm32Scaled i _ => -i.toInt

/-- What the rest of the operand adds, in cells; `value` is what the index register holds. -/
def Form.more (value : ℕ) : Form → ℤ
  | .plain | .imm32 _ | .imm64 _ => 0
  | .index _ | .imm32Index _ _ => value
  | .imm32Scaled _ _ => value + 4

/-- An access to the element of a slot that starts at `byte`. -/
structure SlotAccess where
  slot : SlotId
  form : Form
  value : ℕ
  byte : ℕ

def SlotAccess.cell (f : Function) (fp : Felt) (a : SlotAccess) : Option Felt :=
  PointerAddress.addressOf f ⟨fun _ => fp,fun _ => (a.value : Felt)⟩ (a.form.mem a.slot)

/-- The element begins in the slot; an index register holds an index. -/
def InSlot (f : Function) (a : SlotAccess) : Prop :=
  ∃ slot, f.slots[a.slot]? = some slot ∧ a.byte < slot.size ∧ a.value < 2^32

/-- The operand is written with the byte of the element, a whole cell of the slot. -/
def Exact (f : Function) (a : SlotAccess) : Prop :=
  ∃ slot, f.slots[a.slot]? = some slot ∧ a.form.bytes + 4 * a.form.more a.value = a.byte ∧
    4 ∣ a.byte ∧ a.byte + 4 ≤ slot.size

/-- Every access is in the frame and away from the two cells below the frame pointer if the function
has calls, and accesses to different elements are to different cells. -/
structure Separated (f : Function) (accesses : List SlotAccess) : Prop where
  inFrame : ∀ a ∈ accesses, ∃ o : ℤ, (∀ fp, a.cell f fp = some (fp + (o : Felt))) ∧
    -adj (eliminateSlot f) ≤ o ∧ o < 0 ∧ (hasCall f = true → o ≠ -1 ∧ o ≠ -2)
  apart : ∀ a ∈ accesses, ∀ b ∈ accesses, (a.slot ≠ b.slot ∨ a.byte ≠ b.byte) →
    ∀ fp, a.cell f fp ≠ b.cell f fp

/-! ### Cells -/

variable {f : Function}

/-- Where an access goes, relative to the frame pointer. -/
def offset (call : Bool) (off : ℕ) (a : SlotAccess) : ℤ :=
  skipSaved call ((a.form.bytes - (off : ℤ)).tdiv 4) + a.form.more a.value

theorem tdiv_bounds {x : ℤ} {n : ℕ} (h : -2^(n+2) ≤ x ∧ x < 2^(n+2)) :
    -2^n ≤ x.tdiv 4 ∧ x.tdiv 4 ≤ 2^n := by
  have hpow : (2 : ℤ)^(n+2) = 4 * 2^n := by ring
  rw [hpow] at h
  by_cases hsign : 0 ≤ x
  · rw [Int.tdiv_eq_ediv_of_nonneg hsign]
    omega
  · rw [tdiv_four_of_nonpos (by omega)]
    omega

/-- The displacement that the pass puts in fits into the immediate. -/
theorem displacement_bounds {n off : ℕ} (hn : 30 ≤ n) (hfits : off < 2^31) {x : ℤ}
    (h : -2^(n+1) ≤ x ∧ x ≤ 2^(n+1)) (call : Bool) :
    -2^(n+1) ≤ skipSaved call ((x - off).tdiv 4) ∧ skipSaved call ((x - off).tdiv 4) < 2^(n+1) := by
  have hle : (2 : ℤ)^30 ≤ 2^n := pow_le_pow_right₀ (by norm_num) hn
  have hone : (2 : ℤ)^(n+1) = 2 * 2^n := by ring
  have htwo : (2 : ℤ)^(n+2) = 4 * 2^n := by ring
  have hdiv : -2^n ≤ (x - off).tdiv 4 ∧ (x - off).tdiv 4 ≤ 2^n := by
    apply tdiv_bounds
    rw [htwo]
    rw [hone] at h
    omega
  unfold skipSaved
  cases call <;> simp <;> split <;> omega

theorem addressOf_slot {r : Regs} {m m' : Mem} {slot : SlotId} (h : m.slot = .slot slot)
    (hm : rewriteMem (frameOffsets f) (hasCall f) m = some m') :
    PointerAddress.addressOf f r m = m'.address r := by
  have hslot : isSlot m.slot = true := by rw [h]; rfl
  rw [PointerAddress.addressOf,if_pos hslot,hm]
  rfl

theorem rewriteMem_none {m : Mem} {offsets : List ℕ} {call : Bool} {slot : SlotId} {off : ℕ}
    (hoff : offsets[slot]? = some off) (hslot : m.slot = .slot slot) (himm : m.imm = .none) :
    rewriteMem offsets call m = some { m with
      slot := .none, imm := .int32 (.ofInt 32 (skipSaved call ((0 - (off : ℤ)).tdiv 4)))
      base := .reg R9 } := by
  simp only [rewriteMem,hslot,himm,hoff,Option.bind_eq_bind,Option.bind_some]
  rfl

theorem rewriteMem_int32 {m : Mem} {offsets : List ℕ} {call : Bool} {slot : SlotId} {off : ℕ}
    {i : BitVec 32} (hoff : offsets[slot]? = some off) (hslot : m.slot = .slot slot)
    (himm : m.imm = .int32 i) :
    rewriteMem offsets call m = some { m with
      slot := .none, imm := .int32 (.ofInt 32 (skipSaved call ((-i.toInt - (off : ℤ)).tdiv 4)))
      base := .reg R9 } := by
  simp only [rewriteMem,hslot,himm,hoff,Option.bind_eq_bind,Option.bind_some]
  rfl

theorem cell_eq (off : ℕ) {a : SlotAccess} (hoff : (frameOffsets f)[a.slot]? = some off)
    (hfits : off < 2^31) (fp : Felt) :
    a.cell f fp = some (fp + (offset (hasCall f) off a : Felt)) := by
  obtain ⟨slot,form,value,byte⟩ := a
  have hbytes : ∀ x : ℤ, -2^31 ≤ x → x ≤ 2^31 →
      (BitVec.ofInt 32 (skipSaved (hasCall f) ((x - off).tdiv 4))).toInt =
        skipSaved (hasCall f) ((x - off).tdiv 4) := fun x hlo hhi => by
    have hbounds := displacement_bounds (n := 30) (le_refl _) hfits ⟨hlo,hhi⟩ (hasCall f)
    exact toInt_ofInt hbounds.1 hbounds.2 (le_refl _)
  have himm : ∀ i : BitVec 32, -2^31 ≤ -i.toInt ∧ -i.toInt ≤ 2^31 := fun i => by
    have hlo := BitVec.le_toInt i
    have hhi := BitVec.toInt_lt (x := i)
    omega
  cases form with
  | plain =>
    rw [SlotAccess.cell,addressOf_slot rfl (rewriteMem_none hoff rfl rfl)]
    show some (fp + ((BitVec.ofInt 32 _).toInt : Felt)) = _
    rw [hbytes 0 (by decide) (by decide)]
    simp [offset,Form.bytes,Form.more]
  | imm32 i =>
    rw [SlotAccess.cell,addressOf_slot rfl (rewriteMem_int32 hoff rfl rfl)]
    show some (fp + ((BitVec.ofInt 32 _).toInt : Felt)) = _
    rw [hbytes _ (himm i).1 (himm i).2]
    simp [offset,Form.bytes,Form.more]
  | imm64 i =>
    have hlo := BitVec.le_toInt i
    have hhi := BitVec.toInt_lt (x := i)
    have hbounds := displacement_bounds (n := 62) (by omega) hfits ⟨hlo,hhi.le⟩ (hasCall f)
    have hrewrite : rewriteMem (frameOffsets f) (hasCall f) (Mem.ofSlot slot (.int64 i)) =
        some ⟨.none,.none,.int64 (.ofInt 64 (skipSaved (hasCall f) ((i.toInt - (off : ℤ)).tdiv 4))),
          .reg R9,.none,.none⟩ := by
      simp only [rewriteMem,Mem.ofSlot,hoff,Option.bind_eq_bind,Option.bind_some]
      rfl
    have hcell : SlotAccess.cell f fp ⟨slot,.imm64 i,value,byte⟩ = _ := addressOf_slot rfl hrewrite
    rw [hcell]
    show some (fp + ((BitVec.ofInt 64 _).toInt : Felt)) = _
    rw [BitVec.toInt_ofInt_eq_self (by omega) hbounds.1 hbounds.2]
    simp [offset,Form.bytes,Form.more]
  | index v =>
    rw [SlotAccess.cell,addressOf_slot rfl (rewriteMem_none hoff rfl rfl)]
    show some (fp + (value : Felt) + ((BitVec.ofInt 32 _).toInt : Felt)) = _
    rw [hbytes 0 (by decide) (by decide)]
    simp [offset,Form.bytes,Form.more]
    ring
  | imm32Index i v =>
    rw [SlotAccess.cell,addressOf_slot rfl (rewriteMem_int32 hoff rfl rfl)]
    show some (fp + (value : Felt) + ((BitVec.ofInt 32 _).toInt : Felt)) = _
    rw [hbytes _ (himm i).1 (himm i).2]
    simp [offset,Form.bytes,Form.more]
    ring
  | imm32Scaled i v =>
    rw [SlotAccess.cell,addressOf_slot rfl (rewriteMem_int32 hoff rfl rfl)]
    have hi := hbytes _ (himm i).1 (himm i).2
    show some (if BitVec.ofInt 32 _ = 0 then fp + (value : Felt) + ((4 : BitVec 32).toInt : Felt)
      else if (4 : BitVec 32) = 0 then fp + ((BitVec.ofInt 32 _).toInt : Felt)
      else fp + ((BitVec.ofInt 32 _).toInt : Felt) + (value : Felt) + ((4 : BitVec 32).toInt : Felt)) = _
    have hfour : (4 : BitVec 32).toInt = 4 := by decide
    have hzero : (4 : BitVec 32) ≠ 0 := by decide
    rw [if_neg hzero,hi,hfour]
    split
    · rename_i himm0
      rw [himm0] at hi
      have hskip : skipSaved (hasCall f) ((-i.toInt - (off : ℤ)).tdiv 4) = 0 := by
        rw [← hi]
        rfl
      simp only [offset,Form.bytes,Form.more,hskip]
      push_cast
      congr 1
      ring
    · simp only [offset,Form.bytes,Form.more]
      push_cast
      congr 1
      ring

/-! ### Exact accesses -/

theorem Form.more_nonneg (form : Form) (value : ℕ) : 0 ≤ form.more value := by
  cases form <;> simp [Form.more]
  omega

/-- The offset of a slot, which the pass has too, and the frame around it. -/
theorem slot_offset (h : Sized f) {i : SlotId} {slot : Slot} (hslot : f.slots[i]? = some slot) :
    ∃ off : ℕ, (slotOffsets f.slots 0)[i]? = some off ∧ (frameOffsets f)[i]? = some off ∧
      slot.size ≤ off ∧ off < 2^31 ∧
      ((off / 4 : ℕ) : ℤ) + (if hasCall f then 2 else 0) ≤ adj (eliminateSlot f) := by
  have hlt : i < f.slots.length := (List.getElem?_eq_some_iff.mp hslot).1
  have hoffsets : i < (slotOffsets f.slots 0).length := by rwa [slotOffsets_length]
  have hoff := List.getElem?_eq_getElem hoffsets
  have hge := slotOffsets_ge h.aligned hoff hslot
  have hframe := h.frame hoff
  have hfits := h.fits
  refine ⟨_,hoff,(frameOffsets_eq f hlt).trans hoff,by omega,by omega,?_⟩
  rw [h.adj]
  split at hframe <;> rename_i hcall <;> simp only [hcall] <;> norm_num <;> omega

/-- An exact access goes to the place of its element. -/
theorem Exact.offset {a : SlotAccess} (hexact : Exact f a) {slot : Slot}
    (hslot : f.slots[a.slot]? = some slot) {off : ℕ} (hsize : slot.size ≤ off) (call : Bool) :
    offset call off a = place call off (a.byte / 4 : ℕ) ∧ 4 * (a.byte / 4) = a.byte ∧
      a.byte + 4 ≤ slot.size := by
  obtain ⟨slot',hslot',hbytes,hdvd,hle⟩ := hexact
  obtain rfl : slot' = slot := Option.some.inj (hslot'.symm.trans hslot)
  have hmore := a.form.more_nonneg a.value
  refine ⟨?_,by omega,hle⟩
  rw [FrameLayout.offset,skipSaved_tdiv (by omega),place]
  omega

theorem place_ne (h : Sized f) {i j : SlotId} {slot slot' : Slot} (hi : f.slots[i]? = some slot)
    (hj : f.slots[j]? = some slot') {off off' d e : ℕ} (hoff : (slotOffsets f.slots 0)[i]? = some off)
    (hoff' : (slotOffsets f.slots 0)[j]? = some off') (hd : 4*d + 4 ≤ slot.size)
    (he : 4*e + 4 ≤ slot'.size) (hne : i ≠ j ∨ d ≠ e) (call : Bool) :
    place call off d ≠ place call off' e := by
  unfold place
  rcases Nat.lt_trichotomy i j with hlt | heq | hgt
  · have hle := slotOffsets_lt h.aligned hlt hoff hoff' hj
    omega
  · subst heq
    obtain rfl : off = off' := Option.some.inj (hoff.symm.trans hoff')
    have hde : d ≠ e := hne.resolve_left fun h => h rfl
    omega
  · have hle := slotOffsets_lt h.aligned hgt hoff' hoff hi
    omega

theorem separated_of_exact (h : Sized f) {accesses : List SlotAccess}
    (haccesses : ∀ a ∈ accesses, Exact f a) : Separated f accesses := by
  constructor
  · intro a ha
    have hexact := haccesses a ha
    obtain ⟨slot,hslot,_⟩ := hexact
    rcases slot_offset h hslot with ⟨off,_,hoff,hsize,hlt,hframe⟩
    obtain ⟨heq,hbyte,hle⟩ := (haccesses a ha).offset hslot hsize (hasCall f)
    refine ⟨_,cell_eq _ hoff hlt,?_⟩
    rw [heq]
    unfold place
    cases hcall : hasCall f <;> simp only [hcall] at hframe ⊢ <;> norm_num at hframe ⊢ <;> omega
  · intro a ha b hb hne fp
    obtain ⟨slot,hslot,_⟩ := haccesses a ha
    obtain ⟨slot',hslot',_⟩ := haccesses b hb
    rcases slot_offset h hslot with ⟨off,hoffsets,hoff,hsize,hlt,_⟩
    rcases slot_offset h hslot' with ⟨off',hoffsets',hoff',hsize',hlt',_⟩
    obtain ⟨heq,hbyte,hle⟩ := (haccesses a ha).offset hslot hsize (hasCall f)
    obtain ⟨heq',hbyte',hle'⟩ := (haccesses b hb).offset hslot' hsize' (hasCall f)
    rw [cell_eq _ hoff hlt,cell_eq _ hoff' hlt',heq,heq']
    intro hcells
    refine place_ne h hslot hslot' hoffsets hoffsets' (by omega) (by omega) ?_ (hasCall f)
      (intCast_injective fp ?_ ?_ (Option.some.inj hcells))
    · rcases hne with hne | hne
      · exact .inl hne
      · exact .inr (by omega)
    · unfold place
      split <;> omega
    · unfold place
      split <;> omega

/-! ### Other accesses -/

/-- A function without calls that has two slots. -/
def twoSlots (first second : ℕ) : Function := ⟨"two_slots",[],[⟨first,1⟩,⟨second,1⟩],[],false⟩

/-- Exact accesses to all elements of a slot. -/
def elements (slot : SlotId) (size : ℕ) : List SlotAccess :=
  (List.range (size / 4)).map fun e => ⟨slot,.imm64 (.ofInt 64 (4*e : ℕ)),0,4*e⟩

variable {first second : ℕ}

theorem twoSlots_offsets :
    slotOffsets (twoSlots first second).slots 0 = [first,first + second] := by
  simp [twoSlots,slotOffsets,Nat.mod_one]

theorem twoSlots_size : ensureComputedOffsets (eliminateSlot (twoSlots first second)).slots =
    first + second := by
  have heq : (eliminateSlot (twoSlots first second)).slots = [⟨first,1⟩,⟨second,1⟩] := rfl
  rw [heq]
  simp [ensureComputedOffsets,FramePointer.offsets,Nat.mod_one]

theorem twoSlots_sized (h : first + second + 2 < 2^31) : Sized (twoSlots first second) where
  aligned := by simp [twoSlots]
  fits := by
    rw [twoSlots_size]
    simpa [twoSlots] using h

theorem elements_exact {f : Function} {slot : SlotId} {size align : ℕ}
    (hslot : f.slots[slot]? = some ⟨size,align⟩) (hsize : size < 2^31) :
    ∀ a ∈ elements slot size, InSlot f a ∧ Exact f a := by
  intro a ha
  obtain ⟨e,he,rfl⟩ := List.mem_map.mp ha
  have hlt : e < size / 4 := List.mem_range.mp he
  refine ⟨⟨_,hslot,?_,Nat.two_pow_pos 32⟩,_,hslot,?_,Nat.dvd_mul_right 4 e,?_⟩
  · show 4*e < size
    omega
  · show (BitVec.ofInt 64 ((4*e : ℕ) : ℤ)).toInt + 4 * 0 = _
    rw [toInt_ofInt (by omega) (by omega) (by omega),mul_zero,add_zero]
  · show 4*e + 4 ≤ size
    omega

/-- Below the frame pointer by the distance to the end of the slot, also for a displacement behind
the slot. -/
theorem skipSaved_abs (x : ℤ) : skipSaved false (x.tdiv 4) = -((x.natAbs / 4 : ℕ) : ℤ) := by
  unfold skipSaved
  by_cases h : 0 ≤ x
  · rw [Int.tdiv_eq_ediv_of_nonneg h]
    simp only [Bool.false_eq_true,if_false]
    split <;> omega
  · rw [tdiv_four_of_nonpos (by omega)]
    simp only [Bool.false_eq_true,if_false]
    split <;> omega

theorem Form.bytes_bounds (form : Form) : -2^63 ≤ form.bytes ∧ form.bytes ≤ 2^63 := by
  cases form with
  | plain | index v =>
    simp only [Form.bytes]
    omega
  | imm64 i => exact ⟨BitVec.le_toInt i,(BitVec.toInt_lt (x := i)).le⟩
  | imm32 i | imm32Index i v | imm32Scaled i v =>
    have hlo := BitVec.le_toInt i
    have hhi := BitVec.toInt_lt (x := i)
    simp only [Form.bytes]
    omega

theorem Form.more_lt (form : Form) {value : ℕ} (h : value < 2^32) : form.more value < 2^33 := by
  cases form <;> simp only [Form.more] <;> omega

/-- Every cell of the frame is an element of one of the slots, so the access goes to the cell of its
own element. -/
theorem Separated.place {a : SlotAccess} (hslot : a.slot = 1) (hvalue : a.value < 2^32)
    (hfull : first % 4 + second % 4 < 4) (hfits : first + second + 2 < 2^31)
    (h : Separated (twoSlots first second) (elements 0 first ++ elements 1 second ++ [a])) :
    4 ∣ a.byte ∧ a.byte + 4 ≤ second ∧
      a.byte / 4 - ((first + second) / 4 : ℕ) =
        a.form.more a.value - (((a.form.bytes - (first + second : ℕ)).natAbs / 4 : ℕ) : ℤ) := by
  have hsized : Sized (twoSlots first second) := twoSlots_sized hfits
  have hbounds := a.form.bytes_bounds
  have hmore := a.form.more_lt hvalue
  have hnonneg := a.form.more_nonneg a.value
  rcases h.inFrame _ (List.mem_append_right _ (List.mem_singleton_self _)) with ⟨o,hcell,hlo,hhi,_⟩
  rw [hsized.adj,twoSlots_size] at hlo
  have hoffsets : frameOffsets (twoSlots first second) = [first,first + second] := twoSlots_offsets
  have hoff := cell_eq (first + second) (f := twoSlots first second) (a := a)
    (by rw [hslot,hoffsets]; rfl) (by omega)
  have ho : o = a.form.more a.value - (((a.form.bytes - (first + second : ℕ)).natAbs / 4 : ℕ) : ℤ) := by
    have hsame := intCast_injective 0 ⟨by omega,by omega⟩ ?_
      (Option.some.inj ((hcell 0).symm.trans (hoff 0)))
    · rw [hsame,FrameLayout.offset]
      show skipSaved false _ + _ = _
      rw [skipSaved_abs]
      ring
    · rw [FrameLayout.offset]
      show _ ≤ skipSaved false _ + a.form.more a.value ∧ skipSaved false _ + a.form.more a.value < _
      rw [skipSaved_abs]
      omega
  have hother : ∀ (slot : SlotId) size off e, (twoSlots first second).slots[slot]? = some ⟨size,1⟩ →
      (frameOffsets (twoSlots first second))[slot]? = some off → size ≤ off → off < 2^31 →
      e < size / 4 → o = (e : ℤ) - (off / 4 : ℕ) →
      (∀ a ∈ elements slot size, a ∈ elements 0 first ++ elements 1 second) →
      slot = 1 ∧ a.byte = 4*e := by
    intro slot size off e hs hoffs hsize hlt he heq hmem
    have hin : (⟨slot,.imm64 (.ofInt 64 (4*e : ℕ)),0,4*e⟩ : SlotAccess) ∈ elements slot size :=
      List.mem_map.mpr ⟨e,List.mem_range.mpr he,rfl⟩
    have hexact := (elements_exact hs (by omega) _ hin).2
    obtain ⟨hplace,_,_⟩ := hexact.offset hs hsize (hasCall (twoSlots first second))
    have hcells := cell_eq _ hoffs hlt (a := ⟨slot,.imm64 (.ofInt 64 (4*e : ℕ)),0,4*e⟩) 0
    rw [hplace] at hcells
    by_contra hne
    refine h.apart _ (List.mem_append_right _ (List.mem_singleton_self _)) _
      (List.mem_append_left _ (hmem _ hin)) ?_ 0 ((hcell 0).trans (Eq.trans ?_ hcells.symm))
    · simp only [not_and_or] at hne
      rw [hslot]
      exact hne.imp Ne.symm id
    · rw [heq]
      have hdiv : 4 * e / 4 = e := by omega
      simp [SlotElimination.place,hdiv,hasCall,twoSlots]
  by_cases hk : o + (first + second) / 4 < (second / 4 : ℕ)
  · have hfound := hother 1 second (first + second) (o + (first + second) / 4).toNat rfl
      (by rw [hoffsets]; rfl) (by omega) (by omega) (by omega) (by omega)
      (fun _ => List.mem_append_right _)
    omega
  · have hfound := hother 0 first first (o + (first + second) / 4 - (second / 4 : ℕ)).toNat rfl
      (by rw [hoffsets]; rfl) (le_refl _) (by omega) (by omega) (by omega)
      (fun _ => List.mem_append_left _)
    exact absurd hfound.1 (by decide)

/-- What an access is written with is not the byte of its element, or that is not a whole cell. -/
def Inexact (form : Form) (value size byte : ℕ) : Prop :=
  ¬ (form.bytes + 4 * form.more value = byte ∧ 4 ∣ byte ∧ byte + 4 ≤ size)

/-- One access that is not exact meets another element, or leaves the frame, behind a slot of four,
of seven or of eight bytes. -/
theorem inexact_not_separated {form : Form} {value size byte : ℕ} (hvalue : value < 2^32)
    (hsize : 4 ∣ size ∨ size < 4) (hfits : size + 16 < 2^31) (h : Inexact form value size byte) :
    ∃ first, first < 10 ∧ ¬ Separated (twoSlots first size)
      (elements 0 first ++ elements 1 size ++ [⟨1,form,value,byte⟩]) := by
  by_contra hall
  push Not at hall
  have hnonneg := form.more_nonneg value
  have hfour := (hall 4 (by omega)).place rfl hvalue (by omega) (by omega)
  simp only at hfour
  rcases hsize with hdvd | hlt
  · have hseven := (hall 7 (by omega)).place rfl hvalue (by omega) (by omega)
    have height := (hall 8 (by omega)).place rfl hvalue (by omega) (by omega)
    simp only at hseven height
    exact h ⟨by omega,hfour.1,hfour.2.1⟩
  · omega

/-- Accesses that are written with the bytes of their elements are in the frame, apart and away from
the saved cells, in every function; any other access in a slot of whole cells, or smaller than a
cell, breaks this next to such accesses in some function. -/
theorem frame_layout (f : Function) (accesses : List SlotAccess) (form : Form)
    (value size byte : ℕ) :
    (Sized f → (∀ a ∈ accesses, InSlot f a ∧ Exact f a) → Separated f accesses) ∧
      ((4 ∣ size ∨ size < 4) → size + 16 < 2^31 → value < 2^32 →
        byte < size → Inexact form value size byte → ∃ f accesses, Sized f ∧
          (∀ a ∈ accesses, InSlot f a ∧ (Exact f a ∨ a.form = form ∧ a.value = value ∧
            a.byte = byte ∧ ∃ align, f.slots[a.slot]? = some ⟨size,align⟩)) ∧
          ¬ Separated f accesses) := by
  refine ⟨fun h hall => separated_of_exact h fun a ha => (hall a ha).2,?_⟩
  intro hsize hfits hvalue hbyte hinexact
  rcases inexact_not_separated hvalue hsize hfits hinexact with ⟨first,hfirst,hsep⟩
  refine ⟨twoSlots first size,_,twoSlots_sized (by omega),?_,hsep⟩
  intro a ha
  rcases List.mem_append.mp ha with ha | ha
  · have hexact : InSlot (twoSlots first size) a ∧ Exact (twoSlots first size) a := by
      rcases List.mem_append.mp ha with ha | ha
      · exact elements_exact rfl (by omega) a ha
      · exact elements_exact rfl (by omega) a ha
    exact ⟨hexact.1,.inl hexact.2⟩
  · obtain rfl := List.mem_singleton.mp ha
    exact ⟨⟨⟨size,1⟩,rfl,hbyte,hvalue⟩,.inr ⟨rfl,rfl,rfl,1,rfl⟩⟩

/-- Three words with exact accesses are separated; the displacement `-1` for the second of them, which
starts at the fourth byte, is not exact. -/
theorem frame_layout_testArray :
    Separated PointerAddress.testArray (elements 0 12) ∧
      ∃ f accesses, Sized f ∧
        (∀ a ∈ accesses, InSlot f a ∧ (Exact f a ∨ a.form = .imm32 (-1) ∧ a.value = 0 ∧
          a.byte = 4 ∧ ∃ align, f.slots[a.slot]? = some ⟨12,align⟩)) ∧
        ¬ Separated f accesses := by
  have hlayout := frame_layout PointerAddress.testArray (elements 0 12) (.imm32 (-1)) 0 12 4
  have hexact : ∀ a ∈ elements 0 12, InSlot PointerAddress.testArray a ∧
      Exact PointerAddress.testArray a := elements_exact rfl (by norm_num)
  refine ⟨hlayout.1 ⟨by decide,by decide⟩ hexact,?_⟩
  exact hlayout.2 (.inl (by norm_num)) (by norm_num) (by norm_num) (by norm_num) (by unfold Inexact; decide)

/-- The spiller writes its slots without a displacement. -/
theorem spill_operands (slot : SlotId) (v : VReg) :
    (Spiller.storeVregToSlot slot v).operands =
        (Form.mem slot .plain).operands ++ [.asInput (.vreg v)] ∧
      (Spiller.loadFromSlot slot v).operands =
        .asOutput (.vreg v)::(Form.mem slot .plain).operands :=
  ⟨rfl,rfl⟩

/-- The stores to the second and the third element of an array of three words go to one cell. -/
theorem array_elements_meet :
    PointerAddress.storeGep ⟨.array .i64 3,.slot 0,[.int64 0,.int64 1]⟩ =
        some (Form.mem 0 (.imm32 (-1))) ∧
      PointerAddress.storeGep ⟨.array .i64 3,.slot 0,[.int64 0,.int64 2]⟩ =
        some (Form.mem 0 (.imm32 (-2))) ∧
      Sized PointerAddress.testArray ∧
      (∀ a ∈ [(⟨0,.imm32 (-1),0,4⟩ : SlotAccess),⟨0,.imm32 (-2),0,8⟩],
        InSlot PointerAddress.testArray a) ∧
      ¬ Separated PointerAddress.testArray [⟨0,.imm32 (-1),0,4⟩,⟨0,.imm32 (-2),0,8⟩] := by
  refine ⟨rfl,rfl,⟨by decide,by decide⟩,?_,fun h => ?_⟩
  · intro a ha
    simp only [List.mem_cons,List.not_mem_nil,or_false] at ha
    rcases ha with rfl | rfl <;> exact ⟨⟨12,4⟩,rfl,by decide,by decide⟩
  · have happart := h.apart ⟨0,.imm32 (-1),0,4⟩ (by simp) ⟨0,.imm32 (-2),0,8⟩ (by simp)
      (.inr (by decide)) 0
    exact happart (by decide)

end FrameLayout
end Codegen
end OlaLang
