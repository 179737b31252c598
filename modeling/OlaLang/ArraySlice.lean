import OlaLang.ArrayBounds

/-! Slices of arrays in memory: which bounds pass the checks, and what is copied into the new
array. -/
namespace OlaLang
namespace ArraySlice

open Exec (Returns returns_bind returns_pure returns_loop bind_ok bind_eq_ok)
open Builder Corelib Storage ArrayBounds

/-! ### The generator -/

/-- The checks of the two bounds, and the length of the slice. -/
def sliceLength (arrayLength start stop : Value) : Code Value := do
  let arrayLengthSubOne ← buildIntSub arrayLength (.const 1)
  let arrayLengthSubOneSubStart ← buildIntSub arrayLengthSubOne start
  rangeCheck arrayLengthSubOneSubStart
  let arrayLengthSubEnd ← buildIntSub arrayLength stop
  rangeCheck arrayLengthSubEnd
  let endSubStart ← buildIntSub stop start
  rangeCheck endSubStart
  pure endSubStart

/-- `src_data`: behind the length of a vector. -/
def srcData (arrayTy : Ty) (array : Value) : Code Pointer :=
  if arrayTy.isDynamicMemory then pure (vectorData array.pointer) else intoPointerValue array

/-- The new array, with the cells of the source from `start` on. -/
def copySlice (arrayTy : Ty) (array start endSubStart : Value) : Code Value := do
  printImmediate endSubStart
  let newArray ← vectorNew endSubStart.felt
  let destArray := vectorData newArray
  let srcData ← srcData arrayTy array
  memcpy (srcData.add start.felt.val) destArray endSubStart.felt
  pure (.ptr newArray)

/-- `array_length`: of a vector it is read from memory. -/
def sourceLength (arrayTy : Ty) (array : Value) : Code Value := match arrayTy.arrayLength with
  | some l => pure (.const (BitVec.ofNat 64 l))
  | none => buildLoadInt array.pointer

/-- A bound is the operand its expression has been evaluated to, or a default. -/
def bound (default : Value) : Option Value → Code Value
  | some v => intoIntValue v
  | none => pure default

/-- `array_slice`. -/
def arraySlice (arrayTy : Ty) (array : Value) (start stop : Option Value) : Code Value := do
  let arrayLength ← sourceLength arrayTy array
  let start ← bound (.const 0) start
  let stop ← bound arrayLength stop
  let endSubStart ← sliceLength arrayLength start stop
  copySlice arrayTy array start endSubStart

/-! ### Elements -/

/-- The cells between two elements, as a subscript counts them. -/
def stride (arrayTy : Ty) : ℕ := if arrayTy.isDynamicMemory then 1
  else match arrayTy.derefMemory with
    | .array elem dims => Ty.llvmStride elem dims.dropLast
    | _ => 1

def data (arrayTy : Ty) (p : Pointer) : Pointer :=
  if arrayTy.isDynamicMemory then vectorData p else p

/-- The first cell of an element. -/
def element (arrayTy : Ty) (p : Pointer) (j : ℕ) : Pointer :=
  (data arrayTy p).add (j * stride arrayTy)

/-- This is the cell that a subscript addresses. -/
theorem place_eq {host : Host} {arrayTy : Ty} (h : Indexable arrayTy)
    (hs : arrayTy.isContractStorage = false) (p : Pointer) (index : Value) :
    place host arrayTy (.ptr p) index = pure (.ptr (element arrayTy p index.felt.val)) := by
  unfold place element data stride
  rw [if_neg (by simp [hs])]
  cases hd : arrayTy.isDynamicMemory with
  | true => simp
  | false =>
    rcases h.inline hs hd with ⟨elem,dims,heq⟩
    simp [heq]

/-- The array lies below the heap pointer. -/
def Allocated (arrayTy : Ty) (p : Pointer) (s : State) : Prop :=
  ∀ j < length arrayTy (.ptr p) s, ∀ c < stride arrayTy, ∀ k,
    (element arrayTy p j).add c ≠ .heap (s.heap + k)

/-- An operand of type `u32`. -/
def IsU32Operand : Value → Prop
  | .const w => w.toNat < 2^32
  | .int x => x.val < 2^32
  | .ptr _ => False

def startOf (start : Option Value) : Value := start.getD (.const 0)

/-- An omitted end is the operand with the length. -/
def stopOf (arrayLength : Value) (stop : Option Value) : Value := stop.getD arrayLength

structure Operands (arrayTy : Ty) (p : Pointer) (start stop : Option Value) (s : State) : Prop where
  array : Indexable arrayTy
  memory : arrayTy.isContractStorage = false
  start : ∀ v ∈ start, IsU32Operand v
  stop : ∀ v ∈ stop, IsU32Operand v
  allocated : Allocated arrayTy p s

/-- `start` and `stop` as numbers. -/
def first (start : Option Value) : ℕ := (startOf start).felt.val

def last (arrayTy : Ty) (p : Pointer) (stop : Option Value) (s : State) : ℕ :=
  (stop.map fun v => v.felt.val).getD (length arrayTy (.ptr p) s)

def InBounds (arrayTy : Ty) (p : Pointer) (start stop : Option Value) (s : State) : Prop :=
  first start ≤ last arrayTy p stop s ∧ last arrayTy p stop s ≤ length arrayTy (.ptr p) s

/-- A new array at the heap pointer that has `n` of the elements from `start` on; nothing else is
changed. -/
structure Fresh (arrayTy : Ty) (p : Pointer) (start n : ℕ) (s : State) (v : Value) (t : State) :
    Prop where
  value : v = .ptr (.heap s.heap)
  heap : t.heap = s.heap + n + 1
  length : (t.cell (.heap s.heap)).val = n
  elements : ∀ i < n, ∀ c < stride arrayTy,
    t.cell ((vectorData (.heap s.heap)).add (i + c)) = s.cell ((element arrayTy p (start + i)).add c)
  frame : ∀ q, (∀ k ≤ n, q ≠ .heap (s.heap + k)) → t.mem q = s.mem q
  stack : t.stack = s.stack
  storage : t.storage = s.storage

/-- The slice completes for the bounds that are in order and in the array, and is then such an
array. -/
def Slices (arrayTy : Ty) (p : Pointer) (start stop : Option Value) (s : State) : Prop :=
  ((∃ v t, arraySlice arrayTy (.ptr p) start stop s = .ok (v,t)) ↔ InBounds arrayTy p start stop s) ∧
    ∀ v t, arraySlice arrayTy (.ptr p) start stop s = .ok (v,t) →
      Fresh arrayTy p (first start) (last arrayTy p stop s - first start) s v t

/-! ### The condition -/

def startIsConst (start : Option Value) : Bool := (startOf start).isConst

/-- An omitted end is a constant for a fixed array. -/
def stopIsConst (arrayTy : Ty) (stop : Option Value) : Bool :=
  (stop.map Value.isConst).getD arrayTy.arrayLength.isSome

/-- The checks that are not folded away: a start at the length, or behind it, does not pass, and the
length of the slice is not checked for constant bounds, where only `-1` stops the printer. -/
structure Accepted (arrayTy : Ty) (p : Pointer) (start stop : Option Value) (s : State) : Prop where
  startBound : (arrayTy.arrayLength.isSome && startIsConst start) = true ∨
    first start < length arrayTy (.ptr p) s ∧ length arrayTy (.ptr p) s ≤ first start + 2^32
  stopBound : (arrayTy.arrayLength.isSome && stopIsConst arrayTy stop) = true ∨
    last arrayTy p stop s ≤ length arrayTy (.ptr p) s ∧
      length arrayTy (.ptr p) s < last arrayTy p stop s + 2^32
  order : if startIsConst start && stopIsConst arrayTy stop then
      first start ≠ last arrayTy p stop s + 1
    else first start ≤ last arrayTy p stop s ∧ last arrayTy p stop s < first start + 2^32

/-- The checks are right about the bounds, and the elements are single cells if there are any. -/
def Admits (arrayTy : Ty) (p : Pointer) (start stop : Option Value) (s : State) : Prop :=
  (Accepted arrayTy p start stop s ↔ InBounds arrayTy p start stop s) ∧
    (InBounds arrayTy p start stop s →
      first start = last arrayTy p stop s ∨ stride arrayTy ≤ 1)

/-! ### Differences -/

variable {len x y d v : Value} {s t : State} {arrayTy : Ty} {p : Pointer} {start stop : Option Value}

/-- The difference of two integers: of constants it is computed on words. -/
def diff : Value → Value → Value
  | .const a, .const b => .const (a - b)
  | a, b => .int (a.felt - b.felt)

theorem buildIntSub_apply (hx : x.isPointer = false) (hy : y.isPointer = false) (s : State) :
    buildIntSub x y s = .ok (diff x y,s) := by
  cases x with
  | ptr p => cases hx
  | const a => cases y with
    | ptr q => cases hy
    | const b => rfl
    | int b => rfl
  | int a => cases y with
    | ptr q => cases hy
    | const b => rfl
    | int b => rfl

theorem diff_isPointer : (diff x y).isPointer = false := by
  cases x <;> cases y <;> rfl

theorem diff_isConst (hx : x.isPointer = false) : (diff x y).isConst = (x.isConst && y.isConst) := by
  cases x with
  | ptr p => cases hx
  | const a => cases y <;> rfl
  | int a => cases y <;> rfl

theorem diff_felt (h : (diff x y).isConst = false) : (diff x y).felt = x.felt - y.felt := by
  cases x with
  | ptr p => rfl
  | int a => rfl
  | const a => cases y with
    | const b => cases h
    | int b => rfl
    | ptr q => rfl

/-- The constant of a length before it. -/
theorem diff_one_felt (hpos : ∀ w, len = .const w → 1 ≤ w.toNat) :
    (diff len (.const 1)).felt = len.felt - 1 := by
  cases len with
  | const w =>
    show (((w - 1).toNat : ℕ) : Felt) = (w.toNat : Felt) - 1
    have hnat : (w - 1).toNat = w.toNat - 1 := by
      have := hpos w rfl
      bv_omega
    rw [hnat,Nat.cast_sub (hpos w rfl),Nat.cast_one]
  | int a =>
    show a - ((1 : BitVec 64).toNat : Felt) = a - 1
    simp
  | ptr q =>
    show q.address - ((1 : BitVec 64).toNat : Felt) = q.address - 1
    simp

theorem isU32_sub_iff {l a : Felt} (ha : a.val ≤ 2^32) :
    Felt.IsU32 (l - a) ↔ a.val ≤ l.val ∧ l.val < a.val + 2^32 := by
  have hcast : l - a = (((l.val : ℤ) - a.val : ℤ) : Felt) := by
    push_cast
    rw [Felt.natCast_val,Felt.natCast_val]
  have hval : ((l - a).val : ℤ) = ((l.val : ℤ) - a.val) % 0xFFFFFFFF00000001 := by
    rw [hcast]
    exact ZMod.val_intCast _
  have hl := Felt.val_lt l
  show (l - a).val < 2^32 ↔ _
  omega

theorem isU32_sub_one_iff {l a : Felt} (ha : a.val < 2^32) :
    Felt.IsU32 (l - 1 - a) ↔ a.val < l.val ∧ l.val ≤ a.val + 2^32 := by
  have hval := sub_sub_val l a
  have hl := Felt.val_lt l
  show (l - 1 - a).val < 2^32 ↔ _
  omega

/-! ### The checks -/

/-- A check that is not folded away. -/
def Checks (v : Value) : Prop := v.isConst = true ∨ Felt.IsU32 v.felt

theorem rangeCheck_eq_ok (h : v.isPointer = false) {u : Unit} :
    rangeCheck v s = .ok (u,t) ↔ Checks v ∧ t = s := by
  cases v with
  | ptr q => cases h
  | const w => simp [rangeCheck_const (v := .const w) rfl,Checks,Value.isConst,eq_comm]
  | int a => simp [rangeCheck_int_eq_ok,Checks,Value.isConst]

theorem sliceLength_eq_ok (hlen : len.isPointer = false) (hx : x.isPointer = false)
    (hy : y.isPointer = false) :
    sliceLength len x y s = .ok (d,t) ↔
      (Checks (diff (diff len (.const 1)) x) ∧ Checks (diff len y) ∧ Checks (diff y x)) ∧
        d = diff y x ∧ t = s := by
  have hone : (Value.const 1).isPointer = false := rfl
  rw [sliceLength,bind_ok (buildIntSub_apply hlen hone s),
    bind_ok (buildIntSub_apply diff_isPointer hx s),bind_eq_ok]
  constructor
  · rintro ⟨_,_,hstart,hrest⟩
    obtain ⟨hc1,rfl⟩ := (rangeCheck_eq_ok diff_isPointer).mp hstart
    rw [bind_ok (buildIntSub_apply hlen hy _),bind_eq_ok] at hrest
    obtain ⟨_,_,hstop,hrest⟩ := hrest
    obtain ⟨hc2,rfl⟩ := (rangeCheck_eq_ok diff_isPointer).mp hstop
    rw [bind_ok (buildIntSub_apply hy hx _),bind_eq_ok] at hrest
    obtain ⟨_,_,horder,hrest⟩ := hrest
    obtain ⟨hc3,rfl⟩ := (rangeCheck_eq_ok diff_isPointer).mp horder
    cases hrest
    exact ⟨⟨hc1,hc2,hc3⟩,rfl,rfl⟩
  · rintro ⟨⟨hstart,hstop,horder⟩,rfl,rfl⟩
    refine ⟨(),t,(rangeCheck_eq_ok diff_isPointer).mpr ⟨hstart,rfl⟩,?_⟩
    rw [bind_ok (buildIntSub_apply hlen hy t),
      bind_ok ((rangeCheck_eq_ok (u := ()) diff_isPointer).mpr ⟨hstop,rfl⟩),
      bind_ok (buildIntSub_apply hy hx t),
      bind_ok ((rangeCheck_eq_ok (u := ()) diff_isPointer).mpr ⟨horder,rfl⟩)]
    rfl

/-! ### The copy -/

/-- What a copy to the heap leaves: the cells of the source, unless the two overlap. -/
structure Copied (s : State) (src : Pointer) (b n : ℕ) (t : State) : Prop where
  cells : (∀ i < n, ∀ k < n, src.add i ≠ .heap (b + k)) →
    ∀ i < n, t.cell (.heap (b + i)) = s.cell (src.add i)
  frame : ∀ q, (∀ k < n, q ≠ .heap (b + k)) → t.mem q = s.mem q
  heap : t.heap = s.heap
  stack : t.stack = s.stack
  storage : t.storage = s.storage

theorem Copied.succ {src : Pointer} {b n : ℕ} (h : Copied s src b n t) :
    Copied s src b (n + 1) (t.write (.heap (b + n)) (t.mem (src.add n))) where
  cells := by
    intro hdisjoint i hi
    have hsrc : t.mem (src.add n) = s.mem (src.add n) :=
      h.frame _ fun k hk => hdisjoint n (by omega) k (by omega)
    by_cases heq : i = n
    · subst heq
      rw [State.write_cell_self,hsrc]
      rfl
    · have hne : (Pointer.heap (b + i)) ≠ .heap (b + n) := by simp [heq]
      rw [State.write_cell_of_ne _ _ hne]
      exact h.cells (fun i hi k hk => hdisjoint i (by omega) k (by omega)) i (by omega)
  frame := by
    intro q hq
    rw [State.write_mem_of_ne _ _ (hq n (by omega))]
    exact h.frame q fun k hk => hq k (by omega)
  heap := h.heap
  stack := h.stack
  storage := h.storage

theorem memcpy_copied (src : Pointer) (b : ℕ) (size : Felt) (s : State) :
    Returns (memcpy src (.heap b) size) s fun _ t => Copied s src b size.val t := by
  refine returns_bind (Returns.mono (returns_loop (I := fun i (_ : Unit) t => Copied s src b i t)
    ⟨by simp,fun _ _ => rfl,rfl,rfl,rfl⟩ ?_) ?_)
  · intro i _ t _ _ ht
    exact ⟨(),_,rfl,ht.succ⟩
  · intro _ t ht
    rw [Nat.zero_add] at ht
    exact returns_pure ht

theorem printImmediate_eq_ok (h : v.isPointer = false) {u : Unit} :
    printImmediate v s = .ok (u,t) ↔ v ≠ .const (BitVec.allOnes 64) ∧ t = s := by
  cases v with
  | ptr q => cases h
  | int a => simp [eq_comm]
  | const w =>
    unfold printImmediate
    by_cases hw : w = BitVec.allOnes 64
    · simp [hw]
    · simp only [hw,if_false,Exec.pure_apply,ne_eq,Value.const.injEq,not_false_eq_true,true_and]
      simp [eq_comm]

/-- The address of the first copied cell. -/
def source (arrayTy : Ty) (p : Pointer) (start : ℕ) : Pointer := (data arrayTy p).add start

/-- What a slice of `n` cells leaves. -/
structure CopiedSlice (arrayTy : Ty) (p : Pointer) (start n : ℕ) (s : State) (v : Value)
    (t : State) : Prop where
  value : v = .ptr (.heap s.heap)
  heap : t.heap = s.heap + n + 1
  length : (t.cell (.heap s.heap)).val = n
  cells : (∀ i < n, ∀ k ≤ n, (source arrayTy p start).add i ≠ .heap (s.heap + k)) →
    ∀ i < n, t.cell (.heap (s.heap + 1 + i)) = s.cell ((source arrayTy p start).add i)
  frame : ∀ q, (∀ k ≤ n, q ≠ .heap (s.heap + k)) → t.mem q = s.mem q
  stack : t.stack = s.stack
  storage : t.storage = s.storage

theorem copySlice_returns (hd : d.isPointer = false) (hprint : d ≠ .const (BitVec.allOnes 64))
    (s : State) : Returns (copySlice arrayTy (.ptr p) x d) s
      (CopiedSlice arrayTy p x.felt.val d.felt.val s) := by
  set m : State := { s with heap := s.heap + d.felt.val + 1 }.write (.heap s.heap) (.int d.felt)
    with hm
  obtain ⟨_,t,hrun,ht⟩ :=
    memcpy_copied (source arrayTy p x.felt.val) (s.heap + 1) d.felt m
  have hsrc : srcData arrayTy (.ptr p) = pure (data arrayTy p) := by
    unfold srcData data
    split <;> rfl
  refine ⟨.ptr (.heap s.heap),t,?_,?_⟩
  · rw [copySlice,bind_ok ((printImmediate_eq_ok hd (u := ())).mpr ⟨hprint,rfl⟩),hsrc]
    show (memcpy (source arrayTy p x.felt.val) (.heap (s.heap + 1)) d.felt >>=
      fun _ => pure (Value.ptr (.heap s.heap))) m = _
    rw [bind_ok hrun]
    rfl
  · have hout : ∀ q : Pointer, (∀ k ≤ d.felt.val, q ≠ .heap (s.heap + k)) → m.mem q = s.mem q := by
      intro q hq
      rw [hm,State.write_mem_of_ne _ _ (by simpa using hq 0 (Nat.zero_le _))]
    have hshift : ∀ q : Pointer, (∀ k ≤ d.felt.val, q ≠ .heap (s.heap + k)) →
        ∀ k < d.felt.val, q ≠ .heap (s.heap + 1 + k) := by
      intro q hq k hk
      rw [Nat.add_assoc]
      exact hq (1 + k) (by omega)
    refine ⟨rfl,ht.heap,?_,?_,?_,ht.stack,ht.storage⟩
    · have hlen : t.mem (Pointer.heap s.heap) = m.mem (Pointer.heap s.heap) :=
        ht.frame _ fun k _ heq => by
          have := Pointer.heap.inj heq
          omega
      rw [State.cell,hlen,hm]
      simp
    · intro hdisjoint i hi
      have hcells := ht.cells (fun i hi => hshift _ (hdisjoint i hi)) i hi
      rw [hcells,State.cell,hout _ (hdisjoint i hi),State.cell]
    · intro q hq
      rw [ht.frame q (hshift q hq),hout q hq]

/-! ### Operands -/

/-- The operand with the length. -/
def lengthOperand (arrayTy : Ty) (p : Pointer) (s : State) : Value := match arrayTy.arrayLength with
  | some l => .const (BitVec.ofNat 64 l)
  | none => .int (s.cell p)

theorem IsU32Operand.isPointer (h : IsU32Operand v) : v.isPointer = false := by
  cases v with
  | ptr q => cases h
  | const w => rfl
  | int a => rfl

theorem IsU32Operand.val_lt (h : IsU32Operand v) : v.felt.val < 2^32 := by
  cases v with
  | ptr q => cases h
  | int a => exact h
  | const w =>
    have hw : w.toNat < 2^32 := h
    rw [Value.felt_const,Felt.val_natCast_of_lt (by omega)]
    exact hw

theorem startOf_isU32 (h : ∀ v ∈ start, IsU32Operand v) : IsU32Operand (startOf start) := by
  cases start with
  | none => exact (by decide : (0 : BitVec 64).toNat < 2^32)
  | some v => exact h v rfl

/-- What the checks need of the length. -/
structure LengthOperand (arrayTy : Ty) (p : Pointer) (s : State) (len : Value) : Prop where
  isPointer : len.isPointer = false
  val : len.felt.val = length arrayTy (.ptr p) s
  isConst : len.isConst = arrayTy.arrayLength.isSome
  pos : ∀ w, len = .const w → 1 ≤ w.toNat
  lt : ∀ w, len = .const w → w.toNat < 2^32

theorem lengthOperand_spec (h : Operands arrayTy p start stop s) :
    LengthOperand arrayTy p s (lengthOperand arrayTy p s) := by
  unfold lengthOperand
  cases hl : arrayTy.arrayLength with
  | some l =>
    obtain ⟨hpos,hlt⟩ := h.array.length_bound hl
    have hnat : (BitVec.ofNat 64 l).toNat = l := by
      rw [BitVec.toNat_ofNat,Nat.mod_eq_of_lt (by omega)]
    refine ⟨rfl,?_,by rw [hl]; rfl,?_,?_⟩
    · show ((BitVec.ofNat 64 l).toNat : Felt).val = _
      rw [hnat,Felt.val_natCast_of_lt (by omega),ArrayBounds.length,hl]
    · intro w hw
      cases hw
      rwa [hnat]
    · intro w hw
      cases hw
      rwa [hnat]
  | none =>
    refine ⟨rfl,?_,by rw [hl]; rfl,fun w hw => (by cases hw),fun w hw => (by cases hw)⟩
    simp only [ArrayBounds.length,hl,h.memory,Bool.false_eq_true,if_false,Value.felt_int,
      Value.pointer_ptr]

/-- What the checks need of the end. -/
structure StopOperand (arrayTy : Ty) (p : Pointer) (stop : Option Value) (s : State)
    (len y : Value) : Prop where
  isPointer : y.isPointer = false
  val : y.felt.val = last arrayTy p stop s
  isConst : y.isConst = stopIsConst arrayTy stop
  lt : ∀ w, y = .const w → w.toNat < 2^32
  inside : Felt.IsU32 (len.felt - y.felt) ↔
    last arrayTy p stop s ≤ length arrayTy (.ptr p) s ∧
      length arrayTy (.ptr p) s < last arrayTy p stop s + 2^32

theorem stopOf_spec (hlen : LengthOperand arrayTy p s len) (h : ∀ v ∈ stop, IsU32Operand v) :
    StopOperand arrayTy p stop s len (stopOf len stop) := by
  cases stop with
  | none =>
    refine ⟨hlen.isPointer,hlen.val,hlen.isConst,hlen.lt,?_⟩
    show Felt.IsU32 (len.felt - len.felt) ↔ length arrayTy (.ptr p) s ≤ length arrayTy (.ptr p) s ∧ _
    rw [sub_self]
    exact iff_of_true (by decide : (0 : ℕ) < 2^32) ⟨le_refl _,Nat.lt_add_of_pos_right (by decide)⟩
  | some v =>
    have hv := h v rfl
    refine ⟨hv.isPointer,rfl,rfl,?_,?_⟩
    · rintro w rfl
      exact hv
    · show Felt.IsU32 (len.felt - v.felt) ↔ v.felt.val ≤ _ ∧ _ < v.felt.val + 2^32
      rw [isU32_sub_iff hv.val_lt.le,hlen.val]

/-! ### Which bounds are accepted -/

theorem checks_iff {P : Prop} {b : Bool} (hb : v.isConst = b)
    (h : v.isConst = false → (Felt.IsU32 v.felt ↔ P)) : Checks v ↔ b = true ∨ P := by
  subst hb
  unfold Checks
  cases hc : v.isConst with
  | true => simp
  | false => simp [h hc]

/-- The printer stops at the difference of constants that is `-1`. -/
theorem diff_allOnes_iff {a b : BitVec 64} (ha : a.toNat < 2^32) (hb : b.toNat < 2^32) :
    diff (.const a) (.const b) ≠ .const (BitVec.allOnes 64) ↔ b.toNat ≠ a.toNat + 1 := by
  have hword : a - b = BitVec.allOnes 64 ↔ b.toNat = a.toNat + 1 := by
    rw [← BitVec.toNat_inj,BitVec.toNat_sub,BitVec.toNat_allOnes]
    omega
  simp only [diff,ne_eq,Value.const.injEq]
  exact hword.not

theorem order_iff {first last : ℕ} (hx : x.isPointer = false) (hy : y.isPointer = false)
    (hxval : x.felt.val = first) (hyval : y.felt.val = last) (hlt : first < 2^32)
    (hxlt : ∀ w, x = .const w → w.toNat < 2^32) (hylt : ∀ w, y = .const w → w.toNat < 2^32) :
    Checks (diff y x) ∧ diff y x ≠ .const (BitVec.allOnes 64) ↔
      if x.isConst && y.isConst then first ≠ last + 1
      else first ≤ last ∧ last < first + 2^32 := by
  have hconst := diff_isConst (y := x) hy
  rw [Bool.and_comm] at hconst
  by_cases hboth : (x.isConst && y.isConst) = true
  · rw [if_pos hboth]
    rw [hboth] at hconst
    cases x with
    | ptr q => cases hx
    | int a => cases hboth
    | const a => cases y with
      | ptr q => cases hy
      | int b => cases hboth
      | const b =>
        have ha := hxlt a rfl
        have hb := hylt b rfl
        rw [Value.felt_const,Felt.val_natCast_of_lt (by omega)] at hxval hyval
        rw [diff_allOnes_iff hb ha,hxval,hyval]
        exact and_iff_right (.inl hconst)
  · rw [if_neg hboth]
    have hfalse : (diff y x).isConst = false := by
      rw [hconst]
      exact Bool.eq_false_iff.mpr hboth
    have hne : diff y x ≠ .const (BitVec.allOnes 64) := fun heq => by
      rw [heq] at hfalse
      cases hfalse
    rw [← hxval,← hyval,← isU32_sub_iff (by omega),← diff_felt hfalse]
    exact (and_iff_left hne).trans ⟨fun h => h.resolve_left (by simp [hfalse]),.inr⟩

/-- The checks and the printer let through the accepted bounds. -/
theorem accepted_iff (h : Operands arrayTy p start stop s)
    (hlen : LengthOperand arrayTy p s len) (hy : StopOperand arrayTy p stop s len y) :
    ((Checks (diff (diff len (.const 1)) (startOf start)) ∧ Checks (diff len y) ∧
        Checks (diff y (startOf start))) ∧ diff y (startOf start) ≠ .const (BitVec.allOnes 64)) ↔
      Accepted arrayTy p start stop s := by
  have hx := startOf_isU32 h.start
  have hfirst : Checks (diff (diff len (.const 1)) (startOf start)) ↔
      (arrayTy.arrayLength.isSome && startIsConst start) = true ∨
        first start < length arrayTy (.ptr p) s ∧ length arrayTy (.ptr p) s ≤ first start + 2^32 := by
    refine checks_iff ?_ fun hc => ?_
    · rw [diff_isConst diff_isPointer,diff_isConst hlen.isPointer,hlen.isConst]
      simp [Value.isConst,startIsConst]
    · rw [diff_felt hc,diff_one_felt hlen.pos,isU32_sub_one_iff hx.val_lt,hlen.val]
      rfl
  have hlast : Checks (diff len y) ↔
      (arrayTy.arrayLength.isSome && stopIsConst arrayTy stop) = true ∨
        last arrayTy p stop s ≤ length arrayTy (.ptr p) s ∧
          length arrayTy (.ptr p) s < last arrayTy p stop s + 2^32 := by
    refine checks_iff ?_ fun hc => ?_
    · rw [diff_isConst hlen.isPointer,hlen.isConst,hy.isConst]
    · rw [diff_felt hc]
      exact hy.inside
  have horder := order_iff hx.isPointer hy.isPointer rfl hy.val hx.val_lt
    (fun w hw => by rw [hw] at hx; exact hx) hy.lt
  rw [hy.isConst] at horder
  rw [and_assoc,and_assoc,horder,hfirst,hlast]
  exact ⟨fun ⟨h1,h2,h3⟩ => ⟨h1,h2,h3⟩,fun ⟨h1,h2,h3⟩ => ⟨h1,h2,h3⟩⟩

/-! ### Slices -/

theorem arraySlice_eq (h : Operands arrayTy p start stop s) :
    arraySlice arrayTy (.ptr p) start stop s = (do
      let d ← sliceLength (lengthOperand arrayTy p s) (startOf start)
        (stopOf (lengthOperand arrayTy p s) stop)
      copySlice arrayTy (.ptr p) (startOf start) d) s := by
  have hint : ∀ v, IsU32Operand v → intoIntValue v = pure v := fun v hv => by
    cases v with
    | ptr q => cases hv
    | const w => rfl
    | int a => rfl
  have hbound : ∀ default (v : Option Value), (∀ w ∈ v, IsU32Operand w) →
      bound default v = pure (v.getD default) := fun default v hv => by
    cases v with
    | none => rfl
    | some w => exact hint w (hv w rfl)
  have hlen : sourceLength arrayTy (.ptr p) s = .ok (lengthOperand arrayTy p s,s) := by
    unfold sourceLength lengthOperand
    cases arrayTy.arrayLength <;> rfl
  rw [arraySlice,bind_ok hlen,hbound _ start h.start,hbound _ stop h.stop]
  rfl

theorem diff_val (hx : x.isPointer = false) (hy : y.isPointer = false)
    (hxlt : ∀ w, x = .const w → w.toNat < 2^32) (hylt : ∀ w, y = .const w → w.toNat < 2^32)
    (hle : x.felt.val ≤ y.felt.val) : (diff y x).felt.val = y.felt.val - x.felt.val := by
  by_cases hc : (diff y x).isConst = true
  · cases x with
    | ptr q => cases hx
    | int a => cases y <;> cases hc
    | const a => cases y with
      | ptr q => cases hy
      | int b => cases hc
      | const b =>
        have ha := hxlt a rfl
        have hb := hylt b rfl
        simp only [Value.felt_const] at hle ⊢
        rw [Felt.val_natCast_of_lt (by omega),Felt.val_natCast_of_lt (by omega)] at hle ⊢
        show ((b - a).toNat : Felt).val = _
        have hsub : (b - a).toNat = b.toNat - a.toNat := by
          rw [BitVec.toNat_sub]
          omega
        rw [hsub,Felt.val_natCast_of_lt (by omega)]
  · rw [diff_felt (Bool.eq_false_iff.mpr hc)]
    exact ZMod.val_sub hle

/-- The slice completes for the accepted bounds, and copies cell by cell. -/
theorem arraySlice_spec (h : Operands arrayTy p start stop s) :
    ((∃ v t, arraySlice arrayTy (.ptr p) start stop s = .ok (v,t)) ↔
        Accepted arrayTy p start stop s) ∧
      ∀ v t, arraySlice arrayTy (.ptr p) start stop s = .ok (v,t) →
        ∃ n, (first start ≤ last arrayTy p stop s → n = last arrayTy p stop s - first start) ∧
          CopiedSlice arrayTy p (first start) n s v t := by
  have hlen := lengthOperand_spec h
  have hy := stopOf_spec hlen h.stop
  have hx := startOf_isU32 h.start
  have haccepted := accepted_iff h hlen hy
  set len := lengthOperand arrayTy p s
  set y := stopOf len stop
  have hd : (diff y (startOf start)).isPointer = false := diff_isPointer
  rw [arraySlice_eq h]
  refine ⟨?_,?_⟩
  · rw [← haccepted]
    constructor
    · rintro ⟨v,t,hrun⟩
      rcases bind_eq_ok.mp hrun with ⟨d,m,hchecks,hcopy⟩
      obtain ⟨hpass,rfl,rfl⟩ :=
        (sliceLength_eq_ok hlen.isPointer hx.isPointer hy.isPointer).mp hchecks
      rcases bind_eq_ok.mp hcopy with ⟨_,_,hprint,_⟩
      exact ⟨hpass,((printImmediate_eq_ok hd).mp hprint).1⟩
    · rintro ⟨hchecks,hprint⟩
      rcases (copySlice_returns hd hprint s : Returns (copySlice arrayTy (.ptr p) (startOf start) _)
        s _) with ⟨v,t,hrun,_⟩
      exact ⟨v,t,bind_eq_ok.mpr ⟨_,s,
        (sliceLength_eq_ok hlen.isPointer hx.isPointer hy.isPointer).mpr ⟨hchecks,rfl,rfl⟩,hrun⟩⟩
  · intro v t hrun
    rcases bind_eq_ok.mp hrun with ⟨d,m,hchecks,hcopy⟩
    obtain ⟨_,rfl,hm⟩ := (sliceLength_eq_ok hlen.isPointer hx.isPointer hy.isPointer).mp hchecks
    rw [hm] at hcopy
    rcases bind_eq_ok.mp hcopy with ⟨_,_,hprint,_⟩
    obtain ⟨v',t',hrun',hslice⟩ : Returns (copySlice arrayTy (.ptr p) (startOf start) _) s _ :=
      copySlice_returns hd ((printImmediate_eq_ok hd).mp hprint).1 s
    cases hcopy.symm.trans hrun'
    refine ⟨_,fun hle => ?_,hslice⟩
    rw [← hy.val] at hle ⊢
    exact diff_val hx.isPointer hy.isPointer (fun w hw => by rw [hw] at hx; exact hx) hy.lt hle

/-- The other cells of the memory play no part in the checks. -/
theorem Operands.setMem (h : Operands arrayTy p start stop s) {mem : Pointer → Value}
    (hmem : length arrayTy (.ptr p) { s with mem := mem } = length arrayTy (.ptr p) s) :
    Operands arrayTy p start stop { s with mem := mem } :=
  ⟨h.array,h.memory,h.start,h.stop,fun j hj => h.allocated j (hmem ▸ hj)⟩

theorem admits_setMem {mem : Pointer → Value}
    (hmem : length arrayTy (.ptr p) { s with mem := mem } = length arrayTy (.ptr p) s) :
    Admits arrayTy p start stop { s with mem := mem } ↔ Admits arrayTy p start stop s := by
  have hlast : last arrayTy p stop { s with mem := mem } = last arrayTy p stop s := by
    unfold last
    rw [hmem]
  have haccepted : Accepted arrayTy p start stop { s with mem := mem } ↔
      Accepted arrayTy p start stop s := by
    constructor
    · rintro ⟨hstart,hstop,horder⟩
      rw [hlast,hmem] at hstop
      exact ⟨hmem ▸ hstart,hstop,hlast ▸ horder⟩
    · rintro ⟨hstart,hstop,horder⟩
      rw [← hlast,← hmem] at hstop
      exact ⟨hmem.symm ▸ hstart,hstop,hlast.symm ▸ horder⟩
  unfold Admits InBounds
  rw [haccepted,hlast,hmem]

theorem Admits.slices (h : Operands arrayTy p start stop s) (ha : Admits arrayTy p start stop s) :
    Slices arrayTy p start stop s := by
  obtain ⟨hiff,hcopied⟩ := arraySlice_spec h
  refine ⟨hiff.trans ha.1,fun v t hrun => ?_⟩
  have hin := ha.1.mp (hiff.mp ⟨v,t,hrun⟩)
  obtain ⟨n,hn,hslice⟩ := hcopied v t hrun
  obtain rfl := hn hin.1
  refine ⟨hslice.value,hslice.heap,hslice.length,?_,hslice.frame,hslice.stack,hslice.storage⟩
  intro i hi c hc
  have hlt : first start + i < length arrayTy (.ptr p) s := by
    have := hin.2
    omega
  have hone : stride arrayTy = 1 := by
    rcases ha.2 hin with heq | hle
    · omega
    · omega
  obtain rfl : c = 0 := by omega
  have hplace : ∀ i, (source arrayTy p (first start)).add i = element arrayTy p (first start + i) :=
    fun i => by
      unfold source element
      rw [hone,Nat.mul_one]
      cases data arrayTy p <;> simp [Nat.add_assoc]
  have hcell := hslice.cells (fun i hi k _ => ?_) i hi
  · rw [hplace] at hcell
    rw [Nat.add_zero,Pointer.add_zero]
    exact hcell
  · have hlt : first start + i < length arrayTy (.ptr p) s := by
      have := hin.2
      omega
    have hne := h.allocated _ hlt 0 (by omega) k
    rwa [hplace,← Pointer.add_zero (element _ _ _)]

/-- An array whose elements are more than one cell has a length that is not in memory. -/
theorem length_of_stride (h : Operands arrayTy p start stop s) (hstride : 1 < stride arrayTy)
    (mem : Pointer → Value) :
    length arrayTy (.ptr p) { s with mem := mem } = length arrayTy (.ptr p) s := by
  have hd : arrayTy.isDynamicMemory = false := by
    by_contra hd
    rw [stride,if_pos (by simpa using hd)] at hstride
    omega
  have hl : arrayTy.arrayLength.isSome = true := by
    have harray := h.array
    cases harray with
    | storageRef hty =>
      have hmemory := h.memory
      cases hmemory
    | value hty => cases hty with
      | string => cases hd
      | dynamicBytes => cases hd
      | @array elem dims hne hfixed =>
        unfold Ty.isDynamicMemory at hd
        unfold Ty.arrayLength
        cases hlast : dims.getLast? with
        | none => exact absurd (List.getLast?_eq_none_iff.mp hlast) hne
        | some d => cases d with
          | fixed n => rfl
          | dynamic => simp [hlast] at hd
    | ref hty => cases hty with
      | string => cases hd
      | dynamicBytes => cases hd
      | @array elem dims hne hfixed =>
        simp only [Ty.isDynamicMemory] at hd
        simp only [Ty.arrayLength]
        cases hlast : dims.getLast? with
        | none => exact absurd (List.getLast?_eq_none_iff.mp hlast) hne
        | some d => cases d with
          | fixed n => rfl
          | dynamic => simp [hlast] at hd
  unfold ArrayBounds.length
  obtain ⟨l,hl⟩ := Option.isSome_iff_exists.mp hl
  rw [hl]

/-- The memory in which one cell is 1. -/
def oneCell (p q : Pointer) : Value := if q = p then .int 1 else .int 0

/-- With elements of several cells the last element of the slice reads behind it. -/
theorem stride_of_slices (h : Operands arrayTy p start stop s)
    (hall : ∀ mem, length arrayTy (.ptr p) { s with mem := mem } = length arrayTy (.ptr p) s →
      Slices arrayTy p start stop { s with mem := mem })
    (hin : InBounds arrayTy p start stop s) (hne : first start ≠ last arrayTy p stop s) :
    stride arrayTy ≤ 1 := by
  by_contra hstride
  have hmem := length_of_stride h (by omega)
  obtain ⟨hle,hlen⟩ := hin
  have hlt : last arrayTy p stop s - 1 < length arrayTy (.ptr p) s := by omega
  set target := (element arrayTy p (last arrayTy p stop s - 1)).add 1 with htarget
  have hout : ∀ k, target ≠ .heap (s.heap + k) := fun k => h.allocated _ hlt 1 (by omega) k
  obtain ⟨hiff,hfresh⟩ := hall (oneCell target) (hmem _)
  have hlast : last arrayTy p stop { s with mem := oneCell target } = last arrayTy p stop s := by
    unfold last
    rw [hmem]
  obtain ⟨v,t,hrun⟩ := hiff.mpr ⟨by rw [hlast]; exact hle,by rw [hlast,hmem]; exact hlen⟩
  have hcopy := hfresh v t hrun
  rw [hlast] at hcopy
  have hcell := hcopy.elements (last arrayTy p stop s - first start - 1) (by omega) 1 (by omega)
  have hplace : first start + (last arrayTy p stop s - first start - 1) =
      last arrayTy p stop s - 1 := by omega
  have hend : (vectorData (.heap s.heap)).add (last arrayTy p stop s - first start - 1 + 1) =
      .heap (s.heap + (1 + (last arrayTy p stop s - first start))) := by
    show Pointer.heap _ = _
    congr 1
    omega
  rw [hplace,← htarget,hend,State.cell,hcopy.frame _ ?_] at hcell
  · have hzero : oneCell target (.heap (s.heap + (1 + (last arrayTy p stop s - first start)))) =
        .int 0 := if_neg (hout _).symm
    have hone : oneCell target target = .int 1 := if_pos rfl
    rw [State.cell] at hcell
    simp only [hzero,hone,Value.felt_int] at hcell
    exact zero_ne_one hcell
  · intro k hk heq
    have := Pointer.heap.inj heq
    simp only at this
    omega

/-- Whatever the cells hold, a slice does what it should if and only if its bounds are accepted
exactly when they are in order and in the array, and it is empty or its elements are single cells. -/
theorem slices_iff (h : Operands arrayTy p start stop s) :
    (∀ mem, length arrayTy (.ptr p) { s with mem := mem } = length arrayTy (.ptr p) s →
      Slices arrayTy p start stop { s with mem := mem }) ↔ Admits arrayTy p start stop s := by
  constructor
  · intro hall
    have hiff := (hall s.mem rfl).1
    refine ⟨(arraySlice_spec h).1.symm.trans hiff,fun hin => ?_⟩
    by_cases heq : first start = last arrayTy p stop s
    · exact .inl heq
    · exact .inr (stride_of_slices h hall hin heq)
  · intro ha mem hmem
    exact Admits.slices (h.setMem hmem) ((admits_setMem hmem).mpr ha)

/-- A vector of two words that starts the heap. -/
def vectorState : State :=
  ⟨fun q => if q = .heap 0 then .int 2 else .int 0,3,0,fun _ => Word.zero⟩

theorem vectorState_operands {start stop : Option Value} (hstart : ∀ v ∈ start, IsU32Operand v)
    (hstop : ∀ v ∈ stop, IsU32Operand v) :
    Operands (.array .uint32 [.dynamic]) (.heap 0) start stop vectorState := by
  refine ⟨.value (.array (by simp) (by simp)),rfl,hstart,hstop,?_⟩
  intro j hj c hc k heq
  have hlen : length (.array .uint32 [.dynamic]) (.ptr (.heap 0)) vectorState = 2 := rfl
  have hone : stride (.array .uint32 [.dynamic]) = 1 := rfl
  rw [hlen] at hj
  rw [hone] at hc
  have := Pointer.heap.inj heq
  simp only [vectorState,hone] at this
  omega

/-- `a[:1]`. -/
theorem slices_iff_front :
    Operands (.array .uint32 [.dynamic]) (.heap 0) none (some (.const 1)) vectorState ∧
      ((∀ mem, length (.array .uint32 [.dynamic]) (.ptr (.heap 0)) { vectorState with mem := mem } =
          length (.array .uint32 [.dynamic]) (.ptr (.heap 0)) vectorState →
        Slices (.array .uint32 [.dynamic]) (.heap 0) none (some (.const 1))
          { vectorState with mem := mem }) ↔
        Admits (.array .uint32 [.dynamic]) (.heap 0) none (some (.const 1)) vectorState) := by
  have hoperands : Operands (.array .uint32 [.dynamic]) (.heap 0) none (some (.const 1))
      vectorState := vectorState_operands (by simp) fun v hv => by
    obtain rfl := Option.some.inj hv
    exact (by decide : (1 : BitVec 64).toNat < 2^32)
  exact ⟨hoperands,slices_iff hoperands⟩

/-- `a[2:]` of a vector of two words is empty, and is refused. -/
theorem emptySlice_refused :
    InBounds (.array .uint32 [.dynamic]) (.heap 0) (some (.const 2)) none vectorState ∧
      arraySlice (.array .uint32 [.dynamic]) (.ptr (.heap 0)) (some (.const 2)) none vectorState =
        .error .abort ∧
      ¬ Slices (.array .uint32 [.dynamic]) (.heap 0) (some (.const 2)) none vectorState := by
  have hin : InBounds (.array .uint32 [.dynamic]) (.heap 0) (some (.const 2)) none vectorState :=
    ⟨by decide,by decide⟩
  have hrun : arraySlice (.array .uint32 [.dynamic]) (.ptr (.heap 0)) (some (.const 2)) none
      vectorState = .error .abort := rfl
  refine ⟨hin,hrun,fun h => ?_⟩
  rcases h.1.mpr hin with ⟨v,t,hok⟩
  rw [hrun] at hok
  cases hok

end ArraySlice
end OlaLang
