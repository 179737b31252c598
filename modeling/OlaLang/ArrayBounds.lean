import OlaLang.StorageCell
import OlaLang.Expression
import OlaLang.U32Division

/-! The index check of array subscripts: which indices pass it, for every kind of array and of index
operand, and when these are the indices below the length. -/
namespace OlaLang
namespace ArrayBounds

open Exec (Returns returns_bind returns_pure bind_ok bind_eq_ok)
open Builder Corelib Storage

/-- The array types the semantic analysis admits: every fixed dimension is from 1 to `2^32 - 1`. -/
inductive IsArray : Ty → Prop
  | array {elem : Ty} {dims : List ArrayLength} (hne : dims ≠ [])
      (hfixed : ∀ n, .fixed n ∈ dims → 1 ≤ n ∧ n < 2^32) : IsArray (.array elem dims)
  | string : IsArray .string
  | dynamicBytes : IsArray .dynamicBytes

/-- An array in memory, by value or by reference, or in storage. -/
inductive Indexable : Ty → Prop
  | value {ty : Ty} (h : IsArray ty) : Indexable ty
  | ref {ty : Ty} (h : IsArray ty) : Indexable (.ref ty)
  | storageRef {ty : Ty} (h : IsArray ty) : Indexable (.storageRef ty)

/-- The length of the array an operand stands for. -/
def length (arrayTy : Ty) (array : Value) (s : State) : ℕ := match arrayTy.arrayLength with
  | some l => l
  | none => if arrayTy.isContractStorage then (s.storage (slotKey s array)).c3.val
      else (s.cell array.pointer).val

/-- The operands for which code is emitted: the generator takes the index, and the slot of a fixed
array, as an integer. -/
structure Emitted (arrayTy : Ty) (array index : Value) : Prop where
  index : index.isPointer = false
  slot : arrayTy.isContractStorage = true → arrayTy.arrayLength.isSome = true →
    array.isPointer = false

/-- The emitted code does not abort exactly for the indices below the length. -/
def Bounded (host : Host) (arrayTy : Ty) (array index : Value) (indexTy : Ty) (s : State) : Prop :=
  (∃ v t, arraySubscript host arrayTy array index indexTy s = .ok (v,t)) ↔
    index.felt.val < length arrayTy array s

/-- A constant index of a fixed array is never checked; any other check distinguishes the two sides
of the length within `2^32`, around the field. -/
def Checked (arrayTy : Ty) (array index : Value) (s : State) : Prop :=
  if arrayTy.arrayLength.isSome && index.isConst then index.felt.val < length arrayTy array s
  else length arrayTy array s ≤ index.felt.val+2^32 ∧
    index.felt.val+2^32 < length arrayTy array s+FIELD_ORDER

variable {host : Host} {arrayTy indexTy ty : Ty} {array index len v : Value} {s t : State}

/-! ### The check -/

theorem sub_sub_val (l i : Felt) :
    ((l-1-i).val : ℤ) = ((l.val : ℤ)-1-i.val) % 0xFFFFFFFF00000001 := by
  have hcast : l-1-i = (((l.val : ℤ)-1-i.val : ℤ) : Felt) := by
    push_cast
    rw [Felt.natCast_val,Felt.natCast_val]
  rw [hcast]
  exact ZMod.val_intCast _

/-- The range check of `length - 1 - index` tells the indices below the length from the others as
long as the two are not too far apart. -/
theorem isU32_iff (l i : Felt) : (Felt.IsU32 (l-1-i) ↔ i.val < l.val) ↔
    l.val ≤ i.val+2^32 ∧ i.val+2^32 < l.val+FIELD_ORDER := by
  have hval := sub_sub_val l i
  have hl := Felt.val_lt l
  have hi := Felt.val_lt i
  show ((l-1-i).val < 2^32 ↔ _) ↔ _ ∧ _ < _+0xFFFFFFFF00000001
  omega

/-- The operand of the check. -/
theorem difference (hlen : len.isPointer = false) (hindex : index.isPointer = false)
    (hpos : ∀ w, len = .const w → 1 ≤ w.toNat) :
    ∃ a b, buildIntSub len (.const 1) s = .ok (a,s) ∧ buildIntSub a index s = .ok (b,s) ∧
      b.isConst = (len.isConst && index.isConst) ∧
      (b.isConst = false → b = .int (len.felt-1-index.felt)) := by
  have hone : ((1 : BitVec 64).toNat : Felt) = 1 := by simp
  cases len with
  | ptr p => cases hlen
  | int x =>
    have ha : buildIntSub (.int x) (.const 1) s = .ok (.int (x-1),s) := by
      rw [← hone]
      rfl
    cases index with
    | ptr p => cases hindex
    | int y => exact ⟨_,_,ha,rfl,rfl,fun _ => rfl⟩
    | const w => exact ⟨_,_,ha,rfl,rfl,fun _ => rfl⟩
  | const w =>
    have ha : buildIntSub (.const w) (.const 1) s = .ok (.const (w-1),s) := rfl
    have hfelt : (((w-1).toNat : ℕ) : Felt) = (w.toNat : Felt)-1 := by
      have hnat : (w-1).toNat = w.toNat-1 := by
        have := hpos w rfl
        bv_omega
      rw [hnat,Nat.cast_sub (hpos w rfl),Nat.cast_one]
    cases index with
    | ptr p => cases hindex
    | int y =>
      refine ⟨_,_,ha,rfl,rfl,fun _ => ?_⟩
      show Value.int (((w-1).toNat : Felt)-y) = .int ((w.toNat : Felt)-1-y)
      rw [hfelt]
    | const u => exact ⟨_,_,ha,rfl,rfl,fun h => by cases h⟩

theorem rangeCheck_const (h : v.isConst = true) : rangeCheck v = pure () := by
  rw [rangeCheck,if_pos h]

theorem rangeCheck_int_eq_ok {x : Felt} {u : Unit} :
    rangeCheck (.int x) s = .ok (u,t) ↔ Felt.IsU32 x ∧ t = s := builtinRangeCheck_int_eq_ok

/-! ### Lengths -/

theorem length_bound (h : IsArray ty) {l : ℕ} (hl : ty.arrayLength = some l) :
    1 ≤ l ∧ l < 2^32 := by
  cases h with
  | string => cases hl
  | dynamicBytes => cases hl
  | @array elem dims hne hfixed =>
    simp only [Ty.arrayLength] at hl
    cases hlast : dims.getLast? with
    | none => simp [hlast] at hl
    | some d =>
      cases d with
      | dynamic => simp [hlast] at hl
      | fixed n =>
        simp only [hlast,Option.some.injEq] at hl
        subst hl
        exact hfixed n (List.mem_of_getLast? hlast)

theorem Indexable.length_bound (h : Indexable arrayTy) {l : ℕ}
    (hl : arrayTy.arrayLength = some l) : 1 ≤ l ∧ l < 2^32 := by
  cases h with
  | value h => exact ArrayBounds.length_bound h hl
  | ref h => exact ArrayBounds.length_bound h (by rwa [Ty.arrayLength] at hl)
  | storageRef h => exact ArrayBounds.length_bound h (by rwa [Ty.arrayLength] at hl)

/-- The operand that is compared holds the length; it is a constant for a fixed array. -/
theorem subscriptLength_spec (h : Indexable arrayTy) (array : Value) (s : State) :
    Returns (subscriptLength host arrayTy array) s fun len _ =>
      len.isPointer = false ∧ len.felt.val = length arrayTy array s ∧
      len.isConst = arrayTy.arrayLength.isSome ∧ ∀ w, len = .const w → 1 ≤ w.toNat := by
  cases hl : arrayTy.arrayLength with
  | some l =>
    rcases h.length_bound hl with ⟨hpos,hlt⟩
    have hnat : (BitVec.ofNat 64 l).toNat = l := by
      rw [BitVec.toNat_ofNat,Nat.mod_eq_of_lt (by omega)]
    simp only [subscriptLength,hl]
    refine returns_pure ⟨rfl,?_,rfl,?_⟩
    · rw [Value.felt_const,hnat,length,hl]
      exact Felt.val_natCast_of_lt (by omega)
    · intro w hw
      cases hw
      rw [hnat]
      exact hpos
  | none =>
    simp only [subscriptLength,hl]
    by_cases hs : arrayTy.isContractStorage = true
    · rw [if_pos hs]
      rcases storageLoad_oneCell_spec host (show Ty.uint32.isOneCell = true from rfl) array s with
        ⟨⟨x,slot⟩,m,hload,hx,_⟩
      refine returns_bind ⟨(x,slot),m,hload,returns_pure ?_⟩
      simp only at hx
      subst hx
      refine ⟨rfl,?_,rfl,fun w hw => by cases hw⟩
      simp only [length,hl,hs,if_true,Value.felt_int]
    · rw [if_neg hs]
      refine ⟨_,s,rfl,rfl,?_,rfl,fun w hw => by cases hw⟩
      simp only [length,hl,hs,if_false,Value.felt_int,Bool.false_eq_true]

/-! ### Places -/

theorem arrayOffset_completes (array : Value) (i : Felt) (elemTy : Ty) (s : State) :
    ∃ v t, arrayOffset host array i elemTy s = .ok (v,t) := by
  rcases slotPointer_spec array s with ⟨p,m,hslot,_⟩
  rcases slotKey_slotOffest (.ptr (.heap m.heap)) (i*(elemTy.storageSlots : ℕ))
    ({ m with heap := m.heap+(4 : Felt).val }.writeWord (.heap m.heap)
      (host.poseidon (hashInput { m with heap := m.heap+(4 : Felt).val } p (4 : Felt).val)))
    with ⟨v,t,hoff,_⟩
  refine ⟨v,t,?_⟩
  rw [arrayOffset,slotHash,Exec.bind_assoc,bind_ok hslot]
  exact hoff

/-- What follows the check. -/
def place (host : Host) (arrayTy : Ty) (array index : Value) : Code Value :=
  if arrayTy.isContractStorage then
    let elemTy := arrayTy.derefAny.storageArrayElem
    if arrayTy.arrayLength.isSome then do
      let offset ← buildIntMul index (.const (BitVec.ofNat 64 elemTy.storageSlots))
      buildIntAdd offset array
    else arrayOffset host array index.felt elemTy
  else if arrayTy.isDynamicMemory then
    pure (.ptr ((vectorData array.pointer).add index.felt.val))
  else match arrayTy.derefMemory with
    | .array elem dims =>
      pure (.ptr (array.pointer.add (index.felt.val * Ty.llvmStride elem dims.dropLast)))
    | _ => Exec.fail .panic

theorem Indexable.not_mapping (h : Indexable arrayTy) : arrayTy.isMapping = false := by
  cases h with
  | value h => cases h <;> rfl
  | ref h => rfl
  | storageRef h => cases h <;> rfl

theorem arraySubscript_eq (h : Indexable arrayTy) :
    arraySubscript host arrayTy array index indexTy = (do
      let len ← subscriptLength host arrayTy array
      let a ← buildIntSub len (.const 1)
      let b ← buildIntSub a index
      rangeCheck b
      place host arrayTy array index) := by
  rw [arraySubscript,h.not_mapping,if_neg (by simp)]
  rfl

/-- A memory array without an inner vector is laid out inline. -/
theorem Indexable.inline (h : Indexable arrayTy) (hs : arrayTy.isContractStorage = false)
    (hd : arrayTy.isDynamicMemory = false) :
    ∃ elem dims, arrayTy.derefMemory = .array elem dims := by
  cases h with
  | storageRef h => cases hs
  | value h =>
    cases h with
    | array hne hfixed => exact ⟨_,_,rfl⟩
    | string => cases hd
    | dynamicBytes => cases hd
  | ref h =>
    cases h with
    | array hne hfixed => exact ⟨_,_,rfl⟩
    | string => cases hd
    | dynamicBytes => cases hd

theorem buildInt_completes (fold : BitVec 64 → BitVec 64 → BitVec 64) (op : Felt → Felt → Felt)
    {a b : Value} (ha : a.isPointer = false) (hb : b.isPointer = false) (s : State) :
    ∃ c, buildInt fold op a b s = .ok (c,s) ∧ c.isPointer = false := by
  cases a with
  | ptr p => cases ha
  | const x => cases b with
    | ptr q => cases hb
    | const y => exact ⟨_,rfl,rfl⟩
    | int g => exact ⟨_,rfl,rfl⟩
  | int g => cases b with
    | ptr q => cases hb
    | const y => exact ⟨_,rfl,rfl⟩
    | int h => exact ⟨_,rfl,rfl⟩

/-- Behind the check nothing stops. -/
theorem place_completes (h : Indexable arrayTy) (he : Emitted arrayTy array index) (s : State) :
    ∃ v t, place host arrayTy array index s = .ok (v,t) := by
  unfold place
  cases hs : arrayTy.isContractStorage with
  | true =>
    rw [if_pos rfl]
    cases hl : arrayTy.arrayLength.isSome with
    | true =>
      rw [if_pos rfl]
      have hsize : (Value.const
        (BitVec.ofNat 64 arrayTy.derefAny.storageArrayElem.storageSlots)).isPointer = false := rfl
      rcases buildInt_completes (·*·) (·*·) he.index hsize s with ⟨c,hc,hptr⟩
      rcases buildInt_completes (·+·) (·+·) hptr (he.slot hs hl) s with ⟨d,hd,_⟩
      refine ⟨d,s,?_⟩
      rw [bind_ok (show buildIntMul _ _ s = _ from hc)]
      exact hd
    | false =>
      rw [if_neg (by simp)]
      exact arrayOffset_completes array _ _ s
  | false =>
    rw [if_neg (by simp)]
    cases hd : arrayTy.isDynamicMemory with
    | true => exact ⟨_,_,rfl⟩
    | false =>
      rw [if_neg (by simp)]
      rcases h.inline hs hd with ⟨elem,dims,heq⟩
      rw [heq]
      exact ⟨_,_,rfl⟩

/-! ### Subscripts -/

/-- A subscript completes when its check passes: there is none for a constant index of a fixed
array. -/
theorem completes_iff (h : Indexable arrayTy) (he : Emitted arrayTy array index) :
    (∃ v t, arraySubscript host arrayTy array index indexTy s = .ok (v,t)) ↔
      (arrayTy.arrayLength.isSome && index.isConst) = true ∨
      ∃ l : Felt, l.val = length arrayTy array s ∧ Felt.IsU32 (l-1-index.felt) := by
  rcases (subscriptLength_spec h array s : Returns (subscriptLength host arrayTy array) s _) with ⟨len,m,hlen,hptr,hval,hconst,hpos⟩
  rcases difference (s := m) hptr he.index hpos with ⟨a,b,ha,hb,hbconst,hbint⟩
  rw [arraySubscript_eq h,bind_ok hlen,bind_ok ha,bind_ok hb]
  rw [hconst] at hbconst
  cases hc : b.isConst with
  | true =>
    rw [rangeCheck_const hc]
    have hplace : ∃ v t, place host arrayTy array index m = .ok (v,t) := place_completes h he m
    exact iff_of_true hplace (Or.inl (hbconst ▸ hc))
  | false =>
    rw [hc] at hbconst
    rw [hbint hc,← hbconst]
    constructor
    · rintro ⟨v,t,hrun⟩
      rcases bind_eq_ok.mp hrun with ⟨_,_,hcheck,_⟩
      exact Or.inr ⟨len.felt,hval,(rangeCheck_int_eq_ok.mp hcheck).1⟩
    · rintro (hfalse | ⟨l,hl,hu32⟩)
      · cases hfalse
      · have heq : l = len.felt := Felt.ext_val (hl.trans hval.symm)
        subst heq
        rw [bind_ok (rangeCheck_int_eq_ok (u := ()).mpr ⟨hu32,rfl⟩)]
        exact place_completes h he m

/-- The subscript accepts the indices below the length, and no others, for the operands the check
tells apart. -/
theorem subscript_bounds_iff (host : Host) (arrayTy : Ty) (array index : Value) (indexTy : Ty)
    (s : State) (h : Indexable arrayTy) (he : Emitted arrayTy array index) :
    Bounded host arrayTy array index indexTy s ↔ Checked arrayTy array index s := by
  unfold Bounded Checked
  rw [completes_iff h he]
  rcases (subscriptLength_spec h array s : Returns (subscriptLength host arrayTy array) s _) with ⟨len,m,_,_,hval,_,_⟩
  cases hc : arrayTy.arrayLength.isSome && index.isConst with
  | true => simp
  | false =>
    simp only [Bool.false_eq_true,false_or,if_false]
    rw [← hval,← isU32_iff]
    have hex : (∃ l : Felt, l.val = len.felt.val ∧ Felt.IsU32 (l-1-index.felt)) ↔
        Felt.IsU32 (len.felt-1-index.felt) := by
      constructor
      · rintro ⟨l,hl,hu32⟩
        rwa [← Felt.ext_val hl]
      · exact fun hu32 => ⟨_,rfl,hu32⟩
    rw [hex]

theorem indexable_three : Indexable (.array .uint32 [.fixed 3]) := by
  refine .value (.array (by simp) ?_)
  intro n hn
  simp only [List.mem_singleton,ArrayLength.fixed.injEq] at hn
  omega

def noState : State := ⟨fun _ => .int 0,0,0,fun _ => Word.zero⟩

theorem subscript_bounds_iff_register :
    (Indexable (.array .uint32 [.fixed 3]) ∧
      Emitted (.array .uint32 [.fixed 3]) (.ptr (.heap 0)) (.int 2)) ∧
    (Bounded (U32Division.constHost 0 0) (.array .uint32 [.fixed 3]) (.ptr (.heap 0)) (.int 2)
      .uint32 noState ↔ Checked (.array .uint32 [.fixed 3]) (.ptr (.heap 0)) (.int 2) noState) :=
  ⟨⟨indexable_three,⟨rfl,fun h => by cases h⟩⟩,
    subscript_bounds_iff (U32Division.constHost 0 0) _ _ _ _ noState indexable_three
      ⟨rfl,fun h => by cases h⟩⟩

/-- `a[5]` of a `u32[3]`: the check is folded away, and the subscript is accepted. -/
theorem constantIndex_unchecked :
    ¬ Bounded (U32Division.constHost 0 0) (.array .uint32 [.fixed 3]) (.ptr (.heap 0)) (.const 5)
      .uint32 noState := by
  intro h
  have hlt := h.mp ⟨_,_,rfl⟩
  exact absurd hlt (by decide)

end ArrayBounds
end OlaLang
