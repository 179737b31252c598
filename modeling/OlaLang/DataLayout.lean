import Mathlib.Data.List.Forall2
import Mathlib.Data.List.Zip
import Mathlib.Data.Set.Lattice
import Mathlib.Order.CompletePartialOrder
import Mathlib.Order.Interval.Set.Basic
import Mathlib.Tactic.Ring

/-! Sizes, alignments and struct layouts of the types of the intermediate representation. -/
namespace OlaLang
namespace Codegen
namespace DataLayout

/-! ### The layout of a type -/

/-- A type. What a pointer points to has no part in its layout. -/
inductive IrTy
  | void | i1 | i8 | i16 | i32 | i64
  | pointer
  | array (inner : IrTy) (numElements : ℕ)
  | struct (elems : List IrTy) (isPacked : Bool)
  | function | alias | metadata

/-- A `usize`: overflow stops the program. -/
def usize (n : ℕ) : Option ℕ := if n < 2^64 then some n else none

/-- The remainder of a division by zero stops the program. -/
def isAligned (align offset : ℕ) : Option Bool :=
  if align = 0 then none else some (decide (offset % align = 0))

/-- `sum & !mask`. -/
def andNot (sum mask : ℕ) : ℕ := (BitVec.ofNat 64 sum &&& ~~~BitVec.ofNat 64 mask).toNat

def alignTo (offset align : ℕ) : Option ℕ := do
  let sum ← usize (offset + align)
  pure (andNot (sum - 1) (align - 1))

/-- An offset is moved unless it is aligned. -/
def aligned (align offset : ℕ) : Option ℕ := do
  if ← isAligned align offset then pure offset else alignTo offset align

/-- Elements of packed structs are not aligned. -/
def elemAlign (isPacked : Bool) (align : Option ℕ) : Option ℕ := if isPacked then some 1 else align

structure StructLayout where
  offsets : List ℕ
  size : ℕ
  align : ℕ
  deriving DecidableEq

/-- The variables of the loop over the elements. -/
structure Cursor where
  offset : ℕ
  align : ℕ
  offsets : List ℕ

namespace Cursor

def start : Cursor := ⟨0,1,[]⟩

def place (c : Cursor) (align : ℕ) (size : Option ℕ) : Option Cursor := do
  let offset ← aligned align c.offset
  let size ← size
  let next ← usize (offset + size)
  pure ⟨next,max c.align align,c.offsets ++ [offset]⟩

def finish (c : Cursor) : Option StructLayout := do
  let size ← aligned c.align c.offset
  pure ⟨c.offsets,size,c.align⟩

end Cursor

mutual
/-- `get_size_of`, in bytes. -/
def getSizeOf : IrTy → Option ℕ
  | .array inner numElements => do usize ((← getSizeOf inner) * numElements)
  | .pointer => some 4
  | .struct elems isPacked => do
    let c ← placeElems elems isPacked .start
    let layout ← c.finish
    pure layout.size
  | .void => some 0
  | .i1 => some 1
  | .i8 => some 1
  | .i16 => some 2
  | .i32 | .i64 => some 4
  | .function | .alias | .metadata => none

/-- `get_align_of`. An array has the size of its elements for alignment. -/
def getAlignOf : IrTy → Option ℕ
  | .array inner _ => getSizeOf inner
  | .pointer => some 4
  | .struct elems isPacked => do
    let c ← placeElems elems isPacked .start
    let layout ← c.finish
    pure layout.align
  | .void => some 0
  | .i1 => some 1
  | .i8 => some 1
  | .i16 => some 2
  | .i32 => some 4
  | .i64 => some 4
  | .function | .alias | .metadata => none

def placeElems : List IrTy → Bool → Cursor → Option Cursor
  | [], _, c => some c
  | elem::rest, isPacked, c => do
    let align ← elemAlign isPacked (getAlignOf elem)
    let c ← c.place align (getSizeOf elem)
    placeElems rest isPacked c
end

/-- `StructLayout::new`. -/
def StructLayout.new (elems : List IrTy) (isPacked : Bool) : Option StructLayout := do
  let c ← placeElems elems isPacked .start
  c.finish

/-- The size and the alignment of a member. In a packed struct every member has alignment one. -/
def member (isPacked : Bool) (elem : IrTy) : Option (ℕ × ℕ) := do
  let align ← elemAlign isPacked (getAlignOf elem)
  pure (← getSizeOf elem,align)

/-- What a struct layout promises about members with these sizes and alignments. -/
structure Sound (members : List (ℕ × ℕ)) (layout : StructLayout) : Prop where
  length_eq : layout.offsets.length = members.length
  increasing : layout.offsets.Pairwise (·≤·)
  apart : (layout.offsets.zip members).Pairwise fun x y =>
    Disjoint (Set.Ico x.1 (x.1+x.2.1)) (Set.Ico y.1 (y.1+y.2.1))
  inside : ∀ x ∈ layout.offsets.zip members, x.1 + x.2.1 ≤ layout.size
  multiple : ∀ x ∈ layout.offsets.zip members, x.2.2 ∣ x.1
  size_multiple : layout.align ∣ layout.size

/-- The struct has a layout, and a sound one. -/
def LaysOut (elems : List IrTy) (isPacked : Bool) : Prop :=
  ∃ members layout, elems.Forall₂ (fun elem m => member isPacked elem = some m) members ∧
    StructLayout.new elems isPacked = some layout ∧ Sound members layout

/-! ### Natural layouts -/

/-- The least multiple of the alignment from the offset on. -/
def roundUp (offset align : ℕ) : ℕ := (offset + align - 1) / align * align

/-- The offset is a multiple, or the mask makes it one. -/
def Rounds (offset align : ℕ) : Prop :=
  align ≠ 0 ∧ (align ∣ offset ∨
    offset + align < 2^64 ∧ align ∣ andNot (offset + align - 1) (align - 1))

/-- The end of members that begin at an offset, each at the least multiple of its alignment. -/
def naturalEnd : ℕ → List (ℕ × ℕ) → ℕ
  | offset, [] => offset
  | offset, (size,align)::rest => naturalEnd (roundUp offset align + size) rest

/-- In their natural layout every member is moved by the mask to where it belongs. -/
def RoundsAll : ℕ → List (ℕ × ℕ) → Prop
  | _, [] => True
  | offset, (size,align)::rest => Rounds offset align ∧ roundUp offset align + size < 2^64 ∧
    RoundsAll (roundUp offset align + size) rest

def maxAlign : ℕ → List (ℕ × ℕ) → ℕ
  | align, [] => align
  | align, (_,next)::rest => maxAlign (max align next) rest

theorem usize_eq_some {n m : ℕ} : usize n = some m ↔ n < 2^64 ∧ m = n := by
  by_cases h : n < 2^64 <;> simp [usize,eq_comm]

theorem roundUp_of_dvd {offset align : ℕ} (h : align ∣ offset) (hne : align ≠ 0) :
    roundUp offset align = offset := by
  obtain ⟨k,rfl⟩ := h
  have hpos : 0 < align := Nat.pos_of_ne_zero hne
  have hdiv : (align*k + align - 1) / align = k := by
    rw [Nat.add_sub_assoc hpos,Nat.mul_add_div hpos,Nat.div_eq_of_lt (by omega),Nat.add_zero]
  rw [roundUp,hdiv,Nat.mul_comm]

theorem eq_roundUp {offset align r : ℕ} (hle : offset ≤ r) (hlt : r < offset + align)
    (h : align ∣ r) : r = roundUp offset align := by
  obtain ⟨k,rfl⟩ := h
  have hpos : 0 < align := by omega
  have hdiv : (offset + align - 1) / align = k := by
    apply Nat.div_eq_of_lt_le
    · rw [Nat.mul_comm]
      omega
    · rw [Nat.add_one_mul,Nat.mul_comm]
      omega
  rw [roundUp,hdiv,Nat.mul_comm]

theorem le_roundUp (offset : ℕ) {align : ℕ} (h : align ≠ 0) : offset ≤ roundUp offset align := by
  have hdiv := Nat.div_add_mod (offset + align - 1) align
  have hmod := Nat.mod_lt (offset + align - 1) (Nat.pos_of_ne_zero h)
  rw [Nat.mul_comm] at hdiv
  rw [roundUp]
  omega

/-- The mask lowers the sum by at most its own value. -/
theorem andNot_bounds {sum mask : ℕ} (hsum : sum < 2^64) (hmask : mask ≤ sum) :
    sum - mask ≤ andNot sum mask ∧ andNot sum mask ≤ sum := by
  let x := BitVec.ofNat 64 sum
  let m := BitVec.ofNat 64 mask
  have hx : x.toNat = sum := (BitVec.toNat_ofNat _ _).trans (Nat.mod_eq_of_lt hsum)
  have hm : m.toNat = mask :=
    (BitVec.toNat_ofNat _ _).trans (Nat.mod_eq_of_lt (hmask.trans_lt hsum))
  have hsplit : (x &&& ~~~m) + (x &&& m) = x := by
    rw [BitVec.add_eq_or_of_and_eq_zero]
    · ext i hi
      simp only [BitVec.getElem_or,BitVec.getElem_and,BitVec.getElem_not]
      cases x[i] <;> cases m[i] <;> rfl
    · ext i hi
      simp only [BitVec.getElem_and,BitVec.getElem_not,BitVec.getElem_zero]
      cases x[i] <;> cases m[i] <;> rfl
  have hsum' := congrArg BitVec.toNat hsplit
  have hand : (x &&& m).toNat ≤ m.toNat := by
    rw [BitVec.toNat_and]
    exact Nat.and_le_right
  have hnot : (x &&& ~~~m).toNat ≤ x.toNat := by
    rw [BitVec.toNat_and]
    exact Nat.and_le_left
  rw [BitVec.toNat_add] at hsum'
  change sum - mask ≤ (x &&& ~~~m).toNat ∧ (x &&& ~~~m).toNat ≤ sum
  omega

/-- The bits of the mask are cleared. -/
theorem andNot_and {sum mask : ℕ} (hmask : mask < 2^64) : andNot sum mask &&& mask = 0 := by
  have hclear : (BitVec.ofNat 64 sum &&& ~~~BitVec.ofNat 64 mask) &&& BitVec.ofNat 64 mask = 0#64 := by
    ext i hi
    simp only [BitVec.getElem_and,BitVec.getElem_not,BitVec.getElem_zero]
    cases (BitVec.ofNat 64 mask)[i] <;> simp
  have hnat := congrArg BitVec.toNat hclear
  rwa [BitVec.toNat_and,BitVec.toNat_ofNat mask,Nat.mod_eq_of_lt hmask] at hnat

/-- A power of two always rounds. -/
theorem rounds_two_pow {offset k : ℕ} (h : offset + 2^k < 2^64) : Rounds offset (2^k) := by
  refine ⟨(Nat.two_pow_pos k).ne',.inr ⟨h,?_⟩⟩
  apply Nat.dvd_of_mod_eq_zero
  rw [← Nat.and_two_pow_sub_one_eq_mod]
  exact andNot_and (by omega)

theorem aligned_eq_some {align offset r : ℕ} : aligned align offset = some r ↔
    align ≠ 0 ∧ (align ∣ offset ∧ r = offset ∨ ¬ align ∣ offset ∧ offset + align < 2^64 ∧
      r = andNot (offset + align - 1) (align - 1)) := by
  by_cases hzero : align = 0
  · simp [aligned,isAligned,hzero]
  · by_cases hdvd : align ∣ offset
    · simp [aligned,isAligned,hzero,hdvd,Nat.mod_eq_zero_of_dvd hdvd,eq_comm]
    · have hmod : offset % align ≠ 0 := fun h => hdvd (Nat.dvd_of_mod_eq_zero h)
      simp only [aligned,isAligned,hzero,hdvd,hmod,alignTo,if_false,decide_false,
        Option.bind_eq_bind,Option.bind_some,Bool.false_eq_true,Option.bind_eq_some_iff,
        usize_eq_some,Option.pure_def,Option.some.injEq,ne_eq,not_false_eq_true,true_and,
        false_and,false_or]
      constructor
      · rintro ⟨_,⟨hlt,rfl⟩,rfl⟩
        exact ⟨hlt,rfl⟩
      · rintro ⟨hlt,rfl⟩
        exact ⟨_,⟨hlt,rfl⟩,rfl⟩

theorem aligned_bounds {align offset r : ℕ} (h : aligned align offset = some r) :
    offset ≤ r ∧ r < offset + align := by
  obtain ⟨hzero,⟨-,rfl⟩ | ⟨-,hlt,rfl⟩⟩ := aligned_eq_some.mp h
  · omega
  · have := @andNot_bounds (offset + align - 1) (align - 1) (by omega) (by omega)
    omega

theorem rounds_of_aligned {align offset r : ℕ} (h : aligned align offset = some r)
    (hdvd : align ∣ r) : Rounds offset align ∧ r = roundUp offset align := by
  obtain ⟨hle,hlt⟩ := aligned_bounds h
  refine ⟨?_,eq_roundUp hle hlt hdvd⟩
  obtain ⟨hzero,⟨hd,-⟩ | ⟨-,hfits,rfl⟩⟩ := aligned_eq_some.mp h
  · exact ⟨hzero,.inl hd⟩
  · exact ⟨hzero,.inr ⟨hfits,hdvd⟩⟩

theorem Rounds.aligned {align offset : ℕ} (h : Rounds offset align) :
    aligned align offset = some (roundUp offset align) ∧ align ∣ roundUp offset align := by
  refine ⟨?_,Nat.dvd_mul_left _ _⟩
  by_cases hd : align ∣ offset
  · exact aligned_eq_some.mpr ⟨h.1,.inl ⟨hd,roundUp_of_dvd hd h.1⟩⟩
  · obtain hfits | ⟨hfits,hdvd⟩ := h.2
    · exact absurd hfits hd
    · have hrun : DataLayout.aligned align offset =
          some (andNot (offset + align - 1) (align - 1)) :=
        aligned_eq_some.mpr ⟨h.1,.inr ⟨hd,hfits,rfl⟩⟩
      rw [hrun,(rounds_of_aligned hrun hdvd).2]

/-! ### The loop -/

/-- The members are placed one after the other, and end at the last number. -/
inductive Placed : ℕ → List (ℕ × ℕ) → List ℕ → ℕ → Prop
  | nil (offset : ℕ) : Placed offset [] [] offset
  | cons {offset r size align last : ℕ} {members : List (ℕ × ℕ)} {offsets : List ℕ}
      (haligned : aligned align offset = some r) (hfits : r + size < 2^64)
      (hrest : Placed (r+size) members offsets last) :
      Placed offset ((size,align)::members) (r::offsets) last

theorem place_eq_some {c d : Cursor} {align : ℕ} {size : Option ℕ} :
    c.place align size = some d ↔ ∃ r s, aligned align c.offset = some r ∧ size = some s ∧
      r + s < 2^64 ∧ d = ⟨r+s,max c.align align,c.offsets ++ [r]⟩ := by
  simp only [Cursor.place,Option.bind_eq_bind,Option.bind_eq_some_iff,usize_eq_some,
    Option.pure_def,Option.some.injEq]
  constructor
  · rintro ⟨r,hr,s,hs,_,⟨hlt,rfl⟩,rfl⟩
    exact ⟨r,s,hr,hs,hlt,rfl⟩
  · rintro ⟨r,s,hr,hs,hlt,rfl⟩
    exact ⟨r,hr,s,hs,_,⟨hlt,rfl⟩,rfl⟩

theorem member_eq_some {isPacked : Bool} {elem : IrTy} {m : ℕ × ℕ} :
    member isPacked elem = some m ↔
      elemAlign isPacked (getAlignOf elem) = some m.2 ∧ getSizeOf elem = some m.1 := by
  obtain ⟨size,align⟩ := m
  simp only [member,Option.bind_eq_bind,Option.bind_eq_some_iff,Option.pure_def,
    Option.some.injEq,Prod.mk.injEq]
  constructor
  · rintro ⟨a,ha,s,hs,rfl,rfl⟩
    exact ⟨ha,hs⟩
  · rintro ⟨ha,hs⟩
    exact ⟨_,ha,_,hs,rfl,rfl⟩

theorem placeElems_eq_some {elems : List IrTy} {isPacked : Bool} {c d : Cursor} :
    placeElems elems isPacked c = some d ↔ ∃ members offsets last,
      elems.Forall₂ (fun elem m => member isPacked elem = some m) members ∧
      Placed c.offset members offsets last ∧
      d = ⟨last,maxAlign c.align members,c.offsets ++ offsets⟩ := by
  induction elems generalizing c with
  | nil =>
    simp only [placeElems,Option.some.injEq,List.forall₂_nil_left_iff]
    constructor
    · rintro rfl
      exact ⟨[],[],_,rfl,.nil _,by simp [maxAlign]⟩
    · rintro ⟨_,_,_,rfl,hplaced,rfl⟩
      cases hplaced
      simp [maxAlign]
  | cons elem rest ih =>
    simp only [placeElems,Option.bind_eq_bind,Option.bind_eq_some_iff,place_eq_some,ih,
      List.forall₂_cons_left_iff]
    constructor
    · rintro ⟨align,halign,_,⟨r,s,hr,hs,hlt,rfl⟩,members,offsets,last,hmembers,hplaced,rfl⟩
      exact ⟨_,_,_,⟨(s,align),members,member_eq_some.mpr ⟨halign,hs⟩,hmembers,rfl⟩,
        .cons hr hlt hplaced,by simp [maxAlign]⟩
    · rintro ⟨_,_,last,⟨⟨s,align⟩,members,hm,hmembers,rfl⟩,hplaced,rfl⟩
      cases hplaced with
      | cons hr hlt hplaced =>
        obtain ⟨halign,hs⟩ := member_eq_some.mp hm
        exact ⟨align,halign,_,⟨_,s,hr,hs,hlt,rfl⟩,members,_,last,hmembers,hplaced,
          by simp [maxAlign]⟩

theorem members_unique {elems : List IrTy} {isPacked : Bool} {l l' : List (ℕ × ℕ)}
    (h : elems.Forall₂ (fun elem m => member isPacked elem = some m) l)
    (h' : elems.Forall₂ (fun elem m => member isPacked elem = some m) l') : l = l' := by
  induction h generalizing l' with
  | nil =>
    cases h'
    rfl
  | cons hm _ ih =>
    cases h' with
    | cons hm' hrest => rw [ih hrest,Option.some.inj (hm.symm.trans hm')]

theorem new_eq_some {elems : List IrTy} {isPacked : Bool} {layout : StructLayout} :
    StructLayout.new elems isPacked = some layout ↔ ∃ members offsets last size,
      elems.Forall₂ (fun elem m => member isPacked elem = some m) members ∧
      Placed 0 members offsets last ∧ aligned (maxAlign 1 members) last = some size ∧
      layout = ⟨offsets,size,maxAlign 1 members⟩ := by
  simp only [StructLayout.new,Option.bind_eq_bind,Option.bind_eq_some_iff,placeElems_eq_some,
    Cursor.finish,Option.pure_def,Option.some.injEq]
  constructor
  · rintro ⟨_,⟨members,offsets,last,hmembers,hplaced,rfl⟩,size,hsize,rfl⟩
    exact ⟨members,offsets,last,size,hmembers,hplaced,hsize,rfl⟩
  · rintro ⟨members,offsets,last,size,hmembers,hplaced,hsize,rfl⟩
    exact ⟨_,⟨members,offsets,last,hmembers,hplaced,rfl⟩,size,hsize,rfl⟩

namespace Placed

variable {offset last : ℕ} {members : List (ℕ × ℕ)} {offsets : List ℕ}

theorem length_eq (h : Placed offset members offsets last) : offsets.length = members.length := by
  induction h with
  | nil => rfl
  | cons _ _ _ ih => simp [ih]

theorem le_last (h : Placed offset members offsets last) : offset ≤ last := by
  induction h with
  | nil => exact Nat.le_refl _
  | cons haligned _ _ ih =>
    have := (aligned_bounds haligned).1
    omega

theorem le_offset (h : Placed offset members offsets last) : ∀ o ∈ offsets, offset ≤ o := by
  induction h with
  | nil => simp
  | cons haligned _ _ ih =>
    have hle := (aligned_bounds haligned).1
    intro o ho
    rcases List.mem_cons.mp ho with rfl | ho
    · exact hle
    · have := ih o ho
      omega

theorem bounds (h : Placed offset members offsets last) :
    ∀ x ∈ offsets.zip members, offset ≤ x.1 ∧ x.1 + x.2.1 ≤ last := by
  induction h with
  | nil => simp
  | cons haligned _ hrest ih =>
    have hle := (aligned_bounds haligned).1
    have hlast := hrest.le_last
    intro x hx
    rcases List.mem_cons.mp hx with rfl | hx
    · exact ⟨hle,hlast⟩
    · have := ih x hx
      omega

theorem increasing (h : Placed offset members offsets last) : offsets.Pairwise (·≤·) := by
  induction h with
  | nil => exact .nil
  | cons haligned _ hrest ih =>
    refine List.pairwise_cons.mpr ⟨fun o ho => ?_,ih⟩
    have := hrest.le_offset o ho
    omega

theorem apart (h : Placed offset members offsets last) :
    (offsets.zip members).Pairwise fun x y =>
      Disjoint (Set.Ico x.1 (x.1+x.2.1)) (Set.Ico y.1 (y.1+y.2.1)) := by
  induction h with
  | nil => exact .nil
  | cons haligned _ hrest ih =>
    refine List.pairwise_cons.mpr ⟨fun x hx => ?_,ih⟩
    have hle := (hrest.bounds x hx).1
    apply Set.disjoint_left.mpr
    intro b hb hb'
    have := hb.2
    have := hb'.1
    simp only at *
    omega

/-- Members on multiples of their alignments have their natural places. -/
theorem natural (h : Placed offset members offsets last)
    (hmultiple : ∀ x ∈ offsets.zip members, x.2.2 ∣ x.1) :
    RoundsAll offset members ∧ last = naturalEnd offset members := by
  induction h with
  | nil => exact ⟨trivial,rfl⟩
  | cons haligned hfits hrest ih =>
    obtain ⟨hrounds,rfl⟩ := rounds_of_aligned haligned (hmultiple (_,_,_) (List.mem_cons_self ..))
    obtain ⟨hall,hlast⟩ := ih fun x hx => hmultiple x (by simp [hx])
    exact ⟨⟨hrounds,hfits,hall⟩,hlast⟩

end Placed

theorem RoundsAll.placed {offset : ℕ} {members : List (ℕ × ℕ)} (h : RoundsAll offset members) :
    ∃ offsets, Placed offset members offsets (naturalEnd offset members) ∧
      ∀ x ∈ offsets.zip members, x.2.2 ∣ x.1 := by
  induction members generalizing offset with
  | nil => exact ⟨[],.nil _,by simp⟩
  | cons m members ih =>
    obtain ⟨hrounds,hfits,hrest⟩ := h
    obtain ⟨offsets,hplaced,hmultiple⟩ := ih hrest
    refine ⟨_,.cons hrounds.aligned.1 hfits hplaced,fun x hx => ?_⟩
    rcases List.mem_cons.mp hx with rfl | hx
    · exact hrounds.aligned.2
    · exact hmultiple x hx

theorem laysOut_iff_rounds (elems : List IrTy) (isPacked : Bool) : LaysOut elems isPacked ↔
    ∃ members, elems.Forall₂ (fun elem m => member isPacked elem = some m) members ∧
      RoundsAll 0 members ∧ Rounds (naturalEnd 0 members) (maxAlign 1 members) := by
  constructor
  · rintro ⟨members,layout,hmembers,hnew,hsound⟩
    obtain ⟨members',offsets,last,size,hmembers',hplaced,hsize,rfl⟩ := new_eq_some.mp hnew
    obtain rfl : members' = members := members_unique hmembers' hmembers
    obtain ⟨hall,rfl⟩ := hplaced.natural hsound.multiple
    exact ⟨_,hmembers,hall,(rounds_of_aligned hsize hsound.size_multiple).1⟩
  · rintro ⟨members,hmembers,hall,hend⟩
    obtain ⟨offsets,hplaced,hmultiple⟩ := hall.placed
    refine ⟨members,_,hmembers,new_eq_some.mpr ⟨_,_,_,_,hmembers,hplaced,hend.aligned.1,rfl⟩,?_⟩
    exact {
      length_eq := hplaced.length_eq
      increasing := hplaced.increasing
      apart := hplaced.apart
      inside := fun x hx => (hplaced.bounds x hx).2.trans (le_roundUp _ hend.1)
      multiple := hmultiple
      size_multiple := hend.aligned.2 }

/-! ### Alignments that are powers of two -/

theorem le_naturalEnd (offset : ℕ) {members : List (ℕ × ℕ)} (h : ∀ m ∈ members, m.2 ≠ 0) :
    offset ≤ naturalEnd offset members := by
  induction members generalizing offset with
  | nil => exact Nat.le_refl _
  | cons m members ih =>
    have hround := le_roundUp offset (h m (by simp))
    have hrest := ih (roundUp offset m.2 + m.1) fun m hm => h m (by simp [hm])
    change offset ≤ naturalEnd (roundUp offset m.2 + m.1) members
    omega

theorem roundsAll_of_two_pow {offset bound : ℕ} {members : List (ℕ × ℕ)}
    (hpow : ∀ m ∈ members, ∃ k, m.2 = 2^k) (hbound : ∀ m ∈ members, m.2 ≤ bound)
    (hfits : naturalEnd offset members + bound < 2^64) : RoundsAll offset members := by
  induction members generalizing offset with
  | nil => trivial
  | cons m members ih =>
    have hne : ∀ m ∈ members, m.2 ≠ 0 := by
      intro m hm
      obtain ⟨k,hk⟩ := hpow m (by simp [hm])
      rw [hk]
      exact (Nat.two_pow_pos k).ne'
    obtain ⟨k,hk⟩ := hpow m (by simp)
    have hle := hbound m (by simp)
    have hround := le_roundUp offset (hk ▸ (Nat.two_pow_pos k).ne' : m.2 ≠ 0)
    have hend := le_naturalEnd (roundUp offset m.2 + m.1) hne
    change naturalEnd (roundUp offset m.2 + m.1) members + bound < 2^64 at hfits
    have hsum : offset + m.2 < 2^64 := by omega
    refine ⟨?_,by omega,ih (fun m hm => hpow m (by simp [hm])) (fun m hm => hbound m (by simp [hm]))
      hfits⟩
    rw [hk] at hsum ⊢
    exact rounds_two_pow hsum

theorem le_maxAlign (align : ℕ) (members : List (ℕ × ℕ)) :
    align ≤ maxAlign align members ∧ ∀ m ∈ members, m.2 ≤ maxAlign align members := by
  induction members generalizing align with
  | nil => simp [maxAlign]
  | cons m members ih =>
    obtain ⟨halign,hall⟩ := ih (max align m.2)
    refine ⟨(le_max_left _ _).trans halign,fun m' hm => ?_⟩
    rcases List.mem_cons.mp hm with rfl | hm
    · exact (le_max_right _ _).trans halign
    · exact hall m' hm

theorem maxAlign_two_pow {align : ℕ} {members : List (ℕ × ℕ)} (h : ∃ k, align = 2^k)
    (hpow : ∀ m ∈ members, ∃ k, m.2 = 2^k) : ∃ k, maxAlign align members = 2^k := by
  induction members generalizing align with
  | nil => exact h
  | cons m members ih =>
    refine ih ?_ fun m hm => hpow m (by simp [hm])
    rcases le_total align m.2 with hle | hle
    · rw [max_eq_right hle]
      exact hpow m (by simp)
    · rw [max_eq_left hle]
      exact h

/-- Members whose alignments are powers of two are laid out soundly, while the addresses fit. -/
theorem laysOut_of_two_pow {elems : List IrTy} {isPacked : Bool} {members : List (ℕ × ℕ)}
    (hmembers : elems.Forall₂ (fun elem m => member isPacked elem = some m) members)
    (hpow : ∀ m ∈ members, ∃ k, m.2 = 2^k)
    (hfits : naturalEnd 0 members + maxAlign 1 members < 2^64) : LaysOut elems isPacked := by
  have hone : ∃ k, 1 = 2^k := ⟨0,(Nat.pow_zero 2).symm⟩
  obtain ⟨k,hk⟩ := maxAlign_two_pow hone hpow
  refine (laysOut_iff_rounds elems isPacked).mpr ⟨members,hmembers,?_,?_⟩
  · exact roundsAll_of_two_pow hpow (le_maxAlign 1 members).2 hfits
  · rw [hk] at hfits ⊢
    exact rounds_two_pow hfits

/-- A struct is laid out soundly, when its members have sizes and alignments and the mask moves
every one of them, and the end of the struct, to a multiple. -/
theorem layout_iff (elems : List IrTy) (isPacked : Bool) : LaysOut elems isPacked ↔
    ∃ members, elems.Forall₂ (fun elem m => member isPacked elem = some m) members ∧
      RoundsAll 0 members ∧ Rounds (naturalEnd 0 members) (maxAlign 1 members) :=
  laysOut_iff_rounds elems isPacked

/-- `{ i8, [2 x { i32, i32, i32 }] }`: the array has alignment twelve, and is put at four. -/
theorem structArray_misplaced :
    ¬ LaysOut [.i8,.array (.struct [.i32,.i32,.i32] false) 2] false := by
  rintro ⟨members,layout,hmembers,hnew,hsound⟩
  obtain rfl : members = [(1,1),(24,12)] :=
    members_unique hmembers (.cons (by decide) (.cons (by decide) .nil))
  obtain rfl : layout = ⟨[0,4],36,12⟩ := Option.some.inj (hnew.symm.trans (by decide))
  have hdvd : 12 ∣ 4 := hsound.multiple (4,24,12) (by decide)
  exact absurd hdvd (by decide)

end DataLayout
end Codegen
end OlaLang
