import OlaLang.SlotElimination

/-! The cells that `getelementptr` addresses: folded into a store, folded into a load, and as a
pointer of its own. -/
namespace OlaLang
namespace Codegen
namespace PointerAddress

open FramePointer SlotElimination

/-! ### Lowering -/

/-- The base pointer: an alloca with its slot, or the register of another instruction or of an
argument. -/
inductive Base
  | slot (id : SlotId) | inst (v : VReg) | argument (v : VReg)

inductive Index
  | int32 (i : ℤ) | int64 (i : ℤ) | reg (v : VReg)

/-- The type the parser gives an index: it reads `i64` as `I32`, too. -/
def Index.ty : Index → IrType := fun _ => .i32

/-- `is_i64`. -/
def IrType.isI64 : IrType → Bool
  | .i64 => true
  | _ => false

structure Gep where
  baseTy : IrType
  base : Base
  indices : List Index

/-- The memory operand with the slot or the register of the base. -/
def Base.mem (base : Base) (imm index scale : OperandData) : Mem := match base with
  | .slot id => ⟨.none,.slot id,imm,.none,index,scale⟩
  | .inst v | .argument v => ⟨.none,.none,imm,.vreg v,index,scale⟩

def int32 (i : ℤ) : OperandData := .int32 (.ofInt 32 i)

/-- `lower_store_gep`. -/
def storeGep (g : Gep) : Option Mem := match g.base, g.indices with
  | .argument a, [.reg x] => some ((Base.argument a).mem (int32 0) (.vreg x) .none)
  | .argument _, _ => none
  | base, [.int64 idx0,.int64 idx1] =>
    let offset := idx0 * g.baseTy.getSizeOf - (idx1 * (Index.int64 idx1).ty.getSizeOf).tdiv 4
    match base with
    | .slot _ => some (base.mem (int32 offset) .none .none)
    | _ => some (base.mem (int32 (-offset)) .none .none)
  | base, [.int64 idx0] =>
    let offset := (-idx0 * g.baseTy.getSizeOf).tdiv 4
    match base with
    | .slot _ => some (base.mem (int32 offset) .none .none)
    | _ => some (base.mem (int32 (-offset)) .none .none)
  | base, [.reg x] => some (base.mem .none (.vreg x) .none)
  | .slot slot, [.int32 idx0,.int32 idx1] => do
    let elem ← g.baseTy.element
    let offset := idx0 * g.baseTy.getSizeOf + idx1 * elem.getSizeOf
    pure ((Base.slot slot).mem (int32 (-offset)) .none .none)
  | base, [.int64 idx0,.reg x] => do
    let offset := idx0 * g.baseTy.getSizeOf
    -- `assert!(idx1_ty.is_i64())`, which no parsed index passes
    if IrType.isI64 (Index.reg x).ty then
      let elem ← g.baseTy.element
      if elem.getSizeOf = 4 then
        some (base.mem (int32 (-offset)) (.vreg x) (int32 elem.getSizeOf))
      else none
    else none
  | _, _ => none

/-- `lower_load_gep`. -/
def loadGep (g : Gep) : Option Mem := match g.base, g.indices with
  | .argument a, [.int64 idx0] => some ((Base.argument a).mem (int32 idx0) .none .none)
  | .argument a, [.reg x] => some ((Base.argument a).mem (int32 0) (.vreg x) .none)
  | .argument a, [.int64 idx0,.int64 idx1] =>
    let offset := idx0 * g.baseTy.getSizeOf + idx1 * (Index.int64 idx1).ty.getSizeOf
    some ((Base.argument a).mem (int32 offset) .none .none)
  | .argument _, _ => none
  | base, [.int64 idx0] =>
    some (base.mem (int32 ((idx0 * g.baseTy.getSizeOf).tdiv 4)) .none .none)
  | base, [.int64 idx0,.int64 idx1] =>
    let offset := idx0 * g.baseTy.getSizeOf + idx1 * (Index.int64 idx1).ty.getSizeOf
    -- the offset becomes an `i32` before it is divided
    some (base.mem (int32 ((BitVec.ofInt 32 offset).toInt.tdiv 4)) .none .none)
  | .slot slot, [.int32 idx0,.int32 idx1] => do
    let elem ← g.baseTy.element
    let offset := idx0 * g.baseTy.getSizeOf + idx1 * elem.getSizeOf
    pure ((Base.slot slot).mem (int32 (-offset)) .none .none)
  | base, [.int64 idx0,.reg x] => do
    let offset := idx0 * g.baseTy.getSizeOf
    let elem ← g.baseTy.element
    if elem.getSizeOf ∈ [1,2,4,8] then some (base.mem (int32 (-offset)) (.vreg x) .none)
    else none
  | base, [.reg x] => some (base.mem (int32 0) (.vreg x) .none)
  | _, _ => none

/-- The scaled indices. The type of the walk stays that of the base pointer. -/
def gepTerms : List Index → List (ℤ × OperandData)
  | [] => []
  | .int32 i::rest | .int64 i::rest =>
    if i ≠ 0 then (1,.int64 (.ofInt 64 ((IrType.pointer .i64).getSizeOf * i)))::gepTerms rest
    else gepTerms rest
  | .reg x::rest => ((IrType.pointer .i64).getSizeOf,.vreg x)::gepTerms rest

/-- The operand that is added to the base. The sums that are emitted for more than one term are
additions without a third operand, at which the next pass stops. -/
def gepImm : List (ℤ × OperandData) → Option OperandData
  | [] => some (.int32 0)
  | [(_,.int64 imm)] => some (.int64 (imm.sdiv 4))
  | [(mul,x)] => if mul ∈ [1,2,4,8] then some x else none
  | _ => none

/-- The base register; a slot is not an operand of the addition. -/
def Base.operand : Base → OperandData
  | .slot _ => .none
  | .inst v | .argument v => .vreg v

/-- `lower_gep`. -/
def lowerGep (output : VReg) (g : Gep) : Option InstructionData := do
  let imm ← gepImm (gepTerms g.indices)
  pure ⟨.ADDrr,[.asOutput (.vreg output),.asInput g.base.operand,.asInput imm]⟩

/-! ### Cells -/

/-- The sum an addition leaves in its output. -/
def addValue (r : Regs) (inst : InstructionData) : Option Felt := match inst.operands with
  | [_,a,c] => do
    let x ← r.value a.data
    let y ← c.data.immediate? <|> r.value c.data
    pure (x + y)
  | _ => none

/-- The pointer that a `getelementptr` of its own computes. -/
def gepValue (r : Regs) (g : Gep) : Option Felt := do
  let inst ← lowerGep 0 g
  addValue r inst

/-- The cell a memory operand addresses once the slots are gone. -/
def addressOf (f : Function) (r : Regs) (m : Mem) : Option Felt :=
  if isSlot m.slot then do
    let m ← rewriteMem (frameOffsets f) (hasCall f) m
    m.address r
  else m.address r

inductive Access
  | store | load | pointer   -- the last through a pointer that was computed on its own

def Access.cell (f : Function) (r : Regs) (g : Gep) : Access → Option Felt
  | .store => do
    let m ← storeGep g
    addressOf f r m
  | .load => do
    let m ← loadGep g
    addressOf f r m
  | .pointer => gepValue r g

/-! ### Chains -/

inductive Kind
  | int32 | int64 | reg
  deriving DecidableEq

/-- A `getelementptr` up to the values of its indices: the base pointer points at `count` values of
the base type. -/
structure Level where
  baseTy : IrType
  count : ℕ
  kinds : List Kind

/-- An index that its kind can hold: the bytes up to it are an `i64`. -/
def Kind.Holds (x : ℕ) : Kind → Prop
  | .int32 => x < 2^31
  | .int64 => 4*x < 2^63
  | .reg => x < FIELD_ORDER

/-- The indices after the first stay inside the values they select from. -/
def InType : IrType → List ℕ → Prop
  | _, [] => True
  | .array inner n, x::xs => x < n ∧ InType inner xs
  | .struct elems _, x::xs => ∃ elem, elems[x]? = some elem ∧ InType elem xs
  | _, _::_ => False

/-- Index lists in range. -/
def InRange (l : Level) (xs : List ℕ) : Prop :=
  List.Forall₂ (fun kind x => kind.Holds x) l.kinds xs ∧
    ∃ x rest, xs = x::rest ∧ x < l.count ∧ InType l.baseTy rest

/-- The register of an index is the one behind those of the base and of the earlier indices. -/
def index (i x : ℕ) : Kind → Index
  | .int32 => .int32 x
  | .int64 => .int64 x
  | .reg => .reg (i + 1)

def indices : List Kind → List ℕ → ℕ → List Index
  | kind::kinds, x::xs, i => index i x kind::indices kinds xs (i + 1)
  | _, _, _ => []

/-- Where a chain starts. -/
inductive Origin
  | slot (id : SlotId) | inst | argument

def Origin.base : Origin → Base
  | .slot id => .slot id
  | .inst => .inst 0
  | .argument => .argument 0

def Level.gep (l : Level) (o : Origin) (xs : List ℕ) : Gep := ⟨l.baseTy,o.base,indices l.kinds xs 0⟩

/-- The registers of a level: the base pointer, then the indices. -/
def regsOf (fp b : Felt) (xs : List ℕ) : Regs :=
  ⟨fun _ => fp,fun v => if v = 0 then b else (xs.getD (v-1) 0 : ℕ)⟩

/-- The pointer at the end of some levels, each computed on its own. -/
def pointerOf (fp : Felt) : Origin → Felt → List Level → List (List ℕ) → Option (Origin × Felt)
  | o, b, [], [] => some (o,b)
  | o, b, l::rest, xs::xss => do
    let v ← gepValue (regsOf fp b xs) (l.gep o xs)
    pointerOf fp .inst v rest xss
  | _, _, _, _ => none

/-- The cell that an access through a chain addresses. -/
def cellOf (f : Function) (access : Access) (fp : Felt) (o : Origin) (b : Felt) (pre : List Level)
    (last : Level) (xss : List (List ℕ)) (xs : List ℕ) : Option Felt := do
  let (o,b) ← pointerOf fp o b pre xss
  access.cell f (regsOf fp b xs) (last.gep o xs)

/-- In range, all accesses with the same indices address one cell, and no others address it. -/
def Agrees (f : Function) (o : Origin) (pre : List Level) (last : Level) : Prop :=
  ∀ fp b xss xs, List.Forall₂ InRange pre xss → InRange last xs → ∃ c,
    (∀ access, cellOf f access fp o b pre last xss xs = some c) ∧
    ∀ yss ys, List.Forall₂ InRange pre yss → InRange last ys →
      ∀ access, cellOf f access fp o b pre last yss ys = some c → yss = xss ∧ ys = xs

/-! ### The condition -/

/-- At most one index is in a register or is not zero. -/
def Single (kinds : List Kind) (xs : List ℕ) : Prop :=
  ((kinds.zip xs).filter fun (kind,x) => kind = .reg ∨ x ≠ 0).length ≤ 1

/-- The last level: an index in a register; a constant one that is itself as an `i32` when it is
scaled to cells; or a constant one behind a zero. -/
def Folds (o : Origin) (l : Level) (xs : List ℕ) : Prop := match o, l.kinds, xs with
  | _, [.reg], _ => True
  | .inst, [.int64], [x] => (BitVec.ofInt 32 ((x * l.baseTy.getSizeOf / 4 : ℕ) : ℤ)).toInt = x
  | .inst, [.int64,.int64], [x,y] => x = 0 ∧ y < 2^29
  | _, _, _ => False

def sum (xss : List (List ℕ)) (xs : List ℕ) : ℕ := (xss.map List.sum).sum + xs.sum

/-- The origin of the last level: the pointer the other levels compute, if there are any. -/
def lastOrigin (o : Origin) (pre : List Level) : Origin := if pre = [] then o else .inst

/-- The base is a register, every level can be computed, and the indices in range differ in their
sum. -/
structure Plain (o : Origin) (pre : List Level) (last : Level) : Prop where
  register : ∀ id, o ≠ .slot id
  single : ∀ xss, List.Forall₂ InRange pre xss → List.Forall₂ (fun l xs => Single l.kinds xs) pre xss
  folds : ∀ xs, InRange last xs → Folds (lastOrigin o pre) last xs
  separate : ∀ xss xs yss ys, List.Forall₂ InRange pre xss → InRange last xs →
    List.Forall₂ InRange pre yss → InRange last ys →
    ((sum xss xs : ℕ) : Felt) = ((sum yss ys : ℕ) : Felt) → yss = xss ∧ ys = xs

/-! ### Pointers -/

def operandValue (r : Regs) (x : OperandData) : Option Felt := x.immediate? <|> r.value x

theorem sdiv_four {x : ℕ} (h : 4*x < 2^63) :
    ((BitVec.ofInt 64 ((4 : ℕ) * (x : ℤ))).sdiv 4).toNat = x := by
  have hcast : BitVec.ofInt 64 ((4 : ℕ) * (x : ℤ)) = BitVec.ofNat 64 (4*x) := by
    rw [← BitVec.ofInt_natCast]
    norm_num
  have hmsb : (BitVec.ofNat 64 (4*x)).msb = false := by
    rw [BitVec.msb_eq_false_iff_two_mul_lt,BitVec.toNat_ofNat]
    omega
  have hfour : (4 : BitVec 64).msb = false := by decide
  have hnat : (4 : BitVec 64).toNat = 4 := by decide
  rw [hcast,BitVec.sdiv_eq,hmsb,hfour]
  simp only [BitVec.udiv_eq,BitVec.toNat_udiv,BitVec.toNat_ofNat,hnat]
  omega

/-- The terms are the sum of the indices, if there is not more than one. -/
theorem gepTerms_value {kinds : List Kind} {xs : List ℕ}
    (h : List.Forall₂ (fun kind x => kind.Holds x) kinds xs) (r : Regs) (i : ℕ)
    (hr : ∀ k, r.vreg (i + k + 1) = ((xs.getD k 0 : ℕ) : Felt)) :
    (gepTerms (indices kinds xs i)).length =
        ((kinds.zip xs).filter fun (kind,x) => kind = .reg ∨ x ≠ 0).length ∧
      ((gepTerms (indices kinds xs i)).length = 0 → xs.sum = 0) ∧
      ((gepTerms (indices kinds xs i)).length ≤ 1 → ∃ imm,
        gepImm (gepTerms (indices kinds xs i)) = some imm ∧
          operandValue r imm = some ((xs.sum : ℕ) : Felt)) := by
  induction h generalizing i with
  | nil => exact ⟨rfl,fun _ => rfl,fun _ => ⟨_,rfl,by simp [operandValue,OperandData.immediate?]⟩⟩
  | @cons kind x kinds xs hkind hrest ih =>
    have hsucc : ∀ k, r.vreg (i + 1 + k + 1) = ((xs.getD k 0 : ℕ) : Felt) := fun k => by
      have := hr (k + 1)
      rwa [List.getD_cons_succ,show i + (k + 1) + 1 = i + 1 + k + 1 by omega] at this
    obtain ⟨hlen,hzero,himm⟩ := ih (i + 1) hsucc
    by_cases hterm : kind = .reg ∨ x ≠ 0
    · -- this index is a term, so no other one is
      have hterms : ∃ m y, gepTerms (indices (kind::kinds) (x::xs) i) =
          (m,y)::gepTerms (indices kinds xs (i + 1)) ∧
            ∃ imm, gepImm [(m,y)] = some imm ∧ operandValue r imm = some ((x : ℕ) : Felt) := by
        have hconst : 4*x < 2^63 → gepImm [(1,.int64 (.ofInt 64 ((4 : ℕ) * (x : ℤ))))] =
            some (.int64 ((BitVec.ofInt 64 ((4 : ℕ) * (x : ℤ))).sdiv 4)) ∧
              operandValue r (.int64 ((BitVec.ofInt 64 ((4 : ℕ) * (x : ℤ))).sdiv 4)) =
                some ((x : ℕ) : Felt) := fun hx => by
          refine ⟨rfl,?_⟩
          show some (((BitVec.ofInt 64 ((4 : ℕ) * (x : ℤ))).sdiv 4).toNat : Felt) = _
          rw [sdiv_four hx]
        cases kind with
        | reg =>
          refine ⟨4,.vreg (i + 1),rfl,.vreg (i + 1),rfl,?_⟩
          have hx := hr 0
          exact congrArg some hx
        | int32 =>
          have hx : (x : ℤ) ≠ 0 := by simpa using hterm
          have hlt : x < 2^31 := hkind
          exact ⟨1,_,if_pos hx,_,hconst (by omega)⟩
        | int64 =>
          have hx : (x : ℤ) ≠ 0 := by simpa using hterm
          exact ⟨1,_,if_pos hx,_,hconst hkind⟩
      rcases hterms with ⟨m,y,hcons,imm,hgep,hvalue⟩
      rw [hcons,List.length_cons]
      refine ⟨by simp [hterm,hlen],by simp,fun hle => ?_⟩
      have hnil : gepTerms (indices kinds xs (i + 1)) = [] := List.length_eq_zero_iff.mp (by omega)
      rw [hnil,List.sum_cons,hzero (by omega)]
      exact ⟨imm,hgep,hvalue⟩
    · have hx : x = 0 := by tauto
      have hterms : gepTerms (indices (kind::kinds) (x::xs) i) =
          gepTerms (indices kinds xs (i + 1)) := by
        cases kind with
        | reg => exact absurd (Or.inl rfl) hterm
        | int32 => simp [indices,index,gepTerms,hx]
        | int64 => simp [indices,index,gepTerms,hx]
      have hreg : kind ≠ .reg := fun heq => hterm (Or.inl heq)
      rw [hterms,List.sum_cons,hx,Nat.zero_add]
      exact ⟨by simpa [hreg] using hlen,hzero,himm⟩

theorem gepImm_two {terms : List (ℤ × OperandData)} (h : ¬ terms.length ≤ 1) :
    gepImm terms = none := by
  match terms with
  | [] => simp at h
  | [_] => simp at h
  | (_,x)::_::_ => cases x <;> rfl

theorem regsOf_vreg (fp b : Felt) (xs : List ℕ) (k : ℕ) :
    (regsOf fp b xs).vreg (0 + k + 1) = ((xs.getD k 0 : ℕ) : Felt) := by
  rw [Nat.zero_add]
  rfl

/-- The pointer that one level computes: the base, a register, and the sum of the indices. -/
theorem gepValue_eq_some {l : Level} {o : Origin} {xs : List ℕ} {fp b v : Felt}
    (h : List.Forall₂ (fun kind x => kind.Holds x) l.kinds xs) :
    gepValue (regsOf fp b xs) (l.gep o xs) = some v ↔
      (∀ id, o ≠ .slot id) ∧ Single l.kinds xs ∧ v = b + ((xs.sum : ℕ) : Felt) := by
  obtain ⟨hlen,_,himm⟩ := gepTerms_value h (regsOf fp b xs) 0 (regsOf_vreg fp b xs)
  unfold Single
  rw [← hlen]
  by_cases hle : (gepTerms (indices l.kinds xs 0)).length ≤ 1
  · rcases himm hle with ⟨imm,hgep,hvalue⟩
    have hrun : gepValue (regsOf fp b xs) (l.gep o xs) = (do
        let x ← (regsOf fp b xs).value o.base.operand
        let y ← operandValue (regsOf fp b xs) imm
        pure (x + y)) := by
      simp only [gepValue,lowerGep,Level.gep,hgep]
      rfl
    rw [hrun,hvalue]
    cases o with
    | slot id => simp [Origin.base,Base.operand,Regs.value]
    | inst => simp [Origin.base,Base.operand,Regs.value,regsOf,hle,eq_comm]
    | argument => simp [Origin.base,Base.operand,Regs.value,regsOf,hle,eq_comm]
  · have hnone : gepValue (regsOf fp b xs) (l.gep o xs) = none := by
      simp only [gepValue,lowerGep,Level.gep,gepImm_two hle]
      rfl
    rw [hnone]
    simp [hle]

/-- The chain up to its last level: every level is computed, the base is a register, and the pointer
is its sum with the indices. -/
theorem pointerOf_eq_some {pre : List Level} {xss : List (List ℕ)}
    (h : List.Forall₂ InRange pre xss) {o o' : Origin} {fp b v : Felt} :
    pointerOf fp o b pre xss = some (o',v) ↔
      (pre ≠ [] → ∀ id, o ≠ .slot id) ∧ List.Forall₂ (fun l xs => Single l.kinds xs) pre xss ∧
        o' = (if pre = [] then o else .inst) ∧ v = b + (((xss.map List.sum).sum : ℕ) : Felt) := by
  induction h generalizing o b with
  | nil => simp [pointerOf,eq_comm]
  | @cons l xs pre xss hl hrest ih =>
    constructor
    · intro hrun
      rcases Option.bind_eq_some_iff.mp hrun with ⟨w,hw,hrest'⟩
      rcases (gepValue_eq_some hl.1).mp hw with ⟨hslot,hsingle,rfl⟩
      rcases ih.mp hrest' with ⟨_,hsingles,rfl,rfl⟩
      refine ⟨fun _ => hslot,.cons hsingle hsingles,by simp,?_⟩
      rw [List.map_cons,List.sum_cons,Nat.cast_add,add_assoc]
    · rintro ⟨hslot,hsingles,rfl,rfl⟩
      cases hsingles with
      | cons hsingle hsingles =>
        have hw : gepValue (regsOf fp b xs) (l.gep o xs) = some (b + ((xs.sum : ℕ) : Felt)) :=
          (gepValue_eq_some hl.1).mpr ⟨hslot (by simp),hsingle,rfl⟩
        refine Option.bind_eq_some_iff.mpr ⟨_,hw,ih.mpr ⟨by simp,hsingles,by simp,?_⟩⟩
        rw [List.map_cons,List.sum_cons,Nat.cast_add,add_assoc]

/-! ### The last level -/

variable {f : Function} {fp b c : Felt} {ty : IrType} {count : ℕ}

/-- The cell behind a base register and a displacement. -/
theorem address_imm (f : Function) (fp b : Felt) (xs : List ℕ) (imm : ℤ) :
    addressOf f (regsOf fp b xs) (Origin.inst.base.mem (int32 imm) .none .none) =
      some (b + ((BitVec.ofInt 32 imm).toInt : Felt)) := rfl

theorem cell_int64 (f : Function) (fp b : Felt) (ty : IrType) (count x : ℕ) (access : Access)
    (h : access ≠ .pointer) :
    access.cell f (regsOf fp b [x]) ((⟨ty,count,[.int64]⟩ : Level).gep .inst [x]) =
      some (b + ((BitVec.ofInt 32 ((x * ty.getSizeOf / 4 : ℕ) : ℤ)).toInt : Felt)) := by
  have hload : ((x : ℤ) * ty.getSizeOf).tdiv 4 = (x * ty.getSizeOf / 4 : ℕ) := by
    rw [← Nat.cast_mul]
    exact (Int.natCast_div _ 4).symm
  have hstore : -(-(x : ℤ) * ty.getSizeOf).tdiv 4 = (x * ty.getSizeOf / 4 : ℕ) := by
    rw [neg_mul,Int.neg_tdiv,neg_neg,hload]
  cases access with
  | store =>
    show addressOf f _ (Origin.inst.base.mem (int32 (-(-(x : ℤ) * ty.getSizeOf).tdiv 4)) .none .none) = _
    rw [hstore,address_imm]
  | load =>
    show addressOf f _ (Origin.inst.base.mem (int32 (((x : ℤ) * ty.getSizeOf).tdiv 4)) .none .none) = _
    rw [hload,address_imm]
  | pointer => exact absurd rfl h

theorem cell_store_int64_int64 (f : Function) (fp b : Felt) (ty : IrType) (count x y : ℕ) :
    Access.store.cell f (regsOf fp b [x,y]) ((⟨ty,count,[.int64,.int64]⟩ : Level).gep .inst [x,y]) =
      some (b + ((BitVec.ofInt 32 ((y : ℤ) - x * ty.getSizeOf)).toInt : Felt)) := by
  have hword : (((y : ℤ) * (Index.int64 y).ty.getSizeOf).tdiv 4) = y :=
    Int.mul_tdiv_cancel (y : ℤ) (by decide : (4 : ℤ) ≠ 0)
  show addressOf f _ (Origin.inst.base.mem (int32 (-((x : ℤ) * ty.getSizeOf -
    ((y : ℤ) * (Index.int64 y).ty.getSizeOf).tdiv 4))) .none .none) = _
  rw [hword,neg_sub,address_imm]

theorem cell_load_int64_int64 (f : Function) (fp b : Felt) (ty : IrType) (count x y : ℕ) :
    Access.load.cell f (regsOf fp b [x,y]) ((⟨ty,count,[.int64,.int64]⟩ : Level).gep .inst [x,y]) =
      some (b + ((BitVec.ofInt 32 ((BitVec.ofInt 32 ((x : ℤ) * ty.getSizeOf + y * 4)).toInt.tdiv 4)).toInt
        : Felt)) :=
  address_imm f fp b [x,y] _

/-- A store through a constant and a register does not get through the assertion on the type of the
second index. -/
theorem cell_store_int64_reg (f : Function) (fp b : Felt) (ty : IrType) (count x y : ℕ) {o : Origin} :
    Access.store.cell f (regsOf fp b [x,y]) ((⟨ty,count,[.int64,.reg]⟩ : Level).gep o [x,y]) = none := by
  cases o <;> rfl

theorem cell_reg (f : Function) (fp b : Felt) (ty : IrType) (count x : ℕ) {o : Origin}
    (ho : ∀ id, o ≠ .slot id) (access : Access) (h : access ≠ .pointer) :
    access.cell f (regsOf fp b [x]) ((⟨ty,count,[.reg]⟩ : Level).gep o [x]) =
      some (b + (x : Felt)) := by
  have hzero : some (b + (x : Felt) + ((BitVec.ofInt 32 0).toInt : Felt)) = some (b + (x : Felt)) := by
    simp
  cases o with
  | slot id => exact absurd rfl (ho id)
  | inst =>
    cases access with
    | pointer => exact absurd rfl h
    | store => rfl
    | load => exact hzero
  | argument =>
    cases access with
    | pointer => exact absurd rfl h
    | store => exact hzero
    | load => exact hzero

theorem eq_of_cells {b : Felt} {v : BitVec 32} {n : ℕ} (hn : n < 2^62)
    (h : some (b + (v.toInt : Felt)) = some (b + (n : Felt))) : v.toInt = n := by
  have hlo := BitVec.le_toInt v
  have hhi := BitVec.toInt_lt (x := v)
  refine intCast_injective b ⟨by omega,by omega⟩ ⟨by omega,by omega⟩ ?_
  rw [Int.cast_natCast]
  exact Option.some.inj h

/-- The store and the load scale two constants differently, unless the first is zero. -/
theorem pair_folds {x y size : ℕ} (hzero : x = 0 ∨ y = 0)
    (hstore : (BitVec.ofInt 32 ((y : ℤ) - x * size)).toInt = ((x + y : ℕ) : ℤ))
    (hload : (BitVec.ofInt 32 ((BitVec.ofInt 32 ((x : ℤ) * size + y * 4)).toInt.tdiv 4)).toInt =
      ((x + y : ℕ) : ℤ)) : x = 0 ∧ y < 2^29 := by
  have hlo := BitVec.le_toInt (BitVec.ofInt 32 ((x : ℤ) * size + y * 4))
  have hhi := BitVec.toInt_lt (x := BitVec.ofInt 32 ((x : ℤ) * size + y * 4))
  have hdiv : ∀ u : ℤ, -2^31 ≤ u → u < 2^31 → -2^31 ≤ u.tdiv 4 ∧ u.tdiv 4 < 2^31 ∧
      (0 ≤ u → u.tdiv 4 = u / 4) ∧ (u ≤ 0 → u.tdiv 4 = -((-u) / 4)) := by
    intro u hu hu'
    by_cases hsign : 0 ≤ u
    · rw [Int.tdiv_eq_ediv_of_nonneg hsign]
      omega
    · rw [tdiv_four_of_nonpos (by omega)]
      omega
  obtain ⟨hdlo,hdhi,hpos,hneg⟩ := hdiv _ hlo hhi
  rw [toInt_ofInt hdlo hdhi (by omega)] at hload
  rcases hzero with rfl | rfl
  · exact ⟨rfl,by omega⟩
  · generalize (x : ℤ) * size = t at *
    generalize hu : (BitVec.ofInt 32 (t + (0 : ℕ) * 4)).toInt = u at *
    rw [BitVec.toInt_ofInt,Int.bmod_def] at hstore hu
    split at hstore <;> split at hu <;> omega

/-- The cells of the last level are one exactly when it folds. -/
theorem cells_iff {l : Level} {o : Origin} {xs : List ℕ} (h : InRange l xs) :
    (∀ access : Access, access.cell f (regsOf fp b xs) (l.gep o xs) = some c) ↔
      (∀ id, o ≠ .slot id) ∧ Folds o l xs ∧ c = b + ((xs.sum : ℕ) : Felt) := by
  obtain ⟨ty,count,kinds⟩ := l
  obtain ⟨hholds,x,rest,rfl,hrange⟩ := h
  constructor
  · intro hcells
    obtain ⟨hslot,hsingle,rfl⟩ := (gepValue_eq_some hholds).mp (hcells .pointer)
    refine ⟨hslot,?_,rfl⟩
    have hstore := hcells .store
    have hload := hcells .load
    cases o with
    | slot id => exact absurd rfl (hslot id)
    | argument =>
      cases hholds with
      | @cons kind _ kinds _ hx hrest =>
        cases hrest with
        | nil => cases kind with
          | reg => trivial
          | int32 => exact (Option.some_ne_none _ hstore.symm).elim
          | int64 => exact (Option.some_ne_none _ hstore.symm).elim
        | cons hy hrest => cases kind <;> exact (Option.some_ne_none _ hstore.symm).elim
    | inst =>
      cases hholds with
      | @cons kind _ kinds _ hx hrest =>
        cases hrest with
        | nil => cases kind with
          | reg => trivial
          | int32 => exact (Option.some_ne_none _ hstore.symm).elim
          | int64 =>
            rw [cell_int64 f fp b ty count x .store (by simp),List.sum_singleton] at hstore
            have hlt : 4*x < 2^63 := hx
            exact eq_of_cells (by omega) hstore
        | @cons kind' y kinds _ hy hrest => cases hrest with
          | nil =>
            cases kind with
            | reg => cases kind' <;> exact (Option.some_ne_none _ hstore.symm).elim
            | int32 => cases kind' <;> exact (Option.some_ne_none _ hstore.symm).elim
            | int64 => cases kind' with
              | int32 => exact (Option.some_ne_none _ hstore.symm).elim
              | reg =>
                rw [cell_store_int64_reg] at hstore
                cases hstore
              | int64 =>
                rw [cell_store_int64_int64] at hstore
                rw [cell_load_int64_int64] at hload
                have hxlt : 4*x < 2^63 := hx
                have hylt : 4*y < 2^63 := hy
                have hsum : [x,y].sum = x + y := by simp
                rw [hsum] at hstore hload
                have hzero : x = 0 ∨ y = 0 := by
                  by_contra hne
                  simp [Single,not_or.mp hne] at hsingle
                have hs := eq_of_cells (by omega) hstore
                have hl := eq_of_cells (by omega) hload
                exact pair_folds hzero hs hl
          | cons hz hrest =>
            cases kind <;> cases kind' <;> exact (Option.some_ne_none _ hstore.symm).elim
  · rintro ⟨hslot,hfolds,rfl⟩ access
    have hpointer : Single kinds (x::rest) → Access.pointer.cell f (regsOf fp b (x::rest))
        ((⟨ty,count,kinds⟩ : Level).gep o (x::rest)) = some (b + (((x::rest).sum : ℕ) : Felt)) :=
      fun hsingle => (gepValue_eq_some hholds).mpr ⟨hslot,hsingle,rfl⟩
    have hsingle_one : ∀ kind (x : ℕ), Single [kind] [x] := fun kind x =>
      (List.length_filter_le _ _).trans (by simp)
    unfold Folds at hfolds
    split at hfolds
    · rename_i hkinds
      obtain rfl : kinds = [.reg] := hkinds
      cases hholds with
      | cons hx hrest =>
        cases hrest
        by_cases hp : access = .pointer
        · subst hp
          exact hpointer (hsingle_one _ _)
        · rw [cell_reg f fp b ty count x hslot access hp,List.sum_singleton]
    · rename_i hkinds hxs
      obtain rfl : kinds = [.int64] := hkinds
      cases hxs
      by_cases hp : access = .pointer
      · subst hp
        exact hpointer (hsingle_one _ _)
      · rw [cell_int64 f fp b ty count x access hp,hfolds,List.sum_singleton,Int.cast_natCast]
    · rename_i y hkinds hxs
      obtain rfl : kinds = [.int64,.int64] := hkinds
      cases hxs
      obtain ⟨rfl,hy⟩ := hfolds
      have hsum : [0,y].sum = y := by simp
      cases access with
      | pointer =>
        refine hpointer ?_
        simpa [Single] using List.length_filter_le (fun p : Kind × ℕ => p.1 = .reg ∨ p.2 ≠ 0)
          [(Kind.int64,y)]
      | store =>
        rw [cell_store_int64_int64,hsum,Nat.cast_zero,zero_mul,sub_zero,
          toInt_ofInt (by omega) (by omega) (by omega),Int.cast_natCast]
      | load =>
        have hdiv : ((y : ℤ) * 4).tdiv 4 = y := Int.mul_tdiv_cancel (y : ℤ) (by decide : (4 : ℤ) ≠ 0)
        rw [cell_load_int64_int64,hsum,Nat.cast_zero,zero_mul,zero_add,
          toInt_ofInt (w := 32) (x := (y : ℤ) * 4) (by omega) (by omega) (by omega),hdiv,
          toInt_ofInt (by omega) (by omega) (by omega),Int.cast_natCast]
    · exact hfolds.elim

/-! ### Agreement -/

theorem cellOf_iff {pre : List Level} {last : Level} {o : Origin} {xss : List (List ℕ)} {xs : List ℕ}
    (hpre : List.Forall₂ InRange pre xss) (hlast : InRange last xs) :
    (∀ access, cellOf f access fp o b pre last xss xs = some c) ↔
      (∀ id, o ≠ .slot id) ∧ List.Forall₂ (fun l xs => Single l.kinds xs) pre xss ∧
        Folds (lastOrigin o pre) last xs ∧ c = b + ((sum xss xs : ℕ) : Felt) := by
  have hsum : ∀ b : Felt, b + (((xss.map List.sum).sum : ℕ) : Felt) + ((xs.sum : ℕ) : Felt) =
      b + ((sum xss xs : ℕ) : Felt) := fun b => by rw [sum,Nat.cast_add,add_assoc]
  constructor
  · intro hcells
    rcases Option.bind_eq_some_iff.mp (hcells .pointer) with ⟨⟨o',b'⟩,hrun,_⟩
    have hlastCells : ∀ access : Access,
        access.cell f (regsOf fp b' xs) (last.gep o' xs) = some c := fun access => by
      have := hcells access
      rw [cellOf,hrun] at this
      exact this
    obtain ⟨hslots,hsingle,rfl,rfl⟩ := (pointerOf_eq_some hpre).mp hrun
    obtain ⟨hslot,hfolds,rfl⟩ := (cells_iff hlast).mp hlastCells
    refine ⟨fun id => ?_,hsingle,hfolds,hsum b⟩
    by_cases hnil : pre = []
    · simpa [hnil] using hslot id
    · exact hslots hnil id
  · rintro ⟨hslot,hsingle,hfolds,rfl⟩ access
    have hrun : pointerOf fp o b pre xss =
        some (lastOrigin o pre,b + (((xss.map List.sum).sum : ℕ) : Felt)) :=
      (pointerOf_eq_some hpre).mpr ⟨fun _ => hslot,hsingle,rfl,rfl⟩
    have horigin : ∀ id, lastOrigin o pre ≠ .slot id := by
      intro id
      unfold lastOrigin
      split
      · exact hslot id
      · simp
    rw [cellOf,hrun]
    exact (cells_iff hlast).mpr ⟨horigin,hfolds,(hsum b).symm⟩ access

theorem Agrees.plain {o : Origin} {pre : List Level} {last : Level} (h : Agrees f o pre last)
    {xss : List (List ℕ)} {xs : List ℕ} (hpre : List.Forall₂ InRange pre xss)
    (hlast : InRange last xs) : Plain o pre last := by
  have hcells : ∀ xss xs, List.Forall₂ InRange pre xss → InRange last xs →
      (∀ id, o ≠ .slot id) ∧ List.Forall₂ (fun l xs => Single l.kinds xs) pre xss ∧
        Folds (lastOrigin o pre) last xs := fun xss xs hpre hlast => by
    rcases h 0 0 xss xs hpre hlast with ⟨c,hc,_⟩
    obtain ⟨hslot,hsingle,hfolds,_⟩ := (cellOf_iff hpre hlast).mp hc
    exact ⟨hslot,hsingle,hfolds⟩
  refine ⟨(hcells xss xs hpre hlast).1,fun xss hpre => (hcells xss xs hpre hlast).2.1,
    fun xs hlast => (hcells xss xs hpre hlast).2.2,?_⟩
  intro xss xs yss ys hxss hxs hyss hys hsum
  rcases h 0 0 xss xs hxss hxs with ⟨c,hc,honly⟩
  obtain ⟨_,_,_,rfl⟩ := (cellOf_iff hxss hxs).mp hc
  obtain ⟨hslot,hsingle,hfolds⟩ := hcells yss ys hyss hys
  refine honly yss ys hyss hys .store ?_
  rw [hsum]
  exact (cellOf_iff hyss hys).mpr ⟨hslot,hsingle,hfolds,rfl⟩ .store

theorem Plain.agrees {o : Origin} {pre : List Level} {last : Level}
    (h : (∃ xss xs, List.Forall₂ InRange pre xss ∧ InRange last xs) → Plain o pre last) :
    Agrees f o pre last := by
  intro fp b xss xs hpre hlast
  have hplain := h ⟨xss,xs,hpre,hlast⟩
  have hcells : ∀ xss xs, List.Forall₂ InRange pre xss → InRange last xs → ∀ access,
      cellOf f access fp o b pre last xss xs = some (b + ((sum xss xs : ℕ) : Felt)) :=
    fun xss xs hpre hlast => (cellOf_iff hpre hlast).mpr
      ⟨hplain.register,hplain.single xss hpre,hplain.folds xs hlast,rfl⟩
  refine ⟨_,hcells xss xs hpre hlast,fun yss ys hyss hys access hcell => ?_⟩
  rw [hcells yss ys hyss hys access,Option.some.injEq] at hcell
  exact hplain.separate xss xs yss ys hpre hlast hyss hys (add_left_cancel hcell).symm

/-- Stores, loads and computed pointers address the same cell, a different one for every index list
in range, exactly when the chain starts at a register and every level of it is plain. -/
theorem agrees_iff (f : Function) (o : Origin) (pre : List Level) (last : Level) :
    Agrees f o pre last ↔
      ((∃ xss xs, List.Forall₂ InRange pre xss ∧ InRange last xs) → Plain o pre last) :=
  ⟨fun h ⟨_,_,hpre,hlast⟩ => h.plain hpre hlast,Plain.agrees⟩

/-- A function without calls whose only slot is an array of three words. -/
def testArray : Function := ⟨"test_array",[],[⟨12,4⟩],[],false⟩

/-- `getelementptr [3 x i64], ptr %1, i64 0, i64 1` on its slot: the store goes to the second element,
the load to the first. -/
theorem array_elements_differ :
    cellOf testArray .store 3 (.slot 0) 0 [] ⟨.array .i64 3,1,[.int64,.int64]⟩ [] [0,1] = some 1 ∧
      cellOf testArray .load 3 (.slot 0) 0 [] ⟨.array .i64 3,1,[.int64,.int64]⟩ [] [0,1] = some 0 ∧
      ¬ Agrees testArray (.slot 0) [] ⟨.array .i64 3,1,[.int64,.int64]⟩ := by
  have hrange : InRange ⟨.array .i64 3,1,[.int64,.int64]⟩ [0,1] :=
    ⟨.cons (by decide : 4*0 < 2^63) (.cons (by decide : 4*1 < 2^63) .nil),0,[1],rfl,Nat.one_pos,
      by decide,trivial⟩
  have hstore : cellOf testArray .store 3 (.slot 0) 0 [] ⟨.array .i64 3,1,[.int64,.int64]⟩ []
    [0,1] = some 1 := by decide
  have hload : cellOf testArray .load 3 (.slot 0) 0 [] ⟨.array .i64 3,1,[.int64,.int64]⟩ []
    [0,1] = some 0 := by decide
  refine ⟨hstore,hload,fun h => ?_⟩
  rcases h 3 0 [] [0,1] .nil hrange with ⟨c,hc,_⟩
  have hsame := (hstore.symm.trans (hc .store)).trans ((hc .load).symm.trans hload)
  exact absurd hsame (by decide)

end PointerAddress
end Codegen
end OlaLang
