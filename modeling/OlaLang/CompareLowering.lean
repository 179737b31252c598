import OlaLang.SlotElimination
import OlaLang.U32Op

/-! The lowering of comparisons that are branched on or extended to a word, and of switches, and the
runs of the instructions it emits. -/
namespace OlaLang
namespace Codegen
namespace CompareLowering

open SlotElimination (Regs)
open U32Op (IntPredicate ofBool)

abbrev InstId := ℕ

inductive ICmpCond
  | eq | ne | ugt | uge | ult | ule | sgt | sge | slt | sle
  deriving DecidableEq

/-- An operand of a comparison: an instruction or an argument with its register, a constant, or the
null pointer. -/
inductive IrValue
  | reg (v : VReg) | int64 (i : BitVec 64) | null

/-- The registers that are handed out, and those of the instructions. -/
structure Ctx where
  next : VReg
  instIdToVreg : InstId → Option VReg

def Ctx.addVreg (ctx : Ctx) : Ctx := { ctx with next := ctx.next + 1 }

def Ctx.insert (ctx : Ctx) (id : InstId) (v : VReg) : Ctx :=
  { ctx with instIdToVreg := Function.update ctx.instIdToVreg id (some v) }

/-- `new_empty_inst_output`: a register that is there already is kept. -/
def newEmptyInstOutput (ctx : Ctx) (id : InstId) : VReg × Ctx := match ctx.instIdToVreg id with
  | some v => (v,ctx)
  | none => (ctx.next,ctx.addVreg.insert id ctx.next)

def movri (output : OperandData) (src : Operand) : InstructionData :=
  ⟨.MOVri,[.asOutput output,src]⟩

def getVregForVal (ctx : Ctx) : IrValue → List InstructionData × VReg × Ctx
  | .reg v => ([],v,ctx)
  | .int64 i => ([movri (.vreg ctx.next) (.plain (.int64 i))],ctx.next,ctx.addVreg)
  | .null => ([movri (.vreg ctx.next) (.plain (.int32 0))],ctx.next,ctx.addVreg)

/-! ### Comparisons -/

/-- An instruction of three operands. -/
def three (opcode : Opcode) (out : VReg) (a b : Operand) : InstructionData :=
  ⟨opcode,[.asOutput (.vreg out),a,b]⟩

/-- The end of a strict comparison: the operands differ as well. From here on the instruction has
the register of this second test. -/
def strictTail (icmp : InstId) (out lhs : VReg) (rhs : OperandData) (ctx : Ctx) :
    List InstructionData × Ctx :=
  let output2 := ctx.next
  ([three .NEQ output2 (.asInput (.vreg lhs)) (.asInput rhs),
    three .ANDrr out (.inputOutput (.vreg out)) (.asInput (.vreg output2))],
    ctx.addVreg.insert icmp output2)

def andTail (insts : List InstructionData) (tail : List InstructionData × Ctx) :
    List InstructionData × Ctx := (insts ++ tail.1,tail.2)

/-- The instructions of the comparison, by the second operand and the predicate. -/
def compareInsts (icmp : InstId) (cond : ICmpCond) (out lhs : VReg) (rhs : IrValue) (ctx : Ctx) :
    List InstructionData × Ctx := match rhs with
  | .int64 i => match cond with
    | .eq => ([three .EQri out (.asInput (.vreg lhs)) (.plain (.int64 i))],ctx)
    | .ne => ([three .NEQ out (.asInput (.vreg lhs)) (.plain (.int64 i))],ctx)
    | .sge | .uge => ([three .GTE out (.asInput (.vreg lhs)) (.plain (.int64 i))],ctx)
    | .sle | .ule =>
      ([movri (.reg (GR 7)) (.asInput (.int64 i)),
        three .GTE out (.asInput (.reg (GR 7))) (.plain (.vreg lhs))],ctx)
    | .slt | .ult => andTail
      [movri (.vreg out) (.plain (.int64 i)),
        three .GTE out (.asInput (.vreg out)) (.plain (.vreg lhs))]
      (strictTail icmp out lhs (.int64 i) ctx)
    | .sgt | .ugt => andTail [three .GTE out (.plain (.vreg lhs)) (.plain (.int64 i))]
      (strictTail icmp out lhs (.int64 i) ctx)
  | .null => ([⟨.EQrr,[.asInput (.vreg lhs),.plain (.int32 0)]⟩],ctx)
  | .reg rhs => match cond with
    | .eq => ([three .EQrr out (.asInput (.vreg lhs)) (.asInput (.vreg rhs))],ctx)
    | .ne => ([three .NEQ out (.asInput (.vreg lhs)) (.asInput (.vreg rhs))],ctx)
    | .sge | .uge => ([three .GTE out (.asInput (.vreg lhs)) (.asInput (.vreg rhs))],ctx)
    | .sle | .ule => ([three .GTE out (.asInput (.vreg rhs)) (.asInput (.vreg lhs))],ctx)
    | .sgt | .ugt => andTail [three .GTE out (.asInput (.vreg lhs)) (.asInput (.vreg rhs))]
      (strictTail icmp out lhs (.vreg rhs) ctx)
    | .slt | .ult => andTail [three .GTE out (.asInput (.vreg rhs)) (.asInput (.vreg lhs))]
      (strictTail icmp out lhs (.vreg rhs) ctx)

/-- The part that `lower_condbr` and `lower_zext` have in common: the text of both is the same. -/
def lowerCompare (icmp : InstId) (cond : ICmpCond) (lhs rhs : IrValue) (ctx : Ctx) :
    List InstructionData × VReg × Ctx :=
  let (before,lhs,ctx) := getVregForVal ctx lhs
  let (out,ctx) := newEmptyInstOutput ctx icmp
  let (insts,ctx) := compareInsts icmp cond out lhs rhs ctx
  (before ++ insts,out,ctx)

/-- `lower_condbr` of a comparison. -/
def lowerCondbr (icmp : InstId) (cond : ICmpCond) (lhs rhs : IrValue) (blocks : BasicBlockId × BasicBlockId)
    (ctx : Ctx) : List InstructionData × Ctx :=
  let (insts,out,ctx) := lowerCompare icmp cond lhs rhs ctx
  (insts ++ [⟨.CJMPr,[.asInput (.vreg out),.plain (.block blocks.1)]⟩,
    ⟨.JMPr,[.plain (.block blocks.2)]⟩],ctx)

/-- `lower_zext` of a comparison. -/
def lowerZext (selfId icmp : InstId) (cond : ICmpCond) (lhs rhs : IrValue) (ctx : Ctx) :
    List InstructionData × VReg × Ctx :=
  let (insts,out,ctx) := lowerCompare icmp cond lhs rhs ctx
  let (output,ctx) := newEmptyInstOutput ctx selfId
  (insts ++ [⟨.MOVrr,[.asOutput (.vreg output),.asInput (.vreg out)]⟩],output,ctx)

/-! ### Switches -/

/-- The test and the jump of one case. -/
def caseInsts (src : VReg) (case : BitVec 64 × BasicBlockId) : List InstructionData :=
  [⟨.EQri,[.asOutput (.reg (GR 8)),.asInput (.vreg src),.asInput (.int64 case.1)]⟩,
    ⟨.CJMPr,[.asInput (.reg (GR 8)),.plain (.block case.2)]⟩]

/-- `lower_switch`; the scrutinee is in a register. -/
def lowerSwitch (src : VReg) (cases : List (BitVec 64 × BasicBlockId)) (default : BasicBlockId) :
    List InstructionData :=
  cases.flatMap (caseInsts src) ++ [⟨.JMPr,[.plain (.block default)]⟩]

/-! ### Runs -/

/-- The value of a second operand. -/
def operand (r : Regs) (x : OperandData) : Option Felt := x.immediate? <|> r.value x

def setOut (r : Regs) : OperandData → Felt → Option Regs
  | .vreg v, x => some { r with vreg := Function.update r.vreg v x }
  | .reg g, x => some { r with reg := Function.update r.reg g x }
  | _, _ => none

/-- What an instruction of three operands computes. -/
def compute (opcode : Opcode) (x y : Felt) : Option Felt := match opcode with
  | .EQri | .EQrr => some (ofBool (x = y))
  | .NEQ => some (ofBool (x ≠ y))
  | .GTE => some (ofBool (y.val ≤ x.val))
  | .ANDrr => some (x.val &&& y.val : ℕ)
  | _ => none

/-- One instruction that is not a jump. Its first source is a register. -/
def exec (r : Regs) (inst : InstructionData) : Option Regs := match inst.operands with
  | [out,src] => if inst.opcode = .MOVri ∨ inst.opcode = .MOVrr then do
      let x ← operand r src.data
      setOut r out.data x
    else none
  | [out,a,b] => do
    let x ← r.value a.data
    let y ← operand r b.data
    let z ← compute inst.opcode x y
    setOut r out.data z
  | _ => none

/-- The block that a sequence jumps to, if it jumps. -/
def steps : List InstructionData → Regs → Option (Option BasicBlockId × Regs)
  | [], r => some (none,r)
  | inst::rest, r => match inst.opcode, inst.operands with
    | .JMPr, [target] => do
      let b ← target.data.asBlock?
      pure (some b,r)
    | .CJMPr, [cond,target] => do
      let c ← r.value cond.data
      let b ← target.data.asBlock?
      if c = 1 then pure (some b,r) else steps rest r
    | _, _ => do
      let r ← exec r inst
      steps rest r

/-- The printer stops at the immediate `-1`. -/
def Printable (insts : List InstructionData) : Prop :=
  ∀ inst ∈ insts, ∀ op ∈ inst.operands, op.data ≠ .int64 (BitVec.allOnes 64)

instance (insts : List InstructionData) : Decidable (Printable insts) :=
  inferInstanceAs (Decidable (∀ inst ∈ insts, ∀ op ∈ inst.operands, _))

/-- The run of the printed instructions. -/
def run (insts : List InstructionData) (r : Regs) : Option (Option BasicBlockId × Regs) :=
  if Printable insts then steps insts r else none

/-! ### What the sequences should do -/

/-- The predicates on unsigned integers. -/
def condOf : IntPredicate → ICmpCond
  | .EQ => .eq
  | .NE => .ne
  | .UGT => .ugt
  | .UGE => .uge
  | .ULT => .ult
  | .ULE => .ule

/-- The kinds of operand pairs that are lowered. -/
inductive Pair
  | regs (a b : VReg) | regConst (a : VReg) (i : BitVec 64) | constReg (i : BitVec 64) (b : VReg)
  | null (a : VReg)

def Pair.lhs : Pair → IrValue
  | .regs a _ | .regConst a _ | .null a => .reg a
  | .constReg i _ => .int64 i

def Pair.rhs : Pair → IrValue
  | .regs _ b | .constReg _ b => .reg b
  | .regConst _ i => .int64 i
  | .null _ => .null

def Pair.vregs : Pair → List VReg
  | .regs a b => [a,b]
  | .regConst a _ | .null a => [a]
  | .constReg _ b => [b]

/-- An operand as an unsigned integer. -/
def IrValue.toNat (r : Regs) : IrValue → ℕ
  | .reg v => (r.vreg v).val
  | .int64 i => i.toNat
  | .null => 0

def truth (p : IntPredicate) (pair : Pair) (r : Regs) : Bool :=
  p.holds (pair.lhs.toNat r) (pair.rhs.toNat r)

/-- The lowering reaches the comparison: the operands have registers, and the comparison and its
extension have none but their own. -/
structure Ready (ctx : Ctx) (icmp zext : InstId) (pair : Pair) : Prop where
  ids : icmp ≠ zext
  operands : ∀ v ∈ pair.vregs, v < ctx.next
  below : ∀ id v, ctx.instIdToVreg id = some v → v < ctx.next
  own : ∀ v, ctx.instIdToVreg icmp = some v → v ∉ pair.vregs ∧ ctx.instIdToVreg zext ≠ some v

/-- The register that uses of the comparison read afterwards (`get_inst_output`). A use that finds no
register lowers the comparison itself, which is refused as an unsupported instruction. -/
def Reads (ctx : Ctx) (icmp : InstId) (r : Regs) (x : Felt) : Prop :=
  ∃ v, ctx.instIdToVreg icmp = some v ∧ r.vreg v = x

/-- The branch goes where the predicate says, and the extension has its truth value. -/
def Decides (p : IntPredicate) (pair : Pair) : Prop :=
  ∀ ctx icmp zext, Ready ctx icmp zext pair → ∀ r,
    (∀ blocks, ∃ r', run (lowerCondbr icmp (condOf p) pair.lhs pair.rhs blocks ctx).1 r =
      some (some (if truth p pair r then blocks.1 else blocks.2),r')) ∧
    ∃ r', run (lowerZext zext icmp (condOf p) pair.lhs pair.rhs ctx).1 r = some (none,r') ∧
      r'.vreg (lowerZext zext icmp (condOf p) pair.lhs pair.rhs ctx).2.1 = ofBool (truth p pair r)

/-- Later uses of the comparison read the truth value as well. They stand behind an extension in its
block: the branch is the last instruction of the block, and a use in another block makes
`compile_function` lower the comparison itself, which it refuses. -/
def Compares (p : IntPredicate) (pair : Pair) : Prop :=
  Decides p pair ∧ ∀ ctx icmp zext, Ready ctx icmp zext pair → ∀ r b r',
    run (lowerZext zext icmp (condOf p) pair.lhs pair.rhs ctx).1 r = some (b,r') →
      Reads (lowerZext zext icmp (condOf p) pair.lhs pair.rhs ctx).2.2 icmp r'
        (ofBool (truth p pair r))

/-! ### When they do it -/

/-- Not the null pointer, and every constant is a field element. -/
def Canonical : Pair → Prop
  | .regs _ _ => True
  | .regConst _ i | .constReg i _ => i.toNat < FIELD_ORDER
  | .null _ => False

def isStrict : IntPredicate → Bool
  | .UGT | .ULT => true
  | _ => false

/-- The operands of a strict comparison are never in the opposite order. -/
def NeverOpposite (p : IntPredicate) : Pair → Prop
  | .regs a b => a = b
  | .regConst _ i => if p = .UGT then i.toNat = 0 else i.toNat = FIELD_ORDER - 1
  | .constReg i _ => if p = .UGT then i.toNat = FIELD_ORDER - 1 else i.toNat = 0
  | .null _ => False

/-! ### Single instructions -/

variable {r r' : Regs} {x y z : Felt} {rest insts : List InstructionData}

theorem steps_cons (inst : InstructionData) : steps (inst::rest) r =
    (match inst.opcode, inst.operands with
    | .JMPr, [target] => do
      let b ← target.data.asBlock?
      pure (some b,r)
    | .CJMPr, [cond,target] => do
      let c ← r.value cond.data
      let b ← target.data.asBlock?
      if c = 1 then pure (some b,r) else steps rest r
    | _, _ => do
      let r ← exec r inst
      steps rest r) := rfl

theorem steps_append (h : steps insts r = some (none,r')) :
    steps (insts ++ rest) r = steps rest r' := by
  induction insts generalizing r with
  | nil =>
    cases h
    rfl
  | cons inst insts ih =>
    rw [steps_cons] at h
    rw [List.cons_append,steps_cons]
    split at h
    · rcases Option.bind_eq_some_iff.mp h with ⟨_,_,hend⟩
      cases hend
    · rcases Option.bind_eq_some_iff.mp h with ⟨c,hc,h⟩
      rcases Option.bind_eq_some_iff.mp h with ⟨t,ht,h⟩
      rw [hc,ht]
      simp only [Option.bind_eq_bind,Option.bind_some] at h ⊢
      split at h
      · cases h
      · rename_i hne
        rw [if_neg hne]
        exact ih h
    · rcases Option.bind_eq_some_iff.mp h with ⟨m,hm,h⟩
      rw [hm]
      exact ih h

theorem steps_three {op : Opcode} {out : VReg} {a b : Operand} (ha : r.value a.data = some x)
    (hb : operand r b.data = some y) (hz : compute op x y = some z) :
    steps (three op out a b::rest) r = steps rest { r with vreg := Function.update r.vreg out z } := by
  have hexec : exec r (three op out a b) =
      some { r with vreg := Function.update r.vreg out z } := by
    simp [exec,three,ha,hb,hz,setOut,Operand.asOutput]
  have hstep : steps (three op out a b::rest) r = (exec r (three op out a b)).bind (steps rest) := by
    cases op <;> rfl
  rw [hstep,hexec]
  rfl

theorem steps_movri (rest : List InstructionData) {out : VReg} {src : Operand} (hsrc : operand r src.data = some x) :
    steps (movri (.vreg out) src::rest) r =
      steps rest { r with vreg := Function.update r.vreg out x } := by
  have hexec : exec r (movri (.vreg out) src) =
      some { r with vreg := Function.update r.vreg out x } := by
    simp [exec,movri,hsrc,setOut,Operand.asOutput]
  have hstep : steps (movri (.vreg out) src::rest) r =
      (exec r (movri (.vreg out) src)).bind (steps rest) := rfl
  rw [hstep,hexec]
  rfl

theorem and_ofBool (a b : Bool) :
    (((ofBool a).val &&& (ofBool b).val : ℕ) : Felt) = ofBool (a && b) := by
  cases a <;> cases b <;> decide

/-- The field element of an operand. -/
def IrValue.felt (r : Regs) : IrValue → Felt
  | .reg v => r.vreg v
  | .int64 i => (i.toNat : Felt)
  | .null => 0

theorem steps_movri_reg {g : Reg} {src : Operand} (hsrc : operand r src.data = some x) :
    steps (movri (.reg g) src::rest) r =
      steps rest { r with reg := Function.update r.reg g x } := by
  have hexec : exec r (movri (.reg g) src) =
      some { r with reg := Function.update r.reg g x } := by
    simp [exec,movri,hsrc,setOut,Operand.asOutput]
  have hstep : steps (movri (.reg g) src::rest) r =
      (exec r (movri (.reg g) src)).bind (steps rest) := rfl
  rw [hstep,hexec]
  rfl

/-! ### The comparison -/

variable {icmp zext : InstId} {out l : VReg} {ctx : Ctx}

/-- The second test and the conjunction of a strict comparison. -/
theorem strictTail_run (icmp : InstId) (l : VReg) (rhs : OperandData) {b : Bool} (hout : out < ctx.next)
    (hb : r.vreg out = ofBool b) (hrhs : operand r rhs = some y) :
    ∃ r', steps (strictTail icmp out l rhs ctx).1 r = some (none,r') ∧
      r'.vreg out = ofBool (b && decide (r.vreg l ≠ y)) ∧
      r'.vreg ctx.next = ofBool (r.vreg l ≠ y) := by
  have hfresh : out ≠ ctx.next := Nat.ne_of_lt hout
  refine ⟨_,(steps_three rfl hrhs rfl).trans (steps_three (x := ofBool b)
    (y := ofBool (r.vreg l ≠ y)) ?_ ?_ rfl),?_,?_⟩
  · show some (Function.update r.vreg ctx.next _ out) = _
    rw [Function.update_of_ne hfresh,hb]
  · show some (Function.update r.vreg ctx.next _ ctx.next) = _
    rw [Function.update_self]
  · show Function.update _ out _ out = _
    rw [Function.update_self,and_ofBool]
  · show Function.update _ out _ ctx.next = _
    rw [Function.update_of_ne hfresh.symm]
    show Function.update _ ctx.next _ ctx.next = _
    rw [Function.update_self]

/-- What a comparison leaves: the truth value, and after a strict one another register for the
comparison, with the second test. -/
structure Compared (p : IntPredicate) (icmp : InstId) (out l : VReg) (rhs : IrValue) (ctx : Ctx)
    (r r' : Regs) : Prop where
  value : r'.vreg out = ofBool (p.holds (r.vreg l).val (rhs.felt r).val)
  registers : (compareInsts icmp (condOf p) out l rhs ctx).2 =
    if isStrict p then ctx.addVreg.insert icmp ctx.next else ctx
  second : isStrict p = true → r'.vreg ctx.next = ofBool (r.vreg l ≠ rhs.felt r)

theorem holds_ugt (x y : Felt) :
    (decide (y.val ≤ x.val) && decide (x ≠ y)) = IntPredicate.UGT.holds x.val y.val := by
  have hne : x ≠ y ↔ x.val ≠ y.val := not_congr ⟨fun h => congrArg _ h,Felt.ext_val⟩
  rw [← Bool.decide_and,IntPredicate.holds,decide_eq_decide,hne]
  omega

theorem holds_ult (x y : Felt) :
    (decide (x.val ≤ y.val) && decide (x ≠ y)) = IntPredicate.ULT.holds x.val y.val := by
  have hne : x ≠ y ↔ x.val ≠ y.val := not_congr ⟨fun h => congrArg _ h,Felt.ext_val⟩
  rw [← Bool.decide_and,IntPredicate.holds,decide_eq_decide,hne]
  omega

theorem holds_eq (x y : Felt) : decide (x = y) = IntPredicate.EQ.holds x.val y.val :=
  decide_eq_decide.mpr ⟨fun h => congrArg _ h,Felt.ext_val⟩

theorem holds_ne (x y : Felt) : decide (x ≠ y) = IntPredicate.NE.holds x.val y.val :=
  decide_eq_decide.mpr (not_congr ⟨fun h => congrArg _ h,Felt.ext_val⟩)

/-- A register as the second operand. -/
theorem compareInsts_reg (p : IntPredicate) {b : VReg} (hout : out < ctx.next) (hne : out ≠ l)
    (hneb : out ≠ b) : ∃ r', steps (compareInsts icmp (condOf p) out l (.reg b) ctx).1 r =
      some (none,r') ∧ Compared p icmp out l (.reg b) ctx r r' := by
  have hone : ∀ op (a c : VReg) z, compute op (r.vreg a) (r.vreg c) = some z →
      ∃ r', steps [three op out (.asInput (.vreg a)) (.asInput (.vreg c))] r = some (none,r') ∧
        r'.vreg out = z := fun op a c z hz =>
    ⟨_,(steps_three rfl rfl hz).trans rfl,Function.update_self ..⟩
  have hstrict : ∀ (a c : VReg) b', compute .GTE (r.vreg a) (r.vreg c) = some (ofBool b') →
      ∃ r', steps (three .GTE out (.asInput (.vreg a)) (.asInput (.vreg c))::
          (strictTail icmp out l (.vreg b) ctx).1) r = some (none,r') ∧
        r'.vreg out = ofBool (b' && decide (r.vreg l ≠ r.vreg b)) ∧
        r'.vreg ctx.next = ofBool (r.vreg l ≠ r.vreg b) := fun a c b' hz => by
    set m : Regs := { r with vreg := Function.update r.vreg out (ofBool b') } with hm
    have hml : m.vreg l = r.vreg l := Function.update_of_ne hne.symm ..
    have hmb : m.vreg b = r.vreg b := Function.update_of_ne hneb.symm ..
    obtain ⟨r',hrun,hres,hsecond⟩ := strictTail_run icmp l (.vreg b) (r := m) (b := b') hout (Function.update_self ..) rfl
    rw [hml,hmb] at hres hsecond
    exact ⟨r',(steps_three rfl rfl hz).trans hrun,hres,hsecond⟩
  cases p with
  | EQ =>
    obtain ⟨r',hrun,hres⟩ := hone .EQrr l b _ rfl
    exact ⟨r',hrun,by rw [hres,holds_eq]; rfl,rfl,by simp [isStrict]⟩
  | NE =>
    obtain ⟨r',hrun,hres⟩ := hone .NEQ l b _ rfl
    exact ⟨r',hrun,by rw [hres,holds_ne]; rfl,rfl,by simp [isStrict]⟩
  | UGE =>
    obtain ⟨r',hrun,hres⟩ := hone .GTE l b _ rfl
    exact ⟨r',hrun,hres,rfl,by simp [isStrict]⟩
  | ULE =>
    obtain ⟨r',hrun,hres⟩ := hone .GTE b l _ rfl
    exact ⟨r',hrun,hres,rfl,by simp [isStrict]⟩
  | UGT =>
    obtain ⟨r',hrun,hres,hsecond⟩ := hstrict l b _ rfl
    exact ⟨r',hrun,by rw [hres,holds_ugt]; rfl,rfl,fun _ => hsecond⟩
  | ULT =>
    obtain ⟨r',hrun,hres,hsecond⟩ := hstrict b l _ rfl
    exact ⟨r',hrun,by rw [hres,holds_ult]; rfl,rfl,fun _ => hsecond⟩

/-- A constant as the second operand: where it has to stand first it is moved to a register. -/
theorem compareInsts_const (p : IntPredicate) {i : BitVec 64} (hout : out < ctx.next) (hne : out ≠ l) :
    ∃ r', steps (compareInsts icmp (condOf p) out l (.int64 i) ctx).1 r = some (none,r') ∧
      Compared p icmp out l (.int64 i) ctx r r' := by
  have hone : ∀ op z, compute op (r.vreg l) (i.toNat : Felt) = some z →
      ∃ r', steps [three op out (.asInput (.vreg l)) (.plain (.int64 i))] r = some (none,r') ∧
        r'.vreg out = z := fun op z hz =>
    ⟨_,(steps_three rfl rfl hz).trans rfl,Function.update_self ..⟩
  have htail : ∀ (m : Regs) b', m.vreg out = ofBool b' → m.vreg l = r.vreg l →
      ∃ r', steps (strictTail icmp out l (.int64 i) ctx).1 m = some (none,r') ∧
        r'.vreg out = ofBool (b' && decide (r.vreg l ≠ (i.toNat : Felt))) ∧
        r'.vreg ctx.next = ofBool (r.vreg l ≠ (i.toNat : Felt)) := fun m b' hb hml => by
    obtain ⟨r',hrun,hres,hsecond⟩ := strictTail_run icmp l (.int64 i) (r := m) (b := b') hout
      hb rfl
    rw [hml] at hres hsecond
    exact ⟨r',hrun,hres,hsecond⟩
  cases p with
  | EQ =>
    obtain ⟨r',hrun,hres⟩ := hone .EQri _ rfl
    exact ⟨r',hrun,by rw [hres,holds_eq]; rfl,rfl,by simp [isStrict]⟩
  | NE =>
    obtain ⟨r',hrun,hres⟩ := hone .NEQ _ rfl
    exact ⟨r',hrun,by rw [hres,holds_ne]; rfl,rfl,by simp [isStrict]⟩
  | UGE =>
    obtain ⟨r',hrun,hres⟩ := hone .GTE _ rfl
    exact ⟨r',hrun,hres,rfl,by simp [isStrict]⟩
  | ULE =>
    have hg : (Function.update r.reg (GR 7) (i.toNat : Felt)) (GR 7) = (i.toNat : Felt) :=
      Function.update_self ..
    exact ⟨_,(steps_movri_reg rfl).trans (steps_three (congrArg some hg) rfl rfl),
      Function.update_self ..,rfl,by simp [isStrict]⟩
  | UGT =>
    obtain ⟨r',hrun,hres,hsecond⟩ := htail
      { r with vreg := Function.update r.vreg out (ofBool ((i.toNat : Felt).val ≤ (r.vreg l).val)) } _
      (Function.update_self ..) (Function.update_of_ne hne.symm ..)
    exact ⟨r',(steps_three rfl rfl rfl).trans hrun,by rw [hres,holds_ugt]; rfl,rfl,fun _ => hsecond⟩
  | ULT =>
    set m : Regs := { r with vreg := Function.update r.vreg out (i.toNat : Felt) } with hm
    have hml : m.vreg l = r.vreg l := Function.update_of_ne hne.symm ..
    have hmout : m.vreg out = (i.toNat : Felt) := Function.update_self ..
    obtain ⟨r',hrun,hres,hsecond⟩ := htail
      { m with vreg := Function.update m.vreg out (ofBool ((m.vreg l).val ≤ (m.vreg out).val)) } _
      (Function.update_self ..) ((Function.update_of_ne hne.symm ..).trans hml)
    rw [hml,hmout,holds_ult] at hres
    exact ⟨r',(steps_movri _ rfl).trans ((steps_three rfl rfl rfl).trans hrun),hres,rfl,
      fun _ => hsecond⟩

/-! ### Registers -/

/-- The register of an instruction: its own one, or the next. -/
structure Allotted (ctx : Ctx) (id : InstId) (v : VReg) (ctx' : Ctx) : Prop where
  lt : v < ctx'.next
  le : ctx.next ≤ ctx'.next
  self : ctx'.instIdToVreg id = some v
  other : ∀ i, i ≠ id → ctx'.instIdToVreg i = ctx.instIdToVreg i
  origin : ctx.instIdToVreg id = some v ∨ ctx.instIdToVreg id = none ∧ v = ctx.next

theorem newEmptyInstOutput_spec (h : ∀ id v, ctx.instIdToVreg id = some v → v < ctx.next)
    (id : InstId) :
    Allotted ctx id (newEmptyInstOutput ctx id).1 (newEmptyInstOutput ctx id).2 := by
  unfold newEmptyInstOutput
  cases hid : ctx.instIdToVreg id with
  | some v => exact ⟨h id v hid,Nat.le_refl _,hid,fun _ _ => rfl,.inl hid⟩
  | none =>
    refine ⟨Nat.lt_succ_self _,Nat.le_succ _,Function.update_self ..,fun i hi => ?_,.inr ⟨hid,rfl⟩⟩
    exact Function.update_of_ne hi ..

/-- The first operand in a register: its own, or the next one, which was filled. -/
structure Fetched (ctx : Ctx) (pair : Pair) (r : Regs) (before : List InstructionData) (l : VReg)
    (ctx' : Ctx) (m : Regs) : Prop where
  steps : steps before r = some (none,m)
  value : m.vreg l = pair.lhs.felt r
  keeps : ∀ v, v < ctx.next → m.vreg v = r.vreg v
  lt : l < ctx'.next
  le : ctx.next ≤ ctx'.next
  same : ctx'.instIdToVreg = ctx.instIdToVreg
  origin : l ∈ pair.vregs ∨ l = ctx.next

theorem getVregForVal_spec {pair : Pair} (h : ∀ v ∈ pair.vregs, v < ctx.next) (r : Regs) :
    ∃ m, Fetched ctx pair r (getVregForVal ctx pair.lhs).1 (getVregForVal ctx pair.lhs).2.1
      (getVregForVal ctx pair.lhs).2.2 m := by
  have hreg : ∀ a, pair.lhs = .reg a → a ∈ pair.vregs →
      Fetched ctx pair r [] a ctx r := fun a hlhs ha =>
    ⟨rfl,by rw [hlhs]; rfl,fun _ _ => rfl,h a ha,Nat.le_refl _,rfl,.inl ha⟩
  cases pair with
  | regs a b => exact ⟨r,hreg a rfl (by simp [Pair.vregs])⟩
  | regConst a i => exact ⟨r,hreg a rfl (by simp [Pair.vregs])⟩
  | null a => exact ⟨r,hreg a rfl (by simp [Pair.vregs])⟩
  | constReg i b =>
    refine ⟨_,(steps_movri [] rfl).trans rfl,Function.update_self ..,fun v hv => ?_,
      Nat.lt_succ_self _,Nat.le_succ _,rfl,.inr rfl⟩
    exact Function.update_of_ne (Nat.ne_of_lt hv) ..

/-- The predicate on the operands as field elements. -/
def residues (p : IntPredicate) (pair : Pair) (r : Regs) : Bool :=
  p.holds (pair.lhs.felt r).val (pair.rhs.felt r).val

/-- What later uses read: after a strict comparison, whether the operands differ. -/
def laterValue (p : IntPredicate) (pair : Pair) (r : Regs) : Bool :=
  if isStrict p then decide (pair.lhs.felt r ≠ pair.rhs.felt r) else residues p pair r

/-- The registers after the common part. -/
structure Lowered (p : IntPredicate) (pair : Pair) (icmp zext : InstId) (ctx : Ctx) (r : Regs)
    (res : List InstructionData × VReg × Ctx) (r' : Regs) : Prop where
  steps : steps res.1 r = some (none,r')
  value : r'.vreg res.2.1 = ofBool (residues p pair r)
  later : ∃ v, res.2.2.instIdToVreg icmp = some v ∧ r'.vreg v = ofBool (laterValue p pair r) ∧
    v < res.2.2.next ∧ res.2.2.instIdToVreg zext ≠ some v
  below : ∀ v, res.2.2.instIdToVreg zext = some v → v < res.2.2.next

theorem lowerCompare_run (p : IntPredicate) {pair : Pair} (h : Ready ctx icmp zext pair)
    (hnull : ∀ a, pair ≠ .null a) (r : Regs) :
    ∃ r', Lowered p pair icmp zext ctx r (lowerCompare icmp (condOf p) pair.lhs pair.rhs ctx) r' := by
  obtain ⟨m,hfetch⟩ := getVregForVal_spec h.operands r
  revert hfetch
  rcases hget : getVregForVal ctx pair.lhs with ⟨before,l,ctx1⟩
  intro hfetch
  have hout : Allotted ctx1 icmp _ _ := newEmptyInstOutput_spec
    (fun id v hv => (h.below id v (hfetch.same ▸ hv)).trans_le hfetch.le) icmp
  revert hout
  rcases hnew : newEmptyInstOutput ctx1 icmp with ⟨out,ctx2⟩
  intro hout
  have hlt : ctx.next ≤ ctx2.next := hfetch.le.trans hout.le
  have hown : ∀ v ∈ pair.vregs, out ≠ v := fun v hv heq => by
    rcases hout.origin with hsome | ⟨_,hnext⟩
    · rw [hfetch.same] at hsome
      exact (h.own out hsome).1 (heq ▸ hv)
    · exact Nat.ne_of_gt ((h.operands v hv).trans_le hfetch.le) (hnext.symm.trans heq)
  have hnel : out ≠ l := fun heq => by
    rcases hfetch.origin with hin | hnext
    · exact hown l hin heq
    · rcases hout.origin with hsome | ⟨_,hfresh⟩
      · rw [hfetch.same] at hsome
        exact Nat.ne_of_lt (h.below icmp _ hsome) (heq.trans hnext)
      · exact Nat.ne_of_lt hfetch.lt (heq.symm.trans hfresh)
  have hcompare : ∃ r', CompareLowering.steps (compareInsts icmp (condOf p) out l pair.rhs ctx2).1 m =
      some (none,r') ∧ Compared p icmp out l pair.rhs ctx2 m r' := by
    cases pair with
    | null a => exact absurd rfl (hnull a)
    | regConst a i => exact compareInsts_const p hout.lt hnel
    | regs a b => exact compareInsts_reg p hout.lt hnel (hown b (by simp [Pair.vregs]))
    | constReg i b => exact compareInsts_reg p hout.lt hnel (hown b (by simp [Pair.vregs]))
  obtain ⟨r',hsteps,hcompared⟩ := hcompare
  have hrhs : pair.rhs.felt m = pair.rhs.felt r := by
    cases pair with
    | null a => rfl
    | regConst a i => rfl
    | regs a b => exact hfetch.keeps b (h.operands b (by simp [Pair.vregs]))
    | constReg i b => exact hfetch.keeps b (h.operands b (by simp [Pair.vregs]))
  have hl : m.vreg l = pair.lhs.felt r := hfetch.value
  refine ⟨r',?_⟩
  have hres : lowerCompare icmp (condOf p) pair.lhs pair.rhs ctx =
      (before ++ (compareInsts icmp (condOf p) out l pair.rhs ctx2).1,out,
        (compareInsts icmp (condOf p) out l pair.rhs ctx2).2) := by
    simp only [lowerCompare,hget,hnew]
  have hzext : ctx2.instIdToVreg zext = ctx.instIdToVreg zext := by
    rw [hout.other zext h.ids.symm,hfetch.same]
  have hzne : ctx.instIdToVreg zext ≠ some out := fun heq => by
    rcases hout.origin with hsome | ⟨_,hfresh⟩
    · rw [hfetch.same] at hsome
      exact (h.own _ hsome).2 heq
    · exact Nat.ne_of_lt ((h.below zext _ heq).trans_le hfetch.le) hfresh
  have hbelow : ∀ v, ctx2.instIdToVreg zext = some v → v < ctx2.next := fun v hv =>
    (h.below zext v (hzext ▸ hv)).trans_le hlt
  have hvalue : r'.vreg out = ofBool (residues p pair r) := by
    rw [hcompared.value,hl,hrhs]
    rfl
  rw [hres]
  refine ⟨(steps_append hfetch.steps).trans hsteps,hvalue,?_,?_⟩
  · cases hs : isStrict p with
    | false =>
      rw [hcompared.registers,hs]
      refine ⟨out,hout.self,?_,hout.lt,by simpa [hzext] using hzne⟩
      rw [hvalue,laterValue,hs]
      rfl
    | true =>
      rw [hcompared.registers,hs]
      refine ⟨ctx2.next,Function.update_self ..,?_,Nat.lt_succ_self _,?_⟩
      · rw [hcompared.second hs,hl,hrhs,laterValue,hs]
        rfl
      · show Function.update _ icmp _ zext ≠ _
        rw [Function.update_of_ne h.ids.symm]
        exact fun heq => Nat.lt_irrefl _ (hbelow _ heq)
  · intro v hv
    rw [hcompared.registers] at hv ⊢
    cases hs : isStrict p with
    | false =>
      rw [hs] at hv
      exact hbelow v hv
    | true =>
      rw [hs] at hv
      have hz : ctx2.instIdToVreg zext = some v := by
        rw [← hv]
        exact (Function.update_of_ne h.ids.symm ..).symm
      exact (hbelow v hz).trans (Nat.lt_succ_self _)

/-! ### Branches and extensions -/

theorem ofBool_eq_one (b : Bool) : ofBool b = 1 ↔ b = true := by
  cases b <;> decide

theorem condbr_steps (p : IntPredicate) {pair : Pair} (h : Ready ctx icmp zext pair)
    (hnull : ∀ a, pair ≠ .null a) (blocks : BasicBlockId × BasicBlockId) (r : Regs) :
    ∃ r', steps (lowerCondbr icmp (condOf p) pair.lhs pair.rhs blocks ctx).1 r =
      some (some (if residues p pair r then blocks.1 else blocks.2),r') := by
  obtain ⟨r',hlow⟩ := lowerCompare_run p h hnull r
  revert hlow
  rcases hres : lowerCompare icmp (condOf p) pair.lhs pair.rhs ctx with ⟨insts,out,ctx1⟩
  intro hlow
  have hcondbr : lowerCondbr icmp (condOf p) pair.lhs pair.rhs blocks ctx =
      (insts ++ [⟨.CJMPr,[.asInput (.vreg out),.plain (.block blocks.1)]⟩,
        ⟨.JMPr,[.plain (.block blocks.2)]⟩],ctx1) := by
    simp only [lowerCondbr,hres]
  rw [hcondbr]
  refine ⟨r',(steps_append hlow.steps).trans ?_⟩
  show (if r'.vreg out = 1 then some (some blocks.1,r') else some (some blocks.2,r')) = _
  rw [hlow.value]
  simp only [ofBool_eq_one]
  split <;> rfl

theorem zext_steps (p : IntPredicate) {pair : Pair} (h : Ready ctx icmp zext pair)
    (hnull : ∀ a, pair ≠ .null a) (r : Regs) :
    ∃ r', steps (lowerZext zext icmp (condOf p) pair.lhs pair.rhs ctx).1 r = some (none,r') ∧
      r'.vreg (lowerZext zext icmp (condOf p) pair.lhs pair.rhs ctx).2.1 =
        ofBool (residues p pair r) ∧
      Reads (lowerZext zext icmp (condOf p) pair.lhs pair.rhs ctx).2.2 icmp r'
        (ofBool (laterValue p pair r)) := by
  obtain ⟨m,hlow⟩ := lowerCompare_run p h hnull r
  revert hlow
  rcases hres : lowerCompare icmp (condOf p) pair.lhs pair.rhs ctx with ⟨insts,out,ctx1⟩
  intro hlow
  rcases hnew : newEmptyInstOutput ctx1 zext with ⟨z,ctx2⟩
  have hzext : lowerZext zext icmp (condOf p) pair.lhs pair.rhs ctx =
      (insts ++ [⟨.MOVrr,[.asOutput (.vreg z),.asInput (.vreg out)]⟩],z,ctx2) := by
    simp only [lowerZext,hres,hnew]
  obtain ⟨v,hv,hread,hlt,hne⟩ := hlow.later
  have hkept : ctx2.instIdToVreg icmp = some v ∧ v ≠ z := by
    unfold newEmptyInstOutput at hnew
    split at hnew
    · rename_i w hw
      cases hnew
      exact ⟨hv,fun heq => hne (heq ▸ hw)⟩
    · cases hnew
      exact ⟨(Function.update_of_ne h.ids ..).trans hv,Nat.ne_of_lt hlt⟩
  rw [hzext]
  refine ⟨_,(steps_append hlow.steps).trans rfl,?_,v,hkept.1,?_⟩
  · exact (Function.update_self ..).trans hlow.value
  · exact (Function.update_of_ne hkept.2 ..).trans hread

theorem condbr_null (p : IntPredicate) (a : VReg) (blocks : BasicBlockId × BasicBlockId) (ctx : Ctx)
    (icmp : InstId) (r : Regs) :
    steps (lowerCondbr icmp (condOf p) (.reg a) .null blocks ctx).1 r = none := by
  cases hid : ctx.instIdToVreg icmp <;>
    simp [lowerCondbr,lowerCompare,getVregForVal,newEmptyInstOutput,hid,compareInsts,steps_cons,exec]

theorem run_eq_some {insts : List InstructionData} {res : Option BasicBlockId × Regs}
    (h : run insts r = some res) : steps insts r = some res := by
  unfold run at h
  split at h
  · exact h
  · cases h

/-! ### Printing -/

def Pair.consts : Pair → List (BitVec 64)
  | .regConst _ i | .constReg i _ => [i]
  | .regs _ _ | .null _ => []

theorem Printable.append {first second : List InstructionData} (hfirst : Printable first)
    (hsecond : Printable second) : Printable (first ++ second) := fun inst hinst =>
  (List.mem_append.mp hinst).elim (hfirst inst) (hsecond inst)

theorem lowerCompare_printable (p : IntPredicate) {pair : Pair}
    (h : ∀ i ∈ pair.consts, i ≠ BitVec.allOnes 64) (ctx : Ctx) (icmp : InstId) :
    Printable (lowerCompare icmp (condOf p) pair.lhs pair.rhs ctx).1 := by
  have hinsts : ∀ out l ctx, Printable (compareInsts icmp (condOf p) out l pair.rhs ctx).1 := by
    intro out l ctx
    cases pair with
    | regConst a i =>
      have hi : i ≠ BitVec.allOnes 64 := h i (by simp [Pair.consts])
      cases p <;> simp_all [Printable,compareInsts,condOf,Pair.rhs,three,movri,andTail,strictTail,
        Operand.asInput,Operand.asOutput,Operand.plain,Operand.inputOutput]
    | null a => simp [Printable,compareInsts,Pair.rhs,Operand.asInput,Operand.plain]
    | regs a b | constReg i b =>
      cases p <;> simp [Printable,compareInsts,condOf,Pair.rhs,three,andTail,strictTail,
        Operand.asInput,Operand.asOutput,Operand.inputOutput]
  have hbefore : Printable (getVregForVal ctx pair.lhs).1 := by
    cases pair with
    | constReg i b =>
      have hi : i ≠ BitVec.allOnes 64 := h i (by simp [Pair.consts])
      simpa [Printable,getVregForVal,Pair.lhs,movri,Operand.asOutput,Operand.plain] using hi
    | regs a b | regConst a i | null a => simp [Printable,getVregForVal,Pair.lhs]
  exact hbefore.append (hinsts _ _ _)

/-! ### When comparisons are right -/

/-- A context in which the pair can be lowered. -/
def startCtx (pair : Pair) : Ctx := ⟨pair.vregs.sum + 1,fun _ => none⟩

theorem startCtx_ready (pair : Pair) : Ready (startCtx pair) 0 1 pair where
  ids := by decide
  operands := fun _ hv => Nat.lt_succ_of_le (List.le_sum_of_mem hv)
  below := fun _ _ h => by cases h
  own := fun _ h => by cases h

theorem Decides.not_null {p : IntPredicate} {pair : Pair} (h : Decides p pair) (a : VReg) :
    pair ≠ .null a := by
  rintro rfl
  rcases (h _ _ _ (startCtx_ready _) ⟨fun _ => 0,fun _ => 0⟩).1 (0,1) with ⟨r',hrun⟩
  have hsteps := run_eq_some hrun
  rw [show (Pair.null a).lhs = .reg a from rfl,show (Pair.null a).rhs = .null from rfl,
    condbr_null] at hsteps
  cases hsteps

theorem Decides.residues_eq {p : IntPredicate} {pair : Pair} (h : Decides p pair) (r : Regs) :
    residues p pair r = truth p pair r := by
  rcases (h _ _ _ (startCtx_ready pair) r).1 (0,1) with ⟨r',hrun⟩
  rcases condbr_steps p (startCtx_ready pair) h.not_null (0,1) r with ⟨r'',hsteps⟩
  have hsame := (run_eq_some hrun).symm.trans hsteps
  simp only [Option.some.injEq,Prod.mk.injEq] at hsame
  cases ht : truth p pair r <;> cases hr : residues p pair r <;> simp_all

/-- The residue of a constant that is not a field element. -/
theorem residue_val {i : BitVec 64} (h : FIELD_ORDER ≤ i.toNat) :
    ((i.toNat : Felt)).val = i.toNat - 0xFFFFFFFF00000001 := by
  have hlt := i.isLt
  have hp : FIELD_ORDER = 0xFFFFFFFF00000001 := rfl
  have hcast : ((i.toNat : Felt)) = ((i.toNat - FIELD_ORDER : ℕ) : Felt) := by
    rw [Nat.cast_sub h,show ((FIELD_ORDER : ℕ) : Felt) = 0 from ZMod.natCast_self _,sub_zero]
  rw [hcast,Felt.val_natCast_of_lt (by omega)]

theorem last_val : ((0xFFFFFFFF00000000 : ℕ) : Felt).val = 0xFFFFFFFF00000000 :=
  Felt.val_natCast_of_lt (by omega)

theorem lt_of_agree_right {p : IntPredicate} {i : BitVec 64}
    (h : ∀ x : Felt, p.holds x.val (i.toNat : Felt).val = p.holds x.val i.toNat) :
    i.toNat < FIELD_ORDER := by
  by_contra hge
  have hlt := i.isLt
  have hp : 0xFFFFFFFF00000001 ≤ i.toNat := not_lt.mp hge
  have hres := residue_val (not_lt.mp hge)
  have hself := h (i.toNat : Felt)
  have hlast := h ((0xFFFFFFFF00000000 : ℕ) : Felt)
  rw [last_val] at hlast
  rw [hres] at hself hlast
  cases p <;> simp [IntPredicate.holds] at hself hlast <;> omega

theorem lt_of_agree_left {p : IntPredicate} {i : BitVec 64}
    (h : ∀ x : Felt, p.holds (i.toNat : Felt).val x.val = p.holds i.toNat x.val) :
    i.toNat < FIELD_ORDER := by
  by_contra hge
  have hlt := i.isLt
  have hp : 0xFFFFFFFF00000001 ≤ i.toNat := not_lt.mp hge
  have hres := residue_val (not_lt.mp hge)
  have hself := h (i.toNat : Felt)
  have hlast := h ((0xFFFFFFFF00000000 : ℕ) : Felt)
  rw [last_val] at hlast
  rw [hres] at hself hlast
  cases p <;> simp [IntPredicate.holds] at hself hlast <;> omega

/-- All registers hold the same. -/
def filled (x : Felt) : Regs := ⟨fun _ => 0,fun _ => x⟩

theorem Decides.canonical {p : IntPredicate} {pair : Pair} (h : Decides p pair) :
    Canonical pair := by
  cases pair with
  | regs a b => trivial
  | null a => exact h.not_null a rfl
  | regConst a i => exact lt_of_agree_right fun x => h.residues_eq (filled x)
  | constReg i b => exact lt_of_agree_left fun x => h.residues_eq (filled x)

theorem Canonical.residues_eq {pair : Pair} (h : Canonical pair) (p : IntPredicate) (r : Regs) :
    residues p pair r = truth p pair r := by
  cases pair with
  | regs a b => rfl
  | null a => exact h.elim
  | regConst a i =>
    show p.holds _ (i.toNat : Felt).val = p.holds _ i.toNat
    rw [Felt.val_natCast_of_lt h]
    rfl
  | constReg i b =>
    show p.holds (i.toNat : Felt).val _ = p.holds i.toNat _
    rw [Felt.val_natCast_of_lt h]
    rfl

theorem Canonical.consts {pair : Pair} (h : Canonical pair) :
    ∀ i ∈ pair.consts, i ≠ BitVec.allOnes 64 := by
  intro i hi heq
  have hlt : i.toNat < FIELD_ORDER := by
    cases pair with
    | regs a b => simp [Pair.consts] at hi
    | null a => simp [Pair.consts] at hi
    | regConst a j =>
      obtain rfl := List.mem_singleton.mp hi
      exact h
    | constReg j b =>
      obtain rfl := List.mem_singleton.mp hi
      exact h
  rw [heq] at hlt
  exact absurd hlt (by decide)

theorem Canonical.not_null {pair : Pair} (h : Canonical pair) (a : VReg) : pair ≠ .null a := by
  rintro rfl
  exact h

theorem run_of_printable {res : Option BasicBlockId × Regs} (h : Printable insts)
    (hsteps : steps insts r = some res) : run insts r = some res := by
  rw [run,if_pos h,hsteps]

theorem condbr_printable {pair : Pair} (h : Canonical pair) (p : IntPredicate) (ctx : Ctx)
    (icmp : InstId) (blocks : BasicBlockId × BasicBlockId) :
    Printable (lowerCondbr icmp (condOf p) pair.lhs pair.rhs blocks ctx).1 := by
  refine Printable.append (lowerCompare_printable p h.consts ctx icmp) ?_
  simp [Printable,Operand.asInput,Operand.plain]

theorem zext_printable {pair : Pair} (h : Canonical pair) (p : IntPredicate) (ctx : Ctx)
    (icmp zext : InstId) :
    Printable (lowerZext zext icmp (condOf p) pair.lhs pair.rhs ctx).1 := by
  refine Printable.append (lowerCompare_printable p h.consts ctx icmp) ?_
  simp [Printable,Operand.asInput,Operand.asOutput]

theorem Canonical.decides {pair : Pair} (h : Canonical pair) (p : IntPredicate) :
    Decides p pair := by
  intro ctx icmp zext hready r
  rw [← h.residues_eq p r]
  refine ⟨fun blocks => ?_,?_⟩
  · obtain ⟨r',hsteps⟩ := condbr_steps p hready h.not_null blocks r
    exact ⟨r',run_of_printable (condbr_printable h p ctx icmp blocks) hsteps⟩
  · obtain ⟨r',hsteps,hvalue,_⟩ := zext_steps p hready h.not_null r
    exact ⟨r',run_of_printable (zext_printable h p ctx icmp zext) hsteps,hvalue⟩

theorem decides_iff (p : IntPredicate) (pair : Pair) : Decides p pair ↔ Canonical pair :=
  ⟨Decides.canonical,fun h => h.decides p⟩

/-! ### Later uses -/

theorem ofBool_injective {a b : Bool} (h : ofBool a = ofBool b) : a = b := by
  cases a <;> cases b <;> first | rfl | exact absurd h (by decide)

theorem Reads.unique {ctx : Ctx} (h : Reads ctx icmp r x) (h' : Reads ctx icmp r y) : x = y := by
  obtain ⟨v,hv,rfl⟩ := h
  obtain ⟨w,hw,rfl⟩ := h'
  rw [Option.some.inj (hv.symm.trans hw)]

theorem Compares.laterValue_eq {p : IntPredicate} {pair : Pair} (h : Compares p pair) (r : Regs) :
    laterValue p pair r = truth p pair r := by
  obtain ⟨r',hrun,-⟩ := (h.1 _ _ _ (startCtx_ready pair) r).2
  obtain ⟨r'',hsteps,-,hreads⟩ := zext_steps p (startCtx_ready pair) h.1.not_null r
  have hsame := (run_eq_some hrun).symm.trans hsteps
  simp only [Option.some.injEq,Prod.mk.injEq,true_and] at hsame
  subst hsame
  exact ofBool_injective (hreads.unique (h.2 _ _ _ (startCtx_ready pair) r _ _ hrun))

theorem Canonical.compares {pair : Pair} (h : Canonical pair) {p : IntPredicate}
    (hlater : ∀ r, laterValue p pair r = truth p pair r) : Compares p pair := by
  refine ⟨h.decides p,fun ctx icmp zext hready r b r' hrun => ?_⟩
  obtain ⟨r'',hsteps,-,hreads⟩ := zext_steps p hready h.not_null r
  have hsame := (run_eq_some hrun).symm.trans hsteps
  simp only [Option.some.injEq,Prod.mk.injEq] at hsame
  rwa [hsame.2,← hlater r]

theorem ne_const_iff {i : BitVec 64} (h : i.toNat < FIELD_ORDER) (x : Felt) :
    x ≠ (i.toNat : Felt) ↔ x.val ≠ i.toNat := by
  have hval : (i.toNat : Felt).val = i.toNat := Felt.val_natCast_of_lt h
  constructor
  · intro hne heq
    exact hne (Felt.ext_val (heq.trans hval.symm))
  · rintro hne rfl
    exact hne hval

theorem Felt.lt_order (x : Felt) : x.val < 0xFFFFFFFF00000001 := OlaLang.Felt.val_lt x

/-- A field element differs from `n` only by being greater exactly if `n` is the least one. -/
theorem greater_iff {n : ℕ} : (∀ x : Felt, (x.val ≠ n ↔ n < x.val)) ↔ n = 0 := by
  constructor
  · intro h
    have hzero := h 0
    rw [ZMod.val_zero] at hzero
    omega
  · rintro rfl x
    omega

/-- It differs only by being less exactly if `n` is the greatest one. -/
theorem less_iff {n : ℕ} (hn : n < 0xFFFFFFFF00000001) :
    (∀ x : Felt, (x.val ≠ n ↔ x.val < n)) ↔ n = 0xFFFFFFFF00000000 := by
  constructor
  · intro h
    have hlast := h ((0xFFFFFFFF00000000 : ℕ) : Felt)
    rw [last_val] at hlast
    omega
  · rintro rfl x
    have hx := Felt.lt_order x
    omega

theorem neverOpposite_iff {p : IntPredicate} {pair : Pair} (h : Canonical pair)
    (hs : isStrict p = true) :
    (∀ r, laterValue p pair r = truth p pair r) ↔ NeverOpposite p pair := by
  have hlater : ∀ r, laterValue p pair r = decide (pair.lhs.felt r ≠ pair.rhs.felt r) := fun r => by
    rw [laterValue,if_pos hs]
  simp only [hlater]
  cases pair with
  | null a => exact h.elim
  | regs a b =>
    constructor
    · intro hall
      by_contra hne
      have hba : b ≠ a := Ne.symm hne
      cases p with
      | EQ | NE | UGE | ULE => cases hs
      | UGT =>
        have hr := hall ⟨fun _ => 0,fun v => if v = a then 0 else 1⟩
        simp [Pair.lhs,Pair.rhs,IrValue.felt,truth,IrValue.toNat,IntPredicate.holds,hba] at hr
      | ULT =>
        have hr := hall ⟨fun _ => 0,fun v => if v = b then 0 else 1⟩
        simp [Pair.lhs,Pair.rhs,IrValue.felt,truth,IrValue.toNat,IntPredicate.holds] at hr
        exact hne hr
    · intro heq r
      obtain rfl : a = b := heq
      cases p with
      | EQ | NE | UGE | ULE => cases hs
      | UGT | ULT => simp [Pair.lhs,Pair.rhs,truth,IntPredicate.holds]
  | regConst a i =>
    have hi : i.toNat < FIELD_ORDER := h
    have hsame : ∀ q : IntPredicate, (∀ r : Regs, decide (r.vreg a ≠ (i.toNat : Felt)) =
        q.holds (r.vreg a).val i.toNat) ↔ ∀ x : Felt, (x.val ≠ i.toNat ↔ q.holds x.val i.toNat) :=
      fun q => by
        simp only [← ne_const_iff hi]
        constructor
        · intro hall x
          have hx : decide (x ≠ (i.toNat : Felt)) = q.holds x.val i.toNat := hall (filled x)
          rw [← hx]
          exact decide_eq_true_iff.symm
        · intro hall r
          rw [Bool.eq_iff_iff,decide_eq_true_iff]
          exact hall (r.vreg a)
    refine (hsame p).trans ?_
    cases p with
    | EQ | NE | UGE | ULE => cases hs
    | UGT =>
      simp only [IntPredicate.holds,decide_eq_true_eq]
      exact greater_iff
    | ULT =>
      simp only [IntPredicate.holds,decide_eq_true_eq]
      exact less_iff hi
  | constReg i b =>
    have hi : i.toNat < FIELD_ORDER := h
    have hsame : ∀ q : IntPredicate, (∀ r : Regs, decide ((i.toNat : Felt) ≠ r.vreg b) =
        q.holds i.toNat (r.vreg b).val) ↔ ∀ x : Felt, (x.val ≠ i.toNat ↔ q.holds i.toNat x.val) :=
      fun q => by
        simp only [← ne_const_iff hi]
        constructor
        · intro hall x
          have hx : decide ((i.toNat : Felt) ≠ x) = q.holds i.toNat x.val := hall (filled x)
          rw [← hx,decide_eq_true_iff]
          exact ne_comm
        · intro hall r
          rw [Bool.eq_iff_iff,decide_eq_true_iff,← hall (r.vreg b)]
          exact ne_comm
    refine (hsame p).trans ?_
    cases p with
    | EQ | NE | UGE | ULE => cases hs
    | UGT =>
      simp only [IntPredicate.holds,decide_eq_true_eq]
      exact less_iff hi
    | ULT =>
      simp only [IntPredicate.holds,decide_eq_true_eq]
      exact greater_iff

theorem compares_iff (p : IntPredicate) (pair : Pair) :
    Compares p pair ↔ Canonical pair ∧ (isStrict p = true → NeverOpposite p pair) := by
  constructor
  · intro h
    have hcanonical := h.1.canonical
    exact ⟨hcanonical,fun hs => (neverOpposite_iff hcanonical hs).mp h.laterValue_eq⟩
  · rintro ⟨hcanonical,hnever⟩
    refine hcanonical.compares fun r => ?_
    cases hs : isStrict p with
    | true => exact (neverOpposite_iff hcanonical hs).mpr (hnever hs) r
    | false =>
      rw [laterValue,hs]
      exact hcanonical.residues_eq p r

/-! ### Switches -/

/-- The block of the case that is equal to the scrutinee, or the default. -/
def blockOf (cases : List (BitVec 64 × BasicBlockId)) (default : BasicBlockId) (n : ℕ) :
    BasicBlockId :=
  ((cases.find? fun case => case.1.toNat = n).map Prod.snd).getD default

/-- The chain of tests jumps to that block. -/
def Switches (src : VReg) (cases : List (BitVec 64 × BasicBlockId)) (default : BasicBlockId) :
    Prop :=
  ∀ r, ∃ r', run (lowerSwitch src cases default) r =
    some (some (blockOf cases default (r.vreg src).val),r')

/-- No case is `-1`, and a case that is not a field element stands behind the one that is less by
the order of the field, or has the block of that value. -/
def Separates (cases : List (BitVec 64 × BasicBlockId)) (default : BasicBlockId) : Prop :=
  (∀ case ∈ cases, case.1 ≠ BitVec.allOnes 64) ∧
    ∀ before case after, cases = before ++ case::after → FIELD_ORDER ≤ case.1.toNat →
      (∃ c ∈ before, c.1.toNat = case.1.toNat - FIELD_ORDER) ∨
        case.2 = blockOf cases default (case.1.toNat - FIELD_ORDER)

/-- The block that the chain finds. -/
def chainOf (cases : List (BitVec 64 × BasicBlockId)) (default : BasicBlockId) (x : Felt) :
    BasicBlockId :=
  ((cases.find? fun case => x = (case.1.toNat : Felt)).map Prod.snd).getD default

variable {cases : List (BitVec 64 × BasicBlockId)} {default : BasicBlockId}

theorem lowerSwitch_steps (cases : List (BitVec 64 × BasicBlockId)) (default : BasicBlockId)
    (src : VReg) (r : Regs) :
    ∃ r', steps (lowerSwitch src cases default) r =
      some (some (chainOf cases default (r.vreg src)),r') := by
  induction cases generalizing r with
  | nil => exact ⟨r,rfl⟩
  | cons case rest ih =>
    set b := decide (r.vreg src = (case.1.toNat : Felt)) with hb
    set m : Regs := { r with reg := Function.update r.reg (GR 8) (ofBool b) } with hm
    have hexec : steps (lowerSwitch src (case::rest) default) r =
        if m.reg (GR 8) = 1 then some (some case.2,m) else steps (lowerSwitch src rest default) m := rfl
    have hr8 : m.reg (GR 8) = ofBool b := by simp [hm]
    rw [hexec,hr8]
    simp only [ofBool_eq_one,chainOf,List.find?_cons]
    cases hcase : b with
    | true =>
      have heq : decide (r.vreg src = (case.1.toNat : Felt)) = true := hcase
      exact ⟨m,by simp [heq]⟩
    | false =>
      have heq : decide (r.vreg src = (case.1.toNat : Felt)) = false := hcase
      obtain ⟨r',hrest⟩ := ih m
      refine ⟨r',?_⟩
      rw [if_neg Bool.false_ne_true,hrest,heq]
      rfl

theorem lowerSwitch_printable (cases : List (BitVec 64 × BasicBlockId)) (default : BasicBlockId)
    (src : VReg) : Printable (lowerSwitch src cases default) ↔
    ∀ case ∈ cases, case.1 ≠ BitVec.allOnes 64 := by
  induction cases with
  | nil => simp [lowerSwitch,Printable,Operand.plain]
  | cons case rest ih =>
    have hsplit : Printable (lowerSwitch src (case::rest) default) ↔
        Printable (caseInsts src case) ∧ Printable (lowerSwitch src rest default) := by
      simp only [Printable,lowerSwitch,List.flatMap_cons,List.append_assoc,List.forall_mem_append]
    have hcase : Printable (caseInsts src case) ↔ case.1 ≠ BitVec.allOnes 64 := by
      simp [Printable,caseInsts,Operand.asInput,Operand.asOutput,Operand.plain]
    rw [hsplit,hcase,ih,List.forall_mem_cons]

theorem switches_chain (src : VReg) : Switches src cases default ↔
    (∀ case ∈ cases, case.1 ≠ BitVec.allOnes 64) ∧
      ∀ x : Felt, chainOf cases default x = blockOf cases default x.val := by
  rw [← lowerSwitch_printable cases default src]
  constructor
  · intro h
    have hprint : Printable (lowerSwitch src cases default) := by
      rcases h (filled 0) with ⟨r',hrun⟩
      unfold run at hrun
      split at hrun
      · assumption
      · cases hrun
    refine ⟨hprint,fun x => ?_⟩
    rcases h (filled x) with ⟨r',hrun⟩
    rcases lowerSwitch_steps cases default src (filled x) with ⟨r'',hsteps⟩
    have hsame := (run_eq_some hrun).symm.trans hsteps
    simp only [Option.some.injEq,Prod.mk.injEq] at hsame
    exact hsame.1.symm
  · rintro ⟨hprint,hchain⟩ r
    rcases lowerSwitch_steps cases default src r with ⟨r',hsteps⟩
    rw [← hchain]
    exact ⟨r',run_of_printable hprint hsteps⟩

/-- A constant stands for the residue of its value. -/
theorem eq_const_iff (x : Felt) (i : BitVec 64) : x = (i.toNat : Felt) ↔
    i.toNat = x.val ∨ i.toNat = x.val + FIELD_ORDER := by
  have hx := Felt.lt_order x
  have hp : FIELD_ORDER = 0xFFFFFFFF00000001 := rfl
  have hi := i.isLt
  have hval : x = (i.toNat : Felt) ↔ x.val = (i.toNat : Felt).val :=
    ⟨fun h => congrArg _ h,OlaLang.Felt.ext_val⟩
  rw [hval]
  by_cases hlt : i.toNat < FIELD_ORDER
  · rw [OlaLang.Felt.val_natCast_of_lt hlt]
    omega
  · rw [residue_val (not_lt.mp hlt)]
    omega

theorem find_chain {before after : List (BitVec 64 × BasicBlockId)} {case : BitVec 64 × BasicBlockId}
    {q : BitVec 64 × BasicBlockId → Bool} (hcases : cases = before ++ case::after)
    (hq : q case = true) (hbefore : ∀ c ∈ before, q c = false) :
    ((cases.find? q).map Prod.snd).getD default = case.2 := by
  have hfind : cases.find? q = some case := by
    rw [List.find?_eq_some_iff_append]
    exact ⟨hq,before,after,hcases,fun c hc => by simp [hbefore c hc]⟩
  rw [hfind]
  rfl

theorem chain_iff (hnodup : (cases.map Prod.fst).Nodup) :
    (∀ x : Felt, chainOf cases default x = blockOf cases default x.val) ↔
      ∀ before case after, cases = before ++ case::after → FIELD_ORDER ≤ case.1.toNat →
        (∃ c ∈ before, c.1.toNat = case.1.toNat - FIELD_ORDER) ∨
          case.2 = blockOf cases default (case.1.toNat - FIELD_ORDER) := by
  constructor
  · intro h before case after hcases hge
    by_contra hnot
    push Not at hnot
    obtain ⟨hnone,hne⟩ := hnot
    have hval : ((case.1.toNat : Felt)).val = case.1.toNat - FIELD_ORDER := residue_val hge
    refine hne ?_
    rw [← hval,← h,chainOf]
    refine (find_chain hcases (by simp) fun c hc => ?_).symm
    rw [decide_eq_false_iff_not,eq_const_iff,hval]
    rintro (heq | heq)
    · exact hnone c hc heq
    · have hsame : c.1 = case.1 := BitVec.eq_of_toNat_eq (by omega)
      rw [hcases,List.map_append,List.nodup_append] at hnodup
      exact hnodup.2.2 c.1 (List.mem_map_of_mem hc) case.1 (by simp) hsame
  · intro h x
    cases hfind : cases.find? fun case => x = (case.1.toNat : Felt) with
    | none =>
      have hnone : (cases.find? fun case => case.1.toNat = x.val) = none := by
        rw [List.find?_eq_none] at hfind ⊢
        intro c hc
        have := hfind c hc
        simp only [decide_eq_true_eq,eq_const_iff] at this ⊢
        tauto
      rw [chainOf,blockOf,hfind,hnone]
    | some case =>
      obtain ⟨hcase,before,after,hcases,hbefore⟩ := List.find?_eq_some_iff_append.mp hfind
      rw [chainOf,hfind]
      show case.2 = _
      have hbefore' : ∀ c ∈ before, c.1.toNat ≠ x.val := fun c hc heq => by
        have := hbefore c hc
        simp only [Bool.not_eq_true',decide_eq_false_iff_not,eq_const_iff] at this
        exact this (.inl heq)
      rcases (eq_const_iff x case.1).mp (by simpa using hcase) with heq | heq
      · refine (find_chain hcases (by simpa using heq) fun c hc => ?_).symm
        simpa using hbefore' c hc
      · rcases h before case after hcases (by omega) with ⟨c,hc,hval⟩ | hblock
        · exact absurd (by omega : c.1.toNat = x.val) (hbefore' c hc)
        · have hval : case.1.toNat - FIELD_ORDER = x.val := by omega
          rw [hblock,hval]

theorem switches_iff (src : VReg) (hnodup : (cases.map Prod.fst).Nodup) :
    Switches src cases default ↔ Separates cases default := by
  rw [switches_chain,chain_iff hnodup]
  rfl

/-! ### Both -/

/-- Branches and extensions of comparisons are right for registers and constants that are field
elements, later uses unless the comparison is strict and its operands can be in the opposite order,
and switches for cases that are field elements or cannot be mistaken for others. -/
theorem comparisons_and_switches_iff (p : IntPredicate) (pair : Pair) (src : VReg)
    (cases : List (BitVec 64 × BasicBlockId)) (default : BasicBlockId) :
    (Decides p pair ↔ Canonical pair) ∧
      (Compares p pair ↔ Canonical pair ∧ (isStrict p = true → NeverOpposite p pair)) ∧
      ((cases.map Prod.fst).Nodup → (Switches src cases default ↔ Separates cases default)) :=
  ⟨decides_iff p pair,compares_iff p pair,switches_iff src⟩

/-- `%1 = icmp ult i64 %a, %b; %2 = zext i1 %1 to i64` for 2 and 1: the extension is 0, and what a
later use of `%1` in the block reads is 1. -/
theorem strictCompare_misread :
    (let code := lowerZext 1 0 .ult (.reg 0) (.reg 1) ⟨2,fun _ => none⟩
      let r : Regs := ⟨fun _ => 0,fun v => if v = 0 then 2 else 1⟩
      (run code.1 r).map (fun res => res.2.vreg code.2.1) = some 0 ∧ code.2.2.instIdToVreg 0 = some 3 ∧
        (run code.1 r).map (fun res => res.2.vreg 3) = some 1) ∧
      ¬ Compares .ULT (.regs 0 1) := by
  refine ⟨by decide,fun h => ?_⟩
  have hsame : (0 : ℕ) = 1 := ((compares_iff .ULT (.regs 0 1)).mp h).2 rfl
  exact absurd hsame (by decide)

end CompareLowering
end Codegen
end OlaLang
