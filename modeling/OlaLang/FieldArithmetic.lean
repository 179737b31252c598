import OlaLang.ConstantEval
import OlaLang.U32Faithful

/-! Expressions of type field. They share the operators of u32: every result is checked to fit
32 bits, and literals are combined on 64-bit words before the field order is known. -/
namespace OlaLang
namespace FieldArithmetic

open Builder U32Op ConstantEval

/-- The operators of the field type. -/
def isFieldOp : BinaryOp → Bool
  | .add | .subtract | .multiply => true
  | _ => false

/-- Expressions of type field from variables, literals and the operators. -/
inductive IsField : Term → Prop
  | numberLiteral (value : ℕ) : IsField (.numberLiteral .field value)
  | variable (x : ℕ) : IsField (.variable .field x)
  | binary {op : BinaryOp} {l r : Term} (hop : isFieldOp op = true) (hl : IsField l)
      (hr : IsField r) : IsField (.binary op .field l r)

def intOp : BinaryOp → ℤ → ℤ → ℤ
  | .add, m, n => m+n
  | .subtract, m, n => m-n
  | _, m, n => m*n

def feltOp : BinaryOp → Felt → Felt → Felt
  | .add, a, b => a+b
  | .subtract, a, b => a-b
  | _, a, b => a*b

def wordOp : BinaryOp → BitVec 64 → BitVec 64 → BitVec 64
  | .add, a, b => a+b
  | .subtract, a, b => a-b
  | _, a, b => a*b

/-! ### Operators on any operands -/

/-- What an operator hands on when its check passes. -/
def opValue (op : BinaryOp) : Value → Value → Value
  | .const a, .const b => .const (wordOp op a b)
  | a, b => .int (feltOp op a.felt b.felt)

/-- The range check of an operand: a constant must also be printable. -/
def InRange : Value → Prop
  | .const w => w ≠ BitVec.allOnes 64 ∧ Felt.IsU32 (w.toNat : Felt)
  | v => Felt.IsU32 v.felt

variable {host : Host} {op : BinaryOp} {a b v : Value} {m m' : State}

theorem builtinRangeCheck_eq_ok {u : Unit} :
    builtinRangeCheck v m = .ok (u,m') ↔ InRange v ∧ m' = m := by
  cases v with
  | const w => exact U32Exactness.builtinRangeCheck_const_eq_ok.trans and_assoc.symm
  | int f => exact builtinRangeCheck_int_eq_ok
  | ptr p =>
    show (if Felt.IsU32 p.address then pure () else Exec.fail Fault.abort : Code Unit) m = _ ↔ _
    by_cases h : Felt.IsU32 p.address
    · simp [h,InRange,Value.felt,eq_comm]
    · simp [h,InRange,Value.felt]

theorem buildInt_eq {fold : BitVec 64 → BitVec 64 → BitVec 64} {f : Felt → Felt → Felt}
    (hfold : fold = wordOp op) (hf : f = feltOp op)
    (ha : a.isPointer = false) (hb : b.isPointer = false) :
    buildInt fold f a b = pure (opValue op a b) := by
  rw [hfold,hf]
  cases a with
  | ptr p => cases ha
  | const x => cases b with
    | ptr q => cases hb
    | const y => rfl
    | int g => rfl
  | int g => cases b with
    | ptr q => cases hb
    | const y => rfl
    | int h => rfl

theorem binaryOp_eq_ok (hop : isFieldOp op = true) (ha : a.isPointer = false)
    (hb : b.isPointer = false) :
    binaryOp host op a b m = .ok (v,m') ↔
      InRange (opValue op a b) ∧ v = opValue op a b ∧ m' = m := by
  have hchecked : ∀ build, build a b = pure (opValue op a b) →
      (checked build a b m = .ok (v,m') ↔ InRange (opValue op a b) ∧ v = opValue op a b ∧ m' = m) := by
    intro build hbuild
    rw [U32Exactness.checked_eq_ok hbuild,builtinRangeCheck_eq_ok]
    tauto
  cases op with
  | add => exact hchecked _ (buildInt_eq rfl rfl ha hb)
  | subtract => exact hchecked _ (buildInt_eq rfl rfl ha hb)
  | multiply => exact hchecked _ (buildInt_eq rfl rfl ha hb)
  | _ => cases hop

/-! ### Values in the field, and when the checks pass -/

/-- The value of an expression in the field. -/
def value (ρ : ℕ → Felt) : Term → Felt
  | .numberLiteral _ n => n
  | .variable _ x => ρ x
  | .binary op _ l r => feltOp op (value ρ l) (value ρ r)
  | .constantVariable _ e => value ρ e
  | .bitwiseNot _ e => value ρ e

/-- The integer an expression of literals stands for. -/
def literalValue : Term → Option ℤ
  | .numberLiteral _ n => some n
  | .binary op _ l r => do
    let x ← literalValue l
    let y ← literalValue r
    some (intOp op x y)
  | _ => none

/-- The results of literals that pass the check: their 64-bit words are below `2^32`, or reduce
below it and can be printed. -/
def FoldedFits (z : ℤ) : Prop :=
  z % 2^64 < 2^32 ∨ (FIELD_ORDER : ℤ) ≤ z % 2^64 ∧ z % 2^64 < 2^64-1

instance (z : ℤ) : Decidable (FoldedFits z) := by unfold FoldedFits; infer_instance

/-- Every operation passes its check. -/
def Fits (ρ : ℕ → Felt) : Term → Prop
  | .binary op ty l r => Fits ρ l ∧ Fits ρ r ∧ match literalValue (.binary op ty l r) with
    | some z => FoldedFits z
    | none => Felt.IsU32 (value ρ (.binary op ty l r))
  | _ => True

/-- The value of a local variable. -/
def env (s : GenState) (x : ℕ) : Felt := match s.vars x with
  | some v => s.machine.cell v.pointer
  | none => 0

/-- Every variable of the expression has a cell. -/
def Declared (s : GenState) : Term → Prop
  | .variable _ x => ∃ p, s.vars x = some (.ptr p)
  | .binary _ _ l r => Declared s l ∧ Declared s r
  | _ => True

/-- The emitted code completes with the value of the expression. -/
def Yields (ctx : Context) (t : Term) (s : GenState) : Prop :=
  ∃ v u, generate ctx t s = .ok (v,u) ∧ v.felt = value (env s) t

/-! ### Literals -/

variable {ctx : Context} {s u : GenState} {ρ : ℕ → Felt} {t l r : Term} {z : ℤ}

theorem inRange_ofInt : InRange (.const (BitVec.ofInt 64 z)) ↔ FoldedFits z := by
  have h0 := Int.emod_nonneg z (show (2^64 : ℤ) ≠ 0 by decide)
  have hlt := Int.emod_lt_of_pos z (show (0 : ℤ) < 2^64 by decide)
  have hnat : (BitVec.ofInt 64 z).toNat = (z % 2^64).toNat := BitVec.toNat_ofInt z
  have hne : BitVec.ofInt 64 z ≠ BitVec.allOnes 64 ↔ (z % 2^64).toNat ≠ 2^64-1 := by
    rw [Ne,← BitVec.toNat_inj,hnat,BitVec.toNat_allOnes]
  have hval : ((z % 2^64).toNat : Felt).val = (z % 2^64).toNat % 0xFFFFFFFF00000001 :=
    ZMod.val_natCast _ _
  rw [InRange,hne,hnat,Felt.IsU32,hval]
  show _ ↔ _ ∨ (0xFFFFFFFF00000001 : ℤ) ≤ _ ∧ _
  omega

theorem wordOp_ofInt (x y : ℤ) :
    wordOp op (BitVec.ofInt 64 x) (BitVec.ofInt 64 y) = BitVec.ofInt 64 (intOp op x y) := by
  cases op with
  | add => exact (BitVec.ofInt_add x y).symm
  | subtract =>
    apply BitVec.eq_of_toInt_eq
    simp [wordOp,intOp]
  | _ => exact (BitVec.ofInt_mul x y).symm

theorem intCast_intOp (x y : ℤ) : ((intOp op x y : ℤ) : Felt) = feltOp op (x : Felt) (y : Felt) := by
  cases op <;> simp [intOp,feltOp]

theorem value_literal (hz : literalValue t = some z) : value ρ t = (z : Felt) := by
  induction t generalizing z with
  | numberLiteral ty n =>
    cases hz
    exact (Int.cast_natCast n).symm
  | binary op ty l r ihl ihr =>
    simp only [literalValue,Option.bind_eq_bind,Option.bind_eq_some_iff,Option.some.injEq] at hz
    rcases hz with ⟨x,hx,y,hy,rfl⟩
    rw [value,ihl hx,ihr hy,intCast_intOp]
  | «variable» ty x => cases hz
  | constantVariable ty e ih => cases hz
  | bitwiseNot ty e ih => cases hz

/-- A constant between zero and the field order denotes itself in the field. -/
theorem felt_ofInt (h0 : 0 ≤ z) (hz : z ≤ FIELD_ORDER) :
    (Value.const (BitVec.ofInt 64 z)).felt = (z : Felt) := by
  have hle : z ≤ 0xFFFFFFFF00000001 := hz
  have hnat : (BitVec.ofInt 64 z).toNat = z.toNat := by
    rw [BitVec.toNat_ofInt]
    omega
  rw [Value.felt_const,hnat,← Int.cast_natCast,Int.toNat_of_nonneg h0]

/-! ### What the semantic analysis accepts -/

/-- The literals of an expression that are folded as one stay in the field. -/
def Small : Term → Prop
  | .binary op ty l r => match literalValue (.binary op ty l r) with
    | some z => 0 ≤ z ∧ z ≤ FIELD_ORDER
    | none => Small l ∧ Small r
  | .numberLiteral _ n => n ≤ FIELD_ORDER
  | _ => True

theorem foldOp_eq (hop : isFieldOp op = true) (x y : ℤ) : foldOp op x y = ⟨some (intOp op x y),true,[]⟩ := by
  cases op <;> first | rfl | cases hop

theorem evalConstantsInExpression_eq (h : IsField t) :
    evalConstantsInExpression t = ⟨literalValue t,true,[]⟩ := by
  induction h with
  | numberLiteral value => rfl
  | «variable» x => rfl
  | @binary op l r hop hl hr ihl ihr =>
    rw [evalConstantsInExpression,ihl,ihr]
    cases hx : literalValue l with
    | none => simp [literalValue,hx]
    | some x => cases hy : literalValue r with
      | none => simp [literalValue,hx,hy]
      | some y => simp [literalValue,hx,hy,foldOp_eq hop]

theorem overflowCheck_field : overflowCheck z .field = .ok none ↔ 0 ≤ z ∧ z ≤ FIELD_ORDER := by
  have hp : (FIELD_ORDER : ℤ) = 0xFFFFFFFF00000001 := rfl
  unfold overflowCheck
  dsimp only
  split_ifs <;> simp <;> omega

/-- Whatever `overflow_check` reports is an error. -/
theorem overflowCheck_level {ty : Ty} {o : Option Diagnostic} (h : overflowCheck z ty = .ok o)
    {d : Diagnostic} (hd : d ∈ o) : d.level = .error := by
  have hcases : o = none ∨ ∃ message, o = some (Diagnostic.error message) := by
    unfold overflowCheck at h
    by_cases h0 : z < 0
    · rw [if_pos h0] at h
      cases h
      exact Or.inr ⟨_,rfl⟩
    · rw [if_neg h0] at h
      split at h <;> (try split_ifs at h) <;> cases h <;> simp
  rcases hcases with rfl | ⟨message,rfl⟩
  · cases hd
  · cases hd
    rfl

theorem accepted_literal (h : IsField t) (hz : literalValue t = some z) (hacc : Accepted t) :
    0 ≤ z ∧ z ≤ FIELD_ORDER := by
  have hfold := evalConstantsInExpression_eq h
  rw [hz] at hfold
  have hrun : recurse t = (overflowCheck z .field >>= fun o => pure o.toList) := by
    cases h with
    | numberLiteral value =>
      cases hz
      simp [recurse,checkTermForConstantOverflow,evalConstantsInExpression,Term.ty]
    | «variable» x => cases hz
    | @binary op l r hop hl hr =>
      simp [recurse,checkTermForConstantOverflow,hfold,Term.ty]
  rcases hacc with ⟨reported,hok,hlevel⟩
  rw [hrun] at hok
  cases ho : overflowCheck z .field with
  | error e =>
    rw [ho] at hok
    cases hok
  | ok o =>
    rw [ho] at hok
    cases hok
    cases o with
    | none => exact overflowCheck_field.mp ho
    | some d => exact absurd (overflowCheck_level ho rfl) (hlevel d (by simp))

theorem accepted_operands {l r : Term} (h : IsField (.binary op .field l r))
    (hz : literalValue (.binary op .field l r) = none) (hacc : Accepted (.binary op .field l r)) :
    Accepted l ∧ Accepted r := by
  have hfold := evalConstantsInExpression_eq h
  rw [hz] at hfold
  rcases hacc with ⟨reported,hok,hlevel⟩
  simp only [recurse,checkTermForConstantOverflow,hfold] at hok
  have hrun : (recurse l >>= fun dl => recurse r >>= fun dr => pure (dl ++ dr)) =
      .ok reported := hok
  cases hl : recurse l with
  | error e =>
    rw [hl] at hrun
    cases hrun
  | ok dl => cases hr : recurse r with
    | error e =>
      rw [hl,hr] at hrun
      cases hrun
    | ok dr =>
      rw [hl,hr] at hrun
      cases hrun
      exact ⟨⟨dl,hl,fun d hd => hlevel d (List.mem_append_left _ hd)⟩,
        ⟨dr,hr,fun d hd => hlevel d (List.mem_append_right _ hd)⟩⟩

theorem small_of_accepted (h : IsField t) (hacc : Accepted t) : Small t := by
  induction h with
  | numberLiteral value =>
    have hlit := accepted_literal (.numberLiteral value) rfl hacc
    exact_mod_cast hlit.2
  | «variable» x => trivial
  | @binary op l r hop hl hr ihl ihr =>
    have hfield : IsField (.binary op .field l r) := .binary hop hl hr
    rw [Small]
    cases hz : literalValue (.binary op .field l r) with
    | some z => exact accepted_literal hfield hz hacc
    | none =>
      rcases accepted_operands hfield hz hacc with ⟨hacl,hacr⟩
      exact ⟨ihl hacl,ihr hacr⟩

/-! ### The emitted code -/

/-- What the emitted code of an expression hands on when all its checks pass. -/
def result (ρ : ℕ → Felt) (t : Term) : Value := match literalValue t with
  | some z => .const (BitVec.ofInt 64 z)
  | none => .int (value ρ t)

theorem result_isPointer : (result ρ t).isPointer = false := by
  unfold result
  cases literalValue t <;> rfl

theorem small_literal (h : Small t) (hz : literalValue t = some z) : 0 ≤ z ∧ z ≤ FIELD_ORDER := by
  cases t with
  | numberLiteral ty n =>
    cases hz
    exact ⟨Int.natCast_nonneg n,by exact_mod_cast h⟩
  | binary op ty l r =>
    rw [Small,hz] at h
    exact h
  | «variable» ty x => cases hz
  | constantVariable ty e => cases hz
  | bitwiseNot ty e => cases hz

theorem result_felt (h : Small t) : (result ρ t).felt = value ρ t := by
  unfold result
  cases hz : literalValue t with
  | none => rfl
  | some z =>
    have hbound := small_literal h hz
    rw [value_literal hz]
    exact felt_ofInt hbound.1 hbound.2

/-- The operands of an operator are literals, or each of them denotes its value. -/
theorem result_binary {ty : Ty} (h : literalValue (.binary op ty l r) = none → Small l ∧ Small r) :
    opValue op (result ρ l) (result ρ r) = result ρ (.binary op ty l r) := by
  cases hz : literalValue (.binary op ty l r) with
  | some z =>
    have hresult : result ρ (.binary op ty l r) = .const (BitVec.ofInt 64 z) := by
      rw [result,hz]
    simp only [literalValue,Option.bind_eq_bind,Option.bind_eq_some_iff,Option.some.injEq] at hz
    rcases hz with ⟨x,hx,y,hy,rfl⟩
    rw [hresult]
    simp only [result,hx,hy,opValue,wordOp_ofInt]
  | none =>
    have hsmall := h hz
    have hnot : opValue op (result ρ l) (result ρ r) =
        .int (feltOp op (result ρ l).felt (result ρ r).felt) := by
      cases hx : literalValue l with
      | none => simp [result,hx,opValue]
      | some x => cases hy : literalValue r with
        | none => simp [result,hx,hy,opValue]
        | some y => simp [literalValue,hx,hy] at hz
    rw [hnot,result_felt hsmall.1,result_felt hsmall.2,result,hz]
    rfl

theorem inRange_result {ty : Ty} : InRange (result ρ (.binary op ty l r)) ↔
    match literalValue (.binary op ty l r) with
    | some z => FoldedFits z
    | none => Felt.IsU32 (value ρ (.binary op ty l r)) := by
  rw [result]
  cases literalValue (.binary op ty l r) with
  | some z => exact inRange_ofInt
  | none => exact Iff.rfl

theorem small_operands {ty : Ty} (h : literalValue (.binary op ty l r) = none →
    Small (.binary op ty l r)) (hz : literalValue (.binary op ty l r) = none) :
    Small l ∧ Small r := by
  have hsmall := h hz
  rw [Small,hz] at hsmall
  exact hsmall

/-- The emitted code completes exactly when every operation passes its check. -/
theorem generate_eq_ok (h : IsField t) (hvars : Declared s t)
    (hsmall : literalValue t = none → Small t) :
    generate ctx t s = .ok (v,u) ↔ Fits (env s) t ∧ v = result (env s) t ∧ u = s := by
  induction h generalizing v u with
  | numberLiteral n =>
    have hrun : generate ctx (.numberLiteral .field n) s =
        .ok (result (env s) (.numberLiteral .field n),s) := by
      rw [result,literalValue]
      exact congrArg (fun w => Except.ok (Value.const w,s)) (BitVec.ofInt_natCast 64 n).symm
    rw [hrun]
    simp [Fits,eq_comm]
  | «variable» x =>
    rcases hvars with ⟨p,hp⟩
    have hrun : generate ctx (.variable .field x) s = .ok (result (env s) (.variable .field x),s) := by
      rw [generate,expression,Exec.bind_ok (Gen.getVar_eq_ok.mpr ⟨hp,rfl⟩)]
      simp only [result,literalValue,value,env,hp]
      rfl
    rw [hrun]
    simp [Fits,eq_comm]
  | @binary op l r hop hl hr ihl ihr =>
    have hops := small_operands hsmall
    have hsl : literalValue l = none → Small l := by
      intro hx
      exact (hops (by simp [literalValue,hx])).1
    have hsr : literalValue r = none → Small r := by
      intro hy
      refine (hops ?_).2
      cases hx : literalValue l <;> simp [literalValue,hx,hy]
    rw [generate_binary_eq_ok,Fits,← inRange_result,← result_binary hops]
    constructor
    · rintro ⟨a,w,b,w',m,hrunl,hrunr,hrun,rfl⟩
      rcases (ihl hvars.1 hsl).mp hrunl with ⟨hfl,rfl,rfl⟩
      rcases (ihr hvars.2 hsr).mp hrunr with ⟨hfr,rfl,rfl⟩
      rcases (binaryOp_eq_ok hop result_isPointer result_isPointer).mp hrun with ⟨hin,rfl,rfl⟩
      exact ⟨⟨hfl,hfr,hin⟩,rfl,rfl⟩
    · rintro ⟨⟨hfl,hfr,hin⟩,rfl,rfl⟩
      exact ⟨_,_,_,_,_,(ihl hvars.1 hsl).mpr ⟨hfl,rfl,rfl⟩,(ihr hvars.2 hsr).mpr ⟨hfr,rfl,rfl⟩,
        (binaryOp_eq_ok hop result_isPointer result_isPointer).mpr ⟨hin,rfl,rfl⟩,rfl⟩

/-- The emitted code of an accepted expression of type field computes modulo the field order exactly
when every operation passes the 32-bit check that it shares with u32. -/
theorem field_arithmetic_iff (ctx : Context) (s : GenState) (t : Term) (h : IsField t)
    (hvars : Declared s t) (hacc : Accepted t) : Yields ctx t s ↔ Fits (env s) t := by
  have hsmall := small_of_accepted h hacc
  constructor
  · rintro ⟨v,u,hrun,_⟩
    exact ((generate_eq_ok h hvars fun _ => hsmall).mp hrun).1
  · intro hfits
    exact ⟨_,_,(generate_eq_ok h hvars fun _ => hsmall).mpr ⟨hfits,rfl,rfl⟩,result_felt hsmall⟩

/-- Functions that stop, and prophets that answer zero. -/
def idleContext : Context where
  host := ⟨fun _ => Word.zero,fun _ => 0,fun _ _ => 0,fun _ _ => 0,fun _ => 0,fun _ => 0⟩
  layout := id
  callee _ _ := Exec.fail .abort

/-- One field variable, in cell one. -/
def oneField (x : Felt) : GenState where
  machine := ⟨fun _ => .int x,0,2,fun _ => Word.zero⟩
  vars y := if y = 0 then some (.ptr (.stack 1)) else none
  trace := []

/-- The variable plus one. -/
def successor : Term := .binary .add .field (.variable .field 0) (.numberLiteral .field 1)

theorem isField_successor : IsField successor := .binary rfl (.variable 0) (.numberLiteral 1)

theorem declared_successor (x : Felt) : Declared (oneField x) successor := ⟨⟨_,rfl⟩,trivial⟩

theorem accepted_successor : Accepted successor := ⟨[],rfl,fun _ h => absurd h List.not_mem_nil⟩

theorem field_arithmetic_iff_successor :
    (IsField successor ∧ Declared (oneField 3) successor ∧ Accepted successor) ∧
    (Yields idleContext successor (oneField 3) ↔ Fits (env (oneField 3)) successor) :=
  ⟨⟨isField_successor,declared_successor 3,accepted_successor⟩,
    field_arithmetic_iff idleContext (oneField 3) successor isField_successor
      (declared_successor 3) accepted_successor⟩

/-- A field variable holding `2^32` plus one stops the program. -/
theorem large_field_aborts :
    IsField successor ∧ Declared (oneField (2^32)) successor ∧ Accepted successor ∧
    ¬ Yields idleContext successor (oneField (2^32)) := by
  refine ⟨isField_successor,declared_successor _,accepted_successor,?_⟩
  rintro ⟨v,u,hrun,_⟩
  have hfits := ((generate_eq_ok isField_successor (declared_successor _)
    fun _ => small_of_accepted isField_successor accepted_successor).mp hrun).1
  have hlarge : ¬ Felt.IsU32 ((2^32 : Felt) + 1) := by decide
  exact hlarge hfits.2.2

end FieldArithmetic
end OlaLang
