import OlaLang.FieldArithmetic
import OlaLang.U32Exactness

/-! Constant evaluation against execution: where the integers computed at compile time are the
values the emitted code returns. -/
namespace OlaLang
namespace ConstantAgreement

open Builder U32Op ConstantEval
open Exec (except_bind_eq_ok)
open U32Exactness (operand opState powMod CellAccepted foldsConstants opCells natCast_powMod powMod_eq_val
  powMod_lt operand_const operand_int operand_isPointer intoIntValue_operand)
open U32Division (Accepted resultCell afterStores u32Div_eq_ok u32Mod_eq_ok)

/-- Prophets that divide the values of any two field elements. -/
structure HonestProphets (host : Host) : Prop where
  div : ∀ n d : Felt, d ≠ 0 → host.prophetU32Div n d = (n.val / d.val : ℕ)
  mod : ∀ n d : Felt, d ≠ 0 → host.prophetU32Mod n d = (n.val % d.val : ℕ)

/-- Constant expressions of type u32. -/
inductive IsConstant : Term → Prop
  | numberLiteral (value : ℕ) : IsConstant (.numberLiteral .uint32 value)
  | constantVariable {e : Term} (he : IsConstant e) : IsConstant (.constantVariable .uint32 e)
  | binary {op : BinaryOp} {l r : Term} (hl : IsConstant l) (hr : IsConstant r) :
      IsConstant (.binary op .uint32 l r)
  | bitwiseNot {e : Term} (he : IsConstant e) : IsConstant (.bitwiseNot .uint32 e)

/-! ### Agreement of the evaluator and the code -/

/-- The emitted code completes with the integer `v`. -/
def Completes (ctx : Context) (t : Term) (s : GenState) (v : ℤ) : Prop :=
  ∃ w u, generate ctx t s = .ok (w,u) ∧ (w.felt.val : ℤ) = v

/-- Both evaluators agree with execution and with each other. -/
structure Faithful (ctx : Context) (t : Term) (s : GenState) : Prop where
  number : ∀ v, evalConstNumber t = .ok v → Completes ctx t s v
  folding : ∀ v, FoldsTo t v → Completes ctx t s v
  agree : ∀ v w, evalConstNumber t = .ok v →
    (evalConstantsInExpression t).literal = some w → v = w
  aborts : (∃ e, generate ctx t s = .error e) →
    (¬ ∃ v, evalConstNumber t = .ok v) ∧ ¬ ∃ v, FoldsTo t v

/-- The expressions a run evaluates, with the states it evaluates them in. -/
inductive Reaches (ctx : Context) : Term → GenState → Term → GenState → Prop
  | refl (t : Term) (s : GenState) : Reaches ctx t s t s
  | left {op : BinaryOp} {ty : Ty} {l r e : Term} {s t : GenState} (h : Reaches ctx l s e t) :
      Reaches ctx (.binary op ty l r) s e t
  | right {op : BinaryOp} {ty : Ty} {l r e : Term} {s t u : GenState} {v : Value}
      (hl : generate ctx l s = .ok (v,t)) (h : Reaches ctx r t e u) :
      Reaches ctx (.binary op ty l r) s e u
  | bitwiseNot {ty : Ty} {e' e : Term} {s t : GenState} (h : Reaches ctx e' s e t) :
      Reaches ctx (.bitwiseNot ty e') s e t

/-! ### The condition -/

/-- The result of an operator on integers, where there is one. -/
def integerOp : BinaryOp → ℤ → ℤ → Option ℤ
  | .add, m, n => some (m+n)
  | .subtract, m, n => some (m-n)
  | .multiply, m, n => some (m*n)
  | .divide, m, n => if n = 0 then none else some (m.tdiv n)
  | .modulo, m, n => if n = 0 then none else some (m.tmod n)
  | .bitwiseAnd, m, n => some (m.land n)
  | .bitwiseOr, m, n => some (m.lor n)
  | .bitwiseXor, m, n => some (m.xor n)
  | .power, m, n => if n < 0 then none else some (m^n.toNat)
  | .shiftLeft, m, n => if 0 ≤ n ∧ n < 2^64 then some (m*2^n.toNat) else none
  | .shiftRight, m, n => if 0 ≤ n ∧ n < 2^64 then some (m/2^n.toNat) else none

/-- The value of a constant expression over the integers. -/
def integerValue : Term → Option ℤ
  | .numberLiteral _ n => some n
  | .variable _ _ => none
  | .constantVariable _ e => integerValue e
  | .binary op _ l r => do
    let m ← integerValue l
    let n ← integerValue r
    integerOp op m n
  | .bitwiseNot _ e => (integerValue e).map Int.not

/-- The operands on which an operator returns its integer result; `cell` is the number of the
result cell of a division. -/
def OpAgrees (cell : ℕ) : BinaryOp → ℕ → ℕ → Prop
  | .add, m, n => m+n < 2^32
  | .subtract, m, n => n ≤ m ∧ m-n < 2^32
  | .multiply, m, n => m*n < 2^32
  | .divide, m, n => n = 0 ∨ m%n < 2^32 ∧ n-1-m%n < 2^32 ∧ CellAccepted cell
  | .modulo, m, n => n = 0 ∨ m%n < 2^32 ∧ n-1-m%n < 2^32
  | .power, m, n => m^n < 2^32 ∧ n+1 < FIELD_ORDER
  | .bitwiseAnd, _, _ => True
  | .bitwiseOr, m, n => m ||| n < FIELD_ORDER
  | .bitwiseXor, m, n => m ^^^ n < FIELD_ORDER
  | .shiftLeft, m, n => powMod 2 n < 2^32 ∧ m*2^n < 2^32 ∧ n+1 < FIELD_ORDER
  | .shiftRight, m, n => powMod 2 n < 2^32 ∧ m / powMod 2 n = m / 2^n ∧ n+1 < FIELD_ORDER ∧
      CellAccepted cell

/-- The result cells a run allocates. -/
def cells : Term → ℕ
  | .binary op _ l r => cells l + cells r + opCells op
  | .bitwiseNot _ e => cells e
  | _ => 0

/-- Literals are field elements, every operator that is reached returns its integer result, and no
complement or named constant has a value; `base` is the number of the next result cell. -/
def Agrees : ℕ → Term → Prop
  | _, .numberLiteral _ n => n < FIELD_ORDER
  | _, .variable _ _ => True
  | _, .constantVariable _ e => integerValue e = none
  | base, .binary op _ l r => Agrees base l ∧ ∀ m : ℕ, integerValue l = some (m : ℤ) →
      Agrees (base + cells l) r ∧ ∀ n : ℕ, integerValue r = some (n : ℤ) →
        OpAgrees (base + cells l + cells r) op m n
  | base, .bitwiseNot _ e => Agrees base e ∧ integerValue e = none

/-! ### The two evaluators -/

variable {ctx : Context} {host : Host} {s u : GenState} {t l r : Term} {v w : ℤ} {op : BinaryOp}

theorem evalOp_eq_ok {m n : ℤ} : evalOp op m n = .ok v ↔ integerOp op m n = some v := by
  cases op with
  | divide => simp only [evalOp,integerOp]; split_ifs <;> simp
  | modulo => simp only [evalOp,integerOp]; split_ifs <;> simp
  | power => simp only [evalOp,integerOp]; split_ifs <;> simp
  | shiftLeft => simp only [evalOp,integerOp,toUsize]; split_ifs <;> simp
  | shiftRight => simp only [evalOp,integerOp,toUsize]; split_ifs <;> simp
  | _ => simp [evalOp,integerOp]

/-- The evaluator of array lengths computes over the integers. -/
theorem evalConstNumber_eq_ok : evalConstNumber t = .ok v ↔ integerValue t = some v := by
  induction t generalizing v with
  | numberLiteral ty n => simp [evalConstNumber,integerValue]
  | «variable» ty x => simp [evalConstNumber,integerValue]
  | constantVariable ty e ih => exact ih
  | bitwiseNot ty e ih =>
    simp only [evalConstNumber,except_bind_eq_ok,ih,integerValue,Option.map_eq_some_iff]
    constructor
    · rintro ⟨a,ha,⟨⟩⟩
      exact ⟨a,ha,rfl⟩
    · rintro ⟨a,ha,rfl⟩
      exact ⟨a,ha,rfl⟩
  | binary op ty l r ihl ihr =>
    simp only [evalConstNumber,integerValue,Option.bind_eq_bind,Option.bind_eq_some_iff]
    by_cases hop : op = .divide ∨ op = .modulo
    · rw [if_pos hop]
      simp only [except_bind_eq_ok,ihr]
      constructor
      · rintro ⟨n,hn,hrest⟩
        by_cases h0 : n = 0
        · rw [if_pos h0] at hrest
          cases hrest
        · rw [if_neg h0,except_bind_eq_ok] at hrest
          rcases hrest with ⟨m,hm,hv⟩
          exact ⟨m,ihl.mp hm,n,hn,evalOp_eq_ok.mp hv⟩
      · rintro ⟨m,hm,n,hn,hv⟩
        have h0 : n ≠ 0 := by
          rintro rfl
          rcases hop with rfl | rfl
          · simp [integerOp] at hv
          · simp [integerOp] at hv
        refine ⟨n,hn,?_⟩
        rw [if_neg h0,except_bind_eq_ok]
        exact ⟨m,ihl.mpr hm,evalOp_eq_ok.mpr hv⟩
    · rw [if_neg hop]
      simp only [except_bind_eq_ok,ihl,ihr,evalOp_eq_ok]

theorem foldOp_integerOp {m n : ℤ} (h : (foldOp op m n).literal = some v) :
    integerOp op m n = some v := by
  have hfits : fitsUint n 64 = true → 0 ≤ n ∧ n < 2^64 := by
    intro hn
    simp only [fitsUint,bits,Bool.and_eq_true,decide_eq_true_eq,Nat.size_le] at hn
    omega
  cases op with
  | divide =>
    simp only [foldOp] at h
    by_cases hn : n = 0
    · simp [hn] at h
    · simpa [integerOp,hn] using h
  | modulo =>
    simp only [foldOp] at h
    by_cases hn : n = 0
    · simp [hn] at h
    · simpa [integerOp,hn] using h
  | power =>
    simp only [foldOp] at h
    by_cases hn : fitsUint n 16 = true
    · have h0 : ¬ n < 0 := by
        simp only [fitsUint,Bool.and_eq_true,decide_eq_true_eq] at hn
        omega
      simpa [integerOp,h0,hn] using h
    · simp [hn] at h
  | shiftLeft =>
    simp only [foldOp] at h
    by_cases hn : fitsUint n 64 = true
    · rw [if_pos hn] at h
      rw [integerOp,if_pos (hfits hn)]
      exact h
    · simp [hn] at h
  | shiftRight =>
    simp only [foldOp] at h
    by_cases hn : fitsUint n 64 = true
    · rw [if_pos hn] at h
      rw [integerOp,if_pos (hfits hn)]
      exact h
    · simp [hn] at h
  | _ => exact h

/-- A literal that the folding gives is the value over the integers. -/
theorem literal_integerValue (h : (evalConstantsInExpression t).literal = some v) :
    integerValue t = some v := by
  induction t generalizing v with
  | numberLiteral ty n => exact h
  | «variable» ty x => cases h
  | constantVariable ty e ih => cases h
  | bitwiseNot ty e ih => cases h
  | binary op ty l r ihl ihr =>
    rw [evalConstantsInExpression] at h
    cases hl : (evalConstantsInExpression l).literal with
    | none => simp [hl] at h
    | some m => cases hr : (evalConstantsInExpression r).literal with
      | none => simp [hl,hr] at h
      | some n =>
        simp only [hl,hr] at h
        simp only [integerValue,ihl hl,ihr hr]
        exact foldOp_integerOp h

/-- What is asked of an expression comes down to its integer value. -/
theorem faithful_iff : Faithful ctx t s ↔ ∀ v, integerValue t = some v → Completes ctx t s v := by
  constructor
  · intro h v hv
    exact h.number v (evalConstNumber_eq_ok.mpr hv)
  · intro h
    have hfold : ∀ v, FoldsTo t v → Completes ctx t s v := fun v hv =>
      h v (literal_integerValue hv.1)
    have hnumber : ∀ v, evalConstNumber t = .ok v → Completes ctx t s v := fun v hv =>
      h v (evalConstNumber_eq_ok.mp hv)
    refine ⟨hnumber,hfold,?_,?_⟩
    · intro v w hv hw
      have hv' := evalConstNumber_eq_ok.mp hv
      rw [literal_integerValue hw] at hv'
      exact (Option.some.inj hv').symm
    · rintro ⟨e,he⟩
      have hstop : ∀ v, ¬ Completes ctx t s v := by
        rintro v ⟨w,u,hrun,_⟩
        rw [he] at hrun
        cases hrun
      exact ⟨fun ⟨v,hv⟩ => hstop v (hnumber v hv),fun ⟨v,hv⟩ => hstop v (hfold v hv)⟩

/-! ### One operator -/

variable {c d : Bool} {m n : ℕ} {q q' : State} {x : Value}

theorem natCast_val (hm : m < FIELD_ORDER) : (m : Felt).val = m := Felt.val_natCast_of_lt hm

theorem operand_felt (hm : m < FIELD_ORDER) : (operand c m).felt = (m : Felt) := by
  have hlt : m < 0xFFFFFFFF00000001 := hm
  cases c with
  | false => rfl
  | true =>
    rw [operand_const,Value.felt_const,BitVec.toNat_ofNat,Nat.mod_eq_of_lt (by omega)]

theorem operand_val (hm : m < FIELD_ORDER) : ((operand c m).felt.val : ℤ) = m := by
  rw [operand_felt hm,natCast_val hm]

/-- Additions, subtractions and products: the check asks for a 32-bit result, and an integer result
in that range is the one that is handed on. -/
theorem opValue_operand (hm : m < FIELD_ORDER) (hn : n < FIELD_ORDER) {k : ℕ}
    (hk : FieldArithmetic.intOp op m n = k) :
    FieldArithmetic.opValue op (operand c m) (operand d n) = operand (c && d) k := by
  have hfelt : FieldArithmetic.feltOp op (m : Felt) (n : Felt) = (k : Felt) := by
    have h : ((FieldArithmetic.intOp op m n : ℤ) : Felt) =
        FieldArithmetic.feltOp op ((m : ℤ) : Felt) ((n : ℤ) : Felt) :=
      FieldArithmetic.intCast_intOp _ _
    rw [hk] at h
    simpa using h.symm
  have hint : ∀ a b : Value, a.isConst = false ∨ b.isConst = false → a.felt = (m : Felt) →
      b.felt = (n : Felt) → FieldArithmetic.opValue op a b = operand false k := by
    intro a b hab ha hb
    rw [operand_int,← hfelt,← ha,← hb]
    cases a with
    | const y => cases b with
      | const z => simp [Value.isConst] at hab
      | _ => rfl
    | _ => rfl
  cases c with
  | false => exact hint _ _ (Or.inl rfl) (operand_felt hm) (operand_felt hn)
  | true => cases d with
    | false => exact hint _ _ (Or.inr rfl) (operand_felt hm) (operand_felt hn)
    | true =>
      show Value.const _ = Value.const _
      rw [← BitVec.ofInt_natCast,← BitVec.ofInt_natCast,FieldArithmetic.wordOp_ofInt,hk,
        BitVec.ofInt_natCast]

theorem inRange_operand {k : ℕ} (hk : k < 2^32) : FieldArithmetic.InRange (operand c k) := by
  have hp : k < FIELD_ORDER := by
    show k < 0xFFFFFFFF00000001
    omega
  have hu32 : Felt.IsU32 (k : Felt) := by
    rw [Felt.IsU32,natCast_val hp]
    exact hk
  cases c with
  | false => exact hu32
  | true =>
    have hnat : (BitVec.ofNat 64 k).toNat = k := by
      rw [BitVec.toNat_ofNat,Nat.mod_eq_of_lt (by omega)]
    refine ⟨?_,by rw [hnat]; exact hu32⟩
    intro h
    have := congrArg BitVec.toNat h
    rw [hnat,BitVec.toNat_allOnes] at this
    omega

theorem isU32_of_inRange (h : FieldArithmetic.InRange x) : Felt.IsU32 x.felt := by
  cases x with
  | const w => exact h.2
  | int f => exact h
  | ptr p => exact h

theorem fieldOp_run (hop : FieldArithmetic.isFieldOp op = true) (hm : m < FIELD_ORDER)
    (hn : n < FIELD_ORDER) {k : ℕ} (hk : FieldArithmetic.intOp op m n = k) (hlt : k < 2^32) :
    binaryOp host op (operand c m) (operand d n) q = .ok (operand (c && d) k,q) :=
  (FieldArithmetic.binaryOp_eq_ok hop operand_isPointer operand_isPointer).mpr
    ⟨by rw [opValue_operand hm hn hk]; exact inRange_operand hlt,(opValue_operand hm hn hk).symm,rfl⟩

theorem fieldOp_bound (hop : FieldArithmetic.isFieldOp op = true)
    (hrun : binaryOp host op (operand c m) (operand d n) q = .ok (x,q')) : x.felt.val < 2^32 := by
  rcases (FieldArithmetic.binaryOp_eq_ok hop operand_isPointer operand_isPointer).mp hrun with
    ⟨hin,rfl,_⟩
  exact isU32_of_inRange hin

/-- Division by honest prophets is accepted when its three checks pass. -/
theorem accepted_iff (hhost : HonestProphets host) (hm : m < FIELD_ORDER) (hn : n < FIELD_ORDER) :
    Accepted (m : Felt) (n : Felt) (host.prophetU32Div m n) (host.prophetU32Mod m n) ↔
      n ≠ 0 ∧ m%n < 2^32 ∧ n-1-m%n < 2^32 := by
  have hp : n < 0xFFFFFFFF00000001 := hn
  by_cases h0 : n = 0
  · subst h0
    constructor
    · intro h
      exact absurd Nat.cast_zero (h.ne_zero (by decide))
    · intro h
      exact absurd rfl h.1
  have hne : (n : Felt) ≠ 0 := by
    intro h
    rw [← ZMod.val_eq_zero,natCast_val hn] at h
    exact h0 h
  have hlt : m % n < n := Nat.mod_lt _ (by omega)
  have hrp : m % n < FIELD_ORDER := lt_trans hlt hn
  have hr1 : (((m%n : ℕ) : Felt) + 1).val = m%n + 1 := by
    rw [← Nat.cast_add_one]
    exact Felt.val_natCast_of_lt (by omega)
  have hbelow : ((n : Felt) - (((m%n : ℕ) : Felt) + 1)).val = n-1-m%n := by
    rw [Felt.val_sub_of_le (by rw [hr1,natCast_val hn]; omega),hr1,natCast_val hn]
    omega
  rw [hhost.div _ _ hne,hhost.mod _ _ hne,natCast_val hm,natCast_val hn]
  constructor
  · intro h
    have hrem := h.remainder
    have hbel := h.below
    rw [Felt.IsU32,natCast_val hrp] at hrem
    rw [Felt.IsU32,hbelow] at hbel
    exact ⟨h0,hrem,hbel⟩
  · rintro ⟨_,hrem,hbel⟩
    refine ⟨by rw [Felt.IsU32,natCast_val hrp]; exact hrem,
      by rw [Felt.IsU32,hbelow]; exact hbel,?_⟩
    rw [← Nat.cast_mul,← Nat.cast_add,Nat.mul_comm,Nat.div_add_mod]

theorem prophets_eq (hhost : HonestProphets host) (hm : m < FIELD_ORDER) (hn : n < FIELD_ORDER)
    (h0 : n ≠ 0) : host.prophetU32Div m n = ((m/n : ℕ) : Felt) ∧
      host.prophetU32Mod m n = ((m%n : ℕ) : Felt) := by
  have hne : (n : Felt) ≠ 0 := by
    intro h
    rw [← ZMod.val_eq_zero,natCast_val hn] at h
    exact h0 h
  have hdiv := hhost.div m n hne
  have hmod := hhost.mod m n hne
  rw [natCast_val hm,natCast_val hn] at hdiv hmod
  exact ⟨hdiv,hmod⟩

theorem u32Div_operand (hhost : HonestProphets host) (hm : m < FIELD_ORDER) (hn : n < FIELD_ORDER)
    (hstack : 0 < q.stack) :
    u32Div host (operand c m) (operand d n) q = .ok (x,q') ↔
      (n ≠ 0 ∧ m%n < 2^32 ∧ n-1-m%n < 2^32) ∧ CellAccepted q.stack ∧
      x = .int ((m/n : ℕ) : Felt) ∧
      q' = afterStores q (resultCell q) .null ((m/n : ℕ) : Felt) ((m%n : ℕ) : Felt) := by
  have hcell : resultCell q ≠ .null := by
    intro h
    have := U32Division.resultCell_eq_null.mp h
    omega
  rw [u32Div_eq_ok,operand_felt hm,operand_felt hn,accepted_iff hhost hm hn,
    U32Exactness.cellAccepted_iff]
  constructor
  · rintro ⟨hacc,hc,rfl,rfl⟩
    rcases prophets_eq hhost hm hn hacc.1 with ⟨hq,hr⟩
    rw [hq,hr]
    exact ⟨hacc,hc,by rw [U32Division.afterStores_cell_quotient hcell],rfl⟩
  · rintro ⟨hacc,hc,rfl,rfl⟩
    rcases prophets_eq hhost hm hn hacc.1 with ⟨hq,hr⟩
    rw [hq,hr]
    exact ⟨hacc,hc,rfl,by rw [U32Division.afterStores_cell_quotient hcell]⟩

theorem u32Mod_operand (hhost : HonestProphets host) (hm : m < FIELD_ORDER) (hn : n < FIELD_ORDER) :
    u32Mod host (operand c m) (operand d n) q = .ok (x,q') ↔
      (n ≠ 0 ∧ m%n < 2^32 ∧ n-1-m%n < 2^32) ∧ x = .int ((m%n : ℕ) : Felt) ∧
      q' = afterStores q .null (resultCell q) ((m/n : ℕ) : Felt) ((m%n : ℕ) : Felt) := by
  rw [u32Mod_eq_ok,operand_felt hm,operand_felt hn,accepted_iff hhost hm hn]
  constructor
  · rintro ⟨hacc,rfl,rfl⟩
    rcases prophets_eq hhost hm hn hacc.1 with ⟨hq,hr⟩
    rw [hq,hr]
    exact ⟨hacc,by rw [U32Division.afterStores_cell_remainder],rfl⟩
  · rintro ⟨hacc,rfl,rfl⟩
    rcases prophets_eq hhost hm hn hacc.1 with ⟨hq,hr⟩
    rw [hq,hr]
    exact ⟨hacc,rfl,by rw [U32Division.afterStores_cell_remainder]⟩

/-- The counter of `u32_power` never passes the largest field element. -/
theorem u32PowerLoop_max (base : Felt) {exponent : Felt} (he : exponent.val + 1 = FIELD_ORDER)
    (fuel : ℕ) (counter r : Felt) :
    Corelib.u32PowerLoop base exponent fuel counter r q = .error .diverge := by
  induction fuel generalizing counter r with
  | zero => rfl
  | succ fuel ih =>
    have hle : (counter+1).val ≤ exponent.val := by
      have hlt := Felt.val_lt (counter+1)
      have hp : exponent.val + 1 = 0xFFFFFFFF00000001 := he
      omega
    simp only [Corelib.u32PowerLoop,hle,if_true]
    exact ih _ _

theorem u32Power_operand (hm : m < FIELD_ORDER) (hn : n < FIELD_ORDER) :
    U32Op.u32Power (operand c m) (operand d n) q = .ok (x,q') ↔
      powMod m n < 2^32 ∧ n+1 < FIELD_ORDER ∧ x = .int ((m^n : ℕ) : Felt) ∧ q' = q := by
  have hcall : U32Op.u32Power (operand c m) (operand d n) = Corelib.u32Power (m : Felt) (n : Felt) := by
    rw [U32Op.u32Power,intoIntValue_operand,intoIntValue_operand]
    show Corelib.u32Power (operand c m).felt (operand d n).felt = _
    rw [operand_felt hm,operand_felt hn]
  have hrange : Felt.IsU32 ((m : Felt)^n) ↔ powMod m n < 2^32 := by rw [Felt.IsU32,powMod_eq_val]
  have hval := natCast_val hn
  by_cases hlast : n+1 = FIELD_ORDER
  · have hstop : Corelib.u32Power (m : Felt) (n : Felt) q = .error .diverge := by
      rw [Corelib.u32Power,Exec.bind_error (u32PowerLoop_max _ (by rw [hval,hlast]) _ _ _)]
    rw [hcall,hstop]
    constructor
    · intro h
      cases h
    · intro h
      omega
  · have hexp : n+1 < FIELD_ORDER := by omega
    rw [hcall,Corelib.u32Power_apply _ _ _ (by rw [hval]; exact hexp),hval]
    by_cases h : powMod m n < 2^32
    · rw [if_pos (hrange.mpr h),Nat.cast_pow]
      constructor
      · intro heq
        cases heq
        exact ⟨h,hexp,rfl,rfl⟩
      · rintro ⟨_,_,rfl,rfl⟩
        rfl
    · rw [if_neg (fun hu => h (hrange.mp hu))]
      constructor
      · intro heq
        cases heq
      · intro heq
        exact absurd heq.1 h

theorem powTwo_operand (hn : n < FIELD_ORDER) :
    U32Op.u32Power (numberLiteral 2) (operand d n) q = .ok (x,q') ↔
      powMod 2 n < 2^32 ∧ n+1 < FIELD_ORDER ∧ x = operand false (powMod 2 n) ∧ q' = q := by
  rw [operand_int,natCast_powMod]
  exact u32Power_operand (c := true) (m := 2) (by decide) hn

theorem powMod_lt_order : powMod m n < FIELD_ORDER := powMod_lt

theorem u32ShiftLeft_operand (hm : m < FIELD_ORDER) (hn : n < FIELD_ORDER) :
    u32ShiftLeft (operand c m) (operand d n) q = .ok (x,q') ↔
      powMod 2 n < 2^32 ∧ n+1 < FIELD_ORDER ∧ Felt.IsU32 ((m*2^n : ℕ) : Felt) ∧
      x = .int ((m*2^n : ℕ) : Felt) ∧ q' = q := by
  have hprod : FieldArithmetic.opValue .multiply (operand c m) (operand false (powMod 2 n)) =
      .int ((m*2^n : ℕ) : Felt) := by
    have hfelt := operand_felt (c := c) hm
    have hmul : FieldArithmetic.opValue .multiply (operand c m) (operand false (powMod 2 n)) =
        .int ((operand c m).felt * ((powMod 2 n : ℕ) : Felt)) := by cases c <;> rfl
    rw [hmul,hfelt,natCast_powMod,← Nat.cast_mul]
  have hstep : ∀ y : State, checked buildIntMul (operand c m) (operand false (powMod 2 n)) y =
      .ok (x,q') ↔ Felt.IsU32 ((m*2^n : ℕ) : Felt) ∧ x = .int ((m*2^n : ℕ) : Felt) ∧ q' = y := by
    intro y
    have h : binaryOp (U32Division.constHost 0 0) .multiply (operand c m)
        (operand false (powMod 2 n)) y = .ok (x,q') ↔
        FieldArithmetic.InRange (FieldArithmetic.opValue .multiply (operand c m)
          (operand false (powMod 2 n))) ∧
        x = FieldArithmetic.opValue .multiply (operand c m) (operand false (powMod 2 n)) ∧ q' = y :=
      FieldArithmetic.binaryOp_eq_ok rfl operand_isPointer operand_isPointer
    rw [hprod] at h
    exact h
  rw [u32ShiftLeft,intoIntValue_operand]
  show (U32Op.u32Power (numberLiteral 2) (operand d n) >>= fun powTwo =>
    checked buildIntMul (operand c m) powTwo) q = .ok (x,q') ↔ _
  rw [Exec.bind_eq_ok]
  constructor
  · rintro ⟨w,y,hw,hmul⟩
    rcases (powTwo_operand hn).mp hw with ⟨hp,hexp,rfl,rfl⟩
    rcases (hstep y).mp hmul with ⟨hu,hx,hq⟩
    exact ⟨hp,hexp,hu,hx,hq⟩
  · rintro ⟨hp,hexp,hu,hx,hq⟩
    exact ⟨_,_,(powTwo_operand hn).mpr ⟨hp,hexp,rfl,rfl⟩,(hstep q).mpr ⟨hu,hx,hq⟩⟩

theorem u32ShiftRight_operand (hhost : HonestProphets host) (hm : m < FIELD_ORDER)
    (hn : n < FIELD_ORDER) (hstack : 0 < q.stack) :
    u32ShiftRight host (operand c m) (operand d n) q = .ok (x,q') ↔
      powMod 2 n < 2^32 ∧ n+1 < FIELD_ORDER ∧ CellAccepted q.stack ∧
      x = .int ((m / powMod 2 n : ℕ) : Felt) ∧
      q' = afterStores q (resultCell q) .null ((m / powMod 2 n : ℕ) : Felt)
        ((m % powMod 2 n : ℕ) : Felt) := by
  have hne : powMod 2 n ≠ 0 := U32Exactness.powMod_two_ne_zero
  have hmod : m % powMod 2 n < powMod 2 n := Nat.mod_lt _ (by omega)
  rw [u32ShiftRight,intoIntValue_operand]
  show (U32Op.u32Power (numberLiteral 2) (operand d n) >>= fun powTwo =>
    u32Div host (operand c m) powTwo) q = .ok (x,q') ↔ _
  rw [Exec.bind_eq_ok]
  constructor
  · rintro ⟨w,y,hw,hdiv⟩
    rcases (powTwo_operand hn).mp hw with ⟨hp,hexp,rfl,rfl⟩
    rcases (u32Div_operand hhost hm powMod_lt_order hstack).mp hdiv with ⟨_,hc,hx,hq⟩
    exact ⟨hp,hexp,hc,hx,hq⟩
  · rintro ⟨hp,hexp,hc,hx,hq⟩
    exact ⟨_,_,(powTwo_operand hn).mpr ⟨hp,hexp,rfl,rfl⟩,
      (u32Div_operand hhost hm powMod_lt_order hstack).mpr ⟨⟨hne,by omega,by omega⟩,hc,hx,hq⟩⟩

/-- The integer result of an operator on field elements is a natural number or a difference. -/
theorem integerOp_natCast (hn : n < FIELD_ORDER) : integerOp op m n = match op with
    | .add => some ((m+n : ℕ) : ℤ)
    | .subtract => some ((m : ℤ) - n)
    | .multiply => some ((m*n : ℕ) : ℤ)
    | .divide => if n = 0 then none else some ((m/n : ℕ) : ℤ)
    | .modulo => if n = 0 then none else some ((m%n : ℕ) : ℤ)
    | .power => some ((m^n : ℕ) : ℤ)
    | .bitwiseAnd => some ((m &&& n : ℕ) : ℤ)
    | .bitwiseOr => some ((m ||| n : ℕ) : ℤ)
    | .bitwiseXor => some ((m ^^^ n : ℕ) : ℤ)
    | .shiftLeft => some ((m*2^n : ℕ) : ℤ)
    | .shiftRight => some ((m/2^n : ℕ) : ℤ) := by
  have hlt : n < 0xFFFFFFFF00000001 := hn
  have hword : (0 : ℤ) ≤ n ∧ (n : ℤ) < 2^64 := by omega
  have hneg : ¬ (n : ℤ) < 0 := by omega
  cases op with
  | divide => simp only [integerOp,Nat.cast_eq_zero,Int.ofNat_tdiv]
  | modulo => simp only [integerOp,Nat.cast_eq_zero,Int.ofNat_tmod]
  | power => simp [integerOp,hneg]
  | shiftLeft =>
    rw [integerOp,if_pos hword]
    simp
  | shiftRight =>
    rw [integerOp,if_pos hword]
    simp
  | bitwiseAnd => rfl
  | bitwiseOr => rfl
  | bitwiseXor => rfl
  | _ => simp [integerOp]

theorem bitwise_operand {fold : BitVec 64 → BitVec 64 → BitVec 64} {f : ℕ → ℕ → ℕ}
    (hfold : ∀ a b, fold (BitVec.ofNat 64 a) (BitVec.ofNat 64 b) = BitVec.ofNat 64 (f a b))
    (hm : m < FIELD_ORDER) (hn : n < FIELD_ORDER) :
    buildInt fold (fun a b => (f a.val b.val : ℕ)) (operand c m) (operand d n) q =
      .ok (operand (c && d) (f m n),q) := by
  have hl := operand_felt (c := c) hm
  have hr := operand_felt (c := d) hn
  cases c with
  | false =>
    have hrun : buildInt fold (fun a b => (f a.val b.val : ℕ)) (operand false m) (operand d n) q =
        .ok (.int ((f (m : Felt).val (operand d n).felt.val : ℕ) : Felt),q) := by cases d <;> rfl
    rw [hrun,hr,natCast_val hm,natCast_val hn]
    rfl
  | true => cases d with
    | false =>
      have hrun : buildInt fold (fun a b => (f a.val b.val : ℕ)) (operand true m)
          (operand false n) q =
          .ok (.int ((f (operand true m).felt.val (n : Felt).val : ℕ) : Felt),q) := rfl
      rw [hrun,hl,natCast_val hm,natCast_val hn]
      rfl
    | true => exact congrArg (fun w => Except.ok (Value.const w,q)) (hfold m n)

theorem kept_const (h : foldsConstants op = true) : (c && d && foldsConstants op) = (c && d) := by
  rw [h,Bool.and_true]

theorem lost_const (h : foldsConstants op = false) : (c && d && foldsConstants op) = false := by
  rw [h,Bool.and_false]

theorem lt_order_of_u32 {k : ℕ} (h : k < 2^32) : k < FIELD_ORDER := lt_trans h (by decide)

/-- An operator that agrees on its operands returns its integer result. -/
theorem op_run (hhost : HonestProphets host) (hm : m < FIELD_ORDER) (hn : n < FIELD_ORDER)
    (hstack : 0 < q.stack) (hop : OpAgrees q.stack op m n) (hv : integerOp op m n = some v) :
    ∃ (k : ℕ) (q' : State), v = k ∧ k < FIELD_ORDER ∧
      binaryOp host op (operand c m) (operand d n) q =
        .ok (operand (c && d && foldsConstants op) k,q') ∧ q'.stack = q.stack + opCells op := by
  rw [integerOp_natCast hn] at hv
  cases op with
  | add =>
    cases hv
    refine ⟨m+n,q,rfl,lt_order_of_u32 hop,?_,rfl⟩
    rw [kept_const rfl]
    exact fieldOp_run rfl hm hn (by simp [FieldArithmetic.intOp]) hop
  | subtract =>
    cases hv
    have hcast : (m : ℤ) - n = ((m-n : ℕ) : ℤ) := (Int.natCast_sub hop.1).symm
    refine ⟨m-n,q,hcast,lt_order_of_u32 hop.2,?_,rfl⟩
    rw [kept_const rfl]
    exact fieldOp_run rfl hm hn hcast hop.2
  | multiply =>
    cases hv
    refine ⟨m*n,q,rfl,lt_order_of_u32 hop,?_,rfl⟩
    rw [kept_const rfl]
    exact fieldOp_run rfl hm hn (by simp [FieldArithmetic.intOp]) hop
  | divide =>
    by_cases h0 : n = 0
    · simp [h0] at hv
    · simp only [h0,if_false,Option.some.injEq] at hv
      rcases hop with hz | ⟨hrem,hbelow,hc⟩
      · exact absurd hz h0
      · refine ⟨m/n,opState q .divide m n,hv.symm,lt_of_le_of_lt (Nat.div_le_self m n) hm,?_,rfl⟩
        rw [lost_const rfl]
        exact (u32Div_operand hhost hm hn hstack).mpr ⟨⟨h0,hrem,hbelow⟩,hc,rfl,rfl⟩
  | modulo =>
    by_cases h0 : n = 0
    · simp [h0] at hv
    · simp only [h0,if_false,Option.some.injEq] at hv
      rcases hop with hz | ⟨hrem,hbelow⟩
      · exact absurd hz h0
      · refine ⟨m%n,opState q .modulo m n,hv.symm,lt_order_of_u32 hrem,?_,rfl⟩
        rw [lost_const rfl]
        exact (u32Mod_operand hhost hm hn).mpr ⟨⟨h0,hrem,hbelow⟩,rfl,rfl⟩
  | power =>
    cases hv
    have hpow : powMod m n = m^n := U32Exactness.powMod_of_lt hop.1
    refine ⟨m^n,q,rfl,lt_order_of_u32 hop.1,?_,rfl⟩
    rw [lost_const rfl]
    exact (u32Power_operand hm hn).mpr ⟨by rw [hpow]; exact hop.1,hop.2,rfl,rfl⟩
  | bitwiseAnd =>
    cases hv
    refine ⟨m &&& n,q,rfl,lt_of_le_of_lt Nat.and_le_left hm,?_,rfl⟩
    rw [kept_const rfl]
    exact bitwise_operand (f := (·&&&·)) (fun a b => (BitVec.ofNat_and).symm) hm hn
  | bitwiseOr =>
    cases hv
    refine ⟨m ||| n,q,rfl,hop,?_,rfl⟩
    rw [kept_const rfl]
    exact bitwise_operand (f := (·|||·)) (fun a b => (BitVec.ofNat_or).symm) hm hn
  | bitwiseXor =>
    cases hv
    refine ⟨m ^^^ n,q,rfl,hop,?_,rfl⟩
    rw [kept_const rfl]
    exact bitwise_operand (f := (·^^^·)) (fun a b => (BitVec.ofNat_xor).symm) hm hn
  | shiftLeft =>
    cases hv
    rcases hop with ⟨hp,hlt,hexp⟩
    have hu32 : Felt.IsU32 ((m*2^n : ℕ) : Felt) := by
      rw [Felt.IsU32,natCast_val (lt_order_of_u32 hlt)]
      exact hlt
    refine ⟨m*2^n,q,rfl,lt_order_of_u32 hlt,?_,rfl⟩
    rw [lost_const rfl]
    exact (u32ShiftLeft_operand hm hn).mpr ⟨hp,hexp,hu32,rfl,rfl⟩
  | shiftRight =>
    cases hv
    rcases hop with ⟨hp,heq,hexp,hc⟩
    refine ⟨m/2^n,opState q .shiftRight m n,rfl,lt_of_le_of_lt (Nat.div_le_self m _) hm,?_,rfl⟩
    rw [lost_const rfl]
    exact (u32ShiftRight_operand hhost hm hn hstack).mpr ⟨hp,hexp,hc,by rw [heq,operand_int],rfl⟩

/-- A division by zero stops the program. -/
theorem op_stops (hhost : HonestProphets host) (hm : m < FIELD_ORDER) (hn : n < FIELD_ORDER)
    (hstack : 0 < q.stack) (hv : integerOp op m n = none) :
    binaryOp host op (operand c m) (operand d n) q ≠ .ok (x,q') := by
  intro hrun
  rw [integerOp_natCast hn] at hv
  cases op with
  | divide =>
    have h0 := ((u32Div_operand hhost hm hn hstack).mp hrun).1.1
    simp [h0] at hv
  | modulo =>
    have h0 := ((u32Mod_operand hhost hm hn).mp hrun).1.1
    simp [h0] at hv
  | _ => simp at hv

/-- An operator that returns its integer result, or has none, agrees on its operands. -/
theorem opAgrees_of_run (hhost : HonestProphets host) (hm : m < FIELD_ORDER) (hn : n < FIELD_ORDER)
    (hstack : 0 < q.stack) (h : ∀ v, integerOp op m n = some v →
      ∃ x q', binaryOp host op (operand c m) (operand d n) q = .ok (x,q') ∧ (x.felt.val : ℤ) = v) :
    OpAgrees q.stack op m n := by
  rw [integerOp_natCast hn] at h
  cases op with
  | add =>
    rcases h _ rfl with ⟨x,q',hrun,hx⟩
    have hb := fieldOp_bound rfl hrun
    show m+n < 2^32
    omega
  | subtract =>
    rcases h _ rfl with ⟨x,q',hrun,hx⟩
    have hb := fieldOp_bound rfl hrun
    show n ≤ m ∧ m-n < 2^32
    omega
  | multiply =>
    rcases h _ rfl with ⟨x,q',hrun,hx⟩
    have hb := fieldOp_bound rfl hrun
    show m*n < 2^32
    rw [← Int.natCast_inj.mp hx]
    exact hb
  | divide =>
    by_cases h0 : n = 0
    · exact Or.inl h0
    · rcases h _ (if_neg h0) with ⟨x,q',hrun,_⟩
      rcases (u32Div_operand hhost hm hn hstack).mp hrun with ⟨hacc,hc,_⟩
      exact Or.inr ⟨hacc.2.1,hacc.2.2,hc⟩
  | modulo =>
    by_cases h0 : n = 0
    · exact Or.inl h0
    · rcases h _ (if_neg h0) with ⟨x,q',hrun,_⟩
      rcases (u32Mod_operand hhost hm hn).mp hrun with ⟨hacc,_⟩
      exact Or.inr ⟨hacc.2.1,hacc.2.2⟩
  | power =>
    rcases h _ rfl with ⟨x,q',hrun,hx⟩
    rcases (u32Power_operand hm hn).mp hrun with ⟨hp,hexp,rfl,_⟩
    refine ⟨?_,hexp⟩
    have hval : ((m^n : ℕ) : Felt).val = powMod m n := by rw [Nat.cast_pow,powMod_eq_val]
    rw [Value.felt_int,hval,Int.natCast_inj] at hx
    rwa [← hx]
  | bitwiseAnd => trivial
  | bitwiseOr =>
    rcases h _ rfl with ⟨x,q',_,hx⟩
    show m ||| n < FIELD_ORDER
    rw [← Int.natCast_inj.mp hx]
    exact Felt.val_lt _
  | bitwiseXor =>
    rcases h _ rfl with ⟨x,q',_,hx⟩
    show m ^^^ n < FIELD_ORDER
    rw [← Int.natCast_inj.mp hx]
    exact Felt.val_lt _
  | shiftLeft =>
    rcases h _ rfl with ⟨x,q',hrun,hx⟩
    rcases (u32ShiftLeft_operand hm hn).mp hrun with ⟨hp,hexp,hu32,rfl,_⟩
    refine ⟨hp,?_,hexp⟩
    rw [← Int.natCast_inj.mp hx]
    exact hu32
  | shiftRight =>
    rcases h _ rfl with ⟨x,q',hrun,hx⟩
    rcases (u32ShiftRight_operand hhost hm hn hstack).mp hrun with ⟨hp,hexp,hc,rfl,_⟩
    refine ⟨hp,?_,hexp,hc⟩
    have hlt : m / powMod 2 n < FIELD_ORDER := lt_of_le_of_lt (Nat.div_le_self m _) hm
    rw [Value.felt_int,natCast_val hlt] at hx
    exact Int.natCast_inj.mp hx

/-! ### Whole expressions -/

/-- What a run of an expression that agrees does: with an integer value it completes with it, and
without one it stops. -/
def Outcome (ctx : Context) (t : Term) (s : GenState) : Option ℤ → Prop
  | some v => ∃ (k : ℕ) (u : GenState) (c : Bool), v = k ∧ k < FIELD_ORDER ∧
      generate ctx t s = .ok (operand c k,u) ∧ u.machine.stack = s.machine.stack + cells t
  | none => ∀ w u, generate ctx t s ≠ .ok (w,u)

theorem outcome (hhost : HonestProphets ctx.host) (ht : IsConstant t)
    (hstack : 0 < s.machine.stack) (hag : Agrees s.machine.stack t) :
    Outcome ctx t s (integerValue t) := by
  induction ht generalizing s with
  | numberLiteral n => exact ⟨n,s,true,rfl,hag,rfl,rfl⟩
  | constantVariable he ih =>
    rw [integerValue,show integerValue _ = none from hag]
    intro w u hrun
    cases hrun
  | @bitwiseNot e he ih =>
    have hnone := ih hstack hag.1
    rw [hag.2] at hnone
    rw [integerValue,hag.2]
    intro w u hrun
    rcases generate_bitwiseNot_eq_ok.mp hrun with ⟨a,u',_,he,_⟩
    exact hnone a u' he
  | @binary op l r hl hr ihl ihr =>
    have hleft := ihl hstack hag.1
    cases hm : integerValue l with
    | none =>
      rw [hm] at hleft
      rw [integerValue,hm]
      intro w u hrun
      rcases generate_binary_eq_ok.mp hrun with ⟨a,u',_,_,_,hrunl,_⟩
      exact hleft a u' hrunl
    | some v =>
      rw [hm] at hleft
      rcases hleft with ⟨m,s₁,c,rfl,hmp,hrunl,hstack₁⟩
      rcases hag.2 m hm with ⟨hagr,hop⟩
      rw [← hstack₁] at hagr
      have hright := ihr (by omega) hagr
      cases hn : integerValue r with
      | none =>
        rw [hn] at hright
        rw [integerValue,hm,hn]
        intro w u hrun
        rcases generate_binary_eq_ok.mp hrun with ⟨a,u',b,u'',_,hrunl',hrunr,_⟩
        rw [hrunl] at hrunl'
        cases hrunl'
        exact hright b u'' hrunr
      | some v' =>
        rw [hn] at hright
        rcases hright with ⟨n,s₂,d,rfl,hnp,hrunr,hstack₂⟩
        have hagop := hop n hn
        rw [← hstack₁,← hstack₂] at hagop
        have hvalue : integerValue (.binary op .uint32 l r) = integerOp op m n := by
          rw [integerValue,hm,hn]
          rfl
        rw [hvalue]
        cases hv : integerOp op (m : ℤ) n with
        | none =>
          intro w u hrun
          rcases generate_binary_eq_ok.mp hrun with ⟨a,u',b,u'',q',hrunl',hrunr',hrunop,_⟩
          rw [hrunl] at hrunl'
          cases hrunl'
          rw [hrunr] at hrunr'
          cases hrunr'
          exact op_stops hhost hmp hnp (by omega) hv hrunop
        | some v =>
          rcases op_run (c := c) (d := d) hhost hmp hnp (by omega) hagop hv with
            ⟨k,q',hk,hkp,hrunop,hstack₃⟩
          refine ⟨k,{ s₂ with machine := q' },_,hk,hkp,
            generate_binary_eq_ok.mpr ⟨_,_,_,_,_,hrunl,hrunr,hrunop,rfl⟩,?_⟩
          show q'.stack = s.machine.stack + (cells l + cells r + opCells op)
          omega

/-- Constant expressions that agree are evaluated as they are executed. -/
theorem faithful_of_agrees (hhost : HonestProphets ctx.host) (ht : IsConstant t)
    (hstack : 0 < s.machine.stack) (hag : Agrees s.machine.stack t) : Faithful ctx t s := by
  apply faithful_iff.mpr
  intro v hv
  have hrun := outcome hhost ht hstack hag
  rw [hv] at hrun
  rcases hrun with ⟨k,u,c,rfl,hk,hrun,_⟩
  exact ⟨_,u,hrun,operand_val hk⟩

/-- The operands of an expression that agrees agree, in the states in which they are executed. -/
theorem agrees_reaches (hhost : HonestProphets ctx.host) {e : Term} {s' : GenState}
    (hreach : Reaches ctx t s e s') (ht : IsConstant t) (hstack : 0 < s.machine.stack)
    (hag : Agrees s.machine.stack t) :
    IsConstant e ∧ 0 < s'.machine.stack ∧ Agrees s'.machine.stack e := by
  induction hreach with
  | refl t s => exact ⟨ht,hstack,hag⟩
  | left h ih =>
    cases ht with
    | binary hl hr => exact ih hl hstack hag.1
  | @right op ty l r e s s₁ s₂ v hrunl h ih =>
    cases ht with
    | binary hl hr =>
      have hleft := outcome hhost hl hstack hag.1
      cases hm : integerValue l with
      | none =>
        rw [hm] at hleft
        exact absurd hrunl (hleft _ _)
      | some m =>
        rw [hm] at hleft
        rcases hleft with ⟨m,u,c,rfl,_,hrunl',hstack₁⟩
        rw [hrunl] at hrunl'
        cases hrunl'
        have hagr := (hag.2 m hm).1
        rw [← hstack₁] at hagr
        exact ih hr (by omega) hagr
  | bitwiseNot h ih =>
    cases ht with
    | bitwiseNot he => exact ih he hstack hag.1

/-- Where every expression that is evaluated is faithful, the expression agrees. -/
theorem agrees_of_faithful (hhost : HonestProphets ctx.host) (ht : IsConstant t)
    (hstack : 0 < s.machine.stack) (h : ∀ e s', Reaches ctx t s e s' → Faithful ctx e s') :
    Agrees s.machine.stack t := by
  have hroot := faithful_iff.mp (h t s (.refl t s))
  induction ht generalizing s with
  | numberLiteral n =>
    rcases hroot n rfl with ⟨w,u,hrun,hw⟩
    cases hrun
    have hlt := Felt.val_lt (numberLiteral n).felt
    show n < 0xFFFFFFFF00000001
    omega
  | @constantVariable e he ih =>
    show integerValue e = none
    cases hv : integerValue e with
    | none => rfl
    | some v =>
      rcases hroot v hv with ⟨w,u,hrun,_⟩
      cases hrun
  | @bitwiseNot e he ih =>
    have hreach : ∀ e' s', Reaches ctx e s e' s' → Faithful ctx e' s' := fun e' s' hr =>
      h e' s' (.bitwiseNot hr)
    have hag := ih hstack hreach (faithful_iff.mp (hreach e s (.refl e s)))
    refine ⟨hag,?_⟩
    cases hv : integerValue e with
    | none => rfl
    | some v =>
      have hrun := outcome hhost he hstack hag
      rw [hv] at hrun
      rcases hrun with ⟨k,_,_,rfl,_⟩
      rcases hroot (Int.not k) (by rw [integerValue,hv]; rfl) with ⟨w,u,_,hw⟩
      have hnot : Int.not (k : ℤ) = -(k : ℤ)-1 := by
        show Int.negSucc k = _
        omega
      omega
  | @binary op l r hl hr ihl ihr =>
    have hreachl : ∀ e s', Reaches ctx l s e s' → Faithful ctx e s' := fun e s' he =>
      h e s' (.left he)
    have hagl := ihl hstack hreachl (faithful_iff.mp (hreachl l s (.refl l s)))
    refine ⟨hagl,?_⟩
    intro m hm
    have hleft := outcome hhost hl hstack hagl
    rw [hm] at hleft
    rcases hleft with ⟨m',s₁,c,hmm,hmp,hrunl,hstack₁⟩
    cases Int.natCast_inj.mp hmm
    have hreachr : ∀ e s', Reaches ctx r s₁ e s' → Faithful ctx e s' := fun e s' he =>
      h e s' (.right hrunl he)
    have hagr := ihr (by omega) hreachr (faithful_iff.mp (hreachr r s₁ (.refl r s₁)))
    rw [← hstack₁]
    refine ⟨hagr,?_⟩
    intro n hn
    have hright := outcome hhost hr (by omega) hagr
    rw [hn] at hright
    rcases hright with ⟨n',s₂,d,hnn,hnp,hrunr,hstack₂⟩
    cases Int.natCast_inj.mp hnn
    rw [← hstack₂]
    apply opAgrees_of_run (c := c) (d := d) hhost hmp hnp (by omega)
    intro v hv
    have hvalue : integerValue (.binary op .uint32 l r) = some v := by
      rw [integerValue,hm,hn]
      exact hv
    rcases hroot v hvalue with ⟨w,u,hrun,hw⟩
    rcases generate_binary_eq_ok.mp hrun with ⟨a,u₁,b,u₂,q',hrunl',hrunr',hrunop,_⟩
    rw [hrunl] at hrunl'
    cases hrunl'
    rw [hrunr] at hrunr'
    cases hrunr'
    exact ⟨w,q',hrunop,hw⟩

/-- Constant evaluation agrees with execution on the expressions that agree operator by operator;
and these are the ones all of whose evaluated parts are evaluated as they are executed. -/
theorem constant_evaluation_iff (ctx : Context) (hhost : HonestProphets ctx.host) (s : GenState)
    (hstack : 0 < s.machine.stack) (t : Term) (ht : IsConstant t) :
    (Agrees s.machine.stack t → Faithful ctx t s) ∧
    ((∀ e s', Reaches ctx t s e s' → Faithful ctx e s') ↔ Agrees s.machine.stack t) := by
  refine ⟨faithful_of_agrees hhost ht hstack,agrees_of_faithful hhost ht hstack,?_⟩
  intro hag e s' hreach
  rcases agrees_reaches hhost hreach ht hstack hag with ⟨he,hs',hage⟩
  exact faithful_of_agrees hhost he hs' hage

theorem honestProphets_divisionContext : HonestProphets U32Exactness.divisionContext.host :=
  ⟨fun _ _ _ => rfl,fun _ _ _ => rfl⟩

/-- `7 / 2`. -/
def half : Term := .binary .divide .uint32 (.numberLiteral .uint32 7) (.numberLiteral .uint32 2)

theorem isConstant_half : IsConstant half := .binary (.numberLiteral 7) (.numberLiteral 2)

theorem constant_evaluation_iff_half :
    (HonestProphets U32Exactness.divisionContext.host ∧
      0 < U32Exactness.oneVariable.machine.stack ∧ IsConstant half) ∧
    (Agrees U32Exactness.oneVariable.machine.stack half →
      Faithful U32Exactness.divisionContext half U32Exactness.oneVariable) ∧
    ((∀ e s', Reaches U32Exactness.divisionContext half U32Exactness.oneVariable e s' →
      Faithful U32Exactness.divisionContext e s') ↔
      Agrees U32Exactness.oneVariable.machine.stack half) :=
  ⟨⟨honestProphets_divisionContext,by decide,isConstant_half⟩,
    constant_evaluation_iff U32Exactness.divisionContext honestProphets_divisionContext
      U32Exactness.oneVariable (by decide) half isConstant_half⟩

/-- `(1 << 32) - 300`. -/
def shiftedOut : Term := .binary .subtract .uint32
  (.binary .shiftLeft .uint32 (.numberLiteral .uint32 1) (.numberLiteral .uint32 32))
  (.numberLiteral .uint32 300)

/-- The folding accepts a shift whose result does not fit, with a warning; the emitted code
stops at it. -/
theorem shiftedOut_not_faithful :
    IsConstant shiftedOut ∧ Accepted shiftedOut ∧ FoldsTo shiftedOut 4294966996 ∧
    evalConstNumber shiftedOut = .ok 4294966996 ∧
    ¬ Faithful U32Exactness.divisionContext shiftedOut U32Exactness.oneVariable := by
  have hwarn : ∀ d ∈ (evalConstantsInExpression shiftedOut).reported, d.level ≠ .error := by
    decide +kernel
  refine ⟨.binary (.binary (.numberLiteral 1) (.numberLiteral 32)) (.numberLiteral 300),
    ⟨_,rfl,by decide +kernel⟩,⟨rfl,hwarn,rfl⟩,rfl,?_⟩
  intro h
  rcases h.number 4294966996 rfl with ⟨w,u,hrun,_⟩
  rcases generate_binary_eq_ok.mp hrun with ⟨a,u₁,b,u₂,q,hshift,_⟩
  rcases generate_binary_eq_ok.mp hshift with ⟨x,v₁,y,v₂,q',hx,hy,hop,_⟩
  cases hx
  cases hy
  have hpow := ((u32ShiftLeft_operand (c := true) (d := true) (m := 1) (n := 32)
    (by decide) (by decide)).mp hop).1
  exact absurd hpow (by decide)

end ConstantAgreement
end OlaLang
