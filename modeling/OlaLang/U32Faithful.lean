import OlaLang.U32Division
import OlaLang.Expression

/-! The checks the emitted u32 operators make on exact operands, and the operands on which
they let a wrong result pass. -/
namespace OlaLang
namespace U32Exactness

open Builder U32Op U32Division

/-- Prophets that answer divisions of 32-bit values correctly. -/
structure Honest (host : Host) : Prop where
  div : ∀ n d : Felt, Felt.IsU32 n → Felt.IsU32 d → d ≠ 0 →
    host.prophetU32Div n d = (n.val / d.val : ℕ)
  mod : ∀ n d : Felt, Felt.IsU32 n → Felt.IsU32 d → d ≠ 0 →
    host.prophetU32Mod n d = (n.val % d.val : ℕ)

/-! ### Operators on exact operands -/

/-- The mathematical result of an operator, where there is one. -/
def exactOp : BinaryOp → ℕ → ℕ → Option ℕ
  | .add, m, n => some (m+n)
  | .subtract, m, n => if n ≤ m then some (m-n) else none
  | .multiply, m, n => some (m*n)
  | .divide, m, n => if n = 0 then none else some (m/n)
  | .modulo, m, n => if n = 0 then none else some (m%n)
  | .power, m, n => some (m^n)
  | .bitwiseOr, m, n => some (m ||| n)
  | .bitwiseAnd, m, n => some (m &&& n)
  | .bitwiseXor, m, n => some (m ^^^ n)
  | .shiftLeft, m, n => some (m*2^n)
  | .shiftRight, m, n => some (m/2^n)

/-- The power as the loop of `u32_power` leaves it. -/
def powMod (m n : ℕ) : ℕ := m^n % FIELD_ORDER

/-- Whether the misdirected range check accepts a result cell. -/
def CellAccepted (cell : ℕ) : Prop := cell % FIELD_ORDER < 2^32

/-- What the checks of an operator ask of its operands; `const` says that the builder folds. -/
def Passes (const : Bool) (cell : ℕ) : BinaryOp → ℕ → ℕ → Prop
  | .add, m, n => m+n < 2^32
  | .subtract, m, n => n ≤ m ∨ const = true ∧ m+2 ≤ n
  | .multiply, m, n => m*n < 2^32
  | .divide, _, n => n ≠ 0 ∧ CellAccepted cell
  | .modulo, _, n => n ≠ 0
  | .power, m, n => powMod m n < 2^32
  | .bitwiseOr, _, _ | .bitwiseAnd, _, _ | .bitwiseXor, _, _ => True
  | .shiftLeft, m, n => powMod 2 n < 2^32 ∧ m * powMod 2 n < 2^32
  | .shiftRight, _, n => powMod 2 n < 2^32 ∧ CellAccepted cell

/-- The operands on which an operator whose checks pass returns its mathematical result. -/
def Faithful (const : Bool) (cell : ℕ) : BinaryOp → ℕ → ℕ → Prop
  | .subtract, m, n => const = true → n < m+2
  | .power, m, n => powMod m n < 2^32 → m^n < 2^32
  | .shiftLeft, m, n => powMod 2 n < 2^32 → m * powMod 2 n < 2^32 → m*2^n < 2^32
  | .shiftRight, m, n => powMod 2 n < 2^32 → CellAccepted cell → m / powMod 2 n = m/2^n
  | _, _, _ => True

/-- An exact operand as the generator hands it on. -/
def operand (const : Bool) (m : ℕ) : Value :=
  if const then .const (BitVec.ofNat 64 m) else .int (m : Felt)

def foldsConstants : BinaryOp → Bool
  | .add | .subtract | .multiply | .bitwiseOr | .bitwiseAnd | .bitwiseXor => true
  | _ => false

/-- The value of a completed operator, exact or not. -/
def opResult (const : Bool) : BinaryOp → ℕ → ℕ → Value
  | .add, m, n => operand const (m+n)
  | .subtract, m, n => if const then .const (BitVec.ofNat 64 m - BitVec.ofNat 64 n)
      else .int ((m : Felt) - (n : Felt))
  | .multiply, m, n => operand const (m*n)
  | .divide, m, n => .int ((m/n : ℕ) : Felt)
  | .modulo, m, n => .int ((m%n : ℕ) : Felt)
  | .power, m, n => .int ((m^n : ℕ) : Felt)
  | .bitwiseOr, m, n => operand const (m ||| n)
  | .bitwiseAnd, m, n => operand const (m &&& n)
  | .bitwiseXor, m, n => operand const (m ^^^ n)
  | .shiftLeft, m, n => .int ((m * powMod 2 n : ℕ) : Felt)
  | .shiftRight, m, n => .int ((m / powMod 2 n : ℕ) : Felt)

variable {host : Host} {c d : Bool} {m n : ℕ} {s t : State} {v : Value}

theorem operand_const : operand true m = .const (BitVec.ofNat 64 m) := rfl
theorem operand_int : operand false m = .int (m : Felt) := rfl

theorem natCast_val_of_u32 (hm : m < 2^32) : (m : Felt).val = m :=
  Felt.val_natCast_of_lt (by omega)

theorem operand_felt (hm : m < 2^32) : (operand c m).felt = (m : Felt) := by
  cases c with
  | false => rfl
  | true =>
    rw [operand_const,Value.felt_const,BitVec.toNat_ofNat,Nat.mod_eq_of_lt (by omega)]

theorem operand_isPointer : (operand c m).isPointer = false := by cases c <;> rfl

theorem intoIntValue_operand : intoIntValue (operand c m) = pure (operand c m) := by
  cases c <;> rfl

/-- An instruction on two operands is folded when both are constants. -/
theorem buildInt_operand (fold : BitVec 64 → BitVec 64 → BitVec 64) (op : Felt → Felt → Felt)
    (hm : m < 2^32) (hn : n < 2^32) :
    buildInt fold op (operand c m) (operand d n) =
      pure (if (c && d) = true then .const (fold (BitVec.ofNat 64 m) (BitVec.ofNat 64 n))
        else .int (op (m : Felt) (n : Felt))) := by
  have hl := operand_felt (c := c) hm
  have hr := operand_felt (c := d) hn
  cases c with
  | true => cases d with
    | true => rfl
    | false =>
      show (pure (Value.int (op (operand true m).felt (n : Felt))) : Code Value) = _
      rw [hl]
      rfl
  | false => cases d with
    | true =>
      show (pure (Value.int (op (m : Felt) (operand true n).felt)) : Code Value) = _
      rw [hr]
      rfl
    | false => rfl

theorem builtinRangeCheck_const_eq_ok {w : BitVec 64} {u : Unit} :
    builtinRangeCheck (.const w) s = .ok (u,t) ↔
      w ≠ BitVec.allOnes 64 ∧ Felt.IsU32 (w.toNat : Felt) ∧ t = s := by
  rw [builtinRangeCheck,Value.felt_const]
  by_cases hw : w = BitVec.allOnes 64
  · have hp : printImmediate (.const w) = Exec.fail .panic := if_pos hw
    rw [hp,Exec.bind_error (Exec.fail_apply _ _)]
    exact ⟨fun h => (by cases h),fun h => absurd hw h.1⟩
  · have hp : printImmediate (.const w) = pure () := if_neg hw
    rw [hp,Exec.bind_ok (Exec.pure_apply _ _)]
    by_cases hr : Felt.IsU32 (w.toNat : Felt)
    · rw [if_pos hr]
      exact ⟨fun h => by cases h; exact ⟨hw,hr,rfl⟩,fun h => by rw [h.2.2]; rfl⟩
    · rw [if_neg hr]
      exact ⟨fun h => (by cases h),fun h => absurd h.2.1 hr⟩

/-- A range check of an exact operand below the field order. -/
theorem builtinRangeCheck_operand_eq_ok {u : Unit} {k : ℕ} (hk : k < 2^64-2^32+1) :
    builtinRangeCheck (operand c k) s = .ok (u,t) ↔ k < 2^32 ∧ t = s := by
  have hval : (k : Felt).val = k := Felt.val_natCast_of_lt (by omega)
  cases c with
  | false => rw [operand_int,builtinRangeCheck_int_eq_ok,Felt.IsU32,hval]
  | true =>
    have hnat : (BitVec.ofNat 64 k).toNat = k := by
      rw [BitVec.toNat_ofNat,Nat.mod_eq_of_lt (by omega)]
    have hne : BitVec.ofNat 64 k ≠ BitVec.allOnes 64 := by
      intro h
      have := congrArg BitVec.toNat h
      rw [hnat,BitVec.toNat_allOnes] at this
      omega
    rw [operand_const,builtinRangeCheck_const_eq_ok,hnat,Felt.IsU32,hval]
    exact ⟨fun h => h.2,fun h => ⟨hne,h⟩⟩

theorem checked_eq_ok {build : Value → Value → Code Value} {l r w : Value}
    (h : build l r = pure w) :
    checked build l r s = .ok (v,t) ↔ builtinRangeCheck w s = .ok ((),t) ∧ v = w := by
  rw [checked,h]
  simp only [Exec.bind_eq_ok,Exec.pure_apply,Except.ok.injEq,Prod.mk.injEq]
  constructor
  · rintro ⟨_,_,⟨rfl,rfl⟩,⟨⟩,_,hcheck,rfl,rfl⟩
    exact ⟨hcheck,rfl⟩
  · rintro ⟨hcheck,rfl⟩
    exact ⟨_,_,⟨rfl,rfl⟩,(),_,hcheck,rfl,rfl⟩

theorem u32Add_eq_ok (hm : m < 2^32) (hn : n < 2^32) :
    u32Add (operand c m) (operand d n) s = .ok (v,t) ↔
      m+n < 2^32 ∧ v = operand (c && d) (m+n) ∧ t = s := by
  have hbuild : buildIntAdd (operand c m) (operand d n) = pure (operand (c && d) (m+n)) := by
    rw [buildIntAdd,buildInt_operand _ _ hm hn]
    cases c && d
    · simp [operand]
    · simp [operand,BitVec.ofNat_add]
  rw [u32Add,checked_eq_ok hbuild,builtinRangeCheck_operand_eq_ok (by omega)]
  tauto

theorem u32Mul_eq_ok (hm : m < 2^32) (hn : n < 2^32) :
    u32Mul (operand c m) (operand d n) s = .ok (v,t) ↔
      m*n < 2^32 ∧ v = operand (c && d) (m*n) ∧ t = s := by
  have hbuild : buildIntMul (operand c m) (operand d n) = pure (operand (c && d) (m*n)) := by
    rw [buildIntMul,buildInt_operand _ _ hm hn]
    cases c && d
    · simp [operand]
    · simp [operand,BitVec.ofNat_mul]
  have hlt := Felt.mul_lt_of_u32 hm hn
  rw [u32Mul,checked_eq_ok hbuild,builtinRangeCheck_operand_eq_ok (by omega)]
  tauto

/-- The folded difference of two constants: a negative one is a word near the top, which the
field reduces into the 32-bit range. -/
theorem builtinRangeCheck_foldedSub_eq_ok (hm : m < 2^32) (hn : n < 2^32) :
    builtinRangeCheck (.const (BitVec.ofNat 64 m - BitVec.ofNat 64 n)) s = .ok ((),t) ↔
      (n ≤ m ∨ m+2 ≤ n) ∧ t = s := by
  rw [builtinRangeCheck_const_eq_ok]
  by_cases hle : n ≤ m
  · rw [BitVec.ofNat_sub_ofNat_of_le m n (by omega) hle]
    have hcheck := builtinRangeCheck_operand_eq_ok (c := true) (s := s) (t := t) (u := ())
      (k := m-n) (by omega)
    rw [operand_const,builtinRangeCheck_const_eq_ok] at hcheck
    rw [hcheck]
    constructor
    · intro h
      exact ⟨Or.inl hle,h.2⟩
    · intro h
      exact ⟨by omega,h.2⟩
  · have hnat : (BitVec.ofNat 64 m - BitVec.ofNat 64 n).toNat = 2^64-(n-m) := by
      rw [BitVec.toNat_sub,BitVec.toNat_ofNat,BitVec.toNat_ofNat]
      omega
    have hval : ((2^64-(n-m) : ℕ) : Felt).val = 2^32-1-(n-m) := by
      rw [ZMod.val_natCast]
      show (2^64-(n-m)) % 0xFFFFFFFF00000001 = _
      omega
    have hmax : BitVec.ofNat 64 m - BitVec.ofNat 64 n = BitVec.allOnes 64 ↔ n = m+1 := by
      rw [← BitVec.toNat_inj,hnat,BitVec.toNat_allOnes]
      omega
    rw [hnat,Felt.IsU32,hval,Ne,hmax]
    constructor
    · rintro ⟨hne,_,ht⟩
      exact ⟨Or.inr (by omega),ht⟩
    · rintro ⟨h,ht⟩
      exact ⟨by omega,by omega,ht⟩

theorem u32Sub_eq_ok (hm : m < 2^32) (hn : n < 2^32) :
    u32Sub (operand c m) (operand d n) s = .ok (v,t) ↔
      (n ≤ m ∨ (c && d) = true ∧ m+2 ≤ n) ∧ v = opResult (c && d) .subtract m n ∧ t = s := by
  have hbuild : buildIntSub (operand c m) (operand d n) =
      pure (opResult (c && d) .subtract m n) := by
    rw [buildIntSub,buildInt_operand _ _ hm hn]
    rfl
  rw [u32Sub,checked_eq_ok hbuild]
  cases hcd : c && d with
  | true =>
    show builtinRangeCheck (.const (BitVec.ofNat 64 m - BitVec.ofNat 64 n)) s = _ ∧ _ ↔ _
    rw [builtinRangeCheck_foldedSub_eq_ok hm hn]
    tauto
  | false =>
    show builtinRangeCheck (.int ((m : Felt) - (n : Felt))) s = _ ∧ _ ↔ _
    have hle : Felt.IsU32 ((m : Felt) - (n : Felt)) ↔ n ≤ m := by
      rw [Felt.isU32_sub_iff (show (m : Felt).val < 2^32 by rwa [natCast_val_of_u32 hm])
        (show (n : Felt).val < 2^32 by rwa [natCast_val_of_u32 hn]),natCast_val_of_u32 hm,
        natCast_val_of_u32 hn]
    rw [builtinRangeCheck_int_eq_ok,hle]
    simp only [Bool.false_eq_true,false_and,or_false]
    tauto

theorem bitwise_eq_ok {fold : BitVec 64 → BitVec 64 → BitVec 64} {f : ℕ → ℕ → ℕ}
    (hfold : ∀ a b, fold (BitVec.ofNat 64 a) (BitVec.ofNat 64 b) = BitVec.ofNat 64 (f a b))
    (hm : m < 2^32) (hn : n < 2^32) :
    buildInt fold (fun a b => (f a.val b.val : ℕ)) (operand c m) (operand d n) s = .ok (v,t) ↔
      v = operand (c && d) (f m n) ∧ t = s := by
  rw [buildInt_operand _ _ hm hn,natCast_val_of_u32 hm,natCast_val_of_u32 hn,hfold]
  cases c && d <;> simp [operand,eq_comm]

theorem powMod_eq_val : ((m : Felt)^n).val = powMod m n := by
  rw [← Nat.cast_pow,ZMod.val_natCast]
  rfl

theorem powMod_lt : powMod m n < 0xFFFFFFFF00000001 := Nat.mod_lt _ (by decide)

theorem natCast_powMod : ((powMod m n : ℕ) : Felt) = ((m^n : ℕ) : Felt) := by
  rw [powMod,ZMod.natCast_mod]

theorem u32Power_eq_ok (hm : m < 2^32) (hn : n < 2^32) :
    U32Op.u32Power (operand c m) (operand d n) s = .ok (v,t) ↔
      powMod m n < 2^32 ∧ v = .int ((m^n : ℕ) : Felt) ∧ t = s := by
  have hexp : (n : Felt).val = n := natCast_val_of_u32 hn
  have hcall : U32Op.u32Power (operand c m) (operand d n) = Corelib.u32Power (m : Felt) (n : Felt) := by
    rw [U32Op.u32Power,intoIntValue_operand,intoIntValue_operand]
    show Corelib.u32Power (operand c m).felt (operand d n).felt = _
    rw [operand_felt hm,operand_felt hn]
  have hrange : Felt.IsU32 ((m : Felt)^n) ↔ powMod m n < 2^32 := by
    rw [Felt.IsU32,powMod_eq_val]
  rw [hcall,Corelib.u32Power_apply _ _ _ (by omega),hexp]
  by_cases h : powMod m n < 2^32
  · rw [if_pos (hrange.mpr h),Nat.cast_pow]
    constructor
    · intro heq
      cases heq
      exact ⟨h,rfl,rfl⟩
    · rintro ⟨_,rfl,rfl⟩
      rfl
  · rw [if_neg (fun hu => h (hrange.mp hu))]
    constructor
    · intro heq
      cases heq
    · intro heq
      exact absurd heq.1 h

theorem u32ShiftLeft_eq_ok (hm : m < 2^32) (hn : n < 2^32) :
    u32ShiftLeft (operand c m) (operand d n) s = .ok (v,t) ↔
      (powMod 2 n < 2^32 ∧ m * powMod 2 n < 2^32) ∧
        v = .int ((m * powMod 2 n : ℕ) : Felt) ∧ t = s := by
  rw [u32ShiftLeft,intoIntValue_operand]
  have hpow := fun w u => u32Power_eq_ok (c := true) (d := d) (s := s) (t := u) (v := w)
    (m := 2) (by omega) hn
  have hstep : ∀ w u, (U32Op.u32Power (numberLiteral 2) (operand d n) s = .ok (w,u) ↔
      powMod 2 n < 2^32 ∧ w = operand false (powMod 2 n) ∧ u = s) := by
    intro w u
    rw [operand_int,natCast_powMod]
    exact hpow w u
  show (U32Op.u32Power (numberLiteral 2) (operand d n) >>= fun powTwo =>
    checked buildIntMul (operand c m) powTwo) s = .ok (v,t) ↔ _
  rw [Exec.bind_eq_ok]
  constructor
  · rintro ⟨w,u,hw,hmul⟩
    rcases (hstep w u).mp hw with ⟨hp,rfl,rfl⟩
    rcases (u32Mul_eq_ok hm hp).mp hmul with ⟨hlt,rfl,rfl⟩
    rw [Bool.and_false]
    exact ⟨⟨hp,hlt⟩,rfl,rfl⟩
  · rintro ⟨⟨hp,hlt⟩,rfl,rfl⟩
    refine ⟨_,_,(hstep _ _).mpr ⟨hp,rfl,rfl⟩,(u32Mul_eq_ok hm hp).mpr ⟨hlt,?_,rfl⟩⟩
    rw [Bool.and_false,operand_int]

/-! ### Division by honest prophets -/

theorem accepted_honest (hn : n < 2^32) (h0 : n ≠ 0) :
    Accepted (m : Felt) (n : Felt) ((m/n : ℕ) : Felt) ((m%n : ℕ) : Felt) := by
  have hmod : m % n < n := Nat.mod_lt _ (by omega)
  have hacc := accepted_of_lt (n := (m : Felt)) (d := (n : Felt)) (r := ((m%n : ℕ) : Felt))
    (show (n : Felt).val < 2^32 by rwa [natCast_val_of_u32 hn])
    (by rw [natCast_val_of_u32 hn,natCast_val_of_u32 (by omega)]; exact hmod)
  refine ⟨hacc.remainder,hacc.below,?_⟩
  rw [← Nat.cast_mul,← Nat.cast_add,Nat.mul_comm,Nat.div_add_mod]

theorem accepted_iff (hhost : Honest host) (hm : m < 2^32) (hn : n < 2^32) :
    Accepted (m : Felt) (n : Felt) (host.prophetU32Div m n) (host.prophetU32Mod m n) ↔ n ≠ 0 := by
  have hmu : Felt.IsU32 (m : Felt) := show (m : Felt).val < 2^32 by rwa [natCast_val_of_u32 hm]
  have hnu : Felt.IsU32 (n : Felt) := show (n : Felt).val < 2^32 by rwa [natCast_val_of_u32 hn]
  constructor
  · intro h h0
    exact h.ne_zero hnu (by rw [h0,Nat.cast_zero])
  · intro h0
    have hne : (n : Felt) ≠ 0 := by
      intro h
      rw [← ZMod.val_eq_zero,natCast_val_of_u32 hn] at h
      exact h0 h
    rw [hhost.div _ _ hmu hnu hne,hhost.mod _ _ hmu hnu hne,natCast_val_of_u32 hm,
      natCast_val_of_u32 hn]
    exact accepted_honest hn h0

theorem prophets_eq (hhost : Honest host) (hm : m < 2^32) (hn : n < 2^32) (h0 : n ≠ 0) :
    host.prophetU32Div m n = ((m/n : ℕ) : Felt) ∧ host.prophetU32Mod m n = ((m%n : ℕ) : Felt) := by
  have hmu : Felt.IsU32 (m : Felt) := show (m : Felt).val < 2^32 by rwa [natCast_val_of_u32 hm]
  have hnu : Felt.IsU32 (n : Felt) := show (n : Felt).val < 2^32 by rwa [natCast_val_of_u32 hn]
  have hne : (n : Felt) ≠ 0 := by
    intro h
    rw [← ZMod.val_eq_zero,natCast_val_of_u32 hn] at h
    exact h0 h
  have hdiv := hhost.div _ _ hmu hnu hne
  have hmod := hhost.mod _ _ hmu hnu hne
  rw [natCast_val_of_u32 hm,natCast_val_of_u32 hn] at hdiv hmod
  exact ⟨hdiv,hmod⟩

theorem cellAccepted_iff : Felt.IsU32 (resultCell s).address ↔ CellAccepted s.stack := by
  show (s.stack : Felt).val < 2^32 ↔ _
  rw [ZMod.val_natCast]
  rfl

theorem u32Div_operand_eq_ok (hhost : Honest host) (hm : m < 2^32) (hn : n < 2^32)
    (hstack : 0 < s.stack) :
    u32Div host (operand c m) (operand d n) s = .ok (v,t) ↔ (n ≠ 0 ∧ CellAccepted s.stack) ∧
      v = .int ((m/n : ℕ) : Felt) ∧
      t = afterStores s (resultCell s) .null ((m/n : ℕ) : Felt) ((m%n : ℕ) : Felt) := by
  have hcell : resultCell s ≠ .null := by
    intro h
    have := resultCell_eq_null.mp h
    omega
  rw [u32Div_eq_ok,operand_felt hm,operand_felt hn,accepted_iff hhost hm hn,cellAccepted_iff]
  constructor
  · rintro ⟨h0,hc,rfl,rfl⟩
    rcases prophets_eq hhost hm hn h0 with ⟨hq,hr⟩
    rw [hq,hr]
    exact ⟨⟨h0,hc⟩,by rw [afterStores_cell_quotient hcell],rfl⟩
  · rintro ⟨⟨h0,hc⟩,rfl,rfl⟩
    rcases prophets_eq hhost hm hn h0 with ⟨hq,hr⟩
    rw [hq,hr]
    exact ⟨h0,hc,rfl,by rw [afterStores_cell_quotient hcell]⟩

theorem u32Mod_operand_eq_ok (hhost : Honest host) (hm : m < 2^32) (hn : n < 2^32) :
    u32Mod host (operand c m) (operand d n) s = .ok (v,t) ↔ n ≠ 0 ∧
      v = .int ((m%n : ℕ) : Felt) ∧
      t = afterStores s .null (resultCell s) ((m/n : ℕ) : Felt) ((m%n : ℕ) : Felt) := by
  rw [u32Mod_eq_ok,operand_felt hm,operand_felt hn,accepted_iff hhost hm hn]
  constructor
  · rintro ⟨h0,rfl,rfl⟩
    rcases prophets_eq hhost hm hn h0 with ⟨hq,hr⟩
    rw [hq,hr]
    exact ⟨h0,by rw [afterStores_cell_remainder],rfl⟩
  · rintro ⟨h0,rfl,rfl⟩
    rcases prophets_eq hhost hm hn h0 with ⟨hq,hr⟩
    rw [hq,hr]
    exact ⟨h0,rfl,by rw [afterStores_cell_remainder]⟩

theorem powMod_two_ne_zero : powMod 2 n ≠ 0 := by
  intro h
  have hzero : ((2^n : ℕ) : Felt) = 0 := by
    rw [← natCast_powMod,h,Nat.cast_zero]
  rw [Nat.cast_pow] at hzero
  exact pow_ne_zero n (by decide) hzero

theorem u32ShiftRight_eq_ok (hhost : Honest host) (hm : m < 2^32) (hn : n < 2^32)
    (hstack : 0 < s.stack) :
    u32ShiftRight host (operand c m) (operand d n) s = .ok (v,t) ↔
      (powMod 2 n < 2^32 ∧ CellAccepted s.stack) ∧ v = .int ((m / powMod 2 n : ℕ) : Felt) ∧
      t = afterStores s (resultCell s) .null ((m / powMod 2 n : ℕ) : Felt)
        ((m % powMod 2 n : ℕ) : Felt) := by
  have hstep : ∀ w u, (U32Op.u32Power (numberLiteral 2) (operand d n) s = .ok (w,u) ↔
      powMod 2 n < 2^32 ∧ w = operand false (powMod 2 n) ∧ u = s) := by
    intro w u
    rw [operand_int,natCast_powMod]
    exact u32Power_eq_ok (c := true) (m := 2) (by omega) hn
  rw [u32ShiftRight,intoIntValue_operand]
  show (U32Op.u32Power (numberLiteral 2) (operand d n) >>= fun powTwo =>
    u32Div host (operand c m) powTwo) s = .ok (v,t) ↔ _
  rw [Exec.bind_eq_ok]
  constructor
  · rintro ⟨w,u,hw,hdiv⟩
    rcases (hstep w u).mp hw with ⟨hp,rfl,rfl⟩
    rcases (u32Div_operand_eq_ok hhost hm hp hstack).mp hdiv with ⟨⟨_,hc⟩,hv,ht⟩
    exact ⟨⟨hp,hc⟩,hv,ht⟩
  · rintro ⟨⟨hp,hc⟩,hv,ht⟩
    exact ⟨_,_,(hstep _ _).mpr ⟨hp,rfl,rfl⟩,
      (u32Div_operand_eq_ok hhost hm hp hstack).mpr ⟨⟨powMod_two_ne_zero,hc⟩,hv,ht⟩⟩

/-! ### One operator -/

/-- The machine after an operator: the divisions use a result cell and the null cell. -/
def opState (s : State) : BinaryOp → ℕ → ℕ → State
  | .divide, m, n => afterStores s (resultCell s) .null ((m/n : ℕ) : Felt) ((m%n : ℕ) : Felt)
  | .modulo, m, n => afterStores s .null (resultCell s) ((m/n : ℕ) : Felt) ((m%n : ℕ) : Felt)
  | .shiftRight, m, n => afterStores s (resultCell s) .null ((m / powMod 2 n : ℕ) : Felt)
      ((m % powMod 2 n : ℕ) : Felt)
  | _, _, _ => s

/-- The cells an operator allocates. -/
def opCells : BinaryOp → ℕ
  | .divide | .modulo | .shiftRight => 1
  | _ => 0

theorem opState_stack (op : BinaryOp) : (opState s op m n).stack = s.stack + opCells op := by
  cases op <;> rfl

theorem opState_cell (op : BinaryOp) {a : ℕ} (h0 : 0 < a) (ha : a < s.stack) :
    (opState s op m n).cell (.stack a) = s.cell (.stack a) := by
  have hnull : Pointer.stack a ≠ .null := by
    intro h
    cases h
    omega
  have hcell : Pointer.stack a ≠ resultCell s := by
    intro h
    cases h
    omega
  cases op with
  | divide => exact afterStores_cell_of_ne hcell hnull
  | modulo => exact afterStores_cell_of_ne hnull hcell
  | shiftRight => exact afterStores_cell_of_ne hcell hnull
  | _ => rfl

/-- A run of an operator on exact operands completes exactly when its checks pass. -/
theorem binaryOp_eq_ok (hhost : Honest host) (hm : m < 2^32) (hn : n < 2^32) (hstack : 0 < s.stack)
    (op : BinaryOp) : binaryOp host op (operand c m) (operand d n) s = .ok (v,t) ↔
      Passes (c && d) s.stack op m n ∧ v = opResult (c && d) op m n ∧ t = opState s op m n := by
  cases op with
  | add => exact u32Add_eq_ok hm hn
  | subtract => exact u32Sub_eq_ok hm hn
  | multiply => exact u32Mul_eq_ok hm hn
  | divide => exact u32Div_operand_eq_ok hhost hm hn hstack
  | modulo => exact u32Mod_operand_eq_ok hhost hm hn
  | power => exact u32Power_eq_ok hm hn
  | bitwiseOr =>
    have h := bitwise_eq_ok (c := c) (d := d) (s := s) (t := t) (v := v) (f := (·|||·))
      (fun a b => (BitVec.ofNat_or).symm) hm hn
    exact h.trans (by simp [Passes,opResult,opState])
  | bitwiseAnd =>
    have h := bitwise_eq_ok (c := c) (d := d) (s := s) (t := t) (v := v) (f := (·&&&·))
      (fun a b => (BitVec.ofNat_and).symm) hm hn
    exact h.trans (by simp [Passes,opResult,opState])
  | bitwiseXor =>
    have h := bitwise_eq_ok (c := c) (d := d) (s := s) (t := t) (v := v) (f := (·^^^·))
      (fun a b => (BitVec.ofNat_xor).symm) hm hn
    exact h.trans (by simp [Passes,opResult,opState])
  | shiftLeft => exact u32ShiftLeft_eq_ok hm hn
  | shiftRight => exact u32ShiftRight_eq_ok hhost hm hn hstack

theorem powMod_of_lt (h : m^n < 2^32) : powMod m n = m^n := by
  rw [powMod]
  apply Nat.mod_eq_of_lt
  show m^n < 0xFFFFFFFF00000001
  omega

/-- Where the operator is faithful a completed run returns the exact result. -/
theorem opResult_of_faithful {cell : ℕ} {op : BinaryOp} (hm : m < 2^32) (hn : n < 2^32)
    (hpass : Passes c cell op m n) (hf : Faithful c cell op m n) :
    ∃ k, exactOp op m n = some k ∧ k < 2^32 ∧
      opResult c op m n = operand (c && foldsConstants op) k := by
  cases op with
  | add => exact ⟨m+n,rfl,hpass,by simp [opResult,foldsConstants]⟩
  | subtract =>
    have hle : n ≤ m := by
      rcases hpass with hle | ⟨hc,hgt⟩
      · exact hle
      · have := hf hc
        omega
    refine ⟨m-n,if_pos hle,by omega,?_⟩
    cases c with
    | false => exact congrArg Value.int (Nat.cast_sub hle).symm
    | true => exact congrArg Value.const (BitVec.ofNat_sub_ofNat_of_le m n (by omega) hle)
  | multiply => exact ⟨m*n,rfl,hpass,by simp [opResult,foldsConstants]⟩
  | divide =>
    have hle := Nat.div_le_self m n
    exact ⟨m/n,if_neg hpass.1,by omega,by simp [opResult,foldsConstants,operand_int]⟩
  | modulo =>
    have hle := Nat.mod_le m n
    exact ⟨m%n,if_neg hpass,by omega,by simp [opResult,foldsConstants,operand_int]⟩
  | power => exact ⟨m^n,rfl,hf hpass,by simp [opResult,foldsConstants,operand_int]⟩
  | bitwiseOr => exact ⟨m ||| n,rfl,Nat.or_lt_two_pow hm hn,by simp [opResult,foldsConstants]⟩
  | bitwiseAnd =>
    exact ⟨m &&& n,rfl,Nat.and_lt_two_pow m hn,by simp [opResult,foldsConstants]⟩
  | bitwiseXor => exact ⟨m ^^^ n,rfl,Nat.xor_lt_two_pow hm hn,by simp [opResult,foldsConstants]⟩
  | shiftLeft =>
    have hlt := hf hpass.1 hpass.2
    refine ⟨m*2^n,rfl,hlt,?_⟩
    have hprod : m * powMod 2 n = m*2^n := by
      by_cases h0 : m = 0
      · rw [h0,Nat.zero_mul,Nat.zero_mul]
      · rw [powMod_of_lt]
        have hle : 2^n ≤ m*2^n := Nat.le_mul_of_pos_left _ (by omega)
        omega
    simp [opResult,foldsConstants,operand_int,hprod]
  | shiftRight =>
    have heq := hf hpass.1 hpass.2
    have hle := Nat.div_le_self m (2^n)
    refine ⟨m/2^n,rfl,by omega,?_⟩
    simp [opResult,foldsConstants,operand_int,heq]

/-- A completed run that returns the exact result shows the operator faithful. -/
theorem faithful_of_exact {cell k : ℕ} {op : BinaryOp} (hm : m < 2^32)
    (hexact : exactOp op m n = some k) (hk : k < 2^32) (hval : (opResult c op m n).felt.val = k) :
    Faithful c cell op m n := by
  cases op with
  | subtract =>
    intro _
    rw [exactOp] at hexact
    by_cases hle : n ≤ m
    · omega
    · rw [if_neg hle] at hexact
      cases hexact
  | power =>
    intro _
    cases hexact
    exact hk
  | shiftLeft =>
    intro _ _
    cases hexact
    exact hk
  | shiftRight =>
    intro _ _
    cases hexact
    have hle := Nat.div_le_self m (powMod 2 n)
    rw [opResult,Value.felt_int,natCast_val_of_u32 (by omega)] at hval
    exact hval
  | _ => trivial

end U32Exactness
end OlaLang
