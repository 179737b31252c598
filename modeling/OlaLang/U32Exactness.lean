import OlaLang.U32Faithful

/-! Exactness of u32 expressions: a completed run of the emitted code returns the mathematical
result on the operands where every operator is faithful, and only there. -/
namespace OlaLang
namespace U32Exactness

open Builder U32Op U32Division

/-- Expressions of type u32 over local variables. -/
inductive U32Expr
  | number (value : ℕ)
  | var (x : ℕ)
  | binary (op : BinaryOp) (left right : U32Expr)
  | bitwiseNot (e : U32Expr)
  | increment (loc x : ℕ)
  | decrement (loc x : ℕ)

namespace U32Expr

def toExpression : U32Expr → Expression
  | .number value => .numberLiteral .uint32 value
  | .var x => .variable .uint32 x
  | .binary op l r => .binary op .uint32 l.toExpression r.toExpression
  | .bitwiseNot e => .bitwiseNot .uint32 e.toExpression
  | .increment loc x => .increment loc .uint32 (.variable .uint32 x)
  | .decrement loc x => .decrement loc .uint32 (.variable .uint32 x)

def isUpdate : U32Expr → Prop
  | .increment _ _ | .decrement _ _ => True
  | _ => False

/-- Whether the builder folds the expression to a constant. -/
def isConst : U32Expr → Bool
  | .number _ => true
  | .binary op l r => l.isConst && r.isConst && foldsConstants op
  | .bitwiseNot e => e.isConst
  | _ => false

/-- The result cells a run allocates. -/
def cells : U32Expr → ℕ
  | .binary op l r => l.cells + r.cells + opCells op
  | .bitwiseNot e => e.cells
  | _ => 0

/-- The operators that hand their operands to a call without asking for an integer. -/
def takesPointers : BinaryOp → Prop
  | .divide | .modulo => True
  | _ => False

/-- The generator emits code: every variable is declared, and no operator that asks for an integer
is handed the pointer that an update returns. -/
def Emits (declared : ℕ → Prop) : U32Expr → Prop
  | .number _ => True
  | .var x | .increment _ x | .decrement _ x => declared x
  | .binary op l r => l.Emits declared ∧ r.Emits declared ∧
      (takesPointers op ∨ ¬ l.isUpdate ∧ ¬ r.isUpdate)
  | .bitwiseNot e => e.Emits declared ∧ ¬ e.isUpdate

/-- The mathematical value of an expression, with the values it leaves in the variables. -/
def exact : U32Expr → (ℕ → ℕ) → Option (ℕ × (ℕ → ℕ))
  | .number value, ρ => some (value,ρ)
  | .var x, ρ => some (ρ x,ρ)
  | .binary op l r, ρ => do
    let (m,ρ) ← l.exact ρ
    let (n,ρ) ← r.exact ρ
    let k ← exactOp op m n
    some (k,ρ)
  | .bitwiseNot e, ρ => do
    let (m,ρ) ← e.exact ρ
    let k ← exactOp .subtract u32Max m
    some (k,ρ)
  | .increment _ x, ρ => some (ρ x + 1,Function.update ρ x (ρ x + 1))
  | .decrement _ x, ρ =>
    if 1 ≤ ρ x then some (ρ x - 1,Function.update ρ x (ρ x - 1)) else none

instance (const : Bool) (cell : ℕ) (op : BinaryOp) (m n : ℕ) :
    Decidable (Passes const cell op m n) := by
  cases op <;> unfold Passes <;> unfold CellAccepted <;> infer_instance

/-- The value of an expression whose checks all pass on exact operands; `base` is the number of
the next result cell. -/
def checked (ρ : ℕ → ℕ) : ℕ → U32Expr → Option ℕ
  | _, .number value => some value
  | _, .var x => some (ρ x)
  | base, .binary op l r => do
    let m ← l.checked ρ base
    let n ← r.checked ρ (base + l.cells)
    if Passes (l.isConst && r.isConst) (base + l.cells + r.cells) op m n then exactOp op m n else none
  | base, .bitwiseNot e => do
    let m ← e.checked ρ base
    exactOp .subtract u32Max m
  | _, .increment _ _ | _, .decrement _ _ => none

/-- Every operator that is reached is faithful on its operands, literals fit their type, and no
update is used for its value. -/
def FaithfulAt (ρ : ℕ → ℕ) : ℕ → U32Expr → Prop
  | _, .number value => value < 2^32
  | _, .var _ => True
  | base, .binary op l r => l.FaithfulAt ρ base ∧ ∀ m, l.checked ρ base = some m →
      r.FaithfulAt ρ (base + l.cells) ∧ ∀ n, r.checked ρ (base + l.cells) = some n →
        Faithful (l.isConst && r.isConst) (base + l.cells + r.cells) op m n
  | base, .bitwiseNot e => e.FaithfulAt ρ base
  | _, .increment _ _ | _, .decrement _ _ => False

end U32Expr

open U32Expr

/-! ### Frames of u32 variables -/

def declared (s : GenState) (x : ℕ) : Prop := s.vars x ≠ none

/-- The value a variable holds. -/
def env (s : GenState) (x : ℕ) : ℕ := match s.vars x with
  | some v => (s.machine.cell v.pointer).val
  | none => 0

/-- The variables of a function frame: distinct cells above the frame of the entry function. -/
structure Frame (s : GenState) : Prop where
  entry : 0 < s.machine.stack
  cell : ∀ x v, s.vars x = some v → ∃ a, v = .ptr (.stack a) ∧ 0 < a ∧ a < s.machine.stack
  distinct : ∀ x y v, s.vars x = some v → s.vars y = some v → x = y
  u32 : ∀ x, env s x < 2^32

/-- What an expression without updates leaves unchanged. -/
structure After (s t : GenState) (cells : ℕ) : Prop where
  vars : t.vars = s.vars
  stack : t.machine.stack = s.machine.stack + cells
  frame : ∀ a, 0 < a → a < s.machine.stack →
    t.machine.cell (.stack a) = s.machine.cell (.stack a)

variable {ctx : Context} {s t u : GenState} {v : Value} {e : U32Expr} {j k : ℕ}

theorem After.refl : After s s 0 := ⟨rfl,rfl,fun _ _ _ => rfl⟩

theorem After.trans (h : After s t j) (h' : After t u k) : After s u (j+k) := by
  refine ⟨h'.vars.trans h.vars,?_,?_⟩
  · rw [h'.stack,h.stack,Nat.add_assoc]
  · intro a h0 ha
    have hstack := h.stack
    rw [h'.frame a h0 (by omega),h.frame a h0 ha]

theorem After.env_eq (hs : Frame s) (h : After s t k) : env t = env s := by
  funext x
  unfold env
  rw [h.vars]
  cases hx : s.vars x with
  | none => rfl
  | some v =>
    rcases hs.cell x v hx with ⟨a,rfl,h0,ha⟩
    show (t.machine.cell (.stack a)).val = (s.machine.cell (.stack a)).val
    rw [h.frame a h0 ha]

theorem After.frame_of (hs : Frame s) (h : After s t k) : Frame t := by
  have hstack := h.stack
  refine ⟨?_,?_,?_,?_⟩
  · have := hs.entry
    omega
  · intro x v hx
    rw [h.vars] at hx
    rcases hs.cell x v hx with ⟨a,hv,h0,ha⟩
    exact ⟨a,hv,h0,by omega⟩
  · intro x y v hx hy
    rw [h.vars] at hx hy
    exact hs.distinct x y v hx hy
  · intro x
    rw [h.env_eq hs]
    exact hs.u32 x

/-! ### Exact runs -/

def run (ctx : Context) (e : U32Expr) : Gen Value := expression ctx e.toExpression

/-- The expressions a run evaluates, with the states it evaluates them in. -/
inductive Reaches (ctx : Context) : U32Expr → GenState → U32Expr → GenState → Prop
  | refl (e : U32Expr) (s : GenState) : Reaches ctx e s e s
  | left {op : BinaryOp} {l r e : U32Expr} {s t : GenState} (h : Reaches ctx l s e t) :
      Reaches ctx (.binary op l r) s e t
  | right {op : BinaryOp} {l r e : U32Expr} {s t u : GenState} {v : Value}
      (hl : run ctx l s = .ok (v,t)) (h : Reaches ctx r t e u) :
      Reaches ctx (.binary op l r) s e u
  | bitwiseNot {e' e : U32Expr} {s t : GenState} (h : Reaches ctx e' s e t) :
      Reaches ctx (.bitwiseNot e') s e t

/-- A completed run leaves the exact values in all variables, and its result fits 32 bits. -/
def LeavesExact (ctx : Context) (e : U32Expr) (s : GenState) : Prop :=
  ∀ v t, run ctx e s = .ok (v,t) →
    ∃ m ρ, e.exact (env s) = some (m,ρ) ∧ m < 2^32 ∧ ∀ x, declared s x → env t x = ρ x

/-- A completed run also returns the exact value, as an integer. -/
def YieldsExact (ctx : Context) (e : U32Expr) (s : GenState) : Prop :=
  ∀ v t, run ctx e s = .ok (v,t) →
    ∃ m ρ, e.exact (env s) = some (m,ρ) ∧ m < 2^32 ∧ v.isPointer = false ∧ v.felt.val = m ∧
      ∀ x, declared s x → env t x = ρ x

/-- Every u32 expression that the emitted code evaluates is exact. -/
def Sound (ctx : Context) (e : U32Expr) (s : GenState) : Prop :=
  e.Emits (declared s) → ∀ e' t, Reaches ctx e s e' t → YieldsExact ctx e' t

/-! ### Runs, node by node -/

theorem run_number {value : ℕ} : run ctx (.number value) s = .ok (operand true value,s) := rfl

theorem env_of_var {x a : ℕ} (hx : s.vars x = some (.ptr (.stack a))) :
    env s x = (s.machine.cell (.stack a)).val := by
  simp [env,hx]

theorem run_variable (hs : Frame s) {x : ℕ} (hx : declared s x) :
    run ctx (.var x) s = .ok (operand false (env s x),s) := by
  cases hv : s.vars x with
  | none => exact absurd hv hx
  | some v =>
    rcases hs.cell x v hv with ⟨a,rfl,_,_⟩
    have hget : Gen.getVar x s = .ok (.ptr (.stack a),s) := Gen.getVar_eq_ok.mpr ⟨hv,rfl⟩
    have hload : run ctx (.var x) s = .ok (.int (s.machine.cell (.stack a)),s) := by
      show (Gen.getVar x >>= _) s = _
      rw [Exec.bind_ok hget]
      rfl
    rw [hload,operand_int,env_of_var hv,Felt.natCast_val]

theorem run_binary (op : BinaryOp) (l r : U32Expr) : run ctx (.binary op l r) = (do
    let v ← run ctx l
    let w ← run ctx r
    Gen.code (binaryOp ctx.host op v w)) := rfl

theorem run_bitwiseNot (e : U32Expr) : run ctx (.bitwiseNot e) = (do
    let v ← run ctx e
    Gen.code (u32BitwiseNot v)) := rfl

theorem felt_const_one : (Value.const 1).felt = 1 := Nat.cast_one

/-- An update stores the neighbouring field element and returns the pointer to the variable. -/
theorem run_increment {loc x a : ℕ} (hx : s.vars x = some (.ptr (.stack a))) :
    ∃ t, run ctx (.increment loc x) s = .ok (.ptr (.stack a),t) ∧ t.vars = s.vars ∧
      t.machine = s.machine.write (.stack a) (.int (s.machine.cell (.stack a) + 1)) := by
  have hget : ∀ m tr, Gen.getVar x (⟨m,s.vars,tr⟩ : GenState) =
      .ok (.ptr (.stack a),⟨m,s.vars,tr⟩) := fun m tr => Gen.getVar_eq_ok.mpr ⟨hx,rfl⟩
  have hrun : run ctx (.increment loc x) s = .ok (.ptr (.stack a),
      ⟨s.machine.write (.stack a) (.int (s.machine.cell (.stack a) + 1)),s.vars,
        s.trace ++ [.update loc]⟩) := by
    rcases s with ⟨m,vars,tr⟩
    show ((Gen.getVar x >>= _) >>= _) _ = _
    rw [Exec.bind_apply,Exec.bind_ok (hget m tr)]
    show (Gen.getVar x >>= _) _ = _
    rw [Exec.bind_ok (hget m tr)]
    simp only [Exec.bind_apply,Gen.code_apply,Gen.record_apply,Exec.pure_apply,intoPointerValue,
      buildStore_apply,felt_const_one,Value.felt_int]
  exact ⟨_,hrun,rfl,rfl⟩

theorem run_decrement {loc x a : ℕ} (hx : s.vars x = some (.ptr (.stack a))) :
    ∃ t, run ctx (.decrement loc x) s = .ok (.ptr (.stack a),t) ∧ t.vars = s.vars ∧
      t.machine = s.machine.write (.stack a) (.int (s.machine.cell (.stack a) - 1)) := by
  have hget : ∀ m tr, Gen.getVar x (⟨m,s.vars,tr⟩ : GenState) =
      .ok (.ptr (.stack a),⟨m,s.vars,tr⟩) := fun m tr => Gen.getVar_eq_ok.mpr ⟨hx,rfl⟩
  have hrun : run ctx (.decrement loc x) s = .ok (.ptr (.stack a),
      ⟨s.machine.write (.stack a) (.int (s.machine.cell (.stack a) - 1)),s.vars,
        s.trace ++ [.update loc]⟩) := by
    rcases s with ⟨m,vars,tr⟩
    show ((Gen.getVar x >>= _) >>= _) _ = _
    rw [Exec.bind_apply,Exec.bind_ok (hget m tr)]
    show (Gen.getVar x >>= _) _ = _
    rw [Exec.bind_ok (hget m tr)]
    simp only [Exec.bind_apply,Gen.code_apply,Gen.record_apply,Exec.pure_apply,intoPointerValue,
      buildStore_apply,felt_const_one,Value.felt_int]
  exact ⟨_,hrun,rfl,rfl⟩

/-! ### Faithful expressions -/

/-- The checked value is the exact one, fits 32 bits, and no variable has changed. -/
theorem checked_exact {ρ : ℕ → ℕ} (hρ : ∀ x, ρ x < 2^32) {e : U32Expr} {base m : ℕ}
    (hf : e.FaithfulAt ρ base) (hc : e.checked ρ base = some m) :
    m < 2^32 ∧ e.exact ρ = some (m,ρ) := by
  induction e generalizing base m with
  | number value =>
    cases hc
    exact ⟨hf,rfl⟩
  | var x =>
    cases hc
    exact ⟨hρ x,rfl⟩
  | binary op l r ihl ihr =>
    rcases hf with ⟨hfl,hfr⟩
    simp only [U32Expr.checked,Option.bind_eq_bind,Option.bind_eq_some_iff] at hc
    rcases hc with ⟨i,hi,j,hj,hop⟩
    rcases ihl hfl hi with ⟨hi32,hil⟩
    rcases ihr (hfr i hi).1 hj with ⟨hj32,hjr⟩
    have hpass : Passes (l.isConst && r.isConst) (base + l.cells + r.cells) op i j := by
      by_contra hno
      rw [if_neg hno] at hop
      cases hop
    rw [if_pos hpass] at hop
    rcases opResult_of_faithful hi32 hj32 hpass ((hfr i hi).2 j hj) with ⟨k,hk,hk32,_⟩
    rw [hop] at hk
    cases hk
    exact ⟨hk32,by simp [exact,hil,hjr,hop]⟩
  | bitwiseNot e ih =>
    simp only [U32Expr.checked,Option.bind_eq_bind,Option.bind_eq_some_iff] at hc
    rcases hc with ⟨i,hi,hop⟩
    rcases ih hf hi with ⟨hi32,hie⟩
    have hle : i ≤ u32Max := by
      unfold u32Max
      omega
    have hm : m = u32Max - i := by
      rw [exactOp,if_pos hle] at hop
      cases hop
      rfl
    refine ⟨?_,by simp [exact,hie,hop]⟩
    rw [hm]
    unfold u32Max
    omega
  | increment loc x => exact absurd hf id
  | decrement loc x => exact absurd hf id

/-- What the run of a faithful expression does: it completes exactly when the checks pass, with
the checked value. -/
def Outcome (ctx : Context) (e : U32Expr) (s : GenState) : Option ℕ → Prop
  | some m => ∃ t, run ctx e s = .ok (operand e.isConst m,t) ∧ After s t e.cells
  | none => ∀ v t, run ctx e s ≠ .ok (v,t)

theorem After.of_op {m n : ℕ} (op : BinaryOp) :
    After s { s with machine := opState s.machine op m n } (opCells op) :=
  ⟨rfl,opState_stack op,fun _ h0 ha => opState_cell op h0 ha⟩

theorem outcome (hhost : Honest ctx.host) (hs : Frame s) (hem : e.Emits (declared s))
    (hf : e.FaithfulAt (env s) s.machine.stack) :
    Outcome ctx e s (e.checked (env s) s.machine.stack) := by
  induction e generalizing s with
  | number value => exact ⟨s,run_number,After.refl⟩
  | var x => exact ⟨s,run_variable hs hem,After.refl⟩
  | binary op l r ihl ihr =>
    rcases hem with ⟨heml,hemr,_⟩
    rcases hf with ⟨hfl,hfr⟩
    have hl := ihl hs heml hfl
    rw [U32Expr.checked]
    cases hcl : l.checked (env s) s.machine.stack with
    | none =>
      rw [hcl] at hl
      intro v t hrun
      rw [run_binary] at hrun
      rcases Exec.bind_eq_ok.mp hrun with ⟨w,u,hw,_⟩
      exact hl w u hw
    | some m =>
      rw [hcl] at hl
      rcases hl with ⟨t,hrunl,hafl⟩
      rcases hfr m hcl with ⟨hfr,hop⟩
      have henv := hafl.env_eq hs
      have ht := hafl.frame_of hs
      have hdecl : declared t = declared s := by
        funext x
        unfold declared
        rw [hafl.vars]
      have hr := ihr ht (by rwa [hdecl]) (by rwa [henv,hafl.stack])
      rw [henv,hafl.stack] at hr
      rcases checked_exact hs.u32 hfl hcl with ⟨hm32,_⟩
      cases hcr : r.checked (env s) (s.machine.stack + l.cells) with
      | none =>
        rw [hcr] at hr
        intro v w hrun
        rw [run_binary,Exec.bind_ok hrunl] at hrun
        rcases Exec.bind_eq_ok.mp hrun with ⟨v',u',hv',_⟩
        exact hr v' u' hv'
      | some n =>
        rw [hcr] at hr
        rcases hr with ⟨u,hrunr,hafr⟩
        rcases checked_exact hs.u32 hfr hcr with ⟨hn32,_⟩
        have hafu := hafl.trans hafr
        have hu := hafu.frame_of hs
        have hstack : u.machine.stack = s.machine.stack + l.cells + r.cells := by
          rw [hafr.stack,hafl.stack]
        have hcode : ∀ v w, Gen.code (binaryOp ctx.host op (operand l.isConst m)
            (operand r.isConst n)) u = .ok (v,w) ↔
            Passes (l.isConst && r.isConst) (s.machine.stack + l.cells + r.cells) op m n ∧
            v = opResult (l.isConst && r.isConst) op m n ∧
            w = { u with machine := opState u.machine op m n } := by
          intro v w
          rw [Gen.code_eq_ok]
          simp only [binaryOp_eq_ok hhost hm32 hn32 hu.entry op,hstack]
          constructor
          · rintro ⟨_,⟨hp,hv,rfl⟩,hw⟩
            exact ⟨hp,hv,hw⟩
          · rintro ⟨hp,hv,hw⟩
            exact ⟨_,⟨hp,hv,rfl⟩,hw⟩
        have hrun : run ctx (.binary op l r) s = Gen.code (binaryOp ctx.host op
            (operand l.isConst m) (operand r.isConst n)) u := by
          rw [run_binary,Exec.bind_ok hrunl,Exec.bind_ok hrunr]
        show Outcome ctx _ s (if _ then _ else none)
        by_cases hp : Passes (l.isConst && r.isConst) (s.machine.stack + l.cells + r.cells) op m n
        · rcases opResult_of_faithful hm32 hn32 hp (hop n hcr) with ⟨k,hk,_,hres⟩
          rw [if_pos hp,hk]
          refine ⟨_,?_,hafu.trans (After.of_op (m := m) (n := n) op)⟩
          rw [hrun,(hcode _ _).mpr ⟨hp,rfl,rfl⟩,hres]
          rfl
        · rw [if_neg hp]
          intro v w hvw
          rw [hrun] at hvw
          exact hp ((hcode v w).mp hvw).1
  | bitwiseNot e ih =>
    have he := ih hs hem.1 hf
    rw [U32Expr.checked]
    cases hce : e.checked (env s) s.machine.stack with
    | none =>
      rw [hce] at he
      intro v t hrun
      rw [run_bitwiseNot] at hrun
      rcases Exec.bind_eq_ok.mp hrun with ⟨w,u,hw,_⟩
      exact he w u hw
    | some m =>
      rw [hce] at he
      rcases he with ⟨t,hrune,haf⟩
      rcases checked_exact (e := e) hs.u32 hf hce with ⟨hm32,_⟩
      have hle : m ≤ u32Max := by
        unfold u32Max
        omega
      have hk : exactOp .subtract u32Max m = some (u32Max - m) := if_pos hle
      have hmax : u32Max < 2^32 := by decide
      have hsub : u32BitwiseNot (operand e.isConst m) t.machine =
          .ok (operand e.isConst (u32Max - m),t.machine) := by
        refine (u32Sub_eq_ok (c := true) hmax hm32).mpr ⟨Or.inl hle,?_,rfl⟩
        have hpass : Passes (true && e.isConst) 0 .subtract u32Max m := Or.inl hle
        rcases opResult_of_faithful hmax hm32 hpass (fun _ => by omega) with ⟨k,hk',_,hres⟩
        rw [hk] at hk'
        cases hk'
        rw [hres,Bool.true_and,foldsConstants,Bool.and_true]
      show Outcome ctx _ s (exactOp .subtract u32Max m)
      rw [hk]
      refine ⟨t,?_,haf⟩
      rw [run_bitwiseNot,Exec.bind_ok hrune,Gen.code_apply,hsub]
      rfl
  | increment loc x => exact absurd hf id
  | decrement loc x => exact absurd hf id

/-! ### Faithful expressions are exact -/

theorem yieldsExact_of_faithful (hhost : Honest ctx.host) (hs : Frame s)
    (hem : e.Emits (declared s)) (hf : e.FaithfulAt (env s) s.machine.stack) :
    YieldsExact ctx e s := by
  intro v t hrun
  have hout := outcome hhost hs hem hf
  cases hc : e.checked (env s) s.machine.stack with
  | none =>
    rw [hc] at hout
    exact absurd hrun (hout v t)
  | some m =>
    rw [hc] at hout
    rcases hout with ⟨u,hrun',haf⟩
    rw [hrun'] at hrun
    cases hrun
    rcases checked_exact hs.u32 hf hc with ⟨hm32,hex⟩
    refine ⟨m,env s,hex,hm32,operand_isPointer,?_,?_⟩
    · rw [operand_felt hm32,natCast_val_of_u32 hm32]
    · intro x _
      rw [haf.env_eq hs]

theorem declared_eq (h : t.vars = s.vars) : declared t = declared s := by
  funext x
  unfold declared
  rw [h]

/-- The run of the left operand of a faithful operator, when it completes. -/
theorem left_run (hhost : Honest ctx.host) (hs : Frame s) (hem : e.Emits (declared s))
    (hf : e.FaithfulAt (env s) s.machine.stack) (hrun : run ctx e s = .ok (v,t)) :
    ∃ m, e.checked (env s) s.machine.stack = some m ∧ After s t e.cells := by
  have hout := outcome hhost hs hem hf
  cases hc : e.checked (env s) s.machine.stack with
  | none =>
    rw [hc] at hout
    exact absurd hrun (hout v t)
  | some m =>
    rw [hc] at hout
    rcases hout with ⟨u,hrun',haf⟩
    rw [hrun'] at hrun
    cases hrun
    exact ⟨m,rfl,haf⟩

theorem sound_of_faithful (hhost : Honest ctx.host) (hs : Frame s) (hem : e.Emits (declared s))
    (hf : e.FaithfulAt (env s) s.machine.stack) :
    ∀ e' t, Reaches ctx e s e' t → YieldsExact ctx e' t := by
  induction e generalizing s with
  | number value =>
    intro e' t h
    cases h
    exact yieldsExact_of_faithful hhost hs hem hf
  | var x =>
    intro e' t h
    cases h
    exact yieldsExact_of_faithful hhost hs hem hf
  | binary op l r ihl ihr =>
    intro e' t h
    cases h with
    | refl => exact yieldsExact_of_faithful hhost hs hem hf
    | left h => exact ihl hs hem.1 hf.1 e' t h
    | right hl h =>
      rcases left_run hhost hs hem.1 hf.1 hl with ⟨m,hm,haf⟩
      refine ihr (haf.frame_of hs) ?_ ?_ e' t h
      · rw [declared_eq haf.vars]
        exact hem.2.1
      · rw [haf.env_eq hs,haf.stack]
        exact (hf.2 m hm).1
  | bitwiseNot e ih =>
    intro e' t h
    cases h with
    | refl => exact yieldsExact_of_faithful hhost hs hem hf
    | bitwiseNot h => exact ih hs hem.1 hf e' t h
  | increment loc x => exact absurd hf id
  | decrement loc x => exact absurd hf id

/-! ### Exact expressions are faithful -/

theorem faithful_of_not_passes {c : Bool} {cell m n : ℕ} {op : BinaryOp}
    (h : ¬ Passes c cell op m n) : Faithful c cell op m n := by
  cases op with
  | subtract =>
    intro hc
    by_contra hge
    exact h (Or.inr ⟨hc,by omega⟩)
  | power => exact fun hp => absurd hp h
  | shiftLeft => exact fun hp hm => absurd ⟨hp,hm⟩ h
  | shiftRight => exact fun hp hc => absurd ⟨hp,hc⟩ h
  | _ => trivial

theorem update_returns_pointer {loc x : ℕ} (hs : Frame s) (hx : declared s x) :
    (∃ v t, run ctx (.increment loc x) s = .ok (v,t) ∧ v.isPointer = true) ∧
    ∃ v t, run ctx (.decrement loc x) s = .ok (v,t) ∧ v.isPointer = true := by
  cases hv : s.vars x with
  | none => exact absurd hv hx
  | some v =>
    rcases hs.cell x v hv with ⟨a,rfl,_,_⟩
    rcases run_increment hv with ⟨t,ht,_,_⟩
    rcases run_decrement hv with ⟨u,hu,_,_⟩
    exact ⟨⟨_,t,ht,rfl⟩,_,u,hu,rfl⟩

theorem faithful_of_sound (hhost : Honest ctx.host) (hs : Frame s) (hem : e.Emits (declared s))
    (h : ∀ e' t, Reaches ctx e s e' t → YieldsExact ctx e' t) :
    e.FaithfulAt (env s) s.machine.stack := by
  induction e generalizing s with
  | number value =>
    rcases h _ s (.refl _ s) _ s run_number with ⟨m,ρ,hex,hm,_⟩
    cases hex
    exact hm
  | var x => trivial
  | binary op l r ihl ihr =>
    have hfl := ihl hs hem.1 fun e' t hr => h e' t (.left hr)
    refine ⟨hfl,?_⟩
    intro m hcl
    have houtl := outcome hhost hs hem.1 hfl
    rw [hcl] at houtl
    rcases houtl with ⟨t,hrunl,hafl⟩
    have ht := hafl.frame_of hs
    have hemr : r.Emits (declared t) := by
      rw [declared_eq hafl.vars]
      exact hem.2.1
    have hfr := ihr ht hemr fun e' u hr => h e' u (.right hrunl hr)
    have houtr := outcome hhost ht hemr hfr
    rw [hafl.env_eq hs,hafl.stack] at hfr houtr
    refine ⟨hfr,?_⟩
    intro n hcr
    rw [hcr] at houtr
    rcases houtr with ⟨u,hrunr,hafr⟩
    by_cases hp : Passes (l.isConst && r.isConst) (s.machine.stack + l.cells + r.cells) op m n
    · have hu := (hafl.trans hafr).frame_of hs
      have hstack : u.machine.stack = s.machine.stack + l.cells + r.cells := by
        rw [hafr.stack,hafl.stack]
      rcases checked_exact hs.u32 hfl hcl with ⟨hm32,hexl⟩
      rcases checked_exact hs.u32 hfr hcr with ⟨hn32,hexr⟩
      have hrun : run ctx (.binary op l r) s = .ok (opResult (l.isConst && r.isConst) op m n,
          { u with machine := opState u.machine op m n }) := by
        rw [run_binary,Exec.bind_ok hrunl,Exec.bind_ok hrunr]
        exact Gen.code_eq_ok.mpr
          ⟨_,(binaryOp_eq_ok hhost hm32 hn32 hu.entry op).mpr ⟨by rwa [hstack],rfl,rfl⟩,rfl⟩
      rcases h _ s (.refl _ s) _ _ hrun with ⟨k,ρ,hex,hk,_,hval,_⟩
      have hop : exactOp op m n = some k := by
        simp only [exact,hexl,hexr,Option.bind_eq_bind,Option.bind_some,
          Option.bind_eq_some_iff] at hex
        rcases hex with ⟨k',hk',heq⟩
        cases heq
        exact hk'
      exact faithful_of_exact hm32 hop hk hval
    · exact faithful_of_not_passes hp
  | bitwiseNot e ih => exact ih hs hem.1 fun e' t hr => h e' t (.bitwiseNot hr)
  | increment loc x =>
    rcases (update_returns_pointer hs hem).1 with ⟨v,t,hrun,hptr⟩
    rcases h _ s (.refl _ s) v t hrun with ⟨_,_,_,_,hno,_⟩
    rw [hptr] at hno
    cases hno
  | decrement loc x =>
    rcases (update_returns_pointer hs hem).2 with ⟨v,t,hrun,hptr⟩
    rcases h _ s (.refl _ s) v t hrun with ⟨_,_,_,_,hno,_⟩
    rw [hptr] at hno
    cases hno

/-! ### Updates as statements -/

/-- An update of `x` changes the value of no other variable. -/
theorem env_write (hs : Frame s) {x a : ℕ} {f : Felt} (hx : s.vars x = some (.ptr (.stack a)))
    (hvars : t.vars = s.vars) (hm : t.machine = s.machine.write (.stack a) (.int f)) :
    ∀ y, env t y = Function.update (env s) x f.val y := by
  intro y
  by_cases hy : y = x
  · rw [hy,Function.update_self,env_of_var (by rw [hvars]; exact hx),hm]
    simp
  · rw [Function.update_of_ne hy]
    unfold env
    rw [hvars]
    cases hv : s.vars y with
    | none => rfl
    | some v =>
      rcases hs.cell y v hv with ⟨b,rfl,_,_⟩
      have hne : Pointer.stack b ≠ .stack a := by
        intro hba
        rw [hba] at hv
        exact hy (hs.distinct y x _ hv hx)
      show (t.machine.cell (.stack b)).val = (s.machine.cell (.stack b)).val
      rw [hm,State.write_cell_of_ne _ _ hne]

theorem leavesExact_increment (hs : Frame s) {loc x : ℕ} (hx : declared s x) :
    LeavesExact ctx (.increment loc x) s ↔ env s x + 1 < 2^32 := by
  cases hv : s.vars x with
  | none => exact absurd hv hx
  | some v =>
    rcases hs.cell x v hv with ⟨a,rfl,_,_⟩
    rcases run_increment hv with ⟨t,hrun,hvars,hm⟩
    have hu32 := hs.u32 x
    have hval : (s.machine.cell (.stack a) + 1).val = env s x + 1 := by
      rw [env_of_var hv] at hu32 ⊢
      rw [Felt.val_add,Felt.val_one]
      omega
    constructor
    · intro h
      rcases h _ t hrun with ⟨m,ρ,hex,hm32,_⟩
      cases hex
      exact hm32
    · intro hlt v u hrun'
      rw [hrun] at hrun'
      cases hrun'
      refine ⟨_,_,rfl,hlt,?_⟩
      intro y _
      rw [env_write hs hv hvars hm,hval]

theorem leavesExact_decrement (hs : Frame s) {loc x : ℕ} (hx : declared s x) :
    LeavesExact ctx (.decrement loc x) s ↔ 1 ≤ env s x := by
  cases hv : s.vars x with
  | none => exact absurd hv hx
  | some v =>
    rcases hs.cell x v hv with ⟨a,rfl,_,_⟩
    rcases run_decrement hv with ⟨t,hrun,hvars,hm⟩
    have hu32 := hs.u32 x
    constructor
    · intro h
      rcases h _ t hrun with ⟨m,ρ,hex,_⟩
      by_contra hno
      rw [exact,if_neg hno] at hex
      cases hex
    · intro hle v u hrun'
      rw [hrun] at hrun'
      cases hrun'
      have hval : (s.machine.cell (.stack a) - 1).val = env s x - 1 := by
        rw [env_of_var hv] at hle ⊢
        rw [Felt.val_sub_of_le (by rwa [Felt.val_one]),Felt.val_one]
      refine ⟨env s x - 1,_,if_pos hle,by omega,?_⟩
      intro y _
      rw [env_write hs hv hvars hm,hval]

/-- The emitted code of a u32 expression is exact on the operands where every operator it reaches
is faithful, and only there; an update that is not used for its value is exact when it stays in
the 32-bit range. -/
theorem u32_exact_iff (ctx : Context) (s : GenState) (hhost : Honest ctx.host) (hs : Frame s) :
    (∀ e, Sound ctx e s ↔ (e.Emits (declared s) → e.FaithfulAt (env s) s.machine.stack)) ∧
    (∀ loc x, declared s x →
      (LeavesExact ctx (.increment loc x) s ↔ env s x + 1 < 2^32)) ∧
    ∀ loc x, declared s x → (LeavesExact ctx (.decrement loc x) s ↔ 1 ≤ env s x) := by
  refine ⟨?_,fun _ _ hx => leavesExact_increment hs hx,fun _ _ hx => leavesExact_decrement hs hx⟩
  intro e
  constructor
  · intro h hem
    exact faithful_of_sound hhost hs hem (h hem)
  · intro h hem
    exact sound_of_faithful hhost hs hem (h hem)

/-- Prophets that divide, and functions that stop. -/
def divisionContext : Context where
  host := { constHost 0 0 with
    prophetU32Div := fun n d => (n.val / d.val : ℕ)
    prophetU32Mod := fun n d => (n.val % d.val : ℕ) }
  layout := id
  callee _ _ := Exec.fail .abort

/-- One variable, in cell one, with the value two. -/
def oneVariable : GenState where
  machine := ⟨fun _ => .int 2,0,2,fun _ => Word.zero⟩
  vars x := if x = 0 then some (.ptr (.stack 1)) else none
  trace := []

theorem honest_divisionContext : Honest divisionContext.host :=
  ⟨fun _ _ _ _ _ => rfl,fun _ _ _ _ _ => rfl⟩

theorem frame_oneVariable : Frame oneVariable := by
  refine ⟨by decide,?_,?_,?_⟩
  · intro x v hx
    by_cases h : x = 0
    · simp only [oneVariable,h,if_true,Option.some.injEq] at hx
      exact ⟨1,hx.symm,by decide,by decide⟩
    · simp [oneVariable,h] at hx
  · intro x y v hx hy
    by_cases h : x = 0
    · by_cases h' : y = 0
      · rw [h,h']
      · simp [oneVariable,h'] at hy
    · simp [oneVariable,h] at hx
  · intro x
    by_cases h : x = 0
    · rw [h]
      decide
    · simp [env,oneVariable,h]

theorem u32_exact_iff_oneVariable :
    (Honest divisionContext.host ∧ Frame oneVariable) ∧
    (∀ e, Sound divisionContext e oneVariable ↔ (e.Emits (declared oneVariable) →
      e.FaithfulAt (env oneVariable) oneVariable.machine.stack)) ∧
    (∀ loc x, declared oneVariable x →
      (LeavesExact divisionContext (.increment loc x) oneVariable ↔
        env oneVariable x + 1 < 2^32)) ∧
    ∀ loc x, declared oneVariable x →
      (LeavesExact divisionContext (.decrement loc x) oneVariable ↔ 1 ≤ env oneVariable x) :=
  ⟨⟨honest_divisionContext,frame_oneVariable⟩,
    u32_exact_iff divisionContext oneVariable honest_divisionContext frame_oneVariable⟩

/-- Two to the power of 64 comes out as `2^32 - 1`. -/
theorem two_power_64_inexact :
    ¬ Sound divisionContext (.binary .power (.var 0) (.number 64)) oneVariable := by
  intro h
  have hem : (U32Expr.binary .power (.var 0) (.number 64)).Emits (declared oneVariable) :=
    ⟨show (_ : Option Value) ≠ none by decide,trivial,Or.inr ⟨id,id⟩⟩
  have hf := faithful_of_sound honest_divisionContext frame_oneVariable hem (h hem)
  have hpow := (hf.2 2 (by decide)).2 64 rfl (by decide)
  exact absurd hpow (by decide)

end U32Exactness
end OlaLang
