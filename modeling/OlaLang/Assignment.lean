import OlaLang.Expression
import Mathlib.Data.List.Count

/-! Assignments and updates: what the semantic analysis makes of them, and how often a completed run
of the result executes the effects of the operands. The lvalue of a compound assignment is resolved
into both operands, and that of an update is evaluated again for the store. -/
namespace OlaLang

open Builder

/-- The assignments of the source, over operands the analysis has resolved: `e1 = e2`,
`e1 op= e2`, `e1++` and `e1--`. -/
inductive Assignment
  | assign (loc : ℕ) (left right : Expression)
  | compound (loc : ℕ) (op : BinaryOp) (left right : Expression)
  | increment (loc : ℕ) (left : Expression)
  | decrement (loc : ℕ) (left : Expression)

namespace Expression

/-- The first step of `cast`: an lvalue that is used as a value is read. -/
def deref (e : Expression) : Expression := match e.ty with
  | .ref ty => if ty.isFixedReferenceType then e else .load ty e
  | .storageRef ty => .storageLoad ty e
  | _ => e

/-- The location that is assigned: a reference held in memory is loaded first. -/
def place (left : Expression) : Expression := match left.ty with
  | .ref (.ref ty) => .load (.ref ty) left
  | _ => left

def isVariable : Expression → Bool
  | .variable _ _ => true
  | _ => false

end Expression

namespace Assignment

/-! ### Semantic analysis -/

/-- `assign_single`, on a right operand that is cast to the type of the variable. -/
def assignSingle (loc : ℕ) (left right : Expression) : Option Expression := match left with
  | .storageVariable ty _ => some (.assign loc ty.derefAny left right)
  | .variable ty _ => some (.assign loc ty left right)
  | _ => match left.ty with
    | .ref (.ref ty) => some (.assign loc ty left.place right)
    | .ref ty => some (.assign loc ty left right)
    | .storageRef ty => some (.assign loc (.storageRef ty) left right)
    | _ => none

/-- The operators that have an assignment, and that accept the right operand. -/
def accepts : BinaryOp → Expression → Bool
  | .power, _ => false
  | .divide, .numberLiteral _ value | .modulo, .numberLiteral _ value => value ≠ 0
  | _, _ => true

/-- `assign_expr`: the resolved lvalue is the left operand of the operator, too. -/
def assignExpr (loc : ℕ) (op : BinaryOp) (left right : Expression) : Option Expression :=
  if accepts op right then match left with
    | .variable .uint32 _ => some (.assign loc .void left (.binary op .uint32 left right))
    | .variable .field _ => if op = .add ∨ op = .subtract ∨ op = .multiply then
        some (.assign loc .void left (.binary op .field left right)) else none
    | .variable _ _ => none
    | _ => match left.ty with
      | .ref .uint32 | .ref (.ref .uint32) =>
        some (.assign loc .uint32 left.place (.binary op .uint32 left.place.deref right))
      | .ref .field => some (.assign loc .field left.place (.binary op .field left.place.deref right))
      | .storageRef .uint32 =>
        some (.assign loc .uint32 left.place (.binary op .uint32 left.place.deref right))
      | _ => none
  else none

/-- `incr_decr` -/
def incrDecr (op : Ty → Expression → Expression) (left : Expression) : Option Expression :=
  match left with
  | .variable .uint32 _ => some (op .uint32 left)
  | .variable .field _ => some (op .field left)
  | .variable _ _ => none
  | _ => match left.ty with
    | .ref .uint32 | .storageRef .uint32 => some (op .uint32 left)
    | .ref .field => some (op .field left)
    | _ => none

def resolve : Assignment → Option Expression
  | .assign loc left right => assignSingle loc left right
  | .compound loc op left right => assignExpr loc op left right
  | .increment loc left => incrDecr (.increment loc) left
  | .decrement loc left => incrDecr (.decrement loc) left

end Assignment

/-! ### Effects -/

namespace Expression

mutual
/-- The calls, pushes, pops and updates that the generated code executes, in its order. -/
def effects : Expression → List Event
  | .numberLiteral _ _ | .boolLiteral _ | .variable _ _ | .storageVariable _ _ => []
  | .load _ e | .storageLoad _ e | .bitwiseNot _ e | .not e | .structMember _ e _
  | .storageArrayLength e | .arrayLength e => effects e
  | .binary _ _ l r | .compare _ l r | .and l r | .or l r | .subscript _ _ l r =>
    effects l ++ effects r
  | .increment loc _ e | .decrement loc _ e => effects e ++ effects e ++ [.update loc]
  | .assign loc _ l r => effects l ++ effects r ++ [.update loc]
  | .functionCall loc _ _ args => effectsList args ++ [.call loc]
  | .arrayPush loc array value => effects array ++ effectsList value ++ [.push loc]
  | .arrayPop loc array => effects array ++ [.pop loc]

def effectsList : List Expression → List Event
  | [] => []
  | e::rest => effects e ++ effectsList rest
end

end Expression

/-- Every completed run appends the events `es` to the trace. -/
def Emits {α : Type} (m : Gen α) (es : List Event) : Prop :=
  ∀ s a t, m s = .ok (a,t) → t.trace = s.trace ++ es

section Emits

variable {α β : Type} {m : Gen α} {f : α → Gen β} {es es' : List Event}

theorem emits_pure (a : α) : Emits (pure a) [] := by
  intro s b t h
  cases h
  exact (List.append_nil _).symm

theorem emits_bind (hm : Emits m es) (hf : ∀ a, Emits (f a) es') : Emits (m >>= f) (es ++ es') := by
  intro s b u h
  rcases Exec.bind_eq_ok.mp h with ⟨a,t,hmt,hft⟩
  rw [hf a t b u hft,hm s a t hmt,List.append_assoc]

theorem emits_bind_nil (hm : Emits m es) (hf : ∀ a, Emits (f a) []) : Emits (m >>= f) es := by
  simpa using emits_bind hm hf

theorem emits_nil_bind (hm : Emits m []) (hf : ∀ a, Emits (f a) es) : Emits (m >>= f) es := by
  simpa using emits_bind hm hf

theorem emits_code (c : Code α) : Emits (Gen.code c) [] := by
  intro s a t h
  rcases Gen.code_eq_ok.mp h with ⟨u,_,rfl⟩
  exact (List.append_nil _).symm

theorem emits_record (e : Event) : Emits (Gen.record e) [e] := by
  intro s a t h
  cases h
  rfl

theorem emits_getVar (x : ℕ) : Emits (Gen.getVar x) [] := by
  intro s a t h
  rw [(Gen.getVar_eq_ok.mp h).2,List.append_nil]

theorem emits_insertVar (x : ℕ) (v : Value) : Emits (Gen.insertVar x v) [] := by
  intro s a t h
  cases h
  exact (List.append_nil _).symm

end Emits

section Trace

open Expression

variable (ctx : Context)

/-- The end of an update: the store and its record. -/
theorem emits_store {α : Type} {loc : ℕ} {c : Code α} {v : α → Value} :
    Emits (do let d ← Gen.code c; Gen.record (.update loc); pure (v d)) [.update loc] :=
  emits_nil_bind (emits_code _) fun _ => emits_bind_nil (emits_record _) fun _ => emits_pure _

theorem emits_binary {l r : Gen Value} {c : Value → Value → Code Value} {es es' : List Event}
    (hl : Emits l es) (hr : Emits r es') :
    Emits (do let a ← l; let b ← r; Gen.code (c a b)) (es ++ es') :=
  emits_bind hl fun _ => emits_bind_nil hr fun _ => emits_code _

theorem emits_unary {m : Gen Value} {c : Value → Code Value} {es : List Event} (h : Emits m es) :
    Emits (do let a ← m; Gen.code (c a)) es := emits_bind_nil h fun _ => emits_code _

theorem emits_updateBy {build : Value → Value → Code Value} {loc : ℕ} {e : Expression}
    {m : Gen Value} {es : List Event} (h : Emits m es) (hvar : e.isVariable = true → es = []) :
    Emits (updateBy ctx build loc e m) (es ++ es ++ [.update loc]) := by
  unfold updateBy
  rw [List.append_assoc]
  refine emits_bind h fun v => emits_nil_bind (emits_code _) fun v =>
    emits_nil_bind (emits_code _) fun v => ?_
  split
  · rw [hvar rfl]
    exact emits_nil_bind (emits_getVar _) fun _ => emits_store
  · exact emits_bind h fun _ => emits_store

theorem emits_assignVariable (ty : Ty) (x : ℕ) (v : Value) : Emits (assignVariable ty x v) [] := by
  unfold assignVariable
  split
  · exact emits_insertVar x v
  · exact emits_nil_bind (emits_getVar x) fun _ => emits_code _

theorem expression_assign {loc : ℕ} {ty : Ty} {left right : Expression}
    (h : left.isVariable = false) : expression ctx (.assign loc ty left right) = (do
      let dest ← expression ctx left
      let exprRight ← expression ctx right
      let exprRight ← Gen.code (rightOperand left.ty right.ty exprRight)
      let dest ← Gen.code (storeThrough ctx left.ty dest exprRight)
      Gen.record (.update loc)
      pure dest) := by
  rw [expression]
  rintro varTy varNo rfl
  cases h

theorem effects_of_isVariable {e : Expression} (h : e.isVariable = true) : e.effects = [] := by
  cases e <;> first | (cases h; done) | rfl

mutual
theorem emits_expression : ∀ e : Expression, Emits (expression ctx e) e.effects
  | .numberLiteral _ _ => emits_pure _
  | .boolLiteral _ => emits_pure _
  | .variable ty x => by
    rw [expression]
    refine emits_nil_bind (emits_getVar x) fun p => ?_
    split
    · exact emits_pure _
    · exact emits_code _
  | .storageVariable _ _ => by
    rw [expression]
    exact emits_pure _
  | .load _ e => by
    rw [expression]
    exact emits_unary (emits_expression e)
  | .storageLoad _ e => by
    rw [expression]
    exact emits_unary (emits_expression e)
  | .bitwiseNot _ e => by
    rw [expression]
    exact emits_unary (emits_expression e)
  | .not e => by
    rw [expression]
    exact emits_unary (emits_expression e)
  | .structMember _ e _ => by
    rw [expression]
    exact emits_unary (emits_expression e)
  | .arrayLength e => by
    rw [expression]
    exact emits_unary (emits_expression e)
  | .storageArrayLength e => by
    rw [expression]
    refine emits_bind_nil (emits_expression e) fun slot => ?_
    split
    · exact emits_pure _
    · exact emits_code _
  | .binary _ _ l r => by
    rw [expression]
    exact emits_binary (emits_expression l) (emits_expression r)
  | .compare _ l r => by
    rw [expression]
    exact emits_binary (emits_expression l) (emits_expression r)
  | .and l r => by
    rw [expression]
    exact emits_binary (emits_expression l) (emits_expression r)
  | .or l r => by
    rw [expression]
    exact emits_binary (emits_expression l) (emits_expression r)
  | .subscript _ _ l r => by
    rw [expression]
    exact emits_binary (emits_expression l) (emits_expression r)
  | .increment loc _ e => by
    rw [expression]
    exact emits_updateBy ctx (emits_expression e) effects_of_isVariable
  | .decrement loc _ e => by
    rw [expression]
    exact emits_updateBy ctx (emits_expression e) effects_of_isVariable
  | .assign loc _ l r => by
    have hl := emits_expression l
    have hr := emits_expression r
    cases hvar : l.isVariable with
    | true =>
      cases l <;> simp only [Expression.isVariable,Bool.false_eq_true] at hvar
      rw [expression,Expression.effects,Expression.effects,List.nil_append]
      exact emits_bind hr fun _ => emits_nil_bind (emits_assignVariable _ _ _) fun _ =>
        emits_bind_nil (emits_record _) fun _ => emits_pure _
    | false =>
      rw [expression_assign ctx hvar,Expression.effects,List.append_assoc]
      exact emits_bind hl fun _ => emits_bind hr fun _ =>
        emits_nil_bind (emits_code _) fun _ => emits_store
  | .functionCall loc _ _ args => by
    rw [expression]
    exact emits_bind (emits_expressions args) fun _ =>
      emits_bind_nil (emits_record _) fun _ => emits_code _
  | .arrayPush loc array value => by
    rw [expression,Expression.effects,List.append_assoc]
    exact emits_bind (emits_expression array) fun _ => emits_nil_bind (emits_code _) fun _ =>
      emits_bind (emits_expressions value) fun _ => emits_nil_bind (emits_code _) fun _ =>
        emits_bind_nil (emits_record _) fun _ => emits_pure _
  | .arrayPop loc array => by
    rw [expression]
    exact emits_bind (emits_expression array) fun _ => emits_nil_bind (emits_code _) fun _ =>
      emits_bind_nil (emits_record _) fun _ => emits_pure _

theorem emits_expressions : ∀ es : List Expression,
    Emits (expressions ctx es) (Expression.effectsList es)
  | [] => emits_pure _
  | e::rest => by
    rw [expressions]
    exact emits_bind (emits_expression e) fun _ =>
      emits_bind_nil (emits_expressions rest) fun _ => emits_pure _
end

end Trace

namespace Assignment

/-! ### Evaluated once -/

def loc : Assignment → ℕ
  | .assign loc _ _ | .compound loc _ _ _ | .increment loc _ | .decrement loc _ => loc

def left : Assignment → Expression
  | .assign _ left _ | .compound _ _ left _ | .increment _ left | .decrement _ left => left

/-- The effects of one evaluation of each operand. -/
def operandEffects : Assignment → List Event
  | .assign _ left right | .compound _ _ left right => left.effects ++ right.effects
  | .increment _ left | .decrement _ left => left.effects

/-- Whether the generated code evaluates the lvalue twice. -/
def repeatsLeft : Assignment → Bool
  | .assign _ _ _ => false
  | _ => true

/-- The run executes the effects of one evaluation of each operand and the update itself, each of
them once, and nothing else. -/
def EvaluatedOnce (a : Assignment) (s t : GenState) : Prop :=
  ∃ new, t.trace = s.trace ++ new ∧ new.Perm (a.operandEffects ++ [.update a.loc]) ∧ new.Nodup

/-- One evaluation of the operands repeats no effect, and an lvalue that is evaluated again has none. -/
def NoneRepeated (a : Assignment) : Prop :=
  (a.operandEffects ++ [Event.update a.loc]).Nodup ∧ (a.repeatsLeft = true → a.left.effects = [])

instance (a : Assignment) : Decidable a.NoneRepeated := inferInstanceAs (Decidable (_ ∧ _))

variable {ctx : Context} {a : Assignment} {e : Expression} {s t : GenState} {v : Value}

theorem effects_place (left : Expression) : left.place.effects = left.effects := by
  unfold Expression.place
  split
  · rw [Expression.effects]
  · rfl

theorem effects_deref (e : Expression) : e.deref.effects = e.effects := by
  unfold Expression.deref
  split
  · split
    · rfl
    · rw [Expression.effects]
  · rw [Expression.effects]
  · rfl

/-- `assign_single` makes an assignment to the place, or to the variable itself. -/
theorem effects_assignSingle {loc : ℕ} {left right : Expression}
    (h : assignSingle loc left right = some e) :
    e.effects = left.effects ++ right.effects ++ [.update loc] := by
  unfold assignSingle at h
  split at h
  · cases h
    rfl
  · cases h
    rfl
  · split at h
    · cases h
      rw [Expression.effects,effects_place]
    · cases h
      rfl
    · cases h
      rfl
    · cases h

/-- `assign_expr` puts the lvalue into both operands of the assignment. -/
theorem effects_assignExpr {loc : ℕ} {op : BinaryOp} {left right : Expression}
    (h : assignExpr loc op left right = some e) :
    e.effects = left.effects ++ (left.effects ++ right.effects) ++ [.update loc] := by
  have hplace : ∀ ty, (Expression.assign loc ty left.place
      (.binary op ty left.place.deref right)).effects =
        left.effects ++ (left.effects ++ right.effects) ++ [.update loc] := fun ty => by
    rw [Expression.effects,Expression.effects,effects_deref,effects_place]
  unfold assignExpr at h
  split at h
  · split at h
    · cases h
      rfl
    · split at h
      · cases h
        rfl
      · cases h
    · cases h
    · split at h
      · cases h
        exact hplace .uint32
      · cases h
        exact hplace .uint32
      · cases h
        exact hplace .field
      · cases h
        exact hplace .uint32
      · cases h
  · cases h

theorem incrDecr_eq_some {op : Ty → Expression → Expression} {left : Expression}
    (h : incrDecr op left = some e) : ∃ ty, e = op ty left := by
  unfold incrDecr at h
  split at h
  · cases h
    exact ⟨_,rfl⟩
  · cases h
    exact ⟨_,rfl⟩
  · cases h
  · split at h
    · cases h
      exact ⟨_,rfl⟩
    · cases h
      exact ⟨_,rfl⟩
    · cases h
      exact ⟨_,rfl⟩
    · cases h

/-- The resolved form executes the effects of the operands after those of a repeated lvalue. -/
theorem effects_resolve (h : a.resolve = some e) :
    e.effects = (if a.repeatsLeft then a.left.effects else []) ++
      (a.operandEffects ++ [.update a.loc]) := by
  cases a with
  | assign loc left right => exact effects_assignSingle h
  | compound loc op left right =>
    rw [effects_assignExpr h,List.append_assoc]
    rfl
  | increment loc left =>
    obtain ⟨ty,rfl⟩ := incrDecr_eq_some h
    exact List.append_assoc _ _ _
  | decrement loc left =>
    obtain ⟨ty,rfl⟩ := incrDecr_eq_some h
    exact List.append_assoc _ _ _

/-- A completed run evaluates the operands once exactly when one evaluation of them repeats no effect
and none stands in an lvalue that is evaluated again. -/
theorem evaluatedOnce_iff (ctx : Context) (a : Assignment) (e : Expression) (s t : GenState) (v : Value)
    (hres : a.resolve = some e) (hrun : expression ctx e s = .ok (v,t)) :
    EvaluatedOnce a s t ↔ a.NoneRepeated := by
  have htrace := emits_expression ctx e s v t hrun
  rw [effects_resolve hres] at htrace
  have hnew : EvaluatedOnce a s t ↔
      ((if a.repeatsLeft then a.left.effects else []) ++
        (a.operandEffects ++ [Event.update a.loc])).Perm (a.operandEffects ++ [Event.update a.loc]) ∧
      ((if a.repeatsLeft then a.left.effects else []) ++
        (a.operandEffects ++ [Event.update a.loc])).Nodup := by
    constructor
    · rintro ⟨new,hnew,h⟩
      rw [hnew] at htrace
      rwa [List.append_cancel_left htrace] at h
    · intro h
      exact ⟨_,htrace,h⟩
  rw [hnew,NoneRepeated]
  constructor
  · rintro ⟨hperm,hnodup⟩
    have hlength := hperm.length_eq
    rw [List.length_append,Nat.add_eq_right,List.length_eq_zero_iff] at hlength
    rw [hlength,List.nil_append] at hnodup
    refine ⟨hnodup,fun hrepeat => ?_⟩
    rwa [if_pos hrepeat] at hlength
  · rintro ⟨hnodup,hleft⟩
    have hnil : (if a.repeatsLeft then a.left.effects else []) = [] := by
      split
      · exact hleft ‹_›
      · rfl
    rw [hnil,List.nil_append]
    exact ⟨List.Perm.refl _,hnodup⟩

/-- A host whose answers are all zero, and a function that returns zero. -/
def zeroContext : Context where
  host := ⟨fun _ => Word.zero,fun _ => 0,fun _ _ => 0,fun _ _ => 0,fun _ => 0,fun _ => 0⟩
  layout _ := 0
  callee _ _ := pure (.int 0)

/-- Variable 0 is bound to two cells on the stack. -/
def twoCells : GenState where
  machine := { mem := fun _ => .int 5, heap := 0, stack := 3, storage := fun _ => Word.zero }
  vars x := if x = 0 then some (.ptr (.stack 1)) else none
  trace := []

/-- `a[f()]` -/
def calledElement : Expression :=
  .subscript (.ref .uint32) (.array .uint32 [.fixed 2])
    (.variable (.array .uint32 [.fixed 2]) 0) (.functionCall 1 .uint32 0 [])

/-- `a[f()] = 7` calls the function once, `a[f()] += 1` and `a[f()]++` call it twice. -/
theorem evaluatedOnce_iff_calledElement :
    (∃ e v t, (Assignment.assign 0 calledElement (.numberLiteral .uint32 7)).resolve = some e ∧
      expression zeroContext e twoCells = .ok (v,t) ∧
      EvaluatedOnce (.assign 0 calledElement (.numberLiteral .uint32 7)) twoCells t) ∧
    (∃ e v t, (Assignment.compound 0 .add calledElement (.numberLiteral .uint32 1)).resolve = some e ∧
      expression zeroContext e twoCells = .ok (v,t) ∧
      ¬ EvaluatedOnce (.compound 0 .add calledElement (.numberLiteral .uint32 1)) twoCells t) ∧
    ∃ e v t, (Assignment.increment 0 calledElement).resolve = some e ∧
      expression zeroContext e twoCells = .ok (v,t) ∧
      ¬ EvaluatedOnce (.increment 0 calledElement) twoCells t := by
  refine ⟨⟨_,_,_,rfl,rfl,?_⟩,⟨_,_,_,rfl,rfl,?_⟩,⟨_,_,_,rfl,rfl,?_⟩⟩
  · exact (evaluatedOnce_iff zeroContext _ _ twoCells _ _ rfl rfl).mpr (by decide)
  · exact (evaluatedOnce_iff zeroContext _ _ twoCells _ _ rfl rfl).not.mpr (by decide)
  · exact (evaluatedOnce_iff zeroContext _ _ twoCells _ _ rfl rfl).not.mpr (by decide)

end Assignment
end OlaLang
