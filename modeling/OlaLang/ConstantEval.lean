import OlaLang.Expression
import Mathlib.Data.Int.Bitwise
import Mathlib.Data.Nat.Size

/-! Expressions of an integer type, as the semantic analysis evaluates them at compile time and
as the generator translates them. -/
namespace OlaLang
namespace ConstantEval

/-- Resolved arithmetic expressions; a named constant carries its initializer. -/
inductive Term
  | numberLiteral (ty : Ty) (value : ℕ)
  | variable (ty : Ty) (varNo : ℕ)
  | constantVariable (ty : Ty) (initializer : Term)
  | binary (op : BinaryOp) (ty : Ty) (left right : Term)
  | bitwiseNot (ty : Ty) (expr : Term)

inductive Level
  | error | warning
  deriving DecidableEq

structure Diagnostic where
  level : Level
  message : String
  deriving DecidableEq

namespace Diagnostic

def error (message : String) : Diagnostic := ⟨.error,message⟩
def warning (message : String) : Diagnostic := ⟨.warning,message⟩

end Diagnostic

/-! ### The evaluator of array lengths -/

/-- The shift distances a machine word holds. -/
def toUsize (r : ℤ) : Option ℕ := if 0 ≤ r ∧ r < 2^64 then some r.toNat else none

/-- An operator on unbounded integers; division truncates, and the bits of a negative number are
those of its two's complement. -/
def evalOp : BinaryOp → ℤ → ℤ → Except Diagnostic ℤ
  | .add, l, r => .ok (l+r)
  | .subtract, l, r => .ok (l-r)
  | .multiply, l, r => .ok (l*r)
  | .divide, l, r => if r = 0 then .error (.error "divide by zero") else .ok (l.tdiv r)
  | .modulo, l, r => if r = 0 then .error (.error "divide by zero") else .ok (l.tmod r)
  | .bitwiseAnd, l, r => .ok (l.land r)
  | .bitwiseOr, l, r => .ok (l.lor r)
  | .bitwiseXor, l, r => .ok (l.xor r)
  | .power, l, r =>
    if r < 0 then .error (.error "power cannot take negative number as exponent")
    else .ok (l^r.toNat)
  | .shiftLeft, l, r => match toUsize r with
    | some n => .ok (l*2^n)
    | none => .error (.error s!"cannot left shift by {r}")
  | .shiftRight, l, r => match toUsize r with
    | some n => .ok (l/2^n)
    | none => .error (.error s!"right left shift by {r}")

/-- `eval_const_number`: the divisor of a division comes first. -/
def evalConstNumber : Term → Except Diagnostic ℤ
  | .binary op _ left right =>
    if op = .divide ∨ op = .modulo then do
      let divisor ← evalConstNumber right
      if divisor = 0 then .error (.error "divide by zero")
      else do
        let l ← evalConstNumber left
        evalOp op l divisor
    else do
      let l ← evalConstNumber left
      let r ← evalConstNumber right
      evalOp op l r
  | .numberLiteral _ value => .ok value
  | .bitwiseNot _ expr => do
    let n ← evalConstNumber expr
    pure (Int.not n)
  | .constantVariable _ initializer => evalConstNumber initializer
  | .variable _ _ => .error (.error "expression not allowed in constant number expression")

/-! ### The folding of number literals -/

def bits (n : ℤ) : ℕ := n.natAbs.size

/-- `overflow_check`; a field value that does not fit a machine word stops the compiler. -/
def overflowCheck (result : ℤ) (ty : Ty) : Except Fault (Option Diagnostic) :=
  if result < 0 then .ok (some (.error "negative value not allowed"))
  else match ty with
    | .uint32 =>
      if bits result > 32 then
        .ok (some (.error s!"value {result} does not fit into type u32."))
      else .ok none
    | .field =>
      if result < 2^64 then
        if result > FIELD_ORDER then
          .ok (some (.error
            s!"value {result} exceeded the maximum range that field can represent."))
        else .ok none
      else .error .panic
    | _ => .ok none

/-- What `overflow_check` says of an operand at an unsigned type of `width` bits. -/
def fitsUint (n : ℤ) (width : ℕ) : Bool := decide (0 ≤ n) && decide (bits n ≤ width)

/-- The result of a folding: the literal it gives, the flag that lets the recursion go on, and what
was reported on the way. -/
structure Folding where
  literal : Option ℤ
  proceed : Bool
  reported : List Diagnostic

/-- An operator on two folded literals. -/
def foldOp : BinaryOp → ℤ → ℤ → Folding
  | .add, l, r => ⟨some (l+r),true,[]⟩
  | .subtract, l, r => ⟨some (l-r),true,[]⟩
  | .multiply, l, r => ⟨some (l*r),true,[]⟩
  | .divide, l, r =>
    if r = 0 then ⟨none,false,[.error "divide by zero"]⟩ else ⟨some (l.tdiv r),true,[]⟩
  | .modulo, l, r =>
    if r = 0 then ⟨none,false,[.error "divide by zero"]⟩ else ⟨some (l.tmod r),true,[]⟩
  | .power, l, r =>
    if fitsUint r 16 then ⟨some (l^r.toNat),true,[]⟩
    else ⟨none,false,[.error s!"power by {r} is not possible"]⟩
  | .shiftLeft, l, r =>
    if fitsUint r 64 then
      ⟨some (l*2^r.toNat),true,
        if r ≥ bits l then [.warning s!"left shift by {r} may overflow the final result"] else []⟩
    else ⟨none,false,[.error s!"left shift by {r} is not possible"]⟩
  | .shiftRight, l, r =>
    if fitsUint r 64 then ⟨some (l/2^r.toNat),true,[]⟩
    else ⟨none,false,[.error s!"right shift by {r} is not possible"]⟩
  | .bitwiseAnd, l, r => ⟨some (l.land r),true,[]⟩
  | .bitwiseOr, l, r => ⟨some (l.lor r),true,[]⟩
  | .bitwiseXor, l, r => ⟨some (l.xor r),true,[]⟩

/-- `eval_constants_in_expression`: both operands are folded whatever the other one gives. -/
def evalConstantsInExpression : Term → Folding
  | .binary op _ left right =>
    let l := evalConstantsInExpression left
    let r := evalConstantsInExpression right
    match l.literal, r.literal with
    | some m, some n =>
      let result := foldOp op m n
      { result with reported := l.reported ++ r.reported ++ result.reported }
    | _, _ => ⟨none,true,l.reported ++ r.reported⟩
  | .numberLiteral _ value => ⟨some value,true,[]⟩
  | _ => ⟨none,true,[]⟩

def Term.ty : Term → Ty
  | .numberLiteral ty _ | .variable ty _ | .constantVariable ty _ | .binary _ ty _ _
  | .bitwiseNot ty _ => ty

/-- `check_term_for_constant_overflow`: what it reports, and whether the operands are checked on
their own. -/
def checkTermForConstantOverflow (t : Term) : Except Fault (List Diagnostic × Bool) := match t with
  | .binary _ _ _ _ | .numberLiteral _ _ =>
    let folding := evalConstantsInExpression t
    match folding.literal, folding.proceed with
    | some result, _ => do
      let overflow ← overflowCheck result t.ty
      pure (folding.reported ++ overflow.toList,false)
    | none, false => pure (folding.reported,false)
    | none, true => pure (folding.reported,true)
  | _ => pure ([],true)

/-- The check of a whole expression, from the root down. -/
def recurse : Term → Except Fault (List Diagnostic)
  | .binary op ty left right => do
    let (reported,descend) ← checkTermForConstantOverflow (.binary op ty left right)
    if descend then
      let l ← recurse left
      let r ← recurse right
      pure (reported ++ l ++ r)
    else pure reported
  | .bitwiseNot ty expr => do
    let (reported,_) ← checkTermForConstantOverflow (.bitwiseNot ty expr)
    let e ← recurse expr
    pure (reported ++ e)
  | t => do
    let (reported,_) ← checkTermForConstantOverflow t
    pure reported

/-- The check of an expression ends without an error. -/
def Accepted (t : Term) : Prop :=
  ∃ reported, recurse t = .ok reported ∧ ∀ d ∈ reported, d.level ≠ .error

/-- A folding gives a value and reports no error. -/
def FoldsTo (t : Term) (v : ℤ) : Prop :=
  (evalConstantsInExpression t).literal = some v ∧
  (∀ d ∈ (evalConstantsInExpression t).reported, d.level ≠ .error) ∧
  overflowCheck v t.ty = .ok none

/-! ### The generated code -/

variable (ctx : Context)

/-- The code of an expression. The generator has no case for a named constant. -/
def generate : Term → Gen Value
  | .numberLiteral ty value => expression ctx (.numberLiteral ty value)
  | .variable ty varNo => expression ctx (.variable ty varNo)
  | .constantVariable _ _ => Exec.fail .panic
  | .binary op _ left right => do
    let l ← generate left
    let r ← generate right
    Gen.code (binaryOp ctx.host op l r)
  | .bitwiseNot _ expr => do
    let v ← generate expr
    Gen.code (U32Op.u32BitwiseNot v)

/-- The expression the generator is handed, where it names no constant. -/
def Term.toExpression : Term → Option Expression
  | .numberLiteral ty value => some (.numberLiteral ty value)
  | .variable ty varNo => some (.variable ty varNo)
  | .constantVariable _ _ => none
  | .binary op ty left right => do
    let l ← left.toExpression
    let r ← right.toExpression
    some (.binary op ty l r)
  | .bitwiseNot ty expr => do
    let e ← expr.toExpression
    some (.bitwiseNot ty e)

theorem generate_toExpression {t : Term} {e : Expression} (h : t.toExpression = some e) :
    generate ctx t = expression ctx e := by
  induction t generalizing e with
  | numberLiteral ty value =>
    cases h
    rfl
  | «variable» ty varNo =>
    cases h
    rfl
  | constantVariable ty initializer => cases h
  | binary op ty left right ihl ihr =>
    simp only [Term.toExpression,Option.bind_eq_bind,Option.bind_eq_some_iff,
      Option.some.injEq] at h
    rcases h with ⟨l,hl,r,hr,rfl⟩
    simp only [generate,expression,ihl hl,ihr hr]
  | bitwiseNot ty expr ih =>
    simp only [Term.toExpression,Option.bind_eq_bind,Option.bind_eq_some_iff,
      Option.some.injEq] at h
    rcases h with ⟨e',he,rfl⟩
    simp only [generate,expression,ih he]

variable {ctx} {s t : GenState} {v : Value} {l r e : Term} {op : BinaryOp} {ty : Ty}

theorem generate_binary_eq_ok : generate ctx (.binary op ty l r) s = .ok (v,t) ↔
    ∃ a u b w m, generate ctx l s = .ok (a,u) ∧ generate ctx r u = .ok (b,w) ∧
      binaryOp ctx.host op a b w.machine = .ok (v,m) ∧ t = { w with machine := m } := by
  simp only [generate,Exec.bind_eq_ok,Gen.code_eq_ok]
  constructor
  · rintro ⟨a,u,hl,b,w,hr,m,hop,rfl⟩
    exact ⟨a,u,b,w,m,hl,hr,hop,rfl⟩
  · rintro ⟨a,u,b,w,m,hl,hr,hop,rfl⟩
    exact ⟨a,u,hl,b,w,hr,m,hop,rfl⟩

theorem generate_bitwiseNot_eq_ok : generate ctx (.bitwiseNot ty e) s = .ok (v,t) ↔
    ∃ a u m, generate ctx e s = .ok (a,u) ∧
      U32Op.u32BitwiseNot a u.machine = .ok (v,m) ∧ t = { u with machine := m } := by
  simp only [generate,Exec.bind_eq_ok,Gen.code_eq_ok]
  constructor
  · rintro ⟨a,u,he,m,hop,rfl⟩
    exact ⟨a,u,m,he,hop,rfl⟩
  · rintro ⟨a,u,m,he,hop,rfl⟩
    exact ⟨a,u,he,m,hop,rfl⟩

end ConstantEval
end OlaLang
