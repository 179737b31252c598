import OlaLang.Corelib

/-! The operators on u32 values, on their evaluated operands. -/
namespace OlaLang
namespace U32Op

open Builder Corelib

def u32Max : ℕ := 2^32-1

/-- `number_literal`: the decimal text read as a 64-bit word. -/
def numberLiteral (value : ℕ) : Value := .const (BitVec.ofNat 64 value)

/-- The checked operators: a field operation and a range check on its result. -/
def checked (build : Value → Value → Code Value) (left right : Value) : Code Value := do
  let result ← build left right
  builtinRangeCheck result
  pure result

def u32Add : Value → Value → Code Value := checked buildIntAdd
def u32Sub : Value → Value → Code Value := checked buildIntSub
def u32Mul : Value → Value → Code Value := checked buildIntMul

variable (host : Host)

/-- The call of `u32_div_mod` for the quotient; the remainder goes through a null pointer. -/
def u32Div (left right : Value) : Code Value := do
  let ret ← buildAlloca
  u32DivMod host left.felt right.felt ret .null
  buildLoadInt ret

/-- The call of `u32_div_mod` for the remainder; the quotient goes through a null pointer. -/
def u32Mod (left right : Value) : Code Value := do
  let ret ← buildAlloca
  u32DivMod host left.felt right.felt .null ret
  buildLoadInt ret

def u32BitwiseAnd : Value → Value → Code Value := buildAnd
def u32BitwiseOr : Value → Value → Code Value := buildOr
def u32BitwiseXor : Value → Value → Code Value := buildXor

def u32Power (base exponent : Value) : Code Value := do
  let base ← intoIntValue base
  let exponent ← intoIntValue exponent
  Corelib.u32Power base.felt exponent.felt

def u32ShiftLeft (left right : Value) : Code Value := do
  let left ← intoIntValue left
  let powTwo ← U32Op.u32Power (numberLiteral 2) right
  checked buildIntMul left powTwo

def u32ShiftRight (left right : Value) : Code Value := do
  let left ← intoIntValue left
  let powTwo ← U32Op.u32Power (numberLiteral 2) right
  u32Div host left powTwo

def u32BitwiseNot (value : Value) : Code Value := u32Sub (numberLiteral u32Max) value

inductive IntPredicate
  | EQ | NE | UGT | UGE | ULT | ULE
  deriving DecidableEq

def IntPredicate.holds : IntPredicate → ℕ → ℕ → Bool
  | .EQ, a, b => a = b
  | .NE, a, b => a ≠ b
  | .UGT, a, b => b < a
  | .UGE, a, b => b ≤ a
  | .ULT, a, b => a < b
  | .ULE, a, b => a ≤ b

def ofBool (b : Bool) : Felt := if b then 1 else 0

/-- Constants are compared as words, registers as field elements. -/
def u32Compare (op : IntPredicate) (left right : Value) : Code Value := do
  let left ← intoIntValue left
  let right ← intoIntValue right
  match left, right with
  | .const a, .const b => pure (.const (if op.holds a.toNat b.toNat then 1 else 0))
  | l, r => pure (.int (ofBool (op.holds l.felt.val r.felt.val)))

def logicAnd : Value → Value → Code Value := buildAnd
def logicOr : Value → Value → Code Value := buildOr
def logicNot (value : Value) : Code Value := u32Compare .EQ value (.const 0)

end U32Op
end OlaLang
