import OlaLang.U32Op

/-! Booleans in the emitted code: the widths in which expressions give them, the places that use
them, and where the two fit. -/
namespace OlaLang
namespace BoolWidth

open U32Op (IntPredicate)

/-! ### The source -/

/-- Expressions give a truth value or the number in a cell. -/
inductive Kind
  | bool | number
  deriving DecidableEq

/-- The values of a kind. -/
abbrev Kind.Val : Kind → Type
  | .bool => Bool
  | .number => ℕ

/-- What gives a value without other booleans at work; `wordCompare` is a comparison of addresses,
hashes, contracts or strings, which the generator leaves to a function of the core library. -/
inductive Producer
  | variable | parameter | call | element | storageLoad | wordCompare
  deriving DecidableEq

/-- Operators on numbers, by their opcode. -/
abbrev Opcode := ℕ

inductive Expr : Kind → Type
  | literal (value : Bool) : Expr .bool
  | source {k : Kind} (producer : Producer) (no : ℕ) : Expr k
  | arith (op : Opcode) (left right : Expr .number) : Expr .number
  | compare (op : IntPredicate) (left right : Expr .number) : Expr .bool
  | equal (left right : Expr .bool) : Expr .bool
  | notEqual (left right : Expr .bool) : Expr .bool
  | not (expr : Expr .bool) : Expr .bool
  | and (left right : Expr .bool) : Expr .bool
  | or (left right : Expr .bool) : Expr .bool
  | conditional {k : Kind} (cond : Expr .bool) (left right : Expr k) : Expr k

/-- The values that the sources have, and the meaning of the operators on numbers. -/
structure World where
  value : (k : Kind) → Producer → ℕ → k.Val
  arith : Opcode → ℕ → ℕ → ℕ

/-- The value of an expression in the source language. -/
def Expr.eval (w : World) : {k : Kind} → Expr k → k.Val
  | _, .literal value => value
  | k, .source producer no => w.value k producer no
  | _, .arith op left right => w.arith op (left.eval w) (right.eval w)
  | _, .compare op left right => op.holds (left.eval w) (right.eval w)
  | _, .equal left right => left.eval w == right.eval w
  | _, .notEqual left right => left.eval w != right.eval w
  | _, .not expr => !expr.eval w
  | _, .and left right => left.eval w && right.eval w
  | _, .or left right => left.eval w || right.eval w
  | _, .conditional cond left right => if cond.eval w then left.eval w else right.eval w

/-- The places that use a boolean. -/
inductive Place
  | ifStmt | whileLoop | doWhile | forLoop | conditional | assert | assign | returnSingle | returnMember
  deriving DecidableEq

/-! ### The emitted code -/

inductive Width
  | i1 | i64
  deriving DecidableEq

/-- The instructions of an expression. -/
inductive Ir
  | constInt (value : ℕ)
  | constZero (width : Width)
  | load (k : Kind) (producer : Producer) (no : ℕ)
  | call (k : Kind) (producer : Producer) (no : ℕ)
  | binary (op : Opcode) (left right : Ir)
  | icmp (op : IntPredicate) (left right : Ir)
  | zext (value : Ir)
  | trunc (value : Ir)
  | and (left right : Ir)
  | or (left right : Ir)
  | phi (cond left right : Ir)

namespace Ir

def width : Ir → Width
  | .constZero width => width
  | .icmp _ _ _ | .trunc _ => .i1
  | .and left _ | .or left _ => left.width
  | _ => .i64

/-- The operands of every instruction have its widths; a branch is on one bit, and the phi behind the
conditional operator merges cells. -/
def WellTyped : Ir → Prop
  | .constInt _ | .constZero _ | .load _ _ _ | .call _ _ _ => True
  | .binary _ left right => left.WellTyped ∧ right.WellTyped ∧ left.width = .i64 ∧ right.width = .i64
  | .icmp _ left right | .and left right | .or left right =>
    left.WellTyped ∧ right.WellTyped ∧ left.width = right.width
  | .zext value => value.WellTyped ∧ value.width = .i1
  | .trunc value => value.WellTyped ∧ value.width = .i64
  | .phi cond left right =>
    (cond.WellTyped ∧ left.WellTyped ∧ right.WellTyped) ∧ cond.width = .i1 ∧
      left.width = .i64 ∧ right.width = .i64

end Ir

/-- A value in a register or a cell. -/
def cellOf : {k : Kind} → k.Val → ℕ
  | .bool, b => b.toNat
  | .number, n => n

def Ir.eval (w : World) : Ir → ℕ
  | .constInt value => value
  | .constZero _ => 0
  | .load k producer no | .call k producer no => cellOf (w.value k producer no)
  | .binary op left right => w.arith op (left.eval w) (right.eval w)
  | .icmp op left right => (op.holds (left.eval w) (right.eval w)).toNat
  | .zext value => value.eval w
  | .trunc value => value.eval w % 2
  | .and left right => left.eval w &&& right.eval w
  | .or left right => left.eval w ||| right.eval w
  | .phi cond left right => if cond.eval w = 1 then left.eval w else right.eval w

/-- The instruction that uses a value. -/
inductive Use
  | branch (cond : Ir)
  | assert (arg : Ir)
  | store (value : Ir)
  | ret (value : Ir)

/-- A branch is on one bit; the argument of `builtin_assert` and the value of a function of the type
`bool` are cells, and a cell takes a value of any width. -/
def Use.WellTyped : Use → Prop
  | .branch cond => cond.WellTyped ∧ cond.width = .i1
  | .assert arg => arg.WellTyped ∧ arg.width = .i64
  | .store value => value.WellTyped
  | .ret value => value.WellTyped ∧ value.width = .i64

/-- The bit the branch follows, the cell asserted, stored or returned. -/
def Use.value (w : World) : Use → ℕ
  | .branch v | .assert v | .store v | .ret v => v.eval w

/-! ### The generator -/

/-- `build_int_z_extend` to a cell, and `build_int_truncate` to a bit; neither emits anything at the
width it comes to. -/
def zExtend (value : Ir) : Ir := if value.width = .i64 then value else .zext value

def truncate (value : Ir) : Ir := if value.width = .i1 then value else .trunc value

/-- `expression`. -/
def expression : {k : Kind} → Expr k → Ir
  | _, .literal value => .constInt value.toNat
  | k, .source producer no => match producer with
    | .call | .wordCompare => .call k producer no
    | _ => .load k producer no
  | _, .arith op left right => .binary op (expression left) (expression right)
  | _, .compare op left right => .icmp op (expression left) (expression right)
  | _, .equal left right => .icmp .EQ (expression left) (expression right)
  | _, .notEqual left right => .icmp .NE (expression left) (expression right)
  | _, .not expr => .icmp .EQ (expression expr) (.constZero (expression expr).width)
  | _, .and left right => .and (zExtend (expression left)) (zExtend (expression right))
  | _, .or left right => .or (zExtend (expression left)) (zExtend (expression right))
  | _, .conditional cond left right => .phi (expression cond) (expression left) (expression right)

/-- The expression is a conditional operator. -/
def Expr.isConditional : {k : Kind} → Expr k → Bool
  | _, .conditional _ _ _ => true
  | _, _ => false

/-- What the generator makes of a boolean at a place; at two it panics. A conditional operator that is
itself the expression of a `return` has the type `Unreachable` (`return_with_values`), and there is no
type for its phi. One of several returned values is stored through a parameter (`into_pointer_value`),
which for a boolean is a cell and no pointer. -/
def use (place : Place) (expr : Expr .bool) : Option Use :=
  match place with
  | .ifStmt | .whileLoop | .doWhile => some (.branch (truncate (expression expr)))
  | .forLoop | .conditional => some (.branch (expression expr))
  | .assert => some (.assert (zExtend (expression expr)))
  | .assign => some (.store (expression expr))
  | .returnSingle => if expr.isConditional then none else some (.ret (expression expr))
  | .returnMember => none

/-! ### Widths that fit -/

/-- The boolean is given in one bit: comparisons of numbers or booleans, and negations. -/
def Expr.isBit : {k : Kind} → Expr k → Bool
  | _, .compare _ _ _ | _, .equal _ _ | _, .notEqual _ _ | _, .not _ => true
  | _, _ => false

/-- Booleans are compared at one width, and a conditional operator has a bit for its condition and
no bit for an option. -/
def Expr.Fits : {k : Kind} → Expr k → Prop
  | _, .literal _ | _, .source _ _ => True
  | _, .arith _ left right | _, .compare _ left right => left.Fits ∧ right.Fits
  | _, .equal left right | _, .notEqual left right =>
    left.Fits ∧ right.Fits ∧ left.isBit = right.isBit
  | _, .not expr => expr.Fits
  | _, .and left right | _, .or left right => left.Fits ∧ right.Fits
  | _, .conditional cond left right =>
    (cond.Fits ∧ left.Fits ∧ right.Fits) ∧ cond.isBit = true ∧ left.isBit = false ∧
      right.isBit = false

/-- The place takes the width of the expression, a `return` no conditional operator, and a return of
several values no boolean. -/
def Place.Takes (place : Place) (expr : Expr .bool) : Prop :=
  match place with
  | .forLoop | .conditional => expr.isBit = true
  | .returnSingle => expr.isBit = false ∧ expr.isConditional = false
  | .returnMember => False
  | _ => True

section

variable {k : Kind} {w : World}

theorem width_expression (e : Expr k) :
    (expression e).width = if e.isBit then .i1 else .i64 := by
  cases e with
  | source producer no => cases producer <;> rfl
  | and left right =>
    simp [expression,Ir.width,zExtend,Expr.isBit]
    split <;> simp_all [Ir.width]
  | or left right =>
    simp [expression,Ir.width,zExtend,Expr.isBit]
    split <;> simp_all [Ir.width]
  | _ => rfl

theorem width_i1 (e : Expr k) : (expression e).width = .i1 ↔ e.isBit = true := by
  simp [width_expression]

theorem width_i64 (e : Expr k) : (expression e).width = .i64 ↔ e.isBit = false := by
  simp [width_expression]

/-- Numbers are cells. -/
@[simp] theorem isBit_number (e : Expr .number) : e.isBit = false := by
  cases e <;> rfl

@[simp] theorem zExtend_wellTyped (v : Ir) : (zExtend v).WellTyped ↔ v.WellTyped := by
  rw [zExtend]
  cases h : v.width <;> simp [Ir.WellTyped,h]

@[simp] theorem zExtend_width (v : Ir) : (zExtend v).width = .i64 := by
  rw [zExtend]
  cases h : v.width <;> simp [Ir.width,h]

@[simp] theorem zExtend_eval (v : Ir) : (zExtend v).eval w = v.eval w := by
  rw [zExtend]
  split <;> rfl

@[simp] theorem truncate_wellTyped (v : Ir) : (truncate v).WellTyped ↔ v.WellTyped := by
  rw [truncate]
  cases h : v.width <;> simp [Ir.WellTyped,h]

@[simp] theorem truncate_width (v : Ir) : (truncate v).width = .i1 := by
  rw [truncate]
  cases h : v.width <;> simp [Ir.width,h]

/-- The widths of the emitted instructions are right where those of the booleans fit. -/
theorem expression_wellTyped (e : Expr k) : (expression e).WellTyped ↔ e.Fits := by
  induction e with
  | literal value => simp [expression,Ir.WellTyped,Expr.Fits]
  | source producer no => cases producer <;> simp [expression,Ir.WellTyped,Expr.Fits]
  | arith op left right ihl ihr => simp [expression,Ir.WellTyped,Expr.Fits,ihl,ihr,width_i64]
  | compare op left right ihl ihr =>
    simp [expression,Ir.WellTyped,Expr.Fits,ihl,ihr,width_expression]
  | equal left right ihl ihr =>
    simp [expression,Ir.WellTyped,Expr.Fits,ihl,ihr,width_expression]
    cases left.isBit <;> cases right.isBit <;> simp
  | notEqual left right ihl ihr =>
    simp [expression,Ir.WellTyped,Expr.Fits,ihl,ihr,width_expression]
    cases left.isBit <;> cases right.isBit <;> simp
  | not expr ih => simp [expression,Ir.WellTyped,Expr.Fits,ih,Ir.width]
  | and left right ihl ihr => simp [expression,Ir.WellTyped,Expr.Fits,ihl,ihr]
  | or left right ihl ihr => simp [expression,Ir.WellTyped,Expr.Fits,ihl,ihr]
  | conditional cond left right ihc ihl ihr =>
    simp [expression,Ir.WellTyped,Expr.Fits,ihc,ihl,ihr,width_i1,width_i64]

/-- The emitted instructions compute the value of the source. -/
theorem expression_eval (e : Expr k) : (expression e).eval w = cellOf (e.eval w) := by
  induction e with
  | literal value => rfl
  | source producer no => cases producer <;> rfl
  | arith op left right ihl ihr => simp [expression,Ir.eval,Expr.eval,ihl,ihr,cellOf]
  | compare op left right ihl ihr => simp [expression,Ir.eval,Expr.eval,ihl,ihr,cellOf]
  | equal left right ihl ihr =>
    simp only [expression,Ir.eval,Expr.eval,ihl,ihr,cellOf]
    cases left.eval w <;> cases right.eval w <;> rfl
  | notEqual left right ihl ihr =>
    simp only [expression,Ir.eval,Expr.eval,ihl,ihr,cellOf]
    cases left.eval w <;> cases right.eval w <;> rfl
  | not expr ih =>
    simp only [expression,Ir.eval,Expr.eval,ih,cellOf]
    cases expr.eval w <;> rfl
  | and left right ihl ihr =>
    simp only [expression,Ir.eval,Expr.eval,zExtend_eval,ihl,ihr,cellOf]
    cases left.eval w <;> cases right.eval w <;> rfl
  | or left right ihl ihr =>
    simp only [expression,Ir.eval,Expr.eval,zExtend_eval,ihl,ihr,cellOf]
    cases left.eval w <;> cases right.eval w <;> rfl
  | conditional cond left right ihc ihl ihr =>
    simp only [expression,Ir.eval,Expr.eval,ihc,ihl,ihr,cellOf]
    cases cond.eval w <;> rfl

theorem truncate_eval (e : Expr .bool) :
    (truncate (expression e)).eval w = cellOf (e.eval w) := by
  rw [truncate]
  split
  · exact expression_eval e
  · rw [Ir.eval,expression_eval]
    cases e.eval w <;> rfl

theorem use_value {place : Place} {e : Expr .bool} {u : Use} (h : use place e = some u) :
    u.value w = (e.eval w).toNat := by
  cases place with
  | ifStmt | whileLoop | doWhile =>
    cases h
    exact truncate_eval e
  | assert =>
    cases h
    exact (zExtend_eval _).trans (expression_eval e)
  | returnSingle =>
    obtain ⟨-,hu⟩ := (Option.ite_none_left_eq_some).mp h
    cases hu
    exact expression_eval e
  | forLoop | conditional | assign =>
    cases h
    exact expression_eval e
  | returnMember => cases h

/-- There is code at the place, it is well typed, and it follows the truth value of the source. -/
def Represented (place : Place) (e : Expr .bool) : Prop :=
  ∃ u, use place e = some u ∧ u.WellTyped ∧ ∀ w, u.value w = (e.eval w).toNat

end

end BoolWidth
end OlaLang
