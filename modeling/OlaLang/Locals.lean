import OlaLang.Run
import Mathlib.Data.Nat.Notation

/-! Local variables: the table of `statement` and `assign_single`, which tells for each variable
where it is while blocks are emitted, and the code that reads and assigns them. -/
namespace OlaLang.Locals

/-! ### The source -/

/-- What `is_reference_type` and `is_contract_storage` tell of a variable's type, and for a value
type whether its LLVM type is a pointer. -/
inductive Kind
  | scalar (pointer : Bool)
  | reference
  | storageReference
  deriving DecidableEq

namespace Kind

def isReferenceType : Kind → Bool
  | .scalar _ => false
  | _ => true

def isContractStorage : Kind → Bool
  | .storageReference => true
  | _ => false

/-- Is the type that a cell of the variable is loaded with a pointer? A storage reference is
loaded as an integer. -/
def isPointer : Kind → Bool
  | .scalar pointer => pointer
  | .reference => true
  | .storageReference => false

/-- `default` has nothing to offer for a storage reference. -/
def hasDefault (k : Kind) : Bool := !k.isContractStorage

end Kind

/-- Expressions, as far as they read and assign variables: `apply f` stands for every one that
evaluates all its operands, in the order given; `update` is `x++` or `x--`; `pointer` tells whether
the LLVM type of the value is a pointer. -/
inductive Expr
  | variable (x : ℕ)
  | assign (x : ℕ) (right : Expr)
  | update (x : ℕ) (f : ℕ)
  | apply (f : ℕ) (pointer : Bool) (args : List Expr)
  | conditionalOperator (pointer : Bool) (cond left right : Expr)

/-- `DestructureField`; a `place` is any lvalue that is not a local variable. -/
inductive Field
  | none
  | variableDecl (x : ℕ)
  | variable (x : ℕ)
  | place (f : ℕ) (left : Expr)

/-- The right side of a destructuring; a call has a pointer or an integer for each result. -/
inductive Values
  | list (exprs : List Expr)
  | functionCall (f : ℕ) (returns : List Bool) (args : List Expr)
  | conditionalOperator (cond : Expr) (trueOption falseOption : Values)

inductive Stmt
  | block (body : List Stmt)
  | variableDecl (x : ℕ) (init : Option Expr)
  | expression (e : Expr)
  | ifThen (cond : Expr) (body : List Stmt)
  | ifThenElse (cond : Expr) (body other : List Stmt)
  | whileLoop (cond : Expr) (body : List Stmt)
  | doWhile (body : List Stmt) (cond : Expr)
  | forLoop (init : List Stmt) (cond next : Option Expr) (body : List Stmt)
  | destructure (fields : List Field) (values : Values)

structure Function where
  arguments : List ℕ
  returns : List ℕ
  body : List Stmt

/-! ### The emitted code -/

/-- The stack cell of an `alloca`, with the name of its variable. -/
@[ext]
structure Cell where
  name : ℕ
  no : ℕ
  deriving DecidableEq

/-- `BasicValueEnum`: a register that holds an integer or a pointer, or the address of a cell. -/
inductive Operand
  | reg (no : ℕ) (pointer : Bool)
  | cell (c : Cell)
  deriving DecidableEq

def Operand.isPointer : Operand → Bool
  | .reg _ pointer => pointer
  | .cell _ => true

/-- Code with its blocks nested. `load` and `use` are the two ways to read the variable `x`,
`store` and `bind` the two ways to assign it; `use` and `bind` emit nothing, they mark where the
table is consulted and changed. `phi` is the value that one of the blocks before a phi passes on. -/
inductive Code
  | skip
  | seq (a b : Code)
  | call (f dst count : ℕ) (args : List Operand)
  | phi (dst : ℕ) (value : Operand)
  | load (x dst : ℕ) (pointer : Bool) (src : Operand)
  | use (x : ℕ) (o : Operand)
  | store (x : ℕ) (dst value : Operand)
  | bind (x : ℕ) (value : Operand)
  | branch (cond : Operand) (a b : Code)
  | loop (test : Code) (cond : Option Operand) (body : Code)

/-! ### The generator -/

/-- `var_table`, and the number of the next register or cell. -/
structure Builder where
  table : ℕ → Option Operand
  next : ℕ

/-- The generator; `none` is a panic. -/
def Gen (α : Type) := Builder → Option (α × Code × Builder)

namespace Gen

variable {α β : Type}

def pure (a : α) : Gen α := fun b => some (a,.skip,b)

def bind (g : Gen α) (f : α → Gen β) : Gen β := fun b => match g b with
  | none => none
  | some (a,c,b1) => match f a b1 with
    | none => none
    | some (a',c',b2) => some (a',.seq c c',b2)

instance : Monad Gen where
  pure := pure
  bind := bind

def unwrap (o : Option α) : Gen α := fun b => o.map fun a => (a,.skip,b)

def emit (c : Code) : Gen Unit := fun b => some ((),c,b)

/-- The code of `g`, which is put into a block of its own. -/
def block (g : Gen α) : Gen (α × Code) := fun b => match g b with
  | none => none
  | some (a,c,b') => some ((a,c),.skip,b')

/-- The first of `count` new registers or cells. -/
def fresh (count : ℕ) : Gen ℕ := fun b => some (b.next,.skip,⟨b.table,b.next+count⟩)

def get (x : ℕ) : Gen Operand := fun b => (b.table x).map fun o => (o,.skip,b)

def insert (x : ℕ) (o : Operand) : Gen Unit := fun b =>
  some ((),.skip,⟨fun y => if y = x then some o else b.table y,b.next⟩)

end Gen

open Gen (unwrap emit block fresh)

def intoPointerValue (o : Operand) : Gen Operand := unwrap (if o.isPointer then some o else none)

def intoIntValue (o : Operand) : Gen Operand := unwrap (if o.isPointer then none else some o)

/-- The operands of the results of a call. -/
def results (dst : ℕ) : List Bool → List Operand
  | [] => []
  | pointer::rest => .reg dst pointer::results (dst+1) rest

def call (f : ℕ) (returns : List Bool) (args : List Operand) : Gen (List Operand) := do
  let dst ← fresh returns.length
  emit (.call f dst returns.length args)
  pure (results dst returns)

/-- A call with one result. -/
def apply (f : ℕ) (pointer : Bool) (args : List Operand) : Gen Operand := do
  let dst ← fresh 1
  emit (.call f dst 1 args)
  pure (.reg dst pointer)

/-- A load of the variable `x` from the place the table has for it. -/
def loadVariable (x : ℕ) (pointer : Bool) : Gen Operand := do
  let o ← Gen.get x
  let src ← intoPointerValue o
  let dst ← fresh 1
  emit (.load x dst pointer src)
  pure (.reg dst pointer)

/-- A store of the variable `x` to the place the table has for it. -/
def storeVariable (x : ℕ) (value : Operand) : Gen Operand := do
  let o ← Gen.get x
  let dst ← intoPointerValue o
  emit (.store x dst value)
  pure dst

/-- `build_alloca` and a store of the first value; the table gets the address. -/
def allocaVariable (x : ℕ) (value : Operand) : Gen Unit := do
  let no ← fresh 1
  emit (.store x (.cell ⟨x,no⟩) value)
  Gen.insert x (.cell ⟨x,no⟩)

/-- The table gets the value itself. -/
def bindVariable (x : ℕ) (value : Operand) : Gen Unit := do
  emit (.bind x value)
  Gen.insert x value

section Generator

variable (kind : ℕ → Kind)

/-- `Expression::Variable` -/
def readVariable (x : ℕ) : Gen Operand :=
  if (kind x).isReferenceType && !(kind x).isContractStorage then do
    let o ← Gen.get x
    emit (.use x o)
    pure o
  else loadVariable x (kind x).isPointer

/-- What `assign_single` does with the value for a local variable. -/
def assignTable (x : ℕ) (right : Operand) : Gen Unit :=
  if !(kind x).isReferenceType then do
    let _ ← storeVariable x right
    pure ()
  else bindVariable x right

/-- `assign_single`, for a local variable -/
def assignSingle (x : ℕ) (right : Operand) : Gen Operand := do
  assignTable kind x right
  pure right

mutual
def expression : Expr → Gen Operand
  | .variable x => readVariable kind x
  | .assign x right => do
    let value ← expression right
    assignSingle kind x value
  | .update x f => do
    let v ← readVariable kind x
    let v ← intoIntValue v
    let after ← apply f false [v]
    storeVariable x after
  | .apply f pointer args => do
    let operands ← expressions args
    apply f pointer operands
  | .conditionalOperator pointer cond left right => do
    let cond ← expression cond
    let cond ← intoIntValue cond
    let leftBlock ← block (expression left)
    let rightBlock ← block (expression right)
    let dst ← fresh 1
    emit (.branch cond (.seq leftBlock.2 (.phi dst leftBlock.1))
      (.seq rightBlock.2 (.phi dst rightBlock.1)))
    pure (.reg dst pointer)

def expressions : List Expr → Gen (List Operand)
  | [] => pure []
  | e::rest => do
    let o ← expression e
    let os ← expressions rest
    pure (o::os)
end

/-- The operand that a branch tests. -/
def condition (e : Expr) : Gen Operand := do
  let cond ← expression kind e
  intoIntValue cond

/-- `default`, which is one opaque operation -/
def default (x : ℕ) : Gen Operand :=
  if (kind x).hasDefault then apply 0 (kind x).isPointer [] else unwrap none

/-- The first value of a variable that is declared with or without an initializer. -/
def firstValue (x : ℕ) : Option Expr → Gen Operand
  | some e => expression kind e
  | none => default kind x

/-- A declared variable gets its first value. -/
def declare (x : ℕ) (value : Operand) : Gen Unit :=
  if (kind x).isReferenceType && !(kind x).isContractStorage then do
    let o ← intoPointerValue value
    bindVariable x o
  else allocaVariable x value

/-- `Statement::VariableDecl` -/
def variableDecl (x : ℕ) (init : Option Expr) : Gen Unit := do
  let value ← firstValue kind x init
  declare kind x value

def destructureField : Field → Operand → Gen Unit
  | .none, _ => pure ()
  | .variableDecl x, value => allocaVariable x value
  | .variable x, value => bindVariable x value
  | .place f left, value => do
    let dest ← expression kind left
    let _ ← call f [] [dest,value]
    pure ()

/-- The loop over the fields of `destructure` -/
def destructureFields : List Field → List Operand → Gen Unit
  | [], _ => pure ()
  | _::_, [] => unwrap none
  | field::fields, value::values => do
    destructureField kind field value
    destructureFields fields values

/-- `destructure` -/
def destructure (fields : List Field) : Values → Gen Unit
  | .list exprs => do
    let values ← expressions kind exprs
    destructureFields kind fields values
  | .functionCall f returns args => do
    let operands ← expressions kind args
    let values ← call f returns operands
    destructureFields kind fields values
  | .conditionalOperator cond trueOption falseOption => do
    let o ← condition kind cond
    let left ← block (destructure fields trueOption)
    let right ← block (destructure fields falseOption)
    emit (.branch o left.2 right.2)

/-- The expression that a `for` may lack. -/
def optionally : Option Expr → Gen Unit
  | none => pure ()
  | some e => do
    let _ ← expression kind e
    pure ()

def optionalCondition : Option Expr → Gen (Option Operand)
  | none => pure none
  | some e => do
    let o ← condition kind e
    pure (some o)

mutual
/-- `statement` -/
def statement : Stmt → Gen Unit
  | .block body => statements body
  | .variableDecl x init => variableDecl kind x init
  | .expression e => do
    let _ ← expression kind e
    pure ()
  | .ifThen cond body => do
    let o ← condition kind cond
    let thenBlock ← block (statements body)
    emit (.branch o thenBlock.2 .skip)
  | .ifThenElse cond body other => do
    let o ← condition kind cond
    let thenBlock ← block (statements body)
    let elseBlock ← block (statements other)
    emit (.branch o thenBlock.2 elseBlock.2)
  | .whileLoop cond body => do
    let test ← block (condition kind cond)
    let bodyBlock ← block (statements body)
    emit (.loop test.2 (some test.1) bodyBlock.2)
  | .doWhile body cond => do
    let bodyBlock ← block (statements body)
    let test ← block (condition kind cond)
    -- the body stands before every test, and nothing after it
    emit (.loop (.seq bodyBlock.2 test.2) (some test.1) .skip)
  | .forLoop init cond next body => do
    statements init
    let test ← block (optionalCondition kind cond)
    let bodyBlock ← block (statements body)
    let nextBlock ← block (optionally kind next)
    emit (.loop test.2 test.1 (.seq bodyBlock.2 nextBlock.2))
  | .destructure fields values => destructure kind fields values

def statements : List Stmt → Gen Unit
  | [] => pure ()
  | s::rest => do
    statement s
    statements rest
end

/-- An argument is stored in a cell; one of reference type is loaded from it again. -/
def populateArgument (i x : ℕ) : Gen Unit := do
  allocaVariable x (.reg i (kind x).isPointer)
  if (kind x).isReferenceType then do
    let value ← loadVariable x (kind x).isPointer
    bindVariable x value
  else pure ()

/-- `populate_arguments`: argument number `i` is in register `i`. -/
def populateArguments : ℕ → List ℕ → Gen Unit
  | _, [] => pure ()
  | i, x::rest => do
    populateArgument kind i x
    populateArguments (i+1) rest

def populateNamedReturn (x : ℕ) : Gen Unit :=
  if (kind x).hasDefault then do
    let value ← default kind x
    allocaVariable x value
  else pure ()

/-- `populate_named_returns` -/
def populateNamedReturns : List ℕ → Gen Unit
  | [] => pure ()
  | x::rest => do
    populateNamedReturn kind x
    populateNamedReturns rest

/-- The implicit return at the end of a body. Only the first one is reached. -/
def implicitReturn : List ℕ → Gen Unit
  | [] => pure ()
  | x::rest => do
    let _ ← loadVariable x (kind x).isPointer
    let _ ← block (implicitReturn rest)
    pure ()

/-- `gen_function` -/
def genFunction (func : Function) : Gen Unit := do
  let _ ← fresh func.arguments.length
  populateArguments kind 0 func.arguments
  populateNamedReturns kind func.returns
  statements kind func.body
  implicitReturn kind func.returns

/-- The code of a function, or `none` where the generator panics. -/
def generate (func : Function) : Option Code :=
  (genFunction kind func ⟨fun _ => none,0⟩).map fun r => r.2.1

end Generator

end OlaLang.Locals
