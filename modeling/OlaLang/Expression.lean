import OlaLang.Storage
import OlaLang.U32Op

/-! The expression generator. Its run threads the machine, the table of local variables and the
list of calls, pushes, pops and updates executed so far. -/
namespace OlaLang

open Builder

inductive BinaryOp
  | add | subtract | multiply | divide | modulo | power
  | bitwiseOr | bitwiseAnd | bitwiseXor | shiftLeft | shiftRight
  deriving DecidableEq

/-- Resolved expressions. The nodes whose execution is an effect carry their place in the source. -/
inductive Expression
  | numberLiteral (ty : Ty) (value : ℕ)
  | boolLiteral (value : Bool)
  | variable (ty : Ty) (varNo : ℕ)
  | storageVariable (ty : Ty) (varNo : ℕ)
  | load (ty : Ty) (expr : Expression)
  | storageLoad (ty : Ty) (expr : Expression)
  | binary (op : BinaryOp) (ty : Ty) (left right : Expression)
  | bitwiseNot (ty : Ty) (expr : Expression)
  | compare (op : U32Op.IntPredicate) (left right : Expression)
  | and (left right : Expression)
  | or (left right : Expression)
  | not (expr : Expression)
  | increment (loc : ℕ) (ty : Ty) (expr : Expression)
  | decrement (loc : ℕ) (ty : Ty) (expr : Expression)
  | assign (loc : ℕ) (ty : Ty) (left right : Expression)
  | subscript (ty arrayTy : Ty) (array index : Expression)
  | structMember (ty : Ty) (expr : Expression) (field : ℕ)
  | storageArrayLength (array : Expression)
  | arrayLength (array : Expression)
  | functionCall (loc : ℕ) (ty : Ty) (functionNo : ℕ) (args : List Expression)
  | arrayPush (loc : ℕ) (array : Expression) (value : List Expression)
  | arrayPop (loc : ℕ) (array : Expression)

namespace Expression

def ty : Expression → Ty
  | .numberLiteral ty _ | .variable ty _ | .storageVariable ty _ | .load ty _ | .storageLoad ty _
  | .binary _ ty _ _ | .bitwiseNot ty _ | .increment _ ty _ | .decrement _ ty _ | .assign _ ty _ _
  | .subscript ty _ _ _ | .structMember ty _ _ | .functionCall _ ty _ _ => ty
  | .boolLiteral _ | .compare _ _ _ | .and _ _ | .or _ _ | .not _ => .bool
  | .storageArrayLength _ | .arrayLength _ => .uint32
  | .arrayPush _ array _ => array.ty.storageArrayElem
  | .arrayPop _ array => array.ty.storageArrayElem.derefAny

end Expression

/-- What a run leaves in its trace. -/
inductive Event
  | call (loc : ℕ) | push (loc : ℕ) | pop (loc : ℕ) | update (loc : ℕ)
  deriving DecidableEq

structure GenState where
  machine : State
  vars : ℕ → Option Value
  trace : List Event

abbrev Gen (α : Type) := Exec GenState Fault α

/-- What the generated code of one function refers to outside it: the virtual machine, the slots
of the contract variables and the other functions. -/
structure Context where
  host : Host
  layout : ℕ → ℕ
  callee : ℕ → List Value → Code Value

namespace Gen

def code {α : Type} (m : Code α) : Gen α := fun s =>
  match m s.machine with
  | .ok (a,t) => .ok (a,{ s with machine := t })
  | .error e => .error e

def record (e : Event) : Gen Unit := Exec.modify fun s => { s with trace := s.trace ++ [e] }

def getVar (varNo : ℕ) : Gen Value := fun s =>
  match s.vars varNo with
  | some v => .ok (v,s)
  | none => .error .panic

def insertVar (varNo : ℕ) (v : Value) : Gen Unit :=
  Exec.modify fun s => { s with vars := Function.update s.vars varNo (some v) }

theorem code_apply {α : Type} (m : Code α) (s : GenState) : code m s = match m s.machine with
    | .ok (a,t) => .ok (a,{ s with machine := t })
    | .error e => .error e := rfl

theorem code_eq_ok {α : Type} {m : Code α} {s t : GenState} {a : α} : code m s = .ok (a,t) ↔
    ∃ u, m s.machine = .ok (a,u) ∧ t = { s with machine := u } := by
  rw [code_apply]
  cases m s.machine with
  | error e => simp
  | ok r =>
    rcases r with ⟨b,u⟩
    constructor
    · intro h
      cases h
      exact ⟨u,rfl,rfl⟩
    · rintro ⟨u',hu,rfl⟩
      cases hu
      rfl

@[simp] theorem record_apply (e : Event) (s : GenState) :
    record e s = .ok ((),{ s with trace := s.trace ++ [e] }) := rfl

theorem getVar_eq_ok {x : ℕ} {v : Value} {s t : GenState} :
    getVar x s = .ok (v,t) ↔ s.vars x = some v ∧ t = s := by
  unfold getVar
  cases h : s.vars x with
  | none => simp
  | some w => simp [eq_comm]

@[simp] theorem insertVar_apply (x : ℕ) (v : Value) (s : GenState) :
    insertVar x v s = .ok ((),{ s with vars := Function.update s.vars x (some v) }) := rfl

end Gen

namespace Ty

/-- Whether `llvm_var_ty` is a pointer type. -/
def llvmVarIsPtr : Ty → Bool
  | .bool | .uint32 | .field | .enum | .mapping _ _ | .storageRef _ => false
  | _ => true

end Ty

/-- A load at the LLVM type of a variable of the given type. -/
def buildLoad (ty : Ty) (p : Pointer) : Code Value :=
  if ty.llvmVarIsPtr then buildLoadPtr p else buildLoadInt p

/-- `range_check`: constants are not checked. -/
def rangeCheck (v : Value) : Code Unit := if v.isConst then pure () else builtinRangeCheck v

def mappingSubscript (host : Host) (array index : Value) (indexTy : Ty) : Code Value := do
  let slotValue ← Storage.slotPointer array
  match indexTy with
  | .uint32 | .field | .bool | .hash | .address => do
    let indexValue ← Storage.slotPointer index
    let hash ← Storage.poseidonHash host [(slotValue,4),(indexValue,4)]
    pure (.ptr hash)
  | .dynamicBytes | .string => do
    let len ← buildLoadInt index.pointer
    let hash ← Storage.poseidonHash host
      [(slotValue,4),(Storage.vectorData index.pointer,len.felt)]
    pure (.ptr hash)
  | _ => Exec.fail .panic

/-- The length an index is compared with. The read of a dynamic storage length goes through
`storage_load`, which moves a pointer slot. -/
def subscriptLength (host : Host) (arrayTy : Ty) (array : Value) : Code Value :=
  match arrayTy.arrayLength with
  | some l => pure (.const (BitVec.ofNat 64 l))
  | none => if arrayTy.isContractStorage then do
      let (length,_) ← Storage.storageLoad host .uint32 array
      pure length
    else buildLoadInt array.pointer

def arraySubscript (host : Host) (arrayTy : Ty) (array index : Value) (indexTy : Ty) :
    Code Value := do
  if arrayTy.isMapping then mappingSubscript host array index indexTy
  else
    let arrayLength ← subscriptLength host arrayTy array
    let lengthSubOne ← buildIntSub arrayLength (.const 1)
    let lengthSubOneSubIndex ← buildIntSub lengthSubOne index
    rangeCheck lengthSubOneSubIndex
    if arrayTy.isContractStorage then
      let elemTy := arrayTy.derefAny.storageArrayElem
      if arrayTy.arrayLength.isSome then do
        let offset ← buildIntMul index (.const (BitVec.ofNat 64 elemTy.storageSlots))
        buildIntAdd offset array
      else Storage.arrayOffset host array index.felt elemTy
    else if arrayTy.isDynamicMemory then
      pure (.ptr ((Storage.vectorData array.pointer).add index.felt.val))
    else match arrayTy.derefMemory with
      | .array elem dims =>
        pure (.ptr (array.pointer.add (index.felt.val * Ty.llvmStride elem dims.dropLast)))
      | _ => Exec.fail .panic

def binaryOp (host : Host) : BinaryOp → Value → Value → Code Value
  | .add => U32Op.u32Add
  | .subtract => U32Op.u32Sub
  | .multiply => U32Op.u32Mul
  | .divide => U32Op.u32Div host
  | .modulo => U32Op.u32Mod host
  | .power => U32Op.u32Power
  | .bitwiseOr => U32Op.u32BitwiseOr
  | .bitwiseAnd => U32Op.u32BitwiseAnd
  | .bitwiseXor => U32Op.u32BitwiseXor
  | .shiftLeft => U32Op.u32ShiftLeft
  | .shiftRight => U32Op.u32ShiftRight host

/-- The address of member `field` of a struct in memory, or its slot in storage. -/
def structMemberOf (exprTy : Ty) (value : Value) (field : ℕ) : Code Value := match exprTy with
  | .storageRef (.struct fields) =>
    Storage.slotOffest value (Ty.storageSlotsFields (fields.take field) : ℕ)
  | .struct fields | .ref (.struct fields) => do
    let p ← intoPointerValue value
    pure (.ptr (p.add (Ty.structOffset fields field)))
  | _ => Exec.fail .panic

/-- The store at the end of an assignment or an update, through an evaluated location. The value
handed back is the location. -/
def storeThrough (ctx : Context) (leftTy : Ty) (dest value : Value) : Code Value := match leftTy with
  | .storageRef ty => Storage.storageStore ctx.host ty dest value
  | .ref _ => do
    let p ← intoPointerValue dest
    buildStore p value
    pure dest
  | _ => Exec.fail .panic

/-- The operand that is assigned to a location: a struct or a fixed array that is assigned in memory
is read through its address once more. -/
def rightOperand (leftTy rightTy : Ty) (value : Value) : Code Value :=
  if !leftTy.isContractStorage && rightTy.isFixedReferenceType then do
    let p ← intoPointerValue value
    buildLoad rightTy p
  else pure value

/-- A variable of reference type is bound to its new value, any other one is stored to its cell. -/
def assignVariable (ty : Ty) (varNo : ℕ) (value : Value) : Gen Unit :=
  if ty.isReferenceType then Gen.insertVar varNo value
  else do
    let leftVar ← Gen.getVar varNo
    Gen.code do
      let p ← intoPointerValue leftVar
      buildStore p value

/-- The value an evaluated lvalue holds: the first step of an increment or a decrement. -/
def loadLvalue (ctx : Context) (exprTy : Ty) (value : Value) : Code Value := match exprTy with
  | .ref ty => do
    let p ← intoPointerValue value
    buildLoad ty p
  | .storageRef ty => do
    let (v,_) ← Storage.storageLoad ctx.host ty value
    pure v
  | _ => pure value

variable (ctx : Context)

/-- An increment or a decrement of `expr`, which `evaluate` evaluates: for the value, and once more
for the store unless it is a variable. The location is handed back. -/
def updateBy (build : Value → Value → Code Value) (loc : ℕ) (expr : Expression)
    (evaluate : Gen Value) : Gen Value := do
  let e ← evaluate
  let v ← Gen.code (loadLvalue ctx expr.ty e)
  let after ← Gen.code (build v (.const 1))
  match expr with
  | .variable _ varNo => do
    let beforePtr ← Gen.getVar varNo
    Gen.code do
      let p ← intoPointerValue beforePtr
      buildStore p after
    Gen.record (.update loc)
    pure beforePtr
  | _ => do
    let dest ← evaluate
    let dest ← Gen.code (storeThrough ctx expr.ty dest after)
    Gen.record (.update loc)
    pure dest

mutual
def expression : Expression → Gen Value
  | .numberLiteral _ value => pure (U32Op.numberLiteral value)
  | .boolLiteral value => pure (.const (if value then 1 else 0))
  | .variable ty varNo => do
    let ptr ← Gen.getVar varNo
    if ty.isReferenceType && !ty.isContractStorage then pure ptr
    else Gen.code do
      let p ← intoPointerValue ptr
      buildLoad ty p
  | .storageVariable _ varNo => pure (.const (BitVec.ofNat 64 (ctx.layout varNo)))
  | .load ty expr => do
    let ptr ← expression expr
    Gen.code do
      let p ← intoPointerValue ptr
      buildLoad ty p
  | .storageLoad ty expr => do
    let slot ← expression expr
    Gen.code do
      let (v,_) ← Storage.storageLoad ctx.host ty slot
      pure v
  | .binary op _ left right => do
    let left ← expression left
    let right ← expression right
    Gen.code (binaryOp ctx.host op left right)
  | .bitwiseNot _ expr => do
    let v ← expression expr
    Gen.code (U32Op.u32BitwiseNot v)
  | .compare op left right => do
    let left ← expression left
    let right ← expression right
    Gen.code (U32Op.u32Compare op left right)
  | .and left right => do
    let left ← expression left
    let right ← expression right
    Gen.code (U32Op.logicAnd left right)
  | .or left right => do
    let left ← expression left
    let right ← expression right
    Gen.code (U32Op.logicOr left right)
  | .not expr => do
    let v ← expression expr
    Gen.code (U32Op.logicNot v)
  | .increment loc _ expr => updateBy ctx buildIntAdd loc expr (expression expr)
  | .decrement loc _ expr => updateBy ctx buildIntSub loc expr (expression expr)
  | .assign loc _ left right => match left with
    | .variable ty varNo => do
      let rightValue ← expression right
      assignVariable ty varNo rightValue
      Gen.record (.update loc)
      pure rightValue
    | _ => do
      let dest ← expression left
      let exprRight ← expression right
      let exprRight ← Gen.code (rightOperand left.ty right.ty exprRight)
      let dest ← Gen.code (storeThrough ctx left.ty dest exprRight)
      Gen.record (.update loc)
      pure dest
  | .subscript _ arrayTy array index => do
    let arrayValue ← expression array
    let indexValue ← expression index
    Gen.code (arraySubscript ctx.host arrayTy arrayValue indexValue index.ty)
  | .structMember _ expr field => do
    let v ← expression expr
    Gen.code (structMemberOf expr.ty v field)
  | .storageArrayLength array => do
    let slot ← expression array
    match array.ty.derefAny.arrayLength with
    | some l => pure (.const (BitVec.ofNat 64 l))
    | none => Gen.code do
      let (v,_) ← Storage.storageLoad ctx.host .uint32 slot
      pure v
  | .arrayLength array => do
    let v ← expression array
    Gen.code (buildLoadInt v.pointer)
  | .functionCall loc _ functionNo args => do
    let params ← expressions args
    Gen.record (.call loc)
    Gen.code (ctx.callee functionNo params)
  | .arrayPush loc array value => do
    let arraySlot ← expression array
    let (arrayLength,pushPos) ← Gen.code (Storage.pushPosition ctx.host array.ty arraySlot)
    let values ← expressions value
    Gen.code (Storage.pushStore ctx.host array.ty arraySlot arrayLength pushPos values)
    Gen.record (.push loc)
    pure pushPos
  | .arrayPop loc array => do
    let arraySlot ← expression array
    let ret ← Gen.code (Storage.storageArrayPop ctx.host array.ty arraySlot)
    Gen.record (.pop loc)
    pure ret

def expressions : List Expression → Gen (List Value)
  | [] => pure []
  | e::rest => do
    let v ← expression e
    let vs ← expressions rest
    pure (v::vs)
end

end OlaLang
