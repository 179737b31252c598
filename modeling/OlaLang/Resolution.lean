import OlaLang.Types
import OlaLang.Machine

/-! The resolution of the contracts of a file: declarations, initializers and bodies, in the order
in which the semantic analysis runs over them, and the tables of functions they fill. -/
namespace OlaLang
namespace Resolution

/-! ### Signatures -/

/-- The types of parameters. An enumeration and a user type carry the type they stand for. -/
inductive ParamType
  | bool | hash | field | contract | address | string | dynamicBytes | mapping
  | uint (bits : ℕ)
  | enum (ty : ParamType)
  | userType (ty : ParamType)
  | array (elem : ParamType) (dims : List ArrayLength)
  | struct (fields : List ParamType)

def dimString : ArrayLength → String
  | .fixed n => s!"[{n}]"
  | .dynamic => "[]"

namespace ParamType

mutual
/-- `to_signature_string`; the types it does not expect stop the compiler. -/
def toSignatureString : ParamType → Option String
  | .bool => some "bool"
  | .hash => some "hash"
  | .field => some "field"
  | .contract | .address => some "address"
  | .uint n => some s!"u{n}"
  | .string => some "string"
  | .dynamicBytes => some "fields"
  | .enum ty | .userType ty => ty.toSignatureString
  | .array elem dims => do
    let s ← elem.toSignatureString
    some (s ++ String.join (dims.map dimString))
  | .struct fields => do
    let ss ← toSignatureStrings fields
    some ("(" ++ String.intercalate "," ss ++ ")")
  | .mapping => none

def toSignatureStrings : List ParamType → Option (List String)
  | [] => some []
  | ty::rest => do
    let s ← ty.toSignatureString
    let ss ← toSignatureStrings rest
    some (s::ss)
end

end ParamType

/-- `Namespace::signature` -/
def signature (name : String) (params : List ParamType) : Option String := do
  let ss ← ParamType.toSignatureStrings params
  some (name ++ "(" ++ String.intercalate "," ss ++ ")")

/-! ### Sources and namespaces -/

inductive ContractTy
  | contract | interface | library
  deriving DecidableEq

/-- A function of the parse tree: a parameter that does not resolve comes with what is reported. -/
structure FunctionDefinition where
  name : Option String
  params : List (Except String ParamType)
  returns : List (Except String ParamType)
  hasBody : Bool

/-- A resolved function; its body is represented by the numbers of the functions it calls. -/
structure Function where
  name : String
  contractNo : ℕ
  signature : String
  hasBody : Bool
  calls : List ℕ

/-- A contract: `functions` are those declared in it, `allFunctions` those it can call and
dispatch to, `initializers` the functions called in the initializers of its variables. -/
structure Contract where
  name : String
  ty : ContractTy
  functions : List ℕ
  allFunctions : List ℕ
  initializers : List ℕ

structure Namespace where
  functions : List Function
  contracts : ℕ → Contract
  size : ℕ
  functionSymbols : ℕ → String → Bool
  variableSymbols : ℕ → String → Option String
  errors : List String

/-- What the other phases contribute: the builtin names, what the declarations of variables, the
initializers and the bodies report, and the functions that initializers and bodies call. -/
structure Phases where
  isReserved : String → Bool
  variableErrors : ℕ → List String
  initializerErrors : ℕ → List String
  initializerCalls : ℕ → List ℕ
  bodyErrors : ℕ → List String
  bodyCalls : ℕ → List ℕ

abbrev Sema (α : Type) := Exec Namespace Fault α

namespace Namespace

def setContract (ns : Namespace) (contractNo : ℕ) (c : Contract) : Namespace :=
  { ns with contracts := Function.update ns.contracts contractNo c }

/-- The new function is entered in the table of all functions and in that of its contract. -/
def pushFunction (ns : Namespace) (contractNo : ℕ) (fdecl : Function) : Namespace where
  functions := ns.functions ++ [fdecl]
  contracts := Function.update ns.contracts contractNo
    { ns.contracts contractNo with
      functions := (ns.contracts contractNo).functions ++ [ns.functions.length] }
  size := ns.size
  functionSymbols := ns.functionSymbols
  variableSymbols := ns.variableSymbols
  errors := ns.errors

def enterSymbol (ns : Namespace) (contractNo : ℕ) (name : String) : Namespace :=
  { ns with
    functionSymbols := fun c a =>
      if c = contractNo ∧ a = name then true else ns.functionSymbols c a }

def setInitializers (ns : Namespace) (contractNo : ℕ) (calls : List ℕ) : Namespace :=
  ns.setContract contractNo { ns.contracts contractNo with initializers := calls }

def setCalls (ns : Namespace) (f : ℕ) (calls : List ℕ) : Namespace :=
  { ns with functions := ns.functions.modify f fun func => { func with calls := calls } }

end Namespace

def report (messages : List String) : Sema Unit :=
  Exec.modify fun ns => { ns with errors := ns.errors ++ messages }

/-! ### Declarations -/

def resolved (parameters : List (Except String ParamType)) : List ParamType :=
  parameters.filterMap fun p => match p with
    | .ok ty => some ty
    | .error _ => none

def unresolved (parameters : List (Except String ParamType)) : List String :=
  parameters.filterMap fun p => match p with
    | .ok _ => none
    | .error message => some message

def misplacedBody : ContractTy → Bool → List String
  | .interface, true => ["function in an interface cannot have a body"]
  | .library, false => ["function in a library must have a body"]
  | _, _ => []

variable (ph : Phases)

/-- `add_symbol` for a function: a builtin, or a type or variable of the contract, may have taken
the name. -/
def addSymbol (contractNo : ℕ) (name : String) : Sema Unit := do
  let ns ← Exec.get
  if ph.isReserved name then report [s!"'{name}' shadows name of a builtin"]
  else match ns.variableSymbols contractNo name with
    | some kind => report [s!"{name} is already defined as {kind}"]
    | none => Exec.modify fun ns => ns.enterSymbol contractNo name

/-- The new function joins the functions of its name, or is the first one. -/
def enterFunction (contractNo : ℕ) (fdecl : Function) : Sema Unit := do
  let ns ← Exec.get
  Exec.modify fun ns => ns.pushFunction contractNo fdecl
  if ns.functionSymbols contractNo fdecl.name then pure ()
  else addSymbol ph contractNo fdecl.name

/-- The end of `contract_function`: the check for a function with the same signature among those
the contract can call, and the new entry. -/
def declareChecked (ns : Namespace) (contractNo : ℕ) (func : FunctionDefinition) (name : String) :
    Sema (Option ℕ) :=
  match signature name (resolved func.params) with
  | none => Exec.fail .panic
  | some sig =>
    if (ns.contracts contractNo).allFunctions.any fun f =>
        (ns.functions[f]?).any (·.signature = sig) then do
      report ["overloaded fn with this signature already exist"]
      pure none
    else do
      enterFunction ph contractNo ⟨name,contractNo,sig,func.hasBody,[]⟩
      pure (some ns.functions.length)

/-- `contract_function` -/
def contractFunction (contractNo : ℕ) (func : FunctionDefinition) : Sema (Option ℕ) := do
  let ns ← Exec.get
  let contract := ns.contracts contractNo
  match func.name with
  | none => do
    report ["function must have a name"]
    pure none
  | some name =>
    if name = contract.name then do
      report ["function cannot have same name as the contract"]
      pure none
    else do
      let failures := unresolved func.params ++ unresolved func.returns ++
        misplacedBody contract.ty func.hasBody
      report failures
      if failures ≠ [] then pure none else declareChecked ph ns contractNo func name

/-- The functions with a body and those without one, by number. -/
def declareFunctions (contractNo : ℕ) : List FunctionDefinition → Sema (List ℕ × List ℕ)
  | [] => pure ([],[])
  | func::rest => do
    let declared ← contractFunction ph contractNo func
    let (bodies,noBodies) ← declareFunctions contractNo rest
    match declared with
    | none => pure (bodies,noBodies)
    | some f => if func.hasBody then pure (f::bodies,noBodies) else pure (bodies,f::noBodies)

/-- Contracts implement all their functions. -/
def checkImplemented (contractNo : ℕ) (noBodies : List ℕ) : Sema Unit := do
  let ns ← Exec.get
  if (ns.contracts contractNo).ty = .contract ∧ noBodies ≠ [] then
    report [s!"contract should be marked 'abstract contract' since it has {noBodies.length} functions with no body"]
  else pure ()

/-- `resolve_declarations` -/
def resolveDeclarations (contractNo : ℕ) (functions : List FunctionDefinition) :
    Sema (List ℕ) := do
  report (ph.variableErrors contractNo)
  let (bodies,noBodies) ← declareFunctions ph contractNo functions
  checkImplemented contractNo noBodies
  pure bodies

def resolveAllDeclarations : List (ℕ × List FunctionDefinition) → Sema (List ℕ)
  | [] => pure []
  | (contractNo,functions)::rest => do
    let bodies ← resolveDeclarations ph contractNo functions
    let others ← resolveAllDeclarations rest
    pure (bodies ++ others)

/-! ### After the declarations -/

/-- Each step of a phase runs over the contracts, or over the bodies, in order. -/
def forEach {α : Type} (step : α → Sema Unit) : List α → Sema Unit
  | [] => pure ()
  | a::rest => do
    step a
    forEach step rest

/-- A set of function numbers as a list. -/
def insertAll (all : List ℕ) : List ℕ → List ℕ
  | [] => all
  | f::rest => insertAll (if f ∈ all then all else all ++ [f]) rest

def addAllFunctions (contractNo : ℕ) : Sema Unit := Exec.modify fun ns =>
  let c := ns.contracts contractNo
  ns.setContract contractNo { c with allFunctions := insertAll c.allFunctions c.functions }

def resolveInitializer (contractNo : ℕ) : Sema Unit := do
  report (ph.initializerErrors contractNo)
  Exec.modify fun ns => ns.setInitializers contractNo (ph.initializerCalls contractNo)

def resolveBody (f : ℕ) : Sema Unit := do
  report (ph.bodyErrors f)
  Exec.modify fun ns => ns.setCalls f (ph.bodyCalls f)

/-- `contracts::resolve` -/
def resolve (defs : List (ℕ × List FunctionDefinition)) : Sema Unit := do
  let bodies ← resolveAllDeclarations ph defs
  forEach addAllFunctions (defs.map Prod.fst)
  forEach (resolveInitializer ph) (defs.map Prod.fst)
  forEach (resolveBody ph) bodies

/-- The calls of a list of functions; a number without function stops the compiler. -/
def callsOf (functions : List Function) : List ℕ → Except Fault (List ℕ)
  | [] => .ok []
  | f::rest => match functions[f]? with
    | none => .error .panic
    | some func => do
      let calls ← callsOf functions rest
      .ok (func.calls ++ calls)

/-- The rounds of `add_external_functions`: the functions called so far are added, and those they
call make up the next list unless they are in the table already. -/
def addCalled (functions : List Function) : ℕ → List ℕ → List ℕ → Except Fault (List ℕ)
  | _, all, [] => .ok all
  | 0, _, _::_ => .error .diverge
  | fuel+1, all, f::rest => do
    let calls ← callsOf functions (f::rest)
    let all := insertAll all (f::rest)
    addCalled functions fuel all (calls.filter (· ∉ all))

/-- The functions a contract can call, from those in its table and those its initializers call. -/
def externalFunctions (functions : List Function) (c : Contract) : Except Fault (List ℕ) := do
  let calls ← callsOf functions c.allFunctions
  addCalled functions (functions.length+2) c.allFunctions (c.initializers ++ calls)

/-- `add_external_functions` -/
def addExternalFunctions (contractNo : ℕ) : Sema Unit := fun ns =>
  match externalFunctions ns.functions (ns.contracts contractNo) with
  | .error e => .error e
  | .ok all => .ok ((),ns.setContract contractNo
      { ns.contracts contractNo with allFunctions := all })

/-- `sema_file`, from where the types are resolved. -/
def semaFile (defs : List (ℕ × List FunctionDefinition)) : Sema Unit := do
  resolve ph defs
  let ns ← Exec.get
  if ns.errors = [] then forEach addExternalFunctions (List.range ns.size)

/-- The analysis of a file ends without an error. -/
def Accepts (defs : List (ℕ × List FunctionDefinition)) (ns ns' : Namespace) : Prop :=
  semaFile ph defs ns = .ok ((),ns') ∧ ns'.errors = []

end Resolution
end OlaLang
