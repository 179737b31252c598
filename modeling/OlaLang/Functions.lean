import OlaLang.Machine
import OlaLang.MachineCode
import Mathlib.Data.List.Nodup

/-! Function identity in the generated module. The semantic analysis knows a function by its
number; prototypes, bodies, calls and dispatch cases are found by its plain name in the symbol
table of the module, and the lowering decides by that name again what a call becomes. -/
namespace OlaLang
namespace Functions

open Codegen (Opcode)

/-- A resolved function with the number of its results: its body is represented by the numbers of
the functions it calls. -/
structure SemaFunction where
  name : String
  signature : String
  noReturns : ℕ
  calls : List ℕ

/-- A contract as the generator sees it: the functions of the namespace by number, those that
belong to the contract, the library functions its bodies call, and the first four bytes of the hash
of a signature. -/
structure Contract where
  functions : ℕ → SemaFunction
  allFunctions : List ℕ
  nodup : allFunctions.Nodup
  calledLibFunctions : List String
  selectorHash : String → BitVec 32

namespace Contract

variable (c : Contract)

def name (functionNo : ℕ) : String := (c.functions functionNo).name
def noReturns (functionNo : ℕ) : ℕ := (c.functions functionNo).noReturns
def calls (functionNo : ℕ) : List ℕ := (c.functions functionNo).calls

def selector (functionNo : ℕ) : BitVec 32 := c.selectorHash (c.functions functionNo).signature

end Contract

/-! ### The module under construction -/

/-- A case of the dispatcher: the arguments are decoded and the result is encoded by the types of
function `functionNo`, and the module function `callee` is called. -/
structure DispatchCase where
  selector : BitVec 32
  functionNo : ℕ
  callee : ℕ

/-- The blocks a generator appends to a function of the module; calls are to module functions. -/
inductive Body
  | library
  | function (functionNo : ℕ) (callees : List ℕ)
  | dispatch (cases : List DispatchCase)
  | entrance (target : ℕ)

/-- A global variable or a function, of which the type says whether a call has a value. -/
inductive GlobalKind
  | globalVariable
  | function (isVoid : Bool)
  deriving DecidableEq

namespace GlobalKind

def isFunction : GlobalKind → Bool
  | globalVariable => false
  | function _ => true

end GlobalKind

/-- Globals are numbered in the order they are added, and share one symbol table. -/
structure IrModule where
  symbols : String → Option ℕ
  size : ℕ
  kinds : ℕ → GlobalKind
  bodies : ℕ → List Body

abbrev Build (α : Type) := Exec IrModule Fault α

namespace IrModule

def empty : IrModule := ⟨fun _ => none,0,fun _ => .globalVariable,fun _ => []⟩

/-- `get_function`: a global variable of that name is not found. -/
def getFunction (m : IrModule) (name : String) : Option ℕ :=
  (m.symbols name).filter fun id => (m.kinds id).isFunction

/-- A global whose name is taken is renamed, so the old one stays in the table. -/
def addGlobal (m : IrModule) (name : String) (kind : GlobalKind) : IrModule where
  symbols := if (m.symbols name).isNone then Function.update m.symbols name (some m.size)
    else m.symbols
  size := m.size+1
  kinds := Function.update m.kinds m.size kind
  bodies := m.bodies

def appendBody (m : IrModule) (id : ℕ) (body : Body) : IrModule :=
  { m with bodies := Function.update m.bodies id (m.bodies id ++ [body]) }

end IrModule

open IrModule

def addFunction (name : String) (isVoid : Bool) : Build ℕ :=
  fun m => .ok (m.size,m.addGlobal name (.function isVoid))

def appendBody (id : ℕ) (body : Body) : Build Unit := Exec.modify fun m => m.appendBody id body

/-- `get_function(name).unwrap()` -/
def lookup (name : String) : Build ℕ := fun m => match m.getFunction name with
  | some id => .ok (id,m)
  | none => .error .panic

/-! ### Library functions -/

def BUILTIN_FUNCTIONS : List String :=
  ["builtin_assert","builtin_range_check","builtin_check_ecdsa"]

def PROPHET_FUNCTIONS : List String :=
  ["prophet_u32_sqrt","prophet_u32_div","prophet_u32_mod","prophet_u32_array_sort",
    "prophet_split_field_high","prophet_split_field_low","get_context_data","get_tape_data",
    "set_tape_data","get_storage","set_storage","poseidon_hash","contract_call","prophet_printf"]

def CORE_LIB_FUNCTIONS : List String :=
  ["heap_malloc","vector_new","split_field","memcpy","memcmp_eq","memcmp_ne","memcmp_ugt",
    "memcmp_uge","memcmp_ult","memcmp_ule","field_memcmp_ugt","field_memcmp_uge",
    "field_memcmp_ule","field_memcmp_ult","u32_div_mod","u32_power"]

/-- The functions that are generated only when they are called. -/
def onDemandFunctions : List String := ["u32_sqrt","fields_concat","check_ecdsa"]

/-- The library functions without a result. -/
def voidFunctions : List String :=
  ["builtin_assert","builtin_range_check","get_context_data","get_tape_data","set_tape_data",
    "get_storage","set_storage","poseidon_hash","contract_call","prophet_printf","memcpy",
    "split_field","u32_div_mod"]

def libraryKind (name : String) : GlobalKind := .function (name ∈ voidFunctions)

/-- A function without blocks: the virtual machine knows it. -/
def declareFunction (m : IrModule) (name : String) : IrModule := m.addGlobal name (libraryKind name)

def defineFunction (m : IrModule) (name : String) : IrModule :=
  (m.addGlobal name (libraryKind name)).appendBody m.size .library

def defineOnDemand (m : IrModule) (name : String) : IrModule :=
  if (m.getFunction name).isSome then m
  else if name ∈ onDemandFunctions then defineFunction m name
  else m

/-- `Binary::new` and `gen_lib_functions`. -/
def genLibFunctions (calledLibFunctions : List String) : IrModule :=
  let m := IrModule.empty.addGlobal "heap_address" .globalVariable
  let m := BUILTIN_FUNCTIONS.foldl declareFunction m
  let m := PROPHET_FUNCTIONS.foldl declareFunction m
  let m := CORE_LIB_FUNCTIONS.foldl defineFunction m
  calledLibFunctions.foldl defineOnDemand m

/-! ### Contract functions -/

variable (c : Contract)

/-- `function_type`: one result is returned, several are stored through pointers. -/
def isVoid (functionNo : ℕ) : Bool := c.noReturns functionNo ≠ 1

def genPrototype (functionNo : ℕ) : Build Unit := do
  let m ← Exec.get
  match m.getFunction (c.name functionNo) with
  | some id =>
    -- must not have a body yet
    if m.bodies id = [] then pure () else Exec.fail .panic
  | none => do
    let _ ← addFunction (c.name functionNo) (isVoid c functionNo)

def genPrototypes : List ℕ → Build Unit
  | [] => pure ()
  | f::rest => do
    genPrototype c f
    genPrototypes rest

def emitCalls : List ℕ → Build (List ℕ)
  | [] => pure []
  | callee::rest => do
    let id ← lookup (c.name callee)
    let ids ← emitCalls rest
    pure (id::ids)

def genDefinition (functionNo : ℕ) : Build Unit := do
  let m ← Exec.get
  match m.getFunction (c.name functionNo) with
  | some id => do
    let callees ← emitCalls c (c.calls functionNo)
    appendBody id (.function functionNo callees)
  | none => pure ()

def genDefinitions : List ℕ → Build Unit
  | [] => pure ()
  | f::rest => do
    genDefinition c f
    genDefinitions rest

def genFunctions : Build Unit := do
  genPrototypes c c.allFunctions
  genDefinitions c c.allFunctions

/-! ### Dispatch -/

/-- The callee of a case has no value when it is void, which `ret.unwrap()` meets in the case of a
function with results. -/
def dispatchCase (functionNo : ℕ) : Build DispatchCase := do
  let callee ← lookup (c.name functionNo)
  let m ← Exec.get
  if c.noReturns functionNo ≠ 0 ∧ m.kinds callee = .function true then Exec.fail .panic
  else pure ⟨c.selector functionNo,functionNo,callee⟩

def dispatchCases : List ℕ → Build (List DispatchCase)
  | [] => pure []
  | f::rest => do
    let case ← dispatchCase c f
    let cases ← dispatchCases rest
    pure (case::cases)

def genFuncDispatch : Build Unit := do
  let id ← addFunction "function_dispatch" true
  let cases ← dispatchCases c c.allFunctions
  appendBody id (.dispatch cases)

def genContractEntrance : Build Unit := do
  let id ← addFunction "main" true
  let target ← lookup "function_dispatch"
  appendBody id (.entrance target)

/-- `gen_ir`, from the module with the library functions. -/
def genIr : Build Unit := do
  genFunctions c
  genFuncDispatch c
  genContractEntrance

/-- The switch of the dispatcher takes the first case with the selector. -/
def switch (cases : List DispatchCase) (selector : ℕ) : Option DispatchCase :=
  cases.find? fun case => case.selector.toNat = selector

def library : IrModule := genLibFunctions c.calledLibFunctions

/-! ### Lowered calls -/

def startsWith (name pre : String) : Bool := pre.toList.isPrefixOf name.toList

/-- The instruction that `lower_call` makes of a call, by the name of the callee: the virtual
machine does the work of the built-in functions and of the prophets. -/
def lowerCall (name : String) : Except Fault Opcode :=
  if startsWith name "builtin" then
    if name = "builtin_assert" then .ok .ASSERTri
    else if name = "builtin_range_check" then .ok .RANGECHECK
    else if name = "builtin_check_ecdsa" then .ok .SIGCHECK
    else .error .panic
  else if name = "contract_call" then .ok .SCCALL
  else if name = "get_storage" then .ok .SLOAD
  else if name = "set_storage" then .ok .SSTORE
  else if name = "poseidon_hash" then .ok .POSEIDON
  else if name = "get_context_data" ∨ name = "get_tape_data" then .ok .TLOADri
  else if name = "set_tape_data" then .ok .TSTOREr
  else if startsWith name "prophet" then .ok .PROPHET
  else .ok .CALL

/-- The generated module keeps the functions of the contract apart: with `g` naming the module
function of each of them, it holds that function's body alone, a call of it jumps there, its calls
go to the functions the analysis resolved, and the entry of the program dispatches each selector to
its function. -/
structure Faithful (m : IrModule) (g : ℕ → ℕ) : Prop where
  own : ∀ f ∈ c.allFunctions, m.bodies (g f) = [.function f ((c.calls f).map g)]
  called : ∀ f ∈ c.allFunctions, ∀ name, m.symbols name = some (g f) → lowerCall name = .ok .CALL
  closed : ∀ f ∈ c.allFunctions, ∀ callee ∈ c.calls f, callee ∈ c.allFunctions
  library : ∀ id, id < (library c).size → m.bodies id = (library c).bodies id
  entry : ∃ main target cases, m.symbols "main" = some main ∧
    m.bodies main = [.entrance target] ∧ m.bodies target = [.dispatch cases] ∧
    ∀ f ∈ c.allFunctions, switch cases (c.selector f).toNat = some ⟨c.selector f,f,g f⟩

/-- Code generation succeeds and preserves the identity of every function. -/
def IdentityPreserved : Prop := ∃ m g, genIr c (library c) = .ok ((),m) ∧ Faithful c m g

/-- The names under which the generator itself enters globals. -/
def reservedNames : List String :=
  ["heap_address"] ++ BUILTIN_FUNCTIONS ++ PROPHET_FUNCTIONS ++ CORE_LIB_FUNCTIONS ++
    onDemandFunctions.filter (· ∈ c.calledLibFunctions) ++ ["function_dispatch","main"]

/-- The plain names identify the functions of the contract, none looks like a built-in function or
a prophet, and every function has a result that its case can encode. -/
structure NamesKeptApart : Prop where
  distinct : ∀ f ∈ c.allFunctions, ∀ f' ∈ c.allFunctions, c.name f = c.name f' → f = f'
  unreserved : ∀ f ∈ c.allFunctions, c.name f ∉ reservedNames c
  plain : ∀ f ∈ c.allFunctions,
    startsWith (c.name f) "builtin" = false ∧ startsWith (c.name f) "prophet" = false
  closed : ∀ f ∈ c.allFunctions, ∀ callee ∈ c.calls f, callee ∈ c.allFunctions
  selectors : ∀ f ∈ c.allFunctions, ∀ f' ∈ c.allFunctions, c.selector f = c.selector f' → f = f'
  results : ∀ f ∈ c.allFunctions, c.noReturns f ≤ 1

/-! ### Symbol tables -/

/-- Names stand for different globals that exist, and a global that was not added has no body. -/
structure WellFormed (m : IrModule) : Prop where
  bound : ∀ name id, m.symbols name = some id → id < m.size
  injective : ∀ name name' id, m.symbols name = some id → m.symbols name' = some id → name = name'
  fresh : ∀ id, m.size ≤ id → m.bodies id = []

variable {c} {m m' : IrModule} {name : String} {id f : ℕ}

theorem wellFormed_empty : WellFormed IrModule.empty :=
  ⟨fun _ _ h => (by cases h),fun _ _ _ h => (by cases h),fun _ _ => rfl⟩

theorem addGlobal_symbols_of_none (h : m.symbols name = none) (kind : GlobalKind) :
    (m.addGlobal name kind).symbols = Function.update m.symbols name (some m.size) := by
  simp [addGlobal,h]

theorem addGlobal_symbols_of_some (h : m.symbols name = some id) (kind : GlobalKind) :
    (m.addGlobal name kind).symbols = m.symbols := by
  simp [addGlobal,h]

/-- Adding a global never changes what a name in the table stands for. -/
theorem addGlobal_symbols_mono (h : m.symbols name = some id) (name' : String)
    (kind : GlobalKind) : (m.addGlobal name' kind).symbols name = some id := by
  cases hn : m.symbols name' with
  | none =>
    rw [addGlobal_symbols_of_none hn]
    have hne : name ≠ name' := by
      rintro rfl
      rw [h] at hn
      cases hn
    rw [Function.update_of_ne hne,h]
  | some i => rw [addGlobal_symbols_of_some hn,h]

theorem addGlobal_symbols_ne_none (name' : String) (kind : GlobalKind) :
    (m.addGlobal name' kind).symbols name ≠ none ↔ m.symbols name ≠ none ∨ name = name' := by
  cases hn : m.symbols name' with
  | none =>
    rw [addGlobal_symbols_of_none hn]
    by_cases h : name = name'
    · simp [h]
    · simp [h]
  | some i =>
    rw [addGlobal_symbols_of_some hn]
    constructor
    · exact Or.inl
    · rintro (h | rfl)
      · exact h
      · simp [hn]

theorem WellFormed.addGlobal (h : WellFormed m) (name : String) (kind : GlobalKind) :
    WellFormed (m.addGlobal name kind) := by
  have hfresh : ∀ id, m.size+1 ≤ id → m.bodies id = [] := fun id hid => h.fresh id (by omega)
  cases hn : m.symbols name with
  | some i =>
    refine ⟨?_,?_,hfresh⟩
    · intro a j ha
      rw [addGlobal_symbols_of_some hn] at ha
      exact Nat.lt_succ_of_lt (h.bound a j ha)
    · intro a b j ha hb
      rw [addGlobal_symbols_of_some hn] at ha hb
      exact h.injective a b j ha hb
  | none =>
    have hold : ∀ a j, a ≠ name → (m.addGlobal name kind).symbols a = some j →
        m.symbols a = some j := by
      intro a j hne ha
      rwa [addGlobal_symbols_of_none hn,Function.update_of_ne hne] at ha
    have hnew : ∀ j, (m.addGlobal name kind).symbols name = some j → j = m.size := by
      intro j hj
      rw [addGlobal_symbols_of_none hn,Function.update_self] at hj
      exact (Option.some.inj hj).symm
    refine ⟨?_,?_,hfresh⟩
    · intro a j ha
      by_cases hne : a = name
      · rw [hne] at ha
        rw [hnew j ha]
        exact Nat.lt_succ_self _
      · exact Nat.lt_succ_of_lt (h.bound a j (hold a j hne ha))
    · intro a b j ha hb
      by_cases hane : a = name
      · by_cases hbne : b = name
        · rw [hane,hbne]
        · rw [hane] at ha
          have hlt := h.bound b j (hold b j hbne hb)
          rw [hnew j ha] at hlt
          exact absurd hlt (Nat.lt_irrefl _)
      · by_cases hbne : b = name
        · rw [hbne] at hb
          have hlt := h.bound a j (hold a j hane ha)
          rw [hnew j hb] at hlt
          exact absurd hlt (Nat.lt_irrefl _)
        · exact h.injective a b j (hold a j hane ha) (hold b j hbne hb)

/-! ### The library functions -/

/-- What holds of the module while the library functions are added: `names` are entered, and
functions have a library body or none. -/
structure LibraryModule (m : IrModule) (names : List String) : Prop where
  wellFormed : WellFormed m
  names : ∀ name, m.symbols name ≠ none ↔ name ∈ names
  bodies : ∀ id, m.bodies id = [] ∨ m.bodies id = [.library]

variable {names : List String}

theorem LibraryModule.addGlobal (h : LibraryModule m names) (name : String) (kind : GlobalKind) :
    LibraryModule (m.addGlobal name kind) (names ++ [name]) := by
  refine ⟨h.wellFormed.addGlobal name kind,?_,h.bodies⟩
  intro a
  rw [addGlobal_symbols_ne_none,h.names,List.mem_append,List.mem_singleton]

theorem LibraryModule.defineFunction (h : LibraryModule m names) (name : String) :
    LibraryModule (defineFunction m name) (names ++ [name]) := by
  have hadd := h.addGlobal name (libraryKind name)
  refine ⟨⟨hadd.wellFormed.bound,hadd.wellFormed.injective,?_⟩,hadd.names,?_⟩
  · intro id hid
    have hne : id ≠ m.size := by
      have : m.size+1 ≤ id := hid
      omega
    show Function.update _ _ _ _ = _
    rw [Function.update_of_ne hne]
    exact hadd.wellFormed.fresh id hid
  · intro id
    by_cases hid : id = m.size
    · right
      have hnil : m.bodies m.size = [] := h.wellFormed.fresh _ (Nat.le_refl _)
      show Function.update _ _ _ _ = _
      rw [hid,Function.update_self]
      show m.bodies m.size ++ _ = _
      rw [hnil,List.nil_append]
    · show Function.update _ _ _ _ = _ ∨ Function.update _ _ _ _ = _
      rw [Function.update_of_ne hid]
      exact hadd.bodies id

theorem LibraryModule.foldl {step : IrModule → String → IrModule}
    (hstep : ∀ m names, LibraryModule m names → ∀ name, LibraryModule (step m name) (names ++ [name]))
    (h : LibraryModule m names) (added : List String) :
    LibraryModule (added.foldl step m) (names ++ added) := by
  induction added generalizing m names with
  | nil => simpa using h
  | cons name rest ih => simpa using ih (hstep m names h name)

theorem getFunction_isSome (h : (m.getFunction name).isSome) : m.symbols name ≠ none := by
  intro hnone
  simp [getFunction,hnone] at h

/-- A function on demand is added once, when it is first called. -/
theorem LibraryModule.defineOnDemand (h : LibraryModule m names)
    (hdisjoint : ∀ name ∈ onDemandFunctions, m.symbols name ≠ none → (m.getFunction name).isSome)
    (called : String) :
    ∃ names', LibraryModule (defineOnDemand m called) names' ∧
      (∀ name, name ∈ names' ↔ name ∈ names ∨ name = called ∧ called ∈ onDemandFunctions) ∧
      ∀ name ∈ onDemandFunctions, (defineOnDemand m called).symbols name ≠ none →
        ((defineOnDemand m called).getFunction name).isSome := by
  by_cases hsome : (m.getFunction called).isSome
  · have heq : Functions.defineOnDemand m called = m := if_pos hsome
    rw [heq]
    refine ⟨names,h,?_,hdisjoint⟩
    intro name
    constructor
    · exact Or.inl
    · rintro (hin | ⟨rfl,_⟩)
      · exact hin
      · exact (h.names name).mp (getFunction_isSome hsome)
  · by_cases hin : called ∈ onDemandFunctions
    · have heq : Functions.defineOnDemand m called = Functions.defineFunction m called := by
        rw [Functions.defineOnDemand,if_neg hsome,if_pos hin]
      have hfree : m.symbols called = none := by
        by_contra hne
        exact hsome (hdisjoint called hin hne)
      rw [heq]
      refine ⟨names ++ [called],h.defineFunction called,?_,?_⟩
      · intro name
        simp [hin]
      · intro name hname hne
        by_cases hcalled : name = called
        · rw [hcalled]
          simp [Functions.defineFunction,getFunction,IrModule.appendBody,IrModule.addGlobal,hfree,
            libraryKind,GlobalKind.isFunction]
        · have hold : m.symbols name ≠ none := by
            rcases (addGlobal_symbols_ne_none called (libraryKind called)).mp hne with h' | h'
            · exact h'
            · exact absurd h' hcalled
          have hold' := hdisjoint name hname hold
          cases hs : m.symbols name with
          | none => exact absurd hs hold
          | some i =>
            have hlt := h.wellFormed.bound name i hs
            have hne : i ≠ m.size := by omega
            simp only [getFunction,hs] at hold'
            simp [Functions.defineFunction,getFunction,IrModule.appendBody,IrModule.addGlobal,
              hfree,Function.update_of_ne hcalled,hs,Function.update_of_ne hne]
            simpa using hold'
    · have heq : Functions.defineOnDemand m called = m := by
        rw [Functions.defineOnDemand,if_neg hsome,if_neg hin]
      rw [heq]
      refine ⟨names,h,?_,hdisjoint⟩
      intro name
      simp [hin]

/-- The names of the library functions that every module has, in the order they are added. -/
def fixedNames : List String :=
  ["heap_address"] ++ BUILTIN_FUNCTIONS ++ PROPHET_FUNCTIONS ++ CORE_LIB_FUNCTIONS

theorem libraryModule_fixed : LibraryModule (CORE_LIB_FUNCTIONS.foldl defineFunction
    (PROPHET_FUNCTIONS.foldl declareFunction (BUILTIN_FUNCTIONS.foldl declareFunction
      (IrModule.empty.addGlobal "heap_address" .globalVariable)))) fixedNames := by
  have hempty : LibraryModule IrModule.empty [] :=
    ⟨wellFormed_empty,fun _ => by simp [IrModule.empty],fun _ => Or.inl rfl⟩
  have hheap := hempty.addGlobal "heap_address" .globalVariable
  have hbuiltin := hheap.foldl
    (fun m names h name => h.addGlobal name (libraryKind name)) BUILTIN_FUNCTIONS
  have hprophet := hbuiltin.foldl
    (fun m names h name => h.addGlobal name (libraryKind name)) PROPHET_FUNCTIONS
  exact hprophet.foldl
    (fun m names h name => h.defineFunction name) CORE_LIB_FUNCTIONS

theorem LibraryModule.foldl_defineOnDemand (h : LibraryModule m names)
    (hdisjoint : ∀ name ∈ onDemandFunctions, m.symbols name ≠ none → (m.getFunction name).isSome)
    (called : List String) :
    ∃ names', LibraryModule (called.foldl Functions.defineOnDemand m) names' ∧
      ∀ name, name ∈ names' ↔ name ∈ names ∨ name ∈ called ∧ name ∈ onDemandFunctions := by
  induction called generalizing m names with
  | nil => exact ⟨names,h,fun name => by simp⟩
  | cons p rest ih =>
    rcases h.defineOnDemand hdisjoint p with ⟨names',h',hnames',hdisjoint'⟩
    rcases ih h' hdisjoint' with ⟨names'',h'',hnames''⟩
    refine ⟨names'',h'',?_⟩
    intro name
    rw [hnames'',hnames',List.mem_cons]
    constructor
    · rintro ((hin | ⟨rfl,hp⟩) | ⟨hr,hd⟩)
      · exact Or.inl hin
      · exact Or.inr ⟨Or.inl rfl,hp⟩
      · exact Or.inr ⟨Or.inr hr,hd⟩
    · rintro (hin | ⟨rfl | hr,hd⟩)
      · exact Or.inl (Or.inl hin)
      · exact Or.inl (Or.inr ⟨rfl,hd⟩)
      · exact Or.inr ⟨hr,hd⟩

/-- The names the library functions occupy are the reserved ones but for the two entry points. -/
theorem library_symbols (c : Contract) (name : String) :
    (library c).symbols name ≠ none ↔
      name ∈ fixedNames ++ onDemandFunctions.filter (· ∈ c.calledLibFunctions) := by
  have hdisjoint : ∀ name ∈ onDemandFunctions, name ∉ fixedNames := by decide
  rcases libraryModule_fixed.foldl_defineOnDemand (fun name hname hne =>
    absurd ((libraryModule_fixed.names name).mp hne) (hdisjoint name hname))
    c.calledLibFunctions with ⟨names,h,hnames⟩
  rw [library,genLibFunctions,h.names,hnames]
  simp only [List.mem_append,List.mem_filter,decide_eq_true_eq]
  tauto

theorem library_wellFormed (c : Contract) : WellFormed (library c) ∧
    ∀ id, (library c).bodies id = [] ∨ (library c).bodies id = [.library] := by
  have hdisjoint : ∀ name ∈ onDemandFunctions, name ∉ fixedNames := by decide
  rcases libraryModule_fixed.foldl_defineOnDemand (fun name hname hne =>
    absurd ((libraryModule_fixed.names name).mp hne) (hdisjoint name hname))
    c.calledLibFunctions with ⟨names,h,_⟩
  exact ⟨h.wellFormed,h.bodies⟩

/-! ### Prototypes -/

/-- What adding functions to a module keeps. -/
structure Extends (m m' : IrModule) : Prop where
  size : m.size ≤ m'.size
  symbols : ∀ name id, m.symbols name = some id → m'.symbols name = some id
  added : ∀ name id, m'.symbols name = some id → m.symbols name = some id ∨ m.size ≤ id
  kinds : ∀ id, id < m.size → m'.kinds id = m.kinds id
  functions : ∀ id, m.size ≤ id → id < m'.size → (m'.kinds id).isFunction = true
  bodies : m'.bodies = m.bodies

theorem Extends.refl (m : IrModule) : Extends m m :=
  ⟨Nat.le_refl _,fun _ _ h => h,fun _ _ h => Or.inl h,fun _ _ => rfl,
    fun id h h' => absurd h (by omega),rfl⟩

theorem Extends.trans {m'' : IrModule} (h : Extends m m') (h' : Extends m' m'') :
    Extends m m'' := by
  have hsize := h.size
  refine ⟨Nat.le_trans h.size h'.size,fun n i hn => h'.symbols n i (h.symbols n i hn),?_,?_,?_,
    h'.bodies.trans h.bodies⟩
  · intro n i hn
    rcases h'.added n i hn with hn' | hn'
    · exact h.added n i hn'
    · exact Or.inr (by omega)
  · intro i hi
    rw [h'.kinds i (by omega),h.kinds i hi]
  · intro i hi hi'
    by_cases hlt : i < m'.size
    · rw [h'.kinds i hlt,h.functions i hi hlt]
    · exact h'.functions i (by omega) hi'

theorem extends_addGlobal (m : IrModule) (name : String) (isVoid : Bool) :
    Extends m (m.addGlobal name (.function isVoid)) := by
  refine ⟨Nat.le_succ _,fun n i hn => addGlobal_symbols_mono hn name _,?_,?_,?_,rfl⟩
  · intro n i hn
    cases hname : m.symbols name with
    | some j =>
      rw [addGlobal_symbols_of_some hname] at hn
      exact Or.inl hn
    | none =>
      rw [addGlobal_symbols_of_none hname] at hn
      by_cases hne : n = name
      · rw [hne,Function.update_self] at hn
        exact Or.inr (le_of_eq (Option.some.inj hn))
      · rw [Function.update_of_ne hne] at hn
        exact Or.inl hn
  · intro i hi
    exact Function.update_of_ne (by omega) _ _
  · intro i hi hi'
    have hsize : i < m.size+1 := hi'
    have heq : i = m.size := by omega
    rw [heq]
    simp [IrModule.addGlobal,GlobalKind.isFunction]

theorem genPrototype_eq_ok {u : Unit} (h : genPrototype c f m = .ok (u,m')) :
    Extends m m' ∧ (WellFormed m → WellFormed m') ∧
      ∀ name, m'.symbols name ≠ none ↔ m.symbols name ≠ none ∨ name = c.name f := by
  simp only [genPrototype,Exec.bind_eq_ok,Exec.get_apply,Except.ok.injEq,Prod.mk.injEq] at h
  rcases h with ⟨_,_,⟨rfl,rfl⟩,h⟩
  cases hg : m.getFunction (c.name f) with
  | some id =>
    rw [hg] at h
    by_cases hnil : m.bodies id = []
    · simp only [hnil,if_true,Exec.pure_apply,Except.ok.injEq,Prod.mk.injEq] at h
      rw [← h.2]
      refine ⟨Extends.refl m,fun hwf => hwf,?_⟩
      have hsome : m.symbols (c.name f) ≠ none := getFunction_isSome (by rw [hg]; rfl)
      intro name
      constructor
      · exact Or.inl
      · rintro (h | rfl)
        · exact h
        · exact hsome
    · simp [hnil] at h
  | none =>
    rw [hg] at h
    rcases Exec.bind_eq_ok.mp h with ⟨i,m1,hadd,hpure⟩
    cases hadd
    cases hpure
    exact ⟨extends_addGlobal m _ _,fun hwf => hwf.addGlobal _ _,
      fun name => addGlobal_symbols_ne_none _ _⟩

theorem genPrototypes_eq_ok {fs : List ℕ} {u : Unit} (h : genPrototypes c fs m = .ok (u,m')) :
    Extends m m' ∧ (WellFormed m → WellFormed m') ∧
      ∀ name, m'.symbols name ≠ none ↔ m.symbols name ≠ none ∨ ∃ f ∈ fs, name = c.name f := by
  induction fs generalizing m with
  | nil =>
    cases h
    exact ⟨Extends.refl _,fun hwf => hwf,fun name => by simp⟩
  | cons f rest ih =>
    rcases Exec.bind_eq_ok.mp h with ⟨_,m1,hf,hrest⟩
    rcases genPrototype_eq_ok hf with ⟨hext,hwf,hnames⟩
    rcases ih hrest with ⟨hext',hwf',hnames'⟩
    refine ⟨hext.trans hext',fun hm => hwf' (hwf hm),?_⟩
    intro name
    rw [hnames',hnames,List.exists_mem_cons_iff,or_assoc]

/-- The function of that name is one with the type of the prototype. -/
def HasPrototype (c : Contract) (m : IrModule) (f : ℕ) : Prop :=
  ∃ id, m.symbols (c.name f) = some id ∧ m.kinds id = .function (isVoid c f)

theorem HasPrototype.mono (h : HasPrototype c m f) (hwf : WellFormed m) (hext : Extends m m') :
    HasPrototype c m' f := by
  rcases h with ⟨id,hsymbol,hkind⟩
  exact ⟨id,hext.symbols _ id hsymbol,by rw [hext.kinds id (hwf.bound _ id hsymbol),hkind]⟩

theorem genPrototype_new (h : m.symbols (c.name f) = none) :
    genPrototype c f m = .ok ((),m.addGlobal (c.name f) (.function (isVoid c f))) ∧
      HasPrototype c (m.addGlobal (c.name f) (.function (isVoid c f))) f := by
  constructor
  · have hget : m.getFunction (c.name f) = none := by simp [getFunction,h]
    show (match m.getFunction (c.name f) with | some _ => _ | none => _ : Build Unit) m = _
    rw [hget]
    rfl
  · refine ⟨m.size,?_,Function.update_self _ _ _⟩
    rw [addGlobal_symbols_of_none h,Function.update_self]

/-- Distinct unused names give every function a prototype of its own, with its own type. -/
theorem genPrototypes_ok {fs : List ℕ} (hwf : WellFormed m) (hdistinct : (fs.map c.name).Nodup)
    (hunused : ∀ f ∈ fs, m.symbols (c.name f) = none) :
    ∃ m', genPrototypes c fs m = .ok ((),m') ∧ ∀ f ∈ fs, HasPrototype c m' f := by
  induction fs generalizing m with
  | nil => exact ⟨m,rfl,fun f hf => absurd hf List.not_mem_nil⟩
  | cons f rest ih =>
    rw [List.map_cons,List.nodup_cons] at hdistinct
    rcases genPrototype_new (hunused f List.mem_cons_self) with ⟨hproto,hf⟩
    let m1 := m.addGlobal (c.name f) (.function (isVoid c f))
    have hwf1 : WellFormed m1 := hwf.addGlobal _ _
    have hrest : ∀ k ∈ rest, m1.symbols (c.name k) = none := by
      intro k hk
      by_contra hne
      rcases (addGlobal_symbols_ne_none _ _).mp hne with h | h
      · exact h (hunused k (List.mem_cons_of_mem f hk))
      · exact hdistinct.1 (by rw [← h]; exact List.mem_map_of_mem hk)
    rcases ih hwf1 hdistinct.2 hrest with ⟨m',hm',hown⟩
    refine ⟨m',by rw [genPrototypes,Exec.bind_ok hproto,hm'],?_⟩
    intro k hk
    rcases List.mem_cons.mp hk with rfl | hk
    · exact hf.mono hwf1 (genPrototypes_eq_ok hm').1
    · exact hown k hk

/-! ### Definitions -/

/-- The module function a contract function is found under. -/
def target (c : Contract) (m : IrModule) (functionNo : ℕ) : ℕ :=
  (m.getFunction (c.name functionNo)).getD 0

theorem lookup_eq_ok : lookup name m = .ok (id,m') ↔ m.getFunction name = some id ∧ m' = m := by
  unfold lookup
  cases m.getFunction name with
  | none => simp
  | some i => simp [eq_comm]

theorem emitCalls_eq_ok {ks ids : List ℕ} : emitCalls c ks m = .ok (ids,m') ↔
    (∀ k ∈ ks, m.getFunction (c.name k) ≠ none) ∧ ids = ks.map (target c m) ∧ m' = m := by
  induction ks generalizing ids m' with
  | nil => simp [emitCalls,eq_comm]
  | cons k rest ih =>
    rw [emitCalls]
    simp only [Exec.bind_eq_ok,lookup_eq_ok,List.mem_cons,List.map_cons]
    constructor
    · rintro ⟨i,_,⟨hi,rfl⟩,is,_,his,hpure⟩
      rcases ih.mp his with ⟨hall,rfl,rfl⟩
      cases hpure
      refine ⟨?_,by rw [target,hi]; rfl,rfl⟩
      rintro j (rfl | hj)
      · rw [hi]
        exact Option.some_ne_none i
      · exact hall j hj
    · rintro ⟨hall,rfl,rfl⟩
      cases hi : m'.getFunction (c.name k) with
      | none => exact absurd hi (hall k (Or.inl rfl))
      | some i =>
        refine ⟨i,m',⟨rfl,rfl⟩,_,m',ih.mpr ⟨fun j hj => hall j (Or.inr hj),rfl,rfl⟩,?_⟩
        rw [target,hi]
        rfl

/-- The module with the blocks of one more contract function. -/
def defineBody (c : Contract) (m : IrModule) (functionNo : ℕ) : IrModule :=
  match m.getFunction (c.name functionNo) with
  | some id => m.appendBody id (.function functionNo ((c.calls functionNo).map (target c m)))
  | none => m

theorem genDefinition_eq_ok {u : Unit} (h : genDefinition c f m = .ok (u,m')) :
    m' = defineBody c m f := by
  simp only [genDefinition,Exec.bind_eq_ok,Exec.get_apply,Except.ok.injEq,Prod.mk.injEq] at h
  rcases h with ⟨_,_,⟨rfl,rfl⟩,h⟩
  unfold defineBody
  cases hg : m.getFunction (c.name f) with
  | none =>
    rw [hg] at h
    cases h
    rfl
  | some i =>
    rw [hg] at h
    rcases Exec.bind_eq_ok.mp h with ⟨ids,m1,hcalls,happ⟩
    rcases emitCalls_eq_ok.mp hcalls with ⟨_,rfl,rfl⟩
    cases happ
    rfl

theorem genDefinition_ok (h : ∀ k ∈ c.calls f, m.getFunction (c.name k) ≠ none) :
    genDefinition c f m = .ok ((),defineBody c m f) := by
  show (match m.getFunction (c.name f) with | some _ => _ | none => _ : Build Unit) m = _
  unfold defineBody
  cases m.getFunction (c.name f) with
  | none => rfl
  | some i =>
    have hcalls : emitCalls c (c.calls f) m = .ok ((c.calls f).map (target c m),m) :=
      emitCalls_eq_ok.mpr ⟨h,rfl,rfl⟩
    exact Exec.bind_ok hcalls

theorem defineBody_getFunction (f : ℕ) (name : String) :
    (defineBody c m f).getFunction name = m.getFunction name := by
  unfold defineBody
  cases m.getFunction (c.name f) <;> rfl

theorem defineBody_symbols (f : ℕ) : (defineBody c m f).symbols = m.symbols := by
  unfold defineBody
  cases m.getFunction (c.name f) <;> rfl

theorem defineBody_kinds (f : ℕ) : (defineBody c m f).kinds = m.kinds := by
  unfold defineBody
  cases m.getFunction (c.name f) <;> rfl

theorem defineBody_size (f : ℕ) : (defineBody c m f).size = m.size := by
  unfold defineBody
  cases m.getFunction (c.name f) <;> rfl

theorem target_defineBody (f : ℕ) : target c (defineBody c m f) = target c m := by
  funext k
  rw [target,defineBody_getFunction,target]

/-- The blocks that the functions `fs` leave at one module function. -/
def bodiesAt (c : Contract) (m : IrModule) (fs : List ℕ) (id : ℕ) : List Body :=
  (fs.filter fun f => m.getFunction (c.name f) = some id).map fun f =>
    .function f ((c.calls f).map (target c m))

theorem bodiesAt_defineBody (fs : List ℕ) (id f : ℕ) :
    bodiesAt c (defineBody c m f) fs id = bodiesAt c m fs id := by
  simp only [bodiesAt,defineBody_getFunction,target_defineBody]

theorem defineBody_bodies (f id : ℕ) :
    (defineBody c m f).bodies id = m.bodies id ++ bodiesAt c m [f] id := by
  unfold defineBody bodiesAt
  cases hg : m.getFunction (c.name f) with
  | none => simp [hg]
  | some i =>
    by_cases hid : id = i
    · rw [hid]
      simp [IrModule.appendBody,hg]
    · have hne : ¬ i = id := fun h => hid h.symm
      simp [IrModule.appendBody,hg,Function.update_of_ne hid,hne]

/-- What the definitions of `fs` leave in the module. -/
structure Defined (c : Contract) (fs : List ℕ) (m m' : IrModule) : Prop where
  symbols : m'.symbols = m.symbols
  size : m'.size = m.size
  kinds : m'.kinds = m.kinds
  getFunction : ∀ name, m'.getFunction name = m.getFunction name
  bodies : ∀ id, m'.bodies id = m.bodies id ++ bodiesAt c m fs id

theorem bodiesAt_cons (f : ℕ) (rest : List ℕ) (id : ℕ) :
    bodiesAt c m (f::rest) id = bodiesAt c m [f] id ++ bodiesAt c m rest id := by
  unfold bodiesAt
  rw [← List.map_append,← List.filter_append,List.singleton_append]

theorem Defined.cons {f : ℕ} {rest : List ℕ} (h : Defined c rest (defineBody c m f) m') :
    Defined c (f::rest) m m' := by
  refine ⟨h.symbols.trans (defineBody_symbols f),h.size.trans (defineBody_size f),
    h.kinds.trans (defineBody_kinds f),?_,?_⟩
  · intro name
    rw [h.getFunction,defineBody_getFunction]
  · intro id
    rw [h.bodies,defineBody_bodies,bodiesAt_defineBody,List.append_assoc,← bodiesAt_cons]

theorem genDefinitions_eq_ok {fs : List ℕ} {u : Unit} (h : genDefinitions c fs m = .ok (u,m')) :
    Defined c fs m m' := by
  induction fs generalizing m with
  | nil =>
    cases h
    exact ⟨rfl,rfl,rfl,fun _ => rfl,fun _ => by simp [bodiesAt]⟩
  | cons f rest ih =>
    rcases Exec.bind_eq_ok.mp h with ⟨_,m1,hf,hrest⟩
    rw [genDefinition_eq_ok hf] at hrest
    exact (ih hrest).cons

theorem genDefinitions_ok {fs : List ℕ}
    (h : ∀ f ∈ fs, ∀ k ∈ c.calls f, m.getFunction (c.name k) ≠ none) :
    ∃ m', genDefinitions c fs m = .ok ((),m') := by
  induction fs generalizing m with
  | nil => exact ⟨m,rfl⟩
  | cons f rest ih =>
    have hf := genDefinition_ok (h f List.mem_cons_self)
    have hrest : ∀ k ∈ rest, ∀ j ∈ c.calls k,
        (defineBody c m f).getFunction (c.name j) ≠ none := by
      intro k hk j hj
      rw [defineBody_getFunction]
      exact h k (List.mem_cons_of_mem f hk) j hj
    rcases ih hrest with ⟨m',hm'⟩
    exact ⟨m',by rw [genDefinitions,Exec.bind_ok hf,hm']⟩

/-! ### Dispatch and entrance -/

/-- The dispatcher can call the function: it is found, and its call has the value that the case of
a function with results asks for. -/
structure Dispatchable (c : Contract) (m : IrModule) (f : ℕ) : Prop where
  found : m.getFunction (c.name f) ≠ none
  value : c.noReturns f = 0 ∨ m.kinds (target c m f) ≠ .function true

/-- The case of a function whose name leads to its target. -/
def caseOf (c : Contract) (m : IrModule) (f : ℕ) : DispatchCase := ⟨c.selector f,f,target c m f⟩

theorem dispatchCase_eq_ok {case : DispatchCase} : dispatchCase c f m = .ok (case,m') ↔
    Dispatchable c m f ∧ case = caseOf c m f ∧ m' = m := by
  rw [dispatchCase]
  simp only [Exec.bind_eq_ok,lookup_eq_ok]
  constructor
  · rintro ⟨i,m1,⟨hi,rfl⟩,_,_,hget,hcase⟩
    cases hget
    have htarget : target c m1 f = i := by rw [target,hi]; rfl
    by_cases hpanic : c.noReturns f ≠ 0 ∧ m1.kinds i = .function true
    · rw [if_pos hpanic] at hcase
      cases hcase
    · rw [if_neg hpanic] at hcase
      cases hcase
      refine ⟨⟨by rw [hi]; exact Option.some_ne_none i,?_⟩,by rw [caseOf,htarget],rfl⟩
      rw [htarget]
      tauto
  · rintro ⟨hdispatch,rfl,rfl⟩
    cases hi : m'.getFunction (c.name f) with
    | none => exact absurd hi hdispatch.found
    | some i =>
      have htarget : target c m' f = i := by rw [target,hi]; rfl
      have hvalue := hdispatch.value
      rw [htarget] at hvalue
      refine ⟨i,m',⟨rfl,rfl⟩,m',m',rfl,?_⟩
      rw [if_neg (by tauto),caseOf,htarget]
      rfl

theorem dispatchCases_eq_ok {fs : List ℕ} {cases : List DispatchCase} :
    dispatchCases c fs m = .ok (cases,m') ↔
      (∀ f ∈ fs, Dispatchable c m f) ∧ cases = fs.map (caseOf c m) ∧ m' = m := by
  induction fs generalizing cases m' with
  | nil => simp [dispatchCases,eq_comm]
  | cons f rest ih =>
    rw [dispatchCases]
    simp only [Exec.bind_eq_ok,dispatchCase_eq_ok,List.forall_mem_cons,List.map_cons]
    constructor
    · rintro ⟨_,_,⟨hf,rfl,rfl⟩,is,_,his,hpure⟩
      rcases ih.mp his with ⟨hall,rfl,rfl⟩
      cases hpure
      exact ⟨⟨hf,hall⟩,rfl,rfl⟩
    · rintro ⟨⟨hf,hall⟩,rfl,rfl⟩
      exact ⟨_,m',⟨hf,rfl,rfl⟩,_,m',ih.mpr ⟨hall,rfl,rfl⟩,rfl⟩

theorem switch_map {fs : List ℕ} {case : ℕ → DispatchCase} (hf : f ∈ fs)
    (hcase : ∀ k, (case k).selector = c.selector k)
    (hselectors : ∀ k ∈ fs, c.selector k = c.selector f → k = f) :
    switch (fs.map case) (c.selector f).toNat = some (case f) := by
  induction fs with
  | nil => exact absurd hf List.not_mem_nil
  | cons k rest ih =>
    by_cases hk : c.selector k = c.selector f
    · have heq := hselectors k List.mem_cons_self hk
      simp [switch,heq,hcase]
    · have hin : f ∈ rest := by
        rcases List.mem_cons.mp hf with rfl | h
        · exact absurd rfl hk
        · exact h
      have hne : ¬ (c.selector k).toNat = (c.selector f).toNat :=
        fun heq => hk (BitVec.eq_of_toNat_eq heq)
      have hrest := ih hin fun j hj => hselectors j (List.mem_cons_of_mem k hj)
      simpa [switch,hcase,hne] using hrest

/-- The module once the dispatcher is added. -/
def withDispatch (m : IrModule) : IrModule := m.addGlobal "function_dispatch" (.function true)

/-- The module after the dispatcher and the entrance, which calls `t`. -/
def finish (c : Contract) (m : IrModule) (t : ℕ) : IrModule :=
  ((((withDispatch m).appendBody m.size
    (.dispatch (c.allFunctions.map (caseOf c (withDispatch m))))).addGlobal
      "main" (.function true)).appendBody (m.size+1) (.entrance t))

/-- The table in which the entrance looks for the dispatcher. -/
def withMain (m : IrModule) : IrModule := (withDispatch m).addGlobal "main" (.function true)

theorem genIr_eq_ok {u : Unit} : genIr c m = .ok (u,m') ↔ ∃ m1 m2 t,
    genPrototypes c c.allFunctions m = .ok ((),m1) ∧
    genDefinitions c c.allFunctions m1 = .ok ((),m2) ∧
    (∀ f ∈ c.allFunctions, Dispatchable c (withDispatch m2) f) ∧
    (withMain m2).getFunction "function_dispatch" = some t ∧ m' = finish c m2 t := by
  simp only [genIr,genFunctions,genFuncDispatch,genContractEntrance,Exec.bind_eq_ok]
  constructor
  · rintro ⟨_,m2,⟨_,m1,hproto,hdef⟩,_,m4,⟨_,m3,hadd,cases,m3',hcases,happ⟩,_,m5,hmain,t,m6,hlook,hfin⟩
    cases hadd
    rcases dispatchCases_eq_ok.mp hcases with ⟨hall,rfl,rfl⟩
    cases happ
    cases hmain
    rcases lookup_eq_ok.mp hlook with ⟨ht,rfl⟩
    cases hfin
    exact ⟨m1,m2,t,hproto,hdef,hall,ht,rfl⟩
  · rintro ⟨m1,m2,t,hproto,hdef,hall,ht,rfl⟩
    exact ⟨(),m2,⟨(),m1,hproto,hdef⟩,(),_,⟨_,_,rfl,_,_,dispatchCases_eq_ok.mpr ⟨hall,rfl,rfl⟩,rfl⟩,
      _,_,rfl,t,_,lookup_eq_ok.mpr ⟨ht,rfl⟩,rfl⟩

theorem finish_symbols (t : ℕ) : (finish c m t).symbols = (withMain m).symbols := rfl

theorem finish_symbols_mono (h : m.symbols name = some id) (t : ℕ) :
    (finish c m t).symbols name = some id := by
  have hdispatch := addGlobal_symbols_mono h "function_dispatch" (.function true)
  exact addGlobal_symbols_mono hdispatch "main" (.function true)

theorem finish_bodies (t id : ℕ) : (finish c m t).bodies id = m.bodies id ++
    ((if id = m.size then [Body.dispatch (c.allFunctions.map (caseOf c (withDispatch m)))] else []) ++
    if id = m.size+1 then [Body.entrance t] else []) := by
  by_cases hd : id = m.size
  · simp [finish,withDispatch,IrModule.appendBody,IrModule.addGlobal,hd]
  · by_cases he : id = m.size+1
    · simp [finish,withDispatch,IrModule.appendBody,IrModule.addGlobal,he]
    · simp [finish,withDispatch,IrModule.appendBody,IrModule.addGlobal,hd,he]

/-! ### Names kept apart suffice -/

theorem getFunction_of_new (hext : Extends m m') (hwf : WellFormed m')
    (hnew : m.symbols name = none) (hdef : m'.symbols name = some id) :
    m'.getFunction name = some id ∧ m.size ≤ id := by
  have hle : m.size ≤ id := by
    rcases hext.added name id hdef with h | h
    · rw [hnew] at h
      cases h
    · exact h
  refine ⟨?_,hle⟩
  simp [getFunction,hdef,hext.functions id hle (hwf.bound name id hdef)]

theorem getFunction_mono (hext : Extends m m') (hwf : WellFormed m)
    (h : m.getFunction name = some id) : m'.getFunction name = some id := by
  unfold getFunction at *
  cases hs : m.symbols name with
  | none =>
    rw [hs] at h
    cases h
  | some i =>
    rw [hs,Option.filter_eq_some_iff] at h
    rcases h with ⟨hi,hfun⟩
    cases hi
    rw [hext.symbols name id hs,Option.filter_eq_some_iff]
    exact ⟨rfl,by rw [hext.kinds id (hwf.bound name id hs),hfun]⟩

theorem filter_eq_singleton {fs : List ℕ} (hnodup : fs.Nodup) (hf : f ∈ fs) {p : ℕ → Bool}
    (hp : ∀ k ∈ fs, p k = true ↔ k = f) : fs.filter p = [f] := by
  have hcongr : fs.filter p = fs.filter (· = f) := by
    apply List.filter_congr
    intro k hk
    by_cases h : k = f
    · simp [h,(hp f hf).mpr rfl]
    · have hfalse : p k = false := by
        cases hpk : p k with
        | false => rfl
        | true => exact absurd ((hp k hk).mp hpk) h
      simp [h,hfalse]
  rw [hcongr,List.filter_eq,List.count_eq_one_of_mem hnodup hf]
  rfl

theorem symbols_none_of_unreserved (h : name ∉ reservedNames c) :
    (library c).symbols name = none := by
  by_contra hne
  have hin := (library_symbols c name).mp hne
  exact h (List.mem_append_left _ (by simpa [fixedNames] using hin))

/-- The prototypes give every contract function a module function of its own, with its own type. -/
structure OwnPrototypes (c : Contract) (m : IrModule) : Prop where
  ext : Extends (library c) m
  wellFormed : WellFormed m
  names : ∀ name, m.symbols name ≠ none ↔
    (library c).symbols name ≠ none ∨ ∃ f ∈ c.allFunctions, name = c.name f
  found : ∀ f ∈ c.allFunctions, m.getFunction (c.name f) = some (target c m f)
  kinds : ∀ f ∈ c.allFunctions, m.kinds (target c m f) = .function (isVoid c f)
  new : ∀ f ∈ c.allFunctions, (library c).size ≤ target c m f
  bound : ∀ f ∈ c.allFunctions, target c m f < m.size
  injective : ∀ f ∈ c.allFunctions, ∀ k ∈ c.allFunctions, target c m k = target c m f → k = f

theorem symbols_of_getFunction (h : m.getFunction name = some id) : m.symbols name = some id :=
  (Option.filter_eq_some_iff.mp h).1

theorem genPrototypes_own
    (hdistinct : ∀ f ∈ c.allFunctions, ∀ f' ∈ c.allFunctions, c.name f = c.name f' → f = f')
    (hunreserved : ∀ f ∈ c.allFunctions, c.name f ∉ reservedNames c) :
    ∃ m, genPrototypes c c.allFunctions (library c) = .ok ((),m) ∧ OwnPrototypes c m := by
  have hunused : ∀ f ∈ c.allFunctions, (library c).symbols (c.name f) = none :=
    fun f hf => symbols_none_of_unreserved (hunreserved f hf)
  have hnames : (c.allFunctions.map c.name).Nodup :=
    c.nodup.map_on fun f hf k hk => hdistinct f hf k hk
  rcases genPrototypes_ok (library_wellFormed c).1 hnames hunused with ⟨m,hproto,hown⟩
  rcases genPrototypes_eq_ok hproto with ⟨hext,hwf,hsymbols⟩
  have hwf := hwf (library_wellFormed c).1
  have hfound : ∀ f ∈ c.allFunctions, m.getFunction (c.name f) = some (target c m f) ∧
      m.kinds (target c m f) = .function (isVoid c f) ∧ (library c).size ≤ target c m f := by
    intro f hf
    rcases hown f hf with ⟨i,hs,hkind⟩
    rcases getFunction_of_new hext hwf (hunused f hf) hs with ⟨hget,hle⟩
    have htarget : target c m f = i := by rw [target,hget]; rfl
    rw [htarget]
    exact ⟨hget,hkind,hle⟩
  have hsymbol : ∀ f ∈ c.allFunctions, m.symbols (c.name f) = some (target c m f) :=
    fun f hf => symbols_of_getFunction (hfound f hf).1
  refine ⟨m,hproto,hext,hwf,hsymbols,fun f hf => (hfound f hf).1,fun f hf => (hfound f hf).2.1,
    fun f hf => (hfound f hf).2.2,fun f hf => hwf.bound _ _ (hsymbol f hf),?_⟩
  intro f hf k hk heq
  have hk' := hsymbol k hk
  rw [heq] at hk'
  exact hdistinct k hk f hf (hwf.injective _ _ _ hk' (hsymbol f hf))

theorem OwnPrototypes.bodiesAt_target (h : OwnPrototypes c m) (hf : f ∈ c.allFunctions) :
    bodiesAt c m c.allFunctions (target c m f) =
      [.function f ((c.calls f).map (target c m))] := by
  rw [bodiesAt,filter_eq_singleton c.nodup hf]
  · rfl
  · intro k hk
    rw [h.found k hk,decide_eq_true_eq,Option.some.injEq]
    constructor
    · exact h.injective f hf k hk
    · rintro rfl
      rfl

theorem OwnPrototypes.bodiesAt_eq_nil (h : OwnPrototypes c m)
    (hid : id < (library c).size ∨ m.size ≤ id) : bodiesAt c m c.allFunctions id = [] := by
  rw [bodiesAt,List.map_eq_nil_iff,List.filter_eq_nil_iff]
  intro k hk
  have hnew := h.new k hk
  have hbound := h.bound k hk
  rw [h.found k hk,decide_eq_true_eq,Option.some.injEq]
  omega

theorem OwnPrototypes.wellFormed_defined (h : OwnPrototypes c m)
    (hdef : Defined c c.allFunctions m m') : WellFormed m' := by
  refine ⟨?_,?_,?_⟩
  · rw [hdef.symbols,hdef.size]
    exact h.wellFormed.bound
  · rw [hdef.symbols]
    exact h.wellFormed.injective
  · intro id hid
    rw [hdef.size] at hid
    rw [hdef.bodies,h.wellFormed.fresh id hid,h.bodiesAt_eq_nil (Or.inr hid)]
    rfl

/-- The names of the dispatcher and of the entrance are still free when they are added. -/
theorem OwnPrototypes.entry_free (h : OwnPrototypes c m) (happart : NamesKeptApart c)
    (hn : name ∈ ["function_dispatch","main"]) : m.symbols name = none := by
  by_contra hne
  rcases (h.names name).mp hne with hin | ⟨f,hf,hname⟩
  · have hout : name ∉ fixedNames ++ onDemandFunctions := by
      rcases List.mem_cons.mp hn with rfl | hn
      · decide
      · rw [List.mem_singleton.mp hn]
        decide
    apply hout
    rcases List.mem_append.mp ((library_symbols c name).mp hin) with hmem | hmem
    · exact List.mem_append_left _ hmem
    · exact List.mem_append_right _ (List.mem_filter.mp hmem).1
  · apply happart.unreserved f hf
    rw [← hname]
    exact List.mem_append_right _ hn

theorem withMain_getFunction_dispatch (hfree : m.symbols "function_dispatch" = none) :
    (withMain m).getFunction "function_dispatch" = some m.size := by
  have hdispatch : (withDispatch m).symbols "function_dispatch" = some m.size := by
    rw [withDispatch,addGlobal_symbols_of_none hfree,Function.update_self]
  have hmono : (withMain m).symbols "function_dispatch" = some m.size :=
    addGlobal_symbols_mono hdispatch "main" _
  have hfun : ((withMain m).kinds m.size).isFunction = true := by
    simp [withMain,withDispatch,IrModule.addGlobal,GlobalKind.isFunction]
  rw [getFunction,hmono,Option.filter_eq_some_iff]
  exact ⟨rfl,hfun⟩

theorem finish_symbols_main (hdispatch : m.symbols "function_dispatch" = none)
    (hmain : m.symbols "main" = none) (t : ℕ) :
    (finish c m t).symbols "main" = some (m.size+1) := by
  have hfree : (withDispatch m).symbols "main" = none := by
    rw [withDispatch,addGlobal_symbols_of_none hdispatch,Function.update_of_ne (by decide)]
    exact hmain
  rw [finish_symbols,withMain,addGlobal_symbols_of_none hfree,Function.update_self]
  rfl

theorem finish_bodies_of_lt (h : id < m.size) (t : ℕ) :
    (finish c m t).bodies id = m.bodies id := by
  have hdispatch : ¬ id = m.size := by omega
  have hmain : ¬ id = m.size+1 := by omega
  rw [finish_bodies,if_neg hdispatch,if_neg hmain,List.append_nil,List.append_nil]

theorem finish_bodies_dispatch (h : WellFormed m) (t : ℕ) :
    (finish c m t).bodies m.size = [.dispatch (c.allFunctions.map (caseOf c (withDispatch m)))] := by
  have hmain : ¬ m.size = m.size+1 := by omega
  rw [finish_bodies,if_pos rfl,if_neg hmain,h.fresh _ (Nat.le_refl _)]
  rfl

theorem finish_bodies_main (h : WellFormed m) (t : ℕ) :
    (finish c m t).bodies (m.size+1) = [.entrance t] := by
  have hdispatch : ¬ m.size+1 = m.size := by omega
  rw [finish_bodies,if_neg hdispatch,if_pos rfl,h.fresh _ (Nat.le_succ _)]
  rfl

/-- The dispatcher finds the module functions that the prototypes made. -/
theorem OwnPrototypes.dispatch_found (h : OwnPrototypes c m)
    (hdef : Defined c c.allFunctions m m') (hf : f ∈ c.allFunctions) :
    (withDispatch m').getFunction (c.name f) = some (target c m f) := by
  have hget : m'.getFunction (c.name f) = some (target c m f) := by
    rw [hdef.getFunction]
    exact h.found f hf
  exact getFunction_mono (extends_addGlobal m' _ _) (h.wellFormed_defined hdef) hget

theorem OwnPrototypes.target_dispatch (h : OwnPrototypes c m)
    (hdef : Defined c c.allFunctions m m') (hf : f ∈ c.allFunctions) :
    target c (withDispatch m') f = target c m f := by
  conv_lhs => rw [target,h.dispatch_found hdef hf]
  rfl

/-- Several results leave the call in the case of a function without a value. -/
theorem OwnPrototypes.dispatchable_iff (h : OwnPrototypes c m)
    (hdef : Defined c c.allFunctions m m') (hf : f ∈ c.allFunctions) :
    Dispatchable c (withDispatch m') f ↔ c.noReturns f ≤ 1 := by
  have hlt : target c m f < m'.size := by
    rw [hdef.size]
    exact h.bound f hf
  have hkind : (withDispatch m').kinds (target c (withDispatch m') f) = .function (isVoid c f) := by
    rw [h.target_dispatch hdef hf,withDispatch,(extends_addGlobal m' _ true).kinds _ hlt,hdef.kinds,
      h.kinds f hf]
  constructor
  · rintro ⟨_,hzero | hvalue⟩
    · omega
    · rw [hkind] at hvalue
      simp [isVoid] at hvalue
      omega
  · intro hone
    refine ⟨by rw [h.dispatch_found hdef hf]; exact Option.some_ne_none _,?_⟩
    rw [hkind]
    by_cases hzero : c.noReturns f = 0
    · exact Or.inl hzero
    · have hresult : c.noReturns f = 1 := by omega
      exact Or.inr (by simp [isVoid,hresult])

theorem lowerCall_of_plain (hbuiltin : startsWith name "builtin" = false)
    (hprophet : startsWith name "prophet" = false) (hunreserved : name ∉ reservedNames c) :
    lowerCall name = .ok .CALL := by
  have hne : ∀ other ∈ PROPHET_FUNCTIONS, name ≠ other := by
    rintro other hother rfl
    exact hunreserved (by simp [reservedNames,hother])
  simp [PROPHET_FUNCTIONS] at hne
  simp [lowerCall,hbuiltin,hprophet,hne]

theorem plain_of_lowerCall (h : lowerCall name = .ok .CALL) :
    startsWith name "builtin" = false ∧ startsWith name "prophet" = false := by
  rw [lowerCall] at h
  constructor
  · by_contra hbuiltin
    rw [if_pos (by simpa using hbuiltin)] at h
    split_ifs at h <;> cases h
  · by_contra hprophet
    split_ifs at h <;> first | (cases h; done) | (exact hprophet (by simpa using ‹¬ startsWith name "prophet" = true›))

theorem WellFormed.finish_symbols_injective (h : WellFormed m) {t : ℕ} {name' : String}
    (hname : (finish c m t).symbols name = some id)
    (hname' : (finish c m t).symbols name' = some id) : name = name' := by
  rw [finish_symbols] at hname hname'
  exact ((h.addGlobal _ _).addGlobal _ _).injective _ _ _ hname hname'

theorem OwnPrototypes.faithful (h : OwnPrototypes c m) (happart : NamesKeptApart c)
    (hdef : Defined c c.allFunctions m m') :
    Faithful c (finish c m' m'.size) (target c m) := by
  have hwf := h.wellFormed_defined hdef
  have hdispatch : m'.symbols "function_dispatch" = none := by
    rw [hdef.symbols]
    exact h.entry_free happart (by simp)
  have hmain : m'.symbols "main" = none := by
    rw [hdef.symbols]
    exact h.entry_free happart (by simp)
  refine ⟨?_,?_,happart.closed,?_,?_⟩
  · intro f hf
    rw [finish_bodies_of_lt (by rw [hdef.size]; exact h.bound f hf),hdef.bodies,h.ext.bodies,
      (library_wellFormed c).1.fresh _ (h.new f hf),h.bodiesAt_target hf]
    rfl
  · intro f hf name hname
    have hown : (finish c m' m'.size).symbols (c.name f) = some (target c m f) := by
      have hsymbol := symbols_of_getFunction (h.found f hf)
      rw [← hdef.symbols] at hsymbol
      exact finish_symbols_mono hsymbol _
    rw [hwf.finish_symbols_injective hname hown]
    exact lowerCall_of_plain (happart.plain f hf).1 (happart.plain f hf).2 (happart.unreserved f hf)
  · intro id hid
    have hsize := h.ext.size
    rw [finish_bodies_of_lt (by rw [hdef.size]; omega),hdef.bodies,h.ext.bodies,
      h.bodiesAt_eq_nil (Or.inl hid),List.append_nil]
  · refine ⟨m'.size+1,m'.size,_,finish_symbols_main hdispatch hmain _,
      finish_bodies_main hwf _,finish_bodies_dispatch hwf _,?_⟩
    intro f hf
    rw [switch_map hf (fun _ => rfl) fun k hk => happart.selectors k hk f hf,caseOf,
      h.target_dispatch hdef hf]

theorem identityPreserved_of_apart (h : NamesKeptApart c) : IdentityPreserved c := by
  rcases genPrototypes_own h.distinct h.unreserved with ⟨m1,hproto,hown⟩
  have hcalls : ∀ f ∈ c.allFunctions, ∀ k ∈ c.calls f, m1.getFunction (c.name k) ≠ none := by
    intro f hf k hk
    rw [hown.found k (h.closed f hf k hk)]
    exact Option.some_ne_none _
  rcases genDefinitions_ok hcalls with ⟨m2,hdefs⟩
  have hdef := genDefinitions_eq_ok hdefs
  have hdispatch : m2.symbols "function_dispatch" = none := by
    rw [hdef.symbols]
    exact hown.entry_free h (by simp)
  refine ⟨finish c m2 m2.size,target c m1,?_,hown.faithful h hdef⟩
  refine genIr_eq_ok.mpr ⟨m1,m2,m2.size,hproto,hdefs,?_,withMain_getFunction_dispatch hdispatch,rfl⟩
  exact fun f hf => (hown.dispatchable_iff hdef hf).mpr (h.results f hf)

/-! ### Names kept apart are needed -/

/-- The body of a contract function lies where its plain name leads. -/
theorem getFunction_of_body (hext : Extends (library c) m)
    (hdef : Defined c c.allFunctions m m') {t : ℕ} {callees : List ℕ}
    (h : (finish c m' t).bodies id = [.function f callees]) :
    m.getFunction (c.name f) = some id := by
  have hin : Body.function f callees ∈ (finish c m' t).bodies id := by
    rw [h]
    exact List.mem_singleton_self _
  rw [finish_bodies,hdef.bodies,hext.bodies] at hin
  rcases List.mem_append.mp hin with hold | hnew
  · rcases List.mem_append.mp hold with hlib | hbody
    · rcases (library_wellFormed c).2 id with hnil | hlibrary
      · rw [hnil] at hlib
        cases hlib
      · rw [hlibrary,List.mem_singleton] at hlib
        cases hlib
    · rw [bodiesAt,List.mem_map] at hbody
      rcases hbody with ⟨k,hk,heq⟩
      cases heq
      exact decide_eq_true_eq.mp (List.mem_filter.mp hk).2
  · rcases List.mem_append.mp hnew with hdispatch | hmain
    · split at hdispatch <;> simp at hdispatch
    · split at hmain <;> simp at hmain

/-- Only the entrance itself calls the dispatcher. -/
theorem target_of_entrance (hext : Extends (library c) m)
    (hdef : Defined c c.allFunctions m m') {t t' : ℕ}
    (h : (finish c m' t).bodies id = [.entrance t']) : t' = t := by
  have hin : Body.entrance t' ∈ (finish c m' t).bodies id := by
    rw [h]
    exact List.mem_singleton_self _
  rw [finish_bodies,hdef.bodies,hext.bodies] at hin
  rcases List.mem_append.mp hin with hold | hnew
  · rcases List.mem_append.mp hold with hlib | hbody
    · rcases (library_wellFormed c).2 id with hnil | hlibrary
      · rw [hnil] at hlib
        cases hlib
      · rw [hlibrary,List.mem_singleton] at hlib
        cases hlib
    · rw [bodiesAt,List.mem_map] at hbody
      rcases hbody with ⟨k,_,heq⟩
      cases heq
  · rcases List.mem_append.mp hnew with hdispatch | hmain
    · split at hdispatch <;> simp at hdispatch
    · split at hmain
      · simpa using hmain
      · simp at hmain

theorem WellFormed.defined (h : WellFormed m) (hdef : Defined c c.allFunctions m m')
    (hname : m.getFunction name = some id) : (withMain m').getFunction name = some id := by
  have hbound : ∀ name id, m'.symbols name = some id → id < m'.size := by
    rw [hdef.symbols,hdef.size]
    exact h.bound
  have hsymbol : m'.symbols name = some id := by
    rw [hdef.symbols]
    exact symbols_of_getFunction hname
  have hlt := hbound name id hsymbol
  have hkind : (m'.kinds id).isFunction = true := by
    rw [hdef.kinds]
    exact (Option.filter_eq_some_iff.mp hname).2
  refine Option.filter_eq_some_iff.mpr
    ⟨addGlobal_symbols_mono (addGlobal_symbols_mono hsymbol _ _) _ _,?_⟩
  rw [withMain,(extends_addGlobal (withDispatch m') "main" true).kinds id (Nat.lt_succ_of_lt hlt),
    withDispatch,(extends_addGlobal m' "function_dispatch" true).kinds id hlt,hkind]

/-- A name that the generator itself enters leads away from the body of a contract function: to a
library function, to the function that the entrance calls, or past the entrance. -/
theorem unreserved_of_faithful {m1 m2 : IrModule} {t : ℕ} {g : ℕ → ℕ} (hext : Extends (library c) m1)
    (hwf : WellFormed m1) (hdef : Defined c c.allFunctions m1 m2)
    (ht : (withMain m2).getFunction "function_dispatch" = some t)
    (hfaithful : Faithful c (finish c m2 t) g)
    (hfound : ∀ f ∈ c.allFunctions, m1.getFunction (c.name f) = some (g f))
    (hf : f ∈ c.allFunctions) : c.name f ∉ reservedNames c := by
  rcases hfaithful.entry with ⟨main,t',cases,hmain,hentrance,hcases,hswitch⟩
  have hown := hfaithful.own f hf
  have hsymbol := symbols_of_getFunction (hfound f hf)
  intro hin
  rcases List.mem_append.mp hin with hlib | hentry
  · have hne := (library_symbols c (c.name f)).mpr hlib
    cases hs : (library c).symbols (c.name f) with
    | none => exact hne hs
    | some i =>
      have hi : g f = i := by
        rw [hext.symbols _ _ hs] at hsymbol
        exact (Option.some.inj hsymbol).symm
      rw [hi,hfaithful.library i ((library_wellFormed c).1.bound _ _ hs)] at hown
      rcases (library_wellFormed c).2 i with hnil | hlibrary
      · rw [hnil] at hown
        cases hown
      · rw [hlibrary] at hown
        cases hown
  · rcases List.mem_cons.mp hentry with hname | hentry
    · have htarget : t = g f := by
        have hget := hfound f hf
        rw [hname] at hget
        rw [hwf.defined hdef hget] at ht
        exact (Option.some.inj ht).symm
      rw [htarget] at hown
      rw [target_of_entrance hext hdef hentrance,htarget,hown] at hcases
      cases hcases
    · have hmain' : (finish c m2 t).symbols "main" = some (g f) := by
        rw [List.mem_singleton.mp hentry,← hdef.symbols] at hsymbol
        exact finish_symbols_mono hsymbol t
      rw [hmain] at hmain'
      rw [Option.some.inj hmain',hown] at hentrance
      cases hentrance

theorem apart_of_identityPreserved (h : IdentityPreserved c) : NamesKeptApart c := by
  rcases h with ⟨_,g,hrun,hfaithful⟩
  rcases genIr_eq_ok.mp hrun with ⟨m1,m2,t,hproto,hdefs,hdispatch,ht,rfl⟩
  rcases genPrototypes_eq_ok hproto with ⟨hext,hwf,_⟩
  have hwf := hwf (library_wellFormed c).1
  have hdef := genDefinitions_eq_ok hdefs
  have hfound : ∀ f ∈ c.allFunctions, m1.getFunction (c.name f) = some (g f) :=
    fun f hf => getFunction_of_body hext hdef (hfaithful.own f hf)
  have hsame : ∀ f ∈ c.allFunctions, ∀ f' ∈ c.allFunctions, g f = g f' → f = f' := by
    intro f hf f' hf' heq
    have hbody := hfaithful.own f hf
    rw [heq,hfaithful.own f' hf'] at hbody
    cases hbody
    rfl
  have hdistinct : ∀ f ∈ c.allFunctions, ∀ f' ∈ c.allFunctions, c.name f = c.name f' → f = f' := by
    intro f hf f' hf' hname
    have hget := hfound f hf
    rw [hname,hfound f' hf'] at hget
    exact (hsame f' hf' f hf (Option.some.inj hget)).symm
  have hunreserved : ∀ f ∈ c.allFunctions, c.name f ∉ reservedNames c :=
    fun f hf => unreserved_of_faithful hext hwf hdef ht hfaithful hfound hf
  rcases genPrototypes_own hdistinct hunreserved with ⟨m,hproto',hown⟩
  rw [hproto] at hproto'
  cases hproto'
  refine ⟨hdistinct,hunreserved,?_,hfaithful.closed,?_,?_⟩
  · intro f hf
    have hsymbol : (finish c m2 t).symbols (c.name f) = some (g f) := by
      have hs := symbols_of_getFunction (hfound f hf)
      rw [← hdef.symbols] at hs
      exact finish_symbols_mono hs t
    exact plain_of_lowerCall (hfaithful.called f hf _ hsymbol)
  · intro f hf f' hf' hselector
    rcases hfaithful.entry with ⟨main,t',cases,_,_,_,hswitch⟩
    have hf1 := hswitch f hf
    rw [hselector,hswitch f' hf',Option.some.injEq,DispatchCase.mk.injEq] at hf1
    exact hf1.2.1.symm
  · exact fun f hf => (hown.dispatchable_iff hdef hf).mp (hdispatch f hf)

/-! ### Generated modules -/

theorem Faithful.congr {g g' : ℕ → ℕ} (h : Faithful c m g) (heq : ∀ f ∈ c.allFunctions, g' f = g f) :
    Faithful c m g' := by
  rcases h.entry with ⟨main,t,cases,hmain,hentrance,hcases,hswitch⟩
  refine ⟨?_,?_,h.closed,h.library,main,t,cases,hmain,hentrance,hcases,?_⟩
  · intro f hf
    rw [heq f hf,h.own f hf,List.map_congr_left fun k hk => heq k (h.closed f hf k hk)]
  · intro f hf
    rw [heq f hf]
    exact h.called f hf
  · intro f hf
    rw [heq f hf]
    exact hswitch f hf

/-- In the generated module the names lead to the functions, and the name of the dispatcher to the
function that dispatches each selector. -/
structure Found (c : Contract) (m : IrModule) : Prop where
  faithful : Faithful c m (target c m)
  dispatcher : ∃ t cases, m.getFunction "function_dispatch" = some t ∧ m.bodies t = [.dispatch cases] ∧
    ∀ f ∈ c.allFunctions, switch cases (c.selector f).toNat = some (caseOf c m f)

theorem found_of_apart (h : NamesKeptApart c) {u : Unit} (hrun : genIr c (library c) = .ok (u,m)) :
    Found c m := by
  rcases genIr_eq_ok.mp hrun with ⟨m1,m2,t,hproto,hdefs,-,ht,rfl⟩
  rcases genPrototypes_own h.distinct h.unreserved with ⟨m1',hproto',hown⟩
  rw [hproto] at hproto'
  cases hproto'
  have hdef := genDefinitions_eq_ok hdefs
  have hdispatch : m2.symbols "function_dispatch" = none := by
    rw [hdef.symbols]
    exact hown.entry_free h (by simp)
  have hsize : t = m2.size := by
    rw [withMain_getFunction_dispatch hdispatch] at ht
    exact (Option.some.inj ht).symm
  subst hsize
  have htarget : ∀ f ∈ c.allFunctions, target c (finish c m2 m2.size) f = target c m1 f := by
    intro f hf
    have hget : (finish c m2 m2.size).getFunction (c.name f) = some (target c m1 f) :=
      hown.wellFormed.defined hdef (hown.found f hf)
    conv_lhs => rw [target,hget]
    rfl
  refine ⟨(hown.faithful h hdef).congr htarget,m2.size,_,ht,
    finish_bodies_dispatch (hown.wellFormed_defined hdef) _,?_⟩
  intro f hf
  rw [switch_map hf (fun _ => rfl) fun k hk => h.selectors k hk f hf,caseOf,caseOf,
    hown.target_dispatch hdef hf,htarget f hf]

/-- The module of a contract whose generation succeeds. -/
def generated (c : Contract) : IrModule := match genIr c (library c) with
  | .ok (_,m) => m
  | .error _ => IrModule.empty

theorem genIr_generated (h : NamesKeptApart c) :
    genIr c (library c) = .ok ((),generated c) := by
  rcases identityPreserved_of_apart h with ⟨m,_,hrun,_⟩
  rw [generated,hrun]

/-- Two overloads of `get`, with selectors of their own. -/
def overloads : Contract where
  functions n := if n = 0 then ⟨"get","get()",1,[]⟩ else ⟨"get","get(u32)",1,[]⟩
  allFunctions := [0,1]
  nodup := by decide
  calledLibFunctions := []
  selectorHash s := if s = "get()" then 1 else 2

end Functions
end OlaLang
