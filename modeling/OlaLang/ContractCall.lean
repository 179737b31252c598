import OlaLang.DecodeSpec
import OlaLang.Functions

/-! Calls between contracts: the tape they share, the entrance and the dispatcher of the callee,
and the external calls of the caller. -/
namespace OlaLang
namespace ContractCall

open Exec (Returns bind_ok bind_apply returns_pure returns_bind pure_apply)
open Builder Corelib Encoding
open Functions (DispatchCase NamesKeptApart)

/-! ### The tape -/

/-- A running contract, with the tape; what was stored last is at its end. -/
structure Context where
  state : State
  tape : List Felt

abbrev TapeCode (α : Type) := Exec Context Fault α

/-- Code that does not touch the tape. -/
def offTape {α : Type} (c : Code α) : TapeCode α := fun w => match c w.state with
  | .ok (a,t) => .ok (a,{ w with state := t })
  | .error e => .error e

/-- Cells are filled from front to back. -/
def writeCells (s : State) (p : Pointer) : List Felt → State
  | [] => s
  | x::l => writeCells (s.write p (.int x)) (p.add 1) l

/-- `set_tape_data` puts the cells behind the tape. -/
def tapeDataStore (heapAddress : Pointer) (length : Felt) : TapeCode Unit :=
  Exec.modify fun w =>
    { w with tape := w.tape ++ Storage.hashInput w.state heapAddress length.val }

/-- `get_tape_data` loads the last `tapeIndex` cells, which stay on the tape. -/
def tapeDataLoad (heapAddress : Pointer) (tapeIndex : Felt) : TapeCode Unit := fun w =>
  if tapeIndex.val ≤ w.tape.length then
    .ok ((),⟨writeCells w.state heapAddress (w.tape.drop (w.tape.length - tapeIndex.val)),w.tape⟩)
  else .error .abort

/-! ### The callee -/

/-- Behind the selector are the addresses of the caller, of the callee and of the code. -/
def SELECTOR_INDEX : ℕ := 13

def contractInput : TapeCode (Felt × Felt × Pointer) := do
  let selectorIndex : Felt := (SELECTOR_INDEX : ℕ)
  let selectorStartPtr ← offTape (heapMalloc selectorIndex)
  tapeDataLoad selectorStartPtr selectorIndex
  let functionSelector ← offTape (buildLoadInt selectorStartPtr)
  let lengthIndex := selectorIndex + 1
  let lengthStartPtr ← offTape (heapMalloc lengthIndex)
  tapeDataLoad lengthStartPtr lengthIndex
  let inputLength ← offTape (buildLoadInt lengthStartPtr)
  let calldataIndex := inputLength.felt + lengthIndex
  let dataStartPtr ← offTape (heapMalloc calldataIndex)
  tapeDataLoad dataStartPtr calldataIndex
  pure (functionSelector.felt,inputLength.felt,dataStartPtr)

/-- A contract with its generated module: the types of its functions, which the analysis numbers, the
code of their bodies with the functions of the module that they call, and the code of the other
functions. Code may store to the tape and call other contracts. -/
structure Program where
  contract : Functions.Contract
  irModule : Functions.IrModule
  generated : Functions.genIr contract (Functions.library contract) = .ok ((),irModule)
  params : ℕ → List Ty
  returns : ℕ → List Ty
  results : ∀ functionNo, contract.noReturns functionNo = (returns functionNo).length
  body : ℕ → List ℕ → List Value → TapeCode (Option Value)
  library : ℕ → List Value → TapeCode (Option Value)

namespace Program

variable (prog : Program)

/-- The function of the module that the name of a function leads to. -/
def target (functionNo : ℕ) : ℕ := Functions.target prog.contract prog.irModule functionNo

/-- The body of a function, with calls of the functions that the analysis resolved. -/
def run (functionNo : ℕ) : List Value → TapeCode (Option Value) :=
  prog.body functionNo ((prog.contract.calls functionNo).map prog.target)

/-- A call of a function of the module runs its first body. -/
def callFunction (id : ℕ) (args : List Value) : TapeCode (Option Value) :=
  match prog.irModule.bodies id with
  | .function functionNo callees::_ => prog.body functionNo callees args
  | _ => prog.library id args

end Program

variable (host : Host) (prog : Program)

def dispatchArgs (params : List Ty) (input : Pointer) : TapeCode (List Value) :=
  if params.isEmpty then pure [] else offTape (abiDecode host params input)

/-- What the case of a function stores to the tape. Only one result is handed to the encoder. -/
def dispatchReturns : List Ty → Option Value → TapeCode Unit
  | [], _ => do
    let heapStartPtr ← offTape (heapMalloc 1)
    offTape (buildStore heapStartPtr (.const 0))
    tapeDataStore heapStartPtr 1
  | [ty], some ret => do
    let (heapStartPtr,heapSize) ← offTape (abiEncodeStoreTape host [(ty,ret)])
    tapeDataStore heapStartPtr heapSize
  | _, _ => Exec.fail .panic

/-- A case of the dispatcher, whose callee was found by the name of the function. -/
def dispatchCase (case : DispatchCase) (input : Pointer) : TapeCode Unit := do
  let args ← dispatchArgs host (prog.params case.functionNo) input
  let ret ← prog.callFunction case.callee args
  dispatchReturns host (prog.returns case.functionNo) ret

/-- The switch of `function_dispatch`; the default block is marked unreachable. -/
def functionDispatch (missingFunction : TapeCode Unit) (cases : List DispatchCase) (selector : Felt)
    (input : Pointer) : TapeCode Unit :=
  match Functions.switch cases selector.val with
  | some case => dispatchCase host prog case input
  | none => missingFunction

/-- A call of what the name of the dispatcher leads to. -/
def callDispatcher (missingFunction : TapeCode Unit) (target : ℕ) (selector inputLength : Felt)
    (input : Pointer) : TapeCode Unit := match prog.irModule.bodies target with
  | .dispatch cases::_ => functionDispatch host prog missingFunction cases selector input
  | _ => do
    let _ ← prog.callFunction target [.int selector,.int inputLength,.ptr input]

/-- `gen_contract_entrance`: `deploy` with an initializer, and `main` without one. -/
def contractEntrance (missingFunction : TapeCode Unit) (init : Option (TapeCode Unit)) :
    TapeCode Unit := do
  let (selector,inputLength,input) ← contractInput
  match init with
  | some initializer => initializer
  | none => pure ()
  match prog.irModule.getFunction "function_dispatch" with
  | some target => callDispatcher host prog missingFunction target selector inputLength input
  | none => Exec.fail .panic

/-! ### The caller -/

inductive CallTy
  | regular | delegate | static
  deriving DecidableEq

def CallTy.flag : CallTy → Felt
  | .regular => 0
  | .delegate => 1
  | .static => 2

variable (contractCall : Value → Felt → TapeCode Unit)

/-- The payload goes to the tape. What the callee returns is read between two copies of its
length. -/
def externalCall (args address : Value) (callType : CallTy) : TapeCode Pointer := do
  let payloadLen ← offTape (vectorLen args)
  let payloadPtr := Storage.vectorData args.pointer
  tapeDataStore payloadPtr payloadLen
  contractCall address callType.flag
  let lengthStartPtr ← offTape (heapMalloc 1)
  tapeDataLoad lengthStartPtr 1
  let returnLength ← offTape (buildLoadInt lengthStartPtr)
  let tapeSize := returnLength.felt + 1
  let heapSize := returnLength.felt + 2
  let heapStartPtr ← offTape (heapMalloc heapSize)
  offTape (buildStore heapStartPtr returnLength)
  let returnDataStart := heapStartPtr.add 1
  tapeDataLoad returnDataStart tapeSize
  pure heapStartPtr

/-- The payload of a call of a function. -/
def payload (functionNo : ℕ) (args : List Value) : TapeCode Pointer :=
  offTape (abiEncodeWithSelector host (.const ((prog.contract.selector functionNo).setWidth 64))
    ((prog.params functionNo).zip args))

/-- `ExternalFunctionCall`: a call through the type of the contract. `discard` says that the result
is not used. -/
def externalFunctionCall (functionNo : ℕ) (discard : Bool) (args : List Value) (address : Value) :
    TapeCode (List Value) := do
  let payload ← payload host prog functionNo args
  let returnData ← externalCall contractCall (.ptr payload) address .regular
  if !(prog.returns functionNo).isEmpty && !discard then
    offTape (abiDecode host (prog.returns functionNo) returnData)
  else pure []

/-- `ExternalFunctionCallRaw` with a payload of `abi.encodeWithSignature`, and `abi.decode` of its
result. -/
def rawCall (functionNo : ℕ) (callType : CallTy) (args : List Value) (address : Value) :
    TapeCode (List Value) := do
  let payload ← payload host prog functionNo args
  let data ← externalCall contractCall (.ptr payload) address callType
  offTape (abiDecode host (prog.returns functionNo) (Storage.vectorData data))

/-! ### Rules -/

section Rules

variable {α β : Type} {w : Context} {s t : State} {l : List Felt} {p : Pointer}

theorem offTape_ok {c : Code α} {a : α} (h : c w.state = .ok (a,t)) :
    offTape c w = .ok (a,⟨t,w.tape⟩) := by
  rw [offTape,h]

theorem returns_offTape {c : Code α} {Q : α → State → Prop} (h : Returns c w.state Q) :
    Returns (offTape c) w fun a w' => w'.tape = w.tape ∧ Q a w'.state := by
  obtain ⟨a,t,hrun,hq⟩ := h
  exact ⟨a,⟨t,w.tape⟩,offTape_ok hrun,rfl,hq⟩

theorem writeCells_filled (s : State) (b : ℕ) (l : List Felt) :
    Filled s (writeCells s (.heap b) l) b l := by
  induction l generalizing s b with
  | nil => exact Filled.nil s b
  | cons x l ih => exact (Filled.single s b (.int x)).append (ih (s.write (.heap b) (.int x)) (b+1))

/-- New cells at the end of the heap, and nothing else. -/
structure Appended (s t : State) (l : List Felt) : Prop where
  heap : t.heap = s.heap + l.length
  reads : State.Reads s t
  holds : Holds t.Old t (.heap s.heap) l

theorem appended_of_filled (h : Filled { s with heap := s.heap + l.length } t s.heap l) :
    Appended s t l := by
  have hheap : t.heap = s.heap + l.length := h.heap
  refine ⟨hheap,⟨⟨?_,h.stack,fun q hq => h.mem q ?_⟩,h.storage⟩,
    holds_iff.mpr fun i hi => ⟨?_,h.cells i hi⟩⟩
  · rw [hheap]
    exact Nat.le_add_right _ _
  · rintro i _ rfl
    exact absurd (show s.heap + i < s.heap from hq) (by omega)
  · show s.heap + i < t.heap
    omega

theorem hashInput_holds {P : Pointer → Prop} (h : Holds P s p l) :
    Storage.hashInput s p l.length = l := by
  refine List.ext_getElem (by simp [Storage.hashInput]) fun i hi hi' => ?_
  simpa [Storage.hashInput] using (holds_iff.mp h i hi').2

/-- The end of the tape is loaded. -/
theorem tapeDataLoad_ok {size : Felt} {head : List Felt} (hsize : size.val = l.length)
    (htape : w.tape = head ++ l) (p : Pointer) :
    tapeDataLoad p size w = .ok ((),⟨writeCells w.state p l,w.tape⟩) := by
  have hlen : w.tape.length - size.val = head.length := by
    rw [htape,List.length_append,hsize]
    omega
  rw [tapeDataLoad,if_pos (by rw [htape,List.length_append]; omega)]
  simp only [hlen]
  rw [htape,List.drop_left]

/-- The end of the tape is loaded to new cells. -/
theorem returns_load {size : Felt} {head : List Felt} (hsize : size.val = l.length)
    (htape : w.tape = head ++ l) {f : Pointer → TapeCode β} {Q : β → Context → Prop}
    (h : ∀ t, Appended w.state t l → Returns (f (.heap w.state.heap)) ⟨t,w.tape⟩ Q) :
    Returns (do
      let p ← offTape (heapMalloc size)
      tapeDataLoad p size
      f p) w Q := by
  let s0 : State := { w.state with heap := w.state.heap + l.length }
  have hmalloc : offTape (heapMalloc size) w = .ok (.heap w.state.heap,⟨s0,w.tape⟩) := by
    rw [offTape,heapMalloc,hsize]
  have hload := tapeDataLoad_ok (w := ⟨s0,w.tape⟩) hsize htape (.heap w.state.heap)
  obtain ⟨b,u,hrun,hq⟩ := h _ (appended_of_filled (writeCells_filled s0 _ l))
  refine ⟨b,u,?_,hq⟩
  rw [bind_ok hmalloc,bind_ok hload,hrun]

/-- Cells are stored behind the tape. -/
theorem tapeDataStore_ok {P : Pointer → Prop} (h : Holds P w.state p l)
    (hl : l.length < FIELD_ORDER) :
    tapeDataStore p (l.length : Felt) w = .ok ((),⟨w.state,w.tape ++ l⟩) := by
  rw [tapeDataStore,val_cast hl]
  simp [hashInput_holds h]

end Rules

/-! ### The encoders -/

section Encoders

variable {s t : State} {tys : List Ty} {vs : List Value} {items : List Val}

/-- The payload of a call: its length, the arguments, their size and the selector. -/
theorem abiEncodeWithSelector_appended (hgood : CodableAll tys items = true)
    (hr : RepAll s.Old s tys vs items) (hlen : (cellsOf items).length + 2 < FIELD_ORDER)
    (selector : Value) :
    Returns (abiEncodeWithSelector host selector (tys.zip vs)) s fun p t => p = .heap s.heap ∧
      Appended s t ((((cellsOf items).length + 2 : ℕ) : Felt) ::
        (cellsOf items ++ [((cellsOf items).length : Felt),selector.felt])) := by
  let n := (cellsOf items).length
  let s0 : State := { s with heap := s.heap + (n + 3) }
  let s1 := s0.write (.heap s.heap) (.int ((n + 2 : ℕ) : Felt))
  have hsize : ((n : Felt) + 2).val = n + 2 := by
    rw [← Nat.cast_ofNat (R := Felt) (n := 2),← Nat.cast_add,val_cast hlen]
  have hnew : vectorNew ((n : Felt) + 2) s = .ok (.heap s.heap,s1) := by
    rw [vectorNew,hsize]
    simp [s1,s0,Nat.add_assoc]
  have hfirst : Filled s0 s1 s.heap [((n + 2 : ℕ) : Felt)] := Filled.single s0 s.heap _
  have hold : ∀ q, s.Old q → q ≠ .heap s.heap := by
    rintro q hq rfl
    exact absurd (show s.heap < s.heap from hq) (by omega)
  have hagree : Agree s.Old s.Old s s1 :=
    ⟨fun _ hq => hq,fun q hq => State.write_mem_of_ne _ _ (hold q hq)⟩
  have hbelow : Below s.Old (s.heap + 1) := fun n hn => Nat.lt_succ_of_lt hn
  obtain ⟨p,t,hrun,rfl,ht⟩ := encodeArgs_rep host hgood (hr.mono hagree) hbelow
    (show n < FIELD_ORDER by omega)
  let last := (t.write (.heap (s.heap + 1 + n)) (.int (n : Felt))).write
    (.heap (s.heap + 1 + n + 1)) selector
  have hend : Filled t last (s.heap + 1 + n) [(n : Felt),selector.felt] :=
    (Filled.single t _ _).append (Filled.single _ _ selector)
  have hall : Filled s0 last s.heap
      (((n + 2 : ℕ) : Felt)::(cellsOf items ++ [(n : Felt),selector.felt])) :=
    hfirst.append (ht.append hend)
  refine ⟨.heap s.heap,last,?_,rfl,appended_of_filled ?_⟩
  · rw [abiEncodeWithSelector,bind_ok (calculateSizeArgs_rep host hgood hr)]
    rw [bind_ok hnew]
    exact bind_ok hrun
  · simpa [n,Nat.add_assoc] using hall

/-- What is left on the tape: the result and its size. -/
theorem abiEncodeStoreTape_appended (hgood : CodableAll tys items = true) (hne : tys ≠ [])
    (hr : RepAll s.Old s tys vs items) (hlen : (cellsOf items).length + 1 < FIELD_ORDER) :
    Returns (abiEncodeStoreTape host (tys.zip vs)) s fun r t =>
      r = (.heap s.heap,(((cellsOf items).length + 1 : ℕ) : Felt)) ∧
      Appended s t (cellsOf items ++ [((cellsOf items).length : Felt)]) := by
  let n := (cellsOf items).length
  let s0 : State := { s with heap := s.heap + (n + 1) }
  have hsize : ((n : Felt) + 1).val = n + 1 := by
    rw [← Nat.cast_one (R := Felt),← Nat.cast_add,val_cast hlen]
  have hnew : heapMalloc ((n : Felt) + 1) s = .ok (.heap s.heap,s0) := by
    rw [heapMalloc,hsize]
  have hagree : Agree s.Old s.Old s s0 := ⟨fun _ hq => hq,fun _ _ => rfl⟩
  have hbelow : Below s.Old s.heap := fun _ hn => hn
  obtain ⟨p,t,hrun,rfl,ht⟩ := encodeArgs_rep host hgood (hr.mono hagree) hbelow
    (show n < FIELD_ORDER by omega)
  let last := t.write (.heap (s.heap + n)) (.int (n : Felt))
  have hall : Filled s0 last s.heap (cellsOf items ++ [(n : Felt)]) :=
    ht.append (Filled.single t _ _)
  have hzip : (tys.zip vs).isEmpty = false := by
    cases tys with
    | nil => exact absurd rfl hne
    | cons ty tys =>
      cases vs with
      | nil => simp [RepAll] at hr
      | cons v vs => rfl
  refine ⟨(.heap s.heap,(n : Felt) + 1),last,?_,by simp [n],appended_of_filled ?_⟩
  · rw [abiEncodeStoreTape,hzip,if_neg (by simp),bind_ok (calculateSizeArgs_rep host hgood hr)]
    rw [bind_ok hnew,bind_ok hrun]
    rfl
  · simpa [n,s0] using hall

end Encoders

/-! ### The callee's side -/

section Callee

variable {host} {prog}
variable {c : Context} {f : ℕ} {vals : List Val}

/-- What the entrance reads from a tape that ends with a payload and the twelve address cells. -/
theorem contractInput_returns {head l addresses : List Felt} {selector : Felt}
    (htape : c.tape = head ++ (l ++ (l.length : Felt)::selector::addresses))
    (haddresses : addresses.length = 12) (hlen : l.length + 14 < FIELD_ORDER) :
    Returns contractInput c fun r d => r.1 = selector ∧ d.tape = c.tape ∧
      d.state.storage = c.state.storage ∧ Holds d.state.Old d.state r.2.2 l := by
  have h13 : ((SELECTOR_INDEX : ℕ) : Felt).val = (selector::addresses).length := by
    rw [List.length_cons,haddresses]
    rfl
  have h14 : ((SELECTOR_INDEX : ℕ) + 1 : Felt).val =
      ((l.length : Felt)::selector::addresses).length := by
    rw [List.length_cons,List.length_cons,haddresses]
    rfl
  have hall : ((l.length : Felt) + ((SELECTOR_INDEX : ℕ) + 1 : Felt)).val =
      (l ++ (l.length : Felt)::selector::addresses).length := by
    rw [← Nat.cast_succ,← Nat.cast_add,
      val_cast (show l.length + SELECTOR_INDEX.succ < FIELD_ORDER from hlen)]
    simp [haddresses,SELECTOR_INDEX]
  rw [contractInput]
  refine returns_load (l := selector::addresses) h13
    (by rw [htape,← List.append_assoc,List.append_cons]) fun s1 hs1 => ?_
  have hselector : offTape (buildLoadInt (.heap c.state.heap)) ⟨s1,c.tape⟩ =
      .ok (.int selector,⟨s1,c.tape⟩) := by
    rw [offTape,buildLoadInt_apply,hs1.holds.2.1]
  refine returns_bind ⟨_,_,hselector,?_⟩
  refine returns_load (w := ⟨s1,c.tape⟩) (l := (l.length : Felt)::selector::addresses) h14
    (by rw [htape,← List.append_assoc]) fun s2 hs2 => ?_
  have hlength : offTape (buildLoadInt (.heap s1.heap)) ⟨s2,c.tape⟩ =
      .ok (.int (l.length : Felt),⟨s2,c.tape⟩) := by
    rw [offTape,buildLoadInt_apply,hs2.holds.2.1]
  refine returns_bind ⟨_,_,hlength,?_⟩
  refine returns_load (w := ⟨s2,c.tape⟩) hall htape fun s3 hs3 => ?_
  refine returns_pure ⟨rfl,rfl,?_,?_⟩
  · exact hs3.reads.storage.trans (hs2.reads.storage.trans hs1.reads.storage)
  · exact (holds_append.mp hs3.holds).1

/-- The body of a function, called from outside on arguments `vals`: it returns results for which
`Q` holds, and which are encoded and decoded alike. It starts from the tape and the storage of `c`. -/
def Serves (prog : Program) (f : ℕ) (vals : List Val) (Q : List Val → Context → Prop) (c : Context) :
    Prop :=
  ∀ args d, d.tape = c.tape → d.state.storage = c.state.storage →
    RepAll d.state.Old d.state (prog.params f) args vals →
    Returns (prog.run f args) d fun ret e => ∃ outs,
      RepAll e.state.Old e.state (prog.returns f) ret.toList outs ∧
      CodableAll (prog.returns f) outs = true ∧ (cellsOf outs).length + 2 < FIELD_ORDER ∧ Q outs e

/-- What the caller finds: the results behind the tape of the body, then their size. -/
def Left (tys : List Ty) (Q : List Val → Context → Prop) (e : Context) : Prop :=
  ∃ outs d, Q outs d ∧ HasTypes tys outs ∧ CodableAll tys outs = true ∧ (cellsOf outs).length + 2 < FIELD_ORDER ∧
  e.tape = d.tape ++ (cellsOf outs ++ [((cellsOf outs).length : Felt)]) ∧
  e.state.storage = d.state.storage

theorem dispatchArgs_returns {tys : List Ty} (hgood : CodableAll tys vals = true)
    (hvals : HasTypes tys vals) (hlen : (cellsOf vals).length < FIELD_ORDER) {input : Pointer}
    (hinput : Holds c.state.Old c.state input (cellsOf vals)) :
    Returns (dispatchArgs host tys input) c fun args d => d.tape = c.tape ∧
      State.Reads c.state d.state ∧ RepAll d.state.Old d.state tys args vals := by
  cases tys with
  | nil =>
    cases vals with
    | nil => exact returns_pure ⟨rfl,State.Reads.refl _,by rw [RepAll]; trivial⟩
    | cons x xs => simp [HasTypes] at hvals
  | cons ty tys =>
    refine (returns_offTape (abiDecode_rep host hgood hvals hinput (fun _ hq => hq) hlen)).mono ?_
    rintro args d ⟨htape,hdecoded⟩
    refine ⟨htape,hdecoded.reads,hdecoded.rep.mono ⟨?_,fun _ _ => rfl⟩⟩
    rintro q (hq|⟨hq,-⟩)
    · exact hdecoded.reads.keeps.old hq
    · exact hq

/-- The results go behind the tape, with their size. -/
theorem dispatchReturns_returns {tys : List Ty} {ret : Option Value} {outs : List Val}
    (hgood : CodableAll tys outs = true) (hone : tys.length ≤ 1)
    (hret : RepAll c.state.Old c.state tys ret.toList outs)
    (hlen : (cellsOf outs).length + 2 < FIELD_ORDER) :
    Returns (dispatchReturns host tys ret) c fun _ d =>
      d.tape = c.tape ++ (cellsOf outs ++ [((cellsOf outs).length : Felt)]) ∧
      d.state.storage = c.state.storage := by
  cases tys with
  | nil =>
    have houts : outs = [] := by
      cases ret <;> cases outs <;> simp_all [RepAll]
    subst houts
    let s1 : State := { c.state with heap := c.state.heap + (1 : Felt).val }.write
      (.heap c.state.heap) (.const 0)
    have hcell : Holds (fun _ => True) s1 (.heap c.state.heap) [0] := by
      refine ⟨trivial,?_,trivial⟩
      simp [s1]
    refine ⟨(),⟨s1,c.tape ++ [0]⟩,?_,by simp [cellsOf],rfl⟩
    exact tapeDataStore_ok (w := ⟨s1,c.tape⟩) hcell (by decide)
  | cons ty tys =>
    cases tys with
    | cons ty' tys => simp at hone
    | nil =>
      cases ret with
      | none => simp [RepAll] at hret
      | some v =>
        obtain ⟨r,t,hrun,rfl,ht⟩ := abiEncodeStoreTape_appended host hgood (by simp) hret (by omega)
        have hstore := tapeDataStore_ok (w := ⟨t,c.tape⟩) ht.holds (by simp; omega)
        rw [List.length_append,List.length_singleton] at hstore
        have hencode : abiEncodeStoreTape host [(ty,v)] c.state = .ok (_,t) := hrun
        refine ⟨(),⟨t,_⟩,?_,rfl,ht.reads.storage⟩
        rw [dispatchReturns,bind_ok (offTape_ok hencode)]
        exact hstore

/-- The function of the module that the name leads to runs the body of the function. -/
theorem callFunction_target (hfound : Functions.Found prog.contract prog.irModule)
    (hmem : f ∈ prog.contract.allFunctions) (args : List Value) :
    prog.callFunction (prog.target f) args = prog.run f args := by
  rw [Program.callFunction,Program.target,hfound.faithful.own f hmem]
  rfl

theorem dispatchCase_returns {Q : List Val → Context → Prop}
    (hfound : Functions.Found prog.contract prog.irModule) (hmem : f ∈ prog.contract.allFunctions)
    (hone : (prog.returns f).length ≤ 1) (hgood : CodableAll (prog.params f) vals = true)
    (hvals : HasTypes (prog.params f) vals) (hlen : (cellsOf vals).length < FIELD_ORDER)
    (hbody : Serves prog f vals Q c) {d : Context} {input : Pointer} (htape : d.tape = c.tape)
    (hstorage : d.state.storage = c.state.storage)
    (hinput : Holds d.state.Old d.state input (cellsOf vals)) :
    Returns (dispatchCase host prog (Functions.caseOf prog.contract prog.irModule f) input) d
      fun _ e => Left (prog.returns f) Q e := by
  rw [dispatchCase]
  refine returns_bind ((dispatchArgs_returns hgood hvals hlen hinput).mono ?_)
  rintro args d' ⟨htape',hreads,hrep⟩
  have hcall : prog.callFunction (Functions.caseOf prog.contract prog.irModule f).callee args =
      prog.run f args := callFunction_target hfound hmem args
  rw [hcall]
  refine returns_bind ((hbody args d' (htape'.trans htape) (hreads.storage.trans hstorage) hrep).mono ?_)
  rintro ret e ⟨outs,hret,hcodable,hsize,hq⟩
  refine (dispatchReturns_returns hcodable hone hret hsize).mono ?_
  rintro _ e' ⟨htape,hstorage⟩
  exact ⟨outs,e,hq,hret.hasTypes,hcodable,hsize,htape,hstorage⟩

theorem selector_val (f : ℕ) :
    ((prog.contract.selector f).toNat : Felt).val = (prog.contract.selector f).toNat :=
  val_cast (lt_fieldOrder (prog.contract.selector f).isLt)

/-- From the entrance on: the function with the selector runs. -/
theorem dispatcher_returns (missingFunction : TapeCode Unit) {Q : List Val → Context → Prop}
    (hapart : NamesKeptApart prog.contract) (hmem : f ∈ prog.contract.allFunctions)
    (hgood : CodableAll (prog.params f) vals = true) (hvals : HasTypes (prog.params f) vals)
    (hlen : (cellsOf vals).length < FIELD_ORDER) (hbody : Serves prog f vals Q c) {d : Context}
    {inputLength : Felt} {input : Pointer} (htape : d.tape = c.tape)
    (hstorage : d.state.storage = c.state.storage)
    (hinput : Holds d.state.Old d.state input (cellsOf vals)) :
    Returns (match prog.irModule.getFunction "function_dispatch" with
      | some target => callDispatcher host prog missingFunction target
          ((prog.contract.selector f).toNat : Felt) inputLength input
      | none => Exec.fail .panic) d fun _ e => Left (prog.returns f) Q e := by
  have hfound := Functions.found_of_apart hapart prog.generated
  have hone : (prog.returns f).length ≤ 1 := by
    rw [← prog.results f]
    exact hapart.results f hmem
  obtain ⟨t,cases,ht,hcases,hswitch⟩ := hfound.dispatcher
  rw [ht]
  dsimp only
  rw [callDispatcher,hcases]
  dsimp only
  rw [functionDispatch,selector_val,hswitch f hmem]
  exact dispatchCase_returns hfound hmem hone hgood hvals hlen hbody htape hstorage hinput

/-- `main` of a contract, on a tape that ends with the payload of a call and the address cells. -/
theorem main_returns (missingFunction : TapeCode Unit) {Q : List Val → Context → Prop}
    (hapart : NamesKeptApart prog.contract) (hmem : f ∈ prog.contract.allFunctions)
    (hgood : CodableAll (prog.params f) vals = true) (hvals : HasTypes (prog.params f) vals)
    (hlen : (cellsOf vals).length + 14 < FIELD_ORDER) {head addresses : List Felt}
    (htape : c.tape = head ++ (cellsOf vals ++
      ((cellsOf vals).length : Felt)::((prog.contract.selector f).toNat : Felt)::addresses))
    (haddresses : addresses.length = 12) (hbody : Serves prog f vals Q c) :
    Returns (contractEntrance host prog missingFunction none) c
      fun _ e => Left (prog.returns f) Q e := by
  rw [contractEntrance]
  refine returns_bind ((contractInput_returns htape haddresses hlen).mono ?_)
  rintro ⟨selector,inputLength,input⟩ d ⟨rfl,htape',hstorage,hinput⟩
  refine returns_bind (returns_pure ?_)
  exact dispatcher_returns missingFunction hapart hmem hgood hvals (by omega) hbody htape' hstorage
    hinput

/-- `deploy` of a contract: the initializer runs between the read of the payload and the dispatch,
and the function gets the arguments from the memory the initializer leaves alone. -/
theorem deploy_serves (host : Host) (prog : Program) (missingFunction : TapeCode Unit)
    {Q : List Val → Context → Prop}
    (hapart : NamesKeptApart prog.contract) (hmem : f ∈ prog.contract.allFunctions)
    (hgood : CodableAll (prog.params f) vals = true) (hvals : HasTypes (prog.params f) vals)
    (hlen : (cellsOf vals).length + 14 < FIELD_ORDER) {head addresses : List Felt}
    (htape : c.tape = head ++ (cellsOf vals ++
      ((cellsOf vals).length : Felt)::((prog.contract.selector f).toNat : Felt)::addresses))
    (haddresses : addresses.length = 12) {initializer : TapeCode Unit} {Init : Context → Prop}
    (hinit : ∀ d, d.tape = c.tape → d.state.storage = c.state.storage →
      Returns initializer d fun _ e => State.Keeps d.state e.state ∧ Init e)
    (hbody : ∀ e, Init e → Serves prog f vals Q e) :
    Returns (contractEntrance host prog missingFunction (some initializer)) c
      fun _ e => Left (prog.returns f) Q e := by
  rw [contractEntrance]
  refine returns_bind ((contractInput_returns htape haddresses hlen).mono ?_)
  rintro ⟨selector,inputLength,input⟩ d ⟨rfl,htape',hstorage,hinput⟩
  refine returns_bind ((hinit d htape' hstorage).mono ?_)
  rintro _ e ⟨hkeeps,hinit⟩
  have hkept : Holds e.state.Old e.state input (cellsOf vals) :=
    hinput.mono ⟨fun _ hq => hkeeps.old hq,hkeeps.mem⟩
  exact dispatcher_returns missingFunction hapart hmem hgood hvals (by omega) (hbody e hinit) rfl rfl
    hkept

/-- A contract with a function that returns its argument. -/
def echoContract : Functions.Contract where
  functions _ := ⟨"echo","echo(u32)",1,[]⟩
  allFunctions := [0]
  nodup := by decide
  calledLibFunctions := []
  selectorHash _ := 7

theorem echoContract_apart : NamesKeptApart echoContract :=
  ⟨by decide,by decide,by decide,by decide,by decide,by decide⟩

def echo : Program where
  contract := echoContract
  irModule := Functions.generated echoContract
  generated := Functions.genIr_generated echoContract_apart
  params _ := [.uint32]
  returns _ := [.uint32]
  results _ := rfl
  body _ _ args := pure args.head?
  library _ _ := pure none

theorem echo_serves (x : Felt) (c : Context) :
    Serves echo 0 [.cell x] (fun outs _ => outs = [.cell x]) c := by
  intro args d _ _ hargs
  have hsize : (cellsOf [.cell x]).length + 2 < FIELD_ORDER := by
    simp [cellsOf,Val.cells,FIELD_ORDER]
  cases args with
  | nil => simp [echo,RepAll] at hargs
  | cons v vs =>
    cases vs with
    | cons v' vs => simp [echo,RepAll] at hargs
    | nil => exact returns_pure ⟨[.cell x],hargs,rfl,hsize,rfl⟩

/-- The payload of `echo(5)`. -/
def echoContext : Context where
  state := { nestedState with heap := 0 }
  tape := [5,1,((7 : BitVec 32).toNat : Felt)] ++ List.replicate 12 0

theorem echo_deployed : Returns (contractEntrance zeroHost echo (pure ()) (some (pure ())))
    echoContext fun _ e => Left [.uint32] (fun outs _ => outs = [.cell 5]) e := by
  have htape : echoContext.tape = [] ++ (cellsOf [.cell 5] ++ ((cellsOf [.cell 5]).length : Felt)::
      ((echo.contract.selector 0).toNat : Felt)::List.replicate 12 0) := by
    simp [echoContext,echo,echoContract,Functions.Contract.selector,cellsOf,Val.cells]
  have hinit : ∀ d : Context, d.tape = echoContext.tape →
      d.state.storage = echoContext.state.storage →
      Returns (pure () : TapeCode Unit) d fun _ e => State.Keeps d.state e.state ∧ True :=
    fun d _ _ => returns_pure ⟨State.Keeps.refl _,trivial⟩
  have hvals : HasTypes (echo.params 0) [.cell 5] := by simp [echo,HasTypes,HasType]
  exact deploy_serves zeroHost echo (pure ()) echoContract_apart (List.mem_singleton.mpr rfl) rfl
    hvals (by decide) htape rfl hinit fun e _ => echo_serves 5 e

end Callee

/-! ### The caller's side -/

section Caller

/-- What the emitted code relies on of the call instruction: the entrance of the callee runs with a
memory of its own on the tape of the caller, with twelve address cells behind it, and the caller
goes on with its memory and with the tape of the callee. -/
def Enters (main : TapeCode Unit) (address : Value) (callType : CallTy) : Prop :=
  ∀ w : Context, ∃ (s : State) (addresses : List Felt), addresses.length = 12 ∧
    ∀ e, main ⟨s,w.tape ++ addresses⟩ = .ok ((),e) → ∃ storage,
      contractCall address callType.flag w = .ok ((),⟨{ w.state with storage := storage },e.tape⟩)

variable {contractCall}
variable {w : Context} {main : TapeCode Unit} {address : Value} {callType : CallTy} {l : List Felt}
  {p : Pointer} {tys : List Ty} {Q : List Val → Context → Prop}

/-- The results lie between two copies of their size. -/
def Received (tys : List Ty) (Q : List Val → Context → Prop) (w : Context) (p : Pointer)
    (t : Context) : Prop := ∃ outs d, Q outs d ∧ HasTypes tys outs ∧ CodableAll tys outs = true ∧
  (cellsOf outs).length + 2 < FIELD_ORDER ∧ State.Keeps w.state t.state ∧ Holds t.state.Old t.state p
    (((cellsOf outs).length : Felt)::(cellsOf outs ++ [((cellsOf outs).length : Felt)]))

theorem externalCall_returns (henters : Enters contractCall main address callType)
    {P : Pointer → Prop} (hpayload : Holds P w.state p ((l.length : Felt)::l))
    (hlen : l.length < FIELD_ORDER)
    (hmain : ∀ s addresses, addresses.length = 12 →
      Returns main ⟨s,w.tape ++ l ++ addresses⟩ fun _ e => Left tys Q e) :
    Returns (externalCall contractCall (.ptr p) address callType) w (Received tys Q w) := by
  have hvector : offTape (vectorLen (.ptr p)) w = .ok ((l.length : Felt),w) := by
    rw [offTape,vectorLen_eq,hpayload.2.1]
  have hstore : tapeDataStore (Storage.vectorData p) (l.length : Felt) w =
      .ok ((),⟨w.state,w.tape ++ l⟩) := tapeDataStore_ok hpayload.2.2 hlen
  obtain ⟨s,addresses,haddresses,hcall⟩ := henters ⟨w.state,w.tape ++ l⟩
  obtain ⟨_,e,hrun,outs,d,hq,htypes,hcodable,hsize,htape,_⟩ := hmain s addresses haddresses
  obtain ⟨storage,hcall⟩ := hcall e hrun
  let n := (cellsOf outs).length
  let s0 : State := { w.state with storage := storage }
  have htwo : ((n : Felt) + 2).val = n + 2 := by
    rw [← Nat.cast_ofNat (R := Felt) (n := 2),← Nat.cast_add,val_cast hsize]
  have hone : ((n : Felt) + 1).val = (cellsOf outs ++ [(n : Felt)]).length := by
    rw [← Nat.cast_succ,val_cast (show n.succ < FIELD_ORDER by omega)]
    simp [n]
  rw [externalCall]
  refine returns_bind ⟨_,_,hvector,returns_bind ⟨_,_,hstore,returns_bind ⟨_,_,hcall,?_⟩⟩⟩
  refine returns_load (w := ⟨s0,e.tape⟩) (l := [(n : Felt)]) (show (1 : Felt).val = 1 from rfl)
    (htape.trans (List.append_assoc _ _ _).symm) fun s1 hs1 => ?_
  have hlength : offTape (buildLoadInt (.heap w.state.heap)) ⟨s1,e.tape⟩ =
      .ok (.int (n : Felt),⟨s1,e.tape⟩) := by
    rw [offTape,buildLoadInt_apply,hs1.holds.2.1]
  let s2 : State := { s1 with heap := s1.heap + (n + 2) }
  have hmalloc : offTape (heapMalloc ((n : Felt) + 2)) ⟨s1,e.tape⟩ =
      .ok (.heap s1.heap,⟨s2,e.tape⟩) := by
    rw [offTape,heapMalloc,htwo]
  let s3 := s2.write (.heap s1.heap) (.int (n : Felt))
  have hload := tapeDataLoad_ok (w := ⟨s3,e.tape⟩) hone htape ((Pointer.heap s1.heap).add 1)
  have hall : Filled s2 (writeCells s3 (.heap (s1.heap + 1)) (cellsOf outs ++ [(n : Felt)])) s1.heap
      ((n : Felt)::(cellsOf outs ++ [(n : Felt)])) :=
    (Filled.single s2 s1.heap (.int (n : Felt))).append (writeCells_filled s3 (s1.heap + 1) _)
  have hs4 : Appended s1 (writeCells s3 (.heap (s1.heap + 1)) (cellsOf outs ++ [(n : Felt)]))
      ((n : Felt)::(cellsOf outs ++ [(n : Felt)])) :=
    appended_of_filled (by simpa [s2,n] using hall)
  have hkeeps : State.Keeps w.state s0 := ⟨Nat.le_refl _,rfl,fun _ _ => rfl⟩
  refine returns_bind ⟨_,_,hlength,returns_bind ⟨_,_,hmalloc,?_⟩⟩
  refine returns_bind ⟨(),⟨s3,e.tape⟩,rfl,returns_bind ⟨_,_,hload,returns_pure ?_⟩⟩
  exact ⟨outs,d,hq,htypes,hcodable,hsize,(hkeeps.trans hs1.reads.keeps).trans hs4.reads.keeps,hs4.holds⟩

variable {f : ℕ} {missingFunction : TapeCode Unit} {vals : List Val} {args : List Value}

/-- The payload is encoded, the callee decodes it, and its results come back. -/
theorem call_returns (hapart : NamesKeptApart prog.contract) (hmem : f ∈ prog.contract.allFunctions)
    (hgood : CodableAll (prog.params f) vals = true)
    (henters : Enters contractCall (contractEntrance host prog missingFunction none) address callType)
    (hargs : RepAll w.state.Old w.state (prog.params f) args vals)
    (hlen : (cellsOf vals).length + 14 < FIELD_ORDER) (hbody : ∀ c, Serves prog f vals Q c) :
    Returns (do
      let payload ← payload host prog f args
      externalCall contractCall (.ptr payload) address callType) w
        (Received (prog.returns f) Q w) := by
  obtain ⟨p,t,hencode,rfl,ht⟩ := abiEncodeWithSelector_appended host hgood hargs (by omega)
    (.const ((prog.contract.selector f).setWidth 64))
  let n := (cellsOf vals).length
  let l := cellsOf vals ++ [(n : Felt),((prog.contract.selector f).toNat : Felt)]
  have hselector : (Value.const ((prog.contract.selector f).setWidth 64)).felt =
      ((prog.contract.selector f).toNat : Felt) := by
    rw [Value.felt_const,BitVec.toNat_setWidth,Nat.mod_eq_of_lt (by omega)]
  have hl : l.length = n + 2 := by simp [l,n]
  have hpayload : Holds t.Old t (.heap w.state.heap) ((l.length : Felt)::l) := by
    rw [hl]
    simpa only [l,n,hselector] using ht.holds
  have htypes : HasTypes (prog.params f) vals := hargs.hasTypes
  refine returns_bind ⟨_,_,offTape_ok hencode,?_⟩
  have hmain : ∀ s addresses, addresses.length = 12 →
      Returns (contractEntrance host prog missingFunction none) ⟨s,w.tape ++ l ++ addresses⟩
        fun _ e => Left (prog.returns f) Q e := by
    intro s addresses haddresses
    have htape : w.tape ++ l ++ addresses =
        w.tape ++ (cellsOf vals ++ (n : Felt)::((prog.contract.selector f).toNat : Felt)::addresses) := by
      simp [l]
    exact main_returns missingFunction hapart hmem hgood htypes hlen htape haddresses (hbody _)
  refine (externalCall_returns (w := ⟨t,w.tape⟩) henters hpayload (by omega) hmain).mono ?_
  rintro p u ⟨outs,d,hq,htypes,hcodable,hsize,hkeeps,hholds⟩
  exact ⟨outs,d,hq,htypes,hcodable,hsize,ht.reads.keeps.trans hkeeps,hholds⟩

/-- A call with an encoded payload, whose result is decoded: the caller gets what the body of the
function returned for the arguments the caller passed, and keeps its memory. -/
theorem rawCall_agrees (hapart : NamesKeptApart prog.contract)
    (hmem : f ∈ prog.contract.allFunctions) (hgood : CodableAll (prog.params f) vals = true)
    (henters : Enters contractCall (contractEntrance host prog missingFunction none) address callType)
    (hargs : RepAll w.state.Old w.state (prog.params f) args vals)
    (hlen : (cellsOf vals).length + 14 < FIELD_ORDER) (hbody : ∀ c, Serves prog f vals Q c) :
    Returns (rawCall host prog contractCall f callType args address) w fun results t => ∃ outs d,
      Q outs d ∧ RepAll t.state.Old t.state (prog.returns f) results outs ∧
      State.Keeps w.state t.state := by
  obtain ⟨p,u,hrun,outs,d,hq,htypes,hcodable,hsize,hkeeps,hholds⟩ :=
    call_returns host prog hapart hmem hgood henters hargs hlen hbody
  have hcells : Holds u.state.Old u.state (Storage.vectorData p) (cellsOf outs) :=
    (holds_append.mp hholds.2.2).1
  obtain ⟨results,t,hdecode,hdecoded⟩ :=
    abiDecode_rep host hcodable htypes hcells (fun _ hq => hq) (by omega)
  refine ⟨results,⟨t,u.tape⟩,?_,outs,d,hq,hdecoded.rep.mono ⟨?_,fun _ _ => rfl⟩,
    hkeeps.trans hdecoded.reads.keeps⟩
  · obtain ⟨payload,w',hencode,hcall⟩ := Exec.bind_eq_ok.mp hrun
    rw [rawCall,bind_ok hencode,bind_ok hcall]
    exact offTape_ok hdecode
  · rintro q (hq|⟨hq,-⟩)
    · exact hdecoded.reads.keeps.old hq
    · exact hq

/-- A call through the type of a contract decodes from the size in front of the results: a result
of one cell is always one. -/
theorem externalFunctionCall_one (hapart : NamesKeptApart prog.contract)
    (hmem : f ∈ prog.contract.allFunctions) (hgood : CodableAll (prog.params f) vals = true) {ty : Ty}
    (hreturns : prog.returns f = [ty]) (hcell : ty.isOneCell = true)
    (henters : Enters contractCall (contractEntrance host prog missingFunction none) address .regular)
    (hargs : RepAll w.state.Old w.state (prog.params f) args vals)
    (hlen : (cellsOf vals).length + 14 < FIELD_ORDER) (hbody : ∀ c, Serves prog f vals Q c) :
    Returns (externalFunctionCall host prog contractCall f false args address) w fun results t =>
      results = [.int 1] ∧ State.Keeps w.state t.state := by
  obtain ⟨p,u,hrun,outs,d,hq,htypes,hcodable,hsize,hkeeps,hholds⟩ :=
    call_returns host prog hapart hmem hgood henters hargs hlen hbody
  rw [hreturns] at htypes
  have hone : (cellsOf outs).length = 1 := by
    cases outs with
    | nil => simp [HasTypes] at htypes
    | cons x xs =>
      cases xs with
      | cons y ys => simp [HasTypes] at htypes
      | nil =>
        rw [HasTypes] at htypes
        obtain ⟨c,rfl⟩ := (hasType_isOneCell hcell).mp htypes.1
        rfl
  have hfirst : u.state.cell p = 1 := by
    rw [hholds.2.1,hone,Nat.cast_one]
  obtain ⟨payload,w',hencode,hcall⟩ := Exec.bind_eq_ok.mp hrun
  refine ⟨[.int 1],u,?_,rfl,hkeeps⟩
  rw [externalFunctionCall,bind_ok hencode,bind_ok hcall,hreturns]
  have hdecode : abiDecode host [ty] p u.state = .ok ([.int 1],u.state) := by
    rw [abiDecode,bind_ok (read_oneCell host hcell p u.state),hfirst]
    rfl
  exact offTape_ok hdecode

/-- The call instruction between contracts with the same code: the addresses are zero, and the
storage of the caller is another one. -/
def callOf (main : TapeCode Unit) : Value → Felt → TapeCode Unit := fun _ _ w =>
  match main ⟨{ nestedState with heap := 0 },w.tape ++ List.replicate 12 0⟩ with
  | .ok (_,e) => .ok ((),⟨w.state,e.tape⟩)
  | .error fault => .error fault

theorem callOf_enters (main : TapeCode Unit) (address : Value) (callType : CallTy) :
    Enters (callOf main) main address callType := by
  intro w
  refine ⟨{ nestedState with heap := 0 },List.replicate 12 0,rfl,fun e he => ⟨w.state.storage,?_⟩⟩
  rw [callOf,he]

theorem five_rep (s : State) : RepAll s.Old s (echo.params 0) [.int 5] [.cell 5] := by
  simp [echo,RepAll,Encoding.Rep,Value.isPointer]

/-- `echo` is called with five, and five comes back. -/
theorem echo_agrees : Returns (rawCall zeroHost echo
    (callOf (contractEntrance zeroHost echo (pure ()) none)) 0 .regular [.int 5] (.int 0))
    echoContext fun results t => ∃ (outs : List Val) (_ : Context), outs = [.cell 5] ∧
      RepAll t.state.Old t.state [.uint32] results outs ∧
      State.Keeps echoContext.state t.state :=
  rawCall_agrees zeroHost echo echoContract_apart (List.mem_singleton.mpr rfl) rfl
    (callOf_enters _ _ _) (five_rep _) (by decide) (echo_serves 5)

/-- Through the type of the contract, one comes back. -/
theorem echo_typed : Returns (externalFunctionCall zeroHost echo
    (callOf (contractEntrance zeroHost echo (pure ()) none)) 0 false [.int 5] (.int 0))
    echoContext fun results t => results = [.int 1] ∧ State.Keeps echoContext.state t.state :=
  externalFunctionCall_one zeroHost echo echoContract_apart (List.mem_singleton.mpr rfl) rfl rfl rfl
    (callOf_enters _ _ _) (five_rep _) (by decide) (echo_serves 5)

end Caller

end ContractCall
end OlaLang
