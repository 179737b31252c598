import OlaLang.Goldilocks
import OlaLang.Exec

/-! The machine the emitted code runs on, and the builder operations the generators use.
A generator is modelled by the run of the code it emits: an operand of the builder carries the
value its instruction has when it is executed, together with what the generator itself inspects
of it (whether it is a constant, an integer or a pointer). -/
namespace OlaLang

/-- A failing check stops the program, a generator that refuses its input emits no program,
and a loop may run forever. -/
inductive Fault
  | abort | panic | diverge
  deriving DecidableEq

/-- Four cells: storage keys and values, hashes and addresses. -/
structure Word where
  c0 : Felt
  c1 : Felt
  c2 : Felt
  c3 : Felt
  deriving DecidableEq

namespace Word

def zero : Word := ⟨0,0,0,0⟩

/-- The key of an integer slot, as `uint_to_slot` lays it out. -/
def ofFelt (v : Felt) : Word := ⟨0,0,0,v⟩

/-- The key `i` slots further on: only the last cell moves. -/
def offset (k : Word) (i : Felt) : Word := { k with c3 := k.c3 + i }

@[simp] theorem offset_zero (k : Word) : k.offset 0 = k := by simp [offset]
@[simp] theorem offset_offset (k : Word) (i j : Felt) : (k.offset i).offset j = k.offset (i+j) := by
  simp [offset,add_assoc]
@[simp] theorem offset_ofFelt (v i : Felt) : (ofFelt v).offset i = ofFelt (v+i) := rfl

theorem offset_inj {k : Word} {i j : Felt} : k.offset i = k.offset j ↔ i = j := by
  simp [offset]

def toList (k : Word) : List Felt := [k.c0,k.c1,k.c2,k.c3]

end Word

/-- Stack cells are the low addresses, heap cells count up from `HEAP_ADDRESS_START`. -/
inductive Pointer
  | stack (n : ℕ) | heap (n : ℕ)
  deriving DecidableEq

def HEAP_ADDRESS_START : ℕ := FIELD_ORDER - 2*(2^32-1)

namespace Pointer

def null : Pointer := .stack 0

def add : Pointer → ℕ → Pointer
  | .stack n, i => .stack (n+i)
  | .heap n, i => .heap (n+i)

@[simp] theorem add_stack (n i : ℕ) : (stack n).add i = stack (n+i) := rfl
@[simp] theorem add_heap (n i : ℕ) : (heap n).add i = heap (n+i) := rfl
@[simp] theorem add_zero (p : Pointer) : p.add 0 = p := by cases p <;> rfl

def address : Pointer → Felt
  | .stack n => n
  | .heap n => (HEAP_ADDRESS_START + n : ℕ)

def ofAddress (v : Felt) : Pointer :=
  if v.val < HEAP_ADDRESS_START then .stack v.val else .heap (v.val - HEAP_ADDRESS_START)

end Pointer

/-- An operand: a 64-bit constant of the generated text, an integer register or a pointer. -/
inductive Value
  | const (w : BitVec 64) | int (v : Felt) | ptr (p : Pointer)
  deriving DecidableEq

namespace Value

/-- The field element an operand denotes; a pointer read as an integer is its address. -/
def felt : Value → Felt
  | .const w => (w.toNat : Felt)
  | .int v => v
  | .ptr p => p.address

def pointer : Value → Pointer
  | .ptr p => p
  | v => Pointer.ofAddress v.felt

@[simp] theorem felt_int (v : Felt) : (int v).felt = v := rfl
@[simp] theorem felt_const (w : BitVec 64) : (const w).felt = (w.toNat : Felt) := rfl
@[simp] theorem pointer_ptr (p : Pointer) : (ptr p).pointer = p := rfl

def isPointer : Value → Bool
  | .ptr _ => true
  | _ => false

def isConst : Value → Bool
  | .const _ => true
  | _ => false

/-- What a cell holds after a store: constants become plain field elements. -/
def stored : Value → Value
  | .const w => .int (w.toNat : Felt)
  | v => v

@[simp] theorem stored_int (v : Felt) : (int v).stored = int v := rfl
@[simp] theorem stored_ptr (p : Pointer) : (ptr p).stored = ptr p := rfl
@[simp] theorem felt_stored (v : Value) : v.stored.felt = v.felt := by cases v <;> rfl

end Value

structure State where
  mem : Pointer → Value
  heap : ℕ
  stack : ℕ
  storage : Word → Word

/-- The functions of the virtual machine: the hash and the prophets. -/
structure Host where
  poseidon : List Felt → Word
  prophetU32Sqrt : Felt → Felt
  prophetU32Div : Felt → Felt → Felt
  prophetU32Mod : Felt → Felt → Felt
  prophetSplitFieldHigh : Felt → Felt
  prophetSplitFieldLow : Felt → Felt

abbrev Code (α : Type) := Exec State Fault α

namespace State

def write (s : State) (p : Pointer) (v : Value) : State :=
  { s with mem := Function.update s.mem p v.stored }

def setStorage (s : State) (k v : Word) : State :=
  { s with storage := Function.update s.storage k v }

/-- The field element a cell holds. -/
def cell (s : State) (p : Pointer) : Felt := (s.mem p).felt

/-- The four cells behind a pointer, read as field elements. -/
def word (s : State) (p : Pointer) : Word :=
  ⟨s.cell p,s.cell (p.add 1),s.cell (p.add 2),s.cell (p.add 3)⟩

/-- Four cells are filled from front to back. -/
def writeWord (s : State) (p : Pointer) (w : Word) : State :=
  (((s.write p (.int w.c0)).write (p.add 1) (.int w.c1)).write (p.add 2) (.int w.c2)).write
    (p.add 3) (.int w.c3)

@[simp] theorem write_heap (s : State) (p : Pointer) (v : Value) : (s.write p v).heap = s.heap := rfl
@[simp] theorem write_stack (s : State) (p : Pointer) (v : Value) :
    (s.write p v).stack = s.stack := rfl
@[simp] theorem write_storage (s : State) (p : Pointer) (v : Value) :
    (s.write p v).storage = s.storage := rfl
@[simp] theorem write_mem_self (s : State) (p : Pointer) (v : Value) :
    (s.write p v).mem p = v.stored := by simp [write]
theorem write_mem_of_ne (s : State) {p q : Pointer} (v : Value) (h : q ≠ p) :
    (s.write p v).mem q = s.mem q := by simp [write,h]
@[simp] theorem write_cell_self (s : State) (p : Pointer) (v : Value) :
    (s.write p v).cell p = v.felt := by simp [cell]
theorem write_cell_of_ne (s : State) {p q : Pointer} (v : Value) (h : q ≠ p) :
    (s.write p v).cell q = s.cell q := by rw [cell,write_mem_of_ne s v h,cell]
@[simp] theorem setStorage_mem (s : State) (k v : Word) : (s.setStorage k v).mem = s.mem := rfl
@[simp] theorem setStorage_heap (s : State) (k v : Word) : (s.setStorage k v).heap = s.heap := rfl
@[simp] theorem setStorage_stack (s : State) (k v : Word) :
    (s.setStorage k v).stack = s.stack := rfl
@[simp] theorem setStorage_self (s : State) (k v : Word) :
    (s.setStorage k v).storage k = v := by simp [setStorage]

end State

namespace Builder

/-- `into_int_value`: the generator stops when it is handed a pointer. -/
def intoIntValue : Value → Code Value
  | .ptr _ => Exec.fail .panic
  | v => pure v

/-- `into_pointer_value`: the generator stops when it is handed an integer. -/
def intoPointerValue : Value → Code Pointer
  | .ptr p => pure p
  | _ => Exec.fail .panic

/-- An integer instruction: two constants are folded by the builder on 64-bit words,
otherwise the machine computes in the field. -/
def buildInt (fold : BitVec 64 → BitVec 64 → BitVec 64) (op : Felt → Felt → Felt) (l r : Value) :
    Code Value := do
  let l ← intoIntValue l
  let r ← intoIntValue r
  match l, r with
  | .const a, .const b => pure (.const (fold a b))
  | l, r => pure (.int (op l.felt r.felt))

def buildIntAdd : Value → Value → Code Value := buildInt (·+·) (·+·)
def buildIntSub : Value → Value → Code Value := buildInt (·-·) (·-·)
def buildIntMul : Value → Value → Code Value := buildInt (·*·) (·*·)
def buildAnd : Value → Value → Code Value := buildInt (·&&&·) fun a b => (a.val &&& b.val : ℕ)
def buildOr : Value → Value → Code Value := buildInt (·|||·) fun a b => (a.val ||| b.val : ℕ)
def buildXor : Value → Value → Code Value := buildInt (·^^^·) fun a b => (a.val ^^^ b.val : ℕ)

/-- A fresh cell of the frame. -/
def buildAlloca : Code Pointer := fun s => .ok (.stack s.stack,{ s with stack := s.stack+1 })

def buildStore (p : Pointer) (v : Value) : Code Unit := Exec.modify fun s => s.write p v

/-- A load at an integer type. -/
def buildLoadInt (p : Pointer) : Code Value := fun s => .ok (.int (s.cell p),s)

/-- A load at a pointer type. -/
def buildLoadPtr (p : Pointer) : Code Value := fun s => .ok (.ptr (s.mem p).pointer,s)

/-- An immediate of the assembly text is printed as an unsigned word, which the printer
asserts to be below the all-ones word. -/
def printImmediate : Value → Code Unit
  | .const w => if w = BitVec.allOnes 64 then Exec.fail .panic else pure ()
  | _ => pure ()

def builtinRangeCheck (v : Value) : Code Unit := do
  printImmediate v
  if Felt.IsU32 v.felt then pure () else Exec.fail .abort

def builtinAssert (b : Bool) : Code Unit := if b then pure () else Exec.fail .abort

@[simp] theorem buildAlloca_apply (s : State) :
    buildAlloca s = .ok (.stack s.stack,{ s with stack := s.stack+1 }) := rfl
@[simp] theorem buildStore_apply (p : Pointer) (v : Value) (s : State) :
    buildStore p v s = .ok ((),s.write p v) := rfl
@[simp] theorem buildLoadInt_apply (p : Pointer) (s : State) :
    buildLoadInt p s = .ok (.int (s.cell p),s) := rfl
@[simp] theorem buildLoadPtr_apply (p : Pointer) (s : State) :
    buildLoadPtr p s = .ok (.ptr (s.mem p).pointer,s) := rfl
@[simp] theorem printImmediate_int (v : Felt) : printImmediate (.int v) = pure () := rfl

theorem builtinRangeCheck_int_eq_ok {v : Felt} {u : Unit} {s t : State} :
    builtinRangeCheck (.int v) s = .ok (u,t) ↔ Felt.IsU32 v ∧ t = s := by
  by_cases h : Felt.IsU32 v
  · simp [builtinRangeCheck,Exec.bind_apply,h,eq_comm]
  · simp [builtinRangeCheck,Exec.bind_apply,h]

theorem builtinAssert_eq_ok {b : Bool} {u : Unit} {s t : State} :
    builtinAssert b s = .ok (u,t) ↔ b = true ∧ t = s := by
  cases b <;> simp [builtinAssert,eq_comm]

end Builder
end OlaLang
