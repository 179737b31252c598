import OlaLang.Corelib
import OlaLang.Types

/-! The code generators of contract storage: slots, loads, stores, deletes and the array methods.
A slot operand is an integer (the number of a contract variable) or a pointer to four cells.
Generators that rebind their slot operand return the new operand. -/
namespace OlaLang
namespace Storage

open Builder Corelib

variable (host : Host)

/-! ### Host calls -/

def getStorage (key value : Pointer) : Code Unit :=
  Exec.modify fun s => s.writeWord value (s.storage (s.word key))

def setStorage (key value : Pointer) : Code Unit :=
  Exec.modify fun s => s.setStorage (s.word key) (s.word value)

/-- The cells handed to the hash function. -/
def hashInput (s : State) (src : Pointer) (len : ℕ) : List Felt :=
  (List.range len).map fun i => s.cell (src.add i)

/-- `Binary::poseidon_hash`: one source is hashed in place, several are first copied together. -/
def poseidonHash (hashSrc : List (Pointer × Felt)) : Code Pointer := do
  let (heapSrcPtr,srcLen) ← match hashSrc with
    | [src] => pure src
    | srcs => do
      let srcLen := (srcs.map Prod.snd).sum
      let heapSrcPtr ← heapMalloc srcLen
      let _ ← srcs.foldlM (fun (dest : Pointer) (v,len) => do
        memcpy v dest len
        pure (dest.add len.val)) heapSrcPtr
      pure (heapSrcPtr,srcLen)
  let returnHeapPtr ← heapMalloc 4
  Exec.modify fun s =>
    s.writeWord returnHeapPtr (host.poseidon (hashInput s heapSrcPtr srcLen.val))
  pure returnHeapPtr

/-! ### Slots -/

def uintToSlot (value : Value) : Code Pointer := do
  let heapPtr ← heapMalloc 4
  Exec.modify fun s => s.writeWord heapPtr (Word.ofFelt value.felt)
  pure heapPtr

/-- An integer operand is spread over four fresh cells, a pointer is used as it is. -/
def slotPointer : Value → Code Pointer
  | .ptr p => pure p
  | v => uintToSlot v

def storageLoadInternal (key : Value) : Code Pointer := do
  let storageValuePtr ← heapMalloc 4
  let storageKey ← slotPointer key
  getStorage storageKey storageValuePtr
  pure storageValuePtr

def storageClearInternal (key : Value) : Code Unit := do
  let storageKey ← slotPointer key
  let storageValuePtr ← heapMalloc 4
  Exec.modify fun s => s.writeWord storageValuePtr Word.zero
  setStorage storageKey storageValuePtr

def storageStoreInternal (key value : Value) : Code Unit := do
  let storageKey ← slotPointer key
  let storageValue ← slotPointer value
  setStorage storageKey storageValue

def slotHash (slot : Value) : Code Value := do
  let slotValue ← slotPointer slot
  let hash ← poseidonHash host [(slotValue,4)]
  pure (.ptr hash)

/-- A pointer slot is advanced in place, an integer slot by a new operand. -/
def slotOffest (slot : Value) (offset : Felt) : Code Value := match slot with
  | .ptr p => do
    Exec.modify fun s => s.write (p.add 3) (.int (s.cell (p.add 3) + offset))
    pure (.ptr p)
  | v => pure (.int (v.felt + offset))

/-- The value of a one-cell slot stands in its last cell. -/
def storageLoadCell (slot : Value) : Code Felt := do
  let loaded ← storageLoadInternal slot
  let value ← buildLoadInt (loaded.add 3)
  pure value.felt

def arrayOffset (start : Value) (index : Felt) (elemTy : Ty) : Code Value := do
  let hashRet ← slotHash host start
  slotOffest hashRet (index * (elemTy.storageSlots : ℕ))

/-! ### Loops -/

/-- `emit_static_loop_with_int`: the condition is checked after the body, and the caller's
operand is not rebound when the loop is done. -/
def emitStaticLoopWithInt (start stop : ℕ) (dataRef : Value) (body : ℕ → Value → Code Value) :
    Code Unit := do
  let _ ← Exec.loop body (max 1 (stop - start)) start dataRef.stored

/-- `emit_loop_cond_first_with_int`: the condition is checked before the body. -/
def emitLoopCondFirstWithInt (start stop : ℕ) (dataRef : Value) (body : ℕ → Value → Code Value) :
    Code Unit := do
  let _ ← Exec.loop body (stop - start) start dataRef.stored

/-! ### Strings and fields -/

def vectorData (p : Pointer) : Pointer := p.add 1

def getStorageDynamicBytes (slot : Value) : Code Value := do
  let length ← storageLoadCell slot
  let dest ← vectorNew length
  let elemSlot ← slotHash host slot
  emitLoopCondFirstWithInt 0 length.val elemSlot fun elemNo slot => do
    let entry ← storageLoadCell slot
    let slot ← slotOffest slot 1
    buildStore ((vectorData dest).add elemNo) (.int entry)
    pure slot
  pure (.ptr dest)

def setStorageDynamicBytes (slot dest : Value) : Code Unit := do
  let previousLength ← storageLoadCell slot
  let len ← buildLoadInt dest.pointer
  storageStoreInternal slot len
  let elemSlot ← slotHash host slot
  emitLoopCondFirstWithInt 0 len.felt.val elemSlot fun elemNo slot => do
    let elem ← buildLoadInt ((vectorData dest.pointer).add elemNo)
    storageStoreInternal slot elem
    slotOffest slot 1
  emitLoopCondFirstWithInt len.felt.val previousLength.val elemSlot fun _ slot => do
    storageClearInternal slot
    slotOffest slot 1

/-! ### Loads -/

/-- The array case of `storage_load`, outermost dimension first. A fixed dimension loads its rows
at the type of a row, a dynamic dimension loads its entries at the base element type. -/
def storageLoadArray (loadElem : Value → Code (Value × Value)) (elemTy : Ty) :
    List ArrayLength → Value → Code (Value × Value)
  | [], slot => loadElem slot
  | .fixed d::rest, slot => do
    let arraySize := (Ty.arrayDeref (.array elemTy (.fixed d::rest).reverse)).memorySizeOf
    let newArray ← heapMalloc (arraySize : ℕ)
    emitStaticLoopWithInt 0 d slot fun index slot => do
      let (val,slot) ← storageLoadArray loadElem elemTy rest slot
      buildStore (newArray.add (index * Ty.llvmStride elemTy rest.reverse)) val
      pure slot
    pure (.ptr newArray,slot)
  | .dynamic::_, slot => do
    let length ← storageLoadCell slot
    let dest ← vectorNew length
    let elemSlot ← slotHash host slot
    emitLoopCondFirstWithInt 0 length.val elemSlot fun elemNo slot => do
      let (entry,slot) ← loadElem slot
      buildStore ((vectorData dest).add elemNo) entry
      pure slot
    pure (.ptr dest,slot)

mutual
def storageLoad : Ty → Value → Code (Value × Value)
  | .ref ty, slot => storageLoad ty slot
  | .array elemTy dims, slot =>
    storageLoadArray host (storageLoad elemTy) elemTy dims.reverse slot
  | .struct fields, slot => do
    let structAlloca ← heapMalloc ((Ty.struct fields).memorySizeOf : ℕ)
    let slot ← storageLoadFields fields structAlloca 0 slot
    pure (.ptr structAlloca,slot)
  | .string, slot | .dynamicBytes, slot => do
    let ret ← getStorageDynamicBytes host slot
    let slot ← slotOffest slot 1
    pure (ret,slot)
  | .address, slot | .contract, slot | .hash, slot => do
    let ret ← storageLoadInternal slot
    let slot ← slotOffest slot 1
    pure (.ptr ret,slot)
  | .uint32, slot | .bool, slot | .enum, slot | .field, slot => do
    let ret ← storageLoadCell slot
    let slot ← slotOffest slot 1
    pure (.int ret,slot)
  | .mapping _ _, _ | .storageRef _, _ | .void, _ => Exec.fail .panic

/-- The members of a struct: `offset` is where `build_struct_gep` puts the next one. -/
def storageLoadFields : List Ty → Pointer → ℕ → Value → Code Value
  | [], _, _, slot => pure slot
  | ty::rest, structAlloca, offset, slot => do
    let (val,slot) ← storageLoad ty slot
    buildStore (structAlloca.add offset) val
    storageLoadFields rest structAlloca (offset + ty.llvmFieldSize) slot
end

/-! ### Deletes -/

/-- The step to the next element, taken when the element walk does not move the slot itself. -/
def advance (ty : Ty) (slot : Value) : Code Value :=
  if ty.isReferenceType then pure slot else slotOffest slot (ty.storageSlots : ℕ)

/-- The step to the next member of a struct. -/
def advanceField (ty : Ty) (slot : Value) : Code Value := match ty with
  | .string => slotOffest slot (ty.storageSlots : ℕ)
  | ty => advance ty slot

/-- The array case of `storage_delete`, outermost dimension first. -/
def storageDeleteArray (deleteElem : Value → Code Value) (elemTy : Ty) :
    List ArrayLength → Value → Code Value
  | [], slot => deleteElem slot
  | .fixed d::rest, slot => do
    emitStaticLoopWithInt 0 d slot fun _ slot => do
      let slot ← storageDeleteArray deleteElem elemTy rest slot
      advance (Ty.arrayDeref (.array elemTy (.fixed d::rest).reverse)) slot
    pure slot
  | .dynamic::rest, slot => do
    let length ← storageLoadCell slot
    let elemSlot ← slotHash host slot
    emitLoopCondFirstWithInt 0 length.val elemSlot fun _ slot => do
      let slot ← storageDeleteArray deleteElem elemTy rest slot
      advance (Ty.arrayDeref (.array elemTy (.dynamic::rest).reverse)) slot
    storageClearInternal slot
    pure slot

mutual
def storageDelete : Ty → Value → Code Value
  | .ref ty, slot | .storageRef ty, slot => storageDelete ty slot
  | .array elemTy dims, slot =>
    storageDeleteArray host (storageDelete elemTy) elemTy dims.reverse slot
  | .struct fields, slot => storageDeleteFields fields slot
  | .mapping _ _, slot => pure slot
  | .string, slot | .dynamicBytes, slot | .address, slot | .contract, slot | .hash, slot
  | .uint32, slot | .bool, slot | .enum, slot | .field, slot | .void, slot => do
    storageClearInternal slot
    pure slot

def storageDeleteFields : List Ty → Value → Code Value
  | [], slot => pure slot
  | ty::rest, slot => do
    let slot ← storageDelete ty slot
    let slot ← advanceField ty slot
    storageDeleteFields rest slot
end

/-! ### Stores -/

/-- The operand handed on for an element: strings and dynamic arrays are read from their cell,
every other element is handed on by its address. -/
def loadElement (elemTy : Ty) (elem : Pointer) : Code Value :=
  if elemTy.isReferenceType && !elemTy.derefMemory.isFixedReferenceType then buildLoadPtr elem
  else pure (.ptr elem)

/-- A store walks a struct without a step behind its last member. -/
def advanceUnlessLast (last : Bool) (ty : Ty) (slot : Value) : Code Value :=
  if last then pure slot else advanceField ty slot

/-- A scalar that is handed on by its address is loaded first. -/
def scalarOperand : Value → Code Value
  | .ptr p => buildLoadInt p
  | v => pure v

/-- The load of a struct member at its type. -/
def loadMember (ty : Ty) (cell : Pointer) : Code Value := match ty with
  | .uint32 | .bool | .enum | .field => buildLoadInt cell
  | _ => buildLoadPtr cell

mutual
def storageStore : Ty → Value → Value → Code Value
  | .ref ty, slot, dest | .storageRef ty, slot, dest => storageStore ty slot dest
  | .array elemTy dims, slot, dest => match dims.getLast? with
    | some (.fixed d) => do
      emitStaticLoopWithInt 0 d slot fun index slot => do
        let elem ← loadElement elemTy
          (dest.pointer.add (index * Ty.llvmStride elemTy dims.dropLast))
        let slot ← storageStore elemTy slot elem
        advance elemTy slot
      pure slot
    | _ => do
      let previousLength ← storageLoadCell slot
      let len ← buildLoadInt dest.pointer
      storageStoreInternal slot len
      let elemSlot ← slotHash host slot
      emitLoopCondFirstWithInt 0 len.felt.val elemSlot fun elemNo slot => do
        let elem ← loadElement elemTy ((vectorData dest.pointer).add elemNo)
        let slot ← storageStore elemTy slot elem
        advance elemTy slot
      -- the trailing elements of a longer previous array are cleared
      emitLoopCondFirstWithInt len.felt.val previousLength.val elemSlot fun _ slot => do
        let slot ← storageDelete host elemTy slot
        advance elemTy slot
      pure slot
  | .struct fields, slot, dest => storageStoreFields fields 0 slot dest
  | .string, slot, dest | .dynamicBytes, slot, dest => do
    setStorageDynamicBytes host slot dest
    pure slot
  | .address, slot, dest | .contract, slot, dest | .hash, slot, dest => do
    storageStoreInternal slot dest
    pure slot
  | .uint32, slot, dest | .bool, slot, dest | .enum, slot, dest | .field, slot, dest => do
    let dest ← scalarOperand dest
    storageStoreInternal slot dest
    pure slot
  | .mapping _ _, _, _ | .void, _, _ => Exec.fail .panic

/-- The members of a struct. The slot is advanced between members only, after a member that is
no reference type and after a string. -/
def storageStoreFields : List Ty → ℕ → Value → Value → Code Value
  | [], _, slot, _ => pure slot
  | ty::rest, offset, slot, dest => do
    let cell := dest.pointer.add offset
    let elem ← loadMember ty cell
    let slot ← storageStore ty slot elem
    let slot ← advanceUnlessLast rest.isEmpty ty slot
    storageStoreFields rest (offset + ty.llvmFieldSize) slot dest
end

/-! ### Methods of dynamic arrays -/

/-- The first half of `storage_array_push`: the length and the slot behind the last element. -/
def pushPosition (arrayTy : Ty) (arraySlot : Value) : Code (Felt × Value) := do
  let arrayLength ← storageLoadCell arraySlot
  let pushPos ← arrayOffset host arraySlot arrayLength arrayTy.storageArrayElem
  pure (arrayLength,pushPos)

/-- The second half of `storage_array_push`, after the value was evaluated. -/
def pushStore (arrayTy : Ty) (arraySlot : Value) (arrayLength : Felt) (pushPos : Value)
    (values : List Value) : Code Unit := do
  match values with
  | [] => pure ()
  | value::_ => do let _ ← storageStore host arrayTy.storageArrayElem pushPos value
  let newLength := arrayLength + 1
  storageStoreInternal arraySlot (.int newLength)

/-- `storage_array_push` on the evaluated slot and the evaluated arguments. -/
def storageArrayPush (arrayTy : Ty) (arraySlot : Value) (values : List Value) : Code Value := do
  let (arrayLength,pushPos) ← pushPosition host arrayTy arraySlot
  pushStore host arrayTy arraySlot arrayLength pushPos values
  pure pushPos

/-- `storage_array_pop` on the evaluated slot. -/
def storageArrayPop (arrayTy : Ty) (arraySlot : Value) : Code Value := do
  let arrayLength ← storageLoadCell arraySlot
  let elemTy := arrayTy.storageArrayElem
  let popPos ← arrayOffset host arraySlot arrayLength elemTy
  let elemTy := elemTy.derefAny
  let (ret,popPos) ← storageLoad host elemTy popPos
  let _ ← storageDelete host elemTy popPos
  let newLength := arrayLength - 1
  storageStoreInternal arraySlot (.int newLength)
  pure ret

end Storage
end OlaLang
