import OlaLang.Expression

/-! The generators of the ABI encoder and decoder: the size of the arguments, the encoder that
writes them into a buffer, and the decoder that reads them back. Loop indices and the cells of the
offsets, which only these generators touch, are threaded through the loops. -/
namespace OlaLang
namespace Encoding

open Builder Corelib

variable (host : Host)

/-! ### Types -/

def isPrimitive : Ty → Bool
  | .bool | .uint32 | .field => true
  | .ref r | .storageRef r => isPrimitive r
  | _ => false

mutual

def isDynamic : Ty → Bool
  | .string | .dynamicBytes => true
  | .ref r | .storageRef r => isDynamic r
  | .array elemTy dims => dims.contains .dynamic || isDynamic elemTy
  | .struct fields => anyDynamic fields
  | _ => false

def anyDynamic : List Ty → Bool
  | [] => false
  | ty::rest => isDynamic ty || anyDynamic rest

end

/-- Whether the cells of a value are its encoding. -/
def allowMemcpy : Ty → Bool
  | .array elemTy dims =>
    if isDynamic (.array elemTy dims) then dims.length = 1 && allowMemcpy elemTy
    else allowMemcpy elemTy
  | ty => isPrimitive ty

mutual

/-- `calculate_struct_non_padded_size`: only primitive members have a size before the run. -/
def nonPaddedSize : List Ty → Option ℕ
  | [] => some 0
  | ty::rest => do
    let size ← nonPaddedFieldSize ty
    let restSize ← nonPaddedSize rest
    pure (size + restSize)

def nonPaddedFieldSize : Ty → Option ℕ
  | .struct fields => nonPaddedSize fields
  | ty => if isPrimitive ty then some ty.memorySizeOf else none

end

/-- The outermost dimension alone may be dynamic. -/
def directAssessment (dims : List ArrayLength) : Bool :=
  dims.count .dynamic = 0 || dims.count .dynamic = 1 && dims.getLast? = some .dynamic

/-! ### Arrays -/

def vectorLen (vector : Value) : Code Felt := do
  let p ← intoPointerValue vector
  let length ← buildLoadInt p
  pure length.felt

/-- `index_array`: one subscript for each index, from dimension `i` inwards; the row or element is
loaded at each. The last place is what the generator returns when it coerces to a pointer. -/
def indexArray (elemTy : Ty) (dims : List ArrayLength) :
    ℕ → List ℕ → Value × Ty × Value → Code (Value × Ty × Value)
  | _, [], r => pure r
  | i, index::indexes, (arr,ty,_) => do
    let localTy := if i = 0 then elemTy else .array elemTy (dims.take i)
    let place ← arraySubscript host ty arr (.int index) .uint32
    let p ← intoPointerValue place
    let arr ← buildLoad localTy p
    indexArray elemTy dims (i-1) indexes (arr,localTy,place)

/-- The length that `set_array_loop` compares the index with, in each round. -/
def arrayBound (elemTy : Ty) (dims : List ArrayLength) (dimension : ℕ) (arr : Value) (ty : Ty)
    (indexes : List ℕ) : Code Felt := match dims[dimension]? with
  | some (.fixed d) => pure (d : Felt)
  | some .dynamic => do
    let (sub,_,_) ← indexArray host elemTy dims (dims.length-1) indexes (arr,ty,arr)
    vectorLen sub
  | none => Exec.fail .panic

/-- `set_array_loop` and `finish_array_loop`. The bound is computed again in each round; the index
stays below it, so that the order of the field bounds the rounds. -/
def arrayLoop {δ : Type} (bound : Code Felt) (body : ℕ → δ → Code δ) : ℕ → ℕ → δ → Code δ
  | 0, _, _ => Exec.fail .diverge
  | fuel+1, index, d => do
    let n ← bound
    if index < n.val then do
      let d ← body index d
      arrayLoop bound body fuel (index+1) d
    else pure d

/-! ### Sizes -/

/-- An argument that is missing when it is needed stops the generator. -/
def unwrap : Option Value → Code Value
  | some v => pure v
  | none => Exec.fail .panic

/-- `calculate_complex_array_size`, from dimension `dimension` inwards. -/
def calculateComplexArraySize (elemSize : Option Value → Code Felt) (elemTy : Ty)
    (dims : List ArrayLength) (array : Value) : ℕ → List ℕ → Felt → Code Felt
  | 0, indexes, size =>
    let arrayTy := Ty.array elemTy dims
    let size := if dims[0]? = some .dynamic then size + 1 else size
    arrayLoop (arrayBound host elemTy dims 0 array arrayTy indexes) (fun index size => do
      let (deref,_,_) ← indexArray host elemTy dims (dims.length-1) (indexes ++ [index])
        (array,arrayTy,array)
      let elem ← elemSize (some deref)
      pure (size + elem)) FIELD_ORDER 0 size
  | dimension+1, indexes, size =>
    let arrayTy := Ty.array elemTy dims
    let size := if dims[dimension+1]? = some .dynamic then size + 1 else size
    arrayLoop (arrayBound host elemTy dims (dimension+1) array arrayTy indexes) (fun index size =>
      calculateComplexArraySize elemSize elemTy dims array dimension (indexes ++ [index]) size)
      FIELD_ORDER 0 size

/-- The size of an element, when it does not depend on the values. -/
def primitiveSize (elemTy : Ty) (dims : List ArrayLength) : Option ℕ :=
  if isPrimitive elemTy && directAssessment dims then some elemTy.memorySizeOf
  else match elemTy with
    | .struct fields => if directAssessment dims then nonPaddedSize fields else none
    | _ => none

def calculateArraySize (elemSize : Option Value → Code Felt) (elemTy : Ty)
    (dims : List ArrayLength) (array : Value) : Code Felt :=
  match primitiveSize elemTy dims with
  | some typeSize => do
    let inner : Felt := (Ty.dimsSize dims.dropLast : ℕ)
    match dims.getLast? with
    | some (.fixed d) => pure ((d : Felt) * inner * (typeSize : Felt))
    | some .dynamic => do
      let length ← vectorLen array
      pure (length * inner * (typeSize : Felt) + 1)
    | none => Exec.fail .panic
  | none => calculateComplexArraySize host elemSize elemTy dims array (dims.length-1) [] 0

/-- A load at `llvm_type`. An array of fixed size is loaded as a whole: its value is no pointer. -/
def buildLoadType (ty : Ty) (p : Pointer) : Code Value := match ty with
  | .array _ dims => if dims.getLast? = some .dynamic then buildLoadPtr p else buildLoadInt p
  | ty => buildLoad ty p

mutual

def getArgsTypeSize : Ty → Option Value → Code Felt
  | .uint32, _ | .bool, _ | .enum, _ | .field, _ => pure 1
  | .contract, _ | .address, _ | .hash, _ => pure 4
  | .struct fields, arg => do
    let arg ← unwrap arg
    let p ← intoPointerValue arg
    calculateStructSize fields false p 0
  | .array elemTy dims, arg => do
    let arg ← unwrap arg
    calculateArraySize host (getArgsTypeSize elemTy) elemTy dims arg
  | .string, arg | .dynamicBytes, arg => do
    let arg ← unwrap arg
    let length ← vectorLen arg
    pure (length + 1)
  | .ref (.struct fields), arg => do
    let arg ← unwrap arg
    let p ← intoPointerValue arg
    calculateStructSize fields true p 0
  | .ref r, arg => do
    let arg ← unwrap arg
    let p ← intoPointerValue arg
    let loaded ← buildLoadType r p
    getArgsTypeSize r (some loaded)
  | .storageRef r, arg => do
    let arg ← unwrap arg
    let (loaded,_) ← Storage.storageLoad host r arg
    getArgsTypeSize r (some loaded)
  | .void, _ | .mapping _ _, _ => Exec.fail .panic

/-- The members are addressed at the type of the argument, which is no struct type when the argument
is a reference. -/
def calculateStructSize : List Ty → Bool → Pointer → ℕ → Code Felt
  | [], _, _, _ => pure 0
  | ty::rest, isRef, p, offset => do
    let field ← if ty.isReferenceType then
        if isRef then Exec.fail .panic
        else do
          let field ← buildLoad ty (p.add offset)
          pure (some field)
      else pure none
    let exprSize ← getArgsTypeSize ty field
    let structSize ← calculateStructSize rest isRef p (offset + ty.llvmFieldSize)
    pure (exprSize + structSize)

end

/-- `calculate_size_args`. -/
def calculateSizeArgs : List (Ty × Value) → Code Felt
  | [] => pure 0
  | (ty,arg)::args => do
    let size ← getArgsTypeSize host ty (some arg)
    let additional ← calculateSizeArgs args
    pure (size + additional)

/-! ### Encoding -/

/-- Four cells are copied one by one. -/
def encodeAddressOrHash (buffer : Pointer) (address : Value) : Code Unit := do
  let p ← intoPointerValue address
  let _ ← Exec.loop (fun i (_ : Unit) => do
    let source ← buildLoadInt (p.add i)
    buildStore (buffer.add i) source) 4 0 ()

def encodeBytes (buffer : Pointer) (stringValue : Value) : Code Felt := do
  let length ← vectorLen stringValue
  memcpy stringValue.pointer buffer (length + 1)
  pure (length + 1)

/-- The length of a dynamic dimension goes in front of its elements. The type of the array becomes
that of the row. -/
def encodeLength (elemTy : Ty) (dims : List ArrayLength) (buffer : Pointer) (array : Value)
    (dimension : ℕ) (arrayTy : Ty) (indexes : List ℕ) (offset : Felt) : Code (Ty × Felt) :=
  if dims[dimension]? = some .dynamic then do
    let (sub,arrayTy,_) ← indexArray host elemTy dims (dims.length-1) indexes (array,arrayTy,array)
    let size ← vectorLen sub
    buildStore (buffer.add offset.val) (.int size)
    pure (arrayTy,offset + 1)
  else pure (arrayTy,offset)

/-- `encode_complex_array`, from dimension `dimension` inwards. -/
def encodeComplexArray (encodeElem : Pointer → Value → Code Felt) (elemTy : Ty)
    (dims : List ArrayLength) (buffer : Pointer) (array : Value) :
    ℕ → Ty → List ℕ → Felt → Code Felt
  | 0, arrayTy, indexes, offset => do
    let (arrayTy,offset) ← encodeLength host elemTy dims buffer array 0 arrayTy indexes offset
    arrayLoop (arrayBound host elemTy dims 0 array arrayTy indexes) (fun index offset => do
      let (deref,_,_) ← indexArray host elemTy dims (dims.length-1) (indexes ++ [index])
        (array,arrayTy,array)
      let elemSize ← encodeElem (buffer.add offset.val) deref
      pure (offset + elemSize)) FIELD_ORDER 0 offset
  | dimension+1, arrayTy, indexes, offset => do
    let (arrayTy,offset) ←
      encodeLength host elemTy dims buffer array (dimension+1) arrayTy indexes offset
    arrayLoop (arrayBound host elemTy dims (dimension+1) array arrayTy indexes)
      (fun index offset => encodeComplexArray encodeElem elemTy dims buffer array dimension arrayTy
        (indexes ++ [index]) offset) FIELD_ORDER 0 offset

def encodeArray (encodeElem : Pointer → Value → Code Felt) (elemTy : Ty) (dims : List ArrayLength)
    (buffer : Pointer) (array : Value) : Code Felt :=
  if allowMemcpy (.array elemTy dims) then match dims.getLast? with
    | some (.fixed _) => do
      let p ← intoPointerValue array
      let size : Felt := (Ty.dimsSize dims * elemTy.memorySizeOf : ℕ)
      memcpy p buffer size
      pure size
    | _ => do
      let length ← vectorLen array
      let copySize := length * (elemTy.memorySizeOf : ℕ) + 1
      memcpy array.pointer buffer copySize
      pure copySize
  else encodeComplexArray host encodeElem elemTy dims buffer array (dims.length-1)
    (.array elemTy dims) [] 0

mutual

/-- `encode_into_buffer`, with how far the buffer moves on. -/
def encodeIntoBuffer : Ty → Pointer → Value → Code Felt
  | .contract, buffer, arg | .address, buffer, arg | .hash, buffer, arg => do
    encodeAddressOrHash buffer arg
    pure 4
  | .bool, buffer, arg | .uint32, buffer, arg | .enum, buffer, arg | .field, buffer, arg => do
    buildStore buffer arg
    pure 1
  | .string, buffer, arg | .dynamicBytes, buffer, arg => encodeBytes buffer arg
  | .struct fields, buffer, arg => do
    let p ← intoPointerValue arg
    encodeStruct fields p 0 buffer
  | .array elemTy dims, buffer, arg =>
    encodeArray host (encodeIntoBuffer elemTy) elemTy dims buffer arg
  | .ref (.struct fields), buffer, arg => do
    let p ← intoPointerValue arg
    encodeStruct fields p 0 buffer
  | .ref r, buffer, arg => do
    let p ← intoPointerValue arg
    let loaded ← buildLoad r p
    encodeIntoBuffer r buffer loaded
  | .storageRef r, buffer, arg => do
    let (loaded,_) ← Storage.storageLoad host r arg
    encodeIntoBuffer r buffer loaded
  | .void, _, _ | .mapping _ _, _, _ => Exec.fail .panic

/-- The members from `offset` on: each goes behind the one before. -/
def encodeStruct : List Ty → Pointer → ℕ → Pointer → Code Felt
  | [], _, _, _ => pure 0
  | ty::rest, p, offset, buffer => do
    let loaded ← buildLoad ty (p.add offset)
    let advance ← encodeIntoBuffer ty buffer loaded
    let runtimeSize ← encodeStruct rest p (offset + ty.llvmFieldSize) (buffer.add advance.val)
    pure (advance + runtimeSize)

end

/-- The arguments one behind the other, with the end of the buffer. -/
def encodeArgs : List (Ty × Value) → Pointer → Code Pointer
  | [], buffer => pure buffer
  | (ty,arg)::args, buffer => do
    let advance ← encodeIntoBuffer host ty buffer arg
    encodeArgs args (buffer.add advance.val)

def abiEncode (args : List (Ty × Value)) : Code Pointer :=
  if args.isEmpty then vectorNew 0
  else do
    let size ← calculateSizeArgs host args
    let heapStartPtr ← vectorNew size
    let _ ← encodeArgs host args (heapStartPtr.add 1)
    pure heapStartPtr

/-- What is stored to the tape: the arguments, and the size behind them. -/
def abiEncodeStoreTape (args : List (Ty × Value)) : Code (Pointer × Felt) :=
  if args.isEmpty then Exec.fail .panic
  else do
    let size ← calculateSizeArgs host args
    let heapSize := size + 1
    let heapStartPtr ← heapMalloc heapSize
    let buffer ← encodeArgs host args heapStartPtr
    buildStore buffer (.int size)
    pure (heapStartPtr,heapSize)

/-- The size and the selector go behind the arguments. -/
def abiEncodeWithSelector (selector : Value) (args : List (Ty × Value)) : Code Pointer := do
  let size ← calculateSizeArgs host args
  let heapSize := size + 2
  let heapStartPtr ← vectorNew heapSize
  let buffer ← encodeArgs host args (Storage.vectorData heapStartPtr)
  buildStore buffer (.int size)
  buildStore (buffer.add 1) selector
  pure heapStartPtr

/-! ### Decoding -/

/-- A dynamic dimension gets a new vector, which becomes the array itself or is stored as a row. -/
def decodeLength (elemTy : Ty) (dims : List ArrayLength) (buffer : Pointer) (dimension : ℕ)
    (indexes : List ℕ) : Value × Felt → Code (Value × Felt)
  | (arrayVar,offset) =>
    if dims[dimension]? = some .dynamic then do
      let length ← buildLoadInt (buffer.add offset.val)
      let allocated ← vectorNew length.felt
      if indexes.isEmpty then pure (.ptr allocated,offset + 1)
      else do
        let (_,_,place) ← indexArray host elemTy dims (dims.length-1) indexes
          (.ptr arrayVar.pointer,.array elemTy dims,arrayVar)
        let p ← intoPointerValue place
        buildStore p (.ptr allocated)
        pure (arrayVar,offset + 1)
    else pure (arrayVar,offset)

/-- `decode_complex_array`: the buffer moves by the offset that was read so far, in each round of
each dimension. -/
def decodeComplexArray (readElem : Pointer → Code (Value × Felt)) (elemTy : Ty)
    (dims : List ArrayLength) : ℕ → Pointer → List ℕ → Value × Felt → Code (Value × Felt)
  | 0, buffer, indexes, r => do
    let (arrayVar,offset) ← decodeLength host elemTy dims buffer 0 indexes r
    let arrayTy := Ty.array elemTy dims
    arrayLoop (arrayBound host elemTy dims 0 (.ptr arrayVar.pointer) arrayTy indexes)
      (fun index (arrayVar,offset) => do
        let (readValue,advance) ← readElem (buffer.add offset.val)
        let (_,_,place) ← indexArray host elemTy dims (dims.length-1) (indexes ++ [index])
          (.ptr arrayVar.pointer,arrayTy,arrayVar)
        let p ← intoPointerValue place
        buildStore p readValue
        pure (arrayVar,advance + offset)) FIELD_ORDER 0 (arrayVar,offset)
  | dimension+1, buffer, indexes, r => do
    let (arrayVar,offset) ← decodeLength host elemTy dims buffer (dimension+1) indexes r
    let arrayTy := Ty.array elemTy dims
    arrayLoop (arrayBound host elemTy dims (dimension+1) (.ptr arrayVar.pointer) arrayTy indexes)
      (fun index (arrayVar,offset) => decodeComplexArray readElem elemTy dims dimension
        (buffer.add offset.val) (indexes ++ [index]) (arrayVar,offset)) FIELD_ORDER 0 (arrayVar,offset)

/-- The new cell of the array is not written before a dynamic outer dimension fills it. -/
def uninitialized : Code Value := fun s => .ok (s.mem (.stack s.stack),s)

def decodeArray (readElem : Pointer → Code (Value × Felt)) (elemTy : Ty) (dims : List ArrayLength)
    (buffer : Pointer) : Code (Value × Felt) :=
  if allowMemcpy (.array elemTy dims) then do
    let size ← getArgsTypeSize host (.array elemTy dims) (some (.ptr buffer))
    pure (.ptr buffer,size)
  else do
    let arrayVar ← uninitialized
    let (arrayVar,offset) ← decodeComplexArray host readElem elemTy dims (dims.length-1) buffer []
      (arrayVar,0)
    pure (.ptr arrayVar.pointer,offset)

/-- `struct_literal_copy`: the members are stored at the places of the struct type. -/
def storeFields : List Ty → List Value → Pointer → ℕ → Code Unit
  | ty::tys, elem::values, p, offset => do
    buildStore (p.add offset) elem
    storeFields tys values p (offset + ty.llvmFieldSize)
  | _, _, _, _ => pure ()

def structLiteralCopy (fields : List Ty) (values : List Value) : Code Value := do
  let structAlloca ← heapMalloc (fields.length : ℕ)
  storeFields fields values structAlloca 0
  pure (.ptr structAlloca)

mutual

/-- `read_from_buffer`, with the number of cells read. -/
def readFromBuffer : Ty → Pointer → Code (Value × Felt)
  | .uint32, buffer | .bool, buffer | .enum, buffer | .field, buffer => do
    let decodeValue ← buildLoadInt buffer
    pure (decodeValue,1)
  | .address, buffer | .contract, buffer | .hash, buffer => pure (.ptr buffer,4)
  | .string, buffer | .dynamicBytes, buffer => do
    let length ← vectorLen (.ptr buffer)
    pure (.ptr buffer,length + 1)
  | .array elemTy dims, buffer => decodeArray host (readFromBuffer elemTy) elemTy dims buffer
  | .struct fields, buffer => do
    let (readItems,structOffset) ← readFields fields buffer
    let structVar ← structLiteralCopy fields readItems
    pure (structVar,structOffset)
  | .void, _ | .mapping _ _, _ | .ref _, _ | .storageRef _, _ => Exec.fail .panic

def readFields : List Ty → Pointer → Code (List Value × Felt)
  | [], _ => pure ([],0)
  | ty::rest, buffer => do
    let (readExpr,advance) ← readFromBuffer ty buffer
    let (readItems,structOffset) ← readFields rest (buffer.add advance.val)
    pure (readExpr::readItems,advance + structOffset)

end

/-- `abi_decode`: each value is read behind the one before. -/
def abiDecode : List Ty → Pointer → Code (List Value)
  | [], _ => pure []
  | ty::types, input => do
    let (readItem,advance) ← readFromBuffer host ty input
    let readItems ← abiDecode types (input.add advance.val)
    pure (readItem::readItems)

end Encoding
end OlaLang
