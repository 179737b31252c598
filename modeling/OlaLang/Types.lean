import Mathlib.Data.Nat.Notation
import Mathlib.Algebra.Group.Nat.Defs
import Mathlib.Tactic.Basic

/-! The resolved types of the language and the size functions of the semantic analysis.
A struct type carries its resolved member types: the generators walk a type to its leaves, so
they only end on types whose members unfold to a finite tree. -/
namespace OlaLang

inductive ArrayLength
  | fixed (n : ℕ) | dynamic
  deriving DecidableEq

/-- Array dimensions are listed from the innermost to the outermost. -/
inductive Ty
  | void | bool | uint32 | field | enum | address | contract | hash | string | dynamicBytes
  | array (elem : Ty) (dims : List ArrayLength)
  | struct (fields : List Ty)
  | mapping (key value : Ty)
  | ref (ty : Ty)
  | storageRef (ty : Ty)

namespace Ty

def derefAny : Ty → Ty
  | .storageRef r => r
  | .ref r => r
  | ty => ty

def derefMemory : Ty → Ty
  | .ref r => r
  | ty => ty

def isReferenceType : Ty → Bool
  | .struct _ | .array _ _ | .dynamicBytes | .string | .mapping _ _ => true
  | .ref r | .storageRef r => r.isReferenceType
  | _ => false

/-- A reference type of fixed size: a struct, or an array without a dynamic dimension. -/
def isFixedReferenceType : Ty → Bool
  | .struct _ => true
  | .array _ dims => dims.all (· ≠ .dynamic)
  | _ => false

/-- The types whose value is one integer cell. -/
def isOneCell : Ty → Bool
  | .bool | .uint32 | .field | .enum => true
  | _ => false

def isContractStorage : Ty → Bool
  | .storageRef _ => true
  | _ => false

def isMapping : Ty → Bool
  | .mapping _ _ => true
  | .storageRef ty => ty.isMapping
  | _ => false

def isDynamicMemory : Ty → Bool
  | .string | .dynamicBytes => true
  | .array _ dims => dims.getLast? = some .dynamic
  | .ref ty => ty.isDynamicMemory
  | _ => false

def dimSize : ArrayLength → ℕ
  | .fixed n => n
  | .dynamic => 1

def dimsSize (dims : List ArrayLength) : ℕ := (dims.map dimSize).prod

mutual
/-- How many storage slots a type occupies. -/
def storageSlots : Ty → ℕ
  | .storageRef r | .ref r => r.storageSlots
  | .struct fields => storageSlotsFields fields
  | .array elem dims => elem.storageSlots * dimsSize dims
  | _ => 1

def storageSlotsFields : List Ty → ℕ
  | [] => 0
  | ty::rest => ty.storageSlots + storageSlotsFields rest
end

/-- The cells of memory a type occupies, for the allocation of a loaded value. -/
def memorySizeOf : Ty → ℕ
  | .contract | .address | .hash => 4
  | .array elem dims => elem.memorySizeOf * dimsSize dims
  | .struct fields => fields.length
  | _ => 1

mutual
/-- The cells of `llvm_type`: fixed dimensions and nested structs are laid out inline. -/
def llvmSize : Ty → ℕ
  | .array elem dims => dims.foldl (fun size dim => match dim with
      | .fixed d => size * d
      | .dynamic => 1) elem.llvmFieldSize
  | .struct fields => llvmSizeFields fields
  | _ => 1

/-- The cells of `llvm_field_ty`: an array member is a pointer. -/
def llvmFieldSize : Ty → ℕ
  | .struct fields => llvmSizeFields fields
  | _ => 1

def llvmSizeFields : List Ty → ℕ
  | [] => 0
  | ty::rest => ty.llvmFieldSize + llvmSizeFields rest
end

/-- The offset `build_struct_gep` adds for member `i`. -/
def structOffset (fields : List Ty) (i : ℕ) : ℕ := llvmSizeFields (fields.take i)

/-- The stride of `[0, index]` on an array whose outermost dimension is dropped. -/
def llvmStride (elem : Ty) (dims : List ArrayLength) : ℕ := (Ty.array elem dims).llvmSize

/-- `array_length`: the outer length, when it is fixed. -/
def arrayLength : Ty → Option ℕ
  | .storageRef ty | .ref ty => ty.arrayLength
  | .array _ dims => match dims.getLast? with
    | some (.fixed n) => some n
    | _ => none
  | _ => none

/-- `storage_array_elem`: the type of an element of a storage array. -/
def storageArrayElem : Ty → Ty
  | .mapping _ value => .storageRef value
  | .dynamicBytes | .string => .uint32
  | .array elem dims => if dims.length > 1 then .storageRef (.array elem dims.dropLast)
      else .storageRef elem
  | .storageRef ty => ty.storageArrayElem
  | ty => ty

/-- `array_deref`: the type of an element of a memory array. -/
def arrayDeref : Ty → Ty
  | .string | .dynamicBytes => .ref .uint32
  | .ref ty => ty.arrayDeref
  | .array elem dims => if dims.length > 1 then .ref (.array elem dims.dropLast) else .ref elem
  | ty => ty

end Ty
end OlaLang
