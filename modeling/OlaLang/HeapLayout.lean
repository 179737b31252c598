import OlaLang.Types
import OlaLang.PointerAddress
import Mathlib.Data.List.Induction
import Mathlib.Algebra.BigOperators.Group.List.Basic
import Mathlib.Algebra.Order.BigOperators.Group.List
import Mathlib.Tactic.Ring

/-! Values in memory: the blocks that are allocated for them, and the cells that the lowered accesses
to their elements address. -/
namespace OlaLang
namespace HeapLayout

open Codegen.SlotElimination (IrType)
open Codegen.PointerAddress (Kind Level regsOf)

/-! ### Paths -/

/-- The index of a `getelementptr`: a constant, or a register with its value. -/
inductive Index
  | const (n : ℕ)
  | reg (value : ℕ)

def Index.value : Index → ℕ
  | .const n | .reg n => n

@[simp] theorem value_const (n : ℕ) : (Index.const n).value = n := rfl

def Index.kind : Index → Kind
  | .const _ => .int64
  | .reg _ => .reg

/-- A constant index is a literal of type `u32`, a computed one is in a register. -/
def Index.inRange (n : ℕ) : Index → Bool
  | .const i => i < n && i < 2^32
  | .reg v => v < n && v < FIELD_ORDER

inductive Access
  | subscript (i : Index)
  | member (i : ℕ)

def Access.value : Access → ℕ
  | .subscript i => i.value
  | .member i => i

def values (path : List Access) : List ℕ := path.map Access.value

/-- The type of the elements of an array. -/
def elemTy (elem : Ty) (dims : List ArrayLength) : Ty := (Ty.array elem dims).arrayDeref.derefMemory

/-- The type behind one access in range, to a struct or to an array of fixed size. -/
def step : Ty → Access → Option Ty
  | .struct fields, .member i => fields[i]?
  | .array elem dims, .subscript i => match dims.getLast? with
    | some (.fixed n) => if i.inRange n then some (elemTy elem dims) else none
    | _ => none
  | _, _ => none

/-- The first access, to the value itself, which can be a vector of `length`. -/
def stepValue (length : ℕ) : Ty → Access → Option Ty
  | .array elem dims, .subscript i => match dims.getLast? with
    | some .dynamic => if i.inRange length then some (elemTy elem dims) else none
    | _ => step (.array elem dims) (.subscript i)
  | ty, a => step ty a

/-- The cells in front of the first element: a vector has its length there. -/
def header : Ty → ℕ
  | .array _ dims => if dims.getLast? = some .dynamic then 1 else 0
  | _ => 0

/-! ### Element addresses -/

mutual

/-- `llvm_type`. -/
def llvmType : Ty → IrType
  | .array elem dims => dims.foldl (fun aty dim => match dim with
      | .fixed d => .array aty d
      | .dynamic => .pointer .i64) (llvmFieldTy elem)
  | .struct fields => .struct (llvmFieldTys fields) false
  | .string | .dynamicBytes | .hash | .address | .contract => .pointer .i64
  | .ref r => .pointer (llvmType r)
  | _ => .i64

/-- `llvm_field_ty`. -/
def llvmFieldTy : Ty → IrType
  | .array elem dims => .pointer (dims.foldl (fun aty dim => match dim with
      | .fixed d => .array aty d
      | .dynamic => .pointer .i64) (llvmFieldTy elem))
  | .struct fields => .struct (llvmFieldTys fields) false
  | .string | .dynamicBytes => .pointer (.pointer .i64)
  | .hash | .address | .contract => .pointer .i64
  | .ref r => .pointer (llvmType r)
  | _ => .i64

def llvmFieldTys : List Ty → List IrType
  | [] => []
  | ty::rest => llvmFieldTy ty::llvmFieldTys rest

end

/-- `llvm_var_ty`. -/
def llvmVarTy : Ty → IrType
  | .array elem dims => .pointer (llvmType (.array elem dims))
  | .struct fields => .pointer (llvmType (.struct fields))
  | .string => .pointer (llvmType .string)
  | .dynamicBytes => .pointer (llvmType .dynamicBytes)
  | ty => llvmType ty

/-- A `getelementptr` on a pointer in a register, computed on its own or folded into a load or a
store of the function. -/
def gep (f : Codegen.Function) (how : Codegen.PointerAddress.Access) (base : Felt) (ty : IrType)
    (kinds : List Kind) (xs : List ℕ) : Option Felt :=
  how.cell f (regsOf 0 base xs) ((⟨ty,1,kinds⟩ : Level).gep .inst xs)

/-- `StructMember` and `array_subscript`; the elements of a vector lie behind its length. -/
def address (f : Codegen.Function) (how : Codegen.PointerAddress.Access) (base : Felt) :
    Ty → Access → Option Felt
  | .array elem dims, .subscript i =>
    if dims.getLast? = some .dynamic then do
      let data ← gep f .pointer base .i64 [.int64] [1]
      gep f how data (llvmVarTy (elemTy elem dims)) [i.kind] [i.value]
    else gep f how base (llvmType (.array elem dims)) [.int64,i.kind] [0,i.value]
  | ty, a => gep f how base (llvmType ty) [.int64,.int64] [0,a.value]

/-- The cell of a path that starts with an access to an element of type `ty'`. A struct or an array of
fixed size is not loaded before it is accessed; a value of another type is a block of its own, and
its access is the last one. -/
def cellFrom (f : Codegen.Function) (how : Codegen.PointerAddress.Access) (base : Felt) (ty : Ty) (a : Access)
    (ty' : Ty) : List Access → Option Felt
  | [] => if ty'.isFixedReferenceType then none else address f how base ty a
  | a'::path => if ty'.isFixedReferenceType then do
      let ty'' ← step ty' a'
      let base ← address f .pointer base ty a
      cellFrom f how base ty' a' ty'' path
    else none

/-- The cell that a path of accesses in range addresses in the value at `base`. -/
def cell (f : Codegen.Function) (how : Codegen.PointerAddress.Access) (length : ℕ) (base : Felt) (ty : Ty) :
    List Access → Option Felt
  | [] => none
  | a::path => do
    let ty' ← stepValue length ty a
    cellFrom f how base ty a ty' path

/-- The sum of the indices of a path, counted from `base`. -/
def walk (base : ℕ) (ty : Ty) : List Access → Option ℕ
  | [] => if ty.isFixedReferenceType then none else some base
  | a::path => if ty.isFixedReferenceType then do
      let ty' ← step ty a
      walk (base + a.value) ty' path
    else none

/-- The paths of a value, with the cells in front of their elements if every index counts one. -/
def place (length : ℕ) (ty : Ty) : List Access → Option ℕ
  | [] => none
  | a::path => do
    let ty' ← stepValue length ty a
    walk (header ty + a.value) ty' path

/-! ### Allocation -/

/-- `type_size_of`. -/
def typeSizeOf : Ty → ℕ
  | .array _ dims => Ty.dimsSize dims
  | .struct fields => fields.length
  | _ => 1

/-- The code that allocates a value; a decoded struct is allocated like a default one. -/
inductive Site
  | literal | default | storageLoad

/-- The cells of the block. -/
def blockSize (site : Site) (length : ℕ) : Ty → ℕ
  | .array elem dims => match dims.getLast? with
    | some .dynamic => length + 1
    | _ => match site with
      | .literal | .default => typeSizeOf (.array elem dims)
      | .storageLoad => (Ty.array elem dims).arrayDeref.memorySizeOf
  | .struct fields => match site with
    | .literal | .storageLoad => (Ty.struct fields).memorySizeOf
    | .default => typeSizeOf (.struct fields)
  | _ => 0

/-- A path has one cell, however it is accessed and whichever of its indices are constants; two paths
never have the same one, and every path stays in the block. -/
structure Separated (f : Codegen.Function) (size length : ℕ) (ty : Ty) : Prop where
  one : ∀ base p, (place length ty p).isSome → ∃ c, ∀ q, (place length ty q).isSome →
    values q = values p → ∀ how, cell f how length base ty q = some c
  distinct : ∀ base how how' p q c, cell f how length base ty p = some c →
    cell f how' length base ty q = some c → values p = values q
  inside : ∀ base how p c, cell f how length base ty p = some c → (c - base).val < size

/-- A write through one path is read through that path, and changes neither another path nor a value
in another block. -/
theorem Separated.frame {f : Codegen.Function} {size length : ℕ} {ty : Ty} (h : Separated f size length ty)
    {α : Type} (memory : Felt → α) (v : α) {base c : Felt} {p : List Access}
    (hp : cell f .store length base ty p = some c) :
    (∀ q c', cell f .load length base ty q = some c' → values q ≠ values p →
      Function.update memory c v c' = memory c') ∧
    ∀ c', size ≤ (c' - base).val → Function.update memory c v c' = memory c' := by
  constructor
  · intro q c' hq hne
    refine Function.update_of_ne (fun heq => hne ?_) v memory
    rw [heq] at hq
    exact h.distinct base _ _ q p c hq hp
  · intro c' hc'
    have hlt := h.inside base _ p c hp
    refine Function.update_of_ne (fun heq => ?_) v memory
    rw [heq] at hc'
    exact absurd hlt (Nat.not_lt.mpr hc')

/-! ### Types that fit -/

mutual

/-- What semantic analysis and the LLVM types ask of a type: no empty dimension, no empty struct, and
`u32` lengths. -/
def Sized : Ty → Prop
  | .array elem dims => Sized elem ∧ dims ≠ [] ∧ .fixed 0 ∉ dims
  | .struct fields => fields ≠ [] ∧ fields.length < 2^32 ∧ SizedFields fields
  | _ => True

def SizedFields : List Ty → Prop
  | [] => True
  | ty::rest => Sized ty ∧ SizedFields rest

end

mutual

/-- There is one path only. -/
def single : Ty → Bool
  | .array elem dims => .dynamic ∈ dims ∨ dims.all (· = .fixed 1) ∧ single elem
  | .struct fields => singleFields fields
  | _ => true

def singleFields : List Ty → Bool
  | [] => true
  | ty::rest => rest.isEmpty && single ty

end

/-- The dimensions with more than one element. -/
def wide (dims : List ArrayLength) : List ArrayLength := dims.filter (· ≠ .fixed 1)

/-- The types whose paths differ in the sum of their indices, which stays in the block. -/
def Flat (site : Site) (length : ℕ) : Ty → Prop
  | .array elem dims => match dims.getLast? with
    | some .dynamic => length = 0 ∨ single (elemTy elem dims) = true
    | _ => match site with
      | .literal | .default => .dynamic ∈ dims ∨
        single elem = true ∧ (wide dims).length ≤ 1
      | .storageLoad => dims.getLast? = some (.fixed 1) ∧ single (elemTy elem dims) = true
  | .struct fields => ∀ ty ∈ fields, single ty = true
  | _ => True

mutual

/-- The last access of every path into an element of the type is a member whose number is itself as
the bytes of an `i32`. -/
def Folds : Ty → Prop
  | .array elem dims => .dynamic ∈ dims ∨ elem.isFixedReferenceType = true ∧ Folds elem
  | .struct fields => FoldsFields 0 fields
  | _ => True

def FoldsFields : ℕ → List Ty → Prop
  | _, [] => True
  | i, ty::rest => (if ty.isFixedReferenceType then Folds ty else i < 2^29) ∧ FoldsFields (i + 1) rest

end

/-- The last access of every path can be folded into a load and into a store: it is a member, or an
element of a vector no longer than an `i32`. -/
def Foldable (length : ℕ) : Ty → Prop
  | .array elem dims =>
    if dims.getLast? = some .dynamic then
      length = 0 ∨ if (elemTy elem dims).isFixedReferenceType then Folds (elemTy elem dims)
        else length ≤ 2^31
    else (elemTy elem dims).isFixedReferenceType = true ∧ Folds (elemTy elem dims)
  | .struct fields => FoldsFields 0 fields
  | _ => True

/-! ### Sums of indices -/

theorem inRange_zero {n : ℕ} (hn : 0 < n) : (Index.const 0).inRange n = true := by
  simp [Index.inRange,hn]

theorem inRange_one {n : ℕ} (hn : 1 < n) : (Index.const 1).inRange n = true := by
  simp [Index.inRange,hn]

theorem lt_of_inRange {i : Index} {n : ℕ} (h : i.inRange n = true) : i.value < n := by
  cases i with
  | const x => exact (by simpa [Index.inRange] using h : x < n ∧ x < 2^32).1
  | reg v => exact (by simpa [Index.inRange] using h : v < n ∧ v < FIELD_ORDER).1

/-- An index in range is itself as a field element. -/
theorem lt_order_of_inRange {i : Index} {n : ℕ} (h : i.inRange n = true) : i.value < FIELD_ORDER := by
  cases i with
  | const x =>
    have hx := (by simpa [Index.inRange] using h : x < n ∧ x < 2^32).2
    exact hx.trans (by decide)
  | reg v => exact (by simpa [Index.inRange] using h : v < n ∧ v < FIELD_ORDER).2

theorem cast_inj {x y : ℕ} (hx : x < FIELD_ORDER) (hy : y < FIELD_ORDER) (h : (x : Felt) = (y : Felt)) :
    x = y := by
  have hval := congrArg ZMod.val h
  rwa [ZMod.val_natCast_of_lt hx,ZMod.val_natCast_of_lt hy] at hval

/-- The type behind the outermost dimension. -/
theorem elemTy_concat (elem : Ty) (dims : List ArrayLength) (d : ArrayLength) :
    elemTy elem (dims ++ [d]) = if dims = [] then elem else .array elem dims := by
  cases dims with
  | nil => simp [elemTy,Ty.arrayDeref,Ty.derefMemory]
  | cons e dims =>
    have hlast : (e::dims ++ [d]).dropLast = e::dims := List.dropLast_concat
    rw [List.cons_append] at hlast
    simp [elemTy,Ty.arrayDeref,Ty.derefMemory,hlast]

theorem isFixed_concat (elem : Ty) (dims : List ArrayLength) (n : ℕ) :
    (Ty.array elem (dims ++ [.fixed n])).isFixedReferenceType = true ↔ .dynamic ∉ dims := by
  simp only [Ty.isFixedReferenceType,List.all_eq_true,List.mem_append,List.mem_singleton,
    decide_eq_true_eq]
  constructor
  · exact fun h hmem => h _ (.inl hmem) rfl
  · rintro h d (hd|rfl)
    · exact fun heq => h (heq ▸ hd)
    · exact fun heq => (by cases heq)

theorem step_array (elem : Ty) (dims : List ArrayLength) (n : ℕ) (a : Access) (ty : Ty) :
    step (.array elem (dims ++ [.fixed n])) a = some ty ↔
      ∃ i, a = .subscript i ∧ i.inRange n = true ∧ ty = elemTy elem (dims ++ [.fixed n]) := by
  cases a with
  | member i => simp [step]
  | subscript i =>
    simp only [step,List.getLast?_concat,Access.subscript.injEq]
    by_cases hi : i.inRange n
    · simp only [hi,if_true,Option.some.injEq]
      grind
    · simp only [hi,Bool.false_eq_true,if_false]
      grind

theorem step_struct (fields : List Ty) (a : Access) (ty : Ty) :
    step (.struct fields) a = some ty ↔ ∃ i, a = .member i ∧ fields[i]? = some ty := by
  cases a with
  | subscript i => simp [step]
  | member i => simp [step]

theorem walk_cons {base c : ℕ} {ty : Ty} {a : Access} {path : List Access} :
    walk base ty (a::path) = some c ↔ ty.isFixedReferenceType = true ∧
      ∃ ty', step ty a = some ty' ∧ walk (base + a.value) ty' path = some c := by
  rw [walk]
  split
  · rename_i hfixed
    simp [hfixed,Option.bind_eq_some_iff]
  · rename_i hfixed
    simp [hfixed]

theorem walk_nil {base c : ℕ} {ty : Ty} :
    walk base ty [] = some c ↔ ty.isFixedReferenceType = false ∧ c = base := by
  rw [walk]
  cases ty.isFixedReferenceType <;> simp [eq_comm]

/-- A value that is loaded before it is accessed has no elements in the block. -/
theorem walk_loaded {base c : ℕ} {ty : Ty} (hty : ty.isFixedReferenceType = false)
    {path : List Access} : walk base ty path = some c ↔ path = [] ∧ c = base := by
  cases path with
  | nil => simp [walk_nil,hty]
  | cons a path => simp [walk_cons,hty]

theorem mem_sizedFields {fields : List Ty} (h : SizedFields fields) {ty : Ty} (hty : ty ∈ fields) :
    Sized ty := by
  induction fields with
  | nil => cases hty
  | cons f fields ih =>
    rw [SizedFields] at h
    rcases List.mem_cons.mp hty with rfl|hty
    · exact h.1
    · exact ih h.2 hty

/-- Two facts about an element type, at the first cell and at the next one. -/
structure Reach (ty : Ty) : Prop where
  first : ∀ base, ∃ p, walk base ty p = some base
  next : single ty = false → ∀ base, ∃ p, walk base ty p = some (base + 1)

theorem reach_loaded {ty : Ty} (hty : ty.isFixedReferenceType = false) (hsingle : single ty = true) :
    Reach ty where
  first base := ⟨[],(walk_loaded hty).mpr ⟨rfl,rfl⟩⟩
  next h := by
    rw [hsingle] at h
    cases h

/-- An array, or the element when no dimension is left. -/
def inner (elem : Ty) (dims : List ArrayLength) : Ty := if dims = [] then elem else .array elem dims

theorem inner_concat (elem : Ty) (dims : List ArrayLength) (d : ArrayLength) :
    inner elem (dims ++ [d]) = .array elem (dims ++ [d]) := by
  simp [inner]

theorem walk_array {base c n : ℕ} {elem : Ty} {dims : List ArrayLength} (hdyn : .dynamic ∉ dims)
    {path : List Access} : walk base (.array elem (dims ++ [.fixed n])) path = some c ↔
      ∃ i rest, path = .subscript i::rest ∧ i.inRange n = true ∧
        walk (base + i.value) (inner elem dims) rest = some c := by
  have hfixed := (isFixed_concat elem dims n).mpr hdyn
  cases path with
  | nil => simp [walk_nil,hfixed]
  | cons a path =>
    rw [walk_cons]
    simp only [hfixed,true_and,step_array,elemTy_concat]
    constructor
    · rintro ⟨ty',⟨i,rfl,hi,rfl⟩,hwalk⟩
      exact ⟨i,path,rfl,hi,hwalk⟩
    · rintro ⟨i,rest,heq,hi,hwalk⟩
      cases heq
      exact ⟨_,⟨i,rfl,hi,rfl⟩,hwalk⟩

theorem walk_struct {base c : ℕ} {fields : List Ty} {path : List Access} :
    walk base (.struct fields) path = some c ↔ ∃ i ty rest, path = .member i::rest ∧
      fields[i]? = some ty ∧ walk (base + i) ty rest = some c := by
  cases path with
  | nil => simp [walk_nil,Ty.isFixedReferenceType]
  | cons a path =>
    rw [walk_cons]
    simp only [Ty.isFixedReferenceType,true_and,step_struct]
    constructor
    · rintro ⟨ty',⟨i,rfl,hi⟩,hwalk⟩
      exact ⟨i,ty',path,rfl,hi,hwalk⟩
    · rintro ⟨i,ty,rest,heq,hi,hwalk⟩
      cases heq
      exact ⟨ty,⟨i,rfl,hi⟩,hwalk⟩

/-- A walk from another cell. -/
theorem walk_shift (base : ℕ) (ty : Ty) (path : List Access) :
    walk base ty path = (walk 0 ty path).map (base + ·) := by
  induction path generalizing base ty with
  | nil =>
    rw [walk,walk]
    split <;> simp
  | cons a path ih =>
    rw [walk,walk]
    split
    · cases step ty a with
      | none => rfl
      | some ty' =>
        simp only [Option.bind_eq_bind,Option.bind_some]
        rw [ih (base + a.value),ih (0 + a.value),Option.map_map]
        congr 1
        funext k
        simp only [Function.comp]
        omega
    · rfl

theorem single_array {elem : Ty} {dims : List ArrayLength} : single (.array elem dims) = true ↔
    .dynamic ∈ dims ∨ (∀ d ∈ dims, d = .fixed 1) ∧ single elem = true := by
  rw [single]
  simp [List.all_eq_true]

theorem isFixed_dynamic {elem : Ty} {dims : List ArrayLength} (h : .dynamic ∈ dims) :
    (Ty.array elem dims).isFixedReferenceType = false := by
  rw [Ty.isFixedReferenceType,List.all_eq_false]
  exact ⟨.dynamic,h,by simp⟩

theorem single_concat_one (elem : Ty) (dims : List ArrayLength) :
    single (.array elem (dims ++ [.fixed 1])) = true ↔ single (inner elem dims) = true := by
  rw [single_array]
  by_cases hdims : dims = []
  · simp [inner,hdims]
  · rw [inner,if_neg hdims,single_array]
    simp only [List.mem_append,List.mem_singleton]
    grind

theorem reach_array {elem : Ty} (he : Reach elem) (dims : List ArrayLength)
    (hdims : .fixed 0 ∉ dims) : Reach (inner elem dims) := by
  induction dims using List.reverseRecOn with
  | nil => exact he
  | append_singleton dims d ih =>
    rw [inner_concat]
    have hrest := ih fun h => hdims (List.mem_append_left _ h)
    by_cases hdyn : .dynamic ∈ dims ++ [d]
    · exact reach_loaded (isFixed_dynamic hdyn) (single_array.mpr (.inl hdyn))
    · cases d with
      | dynamic => exact absurd (by simp) hdyn
      | fixed n =>
        have hdyn' : .dynamic ∉ dims := fun h => hdyn (List.mem_append_left _ h)
        have hn : n ≠ 0 := by
          rintro rfl
          exact hdims (by simp)
        refine ⟨fun base => ?_,fun hsingle base => ?_⟩
        · obtain ⟨p,hp⟩ := hrest.first base
          exact ⟨.subscript (.const 0)::p,(walk_array hdyn').mpr
            ⟨_,_,rfl,inRange_zero (Nat.pos_of_ne_zero hn),hp⟩⟩
        · by_cases hone : n = 1
          · subst hone
            have hinner : single (inner elem dims) = false := by
              rw [Bool.eq_false_iff,Ne,← single_concat_one,hsingle]
              exact Bool.false_ne_true
            obtain ⟨p,hp⟩ := hrest.next hinner base
            exact ⟨.subscript (.const 0)::p,(walk_array hdyn').mpr
              ⟨_,_,rfl,inRange_zero Nat.one_pos,hp⟩⟩
          · obtain ⟨p,hp⟩ := hrest.first (base + 1)
            have hlt : 1 < n := by omega
            exact ⟨.subscript (.const 1)::p,(walk_array hdyn').mpr ⟨_,_,rfl,inRange_one hlt,hp⟩⟩

theorem reach_struct {fields : List Ty} (hne : fields ≠ []) (h : ∀ ty ∈ fields, Reach ty) :
    Reach (.struct fields) := by
  cases fields with
  | nil => exact absurd rfl hne
  | cons f rest =>
    have hf := h f List.mem_cons_self
    refine ⟨fun base => ?_,fun hsingle base => ?_⟩
    · obtain ⟨p,hp⟩ := hf.first base
      exact ⟨.member 0::p,walk_struct.mpr ⟨0,f,p,rfl,rfl,hp⟩⟩
    · cases rest with
      | nil =>
        obtain ⟨p,hp⟩ := hf.next (by simpa [single,singleFields] using hsingle) base
        exact ⟨.member 0::p,walk_struct.mpr ⟨0,f,p,rfl,rfl,hp⟩⟩
      | cons g rest =>
        obtain ⟨p,hp⟩ := (h g (by simp)).first (base + 1)
        exact ⟨.member 1::p,walk_struct.mpr ⟨1,g,p,rfl,rfl,hp⟩⟩

mutual

theorem reach : ∀ ty : Ty, Sized ty → Reach ty
  | .array elem dims, h => by
    rw [Sized] at h
    have harray := reach_array (reach elem h.1) dims h.2.2
    rwa [inner,if_neg h.2.1] at harray
  | .struct fields, h => by
    rw [Sized] at h
    exact reach_struct h.1 (reachFields fields h.2.2)
  | .void, _ | .bool, _ | .uint32, _ | .field, _ | .enum, _ | .address, _ | .contract, _ | .hash, _
  | .string, _ | .dynamicBytes, _ | .mapping _ _, _ | .ref _, _ | .storageRef _, _ =>
    reach_loaded rfl (by rw [single] <;> simp)

theorem reachFields : ∀ fields : List Ty, SizedFields fields → ∀ ty ∈ fields, Reach ty
  | [], _ => fun _ h => (by cases h)
  | f::rest, h => by
    rw [SizedFields] at h
    intro ty hty
    rcases List.mem_cons.mp hty with heq|hty
    · rw [heq]
      exact reach f h.1
    · exact reachFields rest h.2 ty hty

end

/-- The only path, of zeros. -/
def Only (ty : Ty) : Prop :=
  ∃ n, ∀ base p c, walk base ty p = some c → c = base ∧ values p = List.replicate n 0

theorem only_loaded {ty : Ty} (hty : ty.isFixedReferenceType = false) : Only ty := by
  refine ⟨0,fun base p c h => ?_⟩
  obtain ⟨rfl,rfl⟩ := (walk_loaded hty).mp h
  exact ⟨rfl,rfl⟩

theorem only_array {elem : Ty} (he : Only elem) (dims : List ArrayLength)
    (hdims : ∀ d ∈ dims, d = .fixed 1) : Only (inner elem dims) := by
  induction dims using List.reverseRecOn with
  | nil => exact he
  | append_singleton dims d ih =>
    obtain ⟨n,hn⟩ := ih fun d' hd' => hdims d' (List.mem_append_left _ hd')
    have hd : d = .fixed 1 := hdims d (by simp)
    subst hd
    have hdyn : .dynamic ∉ dims := fun h => by
      have hone := hdims .dynamic (List.mem_append_left _ h)
      cases hone
    refine ⟨n + 1,fun base p c h => ?_⟩
    rw [inner_concat] at h
    obtain ⟨i,rest,rfl,hi,hwalk⟩ := (walk_array hdyn).mp h
    have hzero : i.value = 0 := Nat.lt_one_iff.mp (lt_of_inRange hi)
    obtain ⟨hc,hvalues⟩ := hn _ rest c hwalk
    refine ⟨by rw [hc,hzero,Nat.add_zero],?_⟩
    rw [values,List.map_cons,← values,hvalues,Access.value,hzero,List.replicate_succ]

mutual

theorem only : ∀ ty : Ty, single ty = true → Only ty
  | .array elem dims, h => by
    rcases single_array.mp h with hdyn|⟨hone,he⟩
    · exact only_loaded (isFixed_dynamic hdyn)
    · have harray := only_array (only elem he) dims hone
      by_cases hdims : dims = []
      · subst hdims
        refine ⟨0,fun base p c h => ?_⟩
        cases p with
        | nil => simp [walk_nil,Ty.isFixedReferenceType] at h
        | cons a p => cases a <;> simp [walk_cons,step,Ty.isFixedReferenceType] at h
      · rwa [inner,if_neg hdims] at harray
  | .struct fields, h => by
    rw [single] at h
    obtain ⟨n,hn⟩ := onlyFields fields h
    refine ⟨n + 1,fun base p c hwalk => ?_⟩
    obtain ⟨i,ty,rest,rfl,hi,hrest⟩ := walk_struct.mp hwalk
    obtain ⟨rfl,hall⟩ := hn i ty hi
    obtain ⟨hc,hvalues⟩ := hall base rest c hrest
    exact ⟨hc,by rw [values,List.map_cons,← values,hvalues,Access.value,List.replicate_succ]⟩
  | .void, _ | .bool, _ | .uint32, _ | .field, _ | .enum, _ | .address, _ | .contract, _ | .hash, _
  | .string, _ | .dynamicBytes, _ | .mapping _ _, _ | .ref _, _ | .storageRef _, _ =>
    only_loaded rfl

theorem onlyFields : ∀ fields : List Ty, singleFields fields = true → ∃ n, ∀ i ty,
    fields[i]? = some ty → i = 0 ∧ ∀ base p c, walk base ty p = some c →
      c = base ∧ values p = List.replicate n 0
  | [], _ => ⟨0,fun i ty h => by simp at h⟩
  | f::rest, h => by
    rw [singleFields,Bool.and_eq_true,List.isEmpty_iff] at h
    obtain ⟨rfl,hf⟩ := h
    obtain ⟨n,hn⟩ := only f hf
    refine ⟨n,fun i ty hi => ?_⟩
    cases i with
    | succ i => simp at hi
    | zero =>
      cases hi
      exact ⟨rfl,hn⟩

end

/-! ### Blocks -/

/-- The paths of a relation between path and cell are separated, and stay in a block. -/
structure Apart (size : ℕ) (cells : List Access → ℕ → Prop) : Prop where
  distinct : ∀ p q c c', cells p c → cells q c' → (c : Felt) = (c' : Felt) → values p = values q
  inside : ∀ p c, cells p c → (c : Felt).val < size

theorem Apart.congr {size : ℕ} {cells cells' : List Access → ℕ → Prop}
    (h : ∀ p c, cells p c ↔ cells' p c) : Apart size cells ↔ Apart size cells' := by
  have heq : cells = cells' := by
    funext p c
    exact propext (h p c)
  rw [heq]

/-- A subscript among `n` neighbouring elements, then the paths of an element. -/
def Row (offset n : ℕ) (ty : Ty) (path : List Access) (c : ℕ) : Prop :=
  ∃ i rest, path = .subscript i::rest ∧ i.inRange n = true ∧ walk (offset + i.value) ty rest = some c

section Row

variable {size offset n : ℕ} {ty : Ty}

theorem val_le (x : ℕ) : (x : Felt).val ≤ x := by
  rw [ZMod.val_natCast]
  exact Nat.mod_le _ _

theorem row_apart (h : Only ty) (hsize : offset + n ≤ size) : Apart size (Row offset n ty) := by
  obtain ⟨k,hk⟩ := h
  refine ⟨fun p q c c' hp hq heq => ?_,fun p c hp => ?_⟩
  · obtain ⟨i,rest,rfl,hi,hwalk⟩ := hp
    obtain ⟨j,rest',rfl,hj,hwalk'⟩ := hq
    obtain ⟨rfl,hvalues⟩ := hk _ rest c hwalk
    obtain ⟨rfl,hvalues'⟩ := hk _ rest' c' hwalk'
    have hij : i.value = j.value := by
      refine cast_inj (lt_order_of_inRange hi) (lt_order_of_inRange hj) ?_
      push_cast at heq
      exact add_left_cancel heq
    rw [values] at hvalues hvalues' ⊢
    rw [values,List.map_cons,List.map_cons,hvalues,hvalues',Access.value,Access.value,hij]
  · obtain ⟨i,rest,rfl,hi,hwalk⟩ := hp
    have hc := (hk _ rest c hwalk).1
    have hlt := lt_of_inRange hi
    have hle := val_le c
    omega

/-- With two elements, the second cell of the first one is the first cell of the second one. -/
theorem single_of_row (hreach : Reach ty) (h : Apart size (Row offset n ty)) (hn : 1 < n) :
    single ty = true := by
  by_contra hsingle
  obtain ⟨p,hp⟩ := hreach.next (by simpa using hsingle) offset
  obtain ⟨q,hq⟩ := hreach.first (offset + 1)
  have hvalues := h.distinct _ _ _ _ ⟨.const 0,p,rfl,inRange_zero (Nat.lt_of_succ_lt hn),hp⟩
    ⟨.const 1,q,rfl,inRange_one hn,hq⟩ rfl
  simp [values,Access.value,Index.value] at hvalues

theorem row_one : Apart size (Row 0 1 ty) ↔ Apart size (fun p c => walk 0 ty p = some c) := by
  have hzero : ∀ i : Index, i.inRange 1 = true → i.value = 0 :=
    fun i hi => Nat.lt_one_iff.mp (lt_of_inRange hi)
  have hrow : ∀ p c, walk 0 ty p = some c → Row 0 1 ty (.subscript (.const 0)::p) c :=
    fun p c hp => ⟨.const 0,p,rfl,inRange_zero Nat.one_pos,hp⟩
  constructor
  · intro h
    refine ⟨fun p q c c' hp hq heq => ?_,fun p c hp => h.inside _ c (hrow p c hp)⟩
    have hvalues := h.distinct _ _ c c' (hrow p c hp) (hrow q c' hq) heq
    simpa [values] using hvalues
  · intro h
    refine ⟨fun p q c c' hp hq heq => ?_,fun p c hp => ?_⟩
    · obtain ⟨i,rest,rfl,hi,hwalk⟩ := hp
      obtain ⟨j,rest',rfl,hj,hwalk'⟩ := hq
      rw [hzero i hi] at hwalk
      rw [hzero j hj] at hwalk'
      have hvalues := h.distinct rest rest' c c' hwalk hwalk' heq
      rw [values] at hvalues ⊢
      rw [values] at hvalues ⊢
      rw [List.map_cons,List.map_cons,hvalues,Access.value,Access.value,hzero i hi,hzero j hj]
    · obtain ⟨i,rest,rfl,hi,hwalk⟩ := hp
      rw [hzero i hi] at hwalk
      exact h.inside rest c hwalk

theorem apart_one (hreach : Reach ty) :
    Apart 1 (fun p c => walk 0 ty p = some c) ↔ single ty = true := by
  constructor
  · intro h
    by_contra hsingle
    obtain ⟨p,hp⟩ := hreach.next (by simpa using hsingle) 0
    have hlt := h.inside p _ hp
    exact absurd hlt (by decide)
  · intro h
    exact row_one.mp (row_apart (only ty h) (le_refl 1))

end Row

theorem dimsSize_concat (dims : List ArrayLength) (d : ArrayLength) :
    Ty.dimsSize (dims ++ [d]) = Ty.dimsSize dims * Ty.dimSize d := by
  simp [Ty.dimsSize]

theorem dimsSize_pos {dims : List ArrayLength} (h : .fixed 0 ∉ dims) : 0 < Ty.dimsSize dims := by
  induction dims with
  | nil => exact Nat.one_pos
  | cons d dims ih =>
    have hrest := ih fun hmem => h (List.mem_cons_of_mem d hmem)
    have hd : 0 < Ty.dimSize d := by
      cases d with
      | dynamic => exact Nat.one_pos
      | fixed n =>
        refine Nat.pos_of_ne_zero fun hn => h ?_
        change n = 0 at hn
        rw [hn]
        exact List.mem_cons_self
    rw [Ty.dimsSize,List.map_cons,List.prod_cons]
    exact Nat.mul_pos hd hrest

theorem wide_concat (dims : List ArrayLength) (d : ArrayLength) :
    wide (dims ++ [d]) = wide dims ++ if d = .fixed 1 then [] else [d] := by
  by_cases hd : d = .fixed 1 <;> simp [wide,hd]

theorem single_inner {elem : Ty} {dims : List ArrayLength} (hdyn : .dynamic ∉ dims) :
    single (inner elem dims) = true ↔ wide dims = [] ∧ single elem = true := by
  by_cases hdims : dims = []
  · simp [inner,hdims,wide]
  · rw [inner,if_neg hdims,single_array]
    simp [hdyn,wide,List.filter_eq_nil_iff]

/-- The paths of an array of fixed size, in a block of as many cells as it has elements. -/
theorem array_apart {elem : Ty} (he : Reach elem) (dims : List ArrayLength) (hdyn : .dynamic ∉ dims)
    (hdims : .fixed 0 ∉ dims) :
    Apart (Ty.dimsSize dims) (fun p c => walk 0 (inner elem dims) p = some c) ↔
      single elem = true ∧ (wide dims).length ≤ 1 := by
  induction dims using List.reverseRecOn with
  | nil =>
    have hone := apart_one he
    simpa [Ty.dimsSize,inner,wide] using hone
  | append_singleton dims d ih =>
    have hdyn' : .dynamic ∉ dims := fun h => hdyn (List.mem_append_left _ h)
    have hdims' : .fixed 0 ∉ dims := fun h => hdims (List.mem_append_left _ h)
    cases d with
    | dynamic => exact absurd (by simp) hdyn
    | fixed n =>
      have hn : n ≠ 0 := by
        rintro rfl
        exact hdims (by simp)
      have hrow : ∀ p c, walk 0 (inner elem (dims ++ [.fixed n])) p = some c ↔
          Row 0 n (inner elem dims) p c := by
        intro p c
        rw [inner_concat,walk_array hdyn',Row]
      rw [Apart.congr hrow,dimsSize_concat,wide_concat]
      by_cases hone : n = 1
      · subst hone
        simp only [row_one,Ty.dimSize,Nat.mul_one,if_true,List.append_nil]
        exact ih hdyn' hdims'
      · have hlt : 1 < n := by omega
        have hne : ArrayLength.fixed n ≠ .fixed 1 := fun h => hone (by cases h; rfl)
        simp only [hne,if_false,List.length_append,List.length_singleton]
        have hpos := dimsSize_pos hdims'
        constructor
        · intro h
          have hinner := single_of_row (reach_array he dims hdims') h hlt
          obtain ⟨hwide,helem⟩ := (single_inner hdyn').mp hinner
          exact ⟨helem,by simp [hwide]⟩
        · rintro ⟨helem,hwide⟩
          have hnil : wide dims = [] := List.length_eq_zero_iff.mp (by omega)
          have honly := only _ ((single_inner hdyn').mpr ⟨hnil,helem⟩)
          refine row_apart honly ?_
          rw [Nat.zero_add]
          exact Nat.le_mul_of_pos_left n hpos

theorem struct_apart {fields : List Ty} (h : ∀ ty ∈ fields, Reach ty) (hlength : fields.length < 2^32) :
    Apart fields.length (fun p c => walk 0 (.struct fields) p = some c) ↔
      ∀ ty ∈ fields, single ty = true := by
  have horder : (2 : ℕ)^32 < FIELD_ORDER := by decide
  constructor
  · intro hapart ty hty
    obtain ⟨i,hi,hget⟩ := List.mem_iff_getElem.mp hty
    by_contra hsingle
    obtain ⟨p,hp⟩ := (h ty hty).next (by simpa using hsingle) (0 + i)
    have hfirst : walk 0 (.struct fields) (.member i::p) = some (0 + i + 1) :=
      walk_struct.mpr ⟨i,ty,p,rfl,by rw [List.getElem?_eq_getElem hi,hget],hp⟩
    have hlt := hapart.inside _ _ hfirst
    rw [ZMod.val_natCast_of_lt (by omega : 0 + i + 1 < FIELD_ORDER)] at hlt
    have hi' : i + 1 < fields.length := by omega
    obtain ⟨q,hq⟩ := (h fields[i + 1] (List.getElem_mem hi')).first (0 + (i + 1))
    have hnext : walk 0 (.struct fields) (.member (i + 1)::q) = some (0 + i + 1) :=
      walk_struct.mpr ⟨i + 1,_,q,rfl,List.getElem?_eq_getElem hi',hq⟩
    have hvalues := hapart.distinct _ _ _ _ hfirst hnext rfl
    simp [values,Access.value] at hvalues
  · intro hsingle
    refine ⟨fun p q c c' hp hq heq => ?_,fun p c hp => ?_⟩
    · obtain ⟨i,ty,rest,rfl,hi,hwalk⟩ := walk_struct.mp hp
      obtain ⟨j,ty',rest',rfl,hj,hwalk'⟩ := walk_struct.mp hq
      obtain ⟨n,hn⟩ := only ty (hsingle ty (List.mem_of_getElem? hi))
      obtain ⟨n',hn'⟩ := only ty' (hsingle ty' (List.mem_of_getElem? hj))
      have hilt := (List.getElem?_eq_some_iff.mp hi).1
      have hjlt := (List.getElem?_eq_some_iff.mp hj).1
      obtain ⟨rfl,hvalues⟩ := hn _ rest c hwalk
      obtain ⟨rfl,-⟩ := hn' _ rest' c' hwalk'
      have hij : i = j := by
        have hsum := cast_inj (by omega) (by omega) heq
        omega
      subst hij
      rw [hi] at hj
      cases hj
      obtain ⟨-,hvalues'⟩ := hn _ rest' _ hwalk'
      rw [values] at hvalues hvalues' ⊢
      rw [values,List.map_cons,List.map_cons,hvalues,hvalues']
    · obtain ⟨i,ty,rest,rfl,hi,hwalk⟩ := walk_struct.mp hp
      obtain ⟨n,hn⟩ := only ty (hsingle ty (List.mem_of_getElem? hi))
      have hc := (hn _ rest c hwalk).1
      have hlt := (List.getElem?_eq_some_iff.mp hi).1
      have hle := val_le c
      omega

/-! ### Values -/

section Values

variable {length c : ℕ} {elem : Ty} {dims : List ArrayLength} {p : List Access}

theorem place_struct {fields : List Ty} :
    place length (.struct fields) p = some c ↔ walk 0 (.struct fields) p = some c := by
  cases p with
  | nil => simp [place,walk_nil,Ty.isFixedReferenceType]
  | cons a p => simp [place,stepValue,walk,Ty.isFixedReferenceType,header]

theorem place_fixed {n : ℕ} : place length (.array elem (dims ++ [.fixed n])) p = some c ↔
    Row 0 n (inner elem dims) p c := by
  cases p with
  | nil => simp [place,Row]
  | cons a p =>
    have hvalue : stepValue length (.array elem (dims ++ [.fixed n])) a =
        step (.array elem (dims ++ [.fixed n])) a := by
      cases a <;> simp [stepValue]
    have hheader : header (.array elem (dims ++ [.fixed n])) = 0 := by simp [header]
    simp only [place,hvalue,hheader,Option.bind_eq_bind,Option.bind_eq_some_iff,step_array,
      elemTy_concat,Row]
    constructor
    · rintro ⟨ty',⟨i,rfl,hi,rfl⟩,hwalk⟩
      exact ⟨i,p,rfl,hi,hwalk⟩
    · rintro ⟨i,rest,heq,hi,hwalk⟩
      cases heq
      exact ⟨_,⟨i,rfl,hi,rfl⟩,hwalk⟩

theorem stepValue_dynamic {a : Access} {ty : Ty} :
    stepValue length (.array elem (dims ++ [.dynamic])) a = some ty ↔
      ∃ i, a = .subscript i ∧ i.inRange length = true ∧ ty = inner elem dims := by
  cases a with
  | member i => simp [stepValue,step]
  | subscript i =>
    simp only [stepValue,List.getLast?_concat,elemTy_concat,Access.subscript.injEq]
    by_cases hi : i.inRange length
    · simp only [hi,if_true,Option.some.injEq]
      grind [inner]
    · simp only [hi,Bool.false_eq_true,if_false]
      grind

theorem place_dynamic : place length (.array elem (dims ++ [.dynamic])) p = some c ↔
    Row 1 length (inner elem dims) p c := by
  cases p with
  | nil => simp [place,Row]
  | cons a p =>
    have hheader : header (.array elem (dims ++ [.dynamic])) = 1 := by simp [header]
    simp only [place,hheader,Option.bind_eq_bind,Option.bind_eq_some_iff,stepValue_dynamic,Row]
    constructor
    · rintro ⟨ty',⟨i,rfl,hi,rfl⟩,hwalk⟩
      exact ⟨i,p,rfl,hi,hwalk⟩
    · rintro ⟨i,rest,heq,hi,hwalk⟩
      cases heq
      exact ⟨_,⟨i,rfl,hi,rfl⟩,hwalk⟩

end Values

theorem dynamic_apart {length : ℕ} {ty : Ty} (hreach : Reach ty) :
    Apart (length + 1) (Row 1 length ty) ↔ length = 0 ∨ single ty = true := by
  constructor
  · intro h
    by_cases hzero : length = 0
    · exact .inl hzero
    · refine .inr ?_
      by_cases hone : length = 1
      · subst hone
        by_contra hsingle
        obtain ⟨p,hp⟩ := hreach.next (by simpa using hsingle) 1
        have hlt := h.inside _ _ ⟨.const 0,p,rfl,inRange_zero Nat.one_pos,hp⟩
        exact absurd hlt (by decide)
      · exact single_of_row hreach h (by omega)
  · rintro (rfl|hsingle)
    · have hnone : ∀ i : Index, i.inRange 0 = true → False :=
        fun i hi => Nat.not_lt_zero _ (lt_of_inRange hi)
      refine ⟨fun p q c c' hp => ?_,fun p c hp => ?_⟩
      · obtain ⟨i,rest,-,hi,-⟩ := hp
        exact (hnone i hi).elim
      · obtain ⟨i,rest,-,hi,-⟩ := hp
        exact (hnone i hi).elim
    · exact row_apart (only ty hsingle) (by omega)

/-- A loaded array has a block of one cell. -/
theorem loaded_apart {n : ℕ} {ty : Ty} (hreach : Reach ty) (hn : n ≠ 0) :
    Apart 1 (Row 0 n ty) ↔ n = 1 ∧ single ty = true := by
  constructor
  · intro h
    by_cases hone : n = 1
    · subst hone
      exact ⟨rfl,(apart_one hreach).mp (row_one.mp h)⟩
    · obtain ⟨p,hp⟩ := hreach.first 1
      have hlt := h.inside _ _ ⟨.const 1,p,rfl,inRange_one (by omega),hp⟩
      exact absurd hlt (by decide)
  · rintro ⟨rfl,hsingle⟩
    exact row_one.mpr ((apart_one hreach).mpr hsingle)

theorem fixed_apart {n : ℕ} {elem : Ty} {dims : List ArrayLength} (he : Reach elem)
    (hdims : .fixed 0 ∉ dims ++ [.fixed n]) :
    Apart (Ty.dimsSize (dims ++ [.fixed n])) (Row 0 n (inner elem dims)) ↔
      .dynamic ∈ dims ++ [.fixed n] ∨
        single elem = true ∧ (wide (dims ++ [.fixed n])).length ≤ 1 := by
  by_cases hdyn : .dynamic ∈ dims
  · have hinner : inner elem dims = .array elem dims := if_neg (List.ne_nil_of_mem hdyn)
    have hfixed : (Ty.array elem dims).isFixedReferenceType = false := isFixed_dynamic hdyn
    have honly := only_loaded hfixed
    have hpos := dimsSize_pos fun h => hdims (List.mem_append_left [.fixed n] h)
    simp only [List.mem_append,hdyn,true_or,iff_true,hinner]
    refine row_apart honly ?_
    rw [dimsSize_concat,Nat.zero_add]
    exact Nat.le_mul_of_pos_left n hpos
  · have hdyn' : .dynamic ∉ dims ++ [.fixed n] := by simpa using hdyn
    have harray := array_apart he _ hdyn' hdims
    rw [Apart.congr fun p c => show walk 0 (inner elem (dims ++ [.fixed n])) p = some c ↔
      Row 0 n (inner elem dims) p c by rw [inner_concat,walk_array hdyn,Row]] at harray
    rw [harray]
    simp only [hdyn',false_or]

/-- Which values have paths apart by the sums of their indices, by the code that allocates them. -/
theorem apart_iff_flat (site : Site) (length : ℕ) (ty : Ty) (hsized : Sized ty) :
    Apart (blockSize site length ty) (fun p c => place length ty p = some c) ↔ Flat site length ty := by
  cases ty with
  | struct fields =>
    rw [Sized] at hsized
    rw [Apart.congr fun p c => place_struct]
    have hstruct := struct_apart (reachFields fields hsized.2.2) hsized.2.1
    cases site <;> exact hstruct
  | array elem dims =>
    rw [Sized] at hsized
    obtain ⟨helem,hne,hzero⟩ := hsized
    obtain ⟨init,d,rfl⟩ : ∃ init d, dims = init ++ [d] :=
      ⟨dims.dropLast,dims.getLast hne,(List.dropLast_concat_getLast hne).symm⟩
    have hreach := reach_array (reach elem helem) init fun h => hzero (List.mem_append_left _ h)
    cases d with
    | dynamic =>
      rw [Apart.congr fun p c => place_dynamic]
      simp only [blockSize,Flat,List.getLast?_concat,elemTy_concat]
      exact dynamic_apart hreach
    | fixed n =>
      have hn : n ≠ 0 := by
        rintro rfl
        exact hzero (by simp)
      rw [Apart.congr fun p c => place_fixed]
      simp only [blockSize,Flat,List.getLast?_concat]
      cases site with
      | literal => exact fixed_apart (reach elem helem) hzero
      | default => exact fixed_apart (reach elem helem) hzero
      | storageLoad =>
        have hone : (Ty.array elem (init ++ [.fixed n])).arrayDeref.memorySizeOf = 1 := by
          simp only [Ty.arrayDeref]
          split <;> rfl
        simp only [hone,elemTy_concat,Option.some.injEq,ArrayLength.fixed.injEq]
        exact loaded_apart hreach hn
  | _ =>
    simp only [Flat,iff_true]
    refine ⟨fun p q c c' hp => ?_,fun p c hp => ?_⟩ <;>
      cases p <;> simp [place,stepValue,step] at hp

end HeapLayout
end OlaLang
