import OlaLang.EncodeSpec

/-! Paths into a memory array: what the generators of the ABI reach when they subscript dimension by
dimension. In a fixed dimension a row of fixed length and a struct lie in place, but a pointer is
loaded there: below it only the number of cells is sure, when the type fixes it. -/
namespace OlaLang
namespace Encoding

open Exec (Returns bind_ok returns_pure returns_bind pure_apply)
open Builder Corelib

variable {P : Pointer → Prop} {s t : State} {p q : Pointer} {v : Value} {x y : Val} {elemTy : Ty}
  {rest dims : List ArrayLength}

/-! ### Types -/

/-- Dimensions are u32 values. -/
def fixedDims (dims : List ArrayLength) : Bool := dims.all fun
  | .fixed d => d < 2^32
  | .dynamic => false

/-- Arrays that are copied are sequences of cells. -/
def isEncoded (elemTy : Ty) (dims : List ArrayLength) : Bool :=
  isFlatArray elemTy dims || !dims.isEmpty && !allowMemcpy (.array elemTy dims)

mutual

/-- The types whose values all have the same number of cells. -/
def Static : Ty → Bool
  | .uint32 | .bool | .enum | .field | .address | .contract | .hash => true
  | .array elemTy dims => fixedDims dims && isEncoded elemTy dims && Static elemTy
  | .struct fields => StaticFields fields
  | .string | .dynamicBytes | .void | .mapping _ _ | .ref _ | .storageRef _ => false

def StaticFields : List Ty → Bool
  | [] => true
  | ty::rest => Static ty && StaticFields rest

end

/-- What lies in place in a fixed dimension, where a pointer is loaded. -/
def inPlace (elemTy : Ty) : List ArrayLength → Bool
  | [] => match elemTy with
    | .struct _ => true
    | _ => false
  | .fixed _::_ => true
  | .dynamic::_ => false

/-- The rows of a value, its dimensions outermost first: what lies in place has a size that the type
fixes, and the elements that are reached are measured. -/
def Rows (measured : Val → Bool) (elemTy : Ty) : List ArrayLength → Val → Bool
  | [], x => measured x
  | .dynamic::rest, x => x.items.all (Rows measured elemTy rest)
  | .fixed d::rest, x => decide (d < 2^32) &&
    if inPlace elemTy rest then fixedDims rest && Static elemTy
    else x.items.all (Rows measured elemTy rest)

/-- The encoder takes the type of a row for that of the array once it has written the length of the
row: then the outermost dimension is dynamic, or no dimension is. -/
def sameLength (dims : List ArrayLength) : Bool :=
  dims.getLast? = some .dynamic || !dims.contains .dynamic

mutual

/-- The values for which the computed size is what the encoder advances by. -/
def Measured : Ty → Val → Bool
  | .uint32, _ | .bool, _ | .enum, _ | .field, _ | .address, _ | .contract, _ | .hash, _
  | .string, _ | .dynamicBytes, _ => true
  | .array elemTy dims, x =>
    isEncoded elemTy dims && sameLength dims && Rows (Measured elemTy) elemTy dims.reverse x
  | .struct fields, x => MeasuredAll fields x.items
  | .void, _ | .mapping _ _, _ | .ref _, _ | .storageRef _, _ => false

def MeasuredAll : List Ty → List Val → Bool
  | [], _ => true
  | ty::rest, x::xs => Measured ty x && MeasuredAll rest xs
  | _::_, [] => false

end

/-! ### Rows -/

/-- The type at which a row is loaded. -/
def rowTy (elemTy : Ty) (rest : List ArrayLength) : Ty :=
  if rest = [] then elemTy else .array elemTy rest.reverse

/-- An operand whose LLVM type is that of the type. -/
def Kind (ty : Ty) (v : Value) : Prop := ty.llvmVarIsPtr = true → ∃ p, v = .ptr p

theorem kind_loaded (ty : Ty) (s : State) (p : Pointer) : Kind ty (loaded s ty p) := by
  intro h
  exact ⟨(s.mem p).pointer,if_pos h⟩

/-- The operand stands for the value, or it is any operand and the type fixes the number of cells. -/
def Readable (P : Pointer → Prop) (s : State) (ty : Ty) (v : Value) (x : Val) : Prop :=
  Measured ty x = true ∧ Rep P s ty v x ∨ Static ty = true ∧ HasType ty x ∧ Kind ty v

/-- The same for a row of an array, its dimensions outermost first. -/
def Row (P : Pointer → Prop) (s : State) (elemTy : Ty) (rest : List ArrayLength) (v : Value)
    (x : Val) : Prop :=
  (Rows (Measured elemTy) elemTy rest x = true ∧ RepArray P s (Rep P s elemTy) elemTy rest v x) ∨
  (Static elemTy = true ∧ fixedDims rest = true ∧ ArrayType (HasType elemTy) rest x ∧
    Kind (rowTy elemTy rest) v)

theorem Row.readable (h : Row P s elemTy [] v x) : Readable P s elemTy v x := by
  obtain ⟨hrows,hr⟩|⟨hstatic,-,hx,hv⟩ := h
  · exact .inl ⟨hrows,hr⟩
  · exact .inr ⟨hstatic,hx,hv⟩

theorem Readable.mono {Q : Pointer → Prop} {ty : Ty} (h : Readable P s ty v x)
    (hagree : Agree P Q s t) : Readable Q t ty v x := by
  obtain ⟨hgood,hr⟩|hstatic := h
  · exact .inl ⟨hgood,hr.mono hagree⟩
  · exact .inr hstatic

theorem Row.mono {Q : Pointer → Prop} (h : Row P s elemTy rest v x) (hagree : Agree P Q s t) :
    Row Q t elemTy rest v x := by
  obtain ⟨hrows,hr⟩|hstatic := h
  · exact .inl ⟨hrows,hr.mono hagree fun _ _ hv => hv.mono hagree⟩
  · exact .inr hstatic

theorem fixedDims_cons {dim : ArrayLength} :
    fixedDims (dim::rest) = true ↔ (∃ d < 2^32, dim = .fixed d) ∧ fixedDims rest = true := by
  cases dim <;> simp [fixedDims]

theorem Readable.row (h : Readable P s (.array elemTy dims) v x) :
    Row P s elemTy dims.reverse v x := by
  obtain ⟨hgood,hr⟩|⟨hstatic,hx,hv⟩ := h
  · rw [Measured,Bool.and_eq_true] at hgood
    rw [Rep] at hr
    exact .inl ⟨hgood.2,hr⟩
  · rw [Static,Bool.and_eq_true,Bool.and_eq_true] at hstatic
    rw [HasType] at hx
    refine .inr ⟨hstatic.2,by simpa [fixedDims] using hstatic.1.1,hx,fun _ => hv rfl⟩

/-! ### One subscript -/

theorem arraySubscript_dynamic (host : Host) (h : dims.getLast? = some .dynamic) (v index : Value) :
    arraySubscript host (.array elemTy dims) v index .uint32 =
      arraySubscript host (.array elemTy [.dynamic]) v index .uint32 := by
  have hlength : (Ty.array elemTy dims).arrayLength = none := by rw [Ty.arrayLength,h]
  have hmemory : (Ty.array elemTy dims).isDynamicMemory = true := by simp [Ty.isDynamicMemory,h]
  funext s
  rw [arraySubscript,arraySubscript,subscriptLength,subscriptLength,hlength,hmemory]
  rfl

/-- The index check of a fixed dimension passes below its length. -/
theorem arraySubscript_fixed (host : Host) {d i : ℕ} (h : dims.getLast? = some (.fixed d))
    (hd : d < 2^32) (hi : i < d) (v : Value) :
    arraySubscript host (.array elemTy dims) v (.int (i : Felt)) .uint32 s =
      .ok (.ptr (v.pointer.add (i * Ty.llvmStride elemTy dims.dropLast)),s) := by
  have hlength : (Ty.array elemTy dims).arrayLength = some d := by rw [Ty.arrayLength,h]
  have hmemory : (Ty.array elemTy dims).isDynamicMemory = false := by simp [Ty.isDynamicMemory,h]
  have hmapping : (Ty.array elemTy dims).isMapping = false := rfl
  have hsubscript : subscriptLength host (.array elemTy dims) v s =
      .ok (.const (BitVec.ofNat 64 d),s) := by
    rw [subscriptLength,hlength]
    rfl
  have hword : (BitVec.ofNat 64 d - 1).toNat = d - 1 := by
    rw [BitVec.toNat_sub_of_le (by rw [BitVec.le_def,BitVec.toNat_ofNat,Nat.mod_eq_of_lt (by omega)]; simp; omega)]
    rw [BitVec.toNat_ofNat,Nat.mod_eq_of_lt (by omega)]
    rfl
  have hsub : ((d - 1 : ℕ) : Felt) - (i : Felt) = ((d - 1 - i : ℕ) : Felt) := by
    rw [Nat.cast_sub (show i ≤ d - 1 by omega)]
  have hcheck : rangeCheck (.int (((d - 1 : ℕ) : Felt) - (i : Felt))) s = .ok ((),s) := by
    rw [hsub]
    refine builtinRangeCheck_int_eq_ok.mpr ⟨?_,rfl⟩
    rw [Felt.IsU32,Felt.val_natCast_of_lt (by omega)]
    omega
  have hone : buildIntSub (.const (BitVec.ofNat 64 d)) (.const 1) s =
      .ok (.const (BitVec.ofNat 64 d - 1),s) := rfl
  have hindex : buildIntSub (.const (BitVec.ofNat 64 d - 1)) (.int (i : Felt)) s =
      .ok (.int (((d - 1 : ℕ) : Felt) - (i : Felt)),s) := by
    rw [← hword]
    rfl
  have hival : (i : Felt).val = i := Felt.val_natCast_of_lt (by omega)
  rw [arraySubscript,hmapping,if_neg (by simp),bind_ok hsubscript,bind_ok hone,bind_ok hindex,
    bind_ok hcheck,hmemory]
  show Except.ok (Value.ptr (v.pointer.add ((i : Felt).val * _)),s) = _
  rw [hival]

/-- A type that the subscripts do not tell from that of the array. -/
def Alike (elemTy : Ty) (dims : List ArrayLength) (ty : Ty) : Prop :=
  ∃ dims', ty = .array elemTy dims' ∧
    (dims' = dims ∨ dims'.getLast? = some .dynamic ∧ dims.getLast? = some .dynamic)

theorem Alike.subscript (host : Host) {ty : Ty} (h : Alike elemTy dims ty) (v index : Value) :
    arraySubscript host ty v index .uint32 =
      arraySubscript host (.array elemTy dims) v index .uint32 := by
  obtain ⟨dims',rfl,rfl|⟨h',h⟩⟩ := h
  · rfl
  · rw [arraySubscript_dynamic host h',arraySubscript_dynamic host h]

/-! ### One dimension -/

theorem repPlace_loaded {rep : Value → Val → Prop} (hplace : inPlace elemTy rest = false)
    (hr : RepPlace P s rep elemTy rest q x) : P q ∧ rep (loadedRow s elemTy rest q) x := by
  cases rest with
  | nil =>
    cases elemTy with
    | struct fields => cases hplace
    | _ => exact hr
  | cons dim rest =>
    cases dim with
    | fixed d => cases hplace
    | dynamic => exact hr

theorem repPlace_inPlace {rep : Value → Val → Prop} (hplace : inPlace elemTy rest = true)
    (hr : RepPlace P s rep elemTy rest q x) : rep (.ptr q) x := by
  cases rest with
  | nil =>
    cases elemTy with
    | struct fields => exact hr
    | _ => cases hplace
  | cons dim rest =>
    cases dim with
    | fixed d => exact hr
    | dynamic => cases hplace

theorem loadedRow_eq (s : State) (elemTy : Ty) (rest : List ArrayLength) (q : Pointer) :
    loadedRow s elemTy rest q = loaded s (rowTy elemTy rest) q := rfl

/-- The rows of an array are reached by one subscript each. -/
theorem Row.subscript (host : Host) {dim : ArrayLength} (h : Row P s elemTy (dim::rest) v x) {i : ℕ}
    (hi : x.items[i]? = some y) : ∃ q, arraySubscript host (.array elemTy (dim::rest).reverse) v
      (.int (i : Felt)) .uint32 s = .ok (.ptr q,s) ∧
        Row P s elemTy rest (loaded s (rowTy elemTy rest) q) y := by
  obtain ⟨hlt,rfl⟩ := List.getElem?_eq_some_iff.mp hi
  have hlast : (dim::rest).reverse.getLast? = some dim := by simp
  obtain ⟨hrows,hr⟩|⟨hstatic,hfixed,hx,-⟩ := h
  · cases dim with
    | dynamic =>
      obtain ⟨p,items,rfl,rfl,hcount,-,hn,hitems⟩ := hr
      rw [Rows,List.all_eq_true] at hrows
      refine ⟨p.add (1+i),?_,.inl ⟨hrows _ (List.getElem_mem hlt),?_⟩⟩
      · rw [arraySubscript_dynamic host hlast]
        exact arraySubscript_vector host elemTy hn hcount hlt
      · have hget := (repItems_iff.mp hitems i hlt).2
        rw [Pointer.add_add,Nat.mul_one] at hget
        exact hget
    | fixed d =>
      obtain ⟨p,items,rfl,rfl,rfl,hitems⟩ := hr
      rw [Rows,Bool.and_eq_true,decide_eq_true_eq] at hrows
      refine ⟨_,arraySubscript_fixed host hlast hrows.1 hlt _,?_⟩
      have hget := repItems_iff.mp hitems i hlt
      by_cases hplace : inPlace elemTy rest = true
      · rw [if_pos hplace,Bool.and_eq_true] at hrows
        exact .inr ⟨hrows.2.2,hrows.2.1,(repPlace_inPlace hplace hget).arrayType
          fun v x hv => Rep.hasType hv,kind_loaded _ _ _⟩
      · rw [if_neg hplace] at hrows
        have hrow := (repPlace_loaded (by simpa using hplace) hget).2
        refine .inl ⟨List.all_eq_true.mp hrows.2 _ (List.getElem_mem hlt),?_⟩
        rw [← loadedRow_eq,List.reverse_cons,List.dropLast_concat]
        exact hrow
  · obtain ⟨⟨d,hd,rfl⟩,hrest⟩ := fixedDims_cons.mp hfixed
    obtain ⟨items,rfl,rfl,hitems⟩ := hx
    exact ⟨_,arraySubscript_fixed host hlast hd hlt v,
      .inr ⟨hstatic,hrest,hitems _ (List.getElem_mem hlt),kind_loaded _ _ _⟩⟩

/-- The length of a dimension is that of the values, or it is read from their first cell. -/
def HasLength (P : Pointer → Prop) (s : State) (v : Value) (n : ℕ) : ArrayLength → Prop
  | .fixed d => n = d
  | .dynamic => ∃ p, v = .ptr p ∧ P p ∧ s.cell p = (n : Felt)

theorem Row.length {dim : ArrayLength} (h : Row P s elemTy (dim::rest) v x) :
    x.items.length < 2^32 ∧ HasLength P s v x.items.length dim := by
  obtain ⟨hrows,hr⟩|⟨-,hfixed,hx,-⟩ := h
  · cases dim with
    | dynamic =>
      obtain ⟨p,items,rfl,rfl,hcount,hp,hn,-⟩ := hr
      exact ⟨hcount,p,rfl,hp,hn⟩
    | fixed d =>
      obtain ⟨p,items,rfl,rfl,hd,-⟩ := hr
      rw [Rows,Bool.and_eq_true,decide_eq_true_eq] at hrows
      exact ⟨hd ▸ hrows.1,hd⟩
  · obtain ⟨⟨d,hd,rfl⟩,-⟩ := fixedDims_cons.mp hfixed
    obtain ⟨items,rfl,hlength,-⟩ := hx
    exact ⟨hlength ▸ hd,hlength⟩

theorem Row.arrayType (h : Row P s elemTy rest v x) : ArrayType (HasType elemTy) rest x := by
  obtain ⟨-,hr⟩|⟨-,-,hx,-⟩ := h
  · exact hr.arrayType fun v x hv => Rep.hasType hv
  · exact hx

/-- A dynamic dimension has a cell for its length. -/
theorem ArrayType.cells {R : Val → Prop} {dim : ArrayLength} (h : ArrayType R (dim::rest) x) :
    x.cells.length = (if dim = .dynamic then 1 else 0) + (cellsOf x.items).length := by
  cases dim with
  | fixed d =>
    obtain ⟨items,rfl,-⟩ := h
    simp [Val.items]
  | dynamic =>
    obtain ⟨items,rfl,-⟩ := h
    simp [Val.items,Nat.add_comm]

/-! ### Paths -/

/-- The row or element at the end of the indices. -/
def follow : List ℕ → Val → Option Val
  | [], x => some x
  | i::indexes, x => x.items[i]?.bind (follow indexes)

theorem follow_append (indexes : List ℕ) (i : ℕ) (x : Val) :
    follow (indexes ++ [i]) x = (follow indexes x).bind fun y => y.items[i]? := by
  induction indexes generalizing x with
  | nil =>
    show x.items[i]?.bind (follow []) = x.items[i]?
    cases x.items[i]? <;> rfl
  | cons j indexes ih =>
    rw [List.cons_append,follow,follow,Option.bind_assoc]
    exact congrArg _ (funext ih)

theorem alike_row (h : rest ≠ []) : Alike elemTy rest.reverse (rowTy elemTy rest) :=
  ⟨rest.reverse,if_neg h,.inl rfl⟩

/-- The dimensions of a row are the inner ones. -/
theorem take_row {dim : ArrayLength} (h : dims.take (dim::rest).length = (dim::rest).reverse) :
    dims.take rest.length = rest.reverse := by
  have hle : rest.length + 1 ≤ dims.length := by
    have hlength := congrArg List.length h
    simp only [List.length_take,List.length_reverse,List.length_cons] at hlength
    omega
  have hdrop := congrArg List.dropLast h
  rw [List.reverse_cons,List.dropLast_concat,List.dropLast_eq_take,List.take_take,
    List.length_take] at hdrop
  rw [← hdrop,List.length_cons,Nat.min_eq_left hle,Nat.add_sub_cancel,
    Nat.min_eq_left (Nat.le_succ _)]

/-- The generator follows the indices through the rows. -/
theorem indexArray_row (host : Host) (dims : List ArrayLength) {indexes : List ℕ} {ty : Ty} {w : Value}
    (h : Row P s elemTy rest v x) (hfollow : follow indexes x = some y)
    (hlen : indexes.length ≤ rest.length) (htake : dims.take rest.length = rest.reverse)
    (hty : Alike elemTy rest.reverse ty) :
    ∃ v' ty' w', indexArray host elemTy dims (rest.length-1) indexes (v,ty,w) s =
        .ok ((v',ty',w'),s) ∧ Row P s elemTy (rest.drop indexes.length) v' y ∧
      (indexes = [] → ty' = ty) ∧ (indexes ≠ [] → ty' = rowTy elemTy (rest.drop indexes.length)) := by
  induction indexes generalizing rest v x ty w with
  | nil =>
    cases hfollow
    exact ⟨v,ty,w,rfl,h,fun _ => rfl,fun hne => absurd rfl hne⟩
  | cons i indexes ih =>
    cases rest with
    | nil => simp at hlen
    | cons dim rest =>
      obtain ⟨z,hz,hfollow⟩ := Option.bind_eq_some_iff.mp hfollow
      obtain ⟨q,hsubscript,hrow⟩ := h.subscript host hz
      have htake' := take_row htake
      have hlocal : (if rest.length = 0 then elemTy else .array elemTy (dims.take rest.length)) =
          rowTy elemTy rest := by
        rw [htake',rowTy]
        simp only [List.length_eq_zero_iff]
      rw [← hty.subscript host] at hsubscript
      rw [List.length_cons,Nat.add_sub_cancel,indexArray,hlocal,bind_ok hsubscript]
      rw [bind_ok (show intoPointerValue (.ptr q) s = .ok (q,s) from rfl),
        bind_ok (buildLoad_eq _ q s)]
      cases indexes with
      | nil =>
        cases hfollow
        exact ⟨_,_,_,rfl,hrow,fun h => absurd h (List.cons_ne_nil _ _),fun _ => rfl⟩
      | cons j indexes =>
        have hne : rest ≠ [] := by
          rintro rfl
          simp at hlen
        obtain ⟨v',ty',w',hrun,hend,-,hty'⟩ := ih hrow hfollow (by simpa using hlen) htake'
          (alike_row hne)
        exact ⟨v',ty',w',hrun,hend,fun h => absurd h (List.cons_ne_nil _ _),fun _ => hty' (by simp)⟩

end Encoding
end OlaLang
