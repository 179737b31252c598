import OlaLang.Encoding
import OlaLang.Signatures

/-! Functions with one signature string: when their arguments are read from the tape by the same
code. -/
namespace OlaLang
namespace Signatures

open Exec (bind_ok bind_eq_ok)
open Builder Corelib Encoding ParamTy

/-- The arguments, read from the tape. -/
def Function.decode (host : Host) (f : Function) (input : Pointer) : Code (List Value) :=
  abiDecode host (lowerAll f.params) input

/-! ### Types at one place -/

/-- The two types stand at one place of the others. -/
inductive Part : ParamTy → ParamTy → ParamTy → ParamTy → Prop
  | refl {ty ty'} : Part ty ty' ty ty'
  | member {fields fields' p p'} (i : ℕ) {ty ty'} (h : fields[i]? = some ty)
      (h' : fields'[i]? = some ty') (hp : Part ty ty' p p') : Part (.struct fields) (.struct fields') p p'
  | elem {elem elem' dims dims' p p'} (hp : Part elem elem' p p') :
      Part (.array elem dims) (.array elem' dims') p p'

/-- Arrays at one place are both copied as they are, or both read element by element. -/
def Alike (ty ty' : ParamTy) : Prop := ∀ elem dims elem' dims',
  Part ty ty' (.array elem dims) (.array elem' dims') →
    allowMemcpy (.array elem.lower dims) = allowMemcpy (.array elem'.lower dims')

/-- The signatures tell names and types apart up to erasure; functions with the same one, and the
types at one place of their parameters, are decoded by the same code. -/
structure Determines (host : Host) (f g : Function) : Prop where
  injective : f.signature = g.signature ↔ f.name = g.name ∧ eraseAll f.params = eraseAll g.params
  decode : f.signature = g.signature → f.decode host = g.decode host
  parts : f.signature = g.signature → ∀ ty ty', Part (.struct f.params) (.struct g.params) ty ty' →
    readFromBuffer host ty.lower = readFromBuffer host ty'.lower

/-! ### Types with one erasure -/

theorem lower_erase_varIsPtr (ty : ParamTy) :
    ty.erase.lower.llvmVarIsPtr = ty.lower.llvmVarIsPtr := by
  cases ty with
  | userType ty => cases ty <;> rfl
  | _ => rfl

mutual
theorem lower_erase_fieldSize (ty : ParamTy) :
    ty.erase.lower.llvmFieldSize = ty.lower.llvmFieldSize := by
  cases ty with
  | userType ty => cases ty <;> rfl
  | struct fields =>
    rw [erase,lower,lower,Ty.llvmFieldSize,Ty.llvmFieldSize,lowerAll_erase_fieldSize fields]
  | _ => rfl

theorem lowerAll_erase_fieldSize (tys : List ParamTy) :
    Ty.llvmSizeFields (lowerAll (eraseAll tys)) = Ty.llvmSizeFields (lowerAll tys) := by
  cases tys with
  | nil => rfl
  | cons ty rest =>
    rw [eraseAll,lowerAll,lowerAll,Ty.llvmSizeFields,Ty.llvmSizeFields,lower_erase_fieldSize ty,
      lowerAll_erase_fieldSize rest]
end

/-- The element types have one size and are loaded alike. -/
structure SameCells (elem elem' : Ty) : Prop where
  fieldSize : elem.llvmFieldSize = elem'.llvmFieldSize
  varIsPtr : elem.llvmVarIsPtr = elem'.llvmVarIsPtr

theorem sameCells_of_erase {ty ty' : ParamTy} (h : ty.erase = ty'.erase) :
    SameCells ty.lower ty'.lower := by
  constructor
  · rw [← lower_erase_fieldSize ty,h,lower_erase_fieldSize]
  · rw [← lower_erase_varIsPtr ty,h,lower_erase_varIsPtr]

/-! ### Arrays of elements with the same cells -/

section Arrays

variable {host : Host} {α : Type} {elem elem' : Ty} {dims : List ArrayLength}
  (h : SameCells elem elem')

include h

theorem arraySubscript_congr (dims : List ArrayLength) (array index : Value) :
    arraySubscript host (.array elem dims) array index .uint32 =
      arraySubscript host (.array elem' dims) array index .uint32 := by
  have hstride : Ty.llvmStride elem dims.dropLast = Ty.llvmStride elem' dims.dropLast := by
    simp only [Ty.llvmStride,Ty.llvmSize,h.fieldSize]
  simp only [arraySubscript,Ty.isMapping,subscriptLength,Ty.arrayLength,Ty.isContractStorage,
    Ty.isDynamicMemory,Ty.derefMemory,hstride,Bool.false_eq_true,if_false]
  rfl

theorem buildLoad_congr (p : Pointer) : buildLoad elem p = buildLoad elem' p := by
  rw [buildLoad,buildLoad,h.varIsPtr]

/-- The value and the place of a row do not depend on the element type. -/
theorem indexArray_congr {indexes : List ℕ} {i : ℕ} (hlen : indexes.length ≤ i+1)
    (row : List ArrayLength) (arr place : Value) (k : Value → Value → Code α) :
    (indexArray host elem dims i indexes (arr,.array elem row,place) >>=
        fun r => k r.1 r.2.2) =
      indexArray host elem' dims i indexes (arr,.array elem' row,place) >>=
        fun r => k r.1 r.2.2 := by
  induction indexes generalizing i row arr place with
  | nil => rfl
  | cons index indexes ih =>
    rw [indexArray,indexArray,arraySubscript_congr h]
    simp only [Exec.bind_assoc]
    congr 1
    funext place
    congr 1
    funext p
    cases i with
    | zero =>
      obtain rfl := List.eq_nil_of_length_eq_zero (by simpa using hlen)
      simp only [if_true,buildLoad_congr h]
      rfl
    | succ i =>
      have hload : ∀ q, buildLoad (.array elem (dims.take (i+1))) q =
          buildLoad (.array elem' (dims.take (i+1))) q := fun q => rfl
      simp only [if_neg (Nat.succ_ne_zero i),hload]
      congr 1
      funext arr
      exact ih (by simpa using hlen) _ _ _

variable {indexes : List ℕ} (hlen : indexes.length < dims.length)

include hlen

theorem arrayBound_congr (dimension : ℕ) (arr : Value) :
    arrayBound host elem dims dimension arr (.array elem dims) indexes =
      arrayBound host elem' dims dimension arr (.array elem' dims) indexes := by
  unfold arrayBound
  cases dims[dimension]? with
  | none => rfl
  | some d =>
    cases d with
    | fixed d => rfl
    | dynamic => exact indexArray_congr h (by omega) dims arr arr fun sub _ => vectorLen sub

theorem decodeLength_congr (buffer : Pointer) (dimension : ℕ) (r : Value × Felt) :
    decodeLength host elem dims buffer dimension indexes r =
      decodeLength host elem' dims buffer dimension indexes r := by
  obtain ⟨arrayVar,offset⟩ := r
  simp only [decodeLength]
  split
  · congr 1
    funext length
    congr 1
    funext allocated
    congr 1
    exact indexArray_congr h (by omega) dims _ _ fun _ place => do
      let p ← intoPointerValue place
      buildStore p (.ptr allocated)
      pure (arrayVar,offset + 1)
  · rfl

omit hlen in
theorem decodeComplexArray_congr (readElem : Pointer → Code (Value × Felt)) {dimension : ℕ}
    (hlen : indexes.length + dimension < dims.length) (buffer : Pointer) (r : Value × Felt) :
    decodeComplexArray host readElem elem dims dimension buffer indexes r =
      decodeComplexArray host readElem elem' dims dimension buffer indexes r := by
  induction dimension generalizing indexes buffer r with
  | zero =>
    rw [decodeComplexArray,decodeComplexArray,decodeLength_congr h hlen]
    congr 1
    funext ⟨arrayVar,offset⟩
    simp only [arrayBound_congr h hlen]
    congr 1
    funext index ⟨arrayVar,offset⟩
    congr 1
    funext ⟨readValue,advance⟩
    exact indexArray_congr h (by simp; omega) dims _ _ fun _ place => do
      let p ← intoPointerValue place
      buildStore p readValue
      pure (arrayVar,advance + offset)
  | succ dimension ih =>
    rw [decodeComplexArray,decodeComplexArray,decodeLength_congr h (by omega)]
    congr 1
    funext ⟨arrayVar,offset⟩
    simp only [arrayBound_congr h (show indexes.length < dims.length by omega)]
    congr 1
    funext index ⟨arrayVar,offset⟩
    exact ih (by simp; omega) _ _

end Arrays

/-! ### Alike types have one decoder -/

theorem isPrimitive_lower {ty : ParamTy} (h : isPrimitive ty.lower = true) :
    ty.erase.lower = ty.lower := by
  cases ty with
  | userType ty => cases ty <;> rfl
  | bool | uint32 | field => rfl
  | _ => cases h

theorem allowMemcpy_lower {elem : ParamTy} {dims : List ArrayLength} (h : elem.isArray = false)
    (hcopy : allowMemcpy (.array elem.lower dims) = true) : isPrimitive elem.lower = true := by
  have helem : allowMemcpy elem.lower = isPrimitive elem.lower := by
    cases elem with
    | array elem dims => cases h
    | userType ty => cases ty <;> rfl
    | _ => rfl
  rw [allowMemcpy,helem] at hcopy
  split at hcopy
  · simp_all
  · exact hcopy

theorem storeFields_erase (tys : List ParamTy) (values : List Value) (p : Pointer) (offset : ℕ) :
    storeFields (lowerAll (eraseAll tys)) values p offset =
      storeFields (lowerAll tys) values p offset := by
  induction tys generalizing values offset with
  | nil => rfl
  | cons ty rest ih =>
    cases values with
    | nil => rfl
    | cons elem values =>
      simp only [eraseAll,lowerAll,storeFields,lower_erase_fieldSize,ih]

theorem length_lowerAll (tys : List ParamTy) : (lowerAll tys).length = tys.length := by
  induction tys with
  | nil => rfl
  | cons ty rest ih => simp [lowerAll,ih]

theorem length_eraseAll (tys : List ParamTy) : (eraseAll tys).length = tys.length := by
  induction tys with
  | nil => rfl
  | cons ty rest ih => simp [eraseAll,ih]

theorem structLiteralCopy_congr {tys tys' : List ParamTy} (h : eraseAll tys = eraseAll tys')
    (values : List Value) :
    structLiteralCopy (lowerAll tys) values = structLiteralCopy (lowerAll tys') values := by
  have hlen : tys.length = tys'.length := by rw [← length_eraseAll,h,length_eraseAll]
  have hstore : ∀ p, storeFields (lowerAll tys) values p 0 = storeFields (lowerAll tys') values p 0 := by
    intro p
    rw [← storeFields_erase tys,h,storeFields_erase]
  simp only [structLiteralCopy,length_lowerAll,hlen,hstore]

theorem Alike.elem {elem elem' : ParamTy} {dims dims' : List ArrayLength}
    (h : Alike (.array elem dims) (.array elem' dims')) : Alike elem elem' :=
  fun _ _ _ _ hp => h _ _ _ _ (.elem hp)

theorem Alike.member {fields fields' : List ParamTy} (h : Alike (.struct fields) (.struct fields'))
    {i : ℕ} {ty ty' : ParamTy} (hty : fields[i]? = some ty) (hty' : fields'[i]? = some ty') :
    Alike ty ty' := fun _ _ _ _ hp => h _ _ _ _ (.member i hty hty' hp)

theorem Alike.rest {ty ty' : ParamTy} {rest rest' : List ParamTy}
    (h : Alike (.struct (ty::rest)) (.struct (ty'::rest'))) : Alike (.struct rest) (.struct rest') := by
  intro elem dims elem' dims' hp
  cases hp with
  | member i hty hty' hp => exact h _ _ _ _ (.member (i+1) hty hty' hp)

/-- The types that are neither structs nor arrays. -/
def isPlain : ParamTy → Bool
  | .struct _ | .array _ _ => false
  | _ => true

theorem isPlain_erase (ty : ParamTy) : isPlain ty.erase = isPlain ty := by
  cases ty with
  | userType ty => cases ty <;> rfl
  | _ => rfl

theorem eq_struct_of_erase {ty : ParamTy} {fields : List ParamTy} (h : ty.erase = .struct fields) :
    ∃ fields', ty = .struct fields' ∧ eraseAll fields' = fields := by
  cases ty with
  | struct fields' =>
    rw [erase,ParamTy.struct.injEq] at h
    exact ⟨fields',rfl,h⟩
  | userType ty => cases ty <;> cases h
  | _ => cases h

theorem eq_array_of_erase {ty elem : ParamTy} {dims : List ArrayLength}
    (h : ty.erase = .array elem dims) : ∃ elem', ty = .array elem' dims ∧ elem'.erase = elem := by
  cases ty with
  | array elem' dims' =>
    rw [erase,ParamTy.array.injEq] at h
    obtain ⟨helem,rfl⟩ := h
    exact ⟨elem',rfl,helem⟩
  | userType ty => cases ty <;> cases h
  | _ => cases h

theorem readFromBuffer_erase (host : Host) {ty : ParamTy} (h : isPlain ty = true) :
    readFromBuffer host ty.erase.lower = readFromBuffer host ty.lower := by
  cases ty with
  | struct fields => cases h
  | array elem dims => cases h
  | userType ty => cases ty <;> rfl
  | _ => rfl

theorem readFromBuffer_plain (host : Host) {ty ty' : ParamTy} (hplain : isPlain ty = true)
    (h : ty.erase = ty'.erase) : readFromBuffer host ty.lower = readFromBuffer host ty'.lower := by
  have hplain' : isPlain ty' = true := by rw [← isPlain_erase,← h,isPlain_erase,hplain]
  rw [← readFromBuffer_erase host hplain,h,readFromBuffer_erase host hplain']

theorem decodeArray_congr (host : Host) {elem elem' : ParamTy} {dims : List ArrayLength}
    (hdims : dims ≠ []) (helem : elem.isArray = false) (helem' : elem'.isArray = false)
    (h : elem.erase = elem'.erase)
    (hcopy : allowMemcpy (.array elem.lower dims) = allowMemcpy (.array elem'.lower dims))
    (hread : readFromBuffer host elem.lower = readFromBuffer host elem'.lower) :
    readFromBuffer host (.array elem.lower dims) = readFromBuffer host (.array elem'.lower dims) := by
  funext buffer
  by_cases hc : allowMemcpy (.array elem.lower dims) = true
  · have hlower : elem.lower = elem'.lower := by
      rw [← isPrimitive_lower (allowMemcpy_lower helem hc),h,
        isPrimitive_lower (allowMemcpy_lower helem' (hcopy ▸ hc))]
    rw [hlower]
  · have hlen := List.length_pos_iff.mpr hdims
    rw [readFromBuffer,readFromBuffer,decodeArray,decodeArray,if_neg hc,if_neg (hcopy ▸ hc),hread]
    congr 1
    funext arrayVar
    rw [decodeComplexArray_congr (sameCells_of_erase h) _ (by simp; omega)]

mutual
/-- Types with one erasure whose arrays are copied alike have one decoder. -/
theorem readFromBuffer_congr (host : Host) {ty ty' : ParamTy} (hty : ty.isResolved = true)
    (hty' : ty'.isResolved = true) (herase : ty.erase = ty'.erase) (h : Alike ty ty') :
    readFromBuffer host ty.lower = readFromBuffer host ty'.lower := by
  match ty with
  | .struct fields =>
    obtain ⟨fields',rfl,hfields⟩ := eq_struct_of_erase herase.symm
    funext buffer
    rw [lower,lower,readFromBuffer,readFromBuffer,readFields_congr host hty hty' hfields.symm h]
    simp only [structLiteralCopy_congr hfields]
  | .array elem dims =>
    obtain ⟨elem',rfl,helem⟩ := eq_array_of_erase herase.symm
    have hcopy := h _ _ _ _ .refl
    simp only [isResolved,Bool.and_eq_true,Bool.not_eq_true'] at hty hty'
    have hread := readFromBuffer_congr host hty.2 hty'.2 helem.symm h.elem
    exact decodeArray_congr host (by simpa using hty.1.1.1) hty.1.1.2 hty'.1.1.2 helem.symm hcopy
      hread
  | .bool | .uint32 | .field | .enum | .address | .contract | .hash | .string | .dynamicBytes
  | .userType _ => exact readFromBuffer_plain host rfl herase

theorem readFields_congr (host : Host) {tys tys' : List ParamTy} (htys : areResolved tys = true)
    (htys' : areResolved tys' = true) (herase : eraseAll tys = eraseAll tys')
    (h : Alike (.struct tys) (.struct tys')) :
    readFields host (lowerAll tys) = readFields host (lowerAll tys') := by
  match tys, tys' with
  | [], [] => rfl
  | [], ty'::rest' => cases herase
  | ty::rest, [] => cases herase
  | ty::rest, ty'::rest' =>
    simp only [areResolved,Bool.and_eq_true] at htys htys'
    rw [eraseAll,eraseAll,List.cons.injEq] at herase
    have hhead := readFromBuffer_congr host htys.1 htys'.1 herase.1 (h.member (i := 0) rfl rfl)
    have htail := readFields_congr host htys.2 htys'.2 herase.2 h.rest
    funext buffer
    rw [lowerAll,lowerAll,readFields,readFields,hhead,htail]
end

theorem abiDecode_congr (host : Host) {tys tys' : List ParamTy} (htys : areResolved tys = true)
    (htys' : areResolved tys' = true) (herase : eraseAll tys = eraseAll tys')
    (h : Alike (.struct tys) (.struct tys')) :
    abiDecode host (lowerAll tys) = abiDecode host (lowerAll tys') := by
  match tys, tys' with
  | [], [] => rfl
  | [], ty'::rest' => cases herase
  | ty::rest, [] => cases herase
  | ty::rest, ty'::rest' =>
    simp only [areResolved,Bool.and_eq_true] at htys htys'
    rw [eraseAll,eraseAll,List.cons.injEq] at herase
    have hhead := readFromBuffer_congr host htys.1 htys'.1 herase.1 (h.member (i := 0) rfl rfl)
    have htail := abiDecode_congr host htys.2 htys'.2 herase.2 h.rest
    funext input
    rw [lowerAll,lowerAll,abiDecode,abiDecode,hhead,htail]

/-! ### Copied arrays and others -/

theorem arrayLoop_keeps {δ : Type} {bound : Code Felt} {body : ℕ → δ → Code δ} {P : δ → Prop}
    (hbody : ∀ i d s d' t, P d → body i d s = .ok (d',t) → P d') {fuel i : ℕ} {d d' : δ}
    {s t : State} (hd : P d) (h : arrayLoop bound body fuel i d s = .ok (d',t)) : P d' := by
  induction fuel generalizing i d s with
  | zero => cases h
  | succ fuel ih =>
    rw [arrayLoop,bind_eq_ok] at h
    obtain ⟨n,u,-,h⟩ := h
    split at h
    · obtain ⟨d₁,u₁,hstep,h⟩ := bind_eq_ok.mp h
      exact ih (hbody i d u d₁ u₁ hd hstep) h
    · cases h
      exact hd

/-- Only a dynamic outer dimension replaces the array. -/
theorem decodeLength_keeps {host : Host} {elemTy : Ty} {dims : List ArrayLength} {buffer : Pointer}
    {dimension : ℕ} {indexes : List ℕ} {r r' : Value × Felt} {s t : State}
    (hdim : indexes ≠ [] ∨ dims[dimension]? ≠ some .dynamic)
    (h : decodeLength host elemTy dims buffer dimension indexes r s = .ok (r',t)) : r'.1 = r.1 := by
  obtain ⟨arrayVar,offset⟩ := r
  simp only [decodeLength] at h
  split at h
  · obtain ⟨length,u,-,h⟩ := bind_eq_ok.mp h
    obtain ⟨allocated,u₁,-,h⟩ := bind_eq_ok.mp h
    split at h
    · simp_all
    · obtain ⟨row,u₂,-,h⟩ := bind_eq_ok.mp h
      obtain ⟨p,u₃,-,h⟩ := bind_eq_ok.mp h
      obtain ⟨_,u₄,-,h⟩ := bind_eq_ok.mp h
      cases h
      rfl
  · cases h
    rfl

theorem decodeComplexArray_keeps {host : Host} {readElem : Pointer → Code (Value × Felt)}
    {elemTy : Ty} {dims : List ArrayLength} {dimension : ℕ} {buffer : Pointer} {indexes : List ℕ}
    {r r' : Value × Felt} {s t : State} (hdim : indexes ≠ [] ∨ dims[dimension]? ≠ some .dynamic)
    (h : decodeComplexArray host readElem elemTy dims dimension buffer indexes r s = .ok (r',t)) :
    r'.1 = r.1 := by
  induction dimension generalizing buffer indexes r r' s t with
  | zero =>
    obtain ⟨⟨arrayVar,offset⟩,u,hlength,h⟩ := bind_eq_ok.mp h
    rw [← decodeLength_keeps hdim hlength]
    refine arrayLoop_keeps (P := fun d => d.1 = arrayVar) (fun i d s d' t hd hbody => ?_) rfl h
    obtain ⟨read,u,-,hbody⟩ := bind_eq_ok.mp hbody
    obtain ⟨row,u,-,hbody⟩ := bind_eq_ok.mp hbody
    obtain ⟨p,u,-,hbody⟩ := bind_eq_ok.mp hbody
    obtain ⟨_,u,-,hbody⟩ := bind_eq_ok.mp hbody
    cases hbody
    exact hd
  | succ dimension ih =>
    obtain ⟨⟨arrayVar,offset⟩,u,hlength,h⟩ := bind_eq_ok.mp h
    rw [← decodeLength_keeps hdim hlength]
    refine arrayLoop_keeps (P := fun d => d.1 = arrayVar) (fun i d s d' t hd hbody => ?_) rfl h
    exact (ih (.inl (by simp)) hbody).trans hd

/-- The array that is read element by element is what its cell held, unless it is dynamic. -/
theorem decodeArray_fixed {host : Host} {readElem : Pointer → Code (Value × Felt)} {elemTy : Ty}
    {dims : List ArrayLength} {buffer : Pointer} {r : Value × Felt} {s t : State}
    (hdim : dims[dims.length-1]? ≠ some .dynamic) (hc : ¬ allowMemcpy (.array elemTy dims) = true)
    (h : decodeArray host readElem elemTy dims buffer s = .ok (r,t)) :
    r.1 = .ptr (s.mem (.stack s.stack)).pointer := by
  rw [decodeArray,if_neg hc] at h
  obtain ⟨arrayVar,u,hvar,h⟩ := bind_eq_ok.mp h
  cases hvar
  obtain ⟨r',u,hread,h⟩ := bind_eq_ok.mp h
  cases h
  rw [decodeComplexArray_keeps (.inr hdim) hread]

/-- A vector that is read element by element is a new one. -/
theorem decodeArray_vector {host : Host} {readElem : Pointer → Code (Value × Felt)} {elemTy : Ty}
    {buffer : Pointer} {r : Value × Felt} {s t : State}
    (hc : ¬ allowMemcpy (.array elemTy [.dynamic]) = true)
    (h : decodeArray host readElem elemTy [.dynamic] buffer s = .ok (r,t)) :
    r.1 = .ptr (.heap s.heap) := by
  rw [decodeArray,if_neg hc] at h
  obtain ⟨arrayVar,u,hvar,h⟩ := bind_eq_ok.mp h
  cases hvar
  obtain ⟨r',u,hread,h⟩ := bind_eq_ok.mp h
  cases h
  obtain ⟨⟨arrayVar,offset⟩,u,hlength,hread⟩ := bind_eq_ok.mp hread
  cases hlength
  have hkept : r'.1 = .ptr (.heap s.heap) := by
    refine arrayLoop_keeps (P := fun d => d.1 = .ptr (.heap s.heap))
      (fun i d s d' t hd hbody => ?_) rfl hread
    obtain ⟨read,u,-,hbody⟩ := bind_eq_ok.mp hbody
    obtain ⟨row,u,-,hbody⟩ := bind_eq_ok.mp hbody
    obtain ⟨p,u,-,hbody⟩ := bind_eq_ok.mp hbody
    obtain ⟨_,u,-,hbody⟩ := bind_eq_ok.mp hbody
    cases hbody
    exact hd
  rw [hkept]
  rfl

/-- The dimensions of copied arrays. -/
theorem dims_of_copied {elem : ParamTy} {dims : List ArrayLength} (hdims : dims ≠ [])
    (hc : allowMemcpy (.array elem.lower dims) = true) :
    dims = [.dynamic] ∨ .dynamic ∉ dims := by
  rw [allowMemcpy] at hc
  by_cases hmem : .dynamic ∈ dims
  · have hdynamic : isDynamic (.array elem.lower dims) = true := by simp [isDynamic,hmem]
    rw [if_pos hdynamic,Bool.and_eq_true,decide_eq_true_eq,List.length_eq_one_iff] at hc
    obtain ⟨⟨d,rfl⟩,-⟩ := hc
    exact .inl (by simpa [eq_comm] using hmem)
  · exact .inr hmem

/-- A copied array is the tape itself. -/
theorem copied_returns (host : Host) {elem : ParamTy} {dims : List ArrayLength} (hdims : dims ≠ [])
    (helem : elem.isArray = false) (hc : allowMemcpy (.array elem.lower dims) = true)
    (buffer : Pointer) (s : State) : ∃ size,
      readFromBuffer host (.array elem.lower dims) buffer s = .ok ((.ptr buffer,size),s) := by
  have hprimitive := allowMemcpy_lower helem hc
  have hdirect : directAssessment dims = true := by
    rcases dims_of_copied hdims hc with rfl | hfixed
    · rfl
    · simp [directAssessment,List.count_eq_zero.mpr hfixed]
  have hsize : primitiveSize elem.lower dims = some elem.lower.memorySizeOf := by
    simp [primitiveSize,hprimitive,hdirect]
  obtain ⟨d,hd⟩ : ∃ d, dims.getLast? = some d := ⟨_,List.getLast?_eq_some_getLast hdims⟩
  rw [readFromBuffer,decodeArray,if_pos hc,getArgsTypeSize]
  cases d with
  | fixed d =>
    refine ⟨(d : Felt) * (Ty.dimsSize dims.dropLast : ℕ) * (elem.lower.memorySizeOf : ℕ),?_⟩
    simp only [calculateArraySize,hsize,hd]
    rfl
  | dynamic =>
    refine ⟨s.cell buffer * (Ty.dimsSize dims.dropLast : ℕ) * (elem.lower.memorySizeOf : ℕ) + 1,?_⟩
    simp only [calculateArraySize,hsize,hd]
    rfl

def blankState : State := ⟨fun _ => .int 0,0,0,fun _ => .zero⟩

/-- A copied array and one that is read element by element are different values. -/
theorem readFromBuffer_ne (host : Host) {elem elem' : ParamTy} {dims : List ArrayLength}
    (hdims : dims ≠ []) (helem : elem.isArray = false)
    (hc : allowMemcpy (.array elem.lower dims) = true)
    (hc' : ¬ allowMemcpy (.array elem'.lower dims) = true) :
    readFromBuffer host (.array elem.lower dims) ≠ readFromBuffer host (.array elem'.lower dims) := by
  intro heq
  have hread : ∀ buffer, ∃ size, decodeArray host (readFromBuffer host elem'.lower) elem'.lower dims
      buffer blankState = .ok ((.ptr buffer,size),blankState) := by
    intro buffer
    obtain ⟨size,h⟩ := copied_returns host hdims helem hc buffer blankState
    rw [heq,readFromBuffer] at h
    exact ⟨size,h⟩
  rcases dims_of_copied hdims hc with rfl | hfixed
  · obtain ⟨size,h⟩ := hread (.stack 0)
    cases decodeArray_vector hc' h
  · obtain ⟨size,h⟩ := hread (.heap 0)
    have hdim : dims[dims.length-1]? ≠ some .dynamic := fun h => hfixed (List.mem_of_getElem? h)
    cases decodeArray_fixed hdim hc' h

theorem isResolved_getElem {tys : List ParamTy} (h : areResolved tys = true) {i : ℕ} {ty : ParamTy}
    (hty : tys[i]? = some ty) : ty.isResolved = true := by
  induction tys generalizing i with
  | nil => simp at hty
  | cons ty' rest ih =>
    rw [areResolved,Bool.and_eq_true] at h
    cases i with
    | zero =>
      cases hty
      exact h.1
    | succ i => exact ih h.2 hty

theorem eraseAll_getElem (tys : List ParamTy) (i : ℕ) :
    (eraseAll tys)[i]? = tys[i]?.map erase := by
  induction tys generalizing i with
  | nil => rfl
  | cons ty rest ih =>
    cases i with
    | zero => rfl
    | succ i => exact ih i

/-- The types at one place of types with one erasure have one erasure. -/
theorem Part.erase {ty ty' p p' : ParamTy} (h : Part ty ty' p p') (hty : ty.isResolved = true)
    (hty' : ty'.isResolved = true) (herase : ty.erase = ty'.erase) :
    p.isResolved = true ∧ p'.isResolved = true ∧ p.erase = p'.erase := by
  induction h with
  | refl => exact ⟨hty,hty',herase⟩
  | member i h h' hp ih =>
    rw [ParamTy.erase,ParamTy.erase,ParamTy.struct.injEq] at herase
    have hi := congrArg (·[i]?) herase
    simp only [eraseAll_getElem,h,h',Option.map_some,Option.some.injEq] at hi
    exact ih (isResolved_getElem hty h) (isResolved_getElem hty' h') hi
  | elem hp ih =>
    rw [ParamTy.erase,ParamTy.erase,ParamTy.array.injEq] at herase
    simp only [isResolved,Bool.and_eq_true] at hty hty'
    exact ih hty.2 hty'.2 herase.1

theorem Part.trans {ty ty' p p' q q' : ParamTy} (h : Part ty ty' p p') (hq : Part p p' q q') :
    Part ty ty' q q' := by
  induction h with
  | refl => exact hq
  | member i h h' hp ih => exact .member i h h' (ih hq)
  | elem hp ih => exact .elem (ih hq)

theorem alike_of_parts (host : Host) {ty ty' : ParamTy} (hty : ty.isResolved = true)
    (hty' : ty'.isResolved = true) (herase : ty.erase = ty'.erase)
    (h : ∀ p p', Part ty ty' p p' → readFromBuffer host p.lower = readFromBuffer host p'.lower) :
    Alike ty ty' := by
  intro elem dims elem' dims' hp
  obtain ⟨hres,hres',heq⟩ := hp.erase hty hty' herase
  rw [erase,erase,ParamTy.array.injEq] at heq
  obtain ⟨-,rfl⟩ := heq
  simp only [isResolved,Bool.and_eq_true,Bool.not_eq_true'] at hres hres'
  have hdims : dims ≠ [] := by simpa using hres.1.1.1
  have hread := h _ _ hp
  rw [lower,lower] at hread
  by_cases hc : allowMemcpy (.array elem.lower dims) = true
  · by_cases hc' : allowMemcpy (.array elem'.lower dims) = true
    · rw [hc,hc']
    · exact absurd hread (readFromBuffer_ne host hdims hres.1.1.2 hc hc')
  · by_cases hc' : allowMemcpy (.array elem'.lower dims) = true
    · exact absurd hread.symm (readFromBuffer_ne host hdims hres'.1.1.2 hc' hc)
    · simp_all

/-- A signature determines the decoder unless an array at one place of the parameters is copied and
the other is read element by element. -/
theorem signature_determines_iff (host : Host) (f g : Function) : Determines host f g ↔
    (f.name = g.name → eraseAll f.params = eraseAll g.params →
      Alike (.struct f.params) (.struct g.params)) := by
  constructor
  · intro h hname herase
    refine alike_of_parts host f.resolved g.resolved (by rw [erase,erase,herase]) ?_
    exact h.parts ((signature_eq_iff f g).mpr ⟨hname,herase⟩)
  · intro h
    refine ⟨signature_eq_iff f g,fun hsig => ?_,fun hsig ty ty' hp => ?_⟩
    · obtain ⟨hname,herase⟩ := (signature_eq_iff f g).mp hsig
      funext input
      rw [Function.decode,Function.decode,
        abiDecode_congr host f.resolved g.resolved herase (h hname herase)]
    · obtain ⟨hname,herase⟩ := (signature_eq_iff f g).mp hsig
      obtain ⟨hty,hty',heq⟩ := hp.erase f.resolved g.resolved (by rw [erase,erase,herase])
      exact readFromBuffer_congr host hty hty' heq
        fun _ _ _ _ hq => h hname herase _ _ _ _ (hp.trans hq)

theorem isIdentifier_f : IsIdentifier ['f'] := ⟨[],'f',[],rfl,by simp,rfl,by simp⟩

def takesNumbers : Function := ⟨['f'],[.array .uint32 [.fixed 3]],isIdentifier_f,rfl⟩

def takesEnums : Function := ⟨['f'],[.array .enum [.fixed 3]],isIdentifier_f,rfl⟩

/-- Both signatures are `f(u32[3])`. The numbers are left on the tape, the enums are written to
where the fresh cell of their array points. -/
theorem enums_decoded_apart : takesNumbers.signature = takesEnums.signature ∧
    ∀ host, takesNumbers.decode host ≠ takesEnums.decode host := by
  refine ⟨(signature_eq_iff _ _).mpr ⟨rfl,rfl⟩,fun host heq => ?_⟩
  have hcopied : takesNumbers.decode host (.heap 0) blankState =
      .ok ([.ptr (.heap 0)],blankState) := rfl
  rw [heq] at hcopied
  obtain ⟨⟨value,advance⟩,u,hread,hrest⟩ := bind_eq_ok.mp hcopied
  obtain ⟨values,u,hvalues,hrest⟩ := bind_eq_ok.mp hrest
  obtain rfl : value = .ptr (.stack 0) :=
    decodeArray_fixed (show [ArrayLength.fixed 3][0]? ≠ some .dynamic by simp) (by decide) hread
  cases hrest

end Signatures
end OlaLang
