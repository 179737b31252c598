import OlaLang.SizeAgreement
import OlaLang.DecodeSpec

/-! Arrays of fixed length over vectors: the encoder writes the length of the first vector, takes its
type for that of the array, and reads the pointer in front as a length. -/
namespace OlaLang
namespace Encoding

open Exec (Returns bind_ok bind_error)
open Builder Corelib

variable {s t : State} {p : Pointer} {elemTy : Ty} {dims front fixeds inner : List ArrayLength}

/-- Dimensions as the analysis lets them pass. -/
def Positive (dims : List ArrayLength) : Prop := ∀ d, .fixed d ∈ dims → 0 < d ∧ d < 2^32

/-! ### The loops stop -/

theorem arrayLoop_stops {δ : Type} {bound : Code Felt} {body : ℕ → δ → Code δ} {d : δ} {e : Fault}
    (h : bound s = .error e) : arrayLoop bound body FIELD_ORDER 0 d s = .error e := by
  suffices ∀ fuel, arrayLoop bound body (fuel+1) 0 d s = .error e from this (FIELD_ORDER-1)
  intro fuel
  rw [arrayLoop,bind_error h]

theorem arrayLoop_stops_body {δ : Type} {bound : Code Felt} {body : ℕ → δ → Code δ} {d : δ}
    {e : Fault} {n : ℕ} (hn : 0 < n) (hlt : n < FIELD_ORDER) (hbound : bound s = .ok ((n : Felt),s))
    (h : body 0 d s = .error e) : arrayLoop bound body FIELD_ORDER 0 d s = .error e := by
  suffices ∀ fuel, arrayLoop bound body (fuel+1) 0 d s = .error e from this (FIELD_ORDER-1)
  intro fuel
  rw [arrayLoop,bind_ok hbound,val_cast hlt,if_pos hn,bind_error h]

variable (host : Host)

/-- The pointer in front is no length. -/
theorem arraySubscript_misread (hlast : dims.getLast? = some .dynamic)
    (hcell : ¬ Felt.IsU32 (t.cell p - 1 - ((0 : ℕ) : Felt))) :
    arraySubscript host (.array elemTy dims) (.ptr p) (.int ((0 : ℕ) : Felt)) .uint32 t =
      .error .abort := by
  have hcheck : rangeCheck (.int (t.cell p - 1 - ((0 : ℕ) : Felt))) t = .error .abort := by
    show builtinRangeCheck (.int (t.cell p - 1 - ((0 : ℕ) : Felt))) t = _
    simp only [builtinRangeCheck,printImmediate_int,Exec.pure_bind,Value.felt_int,hcell,if_false]
    rfl
  have hone : ((1 : BitVec 64).toNat : Felt) = 1 := by simp
  have hlength : subscriptLength host (.array elemTy [.dynamic]) (.ptr p) t =
      .ok (.int (t.cell p),t) := rfl
  have hsub1 : buildIntSub (.int (t.cell p)) (.const 1) t = .ok (.int (t.cell p - 1),t) := by
    rw [← hone]
    rfl
  have hsub2 : buildIntSub (.int (t.cell p - 1)) (.int ((0 : ℕ) : Felt)) t =
      .ok (.int (t.cell p - 1 - ((0 : ℕ) : Felt)),t) := rfl
  have hmapping : (Ty.array elemTy [.dynamic]).isMapping = false := rfl
  rw [arraySubscript_dynamic host hlast,arraySubscript,hmapping,if_neg (by simp),bind_ok hlength,
    bind_ok hsub1,bind_ok hsub2,bind_error hcheck]

/-- The generator passes through the fixed dimensions, whatever it loads there. -/
theorem indexArray_fixed (elemTy : Ty) (dims inner : List ArrayLength) (hfixed : .dynamic ∉ fixeds)
    (hpos : Positive fixeds) (hinner : inner ≠ [])
    (htake : dims.take (fixeds ++ inner).length = (fixeds ++ inner).reverse) (v w : Value) :
    ∃ v' w', indexArray host elemTy dims ((fixeds ++ inner).length-1) (List.replicate fixeds.length 0)
        (v,.array elemTy (fixeds ++ inner).reverse,w) s =
      .ok ((v',.array elemTy inner.reverse,w'),s) ∧ (fixeds ≠ [] → ∃ p, v' = .ptr p) := by
  induction fixeds generalizing v w with
  | nil => exact ⟨v,w,rfl,fun hne => absurd rfl hne⟩
  | cons dim fixeds ih =>
    cases dim with
    | dynamic => exact absurd (by simp) hfixed
    | fixed d =>
      have hd := hpos d (by simp)
      have hne : fixeds ++ inner ≠ [] := by simp [hinner]
      have htake' : dims.take (fixeds ++ inner).length = (fixeds ++ inner).reverse := take_row htake
      have hlocal : (if (fixeds ++ inner).length = 0 then elemTy
          else .array elemTy (dims.take (fixeds ++ inner).length)) =
            .array elemTy (fixeds ++ inner).reverse := by
        rw [htake',if_neg (by simpa using hne)]
      obtain ⟨v',w',hrun,hv'⟩ := ih (fun hmem => hfixed (by simp [hmem]))
        (fun d hmem => hpos d (by simp [hmem])) htake'
        (loaded s (.array elemTy (fixeds ++ inner).reverse) (v.pointer.add (0 *
          Ty.llvmStride elemTy (ArrayLength.fixed d::(fixeds ++ inner)).reverse.dropLast))) _
      refine ⟨v',w',?_,fun _ => ?_⟩
      · rw [List.length_cons,List.replicate_succ,List.cons_append,List.length_cons,Nat.add_sub_cancel,
          indexArray,hlocal,bind_ok (arraySubscript_fixed host (by simp) hd.2 hd.1 v)]
        rw [bind_ok (show intoPointerValue (.ptr _) s = .ok (_,s) from rfl),
          bind_ok (buildLoad_eq _ _ s)]
        exact hrun
      · cases fixeds with
        | cons dim fixeds => exact hv' (by simp)
        | nil =>
          cases hrun
          exact kind_loaded _ _ _ rfl

/-! ### The encoder stops at the first dynamic dimension -/

theorem reverse_dimension (front rest : List ArrayLength) (dim : ArrayLength) :
    (front ++ dim::rest).reverse[rest.length]? = some dim := by
  rw [List.reverse_append,List.reverse_cons,List.append_assoc,List.getElem?_append_right (by simp)]
  simp

theorem encodeComplexArray_stops {encodeElem : Pointer → Value → Code Felt} {buffer : Pointer}
    {array : Value} {k : ℕ} {ty ty' : Ty} {indexes : List ℕ} {offset offset' : Felt} {e : Fault}
    (hlength : encodeLength host elemTy dims buffer array k ty indexes offset s =
      .ok ((ty',offset'),t))
    (hbound : arrayBound host elemTy dims k array ty' indexes t = .error e) :
    encodeComplexArray host encodeElem elemTy dims buffer array k ty indexes offset s = .error e := by
  cases k with
  | zero =>
    rw [encodeComplexArray,bind_ok hlength]
    exact arrayLoop_stops hbound
  | succ k =>
    rw [encodeComplexArray,bind_ok hlength]
    exact arrayLoop_stops hbound

/-- Once the length of a vector is written, the array is read as a vector. -/
theorem encodeComplexArray_vector {encodeElem : Pointer → Value → Code Felt} {b : ℕ}
    (hfixed : .dynamic ∉ front) (hpos : Positive front) (hfront : front ≠ [])
    (hp : ∀ i, p ≠ .heap (b+i)) (hcell : ¬ Felt.IsU32 (s.cell p - 1 - ((0 : ℕ) : Felt)))
    (offset : Felt) :
    ∃ e, encodeComplexArray host encodeElem elemTy (front ++ .dynamic::inner).reverse (.heap b) (.ptr p)
      inner.length (.array elemTy (front ++ .dynamic::inner).reverse) (List.replicate front.length 0)
        offset s = .error e := by
  have hdim := reverse_dimension front inner .dynamic
  obtain ⟨v,w,hrun,hv⟩ := indexArray_fixed host elemTy (front ++ .dynamic::inner).reverse
    (.dynamic::inner) (s := s) hfixed hpos (by simp)
    (by rw [← List.length_reverse,List.take_length]) (.ptr p) (.ptr p)
  obtain ⟨q,rfl⟩ := hv hfront
  have hlength : encodeLength host elemTy (front ++ .dynamic::inner).reverse (.heap b) (.ptr p)
      inner.length (.array elemTy (front ++ .dynamic::inner).reverse) (List.replicate front.length 0)
      offset s = .ok ((.array elemTy (ArrayLength.dynamic::inner).reverse,offset + 1),
        s.write (.heap (b+offset.val)) (.int (s.cell q))) := by
    rw [encodeLength,if_pos hdim,List.length_reverse,bind_ok hrun]
    rfl
  have hcell' : (s.write (.heap (b+offset.val)) (.int (s.cell q))).cell p = s.cell p :=
    State.write_cell_of_ne s _ (hp _)
  obtain ⟨m,hm⟩ : ∃ m, front.length = m+1 :=
    Nat.exists_eq_succ_of_ne_zero (by simpa using hfront)
  refine ⟨.abort,encodeComplexArray_stops host hlength ?_⟩
  rw [arrayBound,hdim]
  show (indexArray host elemTy _ _ _ _ >>= _) _ = _
  refine bind_error ?_
  rw [hm,List.replicate_succ,indexArray]
  refine bind_error (arraySubscript_misread host (by simp) ?_)
  rw [hcell']
  exact hcell

theorem encodeComplexArray_misread (encodeElem : Pointer → Value → Code Felt) (elemTy : Ty)
    (front fixeds inner : List ArrayLength) {b : ℕ}
    (hfixed : .dynamic ∉ front ++ fixeds) (hpos : Positive (front ++ fixeds))
    (hne : front ++ fixeds ≠ []) (hp : ∀ i, p ≠ .heap (b+i))
    (hcell : ¬ Felt.IsU32 (s.cell p - 1 - ((0 : ℕ) : Felt))) (offset : Felt) :
    ∃ e, encodeComplexArray host encodeElem elemTy (front ++ (fixeds ++ .dynamic::inner)).reverse
      (.heap b) (.ptr p) (fixeds.length + inner.length)
      (.array elemTy (front ++ (fixeds ++ .dynamic::inner)).reverse) (List.replicate front.length 0)
        offset s = .error e := by
  induction fixeds generalizing front with
  | nil =>
    rw [List.append_nil] at hfixed hpos hne
    rw [List.length_nil,Nat.zero_add]
    exact encodeComplexArray_vector host hfixed hpos hne hp hcell offset
  | cons dim fixeds ih =>
    cases dim with
    | dynamic => exact absurd (by simp) hfixed
    | fixed d =>
      have hd := hpos d (by simp)
      have hdim := reverse_dimension front (fixeds ++ .dynamic::inner) (.fixed d)
      have hk : (fixeds ++ ArrayLength.dynamic::inner).length = fixeds.length + inner.length + 1 := by
        simp
        omega
      rw [hk] at hdim
      have hrest := @ih (front ++ [.fixed d]) (by simpa using hfixed) (by simpa using hpos)
        (by simp)
      rw [List.append_assoc,List.singleton_append,List.length_append,List.length_singleton,
        List.replicate_succ'] at hrest
      obtain ⟨e,hrest⟩ := hrest
      refine ⟨e,?_⟩
      rw [List.length_cons,Nat.add_right_comm,encodeComplexArray,List.cons_append]
      have hlength : ∀ ty, encodeLength host elemTy (front ++ .fixed d::(fixeds ++ .dynamic::inner)).reverse
          (.heap b) (.ptr p) (fixeds.length + inner.length + 1) ty (List.replicate front.length 0)
          offset s = .ok ((ty,offset),s) := by
        intro ty
        rw [encodeLength,hdim,if_neg (by simp)]
        rfl
      rw [bind_ok (hlength _)]
      refine arrayLoop_stops_body hd.1 (lt_fieldOrder hd.2) ?_ hrest
      rw [arrayBound,hdim]
      rfl

/-! ### Arrays of empty vectors -/

/-- Every cell points to an empty vector. -/
def emptyVectors : State where
  mem q := if q = .heap 0 then .int 0 else .ptr (.heap 0)
  heap := 0
  stack := 0
  storage _ := Word.zero

/-- Rows down to the first dynamic dimension, where each vector is empty. -/
def emptyRows : List ArrayLength → Val
  | .fixed d::rest => .tuple (List.replicate d (emptyRows rest))
  | .dynamic::_ => .vector []
  | [] => .cell 0

def HeapBelow (b : ℕ) (q : Pointer) : Prop := ∃ n < b, q = .heap n

theorem llvmSize_fixed (elemTy : Ty) (d : ℕ) (rest : List ArrayLength) :
    (Ty.array elemTy (ArrayLength.fixed d::rest).reverse).llvmSize =
      (Ty.array elemTy rest.reverse).llvmSize * d := by
  rw [Ty.llvmSize,Ty.llvmSize,List.reverse_cons,List.foldl_append]
  rfl

theorem llvmSize_dynamic (elemTy : Ty) (rest : List ArrayLength) :
    (Ty.array elemTy (ArrayLength.dynamic::rest).reverse).llvmSize = 1 := by
  rw [Ty.llvmSize,List.reverse_cons,List.foldl_append]
  rfl

theorem emptyRows_arrayType {R : Val → Prop} {ds : List ArrayLength} (h : .dynamic ∈ ds) :
    ArrayType R ds (emptyRows ds) := by
  induction ds with
  | nil => cases h
  | cons dim rest ih =>
    cases dim with
    | dynamic => exact ⟨[],rfl,by decide,fun y hy => absurd hy List.not_mem_nil⟩
    | fixed d =>
      refine ⟨List.replicate d (emptyRows rest),rfl,List.length_replicate,fun y hy => ?_⟩
      rw [(List.mem_replicate.mp hy).2]
      exact ih (by simpa using h)

theorem emptyRows_cells (elemTy : Ty) {ds : List ArrayLength} (h : .dynamic ∈ ds) :
    (emptyRows ds).cells.length = (Ty.array elemTy ds.reverse).llvmSize := by
  induction ds with
  | nil => cases h
  | cons dim rest ih =>
    cases dim with
    | dynamic =>
      rw [llvmSize_dynamic]
      rfl
    | fixed d =>
      have hrest := ih (by simpa using h)
      rw [llvmSize_fixed,emptyRows,cells_tuple,length_cellsOf fun x hx => by
        rw [(List.mem_replicate.mp hx).2,hrest],List.length_replicate,Nat.mul_comm]

/-- Rows of empty vectors stand anywhere behind the empty vector. -/
theorem repPlace_emptyRows (rep : Value → Val → Prop) (elemTy : Ty) (ds : List ArrayLength) {b n : ℕ}
    (h : .dynamic ∈ ds) (hn : 0 < n) (hb : n + (Ty.array elemTy ds.reverse).llvmSize ≤ b) :
    RepPlace (HeapBelow b) emptyVectors (RepArray (HeapBelow b) emptyVectors rep elemTy ds) elemTy ds
      (.heap n) (emptyRows ds) := by
  induction ds generalizing n with
  | nil => cases h
  | cons dim rest ih =>
    cases dim with
    | dynamic =>
      rw [llvmSize_dynamic] at hb
      have hmem : emptyVectors.mem (.heap n) = .ptr (.heap 0) := if_neg (by simpa using hn.ne')
      refine ⟨⟨n,by omega,rfl⟩,.heap 0,[],by rw [hmem]; rfl,rfl,by decide,⟨0,by omega,rfl⟩,?_,trivial⟩
      rfl
    | fixed d =>
      rw [llvmSize_fixed] at hb
      refine ⟨.heap n,_,rfl,rfl,List.length_replicate,repItems_iff.mpr fun i hi => ?_⟩
      rw [List.length_replicate] at hi
      have hle : (i + 1) * (Ty.array elemTy rest.reverse).llvmSize ≤
          d * (Ty.array elemTy rest.reverse).llvmSize := Nat.mul_le_mul_right _ hi
      rw [Nat.succ_mul] at hle
      rw [Nat.mul_comm _ d] at hb
      have hplace := ih (n := n + i * (Ty.array elemTy rest.reverse).llvmSize) (by simpa using h)
        (by omega) (by omega)
      simpa [Ty.llvmStride] using hplace

theorem rep_emptyRows (elemTy : Ty) {d b : ℕ} (h : .dynamic ∈ dims)
    (hlast : dims.getLast? = some (.fixed d)) (hb : 1 + (Ty.array elemTy dims).llvmSize ≤ b) :
    Rep (HeapBelow b) emptyVectors (.array elemTy dims) (.ptr (.heap 1)) (emptyRows dims.reverse) := by
  obtain ⟨rest,hrest⟩ : ∃ rest, dims.reverse = .fixed d::rest := by
    rw [← List.head?_reverse] at hlast
    exact List.head?_eq_some_iff.mp hlast
  have hplace := repPlace_emptyRows (Rep (HeapBelow b) emptyVectors elemTy) elemTy
    dims.reverse (n := 1) (by simpa using h) (by omega) (by simpa using hb)
  rw [Rep]
  rw [hrest] at hplace ⊢
  exact hplace

/-- The encoder stops on an array of fixed length with vectors inside, however they are nested. -/
theorem fixed_outer_disagrees (hsame : sameLength dims = false) (hpos : Positive dims)
    (hfits : (Ty.array elemTy dims).llvmSize < FIELD_ORDER) :
    ¬ SizesAgree host [.array elemTy dims] [emptyRows dims.reverse] := by
  intro hagree
  simp only [sameLength,Bool.or_eq_false_iff,decide_eq_false_iff_not,Bool.not_eq_false',
    List.contains_eq_mem,decide_eq_true_eq] at hsame
  obtain ⟨hlast,hmem⟩ := hsame
  obtain ⟨fixeds,inner,hsplit,hfixed⟩ := List.eq_append_cons_of_mem (List.mem_reverse.mpr hmem)
  have hdims : dims = (fixeds ++ ArrayLength.dynamic::inner).reverse := by
    rw [← hsplit,List.reverse_reverse]
  have hne : fixeds ≠ [] := by
    rintro rfl
    exact hlast (by rw [hdims]; simp)
  obtain ⟨d,hd⟩ : ∃ d, dims.getLast? = some (.fixed d) := by
    cases fixeds with
    | nil => exact absurd rfl hne
    | cons dim fixeds =>
      cases dim with
      | fixed d => exact ⟨d,by rw [hdims,List.getLast?_reverse]; rfl⟩
      | dynamic => exact absurd (by simp) hfixed
  have hcopy : allowMemcpy (.array elemTy dims) = false := by
    have hlen : dims.length ≠ 1 := by
      rw [hdims]
      have := List.length_pos_iff.mpr hne
      simp
      omega
    simp [allowMemcpy,isDynamic,hmem,hlen]
  have hcell : ¬ Felt.IsU32 (emptyVectors.cell (.heap 1) - 1 - ((0 : ℕ) : Felt)) := by decide +kernel
  have hp : ∀ i, Pointer.heap 1 ≠ .heap (2 + (Ty.array elemTy dims).llvmSize + i) := by
    intro i heq
    injection heq with heq
    omega
  obtain ⟨e,hstop⟩ := encodeComplexArray_misread host (encodeIntoBuffer host elemTy) elemTy []
    fixeds inner (s := emptyVectors) hfixed
    (fun d hd => hpos d (by rw [hdims]; simp [show ArrayLength.fixed d ∈ fixeds from hd])) hne hp
    hcell 0
  rw [List.nil_append,← hdims] at hstop
  have hdimension : dims.length - 1 = fixeds.length + inner.length := by
    rw [hdims]
    simp
    omega
  have hrep := rep_emptyRows elemTy (b := 2 + (Ty.array elemTy dims).llvmSize) hmem hd (by omega)
  obtain ⟨n,-,hrun⟩ := hagree _ _ (2 + (Ty.array elemTy dims).llvmSize) [.ptr (.heap 1)]
    ⟨hrep,trivial⟩
    (fun n hn => by obtain ⟨m,hm,heq⟩ := hn; injection heq with heq; omega)
    (by
      rw [cellsOf_cons,cellsOf_nil,List.append_nil,emptyRows_cells elemTy (by simpa using hmem),
        List.reverse_reverse]
      exact hfits)
  obtain ⟨-,p,u,hencode,-⟩ := hrun emptyVectors ⟨fun _ hq => hq,fun _ _ => rfl⟩
  have hfails : encodeArgs host ([Ty.array elemTy dims].zip [.ptr (.heap 1)])
      (.heap (2 + (Ty.array elemTy dims).llvmSize)) emptyVectors = .error e := by
    rw [List.zip_cons_cons,encodeArgs,encodeIntoBuffer,encodeArray,if_neg (by simp [hcopy]),
      hdimension]
    exact bind_error hstop
  rw [hfails] at hencode
  cases hencode

end Encoding
end OlaLang
