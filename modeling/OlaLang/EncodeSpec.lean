import OlaLang.EncodedValues

/-! What the encoder computes: the size of a represented value is the number of its cells, and these
cells are what it writes. -/
namespace OlaLang
namespace Encoding

open Exec (Returns bind_ok bind_apply returns_pure returns_bind returns_loop pure_apply)
open Builder Corelib

variable {P : Pointer → Prop} {s t u : State} {p q : Pointer} {l l' : List Felt} {v : Value} {x : Val}

/-! ### Types -/

/-- Arrays that are copied as they are. -/
def isFlatArray (elemTy : Ty) (dims : List ArrayLength) : Bool :=
  elemTy.isOneCell && isPrimitive elemTy &&
    (dims = [.dynamic] || !dims.isEmpty && !dims.contains .dynamic)

/-- The types whose values are the cells behind a pointer. -/
def isBlock : Ty → Bool
  | .address | .contract | .hash | .string | .dynamicBytes => true
  | .array elemTy dims => isFlatArray elemTy dims
  | _ => false

mutual

/-- The values that are encoded and decoded alike: an array is copied as it is, or its outermost
dimension is dynamic and it is empty, or it has a single, dynamic dimension and its elements are not
copied; in a struct, every member but the last takes one cell. -/
def Codable : Ty → Val → Bool
  | .uint32, _ | .bool, _ | .enum, _ | .field, _ | .address, _ | .contract, _ | .hash, _
  | .string, _ | .dynamicBytes, _ => true
  | .array elemTy dims, x => isFlatArray elemTy dims ||
      dims.getLast? = some .dynamic && !allowMemcpy (.array elemTy dims) &&
        (x.items.isEmpty || dims = [.dynamic] && x.items.all (Codable elemTy))
  | .struct fields, x => decide (fields.length < FIELD_ORDER) && CodableFields fields x.items
  | .void, _ | .mapping _ _, _ | .ref _, _ | .storageRef _, _ => false

def CodableFields : List Ty → List Val → Bool
  | [], _ => true
  | ty::rest, x::xs =>
    Codable ty x && (rest.isEmpty || ty.llvmFieldSize = 1) && CodableFields rest xs
  | _::_, [] => false

end

/-- Values one by one. -/
def CodableAll : List Ty → List Val → Bool
  | [], _ => true
  | ty::rest, x::xs => Codable ty x && CodableAll rest xs
  | _::_, [] => false

/-! ### Arrays that are copied -/

theorem isOneCell_llvmFieldSize {ty : Ty} (h : ty.isOneCell = true) : ty.llvmFieldSize = 1 := by
  cases ty <;> first | (cases h; done) | simp [Ty.llvmFieldSize]

theorem isOneCell_memorySizeOf {ty : Ty} (h : ty.isOneCell = true) : ty.memorySizeOf = 1 := by
  cases ty <;> first | (cases h; done) | rfl

theorem rep_isOneCell {ty : Ty} (h : ty.isOneCell = true) :
    Rep P s ty v x ↔ v.isPointer = false ∧ x = .cell v.felt := by
  cases ty <;> first | (cases h; done) | rw [Rep]

theorem hasType_isOneCell {ty : Ty} (h : ty.isOneCell = true) : HasType ty x ↔ ∃ c, x = .cell c := by
  cases ty <;> first | (cases h; done) | rw [HasType]

theorem loaded_isOneCell {ty : Ty} (h : ty.isOneCell = true) : loaded s ty p = .int (s.cell p) := by
  cases ty <;> first | (cases h; done) | rfl

theorem foldl_fixed {step : ℕ → ArrayLength → ℕ} (hstep : ∀ size d, step size (.fixed d) = size * d)
    {dims : List ArrayLength} (hfixed : .dynamic ∉ dims) (size : ℕ) :
    dims.foldl step size = size * Ty.dimsSize dims := by
  induction dims generalizing size with
  | nil => simp [Ty.dimsSize]
  | cons dim dims ih =>
    cases dim with
    | fixed d =>
      rw [List.foldl_cons,hstep,ih (fun hmem => hfixed (by simp [hmem]))]
      simp [Ty.dimsSize,Ty.dimSize,mul_assoc]
    | dynamic => exact absurd (by simp) hfixed

/-- Rows of fixed length are laid out in place. -/
theorem llvmStride_fixed {elemTy : Ty} (h : elemTy.isOneCell = true) {dims : List ArrayLength}
    (hfixed : .dynamic ∉ dims) : Ty.llvmStride elemTy dims = Ty.dimsSize dims := by
  rw [Ty.llvmStride,Ty.llvmSize,isOneCell_llvmFieldSize h]
  exact (foldl_fixed (fun _ _ => rfl) hfixed 1).trans (Nat.one_mul _)

theorem dimsSize_reverse (dims : List ArrayLength) : Ty.dimsSize dims.reverse = Ty.dimsSize dims := by
  rw [Ty.dimsSize,List.map_reverse,List.prod_reverse,Ty.dimsSize]

theorem dimsSize_cons (dim : ArrayLength) (dims : List ArrayLength) :
    Ty.dimsSize (dim::dims) = Ty.dimSize dim * Ty.dimsSize dims := by simp [Ty.dimsSize]

/-- Items that are their cells, one behind the other. -/
theorem repItems_holds {rep : Pointer → Val → Prop} {stride : ℕ} {items : List Val}
    (hlen : ∀ x ∈ items, x.cells.length = stride)
    (hrep : ∀ q, ∀ x ∈ items, rep q x ↔ Holds P s q x.cells) :
    RepItems rep stride q items ↔ Holds P s q (cellsOf items) := by
  induction items generalizing q with
  | nil => simp [RepItems,Holds]
  | cons x xs ih =>
    rw [RepItems,cellsOf_cons,holds_append,hrep q x (by simp),hlen x (by simp),
      ih (fun y hy => hlen y (by simp [hy])) fun q y hy => hrep q y (by simp [hy])]

theorem fixed_length {elemTy : Ty} (h : elemTy.isOneCell = true) {dims : List ArrayLength}
    (hfixed : .dynamic ∉ dims) (hx : ArrayType (HasType elemTy) dims x) :
    x.cells.length = Ty.dimsSize dims := by
  induction dims generalizing x with
  | nil =>
    obtain ⟨c,rfl⟩ := (hasType_isOneCell h).mp hx
    simp [Ty.dimsSize]
  | cons dim rest ih =>
    cases dim with
    | dynamic => exact absurd (by simp) hfixed
    | fixed d =>
      obtain ⟨items,rfl,rfl,hi⟩ := hx
      rw [cells_tuple,length_cellsOf fun y hy => ih (fun hmem => hfixed (by simp [hmem])) (hi y hy),
        dimsSize_cons]
      rfl

/-- An element in place that is a cell, or a row of cells. -/
theorem repPlace_fixed {elemTy : Ty} (h : elemTy.isOneCell = true) {rest : List ArrayLength}
    (hfixed : .dynamic ∉ rest) {rep : Value → Val → Prop} (hcell : rest = [] →
      ∀ v x, rep v x ↔ Rep P s elemTy v x)
    (hrow : rest ≠ [] → ∀ q, rep (.ptr q) x ↔ Holds P s q x.cells)
    (hx : ArrayType (HasType elemTy) rest x) :
    RepPlace P s rep elemTy rest q x ↔ Holds P s q x.cells := by
  cases rest with
  | nil =>
    obtain ⟨c,rfl⟩ := (hasType_isOneCell h).mp hx
    have hplace : RepPlace P s rep elemTy [] q (.cell c) ↔
        P q ∧ rep (loaded s elemTy q) (.cell c) := by
      cases elemTy with
      | struct fields => cases h
      | _ => rfl
    rw [hplace,hcell rfl,rep_isOneCell h,loaded_isOneCell h]
    simp [Holds,Value.isPointer,eq_comm]
  | cons dim rest =>
    cases dim with
    | dynamic => exact absurd (by simp) hfixed
    | fixed d => exact hrow (by simp) q

/-- An array of fixed dimensions is its cells. -/
theorem repArray_fixed {elemTy : Ty} (h : elemTy.isOneCell = true) {dims : List ArrayLength}
    (hne : dims ≠ []) (hfixed : .dynamic ∉ dims) (hx : ArrayType (HasType elemTy) dims x) :
    RepArray P s (Rep P s elemTy) elemTy dims v x ↔ ∃ p, v = .ptr p ∧ Holds P s p x.cells := by
  induction dims generalizing v x with
  | nil => exact absurd rfl hne
  | cons dim rest ih =>
    cases dim with
    | dynamic => exact absurd (by simp) hfixed
    | fixed d =>
      have hfixed' : ArrayLength.dynamic ∉ rest := fun hmem => hfixed (by simp [hmem])
      obtain ⟨items,rfl,rfl,hi⟩ := hx
      have hitems : ∀ q, RepItems (RepPlace P s (RepArray P s (Rep P s elemTy) elemTy rest) elemTy rest)
          (Ty.llvmStride elemTy rest.reverse) q items ↔ Holds P s q (cellsOf items) := by
        intro q
        refine repItems_holds (fun y hy => ?_) fun q y hy => ?_
        · rw [llvmStride_fixed h (by simpa using hfixed'),dimsSize_reverse]
          exact fixed_length h hfixed' (hi y hy)
        · refine repPlace_fixed h hfixed' (fun hnil v x => ?_) (fun hcons q => ?_) (hi y hy)
          · subst hnil
            rfl
          · rw [ih hcons hfixed' (hi y hy)]
            simp
      constructor
      · rintro ⟨p,items',rfl,hitems',-,hrep⟩
        cases hitems'
        exact ⟨p,rfl,by rw [cells_tuple]; exact (hitems p).mp hrep⟩
      · rintro ⟨p,rfl,hl⟩
        rw [cells_tuple] at hl
        exact ⟨p,items,rfl,rfl,rfl,(hitems p).mpr hl⟩

/-- A vector of cells is its length and its cells. -/
theorem repArray_vector {elemTy : Ty} (h : elemTy.isOneCell = true)
    (hx : ArrayType (HasType elemTy) [.dynamic] x) :
    RepArray P s (Rep P s elemTy) elemTy [.dynamic] v x ↔ ∃ p, v = .ptr p ∧ Holds P s p x.cells := by
  obtain ⟨items,rfl,hlt,hi⟩ := hx
  have hcell : ∀ y ∈ items, ∃ c, y = .cell c := fun y hy => (hasType_isOneCell h).mp (hi y hy)
  have hitems : ∀ q, RepItems (fun q x => P q ∧ RepArray P s (Rep P s elemTy) elemTy []
      (loadedRow s elemTy [] q) x) 1 q items ↔ Holds P s q (cellsOf items) := by
    intro q
    refine repItems_holds (fun y hy => ?_) fun q y hy => ?_
    · obtain ⟨c,rfl⟩ := hcell y hy
      simp
    · obtain ⟨c,rfl⟩ := hcell y hy
      rw [RepArray,loadedRow,if_pos rfl,rep_isOneCell h,loaded_isOneCell h]
      simp [Holds,Value.isPointer,eq_comm]
  constructor
  · rintro ⟨p,items',rfl,hitems',-,hp,hn,hrep⟩
    cases hitems'
    exact ⟨p,rfl,by rw [cells_vector]; exact ⟨hp,hn,(hitems _).mp hrep⟩⟩
  · rintro ⟨p,rfl,hl⟩
    rw [cells_vector] at hl
    exact ⟨p,items,rfl,rfl,hlt,hl.1,hl.2.1,(hitems _).mpr hl.2.2⟩

/-- A block is represented by a pointer to its cells. -/
theorem rep_block {ty : Ty} (h : isBlock ty = true) :
    Rep P s ty v x ↔ HasType ty x ∧ ∃ p, v = .ptr p ∧ Holds P s p x.cells := by
  cases ty with
  | address | contract | hash =>
    rw [Rep,HasType]
    constructor
    · rintro ⟨p,w,rfl,rfl,hl⟩
      exact ⟨⟨w,rfl⟩,p,rfl,hl⟩
    · rintro ⟨⟨w,rfl⟩,p,rfl,hl⟩
      exact ⟨p,w,rfl,rfl,hl⟩
  | string | dynamicBytes =>
    rw [Rep,HasType]
    constructor
    · rintro ⟨p,l,rfl,rfl,hlt,hl⟩
      exact ⟨⟨l,rfl,hlt⟩,p,rfl,hl⟩
    · rintro ⟨⟨l,rfl,hlt⟩,p,rfl,hl⟩
      exact ⟨p,l,rfl,rfl,hlt,hl⟩
  | array elemTy dims =>
    simp only [isBlock,isFlatArray,Bool.and_eq_true,Bool.or_eq_true,decide_eq_true_eq,
      Bool.not_eq_true',List.isEmpty_eq_false_iff,List.contains_eq_mem,decide_eq_false_iff_not] at h
    obtain ⟨⟨hcell,-⟩,hdims⟩ := h
    rw [Rep,HasType]
    constructor
    · intro hr
      have hx := hr.arrayType fun v x hv => Rep.hasType hv
      refine ⟨hx,?_⟩
      obtain rfl|⟨hne,hfixed⟩ := hdims
      · exact (repArray_vector hcell hx).mp hr
      · exact (repArray_fixed hcell (by simpa using hne) (by simpa using hfixed) hx).mp hr
    · rintro ⟨hx,hp⟩
      obtain rfl|⟨hne,hfixed⟩ := hdims
      · exact (repArray_vector hcell hx).mpr hp
      · exact (repArray_fixed hcell (by simpa using hne) (by simpa using hfixed) hx).mpr hp
  | _ => cases h

theorem repItems_iff {rep : Pointer → Val → Prop} {stride : ℕ} {items : List Val} :
    RepItems rep stride q items ↔
      ∀ i (hi : i < items.length), rep (q.add (i*stride)) (items.get ⟨i,hi⟩) := by
  induction items generalizing q with
  | nil => simp [RepItems]
  | cons x xs ih =>
    rw [RepItems,ih]
    constructor
    · rintro ⟨h0,hrest⟩ i hi
      cases i with
      | zero => simpa using h0
      | succ i =>
        have hget := hrest i (Nat.lt_of_succ_lt_succ hi)
        rw [Pointer.add_add,show stride + i*stride = (i+1)*stride by ring] at hget
        exact hget
    · intro h
      refine ⟨by simpa using h 0 (by simp),fun i hi => ?_⟩
      have hget := h (i+1) (Nat.succ_lt_succ hi)
      rw [show (i+1)*stride = stride + i*stride by ring,← Pointer.add_add] at hget
      exact hget

/-- A vector is its length and a cell for each element. -/
theorem rep_vector {elemTy : Ty} : Rep P s (.array elemTy [.dynamic]) v x ↔ ∃ p items, v = .ptr p ∧
    x = .vector items ∧ items.length < 2^32 ∧ P p ∧ s.cell p = (items.length : Felt) ∧
      ∀ i (hi : i < items.length), P (p.add (1+i)) ∧
        Rep P s elemTy (loaded s elemTy (p.add (1+i))) (items.get ⟨i,hi⟩) := by
  rw [Rep]
  show (∃ p items, _ ∧ _ ∧ _ ∧ _ ∧ _ ∧ _) ↔ _
  simp only [repItems_iff,Pointer.add_add,Nat.mul_one]
  rfl

/-! ### Loops over an array -/

theorem val_cast {n : ℕ} (h : n < FIELD_ORDER) : (n : Felt).val = n := ZMod.val_natCast_of_lt h

theorem lt_fieldOrder {n : ℕ} (h : n < 2^32) : n < FIELD_ORDER := Nat.lt_trans h (by decide)

theorem arrayLoop_returns {δ : Type} {bound : Code Felt} {body : ℕ → δ → Code δ} {n : ℕ}
    (I : ℕ → δ → State → Prop) (hn : n < FIELD_ORDER)
    (hbound : ∀ i d t, i ≤ n → I i d t → bound t = .ok ((n : Felt),t))
    (hbody : ∀ i d t, i < n → I i d t → Returns (body i d) t fun d' u => I (i+1) d' u)
    {d : δ} (h0 : I 0 d s) :
    Returns (arrayLoop bound body FIELD_ORDER 0 d) s fun d' t => I n d' t := by
  suffices ∀ fuel i d s, n - i < fuel → i ≤ n → I i d s →
      Returns (arrayLoop bound body fuel i d) s fun d' t => I n d' t from
    this _ _ _ _ (by simpa using hn) (Nat.zero_le _) h0
  intro fuel
  induction fuel with
  | zero => intro i d s h; omega
  | succ fuel ih =>
    intro i d s hfuel hi hd
    rw [arrayLoop]
    refine returns_bind ⟨_,s,hbound i d s hi hd,?_⟩
    beta_reduce
    rw [Felt.val_natCast_of_lt hn]
    by_cases hlt : i < n
    · rw [if_pos hlt]
      exact returns_bind ((hbody i d s hlt hd).mono fun d' t ht => ih (i+1) d' t (by omega) hlt ht)
    · rw [if_neg hlt]
      have heq : i = n := by omega
      exact returns_pure (by rwa [heq] at hd)

theorem buildLoad_eq (ty : Ty) (p : Pointer) (s : State) :
    buildLoad ty p s = .ok (loaded s ty p,s) := by
  by_cases h : ty.llvmVarIsPtr = true <;> simp [buildLoad,loaded,h]

theorem vectorLen_eq (p : Pointer) (s : State) : vectorLen (.ptr p) s = .ok (s.cell p,s) := rfl

/-- The index check of a vector passes below its length. -/
theorem arraySubscript_vector (host : Host) (elemTy : Ty) {n i : ℕ} (hn : s.cell p = (n : Felt))
    (hlt : n < 2^32) (hi : i < n) :
    arraySubscript host (.array elemTy [.dynamic]) (.ptr p) (.int (i : Felt)) .uint32 s =
      .ok (.ptr (p.add (1+i)),s) := by
  have hival : (i : Felt).val = i := Felt.val_natCast_of_lt (by omega)
  have hsub : (n : Felt) - 1 - (i : Felt) = ((n - 1 - i : ℕ) : Felt) := by
    rw [Nat.cast_sub (by omega),Nat.cast_sub (by omega),Nat.cast_one]
  have hcheck : Felt.IsU32 ((n : Felt) - 1 - (i : Felt)) := by
    rw [hsub,Felt.IsU32,Felt.val_natCast_of_lt (by omega)]
    omega
  have hone : ((1 : BitVec 64).toNat : Felt) = 1 := by simp
  have hrange : rangeCheck (.int ((n : Felt) - 1 - (i : Felt))) s = .ok ((),s) :=
    builtinRangeCheck_int_eq_ok.mpr ⟨hcheck,rfl⟩
  have hlength : subscriptLength host (.array elemTy [.dynamic]) (.ptr p) s = .ok (.int (n : Felt),s) := by
    rw [← hn]
    rfl
  have hmapping : (Ty.array elemTy [.dynamic]).isMapping = false := rfl
  rw [arraySubscript,hmapping,if_neg (by simp),bind_ok hlength]
  have hsub1 : buildIntSub (.int (n : Felt)) (.const 1) s = .ok (.int ((n : Felt) - 1),s) := by
    rw [← hone]
    rfl
  have hsub2 : buildIntSub (.int ((n : Felt) - 1)) (.int (i : Felt)) s =
      .ok (.int ((n : Felt) - 1 - (i : Felt)),s) := rfl
  rw [bind_ok hsub1,bind_ok hsub2,bind_ok hrange]
  show Except.ok (Value.ptr ((Storage.vectorData p).add (i : Felt).val),s) = _
  rw [hival,Storage.vectorData,Pointer.add_add]

/-- One index into a vector: the element is loaded from its cell. -/
theorem indexArray_vector (host : Host) (elemTy : Ty) {n i : ℕ} (hn : s.cell p = (n : Felt))
    (hlt : n < 2^32) (hi : i < n) (w : Value) :
    indexArray host elemTy [.dynamic] 0 [i] (.ptr p,.array elemTy [.dynamic],w) s =
      .ok ((loaded s elemTy (p.add (1+i)),elemTy,.ptr (p.add (1+i))),s) := by
  rw [indexArray,bind_ok (arraySubscript_vector host elemTy hn hlt hi)]
  rw [bind_ok (show intoPointerValue (.ptr (p.add (1+i))) s = .ok (p.add (1+i),s) from rfl)]
  rw [if_pos rfl,bind_ok (buildLoad_eq elemTy (p.add (1+i)) s),indexArray]
  rfl

theorem arrayBound_vector (host : Host) (elemTy : Ty) (p : Pointer) (ty : Ty) (s : State) :
    arrayBound host elemTy [.dynamic] 0 (.ptr p) ty [] s = .ok (s.cell p,s) := rfl

/-! ### Sizes -/

theorem isFlatArray_iff {elemTy : Ty} {dims : List ArrayLength} :
    isFlatArray elemTy dims = true ↔ (elemTy.isOneCell = true ∧ isPrimitive elemTy = true) ∧
      (dims = [.dynamic] ∨ dims ≠ [] ∧ .dynamic ∉ dims) := by
  simp [isFlatArray]

theorem getLast?_fixed {dims : List ArrayLength} (hne : dims ≠ []) (hfixed : .dynamic ∉ dims) :
    ∃ d, dims.getLast? = some (.fixed d) := by
  cases h : dims.getLast hne with
  | fixed d => exact ⟨d,by rw [List.getLast?_eq_getLast_of_ne_nil hne,h]⟩
  | dynamic => exact absurd (h ▸ List.getLast_mem hne) hfixed

theorem dimsSize_dropLast {dims : List ArrayLength} {d : ℕ} (h : dims.getLast? = some (.fixed d)) :
    d * Ty.dimsSize dims.dropLast = Ty.dimsSize dims := by
  have hne : dims ≠ [] := by
    rintro rfl
    cases h
  conv_rhs => rw [← List.dropLast_append_getLast? _ h]
  rw [Ty.dimsSize,Ty.dimsSize,List.map_append,List.prod_append]
  simp [Ty.dimSize,mul_comm]

theorem block_length {elemTy : Ty} {dims : List ArrayLength} (h : elemTy.isOneCell = true)
    (hfixed : .dynamic ∉ dims) (hx : HasType (.array elemTy dims) x) :
    x.cells.length = Ty.dimsSize dims := by
  rw [HasType] at hx
  rw [fixed_length h (by simpa using hfixed) hx,dimsSize_reverse]

/-- A vector of cells has one cell more than elements. -/
theorem vector_cells {elemTy : Ty} (h : elemTy.isOneCell = true)
    (hx : HasType (.array elemTy [.dynamic]) x) :
    ∃ items, x = .vector items ∧ items.length < 2^32 ∧ x.cells.length = items.length + 1 := by
  rw [HasType] at hx
  obtain ⟨items,rfl,hlt,hi⟩ := hx
  refine ⟨items,rfl,hlt,?_⟩
  rw [cells_vector,List.length_cons,length_cellsOf (k := 1),Nat.mul_one]
  intro y hy
  obtain ⟨c,rfl⟩ := (hasType_isOneCell h).mp (hi y hy)
  simp

theorem directAssessment_fixed {dims : List ArrayLength} (hfixed : .dynamic ∉ dims) :
    directAssessment dims = true := by
  simp [directAssessment,List.count_eq_zero_of_not_mem hfixed]

variable (host : Host)

/-- The size of a block is the number of its cells; only the length of a vector is read. -/
theorem size_block {ty : Ty} (h : isBlock ty = true) (hx : HasType ty x)
    (hl : Holds P s p x.cells) :
    getArgsTypeSize host ty (some (.ptr p)) s = .ok ((x.cells.length : Felt),s) := by
  cases ty with
  | address | contract | hash =>
    rw [HasType] at hx
    obtain ⟨w,rfl⟩ := hx
    rw [getArgsTypeSize]
    simp [Word.toList]
  | string | dynamicBytes =>
    rw [HasType] at hx
    obtain ⟨l,rfl,-⟩ := hx
    rw [cells_vector,holds_cons] at hl
    rw [getArgsTypeSize]
    show Except.ok (s.cell p + 1,s) = _
    rw [hl.2.1]
    simp
  | array elemTy dims =>
    obtain ⟨⟨hcell,hprim⟩,hdims⟩ := isFlatArray_iff.mp h
    rw [getArgsTypeSize]
    show calculateArraySize host (getArgsTypeSize host elemTy) elemTy dims (.ptr p) s = _
    obtain rfl|⟨hne,hfixed⟩ := hdims
    · have hdirect : directAssessment [.dynamic] = true := by decide
      have hsize : primitiveSize elemTy [.dynamic] = some 1 := by
        simp [primitiveSize,hprim,isOneCell_memorySizeOf hcell,hdirect]
      obtain ⟨items,rfl,-,hlen⟩ := vector_cells hcell hx
      rw [cells_vector,holds_cons] at hl
      rw [calculateArraySize,hsize]
      show Except.ok (s.cell p * ((Ty.dimsSize [] : ℕ) : Felt) * ((1 : ℕ) : Felt) + 1,s) = _
      rw [hl.2.1,hlen]
      simp [Ty.dimsSize]
    · have hsize : primitiveSize elemTy dims = some 1 := by
        simp [primitiveSize,hprim,isOneCell_memorySizeOf hcell,directAssessment_fixed hfixed]
      obtain ⟨d,hd⟩ := getLast?_fixed hne hfixed
      rw [calculateArraySize,hsize,hd,block_length hcell hfixed hx,← dimsSize_dropLast hd]
      simp
  | _ => cases h

theorem size_oneCell {ty : Ty} (h : ty.isOneCell = true) (arg : Option Value) :
    getArgsTypeSize host ty arg = pure 1 := by
  cases ty <;> first | (cases h; done) | rw [getArgsTypeSize]

theorem size_of_not_reference {ty : Ty} (h : ty.isReferenceType = false)
    (hgood : Codable ty x = true) (v : Value) :
    getArgsTypeSize host ty none = getArgsTypeSize host ty (some v) := by
  cases ty with
  | string | dynamicBytes | array | struct => cases h
  | void | mapping | ref | storageRef => simp [Codable] at hgood
  | _ => rw [getArgsTypeSize,getArgsTypeSize]

theorem isPrimitive_of_not_memcpy {ty : Ty} (h : allowMemcpy ty = false) :
    isPrimitive ty = false := by
  cases ty with
  | array => rfl
  | _ => exact h

mutual

theorem nonPaddedSize_length : ∀ {tys : List Ty} {items : List Val} {k : ℕ},
    nonPaddedSize tys = some k → HasTypes tys items → (cellsOf items).length = k
  | [], [], k, h, _ => by
    rw [nonPaddedSize] at h
    cases h
    rfl
  | ty::tys, x::xs, k, h, hx => by
    simp only [nonPaddedSize,Option.bind_eq_bind,Option.bind_eq_some_iff,Option.pure_def,
      Option.some.injEq] at h
    obtain ⟨size,hsize,rest,hrest,rfl⟩ := h
    rw [HasTypes] at hx
    rw [cellsOf_cons,List.length_append,nonPaddedFieldSize_length hsize hx.1,
      nonPaddedSize_length hrest hx.2]
  | [], _::_, _, _, hx | _::_, [], _, _, hx => by simp [HasTypes] at hx

theorem nonPaddedFieldSize_length : ∀ {ty : Ty} {x : Val} {k : ℕ},
    nonPaddedFieldSize ty = some k → HasType ty x → x.cells.length = k
  | .struct fields, x, k, h, hx => by
    rw [nonPaddedFieldSize] at h
    rw [HasType] at hx
    obtain ⟨items,rfl,hi⟩ := hx
    rw [cells_tuple]
    exact nonPaddedSize_length h hi
  | .bool, x, k, h, hx | .uint32, x, k, h, hx | .field, x, k, h, hx => by
    obtain ⟨c,rfl⟩ := (hasType_isOneCell rfl).mp hx
    simpa [nonPaddedFieldSize,isPrimitive,Ty.memorySizeOf] using h
  | .void, _, _, h, hx | .enum, _, _, h, hx | .address, _, _, h, hx | .contract, _, _, h, hx
  | .hash, _, _, h, hx | .string, _, _, h, hx | .dynamicBytes, _, _, h, hx
  | .array _ _, _, _, h, hx | .mapping _ _, _, _, h, hx => by
    simp [nonPaddedFieldSize,isPrimitive] at h
  | .ref _, _, _, h, hx | .storageRef _, _, _, h, hx => by simp [HasType] at hx

end

theorem primitiveSize_length {elemTy : Ty} {k : ℕ} (hcopy : allowMemcpy elemTy = false)
    (h : primitiveSize elemTy [.dynamic] = some k) (hx : HasType elemTy x) : x.cells.length = k := by
  have hprim := isPrimitive_of_not_memcpy hcopy
  have hdirect : directAssessment [.dynamic] = true := by decide
  cases elemTy with
  | struct fields =>
    rw [HasType] at hx
    obtain ⟨items,rfl,hi⟩ := hx
    rw [cells_tuple]
    exact nonPaddedSize_length (by simpa [primitiveSize,hprim,hdirect] using h) hi
  | _ => simp [primitiveSize,hprim] at h

/-- The loop that adds up the sizes of the elements of a vector. -/
theorem size_vector {elemTy : Ty} {items : List Val} (hlt : items.length < 2^32)
    (hn : s.cell p = (items.length : Felt))
    (helem : ∀ i (hi : i < items.length), getArgsTypeSize host elemTy
      (some (loaded s elemTy (p.add (1+i)))) s =
        .ok (((items.get ⟨i,hi⟩).cells.length : Felt),s)) :
    calculateComplexArraySize host (getArgsTypeSize host elemTy) elemTy [.dynamic] (.ptr p) 0 [] 0 s =
      .ok (((Val.vector items).cells.length : Felt),s) := by
  have hloop : Returns (calculateComplexArraySize host (getArgsTypeSize host elemTy) elemTy [.dynamic]
      (.ptr p) 0 [] 0) s fun size t => t = s ∧
        size = (((cellsOf (items.take items.length)).length + 1 : ℕ) : Felt) := by
    rw [calculateComplexArraySize]
    refine arrayLoop_returns (fun i size t => t = s ∧
      size = (((cellsOf (items.take i)).length + 1 : ℕ) : Felt)) (lt_fieldOrder hlt) ?_ ?_ ?_
    · rintro i d t - ⟨rfl,-⟩
      rw [arrayBound_vector,hn]
    · rintro i d t hi ⟨rfl,rfl⟩
      refine ⟨_,t,?_,rfl,rfl⟩
      rw [List.nil_append,List.length_singleton,
        bind_ok (indexArray_vector host elemTy hn hlt hi _)]
      dsimp only
      rw [bind_ok (helem i hi),pure_apply,List.take_succ_eq_append_getElem hi,cellsOf_append]
      simp
      ring
    · exact ⟨rfl,by simp⟩
  obtain ⟨size,t,hrun,rfl,rfl⟩ := hloop
  rw [hrun,List.take_length,cells_vector,List.length_cons]

/-- An array that is not copied is a vector of codable elements, or it is empty. -/
theorem not_flat_of_codable {elemTy : Ty} {dims : List ArrayLength}
    (h : Codable (.array elemTy dims) x = true) (hflat : isFlatArray elemTy dims ≠ true) :
    (dims.getLast? = some .dynamic ∧ allowMemcpy (.array elemTy dims) = false ∧ x.items = []) ∨
      (dims = [.dynamic] ∧ allowMemcpy elemTy = false ∧ ∀ y ∈ x.items, Codable elemTy y = true) := by
  rw [Codable] at h
  simp only [hflat,Bool.false_or,Bool.and_eq_true,Bool.or_eq_true,decide_eq_true_eq,
    Bool.not_eq_true',List.isEmpty_iff,List.all_eq_true] at h
  obtain ⟨⟨hlast,hcopy⟩,hempty|⟨rfl,hitems⟩⟩ := h
  · exact .inl ⟨hlast,hcopy,hempty⟩
  · exact .inr ⟨rfl,by simpa [allowMemcpy] using hcopy,hitems⟩

/-! ### Empty arrays -/

theorem reverse_dynamic {dims : List ArrayLength} (h : dims.getLast? = some .dynamic) :
    ∃ rest, dims.reverse = .dynamic::rest := by
  rw [← List.head?_reverse] at h
  exact List.head?_eq_some_iff.mp h

theorem dynamic_outermost {dims : List ArrayLength} (h : dims.getLast? = some .dynamic) :
    dims[dims.length-1]? = some .dynamic := by
  rw [← List.getLast?_eq_getElem?]
  exact h

/-- An empty array of any dimensions is a cell that holds zero. -/
theorem rep_empty {elemTy : Ty} {dims : List ArrayLength} (h : dims.getLast? = some .dynamic) :
    Rep P s (.array elemTy dims) v x ∧ x.items = [] ↔
      ∃ p, v = .ptr p ∧ x = .vector [] ∧ P p ∧ s.cell p = 0 := by
  obtain ⟨rest,hrest⟩ := reverse_dynamic h
  rw [Rep,hrest]
  constructor
  · rintro ⟨⟨p,items,rfl,rfl,-,hp,hn,-⟩,hempty⟩
    obtain rfl : items = [] := hempty
    exact ⟨p,rfl,rfl,hp,by simpa using hn⟩
  · rintro ⟨p,rfl,rfl,hp,hn⟩
    exact ⟨⟨p,[],rfl,rfl,by decide,hp,by simpa using hn,trivial⟩,rfl⟩

theorem arrayLoop_empty {δ : Type} {bound : Code Felt} {body : ℕ → δ → Code δ} {d : δ}
    (h : bound s = .ok (0,s)) : arrayLoop bound body FIELD_ORDER 0 d s = .ok (d,s) := by
  have hloop : Returns (arrayLoop bound body FIELD_ORDER 0 d) s fun d' t => d' = d ∧ t = s := by
    refine arrayLoop_returns (fun _ d' t => d' = d ∧ t = s) (n := 0) (by decide) ?_ ?_ ⟨rfl,rfl⟩
    · rintro i d' t - ⟨-,rfl⟩
      simpa using h
    · intro i d' t hi
      exact absurd hi (Nat.not_lt_zero i)
  obtain ⟨d',t,hrun,rfl,rfl⟩ := hloop
  exact hrun

/-- The bound of the outermost loop is the length of the array. -/
theorem arrayBound_outermost (elemTy : Ty) {dims : List ArrayLength}
    (h : dims.getLast? = some .dynamic) (p : Pointer) (ty : Ty) (s : State) :
    arrayBound host elemTy dims (dims.length-1) (.ptr p) ty [] s = .ok (s.cell p,s) := by
  rw [arrayBound,dynamic_outermost h]
  rfl

theorem size_empty {elemTy : Ty} {dims : List ArrayLength} (h : dims.getLast? = some .dynamic)
    (hn : s.cell p = 0) :
    getArgsTypeSize host (.array elemTy dims) (some (.ptr p)) s = .ok (1,s) := by
  rw [getArgsTypeSize]
  show calculateArraySize host (getArgsTypeSize host elemTy) elemTy dims (.ptr p) s = _
  rw [calculateArraySize]
  cases hsize : primitiveSize elemTy dims with
  | some k =>
    rw [h]
    show Except.ok (s.cell p * _ * (k : Felt) + 1,s) = _
    rw [hn,zero_mul,zero_mul,zero_add]
  | none =>
    have hbound := arrayBound_outermost host elemTy h p (.array elemTy dims) s
    rw [hn] at hbound
    have hdim := dynamic_outermost h
    generalize dims.length - 1 = k at hbound hdim
    cases k with
    | zero =>
      show calculateComplexArraySize host _ elemTy dims _ 0 [] 0 s = _
      rw [calculateComplexArraySize]
      dsimp only
      rw [if_pos hdim,arrayLoop_empty hbound,zero_add]
    | succ k =>
      rw [calculateComplexArraySize]
      dsimp only
      rw [if_pos hdim,arrayLoop_empty hbound,zero_add]

mutual

/-- The size of a represented value is the number of its cells. -/
theorem getArgsTypeSize_rep : ∀ {ty : Ty} {v : Value} {x : Val}, Codable ty x = true →
    Rep P s ty v x → getArgsTypeSize host ty (some v) s = .ok ((x.cells.length : Felt),s)
  | .uint32, _, _, _, hr | .bool, _, _, _, hr | .enum, _, _, _, hr | .field, _, _, _, hr => by
    rw [size_oneCell host rfl,((rep_isOneCell rfl).mp hr).2]
    simp
  | .address, _, _, _, hr | .contract, _, _, _, hr | .hash, _, _, _, hr
  | .string, _, _, _, hr | .dynamicBytes, _, _, _, hr => by
    obtain ⟨hx,p,rfl,hl⟩ := (rep_block rfl).mp hr
    exact size_block host rfl hx hl
  | .array elemTy dims, _, _, hgood, hr => by
    by_cases hflat : isFlatArray elemTy dims = true
    · have hblock : isBlock (.array elemTy dims) = true := hflat
      obtain ⟨hx,p,rfl,hl⟩ := (rep_block hblock).mp hr
      exact size_block host hflat hx hl
    · obtain ⟨hlast,-,hempty⟩|⟨rfl,hcopy,helem⟩ := not_flat_of_codable hgood hflat
      · obtain ⟨p,rfl,rfl,-,hn⟩ := (rep_empty hlast).mp ⟨hr,hempty⟩
        rw [size_empty host hlast hn]
        simp
      have hitems := hr.hasType
      obtain ⟨p,items,rfl,rfl,hlt,-,hn,hrow⟩ := rep_vector.mp hr
      rw [getArgsTypeSize]
      show calculateArraySize host (getArgsTypeSize host elemTy) elemTy [.dynamic] (.ptr p) s = _
      rw [calculateArraySize]
      cases hsize : primitiveSize elemTy [.dynamic] with
      | none =>
        exact size_vector host hlt hn fun i hi =>
          getArgsTypeSize_rep (helem _ (List.get_mem items ⟨i,hi⟩)) (hrow i hi).2
      | some k =>
        have hlen : ∀ y ∈ items, y.cells.length = k := by
          rw [HasType] at hitems
          obtain ⟨items',heq,-,hi⟩ := hitems
          cases heq
          exact fun y hy => primitiveSize_length hcopy hsize (hi y hy)
        show Except.ok (s.cell p * ((Ty.dimsSize [] : ℕ) : Felt) * (k : Felt) + 1,s) = _
        rw [hn,cells_vector,List.length_cons,length_cellsOf hlen]
        simp [Ty.dimsSize]
  | .struct fields, _, _, hgood, hr => by
    rw [Rep] at hr
    obtain ⟨p,items,rfl,rfl,hf⟩ := hr
    rw [Codable,Bool.and_eq_true] at hgood
    rw [getArgsTypeSize,cells_tuple]
    exact calculateStructSize_rep hgood.2 hf
  | .void, _, _, h, _ | .mapping _ _, _, _, h, _ | .ref _, _, _, h, _
  | .storageRef _, _, _, h, _ => by simp [Codable] at h

theorem calculateStructSize_rep : ∀ {tys : List Ty} {p : Pointer} {offset : ℕ} {items : List Val},
    CodableFields tys items = true → RepFields P s tys p offset items →
      calculateStructSize host tys false p offset s = .ok (((cellsOf items).length : Felt),s)
  | [], _, _, [], _, _ => by
    rw [calculateStructSize]
    rfl
  | ty::tys, p, offset, x::xs, hgood, hf => by
    rw [CodableFields,Bool.and_eq_true,Bool.and_eq_true] at hgood
    rw [RepFields] at hf
    have hsize := getArgsTypeSize_rep hgood.1.1 hf.2.1
    have hrest := calculateStructSize_rep hgood.2 hf.2.2
    rw [calculateStructSize,cellsOf_cons,List.length_append,Nat.cast_add]
    by_cases href : ty.isReferenceType = true
    · rw [if_pos href,if_neg (by simp),bind_ok (buildLoad_eq ty _ s),Exec.pure_bind]
      dsimp only
      rw [bind_ok hsize,bind_ok hrest]
      rfl
    · rw [if_neg href,Exec.pure_bind]
      dsimp only
      rw [size_of_not_reference host (by simpa using href) hgood.1.1 (loaded s ty (p.add offset)),
        bind_ok hsize,bind_ok hrest]
      rfl
  | [], _, _, _::_, _, hf | _::_, _, _, [], _, hf => by simp [RepFields] at hf

end

/-! ### Filling the buffer -/

/-- The cells from `b` on are filled with `l`; nothing else changes. -/
structure Filled (s t : State) (b : ℕ) (l : List Felt) : Prop where
  heap : t.heap = s.heap
  stack : t.stack = s.stack
  storage : t.storage = s.storage
  mem : ∀ q, (∀ i < l.length, q ≠ .heap (b+i)) → t.mem q = s.mem q
  cells : ∀ i (hi : i < l.length), t.cell (.heap (b+i)) = l.get ⟨i,hi⟩

/-- The cells in `P` lie before the buffer. -/
def Below (P : Pointer → Prop) (b : ℕ) : Prop := ∀ n, P (.heap n) → n < b

theorem Below.mono {b b' : ℕ} (h : Below P b) (hle : b ≤ b') : Below P b' :=
  fun n hn => Nat.lt_of_lt_of_le (h n hn) hle

theorem Filled.nil (s : State) (b : ℕ) : Filled s s b [] :=
  ⟨rfl,rfl,rfl,fun _ _ => rfl,fun _ hi => absurd hi (by simp)⟩

theorem Filled.single (s : State) (b : ℕ) (v : Value) :
    Filled s (s.write (.heap b) v) b [v.felt] := by
  refine ⟨rfl,rfl,rfl,fun q hq => State.write_mem_of_ne s v (hq 0 (by simp)),fun i hi => ?_⟩
  have h0 : i = 0 := by simpa using hi
  subst h0
  exact State.write_cell_self s _ v

theorem Filled.append {b : ℕ} (h : Filled s t b l) (h' : Filled t u (b+l.length) l') :
    Filled s u b (l ++ l') := by
  refine ⟨h'.heap.trans h.heap,h'.stack.trans h.stack,h'.storage.trans h.storage,
    fun q hq => ?_,fun i hi => ?_⟩
  · rw [h'.mem q fun i hi => ?_,h.mem q fun i hi => hq i (by rw [List.length_append]; omega)]
    rw [Nat.add_assoc]
    exact hq (l.length+i) (by rw [List.length_append]; omega)
  · by_cases hlt : i < l.length
    · rw [State.cell,h'.mem _ fun j _ heq => ?_]
      · rw [← State.cell,h.cells i hlt]
        simp [List.getElem_append_left hlt]
      · have hij : b + i = b + l.length + j := by simpa using heq
        omega
    · have hget := h'.cells (i - l.length) (by rw [List.length_append] at hi; omega)
      rw [show b + l.length + (i - l.length) = b + i by omega] at hget
      rw [hget]
      simp [List.getElem_append_right (Nat.le_of_not_lt hlt)]

/-- What rests on cells before the buffer is not touched. -/
theorem Filled.agree {b : ℕ} (h : Filled s t b l) (hb : Below P b) : Agree P P s t := by
  refine ⟨fun q hq => hq,fun q hq => h.mem q fun i _ heq => ?_⟩
  have := hb (b+i) (heq ▸ hq)
  omega

theorem holds_iff : Holds P s p l ↔
    ∀ i (hi : i < l.length), P (p.add i) ∧ s.cell (p.add i) = l.get ⟨i,hi⟩ := by
  constructor
  · exact fun h i hi => h.get hi
  · intro h
    induction l generalizing p with
    | nil => trivial
    | cons x l ih =>
      refine ⟨by simpa using (h 0 (by simp)).1,by simpa using (h 0 (by simp)).2,ih fun i hi => ?_⟩
      have hget := h (i+1) (Nat.succ_lt_succ hi)
      rw [Pointer.add_add,Nat.add_comm 1]
      exact hget

/-- A loop that copies cell by cell. -/
theorem copy_returns {body : ℕ → Unit → Code Unit} {b : ℕ}
    (hbody : ∀ i t, ∃ w : Value, body i () t = .ok ((),t.write (.heap (b+i)) w) ∧
      w.felt = t.cell (p.add i)) (hl : Holds P s p l) (hb : Below P b) :
    Returns (Exec.loop body l.length 0 ()) s fun _ t => Filled s t b l := by
  have hloop : Returns (Exec.loop body l.length 0 ()) s
      fun _ t => Filled s t b (l.take (0+l.length)) := by
    refine returns_loop (I := fun i (_ : Unit) t => Filled s t b (l.take i)) (Filled.nil s b) ?_
    intro i _ t _ hi ht
    have hlt : i < l.length := by omega
    obtain ⟨w,hrun,hw⟩ := hbody i t
    refine ⟨(),_,hrun,?_⟩
    have hget := hl.get hlt
    have hcell : w.felt = l.get ⟨i,hlt⟩ := by
      rw [hw,(ht.agree hb).cell hget.1,hget.2]
    have hstep := Filled.single t (b + (l.take i).length) w
    rw [List.length_take_of_le (Nat.le_of_lt hlt)] at hstep
    rw [List.take_succ_eq_append_getElem hlt]
    refine ht.append ?_
    rw [List.length_take_of_le (Nat.le_of_lt hlt)]
    rw [hcell] at hstep
    exact hstep
  simpa using hloop

theorem memcpy_returns {b : ℕ} (hl : Holds P s p l) (hb : Below P b)
    (hlen : l.length < FIELD_ORDER) :
    Returns (memcpy p (.heap b) (l.length : Felt)) s fun _ t => Filled s t b l := by
  rw [memcpy,Felt.val_natCast_of_lt hlen]
  refine returns_bind ((copy_returns (fun i t => ⟨t.mem (p.add i),rfl,rfl⟩) hl hb).mono ?_)
  exact fun _ t ht => returns_pure ht

/-! ### The encoder -/

theorem isFlatArray_memcpy {elemTy : Ty} {dims : List ArrayLength}
    (h : isFlatArray elemTy dims = true) : allowMemcpy (.array elemTy dims) = true := by
  obtain ⟨⟨hcell,hprim⟩,hdims⟩ := isFlatArray_iff.mp h
  have hdynamic : isDynamic elemTy = false := by
    cases elemTy <;> first | (cases hcell; done) | simp [isDynamic]
  have hcopy : allowMemcpy elemTy = true := by
    cases elemTy <;> first | (cases hcell; done) | exact hprim
  obtain rfl|⟨-,hfixed⟩ := hdims
  · simp [allowMemcpy,hcopy]
  · simp [allowMemcpy,isDynamic,hdynamic,hfixed,hcopy]

theorem not_memcpy_vector {elemTy : Ty} (h : allowMemcpy elemTy = false) :
    allowMemcpy (.array elemTy [.dynamic]) = false := by
  simp [allowMemcpy,h]

/-- A block is copied. -/
theorem encode_block {ty : Ty} {b : ℕ} (h : isBlock ty = true) (hx : HasType ty x)
    (hl : Holds P s p x.cells) (hb : Below P b) (hlen : x.cells.length < FIELD_ORDER) :
    Returns (encodeIntoBuffer host ty (.heap b) (.ptr p)) s fun a t =>
      a = (x.cells.length : Felt) ∧ Filled s t b x.cells := by
  cases ty with
  | address | contract | hash =>
    rw [HasType] at hx
    obtain ⟨w,rfl⟩ := hx
    rw [cells_tuple,cellsOf_flat] at hl ⊢
    rw [encodeIntoBuffer]
    have hcopy : Returns (Exec.loop (fun i (_ : Unit) => do
        let source ← buildLoadInt (p.add i)
        buildStore ((Pointer.heap b).add i) source) 4 0 ()) s fun _ t => Filled s t b w.toList :=
      copy_returns (fun i t => ⟨.int (t.cell (p.add i)),rfl,rfl⟩) hl hb
    obtain ⟨r,t,hrun,ht⟩ := hcopy
    refine ⟨4,t,?_,rfl,ht⟩
    have haddress : encodeAddressOrHash (.heap b) (.ptr p) s = .ok ((),t) := by
      rw [encodeAddressOrHash,bind_ok (show intoPointerValue (.ptr p) s = .ok (p,s) from rfl),
        bind_ok hrun]
      rfl
    rw [bind_ok haddress]
    rfl
  | string | dynamicBytes =>
    rw [HasType] at hx
    obtain ⟨l,rfl,-⟩ := hx
    have hcell : s.cell p = (l.length : Felt) := by
      rw [cells_vector,holds_cons] at hl
      simpa using hl.2.1
    obtain ⟨_,t,hrun,ht⟩ := memcpy_returns hl hb hlen
    have hsize : ((Val.vector (flat l)).cells.length : Felt) = (l.length : Felt) + 1 := by simp
    rw [hsize] at hrun
    refine ⟨_,t,?_,hsize.symm,ht⟩
    rw [encodeIntoBuffer,encodeBytes,bind_ok (vectorLen_eq p s),hcell]
    show (memcpy p (.heap b) ((l.length : Felt) + 1) >>= fun _ => pure _) s = _
    rw [bind_ok hrun]
    rfl
  | array elemTy dims =>
    obtain ⟨⟨hcell,hprim⟩,hdims⟩ := isFlatArray_iff.mp h
    rw [encodeIntoBuffer,encodeArray,if_pos (isFlatArray_memcpy h)]
    obtain ⟨_,t,hrun,ht⟩ := memcpy_returns hl hb hlen
    obtain rfl|⟨hne,hfixed⟩ := hdims
    · obtain ⟨items,rfl,-,hcount⟩ := vector_cells hcell hx
      have hn : s.cell p = (items.length : Felt) := by
        rw [cells_vector,holds_cons] at hl
        exact hl.2.1
      have hsize : ((Val.vector items).cells.length : Felt) =
          (items.length : Felt) * (elemTy.memorySizeOf : ℕ) + 1 := by
        rw [hcount,isOneCell_memorySizeOf hcell]
        simp
      rw [hsize] at hrun ⊢
      refine ⟨_,t,?_,rfl,ht⟩
      show (vectorLen (.ptr p) >>= _) s = _
      rw [bind_ok (vectorLen_eq p s),hn]
      show (memcpy p (.heap b) _ >>= fun _ => pure _) s = _
      rw [bind_ok hrun]
      rfl
    · obtain ⟨d,hd⟩ := getLast?_fixed hne hfixed
      have hsize : (Val.cells x).length = Ty.dimsSize dims * elemTy.memorySizeOf := by
        rw [block_length hcell hfixed hx,isOneCell_memorySizeOf hcell,Nat.mul_one]
      rw [hsize] at hrun ⊢
      refine ⟨_,t,?_,rfl,ht⟩
      rw [hd]
      show (memcpy p (.heap b) _ >>= fun _ => pure _) s = _
      rw [bind_ok hrun]
      rfl
  | _ => cases h

theorem encode_oneCell {ty : Ty} (h : ty.isOneCell = true) (buffer : Pointer) (v : Value) :
    encodeIntoBuffer host ty buffer v = (do
      buildStore buffer v
      pure 1) := by
  cases ty <;> first | (cases h; done) | rw [encodeIntoBuffer]

theorem cellsOf_take_lt {items : List Val} {i : ℕ} (hi : i < items.length) :
    (cellsOf (items.take i)).length + (items.get ⟨i,hi⟩).cells.length ≤ (cellsOf items).length := by
  conv_rhs => rw [← List.take_append_drop i items,cellsOf_append,List.drop_eq_getElem_cons hi]
  rw [cellsOf_cons,List.length_append,List.length_append]
  show (cellsOf (items.take i)).length + items[i].cells.length ≤ _
  omega

/-- The loop that writes the elements of a vector behind its length. -/
theorem encode_vector {elemTy : Ty} {items : List Val} {b : ℕ} (hcopy : allowMemcpy elemTy = false)
    (hr : Rep P s (.array elemTy [.dynamic]) (.ptr p) (.vector items)) (hb : Below P b)
    (hlen : (Val.vector items).cells.length < FIELD_ORDER)
    (helem : ∀ {v x s b}, x ∈ items → Rep P s elemTy v x → Below P b → x.cells.length < FIELD_ORDER →
      Returns (encodeIntoBuffer host elemTy (.heap b) v) s fun a t =>
        a = (x.cells.length : Felt) ∧ Filled s t b x.cells) :
    Returns (encodeIntoBuffer host (.array elemTy [.dynamic]) (.heap b) (.ptr p)) s fun a t =>
      a = ((Val.vector items).cells.length : Felt) ∧ Filled s t b (Val.vector items).cells := by
  obtain ⟨p',items',hp,heq,hlt,hP,hn,-⟩ := rep_vector.mp hr
  cases hp
  cases heq
  rw [cells_vector,List.length_cons] at hlen ⊢
  rw [encodeIntoBuffer,encodeArray,if_neg (by simp [not_memcpy_vector hcopy])]
  show Returns (encodeComplexArray host (encodeIntoBuffer host elemTy) elemTy [.dynamic] (.heap b)
    (.ptr p) 0 (.array elemTy [.dynamic]) [] 0) s _
  rw [encodeComplexArray]
  have hlength : encodeLength host elemTy [.dynamic] (.heap b) (.ptr p) 0 (.array elemTy [.dynamic])
      [] 0 s = .ok ((.array elemTy [.dynamic],0 + 1),s.write (.heap b) (.int (items.length : Felt))) := by
    rw [← hn]
    rfl
  refine returns_bind ⟨_,_,hlength,?_⟩
  dsimp only
  refine (arrayLoop_returns (fun i (offset : Felt) t =>
    offset = (((cellsOf (items.take i)).length + 1 : ℕ) : Felt) ∧
      Filled s t b ((items.length : Felt)::cellsOf (items.take i))) (lt_fieldOrder hlt)
      ?_ ?_ ?_).mono ?_
  · rintro i d t - ⟨-,ht⟩
    rw [arrayBound_vector,(ht.agree hb).cell hP,hn]
  · rintro i d t hi ⟨rfl,ht⟩
    obtain ⟨_,items',hp,heq,-,-,hn',hrow⟩ := rep_vector.mp (hr.mono (ht.agree hb))
    cases hp
    cases heq
    have hle := cellsOf_take_lt hi
    have hval : ((((cellsOf (items.take i)).length + 1 : ℕ) : Felt)).val =
        (cellsOf (items.take i)).length + 1 := val_cast (by omega)
    obtain ⟨a,u,hrun,rfl,hu⟩ := helem (List.get_mem items ⟨i,hi⟩) (hrow i hi).2
      (hb.mono (Nat.le_add_right b ((cellsOf (items.take i)).length + 1))) (by omega)
    refine ⟨(((cellsOf (items.take i)).length + 1 : ℕ) : Felt) +
      ((items.get ⟨i,hi⟩).cells.length : Felt),u,?_,?_⟩
    · rw [List.nil_append,List.length_singleton,
        bind_ok (indexArray_vector host elemTy hn' hlt hi _)]
      dsimp only
      rw [hval,Pointer.add_heap,bind_ok hrun,pure_apply]
    · rw [List.take_succ_eq_append_getElem hi,cellsOf_append]
      refine ⟨?_,ht.append ?_⟩
      · simp
        ring
      · simpa using hu
  · exact ⟨by simp,by simpa using Filled.single s b (.int (items.length : Felt))⟩
  · rintro a t ⟨rfl,ht⟩
    rw [List.take_length] at ht ⊢
    exact ⟨rfl,ht⟩

/-- The length of an empty array is written. -/
theorem encode_empty {elemTy : Ty} {dims : List ArrayLength} (h : dims.getLast? = some .dynamic)
    (hcopy : allowMemcpy (.array elemTy dims) = false) {b : ℕ} (hp : p ≠ .heap b) (hn : s.cell p = 0) :
    Returns (encodeIntoBuffer host (.array elemTy dims) (.heap b) (.ptr p)) s fun a t =>
      a = 1 ∧ Filled s t b [0] := by
  have hdim := dynamic_outermost h
  have hbound : arrayBound host elemTy dims (dims.length-1) (.ptr p) (.array elemTy dims) []
      (s.write (.heap b) (.int 0)) = .ok (0,s.write (.heap b) (.int 0)) := by
    rw [arrayBound_outermost host elemTy h,State.write_cell_of_ne s _ hp,hn]
  have hlength : encodeLength host elemTy dims (.heap b) (.ptr p) (dims.length-1)
      (.array elemTy dims) [] 0 s =
        .ok ((.array elemTy dims,0 + 1),s.write (.heap b) (.int (s.cell p))) := by
    rw [encodeLength,if_pos hdim]
    rfl
  rw [hn] at hlength
  refine ⟨1,_,?_,rfl,Filled.single s b (.int 0)⟩
  rw [encodeIntoBuffer,encodeArray,if_neg (by simp [hcopy])]
  generalize dims.length - 1 = k at hbound hlength
  cases k with
  | zero =>
    show encodeComplexArray host _ elemTy dims _ _ 0 _ [] 0 s = _
    rw [encodeComplexArray,bind_ok hlength]
    dsimp only
    rw [arrayLoop_empty hbound,zero_add]
  | succ k =>
    rw [encodeComplexArray,bind_ok hlength]
    dsimp only
    rw [arrayLoop_empty hbound,zero_add]

mutual

/-- The encoder writes the cells of the value and returns their number. -/
theorem encodeIntoBuffer_rep : ∀ {ty : Ty} {v : Value} {x : Val} {s : State} {b : ℕ},
    Codable ty x = true → Rep P s ty v x → Below P b → x.cells.length < FIELD_ORDER →
      Returns (encodeIntoBuffer host ty (.heap b) v) s fun a t =>
        a = (x.cells.length : Felt) ∧ Filled s t b x.cells
  | .uint32, v, _, s, b, _, hr, _, _ | .bool, v, _, s, b, _, hr, _, _
  | .enum, v, _, s, b, _, hr, _, _ | .field, v, _, s, b, _, hr, _, _ => by
    obtain ⟨-,rfl⟩ := (rep_isOneCell rfl).mp hr
    rw [encode_oneCell host rfl,cells_cell]
    exact ⟨1,_,rfl,by simp,Filled.single s b v⟩
  | .address, _, _, _, _, _, hr, hb, hlen | .contract, _, _, _, _, _, hr, hb, hlen
  | .hash, _, _, _, _, _, hr, hb, hlen | .string, _, _, _, _, _, hr, hb, hlen
  | .dynamicBytes, _, _, _, _, _, hr, hb, hlen => by
    obtain ⟨hx,p,rfl,hl⟩ := (rep_block rfl).mp hr
    exact encode_block host rfl hx hl hb hlen
  | .array elemTy dims, _, _, _, b, hgood, hr, hb, hlen => by
    by_cases hflat : isFlatArray elemTy dims = true
    · have hblock : isBlock (.array elemTy dims) = true := hflat
      obtain ⟨hx,p,rfl,hl⟩ := (rep_block hblock).mp hr
      exact encode_block host hflat hx hl hb hlen
    · obtain ⟨hlast,hcopy,hempty⟩|⟨rfl,hcopy,helem⟩ := not_flat_of_codable hgood hflat
      · obtain ⟨p,rfl,rfl,hp,hn⟩ := (rep_empty hlast).mp ⟨hr,hempty⟩
        have hne : p ≠ .heap b := by
          rintro rfl
          exact absurd (hb b hp) (Nat.lt_irrefl b)
        simpa using encode_empty host hlast hcopy hne hn
      · obtain ⟨p,items,rfl,rfl,-⟩ := rep_vector.mp hr
        exact encode_vector host hcopy hr hb hlen fun hmem hr hb hlen =>
          encodeIntoBuffer_rep (helem _ hmem) hr hb hlen
  | .struct fields, _, _, s, b, hgood, hr, hb, hlen => by
    rw [Rep] at hr
    obtain ⟨p,items,rfl,rfl,hf⟩ := hr
    rw [Codable,Bool.and_eq_true] at hgood
    rw [cells_tuple] at hlen ⊢
    rw [encodeIntoBuffer]
    exact encodeStruct_rep hgood.2 hf hb hlen
  | .void, _, _, _, _, h, _, _, _ | .mapping _ _, _, _, _, _, h, _, _, _
  | .ref _, _, _, _, _, h, _, _, _ | .storageRef _, _, _, _, _, h, _, _, _ => by
    simp [Codable] at h

theorem encodeStruct_rep : ∀ {tys : List Ty} {p : Pointer} {offset : ℕ} {items : List Val}
    {s : State} {b : ℕ}, CodableFields tys items = true → RepFields P s tys p offset items → Below P b →
      (cellsOf items).length < FIELD_ORDER →
      Returns (encodeStruct host tys p offset (.heap b)) s fun a t =>
        a = ((cellsOf items).length : Felt) ∧ Filled s t b (cellsOf items)
  | [], _, _, [], s, b, _, _, _, _ => by
    rw [encodeStruct]
    exact ⟨_,s,rfl,rfl,Filled.nil s b⟩
  | ty::tys, p, offset, x::xs, s, b, hgood, hf, hb, hlen => by
    rw [CodableFields,Bool.and_eq_true,Bool.and_eq_true] at hgood
    rw [RepFields] at hf
    rw [cellsOf_cons,List.length_append] at hlen ⊢
    obtain ⟨a,t,hrun,rfl,ht⟩ := encodeIntoBuffer_rep hgood.1.1 hf.2.1 hb (by omega)
    obtain ⟨a',u,hrest,rfl,hu⟩ := encodeStruct_rep hgood.2 (hf.2.2.mono (ht.agree hb))
      (hb.mono (Nat.le_add_right b x.cells.length)) (by omega)
    refine ⟨_,u,?_,(Nat.cast_add _ _).symm,ht.append hu⟩
    rw [encodeStruct,bind_ok (buildLoad_eq ty _ s),bind_ok hrun,
      val_cast (by omega),Pointer.add_heap,bind_ok hrest]
    rfl
  | [], _, _, _::_, _, _, _, hf, _, _ | _::_, _, _, [], _, _, _, hf, _, _ => by
    simp [RepFields] at hf

end

end Encoding
end OlaLang
