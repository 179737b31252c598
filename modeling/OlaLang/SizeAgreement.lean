import OlaLang.ArrayPaths

/-! The size that is computed before arguments are encoded, and how far the encoder advances: for
which types the two agree, whatever the values. -/
namespace OlaLang
namespace Encoding

open Exec (Returns bind_ok returns_pure returns_bind returns_loop pure_apply)
open Builder Corelib

variable {P : Pointer → Prop} {s t u : State} {p : Pointer} {v array : Value} {x y : Val} {elemTy : Ty}
  {dims : List ArrayLength} {b m n : ℕ}

/-! ### Loops over a row -/

variable (host : Host)

/-- The operand at the end of a path, and the type that the generator gives it. -/
theorem indexArray_path (hrow : Row P s elemTy dims.reverse array x) {indexes : List ℕ} {ty : Ty}
    (w : Value) (hfollow : follow indexes x = some y)
    (hlen : indexes.length ≤ dims.length)
    (hty : Alike elemTy dims ty) : ∃ v ty' w', indexArray host elemTy dims (dims.length-1) indexes (array,ty,w) s =
        .ok ((v,ty',w'),s) ∧ Row P s elemTy (dims.reverse.drop indexes.length) v y ∧
      (indexes = [] → ty' = ty) ∧
      (indexes ≠ [] → ty' = rowTy elemTy (dims.reverse.drop indexes.length)) := by
  have hpath := indexArray_row host dims (w := w) hrow hfollow (by simpa using hlen)
    (by simp) (by simpa using hty)
  rw [List.length_reverse] at hpath
  exact hpath

/-- The row at the end of a path starts with the dimension of its loop. -/
theorem path_dimension {k : ℕ} (hlen : n + (k+1) = dims.length) (hk : k < dims.length) :
    dims.reverse.drop n = dims[k]::dims.reverse.drop (n+1) := by
  rw [List.drop_eq_getElem_cons (by simp; omega),List.getElem_reverse]
  congr 2
  omega

/-- The bound of the loop is the number of rows. -/
theorem arrayBound_row (hrow : Row P s elemTy dims.reverse array x) {indexes : List ℕ} {k : ℕ}
    {ty : Ty} (hfollow : follow indexes x = some y) (hlen : indexes.length + (k+1) = dims.length)
    (hty : Alike elemTy dims ty) :
    arrayBound host elemTy dims k array ty indexes s = .ok ((y.items.length : Felt),s) := by
  have hk : k < dims.length := by omega
  obtain ⟨v,ty',w',hrun,hend,-,-⟩ := indexArray_path host hrow array hfollow (by omega) hty
  rw [path_dimension hlen hk] at hend
  have hlength := hend.length.2
  rw [arrayBound,List.getElem?_eq_getElem hk]
  cases hdim : dims[k] with
  | fixed d =>
    rw [hdim] at hlength
    rw [show y.items.length = d from hlength]
    rfl
  | dynamic =>
    rw [hdim] at hlength
    obtain ⟨p,rfl,-,hn⟩ := hlength
    show (indexArray host elemTy dims (dims.length-1) indexes (array,ty,array) >>= _) s = _
    rw [bind_ok hrun]
    show Except.ok (s.cell p,s) = _
    rw [hn]

/-- The cells of a row are those of its items, behind the length of a dynamic dimension. -/
theorem row_cells (host : Host) (hrow : Row P s elemTy dims.reverse array x) {indexes : List ℕ}
    {k : ℕ} (hfollow : follow indexes x = some y) (hlen : indexes.length + (k+1) = dims.length) :
    y.items.length < 2^32 ∧ y.cells.length =
      (if dims[k]? = some .dynamic then 1 else 0) + (cellsOf y.items).length := by
  have hk : k < dims.length := by omega
  obtain ⟨v,ty',w',-,hend,-,-⟩ := indexArray_path host hrow array hfollow (by omega) ⟨dims,rfl,.inl rfl⟩
  rw [path_dimension hlen hk] at hend
  simp only [List.getElem?_eq_getElem hk,Option.some.injEq]
  exact ⟨hend.length.1,hend.arrayType.cells⟩

/-! ### The size of an array -/

/-- A loop that adds the cells of the items. -/
theorem arrayLoop_sum {bound : Code Felt} {body : ℕ → Felt → Code Felt} {items : List Val}
    (hlt : items.length < 2^32) (hbound : bound s = .ok ((items.length : Felt),s))
    (hbody : ∀ i z m, items[i]? = some z →
      body i ((m : ℕ) : Felt) s = .ok (((m + z.cells.length : ℕ) : Felt),s)) (m : ℕ) :
    arrayLoop bound body FIELD_ORDER 0 (m : Felt) s =
      .ok (((m + (cellsOf items).length : ℕ) : Felt),s) := by
  have hloop : Returns (arrayLoop bound body FIELD_ORDER 0 (m : Felt)) s fun size t => t = s ∧
      size = ((m + (cellsOf (items.take items.length)).length : ℕ) : Felt) := by
    refine arrayLoop_returns (fun i size t => t = s ∧
      size = ((m + (cellsOf (items.take i)).length : ℕ) : Felt)) (lt_fieldOrder hlt) ?_ ?_ ?_
    · rintro i d t - ⟨rfl,-⟩
      exact hbound
    · rintro i d t hi ⟨rfl,rfl⟩
      refine ⟨_,t,hbody i _ _ (List.getElem?_eq_getElem hi),rfl,?_⟩
      rw [List.take_succ_eq_append_getElem hi,cellsOf_append]
      simp [Nat.add_assoc]
    · exact ⟨rfl,by simp⟩
  obtain ⟨size,t,hrun,rfl,rfl⟩ := hloop
  rw [hrun,List.take_length]

/-- The loops add up the cells of a row, from dimension `k` inwards. -/
theorem calculateComplexArraySize_row (hrow : Row P s elemTy dims.reverse array x)
    {elemSize : Option Value → Code Felt} (helem : ∀ v z, Row P s elemTy [] v z →
      elemSize (some v) s = .ok ((z.cells.length : Felt),s)) {k : ℕ} {indexes : List ℕ}
    (hfollow : follow indexes x = some y) (hlen : indexes.length + (k+1) = dims.length) (m : ℕ) :
    calculateComplexArraySize host elemSize elemTy dims array k indexes (m : Felt) s =
      .ok (((m + y.cells.length : ℕ) : Felt),s) := by
  have hty : Alike elemTy dims (.array elemTy dims) := ⟨dims,rfl,.inl rfl⟩
  have hlength : ∀ k m : ℕ, (if dims[k]? = some .dynamic then (m : Felt) + 1 else (m : Felt)) =
      ((m + (if dims[k]? = some .dynamic then 1 else 0) : ℕ) : Felt) := by
    intro k m
    split <;> simp
  induction k generalizing indexes y m with
  | zero =>
    obtain ⟨hlt,hcells⟩ := row_cells host hrow hfollow hlen
    have hbound := arrayBound_row host hrow hfollow hlen hty
    rw [calculateComplexArraySize]
    dsimp only
    rw [hlength,hcells,← Nat.add_assoc]
    refine arrayLoop_sum hlt hbound (fun i z m hz => ?_) _
    have hpath : follow (indexes ++ [i]) x = some z := by rw [follow_append,hfollow]; exact hz
    have hfull : (indexes ++ [i]).length = dims.length := by simpa using hlen
    obtain ⟨v,ty',w',hrun,hend,-,-⟩ := indexArray_path host hrow array hpath (by omega) hty
    rw [hfull,List.drop_eq_nil_of_le (by simp)] at hend
    rw [bind_ok hrun]
    dsimp only
    rw [bind_ok (helem v z hend),pure_apply,Nat.cast_add]
  | succ k ih =>
    obtain ⟨hlt,hcells⟩ := row_cells host hrow hfollow hlen
    have hbound := arrayBound_row host hrow hfollow hlen hty
    rw [calculateComplexArraySize,hlength,hcells,← Nat.add_assoc]
    refine arrayLoop_sum hlt hbound (fun i z m hz => ?_) _
    refine ih ?_ (by simp; omega) m
    rw [follow_append,hfollow]
    exact hz

/-! ### Sizes that are products -/

theorem fixedDims_not_dynamic (h : fixedDims dims = true) : .dynamic ∉ dims := by
  intro hmem
  have hfixed := List.all_eq_true.mp h _ hmem
  cases hfixed

/-- Rows of fixed length over elements of one size. -/
theorem rows_cells {R : Val → Prop} {k : ℕ} (helem : ∀ y, R y → y.cells.length = k)
    (hfixed : .dynamic ∉ dims) (hx : ArrayType R dims x) :
    x.cells.length = Ty.dimsSize dims * k := by
  induction dims generalizing x with
  | nil =>
    rw [helem x hx,Ty.dimsSize,List.map_nil,List.prod_nil,Nat.one_mul]
  | cons dim rest ih =>
    cases dim with
    | dynamic => exact absurd (by simp) hfixed
    | fixed d =>
      obtain ⟨items,rfl,rfl,hi⟩ := hx
      rw [cells_tuple,length_cellsOf fun y hy => ih (fun hmem => hfixed (by simp [hmem])) (hi y hy),
        dimsSize_cons,Ty.dimSize,Nat.mul_assoc]

theorem isPrimitive_cells (h : isPrimitive elemTy = true) (hx : HasType elemTy x) :
    x.cells.length = elemTy.memorySizeOf := by
  cases elemTy with
  | bool | uint32 | field =>
    obtain ⟨c,rfl⟩ := (hasType_isOneCell rfl).mp hx
    rfl
  | ref r | storageRef r =>
    rw [HasType] at hx
    exact hx.elim
  | _ => cases h

theorem primitiveSize_cells {k : ℕ} (h : primitiveSize elemTy dims = some k)
    (hx : HasType elemTy x) : x.cells.length = k := by
  by_cases hprim : (isPrimitive elemTy && directAssessment dims) = true
  · simp only [primitiveSize,hprim,if_true] at h
    rw [Bool.and_eq_true] at hprim
    cases h
    exact isPrimitive_cells hprim.1 hx
  · cases elemTy with
    | struct fields =>
      rw [HasType] at hx
      obtain ⟨items,rfl,hi⟩ := hx
      rw [cells_tuple]
      by_cases hdirect : directAssessment dims = true
      · exact nonPaddedSize_length (by simpa [primitiveSize,hdirect,isPrimitive] using h) hi
      · simp [primitiveSize,hdirect,isPrimitive] at h
    | _ => simp [primitiveSize,hprim] at h

theorem primitiveSize_direct {k : ℕ} (h : primitiveSize elemTy dims = some k) :
    directAssessment dims = true := by
  by_contra hdirect
  cases elemTy <;> simp [primitiveSize,hdirect] at h

/-- Only the outermost of the dimensions may be dynamic. -/
theorem directAssessment_inner (h : directAssessment dims = true) : .dynamic ∉ dims.dropLast := by
  intro hmem
  have hne : dims ≠ [] := by
    rintro rfl
    cases hmem
  have hsplit := List.dropLast_append_getLast hne
  have hcount : 0 < dims.dropLast.count .dynamic := List.count_pos_iff.mpr hmem
  have htotal : dims.count .dynamic =
      dims.dropLast.count .dynamic + [dims.getLast hne].count .dynamic := by
    conv_lhs => rw [← hsplit]
    rw [List.count_append]
  simp only [directAssessment,Bool.or_eq_true,Bool.and_eq_true,decide_eq_true_eq] at h
  obtain h|⟨h,hlast⟩ := h
  · omega
  · rw [List.getLast?_eq_some_getLast hne] at hlast
    rw [Option.some.inj hlast,List.count_singleton_self] at htotal
    omega

theorem isEncoded_ne_nil (h : isEncoded elemTy dims = true) : dims ≠ [] := by
  rintro rfl
  simp [isEncoded,isFlatArray] at h

theorem exists_last (hne : dims ≠ []) :
    ∃ dim init, dims = init ++ [dim] ∧ dims.getLast? = some dim :=
  ⟨dims.getLast hne,dims.dropLast,(List.dropLast_append_getLast hne).symm,
    List.getLast?_eq_some_getLast hne⟩

/-- The product is the number of cells. -/
theorem size_direct {k : ℕ} (hrow : Row P s elemTy dims.reverse v x) (hne : dims ≠ [])
    (hsize : primitiveSize elemTy dims = some k) (elemSize : Option Value → Code Felt) :
    calculateArraySize host elemSize elemTy dims v s = .ok ((x.cells.length : Felt),s) := by
  have hcells : ∀ {inner : List ArrayLength} {y : Val}, ArrayLength.dynamic ∉ inner →
      ArrayType (HasType elemTy) inner y → y.cells.length = Ty.dimsSize inner * k :=
    rows_cells fun y hy => primitiveSize_cells hsize hy
  obtain ⟨dim,init,rfl,hlast⟩ := exists_last hne
  have hinner := directAssessment_inner (primitiveSize_direct hsize)
  rw [List.dropLast_concat] at hinner
  rw [List.reverse_append,List.reverse_singleton,List.singleton_append] at hrow
  rw [calculateArraySize,hsize,hlast]
  dsimp only
  rw [List.dropLast_concat]
  have hitems : ∀ {items : List Val}, (∀ y ∈ items, ArrayType (HasType elemTy) init.reverse y) →
      (cellsOf items).length = items.length * (Ty.dimsSize init * k) := by
    intro items hi
    rw [length_cellsOf fun y hy => hcells (by simpa using hinner) (hi y hy),dimsSize_reverse]
  cases dim with
  | fixed d =>
    obtain ⟨items,rfl,rfl,hi⟩ := hrow.arrayType
    rw [cells_tuple,hitems hi,← Nat.mul_assoc,Nat.cast_mul,Nat.cast_mul]
    rfl
  | dynamic =>
    obtain ⟨p,rfl,-,hn⟩ := hrow.length.2
    obtain ⟨items,rfl,-,hi⟩ := hrow.arrayType
    show Except.ok (s.cell p * ((Ty.dimsSize init : ℕ) : Felt) * (k : Felt) + 1,s) = _
    rw [hn,cells_vector,List.length_cons,hitems hi,← Nat.mul_assoc,Nat.cast_add,Nat.cast_mul,
      Nat.cast_mul,Nat.cast_one]
    rfl

/-! ### Members of structs -/

/-- A member, at the cell that is loaded. -/
def Member (P : Pointer → Prop) (s : State) (ty : Ty) (q : Pointer) (x : Val) : Prop :=
  Measured ty x = true ∧ P q ∧ Rep P s ty (loaded s ty q) x ∨ Static ty = true ∧ HasType ty x

def Members (P : Pointer → Prop) (s : State) : List Ty → Pointer → ℕ → List Val → Prop
  | [], _, _, [] => True
  | ty::tys, p, offset, x::xs => Member P s ty (p.add offset) x ∧
      Members P s tys p (offset + ty.llvmFieldSize) xs
  | _, _, _, _ => False

theorem Member.readable {ty : Ty} (h : Member P s ty p x) : Readable P s ty (loaded s ty p) x := by
  obtain ⟨hgood,-,hr⟩|⟨hstatic,hx⟩ := h
  · exact .inl ⟨hgood,hr⟩
  · exact .inr ⟨hstatic,hx,kind_loaded _ _ _⟩

theorem Member.mono {Q : Pointer → Prop} {ty : Ty} (h : Member P s ty p x) (hagree : Agree P Q s t) :
    Member Q t ty p x := by
  obtain ⟨hgood,hp,hr⟩|hstatic := h
  · refine .inl ⟨hgood,hagree.sub p hp,?_⟩
    rw [hagree.loaded hp]
    exact hr.mono hagree
  · exact .inr hstatic

theorem members_cons {ty : Ty} {tys : List Ty} {offset : ℕ} {items : List Val}
    (h : Members P s (ty::tys) p offset items) : ∃ x xs, items = x::xs ∧
      Member P s ty (p.add offset) x ∧ Members P s tys p (offset + ty.llvmFieldSize) xs := by
  cases items with
  | nil => exact h.elim
  | cons x xs => exact ⟨x,xs,rfl,h⟩

theorem Members.mono {Q : Pointer → Prop} {tys : List Ty} {offset : ℕ} {items : List Val}
    (h : Members P s tys p offset items) (hagree : Agree P Q s t) : Members Q t tys p offset items := by
  induction tys generalizing offset items with
  | nil =>
    cases items with
    | nil => trivial
    | cons x xs => exact h.elim
  | cons ty tys ih =>
    obtain ⟨x,xs,rfl,hx,hxs⟩ := members_cons h
    exact ⟨hx.mono hagree,ih hxs⟩

theorem members_rep {tys : List Ty} {offset : ℕ} {items : List Val}
    (hgood : MeasuredAll tys items = true) (h : RepFields P s tys p offset items) :
    Members P s tys p offset items := by
  induction tys generalizing offset items with
  | nil =>
    cases items with
    | nil => trivial
    | cons x xs => simp [RepFields] at h
  | cons ty tys ih =>
    cases items with
    | nil => simp [RepFields] at h
    | cons x xs =>
      rw [MeasuredAll,Bool.and_eq_true] at hgood
      rw [RepFields] at h
      exact ⟨.inl ⟨hgood.1,h.1,h.2.1⟩,ih hgood.2 h.2.2⟩

theorem members_static {tys : List Ty} {offset : ℕ} {items : List Val}
    (hstatic : StaticFields tys = true) (h : HasTypes tys items) : Members P s tys p offset items := by
  induction tys generalizing offset items with
  | nil =>
    cases items with
    | nil => trivial
    | cons x xs => simp [HasTypes] at h
  | cons ty tys ih =>
    cases items with
    | nil => simp [HasTypes] at h
    | cons x xs =>
      rw [StaticFields,Bool.and_eq_true] at hstatic
      rw [HasTypes] at h
      exact ⟨.inr ⟨hstatic.1,h.1⟩,ih hstatic.2 h.2⟩

/-- The members of a struct are read through its pointer. -/
theorem Readable.members {fields : List Ty} (h : Readable P s (.struct fields) v x) :
    ∃ p items, v = .ptr p ∧ x = .tuple items ∧ Members P s fields p 0 items := by
  obtain ⟨hgood,hr⟩|⟨hstatic,hx,hv⟩ := h
  · rw [Rep] at hr
    rw [Measured] at hgood
    obtain ⟨p,items,rfl,rfl,hf⟩ := hr
    exact ⟨p,items,rfl,rfl,members_rep hgood hf⟩
  · rw [HasType] at hx
    rw [Static] at hstatic
    obtain ⟨items,rfl,hitems⟩ := hx
    obtain ⟨p,rfl⟩ := hv rfl
    exact ⟨p,items,rfl,rfl,members_static hstatic hitems⟩

/-! ### The size of a value -/

theorem Readable.hasType {ty : Ty} (h : Readable P s ty v x) : HasType ty x := by
  obtain ⟨-,hr⟩|⟨-,hx,-⟩ := h
  · exact hr.hasType
  · exact hx

theorem Readable.isEncoded (h : Readable P s (.array elemTy dims) v x) :
    isEncoded elemTy dims = true := by
  obtain ⟨hgood,-⟩|⟨hstatic,-,-⟩ := h
  · rw [Measured,Bool.and_eq_true,Bool.and_eq_true] at hgood
    exact hgood.1.1
  · rw [Static,Bool.and_eq_true,Bool.and_eq_true] at hstatic
    exact hstatic.1.2

/-- Strings have no size of their own. -/
theorem Readable.string {ty : Ty} (h : Readable P s ty v x) (hty : ty = .string ∨ ty = .dynamicBytes) :
    ∃ p l, v = .ptr p ∧ x = .vector (flat l) ∧ l.length < 2^32 ∧ P p ∧
      s.cell p = (l.length : Felt) := by
  obtain ⟨-,hr⟩|⟨hstatic,-,-⟩ := h
  · obtain rfl|rfl := hty <;>
    · rw [Rep] at hr
      obtain ⟨p,l,rfl,rfl,hlt,hl⟩ := hr
      rw [cells_vector,holds_cons,length_flat] at hl
      exact ⟨p,l,rfl,rfl,hlt,hl.1,hl.2.1⟩
  · obtain rfl|rfl := hty <;> simp [Static] at hstatic

/-- The size of a type that is not a reference needs no value. -/
theorem size_none {ty : Ty} (h : ty.isReferenceType = false) (hr : Readable P s ty v x) (w : Value) :
    getArgsTypeSize host ty none = getArgsTypeSize host ty (some w) := by
  have hx := hr.hasType
  cases ty with
  | string | dynamicBytes | array | struct => cases h
  | void | mapping | ref | storageRef =>
    rw [HasType] at hx
    exact hx.elim
  | _ => rw [getArgsTypeSize,getArgsTypeSize]

theorem size_array (hr : Readable P s (.array elemTy dims) v x)
    (helem : ∀ v z, Row P s elemTy [] v z →
      getArgsTypeSize host elemTy (some v) s = .ok ((z.cells.length : Felt),s)) :
    getArgsTypeSize host (.array elemTy dims) (some v) s = .ok ((x.cells.length : Felt),s) := by
  have hne := isEncoded_ne_nil hr.isEncoded
  rw [getArgsTypeSize]
  show calculateArraySize host (getArgsTypeSize host elemTy) elemTy dims v s = _
  cases hsize : primitiveSize elemTy dims with
  | some k => exact size_direct host hr.row hne hsize _
  | none =>
    have hlen : ([] : List ℕ).length + (dims.length - 1 + 1) = dims.length := by
      have := List.length_pos_iff.mpr hne
      simp
      omega
    have hsum := calculateComplexArraySize_row host hr.row helem (y := x) rfl hlen 0
    rw [Nat.cast_zero,Nat.zero_add] at hsum
    rw [calculateArraySize,hsize]
    exact hsum

mutual

/-- The computed size is the number of cells of the value. -/
theorem getArgsTypeSize_readable : ∀ {ty : Ty} {v : Value} {x : Val}, Readable P s ty v x →
    getArgsTypeSize host ty (some v) s = .ok ((x.cells.length : Felt),s)
  | .uint32, _, _, hr | .bool, _, _, hr | .enum, _, _, hr | .field, _, _, hr => by
    obtain ⟨c,rfl⟩ := (hasType_isOneCell rfl).mp hr.hasType
    rw [size_oneCell host rfl]
    simp
  | .address, _, _, hr | .contract, _, _, hr | .hash, _, _, hr => by
    have hx := hr.hasType
    rw [HasType] at hx
    obtain ⟨w,rfl⟩ := hx
    rw [getArgsTypeSize]
    simp [Word.toList]
  | .string, _, _, hr | .dynamicBytes, _, _, hr => by
    obtain ⟨p,l,rfl,rfl,-,-,hn⟩ := hr.string (by simp)
    rw [getArgsTypeSize]
    show Except.ok (s.cell p + 1,s) = _
    rw [hn]
    simp
  | .array elemTy dims, _, _, hr =>
    size_array host hr fun _ _ hrow => getArgsTypeSize_readable hrow.readable
  | .struct fields, _, _, hr => by
    obtain ⟨p,items,rfl,rfl,hmembers⟩ := hr.members
    rw [getArgsTypeSize,cells_tuple]
    exact calculateStructSize_members hmembers
  | .void, _, _, hr | .mapping _ _, _, _, hr | .ref _, _, _, hr | .storageRef _, _, _, hr => by
    have hx := hr.hasType
    rw [HasType] at hx
    exact hx.elim

theorem calculateStructSize_members : ∀ {tys : List Ty} {p : Pointer} {offset : ℕ} {items : List Val},
    Members P s tys p offset items →
      calculateStructSize host tys false p offset s = .ok (((cellsOf items).length : Felt),s)
  | [], _, _, [], _ => by
    rw [calculateStructSize]
    rfl
  | ty::tys, p, offset, x::xs, hmembers => by
    have hmember := hmembers.1.readable
    have hsize := getArgsTypeSize_readable hmember
    have hrest := calculateStructSize_members hmembers.2
    rw [calculateStructSize,cellsOf_cons,List.length_append,Nat.cast_add]
    by_cases href : ty.isReferenceType = true
    · rw [if_pos href,if_neg (by simp),bind_ok (buildLoad_eq ty _ s),Exec.pure_bind]
      dsimp only
      rw [bind_ok hsize,bind_ok hrest]
      rfl
    · rw [if_neg href,Exec.pure_bind]
      dsimp only
      rw [size_none host (by simpa using href) hmember (loaded s ty (p.add offset)),
        bind_ok hsize,bind_ok hrest]
      rfl
  | [], _, _, _::_, hmembers | _::_, _, _, [], hmembers => hmembers.elim

end

/-! ### What the encoder touches -/

/-- Only the `n` cells from `b` on change. -/
structure Touched (s t : State) (b n : ℕ) : Prop where
  heap : t.heap = s.heap
  stack : t.stack = s.stack
  storage : t.storage = s.storage
  mem : ∀ q, (∀ i < n, q ≠ .heap (b+i)) → t.mem q = s.mem q

theorem Touched.nil (s : State) (b : ℕ) : Touched s s b 0 := ⟨rfl,rfl,rfl,fun _ _ => rfl⟩

theorem Touched.single (s : State) (b : ℕ) (v : Value) : Touched s (s.write (.heap b) v) b 1 :=
  ⟨rfl,rfl,rfl,fun _ hq => State.write_mem_of_ne s v (hq 0 (by simp))⟩

theorem Touched.append (h : Touched s t b m) (h' : Touched t u (b+m) n) : Touched s u b (m+n) := by
  refine ⟨h'.heap.trans h.heap,h'.stack.trans h.stack,h'.storage.trans h.storage,fun q hq => ?_⟩
  rw [h'.mem q fun i hi => ?_,h.mem q fun i hi => hq i (by omega)]
  rw [Nat.add_assoc]
  exact hq (m+i) (by omega)

/-- What rests on cells before the buffer is not touched. -/
theorem Touched.agree (h : Touched s t b n) (hb : Below P b) : Agree P P s t := by
  refine ⟨fun q hq => hq,fun q hq => h.mem q fun i _ heq => ?_⟩
  have := hb (b+i) (heq ▸ hq)
  omega

/-- A loop that fills cell by cell. -/
theorem touched_loop {body : ℕ → Unit → Code Unit}
    (hbody : ∀ i t, ∃ w : Value, body i () t = .ok ((),t.write (.heap (b+i)) w)) (n : ℕ) :
    Returns (Exec.loop body n 0 ()) s fun _ t => Touched s t b n := by
  have hloop : Returns (Exec.loop body n 0 ()) s fun _ t => Touched s t b (0+n) := by
    refine returns_loop (I := fun i _ t => Touched s t b i) (Touched.nil s b) fun i _ t _ _ ht => ?_
    obtain ⟨w,hrun⟩ := hbody i t
    exact ⟨(),_,hrun,ht.append (Touched.single t (b+i) w)⟩
  rw [Nat.zero_add] at hloop
  exact hloop

theorem touched_memcpy (p : Pointer) (hn : n < FIELD_ORDER) :
    Returns (memcpy p (.heap b) (n : Felt)) s fun _ t => Touched s t b n := by
  rw [memcpy,Felt.val_natCast_of_lt hn]
  refine returns_bind ((touched_loop (fun i t => ⟨t.mem (p.add i),rfl⟩) n).mono ?_)
  exact fun _ t ht => returns_pure ht

/-! ### The encoder over a row -/

/-- A loop that moves on by the cells of each item. -/
theorem arrayLoop_advance {bound : Code Felt} {body : ℕ → Felt → Code Felt} {items : List Val}
    (hlt : items.length < 2^32)
    (hbound : ∀ m t, Touched s t b m → bound t = .ok ((items.length : Felt),t))
    (hbody : ∀ i z m t, items[i]? = some z → Touched s t b m → m + z.cells.length < FIELD_ORDER →
      Returns (body i (m : Felt)) t fun r u => r = ((m + z.cells.length : ℕ) : Felt) ∧
        Touched s u b (m + z.cells.length))
    (ht : Touched s t b m) (hm : m + (cellsOf items).length < FIELD_ORDER) :
    Returns (arrayLoop bound body FIELD_ORDER 0 (m : Felt)) t fun r u =>
      r = ((m + (cellsOf items).length : ℕ) : Felt) ∧ Touched s u b (m + (cellsOf items).length) := by
  refine (arrayLoop_returns (d := (m : Felt)) (fun i r u =>
    r = ((m + (cellsOf (items.take i)).length : ℕ) : Felt) ∧
      Touched s u b (m + (cellsOf (items.take i)).length)) (lt_fieldOrder hlt)
    (fun i d u _ hu => hbound _ u hu.2) ?_ ⟨by simp,by simpa using ht⟩).mono fun r u hu => ?_
  · rintro i d u hi ⟨rfl,hu⟩
    have hle := cellsOf_take_lt hi
    have hstep := hbody i _ _ u (List.getElem?_eq_getElem hi) hu (by
      show m + _ + (items.get ⟨i,hi⟩).cells.length < _
      omega)
    rw [List.take_succ_eq_append_getElem hi,cellsOf_append,List.length_append,cellsOf_cons,
      cellsOf_nil,List.append_nil,← Nat.add_assoc]
    exact hstep
  · rw [List.take_length] at hu
    exact hu

theorem sameLength_last {k : ℕ} (hsame : sameLength dims = true) (hk : dims[k]? = some .dynamic) :
    dims.getLast? = some .dynamic := by
  have hmem : ArrayLength.dynamic ∈ dims := List.mem_of_getElem? hk
  simpa [sameLength,hmem] using hsame

/-- The type that is handed on still reads like that of the array. -/
theorem encodeLength_row (hrow : Row P t elemTy dims.reverse array x) (hsame : sameLength dims = true)
    {k : ℕ} {indexes : List ℕ} {ty : Ty} (hfollow : follow indexes x = some y)
    (hlen : indexes.length + (k+1) = dims.length) (hty : Alike elemTy dims ty)
    (ht : Touched s t b m) (hm : m < FIELD_ORDER) :
    Returns (encodeLength host elemTy dims (.heap b) array k ty indexes (m : Felt)) t fun r u =>
      Alike elemTy dims r.1 ∧ r.2 = ((m + (if dims[k]? = some .dynamic then 1 else 0) : ℕ) : Felt) ∧
        Touched s u b (m + (if dims[k]? = some .dynamic then 1 else 0)) := by
  have hk : k < dims.length := by omega
  by_cases hdim : dims[k]? = some .dynamic
  · have hdim' : dims[k] = .dynamic := by
      rw [List.getElem?_eq_getElem hk] at hdim
      exact Option.some.inj hdim
    obtain ⟨v,ty',w',hrun,hend,hnil,hcons⟩ := indexArray_path host hrow array hfollow (by omega) hty
    rw [path_dimension hlen hk,hdim'] at hend hcons
    obtain ⟨p,rfl,-,hn⟩ := hend.length.2
    have halike : Alike elemTy dims ty' := by
      by_cases hindexes : indexes = []
      · rw [hnil hindexes]
        exact hty
      · rw [hcons hindexes]
        exact ⟨_,if_neg (by simp),.inr ⟨by simp,sameLength_last hsame hdim⟩⟩
    rw [if_pos hdim,encodeLength,if_pos hdim]
    refine ⟨(ty',(m : Felt) + 1),t.write (.heap (b+m)) (.int (t.cell p)),?_,halike,by simp,?_⟩
    · rw [bind_ok hrun]
      dsimp only
      rw [bind_ok (vectorLen_eq p t),val_cast hm]
      rfl
    · exact ht.append (Touched.single t (b+m) _)
  · rw [if_neg hdim,encodeLength,if_neg hdim]
    exact ⟨_,t,rfl,hty,rfl,ht⟩

/-- The loops write the rows one behind the other, from dimension `k` inwards. -/
theorem encodeComplexArray_row (hrow : Row P s elemTy dims.reverse array x)
    (hsame : sameLength dims = true) (hb : Below P b)
    {encodeElem : Pointer → Value → Code Felt}
    (helem : ∀ v z t b, Row P t elemTy [] v z → Below P b → z.cells.length < FIELD_ORDER →
      Returns (encodeElem (.heap b) v) t fun a u =>
        a = (z.cells.length : Felt) ∧ Touched t u b z.cells.length)
    {k : ℕ} {indexes : List ℕ} {ty : Ty} (hfollow : follow indexes x = some y)
    (hlen : indexes.length + (k+1) = dims.length) (hty : Alike elemTy dims ty)
    (ht : Touched s t b m) (hm : m + y.cells.length < FIELD_ORDER) :
    Returns (encodeComplexArray host encodeElem elemTy dims (.heap b) array k ty indexes (m : Felt)) t
      fun r u => r = ((m + y.cells.length : ℕ) : Felt) ∧ Touched s u b (m + y.cells.length) := by
  have hrows : ∀ {m t}, Touched s t b m → Row P t elemTy dims.reverse array x :=
    fun ht => hrow.mono (ht.agree hb)
  induction k generalizing indexes y ty m t with
  | zero =>
    obtain ⟨hlt,hcells⟩ := row_cells host hrow hfollow hlen
    rw [hcells,← Nat.add_assoc] at hm ⊢
    obtain ⟨⟨ty',_⟩,u,hrun,hty',rfl,hu⟩ := encodeLength_row host (hrows ht) hsame hfollow hlen hty ht
      (by omega)
    rw [encodeComplexArray]
    refine returns_bind ⟨_,u,hrun,?_⟩
    refine arrayLoop_advance hlt (fun m t ht => arrayBound_row host (hrows ht) hfollow hlen hty')
      (fun i z m t hz ht hm => ?_) hu hm
    have hpath : follow (indexes ++ [i]) x = some z := by rw [follow_append,hfollow]; exact hz
    have hfull : (indexes ++ [i]).length = dims.length := by simpa using hlen
    obtain ⟨v,_,w,hindex,hend,-,-⟩ := indexArray_path host (hrows ht) array hpath (by omega) hty'
    rw [hfull,List.drop_eq_nil_of_le (by simp)] at hend
    obtain ⟨a,u,helem,rfl,hu⟩ := helem v z t (b+m) hend (hb.mono (Nat.le_add_right b m)) (by omega)
    refine ⟨(m : Felt) + (z.cells.length : Felt),u,?_,(Nat.cast_add _ _).symm,ht.append hu⟩
    rw [bind_ok hindex]
    dsimp only
    rw [val_cast (by omega),Pointer.add_heap,bind_ok helem,pure_apply]
  | succ k ih =>
    obtain ⟨hlt,hcells⟩ := row_cells host hrow hfollow hlen
    rw [hcells,← Nat.add_assoc] at hm ⊢
    obtain ⟨⟨ty',_⟩,u,hrun,hty',rfl,hu⟩ := encodeLength_row host (hrows ht) hsame hfollow hlen hty ht
      (by omega)
    rw [encodeComplexArray]
    refine returns_bind ⟨_,u,hrun,?_⟩
    refine arrayLoop_advance hlt (fun m t ht => arrayBound_row host (hrows ht) hfollow hlen hty')
      (fun i z m t hz ht hm => ?_) hu hm
    refine ih ?_ (by simp; omega) hty' ht hm
    rw [follow_append,hfollow]
    exact hz

/-! ### The encoder -/

theorem Readable.sameLength (h : Readable P s (.array elemTy dims) v x) :
    sameLength dims = true := by
  obtain ⟨hgood,-⟩|⟨hstatic,-,-⟩ := h
  · rw [Measured,Bool.and_eq_true,Bool.and_eq_true] at hgood
    exact hgood.1.2
  · rw [Static,Bool.and_eq_true,Bool.and_eq_true] at hstatic
    simp [Encoding.sameLength,fixedDims_not_dynamic hstatic.1.1]

/-- Arrays that are copied take the cells of a sequence. -/
theorem encode_copied (hr : Readable P s (.array elemTy dims) v x)
    (hcopy : allowMemcpy (.array elemTy dims) = true) (hlen : x.cells.length < FIELD_ORDER) :
    Returns (encodeArray host (encodeIntoBuffer host elemTy) elemTy dims (.heap b) v) s fun a t =>
      a = (x.cells.length : Felt) ∧ Touched s t b x.cells.length := by
  have hflat : isFlatArray elemTy dims = true := by simpa [Encoding.isEncoded,hcopy] using hr.isEncoded
  obtain ⟨⟨hcell,hprim⟩,hdims⟩ := isFlatArray_iff.mp hflat
  rw [encodeArray,if_pos hcopy]
  obtain rfl|⟨hne,hfixed⟩ := hdims
  · obtain ⟨p,rfl,-,hn⟩ := hr.row.length.2
    obtain ⟨items,rfl,-,hcount⟩ := vector_cells hcell hr.hasType
    have hsize : (Val.vector items).cells.length = items.length + 1 := hcount
    obtain ⟨_,t,hrun,ht⟩ := touched_memcpy (s := s) (b := b) p hlen
    have hcopySize : (items.length : Felt) * (elemTy.memorySizeOf : ℕ) + 1 =
        (((Val.vector items).cells.length : ℕ) : Felt) := by
      rw [hsize,isOneCell_memorySizeOf hcell]
      simp
    refine ⟨_,t,?_,rfl,ht⟩
    show (vectorLen (.ptr p) >>= _) s = _
    rw [bind_ok (vectorLen_eq p s),hn]
    show (memcpy p (.heap b) ((items.length : Felt) * (elemTy.memorySizeOf : ℕ) + 1) >>=
      fun _ => pure ((items.length : Felt) * (elemTy.memorySizeOf : ℕ) + 1)) s = _
    rw [hcopySize,bind_ok hrun]
    rfl
  · obtain ⟨d,hd⟩ := getLast?_fixed hne hfixed
    obtain ⟨p,rfl⟩ : ∃ p, v = .ptr p := by
      obtain ⟨-,hrep⟩|⟨-,-,hv⟩ := hr
      · obtain ⟨-,p,hp,-⟩ := (rep_block (show isBlock (.array elemTy dims) = true from hflat)).mp hrep
        exact ⟨p,hp⟩
      · exact hv rfl
    have hsize : x.cells.length = Ty.dimsSize dims * elemTy.memorySizeOf := by
      rw [block_length hcell hfixed hr.hasType,isOneCell_memorySizeOf hcell,Nat.mul_one]
    obtain ⟨_,t,hrun,ht⟩ := touched_memcpy (s := s) (b := b) p hlen
    refine ⟨_,t,?_,rfl,ht⟩
    rw [hd]
    show (memcpy p (.heap b) ((Ty.dimsSize dims * elemTy.memorySizeOf : ℕ) : Felt) >>=
      fun _ => pure _) s = _
    rw [← hsize,bind_ok hrun]
    rfl

theorem encode_array (hr : Readable P s (.array elemTy dims) v x) (hb : Below P b)
    (hlen : x.cells.length < FIELD_ORDER)
    (helem : ∀ v z t b, Row P t elemTy [] v z → Below P b → z.cells.length < FIELD_ORDER →
      Returns (encodeIntoBuffer host elemTy (.heap b) v) t fun a u =>
        a = (z.cells.length : Felt) ∧ Touched t u b z.cells.length) :
    Returns (encodeIntoBuffer host (.array elemTy dims) (.heap b) v) s fun a t =>
      a = (x.cells.length : Felt) ∧ Touched s t b x.cells.length := by
  rw [encodeIntoBuffer]
  by_cases hcopy : allowMemcpy (.array elemTy dims) = true
  · exact encode_copied host hr hcopy hlen
  · rw [encodeArray,if_neg hcopy]
    have hindexes : ([] : List ℕ).length + (dims.length - 1 + 1) = dims.length := by
      have := List.length_pos_iff.mpr (isEncoded_ne_nil hr.isEncoded)
      simp
      omega
    have hrun := encodeComplexArray_row host hr.row hr.sameLength hb helem (y := x) rfl hindexes
      ⟨dims,rfl,.inl rfl⟩ (Touched.nil s b) (by omega)
    rw [Nat.zero_add,Nat.cast_zero] at hrun
    exact hrun

mutual

/-- The encoder advances by the number of cells of the value. -/
theorem encodeIntoBuffer_readable : ∀ {ty : Ty} {v : Value} {x : Val} {s : State} {b : ℕ},
    Readable P s ty v x → Below P b → x.cells.length < FIELD_ORDER →
      Returns (encodeIntoBuffer host ty (.heap b) v) s fun a t =>
        a = (x.cells.length : Felt) ∧ Touched s t b x.cells.length
  | .uint32, v, _, s, b, hr, _, _ | .bool, v, _, s, b, hr, _, _
  | .enum, v, _, s, b, hr, _, _ | .field, v, _, s, b, hr, _, _ => by
    obtain ⟨c,rfl⟩ := (hasType_isOneCell rfl).mp hr.hasType
    rw [encode_oneCell host rfl,cells_cell]
    exact ⟨1,_,rfl,by simp,Touched.single s b v⟩
  | .address, v, _, s, b, hr, _, _ | .contract, v, _, s, b, hr, _, _
  | .hash, v, _, s, b, hr, _, _ => by
    have hx := hr.hasType
    rw [HasType] at hx
    obtain ⟨w,rfl⟩ := hx
    obtain ⟨p,rfl⟩ : ∃ p, v = .ptr p := by
      obtain ⟨-,hrep⟩|⟨-,-,hv⟩ := hr
      · rw [Rep] at hrep
        obtain ⟨p,_,hp,-⟩ := hrep
        exact ⟨p,hp⟩
      · exact hv rfl
    rw [cells_tuple,cellsOf_flat,encodeIntoBuffer]
    have hloop : Returns (Exec.loop (fun i (_ : Unit) => do
        let source ← buildLoadInt (p.add i)
        buildStore ((Pointer.heap b).add i) source) 4 0 ()) s fun _ t => Touched s t b 4 :=
      touched_loop (fun i t => ⟨.int (t.cell (p.add i)),rfl⟩) 4
    obtain ⟨r,t,hrun,ht⟩ := hloop
    refine ⟨4,t,?_,rfl,ht⟩
    have haddress : encodeAddressOrHash (.heap b) (.ptr p) s = .ok ((),t) := by
      rw [encodeAddressOrHash,bind_ok (show intoPointerValue (.ptr p) s = .ok (p,s) from rfl),
        bind_ok hrun]
      rfl
    rw [bind_ok haddress]
    rfl
  | .string, _, _, s, b, hr, _, hlen | .dynamicBytes, _, _, s, b, hr, _, hlen => by
    obtain ⟨p,l,rfl,rfl,-,-,hn⟩ := hr.string (by simp)
    obtain ⟨_,t,hrun,ht⟩ := touched_memcpy (s := s) (b := b) p hlen
    have hsize : ((Val.vector (flat l)).cells.length : Felt) = (l.length : Felt) + 1 := by simp
    rw [hsize] at hrun
    refine ⟨_,t,?_,hsize.symm,ht⟩
    rw [encodeIntoBuffer,encodeBytes,bind_ok (vectorLen_eq p s),hn]
    show (memcpy p (.heap b) ((l.length : Felt) + 1) >>= fun _ => pure _) s = _
    rw [bind_ok hrun]
    rfl
  | .array elemTy dims, _, _, _, _, hr, hb, hlen =>
    encode_array host hr hb hlen fun _ _ _ _ hrow hb hlen =>
      encodeIntoBuffer_readable hrow.readable hb hlen
  | .struct fields, _, _, s, b, hr, hb, hlen => by
    obtain ⟨p,items,rfl,rfl,hmembers⟩ := hr.members
    rw [cells_tuple] at hlen ⊢
    rw [encodeIntoBuffer]
    exact encodeStruct_members hmembers hb hlen
  | .void, _, _, _, _, hr, _, _ | .mapping _ _, _, _, _, _, hr, _, _
  | .ref _, _, _, _, _, hr, _, _ | .storageRef _, _, _, _, _, hr, _, _ => by
    have hx := hr.hasType
    rw [HasType] at hx
    exact hx.elim

theorem encodeStruct_members : ∀ {tys : List Ty} {p : Pointer} {offset : ℕ} {items : List Val}
    {s : State} {b : ℕ}, Members P s tys p offset items → Below P b →
      (cellsOf items).length < FIELD_ORDER →
      Returns (encodeStruct host tys p offset (.heap b)) s fun a t =>
        a = ((cellsOf items).length : Felt) ∧ Touched s t b (cellsOf items).length
  | [], _, _, [], s, b, _, _, _ => by
    rw [encodeStruct]
    exact ⟨_,s,rfl,rfl,Touched.nil s b⟩
  | ty::tys, p, offset, x::xs, s, b, hmembers, hb, hlen => by
    rw [cellsOf_cons,List.length_append] at hlen ⊢
    obtain ⟨a,t,hrun,rfl,ht⟩ := encodeIntoBuffer_readable hmembers.1.readable hb (by omega)
    obtain ⟨a',u,hrest,rfl,hu⟩ := encodeStruct_members (hmembers.2.mono (ht.agree hb))
      (hb.mono (Nat.le_add_right b x.cells.length)) (by omega)
    refine ⟨_,u,?_,(Nat.cast_add _ _).symm,ht.append hu⟩
    rw [encodeStruct,bind_ok (buildLoad_eq ty _ s),bind_ok hrun,
      val_cast (by omega),Pointer.add_heap,bind_ok hrest]
    rfl
  | [], _, _, _::_, _, _, hmembers, _, _ | _::_, _, _, [], _, _, hmembers, _, _ => hmembers.elim

end

/-! ### Arguments -/

/-- The size that is computed for the values is how far the encoder advances over them, wherever they
and the buffer behind them lie, and only the buffer is written. Reading the values again gives the
same size. -/
def SizesAgree (types : List Ty) (vals : List Val) : Prop :=
  ∀ (P : Pointer → Prop) (s : State) (b : ℕ) (args : List Value),
    RepAll P s types args vals → Below P b → (cellsOf vals).length < FIELD_ORDER →
      ∃ n < FIELD_ORDER, ∀ t, Agree P P s t →
        calculateSizeArgs host (types.zip args) t = .ok ((n : Felt),t) ∧
        Returns (encodeArgs host (types.zip args) (.heap b)) t fun p u =>
          p = .heap (b+n) ∧ Touched t u b n

theorem measuredAll_cons {ty : Ty} {tys : List Ty} {xs : List Val}
    (h : MeasuredAll (ty::tys) (x::xs) = true) : Measured ty x = true ∧ MeasuredAll tys xs = true := by
  rwa [MeasuredAll,Bool.and_eq_true] at h

theorem calculateSizeArgs_measured : ∀ {tys : List Ty} {vs : List Value} {items : List Val},
    MeasuredAll tys items = true → RepAll P s tys vs items →
      calculateSizeArgs host (tys.zip vs) s = .ok (((cellsOf items).length : Felt),s)
  | [], [], [], _, _ => rfl
  | ty::tys, v::vs, x::xs, hgood, hr => by
    rw [RepAll] at hr
    rw [List.zip_cons_cons,calculateSizeArgs,
      bind_ok (getArgsTypeSize_readable host (.inl ⟨(measuredAll_cons hgood).1,hr.1⟩)),
      bind_ok (calculateSizeArgs_measured (measuredAll_cons hgood).2 hr.2),cellsOf_cons,
      List.length_append,Nat.cast_add]
    rfl
  | [], _::_, _, _, hr | [], [], _::_, _, hr | _::_, [], _, _, hr | _::_, _::_, [], _, hr => by
    simp [RepAll] at hr

theorem encodeArgs_measured : ∀ {tys : List Ty} {vs : List Value} {items : List Val} {s : State}
    {b : ℕ}, MeasuredAll tys items = true → RepAll P s tys vs items → Below P b →
      (cellsOf items).length < FIELD_ORDER →
      Returns (encodeArgs host (tys.zip vs) (.heap b)) s fun p t =>
        p = .heap (b + (cellsOf items).length) ∧ Touched s t b (cellsOf items).length
  | [], [], [], s, b, _, _, _, _ => ⟨_,s,rfl,rfl,Touched.nil s b⟩
  | ty::tys, v::vs, x::xs, s, b, hgood, hr, hb, hlen => by
    rw [RepAll] at hr
    rw [cellsOf_cons,List.length_append] at hlen ⊢
    obtain ⟨a,t,hrun,rfl,ht⟩ := encodeIntoBuffer_readable host
      (.inl ⟨(measuredAll_cons hgood).1,hr.1⟩) hb (by omega)
    obtain ⟨p,u,hrest,rfl,hu⟩ := encodeArgs_measured (measuredAll_cons hgood).2
      (hr.2.mono (ht.agree hb)) (hb.mono (Nat.le_add_right b x.cells.length)) (by omega)
    refine ⟨_,u,?_,congrArg Pointer.heap (Nat.add_assoc _ _ _),ht.append hu⟩
    rw [List.zip_cons_cons,encodeArgs,bind_ok hrun,val_cast (by omega),Pointer.add_heap,hrest]
  | [], _::_, _, _, _, _, hr, _, _ | [], [], _::_, _, _, _, hr, _, _
  | _::_, [], _, _, _, _, hr, _, _ | _::_, _::_, [], _, _, _, hr, _, _ => by simp [RepAll] at hr

theorem sizesAgree_measured {types : List Ty} {vals : List Val}
    (hgood : MeasuredAll types vals = true) : SizesAgree host types vals := by
  intro P s b args hr hb hlen
  refine ⟨(cellsOf vals).length,hlen,fun t hagree => ?_⟩
  have hr' := hr.mono hagree
  exact ⟨calculateSizeArgs_measured host hgood hr',encodeArgs_measured host hgood hr' hb hlen⟩

/-- The size and the selector are the last two cells of the buffer: the arguments fill the cells
between the length of the vector and these two, and what was there before is left alone. -/
theorem abiEncodeWithSelector_fills {types : List Ty} {vals : List Val}
    (h : SizesAgree host types vals) {args : List Value} (hr : RepAll s.Old s types args vals)
    (hlen : (cellsOf vals).length < FIELD_ORDER) (selector : Value) :
    ∃ n : ℕ, calculateSizeArgs host (types.zip args) s = .ok ((n : Felt),s) ∧ (n + 2 < FIELD_ORDER →
      Returns (abiEncodeWithSelector host selector (types.zip args)) s fun p t =>
        p = .heap s.heap ∧ t.heap = s.heap + n + 3 ∧ t.cell (.heap (s.heap + 1 + n)) = (n : Felt) ∧
          t.cell (.heap (s.heap + 2 + n)) = selector.felt ∧ ∀ q, s.Old q → t.mem q = s.mem q) := by
  have hbelow : Below s.Old (s.heap + 1) := fun n hn => Nat.lt_succ_of_lt hn
  obtain ⟨n,-,hrun⟩ := h s.Old s (s.heap + 1) args hr hbelow hlen
  have hsize := (hrun s ⟨fun _ hq => hq,fun _ _ => rfl⟩).1
  refine ⟨n,hsize,fun hn => ?_⟩
  have hval : ((n : Felt) + 2).val = n + 2 := by
    have hcast : ((n + 2 : ℕ) : Felt) = (n : Felt) + 2 := by simp
    rw [← hcast]
    exact val_cast hn
  have hnew : vectorNew ((n : Felt) + 2) s = .ok (.heap s.heap,
      { s with heap := s.heap + (n + 2) + 1 }.write (.heap s.heap) (.int ((n : Felt) + 2))) := by
    rw [vectorNew,hval]
  have hkeep : ∀ q, s.Old q → q ≠ .heap s.heap := by
    rintro q hq rfl
    exact absurd (show s.heap < s.heap from hq) (by omega)
  have hagree : Agree s.Old s.Old s ({ s with heap := s.heap + (n + 2) + 1 }.write (.heap s.heap)
      (.int ((n : Felt) + 2))) :=
    ⟨fun _ hq => hq,fun q hq => State.write_mem_of_ne _ _ (hkeep q hq)⟩
  obtain ⟨-,_,t,hencode,rfl,ht⟩ := hrun _ hagree
  refine ⟨.heap s.heap,(t.write (.heap (s.heap + 1 + n)) (.int (n : Felt))).write
    (.heap (s.heap + 1 + n + 1)) selector,?_,rfl,?_,?_,?_,fun q hq => ?_⟩
  · rw [abiEncodeWithSelector,bind_ok hsize,bind_ok hnew]
    show (encodeArgs host (types.zip args) (.heap (s.heap + 1)) >>= _) _ = _
    rw [bind_ok hencode]
    rfl
  · show t.heap = _
    rw [ht.heap]
    show s.heap + (n + 2) + 1 = _
    omega
  · rw [State.write_cell_of_ne _ _ (by simp),State.write_cell_self]
    rfl
  · rw [show s.heap + 2 + n = s.heap + 1 + n + 1 by omega,State.write_cell_self]
  · have hne : ∀ i, q ≠ .heap (s.heap + 1 + i) := by
      rintro i rfl
      exact absurd (show s.heap + 1 + i < s.heap from hq) (by omega)
    rw [State.write_mem_of_ne _ _ (show q ≠ .heap (s.heap + 1 + n + 1) from hne (n+1)),
      State.write_mem_of_ne _ _ (hne n),
      ht.mem q fun i _ => hne i]
    exact State.write_mem_of_ne _ _ (hkeep q hq)

end Encoding
end OlaLang
