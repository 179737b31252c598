import OlaLang.HeapLayout

/-! Separation of the elements of a value: which accesses are folded into loads and stores right, when
every path has a cell of its own, and where the lowered addresses are those of LLVM. -/
namespace OlaLang
namespace HeapLayout

open Codegen.SlotElimination (IrType)
open Codegen.PointerAddress (Kind Level regsOf)

/-! ### Folded accesses -/

/-- The access can be the last one: its index is itself as an `i32` in the units of loads and stores,
and no register, unless it is that of a vector. -/
def Last : Ty → Access → Prop
  | .array _ dims, .subscript i =>
    if dims.getLast? = some .dynamic then match i with
      | .const x => x < 2^31
      | .reg _ => True
    else match i with
      | .const x => x < 2^29
      | .reg _ => False
  | _, a => a.value < 2^29

section Addresses

variable {f : Codegen.Function} {base c : Felt} {length : ℕ} {ty ty' : Ty} {a : Access}

theorem gep_all {llvmTy : IrType} {kinds : List Kind} {x : ℕ} {rest : List ℕ}
    (hholds : List.Forall₂ (fun kind x => kind.Holds x) kinds (x::rest))
    (htype : Codegen.PointerAddress.InType llvmTy rest) :
    (∀ how, gep f how base llvmTy kinds (x::rest) = some c) ↔
      Codegen.PointerAddress.Folds .inst ⟨llvmTy,x + 1,kinds⟩ (x::rest) ∧
        c = base + (((x::rest).sum : ℕ) : Felt) := by
  have hrange : Codegen.PointerAddress.InRange ⟨llvmTy,x + 1,kinds⟩ (x::rest) :=
    ⟨hholds,x,rest,rfl,Nat.lt_succ_self x,htype⟩
  have hcells : (∀ how, gep f how base llvmTy kinds (x::rest) = some c) ↔ _ :=
    Codegen.PointerAddress.cells_iff (l := ⟨llvmTy,x + 1,kinds⟩) (o := .inst) hrange
  constructor
  · intro h
    exact (hcells.mp h).2
  · exact fun h how => hcells.mpr ⟨nofun,h⟩ how

theorem gep_pointer {llvmTy : IrType} {kinds : List Kind} {xs : List ℕ}
    (hholds : List.Forall₂ (fun kind x => kind.Holds x) kinds xs)
    (hsingle : Codegen.PointerAddress.Single kinds xs) :
    gep f .pointer base llvmTy kinds xs = some (base + ((xs.sum : ℕ) : Felt)) :=
  (Codegen.PointerAddress.gepValue_eq_some (l := ⟨llvmTy,1,kinds⟩) (o := .inst) hholds).mpr
    ⟨nofun,hsingle,rfl⟩

theorem holds_of_inRange {i : Index} {n : ℕ} (h : i.inRange n = true) : i.kind.Holds i.value := by
  cases i with
  | const x =>
    have hx := (by simpa [Index.inRange] using h : x < n ∧ x < 2^32).2
    show 4*x < 2^63
    omega
  | reg v => exact lt_order_of_inRange h

theorem holds_pair {kind : Kind} {x : ℕ} (h : kind.Holds x) :
    List.Forall₂ (fun kind x => kind.Holds x) [.int64,kind] [0,x] :=
  .cons (by decide : 4*0 < 2^63) (.cons h .nil)

theorem single_pair (kind : Kind) (x : ℕ) : Codegen.PointerAddress.Single [.int64,kind] [0,x] := by
  unfold Codegen.PointerAddress.Single
  have hle := List.length_filter_le (fun p : Kind × ℕ => decide (p.1 = .reg ∨ p.2 ≠ 0)) [(kind,x)]
  simpa using hle

theorem llvmVarTy_size (ty : Ty) : (llvmVarTy ty).getSizeOf = 4 := by
  cases ty <;> rfl

theorem llvmType_array (elem : Ty) (dims : List ArrayLength) (n : ℕ) :
    ∃ inner, llvmType (.array elem (dims ++ [.fixed n])) = .array inner n := by
  simp only [llvmType,List.foldl_append,List.foldl_cons,List.foldl_nil,IrType.array.injEq,and_true,
    exists_eq']

theorem llvmFieldTys_get (fields : List Ty) (i : ℕ) :
    (llvmFieldTys fields)[i]? = fields[i]?.map llvmFieldTy := by
  induction fields generalizing i with
  | nil => simp [llvmFieldTys]
  | cons ty rest ih =>
    cases i with
    | zero => simp [llvmFieldTys]
    | succ i => simpa [llvmFieldTys] using ih i

theorem lt_of_member {fields : List Ty} {i : ℕ} (hsized : Sized (.struct fields))
    (h : fields[i]? = some ty) : i < 2^32 := by
  rw [Sized] at hsized
  exact (List.getElem?_eq_some_iff.mp h).1.trans hsized.2.1

/-- The accesses there are: to a member, to an element of a vector, and to one of an array of fixed
size. -/
theorem stepValue_cases (hsized : Sized ty) (h : stepValue length ty a = some ty') :
    (∃ fields i, ty = .struct fields ∧ a = .member i ∧ fields[i]? = some ty') ∨
    (∃ elem dims i, ty = .array elem (dims ++ [.dynamic]) ∧ a = .subscript i ∧
      i.inRange length = true ∧ ty' = inner elem dims) ∨
    ∃ elem dims n i, ty = .array elem (dims ++ [.fixed n]) ∧ a = .subscript i ∧
      i.inRange n = true ∧ ty' = inner elem dims := by
  cases ty with
  | struct fields =>
    obtain ⟨i,rfl,hi⟩ := (step_struct fields a ty').mp (by cases a <;> simpa [stepValue] using h)
    exact .inl ⟨fields,i,rfl,rfl,hi⟩
  | array elem dims =>
    rw [Sized] at hsized
    obtain ⟨init,d,rfl⟩ : ∃ init d, dims = init ++ [d] :=
      ⟨dims.dropLast,dims.getLast hsized.2.1,(List.dropLast_concat_getLast hsized.2.1).symm⟩
    cases d with
    | dynamic =>
      obtain ⟨i,rfl,hi,rfl⟩ := stepValue_dynamic.mp h
      exact .inr (.inl ⟨elem,init,i,rfl,rfl,hi,rfl⟩)
    | fixed n =>
      have hstep : step (.array elem (init ++ [.fixed n])) a = some ty' := by
        cases a with
        | member i => simpa [stepValue] using h
        | subscript i => simpa [stepValue] using h
      obtain ⟨i,rfl,hi,rfl⟩ := (step_array elem init n a ty').mp hstep
      exact .inr (.inr ⟨elem,init,n,i,rfl,rfl,hi,elemTy_concat elem init _⟩)
  | _ => cases a <;> simp [stepValue,step] at h

/-- The pointer to an element that is accessed further. -/
theorem address_pointer (hsized : Sized ty) (h : stepValue length ty a = some ty') :
    address f .pointer base ty a = some (base + ((header ty + a.value : ℕ) : Felt)) := by
  rcases stepValue_cases hsized h with ⟨fields,i,rfl,rfl,hi⟩ | ⟨elem,dims,i,rfl,rfl,hi,rfl⟩ |
    ⟨elem,dims,n,i,rfl,rfl,hi,rfl⟩
  · have hlt := lt_of_member hsized hi
    have hholds : Kind.int64.Holds i := (by omega : 4*i < 2^63)
    simp only [address,gep_pointer (holds_pair hholds) (single_pair _ _),header,Access.value]
    simp
  · have hone : List.Forall₂ (fun kind x => kind.Holds x) [Kind.int64] [1] :=
      .cons (by decide : 4*1 < 2^63) .nil
    have hsingle : ∀ (kind : Kind) (x : ℕ), Codegen.PointerAddress.Single [kind] [x] :=
      fun kind x => (List.length_filter_le _ _).trans (by simp)
    simp only [address,List.getLast?_concat,if_true,gep_pointer hone (hsingle _ _),
      Option.bind_eq_bind,Option.bind_some,header,Access.value,
      gep_pointer (.cons (holds_of_inRange hi) .nil) (hsingle _ _)]
    simp [add_assoc]
  · simp only [address,List.getLast?_concat,Option.some.injEq,reduceCtorEq,if_false,header,Access.value,
      gep_pointer (holds_pair (holds_of_inRange hi)) (single_pair _ _)]
    simp

/-- The last access has one cell, however it is made, exactly when it folds. -/
theorem address_all (hsized : Sized ty) (h : stepValue length ty a = some ty') :
    (∀ how, address f how base ty a = some c) ↔
      Last ty a ∧ c = base + ((header ty + a.value : ℕ) : Felt) := by
  rcases stepValue_cases hsized h with ⟨fields,i,rfl,rfl,hi⟩ | ⟨elem,dims,i,rfl,rfl,hi,rfl⟩ |
    ⟨elem,dims,n,i,rfl,rfl,hi,rfl⟩
  · have hlt := lt_of_member hsized hi
    have hholds : Kind.int64.Holds i := (by omega : 4*i < 2^63)
    have htype : Codegen.PointerAddress.InType (llvmType (.struct fields)) [i] :=
      ⟨llvmFieldTy ty',by rw [llvmFieldTys_get,hi]; rfl,trivial⟩
    have hgep : (∀ how, gep f how base (llvmType (.struct fields)) [.int64,.int64] [0,i] = some c) ↔
        _ := gep_all (holds_pair hholds) htype
    simp only [address,Access.value,hgep,Codegen.PointerAddress.Folds,Last,header]
    simp
  · have hone : List.Forall₂ (fun kind x => kind.Holds x) [Kind.int64] [1] :=
      .cons (by decide : 4*1 < 2^63) .nil
    have hsingle : Codegen.PointerAddress.Single [Kind.int64] [1] :=
      (List.length_filter_le _ _).trans (by simp)
    have hgep : (∀ how, gep f how (base + 1) (llvmVarTy (elemTy elem (dims ++ [.dynamic]))) [i.kind]
        [i.value] = some c) ↔ _ := gep_all (.cons (holds_of_inRange hi) .nil) trivial
    have hdata : gep f .pointer base .i64 [.int64] [1] = some (base + 1) := by
      rw [gep_pointer hone hsingle]
      simp
    simp only [address,List.getLast?_concat,if_true,hdata,Option.bind_eq_bind,Option.bind_some,hgep,
      Last,header,Access.value]
    refine and_congr ?_ (by simp [add_assoc])
    cases i with
    | reg v => exact Iff.rfl
    | const x =>
      have hx := (by simpa [Index.inRange] using hi : x < length ∧ x < 2^32).2
      simp only [Index.kind,Index.value,Codegen.PointerAddress.Folds,llvmVarTy_size,
        Nat.mul_div_cancel x (by decide : 0 < 4)]
      constructor
      · intro heq
        have hhi := BitVec.toInt_lt (x := BitVec.ofInt 32 ((x : ℕ) : ℤ))
        omega
      · intro hx
        exact Codegen.SlotElimination.toInt_ofInt (by omega) (by omega) (by omega)
  · obtain ⟨inner,hinner⟩ := llvmType_array elem dims n
    have hlt := lt_of_inRange hi
    have hgep : (∀ how, gep f how base (.array inner n) [.int64,i.kind] [0,i.value] = some c) ↔ _ :=
      gep_all (holds_pair (holds_of_inRange hi)) ⟨hlt,trivial⟩
    simp only [address,List.getLast?_concat,Option.some.injEq,reduceCtorEq,if_false,hinner,hgep,Last,
      header,Access.value]
    refine and_congr ?_ (by simp)
    cases i with
    | reg v => exact Iff.rfl
    | const x => simp [Index.kind,Index.value,Codegen.PointerAddress.Folds]

/-- What is asked of a path behind an access: that its last access folds. -/
def Fine (ty : Ty) (a : Access) (ty' : Ty) : Prop :=
  if ty'.isFixedReferenceType then Folds ty' else Last ty a

theorem foldsFields_iff {fields : List Ty} {n : ℕ} : FoldsFields n fields ↔ ∀ i ty,
    fields[i]? = some ty → if ty.isFixedReferenceType then Folds ty else n + i < 2^29 := by
  induction fields generalizing n with
  | nil => simp [FoldsFields]
  | cons f rest ih =>
    rw [FoldsFields,ih]
    constructor
    · rintro ⟨hf,hrest⟩ i ty hi
      cases i with
      | zero =>
        cases hi
        exact hf
      | succ i =>
        have hty := hrest i ty hi
        rwa [Nat.add_right_comm,Nat.add_assoc] at hty
    · intro h
      refine ⟨h 0 f rfl,fun i ty hi => ?_⟩
      have hty := h (i + 1) ty hi
      rwa [Nat.add_right_comm,Nat.add_assoc]

theorem folds_inner {elem : Ty} {dims : List ArrayLength} (hdyn : .dynamic ∉ dims) {n : ℕ} :
    Folds (.array elem (dims ++ [.fixed n])) ↔
      (inner elem dims).isFixedReferenceType = true ∧ Folds (inner elem dims) := by
  have hno : ArrayLength.dynamic ∉ dims ++ [.fixed n] := by simpa using hdyn
  rw [Folds]
  by_cases hdims : dims = []
  · simp [inner,hdims]
  · have hfixed : (Ty.array elem dims).isFixedReferenceType = true := by
      simp only [Ty.isFixedReferenceType,List.all_eq_true,decide_eq_true_eq]
      exact fun d hd heq => hdyn (heq ▸ hd)
    rw [inner,if_neg hdims,Folds,hfixed]
    simp [hdyn,hno]

/-- Behind an access in range the accesses go on to fold. -/
theorem Folds.fine (hfolds : Folds ty) (hfixed : ty.isFixedReferenceType = true)
    (h : step ty a = some ty') : Fine ty a ty' := by
  cases ty with
  | struct fields =>
    obtain ⟨i,rfl,hi⟩ := (step_struct fields a ty').mp h
    rw [Folds,foldsFields_iff] at hfolds
    have hty := hfolds i ty' hi
    rw [Nat.zero_add] at hty
    exact hty
  | array elem dims =>
    rcases List.eq_nil_or_concat dims with rfl | ⟨init,d,rfl⟩
    · cases a <;> simp [step] at h
    · rw [List.concat_eq_append] at *
      cases d with
      | dynamic => cases a <;> simp [step] at h
      | fixed n =>
        obtain ⟨i,rfl,hi,rfl⟩ := (step_array elem init n a ty').mp h
        rw [elemTy_concat,← inner]
        obtain ⟨hinner,hfolds⟩ := (folds_inner ((isFixed_concat elem init n).mp hfixed)).mp hfolds
        rw [Fine,if_pos hinner]
        exact hfolds
  | _ => cases a <;> simp [step] at h

theorem sized_inner {elem : Ty} {dims : List ArrayLength} {d : ArrayLength}
    (h : Sized (.array elem (dims ++ [d]))) : Sized (inner elem dims) := by
  rw [Sized] at h
  by_cases hdims : dims = []
  · simpa [inner,hdims] using h.1
  · rw [inner,if_neg hdims,Sized]
    exact ⟨h.1,hdims,fun hmem => h.2.2 (List.mem_append_left _ hmem)⟩

theorem Sized.step (hsized : Sized ty) (h : stepValue length ty a = some ty') : Sized ty' := by
  rcases stepValue_cases hsized h with ⟨fields,i,rfl,rfl,hi⟩ | ⟨elem,dims,i,rfl,rfl,hi,rfl⟩ |
    ⟨elem,dims,n,i,rfl,rfl,hi,rfl⟩
  · rw [Sized] at hsized
    exact mem_sizedFields hsized.2.2 (List.mem_of_getElem? hi)
  · exact sized_inner hsized
  · exact sized_inner hsized

/-- Behind the first access there are structs and arrays of fixed size only. -/
theorem stepValue_fixed (hfixed : ty.isFixedReferenceType = true) :
    stepValue length ty a = step ty a ∧ header ty = 0 := by
  cases ty with
  | array elem dims =>
    have hlast : dims.getLast? ≠ some .dynamic := by
      intro hlast
      rw [isFixed_dynamic (List.mem_of_getLast? hlast)] at hfixed
      cases hfixed
    refine ⟨?_,by simp [header,hlast]⟩
    cases a with
    | member i => rfl
    | subscript i =>
      rw [stepValue]
      split
      · rename_i h
        exact absurd h hlast
      · rfl
  | struct fields => exact ⟨by cases a <;> rfl,rfl⟩
  | _ => exact ⟨by cases a <;> rfl,rfl⟩

/-- A path whose last access folds has one cell, the sum of its indices behind the base. -/
theorem cellFrom_eq (path : List Access) (hsized : Sized ty) (h : stepValue length ty a = some ty')
    (hfine : Fine ty a ty') (how : Codegen.PointerAddress.Access) :
    cellFrom f how base ty a ty' path =
      (walk (header ty + a.value) ty' path).map fun k => base + ((k : ℕ) : Felt) := by
  induction path generalizing base length ty a ty' with
  | nil =>
    rw [cellFrom,walk]
    rw [Fine] at hfine
    split
    · rfl
    · rename_i hloaded
      rw [if_neg hloaded] at hfine
      exact (address_all hsized h).mpr ⟨hfine,rfl⟩ how
  | cons a' path ih =>
    rw [cellFrom,walk]
    rw [Fine] at hfine
    split
    · rename_i hfixed
      rw [if_pos hfixed] at hfine
      obtain ⟨hvalue,hheader⟩ := @stepValue_fixed 0 _ a' hfixed
      cases hstep : step ty' a' with
      | none => rfl
      | some ty'' =>
        simp only [Option.bind_eq_bind,Option.bind_some,address_pointer hsized h]
        rw [ih (hsized.step h) (hvalue.trans hstep) (hfine.fine hfixed hstep),hheader,
          walk_shift (header ty + a.value + a'.value),walk_shift (0 + a'.value),Option.map_map,
          Option.map_map]
        congr 1
        funext k
        simp only [Function.comp]
        push_cast
        ring
    · rfl

/-- The first access of a foldable value goes on to fold. -/
theorem Foldable.fine (hfold : Foldable length ty) (hsized : Sized ty)
    (h : stepValue length ty a = some ty') : Fine ty a ty' := by
  rcases stepValue_cases hsized h with ⟨fields,i,rfl,rfl,hi⟩ | ⟨elem,dims,i,rfl,rfl,hi,rfl⟩ |
    ⟨elem,dims,n,i,rfl,rfl,hi,rfl⟩
  · rw [Foldable] at hfold
    have hfolds : Folds (.struct fields) := by rwa [Folds]
    exact hfolds.fine rfl (by simpa [step] using hi)
  · rw [Foldable,List.getLast?_concat,if_pos rfl,elemTy_concat,← inner] at hfold
    have hpos := lt_of_inRange hi
    rw [Fine]
    rcases hfold with rfl | hfold
    · exact absurd hpos (Nat.not_lt_zero _)
    · split at hfold
      · rename_i hfixed
        rwa [if_pos hfixed]
      · rename_i hloaded
        rw [if_neg hloaded]
        simp only [Last,List.getLast?_concat,if_true]
        cases i with
        | reg v => trivial
        | const x => exact Nat.lt_of_lt_of_le hpos hfold
  · rw [Foldable,List.getLast?_concat,if_neg (by simp),elemTy_concat,← inner] at hfold
    rw [Fine,if_pos hfold.1]
    exact hfold.2

theorem cell_eq (hfold : Foldable length ty) (hsized : Sized ty) (how : Codegen.PointerAddress.Access)
    (path : List Access) : cell f how length base ty path =
      (place length ty path).map fun k => base + ((k : ℕ) : Felt) := by
  cases path with
  | nil => rfl
  | cons a path =>
    rw [cell,place]
    cases h : stepValue length ty a with
    | none => rfl
    | some ty' => exact cellFrom_eq path hsized h (hfold.fine hsized h) how

end Addresses

/-! ### Accesses that do not fold -/

/-- A path behind the access has not one cell. -/
def Broken (ty : Ty) (a : Access) (ty' : Ty) : Prop :=
  ∃ path, (walk 0 ty' path).isSome ∧ ∀ (f : Codegen.Function) (base : Felt),
    ¬ ∃ c, ∀ how, cellFrom f how base ty a ty' path = some c

section Broken

variable {length : ℕ} {ty ty' : Ty} {a : Access}

theorem inRange_reg {n : ℕ} (hn : n ≠ 0) : (Index.reg 0).inRange n = true := by
  have horder : 0 < FIELD_ORDER := by decide
  simp [Index.inRange,Nat.pos_of_ne_zero hn]

/-- A computed index of an array of fixed size does not fold. -/
theorem not_fine_fixed {elem : Ty} {dims : List ArrayLength} {n : ℕ}
    (h : ¬ ((inner elem dims).isFixedReferenceType = true ∧ Folds (inner elem dims))) :
    ¬ Fine (.array elem (dims ++ [.fixed n])) (.subscript (.reg 0)) (inner elem dims) := by
  rw [Fine]
  split
  · rename_i hfixed
    exact fun hfolds => h ⟨hfixed,hfolds⟩
  · simp [Last]

theorem not_fine_struct {fields : List Ty} (h : ¬ FoldsFields 0 fields) :
    ∃ i ty', fields[i]? = some ty' ∧ ¬ Fine (.struct fields) (.member i) ty' := by
  rw [foldsFields_iff] at h
  push Not at h
  obtain ⟨i,ty',hi,hty⟩ := h
  rw [Nat.zero_add] at hty
  exact ⟨i,ty',hi,hty⟩

theorem exists_not_fine (hsized : Sized ty) (hfixed : ty.isFixedReferenceType = true)
    (h : ¬ Folds ty) : ∃ a ty', step ty a = some ty' ∧ ¬ Fine ty a ty' := by
  cases ty with
  | struct fields =>
    obtain ⟨i,ty',hi,hfine⟩ := not_fine_struct (by rwa [Folds] at h)
    exact ⟨.member i,ty',by simpa [step] using hi,hfine⟩
  | array elem dims =>
    rw [Sized] at hsized
    obtain ⟨init,d,rfl⟩ : ∃ init d, dims = init ++ [d] :=
      ⟨dims.dropLast,dims.getLast hsized.2.1,(List.dropLast_concat_getLast hsized.2.1).symm⟩
    cases d with
    | dynamic =>
      rw [isFixed_dynamic (by simp)] at hfixed
      cases hfixed
    | fixed n =>
      have hn : n ≠ 0 := by
        rintro rfl
        exact hsized.2.2 (by simp)
      rw [folds_inner ((isFixed_concat elem init n).mp hfixed)] at h
      exact ⟨_,_,(step_array elem init n _ _).mpr ⟨.reg 0,rfl,inRange_reg hn,rfl⟩,
        by rw [elemTy_concat,← inner]; exact not_fine_fixed h⟩
  | _ => simp [Folds] at h

theorem sizeOf_step (h : step ty a = some ty') : sizeOf ty' < sizeOf ty := by
  cases ty with
  | struct fields =>
    obtain ⟨i,rfl,hi⟩ := (step_struct fields a ty').mp h
    have hlt := List.sizeOf_lt_of_mem (List.mem_of_getElem? hi)
    simp only [Ty.struct.sizeOf_spec]
    omega
  | array elem dims =>
    rcases List.eq_nil_or_concat dims with rfl | ⟨init,d,rfl⟩
    · cases a <;> simp [step] at h
    · rw [List.concat_eq_append] at *
      have hgrow : ∀ l : List ArrayLength, sizeOf l < sizeOf (l ++ [d]) := by
        intro l
        induction l with
        | nil => simp
        | cons e l ih => simpa using ih
      have hinit := hgrow init
      cases d with
      | dynamic => cases a <;> simp [step] at h
      | fixed n =>
        obtain ⟨i,rfl,hi,rfl⟩ := (step_array elem init n a ty').mp h
        rw [elemTy_concat]
        split
        · simp only [Ty.array.sizeOf_spec]
          omega
        · simp only [Ty.array.sizeOf_spec]
          omega
  | _ => cases a <;> simp [step] at h

/-- An access that goes on to one that does not fold has a path without one cell. -/
theorem broken_of_not_fine (n : ℕ) (hn : sizeOf ty' ≤ n) (hsized : Sized ty)
    (h : stepValue length ty a = some ty') (hfine : ¬ Fine ty a ty') : Broken ty a ty' := by
  induction n generalizing length ty a ty' with
  | zero =>
    cases ty' <;> simp at hn
  | succ n ih =>
    rw [Fine] at hfine
    split at hfine
    · rename_i hfixed
      obtain ⟨a',ty'',hstep,hfine'⟩ := exists_not_fine (hsized.step h) hfixed hfine
      obtain ⟨hvalue,-⟩ := @stepValue_fixed 0 _ a' hfixed
      have hlt := sizeOf_step hstep
      obtain ⟨path,hpath,hcells⟩ := ih (by omega) (hsized.step h) (hvalue.trans hstep) hfine'
      refine ⟨a'::path,?_,fun f base => ?_⟩
      · rw [walk,if_pos hfixed,hstep]
        simp only [Option.bind_eq_bind,Option.bind_some]
        rw [walk_shift]
        simpa using hpath
      · rintro ⟨c,hc⟩
        refine hcells f (base + ((header ty + a.value : ℕ) : Felt)) ⟨c,fun how => ?_⟩
        have hhow := hc how
        rw [cellFrom,if_pos hfixed,hstep] at hhow
        simpa only [Option.bind_eq_bind,Option.bind_some,address_pointer hsized h] using hhow
    · rename_i hloaded
      refine ⟨[],?_,fun f base => ?_⟩
      · simp [walk,hloaded]
      · rintro ⟨c,hc⟩
        have hall : ∀ how, address f how base ty a = some c := by
          intro how
          have hhow := hc how
          rwa [cellFrom,if_neg hloaded] at hhow
        exact hfine ((address_all hsized h).mp hall).1

theorem exists_broken (hsized : Sized ty) (h : ¬ Foldable length ty) :
    ∃ a ty', stepValue length ty a = some ty' ∧ Broken ty a ty' := by
  suffices hfine : ∃ a ty', stepValue length ty a = some ty' ∧ ¬ Fine ty a ty' by
    obtain ⟨a,ty',hstep,hfine⟩ := hfine
    exact ⟨a,ty',hstep,broken_of_not_fine _ (le_refl _) hsized hstep hfine⟩
  cases ty with
  | struct fields =>
    obtain ⟨i,ty',hi,hfine⟩ := not_fine_struct (by rwa [Foldable] at h)
    exact ⟨.member i,ty',hi,hfine⟩
  | array elem dims =>
    rw [Sized] at hsized
    obtain ⟨init,d,rfl⟩ : ∃ init d, dims = init ++ [d] :=
      ⟨dims.dropLast,dims.getLast hsized.2.1,(List.dropLast_concat_getLast hsized.2.1).symm⟩
    rw [Foldable,List.getLast?_concat,elemTy_concat,← inner] at h
    cases d with
    | dynamic =>
      rw [if_pos rfl,not_or] at h
      obtain ⟨hlength,h⟩ := h
      split at h
      · rename_i hfixed
        exact ⟨.subscript (.const 0),_,stepValue_dynamic.mpr
          ⟨_,rfl,inRange_zero (Nat.pos_of_ne_zero hlength),rfl⟩,by rwa [Fine,if_pos hfixed]⟩
      · rename_i hloaded
        have hrange : (Index.const (2^31)).inRange length = true := by
          simp [Index.inRange]
          omega
        refine ⟨.subscript (.const (2^31)),_,stepValue_dynamic.mpr ⟨_,rfl,hrange,rfl⟩,?_⟩
        rw [Fine,if_neg hloaded]
        simp [Last]
    | fixed n =>
      have hn : n ≠ 0 := by
        rintro rfl
        exact hsized.2.2 (by simp)
      rw [if_neg (by simp)] at h
      have hstep : step (.array elem (init ++ [.fixed n])) (.subscript (.reg 0)) =
          some (inner elem init) :=
        (step_array elem init n _ _).mpr ⟨.reg 0,rfl,inRange_reg hn,(elemTy_concat elem init _).symm⟩
      refine ⟨.subscript (.reg 0),_,?_,not_fine_fixed h⟩
      simpa [stepValue] using hstep
  | _ => simp [Foldable] at h

end Broken

/-! ### Separation -/

section Separated

variable {f : Codegen.Function} {size length : ℕ} {ty : Ty}

/-- A value whose paths have one cell each can be folded. -/
theorem Separated.foldable (h : Separated f size length ty) (hsized : Sized ty) :
    Foldable length ty := by
  by_contra hfold
  obtain ⟨a,ty',hstep,path,hpath,hcells⟩ := exists_broken hsized hfold
  have hplace : (place length ty (a::path)).isSome := by
    simp only [place,hstep,Option.bind_eq_bind,Option.bind_some]
    rw [walk_shift]
    simpa using hpath
  obtain ⟨c,hc⟩ := h.one 0 (a::path) hplace
  refine hcells f 0 ⟨c,fun how => ?_⟩
  have hhow := hc (a::path) hplace rfl how
  rwa [cell,hstep] at hhow

theorem walk_sum {base k : ℕ} {p : List Access} (hp : walk base ty p = some k) :
    k = base + (values p).sum := by
  induction p generalizing base ty with
  | nil => simp [(walk_nil.mp hp).2,values]
  | cons a p ih =>
    obtain ⟨-,ty',-,hwalk⟩ := walk_cons.mp hp
    have hk := ih hwalk
    simp only [values,List.map_cons,List.sum_cons] at hk ⊢
    omega

theorem place_sum {p : List Access} {k : ℕ} (hp : place length ty p = some k) :
    k = header ty + (values p).sum := by
  cases p with
  | nil => cases hp
  | cons a p =>
    obtain ⟨ty',-,hwalk⟩ := Option.bind_eq_some_iff.mp hp
    have hk := walk_sum hwalk
    simp only [values,List.map_cons,List.sum_cons] at hk ⊢
    omega

theorem separated_iff (hfold : Foldable length ty) (hsized : Sized ty) :
    Separated f size length ty ↔ Apart size (fun p c => place length ty p = some c) := by
  have hcell : ∀ base how p c, cell f how length base ty p = some c ↔
      ∃ k, place length ty p = some k ∧ base + ((k : ℕ) : Felt) = c := by
    intro base how p c
    rw [cell_eq hfold hsized,Option.map_eq_some_iff]
  constructor
  · intro h
    refine ⟨fun p q c c' hp hq heq => ?_,fun p c hp => ?_⟩
    · exact h.distinct 0 .load .load p q _ ((hcell _ _ _ _).mpr ⟨c,hp,rfl⟩)
        ((hcell _ _ _ _).mpr ⟨c',hq,by rw [heq]⟩)
    · have hlt := h.inside 0 .load p _ ((hcell _ _ _ _).mpr ⟨c,hp,rfl⟩)
      rwa [zero_add,sub_zero] at hlt
  · intro h
    refine ⟨fun base p hp => ?_,fun base how how' p q c hp hq => ?_,fun base how p c hp => ?_⟩
    · obtain ⟨k,hk⟩ := Option.isSome_iff_exists.mp hp
      refine ⟨base + ((k : ℕ) : Felt),fun q hq heq how => (hcell _ _ _ _).mpr ?_⟩
      obtain ⟨l,hl⟩ := Option.isSome_iff_exists.mp hq
      have hkl : l = k := by rw [place_sum hl,place_sum hk,heq]
      exact ⟨l,hl,by rw [hkl]⟩
    · obtain ⟨k,hk,rfl⟩ := (hcell _ _ _ _).mp hp
      obtain ⟨l,hl,heq⟩ := (hcell _ _ _ _).mp hq
      exact h.distinct p q k l hk hl (add_left_cancel heq).symm
    · obtain ⟨k,hk,rfl⟩ := (hcell _ _ _ _).mp hp
      rw [add_sub_cancel_left]
      exact h.inside p k hk

/-- Which values have separated elements, by the code that allocates them. -/
theorem separated_iff_flat (f : Codegen.Function) (site : Site) (length : ℕ) (ty : Ty)
    (hsized : Sized ty) : Separated f (blockSize site length ty) length ty ↔
      Foldable length ty ∧ Flat site length ty := by
  constructor
  · intro h
    have hfold := h.foldable hsized
    exact ⟨hfold,(apart_iff_flat site length ty hsized).mp ((separated_iff hfold hsized).mp h)⟩
  · rintro ⟨hfold,hflat⟩
    exact (separated_iff hfold hsized).mpr ((apart_iff_flat site length ty hsized).mpr hflat)

end Separated

/-- A function without slots. -/
def plainFunction : Codegen.Function := ⟨"plain",[],[],[],false⟩

/-- A struct of a number, a vector and a pointer. -/
theorem struct_separated : Separated plainFunction
    (blockSize .literal 0 (.struct [.uint32,.array .uint32 [.dynamic],.address])) 0
    (.struct [.uint32,.array .uint32 [.dynamic],.address]) :=
  (separated_iff_flat plainFunction .literal 0 _ (by simp [Sized,SizedFields])).mpr
    ⟨by simp [Foldable,FoldsFields,Ty.isFixedReferenceType],by simp [Flat,single]⟩

/-- In `u32[2][3] a` the elements `a[0][1]` and `a[1][0]` are one cell, and in `u32[3] a` there is no
code for `a[i] = v`. -/
theorem nested_shared :
    ¬ Separated plainFunction (blockSize .default 0 (.array .uint32 [.fixed 2,.fixed 3])) 0
      (.array .uint32 [.fixed 2,.fixed 3]) ∧
    ¬ Separated plainFunction (blockSize .default 0 (.array .uint32 [.fixed 3])) 0
      (.array .uint32 [.fixed 3]) := by
  constructor
  · intro h
    have hvalues := h.distinct 0 .load .load [.subscript (.const 0),.subscript (.const 1)]
      [.subscript (.const 1),.subscript (.const 0)] 1 (by decide) (by decide)
    simp [values,Access.value] at hvalues
  · intro h
    obtain ⟨c,hc⟩ := h.one 0 [.subscript (.reg 0)] (by decide)
    have hstore := hc [.subscript (.reg 0)] (by decide) rfl .store
    have hnone : cell plainFunction .store 0 0 (.array .uint32 [.fixed 3]) [.subscript (.reg 0)] =
        none := by decide
    exact Option.some_ne_none _ (hstore.symm.trans hnone)

/-! ### The addresses of LLVM -/

/-- The cells LLVM puts in front of an element, as the code of the generator is read elsewhere: strides
are the sizes of elements. -/
def llvmOffset : Ty → Access → ℕ
  | .struct fields, .member i => Ty.structOffset fields i
  | .array elem dims, .subscript i =>
    if dims.getLast? = some .dynamic then 1 + i.value else i.value * Ty.llvmStride elem dims.dropLast
  | _, a => a.value

/-- The elements in front of the one accessed are cells. -/
def OneCells : Ty → Access → Prop
  | .struct fields, .member i => ∀ ty ∈ fields.take i, ty.llvmFieldSize = 1
  | .array elem dims, .subscript i =>
    dims.getLast? = some .dynamic ∨ i.value = 0 ∨ Ty.llvmStride elem dims.dropLast = 1
  | _, _ => True

theorem llvmSizeFields_ones {fields : List Ty} (h : ∀ ty ∈ fields, ty.llvmFieldSize = 1) :
    Ty.llvmSizeFields fields = fields.length := by
  induction fields with
  | nil => rfl
  | cons ty rest ih =>
    have hrest := ih fun ty hty => h ty (List.mem_cons_of_mem _ hty)
    rw [Ty.llvmSizeFields,h ty List.mem_cons_self,hrest,List.length_cons,Nat.add_comm]

section Llvm

variable {f : Codegen.Function} {base : Felt} {length : ℕ} {ty ty' : Ty} {a : Access}

/-- The lowered pointer to an element is that of LLVM exactly where LLVM counts one cell for an
index. -/
theorem address_llvm_iff (hsized : Sized ty) (h : stepValue length ty a = some ty') :
    address f .pointer base ty a = some (base + ((llvmOffset ty a : ℕ) : Felt)) ↔
      ((llvmOffset ty a : ℕ) : Felt) = ((header ty + a.value : ℕ) : Felt) := by
  rw [address_pointer hsized h,Option.some.injEq,add_right_inj,eq_comm]

theorem llvmOffset_of_oneCells (hsized : Sized ty) (h : stepValue length ty a = some ty')
    (hcells : OneCells ty a) : llvmOffset ty a = header ty + a.value := by
  rcases stepValue_cases hsized h with ⟨fields,i,rfl,rfl,hi⟩ | ⟨elem,dims,i,rfl,rfl,hi,rfl⟩ |
    ⟨elem,dims,n,i,rfl,rfl,hi,rfl⟩
  · have hlt := (List.getElem?_eq_some_iff.mp hi).1
    have hsize := llvmSizeFields_ones hcells
    simp only [llvmOffset,Ty.structOffset,hsize,List.length_take,header,Access.value]
    omega
  · simp [llvmOffset,header,Access.value]
  · have hstride : i.value = 0 ∨ Ty.llvmStride elem dims = 1 := by simpa [OneCells] using hcells
    rcases hstride with hi | hstride
    · simp [llvmOffset,header,Access.value,hi]
    · simp [llvmOffset,header,Access.value,hstride]

/-- Where the elements in front are cells, the generator's reading and the lowered code agree. -/
theorem address_llvm (hsized : Sized ty) (h : stepValue length ty a = some ty')
    (hcells : OneCells ty a) :
    address f .pointer base ty a = some (base + ((llvmOffset ty a : ℕ) : Felt)) :=
  (address_llvm_iff hsized h).mpr (by rw [llvmOffset_of_oneCells hsized h hcells])

end Llvm

end HeapLayout
end OlaLang
