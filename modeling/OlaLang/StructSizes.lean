import OlaLang.Machine
import OlaLang.Rounds
import OlaLang.StructRecursion

/-! The sizes of struct members in memory and in storage, and when their computation ends. -/
namespace OlaLang
namespace StructSizes

open Relation Walks StructTypes StructRecursion
open Exec (except_bind_eq_ok except_mapM_eq_ok exists_of_mapM_mem exists_mapM exists_foldlM
  exists_step_of_foldlM)

variable (ns : Namespace) (marks : Marks)

/-! ### Sizes of types -/

def elementarySize : Elementary → Except Fault ℕ
  | .bool | .field => pure 1
  | .address | .hash => pure 4
  | .uint n => if n = 32 then pure 1 else .error .panic
  | .unresolved => pure 0

/-- `memory_size_of`. A mapping, and an integer of another width, has none. -/
def memorySizeOf : FieldTy → Except Fault ℕ
  | .enum | .bool | .field => pure 1
  | .contract | .address | .hash => pure 4
  | .uint n => if n = 32 then pure 1 else .error .panic
  | .array ty dims => do
    let size ← memorySizeOf ty
    pure (size * Ty.dimsSize dims)
  | .struct n => pure (ns.fields n).length
  | .string | .dynamicBytes | .ref _ | .slice _ | .storageRef _ => pure 1
  | .unresolved => pure 0
  | .userType ty => elementarySize ty
  | .mapping _ _ => .error .panic

/-- The offsets of the members of a struct, in memory and in storage, and behind them its sizes. -/
structure Layout where
  offsets : List ℕ
  storageOffsets : List ℕ
  deriving DecidableEq

/-- `storage_size`. A struct has the size that was computed last. -/
def storageSize (layouts : ℕ → Layout) : FieldTy → Except Fault ℕ
  | .array ty dims => do
    let size ← storageSize layouts ty
    pure (size * Ty.dimsSize dims)
  | .struct n => pure ((layouts n).offsets.getLast?.getD 0)
  | .string | .dynamicBytes => pure 1
  | .ref ty | .storageRef ty => storageSize layouts ty
  | .userType ty => elementarySize ty
  | ty => memorySizeOf ns ty

/-- `align_of`: the largest alignment of the members, of which there must be one. -/
def alignOf : ℕ → FieldTy → Except Fault ℕ
  | fuel+1, .struct n => do
    let alignments : List ℕ ← (ns.fields n).zipIdx.mapM fun (field,f) =>
      if (n,f) ∈ marks.recursive then pure 1 else alignOf fuel field.ty
    match alignments.max? with
    | some alignment => pure alignment
    | none => .error .panic
  | 0, .struct _ => .error .diverge
  | _, _ => pure 1

/-- `storage_slots`. -/
def storageSlots : ℕ → FieldTy → Except Fault ℕ
  | 0, _ => .error .diverge
  | fuel+1, .storageRef r | fuel+1, .ref r => storageSlots fuel r
  | fuel+1, .struct no => do
    let slots ← ((ns.fields no).zipIdx.filter fun (_,f) => (no,f) ∉ marks.infiniteSize).mapM
      fun (field,_) => storageSlots fuel field.ty
    pure slots.sum
  | fuel+1, .array ty dims => do
    let slots ← storageSlots fuel ty
    pure (slots * Ty.dimsSize dims)
  | _+1, _ => pure 1

/-! ### Offsets -/

/-- The next multiple of the alignment, which is never zero. -/
def aligned (offset alignment : ℕ) : ℕ :=
  if offset % alignment > 0 then offset + (alignment - offset % alignment) else offset

/-- The offsets so far, the next one and the largest alignment. -/
structure Progress where
  offsets : List ℕ
  offset : ℕ
  largestAlignment : ℕ

/-- The offset of the next member. -/
def Progress.next (p : Progress) (alignment : ℕ) : Progress where
  offsets := p.offsets ++ [aligned p.offset alignment]
  offset := aligned p.offset alignment
  largestAlignment := max alignment p.largestAlignment

/-- The entry for the overall size. -/
def Progress.finish (p : Progress) : List ℕ :=
  p.offsets ++ [if p.largestAlignment > 1 then aligned p.offset p.largestAlignment else p.offset]

def memoryOffset (fuel n : ℕ) (layouts : ℕ → Layout) (p : Progress) (field : Parameter × ℕ) :
    Except Fault Progress := do
  let alignment ← alignOf ns marks fuel field.1.ty
  let p := p.next alignment
  if (n,field.2) ∈ marks.recursive then pure p
  else do
    let size ← storageSize ns layouts field.1.ty
    pure { p with offset := p.offset + size }

def memoryOffsets (fuel n : ℕ) (layouts : ℕ → Layout) : Except Fault (List ℕ) := do
  let p ← (ns.fields n).zipIdx.foldlM (memoryOffset ns marks fuel n layouts) ⟨[],0,0⟩
  pure p.finish

def storageOffset (fuel n : ℕ) (p : Progress) (field : Parameter × ℕ) : Except Fault Progress :=
  if (n,field.2) ∈ marks.infiniteSize then pure p
  else do
    let p := p.next 1
    let slots ← storageSlots ns marks fuel field.1.ty
    pure { p with offset := p.offset + slots }

def storageOffsets (fuel n : ℕ) : Except Fault (List ℕ) := do
  let p ← (ns.fields n).zipIdx.foldlM (storageOffset ns marks fuel n) ⟨[],0,0⟩
  pure p.finish

/-- The offsets of one struct are computed again, and compared with those it had. -/
def layStruct (fuel : ℕ) : (ℕ → Layout) × Bool → ℕ → Except Fault ((ℕ → Layout) × Bool)
  | (layouts,changes), n => do
    let offsets ← memoryOffsets ns marks fuel n layouts
    let changes := changes || (layouts n).offsets ≠ offsets
    let layouts := Function.update layouts n { layouts n with offsets := offsets }
    let storageOffsets ← storageOffsets ns marks fuel n
    let changes := changes || (layouts n).storageOffsets ≠ storageOffsets
    pure (Function.update layouts n { layouts n with storageOffsets := storageOffsets },changes)

/-- One pass over all structs, and whether it changed something. -/
def layStructs (fuel : ℕ) (layouts : ℕ → Layout) : Except Fault ((ℕ → Layout) × Bool) :=
  (List.range ns.structs.length).foldlM (layStruct ns marks fuel) (layouts,false)

/-- The loop of `struct_offsets`. -/
def passes (fuel : ℕ) : ℕ → (ℕ → Layout) → Except Fault (ℕ → Layout)
  | 0, _ => .error .diverge
  | count+1, layouts => do
    let (layouts,changes) ← layStructs ns marks fuel layouts
    if changes then passes fuel count layouts else pure layouts

/-- `struct_offsets`, with a bound on the depth of the calls and one on the passes. -/
def structOffsets (fuel count : ℕ) : Except Fault (ℕ → Layout) :=
  passes ns marks fuel count fun _ => ⟨[],[]⟩

/-! ### Sizes that end -/

/-- The offsets come to a fixed point, in which the storage offset of a member is the sum of the
slots of the members before it; the slots of every type are computed, and so are the sizes of those
that have one. -/
structure Ends : Prop where
  offsets : ∃ fuel count layouts, structOffsets ns marks fuel count = .ok layouts ∧
    layStructs ns marks fuel layouts = .ok (layouts,false) ∧
    (∀ ty, storageSize ns layouts ty ≠ .error .diverge) ∧
    ∀ n < ns.structs.length, ∀ f < (ns.fields n).length, ∃ slots,
      ((ns.fields n).take f).mapM (fun field => storageSlots ns marks fuel field.ty) = .ok slots ∧
      (layouts n).storageOffsets[f]? = some slots.sum
  slots : ∀ ty, (∀ n ∈ ty.userStructNo, n < ns.structs.length) →
    ∃ fuel slots, storageSlots ns marks fuel ty = .ok slots

/-- The structs whose sizes a type's sizes are computed from. -/
def storedStructs : FieldTy → List ℕ
  | .struct n => [n]
  | .array ty _ | .ref ty | .storageRef ty => storedStructs ty
  | _ => []

/-- A member of the first struct is made of the second. -/
def Stores (a b : ℕ) : Prop := ∃ f ty, ns.HasField a f ty ∧ b ∈ storedStructs ty

/-- The type refers to a struct from which one is reached that refers to itself. -/
def ReachesCycle (ty : FieldTy) : Prop :=
  ∃ b m, b ∈ ty.userStructNo ∧ ReflTransGen (Refers ns) b m ∧ TransGen (Refers ns) m m

def elementarySized : Elementary → Bool
  | .uint n => n = 32
  | _ => true

/-- The types that have a size. -/
def isSized : FieldTy → Bool
  | .uint n => n = 32
  | .array ty _ | .ref ty | .storageRef ty => isSized ty
  | .userType ty => elementarySized ty
  | .mapping _ _ => false
  | _ => true

/-- No struct is made of itself, also not through dynamic arrays; a member that has no size refers
to a struct from which one is reached that refers to itself; and no member is a struct without
members. -/
structure Measurable : Prop where
  acyclic : ∀ n, ¬ TransGen (Stores ns) n n
  sized : ∀ n f ty, ns.HasField n f ty → isSized ty = true ∨ ReachesCycle ns ty
  nonempty : ∀ n f m, ns.HasField n f (.struct m) → ns.fields m ≠ []


/-! ### More depth changes nothing -/

variable {ns marks}

theorem exists_uniform {α : Type} {p : ℕ → α → Prop} (hmono : ∀ x k k', k ≤ k' → p k x → p k' x)
    {l : List α} (h : ∀ x ∈ l, ∃ k, p k x) : ∃ k, ∀ x ∈ l, p k x := by
  induction l with
  | nil => exact ⟨0,by simp⟩
  | cons x l ih =>
    rw [List.forall_mem_cons] at h
    obtain ⟨k,hk⟩ := h.1
    obtain ⟨k',hk'⟩ := ih h.2
    refine ⟨max k k',List.forall_mem_cons.mpr ⟨hmono x k _ (le_max_left _ _) hk,fun y hy => ?_⟩⟩
    exact hmono y k' _ (le_max_right _ _) (hk' y hy)

theorem storageSlots_mono {fuel fuel' slots : ℕ} {ty : FieldTy} (hle : fuel ≤ fuel')
    (h : storageSlots ns marks fuel ty = .ok slots) : storageSlots ns marks fuel' ty = .ok slots := by
  induction fuel generalizing fuel' ty slots with
  | zero => cases h
  | succ fuel ih =>
    obtain ⟨fuel',rfl⟩ := Nat.exists_eq_add_of_le' (show 1 ≤ fuel' by omega)
    have hle : fuel ≤ fuel' := by omega
    cases ty with
    | ref r =>
      rw [storageSlots] at h ⊢
      exact ih hle h
    | storageRef r =>
      rw [storageSlots] at h ⊢
      exact ih hle h
    | array ty dims =>
      obtain ⟨size,hsize,h⟩ := except_bind_eq_ok.mp h
      exact except_bind_eq_ok.mpr ⟨size,ih hle hsize,h⟩
    | struct n =>
      obtain ⟨sizes,hsizes,h⟩ := except_bind_eq_ok.mp h
      refine except_bind_eq_ok.mpr ⟨sizes,?_,h⟩
      rw [except_mapM_eq_ok] at hsizes ⊢
      exact hsizes.imp fun _ _ h => ih hle h
    | _ => exact h

theorem alignOf_mono {fuel fuel' alignment : ℕ} {ty : FieldTy} (hle : fuel ≤ fuel')
    (h : alignOf ns marks fuel ty = .ok alignment) : alignOf ns marks fuel' ty = .ok alignment := by
  induction fuel generalizing fuel' ty alignment with
  | zero =>
    cases ty with
    | struct n => cases h
    | _ => cases fuel' <;> exact h
  | succ fuel ih =>
    obtain ⟨fuel',rfl⟩ := Nat.exists_eq_add_of_le' (show 1 ≤ fuel' by omega)
    have hle : fuel ≤ fuel' := by omega
    cases ty with
    | struct n =>
      obtain ⟨alignments,hall,h⟩ := except_bind_eq_ok.mp h
      refine except_bind_eq_ok.mpr ⟨alignments,?_,h⟩
      rw [except_mapM_eq_ok] at hall ⊢
      refine hall.imp fun (field,f) _ h => ?_
      by_cases hf : (n,f) ∈ marks.recursive
      · simpa only [hf,if_true] using h
      · simp only [hf,if_false] at h ⊢
        exact ih hle h
    | _ => exact h

/-! ### Structs that are not made of themselves -/

theorem hasField_of_mem {n f : ℕ} {field : Parameter} (h : (field,f) ∈ (ns.fields n).zipIdx) :
    ns.HasField n f field.ty := ⟨field,List.mem_zipIdx_iff_getElem?.mp h,rfl⟩

theorem slots_of_stored {ty : FieldTy}
    (h : ∀ b ∈ storedStructs ty, ∃ fuel slots, storageSlots ns marks fuel (.struct b) = .ok slots) :
    ∃ fuel slots, storageSlots ns marks fuel ty = .ok slots := by
  induction ty with
  | struct n => exact h n (by simp [storedStructs])
  | array ty dims ih =>
    obtain ⟨fuel,slots,hslots⟩ := ih h
    exact ⟨fuel+1,_,except_bind_eq_ok.mpr ⟨slots,hslots,rfl⟩⟩
  | ref ty ih =>
    obtain ⟨fuel,slots,hslots⟩ := ih h
    exact ⟨fuel+1,slots,hslots⟩
  | storageRef ty ih =>
    obtain ⟨fuel,slots,hslots⟩ := ih h
    exact ⟨fuel+1,slots,hslots⟩
  | _ => exact ⟨1,1,rfl⟩

theorem Stores.lt {a b : ℕ} (h : Stores ns a b) : a < ns.structs.length := by
  obtain ⟨f,ty,hf,-⟩ := h
  exact hf.lt

theorem slots_struct {n : ℕ} (h : ∀ f ty, ns.HasField n f ty →
    ∃ fuel slots, storageSlots ns marks fuel ty = .ok slots) :
    ∃ fuel slots, storageSlots ns marks fuel (.struct n) = .ok slots := by
  have hfields : ∀ p ∈ (ns.fields n).zipIdx.filter fun p => (n,p.2) ∉ marks.infiniteSize,
      ∃ fuel, ∃ slots, storageSlots ns marks fuel p.1.ty = .ok slots :=
    fun p hp => h _ _ (hasField_of_mem (List.mem_of_mem_filter hp))
  obtain ⟨fuel,hfuel⟩ := exists_uniform
    (fun p k k' hk ⟨slots,h⟩ => ⟨slots,storageSlots_mono hk h⟩) hfields
  obtain ⟨sizes,hsizes⟩ := exists_mapM hfuel
  exact ⟨fuel+1,sizes.sum,except_bind_eq_ok.mpr ⟨sizes,hsizes,rfl⟩⟩

/-- The slots of every type are computed, when no struct is made of itself. -/
theorem slots_end (h : ∀ n, ¬ TransGen (Stores ns) n n) (ty : FieldTy) :
    ∃ fuel slots, storageSlots ns marks fuel ty = .ok slots := by
  have hstruct : ∀ n, ∃ fuel slots, storageSlots ns marks fuel (.struct n) = .ok slots := by
    intro n
    induction n using acyclic_induction (Set.finite_lt_nat ns.structs.length)
      (fun a b => Stores.lt) h with
    | h n ih =>
      refine slots_struct fun f ty hf => slots_of_stored fun b hb => ?_
      exact ih b ⟨f,ty,hf,hb⟩
  exact slots_of_stored fun n _ => hstruct n

/-- Every alignment is one, when no struct is made of itself and none that is a member is empty. -/
theorem align_end (h : ∀ n, ¬ TransGen (Stores ns) n n)
    (hne : ∀ n f m, ns.HasField n f (.struct m) → ns.fields m ≠ []) {n f : ℕ} {ty : FieldTy}
    (hf : ns.HasField n f ty) : ∃ fuel, alignOf ns marks fuel ty = .ok 1 := by
  have htypes : ∀ {ty : FieldTy}, (∀ m, ty = .struct m → ns.fields m ≠ [] →
      ∃ fuel, alignOf ns marks fuel (.struct m) = .ok 1) → (∀ m, ty = .struct m → ns.fields m ≠ []) →
      ∃ fuel, alignOf ns marks fuel ty = .ok 1 := by
    intro ty hstruct hmem
    cases ty with
    | struct m => exact hstruct m rfl (hmem m rfl)
    | _ => exact ⟨0,rfl⟩
  have hstruct : ∀ m, ns.fields m ≠ [] → ∃ fuel, alignOf ns marks fuel (.struct m) = .ok 1 := by
    intro m
    induction m using acyclic_induction (Set.finite_lt_nat ns.structs.length)
      (fun a b => Stores.lt) h with
    | h m ih =>
      intro hm
      have hfields : ∀ p ∈ (ns.fields m).zipIdx, ∃ fuel, alignOf ns marks fuel p.1.ty = .ok 1 := by
        intro p hp
        have hp := hasField_of_mem hp
        refine htypes (fun b hb => ih b ⟨p.2,_,hp,by simp [hb,storedStructs]⟩) fun b hb => ?_
        exact hne m p.2 b (hb ▸ hp)
      obtain ⟨fuel,hfuel⟩ := exists_uniform
        (p := fun k (x : Parameter × ℕ) => alignOf ns marks k x.1.ty = .ok 1)
        (fun _ _ _ hk h => alignOf_mono hk h) hfields
      refine ⟨fuel+1,except_bind_eq_ok.mpr ⟨List.replicate (ns.fields m).length 1,?_,?_⟩⟩
      · rw [except_mapM_eq_ok,List.forall₂_iff_get]
        refine ⟨by simp,fun i hi hi' => ?_⟩
        have hget := hfuel _ (List.get_mem _ ⟨i,hi⟩)
        simp only [List.get_eq_getElem,List.getElem_replicate] at hget ⊢
        split
        · rfl
        · exact hget
      · rw [List.max?_replicate_of_pos (List.length_pos_iff.mpr hm)]
        rfl
  exact htypes (fun m _ => hstruct m) fun m hm => hne n f m (hm ▸ hf)

/-! ### One struct -/

theorem elementarySize_ok {ty : Elementary} :
    (∃ size, elementarySize ty = .ok size) ↔ elementarySized ty = true := by
  cases ty with
  | uint n =>
    simp only [elementarySize,elementarySized]
    split <;> simp_all [Pure.pure,Except.pure]
  | _ => simp [elementarySize,elementarySized,Pure.pure,Except.pure]

/-- The size of a type is computed, whatever the sizes of the structs are, if it has one. -/
theorem storageSize_ok {layouts : ℕ → Layout} {ty : FieldTy} :
    (∃ size, storageSize ns layouts ty = .ok size) ↔ isSized ty = true := by
  induction ty with
  | array ty dims ih =>
    rw [isSized,← ih,storageSize]
    constructor
    · rintro ⟨size,h⟩
      obtain ⟨size,hsize,-⟩ := except_bind_eq_ok.mp h
      exact ⟨size,hsize⟩
    · rintro ⟨size,hsize⟩
      exact ⟨_,except_bind_eq_ok.mpr ⟨size,hsize,rfl⟩⟩
  | ref ty ih => exact ih
  | storageRef ty ih => exact ih
  | userType ty => exact elementarySize_ok
  | uint n =>
    simp only [storageSize,memorySizeOf,isSized]
    split <;> simp_all [Pure.pure,Except.pure]
  | _ => simp [storageSize,memorySizeOf,isSized,Pure.pure,Except.pure]

theorem storageSize_ne_diverge {layouts : ℕ → Layout} (ty : FieldTy) :
    storageSize ns layouts ty ≠ .error .diverge := by
  induction ty with
  | array ty dims ih =>
    rw [storageSize]
    intro h
    cases hsize : storageSize ns layouts ty with
    | ok size => simp [hsize,Bind.bind,Except.bind,Pure.pure,Except.pure] at h
    | error e =>
      simp only [hsize,Bind.bind,Except.bind,Except.error.injEq] at h
      exact ih (by rw [hsize,h])
  | ref ty ih => exact ih
  | storageRef ty ih => exact ih
  | userType ty =>
    cases ty with
    | uint n =>
      simp only [storageSize,elementarySize]
      split <;> simp [Pure.pure,Except.pure]
    | _ => simp [storageSize,elementarySize,Pure.pure,Except.pure]
  | uint n =>
    simp only [storageSize,memorySizeOf]
    split <;> simp [Pure.pure,Except.pure]
  | _ => simp [storageSize,memorySizeOf,Pure.pure,Except.pure]

theorem storageSize_congr {layouts layouts' : ℕ → Layout} {ty : FieldTy}
    (h : ∀ b ∈ storedStructs ty, layouts b = layouts' b) :
    storageSize ns layouts ty = storageSize ns layouts' ty := by
  induction ty with
  | struct n => rw [storageSize,storageSize,h n (by simp [storedStructs])]
  | array ty dims ih => rw [storageSize,storageSize,ih h]
  | ref ty ih => exact ih h
  | storageRef ty ih => exact ih h
  | _ => rfl

theorem foldlM_congr {α δ : Type} {step step' : δ → α → Except Fault δ} {l : List α}
    (h : ∀ x ∈ l, ∀ d, step d x = step' d x) (d : δ) : l.foldlM step d = l.foldlM step' d := by
  induction l generalizing d with
  | nil => rfl
  | cons x l ih =>
    rw [List.forall_mem_cons] at h
    simp only [List.foldlM_cons,h.1,ih h.2]

/-- The offsets in memory depend on the structs a struct is made of. -/
theorem memoryOffsets_congr {fuel n : ℕ} {layouts layouts' : ℕ → Layout}
    (h : ∀ b, Stores ns n b → layouts b = layouts' b) :
    memoryOffsets ns marks fuel n layouts = memoryOffsets ns marks fuel n layouts' := by
  have hfields : ∀ x ∈ (ns.fields n).zipIdx, ∀ p, memoryOffset ns marks fuel n layouts p x =
      memoryOffset ns marks fuel n layouts' p x := by
    intro x hx p
    have hsize : storageSize ns layouts x.1.ty = storageSize ns layouts' x.1.ty :=
      storageSize_congr fun b hb => h b ⟨x.2,_,hasField_of_mem hx,hb⟩
    simp only [memoryOffset,hsize]
  rw [memoryOffsets,memoryOffsets,foldlM_congr hfields]

/-- The layout of a struct, computed from those of the others. -/
def layoutOf (ns : Namespace) (marks : Marks) (fuel n : ℕ) (layouts : ℕ → Layout) :
    Except Fault Layout := do
  let offsets ← memoryOffsets ns marks fuel n layouts
  let storageOffsets ← storageOffsets ns marks fuel n
  pure ⟨offsets,storageOffsets⟩

theorem layStruct_eq_ok {fuel n : ℕ} {layouts : ℕ → Layout} {changes : Bool}
    {r : (ℕ → Layout) × Bool} : layStruct ns marks fuel (layouts,changes) n = .ok r ↔
      ∃ layout, layoutOf ns marks fuel n layouts = .ok layout ∧
        r = (Function.update layouts n layout,changes || layouts n ≠ layout) := by
  have hupdate : ∀ offsets storageOffsets : List ℕ,
      Function.update (Function.update layouts n { layouts n with offsets := offsets }) n
        { Function.update layouts n { layouts n with offsets := offsets } n with
          storageOffsets := storageOffsets } =
      Function.update layouts n ⟨offsets,storageOffsets⟩ := by
    intro offsets storageOffsets
    simp
  have hchanges : ∀ offsets storageOffsets : List ℕ,
      (changes || decide ((layouts n).offsets ≠ offsets) ||
        decide ((Function.update layouts n { layouts n with offsets := offsets } n).storageOffsets ≠
          storageOffsets)) = (changes || decide (layouts n ≠ ⟨offsets,storageOffsets⟩)) := by
    intro offsets storageOffsets
    rw [Bool.or_assoc,Function.update_self]
    congr 1
    cases hlayout : layouts n
    simp
  simp only [layStruct,layoutOf,except_bind_eq_ok,Pure.pure,Except.pure,Except.ok.injEq,hupdate,
    hchanges]
  constructor
  · rintro ⟨offsets,hoffsets,storageOffsets,hstorage,rfl⟩
    exact ⟨_,⟨offsets,hoffsets,storageOffsets,hstorage,rfl⟩,rfl⟩
  · rintro ⟨layout,⟨offsets,hoffsets,storageOffsets,hstorage,rfl⟩,rfl⟩
    exact ⟨offsets,hoffsets,storageOffsets,hstorage,rfl⟩

/-! ### The passes -/

/-- The layouts are computed, whatever they were. -/
def Computes (ns : Namespace) (marks : Marks) (fuel : ℕ) : Prop := ∀ n < ns.structs.length,
  ∀ layouts, ∃ layout, layoutOf ns marks fuel n layouts = .ok layout

/-- The layout of a struct as a value of the others. -/
def nextLayout (ns : Namespace) (marks : Marks) (fuel n : ℕ) (layouts : ℕ → Layout) : Layout :=
  match layoutOf ns marks fuel n layouts with
  | .ok layout => layout
  | .error _ => ⟨[],[]⟩

theorem nextLayout_congr {fuel n : ℕ} {layouts layouts' : ℕ → Layout}
    (h : ∀ b, Stores ns n b → layouts b = layouts' b) :
    nextLayout ns marks fuel n layouts = nextLayout ns marks fuel n layouts' := by
  rw [nextLayout,nextLayout,layoutOf,layoutOf,memoryOffsets_congr h]

theorem Computes.layoutOf_eq {fuel : ℕ} (h : Computes ns marks fuel) {n : ℕ}
    (hn : n < ns.structs.length) (layouts : ℕ → Layout) :
    layoutOf ns marks fuel n layouts = .ok (nextLayout ns marks fuel n layouts) := by
  obtain ⟨layout,hlayout⟩ := h n hn layouts
  rw [nextLayout,hlayout]

open Rounds (oneRound oneRound_succ oneRound_of_le oneRound_of_lt recompute exists_fixed)

/-- A pass is a round, and reports no change when there was none. -/
theorem Computes.layStructs {fuel : ℕ} (h : Computes ns marks fuel) (layouts : ℕ → Layout) :
    ∃ changes, layStructs ns marks fuel layouts =
        .ok (oneRound (nextLayout ns marks fuel) ns.structs.length layouts,changes) ∧
      (changes = false ↔ oneRound (nextLayout ns marks fuel) ns.structs.length layouts = layouts) := by
  have hpart : ∀ i ≤ ns.structs.length, ∃ changes,
      (List.range i).foldlM (layStruct ns marks fuel) (layouts,false) =
        .ok (oneRound (nextLayout ns marks fuel) i layouts,changes) ∧
      (changes = false ↔ oneRound (nextLayout ns marks fuel) i layouts = layouts) := by
    intro i hi
    induction i with
    | zero => exact ⟨false,rfl,by simp [oneRound]⟩
    | succ i ih =>
      obtain ⟨changes,hrun,hchanges⟩ := ih (by omega)
      have hlayout := h.layoutOf_eq (show i < ns.structs.length by omega)
        (oneRound (nextLayout ns marks fuel) i layouts)
      have hstep : layStruct ns marks fuel (oneRound (nextLayout ns marks fuel) i layouts,changes) i =
          .ok (oneRound (nextLayout ns marks fuel) (i+1) layouts,changes ||
            oneRound (nextLayout ns marks fuel) i layouts i ≠
              nextLayout ns marks fuel i (oneRound (nextLayout ns marks fuel) i layouts)) :=
        layStruct_eq_ok.mpr ⟨_,hlayout,by rw [oneRound_succ,recompute]⟩
      generalize hnext : (changes || decide (oneRound (nextLayout ns marks fuel) i layouts i ≠
        nextLayout ns marks fuel i (oneRound (nextLayout ns marks fuel) i layouts))) = next at hstep
      refine ⟨next,?_,?_⟩
      · rw [List.range_succ,List.foldlM_append,hrun]
        exact except_bind_eq_ok.mpr ⟨_,rfl,except_bind_eq_ok.mpr ⟨_,hstep,rfl⟩⟩
      · rw [← hnext,Bool.or_eq_false_iff,hchanges,decide_eq_false_iff_not,not_not,oneRound_succ,
          recompute,oneRound_of_le _ (le_refl i)]
        constructor
        · rintro ⟨hround,hi⟩
          rw [← hi,hround,Function.update_eq_self]
        · intro hround
          have hat := congrFun hround i
          rw [Function.update_self] at hat
          refine ⟨?_,hat.symm⟩
          rw [hat] at hround
          funext b
          by_cases hb : b = i
          · rw [hb,oneRound_of_le _ (le_refl i)]
          · have := congrFun hround b
            rwa [Function.update_of_ne hb] at this
  exact hpart _ le_rfl

/-- The passes come to an end, when no struct is made of itself. -/
theorem Computes.passes {fuel : ℕ} (h : Computes ns marks fuel)
    (hacyclic : ∀ n, ¬ TransGen (Stores ns) n n) (hclosed : ∀ a b, Stores ns a b →
      b < ns.structs.length) (layouts : ℕ → Layout) :
    ∃ count final, passes ns marks fuel count layouts = .ok final ∧
      oneRound (nextLayout ns marks fuel) ns.structs.length final = final := by
  have hcount : ∀ count layouts,
      oneRound (nextLayout ns marks fuel) ns.structs.length
        ((oneRound (nextLayout ns marks fuel) ns.structs.length)^[count] layouts) =
        (oneRound (nextLayout ns marks fuel) ns.structs.length)^[count] layouts →
      ∃ final, StructSizes.passes ns marks fuel (count+1) layouts = .ok final ∧
        oneRound (nextLayout ns marks fuel) ns.structs.length final = final := by
    intro count
    induction count with
    | zero =>
      intro layouts hfixed
      obtain ⟨changes,hrun,hchanges⟩ := h.layStructs layouts
      obtain rfl := hchanges.mpr hfixed
      refine ⟨layouts,except_bind_eq_ok.mpr ⟨_,hrun,?_⟩,hfixed⟩
      exact congrArg _ hfixed
    | succ count ih =>
      intro layouts hfixed
      obtain ⟨changes,hrun,hchanges⟩ := h.layStructs layouts
      cases changes with
      | false =>
        have hsame := hchanges.mp rfl
        refine ⟨layouts,except_bind_eq_ok.mpr ⟨_,hrun,?_⟩,hsame⟩
        exact congrArg _ hsame
      | true =>
        rw [Function.iterate_succ_apply] at hfixed
        obtain ⟨final,hfinal,hround⟩ := ih _ hfixed
        exact ⟨final,except_bind_eq_ok.mpr ⟨_,hrun,hfinal⟩,hround⟩
  obtain ⟨count,hfixed⟩ := exists_fixed (F := nextLayout ns marks fuel)
    (fun a b hab => ⟨hab.lt,hclosed a b hab⟩) hacyclic (fun a s s' => nextLayout_congr) layouts
  obtain ⟨final,hrun,hround⟩ := hcount count layouts hfixed
  exact ⟨count+1,final,hrun,hround⟩

/-! ### The storage offsets -/

theorem aligned_one (offset : ℕ) : aligned offset 1 = offset := by simp [aligned,Nat.mod_one]

/-- The storage offsets are the sums of the slots so far. -/
theorem storageOffset_foldlM {fuel n : ℕ} (hmarks : marks.infiniteSize = []) {fields : List Parameter}
    {k : ℕ} {p p' : Progress}
    (h : (fields.zipIdx k).foldlM (storageOffset ns marks fuel n) p = .ok p') :
    ∃ slots, fields.mapM (fun field => storageSlots ns marks fuel field.ty) = .ok slots ∧
      p'.offsets = p.offsets ++
        (List.range fields.length).map fun f => p.offset + (slots.take f).sum := by
  induction fields generalizing k p with
  | nil =>
    cases h
    exact ⟨[],rfl,by simp⟩
  | cons field fields ih =>
    rw [List.zipIdx_cons,List.foldlM_cons,except_bind_eq_ok] at h
    obtain ⟨q,hq,h⟩ := h
    rw [storageOffset,hmarks,if_neg List.not_mem_nil,except_bind_eq_ok] at hq
    obtain ⟨size,hsize,hq⟩ := hq
    cases hq
    obtain ⟨slots,hslots,hoffsets⟩ := ih h
    refine ⟨size::slots,?_,?_⟩
    · rw [except_mapM_eq_ok] at hslots ⊢
      exact .cons hsize hslots
    · rw [hoffsets,List.length_cons,List.range_succ_eq_map]
      simp [Progress.next,aligned_one,Nat.add_assoc,Function.comp_def]

theorem storageOffsets_sum {fuel n : ℕ} (hmarks : marks.infiniteSize = []) {offsets : List ℕ}
    (h : storageOffsets ns marks fuel n = .ok offsets) {f : ℕ} (hf : f < (ns.fields n).length) :
    ∃ slots, ((ns.fields n).take f).mapM (fun field => storageSlots ns marks fuel field.ty) =
      .ok slots ∧ offsets[f]? = some slots.sum := by
  obtain ⟨p,hp,h⟩ := except_bind_eq_ok.mp h
  cases h
  obtain ⟨slots,hslots,hoffsets⟩ := storageOffset_foldlM hmarks hp
  refine ⟨slots.take f,?_,?_⟩
  · rw [except_mapM_eq_ok] at hslots ⊢
    exact List.forall₂_take f hslots
  · rw [Progress.finish,hoffsets,List.nil_append,List.getElem?_append_left (by simpa using hf)]
    simp [hf]

/-! ### When the sizes are computed -/

theorem Stores.closed {a b : ℕ} (h : Stores ns a b) : b < ns.structs.length := by
  obtain ⟨f,ty,hf,hb⟩ := h
  have hsub : ∀ ty : FieldTy, storedStructs ty ⊆ ty.userStructNo := by
    intro ty
    induction ty with
    | struct n => simp [storedStructs,FieldTy.userStructNo]
    | array ty dims ih => exact ih
    | ref ty ih => exact ih
    | storageRef ty ih => exact ih
    | _ => simp [storedStructs]
  exact hf.closed (hsub ty hb)

/-- One depth is enough for the members of all structs. -/
theorem exists_depth (marks : Marks) (h : Measurable ns) : ∃ fuel, ∀ n f ty,
    ns.HasField n f ty → alignOf ns marks fuel ty = .ok 1 ∧ ∃ slots, storageSlots ns marks fuel ty = .ok slots := by
  have hfields : ∀ n ∈ List.range ns.structs.length, ∃ fuel, ∀ x ∈ (ns.fields n).zipIdx,
      alignOf ns marks fuel x.1.ty = .ok 1 ∧
        ∃ slots, storageSlots ns marks fuel x.1.ty = .ok slots := by
    intro n _
    refine exists_uniform (p := fun k (x : Parameter × ℕ) => alignOf ns marks k x.1.ty = .ok 1 ∧
        ∃ slots, storageSlots ns marks k x.1.ty = .ok slots)
      (fun x k k' hk ⟨ha,slots,hs⟩ => ⟨alignOf_mono hk ha,slots,storageSlots_mono hk hs⟩) fun x hx => ?_
    obtain ⟨k,ha⟩ : ∃ k, alignOf ns marks k x.1.ty = .ok 1 :=
      align_end h.acyclic h.nonempty (hasField_of_mem hx)
    obtain ⟨k',slots,hs⟩ : ∃ k slots, storageSlots ns marks k x.1.ty = .ok slots :=
      slots_end h.acyclic x.1.ty
    exact ⟨max k k',alignOf_mono (le_max_left _ _) ha,slots,storageSlots_mono (le_max_right _ _) hs⟩
  obtain ⟨fuel,hfuel⟩ := exists_uniform (fun n k k' hk h x hx =>
    ⟨alignOf_mono hk (h x hx).1,(h x hx).2.imp fun _ hs => storageSlots_mono hk hs⟩) hfields
  refine ⟨fuel,fun n f ty hf => ?_⟩
  obtain ⟨field,hget,rfl⟩ := hf
  have hn : n < ns.structs.length := Namespace.HasField.lt ⟨field,hget,rfl⟩
  exact hfuel n (List.mem_range.mpr hn) (field,f) (List.mem_zipIdx_iff_getElem?.mpr hget)

/-- The recursive members are those that reach a cycle. -/
def MarksRecursive (ns : Namespace) (marks : Marks) : Prop := ∀ n f ty, ns.HasField n f ty →
  ((n,f) ∈ marks.recursive ↔ ReachesCycle ns ty)

theorem Measurable.computes (h : Measurable ns) (hrecursive : MarksRecursive ns marks) :
    ∃ fuel, Computes ns marks fuel := by
  obtain ⟨fuel,hfuel⟩ := exists_depth marks h
  refine ⟨fuel,fun n hn layouts => ?_⟩
  have hmemory : ∀ x ∈ (ns.fields n).zipIdx, ∀ p,
      ∃ p', memoryOffset ns marks fuel n layouts p x = .ok p' := by
    intro x hx p
    have hf := hasField_of_mem hx
    rw [memoryOffset,(hfuel n x.2 _ hf).1]
    by_cases hr : (n,x.2) ∈ marks.recursive
    · exact ⟨_,except_bind_eq_ok.mpr ⟨1,rfl,by rw [if_pos hr]; rfl⟩⟩
    · have hsized := (h.sized n x.2 _ hf).resolve_right fun hc => hr ((hrecursive n x.2 _ hf).mpr hc)
      obtain ⟨size,hsize⟩ : ∃ size, storageSize ns layouts x.1.ty = .ok size :=
        storageSize_ok.mpr hsized
      exact ⟨_,except_bind_eq_ok.mpr ⟨1,rfl,by
        rw [if_neg hr]; exact except_bind_eq_ok.mpr ⟨size,hsize,rfl⟩⟩⟩
  have hstorage : ∀ x ∈ (ns.fields n).zipIdx, ∀ p, ∃ p', storageOffset ns marks fuel n p x = .ok p' := by
    intro x hx p
    obtain ⟨slots,hslots⟩ := (hfuel n x.2 _ (hasField_of_mem hx)).2
    rw [storageOffset]
    split
    · exact ⟨p,rfl⟩
    · exact ⟨_,except_bind_eq_ok.mpr ⟨slots,hslots,rfl⟩⟩
  obtain ⟨p,hp⟩ := exists_foldlM hmemory ⟨[],0,0⟩
  obtain ⟨q,hq⟩ := exists_foldlM hstorage ⟨[],0,0⟩
  refine ⟨⟨p.finish,q.finish⟩,except_bind_eq_ok.mpr ⟨p.finish,?_,?_⟩⟩
  · exact except_bind_eq_ok.mpr ⟨p,hp,rfl⟩
  · exact except_bind_eq_ok.mpr ⟨q.finish,except_bind_eq_ok.mpr ⟨q,hq,rfl⟩,rfl⟩

theorem Measurable.ends (h : Measurable ns) (hrecursive : MarksRecursive ns marks)
    (hmarks : marks.infiniteSize = []) : Ends ns marks := by
  obtain ⟨fuel,hcomputes⟩ := h.computes hrecursive
  obtain ⟨count,final,hrun,hround⟩ := hcomputes.passes h.acyclic (fun a b => Stores.closed)
    fun _ => ⟨[],[]⟩
  obtain ⟨changes,hpass,hchanges⟩ := hcomputes.layStructs final
  obtain rfl := hchanges.mpr hround
  rw [hround] at hpass
  refine ⟨⟨fuel,count,final,hrun,hpass,storageSize_ne_diverge,fun n hn f hf => ?_⟩,
    fun ty _ => slots_end h.acyclic ty⟩
  have hlayout := hcomputes.layoutOf_eq hn (oneRound (nextLayout ns marks fuel) n final)
  rw [← oneRound_of_lt (nextLayout ns marks fuel) hn,hround] at hlayout
  obtain ⟨offsets,-,hlayout⟩ := except_bind_eq_ok.mp hlayout
  obtain ⟨storage,hstorage,hlayout⟩ := except_bind_eq_ok.mp hlayout
  rw [← Except.ok.inj hlayout]
  exact storageOffsets_sum hmarks hstorage hf

/-! ### What follows when they are -/

theorem slots_of_member {fuel slots b : ℕ} {ty : FieldTy} (hb : b ∈ storedStructs ty)
    (h : storageSlots ns marks fuel ty = .ok slots) :
    ∃ fuel' ≤ fuel, ∃ slots, storageSlots ns marks fuel' (.struct b) = .ok slots := by
  induction ty generalizing fuel slots with
  | struct n =>
    rw [storedStructs,List.mem_singleton] at hb
    exact ⟨fuel,le_rfl,slots,hb ▸ h⟩
  | array ty dims ih =>
    cases fuel with
    | zero => cases h
    | succ fuel =>
      obtain ⟨size,hsize,-⟩ := except_bind_eq_ok.mp h
      obtain ⟨fuel',hle,hslots⟩ := ih hb hsize
      exact ⟨fuel',by omega,hslots⟩
  | ref ty ih =>
    cases fuel with
    | zero => cases h
    | succ fuel =>
      obtain ⟨fuel',hle,hslots⟩ := ih hb h
      exact ⟨fuel',by omega,hslots⟩
  | storageRef ty ih =>
    cases fuel with
    | zero => cases h
    | succ fuel =>
      obtain ⟨fuel',hle,hslots⟩ := ih hb h
      exact ⟨fuel',by omega,hslots⟩
  | _ => simp [storedStructs] at hb

/-- The slots of a struct are computed from those of the structs it is made of. -/
theorem slots_of_stores (hmarks : marks.infiniteSize = []) {fuel slots a b : ℕ} (hab : Stores ns a b)
    (h : storageSlots ns marks fuel (.struct a) = .ok slots) :
    ∃ fuel' < fuel, ∃ slots, storageSlots ns marks fuel' (.struct b) = .ok slots := by
  obtain ⟨f,ty,⟨field,hget,rfl⟩,hb⟩ := hab
  cases fuel with
  | zero => cases h
  | succ fuel =>
    obtain ⟨sizes,hsizes,-⟩ := except_bind_eq_ok.mp h
    have hmem : (field,f) ∈ (ns.fields a).zipIdx.filter fun p => (a,p.2) ∉ marks.infiniteSize := by
      simp [hmarks,List.mem_zipIdx_iff_getElem?,hget]
    obtain ⟨size,-,hsize⟩ := (exists_of_mapM_mem hsizes).1 _ hmem
    obtain ⟨fuel',hle,hslots⟩ := slots_of_member hb hsize
    exact ⟨fuel',by omega,hslots⟩

/-- A struct that is made of itself would have its slots computed from themselves. -/
theorem acyclic_of_slots (hmarks : marks.infiniteSize = []) {n : ℕ} (hn : TransGen (Stores ns) n n)
    (fuel slots : ℕ) : storageSlots ns marks fuel (.struct n) ≠ .ok slots := by
  have hless : ∀ {a b}, TransGen (Stores ns) a b → ∀ {fuel slots},
      storageSlots ns marks fuel (.struct a) = .ok slots →
      ∃ fuel' < fuel, ∃ slots, storageSlots ns marks fuel' (.struct b) = .ok slots := by
    intro a b hab
    induction hab with
    | single hstep => exact fun h => slots_of_stores hmarks hstep h
    | tail _ hstep ih =>
      intro fuel slots h
      obtain ⟨fuel',hlt,slots',h'⟩ := ih h
      obtain ⟨fuel'',hlt',h''⟩ := slots_of_stores hmarks hstep h'
      exact ⟨fuel'',by omega,h''⟩
  induction fuel using Nat.strong_induction_on generalizing slots with
  | h fuel ih =>
    intro h
    obtain ⟨fuel',hlt,slots',h'⟩ := hless hn h
    exact ih fuel' hlt slots' h'

theorem nonempty_of_align {fuel alignment m : ℕ}
    (h : alignOf ns marks fuel (.struct m) = .ok alignment) : ns.fields m ≠ [] := by
  intro hm
  cases fuel with
  | zero => cases h
  | succ fuel =>
    rw [alignOf,hm] at h
    cases h

/-- A completed pass has computed the alignment and, unless it is recursive, the size of each
member. -/
theorem members_of_layStructs {fuel : ℕ} {layouts : ℕ → Layout} {r : (ℕ → Layout) × Bool}
    (h : layStructs ns marks fuel layouts = .ok r) {n f : ℕ} {ty : FieldTy}
    (hf : ns.HasField n f ty) : (∃ alignment, alignOf ns marks fuel ty = .ok alignment) ∧
      ((n,f) ∈ marks.recursive ∨ isSized ty = true) := by
  obtain ⟨⟨layouts',changes⟩,r',hstep⟩ := exists_step_of_foldlM h (List.mem_range.mpr hf.lt)
  obtain ⟨layout,hlayout,-⟩ := layStruct_eq_ok.mp hstep
  obtain ⟨offsets,hoffsets,-⟩ := except_bind_eq_ok.mp hlayout
  obtain ⟨p,hp,-⟩ := except_bind_eq_ok.mp hoffsets
  obtain ⟨field,hget,rfl⟩ := hf
  have hmem : (field,f) ∈ (ns.fields n).zipIdx := List.mem_zipIdx_iff_getElem?.mpr hget
  obtain ⟨q,q',hq⟩ := exists_step_of_foldlM hp hmem
  obtain ⟨alignment,halign,hq⟩ := except_bind_eq_ok.mp hq
  refine ⟨⟨alignment,halign⟩,?_⟩
  split at hq
  · exact .inl ‹_›
  · obtain ⟨size,hsize,-⟩ := except_bind_eq_ok.mp hq
    exact .inr (storageSize_ok.mp ⟨size,hsize⟩)

theorem Ends.measurable (h : Ends ns marks) (hrecursive : MarksRecursive ns marks)
    (hmarks : marks.infiniteSize = []) : Measurable ns := by
  obtain ⟨fuel,count,layouts,-,hpass,-,-⟩ := h.offsets
  refine ⟨fun n hn => ?_,fun n f ty hf => ?_,fun n f m hf => ?_⟩
  · obtain ⟨b,hb,-⟩ := TransGen.head'_iff.mp hn
    obtain ⟨fuel,slots,hslots⟩ := h.slots (.struct n) (by simpa [FieldTy.userStructNo] using hb.lt)
    exact acyclic_of_slots hmarks hn fuel slots hslots
  · rcases (members_of_layStructs hpass hf).2 with hr | hsized
    · exact .inr ((hrecursive n f ty hf).mp hr)
    · exact .inl hsized
  · obtain ⟨⟨alignment,halign⟩,-⟩ := members_of_layStructs hpass hf
    exact nonempty_of_align halign

/-! ### Structs the recursion check accepts -/

theorem infiniteSize_of_accepted {lib : Petgraph}
    (haccept : findStructRecursion lib ns = some (marks,[])) : marks.infiniteSize = [] := by
  obtain ⟨rfl,hdiagnostics⟩ : findMarks lib ns (graph ns) = marks ∧ diagnostics ns marks = [] := by
    have heq := (findStructRecursion_eq lib ns).symm.trans haccept
    simp only [Option.some.injEq,Prod.mk.injEq] at heq
    exact ⟨heq.1,heq.1 ▸ heq.2⟩
  refine List.eq_nil_iff_forall_not_mem.mpr fun p hp => ?_
  obtain ⟨d,hd,-⟩ := mem_diagnostics_findMarks.mpr (anyInfinite_iff.mpr ⟨p.2,hp⟩)
  rw [hdiagnostics] at hd
  cases hd

theorem marksRecursive_of_accepted {lib : Petgraph} (hlib : lib.Correct (graph ns))
    {ds : List Diagnostic} (haccept : findStructRecursion lib ns = some (marks,ds)) :
    MarksRecursive ns marks := by
  obtain rfl : findMarks lib ns (graph ns) = marks := by
    have heq := (findStructRecursion_eq lib ns).symm.trans haccept
    simp only [Option.some.injEq,Prod.mk.injEq] at heq
    exact heq.1
  intro n f ty hf
  rw [mem_recursive_iff hlib (complete_graph ns)]
  constructor
  · rintro ⟨ty',b,m,hf',hb,hto,hm⟩
    exact ⟨b,m,hf.unique hf' ▸ hb,hto,hm⟩
  · rintro ⟨b,m,hb,hto,hm⟩
    exact ⟨ty,b,m,hf,hb,hto,hm⟩

/-- The sizes of structs without an error are computed if and only if no struct is made of itself,
each member has a size or is recursive, and no member is an empty struct. -/
theorem sizes_end_iff (lib : Petgraph) (ns : Namespace) (marks : Marks)
    (hlib : lib.Correct (graph ns)) (haccept : findStructRecursion lib ns = some (marks,[])) :
    Ends ns marks ↔ Measurable ns := by
  have hmarks := infiniteSize_of_accepted haccept
  have hrecursive := marksRecursive_of_accepted hlib haccept
  constructor
  · intro h
    exact h.measurable hrecursive hmarks
  · intro h
    exact h.ends hrecursive hmarks

/-- `struct A { mapping(u32 => A) a; }`. -/
def mapsToItself : Namespace :=
  oneStruct (.mapping (.uint 32) (.struct 0)) only_zero

theorem sizes_end_iff_mapsToItself : Ends mapsToItself ⟨[],[(0,0)]⟩ := by
  have hfield : ∀ {n f ty}, mapsToItself.HasField n f ty → ty = .mapping (.uint 32) (.struct 0) := by
    intro n f ty hf
    obtain rfl : n = 0 := by simpa [mapsToItself,oneStruct] using hf.lt
    obtain rfl : f = 0 := by
      simpa [mapsToItself,oneStruct,Namespace.fields] using hf.field_lt
    exact hf.unique ⟨_,rfl,rfl⟩
  have hstores : ∀ a b, ¬ Stores mapsToItself a b := by
    rintro a b ⟨f,ty,hf,hb⟩
    rw [hfield hf] at hb
    cases hb
  refine (sizes_end_iff loopLibrary mapsToItself _ ?_ ?_).mpr ⟨fun n hn => ?_,fun n f ty hf => ?_,
    fun n f m hf => ?_⟩
  · have hgraph : graph mapsToItself = [(0,0,0)] := by decide
    rw [hgraph]
    exact loopLibrary_correct
  · rw [findStructRecursion_eq]
    rfl
  · obtain ⟨b,hb,-⟩ := TransGen.head'_iff.mp hn
    exact hstores n b hb
  · have hself : Refers mapsToItself 0 0 := ⟨0,_,⟨_,rfl,rfl⟩,by simp [FieldTy.userStructNo]⟩
    rw [hfield hf]
    exact .inr ⟨0,0,by simp [FieldTy.userStructNo],.refl,.single hself⟩
  · cases hfield hf

/-- `struct A { A[] a; }`. -/
def listsItself : Namespace :=
  oneStruct (.array (.struct 0) [.dynamic]) only_zero

/-- A struct with a dynamic array of itself is accepted, and the computation of its slots does not
end. -/
theorem listsItself_diverges : loopLibrary.Correct (graph listsItself) ∧
    findStructRecursion loopLibrary listsItself = some (⟨[],[(0,0)]⟩,[]) ∧
    ¬ Ends listsItself ⟨[],[(0,0)]⟩ := by
  have hgraph : graph listsItself = [(0,0,0)] := by decide
  have haccept : findStructRecursion loopLibrary listsItself = some (⟨[],[(0,0)]⟩,[]) := by
    rw [findStructRecursion_eq,hgraph]
    rfl
  refine ⟨hgraph ▸ loopLibrary_correct,haccept,fun h => ?_⟩
  obtain ⟨fuel,slots,hslots⟩ := h.slots (.struct 0)
    (by simp [FieldTy.userStructNo,listsItself,oneStruct])
  have hstores : Stores listsItself 0 0 := ⟨0,_,⟨_,rfl,rfl⟩,by simp [storedStructs]⟩
  exact acyclic_of_slots rfl (.single hstores) fuel slots hslots

end StructSizes
end OlaLang
