import OlaLang.DeleteWalk

/-! Loads of slots that hold nothing, and which deletes lead to them. -/
namespace OlaLang
namespace Storage

open KeyedStore State
open Exec (Returns returns_bind returns_pure returns_loop bind_ok)
open Builder Corelib

variable {α β δ : Type} {host : Host} {m t : State} {slot : Value} {k : Word} {R R' : Set Word}

/-! ### Runs that see the storage -/

/-- The run returns, changes nothing of the storage, and does the same from every storage that agrees
on `R`. -/
def Sees (R : Set Word) (c : Code α) (m : State) (Q : α → State → Prop) : Prop :=
  ∃ a t, Q a t ∧ t.storage = m.storage ∧ ∀ f, Set.EqOn f m.storage R →
    c (disk.put m f) = .ok (a,disk.put t f)

section Sees

variable {c : Code α} {g : α → Code β} {a : α} {P Q Q' : α → State → Prop} {Q2 : β → State → Prop}

theorem sees_of_acts (h : disk.Acts R c m P) (hr : Returns c m fun a t => Q a t ∧
    t.storage = m.storage) : Sees R c m Q := by
  classical
  obtain ⟨a,t,hrun,hq,hstorage⟩ := hr
  refine ⟨a,t,hq,hstorage,fun f hf => ?_⟩
  have hpiece : R.piecewise (disk.get t) f = f := by
    funext k
    by_cases hk : k ∈ R
    · rw [Set.piecewise_eq_of_mem _ _ _ hk,hf hk]
      exact congrFun hstorage k
    · exact Set.piecewise_eq_of_notMem _ _ _ hk
  rw [h.same f hf,hrun]
  show Except.ok (a,disk.put t (R.piecewise (disk.get t) f)) = _
  rw [hpiece]

theorem Sees.run (h : Sees R c m Q) : ∃ a t, c m = .ok (a,t) ∧ Q a t ∧
    t.storage = m.storage ∧ ∀ f, Set.EqOn f m.storage R → c (disk.put m f) = .ok (a,disk.put t f) := by
  obtain ⟨a,t,hq,hstorage,hrun⟩ := h
  have hsame := hrun m.storage fun _ _ => rfl
  rw [← hstorage] at hsame
  have hput : disk.put m t.storage = m := by
    rw [hstorage]
    exact disk.put_get m
  rw [hput] at hsame
  exact ⟨a,t,hsame,hq,hstorage,hrun⟩

theorem Sees.returns (h : Sees R c m Q) :
    Returns c m fun a t => Q a t ∧ t.storage = m.storage := by
  obtain ⟨a,t,hrun,hq,hstorage,-⟩ := h.run
  exact ⟨a,t,hrun,hq,hstorage⟩

theorem sees_pure (h : Q a m) : Sees R (Pure.pure a : Code α) m Q := ⟨a,m,h,rfl,fun _ _ => rfl⟩

theorem sees_bind (h : Sees R c m Q)
    (hg : ∀ a t, Q a t → t.storage = m.storage → Sees R (g a) t Q2) : Sees R (c >>= g) m Q2 := by
  obtain ⟨a,t,hq,hstorage,hrun⟩ := h
  obtain ⟨b,u,hq2,hstorage2,hrun2⟩ := hg a t hq hstorage
  refine ⟨b,u,hq2,hstorage2.trans hstorage,fun f hf => ?_⟩
  rw [bind_ok (hrun f hf),hrun2 f (by rw [hstorage]; exact hf)]

theorem Sees.mono (h : Sees R c m Q) (hq : ∀ a t, Q a t → Q' a t) : Sees R c m Q' := by
  obtain ⟨a,t,ht,hstorage,hrun⟩ := h
  exact ⟨a,t,hq a t ht,hstorage,hrun⟩

theorem Sees.subset (h : Sees R c m Q) (hR : R ⊆ R') : Sees R' c m Q := by
  obtain ⟨a,t,hq,hstorage,hrun⟩ := h
  exact ⟨a,t,hq,hstorage,fun f hf => hrun f (hf.mono hR)⟩

theorem sees_loop {body : ℕ → δ → Code δ} {I : ℕ → δ → State → Prop} {n i : ℕ} {d : δ} (h0 : I i d m)
    (hstep : ∀ j d t, j < i+n → t.storage = m.storage → I j d t → Sees R (body j d) t (I (j+1))) :
    Sees R (Exec.loop body n i d) m (I (i+n)) := by
  induction n generalizing i d m with
  | zero => exact sees_pure h0
  | succ n ih =>
    rw [Exec.loop_succ]
    refine sees_bind (hstep i d m (by omega) rfl h0) fun d' t ht hstorage => ?_
    have hrest := ih ht fun j d u hj hu => hstep j d u (by omega) (hu.trans hstorage)
    rwa [show i+1+n = i+(n+1) by omega] at hrest

end Sees

/-! ### The walk of a load -/

def loadRows (pointer : Bool) (elem : Walk) : List ArrayLength → Walk
  | [] => elem
  | .fixed n::rest => (loadRows pointer elem rest).loop pointer (max 1 n)
  | .dynamic::_ => .still

mutual

/-- The slots that `storageLoad` reads when they hold nothing. Mappings are not loaded: they take
their slot. -/
def loadWalk (pointer : Bool) : Ty → Walk
  | .ref ty => loadWalk pointer ty
  | .array elemTy dims => loadRows pointer (loadWalk pointer elemTy) dims.reverse
  | .struct fields => loadWalkFields pointer fields
  | .string | .dynamicBytes | .address | .contract | .hash | .uint32 | .bool | .enum
  | .field => Walk.still.seq (.skip 1)
  | .mapping _ _ => .skip 1
  | .storageRef _ | .void => .skip 0

def loadWalkFields (pointer : Bool) : List Ty → Walk
  | [] => .skip 0
  | ty::rest => (loadWalk pointer ty).seq (loadWalkFields pointer rest)

end

mutual

/-- The types that a load is generated for. -/
def isLoadable : Ty → Bool
  | .ref ty => isLoadable ty
  | .array elemTy dims => !dims.isEmpty && isLoadable elemTy
  | .struct fields => areLoadable fields
  | .mapping _ _ | .storageRef _ | .void => false
  | .string | .dynamicBytes | .address | .contract | .hash | .uint32 | .bool | .enum
  | .field => true

def areLoadable : List Ty → Bool
  | [] => true
  | ty::rest => isLoadable ty && areLoadable rest

end

/-- The default of a type, as far as a load spreads it out: zero scalars, four zero cells, empty
vectors. Arrays of fixed length and structs are their members. -/
def Default : Ty → Value → State → Prop
  | .ref ty, v, m => Default ty v m
  | .uint32, v, _ | .bool, v, _ | .enum, v, _ | .field, v, _ => v = .int 0
  | .address, v, m | .contract, v, m | .hash, v, m => ∃ p, v = .ptr p ∧ m.word p = Word.zero
  | .string, v, m | .dynamicBytes, v, m => ∃ p, v = .ptr p ∧ m.cell p = 0
  | .array _ dims, v, m => ∃ p, v = .ptr p ∧ (dims.getLast? = some .dynamic → m.cell p = 0)
  | .struct _, v, _ => ∃ p, v = .ptr p
  | .mapping _ _, _, _ | .storageRef _, _, _ | .void, _, _ => False

/-- A load whose slots hold nothing: it returns, and sees no other slot. -/
def LoadsBlank (w : Bool → Walk) (D : Value → State → Prop)
    (c : Value → Code (Value × Value)) : Prop :=
  ∀ slot m, SlotOld m slot →
    (∀ k ∈ (w slot.isPointer).keys (slotKey m slot), m.storage k = Word.zero) →
    Sees ((w slot.isPointer).keys (slotKey m slot)) (c slot) m fun r t =>
      SlotAt m slot (w slot.isPointer).move t r.2 ∧ D r.1 t

theorem sees_heapMalloc (size : Felt) : Sees R (heapMalloc size) m fun p t =>
    Reads m t ∧ p = .heap m.heap :=
  sees_of_acts (acts_heapMalloc size)
    ((heapMalloc_reads size m).mono fun _ _ h => ⟨⟨h.1,h.2.1⟩,h.1.storage⟩)

theorem sees_buildStore (q : Pointer) (v : Value) :
    Sees R (buildStore q v) m fun _ t => t = m.write q v :=
  sees_of_acts (acts_buildStore q v) ⟨(),m.write q v,rfl,rfl,rfl⟩

theorem sees_slotOffest (slot : Value) (j : ℕ) (hs : SlotOld m slot) :
    Sees R (slotOffest slot (j : ℕ)) m fun d t => SlotAt m slot j t d :=
  sees_of_acts (acts_slotOffest slot j hs) (slotOffest_slotAt slot j m hs)

theorem sees_storageLoadInternal (hk : slotKey m slot ∈ R) :
    Sees R (storageLoadInternal slot) m fun p t => Keeps m t ∧ p = .heap m.heap ∧
      t.word p = m.storage (slotKey m slot) ∧ t.Old (p.add 3) :=
  sees_of_acts (acts_storageLoadInternal hk)
    ((storageLoadInternal_spec slot m).mono fun _ _ h => ⟨⟨h.1.keeps,h.2⟩,h.1.storage⟩)

theorem sees_storageLoadCell (hk : slotKey m slot ∈ R) :
    Sees R (storageLoadCell slot) m fun x t => Keeps m t ∧ x = (m.storage (slotKey m slot)).c3 :=
  sees_of_acts (acts_storageLoadCell hk)
    ((storageLoadCell_spec slot m).mono fun _ _ h => ⟨⟨h.1.keeps,h.2⟩,h.1.storage⟩)

theorem sees_slotHash (slot : Value) :
    Sees R (slotHash host slot) m fun _ t => Keeps m t :=
  sees_of_acts (acts_slotHash slot)
    ((slotHash_spec slot m).mono fun _ _ h => ⟨h.reads.keeps,h.reads.storage⟩)

theorem sees_vectorNew (size : Felt) : Sees R (vectorNew size) m fun p t =>
    Keeps m t ∧ p = .heap m.heap ∧ t.Old p ∧ t.cell p = size := by
  refine sees_of_acts (acts_vectorNew size) ⟨_,_,rfl,⟨⟨?_,rfl,fun q hq => ?_⟩,rfl,?_,?_⟩,rfl⟩
  · show m.heap ≤ m.heap + size.val + 1
    omega
  · refine write_mem_of_ne _ _ ?_
    rintro rfl
    exact absurd (show m.heap < m.heap from hq) (by omega)
  · show m.heap < m.heap + size.val + 1
    omega
  · exact write_cell_self _ _ _

/-- The property rests on cells that were taken between the two states. -/
def Fresh (m t : State) (D : State → Prop) : Prop :=
  ∀ t', (∀ q, ¬ m.Old q → t.Old q → t'.mem q = t.mem q) → D t'

theorem not_old_heap {n : ℕ} (h : m.heap ≤ n) : ¬ m.Old (.heap n) :=
  fun hold => absurd (show n < m.heap from hold) (by omega)

/-- A vector of length zero: no entry is read. -/
theorem sees_emptyVector (host : Host) (body : Pointer → ℕ → Value → Code Value)
    (hk : m.storage (slotKey m slot) = Word.zero) (hkR : slotKey m slot ∈ R) :
    Sees R (do
      let length ← storageLoadCell slot
      let dest ← vectorNew length
      let elemSlot ← slotHash host slot
      emitLoopCondFirstWithInt 0 length.val elemSlot (body dest)
      pure (Value.ptr dest)) m fun v t => Keeps m t ∧
        Fresh m t fun t' => ∃ p, v = Value.ptr p ∧ t'.cell p = 0 := by
  refine sees_bind (sees_storageLoadCell hkR) fun length m1 h1 hm1 => ?_
  obtain ⟨hk1,hlength⟩ := h1
  have hzero : length = 0 := by
    rw [hlength,hk]
    rfl
  subst hzero
  refine sees_bind (sees_vectorNew 0) fun dest m2 h2 hm2 => ?_
  obtain ⟨hk2,rfl,hold,hcell⟩ := h2
  refine sees_bind (sees_slotHash slot) fun d m3 hk3 hm3 => ?_
  refine sees_pure ⟨(hk1.trans hk2).trans hk3,fun t' ht => ⟨_,rfl,?_⟩⟩
  rw [State.cell,ht _ (not_old_heap hk1.heap) (hk3.old hold),hk3.mem _ hold]
  exact hcell

/-- The load of one slot. -/
theorem loadSlot_blank {D : Value → State → Prop} {c : Value → Code α} {v : α → Value}
    (h : ∀ slot m, SlotOld m slot → m.storage (slotKey m slot) = Word.zero →
      Sees {slotKey m slot} (c slot) m fun a t => Keeps m t ∧ Fresh m t (D (v a))) :
    LoadsBlank (fun _ => Walk.still.seq (.skip 1)) D fun slot => (do
      let ret ← c slot
      let slot ← slotOffest slot 1
      pure (v ret,slot)) := by
  intro slot m hs hzero
  have hkeys : (Walk.still.seq (.skip 1)).keys (slotKey m slot) = {slotKey m slot} := by simp
  rw [hkeys] at hzero ⊢
  refine sees_bind (h slot m hs (hzero _ rfl)) fun a t ht hstorage => ?_
  obtain ⟨hk,hD⟩ := ht
  have hone : ((1 : ℕ) : Felt) = 1 := Nat.cast_one
  rw [← hone]
  refine sees_bind (sees_slotOffest slot 1 (hs.mono hk)) fun slot' t' ha _ => sees_pure ⟨?_,?_⟩
  · exact (SlotAt.of_keeps hs hk).trans ha
  · refine hD t' fun q hnew hold => ha.mem q hold ?_
    rintro p rfl rfl
    exact hnew hs

/-! ### Loads of arrays and structs -/

theorem keys_times (w : Walk) (k : Word) {i n : ℕ} (h : i ≤ n) : (w.times i).keys k ⊆ (w.times n).keys k := by
  induction n with
  | zero => rw [Nat.le_zero.mp h]
  | succ n ih =>
    by_cases hi : i ≤ n
    · rw [Walk.times,Walk.keys_seq]
      exact (ih hi).trans Set.subset_union_left
    · rw [show i = n+1 by omega]

theorem keys_times_step (w : Walk) (k : Word) {i n : ℕ} (h : i < n) :
    w.keys (k.offset ((w.times i).move : ℕ)) ⊆ (w.times n).keys k := by
  refine Set.Subset.trans ?_ (keys_times w k h)
  rw [Walk.times,Walk.keys_seq]
  exact Set.subset_union_right

/-- The loop of a load puts each row into the new array. -/
theorem fixedRows_blank {w : Bool → Walk} {D : Value → State → Prop}
    {load : Value → Code (Value × Value)} (h : LoadsBlank w D load) (n size stride : ℕ) :
    LoadsBlank (fun pointer => (w pointer).loop pointer (max 1 n)) (fun v _ => ∃ p, v = .ptr p)
      fun slot => (do
        let newArray ← heapMalloc (size : ℕ)
        emitStaticLoopWithInt 0 n slot fun index slot => do
          let (val,slot) ← load slot
          buildStore (newArray.add (index * stride)) val
          pure slot
        pure (.ptr newArray,slot)) := by
  intro slot m hs hzero
  refine sees_bind (sees_heapMalloc _) fun newArray m1 h1 hm1 => ?_
  obtain ⟨hr1,rfl⟩ := h1
  have hloop : Sees (((w slot.isPointer).times (max 1 (n-0))).keys (slotKey m slot))
      (Exec.loop (fun index slot => do
        let (val,slot) ← load slot
        buildStore ((Pointer.heap m.heap).add (index * stride)) val
        pure slot) (max 1 (n-0)) 0 slot.stored) m1 fun s t =>
      SlotAt m slot ((w slot.isPointer).times (0 + max 1 (n-0))).move t s := by
    refine sees_loop (I := fun i s t => SlotAt m slot ((w slot.isPointer).times i).move t s) ?_ ?_
    · exact (SlotAt.of_keeps hs hr1.keeps).trans (SlotAt.stored m1 slot)
    · intro i s t hi hstorage ha
      have hsub := keys_times_step (w slot.isPointer) (slotKey m slot) (Nat.zero_add _ ▸ hi)
      have hrow := h s t (ha.old hs)
      rw [ha.isPointer,ha.key] at hrow
      have hrow := hrow fun k hk => by
        rw [hstorage,hm1]
        exact hzero k (hsub hk)
      refine sees_bind (hrow.subset hsub) fun r t' hr hstorage' => ?_
      refine sees_bind (sees_buildStore _ _) fun _ t'' ht _ => sees_pure ?_
      subst ht
      exact (ha.trans hr.1).write hs (not_old_heap (Nat.le_add_right _ _)) _
  refine sees_bind (Q := fun _ t => SlotAt m slot
      (((w slot.isPointer).loop slot.isPointer (max 1 n)).move) t slot) ?_ fun _ t ha _ =>
    sees_pure ⟨ha,_,rfl⟩
  refine sees_bind hloop fun s t ha _ => sees_pure ?_
  rw [Nat.zero_add] at ha
  exact ha.loop

theorem loadArray_blank (host : Host) {w : Bool → Walk} {D : Value → State → Prop}
    {loadElem : Value → Code (Value × Value)} (h : LoadsBlank w D loadElem) (elemTy : Ty)
    {dims : List ArrayLength} (hne : dims ≠ []) :
    LoadsBlank (fun pointer => loadRows pointer (w pointer) dims) (Default (.array elemTy dims.reverse))
      (storageLoadArray host loadElem elemTy dims) := by
  have hall : ∀ dims, ∃ D', LoadsBlank (fun pointer => loadRows pointer (w pointer) dims) D'
      (storageLoadArray host loadElem elemTy dims) ∧
        (dims ≠ [] → ∀ v t, D' v t → Default (.array elemTy dims.reverse) v t) := by
    intro dims
    induction dims with
    | nil => exact ⟨D,h,fun hne => absurd rfl hne⟩
    | cons dim rest ih =>
      cases dim with
      | fixed n =>
        obtain ⟨D',hrow,-⟩ := ih
        refine ⟨_,fixedRows_blank hrow n _ _,fun _ v t hv => ?_⟩
        obtain ⟨p,rfl⟩ := hv
        exact ⟨p,rfl,fun hlast => by simp at hlast⟩
      | dynamic =>
        refine ⟨fun v t => ∃ p, v = .ptr p ∧ t.cell p = 0,fun slot m hs hzero => ?_,
          fun _ v t hv => ?_⟩
        · have hkeys : ((fun pointer => loadRows pointer (w pointer) (ArrayLength.dynamic::rest))
              slot.isPointer).keys (slotKey m slot) = {slotKey m slot} := Walk.keys_still _
          rw [hkeys] at hzero ⊢
          have hvector := sees_emptyVector host (fun dest elemNo slot => do
            let (entry,slot) ← loadElem slot
            buildStore ((vectorData dest).add elemNo) entry
            pure slot) (hzero _ rfl) (Set.mem_singleton (slotKey m slot))
          have hload := sees_bind hvector fun v t hv _ => sees_pure (R := {slotKey m slot})
            (a := (v,slot)) (Q := fun r t => SlotAt m slot 0 t r.2 ∧ ∃ p, r.1 = .ptr p ∧ t.cell p = 0)
            ⟨SlotAt.of_keeps hs hv.1,hv.2 t fun _ _ _ => rfl⟩
          simp only [Exec.bind_assoc,Exec.pure_bind] at hload
          exact hload
        · obtain ⟨p,rfl,hp⟩ := hv
          exact ⟨p,rfl,fun _ => hp⟩
  obtain ⟨D',hload,hD⟩ := hall dims
  intro slot m hs hzero
  exact (hload slot m hs hzero).mono fun r t hr => ⟨hr.1,hD hne _ _ hr.2⟩

theorem scalar_blank : LoadsBlank (fun _ => Walk.still.seq (.skip 1)) (fun v _ => v = .int 0)
    fun slot => (do
      let ret ← storageLoadCell slot
      let slot ← slotOffest slot 1
      pure (.int ret,slot)) := by
  refine loadSlot_blank fun slot m hs hzero => (sees_storageLoadCell (Set.mem_singleton _)).mono fun x t ht => ?_
  refine ⟨ht.1,fun _ _ => ?_⟩
  rw [ht.2,hzero]
  rfl

theorem word_blank : LoadsBlank (fun _ => Walk.still.seq (.skip 1))
    (fun v t => ∃ p, v = .ptr p ∧ t.word p = Word.zero) fun slot => (do
      let ret ← storageLoadInternal slot
      let slot ← slotOffest slot 1
      pure (.ptr ret,slot)) := by
  refine loadSlot_blank fun slot m hs hzero => (sees_storageLoadInternal (Set.mem_singleton _)).mono fun p t ht => ?_
  obtain ⟨hk,rfl,hword,hold⟩ := ht
  refine ⟨hk,fun t' hmem => ⟨_,rfl,?_⟩⟩
  have hcell : ∀ i ≤ 3, t'.cell ((Pointer.heap m.heap).add i) = t.cell ((Pointer.heap m.heap).add i) :=
    fun i hi => congrArg Value.felt (hmem _ (not_old_heap (Nat.le_add_right _ i)) (hold.of_add hi))
  rw [← hzero,← hword]
  simp only [State.word,hcell 1 (by omega),hcell 2 (by omega),hcell 3 (by omega),
    show t'.cell (.heap m.heap) = t.cell (.heap m.heap) from hcell 0 (by omega)]

theorem string_blank (host : Host) : LoadsBlank (fun _ => Walk.still.seq (.skip 1))
    (fun v t => ∃ p, v = .ptr p ∧ t.cell p = 0) fun slot => (do
      let ret ← getStorageDynamicBytes host slot
      let slot ← slotOffest slot 1
      pure (ret,slot)) :=
  loadSlot_blank (v := id) fun _ _ _ hzero => sees_emptyVector host _ hzero (Set.mem_singleton _)

/-- The members of a struct go into new cells; `slot0` is where the struct starts. -/
def FieldsBlank (host : Host) (fields : List Ty) : Prop :=
  ∀ (p : Pointer) (offset : ℕ) {j : ℕ} {m0 m : State} {slot0 slot : Value}, SlotOld m0 slot0 →
    SlotAt m0 slot0 j m slot → (∀ i, ¬ m0.Old (p.add i)) →
    (∀ k ∈ (loadWalkFields slot0.isPointer fields).keys (slotKey m slot), m.storage k = Word.zero) →
    Sees ((loadWalkFields slot0.isPointer fields).keys (slotKey m slot))
      (storageLoadFields host fields p offset slot) m fun d t =>
        SlotAt m0 slot0 (j + (loadWalkFields slot0.isPointer fields).move) t d

theorem fields_blank {ty : Ty} {rest : List Ty} {D : Value → State → Prop}
    (h : LoadsBlank (fun pointer => loadWalk pointer ty) D (storageLoad host ty))
    (hrest : FieldsBlank host rest) : FieldsBlank host (ty::rest) := by
  intro p offset j m0 m slot0 slot hs ha hp hzero
  have hkeys : (loadWalkFields slot0.isPointer (ty::rest)).keys (slotKey m slot) =
      (loadWalk slot0.isPointer ty).keys (slotKey m slot) ∪ (loadWalkFields slot0.isPointer rest).keys
        ((slotKey m slot).offset ((loadWalk slot0.isPointer ty).move : ℕ)) := Walk.keys_seq _ _ _
  rw [hkeys] at hzero ⊢
  have hfield := h slot m (ha.old hs)
  rw [ha.isPointer] at hfield
  rw [storageLoadFields]
  refine sees_bind ((hfield fun k hk => hzero k (.inl hk)).subset Set.subset_union_left)
    fun r t hr hstorage => ?_
  refine sees_bind (sees_buildStore _ _) fun _ t' ht _ => ?_
  subst ht
  have ha' := (ha.trans hr.1).write hs (hp offset) r.1
  have hkey : slotKey (t.write (p.add offset) r.1) r.2 =
      (slotKey m slot).offset ((loadWalk slot0.isPointer ty).move : ℕ) := by
    rw [ha'.key,ha.key,Word.offset_offset,Nat.cast_add]
  have hfields := hrest p (offset + ty.llvmFieldSize) hs ha' hp
  rw [hkey] at hfields
  have hmove : (loadWalkFields slot0.isPointer (ty::rest)).move =
      (loadWalk slot0.isPointer ty).move + (loadWalkFields slot0.isPointer rest).move := rfl
  rw [hmove,← Nat.add_assoc]
  exact (hfields fun k hk => (congrFun hstorage k).trans (hzero k (.inr hk))).subset
    Set.subset_union_right

mutual

/-- A load of slots that hold nothing gives the default. -/
theorem storageLoad_blank : ∀ ty : Ty, isLoadable ty = true →
    LoadsBlank (fun pointer => loadWalk pointer ty) (Default ty) (storageLoad host ty)
  | .ref ty, h => by
    intro slot m hs hzero
    rw [storageLoad]
    exact storageLoad_blank ty h slot m hs hzero
  | .array elemTy dims, h => by
    rw [isLoadable,Bool.and_eq_true] at h
    intro slot m hs hzero
    have hne : dims.reverse ≠ [] := by simpa using h.1
    have hload := loadArray_blank host (storageLoad_blank elemTy h.2) elemTy hne slot m hs
      hzero
    rw [List.reverse_reverse] at hload
    rw [storageLoad]
    exact hload
  | .struct fields, h => by
    rw [isLoadable] at h
    intro slot m hs hzero
    rw [storageLoad]
    refine sees_bind (sees_heapMalloc _) fun p m1 h1 hm1 => ?_
    obtain ⟨hr1,rfl⟩ := h1
    have hfields := storageLoadFields_blank fields h (.heap m.heap) 0 hs
      (SlotAt.of_keeps hs hr1.keeps) (fun i => not_old_heap (Nat.le_add_right _ i))
    rw [slotKey_keeps hs hr1.keeps,Nat.zero_add] at hfields
    refine sees_bind (hfields fun k hk => (congrFun hm1 k).trans (hzero k hk)) fun d t ha _ => ?_
    exact sees_pure ⟨ha,_,rfl⟩
  | .string, _ | .dynamicBytes, _ => by
    intro slot m hs hzero
    rw [storageLoad]
    exact string_blank host slot m hs hzero
  | .address, _ | .contract, _ | .hash, _ => by
    intro slot m hs hzero
    rw [storageLoad]
    exact word_blank slot m hs hzero
  | .uint32, _ | .bool, _ | .enum, _ | .field, _ => by
    intro slot m hs hzero
    rw [storageLoad]
    exact scalar_blank slot m hs hzero
  | .mapping _ _, h | .storageRef _, h | .void, h => by cases h

theorem storageLoadFields_blank : ∀ fields : List Ty, areLoadable fields = true →
    FieldsBlank host fields
  | [], _ => by
    intro p offset j m0 m slot0 slot hs ha hp hzero
    rw [storageLoadFields]
    exact sees_pure ha
  | ty::rest, h => by
    rw [areLoadable,Bool.and_eq_true] at h
    exact fields_blank (storageLoad_blank ty h.1) (storageLoadFields_blank rest h.2)

end

/-! ### A delete against a load -/

/-- The load from `t` gives the default of the type: what it gives when nothing was ever stored. -/
def LoadsDefault (host : Host) (ty : Ty) (slot : Value) (t : State) : Prop :=
  ∃ v slot' u, storageLoad host ty slot t = .ok ((v,slot'),u) ∧ Default ty v u ∧
    storageLoad host ty slot (disk.put t fun _ => Word.zero) =
      .ok ((v,slot'),disk.put u fun _ => Word.zero)

/-- The hashes of the inputs `U` do not collide, and none leads to a step behind `k`. -/
structure Apart (host : Host) (U : Set (List Felt)) (k : Word) : Prop where
  inputs : ∀ l ∈ U, ∀ l' ∈ U, ∀ i j, (host.poseidon l).offset i = (host.poseidon l').offset j → l = l'
  slots : ∀ l ∈ U, ∀ i j, (host.poseidon l).offset i ≠ k.offset j

/-- The keys of the mapping at the slot `z`: its entries, and what is hashed from these. -/
inductive Entry (host : Host) (f : Word → Word) (U : Set (List Felt)) (z : Word) : Word → Prop
  | entry (key : List Felt) (j : Felt) : z.toList ++ key ∈ U → key ≠ [] ∨ f z = Word.zero →
    Entry host f U z ((host.poseidon (z.toList ++ key)).offset j)
  | inner (y : Word) (key : List Felt) (j : Felt) : Entry host f U z y → y.toList ++ key ∈ U →
    Entry host f U z ((host.poseidon (y.toList ++ key)).offset j)

/-- `g` is what is left of the storage `f` when the variable at `k` is deleted: its slots are empty, so
that a load gives the default, and the entries of mappings are kept. -/
structure Cleared (host : Host) (pointer : Bool) (ty : Ty) (k : Word) (f g : Word → Word) :
    Prop where
  slots : ∀ k' ∈ (loadWalk pointer ty).keys k, g k' = Word.zero
  load : isLoadable ty = true → ∀ t slot, t.storage = g → SlotOld t slot →
    slot.isPointer = pointer → slotKey t slot = k → LoadsDefault host ty slot t
  entries : ∀ U, Apart host U k → (∀ a, f a ≠ Word.zero → a.toList ∈ U) → ∀ z e,
    Entry host f U z e → g e = f e

/-- Whatever the storage held, a delete clears the variable. -/
def Restored (host : Host) (pointer : Bool) (ty : Ty) : Prop :=
  ∀ slot m, SlotOld m slot → slot.isPointer = pointer → Returns (storageDelete host ty slot) m
    fun _ m' => Cleared host pointer ty (slotKey m slot) m.storage m'.storage

/-- Every slot that a load reads is one that a delete clears. -/
def Visited (pointer : Bool) (ty : Ty) : Prop :=
  ∀ o ∈ (loadWalk pointer ty).offsets, ∃ o' ∈ (deleteWalk pointer ty).offsets,
    ((o : ℕ) : Felt) = ((o' : ℕ) : Felt)

instance (pointer : Bool) (ty : Ty) : Decidable (Visited pointer ty) :=
  inferInstanceAs (Decidable (∀ o ∈ _, ∃ o' ∈ _, _))

variable {pointer : Bool} {ty : Ty} {f g : Word → Word} {U : Set (List Felt)} {z e : Word}

/-- A load that finds its slots empty. -/
theorem loadsDefault_of_empty (h : isLoadable ty = true) (hs : SlotOld m slot)
    (hzero : ∀ k ∈ (loadWalk slot.isPointer ty).keys (slotKey m slot), m.storage k = Word.zero) :
    LoadsDefault host ty slot m := by
  have hload : LoadsBlank (fun pointer => loadWalk pointer ty) (Default ty) (storageLoad host ty) :=
    storageLoad_blank ty h
  obtain ⟨⟨v,slot'⟩,u,hrun,⟨-,hdefault⟩,-,hblank⟩ := (hload slot m hs hzero).run
  exact ⟨v,slot',u,hrun,hdefault,hblank _ fun k hk => (hzero k hk).symm⟩

theorem toList_append {a b : Word} {key : List Felt} (h : a.toList ++ key = b.toList) :
    a = b ∧ key = [] := by
  cases a
  cases b
  simp only [Word.toList,List.cons_append,List.nil_append,List.cons.injEq] at h
  obtain ⟨rfl,rfl,rfl,rfl,hkey⟩ := h
  exact ⟨rfl,hkey⟩

/-- The hash that leads to a key of a chain is that of the slot before it. -/
theorem Chain.last {l : List Felt} {j : Felt} (hU : Apart host U k) (hl : l ∈ U)
    (hused : ∀ a, f a ≠ Word.zero → a.toList ∈ U)
    (h : Chain host f z ((host.poseidon l).offset j)) :
    ∃ a, f a ≠ Word.zero ∧ l = a.toList ∧ (a = z ∨ Chain host f z a) := by
  generalize he : (host.poseidon l).offset j = e at h
  cases h with
  | single h =>
    obtain ⟨hne,i,rfl⟩ := h
    exact ⟨z,hne,hU.inputs l hl _ (hused _ hne) _ _ he,.inl rfl⟩
  | @tail a _ hchain h =>
    obtain ⟨hne,i,rfl⟩ := h
    exact ⟨a,hne,hU.inputs l hl _ (hused _ hne) _ _ he,.inr hchain⟩

/-- Keys that are hashed with a mapping key are not those of a chain of slots. -/
theorem Entry.apart {Z : Set Word} (hU : Apart host U k) (hused : ∀ a, f a ≠ Word.zero → a.toList ∈ U)
    (hZ : ∀ z ∈ Z, ∃ i, z = k.offset i) (h : Entry host f U z e) :
    ¬ ∃ a ∈ Z, e = a ∨ Chain host f a e := by
  induction h with
  | entry key j hin hkey =>
    rintro ⟨a,ha,rfl|hchain⟩
    · obtain ⟨i,hi⟩ := hZ _ ha
      exact hU.slots _ hin _ _ hi
    · obtain ⟨b,hne,hb,-⟩ := hchain.last hU hin hused
      obtain ⟨rfl,rfl⟩ := toList_append hb
      exact hkey.elim (fun h => h rfl) hne
  | inner y key j _ hin ih =>
    rintro ⟨a,ha,rfl|hchain⟩
    · obtain ⟨i,hi⟩ := hZ _ ha
      exact hU.slots _ hin _ _ hi
    · obtain ⟨b,-,hb,hreach⟩ := hchain.last hU hin hused
      obtain ⟨rfl,-⟩ := toList_append hb
      exact ih ⟨a,ha,hreach⟩

theorem Wipes.entries {Z : Set Word} (h : Wipes host Z f g) (hZ : ∀ z ∈ Z, ∃ i, z = k.offset i)
    (hU : Apart host U k) (hused : ∀ a, f a ≠ Word.zero → a.toList ∈ U) (he : Entry host f U z e) :
    g e = f e := by
  obtain hkept|⟨-,hswept⟩ := h.kept e
  · exact hkept
  · exact absurd hswept (he.apart hU hused hZ)

theorem restored_of_visited (h : Visited pointer ty) : Restored host pointer ty := by
  rintro slot m hs rfl
  refine (storageDelete_deletes ty slot m hs).mono fun _ m' ⟨_,hw⟩ => ?_
  have hslots : ∀ k' ∈ (loadWalk slot.isPointer ty).keys (slotKey m slot), m'.storage k' = Word.zero := by
    rintro k' ⟨o,ho,rfl⟩
    obtain ⟨o',ho',heq⟩ := h o ho
    rw [heq]
    exact hw.zero _ ⟨o',ho',rfl⟩
  refine ⟨hslots,fun hty t slot' ht hs' hp hk => ?_,fun U hU hused z e he => ?_⟩
  · refine loadsDefault_of_empty hty hs' fun k hk' => ?_
    rw [hp,hk] at hk'
    rw [ht]
    exact hslots k hk'
  · refine hw.entries ?_ hU hused he
    rintro _ ⟨o,-,rfl⟩
    exact ⟨_,rfl⟩

/-- A slot that only the load reads keeps what it held. -/
theorem visited_of_restored (h : Restored host pointer ty) : Visited pointer ty := by
  intro o ho
  by_contra hnone
  let slot : Value := if pointer then .ptr (.stack 0) else .int 0
  have hpointer : slot.isPointer = pointer := by cases pointer <;> rfl
  have hold : ∀ m, SlotOld m slot := by
    intro m
    cases pointer <;> trivial
  let m : State := ⟨fun _ => .int 0,0,0,fun _ => Word.zero⟩
  let k := (slotKey m slot).offset ((o : ℕ) : Felt)
  let m1 : State := disk.put m (Function.update m.storage k (Word.ofFelt 1))
  have hkey : slotKey m1 slot = slotKey m slot := by cases pointer <;> rfl
  obtain ⟨_,t,hrun,hcleared⟩ := h slot m1 (hold m1) hpointer
  obtain ⟨_,t',hrun',-,hw⟩ := storageDelete_deletes ty slot m1 (hold m1)
  rw [hrun] at hrun'
  cases hrun'
  have hidle : t.storage = m1.storage := by
    refine hw.idle ?_
    rintro _ ⟨o',ho',rfl⟩
    refine Function.update_of_ne (fun heq => hnone ⟨o',?_,?_⟩) _ _
    · rwa [← hpointer]
    · rw [hkey] at heq
      exact (Word.offset_inj.mp heq).symm
  have hzero : t.storage k = Word.zero := hcleared.slots k ⟨o,ho,by rw [hkey]⟩
  rw [hidle] at hzero
  have hone : m1.storage k = Word.ofFelt 1 := Function.update_self ..
  rw [hone] at hzero
  exact absurd hzero (by decide)

/-- A delete clears a variable, whatever the storage held, exactly when it visits every slot that a
load reads. -/
theorem restored_iff (host : Host) (pointer : Bool) (ty : Ty) :
    Restored host pointer ty ↔ Visited pointer ty :=
  ⟨visited_of_restored,restored_of_visited⟩

/-- A member behind bytes: the struct that is loaded holds what its slot holds. -/
theorem load_bytesThenCount (hzero : m.storage (Word.ofFelt 0) = Word.zero) :
    Returns (storageLoad host (.struct [.dynamicBytes,.uint32]) (.int 0)) m fun r t =>
      ∃ p, r.1 = .ptr p ∧ t.cell (p.add 1) = (m.storage (Word.ofFelt 1)).c3 := by
  rw [storageLoad]
  refine returns_bind ((heapMalloc_reads _ m).mono fun p m1 ⟨hr1,_⟩ => ?_)
  refine returns_bind (Returns.mono ?_ fun _ t ht => returns_pure ⟨p,rfl,ht⟩)
  have hbytes : Returns (storageLoad host .dynamicBytes (.int 0)) m1 fun r t =>
      SlotAt m1 (.int 0) 1 t r.2 ∧ t.storage = m1.storage := by
    rw [storageLoad]
    refine (string_blank host (.int 0) m1 trivial fun k hk => ?_).returns.mono
      fun _ t ⟨⟨hat,_⟩,hstorage⟩ => ⟨hat,hstorage⟩
    have hk' : k = slotKey m1 (.int 0) := by simpa using hk
    rw [hr1.storage,hk']
    exact hzero
  rw [storageLoadFields]
  refine returns_bind (hbytes.mono fun r m2 ⟨hat,hstorage⟩ => ?_)
  refine returns_bind ⟨(),m2.write (p.add 0) r.1,rfl,?_⟩
  have hkey : slotKey (m2.write (p.add 0) r.1) r.2 = Word.ofFelt 1 := by
    have hint : r.2.isPointer = false := hat.isPointer
    have hkey2 : slotKey m2 r.2 = Word.ofFelt 1 := hat.key
    rw [slotKey_of_not_pointer hint] at hkey2 ⊢
    exact hkey2
  have hcount : Returns (storageLoad host .uint32 r.2) (m2.write (p.add 0) r.1) fun r t =>
      r.1 = .int (m.storage (Word.ofFelt 1)).c3 := by
    rw [storageLoad]
    refine returns_bind ((storageLoadCell_spec r.2 _).mono fun x m3 ⟨hr3,hx⟩ => ?_)
    obtain ⟨d,m4,hoff,-⟩ := slotKey_slotOffest r.2 1 m3
    refine returns_bind ⟨d,m4,hoff,returns_pure ?_⟩
    rw [hx,hkey]
    exact congrArg (fun f => Value.int (f (Word.ofFelt 1)).c3) (hstorage.trans hr1.storage)
  rw [storageLoadFields]
  refine returns_bind (hcount.mono fun r m3 hr => ?_)
  refine returns_bind ⟨(),m3.write (p.add (0 + Ty.dynamicBytes.llvmFieldSize)) r.1,rfl,?_⟩
  rw [storageLoadFields,hr]
  exact returns_pure (write_cell_self _ _ _)

/-- Bytes and a count behind them, the bytes empty and the count one. -/
def countOne : State where
  mem := fun _ => .int 0
  heap := 0
  stack := 0
  storage := fun k => if k = Word.ofFelt 1 then Word.ofFelt 1 else Word.zero

def sumHost : Host where
  poseidon := fun l => ⟨1,0,0,l.sum⟩
  prophetU32Sqrt := fun _ => 0
  prophetU32Div := fun _ _ => 0
  prophetU32Mod := fun _ _ => 0
  prophetSplitFieldHigh := fun _ => 0
  prophetSplitFieldLow := fun _ => 0

/-- The delete does not step over the bytes: the count behind them survives. -/
theorem count_survives : ¬ Restored sumHost false (.struct [.dynamicBytes,.uint32]) ∧
    ∃ d m, storageDelete sumHost (.struct [.dynamicBytes,.uint32]) (.int 0) countOne = .ok (d,m) ∧
      ¬ LoadsDefault sumHost (.struct [.dynamicBytes,.uint32]) (.int 0) m := by
  have hdeletes : Deletes sumHost (fun pointer => deleteWalk pointer (.struct [.dynamicBytes,.uint32]))
      (storageDelete sumHost (.struct [.dynamicBytes,.uint32])) := storageDelete_deletes _
  obtain ⟨d,m,hrun,-,hw⟩ := hdeletes (.int 0) countOne trivial
  refine ⟨fun h => absurd (visited_of_restored h) (by decide),d,m,hrun,?_⟩
  have hstorage : m.storage = countOne.storage := by
    refine hw.idle ?_
    rintro _ ⟨o,ho,rfl⟩
    have hzero : o = 0 := by
      revert o
      decide
    subst hzero
    rfl
  rintro ⟨v,slot',u,hload,-,hblank⟩
  obtain ⟨r,t,hr,p,hp,hcell⟩ := load_bytesThenCount (m := m) (by rw [hstorage]; rfl)
  obtain ⟨r',t',hr',p',hp',hcell'⟩ := load_bytesThenCount
    (m := disk.put m fun _ => Word.zero) rfl
  rw [hload] at hr
  rw [hblank] at hr'
  cases hr
  cases hr'
  cases hp.symm.trans hp'
  rw [hstorage] at hcell
  have hne : (0 : Felt) = 1 := hcell'.symm.trans hcell
  exact absurd hne (by decide)

end Storage
end OlaLang
