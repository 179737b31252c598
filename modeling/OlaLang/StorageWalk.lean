import OlaLang.SlotTree

/-! The walks of stores, deletes and loads through the slots of a type: they read and write the
slots the type occupies and what is hashed from these, and nothing else. -/
namespace OlaLang

/-! ### Sizes -/

namespace Ty

mutual
/-- No array of length zero and no struct without members, as the analysis demands. -/
def isSized : Ty → Bool
  | .ref ty | .storageRef ty => ty.isSized
  | .array elem dims => elem.isSized && dims.all (· ≠ .fixed 0)
  | .struct fields => !fields.isEmpty && isSizedFields fields
  | .mapping _ value => value.isSized
  | _ => true

def isSizedFields : List Ty → Bool
  | [] => true
  | ty::rest => ty.isSized && isSizedFields rest
end

theorem dimSize_pos {dim : ArrayLength} (h : dim ≠ .fixed 0) : 0 < dimSize dim := by
  cases dim with
  | dynamic => exact Nat.one_pos
  | fixed n =>
    have hn : n ≠ 0 := fun h0 => h (by rw [h0])
    exact Nat.pos_of_ne_zero hn

theorem dimsSize_pos {dims : List ArrayLength} (h : dims.all (· ≠ .fixed 0) = true) :
    0 < dimsSize dims := by
  induction dims with
  | nil => exact Nat.one_pos
  | cons dim rest ih =>
    simp only [List.all_cons,Bool.and_eq_true,decide_eq_true_eq] at h
    have hp : dimsSize (dim::rest) = dimSize dim * dimsSize rest := by
      simp [dimsSize]
    rw [hp]
    exact Nat.mul_pos (dimSize_pos h.1) (ih h.2)

theorem storageSlots_pos : ∀ {ty : Ty}, ty.isSized = true → 0 < ty.storageSlots
  | .ref ty, h => by
    rw [storageSlots]
    rw [isSized] at h
    exact storageSlots_pos h
  | .storageRef ty, h => by
    rw [storageSlots]
    rw [isSized] at h
    exact storageSlots_pos h
  | .array elem dims, h => by
    rw [isSized,Bool.and_eq_true] at h
    rw [storageSlots]
    exact Nat.mul_pos (storageSlots_pos h.1) (dimsSize_pos h.2)
  | .struct [], h => by
    rw [isSized] at h
    cases h
  | .struct (ty::rest), h => by
    rw [isSized,isSizedFields] at h
    simp only [List.isEmpty_cons,Bool.not_false,Bool.true_and,Bool.and_eq_true] at h
    have hpos := storageSlots_pos h.1
    rw [storageSlots,storageSlotsFields]
    omega
  | .void, _ | .bool, _ | .uint32, _ | .field, _ | .enum, _ | .address, _ | .contract, _
  | .hash, _ | .string, _ | .dynamicBytes, _ | .mapping _ _, _ => by
    simp [storageSlots]

/-- Does a walk move the slot operand by itself? -/
def moves : Ty → Bool
  | .array _ _ | .struct _ => true
  | .ref ty | .storageRef ty => ty.moves
  | _ => false

/-- The slots a walk may move its operand by. -/
def walkSteps (ty : Ty) : ℕ := if ty.moves then ty.storageSlots else 0

def advanceSteps (ty : Ty) : ℕ := if ty.isReferenceType then 0 else ty.storageSlots

theorem moves_isReferenceType : ∀ {ty : Ty}, ty.moves = true → ty.isReferenceType = true
  | .ref ty, h => by
    rw [isReferenceType]
    exact moves_isReferenceType h
  | .storageRef ty, h => by
    rw [isReferenceType]
    exact moves_isReferenceType h
  | .array _ _, _ | .struct _, _ => rfl
  | .void, h | .bool, h | .uint32, h | .field, h | .enum, h | .address, h | .contract, h
  | .hash, h | .string, h | .dynamicBytes, h | .mapping _ _, h => by cases h

/-- A walk and the step behind it stay in the slots of the type. -/
theorem walkSteps_add_advanceSteps (ty : Ty) : ty.walkSteps + ty.advanceSteps ≤ ty.storageSlots := by
  unfold walkSteps advanceSteps
  by_cases hm : ty.moves = true
  · simp [hm,moves_isReferenceType hm]
  · by_cases hr : ty.isReferenceType = true <;> simp [hm,hr]

end Ty

namespace Storage

open KeyedStore State
open Exec (Returns)
open Builder Corelib

/-! ### Moving slots -/

/-- `slot'` is `slot` after `j` steps, in a run that leaves the other old cells alone. -/
structure SlotAt (m : State) (slot : Value) (j : ℕ) (m' : State) (slot' : Value) : Prop where
  isPointer : slot'.isPointer = slot.isPointer
  same : ∀ p, slot = .ptr p → slot' = .ptr p
  key : slotKey m' slot' = (slotKey m slot).offset (j : ℕ)
  heap : m.heap ≤ m'.heap
  stack : m'.stack = m.stack
  mem : ∀ q, m.Old q → (∀ p, slot = .ptr p → q ≠ p.add 3) → m'.mem q = m.mem q

section SlotAt

variable {m m' m'' : State} {slot slot' slot'' : Value} {i j : ℕ} {p q : Pointer}

theorem old_of_heap (h : m.heap ≤ m'.heap) (hq : m.Old q) : m'.Old q := by
  cases q with
  | stack n => trivial
  | heap n => exact Nat.lt_of_lt_of_le hq h

theorem SlotOld.of_heap (h : SlotOld m slot) (hm : m.heap ≤ m'.heap) : SlotOld m' slot := by
  cases slot with
  | ptr p => exact old_of_heap hm h
  | const w => trivial
  | int x => trivial

theorem SlotAt.refl (m : State) (slot : Value) : SlotAt m slot 0 m slot :=
  ⟨rfl,fun _ h => h,by rw [Nat.cast_zero,Word.offset_zero],Nat.le_refl _,rfl,
    fun _ _ _ => rfl⟩

theorem SlotAt.trans (h : SlotAt m slot i m' slot') (h' : SlotAt m' slot' j m'' slot'') :
    SlotAt m slot (i+j) m'' slot'' where
  isPointer := h'.isPointer.trans h.isPointer
  same := fun p hp => h'.same p (h.same p hp)
  key := by rw [h'.key,h.key,Word.offset_offset,Nat.cast_add]
  heap := Nat.le_trans h.heap h'.heap
  stack := h'.stack.trans h.stack
  mem := by
    intro q hq hp
    have hp' : ∀ p, slot' = .ptr p → q ≠ p.add 3 := by
      intro p hs
      cases slot with
      | ptr p' =>
        cases (h.same p' rfl).symm.trans hs
        exact hp p rfl
      | const w =>
        rw [hs] at h
        cases h.isPointer
      | int x =>
        rw [hs] at h
        cases h.isPointer
    rw [h'.mem q (old_of_heap h.heap hq) hp',h.mem q hq hp]

theorem SlotAt.old (h : SlotAt m slot j m' slot') (hs : SlotOld m slot) : SlotOld m' slot' := by
  cases slot with
  | ptr p =>
    rw [h.same p rfl]
    exact hs.of_heap h.heap
  | const w => exact slotOld_of_not_pointer h.isPointer
  | int x => exact slotOld_of_not_pointer h.isPointer

/-- A run that keeps the memory leaves a slot where it is. -/
theorem SlotAt.of_keeps (hs : SlotOld m slot) (h : Keeps m m') : SlotAt m slot 0 m' slot where
  isPointer := rfl
  same := fun _ hp => hp
  key := by rw [Nat.cast_zero,Word.offset_zero,slotKey_keeps hs h]
  heap := h.heap
  stack := h.stack
  mem := fun q hq _ => h.mem q hq

theorem slotKey_stored (m : State) (slot : Value) : slotKey m slot.stored = slotKey m slot := by
  cases slot with
  | ptr p => rfl
  | int x => rfl
  | const w => simp [Value.stored,slotKey,Value.felt]

theorem SlotAt.stored (m : State) (slot : Value) : SlotAt m slot 0 m slot.stored where
  isPointer := by cases slot <;> rfl
  same := by
    rintro p rfl
    rfl
  key := by rw [Nat.cast_zero,Word.offset_zero,slotKey_stored]
  heap := Nat.le_refl _
  stack := rfl
  mem := fun _ _ _ => rfl

/-- A loop keeps its own copy of the operand: an integer slot is back where it was. -/
theorem SlotAt.back (h : SlotAt m slot j m' slot') : ∃ i ≤ j, SlotAt m slot i m' slot := by
  cases slot with
  | ptr p =>
    rw [h.same p rfl] at h
    exact ⟨j,Nat.le_refl _,h⟩
  | const w => exact ⟨0,Nat.zero_le _,rfl,fun _ hp => hp,by rw [Nat.cast_zero,Word.offset_zero]; rfl,
      h.heap,h.stack,h.mem⟩
  | int x => exact ⟨0,Nat.zero_le _,rfl,fun _ hp => hp,by rw [Nat.cast_zero,Word.offset_zero]; rfl,
      h.heap,h.stack,h.mem⟩

/-- A cell that was free at the start may be written. -/
theorem SlotAt.write (h : SlotAt m slot j m' slot') (hs : SlotOld m slot) (hq : ¬ m.Old q)
    (v : Value) : SlotAt m slot j (m'.write q v) slot' where
  isPointer := h.isPointer
  same := h.same
  key := by
    rw [← h.key]
    cases slot with
    | ptr p =>
      rw [h.same p rfl]
      have hne : ∀ i ≤ 3, p.add i ≠ q := fun i hi hpq => hq (hpq ▸ Old.of_add hs hi)
      have h0 : p ≠ q := by simpa using hne 0 (by omega)
      simp only [slotKey,State.word,write_cell_of_ne _ _ h0,write_cell_of_ne _ _ (hne 1 (by omega)),
        write_cell_of_ne _ _ (hne 2 (by omega)),write_cell_of_ne _ _ (hne 3 (by omega))]
    | const w => rw [slotKey_of_not_pointer h.isPointer,slotKey_of_not_pointer h.isPointer]
    | int x => rw [slotKey_of_not_pointer h.isPointer,slotKey_of_not_pointer h.isPointer]
  heap := h.heap
  stack := h.stack
  mem := by
    intro r hr hp
    have hne : r ≠ q := by
      rintro rfl
      exact hq hr
    rw [write_mem_of_ne _ _ hne,h.mem r hr hp]

end SlotAt

/-! ### Single steps -/

section Steps

variable {host : Host} {m : State} {R : Set Word} {slot value : Value}

theorem acts_slotPointer (v : Value) {Q : Pointer → State → Prop} (h : Returns (slotPointer v) m Q) :
    disk.Acts R (slotPointer v) m Q := by
  refine acts_of_ignores (fun f => ?_) fun a t ht => ?_
  · cases v <;> rfl
  · obtain ⟨b,u,hu,hq⟩ := h
    cases hu.symm.trans ht
    exact hq

theorem acts_heapMalloc (size : Felt) : disk.Acts R (heapMalloc size) m fun p m' =>
    Reads m m' ∧ p = .heap m.heap ∧ m'.mem = m.mem ∧ m'.heap = m.heap + size.val := by
  refine acts_of_ignores (fun f => rfl) fun a t ht => ?_
  obtain ⟨b,u,hu,hq⟩ := heapMalloc_reads size m
  cases hu.symm.trans ht
  exact hq

/-- A read of the storage into free cells. -/
theorem acts_getStorage {key p : Pointer} (hk : m.word key ∈ R) :
    disk.Acts R (getStorage key p) m fun _ m' => m' = m.writeWord p (m.storage (m.word key)) := by
  classical
  refine ⟨fun f hf => ?_,fun a t ht => ?_⟩
  · have hput : (disk.put m f).word key = m.word key := rfl
    have hp : R.piecewise m.storage f = f := by
      funext k
      by_cases hkR : k ∈ R
      · rw [Set.piecewise_eq_of_mem _ _ _ hkR]
        exact (hf hkR).symm
      · rw [Set.piecewise_eq_of_notMem _ _ _ hkR]
    change Except.ok ((),(disk.put m f).writeWord p (f ((disk.put m f).word key))) =
      Except.ok ((),disk.put (m.writeWord p (m.storage (m.word key))) (R.piecewise m.storage f))
    rw [hput,hf hk,hp]
    rfl
  · cases ht
    rfl

theorem acts_setStorage {key p : Pointer} (hk : m.word key ∈ R) :
    disk.Acts R (setStorage key p) m fun _ m' => m' = m.setStorage (m.word key) (m.word p) := by
  classical
  refine ⟨fun f hf => ?_,fun a t ht => ?_⟩
  · have hp : R.piecewise (Function.update m.storage (m.word key) (m.word p)) f =
        Function.update f (m.word key) (m.word p) := by
      funext k
      by_cases hkR : k ∈ R
      · rw [Set.piecewise_eq_of_mem _ _ _ hkR]
        by_cases hkk : k = m.word key
        · rw [hkk,Function.update_self,Function.update_self]
        · rw [Function.update_of_ne hkk,Function.update_of_ne hkk]
          exact (hf hkR).symm
      · have hkk : k ≠ m.word key := by
          rintro rfl
          exact hkR hk
        rw [Set.piecewise_eq_of_notMem _ _ _ hkR,Function.update_of_ne hkk]
    change Except.ok ((),(disk.put m f).setStorage (m.word key) (m.word p)) =
      Except.ok ((),disk.put (m.setStorage (m.word key) (m.word p))
        (R.piecewise (Function.update m.storage (m.word key) (m.word p)) f))
    rw [hp]
    rfl
  · cases ht
    rfl

theorem post_of_returns {α : Type} {c : Code α} {Q : α → State → Prop} (h : Returns c m Q) {a : α}
    {t : State} (ht : c m = .ok (a,t)) : Q a t := by
  obtain ⟨b,u,hu,hq⟩ := h
  cases hu.symm.trans ht
  exact hq

theorem acts_storageLoadInternal (hk : slotKey m slot ∈ R) :
    disk.Acts R (storageLoadInternal slot) m fun p m' => Reads m m' ∧ p = .heap m.heap ∧
      m'.word p = m.storage (slotKey m slot) ∧ m'.Old (p.add 3) := by
  have hacts : disk.Acts R (storageLoadInternal slot) m fun _ _ => True := by
    refine acts_bind (acts_heapMalloc 4) fun p m1 ⟨_,_,hmem,_⟩ => ?_
    refine acts_bind (acts_slotPointer slot (slotPointer_spec slot m1)) fun k m2 ⟨_,hword,_⟩ => ?_
    have hkey : slotKey m1 slot = slotKey m slot := by
      cases slot with
      | ptr p => simp only [slotKey,State.word,State.cell,hmem]
      | const w => rfl
      | int x => rfl
    refine acts_bind (acts_getStorage ?_) fun _ _ _ => acts_pure trivial
    rw [hword,hkey]
    exact hk
  exact ⟨hacts.same,fun _ _ ht => post_of_returns (storageLoadInternal_spec slot m) ht⟩

theorem acts_storageLoadCell (hk : slotKey m slot ∈ R) :
    disk.Acts R (storageLoadCell slot) m fun x m' => Reads m m' ∧
      x = (m.storage (slotKey m slot)).c3 := by
  have hacts : disk.Acts R (storageLoadCell slot) m fun _ _ => True := by
    refine acts_bind (acts_storageLoadInternal hk) fun p m1 _ => ?_
    exact acts_bind (Q := fun _ _ => True) (acts_of_ignores (fun _ => rfl) fun _ _ _ => trivial)
      fun _ _ _ => acts_pure trivial
  exact ⟨hacts.same,fun _ _ ht => post_of_returns (storageLoadCell_spec slot m) ht⟩

theorem acts_storageStoreInternal (hk : slotKey m slot ∈ R) (hs : SlotOld m slot)
    (hv : SlotOld m value) : disk.Acts R (storageStoreInternal slot value) m fun _ m' => Keeps m m' ∧
      m'.storage = Function.update m.storage (slotKey m slot) (slotKey m value) := by
  have hacts : disk.Acts R (storageStoreInternal slot value) m fun _ _ => True := by
    refine acts_bind (acts_slotPointer slot (slotPointer_spec slot m)) fun k m1 ⟨_,hword,hold⟩ => ?_
    refine acts_bind (acts_slotPointer value (slotPointer_spec value m1)) fun x m2 ⟨hr2,_,_⟩ => ?_
    refine (acts_setStorage ?_).mono fun _ _ _ => trivial
    rw [hr2.keeps.word (hold hs),hword]
    exact hk
  exact ⟨hacts.same,fun _ _ ht => post_of_returns (storageStoreInternal_spec slot value m hs hv) ht⟩

theorem acts_storageClearInternal (hk : slotKey m slot ∈ R) (hs : SlotOld m slot) :
    disk.Acts R (storageClearInternal slot) m fun _ m' => Keeps m m' ∧
      m'.storage = Function.update m.storage (slotKey m slot) Word.zero := by
  have hacts : disk.Acts R (storageClearInternal slot) m fun _ _ => True := by
    refine acts_bind (acts_slotPointer slot (slotPointer_spec slot m)) fun k m1 ⟨_,hword,hold⟩ => ?_
    refine acts_bind (acts_heapMalloc 4) fun p m2 ⟨hr2,hnew,hmem,_⟩ => ?_
    refine acts_bind (Q := fun _ m3 => m3 = m2.writeWord p Word.zero)
      (acts_of_ignores (fun _ => rfl) fun _ _ ht => (by cases ht; rfl)) fun _ m3 h3 => ?_
    refine (acts_setStorage ?_).mono fun _ _ _ => trivial
    have hkeeps : Keeps m1 m3 := by
      refine ⟨?_,?_,fun q hq => ?_⟩
      · rw [h3]
        exact hr2.keeps.heap
      · rw [h3]
        exact hr2.keeps.stack
      · rw [h3,mem_writeWord,hmem]
        rintro i - rfl
        rw [hnew] at hq
        exact absurd (show m1.heap + i < m1.heap from hq) (by omega)
    rw [hkeeps.word (hold hs),hword]
    exact hk
  exact ⟨hacts.same,fun _ _ ht => post_of_returns (storageClearInternal_spec slot m hs) ht⟩

/-- The memory part needs nothing of the value that is stored. -/
theorem acts_storageStoreAny (hk : slotKey m slot ∈ R) (hs : SlotOld m slot) (v : Value) :
    disk.Acts R (storageStoreInternal slot v) m fun _ m' => Keeps m m' := by
  refine acts_bind (acts_slotPointer slot (slotPointer_spec slot m)) fun k m1 ⟨hr1,hword,hold⟩ => ?_
  refine acts_bind (acts_slotPointer v (slotPointer_spec v m1)) fun x m2 ⟨hr2,_,_⟩ => ?_
  refine (acts_setStorage ?_).mono fun _ m3 h => ?_
  · rw [hr2.keeps.word (hold hs),hword]
    exact hk
  · subst h
    have hkeeps := hr1.keeps.trans hr2.keeps
    exact ⟨hkeeps.heap,hkeeps.stack,hkeeps.mem⟩

/-- A step of a slot by a number of slots. -/
theorem slotOffest_slotAt (slot : Value) (j : ℕ) (m : State) (hs : SlotOld m slot) :
    Returns (slotOffest slot (j : ℕ)) m fun d m' => SlotAt m slot j m' d ∧ m'.storage = m.storage := by
  obtain ⟨d,m',hoff,hkey,hstorage,hheap⟩ := slotKey_slotOffest slot (j : ℕ) m
  refine ⟨d,m',hoff,⟨slotOffest_isPointer hoff,?_,hkey,Nat.le_of_eq hheap.symm,?_,?_⟩,hstorage⟩
  · rintro p rfl
    rw [slotOffest_ptr] at hoff
    cases hoff
    rfl
  · cases slot <;> cases hoff <;> rfl
  · intro q _ hp
    cases slot with
    | const w =>
      cases hoff
      rfl
    | int x =>
      cases hoff
      rfl
    | ptr p =>
      rw [slotOffest_ptr] at hoff
      cases hoff
      exact write_mem_of_ne _ _ (hp p rfl)

theorem acts_slotOffest (slot : Value) (j : ℕ) (hs : SlotOld m slot) :
    disk.Acts R (slotOffest slot (j : ℕ)) m fun d m' => SlotAt m slot j m' d := by
  refine acts_of_ignores (fun f => ?_) fun a t ht =>
    (post_of_returns (slotOffest_slotAt slot j m hs) ht).1
  cases slot <;> rfl

/-- The hash of a slot is a new pointer to a key under it. -/
structure HashOf (host : Host) (m : State) (k : Word) (d : Value) (m' : State) : Prop where
  reads : Reads m m'
  pointer : ∃ p, d = .ptr p ∧ ¬ m.Old p ∧ m'.Old (p.add 3) ∧ m'.word p = host.poseidon k.toList

theorem poseidonHash_spec (p : Pointer) (m : State) :
    Returns (poseidonHash host [(p,4)]) m fun q m' => Reads m m' ∧ ¬ m.Old q ∧
      m'.Old (q.add 3) ∧ m'.word q = host.poseidon (m.word p).toList := by
  have hinput : hashInput { m with heap := m.heap+4 } p 4 = (m.word p).toList := by
    simp [hashInput,List.range_succ,Word.toList,State.word,State.cell]
  refine ⟨.heap m.heap,{ m with heap := m.heap+4 }.writeWord (.heap m.heap)
    (host.poseidon (m.word p).toList),?_,⟨keeps_alloc m 4 _,rfl⟩,?_,?_,word_writeWord _ _ _⟩
  · rw [← hinput]
    rfl
  · exact fun h => absurd (show m.heap < m.heap from h) (by omega)
  · exact Nat.add_lt_add_left (by omega) _

theorem slotHash_spec (slot : Value) (m : State) :
    Returns (slotHash host slot) m (HashOf host m (slotKey m slot)) := by
  obtain ⟨k,m1,hslot,hreads,hword,_⟩ := slotPointer_spec slot m
  obtain ⟨q,m2,hhash,hreads2,hnew,hq,hkey⟩ := poseidonHash_spec k m1
  refine ⟨.ptr q,m2,?_,hreads.trans hreads2,q,rfl,fun ho => hnew (hreads.keeps.old ho),hq,?_⟩
  · rw [slotHash,Exec.bind_ok hslot,Exec.bind_ok hhash]
    rfl
  · rw [hkey,hword]

theorem acts_slotHash (slot : Value) :
    disk.Acts R (slotHash host slot) m (HashOf host m (slotKey m slot)) := by
  have hacts : disk.Acts R (slotHash host slot) m fun _ _ => True := by
    refine acts_bind (acts_slotPointer slot (slotPointer_spec slot m)) fun k m1 _ => ?_
    exact acts_bind (Q := fun _ _ => True) (acts_of_ignores (fun _ => rfl) fun _ _ _ => trivial)
      fun _ _ _ => acts_pure trivial
  exact ⟨hacts.same,fun _ _ ht => post_of_returns (slotHash_spec slot m) ht⟩

/-- `d` points to a step behind the hash of `k`, in cells that were free in `m`. -/
structure Hashed (host : Host) (k : Word) (m : State) (d : Value) (t : State) : Prop where
  pointer : ∃ p, d = .ptr p ∧ ¬ m.Old p ∧ t.Old (p.add 3)
  key : ∃ j, slotKey t d = (host.poseidon k.toList).offset j

variable {k : Word} {d d' : Value} {m' t t' : State} {j : ℕ}

theorem not_old_add {p : Pointer} {i : ℕ} (h : ¬ m.Old p) : ¬ m.Old (p.add i) := fun ho =>
  h (by simpa using ho.of_add (Nat.zero_le i))

theorem HashOf.hashed (h : HashOf host m k d m') {m0 : State} (h0 : m0.heap ≤ m.heap) :
    Hashed host k m0 d m' := by
  obtain ⟨p,rfl,hnew,hold,hword⟩ := h.pointer
  exact ⟨⟨p,rfl,fun ho => hnew (old_of_heap h0 ho),hold⟩,0,by rw [Word.offset_zero]; exact hword⟩

theorem Hashed.old (h : Hashed host k m d t) : SlotOld t d := by
  obtain ⟨p,rfl,_,hp⟩ := h.pointer
  exact hp

theorem Hashed.step (h : Hashed host k m d t) (ha : SlotAt t d j t' d') :
    d' = d ∧ Hashed host k m d t' := by
  obtain ⟨p,rfl,hnew,hp⟩ := h.pointer
  obtain ⟨i,hi⟩ := h.key
  cases ha.same p rfl
  refine ⟨rfl,⟨p,rfl,hnew,old_of_heap ha.heap hp⟩,i+(j : ℕ),?_⟩
  rw [ha.key,hi,Word.offset_offset]

/-- A key behind a hash is in the region of the slot that was hashed, with all behind it. -/
theorem Hashed.region (h : Hashed host k m d t) {n n' : ℕ} (hn : 0 < n) :
    region host (slotKey t d) n' ⊆ region host k n := by
  obtain ⟨j,hj⟩ := h.key
  rw [hj]
  exact (region_under ((under_hash k).offset j)).trans (under_subset_region hn)

theorem Hashed.mem_region (h : Hashed host k m d t) {n : ℕ} (hn : 0 < n) :
    slotKey t d ∈ Storage.region host k n :=
  h.region hn (Storage.mem_region Nat.one_pos)

/-- Moving a slot in cells that were free leaves an older slot alone. -/
theorem SlotAt.inner {p : Pointer} {i : ℕ} (h : SlotAt m slot i t slot) (hs : SlotOld m slot)
    (hp : ¬ m.Old p) (ha : SlotAt t (.ptr p) j t' d') : SlotAt m slot i t' slot := by
  have hne : ∀ q, m.Old q → ∀ p', Value.ptr p = .ptr p' → q ≠ p'.add 3 := by
    rintro q hq p' hp' rfl
    cases hp'
    exact not_old_add hp hq
  have hmem : ∀ q, m.Old q → t'.mem q = t.mem q := fun q hq =>
    ha.mem q (old_of_heap h.heap hq) (hne q hq)
  refine ⟨rfl,h.same,?_,Nat.le_trans h.heap ha.heap,ha.stack.trans h.stack,?_⟩
  · rw [← h.key]
    cases slot with
    | ptr p' =>
      have h0 : m.Old p' := by simpa using Old.of_add hs (Nat.zero_le 3)
      simp only [slotKey,State.word,State.cell,hmem _ h0,
        hmem _ (Old.of_add hs (show 1 ≤ 3 by omega)),hmem _ (Old.of_add hs (show 2 ≤ 3 by omega)),
        hmem _ hs]
    | const w => rfl
    | int x => rfl
  · intro q hq hp'
    rw [hmem q hq,h.mem q hq hp']

theorem SlotAt.keeps {i : ℕ} (h : SlotAt m slot i t slot) (hs : SlotOld m slot) (hk : Keeps t t') :
    SlotAt m slot i t' slot :=
  h.trans (SlotAt.of_keeps (h.old hs) hk)

/-! ### Loops -/

/-- The loop over elements that stand one behind the other. -/
theorem acts_staticLoop {per n : ℕ} {m0 : State} {body : ℕ → Value → Code Value} (hn : n ≠ 0)
    (h0 : SlotAt m0 slot 0 m slot) (hbody : ∀ i s t j, j + per ≤ n*per → SlotAt m0 slot j t s →
      disk.Acts R (body i s) t fun s' t' => ∃ i ≤ per, SlotAt m0 slot (j+i) t' s') :
    disk.Acts R (emitStaticLoopWithInt 0 n slot body) m
      fun _ t => ∃ j ≤ n*per, SlotAt m0 slot j t slot := by
  have hmax : max 1 (n-0) = n := by omega
  unfold emitStaticLoopWithInt
  rw [hmax]
  have hstored := h0.trans (SlotAt.stored m slot)
  refine acts_bind (acts_loop (I := fun i s t => ∃ j ≤ i*per, SlotAt m0 slot j t s)
    ⟨0,Nat.zero_le _,hstored⟩ ?_) ?_
  · rintro i s t _ hi ⟨j,hj,ha⟩
    have hle : j + per ≤ n*per := by
      have h1 : (i+1)*per ≤ n*per := Nat.mul_le_mul_right _ (by omega)
      have h2 : (i+1)*per = i*per + per := Nat.succ_mul i per
      omega
    refine (hbody i s t j hle ha).mono ?_
    rintro s' t' ⟨i',hi',ha'⟩
    refine ⟨j+i',?_,ha'⟩
    have h2 : (i+1)*per = i*per + per := Nat.succ_mul i per
    omega
  · rintro s t ⟨j,hj,ha⟩
    obtain ⟨i,hi,hb⟩ := ha.back
    rw [Nat.zero_add] at hj
    exact acts_pure ⟨i,Nat.le_trans hi hj,hb⟩

/-- The loop over hashed elements. -/
theorem acts_hashLoop {m0 : State} {start stop : ℕ} {body : ℕ → Value → Code Value}
    (h0 : SlotAt m0 slot 0 m slot) (hd : Hashed host k m0 d m)
    (hbody : ∀ i t, i < stop → SlotAt m0 slot 0 t slot → Hashed host k m0 d t →
      disk.Acts R (body i d) t fun s' t' =>
        s' = d ∧ SlotAt m0 slot 0 t' slot ∧ Hashed host k m0 d t') :
    disk.Acts R (emitLoopCondFirstWithInt start stop d body) m
      fun _ t => SlotAt m0 slot 0 t slot ∧ Hashed host k m0 d t := by
  have hstored : d.stored = d := by
    obtain ⟨p,rfl,_⟩ := hd.pointer
    rfl
  unfold emitLoopCondFirstWithInt
  rw [hstored]
  refine acts_bind (acts_loop
    (I := fun _ s t => s = d ∧ SlotAt m0 slot 0 t slot ∧ Hashed host k m0 d t) ⟨rfl,h0,hd⟩ ?_)
    fun s t ⟨_,ha,hh⟩ => acts_pure ⟨ha,hh⟩
  rintro i s t _ hi ⟨rfl,ha,hh⟩
  exact hbody i t (by omega) ha hh

end Steps

section Walks

variable {host : Host} {m : State} {R : Set Word} {slot : Value}

theorem acts_advance (ty : Ty) (hs : SlotOld m slot) :
    disk.Acts R (advance ty slot) m fun d m' => SlotAt m slot ty.advanceSteps m' d := by
  unfold advance Ty.advanceSteps
  by_cases h : ty.isReferenceType = true
  · rw [if_pos h,if_pos h]
    exact acts_pure (SlotAt.refl m slot)
  · rw [if_neg h,if_neg h]
    exact acts_slotOffest slot _ hs

/-- The step to the next member, after the walk of a member. -/
theorem acts_advanceField (ty : Ty) (hs : SlotOld m slot) :
    disk.Acts R (advanceField ty slot) m fun d m' =>
      ∃ j, ty.walkSteps + j ≤ ty.storageSlots ∧ SlotAt m slot j m' d := by
  unfold advanceField
  split
  · exact (acts_slotOffest slot _ hs).mono fun d m' h => ⟨_,by decide,h⟩
  · exact (acts_advance ty hs).mono fun d m' h => ⟨_,ty.walkSteps_add_advanceSteps,h⟩

theorem acts_advanceUnlessLast (last : Bool) (ty : Ty) (hs : SlotOld m slot) :
    disk.Acts R (advanceUnlessLast last ty slot) m fun d m' =>
      ∃ j, ty.walkSteps + j ≤ ty.storageSlots ∧ SlotAt m slot j m' d := by
  unfold advanceUnlessLast
  by_cases h : last = true
  · rw [if_pos h]
    have hle := ty.walkSteps_add_advanceSteps
    exact acts_pure ⟨0,by omega,SlotAt.refl m slot⟩
  · rw [if_neg h]
    exact acts_advanceField ty hs

theorem acts_buildLoadInt (p : Pointer) : disk.Acts R (buildLoadInt p) m fun v t =>
    t = m ∧ v.isPointer = false := by
  refine acts_of_ignores (fun f => rfl) fun b t ht => ?_
  cases ht
  exact ⟨rfl,rfl⟩

theorem acts_loadElement (ty : Ty) (p : Pointer) :
    disk.Acts R (loadElement ty p) m fun _ t => t = m := by
  unfold loadElement
  split
  · exact acts_of_ignores (fun f => rfl) fun b t ht => by
      cases ht
      rfl
  · exact acts_pure rfl

theorem acts_loadMember (ty : Ty) (p : Pointer) :
    disk.Acts R (loadMember ty p) m fun _ t => t = m := by
  unfold loadMember
  split <;> exact acts_of_ignores (fun f => rfl) fun b t ht => by
    cases ht
    rfl

theorem acts_scalarOperand (v : Value) :
    disk.Acts R (scalarOperand v) m fun x t => t = m ∧ x.isPointer = false := by
  cases v with
  | ptr p => exact acts_buildLoadInt p
  | const w => exact acts_pure ⟨rfl,rfl⟩
  | int x => exact acts_pure ⟨rfl,rfl⟩

/-- The walk of one slot that is not moved. -/
theorem acts_hashed_element {k : Word} {d : Value} {n : ℕ} {m0 : State} {c : Code Unit}
    (hs : SlotOld m0 slot) (ha : SlotAt m0 slot 0 m slot) (hh : Hashed host k m0 d m)
    (hc : disk.Acts (region host k n) c m fun _ t => Keeps m t) :
    disk.Acts (region host k n) (do c; slotOffest d 1) m fun s' t' =>
      s' = d ∧ SlotAt m0 slot 0 t' slot ∧ Hashed host k m0 d t' := by
  refine acts_bind hc fun _ t hk => ?_
  have hh' : Hashed host k m0 d t := (hh.step (SlotAt.of_keeps hh.old hk)).2
  have ha' : SlotAt m0 slot 0 t slot := ha.keeps hs hk
  have hone : ((1 : ℕ) : Felt) = 1 := Nat.cast_one
  rw [← hone]
  refine (acts_slotOffest d 1 hh'.old).mono fun s' t' hstep => ?_
  obtain ⟨rfl,hh2⟩ := hh'.step hstep
  obtain ⟨p,rfl,hnew,_⟩ := hh.pointer
  exact ⟨rfl,ha'.inner hs hnew hstep,hh2⟩

/-- The store of a string. -/
theorem acts_setStorageDynamicBytes {n : ℕ} (hn : 0 < n) (hs : SlotOld m slot) (dest : Value) :
    disk.Acts (region host (slotKey m slot) n) (setStorageDynamicBytes host slot dest) m
      fun _ m' => SlotAt m slot 0 m' slot := by
  have hkey : slotKey m slot ∈ region host (slotKey m slot) n := mem_region hn
  refine acts_bind (acts_storageLoadCell hkey) fun previousLength m1 ⟨hr1,_⟩ => ?_
  refine acts_bind (acts_buildLoadInt dest.pointer) fun len m1' ⟨hm1,hlen⟩ => ?_
  subst hm1
  have hs1 := hs.mono hr1.keeps
  have hk1 : slotKey m1' slot = slotKey m slot := slotKey_keeps hs hr1.keeps
  refine acts_bind (acts_storageStoreInternal (hk1 ▸ hkey) hs1 (slotOld_of_not_pointer hlen))
    fun _ m2 ⟨hkeeps2,_⟩ => ?_
  have hs2 := hs1.mono hkeeps2
  have hk2 : slotKey m2 slot = slotKey m slot := (slotKey_keeps hs1 hkeeps2).trans hk1
  refine acts_bind (acts_slotHash slot) fun d m3 hhash => ?_
  rw [hk2] at hhash
  have hkeeps3 := (hr1.keeps.trans hkeeps2).trans hhash.reads.keeps
  have hhashed := hhash.hashed (Nat.le_trans hr1.keeps.heap hkeeps2.heap)
  refine acts_bind (acts_hashLoop (SlotAt.of_keeps hs hkeeps3) hhashed fun i t _ ha hh => ?_)
    fun _ m4 ⟨ha4,hh4⟩ => (acts_hashLoop ha4 hh4 fun i t _ ha hh => ?_).mono fun _ _ h => h.1
  · refine acts_bind (acts_buildLoadInt _) fun elem t' ⟨ht,helem⟩ => ?_
    subst ht
    exact acts_hashed_element hs ha hh ((acts_storageStoreInternal (hh.mem_region hn) hh.old
      (slotOld_of_not_pointer helem)).mono fun _ _ h => h.1)
  · exact acts_hashed_element hs ha hh
      ((acts_storageClearInternal (hh.mem_region hn) hh.old).mono fun _ _ h => h.1)

/-! ### Deletes -/

theorem arrayDeref_reverse (elem : Ty) (dim : ArrayLength) (rest : List ArrayLength) :
    Ty.arrayDeref (.array elem (dim::rest).reverse) =
      .ref (if rest = [] then elem else .array elem rest.reverse) := by
  cases rest with
  | nil => rfl
  | cons dim' rest =>
    have hlen : (dim::dim'::rest).reverse.length > 1 := by simp
    have hlast : (dim::dim'::rest).reverse.dropLast = (dim'::rest).reverse := by
      rw [List.reverse_cons,List.dropLast_concat]
    rw [Ty.arrayDeref,if_pos hlen,hlast,if_neg (by simp)]

/-- The slots a row may move the operand by. -/
def rowSteps (elem : Ty) (rest : List ArrayLength) : ℕ :=
  if rest = [] then elem.walkSteps else elem.storageSlots * Ty.dimsSize rest

theorem acts_advanceRow (elem : Ty) (dim : ArrayLength) (rest : List ArrayLength)
    (hs : SlotOld m slot) :
    disk.Acts R (advance (Ty.arrayDeref (.array elem (dim::rest).reverse)) slot) m fun d m' =>
      ∃ j, rowSteps elem rest + j ≤ elem.storageSlots * Ty.dimsSize rest ∧ SlotAt m slot j m' d := by
  refine (acts_advance _ hs).mono fun d m' h => ⟨_,?_,h⟩
  rw [arrayDeref_reverse]
  unfold rowSteps Ty.advanceSteps
  by_cases hrest : rest = []
  · subst hrest
    have hle := elem.walkSteps_add_advanceSteps
    unfold Ty.advanceSteps at hle
    simpa [Ty.isReferenceType,Ty.storageSlots,Ty.dimsSize] using hle
  · simp [hrest,Ty.isReferenceType]

/-- What the walk of an element does, for the walks of arrays. -/
def Walks (host : Host) (n steps : ℕ) (c : Value → Code Value) : Prop :=
  ∀ slot m, SlotOld m slot → disk.Acts (region host (slotKey m slot) n) (c slot) m
    fun d m' => ∃ j ≤ steps, SlotAt m slot j m' d

theorem storageDeleteArray_walks {deleteElem : Value → Code Value} {elem : Ty}
    (helem : elem.isSized = true) (hdel : Walks host elem.storageSlots elem.walkSteps deleteElem)
    (dims : List ArrayLength) (hdims : dims.all (· ≠ .fixed 0) = true) :
    Walks host (elem.storageSlots * Ty.dimsSize dims) (rowSteps elem dims)
      (storageDeleteArray host deleteElem elem dims) := by
  induction dims with
  | nil =>
    intro slot m hs
    have h1 : elem.storageSlots * Ty.dimsSize [] = elem.storageSlots := Nat.mul_one _
    rw [h1]
    exact hdel slot m hs
  | cons dim rest ih =>
    have hall := hdims
    simp only [List.all_cons,Bool.and_eq_true,decide_eq_true_eq] at hdims
    have hrow := ih hdims.2
    have hn : 0 < elem.storageSlots * Ty.dimsSize (dim::rest) :=
      Nat.mul_pos (Ty.storageSlots_pos helem) (Ty.dimsSize_pos hall)
    have hsteps : rowSteps elem (dim::rest) = elem.storageSlots * Ty.dimsSize (dim::rest) := by
      simp [rowSteps]
    rw [hsteps]
    intro slot m hs
    cases dim with
    | fixed n =>
      have hsize : elem.storageSlots * Ty.dimsSize (.fixed n::rest) =
          n * (elem.storageSlots * Ty.dimsSize rest) := by
        simp [Ty.dimsSize,Ty.dimSize,Nat.mul_left_comm]
      have hn0 : n ≠ 0 := fun h0 => hdims.1 (by rw [h0])
      rw [storageDeleteArray,hsize]
      refine acts_bind (acts_staticLoop hn0 (SlotAt.refl m slot) fun i s t j hj ha => ?_)
        fun _ t h => acts_pure h
      have hold := ha.old hs
      refine acts_bind ((hrow s t hold).subset ?_) fun s1 t1 ⟨j1,hj1,ha1⟩ => ?_
      · rw [ha.key]
        exact region_offset j hj
      · refine (acts_advanceRow elem (.fixed n) rest (ha1.old hold)).mono ?_
        rintro s2 t2 ⟨j2,hj2,ha2⟩
        exact ⟨j1+j2,by omega,ha.trans (ha1.trans ha2)⟩
    | dynamic =>
      have hkey : slotKey m slot ∈ region host (slotKey m slot) (elem.storageSlots * Ty.dimsSize (.dynamic::rest)) :=
        mem_region hn
      rw [storageDeleteArray]
      refine acts_bind (acts_storageLoadCell hkey) fun length m1 ⟨hr1,_⟩ => ?_
      refine acts_bind (acts_slotHash slot) fun d m2 hhash => ?_
      rw [slotKey_keeps hs hr1.keeps] at hhash
      have hkeeps := hr1.keeps.trans hhash.reads.keeps
      refine acts_bind (acts_hashLoop (SlotAt.of_keeps hs hkeeps)
        (hhash.hashed hr1.keeps.heap) fun i t _ ha hh => ?_) fun _ m3 ⟨ha3,_⟩ => ?_
      · obtain ⟨p,rfl,hnew,_⟩ := hh.pointer
        refine acts_bind ((hrow _ t hh.old).subset (hh.region hn)) fun s1 t1 ⟨j1,_,ha1⟩ => ?_
        obtain ⟨rfl,hh1⟩ := hh.step ha1
        refine (acts_advanceRow elem .dynamic rest hh1.old).mono ?_
        rintro s2 t2 ⟨j2,_,ha2⟩
        obtain ⟨rfl,hh2⟩ := hh1.step ha2
        exact ⟨rfl,(ha.inner hs hnew ha1).inner hs hnew ha2,hh2⟩
      · have hk3 : slotKey m3 slot ∈ region host (slotKey m slot) (elem.storageSlots *
            Ty.dimsSize (.dynamic::rest)) := by
          rw [ha3.key,Nat.cast_zero,Word.offset_zero]
          exact hkey
        refine acts_bind (acts_storageClearInternal hk3 (ha3.old hs)) fun _ m4 ⟨hkeeps4,_⟩ => ?_
        exact acts_pure ⟨0,Nat.zero_le _,ha3.keeps hs hkeeps4⟩

theorem dimsSize_reverse (dims : List ArrayLength) : Ty.dimsSize dims.reverse = Ty.dimsSize dims :=
  ((List.reverse_perm dims).map Ty.dimSize).prod_eq

theorem walkSteps_le (ty : Ty) : ty.walkSteps ≤ ty.storageSlots := by
  unfold Ty.walkSteps
  by_cases h : ty.moves = true <;> simp [h]

theorem rowSteps_le (elem : Ty) (rest : List ArrayLength) :
    rowSteps elem rest ≤ elem.storageSlots * Ty.dimsSize rest := by
  unfold rowSteps
  by_cases h : rest = []
  · subst h
    simpa [Ty.dimsSize] using walkSteps_le elem
  · rw [if_neg h]

/-- The walk of a value that is one slot. -/
theorem clear_walks {n steps : ℕ} (hn : 0 < n) :
    Walks host n steps fun slot => (do storageClearInternal slot; pure slot) := by
  intro slot m hs
  refine acts_bind (acts_storageClearInternal (mem_region hn) hs) fun _ m1 ⟨hk,_⟩ => ?_
  exact acts_pure ⟨0,Nat.zero_le _,SlotAt.of_keeps hs hk⟩

mutual
theorem storageDelete_walks : ∀ ty : Ty, ty.isSized = true →
    Walks host ty.storageSlots ty.walkSteps (storageDelete host ty)
  | .ref ty, h => by
    intro slot m hs
    rw [storageDelete]
    exact storageDelete_walks ty h slot m hs
  | .storageRef ty, h => by
    intro slot m hs
    rw [storageDelete]
    exact storageDelete_walks ty h slot m hs
  | .array elem dims, h => by
    rw [Ty.isSized,Bool.and_eq_true] at h
    intro slot m hs
    have hall : dims.reverse.all (· ≠ .fixed 0) = true := by rw [List.all_reverse]; exact h.2
    have hw := storageDeleteArray_walks h.1 (storageDelete_walks elem h.1) dims.reverse hall slot m hs
    rw [dimsSize_reverse] at hw
    rw [storageDelete,Ty.storageSlots]
    refine hw.mono ?_
    rintro d m' ⟨j,hj,ha⟩
    have hle := rowSteps_le elem dims.reverse
    rw [dimsSize_reverse] at hle
    exact ⟨j,Nat.le_trans hj hle,ha⟩
  | .struct fields, h => by
    rw [Ty.isSized,Bool.and_eq_true] at h
    intro slot m hs
    rw [storageDelete]
    exact storageDeleteFields_walks fields h.2 slot m hs
  | .mapping _ _, _ => by
    intro slot m hs
    rw [storageDelete]
    exact acts_pure ⟨0,Nat.zero_le _,SlotAt.refl m slot⟩
  | .string, _ | .dynamicBytes, _ | .address, _ | .contract, _ | .hash, _ | .uint32, _ | .bool, _
  | .enum, _ | .field, _ | .void, _ => by
    intro slot m hs
    rw [storageDelete]
    exact clear_walks Nat.one_pos slot m hs

theorem storageDeleteFields_walks : ∀ fields : List Ty, Ty.isSizedFields fields = true →
    Walks host (Ty.storageSlotsFields fields) (Ty.storageSlotsFields fields)
      (storageDeleteFields host fields)
  | [], _ => by
    intro slot m hs
    rw [storageDeleteFields]
    exact acts_pure ⟨0,Nat.zero_le _,SlotAt.refl m slot⟩
  | ty::rest, h => by
    rw [Ty.isSizedFields,Bool.and_eq_true] at h
    intro slot m hs
    rw [storageDeleteFields,Ty.storageSlotsFields]
    refine acts_bind ((storageDelete_walks ty h.1 slot m hs).subset
      (region_mono (Nat.le_add_right _ _))) fun s1 m1 ⟨j1,hj1,ha1⟩ => ?_
    refine acts_bind (acts_advanceField ty (ha1.old hs)) fun s2 m2 ⟨j2,hj2,ha2⟩ => ?_
    have ha := ha1.trans ha2
    refine ((storageDeleteFields_walks rest h.2 s2 m2 (ha.old hs)).subset ?_).mono ?_
    · rw [ha.key]
      exact region_offset _ (by omega)
    · rintro d m' ⟨j3,hj3,ha3⟩
      exact ⟨j1+j2+j3,by omega,ha.trans ha3⟩
end

/-! ### Stores -/

theorem fixed_le_dimsSize {dims : List ArrayLength} {n : ℕ}
    (hdims : dims.all (· ≠ .fixed 0) = true) (h : dims.getLast? = some (.fixed n)) :
    n ≤ Ty.dimsSize dims := by
  obtain ⟨rest,rfl⟩ := List.getLast?_eq_some_iff.mp h
  simp only [List.all_append,Bool.and_eq_true] at hdims
  have hsize : Ty.dimsSize (rest ++ [.fixed n]) = Ty.dimsSize rest * n := by
    simp [Ty.dimsSize,Ty.dimSize]
  rw [hsize]
  exact Nat.le_mul_of_pos_left n (Ty.dimsSize_pos hdims.1)

theorem fixed_ne_zero {dims : List ArrayLength} {n : ℕ}
    (hdims : dims.all (· ≠ .fixed 0) = true) (h : dims.getLast? = some (.fixed n)) : n ≠ 0 := by
  rintro rfl
  have hmem := List.mem_of_getLast? h
  have hne := List.all_eq_true.mp hdims _ hmem
  simp at hne

mutual
theorem storageStore_walks : ∀ ty : Ty, ty.isSized = true → ∀ (dest slot : Value) (m : State),
    SlotOld m slot → disk.Acts (region host (slotKey m slot) ty.storageSlots)
      (storageStore host ty slot dest) m fun d m' => ∃ j ≤ ty.walkSteps, SlotAt m slot j m' d
  | .ref ty, h, dest => by
    intro slot m hs
    rw [storageStore]
    exact storageStore_walks ty h dest slot m hs
  | .storageRef ty, h, dest => by
    intro slot m hs
    rw [storageStore]
    exact storageStore_walks ty h dest slot m hs
  | .array elem dims, h, dest => by
    have hpos := Ty.storageSlots_pos h
    rw [Ty.isSized,Bool.and_eq_true] at h
    intro slot m hs
    have hsteps : (Ty.array elem dims).walkSteps = (Ty.array elem dims).storageSlots := rfl
    by_cases hfixed : ∃ n, dims.getLast? = some (.fixed n)
    · obtain ⟨n,hn⟩ := hfixed
      have hle : n*elem.storageSlots ≤ (Ty.array elem dims).storageSlots := by
        rw [Ty.storageSlots,Nat.mul_comm]
        exact Nat.mul_le_mul_left _ (fixed_le_dimsSize h.2 hn)
      rw [storageStore_fixed host hn,hsteps]
      refine acts_bind ((acts_staticLoop (fixed_ne_zero h.2 hn) (SlotAt.refl m slot)
        fun i s t j hj ha => ?_).subset (region_mono hle)) fun _ t ⟨j,hj,ha⟩ =>
          acts_pure ⟨j,Nat.le_trans hj hle,ha⟩
      have hold := ha.old hs
      refine acts_bind (acts_loadElement _ _) fun v t' ht => ?_
      subst ht
      refine acts_bind ((storageStore_walks elem h.1 v s t' hold).subset ?_)
        fun s1 t1 ⟨j1,hj1,ha1⟩ => ?_
      · rw [ha.key]
        exact region_offset j hj
      · refine (acts_advance elem (ha1.old hold)).mono fun s2 t2 ha2 => ?_
        have hstep := elem.walkSteps_add_advanceSteps
        exact ⟨j1+elem.advanceSteps,by omega,ha.trans (ha1.trans ha2)⟩
    · rw [storageStore_dynamic host fun n hn => hfixed ⟨n,hn⟩]
      have hkey : slotKey m slot ∈ region host (slotKey m slot) (Ty.array elem dims).storageSlots :=
        mem_region hpos
      refine acts_bind (acts_storageLoadCell hkey) fun previousLength m1 ⟨hr1,_⟩ => ?_
      refine acts_bind (acts_buildLoadInt dest.pointer) fun len m1' ⟨hm1,hlen⟩ => ?_
      subst hm1
      have hs1 := hs.mono hr1.keeps
      have hk1 : slotKey m1' slot = slotKey m slot := slotKey_keeps hs hr1.keeps
      refine acts_bind (acts_storageStoreInternal (hk1 ▸ hkey) hs1 (slotOld_of_not_pointer hlen))
        fun _ m2 ⟨hkeeps2,_⟩ => ?_
      have hk2 : slotKey m2 slot = slotKey m slot := (slotKey_keeps hs1 hkeeps2).trans hk1
      refine acts_bind (acts_slotHash slot) fun d m3 hhash => ?_
      rw [hk2] at hhash
      have hkeeps3 := (hr1.keeps.trans hkeeps2).trans hhash.reads.keeps
      have hhashed := hhash.hashed (Nat.le_trans hr1.keeps.heap hkeeps2.heap)
      obtain ⟨p,rfl,hnew,_⟩ := hhashed.pointer
      refine acts_bind (acts_hashLoop (SlotAt.of_keeps hs hkeeps3) hhashed fun i t _ ha hh => ?_)
        fun _ m4 ⟨ha4,hh4⟩ => acts_bind (acts_hashLoop ha4 hh4 fun i t _ ha hh => ?_)
          fun _ m5 ⟨ha5,_⟩ => acts_pure ⟨0,Nat.zero_le _,ha5⟩
      · refine acts_bind (acts_loadElement _ _) fun v t' ht => ?_
        subst ht
        refine acts_bind ((storageStore_walks elem h.1 v _ t' hh.old).subset (hh.region hpos))
          fun s1 t1 ⟨j1,_,ha1⟩ => ?_
        obtain ⟨rfl,hh1⟩ := hh.step ha1
        refine (acts_advance elem hh1.old).mono fun s2 t2 ha2 => ?_
        obtain ⟨rfl,hh2⟩ := hh1.step ha2
        exact ⟨rfl,(ha.inner hs hnew ha1).inner hs hnew ha2,hh2⟩
      · refine acts_bind ((storageDelete_walks elem h.1 _ t hh.old).subset (hh.region hpos))
          fun s1 t1 ⟨j1,_,ha1⟩ => ?_
        obtain ⟨rfl,hh1⟩ := hh.step ha1
        refine (acts_advance elem hh1.old).mono fun s2 t2 ha2 => ?_
        obtain ⟨rfl,hh2⟩ := hh1.step ha2
        exact ⟨rfl,(ha.inner hs hnew ha1).inner hs hnew ha2,hh2⟩
  | .struct fields, h, dest => by
    rw [Ty.isSized,Bool.and_eq_true] at h
    intro slot m hs
    rw [storageStore]
    exact storageStoreFields_walks fields h.2 0 dest slot m hs
  | .string, _, dest | .dynamicBytes, _, dest => by
    intro slot m hs
    rw [storageStore]
    exact acts_bind (acts_setStorageDynamicBytes Nat.one_pos hs dest) fun _ m1 ha =>
      acts_pure ⟨0,Nat.zero_le _,ha⟩
  | .address, _, dest | .contract, _, dest | .hash, _, dest => by
    intro slot m hs
    rw [storageStore]
    exact acts_bind (acts_storageStoreAny (mem_region Nat.one_pos) hs dest) fun _ m1 hk =>
      acts_pure ⟨0,Nat.zero_le _,SlotAt.of_keeps hs hk⟩
  | .uint32, _, dest | .bool, _, dest | .enum, _, dest | .field, _, dest => by
    intro slot m hs
    rw [storageStore]
    refine acts_bind (acts_scalarOperand dest) fun x m1 ⟨hm,_⟩ => ?_
    subst hm
    exact acts_bind (acts_storageStoreAny (mem_region Nat.one_pos) hs x) fun _ m2 hk =>
      acts_pure ⟨0,Nat.zero_le _,SlotAt.of_keeps hs hk⟩
  | .mapping _ _, _, dest | .void, _, dest => by
    intro slot m hs
    rw [storageStore]
    exact acts_fail _

theorem storageStoreFields_walks : ∀ fields : List Ty, Ty.isSizedFields fields = true →
    ∀ (offset : ℕ) (dest slot : Value) (m : State), SlotOld m slot →
    disk.Acts (region host (slotKey m slot) (Ty.storageSlotsFields fields))
      (storageStoreFields host fields offset slot dest) m fun d m' =>
        ∃ j ≤ Ty.storageSlotsFields fields, SlotAt m slot j m' d
  | [], _, offset, dest => by
    intro slot m hs
    rw [storageStoreFields]
    exact acts_pure ⟨0,Nat.zero_le _,SlotAt.refl m slot⟩
  | ty::rest, h, offset, dest => by
    rw [Ty.isSizedFields,Bool.and_eq_true] at h
    intro slot m hs
    rw [storageStoreFields,Ty.storageSlotsFields]
    refine acts_bind (acts_loadMember _ _) fun v m' hm => ?_
    subst hm
    refine acts_bind ((storageStore_walks ty h.1 v slot m' hs).subset
      (region_mono (Nat.le_add_right _ _))) fun s1 m1 ⟨j1,hj1,ha1⟩ => ?_
    refine acts_bind (acts_advanceUnlessLast _ ty (ha1.old hs)) fun s2 m2 ⟨j2,hj2,ha2⟩ => ?_
    have ha := ha1.trans ha2
    refine ((storageStoreFields_walks rest h.2 _ dest s2 m2 (ha.old hs)).subset ?_).mono ?_
    · rw [ha.key]
      exact region_offset _ (by omega)
    · rintro d m3 ⟨j3,hj3,ha3⟩
      exact ⟨j1+j2+j3,by omega,ha.trans ha3⟩
end

/-! ### Loads -/

theorem acts_vectorNew (size : Felt) : disk.Acts R (vectorNew size) m fun p m' =>
    p = .heap m.heap ∧ m'.heap = m.heap + size.val + 1 ∧ Keeps m m' ∧ m'.storage = m.storage := by
  refine acts_of_ignores (fun f => rfl) fun p m' h => ?_
  cases h
  refine ⟨rfl,rfl,⟨?_,rfl,fun q hq => ?_⟩,rfl⟩
  · show m.heap ≤ m.heap + size.val + 1
    omega
  · refine write_mem_of_ne _ _ ?_
    rintro rfl
    exact absurd (show m.heap < m.heap from hq) (by omega)

theorem acts_buildStore (q : Pointer) (v : Value) :
    disk.Acts R (buildStore q v) m fun _ t => t = m.write q v :=
  acts_of_ignores (fun f => rfl) fun _ _ h => by
    cases h
    rfl

/-- A cell that is no part of the slot may be written. -/
theorem Hashed.write {k : Word} {p q : Pointer} {m0 : State} (h : Hashed host k m0 (.ptr p) m)
    (hq : ∀ i, p.add i ≠ q) (v : Value) : Hashed host k m0 (.ptr p) (m.write q v) := by
  obtain ⟨p',hp',hnew,hold⟩ := h.pointer
  obtain ⟨j,hj⟩ := h.key
  refine ⟨⟨p',hp',hnew,hold⟩,j,?_⟩
  have h0 : p ≠ q := by simpa using hq 0
  rw [← hj]
  simp only [slotKey,State.word,write_cell_of_ne _ _ h0,write_cell_of_ne _ _ (hq 1),
    write_cell_of_ne _ _ (hq 2),write_cell_of_ne _ _ (hq 3)]

/-- An entry that is loaded from a hashed slot is put into a cell between the old cells and
those of the slot. -/
theorem acts_loadEntry {k : Word} {p q : Pointer} {n n' : ℕ} {m0 : State}
    {load : Value → Code (Value × Value)} (hn : 0 < n) (hs : SlotOld m0 slot)
    (hload : disk.Acts (region host (slotKey m (.ptr p)) n') (load (.ptr p)) m
      fun r m' => ∃ j ≤ n', SlotAt m (.ptr p) j m' r.2)
    (ha : SlotAt m0 slot 0 m slot) (hh : Hashed host k m0 (.ptr p) m) (hq0 : ¬ m0.Old q)
    (hq : ∀ i, p.add i ≠ q) :
    disk.Acts (region host k n) (do
      let (entry,slot) ← load (.ptr p)
      buildStore q entry
      pure slot) m fun s' t' =>
        s' = .ptr p ∧ SlotAt m0 slot 0 t' slot ∧ Hashed host k m0 (.ptr p) t' := by
  refine acts_bind (hload.subset (hh.region hn)) ?_
  rintro ⟨entry,s1⟩ t1 ⟨j1,_,ha1⟩
  obtain ⟨rfl,hh1⟩ := hh.step ha1
  obtain ⟨p',hp',hnew,_⟩ := hh.pointer
  cases hp'
  refine acts_bind (acts_buildStore q entry) fun _ t2 ht => acts_pure ?_
  subst ht
  exact ⟨rfl,(ha.inner hs hnew ha1).write hs hq0 entry,hh1.write hq entry⟩

/-- What the load of an element does, for the loads of arrays. -/
def Loads (host : Host) (n : ℕ) (c : Value → Code (Value × Value)) : Prop :=
  ∀ slot m, SlotOld m slot → disk.Acts (region host (slotKey m slot) n) (c slot) m
    fun r m' => ∃ j ≤ n, SlotAt m slot j m' r.2

/-- The loop of a load over a vector that was made behind the old cells. -/
theorem acts_loadVector {k : Word} {d : Value} {n n' : ℕ} {m0 m1 : State} {length : Felt}
    {load : Value → Code (Value × Value)} (hn : 0 < n) (hs : SlotOld m0 slot)
    (hload : Loads host n' load) (h0 : m0.heap ≤ m1.heap) (hk : Keeps m0 m)
    (hheap : m1.heap + length.val + 1 ≤ m.heap) {m2 : State} (hhash : HashOf host m k d m2) :
    disk.Acts (region host k n) (emitLoopCondFirstWithInt 0 length.val d fun elemNo slot => do
      let (entry,slot) ← load slot
      buildStore ((vectorData (.heap m1.heap)).add elemNo) entry
      pure slot) m2 fun _ t => SlotAt m0 slot 0 t slot := by
  obtain ⟨p,hp,hnew,_⟩ := hhash.pointer
  subst hp
  have hhashed := hhash.hashed hk.heap
  refine (acts_hashLoop (SlotAt.of_keeps hs (hk.trans hhash.reads.keeps)) hhashed
    fun i t hi ha hh => ?_).mono fun _ t h => h.1
  refine acts_loadEntry hn hs (hload _ t hh.old) ha hh ?_ fun j hj => ?_
  · intro hold
    exact absurd (show m1.heap + 1 + i < m0.heap from hold) (by omega)
  · apply hnew
    have hold : m.Old (p.add j) := by
      rw [hj]
      show m1.heap + 1 + i < m.heap
      omega
    simpa using hold.of_add (Nat.zero_le j)

theorem storageLoadArray_loads {loadElem : Value → Code (Value × Value)} {elem : Ty}
    (helem : elem.isSized = true) (hload : Loads host elem.storageSlots loadElem)
    (dims : List ArrayLength) (hdims : dims.all (· ≠ .fixed 0) = true) :
    Loads host (elem.storageSlots * Ty.dimsSize dims) (storageLoadArray host loadElem elem dims) := by
  induction dims with
  | nil =>
    intro slot m hs
    have h1 : elem.storageSlots * Ty.dimsSize [] = elem.storageSlots := Nat.mul_one _
    rw [h1]
    exact hload slot m hs
  | cons dim rest ih =>
    have hall := hdims
    simp only [List.all_cons,Bool.and_eq_true,decide_eq_true_eq] at hdims
    have hrow := ih hdims.2
    have hn : 0 < elem.storageSlots * Ty.dimsSize (dim::rest) :=
      Nat.mul_pos (Ty.storageSlots_pos helem) (Ty.dimsSize_pos hall)
    intro slot m hs
    cases dim with
    | fixed n =>
      have hsize : elem.storageSlots * Ty.dimsSize (.fixed n::rest) =
          n * (elem.storageSlots * Ty.dimsSize rest) := by
        simp [Ty.dimsSize,Ty.dimSize,Nat.mul_left_comm]
      have hn0 : n ≠ 0 := fun h0 => hdims.1 (by rw [h0])
      rw [storageLoadArray,hsize]
      refine acts_bind (acts_heapMalloc _) ?_
      rintro newArray m1 ⟨hr1,hnew,_,_⟩
      have hfree : ∀ i, ¬ m.Old (newArray.add i) := by
        intro i hold
        rw [hnew] at hold
        exact absurd (show m.heap + i < m.heap from hold) (by omega)
      refine acts_bind (acts_staticLoop hn0 (SlotAt.of_keeps hs hr1.keeps) fun i s t j hj ha => ?_)
        fun _ t h => acts_pure h
      have hold := ha.old hs
      refine acts_bind ((hrow s t hold).subset ?_) ?_
      · rw [ha.key]
        exact region_offset j hj
      · rintro ⟨val,s1⟩ t1 ⟨j1,hj1,ha1⟩
        refine acts_bind (acts_buildStore _ val) fun _ t2 ht => acts_pure ?_
        subst ht
        exact ⟨j1,hj1,(ha.trans ha1).write hs (hfree _) val⟩
    | dynamic =>
      have hkey : slotKey m slot ∈ region host (slotKey m slot) (elem.storageSlots * Ty.dimsSize (.dynamic::rest)) :=
        mem_region hn
      have hone : elem.storageSlots ≤ elem.storageSlots * Ty.dimsSize (.dynamic::rest) :=
        Nat.le_mul_of_pos_right _ (Ty.dimsSize_pos hall)
      rw [storageLoadArray]
      refine acts_bind (acts_storageLoadCell hkey) ?_
      rintro length m1 ⟨hr1,_⟩
      refine acts_bind (acts_vectorNew length) ?_
      rintro dest m2 ⟨hdest,hheap,hk2,_⟩
      subst hdest
      refine acts_bind (acts_slotHash slot) fun d m3 hhash => ?_
      have hkeeps := hr1.keeps.trans hk2
      rw [slotKey_keeps hs hkeeps] at hhash
      exact acts_bind (acts_loadVector hn hs hload hr1.keeps.heap hkeeps (Nat.le_of_eq hheap.symm)
        hhash) fun _ t ha => acts_pure ⟨0,Nat.zero_le _,ha⟩

/-- The load of one slot. -/
theorem acts_loadSlot {α : Type} {c : Code α} {v : α → Value} (hs : SlotOld m slot)
    (hc : disk.Acts R c m fun _ t => SlotAt m slot 0 t slot) :
    disk.Acts R (do
      let ret ← c
      let slot ← slotOffest slot 1
      pure (v ret,slot)) m fun r m' => ∃ j ≤ 1, SlotAt m slot j m' r.2 := by
  refine acts_bind hc fun ret t ha => ?_
  have hone : ((1 : ℕ) : Felt) = 1 := Nat.cast_one
  rw [← hone]
  refine acts_bind (acts_slotOffest slot 1 (ha.old hs)) fun s t' ha' => acts_pure ?_
  exact ⟨1,Nat.le_refl _,by simpa using ha.trans ha'⟩

theorem acts_getStorageDynamicBytes {n : ℕ} (hn : 0 < n) (hs : SlotOld m slot) :
    disk.Acts (region host (slotKey m slot) n) (getStorageDynamicBytes host slot) m
      fun _ t => SlotAt m slot 0 t slot := by
  have hkey : slotKey m slot ∈ region host (slotKey m slot) n := mem_region hn
  refine acts_bind (acts_storageLoadCell hkey) fun length m1 ⟨hr1,_⟩ => ?_
  refine acts_bind (acts_vectorNew length) fun dest m2 ⟨hdest,hheap,hk2,_⟩ => ?_
  subst hdest
  refine acts_bind (acts_slotHash slot) fun d m3 hhash => ?_
  have hkeeps := hr1.keeps.trans hk2
  rw [slotKey_keeps hs hkeeps] at hhash
  have hcell : Loads host 1 fun slot => (do
      let entry ← storageLoadCell slot
      let slot ← slotOffest slot 1
      pure (.int entry,slot)) := by
    intro slot m hs
    exact acts_loadSlot hs ((acts_storageLoadCell (mem_region Nat.one_pos)).mono
      fun _ t ht => SlotAt.of_keeps hs ht.1.keeps)
  have hloop := acts_loadVector hn hs hcell hr1.keeps.heap hkeeps (Nat.le_of_eq hheap.symm) hhash
  simp only [Exec.bind_assoc,Exec.pure_bind] at hloop
  exact acts_bind hloop fun _ t ha => acts_pure ha

mutual
theorem storageLoad_loads : ∀ ty : Ty, ty.isSized = true →
    Loads host ty.storageSlots (storageLoad host ty)
  | .ref ty, h => by
    intro slot m hs
    rw [storageLoad]
    exact storageLoad_loads ty h slot m hs
  | .array elem dims, h => by
    rw [Ty.isSized,Bool.and_eq_true] at h
    intro slot m hs
    have hall : dims.reverse.all (· ≠ .fixed 0) = true := by rw [List.all_reverse]; exact h.2
    have hl := storageLoadArray_loads h.1 (storageLoad_loads elem h.1) dims.reverse hall slot m hs
    rw [dimsSize_reverse] at hl
    rw [storageLoad,Ty.storageSlots]
    exact hl
  | .struct fields, h => by
    rw [Ty.isSized,Bool.and_eq_true] at h
    intro slot m hs
    rw [storageLoad]
    refine acts_bind (acts_heapMalloc _) fun p m1 ⟨hr1,hnew,_,_⟩ => ?_
    have hfree : ∀ i, ¬ m.Old (p.add i) := by
      intro i hold
      rw [hnew] at hold
      exact absurd (show m.heap + i < m.heap from hold) (by omega)
    have hk : slotKey m1 slot = slotKey m slot := slotKey_keeps hs hr1.keeps
    have hf := storageLoadFields_loads fields h.2 p 0 hs (SlotAt.of_keeps hs hr1.keeps) hfree
    rw [hk] at hf
    refine acts_bind hf fun s t ⟨j,hj,ha⟩ => acts_pure ⟨j,hj,?_⟩
    rwa [Nat.zero_add] at ha
  | .string, _ | .dynamicBytes, _ => by
    intro slot m hs
    rw [storageLoad]
    exact acts_loadSlot hs (acts_getStorageDynamicBytes Nat.one_pos hs)
  | .address, _ | .contract, _ | .hash, _ => by
    intro slot m hs
    rw [storageLoad]
    exact acts_loadSlot hs ((acts_storageLoadInternal (mem_region Nat.one_pos)).mono
      fun _ _ ht => SlotAt.of_keeps hs ht.1.keeps)
  | .uint32, _ | .bool, _ | .enum, _ | .field, _ => by
    intro slot m hs
    rw [storageLoad]
    exact acts_loadSlot hs ((acts_storageLoadCell (mem_region Nat.one_pos)).mono
      fun _ _ ht => SlotAt.of_keeps hs ht.1.keeps)
  | .mapping _ _, _ | .storageRef _, _ | .void, _ => by
    intro slot m hs
    rw [storageLoad]
    exact acts_fail _

theorem storageLoadFields_loads : ∀ fields : List Ty, Ty.isSizedFields fields = true →
    ∀ (p : Pointer) (offset : ℕ) {j : ℕ} {m0 m : State} {slot0 slot : Value}, SlotOld m0 slot0 →
    SlotAt m0 slot0 j m slot → (∀ i, ¬ m0.Old (p.add i)) →
    disk.Acts (region host (slotKey m slot) (Ty.storageSlotsFields fields))
      (storageLoadFields host fields p offset slot) m fun d m' =>
        ∃ i ≤ Ty.storageSlotsFields fields, SlotAt m0 slot0 (j+i) m' d
  | [], _, p, offset, j, m0, m, slot0, slot, hs, ha, hp => by
    rw [storageLoadFields]
    exact acts_pure ⟨0,Nat.zero_le _,ha⟩
  | ty::rest, h, p, offset, j, m0, m, slot0, slot, hs, ha, hp => by
    rw [Ty.isSizedFields,Bool.and_eq_true] at h
    rw [storageLoadFields,Ty.storageSlotsFields]
    refine acts_bind ((storageLoad_loads ty h.1 slot m (ha.old hs)).subset
      (region_mono (Nat.le_add_right _ _))) ?_
    rintro ⟨val,s1⟩ t1 ⟨i,hi,ha1⟩
    have ha2 := (ha.trans ha1).write hs (hp offset) val
    refine acts_bind (acts_buildStore _ val) fun _ t2 ht => ?_
    subst ht
    refine ((storageLoadFields_loads rest h.2 p _ hs ha2 hp).subset ?_).mono ?_
    · rw [ha2.key,ha.key]
      have hkey : (slotKey m0 slot0).offset ((j+i : ℕ) : Felt) =
          ((slotKey m0 slot0).offset (j : ℕ)).offset (i : ℕ) := by
        rw [Word.offset_offset,Nat.cast_add]
      rw [hkey]
      exact region_offset i (by omega)
    · rintro d m' ⟨i',hi',ha'⟩
      exact ⟨i+i',by omega,by rwa [← Nat.add_assoc]⟩
end

end Walks

end Storage
end OlaLang
