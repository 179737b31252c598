import OlaLang.Storage

/-! Slots as keys, and the operations on one slot: what they read or write under the key of their
slot operand, and that of the memory they touch free heap cells only. -/
namespace OlaLang

open Exec (Returns bind_eq_ok bind_ok bind_apply modify_apply pure_apply)
open Builder Corelib

/-! ### Memory frames -/

namespace Pointer

theorem add_add (p : Pointer) (i j : ℕ) : (p.add i).add j = p.add (i+j) := by
  cases p <;> simp [Nat.add_assoc]

theorem add_inj {p : Pointer} {i j : ℕ} : p.add i = p.add j ↔ i = j := by
  cases p <;> simp

end Pointer

namespace State

/-- Cells outside the free part of the heap. -/
def Old (m : State) : Pointer → Prop
  | .stack _ => True
  | .heap n => n < m.heap

/-- Old cells keep their contents. -/
structure Keeps (m m' : State) : Prop where
  heap : m.heap ≤ m'.heap
  stack : m'.stack = m.stack
  mem : ∀ p, m.Old p → m'.mem p = m.mem p

/-- A run that keeps the memory and does not touch the storage. -/
structure Reads (m m' : State) : Prop where
  keeps : Keeps m m'
  storage : m'.storage = m.storage

variable {m m' m'' : State} {p q : Pointer} {w : Word} {i : ℕ}

theorem Old.of_add (h : m.Old (p.add i)) {j : ℕ} (hij : j ≤ i) : m.Old (p.add j) := by
  cases p with
  | stack n => trivial
  | heap n => exact Nat.lt_of_le_of_lt (Nat.add_le_add_left hij n) h

theorem Keeps.old (h : Keeps m m') (hp : m.Old p) : m'.Old p := by
  cases p with
  | stack n => trivial
  | heap n => exact Nat.lt_of_lt_of_le hp h.heap

theorem Keeps.refl (m : State) : Keeps m m := ⟨Nat.le_refl _,rfl,fun _ _ => rfl⟩

theorem Keeps.trans (h : Keeps m m') (h' : Keeps m' m'') : Keeps m m'' :=
  ⟨Nat.le_trans h.heap h'.heap,h'.stack.trans h.stack,
    fun p hp => (h'.mem p (h.old hp)).trans (h.mem p hp)⟩

theorem Keeps.cell (h : Keeps m m') (hp : m.Old p) : m'.cell p = m.cell p := by
  rw [State.cell,h.mem p hp,State.cell]

theorem Keeps.word (h : Keeps m m') (hp : m.Old (p.add 3)) : m'.word p = m.word p := by
  have h0 : m.Old p := by simpa using hp.of_add (j := 0) (by omega)
  simp only [State.word,h.cell h0,h.cell (hp.of_add (j := 1) (by omega)),
    h.cell (hp.of_add (j := 2) (by omega)),h.cell hp]

theorem Reads.refl (m : State) : Reads m m := ⟨Keeps.refl m,rfl⟩

theorem Reads.trans (h : Reads m m') (h' : Reads m' m'') : Reads m m'' :=
  ⟨h.keeps.trans h'.keeps,h'.storage.trans h.storage⟩

theorem word_writeWord (m : State) (p : Pointer) (w : Word) : (m.writeWord p w).word p = w := by
  have h0 : ∀ i, p = p.add i ↔ 0 = i := fun i => by
    rw [← Pointer.add_inj (p := p),Pointer.add_zero]
  simp [State.word,writeWord,State.cell,State.write,Pointer.add_inj,h0]

theorem mem_writeWord (m : State) {p q : Pointer} (w : Word) (h : ∀ i < 4, q ≠ p.add i) :
    (m.writeWord p w).mem q = m.mem q := by
  have h0 : q ≠ p := by simpa using h 0 (by omega)
  simp [writeWord,State.write,h0,h 1 (by omega),h 2 (by omega),h 3 (by omega)]

/-- Writing to a block of the free heap after taking it keeps the old cells. -/
theorem keeps_alloc (m : State) (size : ℕ) (w : Word) :
    Keeps m ({ m with heap := m.heap+size }.writeWord (.heap m.heap) w) := by
  refine ⟨Nat.le_add_right _ _,rfl,?_⟩
  intro q hq
  rw [mem_writeWord]
  rintro i - rfl
  exact absurd (show m.heap + i < m.heap from hq) (by omega)

end State

open State

namespace Storage

variable {m m' : State} {v slot key value : Value} {p : Pointer}

theorem four_val : (4 : Felt).val = 4 := by decide

/-! ### Keys -/

/-- The key a slot operand stands for. -/
def slotKey (m : State) : Value → Word
  | .ptr p => m.word p
  | v => Word.ofFelt v.felt

/-- A pointer slot whose four cells are old. -/
def SlotOld (m : State) : Value → Prop
  | .ptr p => m.Old (p.add 3)
  | _ => True

theorem slotKey_of_not_pointer (h : v.isPointer = false) : slotKey m v = Word.ofFelt v.felt := by
  cases v with
  | ptr p => cases h
  | const w => rfl
  | int x => rfl

theorem slotOld_of_not_pointer (h : v.isPointer = false) : SlotOld m v := by
  cases v with
  | ptr p => cases h
  | const w => trivial
  | int x => trivial

theorem SlotOld.mono (h : SlotOld m v) (hk : Keeps m m') : SlotOld m' v := by
  cases v with
  | ptr p => exact hk.old h
  | const w => trivial
  | int x => trivial

theorem slotKey_keeps (h : SlotOld m v) (hk : Keeps m m') : slotKey m' v = slotKey m v := by
  cases v with
  | ptr p => exact hk.word h
  | const w => rfl
  | int x => rfl

theorem heapMalloc_reads (size : Felt) (m : State) :
    Returns (heapMalloc size) m fun p m' => Reads m m' ∧ p = .heap m.heap ∧ m'.mem = m.mem ∧
      m'.heap = m.heap + size.val :=
  ⟨_,_,rfl,⟨⟨Nat.le_add_right _ _,rfl,fun _ _ => rfl⟩,rfl⟩,rfl,rfl,rfl⟩

theorem uintToSlot_spec (v : Value) (m : State) :
    Returns (uintToSlot v) m fun p m' => Reads m m' ∧ p = .heap m.heap ∧
      m'.word p = Word.ofFelt v.felt ∧ m'.heap = m.heap + 4 := by
  refine ⟨.heap m.heap,{ m with heap := m.heap+4 }.writeWord (.heap m.heap) (Word.ofFelt v.felt),?_,
    ⟨keeps_alloc m 4 _,rfl⟩,rfl,word_writeWord _ _ _,rfl⟩
  simp only [uintToSlot,heapMalloc,bind_apply,modify_apply,pure_apply,four_val]

/-- The pointer handed to the host holds the key of the slot. -/
theorem slotPointer_spec (v : Value) (m : State) :
    Returns (slotPointer v) m fun p m' => Reads m m' ∧ m'.word p = slotKey m v ∧
      (SlotOld m v → m'.Old (p.add 3)) := by
  cases v with
  | ptr p => exact ⟨p,m,rfl,Reads.refl m,rfl,fun h => h⟩
  | const w =>
    refine (uintToSlot_spec (.const w) m).mono fun p m' h => ⟨h.1,h.2.2.1,fun _ => ?_⟩
    rw [h.2.1]
    show m.heap + 3 < m'.heap
    omega
  | int x =>
    refine (uintToSlot_spec (.int x) m).mono fun p m' h => ⟨h.1,h.2.2.1,fun _ => ?_⟩
    rw [h.2.1]
    show m.heap + 3 < m'.heap
    omega

/-! ### One slot -/

theorem storageLoadInternal_spec (key : Value) (m : State) :
    Returns (storageLoadInternal key) m fun p m' => Reads m m' ∧ p = .heap m.heap ∧
      m'.word p = m.storage (slotKey m key) ∧ m'.Old (p.add 3) := by
  rcases heapMalloc_reads 4 m with ⟨_,m1,halloc,hreads1,rfl,hmem,hheap⟩
  rcases slotPointer_spec key m1 with ⟨k,m2,hslot,hreads2,hword,_⟩
  have hkey : slotKey m1 key = slotKey m key := by
    cases key with
    | ptr p => simp only [slotKey,State.word,State.cell,hmem]
    | const w => rfl
    | int x => rfl
  have hstorage : m2.storage = m.storage := hreads2.storage.trans hreads1.storage
  rw [four_val] at hheap
  refine ⟨.heap m.heap,m2.writeWord (.heap m.heap) (m2.storage (m2.word k)),?_,⟨?_,hstorage⟩,rfl,?_,?_⟩
  · rw [storageLoadInternal,bind_ok halloc,bind_ok hslot]
    rfl
  · have hkeeps := hreads1.keeps.trans hreads2.keeps
    refine ⟨hkeeps.heap,hkeeps.stack,?_⟩
    intro q hq
    rw [mem_writeWord,hkeeps.mem q hq]
    rintro i - rfl
    exact absurd (show m.heap + i < m.heap from hq) (by omega)
  · rw [word_writeWord,hword,hkey,hstorage]
  · show m.heap + 3 < m2.heap
    have := hreads2.keeps.heap
    omega

theorem storageLoadCell_spec (slot : Value) (m : State) :
    Returns (storageLoadCell slot) m fun x m' => Reads m m' ∧
      x = (m.storage (slotKey m slot)).c3 := by
  rcases storageLoadInternal_spec slot m with ⟨p,m1,hload,hreads,_,hword,_⟩
  refine ⟨(m1.word p).c3,m1,?_,hreads,by rw [hword]⟩
  rw [storageLoadCell,bind_ok hload]
  rfl

theorem storageStoreInternal_spec (key value : Value) (m : State) (hkey : SlotOld m key)
    (hvalue : SlotOld m value) :
    Returns (storageStoreInternal key value) m fun _ m' => Keeps m m' ∧
      m'.storage = Function.update m.storage (slotKey m key) (slotKey m value) := by
  rcases slotPointer_spec key m with ⟨k,m1,hk,hreads1,hword1,hold⟩
  rcases slotPointer_spec value m1 with ⟨x,m2,hx,hreads2,hword2,_⟩
  have hk2 : m2.word k = slotKey m key := by
    rw [hreads2.keeps.word (hold hkey),hword1]
  have hx2 : m2.word x = slotKey m value := by
    rw [hword2,slotKey_keeps hvalue hreads1.keeps]
  have hkeeps := hreads1.keeps.trans hreads2.keeps
  refine ⟨(),m2.setStorage (m2.word k) (m2.word x),?_,⟨hkeeps.heap,hkeeps.stack,hkeeps.mem⟩,?_⟩
  · rw [storageStoreInternal,bind_ok hk,bind_ok hx]
    rfl
  · rw [State.setStorage,hk2,hx2,hreads2.storage,hreads1.storage]

theorem storageClearInternal_spec (key : Value) (m : State) (hkey : SlotOld m key) :
    Returns (storageClearInternal key) m fun _ m' => Keeps m m' ∧
      m'.storage = Function.update m.storage (slotKey m key) Word.zero := by
  rcases slotPointer_spec key m with ⟨k,m1,hk,hreads1,hword1,hold⟩
  have halloc := keeps_alloc m1 4 Word.zero
  have hk2 : ({ m1 with heap := m1.heap+4 }.writeWord (.heap m1.heap) Word.zero).word k =
      slotKey m key := by
    rw [halloc.word (hold hkey),hword1]
  have hkeeps := hreads1.keeps.trans halloc
  have hcleared : storageClearInternal key m =
      .ok ((),({ m1 with heap := m1.heap+4 }.writeWord (.heap m1.heap) Word.zero).setStorage
        (slotKey m key) Word.zero) := by
    rw [storageClearInternal,bind_ok hk,← hk2]
    simp only [heapMalloc,bind_apply,modify_apply,four_val,setStorage,word_writeWord]
  refine ⟨(),_,hcleared,⟨hkeeps.heap,hkeeps.stack,hkeeps.mem⟩,?_⟩
  rw [← hreads1.storage]
  rfl

/-- A pointer slot is advanced in place: its last cell moves. -/
theorem slotOffest_ptr (p : Pointer) (offset : Felt) (m : State) :
    slotOffest (.ptr p) offset m =
      .ok (.ptr p,m.write (p.add 3) (.int (m.cell (p.add 3) + offset))) := rfl

theorem slotKey_slotOffest (v : Value) (offset : Felt) (m : State) :
    Returns (slotOffest v offset) m fun v' m' =>
      slotKey m' v' = (slotKey m v).offset offset ∧ m'.storage = m.storage ∧ m'.heap = m.heap := by
  cases v with
  | const w => exact ⟨_,m,rfl,rfl,rfl,rfl⟩
  | int x => exact ⟨_,m,rfl,rfl,rfl,rfl⟩
  | ptr p =>
    refine ⟨_,_,slotOffest_ptr p offset m,?_,rfl,rfl⟩
    have h0 : p ≠ p.add 3 := fun h => by
      have := (Pointer.add_inj (p := p) (i := 0) (j := 3)).mp (by rw [Pointer.add_zero,← h])
      omega
    have h1 : p.add 1 ≠ p.add 3 := fun h => by simp [Pointer.add_inj] at h
    have h2 : p.add 2 ≠ p.add 3 := fun h => by simp [Pointer.add_inj] at h
    simp [slotKey,State.word,Word.offset,write_cell_of_ne _ _ h0,write_cell_of_ne _ _ h1,
      write_cell_of_ne _ _ h2]

/-! ### One-cell values -/

variable (host : Host)

/-- What the store of a one-cell value puts into the slot. -/
def storedFelt (w : Value) (m : State) : Felt := match w with
  | .ptr p => m.cell p
  | w => w.felt

theorem scalarOperand_spec (w : Value) (m : State) :
    ∃ x, scalarOperand w m = .ok (x,m) ∧ x.isPointer = false ∧ x.felt = storedFelt w m := by
  cases w with
  | ptr p => exact ⟨_,rfl,rfl,rfl⟩
  | const w => exact ⟨_,rfl,rfl,rfl⟩
  | int x => exact ⟨_,rfl,rfl,rfl⟩

theorem storageStore_oneCell {ty : Ty} (h : ty.isOneCell = true) (slot w : Value) :
    storageStore host ty slot w = (do
      let x ← scalarOperand w
      storageStoreInternal slot x
      pure slot) := by
  cases ty <;> first | (cases h; done) | rw [storageStore]

theorem storageStore_oneCell_spec {ty : Ty} (h : ty.isOneCell = true) {slot : Value}
    (hslot : SlotOld m slot) (w : Value) : Returns (storageStore host ty slot w) m fun d m' =>
      d = slot ∧ Keeps m m' ∧
        m'.storage = Function.update m.storage (slotKey m slot) (Word.ofFelt (storedFelt w m)) := by
  rcases scalarOperand_spec w m with ⟨x,hx,hptr,hfelt⟩
  rcases storageStoreInternal_spec slot x m hslot (slotOld_of_not_pointer hptr) with
    ⟨_,m1,hstore,hkeeps,hstorage⟩
  refine ⟨slot,m1,?_,rfl,hkeeps,?_⟩
  · rw [storageStore_oneCell host h,bind_ok hx,bind_ok hstore]
    rfl
  · rw [hstorage,slotKey_of_not_pointer hptr,hfelt]

theorem storageLoad_oneCell {ty : Ty} (h : ty.isOneCell = true) (slot : Value) :
    storageLoad host ty slot = (do
      let ret ← storageLoadCell slot
      let slot ← slotOffest slot 1
      pure (.int ret,slot)) := by
  cases ty <;> first | (cases h; done) | rw [storageLoad]

theorem storageLoad_oneCell_spec {ty : Ty} (h : ty.isOneCell = true) (slot : Value) (m : State) :
    Returns (storageLoad host ty slot) m fun r m' =>
      r.1 = .int (m.storage (slotKey m slot)).c3 ∧ m'.storage = m.storage := by
  rcases storageLoadCell_spec slot m with ⟨x,m1,hcell,hreads,hx⟩
  rcases slotKey_slotOffest slot 1 m1 with ⟨slot',m2,hoff,_,hstorage,_⟩
  refine ⟨(.int x,slot'),m2,?_,by rw [hx],hstorage.trans hreads.storage⟩
  rw [storageLoad_oneCell host h,bind_ok hcell,bind_ok hoff]
  rfl

/-- A value of one cell comes back from its slot. -/
theorem oneCell_roundTrip {ty : Ty} (h : ty.isOneCell = true) {slot : Value} (hslot : SlotOld m slot)
    (w : Value) : Returns (do
      let slot ← storageStore host ty slot w
      storageLoad host ty slot) m fun r _ => r.1 = .int (storedFelt w m) := by
  obtain ⟨d,m1,hstore,rfl,hkeeps,hstorage⟩ := storageStore_oneCell_spec host h hslot w
  obtain ⟨r,m2,hload,hr,_⟩ := storageLoad_oneCell_spec host h d m1
  refine ⟨r,m2,by rw [bind_ok hstore,hload],?_⟩
  show r.1 = _
  rw [hr,slotKey_keeps hslot hkeeps,hstorage,Function.update_self]
  rfl

/-! ### Kinds of operands -/

theorem slotOffest_isPointer {offset : Felt} {slot d : Value}
    (h : slotOffest slot offset m = .ok (d,m')) : d.isPointer = slot.isPointer := by
  cases slot <;> cases h <;> rfl

/-- The store of an array whose outer dimension is fixed. -/
theorem storageStore_fixed {elem : Ty} {dims : List ArrayLength} {d : ℕ}
    (h : dims.getLast? = some (.fixed d)) (slot dest : Value) :
    storageStore host (.array elem dims) slot dest = (do
      emitStaticLoopWithInt 0 d slot fun index slot => do
        let elemValue ← loadElement elem
          (dest.pointer.add (index * Ty.llvmStride elem dims.dropLast))
        let slot ← storageStore host elem slot elemValue
        advance elem slot
      pure slot) := by
  rw [storageStore,h]

/-- The store of an array whose outer dimension is dynamic. -/
theorem storageStore_dynamic {elem : Ty} {dims : List ArrayLength}
    (h : ∀ d, dims.getLast? ≠ some (.fixed d)) (slot dest : Value) :
    storageStore host (.array elem dims) slot dest = (do
      let previousLength ← storageLoadCell slot
      let len ← buildLoadInt dest.pointer
      storageStoreInternal slot len
      let elemSlot ← slotHash host slot
      emitLoopCondFirstWithInt 0 len.felt.val elemSlot fun elemNo slot => do
        let elemValue ← loadElement elem ((vectorData dest.pointer).add elemNo)
        let slot ← storageStore host elem slot elemValue
        advance elem slot
      emitLoopCondFirstWithInt len.felt.val previousLength.val elemSlot fun _ slot => do
        let slot ← storageDelete host elem slot
        advance elem slot
      pure slot) := by
  rw [storageStore]
  cases hlast : dims.getLast? with
  | none => rfl
  | some dim =>
    cases dim with
    | fixed d => exact absurd hlast (h d)
    | dynamic => rfl

end Storage
end OlaLang
