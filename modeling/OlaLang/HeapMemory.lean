import OlaLang.Corelib
import Mathlib.Data.Set.Lattice
import Mathlib.Order.CompletePartialOrder
import Mathlib.Algebra.BigOperators.Group.List.Basic

/-! The allocators and the copying loop of the emitted module on field addresses: the heap pointer
is a global, every field element is an address, and all arithmetic wraps at the field order. -/
namespace OlaLang
namespace HeapMemory

/-- The global `heap_address` and the cells. -/
structure Memory where
  heapAddress : Felt
  cells : Felt → Felt

/-- `heap_malloc`: the block starts at the old heap address, the global moves up by its size. -/
def heapMalloc (size : Felt) (m : Memory) : Felt × Memory :=
  let currentHeapAddress := m.heapAddress
  let updatedAddress := currentHeapAddress + size
  (currentHeapAddress,{ m with heapAddress := updatedAddress })

/-- `vector_new`: an own copy of the allocator, for one cell more, which takes the length. -/
def vectorNew (size : Felt) (m : Memory) : Felt × Memory :=
  let sizeAddOne := size + 1
  let currentHeapAddress := m.heapAddress
  let updatedAddress := currentHeapAddress + sizeAddOne
  (currentHeapAddress,
    { heapAddress := updatedAddress,cells := Function.update m.cells currentHeapAddress size })

/-- The loop of `memcpy` from `cond` on, with the number of rounds through `body`. The variable
`index_alloca` is a cell of the frame of `memcpy` alone. -/
def memcpyLoop (src dest len : Felt) : ℕ → Felt → (Felt → Felt) → Option (ℕ × (Felt → Felt))
  | 0, _, _ => none
  | fuel+1, index, cells =>
    if index.val < len.val then
      let srcValue := cells (src + index)
      let nextIndex := index + 1
      (memcpyLoop src dest len fuel nextIndex (Function.update cells (dest + index) srcValue)).map
        fun r => (r.1+1,r.2)
    else some (0,cells)

/-- `memcpy`. -/
def memcpy (src dest len : Felt) (m : Memory) : Option Memory :=
  (memcpyLoop src dest len (len.val+1) 0 m.cells).map fun r => { m with cells := r.2 }

/-- The cells after the first `n` rounds of the loop. -/
def copyCells (src dest : Felt) (cells : Felt → Felt) : ℕ → Felt → Felt
  | 0 => cells
  | n+1 => Function.update (copyCells src dest cells n) (dest + (n : Felt))
      (copyCells src dest cells n (src + (n : Felt)))

/-- The two ranges of `n` cells have no address in common. -/
def NonOverlapping (src dest : Felt) (n : ℕ) : Prop :=
  ∀ i < n, ∀ j < n, src + (i : Felt) ≠ dest + (j : Felt)

theorem add_natCast_inj {a : Felt} {i j : ℕ} (hi : i < FIELD_ORDER) (hj : j < FIELD_ORDER)
    (h : a + (i : Felt) = a + (j : Felt)) : i = j := by
  have hcast := congrArg ZMod.val (add_left_cancel h)
  rwa [Felt.val_natCast_of_lt hi,Felt.val_natCast_of_lt hj] at hcast

/-- The index counts the rounds: after `k` of them, `len - k` more are made if the fuel allows. -/
theorem memcpyLoop_eq (src dest len : Felt) (cells : Felt → Felt) (fuel k : ℕ)
    (hk : k ≤ len.val) :
    memcpyLoop src dest len fuel k (copyCells src dest cells k) =
      if len.val - k < fuel then some (len.val - k,copyCells src dest cells len.val) else none := by
  induction fuel generalizing k with
  | zero => simp [memcpyLoop]
  | succ fuel ih =>
    have hlen := Felt.val_lt len
    have hval : ((k : ℕ) : Felt).val = k := Felt.val_natCast_of_lt (by omega)
    by_cases hlast : k = len.val
    · have hstop : ¬ ((k : ℕ) : Felt).val < len.val := by omega
      rw [memcpyLoop,if_neg hstop,← hlast]
      simp
    · have hmore : ((k : ℕ) : Felt).val < len.val := by omega
      have hnext : ((k : ℕ) : Felt) + 1 = ((k+1 : ℕ) : Felt) := by push_cast; rfl
      have hround := ih (k+1) (by omega)
      rw [memcpyLoop,if_pos hmore]
      simp only [hnext]
      rw [show Function.update (copyCells src dest cells k) (dest + (k : Felt))
        (copyCells src dest cells k (src + (k : Felt))) = copyCells src dest cells (k+1) from rfl,
        hround]
      by_cases hfuel : len.val - (k+1) < fuel
      · rw [if_pos hfuel,if_pos (by omega)]
        simp only [Option.map_some]
        rw [show len.val - (k+1) + 1 = len.val - k by omega]
      · rw [if_neg hfuel,if_neg (by omega)]
        rfl

/-- The loop ends after as many rounds as cells are to be copied, and not before. -/
theorem memcpyLoop_zero (src dest len : Felt) (cells : Felt → Felt) (fuel : ℕ) :
    memcpyLoop src dest len fuel 0 cells =
      if len.val < fuel then some (len.val,copyCells src dest cells len.val) else none := by
  simpa [copyCells] using memcpyLoop_eq src dest len cells fuel 0 (Nat.zero_le _)

theorem memcpy_eq (src dest len : Felt) (m : Memory) :
    memcpy src dest len m = some { m with cells := copyCells src dest m.cells len.val } := by
  rw [memcpy,memcpyLoop_zero,if_pos (Nat.lt_succ_self _)]
  rfl

/-- Only the cells of the destination are written. -/
theorem copyCells_of_ne {src dest a : Felt} (cells : Felt → Felt) {n : ℕ}
    (h : ∀ i < n, a ≠ dest + (i : Felt)) : copyCells src dest cells n a = cells a := by
  induction n with
  | zero => rfl
  | succ n ih =>
    rw [copyCells,Function.update_of_ne (h n (Nat.lt_succ_self n))]
    exact ih fun i hi => h i (by omega)

/-- Every cell of the destination gets what the source held before: the source is not written,
and a cell written once is not written again. -/
theorem copyCells_dest {src dest : Felt} (cells : Felt → Felt) {n : ℕ} (hn : n ≤ FIELD_ORDER)
    (hover : NonOverlapping src dest n) {i : ℕ} (hi : i < n) :
    copyCells src dest cells n (dest + (i : Felt)) = cells (src + (i : Felt)) := by
  induction n with
  | zero => omega
  | succ n ih =>
    have hover' : NonOverlapping src dest n := fun i hi j hj => hover i (by omega) j (by omega)
    by_cases hlast : i = n
    · subst hlast
      rw [copyCells,Function.update_self]
      exact copyCells_of_ne cells fun j hj => hover i (by omega) j (by omega)
    · have hne : dest + (i : Felt) ≠ dest + (n : Felt) := fun heq =>
        hlast (add_natCast_inj (by omega) (by omega) heq)
      rw [copyCells,Function.update_of_ne hne]
      exact ih (by omega) hover' (by omega)

/-- The cells a call has returned to its caller. -/
structure Block where
  start : Felt
  size : ℕ

namespace Block

def cells (b : Block) : Set Felt := {a | ∃ i < b.size, a = b.start + (i : Felt)}

/-- The block lies at addresses from `lo` on and below `hi`. -/
def Within (lo hi : ℕ) (b : Block) : Prop :=
  ∃ s : ℕ, b.start = (s : Felt) ∧ lo ≤ s ∧ s + b.size ≤ hi

theorem Within.val {lo hi : ℕ} {b : Block} (h : b.Within lo hi) (hhi : hi ≤ FIELD_ORDER)
    {a : Felt} (ha : a ∈ b.cells) : lo ≤ a.val ∧ a.val < hi := by
  obtain ⟨s,hs,hlo,hsize⟩ := h
  obtain ⟨i,hi',rfl⟩ := ha
  have hval : (b.start + (i : Felt)).val = s + i := by
    rw [hs,← Nat.cast_add]
    exact Felt.val_natCast_of_lt (lt_of_lt_of_le (by omega : s + i < hi) hhi)
  omega

theorem Within.mono {lo hi lo' hi' : ℕ} {b : Block} (h : b.Within lo hi) (hlo : lo' ≤ lo)
    (hhi : hi ≤ hi') : b.Within lo' hi' := by
  obtain ⟨s,hs,h1,h2⟩ := h
  exact ⟨s,hs,by omega,by omega⟩

/-- Blocks on the two sides of an address have no cell in common. -/
theorem Within.disjoint {lo mid hi : ℕ} {b c : Block} (hb : b.Within lo mid)
    (hc : c.Within mid hi) (hmid : mid ≤ hi) (hhi : hi ≤ FIELD_ORDER) :
    Disjoint b.cells c.cells := by
  rw [Set.disjoint_left]
  intro a hab hac
  have h1 := (hb.val (by omega) hab).2
  have h2 := (hc.val hhi hac).1
  omega

end Block

inductive Call
  | heapMalloc (size : Felt) | vectorNew (size : Felt) | memcpy (src dest len : Felt)

namespace Call

/-- The cells the call asks for. -/
def request : Call → ℕ
  | heapMalloc size => size.val
  | vectorNew size => size.val+1
  | memcpy _ _ _ => 0

/-- A call, with the block it returns. -/
def run : Call → Memory → Option (List Block × Memory)
  | heapMalloc size, m => some ([⟨(HeapMemory.heapMalloc size m).1,size.val⟩],
      (HeapMemory.heapMalloc size m).2)
  | vectorNew size, m => some ([⟨(HeapMemory.vectorNew size m).1,size.val+1⟩],
      (HeapMemory.vectorNew size m).2)
  | memcpy src dest len, m => (HeapMemory.memcpy src dest len m).map fun t => ([],t)

/-- What a call does to the cells. -/
def Effect (m : Memory) : Call → Prop
  | heapMalloc size => ∀ a, (HeapMemory.heapMalloc size m).2.cells a = m.cells a
  | vectorNew size =>
    (HeapMemory.vectorNew size m).2.cells (HeapMemory.vectorNew size m).1 = size ∧
    ∀ a ≠ (HeapMemory.vectorNew size m).1,
      (HeapMemory.vectorNew size m).2.cells a = m.cells a
  | memcpy src dest len => NonOverlapping src dest len.val →
    ∃ cells, (∀ fuel, len.val < fuel →
        memcpyLoop src dest len fuel 0 m.cells = some (len.val,cells)) ∧
      HeapMemory.memcpy src dest len m = some { m with cells := cells } ∧
      (∀ i < len.val, cells (dest + (i : Felt)) = m.cells (src + (i : Felt))) ∧
      ∀ a, (∀ i < len.val, a ≠ dest + (i : Felt)) → cells a = m.cells a

theorem effect (m : Memory) : ∀ c : Call, c.Effect m
  | heapMalloc _ => fun _ => rfl
  | vectorNew size => by
    refine ⟨Function.update_self _ _ _,?_⟩
    intro a ha
    exact Function.update_of_ne ha _ _
  | memcpy src dest len => by
    intro hover
    refine ⟨copyCells src dest m.cells len.val,?_,memcpy_eq src dest len m,?_,?_⟩
    · intro fuel hfuel
      rw [memcpyLoop_zero,if_pos hfuel]
    · intro i hi
      exact copyCells_dest m.cells (Felt.val_lt len).le hover hi
    · intro a ha
      exact copyCells_of_ne m.cells ha

/-- A call completes, moves the heap pointer by its request and returns a block it has passed. -/
theorem run_spec (c : Call) {m : Memory} {h : ℕ} (hm : m.heapAddress = (h : Felt)) :
    ∃ blocks t, c.run m = some (blocks,t) ∧ t.heapAddress = ((h + c.request : ℕ) : Felt) ∧
      (∀ b ∈ blocks, b.Within h (h + c.request)) ∧ blocks.length ≤ 1 := by
  cases c with
  | heapMalloc size =>
    refine ⟨_,_,rfl,?_,?_,le_refl _⟩
    · simp [HeapMemory.heapMalloc,hm,request]
    · simp only [List.mem_singleton,forall_eq]
      exact ⟨h,hm,le_refl _,le_refl _⟩
  | vectorNew size =>
    refine ⟨_,_,rfl,?_,?_,le_refl _⟩
    · simp [HeapMemory.vectorNew,hm,request]
    · simp only [List.mem_singleton,forall_eq]
      exact ⟨h,hm,le_refl _,le_refl _⟩
  | memcpy src dest len =>
    refine ⟨[],{ m with cells := copyCells src dest m.cells len.val },?_,?_,?_,Nat.zero_le _⟩
    · rw [run,memcpy_eq]
      rfl
    · simpa [request] using hm
    · simp

end Call

/-- A sequence of calls, with the blocks returned in their order. -/
def run : List Call → Memory → Option (List Block × Memory)
  | [], m => some ([],m)
  | c::calls, m => do
    let (blocks,t) ← c.run m
    let (rest,u) ← run calls t
    some (blocks++rest,u)

/-- The cells a sequence of calls asks for. -/
def totalRequest (calls : List Call) : ℕ := (calls.map Call.request).sum

/-- The blocks of a sequence lie one behind the other between the heap pointers before and after:
each call returns what its step of the pointer has passed. -/
theorem run_spec (calls : List Call) {m : Memory} {h : ℕ} (hm : m.heapAddress = (h : Felt))
    (hfit : h + totalRequest calls ≤ FIELD_ORDER) :
    ∃ blocks t, run calls m = some (blocks,t) ∧
      t.heapAddress = ((h + totalRequest calls : ℕ) : Felt) ∧
      (∀ b ∈ blocks, b.Within h (h + totalRequest calls)) ∧
      blocks.Pairwise fun b c => Disjoint b.cells c.cells := by
  induction calls generalizing m h with
  | nil => exact ⟨[],m,rfl,by simpa [totalRequest] using hm,by simp,.nil⟩
  | cons c calls ih =>
    have htotal : totalRequest (c::calls) = c.request + totalRequest calls := by
      simp [totalRequest]
    obtain ⟨blocks,t,hrun,ht,hin,hone⟩ := c.run_spec hm
    obtain ⟨rest,u,hrest,hu,hinRest,hdisj⟩ := ih ht (by omega)
    refine ⟨blocks++rest,u,?_,?_,?_,?_⟩
    · simp [run,hrun,hrest]
    · rw [hu,htotal,Nat.add_assoc]
    · intro b hb
      rcases List.mem_append.mp hb with hb | hb
      · exact (hin b hb).mono (le_refl _) (by omega)
      · exact (hinRest b hb).mono (by omega) (by omega)
    · rw [List.pairwise_append]
      refine ⟨?_,hdisj,?_⟩
      · match blocks,hone with
        | [],_ => exact .nil
        | [b],_ => exact List.pairwise_singleton _ b
      · intro b hb b' hb'
        exact (hin b hb).disjoint (hinRest b' hb') (by omega) (by omega)

/-- Whatever the memory and the calls, as long as their requests do not push the heap pointer past
the field order: all calls complete, the blocks they return have no cell in common with each
other nor with anything below the heap pointer they started from, and every call, in whatever
memory, writes the cells it is meant to write and no others. -/
theorem blocks_disjoint_and_effects (m : Memory) (calls : List Call)
    (hfit : m.heapAddress.val + totalRequest calls ≤ FIELD_ORDER) :
    (∃ blocks t, run calls m = some (blocks,t) ∧
      (blocks.Pairwise fun b c => Disjoint b.cells c.cells) ∧
      ∀ b ∈ blocks, ∀ a ∈ b.cells, m.heapAddress.val ≤ a.val) ∧
    ∀ (t : Memory) (c : Call), c.Effect t := by
  obtain ⟨blocks,t,hrun,-,hin,hdisj⟩ := run_spec calls (Felt.natCast_val m.heapAddress).symm hfit
  refine ⟨⟨blocks,t,hrun,hdisj,?_⟩,Call.effect⟩
  intro b hb a ha
  exact ((hin b hb).val hfit ha).1

/-- Two blocks of one run and a copy between them, with the heap pointer at 5. -/
theorem blocks_disjoint_and_effects_vector :
    (∃ blocks t, run [.heapMalloc 3,.vectorNew 3,.memcpy 5 9 3] ⟨5,fun _ => 0⟩ = some (blocks,t) ∧
      (blocks.Pairwise fun b c => Disjoint b.cells c.cells) ∧
      ∀ b ∈ blocks, ∀ a ∈ b.cells, (5 : Felt).val ≤ a.val) ∧
    ∀ (t : Memory) (c : Call), c.Effect t :=
  blocks_disjoint_and_effects ⟨5,fun _ => 0⟩ [.heapMalloc 3,.vectorNew 3,.memcpy 5 9 3] (by decide)

/-! The routines of the machine the generators run on, where stack and heap are kept apart, are
these on the addresses. -/
section Machine

variable {s t : State} {p : Pointer}

/-- The memory of a state of the machine. -/
def ofState (s : State) : Memory :=
  { heapAddress := (Pointer.heap s.heap).address,cells := fun a => s.cell (Pointer.ofAddress a) }

theorem address_ofAddress (a : Felt) : (Pointer.ofAddress a).address = a := by
  unfold Pointer.ofAddress
  by_cases h : a.val < HEAP_ADDRESS_START
  · rw [if_pos h]
    exact Felt.natCast_val a
  · rw [if_neg h,Pointer.address,Nat.add_sub_cancel' (Nat.le_of_not_lt h)]
    exact Felt.natCast_val a

theorem ofAddress_heap {n : ℕ} (h : HEAP_ADDRESS_START + n < FIELD_ORDER) :
    Pointer.ofAddress (Pointer.heap n).address = .heap n := by
  rw [Pointer.ofAddress,Pointer.address,Felt.val_natCast_of_lt h,if_neg (by omega),
    Nat.add_sub_cancel_left]

theorem address_add (p : Pointer) (i : ℕ) : (p.add i).address = p.address + (i : Felt) := by
  cases p with
  | stack n => simp [Pointer.add,Pointer.address]
  | heap n => simp [Pointer.add,Pointer.address,add_assoc]

theorem ofState_write (v : Value) (hp : Pointer.ofAddress p.address = p) :
    ofState (s.write p v) =
      { ofState s with cells := Function.update (ofState s).cells p.address v.felt } := by
  have hcells : (ofState (s.write p v)).cells =
      Function.update (ofState s).cells p.address v.felt := by
    funext a
    by_cases ha : a = p.address
    · rw [ha,Function.update_self]
      exact (congrArg (s.write p v).cell hp).trans (s.write_cell_self p v)
    · have hne : Pointer.ofAddress a ≠ p := fun h => ha (by rw [← h,address_ofAddress])
      rw [Function.update_of_ne ha]
      exact s.write_cell_of_ne v hne
  rw [← hcells]
  rfl

theorem ofState_heapMalloc {size : Felt} (h : Corelib.heapMalloc size s = .ok (p,t)) :
    heapMalloc size (ofState s) = (p.address,ofState t) := by
  cases h
  have hnext : (Pointer.heap s.heap).address + size =
      (Pointer.heap (s.heap + size.val)).address := by
    simp [Pointer.address,add_assoc]
  rw [heapMalloc]
  exact congrArg (fun a => ((Pointer.heap s.heap).address,
    ({ heapAddress := a,cells := (ofState s).cells } : Memory))) hnext

theorem ofState_vectorNew {size : Felt} (hroom : HEAP_ADDRESS_START + s.heap < FIELD_ORDER)
    (h : Corelib.vectorNew size s = .ok (p,t)) :
    vectorNew size (ofState s) = (p.address,ofState t) := by
  cases h
  have hnext : (Pointer.heap s.heap).address + (size + 1) =
      (Pointer.heap (s.heap + size.val + 1)).address := by
    simp [Pointer.address,add_assoc]
  rw [ofState_write (.int size) (ofAddress_heap hroom),vectorNew]
  exact congrArg (fun a => ((Pointer.heap s.heap).address,
    ({ heapAddress := a,
       cells := Function.update (ofState s).cells (Pointer.heap s.heap).address size } :
      Memory))) hnext

/-- Copying on the machine, between ranges whose cells are at their own addresses. -/
theorem ofState_memcpy {src dest : Pointer} {len : Felt} {u : Unit}
    (hsrc : ∀ i < len.val, Pointer.ofAddress (src.add i).address = src.add i)
    (hdest : ∀ i < len.val, Pointer.ofAddress (dest.add i).address = dest.add i)
    (h : Corelib.memcpy src dest len s = .ok (u,t)) :
    memcpy src.address dest.address len (ofState s) = some (ofState t) := by
  have hrun : Exec.Returns (Corelib.memcpy src dest len) s fun _ t => ofState t =
      { ofState s with
        cells := copyCells src.address dest.address (ofState s).cells len.val } := by
    refine Exec.returns_bind (Exec.Returns.mono (Exec.returns_loop
      (I := fun i (_ : Unit) t => ofState t =
        { ofState s with cells := copyCells src.address dest.address (ofState s).cells i })
      rfl ?_) ?_)
    · intro i _ t _ hi ht
      rw [Nat.zero_add] at hi
      refine ⟨(),_,rfl,?_⟩
      have hread : (t.mem (src.add i)).felt = (ofState t).cells (src.address + (i : Felt)) := by
        rw [← address_add]
        exact congrArg t.cell (hsrc i hi).symm
      show ofState (t.write (dest.add i) (t.mem (src.add i))) = _
      rw [ofState_write _ (hdest i hi),hread,address_add,ht]
      rfl
    · intro _ t ht
      rw [Nat.zero_add] at ht
      exact Exec.returns_pure ht
  obtain ⟨_,t',hrun,ht⟩ := hrun
  cases h.symm.trans hrun
  rw [memcpy_eq,ht]

end Machine

end HeapMemory
end OlaLang
