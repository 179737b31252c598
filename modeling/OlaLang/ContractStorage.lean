import OlaLang.StorageWalk
import OlaLang.ArraySlice

/-! The storage of a contract: the slots its variables are laid out in, the places that members,
elements and mapping entries lead to, and runs of loads, stores, deletes and array methods at such
places. A run that works on some variables leaves the others alone. -/
namespace OlaLang
namespace ContractStorage

open KeyedStore State Storage
open Exec (Returns)
open Builder Corelib

/-! ### The layout -/

structure Variable where
  ty : Ty
  constant : Bool

structure Layout where
  slot : ℕ
  contractNo : ℕ
  varNo : ℕ
  ty : Ty

/-- `layout`: the variables that are no constants get their slots one after the other. -/
def layoutFrom (contractNo : ℕ) : List Variable → ℕ → ℕ → List Layout × ℕ
  | [], _, slot => ([],slot)
  | var::rest, varNo, slot =>
    if var.constant then layoutFrom contractNo rest (varNo+1) slot
    else
      let later := layoutFrom contractNo rest (varNo+1) (slot + var.ty.storageSlots)
      (⟨slot,contractNo,varNo,var.ty⟩::later.1,later.2)

structure Contract where
  contractNo : ℕ
  vars : List Variable

namespace Contract

def layout (c : Contract) : List Layout := (layoutFrom c.contractNo c.vars 0 0).1

def fixedLayoutSize (c : Contract) : ℕ := (layoutFrom c.contractNo c.vars 0 0).2

def findLayout (c : Contract) (varContractNo varNo : ℕ) : Option Layout :=
  c.layout.find? fun l => l.contractNo == varContractNo && l.varNo == varNo

/-- `get_storage_slot`: a variable without slots, or a slot that is no 64-bit number, panics. -/
def getStorageSlot (c : Contract) (varContractNo varNo : ℕ) : Code (Layout × Value) :=
  match c.findLayout varContractNo varNo with
  | some l => if l.slot < 2^64 then pure (l,.const (BitVec.ofNat 64 l.slot)) else Exec.fail .panic
  | none => Exec.fail .panic

end Contract

/-! ### Places -/

/-- One step from a place of the storage to a part of it. -/
inductive Access
  | member (field : ℕ)
  | subscript (index : Value) (indexTy : Ty)

/-- A variable, and the steps that lead from it to the place. -/
structure Place where
  varNo : ℕ
  path : List Access

/-- The type the analysis gives to a step, below the storage reference. -/
def accessTy : Ty → Access → Option Ty
  | .struct fields, .member field => fields[field]?
  | .mapping _ value, .subscript _ _ => some value
  | .array elem dims, .subscript _ _ =>
    some (if dims.length > 1 then .array elem dims.dropLast else elem)
  | _, _ => none

def accessSlot (host : Host) (ty : Ty) (slot : Value) : Access → Code Value
  | .member field => structMemberOf (.storageRef ty) slot field
  | .subscript index indexTy => arraySubscript host (.storageRef ty) slot index indexTy

/-- The type and the slot of the place that a path leads to. -/
def placeFrom (host : Host) : Ty → Value → List Access → Code (Ty × Value)
  | ty, slot, [] => pure (ty,slot)
  | ty, slot, a::path => match accessTy ty a with
    | none => Exec.fail .panic
    | some ty' => do
      let slot ← accessSlot host ty slot a
      placeFrom host ty' slot path

/-- What an expression or a statement does at a place. -/
inductive Action
  | load | store (value : Value) | delete | push (values : List Value) | pop

def actAt (host : Host) (ty : Ty) (slot : Value) : Action → Code (Option Value)
  | .load => do
    let (val,_) ← storageLoad host ty slot
    pure (some val)
  | .store value => do
    let _ ← storageStore host ty slot value
    pure none
  | .delete => do
    let _ ← storageDelete host ty slot
    pure none
  | .push values => do
    let pushPos ← storageArrayPush host (.storageRef ty) slot values
    pure (some pushPos)
  | .pop => do
    let val ← storageArrayPop host (.storageRef ty) slot
    pure (some val)

def operate (host : Host) (c : Contract) (place : Place) (action : Action) :
    Code (Option Value) := do
  let (l,slot) ← c.getStorageSlot c.contractNo place.varNo
  let (ty,slot) ← placeFrom host l.ty slot place.path
  actAt host ty slot action

/-! ### Operands in range -/

/-- The number an index operand stands for. -/
def number : Value → ℕ
  | .const w => w.toNat
  | v => v.felt.val

/-- The slot that the step leads to is a hash, in memory. -/
def Access.hashes : Ty → Access → Bool
  | .mapping _ _, .subscript _ _ => true
  | .array _ dims, .subscript _ _ => match dims.getLast? with
    | some (.fixed _) => false
    | _ => true
  | _, _ => false

/-- The index of a fixed array is below its length, or it is computed and the range check of the
emitted code refuses it. -/
def Access.IndexInRange : Ty → Access → Prop
  | .array _ dims, .subscript index _ => ∀ l, dims.getLast? = some (.fixed l) →
    number index < l ∨ index.isConst = false ∧ number index + 2^32 < l + FIELD_ORDER
  | _, _ => True

/-- A string that is a key of a mapping stands in memory with its length. -/
def Access.KeyInMemory (m : State) : Ty → Access → Prop
  | .mapping _ _, .subscript index indexTy => indexTy = .string ∨ indexTy = .dynamicBytes →
    m.Old index.pointer ∧ (m.cell index.pointer).val + 4 < FIELD_ORDER
  | _, _ => True

/-- The steps of a path are in range. Nothing is asked of the index of a fixed array behind a hash:
the generator adds its slot as an integer, and stops. -/
def PathInRange (m : State) : Bool → Ty → List Access → Prop
  | _, _, [] => True
  | hashed, ty, a::path => (hashed = false → a.IndexInRange ty) ∧ a.KeyInMemory m ty ∧
    ∀ ty', accessTy ty a = some ty' → PathInRange m (hashed || a.hashes ty) ty' path

def Contract.InRange (c : Contract) (m : State) (place : Place) : Prop :=
  ∀ l, c.findLayout c.contractNo place.varNo = some l → PathInRange m false l.ty place.path

/-- The slots of a variable are field elements. -/
def Contract.Fits (c : Contract) (varNo : ℕ) : Prop :=
  ∀ l, c.findLayout c.contractNo varNo = some l → l.slot + l.ty.storageSlots ≤ FIELD_ORDER

/-- The runs that work on the variables of `V`: operations at their places, and any other code that
leaves the storage alone. -/
inductive Run (host : Host) (c : Contract) (V : Set ℕ) : State → State → Prop
  | refl (m : State) : Run host c V m m
  | operate {m m1 m2 : State} {place : Place} {action : Action} {r : Option Value}
      (run : Run host c V m m1) (hv : place.varNo ∈ V) (hrange : c.InRange m1 place)
      (h : operate host c place action m1 = .ok (r,m2)) : Run host c V m m2
  | other {m m1 m2 : State} (run : Run host c V m m1) (h : m2.storage = m1.storage) :
      Run host c V m m2

/-- The slots that are given to variables. -/
def slots (size : ℕ) : Set Word := { k | ∃ i < size, k = Word.ofFelt (i : ℕ) }

/-! ### Variables have their own slots -/

theorem layoutFrom_slots (contractNo : ℕ) (vars : List Variable) (varNo slot : ℕ) :
    slot ≤ (layoutFrom contractNo vars varNo slot).2 ∧
    (∀ l ∈ (layoutFrom contractNo vars varNo slot).1, slot ≤ l.slot ∧ varNo ≤ l.varNo ∧
      l.contractNo = contractNo ∧
      l.slot + l.ty.storageSlots ≤ (layoutFrom contractNo vars varNo slot).2 ∧
      ∃ v ∈ vars, v.constant = false ∧ v.ty = l.ty) ∧
    (layoutFrom contractNo vars varNo slot).1.Pairwise fun a b =>
      a.slot + a.ty.storageSlots ≤ b.slot ∧ a.varNo < b.varNo := by
  induction vars generalizing varNo slot with
  | nil =>
    refine ⟨Nat.le_refl _,?_,List.Pairwise.nil⟩
    intro l hl
    cases hl
  | cons var rest ih =>
    rw [layoutFrom]
    by_cases hc : var.constant = true
    · rw [if_pos hc]
      obtain ⟨hsize,hall,hpair⟩ := ih (varNo+1) slot
      refine ⟨hsize,fun l hl => ?_,hpair⟩
      obtain ⟨hslot,hno,hcon,hend,v,hv,hvar⟩ := hall l hl
      exact ⟨hslot,by omega,hcon,hend,v,List.mem_cons_of_mem _ hv,hvar⟩
    · rw [if_neg hc]
      obtain ⟨hsize,hall,hpair⟩ := ih (varNo+1) (slot + var.ty.storageSlots)
      refine ⟨Nat.le_trans (Nat.le_add_right _ _) hsize,fun l hl => ?_,?_⟩
      · rcases List.mem_cons.mp hl with rfl | hl
        · exact ⟨Nat.le_refl _,Nat.le_refl _,rfl,hsize,var,List.mem_cons_self ..,
            by simpa using hc,rfl⟩
        · obtain ⟨hslot,hno,hcon,hend,v,hv,hvar⟩ := hall l hl
          exact ⟨by omega,by omega,hcon,hend,v,List.mem_cons_of_mem _ hv,hvar⟩
      · refine List.pairwise_cons.mpr ⟨fun b hb => ?_,hpair⟩
        obtain ⟨hslot,hno,-⟩ := hall b hb
        exact ⟨hslot,hno⟩

section Slots

variable {host : Host} {c : Contract} {l l' : Layout} {x y : ℕ}

theorem mem_of_findLayout (h : c.findLayout c.contractNo x = some l) :
    l ∈ c.layout ∧ l.varNo = x := by
  have hp := List.find?_some h
  simp only [Bool.and_eq_true,beq_iff_eq] at hp
  exact ⟨List.mem_of_find?_eq_some h,hp.2⟩

theorem layout_end (h : l ∈ c.layout) : l.slot + l.ty.storageSlots ≤ c.fixedLayoutSize :=
  ((layoutFrom_slots _ _ _ _).2.1 l h).2.2.2.1

/-- Two variables have no slot in common. -/
def Apart (a b : Layout) : Prop :=
  a.varNo ≠ b.varNo → a.slot + a.ty.storageSlots ≤ b.slot ∨ b.slot + b.ty.storageSlots ≤ a.slot

instance apart_symm : Std.Symm Apart := ⟨fun _ _ hab hne => (hab (Ne.symm hne)).symm⟩

theorem layout_apart (h : l ∈ c.layout) (h' : l' ∈ c.layout) : Apart l l' := by
  have hpair : c.layout.Pairwise Apart :=
    (layoutFrom_slots c.contractNo c.vars 0 0).2.2.imp fun hab _ => Or.inl hab.1
  exact hpair.forall_of_forall (fun _ _ hne => absurd rfl hne) h h'

theorem ofFelt_natCast_inj {i j : ℕ} (hi : i < FIELD_ORDER) (hj : j < FIELD_ORDER)
    (h : Word.ofFelt (i : ℕ) = Word.ofFelt (j : ℕ)) : i = j := by
  have hfelt : ((i : ℕ) : Felt) = ((j : ℕ) : Felt) := congrArg Word.c3 h
  rw [← Felt.val_natCast_of_lt hi,← Felt.val_natCast_of_lt hj,hfelt]

/-- Disjoint ranges of slots lead to disjoint parts of the storage. -/
theorem region_disjoint {size a b n n' : ℕ} (hsep : Separate host (slots size))
    (ha : a+n ≤ size) (ha' : a+n ≤ FIELD_ORDER) (hb : b+n' ≤ size) (hb' : b+n' ≤ FIELD_ORDER)
    (hab : a+n ≤ b ∨ b+n' ≤ a) {k : Word} (hk : k ∈ region host (Word.ofFelt (a : ℕ)) n) :
    k ∉ region host (Word.ofFelt (b : ℕ)) n' := by
  rintro ⟨j,hj,hbk⟩
  obtain ⟨i,hi,hak⟩ := hk
  rw [Word.offset_ofFelt,← Nat.cast_add] at hak hbk
  have hne : Word.ofFelt ((a+i : ℕ) : Felt) ≠ Word.ofFelt ((b+j : ℕ) : Felt) := by
    intro heq
    have := ofFelt_natCast_inj (by omega) (by omega) heq
    omega
  exact hsep.below ⟨a+i,by omega,rfl⟩ ⟨b+j,by omega,rfl⟩ hne hak hbk

end Slots

/-! ### Places keep to their variable -/

/-- The slot of a place: a part of the slots of the variable, or a fresh pointer to a key that hashes
of these lead to. The memory the access found is as before. -/
structure PlaceAt (host : Host) (root : Word) (n : ℕ) (m0 : State) (ty : Ty) (slot : Value)
    (m : State) : Prop where
  keeps : Keeps m0 m
  old : SlotOld m slot
  fresh : ∀ p, slot = .ptr p → ¬ m0.Old p
  static : slot.isPointer = false →
    ∃ j : ℕ, slotKey m slot = root.offset (j : ℕ) ∧ j + ty.storageSlots ≤ n
  hashed : slot.isPointer = true → ∃ i < n, Under host (root.offset (i : ℕ)) (slotKey m slot)
  const : ∀ w, slot = .const w → w.toNat + ty.storageSlots ≤ FIELD_ORDER

section Places

variable {host : Host} {root : Word} {n : ℕ} {m0 m m' : State} {ty ty' elem : Ty}
  {dims : List ArrayLength} {slot slot' index : Value} {R : Set Word}

theorem PlaceAt.reach (h : PlaceAt host root n m0 ty slot m) (hpos : 0 < ty.storageSlots) :
    ∃ i < n, Below host (root.offset (i : ℕ)) (slotKey m slot) := by
  cases hp : slot.isPointer with
  | true =>
    obtain ⟨i,hi,hu⟩ := h.hashed hp
    exact ⟨i,hi,hu.below⟩
  | false =>
    obtain ⟨j,hkey,hj⟩ := h.static hp
    exact ⟨j,by omega,hkey ▸ Relation.ReflTransGen.refl⟩

/-- What is stored at a place is in the part of the storage that belongs to the variable. -/
theorem PlaceAt.region (h : PlaceAt host root n m0 ty slot m) :
    region host (slotKey m slot) ty.storageSlots ⊆ region host root n := by
  cases hp : slot.isPointer with
  | true =>
    obtain ⟨i,hi,hu⟩ := h.hashed hp
    intro k hk
    exact ⟨i,hi,Under.below (region_under hu hk)⟩
  | false =>
    obtain ⟨j,hkey,hj⟩ := h.static hp
    rw [hkey]
    exact region_offset j hj

/-- A step of a fresh slot does not touch what was there before. -/
theorem SlotAt.keeps_fresh {j : ℕ} (h : SlotAt m slot j m' slot') (hk : Keeps m0 m)
    (hfresh : ∀ p, slot = .ptr p → ¬ m0.Old p) : Keeps m0 m' := by
  refine ⟨Nat.le_trans hk.heap h.heap,h.stack.trans hk.stack,fun q hq => ?_⟩
  rw [h.mem q (hk.old hq),hk.mem q hq]
  rintro p hp rfl
  exact not_old_add (hfresh p hp) hq

theorem SlotAt.fresh {j : ℕ} (h : SlotAt m slot j m' slot')
    (hfresh : ∀ p, slot = .ptr p → ¬ m0.Old p) : ∀ p, slot' = .ptr p → ¬ m0.Old p := by
  rintro p rfl
  cases slot with
  | ptr q =>
    cases h.same q rfl
    exact hfresh _ rfl
  | const w => cases h.isPointer
  | int x => cases h.isPointer

/-- A slot that is moved on inside its place. -/
theorem PlaceAt.step {j : ℕ} (h : PlaceAt host root n m0 ty slot m) (ha : SlotAt m slot j m' slot')
    (hj : j + ty'.storageSlots ≤ ty.storageSlots)
    (hconst : ∀ w, slot' = .const w → w.toNat + ty'.storageSlots ≤ FIELD_ORDER) :
    PlaceAt host root n m0 ty' slot' m' where
  keeps := SlotAt.keeps_fresh ha h.keeps h.fresh
  old := ha.old h.old
  fresh := SlotAt.fresh ha h.fresh
  static := by
    intro hp
    obtain ⟨i,hkey,hi⟩ := h.static (ha.isPointer ▸ hp)
    refine ⟨i+j,?_,by omega⟩
    rw [ha.key,hkey,Word.offset_offset,Nat.cast_add]
  hashed := by
    intro hp
    obtain ⟨i,hi,hu⟩ := h.hashed (ha.isPointer ▸ hp)
    exact ⟨i,hi,ha.key ▸ hu.offset _⟩
  const := hconst

theorem storageSlotsFields_take {fields : List Ty} {i : ℕ} (h : fields[i]? = some ty) :
    Ty.storageSlotsFields (fields.take i) + ty.storageSlots ≤ Ty.storageSlotsFields fields := by
  induction fields generalizing i with
  | nil => cases h
  | cons f rest ih =>
    cases i with
    | zero =>
      cases h
      simp [Ty.storageSlotsFields]
    | succ i =>
      have hrest := ih h
      rw [List.take_succ_cons,Ty.storageSlotsFields,Ty.storageSlotsFields]
      omega

theorem slotOffest_not_const {x : Felt} {w : BitVec 64}
    (h : slotOffest slot x m = .ok (.const w,m')) : False := by
  cases slot <;> cases h

theorem acts_structMember {fields : List Ty} {i : ℕ} (hty : fields[i]? = some ty)
    (h : PlaceAt host root n m0 (.struct fields) slot m) :
    disk.Acts R (structMemberOf (.storageRef (.struct fields)) slot i) m
      fun slot' t => PlaceAt host root n m0 ty slot' t ∧ slot'.isPointer = slot.isPointer := by
  have hacts := acts_slotOffest (R := R) slot (Ty.storageSlotsFields (fields.take i)) h.old
  refine ⟨hacts.same,fun slot' m' hrun => ?_⟩
  have hat := hacts.post slot' m' hrun
  refine ⟨h.step hat ?_ ?_,hat.isPointer⟩
  · rw [Ty.storageSlots]
    exact storageSlotsFields_take hty
  · rintro w rfl
    exact (slotOffest_not_const hrun).elim

/-! ### Subscripts -/

theorem acts_memcpy (src : Pointer) (b : ℕ) (len : Felt) :
    disk.Acts R (memcpy src (.heap b) len) m fun _ t => ArraySlice.Copied m src b len.val t := by
  have hacts : disk.Acts R (memcpy src (.heap b) len) m fun _ _ => True := by
    refine acts_bind (acts_loop (I := fun _ _ _ => True) trivial fun i _ t _ _ _ => ?_)
      fun _ _ _ => acts_pure trivial
    exact acts_of_ignores (fun _ => rfl) fun _ _ _ => trivial
  exact ⟨hacts.same,fun _ _ ht => post_of_returns (ArraySlice.memcpy_copied src b len m) ht⟩

/-- Two sources are copied behind each other. -/
theorem poseidonHash_two (p q : Pointer) (len : Felt) :
    poseidonHash host [(p,4),(q,len)] = (do
      let b ← heapMalloc (4 + (len + 0))
      memcpy p b 4
      memcpy q (b.add (4 : Felt).val) len
      let r ← heapMalloc 4
      Exec.modify fun s => s.writeWord r (host.poseidon (hashInput s b (4 + (len + 0)).val))
      pure r) := by
  simp only [poseidonHash,List.map_cons,List.map_nil,List.sum_cons,List.sum_nil,List.foldlM_cons,
    List.foldlM_nil,Exec.bind_assoc,Exec.pure_bind]

/-- The cells that are hashed start with those of the first source. -/
theorem hashInput_append {t : State} {b k : ℕ} (p : Pointer)
    (h : ∀ i < 4, t.cell (.heap (b+i)) = m.cell (p.add i)) :
    ∃ key, hashInput t (.heap b) (4+k) = (m.word p).toList ++ key := by
  refine ⟨(List.range k).map fun i => t.cell (.heap (b+(4+i))),?_⟩
  have h0 := h 0 (by omega)
  rw [Nat.add_zero,Pointer.add_zero] at h0
  rw [hashInput,List.range_add,List.map_append,List.map_map]
  congr 1
  simp [List.range_succ,Word.toList,State.word,h0,h 1 (by omega),h 2 (by omega),h 3 (by omega)]

theorem keeps_copied {t : State} {src : Pointer} {b len : ℕ} (hk : Keeps m0 m)
    (h : ArraySlice.Copied m src b len t) (hb : m0.heap ≤ b) : Keeps m0 t := by
  refine ⟨hk.heap.trans (Nat.le_of_eq h.heap.symm),h.stack.trans hk.stack,fun q hq => ?_⟩
  rw [h.frame q,hk.mem q hq]
  rintro k - rfl
  exact absurd (show b+k < m0.heap from hq) (by omega)

theorem keeps_writeWord {b : ℕ} (hk : Keeps m0 m) (hb : m0.heap ≤ b) (w : Word) :
    Keeps m0 (m.writeWord (.heap b) w) := by
  refine ⟨hk.heap,hk.stack,fun q hq => ?_⟩
  rw [mem_writeWord,hk.mem q hq]
  rintro i - rfl
  exact absurd (show b+i < m0.heap from hq) (by omega)

theorem acts_poseidonHash_two {p q : Pointer} {len : Felt} (hk : Keeps m0 m)
    (hp : m.Old (p.add 3)) (hlen : len.val + 4 < FIELD_ORDER) :
    disk.Acts R (poseidonHash host [(p,4),(q,len)]) m fun r t => Keeps m0 t ∧ ¬ m0.Old r ∧
      t.Old (r.add 3) ∧ ∃ key, t.word r = host.poseidon ((m.word p).toList ++ key) := by
  have hsum : (4 + (len + 0)).val = 4 + len.val := by
    rw [add_zero,Felt.val_add,four_val]
    exact Nat.mod_eq_of_lt (show _ < FIELD_ORDER by omega)
  rw [poseidonHash_two]
  refine acts_bind (acts_heapMalloc _) fun b m1 ⟨hr1,hb,hmem1,hheap1⟩ => ?_
  subst hb
  rw [hsum] at hheap1
  refine acts_bind (acts_memcpy p m.heap 4) fun _ m2 hc2 => ?_
  rw [four_val] at hc2
  have hdest : (Pointer.heap m.heap).add (4 : Felt).val = .heap (m.heap+4) := by rw [four_val]; rfl
  rw [hdest]
  refine acts_bind (acts_memcpy q (m.heap+4) len) fun _ m3 hc3 => ?_
  refine acts_bind (acts_heapMalloc 4) fun r m4 ⟨hr4,hr,hmem4,hheap4⟩ => ?_
  subst hr
  rw [four_val] at hheap4
  have hheap : m3.heap = m.heap + (4 + len.val) := by rw [hc3.heap,hc2.heap,hheap1]
  have hle := hk.heap
  have hkeeps : Keeps m0 m4 :=
    (keeps_copied (keeps_copied (hk.trans hr1.keeps) hc2 hle) hc3 (by omega)).trans hr4.keeps
  have hsrc : ∀ i < 4, ∀ k < 4, p.add i ≠ .heap (m.heap+k) := by
    intro i hi k _ heq
    have hold : m.Old (p.add i) := Old.of_add hp (by omega)
    rw [heq] at hold
    exact absurd (show m.heap+k < m.heap from hold) (by omega)
  have hcells : ∀ i < 4, m4.cell (.heap (m.heap+i)) = m.cell (p.add i) := by
    intro i hi
    have h2 := hc2.cells hsrc i hi
    have h3 : m3.mem (.heap (m.heap+i)) = m2.mem (.heap (m.heap+i)) := by
      refine hc3.frame _ fun k _ heq => ?_
      have := Pointer.heap.inj heq
      omega
    rw [State.cell,hmem4,h3,← State.cell,h2,State.cell,hmem1,State.cell]
  obtain ⟨key,hkey⟩ := hashInput_append (k := len.val) p hcells
  refine acts_bind (Q := fun _ t => t = m4.writeWord (.heap m3.heap)
    (host.poseidon ((m.word p).toList ++ key))) (acts_of_ignores (fun _ => rfl) fun _ t ht => ?_)
      fun _ t ht => acts_pure ?_
  · rw [Exec.modify_apply,hsum,hkey] at ht
    cases ht
    rfl
  · subst ht
    refine ⟨keeps_writeWord hkeeps (by omega) _,?_,?_,key,word_writeWord _ _ _⟩
    · intro hold
      exact absurd (show m3.heap < m0.heap from hold) (by omega)
    · show m3.heap + 3 < m4.heap
      omega

/-- A fresh pointer to a key under a place is a place again, of whatever type. -/
theorem PlaceAt.hash {t : State} {r : Pointer} (h : PlaceAt host root n m0 ty slot m)
    (hpos : 0 < ty.storageSlots) (hk : Keeps m0 t) (hnew : ¬ m0.Old r) (hold : t.Old (r.add 3))
    (hu : Under host (slotKey m slot) (t.word r)) : PlaceAt host root n m0 ty' (.ptr r) t where
  keeps := hk
  old := hold
  fresh := by
    rintro p hp
    cases hp
    exact hnew
  static := fun hp => by cases hp
  hashed := by
    intro _
    obtain ⟨i,hi,hb⟩ := h.reach hpos
    exact ⟨i,hi,Relation.TransGen.trans_right hb hu⟩
  const := fun w hw => by cases hw

theorem acts_mappingSubscript {key : Ty} {indexTy : Ty}
    (h : PlaceAt host root n m0 (.mapping key ty) slot m)
    (hrange : indexTy = .string ∨ indexTy = .dynamicBytes →
      m0.Old index.pointer ∧ (m0.cell index.pointer).val + 4 < FIELD_ORDER) :
    disk.Acts R (mappingSubscript host slot index indexTy) m
      fun slot' t => PlaceAt host root n m0 ty' slot' t ∧ slot'.isPointer = true := by
  have hpos : 0 < (Ty.mapping key ty).storageSlots := Nat.one_pos
  rw [mappingSubscript]
  refine acts_bind (acts_slotPointer slot (slotPointer_spec slot m)) fun p m1 ⟨hr1,hword1,hold1⟩ => ?_
  have hk1 := h.keeps.trans hr1.keeps
  have hp1 := hold1 h.old
  have hplace : ∀ (r : Pointer) (t : State), (Keeps m0 t ∧ ¬ m0.Old r ∧ t.Old (r.add 3) ∧
      ∃ cells, t.word r = host.poseidon ((slotKey m slot).toList ++ cells)) →
      PlaceAt host root n m0 ty' (.ptr r) t ∧ (Value.ptr r).isPointer = true := by
    rintro r t ⟨hk,hnew,hold,cells,hcells⟩
    refine ⟨h.hash hpos hk hnew hold (under_of_child ⟨cells,0,?_⟩),rfl⟩
    rw [Word.offset_zero,hcells]
  have hfour : disk.Acts R (do
      let indexValue ← slotPointer index
      let hash ← poseidonHash host [(p,4),(indexValue,4)]
      pure (Value.ptr hash)) m1
        fun slot' t => PlaceAt host root n m0 ty' slot' t ∧ slot'.isPointer = true := by
    refine acts_bind (acts_slotPointer index (slotPointer_spec index m1)) fun q m2 ⟨hr2,_,_⟩ => ?_
    have hword2 : m2.word p = slotKey m slot := by rw [hr2.keeps.word hp1,hword1]
    have hhash : disk.Acts R (poseidonHash host [(p,4),(q,4)]) m2 _ := acts_poseidonHash_two
      (hk1.trans hr2.keeps) (hr2.keeps.old hp1) (show (4 : Felt).val + 4 < FIELD_ORDER by decide)
    rw [hword2] at hhash
    exact acts_bind hhash fun r t ht => acts_pure (hplace r t ht)
  have hstring : (m0.Old index.pointer ∧ (m0.cell index.pointer).val + 4 < FIELD_ORDER) →
      disk.Acts R (do
        let len ← buildLoadInt index.pointer
        let hash ← poseidonHash host [(p,4),(vectorData index.pointer,len.felt)]
        pure (Value.ptr hash)) m1
          fun slot' t => PlaceAt host root n m0 ty' slot' t ∧ slot'.isPointer = true := by
    rintro ⟨hold,hlen⟩
    refine acts_bind (Q := fun v t => v.felt = m0.cell index.pointer ∧ t = m1)
      (acts_of_ignores (fun _ => rfl) fun v t ht => ?_) fun len m2 ⟨hfelt,hm2⟩ => ?_
    · cases ht
      exact ⟨hk1.cell hold,rfl⟩
    · subst hm2
      rw [hfelt]
      have hhash : disk.Acts R (poseidonHash host [(p,4),(vectorData index.pointer,_)]) m2 _ :=
        acts_poseidonHash_two hk1 hp1 hlen
      rw [hword1] at hhash
      exact acts_bind hhash fun r t ht => acts_pure (hplace r t ht)
  cases indexTy with
  | uint32 => exact hfour
  | field => exact hfour
  | bool => exact hfour
  | hash => exact hfour
  | address => exact hfour
  | dynamicBytes => exact hstring (hrange (.inr rfl))
  | string => exact hstring (hrange (.inl rfl))
  | _ => exact acts_fail _

/-- The slot of an element is behind the hash of the slot of its array, in fresh cells. -/
theorem acts_elementSlot (x : Felt) (elemTy : Ty) :
    disk.Acts R (arrayOffset host slot x elemTy) m fun d t =>
      Hashed host (slotKey m slot) m d t ∧ Keeps m t := by
  have hcast : x * (elemTy.storageSlots : ℕ) = (((x * (elemTy.storageSlots : ℕ)).val : ℕ) : Felt) :=
    (Felt.natCast_val _).symm
  rw [arrayOffset,hcast]
  refine acts_bind (acts_slotHash slot) fun d m1 hhash => ?_
  have hh := hhash.hashed (Nat.le_refl _)
  refine (acts_slotOffest d _ hh.old).mono fun d' t ha => ?_
  obtain ⟨rfl,hh'⟩ := hh.step ha
  obtain ⟨p,rfl,hnew,_⟩ := hh.pointer
  refine ⟨hh',SlotAt.keeps_fresh ha hhash.reads.keeps ?_⟩
  rintro q hq
  cases hq
  exact hnew

/-- The element behind the hash of a place. -/
theorem acts_arrayOffset (h : PlaceAt host root n m0 ty slot m) (hpos : 0 < ty.storageSlots)
    (x : Felt) (elemTy : Ty) :
    disk.Acts R (arrayOffset host slot x elemTy) m
      fun slot' t => PlaceAt host root n m0 ty' slot' t ∧ slot'.isPointer = true := by
  refine (acts_elementSlot x elemTy).mono fun d t ⟨hh,hk⟩ => ?_
  obtain ⟨p,rfl,hnew,hold⟩ := hh.pointer
  obtain ⟨j,hkey⟩ := hh.key
  refine ⟨h.hash hpos (h.keeps.trans hk) (fun ho => hnew (h.keeps.old ho)) hold ?_,rfl⟩
  rw [slotKey] at hkey
  rw [hkey]
  exact (under_hash _).offset j

theorem acts_buildInt (fold : BitVec 64 → BitVec 64 → BitVec 64) (op : Felt → Felt → Felt)
    (l r : Value) : disk.Acts R (buildInt fold op l r) m fun v t => t = m ∧ l.isPointer = false ∧
      r.isPointer = false ∧
      ((∃ a b, l = .const a ∧ r = .const b ∧ v = .const (fold a b)) ∨
        v = .int (op l.felt r.felt)) := by
  refine acts_of_ignores (fun f => ?_) fun v t ht => ?_
  · cases l <;> cases r <;> rfl
  · cases l with
    | ptr p => cases ht
    | const a => cases r with
      | ptr q => cases ht
      | const b =>
        cases ht
        exact ⟨rfl,rfl,rfl,.inl ⟨a,b,rfl,rfl,rfl⟩⟩
      | int y =>
        cases ht
        exact ⟨rfl,rfl,rfl,.inr rfl⟩
    | int x => cases r with
      | ptr q => cases ht
      | const b =>
        cases ht
        exact ⟨rfl,rfl,rfl,.inr rfl⟩
      | int y =>
        cases ht
        exact ⟨rfl,rfl,rfl,.inr rfl⟩

/-- A value that is computed passes the check only as a 32-bit number. -/
theorem acts_rangeCheck (v : Value) : disk.Acts R (rangeCheck v) m fun _ t =>
    t = m ∧ (v.isConst = false → Felt.IsU32 v.felt) := by
  rw [rangeCheck]
  by_cases hc : v.isConst = true
  · rw [if_pos hc]
    exact acts_pure ⟨rfl,fun h => by rw [hc] at h; cases h⟩
  · rw [if_neg hc]
    have hprint : disk.Acts R (printImmediate v) m fun _ t => t = m := by
      unfold printImmediate
      split
      · split
        · exact acts_fail _
        · exact acts_pure rfl
      · exact acts_pure rfl
    refine acts_bind hprint fun _ t ht => ?_
    subst ht
    split
    · rename_i hu
      exact acts_pure ⟨rfl,fun _ => hu⟩
    · exact acts_fail _

/-- An index that is computed and is at or above the length does not pass the check of
`length - 1 - index`, unless it is close to the field order. -/
theorem number_lt_of_isU32 {l : ℕ} (hu : Felt.IsU32 ((l : Felt) - 1 - index.felt))
    (hindex : index.isConst = false) (hrange : number index + 2^32 < l + FIELD_ORDER) :
    number index < l := by
  have hval : number index = index.felt.val := by
    cases index with
    | const w => cases hindex
    | int x => rfl
    | ptr p => rfl
  rw [hval] at hrange ⊢
  by_contra hge
  have hlt := Felt.val_lt index.felt
  have hlen : ((l : ℕ) : Felt).val = l := Felt.val_natCast_of_lt (by omega)
  have hiff := (ArrayBounds.isU32_iff (l : Felt) index.felt).mpr (by rw [hlen]; omega)
  rw [hlen] at hiff
  exact hge (hiff.mp hu)

/-- The last index, as the generator computes it from the length of a fixed array. -/
theorem lastIndex_felt {l : ℕ} (hpos : 1 ≤ l) (hl : l < 2^64) :
    (((BitVec.ofNat 64 l - 1).toNat : ℕ) : Felt) = (l : Felt) - 1 := by
  have hnat : (BitVec.ofNat 64 l - 1).toNat = l - 1 := by bv_omega
  rw [hnat,Nat.cast_sub hpos,Nat.cast_one]

theorem number_cast (v : Value) : ((number v : ℕ) : Felt) = v.felt := by
  cases v with
  | const w => rfl
  | int x => exact Felt.natCast_val x
  | ptr p => exact Felt.natCast_val p.address

/-- The slots of the elements make up those of a fixed array. -/
theorem storageSlots_fixed {l : ℕ} (hl : dims.getLast? = some (.fixed l)) :
    (Ty.array elem dims).storageSlots =
      l * (if dims.length > 1 then Ty.array elem dims.dropLast else elem).storageSlots := by
  obtain ⟨rest,rfl⟩ := List.getLast?_eq_some_iff.mp hl
  have hsize : Ty.dimsSize (rest ++ [.fixed l]) = Ty.dimsSize rest * l := by
    simp [Ty.dimsSize,Ty.dimSize]
  rw [Ty.storageSlots,hsize,List.dropLast_concat]
  cases rest with
  | nil => simp [Ty.dimsSize,Nat.mul_comm]
  | cons dim rest =>
    rw [if_pos (by simp),Ty.storageSlots,← Nat.mul_assoc,Nat.mul_comm]

/-- The element of a fixed array, which is indexed in integers. -/
theorem acts_fixedElement {l : ℕ} (hn : n ≤ FIELD_ORDER)
    (hsize : ty.storageSlots = l * ty'.storageSlots)
    (hindex : slot.isPointer = false → number index < l)
    (h : PlaceAt host root n m0 ty slot m) :
    disk.Acts R (do
      let offset ← buildIntMul index (.const (BitVec.ofNat 64 ty'.storageSlots))
      buildIntAdd offset slot) m
        fun slot' t => PlaceAt host root n m0 ty' slot' t ∧ slot'.isPointer = slot.isPointer := by
  refine acts_bind (acts_buildInt _ _ _ _) fun v m1 ⟨hm1,_,_,hv⟩ => ?_
  subst hm1
  refine (acts_buildInt _ _ _ _).mono fun v' m2 ⟨hm2,_,hslot,hv'⟩ => ?_
  subst hm2
  obtain ⟨j,hkey,hj⟩ := h.static hslot
  have hfit : (number index + 1) * ty'.storageSlots ≤ ty.storageSlots := by
    rw [hsize]
    exact Nat.mul_le_mul_right _ (hindex hslot)
  rw [Nat.add_mul,Nat.one_mul] at hfit
  have hord : FIELD_ORDER < 2^64 := by decide
  have hof : (BitVec.ofNat 64 ty'.storageSlots).toNat = ty'.storageSlots :=
    Nat.mod_eq_of_lt (by omega)
  have hfelt : v.felt = ((number index * ty'.storageSlots : ℕ) : Felt) ∧
      ∀ w, v = .const w → w.toNat = number index * ty'.storageSlots := by
    rcases hv with ⟨a,b,rfl,hb,rfl⟩ | rfl
    · cases hb
      have hmul : (a * BitVec.ofNat 64 ty'.storageSlots).toNat = number (.const a) * ty'.storageSlots := by
        rw [BitVec.toNat_mul,hof]
        exact Nat.mod_eq_of_lt (by
          show a.toNat * ty'.storageSlots < _
          have : number (.const a) = a.toNat := rfl
          rw [this] at hfit
          omega)
      refine ⟨by rw [← hmul]; rfl,fun w hw => ?_⟩
      cases hw
      exact hmul
    · refine ⟨?_,fun w hw => by cases hw⟩
      rw [Value.felt_int,Value.felt_const,hof,Nat.cast_mul,number_cast]
  have hsum : v'.felt = v.felt + slot.felt ∧ v'.isPointer = false ∧
      ∀ w, v' = .const w → ∃ b, slot = .const b ∧
        w.toNat = number index * ty'.storageSlots + b.toNat := by
    rcases hv' with ⟨a,b,rfl,rfl,rfl⟩ | rfl
    · have ha := hfelt.2 a rfl
      have hb := h.const b rfl
      have hadd : (a+b).toNat = a.toNat + b.toNat := by
        rw [BitVec.toNat_add]
        exact Nat.mod_eq_of_lt (by omega)
      refine ⟨?_,rfl,fun w hw => ?_⟩
      · show (((a+b).toNat : ℕ) : Felt) = _
        rw [hadd,Nat.cast_add]
        rfl
      · cases hw
        exact ⟨b,rfl,by omega⟩
    · exact ⟨rfl,rfl,fun w hw => by cases hw⟩
  have hat : SlotAt m2 slot (number index * ty'.storageSlots) m2 v' := by
    refine ⟨hsum.2.1.trans hslot.symm,fun p hp => ?_,?_,Nat.le_refl _,rfl,fun _ _ _ => rfl⟩
    · subst hp
      cases hslot
    · rw [slotKey_of_not_pointer hslot,slotKey_of_not_pointer hsum.2.1,hsum.1,hfelt.1,
        Word.offset_ofFelt,add_comm]
  refine ⟨h.step hat hfit fun w hw => ?_,hat.isPointer⟩
  obtain ⟨b,rfl,hwb⟩ := hsum.2.2 w hw
  have hb := h.const b rfl
  omega

/-- The length that an index is compared with may move a pointer slot. -/
theorem PlaceAt.back {j : ℕ} (h : PlaceAt host root n m0 ty slot m) (ha : SlotAt m slot j m' slot) :
    PlaceAt host root n m0 ty slot m' where
  keeps := SlotAt.keeps_fresh ha h.keeps h.fresh
  old := ha.old h.old
  fresh := h.fresh
  static := by
    intro hp
    rw [slotKey_of_not_pointer hp,← slotKey_of_not_pointer hp (m := m)]
    exact h.static hp
  hashed := by
    intro hp
    obtain ⟨i,hi,hu⟩ := h.hashed hp
    exact ⟨i,hi,ha.key ▸ hu.offset _⟩
  const := h.const

theorem acts_storageLength (h : PlaceAt host root n m0 ty slot m) (hpos : 0 < ty.storageSlots) :
    disk.Acts (region host root n) (do
      let (length,_) ← storageLoad host .uint32 slot
      pure length) m fun _ t => PlaceAt host root n m0 ty slot t := by
  have hload : Loads host 1 (storageLoad host .uint32) := storageLoad_loads .uint32 rfl
  refine acts_bind ((hload slot m h.old).subset ((region_mono hpos).trans h.region)) ?_
  rintro ⟨length,slot'⟩ t ⟨j,_,ha⟩
  obtain ⟨i,_,hb⟩ := ha.back
  exact acts_pure (h.back hb)

theorem PlaceAt.fixedLength_bound {l : ℕ} (h : PlaceAt host root n m0 (.array elem dims) slot m)
    (hn : n ≤ FIELD_ORDER) (hsized : (Ty.array elem dims).isSized = true)
    (hl : dims.getLast? = some (.fixed l)) (hp : slot.isPointer = false) : 1 ≤ l ∧ l < 2^64 := by
  have hpos := Ty.storageSlots_pos hsized
  obtain ⟨j,_,hj⟩ := h.static hp
  rw [storageSlots_fixed hl] at hpos hj
  have hord : FIELD_ORDER < 2^64 := by decide
  have hle := Nat.le_mul_of_pos_right l (Nat.pos_of_mul_pos_left hpos)
  exact ⟨Nat.pos_of_mul_pos_right hpos,by omega⟩

theorem acts_arraySubscript {indexTy : Ty} (hn : n ≤ FIELD_ORDER)
    (hsized : (Ty.array elem dims).isSized = true)
    (hindex : slot.isPointer = false →
      (Access.subscript index indexTy).IndexInRange (.array elem dims))
    (h : PlaceAt host root n m0 (.array elem dims) slot m) :
    disk.Acts (region host root n)
      (arraySubscript host (.storageRef (.array elem dims)) slot index indexTy) m fun slot' t =>
      PlaceAt host root n m0 (if dims.length > 1 then .array elem dims.dropLast else elem) slot' t ∧
        slot'.isPointer =
          (slot.isPointer || (Access.subscript index indexTy).hashes (.array elem dims)) := by
  have hpos := Ty.storageSlots_pos hsized
  have helem : (Ty.array elem dims).storageArrayElem.storageSlots =
      (if dims.length > 1 then Ty.array elem dims.dropLast else elem).storageSlots := by
    rw [Ty.storageArrayElem]
    split <;> rw [Ty.storageSlots]
  have hmap : (Ty.storageRef (.array elem dims)).isMapping = false := rfl
  have hcon : (Ty.storageRef (.array elem dims)).isContractStorage = true := rfl
  rw [arraySubscript,hmap,if_neg (by simp)]
  by_cases hfixed : ∃ l, dims.getLast? = some (.fixed l)
  · obtain ⟨l,hl⟩ := hfixed
    have hlen : (Ty.storageRef (.array elem dims)).arrayLength = some l := by
      simp [Ty.arrayLength,hl]
    simp only [subscriptLength,hlen,hcon,Option.isSome_some,if_true,Ty.derefAny,helem]
    refine acts_bind (acts_pure (Q := fun v t => v = .const (BitVec.ofNat 64 l) ∧ t = m)
      ⟨rfl,rfl⟩) fun len m1 hlength => ?_
    obtain ⟨rfl,rfl⟩ := hlength
    refine acts_bind (acts_buildInt _ _ _ _) fun a m1 hfirst => ?_
    obtain ⟨rfl,-,-,ha⟩ := hfirst
    refine acts_bind (acts_buildInt _ _ _ _) fun b m1 hsecond => ?_
    obtain ⟨rfl,-,-,hb⟩ := hsecond
    refine acts_bind (acts_rangeCheck b) fun _ m1 hcheck => ?_
    obtain ⟨rfl,hu⟩ := hcheck
    have hhashes : (Access.subscript index indexTy).hashes (.array elem dims) = false := by
      simp [Access.hashes,hl]
    rw [hhashes,Bool.or_false]
    refine acts_fixedElement hn (storageSlots_fixed hl) (fun hp => ?_) h
    rcases hindex hp l hl with hlt | ⟨hconst,hrange⟩
    · exact hlt
    · refine number_lt_of_isU32 ?_ hconst hrange
      obtain ⟨hone,hlt⟩ := h.fixedLength_bound hn hsized hl hp
      have ha' : a.felt = (l : Felt) - 1 := by
        rcases ha with ⟨x,y,hx,hy,rfl⟩ | rfl
        · cases hx
          cases hy
          exact lastIndex_felt hone hlt
        · have hmod : l % 18446744073709551616 = l := Nat.mod_eq_of_lt hlt
          simp [hmod]
      rcases hb with ⟨x,y,_,hy,_⟩ | rfl
      · rw [hy] at hconst
        cases hconst
      · rw [← ha']
        exact hu rfl
  · have hlen : (Ty.storageRef (.array elem dims)).arrayLength = none := by
      cases hlast : dims.getLast? with
      | none => simp [Ty.arrayLength,hlast]
      | some d =>
        cases d with
        | dynamic => simp [Ty.arrayLength,hlast]
        | fixed l => exact absurd ⟨l,hlast⟩ hfixed
    simp only [subscriptLength,hlen,hcon,Option.isSome_none,if_true,Ty.derefAny,Bool.false_eq_true,
      if_false]
    refine acts_bind (acts_storageLength h hpos) fun len m1 h1 => ?_
    refine acts_bind (acts_buildInt _ _ _ _) fun a m2 ha => ?_
    obtain ⟨rfl,-⟩ := ha
    refine acts_bind (acts_buildInt _ _ _ _) fun b m2 hb => ?_
    obtain ⟨rfl,-⟩ := hb
    refine acts_bind (acts_rangeCheck b) fun _ m2 hcheck => ?_
    obtain ⟨rfl,-⟩ := hcheck
    have hhashes : (Access.subscript index indexTy).hashes (.array elem dims) = true := by
      rw [Access.hashes]
      split
      · rename_i l hl
        exact absurd ⟨l,hl⟩ hfixed
      · rfl
    rw [hhashes,Bool.or_true]
    exact acts_arrayOffset h1 hpos _ _

/-! ### Paths -/

theorem isSized_of_mem {fields : List Ty} {i : ℕ} (h : Ty.isSizedFields fields = true)
    (hi : fields[i]? = some ty) : ty.isSized = true := by
  induction fields generalizing i with
  | nil => cases hi
  | cons f rest ih =>
    rw [Ty.isSizedFields,Bool.and_eq_true] at h
    cases i with
    | zero =>
      cases hi
      exact h.1
    | succ i => exact ih h.2 hi

theorem accessTy_isSized {a : Access} (h : ty.isSized = true) (ha : accessTy ty a = some ty') :
    ty'.isSized = true := by
  unfold accessTy at ha
  split at ha
  · rw [Ty.isSized,Bool.and_eq_true] at h
    exact isSized_of_mem h.2 ha
  · cases ha
    rwa [Ty.isSized] at h
  · rename_i elem dims index indexTy
    cases ha
    rw [Ty.isSized,Bool.and_eq_true] at h
    split
    · rw [Ty.isSized,Bool.and_eq_true]
      refine ⟨h.1,List.all_eq_true.mpr fun d hd => ?_⟩
      exact List.all_eq_true.mp h.2 d (List.mem_of_mem_dropLast hd)
    · exact h.1
  · cases ha

theorem acts_accessSlot {a : Access} (hn : n ≤ FIELD_ORDER) (hsized : ty.isSized = true)
    (hty : accessTy ty a = some ty') (hindex : slot.isPointer = false → a.IndexInRange ty)
    (hkey : a.KeyInMemory m0 ty) (h : PlaceAt host root n m0 ty slot m) :
    disk.Acts (region host root n) (accessSlot host ty slot a) m fun slot' t =>
      PlaceAt host root n m0 ty' slot' t ∧ slot'.isPointer = (slot.isPointer || a.hashes ty) := by
  unfold accessTy at hty
  split at hty
  · rename_i fields i
    have hhashes : (Access.member i).hashes (.struct fields) = false := rfl
    rw [hhashes,Bool.or_false]
    exact acts_structMember hty h
  · rename_i key value index indexTy
    cases hty
    have hmap : (Ty.storageRef (.mapping key ty')).isMapping = true := rfl
    rw [accessSlot,arraySubscript,if_pos hmap,Access.hashes,Bool.or_true]
    exact acts_mappingSubscript h hkey
  · cases hty
    exact acts_arraySubscript hn hsized hindex h
  · cases hty

theorem acts_placeFrom {path : List Access} (hn : n ≤ FIELD_ORDER) (hsized : ty.isSized = true)
    (hrange : PathInRange m0 slot.isPointer ty path) (h : PlaceAt host root n m0 ty slot m) :
    disk.Acts (region host root n) (placeFrom host ty slot path) m fun r t =>
      r.1.isSized = true ∧ PlaceAt host root n m0 r.1 r.2 t := by
  induction path generalizing ty slot m with
  | nil => exact acts_pure ⟨hsized,h⟩
  | cons a path ih =>
    rw [placeFrom]
    split
    · exact acts_fail _
    · rename_i ty' hty
      refine acts_bind (acts_accessSlot hn hsized hty hrange.1 hrange.2.1 h) fun slot' t ht => ?_
      refine ih (accessTy_isSized hsized hty) ?_ ht.1
      rw [ht.2]
      exact hrange.2.2 ty' hty

/-! ### Actions -/

theorem storageArrayElem_isSized : ∀ {ty : Ty}, ty.isSized = true →
    ty.storageArrayElem.isSized = true
  | .mapping key value, h => by
    rw [Ty.storageArrayElem,Ty.isSized]
    rwa [Ty.isSized] at h
  | .array elem dims, h => by
    have hty := accessTy_isSized (a := .subscript (.int 0) .uint32) h rfl
    rw [Ty.storageArrayElem]
    split <;> rename_i hd <;> simpa [hd,Ty.isSized] using hty
  | .storageRef ty, h => by
    rw [Ty.storageArrayElem]
    rw [Ty.isSized] at h
    exact storageArrayElem_isSized h
  | .ref _, h | .struct _, h | .void, h | .bool, h | .uint32, h | .field, h | .enum, h | .address, h
  | .contract, h | .hash, h | .dynamicBytes, h | .string, h => h

theorem derefAny_isSized (h : ty.isSized = true) : ty.derefAny.isSized = true := by
  unfold Ty.derefAny
  split
  · rwa [Ty.isSized] at h
  · rwa [Ty.isSized] at h
  · exact h

theorem acts_push (hsized : ty.isSized = true) (values : List Value)
    (h : PlaceAt host root n m0 ty slot m) :
    disk.Acts (region host root n) (storageArrayPush host (.storageRef ty) slot values) m
      fun _ _ => True := by
  have hpos := Ty.storageSlots_pos hsized
  have hkey : slotKey m slot ∈ region host root n := h.region (mem_region hpos)
  have href : (Ty.storageRef ty).isSized = true := by rwa [Ty.isSized]
  have helem := storageArrayElem_isSized href
  simp only [storageArrayPush,pushPosition,Exec.bind_assoc,Exec.pure_bind]
  refine acts_bind (acts_storageLoadCell hkey) fun length m1 ⟨hr1,_⟩ => ?_
  have hk1 := slotKey_keeps h.old hr1.keeps
  refine acts_bind (acts_elementSlot _ _) fun d m2 ⟨hh,hkeeps2⟩ => ?_
  rw [hk1] at hh
  have hat := SlotAt.of_keeps (h.old.mono hr1.keeps) hkeeps2
  have hlast : ∀ m3, SlotAt m1 slot 0 m3 slot → disk.Acts (region host root n)
      (storageStoreInternal slot (.int (length+1))) m3 fun _ _ => True := by
    intro m3 ha
    refine (acts_storageStoreAny ?_ (ha.old (h.old.mono hr1.keeps)) _).mono fun _ _ _ => trivial
    rw [ha.key,Nat.cast_zero,Word.offset_zero,hk1]
    exact hkey
  refine acts_bind (Q := fun _ _ => True) ?_ fun _ _ _ => acts_pure trivial
  unfold pushStore
  cases values with
  | nil => exact hlast m2 hat
  | cons value rest =>
    obtain ⟨p,rfl,hnew,_⟩ := hh.pointer
    refine acts_bind ((storageStore_walks _ helem value _ m2 hh.old).subset
      ((hh.region hpos).trans h.region)) fun d' m3 ⟨j,_,ha⟩ => ?_
    exact hlast m3 (hat.inner (h.old.mono hr1.keeps) hnew ha)

theorem acts_pop (hsized : ty.isSized = true) (h : PlaceAt host root n m0 ty slot m) :
    disk.Acts (region host root n) (storageArrayPop host (.storageRef ty) slot) m
      fun _ _ => True := by
  have hpos := Ty.storageSlots_pos hsized
  have hkey : slotKey m slot ∈ region host root n := h.region (mem_region hpos)
  have href : (Ty.storageRef ty).isSized = true := by rwa [Ty.isSized]
  have helem := derefAny_isSized (storageArrayElem_isSized href)
  rw [storageArrayPop]
  refine acts_bind (acts_storageLoadCell hkey) fun length m1 ⟨hr1,_⟩ => ?_
  have hk1 := slotKey_keeps h.old hr1.keeps
  have hs1 := h.old.mono hr1.keeps
  refine acts_bind (acts_elementSlot _ _) fun d m2 ⟨hh,hkeeps2⟩ => ?_
  rw [hk1] at hh
  have hat := SlotAt.of_keeps hs1 hkeeps2
  refine acts_bind ((storageLoad_loads _ helem _ m2 hh.old).subset
    ((hh.region hpos).trans h.region)) ?_
  rintro ⟨ret,d'⟩ m3 ⟨j,_,ha⟩
  obtain ⟨rfl,hh3⟩ := hh.step ha
  obtain ⟨p,rfl,hnew,_⟩ := hh.pointer
  have hat3 := hat.inner hs1 hnew ha
  refine acts_bind ((storageDelete_walks _ helem _ m3 hh3.old).subset
    ((hh3.region hpos).trans h.region)) fun d' m4 ⟨j',_,ha'⟩ => ?_
  have hat4 := hat3.inner hs1 hnew ha'
  refine acts_bind (acts_storageStoreAny ?_ (hat4.old hs1) _) fun _ _ _ => acts_pure trivial
  rw [hat4.key,Nat.cast_zero,Word.offset_zero,hk1]
  exact hkey

/-- An action at a place of a variable reads and writes its part of the storage only. -/
theorem acts_actAt (hsized : ty.isSized = true) (action : Action)
    (h : PlaceAt host root n m0 ty slot m) :
    disk.Acts (region host root n) (actAt host ty slot action) m fun _ _ => True := by
  cases action with
  | load =>
    exact acts_bind ((storageLoad_loads ty hsized slot m h.old).subset h.region)
      fun _ _ _ => acts_pure trivial
  | store value =>
    exact acts_bind ((storageStore_walks ty hsized value slot m h.old).subset h.region)
      fun _ _ _ => acts_pure trivial
  | delete =>
    exact acts_bind ((storageDelete_walks ty hsized slot m h.old).subset h.region)
      fun _ _ _ => acts_pure trivial
  | push values => exact acts_bind (acts_push hsized values h) fun _ _ _ => acts_pure trivial
  | pop => exact acts_bind (acts_pop hsized h) fun _ _ _ => acts_pure trivial

end Places

/-! ### Runs -/

section Runs

variable {host : Host} {c : Contract} {V : Set ℕ} {m t : State} {place : Place} {l : Layout}

/-- The variables of a contract have types without empty arrays and structs. -/
def Contract.IsSized (c : Contract) : Prop :=
  ∀ v ∈ c.vars, v.constant = false → v.ty.isSized = true

/-- The part of the storage that belongs to a variable. -/
def own (host : Host) (l : Layout) : Set Word :=
  region host (Word.ofFelt (l.slot : ℕ)) l.ty.storageSlots

theorem layout_isSized (hc : c.IsSized) (hl : l ∈ c.layout) : l.ty.isSized = true := by
  obtain ⟨v,hv,hconst,hty⟩ := ((layoutFrom_slots _ _ _ _).2.1 l hl).2.2.2.2
  exact hty ▸ hc v hv hconst

/-- One operation of a run. -/
theorem acts_operate (hc : c.IsSized) (hfits : c.Fits place.varNo)
    (hl : c.findLayout c.contractNo place.varNo = some l) (hrange : c.InRange m place)
    (action : Action) :
    disk.Acts (own host l) (operate host c place action) m fun _ _ => True := by
  have hmem := (mem_of_findLayout hl).1
  have hend := hfits l hl
  have hsized := layout_isSized hc hmem
  have hord : FIELD_ORDER < 2^64 := by decide
  have hslot : (BitVec.ofNat 64 l.slot).toNat = l.slot := Nat.mod_eq_of_lt (by omega)
  have hget : c.getStorageSlot c.contractNo place.varNo =
      pure (l,.const (BitVec.ofNat 64 l.slot)) := by
    simp only [Contract.getStorageSlot,hl]
    rw [if_pos (by omega)]
  rw [operate,hget,Exec.pure_bind]
  have hplace : PlaceAt host (Word.ofFelt (l.slot : ℕ)) l.ty.storageSlots m l.ty
      (.const (BitVec.ofNat 64 l.slot)) m := by
    refine ⟨Keeps.refl m,trivial,fun p hp => (by cases hp),fun _ => ⟨0,?_,by omega⟩,
      fun hp => (by cases hp),fun w hw => ?_⟩
    · rw [Nat.cast_zero,Word.offset_zero,slotKey,Value.felt_const,hslot]
      rintro p hp
      cases hp
    · cases hw
      omega
  refine acts_bind (acts_placeFrom (by omega) hsized (hrange l hl) hplace) ?_
  rintro ⟨ty,slot⟩ t ⟨hty,ht⟩
  exact acts_actAt hty action ht

theorem operate_unallocated (h : c.findLayout c.contractNo place.varNo = none) (action : Action) :
    operate host c place action = Exec.fail .panic := by
  have hget : c.getStorageSlot c.contractNo place.varNo = Exec.fail .panic := by
    simp only [Contract.getStorageSlot,h]
  rw [operate,hget]
  rfl

/-- An operation on a variable leaves the slots of another one as they are. -/
theorem operate_unchanged (hc : c.IsSized) (hsep : Separate host (slots c.fixedLayoutSize))
    (hfits : c.Fits place.varNo) (hl : l ∈ c.layout) (hend : l.slot + l.ty.storageSlots ≤ FIELD_ORDER)
    (hne : l.varNo ≠ place.varNo) (hrange : c.InRange m place) {action : Action}
    {r : Option Value} (hop : operate host c place action m = .ok (r,t)) {k : Word}
    (hk : k ∈ own host l) : t.storage k = m.storage k := by
  cases hfind : c.findLayout c.contractNo place.varNo with
  | none =>
    rw [operate_unallocated hfind] at hop
    cases hop
  | some l' =>
    obtain ⟨hmem,hno⟩ := mem_of_findLayout hfind
    have hne' : l'.varNo ≠ l.varNo := by
      rw [hno]
      exact hne.symm
    refine (acts_operate hc hfits hfind hrange action).unchanged hop fun hk' => ?_
    exact region_disjoint hsep (layout_end hmem) (hfits l' hfind) (layout_end hl) hend
      (layout_apart hmem hl hne') hk' hk

theorem fits_of_size (hsize : c.fixedLayoutSize ≤ FIELD_ORDER) (varNo : ℕ) : c.Fits varNo :=
  fun _ hl => (layout_end (mem_of_findLayout hl).1).trans hsize

theorem run_unchanged (hc : c.IsSized) (hsize : c.fixedLayoutSize ≤ FIELD_ORDER)
    (hsep : Separate host (slots c.fixedLayoutSize)) (hrun : Run host c V m t) (hl : l ∈ c.layout)
    (hv : l.varNo ∉ V) {k : Word} (hk : k ∈ own host l) : t.storage k = m.storage k := by
  induction hrun with
  | refl => rfl
  | other _ hs ih => rw [hs,ih]
  | @operate m1 m2 place action r _ hp hrange hop ih =>
    rw [← ih]
    refine operate_unchanged hc hsep (fits_of_size hsize _) hl ((layout_end hl).trans hsize) ?_
      hrange hop hk
    rintro heq
    rw [heq] at hv
    exact hv hp

theorem restore_restore (f : State → Word → Word) (g : Word → Word)
    (r : Except Fault (Option Value × State)) :
    disk.restore (fun _ => g) (disk.restore f r) = disk.restore (fun _ => g) r := by
  cases r <;> rfl

/-- An operation does the same on two storages that agree on what belongs to its variable. -/
theorem operate_same (hc : c.IsSized) (hfits : c.Fits place.varNo)
    (hrange : c.InRange t place) (action : Action) {g : Word → Word}
    (heq : ∀ l, c.findLayout c.contractNo place.varNo = some l →
      Set.EqOn g (disk.get t) (own host l)) (f : Word → Word) :
    disk.restore (fun _ => f) (operate host c place action (disk.put t g)) =
      disk.restore (fun _ => f) (operate host c place action t) := by
  cases hfind : c.findLayout c.contractNo place.varNo with
  | none =>
    rw [operate_unallocated hfind]
    rfl
  | some l =>
    rw [(acts_operate hc hfits hfind hrange action).same g (heq l hfind),restore_restore]

/-- A run on some variables of a contract leaves the storage of the other variables as it is, and an
operation on one of these afterwards does what it would have done on the storage from before the
run: it stops in the same way or gives the same value and the same memory. -/
theorem run_isolated (hc : c.IsSized) (hsize : c.fixedLayoutSize ≤ FIELD_ORDER)
    (hsep : Separate host (slots c.fixedLayoutSize)) (hrun : Run host c V m t) :
    (∀ l ∈ c.layout, l.varNo ∉ V → ∀ k ∈ own host l, t.storage k = m.storage k) ∧
    ∀ place action, place.varNo ∉ V → c.InRange t place → ∀ f : Word → Word,
      disk.restore (fun _ => f) (operate host c place action (disk.put t m.storage)) =
        disk.restore (fun _ => f) (operate host c place action t) := by
  refine ⟨fun l hl hv k hk => run_unchanged hc hsize hsep hrun hl hv hk,?_⟩
  intro place action hv hrange f
  refine operate_same hc (fits_of_size hsize _) hrange action (fun l hl k hk => ?_) f
  obtain ⟨hmem,hno⟩ := mem_of_findLayout hl
  exact (run_unchanged hc hsize hsep hrun hmem (hno ▸ hv) hk).symm

/-! ### One operation -/

/-- A load of variable `y` in `t` gives the value and the memory that it would give on the storage
of `m`. -/
def Undisturbed (host : Host) (c : Contract) (y : ℕ) (m t : State) : Prop :=
  ∀ f : Word → Word,
    disk.restore (fun _ => f) (operate host c ⟨y,[]⟩ .load (disk.put t m.storage)) =
      disk.restore (fun _ => f) (operate host c ⟨y,[]⟩ .load t)

/-- An operation at a place of one variable does not show in the other variables, when no index of
a fixed array on the way is out of range past the check, and the slots of the two variables are
field elements. -/
theorem operate_undisturbed (hc : c.IsSized) (hsep : Separate host (slots c.fixedLayoutSize))
    {action : Action} {r : Option Value} (hfits : c.Fits place.varNo) (hrange : c.InRange m place)
    (hop : operate host c place action m = .ok (r,t)) {y : ℕ} (hfits' : c.Fits y)
    (hne : y ≠ place.varNo) : Undisturbed host c y m t := by
  have hroot : c.InRange t ⟨y,[]⟩ := fun _ _ => trivial
  intro f
  refine operate_same hc hfits' hroot .load (fun l hl k hk => ?_) f
  obtain ⟨hmem,hno⟩ := mem_of_findLayout hl
  exact (operate_unchanged hc hsep hfits hmem (hfits' l hl) (hno ▸ hne) hrange hop hk).symm

end Runs

/-! ### An example -/

/-- A hash that keeps the slot it started from apart from all else. -/
def tagHash : List Felt → Word
  | a::b::_::d::_ => if a = 1 then ⟨1,b,0,0⟩ else ⟨1,d,0,0⟩
  | _ => Word.zero

def tagHost : Host := ⟨tagHash,fun _ => 0,fun _ _ => 0,fun _ _ => 0,fun _ => 0,fun _ => 0⟩

theorem under_tag {x : Felt} {k : Word} (h : Under tagHost (Word.ofFelt x) k) :
    k.c0 = 1 ∧ k.c1 = x := by
  induction h with
  | single h =>
    obtain ⟨key,j,rfl⟩ := h
    have hne : (0 : Felt) ≠ 1 := by decide
    simp [tagHost,Word.toList,Word.ofFelt,tagHash,hne,Word.offset]
  | tail _ h ih =>
    obtain ⟨key,j,rfl⟩ := h
    simp [tagHost,Word.toList,tagHash,ih.1,ih.2,Word.offset]

theorem tag_separate (size : ℕ) : Separate tagHost (slots size) where
  fresh := by
    rintro a ⟨i,_,rfl⟩ b ⟨j,_,rfl⟩ h
    have hne : (0 : Felt) ≠ 1 := by decide
    exact hne (under_tag h).1
  apart := by
    rintro a ⟨i,_,rfl⟩ b ⟨j,_,rfl⟩ hne k hi hj
    exact hne (by rw [← (under_tag hi).2,(under_tag hj).2])

/-- A dynamic array in slot 0 and a number in slot 1. -/
def testContract : Contract :=
  ⟨0,[⟨.array .uint32 [.dynamic],false⟩,⟨.uint32,true⟩,⟨.uint32,false⟩]⟩

def testState : State := ⟨fun _ => .int 0,0,0,fun k => k⟩

/-- A push to the array leaves the number alone. -/
theorem push_isolated : ∃ r t, operate tagHost testContract ⟨0,[]⟩ (.push [.int 7]) testState =
      .ok (r,t) ∧ t.storage (Word.ofFelt 1) = testState.storage (Word.ofFelt 1) := by
  have hrun : ∃ r t, operate tagHost testContract ⟨0,[]⟩ (.push [.int 7]) testState = .ok (r,t) :=
    ⟨_,_,rfl⟩
  obtain ⟨r,t,hrun⟩ := hrun
  refine ⟨r,t,hrun,?_⟩
  have hstep : Run tagHost testContract {0} testState t :=
    .operate (.refl _) (show (Place.mk 0 []).varNo ∈ ({0} : Set ℕ) from rfl)
      (fun _ _ => trivial) hrun
  have hsized : testContract.IsSized := by
    intro v hv hconst
    simp only [testContract,List.mem_cons,List.not_mem_nil,or_false] at hv
    rcases hv with rfl | rfl | rfl
    · rfl
    · cases hconst
    · rfl
  have hlayout : ⟨1,0,2,.uint32⟩ ∈ testContract.layout := by
    simp [testContract,Contract.layout,layoutFrom,Ty.storageSlots,Ty.dimsSize,Ty.dimSize]
  exact (run_isolated hsized (by decide) (tag_separate _) hstep).1 _ hlayout (by decide) _
    (mem_region Nat.one_pos)

/-- A fixed array in slots 0 and 1 and a number in slot 2. -/
def arrayContract : Contract := ⟨0,[⟨.array .uint32 [.fixed 2],false⟩,⟨.uint32,false⟩]⟩

theorem arrayContract_isSized : arrayContract.IsSized := by
  intro v hv _
  simp only [arrayContract,List.mem_cons,List.not_mem_nil,or_false] at hv
  rcases hv with rfl | rfl <;> rfl

/-- The element at a constant index of `arrayContract`. -/
def elementPlace (index : BitVec 64) : Place := ⟨0,[.subscript (.const index) .uint32]⟩

/-- A store to the last element leaves the number alone. -/
theorem lastElement_undisturbed :
    ∃ r t, operate tagHost arrayContract (elementPlace 1) (.store (.int 7)) testState = .ok (r,t) ∧
      Undisturbed tagHost arrayContract 1 testState t := by
  have hrun : ∃ r t, operate tagHost arrayContract (elementPlace 1) (.store (.int 7)) testState =
      .ok (r,t) := ⟨_,_,rfl⟩
  obtain ⟨r,t,hop⟩ := hrun
  have hrange : arrayContract.InRange testState (elementPlace 1) := by
    intro l hl
    cases hl
    refine ⟨fun _ n hn => ?_,trivial,fun _ _ => trivial⟩
    cases hn
    exact .inl (by decide)
  exact ⟨r,t,hop,operate_undisturbed arrayContract_isSized (tag_separate _)
    (fits_of_size (by decide) _) hrange hop (fits_of_size (by decide) _) (by decide)⟩

/-- The number a load gave. -/
def loaded : Except Fault (Option Value × State) → Option Felt
  | .ok (v,_) => v.map Value.felt
  | .error _ => none

/-- A store behind the array, which nothing refuses when the index is constant, is a store to the
number. -/
theorem behindArray_disturbed : ¬ ∀ (host : Host) (c : Contract), c.IsSized →
    c.fixedLayoutSize ≤ FIELD_ORDER → Separate host (slots c.fixedLayoutSize) →
    ∀ (place : Place) (action : Action) (m t : State) (r : Option Value) (y : ℕ),
      operate host c place action m = .ok (r,t) → y ≠ place.varNo → Undisturbed host c y m t := by
  intro hall
  have h := hall tagHost arrayContract arrayContract_isSized (by decide) (tag_separate _)
    (elementPlace 2) (.store (.int 7)) testState _ _ 1 rfl (by decide) id
  have hfelt := congrArg loaded h
  revert hfelt
  decide

end ContractStorage
end OlaLang
