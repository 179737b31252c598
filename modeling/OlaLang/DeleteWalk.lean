import OlaLang.StorageWalk

/-! What a delete clears: the walk over the slots of a type, step by step, and the storage behind
it. -/
namespace OlaLang

/-! ### Walks -/

/-- A walk of a slot operand: the slots it stands at, counted from its start, and how far it moves
the operand. -/
structure Walk where
  offsets : List ℕ
  move : ℕ
  deriving DecidableEq

namespace Walk

def still : Walk := ⟨[0],0⟩

def skip (n : ℕ) : Walk := ⟨[],n⟩

def seq (a b : Walk) : Walk := ⟨a.offsets ++ b.offsets.map (a.move + ·),a.move + b.move⟩

def times (w : Walk) : ℕ → Walk
  | 0 => skip 0
  | n+1 => (w.times n).seq w

/-- A loop moves a pointer operand; an integer operand is back where it was. -/
def loop (pointer : Bool) (w : Walk) (n : ℕ) : Walk :=
  ⟨(w.times n).offsets,if pointer then (w.times n).move else 0⟩

/-- The keys of the slots, from the key `k` on. -/
def keys (w : Walk) (k : Word) : Set Word := { k' | ∃ o ∈ w.offsets, k' = k.offset (o : ℕ) }

variable {a b w : Walk} {k k' : Word}

@[simp] theorem seq_move (a b : Walk) : (a.seq b).move = a.move + b.move := rfl
@[simp] theorem skip_move (n : ℕ) : (skip n).move = n := rfl
@[simp] theorem keys_skip (n : ℕ) (k : Word) : (skip n).keys k = ∅ := by simp [keys,skip]
@[simp] theorem keys_still (k : Word) : still.keys k = {k} := by simp [keys,still]
@[simp] theorem keys_loop (pointer : Bool) (w : Walk) (n : ℕ) (k : Word) :
    (w.loop pointer n).keys k = (w.times n).keys k := rfl

@[simp] theorem keys_seq (a b : Walk) (k : Word) :
    (a.seq b).keys k = a.keys k ∪ b.keys (k.offset (a.move : ℕ)) := by
  funext k'
  simp only [keys,seq,List.mem_append,List.mem_map,Set.ofPred_or,or_and_right,exists_or,
    Word.offset_offset,← Nat.cast_add,exists_exists_and_eq_and]

end Walk

namespace Storage

open KeyedStore State
open Exec (Returns returns_bind returns_pure returns_loop bind_ok)
open Builder Corelib

variable {host : Host} {m m' m'' t : State} {slot slot' d : Value} {k : Word} {f g f' : Word → Word}
  {Z Z' : Set Word}

/-- The step to the next element, as `advance` takes it. -/
def advanceWalk (ty : Ty) : Walk := .skip ty.advanceSteps

/-- The step to the next member, as `advanceField` takes it. -/
def advanceFieldWalk : Ty → Walk
  | .string => .skip 1
  | ty => advanceWalk ty

def deleteRows (pointer : Bool) (elem : Walk) (elemTy : Ty) : List ArrayLength → Walk
  | [] => elem
  | .fixed n::rest => ((deleteRows pointer elem elemTy rest).seq
      (advanceWalk (Ty.arrayDeref (.array elemTy (.fixed n::rest).reverse)))).loop pointer (max 1 n)
  | .dynamic::_ => .still

mutual

/-- The slots that `storageDelete` clears, those behind a hash apart. -/
def deleteWalk (pointer : Bool) : Ty → Walk
  | .ref ty | .storageRef ty => deleteWalk pointer ty
  | .array elemTy dims => deleteRows pointer (deleteWalk pointer elemTy) elemTy dims.reverse
  | .struct fields => deleteWalkFields pointer fields
  | .mapping _ _ => .skip 0
  | .string | .dynamicBytes | .address | .contract | .hash | .uint32 | .bool | .enum | .field
  | .void => .still

def deleteWalkFields (pointer : Bool) : List Ty → Walk
  | [] => .skip 0
  | ty::rest =>
    ((deleteWalk pointer ty).seq (advanceFieldWalk ty)).seq (deleteWalkFields pointer rest)

end

/-! ### Wiped storage -/

/-- `b` is a step behind the hash of the slot `a`, which holds something. -/
def HashStep (host : Host) (f : Word → Word) (a b : Word) : Prop :=
  f a ≠ Word.zero ∧ ∃ j : Felt, b = (host.poseidon a.toList).offset j

/-- A key that is reached from a slot by hashing slots that hold something. -/
def Chain (host : Host) (f : Word → Word) : Word → Word → Prop := Relation.TransGen (HashStep host f)

theorem Chain.offset {a b : Word} (h : Chain host f a b) (j : Felt) : Chain host f a (b.offset j) := by
  cases h with
  | single h =>
    obtain ⟨ha,i,rfl⟩ := h
    exact .single ⟨ha,i+j,Word.offset_offset _ _ _⟩
  | tail hu hc =>
    obtain ⟨ha,i,rfl⟩ := hc
    exact .tail hu ⟨ha,i+j,Word.offset_offset _ _ _⟩

/-- A chain needs its slots to be in use. -/
theorem Chain.mono {a b : Word} (h : Chain host g a b) (hfg : ∀ k, f k = Word.zero → g k = Word.zero) :
    Chain host f a b := by
  induction h with
  | single h => exact .single ⟨fun hf => h.1 (hfg _ hf),h.2⟩
  | tail _ h ih => exact .tail ih ⟨fun hf => h.1 (hfg _ hf),h.2⟩

theorem Chain.start {a b : Word} (h : Chain host f a b) : f a ≠ Word.zero := by
  induction h with
  | single h => exact h.1
  | tail _ _ ih => exact ih

/-- The keys of `Z` are cleared; another key changes only when it is cleared as an entry of a slot of
`Z` that was not empty. -/
structure Wipes (host : Host) (Z : Set Word) (f g : Word → Word) : Prop where
  zero : ∀ k ∈ Z, g k = Word.zero
  kept : ∀ k, g k = f k ∨ g k = Word.zero ∧ ∃ z ∈ Z, k = z ∨ Chain host f z k

theorem Wipes.refl (f : Word → Word) : Wipes host ∅ f f := ⟨fun _ hk => hk.elim,fun _ => .inl rfl⟩

/-- An empty slot stays empty. -/
theorem Wipes.empty (h : Wipes host Z f g) (hk : f k = Word.zero) : g k = Word.zero := by
  obtain hk'|⟨hk',-⟩ := h.kept k
  · rw [hk',hk]
  · exact hk'

theorem Wipes.trans (h : Wipes host Z f g) (h' : Wipes host Z' g f') : Wipes host (Z ∪ Z') f f' := by
  constructor
  · rintro k (hk|hk)
    · exact h'.empty (h.zero k hk)
    · exact h'.zero k hk
  · intro k
    obtain hk'|⟨hzero,z,hz,hzk⟩ := h'.kept k
    · obtain hk|⟨hzero,z,hz,hzk⟩ := h.kept k
      · exact .inl (hk'.trans hk)
      · exact .inr ⟨hk'.trans hzero,z,.inl hz,hzk⟩
    · exact .inr ⟨hzero,z,.inr hz,hzk.imp id fun hchain => hchain.mono fun _ hf => h.empty hf⟩

theorem Wipes.clear (host : Host) (f : Word → Word) (k : Word) :
    Wipes host {k} f (Function.update f k Word.zero) := by
  constructor
  · rintro k' rfl
    exact Function.update_self ..
  · intro k'
    by_cases hk : k' = k
    · exact .inr ⟨by rw [hk]; exact Function.update_self ..,k,rfl,.inl hk⟩
    · exact .inl (Function.update_of_ne hk ..)

/-- Where no slot of the walk holds anything, nothing changes. -/
theorem Wipes.idle (h : Wipes host Z f g) (hZ : ∀ z ∈ Z, f z = Word.zero) : g = f := by
  funext k
  obtain hk|⟨hzero,z,hz,rfl|hchain⟩ := h.kept k
  · exact hk
  · rw [hzero,hZ k hz]
  · exact absurd (hZ z hz) hchain.start

/-! ### The walk of a delete -/

/-- What the walk of an element does, by the kind of its operand. -/
def Deletes (host : Host) (w : Bool → Walk) (c : Value → Code Value) : Prop :=
  ∀ slot m, SlotOld m slot → Returns (c slot) m fun d m' =>
    SlotAt m slot (w slot.isPointer).move m' d ∧
      Wipes host ((w slot.isPointer).keys (slotKey m slot)) m.storage m'.storage

/-- One walk behind another. -/
theorem Deletes.seq {w w' : Bool → Walk} {c c' : Value → Code Value} (h : Deletes host w c)
    (h' : Deletes host w' c') :
    Deletes host (fun pointer => (w pointer).seq (w' pointer)) fun slot => (do
      let slot ← c slot
      c' slot) := by
  intro slot m hs
  refine returns_bind ((h slot m hs).mono fun d t ⟨ha,hw⟩ => ?_)
  refine (h' d t (ha.old hs)).mono fun d' t' ⟨ha',hw'⟩ => ?_
  rw [ha.isPointer] at ha' hw'
  refine ⟨ha.trans ha',?_⟩
  rw [ha.key] at hw'
  rw [Walk.keys_seq]
  exact hw.trans hw'

theorem advance_deletes (ty : Ty) : Deletes host (fun _ => advanceWalk ty) (advance ty) := by
  intro slot m hs
  rw [advanceWalk,Walk.keys_skip,Ty.advanceSteps]
  by_cases h : ty.isReferenceType = true
  · rw [advance,if_pos h,if_pos h]
    exact returns_pure ⟨SlotAt.refl m slot,Wipes.refl _⟩
  · rw [advance,if_neg h,if_neg h]
    refine (slotOffest_slotAt slot ty.storageSlots m hs).mono fun d t ⟨ha,hstorage⟩ => ⟨ha,?_⟩
    rw [hstorage]
    exact Wipes.refl _

theorem advanceField_deletes (ty : Ty) :
    Deletes host (fun _ => advanceFieldWalk ty) (advanceField ty) := by
  cases ty with
  | string =>
    intro slot m hs
    rw [advanceFieldWalk,Walk.keys_skip]
    refine (slotOffest_slotAt slot 1 m hs).mono fun d t ⟨ha,hstorage⟩ => ⟨ha,?_⟩
    rw [hstorage]
    exact Wipes.refl _
  | _ => exact advance_deletes _

theorem clear_deletes : Deletes host (fun _ => Walk.still) fun slot => (do
    storageClearInternal slot
    pure slot) := by
  intro slot m hs
  refine returns_bind ((storageClearInternal_spec slot m hs).mono fun _ t ⟨hk,hstorage⟩ => ?_)
  refine returns_pure ⟨SlotAt.of_keeps hs hk,?_⟩
  rw [Walk.keys_still,hstorage]
  exact Wipes.clear host _ _

/-- After a loop an integer operand is back where it was. -/
theorem SlotAt.loop {j : ℕ} (h : SlotAt m slot j m' slot') :
    SlotAt m slot (if slot.isPointer then j else 0) m' slot := by
  cases hp : slot.isPointer with
  | true =>
    cases slot with
    | ptr p =>
      rw [h.same p rfl] at h
      exact h
    | const w => cases hp
    | int x => cases hp
  | false =>
    refine ⟨rfl,fun _ hp => hp,?_,h.heap,h.stack,h.mem⟩
    rw [slotKey_of_not_pointer hp,slotKey_of_not_pointer hp,if_neg (by simp),Nat.cast_zero,
      Word.offset_zero]

theorem staticLoop_deletes {w : Bool → Walk} {c : Value → Code Value} (h : Deletes host w c) (n : ℕ) :
    Deletes host (fun pointer => (w pointer).loop pointer (max 1 n)) fun slot => (do
      emitStaticLoopWithInt 0 n slot fun _ slot => c slot
      pure slot) := by
  intro slot m hs
  have hloop : Returns (Exec.loop (fun _ slot => c slot) (max 1 (n-0)) 0 slot.stored) m fun s t =>
      SlotAt m slot ((w slot.isPointer).times (0 + max 1 (n-0))).move t s ∧
        Wipes host (((w slot.isPointer).times (0 + max 1 (n-0))).keys (slotKey m slot)) m.storage
          t.storage := by
    refine returns_loop (I := fun i s t => SlotAt m slot ((w slot.isPointer).times i).move t s ∧
      Wipes host (((w slot.isPointer).times i).keys (slotKey m slot)) m.storage t.storage) ?_ ?_
    · rw [Walk.times,Walk.keys_skip]
      exact ⟨SlotAt.stored m slot,Wipes.refl _⟩
    · rintro i s t - - ⟨ha,hw⟩
      refine (h s t (ha.old hs)).mono fun s' t' ⟨ha',hw'⟩ => ?_
      rw [ha.isPointer] at ha' hw'
      rw [ha.key] at hw'
      rw [Walk.times,Walk.keys_seq]
      exact ⟨ha.trans ha',hw.trans hw'⟩
  rw [Nat.zero_add] at hloop
  obtain ⟨s,t,hrun,ha,hw⟩ := hloop
  have hemit : emitStaticLoopWithInt 0 n slot (fun _ slot => c slot) m = .ok ((),t) := by
    rw [emitStaticLoopWithInt,bind_ok hrun]
    rfl
  exact returns_bind ⟨(),t,hemit,returns_pure ⟨ha.loop,hw⟩⟩

/-- Only entries of the slot are cleared. -/
def Swept (host : Host) (k : Word) (f g : Word → Word) : Prop :=
  ∀ k', g k' = f k' ∨ g k' = Word.zero ∧ Chain host f k k'

theorem Swept.empty (h : Swept host k f g) {k' : Word} (hk : f k' = Word.zero) : g k' = Word.zero := by
  obtain hk'|hk' := h k'
  · rw [hk',hk]
  · exact hk'.1

/-- The walk of one more element behind the hash of `k`. -/
theorem Swept.step {z : Word} {w : Walk} (h : Swept host k f g) (hz : HashStep host f k z)
    (hw : Wipes host (w.keys z) g f') : Swept host k f f' := by
  intro k'
  obtain hk|⟨hzero,_,⟨o,-,rfl⟩,hk'⟩ := hw.kept k'
  · rw [hk]
    exact h k'
  · have hchain : Chain host f k (z.offset (o : ℕ)) := Chain.offset (.single hz) _
    obtain rfl|htail := hk'
    · exact .inr ⟨hzero,hchain⟩
    · exact .inr ⟨hzero,hchain.trans (htail.mono fun _ hf => h.empty hf)⟩

/-- The slot itself is cleared at the end. -/
theorem Swept.clear (h : Swept host k f g) : Wipes host {k} f (Function.update g k Word.zero) := by
  constructor
  · rintro k' rfl
    exact Function.update_self ..
  · intro k'
    by_cases hk : k' = k
    · exact .inr ⟨by rw [hk]; exact Function.update_self ..,k,rfl,.inl hk⟩
    · rw [Function.update_of_ne hk]
      obtain hk'|⟨hzero,hchain⟩ := h k'
      · exact .inl hk'
      · exact .inr ⟨hzero,k,rfl,.inr hchain⟩

theorem hashLoop_swept {w : Bool → Walk} {c : Value → Code Value} (h : Deletes host w c) {n : ℕ}
    {m0 : State} (hs : SlotOld m0 slot) (ha : SlotAt m0 slot 0 m slot) (hd : Hashed host k m0 d m)
    (hn : n ≠ 0 → m.storage k ≠ Word.zero) :
    Returns (emitLoopCondFirstWithInt 0 n d fun _ slot => c slot) m fun _ t =>
      SlotAt m0 slot 0 t slot ∧ Swept host k m.storage t.storage := by
  have hstored : d.stored = d := by
    obtain ⟨p,rfl,_⟩ := hd.pointer
    rfl
  have hloop : Returns (Exec.loop (fun _ slot => c slot) (n-0) 0 d.stored) m fun s t =>
      s = d ∧ SlotAt m0 slot 0 t slot ∧ Hashed host k m0 d t ∧ Swept host k m.storage t.storage := by
    refine returns_loop (I := fun _ s t => s = d ∧ SlotAt m0 slot 0 t slot ∧ Hashed host k m0 d t ∧
      Swept host k m.storage t.storage) ⟨hstored,ha,hd,fun _ => .inl rfl⟩ ?_
    rintro i s t - hi ⟨rfl,ha,hd,hswept⟩
    refine (h s t hd.old).mono fun s' t' ⟨ha',hw⟩ => ?_
    obtain ⟨rfl,hd'⟩ := hd.step ha'
    obtain ⟨p,rfl,hnew,-⟩ := hd.pointer
    exact ⟨rfl,ha.inner hs hnew ha',hd',hswept.step ⟨hn (by omega),hd.key⟩ hw⟩
  obtain ⟨s,t,hrun,-,ha,-,hswept⟩ := hloop
  refine ⟨(),t,?_,ha,hswept⟩
  rw [emitLoopCondFirstWithInt,bind_ok hrun]
  rfl

theorem deleteArray_deletes {w : Bool → Walk} {deleteElem : Value → Code Value}
    (h : Deletes host w deleteElem) (elemTy : Ty) (dims : List ArrayLength) :
    Deletes host (fun pointer => deleteRows pointer (w pointer) elemTy dims)
      (storageDeleteArray host deleteElem elemTy dims) := by
  induction dims with
  | nil => exact h
  | cons dim rest ih =>
    have hrow := ih.seq (advance_deletes (Ty.arrayDeref (.array elemTy (dim::rest).reverse)))
    cases dim with
    | fixed n => exact staticLoop_deletes hrow n
    | dynamic =>
      intro slot m hs
      rw [storageDeleteArray]
      refine returns_bind ((storageLoadCell_spec slot m).mono ?_)
      rintro length m1 ⟨hr1,hlength⟩
      refine returns_bind ((slotHash_spec slot m1).mono fun d m2 hhash => ?_)
      rw [slotKey_keeps hs hr1.keeps] at hhash
      have hkeeps := hr1.keeps.trans hhash.reads.keeps
      have hstorage : m2.storage = m.storage := hhash.reads.storage.trans hr1.storage
      have hlength_ne : length.val ≠ 0 → m2.storage (slotKey m slot) ≠ Word.zero := by
        rintro hne hzero
        rw [hlength,← hstorage,hzero] at hne
        exact hne rfl
      refine returns_bind ((hashLoop_swept hrow hs (SlotAt.of_keeps hs hkeeps)
        (hhash.hashed hr1.keeps.heap) hlength_ne).mono ?_)
      rintro _ m3 ⟨ha3,hswept⟩
      refine returns_bind ((storageClearInternal_spec slot m3 (ha3.old hs)).mono ?_)
      rintro _ m4 ⟨hk4,hclear⟩
      refine returns_pure ⟨ha3.keeps hs hk4,?_⟩
      rw [ha3.key,Nat.cast_zero,Word.offset_zero] at hclear
      rw [hclear]
      rw [hstorage] at hswept
      show Wipes host (Walk.still.keys (slotKey m slot)) _ _
      rw [Walk.keys_still]
      exact hswept.clear

mutual

/-- A delete walks the slots of its type and clears them. -/
theorem storageDelete_deletes : ∀ ty : Ty,
    Deletes host (fun pointer => deleteWalk pointer ty) (storageDelete host ty)
  | .ref ty | .storageRef ty => by
    intro slot m hs
    rw [storageDelete]
    exact storageDelete_deletes ty slot m hs
  | .array elemTy dims => by
    intro slot m hs
    rw [storageDelete]
    exact deleteArray_deletes (storageDelete_deletes elemTy) elemTy dims.reverse slot m hs
  | .struct fields => by
    intro slot m hs
    rw [storageDelete]
    exact storageDeleteFields_deletes fields slot m hs
  | .mapping _ _ => by
    intro slot m hs
    rw [storageDelete]
    refine returns_pure ⟨SlotAt.refl m slot,?_⟩
    show Wipes host ((Walk.skip 0).keys _) _ _
    rw [Walk.keys_skip]
    exact Wipes.refl _
  | .string | .dynamicBytes | .address | .contract | .hash | .uint32 | .bool | .enum | .field
  | .void => by
    intro slot m hs
    rw [storageDelete]
    exact clear_deletes slot m hs

theorem storageDeleteFields_deletes : ∀ fields : List Ty,
    Deletes host (fun pointer => deleteWalkFields pointer fields) (storageDeleteFields host fields)
  | [] => by
    intro slot m hs
    rw [storageDeleteFields]
    refine returns_pure ⟨SlotAt.refl m slot,?_⟩
    show Wipes host ((Walk.skip 0).keys _) _ _
    rw [Walk.keys_skip]
    exact Wipes.refl _
  | ty::rest => by
    have hfield := (storageDelete_deletes ty).seq (advanceField_deletes ty)
    have hfields := hfield.seq (storageDeleteFields_deletes rest)
    intro slot m hs
    have hrun := hfields slot m hs
    simp only [Exec.bind_assoc] at hrun
    rw [storageDeleteFields]
    exact hrun

end

end Storage
end OlaLang
