import OlaLang.StorageCell
import OlaLang.Frame
import Mathlib.Logic.Relation

/-! The keys that the hashes of a slot lead to: regions of the storage, and what it means that
the hashes do not collide. -/
namespace OlaLang

namespace Storage

/-- The storage of a state. -/
def disk : KeyedStore State Word Word where
  get := State.storage
  put := fun s f => { s with storage := f }
  get_put := fun _ _ => rfl
  put_put := fun _ _ _ => rfl
  put_get := fun _ => rfl

section Tree

variable (host : Host)

/-- A key that is some steps behind a hash of `k`, alone or together with a mapping key. -/
def Child (k k' : Word) : Prop :=
  ∃ (key : List Felt) (j : Felt), k' = (host.poseidon (k.toList ++ key)).offset j

/-- A key that is reached from `k` by one or more hashes. -/
def Under : Word → Word → Prop := Relation.TransGen (Child host)

/-- `k` itself, or a key under it. -/
def Below : Word → Word → Prop := Relation.ReflTransGen (Child host)

/-- The `n` slots from `k` with all keys under them. -/
def region (k : Word) (n : ℕ) : Set Word := { k' | ∃ i < n, Below host (k.offset (i : ℕ)) k' }

/-- No key is reached from two slots of `S`, and no slot of `S` is reached by a hash. A hash on
words cannot be injective on all of them, so this is asked for the slots in use. -/
structure Separate (S : Set Word) : Prop where
  fresh : ∀ a ∈ S, ∀ b ∈ S, ¬ Under host a b
  apart : ∀ a ∈ S, ∀ b ∈ S, a ≠ b → ∀ k, Under host a k → ¬ Under host b k

variable {host} {k k' a b : Word} {n n' : ℕ}

theorem Under.below (h : Under host k k') : Below host k k' := h.to_reflTransGen

theorem under_of_child (h : Child host k k') : Under host k k' := Relation.TransGen.single h

/-- The keys under a slot are closed under steps. -/
theorem Child.offset (h : Child host k k') (j : Felt) : Child host k (k'.offset j) := by
  obtain ⟨key,i,rfl⟩ := h
  exact ⟨key,i+j,Word.offset_offset _ _ _⟩

theorem Under.offset (h : Under host k k') (j : Felt) : Under host k (k'.offset j) := by
  cases h with
  | single h => exact under_of_child (h.offset j)
  | tail hu hc => exact Relation.TransGen.tail hu (hc.offset j)

theorem Under.trans_below {c : Word} (h : Under host a b) (h' : Below host b c) : Under host a c :=
  Relation.TransGen.trans_left h h'

theorem region_mono (h : n ≤ n') : region host k n ⊆ region host k n' := by
  rintro c ⟨i,hi,hc⟩
  exact ⟨i,Nat.lt_of_lt_of_le hi h,hc⟩

/-- The slots from a later slot on. -/
theorem region_offset (j : ℕ) (h : j + n ≤ n') :
    region host (k.offset (j : ℕ)) n ⊆ region host k n' := by
  rintro c ⟨i,hi,hc⟩
  refine ⟨j+i,by omega,?_⟩
  rwa [Word.offset_offset,← Nat.cast_add] at hc

theorem mem_region (h : 0 < n) : k ∈ region host k n :=
  ⟨0,h,by rw [Nat.cast_zero,Word.offset_zero]; exact Relation.ReflTransGen.refl⟩

/-- Every slot behind a key under `k` is under `k` again. -/
theorem region_under (h : Under host a k) : region host k n ⊆ { c | Under host a c } := by
  rintro c ⟨i,_,hc⟩
  exact (h.offset _).trans_below hc

theorem under_subset_region (h : 0 < n) : { c | Under host k c } ⊆ region host k n := by
  intro c hc
  refine ⟨0,h,?_⟩
  rw [Nat.cast_zero,Word.offset_zero]
  exact Under.below hc

theorem under_hash (k : Word) : Under host k (host.poseidon k.toList) := by
  refine under_of_child ⟨[],0,?_⟩
  rw [List.append_nil,Word.offset_zero]

/-- Slots of a separate set have nothing in common. -/
theorem Separate.below {S : Set Word} (h : Separate host S) (ha : a ∈ S) (hb : b ∈ S) (hab : a ≠ b)
    (hk : Below host a k) : ¬ Below host b k := by
  intro hk'
  rcases Relation.reflTransGen_iff_eq_or_transGen.mp hk with rfl | hu
  · rcases Relation.reflTransGen_iff_eq_or_transGen.mp hk' with rfl | hu'
    · exact hab rfl
    · exact h.fresh b hb _ ha hu'
  · rcases Relation.reflTransGen_iff_eq_or_transGen.mp hk' with rfl | hu'
    · exact h.fresh a ha _ hb hu
    · exact h.apart a ha b hb hab k hu hu'

end Tree

end Storage
end OlaLang
