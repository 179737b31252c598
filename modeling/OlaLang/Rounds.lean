import Mathlib.Logic.Function.Iterate
import OlaLang.Walks

/-! Values that are computed from each other in rounds, each node in turn: when no node depends on
itself, the rounds come to a fixed point. -/
namespace OlaLang
namespace Rounds

open Relation Walks

variable {β : Type} (F : ℕ → (ℕ → β) → β)

/-- Node `n` is computed again. -/
def recompute (s : ℕ → β) (n : ℕ) : ℕ → β := Function.update s n (F n s)

/-- The nodes below `n` are computed again, one after the other. -/
def oneRound (n : ℕ) (s : ℕ → β) : ℕ → β := (List.range n).foldl (recompute F) s

theorem oneRound_succ (n : ℕ) (s : ℕ → β) : oneRound F (n+1) s = recompute F (oneRound F n s) n := by
  rw [oneRound,List.range_succ,List.foldl_append]
  rfl

theorem oneRound_of_le {n b : ℕ} (h : n ≤ b) (s : ℕ → β) : oneRound F n s b = s b := by
  induction n with
  | zero => rfl
  | succ n ih => rw [oneRound_succ,recompute,Function.update_of_ne (by omega),ih (by omega)]

theorem oneRound_of_lt {n b : ℕ} (h : b < n) (s : ℕ → β) : oneRound F n s b = F b (oneRound F b s) := by
  induction n with
  | zero => omega
  | succ n ih =>
    rw [oneRound_succ,recompute]
    rcases Nat.lt_succ_iff_lt_or_eq.mp h with hlt | rfl
    · rw [Function.update_of_ne (by omega),ih hlt]
    · rw [Function.update_self]

/-- In the middle of a round a node has its value before or after the round. -/
theorem oneRound_middle {n i b : ℕ} (hi : i ≤ n) (s : ℕ → β) :
    oneRound F i s b = if b < i then oneRound F n s b else s b := by
  split
  · rename_i hb
    rw [oneRound_of_lt F hb,oneRound_of_lt F (by omega)]
  · rename_i hb
    rw [oneRound_of_le F (by omega)]

variable {F} {r : ℕ → ℕ → Prop} {n : ℕ} (hr : ∀ a b, r a b → a < n ∧ b < n)
  (hacyclic : ∀ a, ¬ TransGen r a a)
  (hF : ∀ a s s', (∀ b, r a b → s b = s' b) → F a s = F a s')

include hr hacyclic hF

/-- Each node keeps a value from some round on. -/
theorem eventually_constant (s : ℕ → β) (a : ℕ) :
    ∃ k v, ∀ j ≥ k, (oneRound F n)^[j] s a = v := by
  induction a using acyclic_induction (Set.finite_lt_nat n) (fun a b h => (hr a b h).1) hacyclic with
  | h a ih =>
    by_cases ha : a < n
    · have hdep : ∀ b, ∃ k v, r a b → ∀ j ≥ k, (oneRound F n)^[j] s b = v := by
        intro b
        by_cases hb : r a b
        · obtain ⟨k,v,h⟩ := ih b hb
          exact ⟨k,v,fun _ => h⟩
        · exact ⟨0,s b,fun h => absurd h hb⟩
      choose k v hkv using hdep
      let top := (Finset.range n).sup k
      refine ⟨top+1,F a v,fun j hj => ?_⟩
      obtain ⟨j,rfl⟩ := Nat.exists_eq_add_of_le' (show 1 ≤ j by omega)
      rw [Function.iterate_succ_apply',oneRound_of_lt F ha]
      refine hF a _ _ fun b hb => ?_
      have hk : k b ≤ top := Finset.le_sup (Finset.mem_range.mpr (hr a b hb).2)
      rw [oneRound_middle F ha.le]
      split
      · rw [← Function.iterate_succ_apply' (oneRound F n)]
        exact hkv b hb _ (by omega)
      · exact hkv b hb _ (by omega)
    · refine ⟨0,s a,fun j _ => ?_⟩
      induction j with
      | zero => rfl
      | succ j ihj => rw [Function.iterate_succ_apply',oneRound_of_le F (not_lt.mp ha),ihj (by omega)]

/-- After finitely many rounds nothing changes. -/
theorem exists_fixed (s : ℕ → β) :
    ∃ k, oneRound F n ((oneRound F n)^[k] s) = (oneRound F n)^[k] s := by
  choose k v hkv using eventually_constant hr hacyclic hF s
  let top := (Finset.range n).sup k
  refine ⟨top,funext fun a => ?_⟩
  by_cases ha : a < n
  · have hk : k a ≤ top := Finset.le_sup (Finset.mem_range.mpr ha)
    rw [← Function.iterate_succ_apply' (oneRound F n),hkv a _ (by omega),hkv a _ hk]
  · rw [oneRound_of_le F (not_lt.mp ha)]

end Rounds
end OlaLang
