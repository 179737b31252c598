import Mathlib.Data.List.Chain
import Mathlib.Data.List.Nodup
import Mathlib.Logic.Relation
import Mathlib.Order.WellFoundedSet

/-! Walks in a directed graph, given as a relation: simple walks between connected nodes, closed
walks, and induction along the edges of a finite graph without closed walks. -/
namespace OlaLang
namespace Walks

open Relation

variable {α : Type} {r : α → α → Prop} {a b c : α} {l : List α}

/-- The steps of a walk. -/
def steps (l : List α) : List (α × α) := l.zip l.tail

@[simp] theorem steps_nil : steps ([] : List α) = [] := rfl
@[simp] theorem steps_singleton (a : α) : steps [a] = [] := rfl
@[simp] theorem steps_cons_cons (a b : α) (l : List α) :
    steps (a::b::l) = (a,b)::steps (b::l) := rfl

theorem isChain_iff_steps : l.IsChain r ↔ ∀ p ∈ steps l, r p.1 p.2 := by
  induction l with
  | nil => simp
  | cons a l ih =>
    cases l with
    | nil => simp
    | cons b l => simp [List.isChain_cons_cons,ih]

/-- The nodes that have a successor on the walk. -/
theorem map_fst_steps (l : List α) : (steps l).map Prod.fst = l.dropLast := by
  induction l with
  | nil => rfl
  | cons a l ih =>
    cases l with
    | nil => rfl
    | cons b l => simpa using ih

/-- The first node of a walk leads to each later one. -/
theorem transGen_of_isChain (h : (a::l).IsChain r) (hb : b ∈ l) : TransGen r a b := by
  induction l generalizing a with
  | nil => cases hb
  | cons c l ih =>
    rw [List.isChain_cons_cons] at h
    rcases List.mem_cons.mp hb with rfl | hb
    · exact .single h.1
    · exact .head h.1 (ih h.2 hb)

theorem reflTransGen_of_getLast (h : (a::l).IsChain r) (hlast : (a::l).getLast? = some b) :
    ReflTransGen r a b := by
  cases l with
  | nil =>
    obtain rfl : a = b := by simpa using hlast
    exact .refl
  | cons c l =>
    have hb : b ∈ c::l := List.mem_of_getLast? (by simpa using hlast)
    exact (transGen_of_isChain h hb).to_reflTransGen

/-- A step of a walk leads to the end of the walk. -/
theorem reflTransGen_of_step (h : l.IsChain r) (hlast : l.getLast? = some c)
    (hs : (a,b) ∈ steps l) : ReflTransGen r b c := by
  induction l with
  | nil => cases hs
  | cons d l ih =>
    cases l with
    | nil => cases hs
    | cons e l =>
      have hlast' : (e::l).getLast? = some c := by simpa using hlast
      rw [steps_cons_cons,List.mem_cons,Prod.mk.injEq] at hs
      rcases hs with ⟨-,rfl⟩ | hs
      · exact reflTransGen_of_getLast h.tail hlast'
      · exact ih h.tail hlast' hs

/-- Each node of a closed walk leads to itself. -/
theorem transGen_of_closed (h : (a::l ++ [a]).IsChain r) (hb : b ∈ a::l) : TransGen r b b := by
  rcases List.mem_cons.mp hb with rfl | hb
  · exact transGen_of_isChain h (by simp)
  · obtain ⟨s,t,rfl⟩ := List.append_of_mem hb
    have hto : TransGen r a b := transGen_of_isChain h (by simp)
    have hback : TransGen r b a := by
      have hsuffix : (b::(t ++ [a])).IsChain r := by
        simp only [← List.cons_append,List.append_assoc] at h
        exact h.right_of_append
      exact transGen_of_isChain hsuffix (by simp)
    exact hback.trans hto

/-- Connected nodes are connected by a walk that meets no node twice. -/
theorem exists_simple (h : ReflTransGen r a b) :
    ∃ l, (a::l).IsChain r ∧ (a::l).Nodup ∧ (a::l).getLast? = some b := by
  induction h using ReflTransGen.head_induction_on with
  | refl => exact ⟨[],by simp,by simp,rfl⟩
  | @head a c hstep _ ih =>
    obtain ⟨l,hchain,hnodup,hlast⟩ := ih
    by_cases ha : a ∈ c::l
    · -- the walk that came back to `a` is cut there
      obtain ⟨s,t,hst⟩ := List.append_of_mem ha
      rw [hst] at hchain hnodup hlast
      exact ⟨t,hchain.right_of_append,hnodup.of_append_right,by simpa using hlast⟩
    · exact ⟨c::l,List.isChain_cons_cons.mpr ⟨hstep,hchain⟩,List.nodup_cons.mpr ⟨ha,hnodup⟩,by simpa using hlast⟩

/-- Induction along the edges of a relation on finitely many nodes that leads no node to itself: a
property holds of a node once it holds of its successors. -/
theorem acyclic_induction {s : Set α} (hs : s.Finite) (hr : ∀ a b, r a b → a ∈ s)
    (hacyclic : ∀ a, ¬ TransGen r a a) {P : α → Prop} (h : ∀ a, (∀ b, r a b → P b) → P a) (a : α) :
    P a := by
  have hwf : s.WellFoundedOn fun b a => TransGen r a b := by
    have : IsStrictOrder α fun b a => TransGen r a b :=
      { irrefl := hacyclic, trans := fun _ _ _ hab hbc => hbc.trans hab }
    exact hs.wellFoundedOn
  have hmem : ∀ a ∈ s, P a := by
    intro a ha
    refine hwf.induction ha fun b hb ih => h b fun c hc => ?_
    by_cases hcs : c ∈ s
    · exact ih c hcs (.single hc)
    · exact h c fun d hd => absurd (hr c d hd) hcs
  by_cases ha : a ∈ s
  · exact hmem a ha
  · exact h a fun b hb => absurd (hr a b hb) ha

end Walks
end OlaLang
