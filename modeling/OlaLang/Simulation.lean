import Mathlib.Logic.Relation
import Mathlib.Data.Nat.Basic
import Mathlib.Tactic.Basic

/-! Deterministic systems, and the simulations between them in which one side may take silent steps. -/
namespace OlaLang
namespace Simulation

open Relation

/-- What one step gives: a next state, an end, or nothing. -/
inductive Outcome (σ ε : Type*)
  | next (s : σ)
  | exit (e : ε)
  | stuck

variable {σ τ ε : Type*}

def Moves (step : σ → Outcome σ ε) (s t : σ) : Prop := step s = .next t

/-- The run from `s` ends with `e`. -/
def Ends (step : σ → Outcome σ ε) (s : σ) (e : ε) : Prop :=
  ∃ t, ReflTransGen (Moves step) s t ∧ step t = .exit e

/-- An outcome on the left is met on the right, or is a silent step towards one that is. -/
inductive Met (step : τ → Outcome τ ε) (R : σ → τ → Prop) (rank : σ → ℕ) (s : σ) (t : τ) :
    Outcome σ ε → Prop
  | silent {s' : σ} (h : R s' t) (hrank : rank s' < rank s) : Met step R rank s t (.next s')
  | next {s' : σ} {t' : τ} (ht : step t = .next t') (h : R s' t') : Met step R rank s t (.next s')
  | exit {e : ε} (ht : step t = .exit e) : Met step R rank s t (.exit e)
  | stuck (ht : step t = .stuck) : Met step R rank s t .stuck

section Rules

variable {step : σ → Outcome σ ε} {step' : τ → Outcome τ ε} {R : σ → τ → Prop} {rank : σ → ℕ}
variable {s s' : σ} {t t' : τ}

theorem reaches_right (hsim : ∀ s t, R s t → Met step' R rank s t (step s)) (h : R s t)
    (hrun : ReflTransGen (Moves step) s s') : ∃ t', ReflTransGen (Moves step') t t' ∧ R s' t' := by
  induction hrun with
  | refl => exact ⟨t,.refl,h⟩
  | @tail u v _ hstep ih =>
    rcases ih with ⟨t',hrun,h'⟩
    have hmet := hsim u t' h'
    rw [show step u = .next v from hstep] at hmet
    cases hmet with
    | silent hr _ => exact ⟨t',hrun,hr⟩
    | next ht hr => exact ⟨_,hrun.tail ht,hr⟩

/-- The left side goes on until its step is met by one on the right. -/
theorem catches_up (hsim : ∀ s t, R s t → Met step' R rank s t (step s)) (n : ℕ) :
    ∀ s, rank s = n → R s t → ∃ s', ReflTransGen (Moves step) s s' ∧ R s' t ∧
      ∀ v, step s' = .next v → ∃ t', step' t = .next t' ∧ R v t' := by
  induction n using Nat.strong_induction_on with
  | h n ih =>
    intro s hs h
    have hmet := hsim s t h
    cases hstep : step s with
    | exit e => exact ⟨s,.refl,h,fun v hv => by rw [hstep] at hv; cases hv⟩
    | stuck => exact ⟨s,.refl,h,fun v hv => by rw [hstep] at hv; cases hv⟩
    | next u =>
      rw [hstep] at hmet
      cases hmet with
      | silent hr hrank =>
        rcases ih (rank u) (hs ▸ hrank) u rfl hr with ⟨s',hrun,hs'⟩
        exact ⟨s',.head hstep hrun,hs'⟩
      | next ht hr =>
        refine ⟨s,.refl,h,fun v hv => ?_⟩
        rw [hstep] at hv
        cases hv
        exact ⟨_,ht,hr⟩

theorem reaches_left (hsim : ∀ s t, R s t → Met step' R rank s t (step s)) (h : R s t)
    (hrun : ReflTransGen (Moves step') t t') : ∃ s', ReflTransGen (Moves step) s s' ∧ R s' t' := by
  induction hrun with
  | refl => exact ⟨s,.refl,h⟩
  | @tail u v _ hstep ih =>
    rcases ih with ⟨s₁,hrun₁,h₁⟩
    rcases catches_up hsim _ s₁ rfl h₁ with ⟨s₂,hrun₂,h₂,hnext⟩
    have hmet := hsim s₂ u h₂
    cases hs : step s₂ with
    | next w =>
      rcases hnext w hs with ⟨t₂,ht,hr⟩
      rw [show step' u = .next v from hstep] at ht
      cases ht
      exact ⟨w,(hrun₁.trans hrun₂).tail hs,hr⟩
    | exit e =>
      rw [hs] at hmet
      cases hmet with
      | exit ht =>
        rw [show step' u = .next v from hstep] at ht
        cases ht
    | stuck =>
      rw [hs] at hmet
      cases hmet with
      | stuck ht =>
        rw [show step' u = .next v from hstep] at ht
        cases ht

theorem ends_iff (hsim : ∀ s t, R s t → Met step' R rank s t (step s)) (h : R s t) (e : ε) :
    Ends step s e ↔ Ends step' t e := by
  constructor
  · rintro ⟨s',hrun,he⟩
    rcases reaches_right hsim h hrun with ⟨t',hrun',h'⟩
    have hmet := hsim s' t' h'
    rw [he] at hmet
    cases hmet with
    | exit ht => exact ⟨t',hrun',ht⟩
  · rintro ⟨t',hrun,he⟩
    rcases reaches_left hsim h hrun with ⟨s₁,hrun₁,h₁⟩
    rcases catches_up hsim _ s₁ rfl h₁ with ⟨s₂,hrun₂,h₂,hnext⟩
    have hmet := hsim s₂ t' h₂
    cases hs : step s₂ with
    | next w =>
      rcases hnext w hs with ⟨t₂,ht,_⟩
      rw [he] at ht
      cases ht
    | exit e' =>
      rw [hs] at hmet
      cases hmet with
      | exit ht =>
        rw [he] at ht
        cases ht
        exact ⟨s₂,hrun₁.trans hrun₂,hs⟩
    | stuck =>
      rw [hs] at hmet
      cases hmet with
      | stuck ht =>
        rw [he] at ht
        cases ht

end Rules

end Simulation
end OlaLang
