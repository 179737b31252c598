import Mathlib.Tactic.Basic

/-! Runs of operations that may be refused by the state they come to, and the rules that carry a
property through all states of a run. -/
namespace OlaLang
namespace OperationRuns

variable {σ ω : Type} (step : ω → σ → Option σ)

/-- The state after a list of operations. -/
def run : List ω → σ → Option σ
  | [], s => some s
  | op::ops, s => (step op s).bind (run ops)

/-- Every operation meets `C` in the state it comes to. -/
def Steps (C : ω → σ → Prop) : List ω → σ → Prop
  | [], _ => True
  | op::ops, s => C op s ∧ ∀ t, step op s = some t → Steps C ops t

/-- `P` holds in every state of the run, the first one included. -/
def Along (P : σ → Prop) : List ω → σ → Prop
  | [], s => P s
  | op::ops, s => P s ∧ ∀ t, step op s = some t → Along P ops t

section Rules

variable {step} {I P : σ → Prop} {C K : ω → σ → Prop} {ops : List ω} {s : σ}

theorem run_append (ops more : List ω) (s : σ) :
    run step (ops ++ more) s = (run step ops s).bind (run step more) := by
  induction ops generalizing s with
  | nil => rfl
  | cons op ops ih =>
    rw [List.cons_append,run,run,Option.bind_assoc]
    exact congrArg _ (funext ih)

theorem Along.head (h : Along step P ops s) : P s := by
  cases ops with
  | nil => exact h
  | cons op ops => exact h.1

theorem Along.mono {Q : σ → Prop} (hpq : ∀ s, P s → Q s) (h : Along step P ops s) :
    Along step Q ops s := by
  induction ops generalizing s with
  | nil => exact hpq s h
  | cons op ops ih => exact ⟨hpq s h.1,fun t ht => ih (h.2 t ht)⟩

/-- `P` along a run is `P` at the end of each of its beginnings. -/
theorem along_iff : Along step P ops s ↔ ∀ n t, run step (ops.take n) s = some t → P t := by
  induction ops generalizing s with
  | nil => simp [Along,run]
  | cons op ops ih =>
    constructor
    · intro h n t hrun
      cases n with
      | zero =>
        cases hrun
        exact h.1
      | succ n =>
        obtain ⟨u,hu,hrun⟩ := Option.bind_eq_some_iff.mp hrun
        exact (ih.mp (h.2 u hu)) n t hrun
    · intro h
      refine ⟨h 0 s rfl,fun t ht => ih.mpr fun n u hrun => h (n+1) u ?_⟩
      rw [List.take_succ_cons,run,ht]
      exact hrun

/-- The invariant rule: what holds at first and is kept by every operation holds along the run. -/
theorem along_of_kept (hs : I s) (hops : Steps step C ops s)
    (hkept : ∀ op s t, I s → C op s → step op s = some t → I t) : Along step I ops s := by
  induction ops generalizing s with
  | nil => exact hs
  | cons op ops ih =>
    exact ⟨hs,fun t ht => ih (hkept op s t hs hops.1 ht) (hops.2 t ht)⟩

/-- Where every operation keeps the invariant `I`, and keeps `P` exactly when it meets `K`, `P`
holds along a run exactly when all its operations meet `K`. -/
theorem along_iff_steps (hI : I s) (hP : P s) (hops : Steps step C ops s)
    (hkept : ∀ op s t, I s → C op s → step op s = some t → I t)
    (hiff : ∀ op s t, I s → P s → C op s → step op s = some t → (P t ↔ K op s))
    (htotal : ∀ op s, I s → P s → C op s → ∃ t, step op s = some t) :
    Along step P ops s ↔ Steps step K ops s := by
  induction ops generalizing s with
  | nil => exact ⟨fun _ => trivial,fun _ => hP⟩
  | cons op ops ih =>
    constructor
    · intro h
      obtain ⟨t,ht⟩ := htotal op s hI hP hops.1
      have hPt : ∀ t, step op s = some t → P t := fun t ht => (h.2 t ht).head
      refine ⟨(hiff op s t hI hP hops.1 ht).mp (hPt t ht),fun t ht => ?_⟩
      exact (ih (hkept op s t hI hops.1 ht) (hPt t ht) (hops.2 t ht)).mp (h.2 t ht)
    · intro h
      refine ⟨hP,fun t ht => ?_⟩
      have hPt := (hiff op s t hI hP hops.1 ht).mpr h.1
      exact (ih (hkept op s t hI hops.1 ht) hPt (hops.2 t ht)).mpr (h.2 t ht)

end Rules

end OperationRuns
end OlaLang
