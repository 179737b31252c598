import Mathlib.Data.Nat.Notation
import Mathlib.Tactic.Basic

/-! Runs that may be cut off: sequence, branch and loop, and the rules that carry an invariant
through every state of a run and a condition to its end. -/
namespace OlaLang

/-- A run gives the state it reached and tells whether it came to its end. -/
def Run (σ : Type*) := σ → σ × Bool

namespace Run

variable {σ : Type*}

def skip : Run σ := fun s => (s,true)

def step (f : σ → σ) : Run σ := fun s => (f s,true)

def seq (a b : Run σ) : Run σ := fun s => if (a s).2 then b (a s).1 else ((a s).1,false)

def branch (go : σ → Bool) (a b : Run σ) : Run σ := fun s => if go s then a s else b s

/-- `test`, then `body` and again as long as `go` holds; cut off after `fuel` rounds. -/
def loop (test : Run σ) (go : σ → Bool) (body : Run σ) : ℕ → Run σ
  | 0 => fun s => (s,false)
  | fuel+1 => seq test (branch go (seq body (loop test go body fuel)) skip)

/-- From a state with `P`, `r` keeps `I` and establishes `Q` when it comes to its end. -/
def Keeps (I P : σ → Prop) (r : Run σ) (Q : σ → Prop) : Prop :=
  ∀ s, I s → P s → I (r s).1 ∧ ((r s).2 = true → Q (r s).1)

section Rules

variable {I P Q R : σ → Prop} {a b : Run σ} {go : σ → Bool}

theorem keeps_skip : Keeps I P skip P := fun _ hI hP => ⟨hI,fun _ => hP⟩

theorem keeps_step {f : σ → σ} (h : ∀ s, I s → P s → I (f s) ∧ Q (f s)) : Keeps I P (step f) Q :=
  fun s hI hP => ⟨(h s hI hP).1,fun _ => (h s hI hP).2⟩

theorem keeps_weaken {P' Q' : σ → Prop} (hP : ∀ s, P' s → P s) (h : Keeps I P a Q)
    (hQ : ∀ s, Q s → Q' s) : Keeps I P' a Q' := by
  intro s hI hP'
  have hs := h s hI (hP s hP')
  exact ⟨hs.1,fun hd => hQ _ (hs.2 hd)⟩

theorem keeps_seq (ha : Keeps I P a Q) (hb : Keeps I Q b R) : Keeps I P (seq a b) R := by
  intro s hI hP
  have hs := ha s hI hP
  unfold seq
  by_cases hd : (a s).2 = true
  · rw [if_pos hd]
    exact hb _ hs.1 (hs.2 hd)
  · rw [if_neg hd]
    exact ⟨hs.1,fun h => (by cases h)⟩

theorem keeps_branch (ha : Keeps I P a Q) (hb : Keeps I P b Q) : Keeps I P (branch go a b) Q := by
  intro s hI hP
  unfold branch
  by_cases hg : go s = true
  · rw [if_pos hg]
    exact ha s hI hP
  · rw [if_neg hg]
    exact hb s hI hP

/-- The loop rule: `P` holds before every `test` and `Q` after it, at the loop's end as well. -/
theorem keeps_loop {test body : Run σ} (ht : Keeps I P test Q) (hb : Keeps I Q body P) (fuel : ℕ) :
    Keeps I P (loop test go body fuel) Q := by
  induction fuel with
  | zero => exact fun s hI _ => ⟨hI,fun h => (by cases h)⟩
  | succ fuel ih => exact keeps_seq ht (keeps_branch (keeps_seq hb ih) keeps_skip)

end Rules

end Run
end OlaLang
