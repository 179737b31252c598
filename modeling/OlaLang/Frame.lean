import OlaLang.Exec
import Mathlib.Data.Set.Piecewise

/-! Runs on a state with a keyed store that read and write a part of the store only. -/
namespace OlaLang

/-- A store with keys in `K`, as a part of a state. -/
structure KeyedStore (σ K V : Type) where
  get : σ → K → V
  put : σ → (K → V) → σ
  get_put : ∀ s f, get (put s f) = f
  put_put : ∀ s f g, put (put s f) g = put s g
  put_get : ∀ s, put s (get s) = s

namespace KeyedStore

variable {σ ε K V α β δ : Type} (st : KeyedStore σ K V)

/-- The outcome of a run, with another store in its final state. -/
def restore (f : σ → K → V) : Except ε (α × σ) → Except ε (α × σ)
  | .ok (a,t) => .ok (a,st.put t (f t))
  | .error e => .error e

open Classical in
/-- The run does the same from every store that agrees on `R`, changes it on `R` only, and what
it returns satisfies `Q`. -/
structure Acts (R : Set K) (c : Exec σ ε α) (s : σ) (Q : α → σ → Prop) : Prop where
  same : ∀ f, Set.EqOn f (st.get s) R →
    c (st.put s f) = st.restore (fun t => R.piecewise (st.get t) f) (c s)
  post : ∀ a t, c s = .ok (a,t) → Q a t

variable {st} {R R' : Set K} {c : Exec σ ε α} {g : α → Exec σ ε β} {s t : σ} {a : α}
  {Q Q' : α → σ → Prop} {Q2 : β → σ → Prop}

theorem Acts.mono (h : st.Acts R c s Q) (hq : ∀ a t, Q a t → Q' a t) : st.Acts R c s Q' :=
  ⟨h.same,fun a t ht => hq a t (h.post a t ht)⟩

open Classical in
/-- Keys outside of `R` keep their values. -/
theorem Acts.unchanged (h : st.Acts R c s Q) (hc : c s = .ok (a,t)) {k : K} (hk : k ∉ R) :
    st.get t k = st.get s k := by
  have hs := h.same (st.get s) fun _ _ => rfl
  rw [st.put_get,hc] at hs
  have ht : t = st.put t (R.piecewise (st.get t) (st.get s)) := by simpa [restore] using hs
  calc st.get t k = st.get (st.put t (R.piecewise (st.get t) (st.get s))) k := by rw [← ht]
    _ = st.get s k := by rw [st.get_put,Set.piecewise_eq_of_notMem _ _ _ hk]

open Classical in
theorem Acts.subset (h : st.Acts R c s Q) (hR : R ⊆ R') : st.Acts R' c s Q := by
  refine ⟨?_,h.post⟩
  intro f hf
  rw [h.same f (hf.mono hR)]
  cases hc : c s with
  | error e => rfl
  | ok r =>
    obtain ⟨a,t⟩ := r
    have hp : R.piecewise (st.get t) f = R'.piecewise (st.get t) f := by
      funext k
      by_cases hk : k ∈ R
      · rw [Set.piecewise_eq_of_mem _ _ _ hk,Set.piecewise_eq_of_mem _ _ _ (hR hk)]
      · rw [Set.piecewise_eq_of_notMem _ _ _ hk]
        by_cases hk' : k ∈ R'
        · rw [Set.piecewise_eq_of_mem _ _ _ hk',h.unchanged hc hk,hf hk']
        · rw [Set.piecewise_eq_of_notMem _ _ _ hk']
    simp only [restore,hp]

/-- A run that neither reads nor writes the store. -/
theorem acts_of_ignores (h : ∀ f, c (st.put s f) = st.restore (fun _ => f) (c s))
    (hq : ∀ a t, c s = .ok (a,t) → Q a t) : st.Acts R c s Q := by
  classical
  refine ⟨?_,hq⟩
  intro f hf
  rw [h f]
  cases hc : c s with
  | error e => rfl
  | ok r =>
    obtain ⟨a,t⟩ := r
    have hs := h (st.get s)
    rw [st.put_get,hc] at hs
    have ht : t = st.put t (st.get s) := by simpa [restore] using hs
    have hget : st.get t = st.get s := by
      rw [ht,st.get_put]
    have hp : R.piecewise (st.get t) f = f := by
      funext k
      by_cases hk : k ∈ R
      · rw [Set.piecewise_eq_of_mem _ _ _ hk,hget,hf hk]
      · rw [Set.piecewise_eq_of_notMem _ _ _ hk]
    simp only [restore,hp]

theorem acts_pure (h : Q a s) : st.Acts R (Pure.pure a : Exec σ ε α) s Q :=
  acts_of_ignores (fun _ => rfl) fun _ _ hr => by
    cases hr
    exact h

theorem acts_fail (e : ε) : st.Acts R (Exec.fail e : Exec σ ε α) s Q :=
  acts_of_ignores (fun _ => rfl) fun _ _ hr => by cases hr

theorem acts_bind (hc : st.Acts R c s Q) (hg : ∀ a t, Q a t → st.Acts R (g a) t Q2) :
    st.Acts R (c >>= g) s Q2 := by
  classical
  constructor
  · intro f hf
    rw [Exec.bind_apply,Exec.bind_apply,hc.same f hf]
    cases hr : c s with
    | error e => rfl
    | ok r =>
      obtain ⟨a,t⟩ := r
      have ha := hg a t (hc.post a t hr)
      have heq : Set.EqOn (R.piecewise (st.get t) f) (st.get t) R := fun k hk =>
        Set.piecewise_eq_of_mem _ _ _ hk
      change g a (st.put t (R.piecewise (st.get t) f)) = st.restore _ (g a t)
      rw [ha.same _ heq]
      cases g a t with
      | error e => rfl
      | ok r =>
        obtain ⟨b,u⟩ := r
        have hp : R.piecewise (st.get u) (R.piecewise (st.get t) f) = R.piecewise (st.get u) f := by
          funext k
          by_cases hk : k ∈ R
          · rw [Set.piecewise_eq_of_mem _ _ _ hk,Set.piecewise_eq_of_mem _ _ _ hk]
          · rw [Set.piecewise_eq_of_notMem _ _ _ hk,Set.piecewise_eq_of_notMem _ _ _ hk,
              Set.piecewise_eq_of_notMem _ _ _ hk]
        simp only [restore,hp]
  · intro b u hr
    obtain ⟨a,t,h1,h2⟩ := Exec.bind_eq_ok.mp hr
    exact (hg a t (hc.post a t h1)).post b u h2

/-- The invariant rule for counted loops. -/
theorem acts_loop {body : ℕ → δ → Exec σ ε δ} {I : ℕ → δ → σ → Prop} {n i : ℕ} {d : δ} (h0 : I i d s)
    (hstep : ∀ j d t, i ≤ j → j < i+n → I j d t → st.Acts R (body j d) t (I (j+1))) :
    st.Acts R (Exec.loop body n i d) s (I (i+n)) := by
  induction n generalizing i d s with
  | zero => exact acts_pure h0
  | succ n ih =>
    rw [Exec.loop_succ]
    refine acts_bind (hstep i d s (Nat.le_refl i) (by omega) h0) fun d' t ht => ?_
    have hrest := ih ht fun j d t hij hjn hj => hstep j d t (by omega) (by omega) hj
    rwa [show i+1+n = i+(n+1) by omega] at hrest

end KeyedStore
end OlaLang
