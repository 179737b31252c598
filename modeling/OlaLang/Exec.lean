import Mathlib.Data.Nat.Notation
import Mathlib.Data.List.Forall2
import Mathlib.Logic.Basic

/-! State passing runs that may stop with a fault, with the total-correctness predicate `Returns`
and its rules for sequencing and for counted loops. -/
namespace OlaLang

/-- A run from a state either stops with a fault or returns a value and the next state. -/
def Exec (σ ε α : Type) := σ → Except ε (α × σ)

namespace Exec

variable {σ ε α β δ : Type}

def pure (a : α) : Exec σ ε α := fun s => .ok (a,s)

def bind (m : Exec σ ε α) (f : α → Exec σ ε β) : Exec σ ε β := fun s =>
  match m s with
  | .ok (a,t) => f a t
  | .error e => .error e

instance : Monad (Exec σ ε) where
  pure := Exec.pure
  bind := Exec.bind

def fail (e : ε) : Exec σ ε α := fun _ => .error e

def get : Exec σ ε σ := fun s => .ok (s,s)

def modify (f : σ → σ) : Exec σ ε Unit := fun s => .ok ((),f s)

@[simp] theorem pure_apply (a : α) (s : σ) : (Pure.pure a : Exec σ ε α) s = .ok (a,s) := rfl
@[simp] theorem get_apply (s : σ) : (get : Exec σ ε σ) s = .ok (s,s) := rfl
@[simp] theorem modify_apply (f : σ → σ) (s : σ) :
    (modify f : Exec σ ε Unit) s = .ok ((),f s) := rfl
@[simp] theorem fail_apply (e : ε) (s : σ) : (fail e : Exec σ ε α) s = .error e := rfl

theorem except_bind_eq_ok {m : Except ε α} {f : α → Except ε β} {b : β} :
    (m >>= f) = .ok b ↔ ∃ a, m = .ok a ∧ f a = .ok b := by
  cases m <;> simp [Bind.bind,Except.bind]

theorem except_mapM_eq_ok {f : α → Except ε β} {l : List α} {l' : List β} :
    l.mapM f = .ok l' ↔ List.Forall₂ (fun x y => f x = .ok y) l l' := by
  induction l generalizing l' with
  | nil => simp [Pure.pure,Except.pure,eq_comm]
  | cons x l ih =>
    rw [List.mapM_cons,except_bind_eq_ok,List.forall₂_cons_left_iff]
    simp only [except_bind_eq_ok,ih,Pure.pure,Except.pure,Except.ok.injEq]
    constructor
    · rintro ⟨y,hy,ys,hys,rfl⟩
      exact ⟨y,ys,hy,hys,rfl⟩
    · rintro ⟨y,ys,hy,hys,rfl⟩
      exact ⟨y,hy,ys,hys,rfl⟩

theorem exists_of_mapM_mem {f : α → Except ε β} {l : List α} {l' : List β} (h : l.mapM f = .ok l') :
    (∀ x ∈ l, ∃ y ∈ l', f x = .ok y) ∧ ∀ y ∈ l', ∃ x ∈ l, f x = .ok y := by
  rw [except_mapM_eq_ok] at h
  induction h with
  | nil => simp
  | cons hxy _ ih =>
    simp only [List.forall_mem_cons,List.exists_mem_cons_iff]
    exact ⟨⟨.inl hxy,fun x hx => .inr (ih.1 x hx)⟩,.inl hxy,fun y hy => .inr (ih.2 y hy)⟩

theorem exists_mapM {f : α → Except ε β} {l : List α} (h : ∀ x ∈ l, ∃ y, f x = .ok y) :
    ∃ l', l.mapM f = .ok l' := by
  simp only [except_mapM_eq_ok]
  induction l with
  | nil => exact ⟨[],.nil⟩
  | cons x l ih =>
    rw [List.forall_mem_cons] at h
    obtain ⟨y,hy⟩ := h.1
    obtain ⟨l',hl⟩ := ih h.2
    exact ⟨y::l',.cons hy hl⟩

/-- Every step of a completed fold was completed. -/
theorem exists_step_of_foldlM {step : δ → α → Except ε δ} {l : List α} {d d' : δ}
    (h : l.foldlM step d = .ok d') {x : α} (hx : x ∈ l) : ∃ c c', step c x = .ok c' := by
  induction l generalizing d with
  | nil => cases hx
  | cons y l ih =>
    rw [List.foldlM_cons,except_bind_eq_ok] at h
    obtain ⟨c,hc,h⟩ := h
    rcases List.mem_cons.mp hx with rfl | hx
    · exact ⟨d,c,hc⟩
    · exact ih h hx

/-- A fold is completed when all its steps are, from whatever value. -/
theorem exists_foldlM {step : δ → α → Except ε δ} {l : List α}
    (h : ∀ x ∈ l, ∀ c, ∃ c', step c x = .ok c') (d : δ) : ∃ d', l.foldlM step d = .ok d' := by
  induction l generalizing d with
  | nil => exact ⟨d,rfl⟩
  | cons x l ih =>
    rw [List.forall_mem_cons] at h
    obtain ⟨c,hc⟩ := h.1 d
    obtain ⟨d',hd⟩ := ih h.2 c
    exact ⟨d',by rw [List.foldlM_cons,hc]; exact hd⟩

theorem bind_apply (m : Exec σ ε α) (f : α → Exec σ ε β) (s : σ) :
    (m >>= f) s = match m s with
      | .ok (a,t) => f a t
      | .error e => .error e := rfl

@[simp] theorem bind_ok {m : Exec σ ε α} {f : α → Exec σ ε β} {s t : σ} {a : α}
    (h : m s = .ok (a,t)) : (m >>= f) s = f a t := by simp [bind_apply,h]

@[simp] theorem bind_error {m : Exec σ ε α} {f : α → Exec σ ε β} {s : σ} {e : ε}
    (h : m s = .error e) : (m >>= f) s = .error e := by simp [bind_apply,h]

theorem pure_bind (a : α) (f : α → Exec σ ε β) : (Pure.pure a >>= f) = f a := rfl

theorem bind_assoc (m : Exec σ ε α) (f : α → Exec σ ε β) (g : β → Exec σ ε δ) :
    (m >>= f) >>= g = m >>= fun a => f a >>= g := by
  funext s
  simp only [bind_apply]
  cases m s <;> rfl

/-- A completed sequence splits at the state between its two parts. -/
theorem bind_eq_ok {m : Exec σ ε α} {f : α → Exec σ ε β} {s u : σ} {b : β} :
    (m >>= f) s = .ok (b,u) ↔ ∃ a t, m s = .ok (a,t) ∧ f a t = .ok (b,u) := by
  rw [bind_apply]
  cases m s with
  | error e => simp
  | ok r =>
    rcases r with ⟨a,t⟩
    constructor
    · intro h; exact ⟨a,t,rfl,h⟩
    · rintro ⟨a',t',heq,h⟩
      cases heq
      exact h

/-- The run completes, and its value and final state satisfy `Q`. -/
def Returns (m : Exec σ ε α) (s : σ) (Q : α → σ → Prop) : Prop :=
  ∃ a t, m s = .ok (a,t) ∧ Q a t

theorem returns_pure {a : α} {s : σ} {Q : α → σ → Prop} (h : Q a s) :
    Returns (Pure.pure a : Exec σ ε α) s Q := ⟨a,s,rfl,h⟩

theorem returns_bind {m : Exec σ ε α} {f : α → Exec σ ε β} {s : σ} {Q : β → σ → Prop}
    (h : Returns m s (fun a t => Returns (f a) t Q)) : Returns (m >>= f) s Q := by
  rcases h with ⟨a,t,hm,b,u,hf,hq⟩
  exact ⟨b,u,bind_eq_ok.mpr ⟨a,t,hm,hf⟩,hq⟩

theorem Returns.mono {m : Exec σ ε α} {s : σ} {P Q : α → σ → Prop} (h : Returns m s P)
    (hpq : ∀ a t, P a t → Q a t) : Returns m s Q := by
  rcases h with ⟨a,t,hm,hp⟩
  exact ⟨a,t,hm,hpq a t hp⟩

/-- Run `body` on `i, i+1, ..`, `n` times, threading a value through the iterations. -/
def loop (body : ℕ → δ → Exec σ ε δ) : ℕ → ℕ → δ → Exec σ ε δ
  | 0, _, d => Pure.pure d
  | n+1, i, d => do
    let d' ← body i d
    loop body n (i+1) d'

@[simp] theorem loop_zero (body : ℕ → δ → Exec σ ε δ) (i : ℕ) (d : δ) :
    loop body 0 i d = Pure.pure d := rfl

theorem loop_succ (body : ℕ → δ → Exec σ ε δ) (n i : ℕ) (d : δ) :
    loop body (n+1) i d = (body i d >>= fun d' => loop body n (i+1) d') := rfl

/-- The invariant rule: what holds before iteration `i` and is carried to `i+1` by the body
holds after the last iteration. -/
theorem returns_loop {body : ℕ → δ → Exec σ ε δ} {I : ℕ → δ → σ → Prop} {n i : ℕ} {d : δ} {s : σ}
    (h0 : I i d s)
    (hstep : ∀ j d t, i ≤ j → j < i+n → I j d t → Returns (body j d) t (fun d' u => I (j+1) d' u)) :
    Returns (loop body n i d) s (fun d' t => I (i+n) d' t) := by
  induction n generalizing i d s with
  | zero => exact returns_pure (by simpa using h0)
  | succ n ih =>
    rw [loop_succ]
    refine returns_bind ((hstep i d s (Nat.le_refl i) (by omega) h0).mono fun d' t ht => ?_)
    have hrest := ih ht fun j d t hij hjn hj => hstep j d t (by omega) (by omega) hj
    simpa only [show i+1+n = i+(n+1) by omega] using hrest

end Exec
end OlaLang
