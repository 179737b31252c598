import OlaLang.ControlFlow
import Mathlib.Data.Set.Insert
import Mathlib.Data.Set.Basic

/-! The builder in the midst of a function, and the code of an expression. -/
namespace OlaLang
namespace ControlFlow

/-! ### Blocks -/

/-- Something follows a terminator. -/
def Spoiled (items : List Item) : Prop := ∃ ops t x rest, items = ops ++ .term t::x::rest

section Items

variable {items : List Item}

theorem open_nil : Open [] := fun _ h => (by cases h)

theorem Open.op (h : Open items) : Open (items ++ [.op]) := by
  intro x hx
  rcases List.mem_append.mp hx with hx|hx
  · exact h x hx
  · exact List.mem_singleton.mp hx

theorem Open.term (h : Open items) (t : Terminator) : Closed (items ++ [.term t]) :=
  ⟨items,t,rfl,h⟩

theorem Closed.emit (h : Closed items) (x : Item) : Spoiled (items ++ [x]) := by
  obtain ⟨ops,t,rfl,-⟩ := h
  exact ⟨ops,t,x,[],by simp⟩

theorem Spoiled.emit (h : Spoiled items) (x : Item) : Spoiled (items ++ [x]) := by
  obtain ⟨ops,t,y,rest,rfl⟩ := h
  exact ⟨ops,t,y,rest ++ [x],by simp⟩

theorem Open.not_closed (h : Open items) : ¬ Closed items := by
  rintro ⟨ops,t,rfl,-⟩
  have hterm := h (.term t) (by simp)
  cases hterm

theorem Spoiled.not_closed (h : Spoiled items) : ¬ Closed items := by
  rintro ⟨ops,t,rfl,hops⟩
  obtain ⟨ops',t',x,rest,heq⟩ := h
  have hsplit : ops' ++ .term t'::x::rest = (ops' ++ .term t'::(x::rest).dropLast) ++
      [(x::rest).getLast (List.cons_ne_nil _ _)] := by
    rw [List.append_assoc,List.cons_append,List.dropLast_concat_getLast]
  rw [hsplit] at heq
  have hops' := (List.append_inj' heq rfl).1
  have hterm := hops (.term t') (by rw [hops']; simp)
  cases hterm

end Items

/-- The builder in the midst of a function: `pend` are the blocks that are made and still empty; as
long as all is well (`ok`) every other block is closed, and the current one is open or closed; else
some block will never end in its only terminator. -/
structure At (pend : Set BlockId) (ok isOpen : Bool) (b : Builder) : Prop where
  cur : b.cur < b.size ∧ b.cur ∉ pend
  pending : ∀ p ∈ pend, p < b.size ∧ b.block p = []
  above : ∀ i, b.size ≤ i → b.block i = []
  good : ok = true → (∀ i < b.size, i ≠ b.cur → i ∉ pend → Closed (b.block i)) ∧
    (isOpen = true → Open (b.block b.cur)) ∧ (isOpen = false → Closed (b.block b.cur))
  bad : ok = false → ∃ i < b.size, i ∉ pend ∧
    (Spoiled (b.block i) ∨ i ≠ b.cur ∧ ¬ Closed (b.block i))

section Builder

open Builder

variable {pend : Set BlockId} {ok isOpen : Bool} {b : Builder}

theorem At.newBlock (h : At pend ok isOpen b) : At (insert b.size pend) ok isOpen b.newBlock where
  cur := by
    refine ⟨Nat.lt_succ_of_lt h.cur.1,?_⟩
    rintro (heq|hmem)
    · exact absurd heq h.cur.1.ne
    · exact h.cur.2 hmem
  pending := by
    rintro p (rfl|hp)
    · exact ⟨Nat.lt_succ_self _,h.above _ (le_refl _)⟩
    · exact ⟨Nat.lt_succ_of_lt (h.pending p hp).1,(h.pending p hp).2⟩
  above i hi := h.above i (Nat.le_of_succ_le hi)
  good hok := by
    obtain ⟨hclosed,hcur⟩ := h.good hok
    refine ⟨fun i hi hne hp => ?_,hcur⟩
    have hsize : i ≠ b.size := fun heq => hp (.inl heq)
    exact hclosed i (lt_of_le_of_ne (Nat.le_of_lt_succ hi) hsize) hne fun hmem => hp (.inr hmem)
  bad hok := by
    obtain ⟨i,hi,hp,hbad⟩ := h.bad hok
    refine ⟨i,Nat.lt_succ_of_lt hi,?_,hbad⟩
    rintro (heq|hmem)
    · exact absurd heq hi.ne
    · exact hp hmem

theorem At.emit (h : At pend ok isOpen b) (x : Item) (isOpen' : Bool)
    (hnext : Open (b.block b.cur) → (isOpen' = true → Open (b.block b.cur ++ [x])) ∧
      (isOpen' = false → Closed (b.block b.cur ++ [x]))) :
    At pend (ok && isOpen) isOpen' (b.emit x) := by
  have hcur : (b.emit x).block b.cur = b.block b.cur ++ [x] := Function.update_self _ _ _
  have hother : ∀ i, i ≠ b.cur → (b.emit x).block i = b.block i := fun i hi =>
    Function.update_of_ne hi _ _
  refine ⟨h.cur,fun p hp => ⟨(h.pending p hp).1,?_⟩,fun i hi => ?_,fun hok => ?_,fun hok => ?_⟩
  · rw [hother p fun heq => h.cur.2 (heq ▸ hp)]
    exact (h.pending p hp).2
  · have hi' : b.size ≤ i := hi
    rw [hother i (Nat.ne_of_gt (lt_of_lt_of_le h.cur.1 hi'))]
    exact h.above i hi
  · rw [Bool.and_eq_true] at hok
    obtain ⟨hclosed,hopen,-⟩ := h.good hok.1
    refine ⟨fun i hi hne hp => ?_,?_⟩
    · rw [hother i hne]
      exact hclosed i hi hne hp
    · have hcur' : (b.emit x).block (b.emit x).cur = b.block b.cur ++ [x] := hcur
      rw [hcur']
      exact hnext (hopen hok.2)
  · rw [Bool.and_eq_false_iff] at hok
    by_cases hold : ok = true
    · have hclosed := (h.good hold).2.2 (hok.resolve_left (by simp [hold]))
      refine ⟨b.cur,h.cur.1,h.cur.2,.inl ?_⟩
      rw [hcur]
      exact hclosed.emit x
    · obtain ⟨i,hi,hp,hbad⟩ := h.bad (by simpa using hold)
      refine ⟨i,hi,hp,?_⟩
      by_cases hic : i = b.cur
      · subst hic
        rcases hbad with hbad|⟨hne,-⟩
        · rw [hcur]
          exact .inl (hbad.emit x)
        · exact absurd rfl hne
      · rw [hother i hic]
        exact hbad

theorem At.op (h : At pend ok true b) : At pend ok true b.op := by
  have hop := h.emit .op true fun ho => ⟨fun _ => ho.op,fun h => (by cases h)⟩
  rwa [Bool.and_true] at hop

theorem At.term (h : At pend ok isOpen b) (t : Terminator) :
    At pend (ok && isOpen) false (b.emit (.term t)) :=
  h.emit (.term t) false fun ho => ⟨fun h => (by cases h),fun _ => ho.term t⟩

/-- The builder goes to a pending block; an open block is left behind for good. -/
theorem At.position (h : At pend ok isOpen b) {p : BlockId} (hp : p ∈ pend) :
    At (pend \ {p}) (ok && !isOpen) true (b.position p) := by
  obtain ⟨hlt,hempty⟩ := h.pending p hp
  have hne : b.cur ≠ p := fun heq => h.cur.2 (heq ▸ hp)
  refine ⟨⟨hlt,fun hmem => hmem.2 rfl⟩,fun q hq => h.pending q hq.1,h.above,fun hok => ?_,
    fun hok => ?_⟩
  · rw [Bool.and_eq_true,Bool.not_eq_true'] at hok
    obtain ⟨hclosed,-,hcur⟩ := h.good hok.1
    refine ⟨fun i hi hip hmem => ?_,fun _ => ?_,fun h => (by cases h)⟩
    · by_cases hic : i = b.cur
      · rw [hic]
        exact hcur hok.2
      · exact hclosed i hi hic fun hpend => hmem ⟨hpend,hip⟩
    · have hblock : (b.position p).block (b.position p).cur = [] := hempty
      rw [hblock]
      exact open_nil
  · rw [Bool.and_eq_false_iff,Bool.not_eq_false'] at hok
    by_cases hold : ok = true
    · have hopen := (h.good hold).2.1 (hok.resolve_left (by simp [hold]))
      exact ⟨b.cur,h.cur.1,fun hmem => h.cur.2 hmem.1,.inr ⟨hne,hopen.not_closed⟩⟩
    · obtain ⟨i,hi,hip,hbad⟩ := h.bad (by simpa using hold)
      have hiq : i ≠ p := fun heq => hip (heq ▸ hp)
      refine ⟨i,hi,fun hmem => hip hmem.1,?_⟩
      rcases hbad with hbad|⟨-,hbad⟩
      · exact .inl hbad
      · exact .inr ⟨hiq,hbad⟩

theorem At.push (h : At pend ok isOpen b) (loop : Loop) : At pend ok isOpen (b.push loop) :=
  ⟨h.cur,h.pending,h.above,h.good,h.bad⟩

theorem At.pop (h : At pend ok isOpen b) : At pend ok isOpen b.pop :=
  ⟨h.cur,h.pending,h.above,h.good,h.bad⟩

theorem At.congr {pend' : Set BlockId} {ok' isOpen' : Bool} (h : At pend ok isOpen b)
    (hpend : pend = pend') (hok : ok = ok') (hopen : isOpen = isOpen') : At pend' ok' isOpen' b := by
  subst hpend hok hopen
  exact h

/-- Blocks that are made and positioned at are no longer pending. -/
theorem At.pend_lt (h : At pend ok isOpen b) : ∀ p ∈ pend, p < b.size := fun p hp =>
  (h.pending p hp).1

theorem pend_two {n : ℕ} (h : ∀ p ∈ pend, p < n) :
    (insert (n + 1) (insert n pend) \ {n}) \ {n + 1} = pend := by
  ext x
  have hx := h x
  simp only [Set.mem_sdiff,Set.mem_insert_iff,Set.mem_singleton_iff]
  grind

theorem pend_three {n : ℕ} (h : ∀ p ∈ pend, p < n) {i j k : ℕ}
    (hijk : ∀ x, (x = i ∨ x = j ∨ x = k) ↔ (x = n ∨ x = n + 1 ∨ x = n + 2)) :
    ((insert (n + 2) (insert (n + 1) (insert n pend)) \ {i}) \ {j}) \ {k} = pend := by
  ext x
  have hx := h x
  have hx' := hijk x
  simp only [Set.mem_sdiff,Set.mem_insert_iff,Set.mem_singleton_iff]
  grind

theorem pend_four {n : ℕ} (h : ∀ p ∈ pend, p < n) {i j k l : ℕ}
    (hijkl : ∀ x, (x = i ∨ x = j ∨ x = k ∨ x = l) ↔
      (x = n ∨ x = n + 1 ∨ x = n + 2 ∨ x = n + 3)) :
    (((insert (n + 3) (insert (n + 2) (insert (n + 1) (insert n pend))) \ {i}) \ {j}) \ {k}) \
      {l} = pend := by
  ext x
  have hx := h x
  have hx' := hijkl x
  simp only [Set.mem_sdiff,Set.mem_insert_iff,Set.mem_singleton_iff]
  grind

/-- A jump from an open block to a pending one. -/
theorem At.go (h : At pend ok true b) (t : Terminator) {p : BlockId} (hp : p ∈ pend) :
    At (pend \ {p}) ok true ((b.emit (.term t)).position p) :=
  ((h.term t).position hp).congr rfl (by simp) rfl

@[simp] theorem newBlock_size (b : Builder) : b.newBlock.size = b.size + 1 := rfl

theorem At.two (h : At pend ok isOpen b) :
    At (insert (b.size + 1) (insert b.size pend)) ok isOpen b.newBlock.newBlock :=
  h.newBlock.newBlock

theorem At.three (h : At pend ok isOpen b) :
    At (insert (b.size + 2) (insert (b.size + 1) (insert b.size pend))) ok isOpen
      b.newBlock.newBlock.newBlock :=
  h.newBlock.newBlock.newBlock

theorem At.four (h : At pend ok isOpen b) :
    At (insert (b.size + 3) (insert (b.size + 2) (insert (b.size + 1) (insert b.size pend)))) ok
      isOpen b.newBlock.newBlock.newBlock.newBlock :=
  h.newBlock.newBlock.newBlock.newBlock

/-- The code of an expression leaves the builder at the end of an open block. -/
theorem genFlow_at (e : Flow) {pend : Set BlockId} {ok : Bool} {b : Builder}
    (h : At pend ok true b) : At pend ok true (genFlow e b) := by
  induction e generalizing b pend with
  | line => exact h.op
  | seq first second ih1 ih2 => exact ih2 (ih1 h)
  | staticLoop body ih =>
    have hstart := (h.two.op.go (.br b.size) (p := b.size) (by simp)).op
    have hend := (ih hstart).op.go (.condBr b.size (b.size + 1)) (p := b.size + 1) (by simp)
    exact hend.congr (pend_two h.pend_lt) rfl rfl
  | condLoop body ih =>
    have hcond := (h.three.op.go (.br b.size) (p := b.size) (by simp)).op
    have hbody := hcond.go (.condBr (b.size + 1) (b.size + 2)) (p := b.size + 1) (by simp)
    have hend := (ih hbody).op.go (.br b.size) (p := b.size + 2) (by simp)
    exact hend.congr (pend_three h.pend_lt (by omega)) rfl rfl
  | arrayLoop bound body ih1 ih2 =>
    have hcond := ih1 (h.four.op.go (.br b.size) (p := b.size) (by simp))
    have hbody := hcond.op.go (.condBr (b.size + 1) (b.size + 3)) (p := b.size + 1) (by simp)
    have hnext := ((ih2 hbody).go (.br (b.size + 2)) (p := b.size + 2) (by simp)).op
    have hend := hnext.go (.br b.size) (p := b.size + 3) (by simp)
    exact hend.congr (pend_four h.pend_lt (by omega)) rfl rfl
  | conditional cond left right ih1 ih2 ih3 =>
    have hcond := ih1 h
    have hleft := hcond.three.go (.condBr (genFlow cond b).size ((genFlow cond b).size + 1))
      (p := (genFlow cond b).size) (by simp)
    have hright := (ih2 hleft).go (.br ((genFlow cond b).size + 2))
      (p := (genFlow cond b).size + 1) (by simp)
    have hend := ((ih3 hright).go (.br ((genFlow cond b).size + 2))
      (p := (genFlow cond b).size + 2) (by simp)).op
    exact hend.congr (pend_three hcond.pend_lt (by omega)) rfl rfl

/-- The code of an expression does not touch the loops. -/
theorem genFlow_loops (e : Flow) (b : Builder) :
    (genFlow e b).loops = b.loops ∧ (genFlow e b).jumps = b.jumps := by
  induction e generalizing b with
  | line => exact ⟨rfl,rfl⟩
  | seq first second ih1 ih2 => exact ⟨(ih2 _).1.trans (ih1 b).1,(ih2 _).2.trans (ih1 b).2⟩
  | staticLoop body ih => exact ⟨(ih _).1,(ih _).2⟩
  | condLoop body ih => exact ⟨(ih _).1,(ih _).2⟩
  | arrayLoop bound body ih1 ih2 => exact ⟨(ih2 _).1.trans (ih1 _).1,(ih2 _).2.trans (ih1 _).2⟩
  | conditional cond left right ih1 ih2 ih3 =>
    constructor
    · exact (ih3 _).1.trans ((ih2 _).1.trans (ih1 b).1)
    · exact (ih3 _).2.trans ((ih2 _).2.trans (ih1 b).2)

end Builder

end ControlFlow
end OlaLang
