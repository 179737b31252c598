import OlaLang.ArraySlice
import OlaLang.EncodeSpec

/-! The library function `fields_concat`, and for which values it gives their concatenation. -/
namespace OlaLang
namespace FieldsConcat

open Exec (Returns bind_ok returns_bind returns_pure)
open Builder Corelib Storage Encoding ArraySlice

/-- `define_fields_concat`: the data of the left value and the length of the right one are taken from
the other value. -/
def fieldsConcat (leftValue rightValue : Pointer) : Code Pointer := do
  let leftLen ← vectorLen (.ptr leftValue)
  let leftData := vectorData rightValue
  let rightLen ← vectorLen (.ptr leftValue)
  let rightData := vectorData rightValue
  let newLen := leftLen + rightLen
  let destFields ← vectorNew newLen
  let newFieldsData := vectorData destFields
  memcpy leftData newFieldsData leftLen
  let newFieldsData := newFieldsData.add leftLen.val
  memcpy rightData newFieldsData rightLen
  pure destFields

/-- The places that were there before the heap grew from `b` on. -/
def Before (b : ℕ) (q : Pointer) : Prop := ∀ k, q ≠ .heap (b + k)

/-- A value of type `fields` in memory: its length and its cells. -/
structure Fields (s : State) (p : Pointer) (l : List Felt) : Prop where
  lt : l.length < FIELD_ORDER
  cells : Holds (Before s.heap) s p (l.length::l)

/-- The result is a new value with the cells of both, and both are as they were. -/
structure Concatenated (p q : Pointer) (l r : List Felt) (s : State) (v : Pointer) (t : State) :
    Prop where
  fresh : v = .heap s.heap
  value : Fields t v (l ++ r)
  left : Fields t p l
  right : Fields t q r

variable {s t : State} {p q : Pointer} {l r : List Felt} {b : ℕ}

theorem before_iff {n : ℕ} : Before b (.heap n) ↔ n < b := by
  constructor
  · intro h
    by_contra hlt
    exact h (n - b) (by rw [Nat.add_sub_cancel' (Nat.le_of_not_lt hlt)])
  · intro h k heq
    have := Pointer.heap.inj heq
    omega

theorem Before.mono {b' : ℕ} (h : Before b q) (hle : b ≤ b') : Before b' q := fun k heq =>
  h (b' - b + k) (by rw [heq,← Nat.add_assoc,Nat.add_sub_cancel' hle])

theorem Fields.length (h : Fields s p l) : (s.cell p).val = l.length := by
  rw [h.cells.2.1]
  exact Felt.val_natCast_of_lt h.lt

theorem Fields.get (h : Fields s p l) {i : ℕ} (hi : i < l.length) :
    Before s.heap ((vectorData p).add i) ∧ s.cell ((vectorData p).add i) = l.get ⟨i,hi⟩ :=
  h.cells.2.2.get hi

/-- A value is kept by what only touches the new part of the heap. -/
theorem Fields.keep (h : Fields s p l) (hheap : s.heap ≤ t.heap)
    (hframe : ∀ q, Before s.heap q → t.mem q = s.mem q) : Fields t p l :=
  ⟨h.lt,h.cells.mono ⟨fun _ hq => hq.mono hheap,hframe⟩⟩

/-- What a run leaves: twice the length of the left value, and twice the cells behind the length of
the right one. -/
structure Doubled (p q : Pointer) (s : State) (v : Pointer) (t : State) : Prop where
  fresh : v = .heap s.heap
  heap : t.heap = s.heap + (s.cell p + s.cell p).val + 1
  length : t.cell v = s.cell p + s.cell p
  frame : ∀ x, Before s.heap x → t.mem x = s.mem x
  cells : (∀ i < (s.cell p).val, Before s.heap ((vectorData q).add i)) → ∀ i < (s.cell p).val,
    t.cell (.heap (s.heap + 1 + i)) = s.cell ((vectorData q).add i) ∧
      t.cell (.heap (s.heap + 1 + (s.cell p).val + i)) = s.cell ((vectorData q).add i)

theorem fieldsConcat_doubled (p q : Pointer) (s : State) :
    Returns (fieldsConcat p q) s (Doubled p q s) := by
  obtain ⟨n,hn⟩ : ∃ n, s.cell p = n := ⟨_,rfl⟩
  set m : State := { s with heap := s.heap + (n + n).val + 1 }.write (.heap s.heap) (.int (n + n))
    with hm
  have hnew : ∀ x, Before s.heap x → m.mem x = s.mem x := fun x hx =>
    State.write_mem_of_ne _ _ (hx 0)
  obtain ⟨_,u,hfirst,hu⟩ := memcpy_copied (vectorData q) (s.heap + 1) n m
  obtain ⟨_,t,hsecond,ht⟩ := memcpy_copied (vectorData q) (s.heap + 1 + n.val) n u
  have hkept : ∀ x, Before (s.heap + 1) x → u.mem x = m.mem x := fun x hx =>
    hu.frame x fun k _ => hx k
  have hkept' : ∀ x, Before (s.heap + 1 + n.val) x → t.mem x = u.mem x := fun x hx =>
    ht.frame x fun k _ => hx k
  have hframe : ∀ x, Before s.heap x → t.mem x = s.mem x := fun x hx => by
    rw [hkept' x (hx.mono (by omega)),hkept x (hx.mono (by omega)),hnew x hx]
  have hrun : fieldsConcat p q s = .ok (.heap s.heap,t) := by
    subst hn
    show (memcpy (vectorData q) (.heap (s.heap + 1)) (s.cell p) >>= fun _ =>
      memcpy (vectorData q) (.heap (s.heap + 1 + (s.cell p).val)) (s.cell p) >>= fun _ =>
        pure (Pointer.heap s.heap)) m = _
    rw [bind_ok hfirst,bind_ok hsecond]
    rfl
  refine ⟨.heap s.heap,t,hrun,rfl,?_,?_,hframe,?_⟩ <;> rw [hn]
  · rw [ht.heap,hu.heap]
    rfl
  · rw [State.cell,hkept' _ (before_iff.mpr (by omega)),hkept _ (before_iff.mpr (by omega)),hm]
    simp
  · intro hbefore i hi
    have hsource := hbefore i hi
    have hold : u.cell ((vectorData q).add i) = s.cell ((vectorData q).add i) := by
      rw [State.cell,hkept _ (hsource.mono (by omega)),hnew _ hsource,State.cell]
    refine ⟨?_,?_⟩
    · rw [State.cell,hkept' _ (before_iff.mpr (by omega)),← State.cell,
        hu.cells (fun i hi k _ => (hbefore i hi).mono (Nat.le_succ _) k) i hi,State.cell,
        hnew _ hsource,State.cell]
    · rw [ht.cells (fun i hi k _ => (hbefore i hi).mono (by omega) k) i hi,hold]

/-- For equal values twice the one is both. -/
theorem Doubled.concatenated {v : Pointer} (h : Doubled p q s v t) (hl : Fields s p l)
    (hr : Fields s q l) (hlt : 2 * l.length < FIELD_ORDER) : Concatenated p q l l s v t := by
  have hlen : (s.cell p).val = l.length := hl.length
  have hsum : (s.cell p + s.cell p).val = l.length + l.length := by
    rw [Felt.val_add,hlen]
    exact Nat.mod_eq_of_lt (by rwa [← two_mul])
  have hheap : t.heap = s.heap + (l.length + l.length) + 1 := by rw [h.heap,hsum]
  have hcells := h.cells fun i hi => (hr.get (by rwa [← hlen])).1
  rw [hlen] at hcells
  obtain rfl := h.fresh
  refine ⟨rfl,⟨by rw [List.length_append]; omega,?_,?_,?_⟩,hl.keep (by omega) h.frame,
    hr.keep (by omega) h.frame⟩
  · exact before_iff.mpr (by omega)
  · rw [h.length,hl.cells.2.1,List.length_append,Nat.cast_add]
  · refine holds_append.mpr ⟨holds_iff.mpr fun i hi => ⟨before_iff.mpr (by omega),?_⟩,
      holds_iff.mpr fun i hi => ⟨before_iff.mpr (by omega),?_⟩⟩
    · rw [← (hr.get hi).2]
      exact (hcells i hi).1
    · rw [← (hr.get hi).2]
      exact (hcells i hi).2

/-- Twice the one is both for no other values. -/
theorem Doubled.equal {v : Pointer} (h : Doubled p q s v t) (hl : Fields s p l)
    (hr : Fields s q r) (hc : Concatenated p q l r s v t) :
    l = r ∧ 2 * l.length < FIELD_ORDER := by
  have hlen := hc.value.length
  rw [h.length,Felt.val_add,hl.length,List.length_append] at hlen
  have hl' := hl.lt
  have hsum : l.length + r.length < FIELD_ORDER := by
    have := hc.value.lt
    rwa [List.length_append] at this
  unfold FIELD_ORDER at hl' hsum ⊢
  have heq : r.length = l.length := by omega
  refine ⟨List.ext_getElem heq.symm fun i hi hi' => ?_,by omega⟩
  have hcell := (h.cells (fun i hi => (hr.get (by rwa [heq,← hl.length])).1) i
    (by rwa [hl.length])).1
  have hget := (hc.value.get (i := i) (by rw [List.length_append]; omega)).2
  have hright := (hr.get hi').2
  obtain rfl := h.fresh
  simp only [List.get_eq_getElem,List.getElem_append_left hi] at hget hright
  rw [← hget,← hright]
  exact hcell

/-- The code gives the concatenation exactly for equal values that are short enough. -/
theorem concatenates_iff (hl : Fields s p l) (hr : Fields s q r) :
    Returns (fieldsConcat p q) s (Concatenated p q l r s) ↔
      l = r ∧ 2 * l.length < FIELD_ORDER := by
  obtain ⟨v,t,hrun,ht⟩ := fieldsConcat_doubled p q s
  constructor
  · rintro ⟨v',t',hrun',hconcat⟩
    cases hrun.symm.trans hrun'
    exact ht.equal hl hr hconcat
  · rintro ⟨rfl,hlt⟩
    exact ⟨v,t,hrun,ht.concatenated hl hr hlt⟩

/-- Two values of one cell, one behind the other. -/
def twoFields (a b : Felt) : State :=
  ⟨fun x => if x = .heap 1 then .int a else if x = .heap 3 then .int b else .int 1,4,0,
    fun _ => Word.zero⟩

theorem fields_single {n : ℕ} {a : Felt} (hn : n + 1 < s.heap) (hlen : s.cell (.heap n) = 1)
    (ha : s.cell (.heap (n + 1)) = a) : Fields s (.heap n) [a] := by
  refine ⟨(by decide : 1 < FIELD_ORDER),before_iff.mpr (by omega),?_,before_iff.mpr hn,ha,trivial⟩
  rw [hlen]
  simp

theorem twoFields_fields (a b : Felt) :
    Fields (twoFields a b) (.heap 0) [a] ∧ Fields (twoFields a b) (.heap 2) [b] :=
  ⟨fields_single (by show 0 + 1 < 4; omega) rfl rfl,
    fields_single (by show 2 + 1 < 4; omega) rfl rfl⟩

theorem concatenates_iff_seven : Fields (twoFields 7 7) (.heap 0) [7] ∧
    (Returns (fieldsConcat (.heap 0) (.heap 2)) (twoFields 7 7)
      (Concatenated (.heap 0) (.heap 2) [7] [7] (twoFields 7 7)) ↔
        [(7 : Felt)] = [7] ∧ 2 * [(7 : Felt)].length < FIELD_ORDER) :=
  ⟨(twoFields_fields 7 7).1,concatenates_iff (twoFields_fields 7 7).1 (twoFields_fields 7 7).2⟩

/-- The values [1] and [2] do not give [1,2]. -/
theorem different_not_concatenated :
    Fields (twoFields 1 2) (.heap 0) [1] ∧ Fields (twoFields 1 2) (.heap 2) [2] ∧
      ¬ Returns (fieldsConcat (.heap 0) (.heap 2)) (twoFields 1 2)
        (Concatenated (.heap 0) (.heap 2) [1] [2] (twoFields 1 2)) := by
  obtain ⟨hl,hr⟩ := twoFields_fields 1 2
  obtain ⟨v,t,hrun,ht⟩ := fieldsConcat_doubled (.heap 0) (.heap 2) (twoFields 1 2)
  refine ⟨hl,hr,?_⟩
  rintro ⟨v',t',hrun',hconcat⟩
  cases hrun.symm.trans hrun'
  have hone := (ht.equal hl hr hconcat).1
  revert hone
  decide

end FieldsConcat
end OlaLang
