import OlaLang.Machine

/-! The core library functions of the emitted module: allocation, copying, and the u32 routines
that check the answers of the prophets. -/
namespace OlaLang
namespace Corelib

open Builder

/-- `heap_malloc`: the block starts at the old heap address. -/
def heapMalloc (size : Felt) : Code Pointer := fun s =>
  .ok (.heap s.heap,{ s with heap := s.heap + size.val })

/-- `vector_new`: a length cell followed by `size` data cells. -/
def vectorNew (size : Felt) : Code Pointer := fun s =>
  .ok (.heap s.heap,{ s with heap := s.heap + size.val + 1 }.write (.heap s.heap) (.int size))

/-- `memcpy`: cells are copied one by one from the front. -/
def memcpy (src dest : Pointer) (len : Felt) : Code Unit := do
  let _ ← Exec.loop (fun i (_ : Unit) => Exec.modify fun s =>
    s.write (dest.add i) (s.mem (src.add i))) len.val 0 ()

/-- `u32_div_mod`: the remainder and the quotient come from the prophets; the checks are those
the generator emits, in its order. The second range check is on the parameter `quotient`. -/
def u32DivMod (host : Host) (dividend divisor : Felt) (quotient remainder : Pointer) :
    Code Unit := do
  let remainderRet := host.prophetU32Mod dividend divisor
  builtinRangeCheck (.int remainderRet)
  builtinRangeCheck (.int (divisor - (remainderRet + 1)))
  let quotientRet := host.prophetU32Div dividend divisor
  builtinRangeCheck (.int quotient.address)
  builtinAssert (quotientRet * divisor + remainderRet = dividend)
  buildStore quotient (.int quotientRet)
  buildStore remainder (.int remainderRet)

def TWO_POWER : ℕ := 2^32

/-- `split_field`: the prophets give the two halves, which must be in range and make up the
field element. -/
def splitField (host : Host) (fieldInput : Felt) (highOutput lowOutput : Pointer) : Code Unit := do
  let fieldHigh := host.prophetSplitFieldHigh fieldInput
  builtinRangeCheck (.int fieldHigh)
  let fieldLow := host.prophetSplitFieldLow fieldInput
  builtinRangeCheck (.int fieldLow)
  let result := fieldHigh * (TWO_POWER : ℕ) + fieldLow
  builtinAssert (fieldInput = result)
  buildStore highOutput (.int fieldHigh)
  buildStore lowOutput (.int fieldLow)

/-- `u32_sqrt`: the answer of the prophet must be in range and have the value as its square. -/
def u32Sqrt (host : Host) (value : Felt) : Code Value := do
  let root := host.prophetU32Sqrt value
  builtinRangeCheck (.int root)
  let rootSquared := root * root
  builtinAssert (rootSquared = value)
  pure (.int root)

/-- The loop of the functions that compare memory: it goes on to the next cells while `compare`
holds, and ends with one constant behind the last cells and with another one before. -/
def memCompareLoop (compare : ℕ → Code Bool) (fromCond fromBody : Felt) : ℕ → ℕ → Code Value
  | 0, _ => pure (.int fromCond)
  | n+1, index => do
    let holds ← compare index
    if holds then memCompareLoop compare fromCond fromBody n (index+1) else pure (.int fromBody)

/-- The loop of `u32_power`: the counter is compared after it is incremented, and the product
of the last round is dropped. The counter runs up to `exponent`, which bounds the rounds. -/
def u32PowerLoop (base exponent : Felt) : ℕ → Felt → Felt → Code Felt
  | 0, _, _ => Exec.fail .diverge
  | fuel+1, counter, result =>
    let newCounter := counter + 1
    let newResult := result * base
    if newCounter.val ≤ exponent.val then u32PowerLoop base exponent fuel newCounter newResult
    else pure result

/-- `u32_power`: one range check, on the final result. -/
def u32Power (base exponent : Felt) : Code Value := do
  let result ← u32PowerLoop base exponent (exponent.val+1) 0 1
  builtinRangeCheck (.int result)
  pure (.int result)

/-- What a completed call of `u32_div_mod` has checked and written. -/
theorem u32DivMod_eq_ok {host : Host} {n d : Felt} {q r : Pointer} {s t : State} :
    u32DivMod host n d q r s = .ok ((),t) ↔
      Felt.IsU32 (host.prophetU32Mod n d) ∧
      Felt.IsU32 (d - (host.prophetU32Mod n d + 1)) ∧
      Felt.IsU32 q.address ∧
      host.prophetU32Div n d * d + host.prophetU32Mod n d = n ∧
      t = (s.write q (.int (host.prophetU32Div n d))).write r (.int (host.prophetU32Mod n d)) := by
  simp only [u32DivMod,Exec.bind_eq_ok,builtinRangeCheck_int_eq_ok,builtinAssert_eq_ok,
    decide_eq_true_eq]
  constructor
  · rintro ⟨_,_,⟨hr,rfl⟩,_,_,⟨hd,rfl⟩,_,_,⟨hq,rfl⟩,_,_,⟨heq,rfl⟩,_,_,hs,ht⟩
    cases hs
    cases ht
    exact ⟨hr,hd,hq,heq,rfl⟩
  · rintro ⟨hr,hd,hq,heq,rfl⟩
    exact ⟨(),s,⟨hr,rfl⟩,(),s,⟨hd,rfl⟩,(),s,⟨hq,rfl⟩,(),s,⟨heq,rfl⟩,(),_,rfl,rfl⟩

/-- What a completed call of `split_field` has checked and written. -/
theorem splitField_eq_ok {host : Host} {x : Felt} {h l : Pointer} {s t : State} :
    splitField host x h l s = .ok ((),t) ↔
      Felt.IsU32 (host.prophetSplitFieldHigh x) ∧
      Felt.IsU32 (host.prophetSplitFieldLow x) ∧
      x = host.prophetSplitFieldHigh x * (TWO_POWER : ℕ) + host.prophetSplitFieldLow x ∧
      t = (s.write h (.int (host.prophetSplitFieldHigh x))).write l
        (.int (host.prophetSplitFieldLow x)) := by
  simp only [splitField,Exec.bind_eq_ok,builtinRangeCheck_int_eq_ok,builtinAssert_eq_ok,
    decide_eq_true_eq]
  constructor
  · rintro ⟨_,_,⟨hh,rfl⟩,_,_,⟨hl,rfl⟩,_,_,⟨heq,rfl⟩,_,_,hs,ht⟩
    cases hs
    cases ht
    exact ⟨hh,hl,heq,rfl⟩
  · rintro ⟨hh,hl,heq,rfl⟩
    exact ⟨(),s,⟨hh,rfl⟩,(),s,⟨hl,rfl⟩,(),s,⟨heq,rfl⟩,(),_,rfl,rfl⟩

/-- What a completed call of `u32_sqrt` has checked. -/
theorem u32Sqrt_eq_ok {host : Host} {n : Felt} {v : Value} {s t : State} :
    u32Sqrt host n s = .ok (v,t) ↔
      Felt.IsU32 (host.prophetU32Sqrt n) ∧
      host.prophetU32Sqrt n * host.prophetU32Sqrt n = n ∧
      v = .int (host.prophetU32Sqrt n) ∧ t = s := by
  simp only [u32Sqrt,Exec.bind_eq_ok,builtinRangeCheck_int_eq_ok,builtinAssert_eq_ok,
    decide_eq_true_eq]
  constructor
  · rintro ⟨_,_,⟨hr,rfl⟩,_,_,⟨heq,rfl⟩,hv⟩
    cases hv
    exact ⟨hr,heq,rfl,rfl⟩
  · rintro ⟨hr,heq,rfl,rfl⟩
    exact ⟨(),t,⟨hr,rfl⟩,(),t,⟨heq,rfl⟩,rfl⟩

/-- The result of a comparison depends on whether `compare` holds at every index; `I` is kept by
its runs. -/
theorem memCompareLoop_spec {c : ℕ → Code Bool} {a b : Felt} {I : State → Prop}
    {P : ℕ → Prop} [DecidablePred P] (n index : ℕ) {s : State} (hs : I s)
    (hcompare : ∀ i t, index ≤ i → i < index+n → I t →
      ∃ u, c i t = .ok (decide (P i),u) ∧ I u) :
    ∃ u, memCompareLoop c a b n index s =
      .ok (.int (if ∀ i, index ≤ i → i < index+n → P i then a else b),u) ∧ I u := by
  induction n generalizing index s with
  | zero =>
    refine ⟨s,?_,hs⟩
    have hall : ∀ i, index ≤ i → i < index+0 → P i := fun i h h' => by omega
    rw [memCompareLoop,if_pos hall]
    rfl
  | succ n ih =>
    obtain ⟨u,hrun,hu⟩ := hcompare index s (Nat.le_refl _) (by omega) hs
    rw [memCompareLoop,Exec.bind_ok hrun]
    by_cases hP : P index
    · obtain ⟨v,hrest,hv⟩ := ih (index+1) hu fun i t h h' => hcompare i t (by omega) (by omega)
      have hiff : (∀ i, index+1 ≤ i → i < index+1+n → P i) ↔
          ∀ i, index ≤ i → i < index+(n+1) → P i := by
        constructor
        · intro h i hi hi'
          by_cases heq : i = index
          · rwa [heq]
          · exact h i (by omega) (by omega)
        · intro h i hi hi'
          exact h i (by omega) (by omega)
      refine ⟨v,?_,hv⟩
      simp only [hP,decide_true,if_true,hrest,hiff]
    · have hnot : ¬ ∀ i, index ≤ i → i < index+(n+1) → P i := fun h =>
        hP (h index (Nat.le_refl _) (by omega))
      refine ⟨u,?_,hu⟩
      simp only [hP,decide_false,Bool.false_eq_true,if_false,hnot]
      rfl

theorem u32PowerLoop_apply (base exponent : Felt) (s : State) (fuel k : ℕ)
    (hk : k ≤ exponent.val) (hfuel : exponent.val - k < fuel)
    (hexp : exponent.val + 1 < 0xFFFFFFFF00000001) :
    u32PowerLoop base exponent fuel k (base^k) s = .ok (base^exponent.val,s) := by
  induction fuel generalizing k with
  | zero => omega
  | succ fuel ih =>
    have hval : ((k : Felt) + 1).val = k+1 := by
      rw [← Nat.cast_add_one]
      exact Felt.val_natCast_of_lt (by omega)
    by_cases hlast : k = exponent.val
    · have hstop : ¬ ((k : Felt) + 1).val ≤ exponent.val := by omega
      simp only [u32PowerLoop,hstop,if_false,Exec.pure_apply]
      rw [hlast]
    · have hmore : ((k : Felt) + 1).val ≤ exponent.val := by omega
      simp only [u32PowerLoop,hmore,if_true]
      rw [← pow_succ,← Nat.cast_add_one]
      exact ih (k+1) (by omega) (by omega)

/-- The result of `u32_power` is the power in the field, checked for its range only at the end. -/
theorem u32Power_apply (base exponent : Felt) (s : State)
    (hexp : exponent.val + 1 < 0xFFFFFFFF00000001) :
    u32Power base exponent s =
      if Felt.IsU32 (base^exponent.val) then .ok (.int (base^exponent.val),s) else .error .abort := by
  have hloop : u32PowerLoop base exponent (exponent.val+1) 0 1 s =
      .ok (base^exponent.val,s) := by
    simpa using u32PowerLoop_apply base exponent s (exponent.val+1) 0 (by omega) (by omega) hexp
  rw [u32Power,Exec.bind_ok hloop,builtinRangeCheck]
  by_cases h : Felt.IsU32 (base^exponent.val) <;> simp [Exec.bind_apply,h]

end Corelib
end OlaLang
