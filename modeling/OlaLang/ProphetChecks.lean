import OlaLang.Corelib
import Mathlib.Data.Nat.Sqrt

/-! What the checks of `u32_sqrt` and of `split_field` force on the answers of the prophets: which
values have one answer that passes, and whether it is the right one. -/
namespace OlaLang
namespace ProphetChecks

open Builder Corelib

/-- Answers that are constant. -/
def answering (root high low : Felt) : Host where
  poseidon _ := Word.zero
  prophetU32Sqrt _ := root
  prophetU32Div _ _ := 0
  prophetU32Mod _ _ := 0
  prophetSplitFieldHigh _ := high
  prophetSplitFieldLow _ := low

variable {host : Host} {n x : Felt} {s t : State} {v : Value}

/-! ### Square roots -/

/-- Whatever the prophet answers, a completed `u32_sqrt` returns the integer square root, and with
the honest answer it completes. -/
def SqrtCorrect (n : Felt) : Prop :=
  (∀ host s v t, u32Sqrt host n s = .ok (v,t) →
    v.felt.val*v.felt.val ≤ n.val ∧ n.val < (v.felt.val+1)*(v.felt.val+1)) ∧
  ∀ host s, host.prophetU32Sqrt n = (Nat.sqrt n.val : Felt) →
    ∃ v t, u32Sqrt host n s = .ok (v,t)

/-- The square of a 32-bit answer does not reach the field order. -/
theorem u32Sqrt_square (h : u32Sqrt host n s = .ok (v,t)) : v.felt.val*v.felt.val = n.val := by
  rcases u32Sqrt_eq_ok.mp h with ⟨hr,heq,rfl,_⟩
  have hval := Felt.val_mul_u32 hr hr
  rw [heq] at hval
  exact hval.symm

theorem u32Sqrt_sound (h : u32Sqrt host n s = .ok (v,t)) :
    v.felt.val*v.felt.val ≤ n.val ∧ n.val < (v.felt.val+1)*(v.felt.val+1) := by
  have hsq := u32Sqrt_square h
  have hlt : v.felt.val*v.felt.val < (v.felt.val+1)*(v.felt.val+1) :=
    Nat.mul_lt_mul_of_lt_of_lt (Nat.lt_succ_self _) (Nat.lt_succ_self _)
  exact ⟨hsq.le,hsq ▸ hlt⟩

theorem sqrt_lt (hn : Felt.IsU32 n) : Nat.sqrt n.val < 2^32 :=
  lt_of_le_of_lt (Nat.sqrt_le_self n.val) hn

/-- The honest root of a square passes the checks. -/
theorem u32Sqrt_complete (hn : Felt.IsU32 n) (hsq : IsSquare n.val)
    (hhost : host.prophetU32Sqrt n = (Nat.sqrt n.val : Felt)) :
    u32Sqrt host n s = .ok (.int (Nat.sqrt n.val : Felt),s) := by
  have hlt := sqrt_lt hn
  have hroot : ((Nat.sqrt n.val : ℕ) : Felt).val = Nat.sqrt n.val :=
    Felt.val_natCast_of_lt (by omega)
  have hu32 : Felt.IsU32 ((Nat.sqrt n.val : ℕ) : Felt) := by
    rw [Felt.IsU32,hroot]
    exact hlt
  have hmul : Nat.sqrt n.val * Nat.sqrt n.val = n.val := by
    rcases hsq with ⟨k,hk⟩
    rw [hk,Nat.sqrt_eq]
  apply u32Sqrt_eq_ok.mpr
  rw [hhost]
  refine ⟨hu32,Felt.ext_val ?_,rfl,rfl⟩
  rw [Felt.val_mul_u32 hu32 hu32,hroot,hmul]

/-- `u32_sqrt` returns the integer square root of the perfect squares, which the run with the honest
answer shows, and stops on all others. -/
theorem u32Sqrt_correct_iff (n : Felt) (hn : Felt.IsU32 n) : SqrtCorrect n ↔ IsSquare n.val := by
  constructor
  · intro h
    rcases h.2 (answering (Nat.sqrt n.val : Felt) 0 0) ⟨fun _ => .const 0,0,0,fun _ => Word.zero⟩
      rfl with ⟨v,t,hrun⟩
    exact ⟨v.felt.val,(u32Sqrt_square hrun).symm⟩
  · intro hsq
    refine ⟨fun host s v t hrun => u32Sqrt_sound hrun,?_⟩
    intro host s hhost
    exact ⟨_,_,u32Sqrt_complete hn hsq hhost⟩

theorem u32Sqrt_correct_iff_nine : Felt.IsU32 9 ∧ (SqrtCorrect 9 ↔ IsSquare (9 : Felt).val) :=
  ⟨by decide,u32Sqrt_correct_iff 9 (by decide)⟩

/-- The honest root of two, which is one, is refused. -/
theorem sqrtTwo_stops : ¬ SqrtCorrect 2 := by
  intro h
  rcases h.2 (answering 1 0 0) ⟨fun _ => .const 0,0,0,fun _ => Word.zero⟩ (by decide +kernel)
    with ⟨v,t,hrun⟩
  have hsq := (u32Sqrt_eq_ok.mp hrun).2.1
  exact absurd hsq (by decide)

/-! ### Halves of a field element -/

/-- Whatever the prophets answer, a completed `split_field` leaves the halves of the canonical
value in its two output cells. -/
def SplitSound (x : Felt) : Prop :=
  ∀ host s t high low, high ≠ low → splitField host x high low s = .ok ((),t) →
    (t.cell high).val = x.val / TWO_POWER ∧ (t.cell low).val = x.val % TWO_POWER

/-- The integer of two accepted halves is `x`, or `x` and the field order on top. -/
theorem halves_cases {h l : Felt} (hh : Felt.IsU32 h) (hl : Felt.IsU32 l)
    (heq : x = h*(TWO_POWER : ℕ)+l) :
    h.val*2^32+l.val = x.val ∨ h.val*2^32+l.val = x.val+0xFFFFFFFF00000001 := by
  have hx : x.val = (h.val*2^32+l.val) % 0xFFFFFFFF00000001 := by
    have hcast : x = ((h.val*2^32+l.val : ℕ) : Felt) := by
      rw [heq,Nat.cast_add,Nat.cast_mul,Felt.natCast_val,Felt.natCast_val]
      rfl
    rw [hcast]
    exact ZMod.val_natCast _ _
  unfold Felt.IsU32 at hh hl
  omega

theorem splitSound_of_le (hx : 2^32-1 ≤ x.val) : SplitSound x := by
  intro host s t high low hne hrun
  rcases splitField_eq_ok.mp hrun with ⟨hh,hl,heq,rfl⟩
  rw [State.write_cell_of_ne _ _ hne,State.write_cell_self,State.write_cell_self,Value.felt_int,
    Value.felt_int]
  have hcases := halves_cases hh hl heq
  unfold Felt.IsU32 at hh hl
  have hpow : TWO_POWER = 2^32 := rfl
  rw [hpow]
  rcases hcases with h | h
  · omega
  · -- the second solution has no room above `2^32-1`
    omega

/-- Below `2^32 - 1` the halves of the value and the field order pass as well. -/
theorem splitField_second (hx : x.val < 2^32-1) (s : State) (high low : Pointer) :
    ∃ t, splitField (answering 0 (2^32-1 : ℕ) (x.val+1 : ℕ)) x high low s = .ok ((),t) ∧
      t.cell low = (x.val+1 : ℕ) := by
  have hhigh : ((2^32-1 : ℕ) : Felt).val = 2^32-1 := Felt.val_natCast_of_lt (by omega)
  have hlow : ((x.val+1 : ℕ) : Felt).val = x.val+1 := Felt.val_natCast_of_lt (by omega)
  have hsum : x = ((2^32-1 : ℕ) : Felt)*(TWO_POWER : ℕ)+((x.val+1 : ℕ) : Felt) := by
    have hint : (2^32-1)*TWO_POWER+(x.val+1) = x.val+FIELD_ORDER := by
      show (2^32-1)*2^32+(x.val+1) = x.val+0xFFFFFFFF00000001
      omega
    rw [← Nat.cast_mul,← Nat.cast_add,hint,Nat.cast_add,Felt.natCast_val,ZMod.natCast_self,add_zero]
  refine ⟨_,splitField_eq_ok.mpr ⟨?_,?_,hsum,rfl⟩,?_⟩
  · show ((2^32-1 : ℕ) : Felt).val < 2^32
    rw [hhigh]
    omega
  · show ((x.val+1 : ℕ) : Felt).val < 2^32
    rw [hlow]
    omega
  · exact State.write_cell_self _ _ _

/-- The equation of the two halves determines them exactly from `2^32 - 1` on. -/
theorem splitField_sound_iff (x : Felt) : SplitSound x ↔ 2^32-1 ≤ x.val := by
  constructor
  · intro h
    by_contra hlt
    rcases splitField_second (Nat.lt_of_not_le hlt) ⟨fun _ => .const 0,0,0,fun _ => Word.zero⟩
      (.heap 0) (.heap 1) with ⟨t,hrun,hcell⟩
    have hlow := (h _ _ t _ _ (by decide) hrun).2
    rw [hcell,Felt.val_natCast_of_lt (by omega)] at hlow
    have hpow : TWO_POWER = 2^32 := rfl
    rw [hpow] at hlow
    omega
  · exact splitSound_of_le

/-- The prophets may split zero into `2^32 - 1` and one. -/
theorem splitZero_unsound : ¬ SplitSound 0 := by
  intro h
  rcases splitField_second (x := 0) (by decide) ⟨fun _ => .const 0,0,0,fun _ => Word.zero⟩
    (.heap 0) (.heap 1) with ⟨t,hrun,hcell⟩
  have hlow := (h _ _ t _ _ (by decide) hrun).2
  rw [hcell] at hlow
  exact absurd hlow (by decide)

end ProphetChecks
end OlaLang
