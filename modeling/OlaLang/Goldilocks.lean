import Mathlib.NumberTheory.LucasPrimality
import Mathlib.Algebra.Field.ZMod
import Mathlib.Tactic.ReduceModChar
import Mathlib.Tactic.NormNum.Prime
import Mathlib.Tactic.Ring
import Mathlib.Tactic.IntervalCases

/-! The native field of the machine, of order `2^64 - 2^32 + 1`, and the 32-bit range inside it.
Every cell of memory, storage and tape holds one element; the emitted integer instructions
are the operations of this field. -/
namespace OlaLang

/-- `FIELD_ORDER` of the semantic analysis. -/
abbrev FIELD_ORDER : ℕ := 0xFFFFFFFF00000001

abbrev Felt := ZMod FIELD_ORDER

/-- Lucas' test with the generator 7: the prime factors of `p - 1` are 2, 3, 5, 17, 257 and 65537. -/
theorem prime_fieldOrder : Nat.Prime FIELD_ORDER := by
  apply lucas_primality _ (7 : ZMod 0xFFFFFFFF00000001)
  · reduce_mod_char
  · intro q hq hd
    have hfactors : (0xFFFFFFFF00000001 - 1 : ℕ) = 2^32*3*5*17*257*65537 := by norm_num
    have hmem : q = 2 ∨ q = 3 ∨ q = 5 ∨ q = 17 ∨ q = 257 ∨ q = 65537 := by
      rw [hfactors] at hd
      simp only [hq.dvd_mul,Nat.prime_dvd_prime_iff_eq hq (by norm_num : Nat.Prime 3),
        Nat.prime_dvd_prime_iff_eq hq (by norm_num : Nat.Prime 5),
        Nat.prime_dvd_prime_iff_eq hq (by norm_num : Nat.Prime 17),
        Nat.prime_dvd_prime_iff_eq hq (by norm_num : Nat.Prime 257),
        Nat.prime_dvd_prime_iff_eq hq (by norm_num : Nat.Prime 65537)] at hd
      rcases hd with ((((hd|hd)|hd)|hd)|hd)|hd
      · exact Or.inl ((Nat.prime_dvd_prime_iff_eq hq Nat.prime_two).mp (hq.dvd_of_dvd_pow hd))
      all_goals simp [hd]
    rcases hmem with rfl|rfl|rfl|rfl|rfl|rfl <;> norm_num <;> reduce_mod_char <;> decide

instance : Fact (Nat.Prime FIELD_ORDER) := ⟨prime_fieldOrder⟩

/-! The small numerals of the field. -/

instance atLeastTwo_two : Nat.AtLeastTwo 2 := ⟨le_rfl⟩

instance atLeastTwo_three : Nat.AtLeastTwo 3 := ⟨by decide⟩

instance atLeastTwo_four : Nat.AtLeastTwo 4 := ⟨by decide⟩

instance atLeastTwo_five : Nat.AtLeastTwo 5 := ⟨by decide⟩

namespace Felt

theorem val_lt (a : Felt) : a.val < 0xFFFFFFFF00000001 := ZMod.val_lt a

/-- The range accepted by `builtin_range_check`. -/
def IsU32 (a : Felt) : Prop := a.val < 2^32

instance (a : Felt) : Decidable (IsU32 a) := inferInstanceAs (Decidable (a.val < 2^32))

theorem val_natCast_of_lt {n : ℕ} (h : n < 0xFFFFFFFF00000001) : (n : Felt).val = n :=
  ZMod.val_natCast_of_lt h

theorem natCast_val (a : Felt) : ((a.val : ℕ) : Felt) = a := ZMod.natCast_zmod_val a

theorem val_add (a b : Felt) : (a+b).val = (a.val+b.val) % 0xFFFFFFFF00000001 := ZMod.val_add a b

theorem val_mul (a b : Felt) : (a*b).val = a.val*b.val % 0xFFFFFFFF00000001 := ZMod.val_mul a b

theorem val_one : (1 : Felt).val = 1 := by decide

theorem val_sub_of_le {a b : Felt} (h : b.val ≤ a.val) : (a-b).val = a.val-b.val := ZMod.val_sub h

/-- A difference that would be negative wraps to the top of the field. -/
theorem val_sub_of_lt {a b : Felt} (h : a.val < b.val) :
    (a-b).val = 0xFFFFFFFF00000001 - (b.val-a.val) := by
  have hb := val_lt b
  have hd : ((0xFFFFFFFF00000001 - (b.val-a.val) : ℕ) : Felt) = a-b := by
    have hcast : ((0xFFFFFFFF00000001 - (b.val-a.val) : ℕ) : Felt) + (b-a) = 0 := by
      have hba : ((b.val-a.val : ℕ) : Felt) = b-a := by
        rw [Nat.cast_sub h.le,natCast_val,natCast_val]
      rw [← hba,← Nat.cast_add]
      have hsum : 0xFFFFFFFF00000001 - (b.val-a.val) + (b.val-a.val) = FIELD_ORDER := by
        show _ = 0xFFFFFFFF00000001
        omega
      rw [hsum]
      exact ZMod.natCast_self FIELD_ORDER
    rw [eq_sub_iff_add_eq]
    calc _ = ((0xFFFFFFFF00000001 - (b.val-a.val) : ℕ) : Felt) + (b-a) + a := by ring
      _ = a := by rw [hcast,zero_add]
  rw [← hd]
  exact val_natCast_of_lt (by omega)

theorem mul_lt_of_u32 {m n : ℕ} (hm : m < 2^32) (hn : n < 2^32) : m*n < 0xFFFFFFFF00000001 := by
  have h : m*n ≤ (2^32-1)*(2^32-1) := Nat.mul_le_mul (by omega) (by omega)
  omega

theorem val_mul_u32 {a b : Felt} (ha : IsU32 a) (hb : IsU32 b) : (a*b).val = a.val*b.val := by
  rw [val_mul,Nat.mod_eq_of_lt (mul_lt_of_u32 ha hb)]

/-- Subtraction of 32-bit values passes a range check exactly when it does not go negative. -/
theorem isU32_sub_iff {a b : Felt} (ha : IsU32 a) (hb : IsU32 b) :
    IsU32 (a-b) ↔ b.val ≤ a.val := by
  unfold IsU32 at *
  constructor
  · intro h
    by_contra hlt
    rw [val_sub_of_lt (by omega)] at h
    omega
  · intro h
    rw [val_sub_of_le h]
    omega

theorem ext_val {a b : Felt} (h : a.val = b.val) : a = b := ZMod.val_injective _ h

end Felt
end OlaLang
