import OlaLang.U32Op

/-! What the checks of `u32_div_mod` force on the answers of the prophets. The quotient is never
checked for its range: the second range check is on the address it is stored to. -/
namespace OlaLang
namespace U32Division

open Builder Corelib U32Op

/-- The cell allocated for the result of the next operator call. -/
def resultCell (s : State) : Pointer := .stack s.stack

/-- Whatever the prophets answer, a completed `u32_div` returns the quotient of a division by a
nonzero divisor and changes no cell but its result cell. -/
def DivSound (left right : Value) (s : State) : Prop :=
  ∀ host v t, u32Div host left right s = .ok (v,t) →
    right.felt ≠ 0 ∧ v.felt.val = left.felt.val / right.felt.val ∧
      ∀ p, p ≠ resultCell s → t.cell p = s.cell p

/-- Whatever the prophets answer, a completed `u32_mod` returns the remainder of a division by a
nonzero divisor and changes no cell but its result cell. -/
def ModSound (left right : Value) (s : State) : Prop :=
  ∀ host v t, u32Mod host left right s = .ok (v,t) →
    right.felt ≠ 0 ∧ v.felt.val = left.felt.val % right.felt.val ∧
      ∀ p, p ≠ resultCell s → t.cell p = s.cell p

/-! ### Completed calls -/

/-- The conditions on the answers `q` and `r` that `u32_div_mod` checks. -/
structure Accepted (n d q r : Felt) : Prop where
  remainder : Felt.IsU32 r
  below : Felt.IsU32 (d - (r+1))
  equation : q*d + r = n

/-- The prophets that answer every question by `q` and `r`. -/
def constHost (q r : Felt) : Host where
  poseidon _ := Word.zero
  prophetU32Sqrt _ := 0
  prophetU32Div _ _ := q
  prophetU32Mod _ _ := r
  prophetSplitFieldHigh _ := 0
  prophetSplitFieldLow _ := 0

variable {left right v : Value} {s t : State} {host : Host} {n d q r : Felt}

/-- The state after the two stores of `u32_div_mod`. -/
def afterStores (s : State) (quotient remainder : Pointer) (q r : Felt) : State :=
  ({ s with stack := s.stack+1 }.write quotient (.int q)).write remainder (.int r)

theorem u32Div_eq_ok : u32Div host left right s = .ok (v,t) ↔
    Accepted left.felt right.felt (host.prophetU32Div left.felt right.felt)
      (host.prophetU32Mod left.felt right.felt) ∧
    Felt.IsU32 (resultCell s).address ∧
    t = afterStores s (resultCell s) .null (host.prophetU32Div left.felt right.felt)
      (host.prophetU32Mod left.felt right.felt) ∧
    v = .int (t.cell (resultCell s)) := by
  simp only [u32Div,Exec.bind_eq_ok,buildAlloca_apply]
  constructor
  · rintro ⟨p,u,hp,_,w,hdm,hload⟩
    cases hp
    rcases u32DivMod_eq_ok.mp hdm with ⟨hr,hd,hq,heq,rfl⟩
    cases hload
    exact ⟨⟨hr,hd,heq⟩,hq,rfl,rfl⟩
  · rintro ⟨h,hq,rfl,rfl⟩
    exact ⟨_,_,rfl,(),_,u32DivMod_eq_ok.mpr ⟨h.remainder,h.below,hq,h.equation,rfl⟩,rfl⟩

theorem null_isU32 : Felt.IsU32 Pointer.null.address := by
  simp [Pointer.null,Pointer.address,Felt.IsU32]

theorem u32Mod_eq_ok : u32Mod host left right s = .ok (v,t) ↔
    Accepted left.felt right.felt (host.prophetU32Div left.felt right.felt)
      (host.prophetU32Mod left.felt right.felt) ∧
    t = afterStores s .null (resultCell s) (host.prophetU32Div left.felt right.felt)
      (host.prophetU32Mod left.felt right.felt) ∧
    v = .int (t.cell (resultCell s)) := by
  simp only [u32Mod,Exec.bind_eq_ok,buildAlloca_apply]
  constructor
  · rintro ⟨p,u,hp,_,w,hdm,hload⟩
    cases hp
    rcases u32DivMod_eq_ok.mp hdm with ⟨hr,hd,_,heq,rfl⟩
    cases hload
    exact ⟨⟨hr,hd,heq⟩,rfl,rfl⟩
  · rintro ⟨h,rfl,rfl⟩
    exact ⟨_,_,rfl,(),_,
      u32DivMod_eq_ok.mpr ⟨h.remainder,h.below,null_isU32,h.equation,rfl⟩,rfl⟩

/-! ### Answers the checks accept -/

theorem Accepted.lt (h : Accepted n d q r) (hd : Felt.IsU32 d) : r.val < d.val := by
  have hr := h.remainder
  have hb := h.below
  have hr1 : (r+1).val = r.val+1 := by
    rw [Felt.val_add,Felt.val_one]
    unfold Felt.IsU32 at hr
    omega
  by_contra hlt
  unfold Felt.IsU32 at hb hd hr
  rw [Felt.val_sub_of_lt (by omega)] at hb
  omega

theorem Accepted.ne_zero (h : Accepted n d q r) (hd : Felt.IsU32 d) : d ≠ 0 := by
  rintro rfl
  have := h.lt hd
  simp at this

/-- Every remainder below the divisor is accepted, with the quotient taken in the field. -/
theorem accepted_of_lt (hd : Felt.IsU32 d) (hr : r.val < d.val) :
    Accepted n d ((n-r)*d⁻¹) r := by
  unfold Felt.IsU32 at hd
  have hr1 : (r+1).val = r.val+1 := by
    rw [Felt.val_add,Felt.val_one]
    omega
  refine ⟨show r.val < 2^32 by omega,?_,?_⟩
  · show (d-(r+1)).val < 2^32
    rw [Felt.val_sub_of_le (by omega)]
    omega
  · have hne : d ≠ 0 := by
      rintro rfl
      simp at hr
    rw [mul_assoc,inv_mul_cancel₀ hne]
    ring

/-- A divisor of one leaves no freedom. -/
theorem Accepted.of_one (h : Accepted n 1 q r) : r = 0 ∧ q = n := by
  have hlt := h.lt (by decide)
  rw [Felt.val_one] at hlt
  have hr : r = 0 := by
    rw [← ZMod.val_eq_zero]
    omega
  have heq := h.equation
  rw [hr,mul_one,add_zero] at heq
  exact ⟨hr,heq⟩

/-- From two on some accepted remainder differs from any given value. -/
theorem exists_other_remainder (hd : 2 ≤ d.val) (m : ℕ) : ∃ r : Felt, r.val < d.val ∧ r.val ≠ m := by
  by_cases hm : m = 0
  · exact ⟨1,by rw [Felt.val_one]; omega,by rw [Felt.val_one]; omega⟩
  · exact ⟨0,by rw [ZMod.val_zero]; omega,by rw [ZMod.val_zero]; omega⟩

/-! ### Cells after the stores -/

theorem afterStores_cell_remainder {qp rp : Pointer} :
    (afterStores s qp rp q r).cell rp = r := by simp [afterStores]

theorem afterStores_cell_quotient {qp rp : Pointer} (h : qp ≠ rp) :
    (afterStores s qp rp q r).cell qp = q := by
  rw [afterStores,State.write_cell_of_ne _ _ h]
  simp

theorem afterStores_cell_of_ne {qp rp p : Pointer} (hq : p ≠ qp) (hr : p ≠ rp) :
    (afterStores s qp rp q r).cell p = s.cell p := by
  rw [afterStores,State.write_cell_of_ne _ _ hr,State.write_cell_of_ne _ _ hq]
  rfl

theorem resultCell_eq_null : resultCell s = .null ↔ s.stack = 0 := by
  simp [resultCell,Pointer.null]

/-- The condition under which the stray store of the remainder does no harm: the null cell is
the result cell and the quotient is zero as well, or it held zero already. -/
def DivStoreHarmless (left : Value) (s : State) : Prop :=
  if s.stack = 0 then left.felt = 0 else s.cell .null = 0

/-- The condition under which the stray store of the quotient does no harm. -/
def ModStoreHarmless (left : Value) (s : State) : Prop :=
  s.stack = 0 ∨ s.cell .null = left.felt

/-! ### Divisors the checks pin down -/

theorem divSound_of_zero (h0 : right.felt = 0) : DivSound left right s := by
  intro host v t hrun
  have hacc := (u32Div_eq_ok.mp hrun).1
  rw [h0] at hacc
  exact absurd rfl (hacc.ne_zero (by decide))

theorem modSound_of_zero (h0 : right.felt = 0) : ModSound left right s := by
  intro host v t hrun
  have hacc := (u32Mod_eq_ok.mp hrun).1
  rw [h0] at hacc
  exact absurd rfl (hacc.ne_zero (by decide))

/-- Where the result cell lies beyond the 32-bit addresses, the misdirected range check stops
every call. -/
theorem divSound_of_high (h : ¬ Felt.IsU32 (resultCell s).address) : DivSound left right s := by
  intro host v t hrun
  exact absurd (u32Div_eq_ok.mp hrun).2.1 h

theorem divSound_of_one (h1 : right.felt = 1) (hs : DivStoreHarmless left s) :
    DivSound left right s := by
  intro host v t hrun
  rcases u32Div_eq_ok.mp hrun with ⟨hacc,_,rfl,rfl⟩
  rw [h1] at hacc
  rcases hacc.of_one with ⟨hr,hq⟩
  rw [h1,hr,hq]
  have hval : (left.felt.val : ℕ) / (1 : Felt).val = left.felt.val := by
    rw [Felt.val_one,Nat.div_one]
  unfold DivStoreHarmless at hs
  by_cases hstack : s.stack = 0
  · have hcell : resultCell s = .null := resultCell_eq_null.mpr hstack
    rw [if_pos hstack] at hs
    refine ⟨by decide,?_,?_⟩
    · rw [hval,hcell,Value.felt_int,afterStores_cell_remainder,hs]
    · intro p hp
      exact afterStores_cell_of_ne hp (hcell ▸ hp)
  · have hcell : resultCell s ≠ .null := fun h => hstack (resultCell_eq_null.mp h)
    rw [if_neg hstack] at hs
    refine ⟨by decide,?_,?_⟩
    · rw [hval,Value.felt_int,afterStores_cell_quotient hcell]
    · intro p hp
      by_cases hnull : p = .null
      · rw [hnull,afterStores_cell_remainder,hs]
      · exact afterStores_cell_of_ne hp hnull

theorem modSound_of_one (h1 : right.felt = 1) (hs : ModStoreHarmless left s) :
    ModSound left right s := by
  intro host v t hrun
  rcases u32Mod_eq_ok.mp hrun with ⟨hacc,rfl,rfl⟩
  rw [h1] at hacc
  rcases hacc.of_one with ⟨hr,hq⟩
  rw [h1,hr,hq]
  refine ⟨by decide,?_,?_⟩
  · rw [Value.felt_int,afterStores_cell_remainder,ZMod.val_zero,Felt.val_one,Nat.mod_one]
  · intro p hp
    by_cases hnull : p = .null
    · have hcell : Pointer.null ≠ resultCell s := hnull ▸ hp
      have hstack : s.stack ≠ 0 := fun h => hcell (resultCell_eq_null.mpr h).symm
      rw [hnull,afterStores_cell_quotient hcell]
      exact (hs.resolve_left hstack).symm
    · exact afterStores_cell_of_ne hnull hp

/-! ### Divisors with a second answer -/

theorem div_other_run (hright : Felt.IsU32 right.felt) (haddr : Felt.IsU32 (resultCell s).address)
    (hr : r.val < right.felt.val) :
    u32Div (constHost ((left.felt-r)*right.felt⁻¹) r) left right s =
      .ok (.int ((afterStores s (resultCell s) .null ((left.felt-r)*right.felt⁻¹) r).cell
        (resultCell s)),afterStores s (resultCell s) .null ((left.felt-r)*right.felt⁻¹) r) :=
  u32Div_eq_ok.mpr ⟨accepted_of_lt hright hr,haddr,rfl,rfl⟩

theorem mod_other_run (hright : Felt.IsU32 right.felt) (hr : r.val < right.felt.val) :
    u32Mod (constHost ((left.felt-r)*right.felt⁻¹) r) left right s =
      .ok (.int ((afterStores s .null (resultCell s) ((left.felt-r)*right.felt⁻¹) r).cell
        (resultCell s)),afterStores s .null (resultCell s) ((left.felt-r)*right.felt⁻¹) r) :=
  u32Mod_eq_ok.mpr ⟨accepted_of_lt hright hr,rfl,rfl⟩

/-- A wrong remainder below the divisor comes with a wrong quotient. -/
theorem quotient_ne (hd : d ≠ 0) (hr : r.val ≠ n.val % d.val) :
    ((n-r)*d⁻¹).val ≠ n.val / d.val := by
  intro hq
  have hq' : (n-r)*d⁻¹ = ((n.val/d.val : ℕ) : Felt) := by
    rw [← hq,Felt.natCast_val]
  have heq : n - r = ((n.val/d.val : ℕ) : Felt) * d := by
    rw [← hq',mul_assoc,inv_mul_cancel₀ hd,mul_one]
  have hmod : n = ((n.val/d.val : ℕ) : Felt) * d + ((n.val%d.val : ℕ) : Felt) := by
    have hdm := Nat.div_add_mod n.val d.val
    calc n = ((n.val : ℕ) : Felt) := (Felt.natCast_val n).symm
      _ = ((d.val*(n.val/d.val) + n.val%d.val : ℕ) : Felt) := by rw [hdm]
      _ = _ := by rw [Nat.cast_add,Nat.cast_mul,Felt.natCast_val,mul_comm]
  have hrem : r = ((n.val%d.val : ℕ) : Felt) := by
    have hsub : r = n - (n-r) := by ring
    rw [hsub,heq]
    nth_rewrite 1 [hmod]
    ring
  have hlt : n.val % d.val < 0xFFFFFFFF00000001 := by
    have hle := Nat.mod_le n.val d.val
    have hn := Felt.val_lt n
    omega
  exact hr (by rw [hrem,Felt.val_natCast_of_lt hlt])

theorem not_divSound_of_two_le (hright : Felt.IsU32 right.felt)
    (haddr : Felt.IsU32 (resultCell s).address) (h2 : 2 ≤ right.felt.val) :
    ¬ DivSound left right s := by
  intro hsound
  by_cases hcell : resultCell s = .null
  · -- the result cell is overwritten by the remainder
    rcases exists_other_remainder h2 (left.felt.val/right.felt.val) with ⟨r,hr,hne⟩
    have hres := (hsound _ _ _ (div_other_run hright haddr hr)).2.1
    rw [Value.felt_int,hcell,afterStores_cell_remainder] at hres
    exact hne hres
  · rcases exists_other_remainder h2 (left.felt.val%right.felt.val) with ⟨r,hr,hne⟩
    have hd : right.felt ≠ 0 := by
      intro h0
      rw [h0,ZMod.val_zero] at h2
      omega
    have hres := (hsound _ _ _ (div_other_run hright haddr hr)).2.1
    rw [Value.felt_int,afterStores_cell_quotient hcell] at hres
    exact quotient_ne hd hne hres

theorem not_modSound_of_two_le (hright : Felt.IsU32 right.felt) (h2 : 2 ≤ right.felt.val) :
    ¬ ModSound left right s := by
  intro hsound
  rcases exists_other_remainder h2 (left.felt.val%right.felt.val) with ⟨r,hr,hne⟩
  have hres := (hsound _ _ _ (mod_other_run hright hr)).2.1
  rw [Value.felt_int,afterStores_cell_remainder] at hres
  exact hne hres

/-! ### The exact conditions -/

theorem eq_zero_or_one_or_two_le (d : Felt) : d = 0 ∨ d = 1 ∨ 2 ≤ d.val := by
  by_cases h0 : d.val = 0
  · exact Or.inl ((ZMod.val_eq_zero d).mp h0)
  · by_cases h1 : d.val = 1
    · exact Or.inr (Or.inl (Felt.ext_val (by rw [h1,Felt.val_one])))
    · exact Or.inr (Or.inr (by omega))

theorem divStoreHarmless_of_sound (h1 : right.felt = 1) (haddr : Felt.IsU32 (resultCell s).address)
    (hsound : DivSound left right s) : DivStoreHarmless left s := by
  have hright : Felt.IsU32 right.felt := by rw [h1]; decide
  have hr : (0 : Felt).val < right.felt.val := by rw [h1,Felt.val_one,ZMod.val_zero]; omega
  have hrun := hsound _ _ _ (div_other_run hright haddr hr)
  unfold DivStoreHarmless
  by_cases hstack : s.stack = 0
  · have hcell : resultCell s = .null := resultCell_eq_null.mpr hstack
    have hres := hrun.2.1
    rw [Value.felt_int,hcell,afterStores_cell_remainder,h1,Felt.val_one,Nat.div_one,
      ZMod.val_zero] at hres
    rw [if_pos hstack]
    exact (ZMod.val_eq_zero _).mp hres.symm
  · have hcell : Pointer.null ≠ resultCell s := fun h => hstack (resultCell_eq_null.mp h.symm)
    have hframe := hrun.2.2 .null hcell
    rw [afterStores_cell_remainder] at hframe
    rw [if_neg hstack]
    exact hframe.symm

theorem modStoreHarmless_of_sound (h1 : right.felt = 1) (hsound : ModSound left right s) :
    ModStoreHarmless left s := by
  have hright : Felt.IsU32 right.felt := by rw [h1]; decide
  have hr : (0 : Felt).val < right.felt.val := by rw [h1,Felt.val_one,ZMod.val_zero]; omega
  have hrun := hsound _ _ _ (mod_other_run hright hr)
  by_cases hstack : s.stack = 0
  · exact Or.inl hstack
  · have hcell : Pointer.null ≠ resultCell s := fun h => hstack (resultCell_eq_null.mp h.symm)
    have hframe := hrun.2.2 .null hcell
    rw [afterStores_cell_quotient hcell,h1,inv_one,mul_one,sub_zero] at hframe
    exact Or.inr hframe.symm

/-- The divisors on which the checks leave the prophets no choice are zero, where every call
stops, and one; on one the call also has to find the null cell in the right state. -/
theorem division_sound_iff (left right : Value) (s : State) (hright : Felt.IsU32 right.felt) :
    (DivSound left right s ↔ right.felt = 0 ∨ ¬ Felt.IsU32 (resultCell s).address ∨
      right.felt = 1 ∧ DivStoreHarmless left s) ∧
    (ModSound left right s ↔ right.felt = 0 ∨ right.felt = 1 ∧ ModStoreHarmless left s) := by
  constructor
  · constructor
    · intro hsound
      by_cases haddr : Felt.IsU32 (resultCell s).address
      · rcases eq_zero_or_one_or_two_le right.felt with h0 | h1 | h2
        · exact Or.inl h0
        · exact Or.inr (Or.inr ⟨h1,divStoreHarmless_of_sound h1 haddr hsound⟩)
        · exact absurd hsound (not_divSound_of_two_le hright haddr h2)
      · exact Or.inr (Or.inl haddr)
    · rintro (h0 | haddr | ⟨h1,hs⟩)
      · exact divSound_of_zero h0
      · exact divSound_of_high haddr
      · exact divSound_of_one h1 hs
  · constructor
    · intro hsound
      rcases eq_zero_or_one_or_two_le right.felt with h0 | h1 | h2
      · exact Or.inl h0
      · exact Or.inr ⟨h1,modStoreHarmless_of_sound h1 hsound⟩
      · exact absurd hsound (not_modSound_of_two_le hright h2)
    · rintro (h0 | ⟨h1,hs⟩)
      · exact modSound_of_zero h0
      · exact modSound_of_one h1 hs

/-- A frame above one used cell, with all memory zero. -/
def freshState : State := ⟨fun _ => .int 0,0,1,fun _ => Word.zero⟩

theorem division_sound_iff_seven_one :
    Felt.IsU32 (Value.int 1).felt ∧
    ((DivSound (.int 7) (.int 1) freshState ↔ (Value.int 1).felt = 0 ∨
      ¬ Felt.IsU32 (resultCell freshState).address ∨
      (Value.int 1).felt = 1 ∧ DivStoreHarmless (.int 7) freshState) ∧
    (ModSound (.int 7) (.int 1) freshState ↔ (Value.int 1).felt = 0 ∨
      (Value.int 1).felt = 1 ∧ ModStoreHarmless (.int 7) freshState)) :=
  ⟨by decide,division_sound_iff (.int 7) (.int 1) freshState (by decide)⟩

/-- Zero divided by two: the remainder one and a field quotient pass all checks. -/
theorem zero_div_two_unsound : ¬ DivSound (.int 0) (.int 2) freshState := by
  intro hsound
  have hrun : u32Div (constHost 9223372034707292160 1) (.int 0) (.int 2) freshState =
      .ok (.int 9223372034707292160,afterStores freshState (.stack 1) .null 9223372034707292160 1) :=
    u32Div_eq_ok.mpr ⟨⟨by decide,by decide,by decide⟩,by decide,rfl,by decide⟩
  have hres := (hsound _ _ _ hrun).2.1
  exact absurd hres (by decide)

end U32Division
end OlaLang
