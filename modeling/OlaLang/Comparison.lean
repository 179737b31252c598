import OlaLang.U32Op
import Mathlib.Data.List.Lex

/-! Comparisons of addresses, hashes and contracts: what the six emitted comparisons give for two
values of four cells, and for which values this is the lexicographic order on the cells. -/
namespace OlaLang

namespace U32Op.IntPredicate

/-- The operator in a linear order. -/
def orders {α : Type} [LinearOrder α] : IntPredicate → α → α → Bool
  | .EQ, a, b => a = b
  | .NE, a, b => a ≠ b
  | .UGT, a, b => b < a
  | .UGE, a, b => b ≤ a
  | .ULT, a, b => a < b
  | .ULE, a, b => a ≤ b

end U32Op.IntPredicate

namespace Comparison

open Builder Corelib U32Op

/-! ### The emitted functions -/

section Model

variable (host : Host)

/-- `define_mem_compare` for the operators that are used on single cells. The loop goes on while
the cells are equal. -/
def memCompare (fromCond fromBody : Felt) (left right : Pointer) (len : Felt) : Code Value :=
  memCompareLoop (fun index => do
    let leftElem ← buildLoadInt (left.add index)
    let rightElem ← buildLoadInt (right.add index)
    pure (IntPredicate.EQ.holds leftElem.felt.val rightElem.felt.val)) fromCond fromBody len.val 0

/-- The body of `define_field_mem_compare`: the halves of both elements are compared with the same
operator, the high ones first. `leq` puts the right element in front. -/
def fieldCompareBody (leq : Bool) (left right lh ll rh rl : Pointer) (index : ℕ) : Code Bool := do
  let leftElem ← buildLoadInt (left.add index)
  let rightElem ← buildLoadInt (right.add index)
  splitField host leftElem.felt lh ll
  let leftHigh ← buildLoadInt lh
  let leftLow ← buildLoadInt ll
  splitField host rightElem.felt rh rl
  let rightHigh ← buildLoadInt rh
  let rightLow ← buildLoadInt rl
  let compare (l r : Value) := if leq then IntPredicate.UGE.holds r.felt.val l.felt.val
    else IntPredicate.UGE.holds l.felt.val r.felt.val
  pure (compare leftHigh rightHigh && compare leftLow rightLow)

/-- `define_field_mem_compare`: the four cells of the halves stand in the frame. -/
def fieldMemCompare (leq : Bool) (fromCond fromBody : Felt) (left right : Pointer) (len : Felt) :
    Code Value := do
  let leftHigh ← buildAlloca
  let leftLow ← buildAlloca
  let rightHigh ← buildAlloca
  let rightLow ← buildAlloca
  memCompareLoop (fieldCompareBody host leq left right leftHigh leftLow rightHigh rightLow)
    fromCond fromBody len.val 0

/-- `Binary::memcmp` at the element type `field`. -/
def memcmp (left right : Pointer) (len : Felt) : IntPredicate → Code Value
  | .EQ => memCompare 1 0 left right len
  | .NE => memCompare 0 1 left right len
  | .UGE => fieldMemCompare host false 1 0 left right len
  | .UGT => fieldMemCompare host true 0 1 left right len
  | .ULT => fieldMemCompare host false 0 1 left right len
  | .ULE => fieldMemCompare host true 1 0 left right len

/-- `address_or_hash_compare` on its evaluated operands. -/
def addressOrHashCompare (op : IntPredicate) (left right : Value) : Code Value := do
  let left ← intoPointerValue left
  let right ← intoPointerValue right
  memcmp host left right 4 op

end Model

/-! ### The order on values -/

/-- The four canonical cells. -/
def canonical (w : Word) : List ℕ := w.toList.map ZMod.val

/-- The prophets of `split_field` give the halves of the canonical value. -/
structure Honest (host : Host) : Prop where
  high : ∀ x : Felt, host.prophetSplitFieldHigh x = (x.val / TWO_POWER : ℕ)
  low : ∀ x : Felt, host.prophetSplitFieldLow x = (x.val % TWO_POWER : ℕ)

/-- A value of four cells that stand in the heap or in an older part of the stack. -/
structure Holds (s : State) (p : Pointer) (w : Word) : Prop where
  word : s.word p = w
  outside : ∀ i j, p.add i ≠ .stack (s.stack + j)

/-- The emitted comparisons are those of the lexicographic order on the cells. -/
def Agrees (host : Host) (l r : Word) : Prop :=
  ∀ (op : IntPredicate) (s : State) (p q : Pointer), Holds s p l → Holds s q r →
    ∃ t, addressOrHashCompare host op (.ptr p) (.ptr q) s =
      .ok (.int (ofBool (op.orders (canonical l) (canonical r))),t)

/-- Both halves of `x` are at most those of `y`. -/
def HalvesLe (x y : Felt) : Prop :=
  x.val / TWO_POWER ≤ y.val / TWO_POWER ∧ x.val % TWO_POWER ≤ y.val % TWO_POWER

instance (x y : Felt) : Decidable (HalvesLe x y) := inferInstanceAs (Decidable (_ ∧ _))

/-- Every half of every cell is at most the half at its place. -/
def AllLe (a b : Word) : Prop :=
  HalvesLe a.c0 b.c0 ∧ HalvesLe a.c1 b.c1 ∧ HalvesLe a.c2 b.c2 ∧ HalvesLe a.c3 b.c3

instance (a b : Word) : Decidable (AllLe a b) := inferInstanceAs (Decidable (_ ∧ _))

/-! ### Runs of the comparisons -/

section Runs

variable {host : Host} {s : State} {p q : Pointer} {l r : Word}

/-- The cell of a word with a number. -/
def cellOf (w : Word) : ℕ → Felt
  | 0 => w.c0
  | 1 => w.c1
  | 2 => w.c2
  | _ => w.c3

theorem cell_of_word (h : s.word p = l) {i : ℕ} (hi : i < 4) : s.cell (p.add i) = cellOf l i := by
  subst h
  have hcases : i = 0 ∨ i = 1 ∨ i = 2 ∨ i = 3 := by omega
  rcases hcases with rfl|rfl|rfl|rfl
  · rw [Pointer.add_zero]
    rfl
  · rfl
  · rfl
  · rfl

theorem four_val : (4 : Felt).val = 4 := by decide

theorem forall_cells {P : ℕ → Prop} :
    (∀ i, 0 ≤ i → i < 0+(4 : Felt).val → P i) ↔ P 0 ∧ P 1 ∧ P 2 ∧ P 3 := by
  rw [four_val]
  constructor
  · intro h
    exact ⟨h 0 (by omega) (by omega),h 1 (by omega) (by omega),h 2 (by omega) (by omega),
      h 3 (by omega) (by omega)⟩
  · rintro ⟨h0,h1,h2,h3⟩ i _ hi
    have hcases : i = 0 ∨ i = 1 ∨ i = 2 ∨ i = 3 := by omega
    rcases hcases with rfl|rfl|rfl|rfl
    · exact h0
    · exact h1
    · exact h2
    · exact h3

/-- The loop over single cells asks for equal words. -/
theorem memCompare_run (hp : s.word p = l) (hq : s.word q = r) (a b : Felt) :
    ∃ t, memCompare a b p q 4 s = .ok (.int (if l = r then a else b),t) := by
  have hstep : ∀ i t, 0 ≤ i → i < 0+(4 : Felt).val → t = s → ∃ u, (do
      let leftElem ← buildLoadInt (p.add i)
      let rightElem ← buildLoadInt (q.add i)
      pure (IntPredicate.EQ.holds leftElem.felt.val rightElem.felt.val) : Code Bool) t =
        .ok (decide (cellOf l i = cellOf r i),u) ∧ u = s := by
    rintro i t - hi rfl
    rw [four_val] at hi
    refine ⟨t,?_,rfl⟩
    have heq : (t.cell (p.add i)).val = (t.cell (q.add i)).val ↔ cellOf l i = cellOf r i := by
      rw [cell_of_word hp (by omega),cell_of_word hq (by omega)]
      exact ⟨fun h => Felt.ext_val h,fun h => by rw [h]⟩
    simp [Exec.bind_apply,IntPredicate.holds,heq]
  obtain ⟨t,hrun,_⟩ := memCompareLoop_spec (a := a) (b := b) (I := fun t => t = s)
    (4 : Felt).val 0 rfl hstep
  refine ⟨t,?_⟩
  have hiff : (l.c0 = r.c0 ∧ l.c1 = r.c1 ∧ l.c2 = r.c2 ∧ l.c3 = r.c3) ↔ l = r := by
    constructor
    · rintro ⟨h0,h1,h2,h3⟩
      cases l
      cases r
      simp_all
    · rintro rfl
      exact ⟨rfl,rfl,rfl,rfl⟩
  rw [memCompare,hrun]
  simp only [forall_cells,cellOf,hiff]

theorem half_isU32 {n : ℕ} (h : n < 2^32) : Felt.IsU32 (n : Felt) := by
  unfold Felt.IsU32
  rw [Felt.val_natCast_of_lt (by omega)]
  exact h

theorem high_lt (x : Felt) : x.val / TWO_POWER < 2^32 := by
  have hx := Felt.val_lt x
  unfold TWO_POWER
  omega

theorem low_lt (x : Felt) : x.val % TWO_POWER < 2^32 := Nat.mod_lt _ (by decide)

/-- An honest split puts the halves into its two cells. -/
theorem splitField_run (hh : Honest host) (x : Felt) (a b : Pointer) (s : State) :
    splitField host x a b s = .ok ((),(s.write a (.int (x.val / TWO_POWER : ℕ))).write b
      (.int (x.val % TWO_POWER : ℕ))) := by
  rw [splitField_eq_ok,hh.high,hh.low]
  refine ⟨half_isU32 (high_lt x),half_isU32 (low_lt x),?_,rfl⟩
  have hsum : x.val / TWO_POWER * TWO_POWER + x.val % TWO_POWER = x.val := Nat.div_add_mod' _ _
  rw [← Nat.cast_mul,← Nat.cast_add,hsum,Felt.natCast_val]

/-- The cells outside the frame are those of `s`. -/
def OffFrame (s t : State) : Prop := ∀ q, (∀ j, q ≠ .stack (s.stack + j)) → t.mem q = s.mem q

theorem OffFrame.write {t : State} (h : OffFrame s t) (j : ℕ) (v : Value) :
    OffFrame s (t.write (.stack (s.stack + j)) v) := by
  intro q hq
  rw [State.write_mem_of_ne _ _ (hq j),h q hq]

theorem OffFrame.cell {t : State} (h : OffFrame s t) (hp : Holds s p l) {i : ℕ} (hi : i < 4) :
    t.cell (p.add i) = cellOf l i := by
  rw [← cell_of_word hp.word hi,State.cell,State.cell,h _ (hp.outside i)]

/-- One round of the loop over halves. -/
theorem fieldCompareBody_run (hh : Honest host) (leq : Bool) (hp : Holds s p l) (hq : Holds s q r)
    {t : State} (ht : OffFrame s t) {i : ℕ} (hi : i < 4) :
    ∃ u, fieldCompareBody host leq p q (.stack (s.stack + 0)) (.stack (s.stack + 1))
      (.stack (s.stack + 2)) (.stack (s.stack + 3)) i t =
        .ok (decide (if leq = true then HalvesLe (cellOf l i) (cellOf r i)
          else HalvesLe (cellOf r i) (cellOf l i)),u) ∧ OffFrame s u := by
  have h1 := (ht.write 0 (.int ((cellOf l i).val / TWO_POWER : ℕ))).write 1
    (.int ((cellOf l i).val % TWO_POWER : ℕ))
  have h2 := (h1.write 2 (.int ((cellOf r i).val / TWO_POWER : ℕ))).write 3
    (.int ((cellOf r i).val % TWO_POWER : ℕ))
  have hval : ∀ n : ℕ, n < 2^32 → ((n : ℕ) : Felt).val = n := fun n hn =>
    Felt.val_natCast_of_lt (by omega)
  refine ⟨_,?_,h2⟩
  simp only [fieldCompareBody,Exec.bind_apply,buildLoadInt_apply,Value.felt_int,ht.cell hp hi,
    ht.cell hq hi,splitField_run hh,Exec.pure_apply]
  have hne : ∀ a b : ℕ, a ≠ b → Pointer.stack (s.stack + a) ≠ Pointer.stack (s.stack + b) := by
    intro a b hab heq
    injection heq with heq
    omega
  simp only [State.write_cell_self,State.write_cell_of_ne _ _ (hne 0 1 (by omega)),
    State.write_cell_of_ne _ _ (hne 2 3 (by omega)),Value.felt_int,hval _ (high_lt _),
    hval _ (low_lt _)]
  cases leq <;> simp [IntPredicate.holds,HalvesLe]

theorem fieldMemCompare_run (hh : Honest host) (leq : Bool) (hp : Holds s p l) (hq : Holds s q r)
    (a b : Felt) : ∃ t, fieldMemCompare host leq a b p q 4 s =
      .ok (.int (if (if leq = true then AllLe l r else AllLe r l) then a else b),t) := by
  have h0 : OffFrame s { s with stack := s.stack+1+1+1+1 } := fun _ _ => rfl
  have hstep : ∀ i t, 0 ≤ i → i < 0+(4 : Felt).val → OffFrame s t → ∃ u, _ := fun i t _ hi ht =>
    fieldCompareBody_run hh leq hp hq ht (show i < 4 by rw [four_val] at hi; omega)
  obtain ⟨t,hrun,_⟩ := memCompareLoop_spec (a := a) (b := b) (4 : Felt).val 0 h0 hstep
  refine ⟨t,?_⟩
  have hframe : fieldMemCompare host leq a b p q 4 s =
      memCompareLoop (fieldCompareBody host leq p q (.stack (s.stack + 0)) (.stack (s.stack + 1))
        (.stack (s.stack + 2)) (.stack (s.stack + 3))) a b (4 : Felt).val 0
        { s with stack := s.stack+1+1+1+1 } := rfl
  rw [hframe,hrun]
  cases leq <;> simp only [forall_cells,cellOf,AllLe,if_true,Bool.false_eq_true,if_false]

end Runs

/-! ### Agreement with the order -/

section Order

variable {host : Host} {l r : Word}

theorem val_le_of_halvesLe {x y : Felt} (h : HalvesLe x y) : x.val ≤ y.val := by
  obtain ⟨hhigh,hlow⟩ := h
  have hx := Nat.div_add_mod x.val TWO_POWER
  have hy := Nat.div_add_mod y.val TWO_POWER
  have hmul := Nat.mul_le_mul_left TWO_POWER hhigh
  omega

theorem canonical_inj : canonical l = canonical r ↔ l = r := by
  constructor
  · intro h
    simp only [canonical,Word.toList,List.map_cons,List.map_nil,List.cons.injEq,and_true] at h
    obtain ⟨h0,h1,h2,h3⟩ := h
    cases l
    cases r
    rw [Word.mk.injEq]
    exact ⟨Felt.ext_val h0,Felt.ext_val h1,Felt.ext_val h2,Felt.ext_val h3⟩
  · rintro rfl
    rfl

theorem cons_le_cons {a b : ℕ} {as bs : List ℕ} (h : a ≤ b) (hs : as ≤ bs) : a::as ≤ b::bs := by
  rcases Nat.lt_or_eq_of_le h with hlt|rfl
  · exact le_of_lt (List.Lex.rel hlt)
  · exact List.cons_le_cons a hs

theorem canonical_le_of_allLe (h : AllLe l r) : canonical l ≤ canonical r := by
  obtain ⟨h0,h1,h2,h3⟩ := h
  exact cons_le_cons (val_le_of_halvesLe h0) (cons_le_cons (val_le_of_halvesLe h1)
    (cons_le_cons (val_le_of_halvesLe h2) (cons_le_cons (val_le_of_halvesLe h3) (le_refl _))))

theorem allLe_refl (w : Word) : AllLe w w :=
  ⟨⟨le_refl _,le_refl _⟩,⟨le_refl _,le_refl _⟩,⟨le_refl _,le_refl _⟩,⟨le_refl _,le_refl _⟩⟩

/-- For values whose halves do not disagree, the comparison of halves is the order. -/
theorem allLe_iff (h : AllLe l r ∨ AllLe r l) : AllLe l r ↔ canonical l ≤ canonical r := by
  constructor
  · exact canonical_le_of_allLe
  · intro hle
    rcases h with hlr|hrl
    · exact hlr
    · have heq := le_antisymm hle (canonical_le_of_allLe hrl)
      rw [canonical_inj.mp heq]
      exact allLe_refl r

/-- What each of the comparisons gives. -/
def gives (op : IntPredicate) (l r : Word) : Bool := match op with
  | .EQ => l = r
  | .NE => l ≠ r
  | .UGE => AllLe r l
  | .UGT => ¬ AllLe l r
  | .ULT => ¬ AllLe r l
  | .ULE => AllLe l r

theorem addressOrHashCompare_run (hh : Honest host) (op : IntPredicate) {s : State} {p q : Pointer}
    (hp : Holds s p l) (hq : Holds s q r) : ∃ t, addressOrHashCompare host op (.ptr p) (.ptr q) s =
      .ok (.int (ofBool (gives op l r)),t) := by
  have hstart : addressOrHashCompare host op (.ptr p) (.ptr q) s = memcmp host p q 4 op s := rfl
  rw [hstart]
  cases op with
  | EQ =>
    obtain ⟨t,ht⟩ := memCompare_run hp.word hq.word 1 0
    refine ⟨t,ht.trans ?_⟩
    by_cases h : l = r <;> simp [gives,ofBool,h]
  | NE =>
    obtain ⟨t,ht⟩ := memCompare_run hp.word hq.word 0 1
    refine ⟨t,ht.trans ?_⟩
    by_cases h : l = r <;> simp [gives,ofBool,h]
  | UGT =>
    obtain ⟨t,ht⟩ := fieldMemCompare_run hh true hp hq 0 1
    refine ⟨t,ht.trans ?_⟩
    by_cases h : AllLe l r <;> simp [gives,ofBool,h]
  | UGE =>
    obtain ⟨t,ht⟩ := fieldMemCompare_run hh false hp hq 1 0
    refine ⟨t,ht.trans ?_⟩
    by_cases h : AllLe r l <;> simp [gives,ofBool,h]
  | ULT =>
    obtain ⟨t,ht⟩ := fieldMemCompare_run hh false hp hq 0 1
    refine ⟨t,ht.trans ?_⟩
    by_cases h : AllLe r l <;> simp [gives,ofBool,h]
  | ULE =>
    obtain ⟨t,ht⟩ := fieldMemCompare_run hh true hp hq 1 0
    refine ⟨t,ht.trans ?_⟩
    by_cases h : AllLe l r <;> simp [gives,ofBool,h]

/-- A state that holds two values side by side in the heap. -/
def twoWords (l r : Word) : State :=
  (State.writeWord ⟨fun _ => .int 0,8,1,fun _ => Word.zero⟩ (.heap 0) l).writeWord (.heap 4) r

theorem holds_twoWords (l r : Word) :
    Holds (twoWords l r) (.heap 0) l ∧ Holds (twoWords l r) (.heap 4) r :=
  ⟨⟨rfl,fun _ _ h => by cases h⟩,⟨rfl,fun _ _ h => by cases h⟩⟩

theorem gives_of_agrees (hh : Honest host) (h : Agrees host l r) (op : IntPredicate) :
    gives op l r = op.orders (canonical l) (canonical r) := by
  obtain ⟨hl,hr⟩ := holds_twoWords l r
  obtain ⟨t,ht⟩ := addressOrHashCompare_run hh op hl hr
  obtain ⟨u,hu⟩ := h op _ _ _ hl hr
  rw [ht] at hu
  have hval : ofBool (gives op l r) = ofBool (op.orders (canonical l) (canonical r)) := by
    injection hu with hu
    injection hu with hu
    injection hu
  cases hg : gives op l r <;> cases ho : op.orders (canonical l) (canonical r) <;>
    simp_all [ofBool]

theorem gives_of_aligned (h : AllLe l r ∨ AllLe r l) (op : IntPredicate) :
    gives op l r = op.orders (canonical l) (canonical r) := by
  have hlr := allLe_iff h
  have hrl := allLe_iff h.symm
  cases op <;> simp [gives,IntPredicate.orders,hlr,hrl,canonical_inj]

/-- The six comparisons of two values are those of the lexicographic order exactly when no two of
their halves, at any places, differ in opposite directions. -/
theorem compare_agrees_iff (hh : Honest host) (l r : Word) :
    Agrees host l r ↔ AllLe l r ∨ AllLe r l := by
  constructor
  · intro h
    have hle : AllLe l r ↔ canonical l ≤ canonical r := by
      simpa [gives,IntPredicate.orders] using gives_of_agrees hh h .ULE
    have hge : AllLe r l ↔ canonical r ≤ canonical l := by
      simpa [gives,IntPredicate.orders] using gives_of_agrees hh h .UGE
    rw [hle,hge]
    exact le_total _ _
  · intro h op s p q hp hq
    rw [← gives_of_aligned h op]
    exact addressOrHashCompare_run hh op hp hq

end Order

/-- A virtual machine whose prophets split honestly. -/
def honestSplit : Host where
  poseidon := fun _ => Word.zero
  prophetU32Sqrt := fun _ => 0
  prophetU32Div := fun _ _ => 0
  prophetU32Mod := fun _ _ => 0
  prophetSplitFieldHigh := fun x => (x.val / TWO_POWER : ℕ)
  prophetSplitFieldLow := fun x => (x.val % TWO_POWER : ℕ)

theorem compare_agrees_iff_honestSplit : Honest honestSplit ∧
    (Agrees honestSplit ⟨0,0,1,0⟩ ⟨0,0,1,5⟩ ↔
      AllLe ⟨0,0,1,0⟩ ⟨0,0,1,5⟩ ∨ AllLe ⟨0,0,1,5⟩ ⟨0,0,1,0⟩) :=
  have hh : Honest honestSplit := ⟨fun _ => rfl,fun _ => rfl⟩
  ⟨hh,compare_agrees_iff hh _ _⟩

/-- Both `<` and `>` hold between the values 1,0,0,0 and 0,1,0,0. -/
theorem crossed_values_disagree : ¬ Agrees honestSplit ⟨1,0,0,0⟩ ⟨0,1,0,0⟩ := by
  have hh : Honest honestSplit := ⟨fun _ => rfl,fun _ => rfl⟩
  intro h
  have hlt := gives_of_agrees hh h .ULT
  have hgt := gives_of_agrees hh h .UGT
  revert hlt hgt
  decide

end Comparison
end OlaLang
