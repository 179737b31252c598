import OlaLang.Comparison
import OlaLang.EncodedValues

/-! Comparisons of strings: what the code of `==` and `!=` gives for two strings, and when it
completes. -/
namespace OlaLang
namespace StringCompare

open Exec (bind_ok bind_error)
open Builder Corelib U32Op Encoding Comparison
open Storage (vectorData)

/-! ### The generator -/

/-- Where an operand of a comparison of strings stands. -/
inductive StringLocation
  | compileTime (value : List ℕ)
  | runTime (operand : Value)

/-- A resolved operand: its type, its value after the cast to what it refers to, and its text when it
is a literal of bytes. -/
structure Operand where
  ty : Ty
  value : Value
  bytesLiteral : Option (List ℕ)

/-- `is_string_equal`. -/
def isStringEqual (left right : Operand) : Option (StringLocation × StringLocation) :=
  match left.bytesLiteral, right.ty.derefAny with
  | some l, .string | some l, .dynamicBytes => some (.runTime right.value,.compileTime l)
  | _, _ => match right.bytesLiteral, left.ty.derefAny with
    | some value, .string | some value, .dynamicBytes =>
      some (.runTime left.value,.compileTime value)
    | _, _ => match left.ty.derefAny, right.ty.derefAny with
      | .string, .string => some (.runTime left.value,.runTime right.value)
      | _, _ => none

/-- `string_location`: the data and the length. -/
def stringLocation : StringLocation → Code (Pointer × Felt)
  | .compileTime _ => Exec.fail .panic
  | .runTime v => do
    let p ← intoPointerValue v
    let len ← vectorLen v
    pure (vectorData p,len)

/-- `string_compare`: the lengths are asserted to be equal. -/
def stringCompare (left right : StringLocation) : Code Value := do
  let (left,leftLen) ← stringLocation left
  let (right,rightLen) ← stringLocation right
  builtinAssert (leftLen = rightLen)
  memCompare 1 0 left right leftLen

/-- The code of `equal`; operands that are no strings are compared as `other` does. -/
def equal (other : Code Value) (left right : Operand) : Code Value :=
  match isStringEqual left right with
  | some (l,r) => stringCompare l r
  | none => other

/-- The code of `not_equal`. -/
def notEqual (other : Code Value) (left right : Operand) : Code Value :=
  match isStringEqual left right with
  | some (l,r) => do
    let equal ← stringCompare l r
    logicNot equal
  | none => other

/-! ### Strings -/

/-- The operand is a string with the cells `l`. -/
structure IsString (s : State) (v : Operand) (l : List Felt) : Prop where
  ty : v.ty.derefAny = .string
  literal : v.bytesLiteral = none
  lt : l.length < FIELD_ORDER
  cells : ∃ p, v.value = .ptr p ∧ Holds (fun _ => True) s p (l.length::l)

/-- Both comparisons complete, and tell whether the strings have the same cells. -/
structure Compares (s : State) (left right : Operand) (l r : List Felt) : Prop where
  equal : ∀ other, ∃ t, equal other left right s = .ok (.int (ofBool (l = r)),t)
  notEqual : ∀ other, ∃ t, notEqual other left right s = .ok (.int (ofBool (l ≠ r)),t)

variable {s : State} {v w : Operand} {l r : List Felt} {p q : Pointer}

theorem IsString.isStringEqual (hv : IsString s v l) (hw : IsString s w r) :
    isStringEqual v w = some (.runTime v.value,.runTime w.value) := by
  simp [StringCompare.isStringEqual,hv.literal,hw.literal,hv.ty,hw.ty]

theorem equal_eq {other : Code Value} {a b : StringLocation} (h : isStringEqual v w = some (a,b)) :
    equal other v w = stringCompare a b := by rw [equal,h]

theorem notEqual_eq {other : Code Value} {a b : StringLocation}
    (h : isStringEqual v w = some (a,b)) :
    notEqual other v w = stringCompare a b >>= logicNot := by rw [notEqual,h]

theorem stringLocation_ptr (p : Pointer) (s : State) :
    stringLocation (.runTime (.ptr p)) s = .ok ((vectorData p,s.cell p),s) := rfl

/-- The loop compares the cells at the same places. -/
theorem memCompare_run (a b len : Felt) (p q : Pointer) (s : State) :
    memCompare a b p q len s =
      .ok (.int (if ∀ i < len.val, s.cell (p.add i) = s.cell (q.add i) then a else b),s) := by
  have hstep : ∀ i t, 0 ≤ i → i < 0 + len.val → t = s → ∃ u, (do
      let leftElem ← buildLoadInt (p.add i)
      let rightElem ← buildLoadInt (q.add i)
      pure (IntPredicate.EQ.holds leftElem.felt.val rightElem.felt.val) : Code Bool) t =
        .ok (decide (s.cell (p.add i) = s.cell (q.add i)),u) ∧ u = s := by
    rintro i t - - rfl
    have heq : (t.cell (p.add i)).val = (t.cell (q.add i)).val ↔
        t.cell (p.add i) = t.cell (q.add i) := ⟨Felt.ext_val,fun h => by rw [h]⟩
    exact ⟨t,by simp [Exec.bind_apply,IntPredicate.holds,heq],rfl⟩
  obtain ⟨t,hrun,rfl⟩ := memCompareLoop_spec (a := a) (b := b) (I := fun t => t = s) len.val 0 rfl
    hstep
  rw [memCompare,hrun]
  simp

/-- For strings of one length these are all cells. -/
theorem cells_agree_iff (hl : Holds (fun _ => True) s (p.add 1) l)
    (hr : Holds (fun _ => True) s (q.add 1) r) (hlen : l.length = r.length) :
    (∀ i < l.length, s.cell ((vectorData p).add i) = s.cell ((vectorData q).add i)) ↔ l = r := by
  constructor
  · intro h
    refine List.ext_getElem hlen fun i hi hi' => ?_
    have hleft := (hl.get hi).2
    have hright := (hr.get hi').2
    simp only [List.get_eq_getElem] at hleft hright
    rw [← hleft,← hright]
    exact h i hi
  · rintro rfl i hi
    exact (hl.get hi).2.trans (hr.get hi).2.symm

theorem stringCompare_run (hl : Holds (fun _ => True) s p (l.length::l))
    (hr : Holds (fun _ => True) s q (r.length::r)) (hlt : l.length < FIELD_ORDER)
    (hlen : l.length = r.length) :
    stringCompare (.runTime (.ptr p)) (.runTime (.ptr q)) s = .ok (.int (ofBool (l = r)),s) := by
  have hcells := cells_agree_iff hl.2.2 hr.2.2 hlen
  have hassert : builtinAssert (s.cell p = s.cell q) s = .ok ((),s) := by
    rw [builtinAssert_eq_ok,hl.2.1,hr.2.1,hlen]
    simp
  rw [stringCompare,bind_ok (stringLocation_ptr p s)]
  simp only [bind_ok (stringLocation_ptr q s),bind_ok hassert]
  rw [memCompare_run,hl.2.1,Felt.val_natCast_of_lt hlt]
  simp only [hcells,ofBool,decide_eq_true_eq]

/-- Strings of different lengths fail the assertion. -/
theorem stringCompare_abort (hl : Holds (fun _ => True) s p (l.length::l))
    (hr : Holds (fun _ => True) s q (r.length::r)) (hlt : l.length < FIELD_ORDER)
    (hlt' : r.length < FIELD_ORDER) (hlen : l.length ≠ r.length) :
    stringCompare (.runTime (.ptr p)) (.runTime (.ptr q)) s = .error .abort := by
  have hne : s.cell p ≠ s.cell q := fun heq => by
    rw [hl.2.1,hr.2.1] at heq
    have hval := congrArg ZMod.val heq
    rw [Felt.val_natCast_of_lt hlt,Felt.val_natCast_of_lt hlt'] at hval
    exact hlen hval
  have hassert : builtinAssert (s.cell p = s.cell q) s = .error .abort := by
    simp [builtinAssert,hne]
  rw [stringCompare,bind_ok (stringLocation_ptr p s)]
  simp only [bind_ok (stringLocation_ptr q s),bind_error hassert]

/-- A truth value as a cell, negated. -/
theorem logicNot_ofBool (b : Bool) (s : State) :
    logicNot (.int (ofBool b)) s = .ok (.int (ofBool !b),s) := by
  cases b <;> simp [ofBool,logicNot,u32Compare,intoIntValue,Exec.bind_apply,IntPredicate.holds]

theorem abort_of_lengths (hv : IsString s v l) (hw : IsString s w r) (h : l.length ≠ r.length)
    (other : Code Value) : equal other v w s = .error .abort := by
  have hequal := hv.isStringEqual hw
  obtain ⟨p,hp,hl⟩ := hv.cells
  obtain ⟨q,hq,hr⟩ := hw.cells
  rw [hp,hq] at hequal
  rw [equal_eq hequal]
  exact stringCompare_abort hl hr hv.lt hw.lt h

/-- Both comparisons are right about two strings exactly when these have the same length. -/
theorem string_compares_iff (hv : IsString s v l) (hw : IsString s w r) :
    Compares s v w l r ↔ l.length = r.length := by
  constructor
  · intro h
    by_contra hlen
    obtain ⟨t,ht⟩ := h.equal (pure (.int 0))
    rw [abort_of_lengths hv hw hlen] at ht
    cases ht
  · intro hlen
    have hequal := hv.isStringEqual hw
    obtain ⟨p,hp,hl⟩ := hv.cells
    obtain ⟨q,hq,hr⟩ := hw.cells
    rw [hp,hq] at hequal
    have hrun := stringCompare_run hl hr hv.lt hlen
    refine ⟨fun other => ⟨s,?_⟩,fun other => ⟨s,?_⟩⟩
    · rw [equal_eq hequal]
      exact hrun
    · rw [notEqual_eq hequal,bind_ok hrun,logicNot_ofBool,decide_not]

/-- Two strings of one length and one cell; the first one has 104, the second one 105. -/
def twoStrings : State :=
  ⟨fun x => if x = .heap 1 then .int 104 else if x = .heap 3 then .int 105
    else if x = .heap 4 then .int 0 else .int 1,5,0,fun _ => Word.zero⟩

/-- A variable of type string. -/
def stringAt (p : Pointer) : Operand := ⟨.string,.ptr p,none⟩

theorem isString_first : IsString twoStrings (stringAt (.heap 0)) [104] :=
  ⟨rfl,rfl,(by decide : 1 < FIELD_ORDER),.heap 0,rfl,trivial,by simp; rfl,trivial,rfl,trivial⟩

theorem isString_second : IsString twoStrings (stringAt (.heap 2)) [105] :=
  ⟨rfl,rfl,(by decide : 1 < FIELD_ORDER),.heap 2,rfl,trivial,by simp; rfl,trivial,rfl,trivial⟩

theorem isString_empty : IsString twoStrings (stringAt (.heap 4)) [] :=
  ⟨rfl,rfl,(by decide : 0 < FIELD_ORDER),.heap 4,rfl,trivial,by simp; rfl,trivial⟩

theorem string_compares_iff_letters :
    Compares twoStrings (stringAt (.heap 0)) (stringAt (.heap 2)) [104] [105] ↔
      [(104 : Felt)].length = [(105 : Felt)].length :=
  string_compares_iff isString_first isString_second

/-- The comparison of "h" with "" stops the program. -/
theorem empty_comparison_aborts :
    equal (pure (.int 0)) (stringAt (.heap 0)) (stringAt (.heap 4)) twoStrings = .error .abort ∧
      ¬ Compares twoStrings (stringAt (.heap 0)) (stringAt (.heap 4)) [104] [] := by
  have habort := abort_of_lengths isString_first isString_empty (by decide) (pure (.int 0))
  refine ⟨habort,fun h => ?_⟩
  obtain ⟨t,ht⟩ := h.equal (pure (.int 0))
  rw [habort] at ht
  cases ht

end StringCompare
end OlaLang
