import OlaLang.Machine
import OlaLang.LiteralRange

/-! The way of a constant from the generator to the machine: a 64-bit word, its signed decimal text
in the module, the parsed constant, the immediate operand, its text in the assembly, and the field
element the machine reads from that. -/
namespace OlaLang
namespace Codegen
namespace FieldConstants

open LiteralRange (Literal LiteralTy)

/-! ### Decimal texts -/

/-- The decimal text of an integer. -/
def decimal (n : ℤ) : List Char :=
  if n < 0 then '-'::Nat.toDigits 10 n.natAbs else Nat.toDigits 10 n.natAbs

/-- The integer a decimal text stands for. -/
def readDecimal : List Char → ℤ
  | [] => 0
  | c::cs => if c = '-' then -(Nat.ofDigitChars 10 cs 0 : ℤ) else Nat.ofDigitChars 10 (c::cs) 0

/-- A sign that may be missing, then at least one digit and nothing else. -/
def IsDecimal (text : List Char) : Prop :=
  let digits := if text.head? = some '-' then text.tail else text
  digits ≠ [] ∧ ∀ c ∈ digits, c.isDigit = true

instance (text : List Char) : Decidable (IsDecimal text) :=
  @instDecidableAnd _ _ _ (List.decidableBAll _ _)

theorem isDigit_of_mem {n : ℕ} {c : Char} (h : c ∈ Nat.toDigits 10 n) : c.isDigit = true :=
  Nat.isDigit_of_mem_toDigits (by omega) (by omega) h

theorem head?_toDigits_ne_minus (n : ℕ) : (Nat.toDigits 10 n).head? ≠ some '-' := by
  intro h
  have hdigit := isDigit_of_mem (List.mem_of_mem_head? (Option.mem_def.mpr h))
  cases hdigit

theorem decimal_of_neg {n : ℤ} (h : n < 0) : decimal n = '-'::Nat.toDigits 10 n.natAbs := if_pos h

theorem decimal_of_nonneg {n : ℤ} (h : 0 ≤ n) : decimal n = Nat.toDigits 10 n.natAbs :=
  if_neg (by omega)

theorem readDecimal_decimal (n : ℤ) : readDecimal (decimal n) = n := by
  by_cases h : n < 0
  · rw [decimal_of_neg h,readDecimal,if_pos rfl,Nat.ofDigitChars_ten_toDigits]
    omega
  · rw [decimal_of_nonneg (by omega)]
    obtain ⟨c,cs,hcs⟩ := List.exists_cons_of_ne_nil (Nat.toDigits_ne_nil (n := n.natAbs) (b := 10))
    have hc : c ≠ '-' := fun heq => head?_toDigits_ne_minus n.natAbs (by rw [hcs,heq]; rfl)
    rw [hcs,readDecimal,if_neg hc,← hcs,Nat.ofDigitChars_ten_toDigits]
    omega

theorem isDecimal_decimal (n : ℤ) : IsDecimal (decimal n) := by
  by_cases h : n < 0
  · rw [decimal_of_neg h]
    exact ⟨Nat.toDigits_ne_nil,fun c hc => isDigit_of_mem hc⟩
  · rw [decimal_of_nonneg (by omega),IsDecimal,if_neg (head?_toDigits_ne_minus _)]
    exact ⟨Nat.toDigits_ne_nil,fun c hc => isDigit_of_mem hc⟩

/-! ### The generator -/

/-- `const_int_from_string` at 64 bits. -/
def constIntFromString (text : List Char) : Option (BitVec 64) :=
  if IsDecimal text then some (BitVec.ofInt 64 (readDecimal text)) else none

/-- `number_literal`: the other integer types are not implemented. -/
def numberLiteral (ty : LiteralTy) (n : ℤ) : Option (BitVec 64) :=
  match ty with
  | .uint 32 | .field => constIntFromString (decimal n)
  | _ => none

/-- `to_u64`. -/
def toU64 (v : ℤ) : Option (BitVec 64) :=
  if 0 ≤ v ∧ v < 2^64 then some (BitVec.ofInt 64 v) else none

/-- The constants the generator builds for a literal: `number_literal`, the loops of
`address_literal` and `hash_literal`, and the loop over `init` of `alloca_dynamic_array`. -/
def literalConstants : Literal → Option (List (BitVec 64))
  | .number ty n => (numberLiteral ty n).map fun w => [w]
  | .cells _ values => values.mapM toU64
  | .bytesCast n => (numberLiteral .field n).map fun w => [w]

/-- The numbers of a literal. -/
def values : Literal → List ℤ
  | .number _ n => [n]
  | .cells _ values => values
  | .bytesCast n => [n]

/-- A literal whose numbers are cells of the machine: of the types of one cell, or a list. -/
def HasCells : Literal → Prop
  | .number ty _ => ty = .uint 32 ∨ ty = .field
  | _ => True

/-! ### The text of the module -/

/-- An operand `i64 c`, as the constant is printed: the word is taken for a signed one. -/
def printOperand (w : BitVec 64) : List Char := "i64 ".toList ++ decimal w.toInt

/-! ### The parser of the module -/

def isMultispace (c : Char) : Bool := c = ' ' || c = '\t' || c = '\r' || c = '\n'

/-- What is behind the next line end. -/
def afterNewline : List Char → Option (List Char)
  | [] => none
  | c::cs => if c = '\n' then some cs else afterNewline cs

theorem length_afterNewline {text rest : List Char} (h : afterNewline text = some rest) :
    rest.length < text.length := by
  induction text with
  | nil => cases h
  | cons c cs ih =>
    rw [afterNewline] at h
    by_cases hc : c = '\n'
    · rw [if_pos hc] at h
      cases h
      exact Nat.lt_succ_self _
    · rw [if_neg hc] at h
      exact (ih h).trans (Nat.lt_succ_self _)

/-- `spaces`: blanks, and comments that end in a line end. -/
def spaces (source : List Char) : List Char :=
  match source with
  | [] => []
  | c::cs =>
    if isMultispace c then spaces cs
    else if c = ';' then
      match _h : afterNewline cs with
      | some rest => spaces rest
      | none => c::cs
    else c::cs
  termination_by source.length
  decreasing_by
    · exact Nat.lt_succ_self _
    · exact (length_afterNewline _h).trans (Nat.lt_succ_self _)

/-- `tag`. -/
def tag (word : String) (source : List Char) : Option (List Char) :=
  word.toList.isPrefixOf? source

inductive IrTy
  | metadata | void | i1 | i8 | i16 | i32 | i64
  deriving DecidableEq

/-- The scalar types of `types::parse`: the text `i64` is parsed to the type of 32 bits. A type
that begins in another way, and one with a star or parameters behind it, is not an integer. -/
def parseType (source : List Char) : Option (IrTy × List Char) := do
  let source := spaces source
  let (ty,source) ←
    ((tag "metadata" source).map fun r => (IrTy.metadata,r)) <|>
    ((tag "void" source).map fun r => (IrTy.void,r)) <|>
    ((tag "i64" source).map fun r => (IrTy.i32,r)) <|>
    ((tag "i32" source).map fun r => (IrTy.i32,r)) <|>
    ((tag "i16" source).map fun r => (IrTy.i16,r)) <|>
    ((tag "i8" source).map fun r => (IrTy.i8,r)) <|>
    ((tag "i1" source).map fun r => (IrTy.i1,r))
  let next := (spaces source).head?
  if next = some '*' ∨ next = some '(' then none else some (ty,source)

inductive ConstantInt
  | int1 (b : Bool) | int8 (v : BitVec 8) | int32 (v : BitVec 32) | int64 (v : BitVec 64)

inductive ConstantValue
  | undef (ty : IrTy) | null (ty : IrTy) | aggregateZero (ty : IrTy) | int (i : ConstantInt)

/-- `parse` of the signed types: a text that does not fit is an error. -/
def parseSigned (bits : ℕ) (num : List Char) : Option (BitVec bits) :=
  if IsDecimal num ∧ -2^(bits-1) ≤ readDecimal num ∧ readDecimal num < 2^(bits-1) then
    some (BitVec.ofInt bits (readDecimal num))
  else none

/-- The text `parse_constant_int` recognizes, and what is behind it. -/
def recognizeInt (source : List Char) : Option (List Char × List Char) :=
  let sign := if source.head? = some '-' then ['-'] else []
  let source := source.drop sign.length
  let digits := source.takeWhile Char.isDigit
  if digits ≠ [] then some (sign++digits,source.dropWhile Char.isDigit)
  else ((tag "true" source).map fun r => (sign++"true".toList,r)) <|>
    ((tag "false" source).map fun r => (sign++"false".toList,r))

/-- `parse_constant_int`. -/
def parseConstantInt (source : List Char) (ty : IrTy) : Option (ConstantInt × List Char) := do
  let (num,source) ← recognizeInt (spaces source)
  let val ← match ty with
    | .i1 => some (ConstantInt.int1 (num = "true".toList))
    | .i8 => (parseSigned 8 num).map .int8
    | .i32 => (parseSigned 64 num).map .int64
    | .i64 => (parseSigned 64 num).map .int64
    | _ => none
  some (val,source)

/-- `parse_constant`, up to the arrays, structs, globals and expressions, which do not begin with a
sign or a digit. -/
def parseConstant (source : List Char) (ty : IrTy) : Option (ConstantValue × List Char) :=
  ((tag "undef" (spaces source)).map fun r => (ConstantValue.undef ty,r)) <|>
  ((tag "null" (spaces source)).map fun r => (ConstantValue.null ty,r)) <|>
  ((tag "zeroinitializer" (spaces source)).map fun r => (ConstantValue.aggregateZero ty,r)) <|>
  ((parseConstantInt source ty).map fun r => (ConstantValue.int r.1,r.2))

/-! ### The operand and its text -/

inductive OperandData
  | int8 (v : BitVec 8) | int32 (v : BitVec 32) | int64 (v : BitVec 64)

/-- `get_operand_for_const` on integers. -/
def getOperandForConst : ConstantValue → Option OperandData
  | .int (.int32 i) => some (.int32 i)
  | .int (.int64 i) => some (.int64 i)
  | _ => none

/-- `negative_as_field`, with its assertion. -/
def negativeAsField (immediate : BitVec 64) : Option Bool :=
  if immediate.toNat < 0xffffffffffffffff then some (immediate.toNat > 0x7fffffffffffffff) else none

/-- `write_operand` on immediates. -/
def writeOperand : OperandData → Option (List Char)
  | .int8 i => some (decimal i.toInt)
  | .int32 i => some (decimal i.toInt)
  | .int64 i => do
    let asField ← negativeAsField i
    if asField then some (decimal i.toNat) else some (decimal i.toInt)

/-- What the machine takes an immediate for. -/
def readImmediate (text : List Char) : Felt := (readDecimal text : ℤ)

/-- A constant in front of the text `rest`, from the word of the generator to the value loaded. -/
def loadConstant (rest : List Char) (w : BitVec 64) : Option Felt := do
  let (ty,source) ← parseType (printOperand w ++ rest)
  let (konst,_) ← parseConstant source ty
  let operand ← getOperandForConst konst
  let text ← writeOperand operand
  some (readImmediate text)

/-! ### Every constant arrives -/

/-- A comment is skipped with its line. -/
theorem spaces_comment {cs rest : List Char} (h : afterNewline cs = some rest) :
    spaces (';'::cs) = spaces rest := by
  rw [spaces,if_neg (by decide),if_pos rfl]
  split
  · rename_i line hline
    rw [Option.some.inj (hline.symm.trans h)]
  · rename_i hline
    rw [h] at hline
    cases hline

/-- A comment without a line end is left. -/
theorem spaces_open {cs : List Char} (h : afterNewline cs = none) : spaces (';'::cs) = ';'::cs := by
  rw [spaces,if_neg (by decide),if_pos rfl]
  split
  · rename_i line hline
    rw [h] at hline
    cases hline
  · rfl

theorem spaces_other {c : Char} {cs : List Char} (hblank : isMultispace c = false) (hc : c ≠ ';') :
    spaces (c::cs) = c::cs := by
  rw [spaces,if_neg (by simp [hblank]),if_neg hc]

/-- The first character of a decimal text. -/
def Numeric (c : Char) : Prop := c = '-' ∨ c.isDigit = true

theorem Numeric.ne {c d : Char} (hc : Numeric c) (hd : d ≠ '-' ∧ d.isDigit = false) : c ≠ d := by
  rintro rfl
  rcases hc with rfl | hc
  · exact hd.1 rfl
  · rw [hd.2] at hc
    cases hc

theorem exists_decimal (n : ℤ) : ∃ c cs, decimal n = c::cs ∧ Numeric c := by
  by_cases h : n < 0
  · exact ⟨'-',_,decimal_of_neg h,.inl rfl⟩
  · obtain ⟨c,cs,hcs⟩ := List.exists_cons_of_ne_nil (Nat.toDigits_ne_nil (n := n.natAbs) (b := 10))
    refine ⟨c,cs,by rw [decimal_of_nonneg (by omega),hcs],.inr ?_⟩
    exact isDigit_of_mem (n := n.natAbs) (by simp [hcs])

theorem spaces_numeric {c : Char} (hc : Numeric c) (cs : List Char) : spaces (c::cs) = c::cs := by
  have hblank : isMultispace c = false := by
    simp [isMultispace,hc.ne (d := ' ') (by decide),hc.ne (d := '\t') (by decide),
      hc.ne (d := '\r') (by decide),hc.ne (d := '\n') (by decide)]
  exact spaces_other hblank (hc.ne (by decide))

theorem spaces_blank (cs : List Char) : spaces (' '::cs) = spaces cs := by
  rw [spaces]
  simp [isMultispace]

theorem spaces_decimal (n : ℤ) (rest : List Char) :
    spaces (decimal n ++ rest) = decimal n ++ rest := by
  obtain ⟨c,cs,hcs,hc⟩ := exists_decimal n
  rw [hcs]
  exact spaces_numeric hc _

theorem tag_of_ne {word : String} {c d : Char} (cs : List Char) (hword : word.toList.head? = some d)
    (h : d ≠ c) : tag word (c::cs) = none := by
  obtain ⟨ds,hds⟩ : ∃ ds, word.toList = d::ds := List.head?_eq_some_iff.mp hword
  simp [tag,hds,List.isPrefixOf?,h]

theorem parseType_operand (w : BitVec 64) (rest : List Char) :
    parseType (printOperand w ++ rest) = some (.i32,' '::(decimal w.toInt ++ rest)) := by
  obtain ⟨c,cs,hcs,hc⟩ := exists_decimal w.toInt
  have htext : printOperand w ++ rest = 'i' :: '6' :: '4' :: ' ' :: (decimal w.toInt ++ rest) := rfl
  have hspaces : spaces ('i' :: '6' :: '4' :: ' ' :: (decimal w.toInt ++ rest)) =
      'i' :: '6' :: '4' :: ' ' :: (decimal w.toInt ++ rest) := by
    rw [spaces]
    simp [isMultispace]
  have htag : tag "i64" ('i' :: '6' :: '4' :: ' ' :: (decimal w.toInt ++ rest)) =
      some (' '::(decimal w.toInt ++ rest)) := rfl
  have hnext : (spaces (' '::(decimal w.toInt ++ rest))).head? = some c := by
    rw [spaces_blank,spaces_decimal,hcs]
    rfl
  rw [htext,parseType,hspaces,tag_of_ne _ (d := 'm') rfl (by decide),
    tag_of_ne _ (d := 'v') rfl (by decide),htag]
  have hstar : c ≠ '*' := hc.ne (by decide)
  have hparen : c ≠ '(' := hc.ne (by decide)
  simp [hnext,hstar,hparen]

theorem takeWhile_digits {digits rest : List Char} (hdigits : ∀ c ∈ digits, c.isDigit = true)
    (hrest : ∀ c ∈ rest.head?, c.isDigit = false) :
    (digits ++ rest).takeWhile Char.isDigit = digits ∧
      (digits ++ rest).dropWhile Char.isDigit = rest := by
  have hstop : rest.takeWhile Char.isDigit = [] ∧ rest.dropWhile Char.isDigit = rest := by
    cases rest with
    | nil => exact ⟨rfl,rfl⟩
    | cons c cs =>
      have hc := hrest c rfl
      simp [hc]
  rw [List.takeWhile_append_of_pos hdigits,List.dropWhile_append_of_pos hdigits,hstop.1,hstop.2,
    List.append_nil]
  exact ⟨rfl,rfl⟩

theorem recognizeInt_decimal (n : ℤ) {rest : List Char}
    (hrest : ∀ c ∈ rest.head?, c.isDigit = false) :
    recognizeInt (decimal n ++ rest) = some (decimal n,rest) := by
  have hdigits : ∀ c ∈ Nat.toDigits 10 n.natAbs, c.isDigit = true := fun c hc => isDigit_of_mem hc
  have hparts := takeWhile_digits hdigits hrest
  have hne : Nat.toDigits 10 n.natAbs ≠ [] := Nat.toDigits_ne_nil
  by_cases h : n < 0
  · simp [decimal_of_neg h,recognizeInt,hparts.1,hparts.2,hne]
  · have hhead : (Nat.toDigits 10 n.natAbs ++ rest).head? ≠ some '-' := by
      rw [List.head?_append_of_ne_nil _ hne]
      exact head?_toDigits_ne_minus _
    rw [decimal_of_nonneg (Int.not_lt.mp h)]
    simp only [recognizeInt,if_neg hhead,List.length_nil,List.drop_zero,hparts.1,hparts.2,hne,
      ne_eq,not_false_eq_true,if_true,List.nil_append]

theorem parseSigned_decimal (w : BitVec 64) : parseSigned 64 (decimal w.toInt) = some w := by
  have hlo := BitVec.le_toInt w
  have hhi := BitVec.toInt_lt (x := w)
  rw [parseSigned,readDecimal_decimal,if_pos ⟨isDecimal_decimal _,hlo,hhi⟩,BitVec.ofInt_toInt]

theorem parseConstant_decimal (w : BitVec 64) {rest : List Char}
    (hrest : ∀ c ∈ rest.head?, c.isDigit = false) :
    parseConstant (' '::(decimal w.toInt ++ rest)) .i32 = some (.int (.int64 w),rest) := by
  have hspaces : spaces (' '::(decimal w.toInt ++ rest)) = decimal w.toInt ++ rest := by
    rw [spaces_blank,spaces_decimal]
  have hint : parseConstantInt (' '::(decimal w.toInt ++ rest)) .i32 = some (.int64 w,rest) := by
    simp [parseConstantInt,hspaces,recognizeInt_decimal _ hrest,parseSigned_decimal]
  obtain ⟨c,cs,hcs,hc⟩ := exists_decimal w.toInt
  have hne : ∀ d : Char, d ≠ '-' ∧ d.isDigit = false → d ≠ c := fun d hd => (hc.ne hd).symm
  rw [parseConstant,hint,hspaces,hcs,List.cons_append,
    tag_of_ne _ (d := 'u') rfl (hne _ (by decide)),tag_of_ne _ (d := 'n') rfl (hne _ (by decide)),
    tag_of_ne _ (d := 'z') rfl (hne _ (by decide))]
  rfl

theorem writeOperand_int64 (w : BitVec 64) :
    writeOperand (.int64 w) = if w = BitVec.allOnes 64 then none else some (decimal w.toNat) := by
  have hones : (BitVec.allOnes 64).toNat = 0xffffffffffffffff := rfl
  have hlt := w.isLt
  by_cases h : w = BitVec.allOnes 64
  · rw [if_pos h,h]
    rfl
  · have hle : w.toNat < 0xffffffffffffffff := by
      have hne : w.toNat ≠ 0xffffffffffffffff := fun heq =>
        h (BitVec.eq_of_toNat_eq (heq.trans hones.symm))
      omega
    rw [if_neg h]
    by_cases hbig : w.toNat > 0x7fffffffffffffff
    · simp [writeOperand,negativeAsField,hle,hbig]
    · have hsigned : w.toInt = w.toNat := by
        rw [BitVec.toInt_eq_toNat_cond,if_pos (by omega)]
      simp [writeOperand,negativeAsField,hle,hbig,hsigned]

/-- Every word but the one of all ones arrives, as the field element it is for. -/
theorem loadConstant_eq (w : BitVec 64) {rest : List Char}
    (hrest : ∀ c ∈ rest.head?, c.isDigit = false) :
    loadConstant rest w =
      if w = BitVec.allOnes 64 then none else some (Value.const w).felt := by
  rw [loadConstant,parseType_operand]
  simp only [Option.bind_eq_bind,Option.bind_some,parseConstant_decimal w hrest,
    getOperandForConst,writeOperand_int64]
  by_cases h : w = BitVec.allOnes 64
  · rw [if_pos h,if_pos h]
    rfl
  · rw [if_neg h,if_neg h]
    simp [readImmediate,readDecimal_decimal]

theorem numberLiteral_eq {ty : LiteralTy} {c : ℤ} (hty : ty = .uint 32 ∨ ty = .field) :
    numberLiteral ty c = some (BitVec.ofInt 64 c) := by
  have hread : constIntFromString (decimal c) = some (BitVec.ofInt 64 c) := by
    rw [constIntFromString,if_pos (isDecimal_decimal c),readDecimal_decimal]
  rcases hty with rfl | rfl
  · exact hread
  · exact hread

section Range

variable {c : ℤ} (hc : 0 ≤ c ∧ c < FIELD_ORDER)

include hc

theorem toNat_ofInt : ((BitVec.ofInt 64 c).toNat : ℤ) = c := by
  have hlt : c < 0xFFFFFFFF00000001 := hc.2
  rw [BitVec.toNat_ofInt,Int.toNat_of_nonneg (Int.emod_nonneg _ (by decide))]
  exact Int.emod_eq_of_lt hc.1 (by omega)

theorem toU64_eq : toU64 c = some (BitVec.ofInt 64 c) := by
  have hlt : c < 0xFFFFFFFF00000001 := hc.2
  exact if_pos ⟨hc.1,by omega⟩

/-- No word of a field element is the one the printer refuses. -/
theorem loadConstant_ofInt {rest : List Char} (hrest : ∀ c ∈ rest.head?, c.isDigit = false) :
    loadConstant rest (BitVec.ofInt 64 c) = some (c : Felt) := by
  have hlt : c < 0xFFFFFFFF00000001 := hc.2
  have hnat := toNat_ofInt hc
  have hones : BitVec.ofInt 64 c ≠ BitVec.allOnes 64 := by
    intro heq
    rw [heq] at hnat
    have htop : (((BitVec.allOnes 64).toNat : ℕ) : ℤ) = 0xffffffffffffffff := rfl
    omega
  rw [loadConstant_eq _ hrest,if_neg hones,Value.felt_const,← Int.cast_natCast,hnat]

end Range

theorem mapM_toU64 {l : List ℤ} (hl : ∀ c ∈ l, 0 ≤ c ∧ c < FIELD_ORDER) :
    l.mapM toU64 = some (l.map (BitVec.ofInt 64)) := by
  induction l with
  | nil => rfl
  | cons c l ih =>
    rw [List.forall_mem_cons] at hl
    simp [List.mapM_cons,toU64_eq hl.1,ih hl.2]

theorem mapM_loadConstant {l : List ℤ} (hl : ∀ c ∈ l, 0 ≤ c ∧ c < FIELD_ORDER) {rest : List Char}
    (hrest : ∀ c ∈ rest.head?, c.isDigit = false) :
    (l.map (BitVec.ofInt 64)).mapM (loadConstant rest) = some (l.map fun c => (c : Felt)) := by
  induction l with
  | nil => rfl
  | cons c l ih =>
    rw [List.forall_mem_cons] at hl
    simp [List.mapM_cons,loadConstant_ofInt hl.1 hrest,ih hl.2]

theorem literalConstants_eq {l : Literal} (hcells : HasCells l)
    (hrange : ∀ c ∈ values l, 0 ≤ c ∧ c < FIELD_ORDER) :
    literalConstants l = some ((values l).map (BitVec.ofInt 64)) := by
  cases l with
  | number ty n =>
    rw [literalConstants,numberLiteral_eq hcells]
    rfl
  | cells ty l => exact mapM_toU64 hrange
  | bytesCast n =>
    rw [literalConstants,numberLiteral_eq (.inr rfl)]
    rfl

end FieldConstants
end Codegen
end OlaLang
