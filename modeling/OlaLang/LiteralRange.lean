import OlaLang.ConstantEval
import OlaLang.StringLiteral

/-! The range checks of number, address, hash and fields literals and of folded constants, and the
literals on which they accept exactly what is representable. -/
namespace OlaLang
namespace LiteralRange

open ConstantEval (Diagnostic Folding foldOp fitsUint bits)
open StringLiteral (toDigit)

/-- The types of numbers, and those whose literals are lists of numbers. -/
inductive LiteralTy
  | uint (bits : ℕ) | field | address | hash | dynamicBytes
  | userType (name : String) (definition : LiteralTy)
  deriving DecidableEq

namespace LiteralTy

def isInteger : LiteralTy → Bool
  | .uint _ | .field => true
  | .userType _ ty => ty.isInteger
  | _ => false

def toString : LiteralTy → String
  | .uint n => s!"u{n}"
  | .field => "field"
  | .address => "address"
  | .hash => "hash"
  | .dynamicBytes => "fields"
  | .userType name _ => s!"usertype {name}"

/-- The numbers of a type: those of a cell where the type has several. -/
def Represents : LiteralTy → ℤ → Prop
  | .uint n, v => 0 ≤ v ∧ v < 2^n
  | .userType _ ty, v => ty.Represents v
  | _, v => 0 ≤ v ∧ v < FIELD_ORDER

end LiteralTy

/-- A literal is refused with a diagnostic, or the compiler panics. -/
inductive Failure
  | panic
  | diagnostic (d : Diagnostic)

def unwrap {α : Type} : Option α → Except Failure α
  | some a => .ok a
  | none => .error .panic

def refuse {α : Type} (message : String) : Except Failure α := .error (.diagnostic (.error message))

inductive Literal
  | number (ty : LiteralTy) (value : ℤ)
  | cells (ty : LiteralTy) (values : List ℤ)
  | bytesCast (value : ℤ)

/-! ### The literal resolvers -/

/-- `from_str_radix` of the unbounded integers. -/
def fromStrRadix (radix : ℕ) (text : List Char) : Option ℕ :=
  if text = [] then none
  else text.foldlM (fun n c => (toDigit c).bind fun v =>
    if v < radix then some (n*radix+v) else none) 0

/-- `u64::from_str_radix` at radix 16. -/
def u64FromHex (text : List Char) : Option ℕ := (fromStrRadix 16 text).filter (· < 2^64)

def trimEndMatches (suffix : List Char) (text : List Char) : List Char :=
  if suffix ≠ [] ∧ suffix <:+ text then
    trimEndMatches suffix (text.take (text.length-suffix.length))
  else text
  termination_by text.length
  decreasing_by
    rename_i h
    have hpos := List.length_pos_iff.mpr h.1
    have hle := h.2.length_le
    simp
    omega

def chunks (n : ℕ) (text : List Char) : List (List Char) :=
  if text = [] ∨ n = 0 then [] else text.take n::chunks n (text.drop n)
  termination_by text.length
  decreasing_by
    rename_i h
    have hpos := List.length_pos_iff.mpr (not_or.mp h).1
    simp
    omega

/-- The loop over the chunks of a literal. -/
def readCells (message : ℕ → String) : List (List Char) → Except Failure (List ℤ)
  | [] => .ok []
  | chunk::rest => do
    let cell ← unwrap (u64FromHex chunk)
    if cell > FIELD_ORDER then refuse (message cell)
    else do
      let cells ← readCells message rest
      pure ((cell : ℤ)::cells)

/-- The literals of four cells, whose texts end in `name`. -/
def wordLiteral (name : String) (ty : LiteralTy) (text : List Char) : Except Failure Literal :=
  let text := trimEndMatches name.toList text
  if text.all (· ≠ '_') ∧ text.length = 64 then do
    let cells ← readCells (fun _ => s!"{name} literal {String.ofList text} out of range")
      (chunks 16 text)
    pure (.cells ty cells)
  else refuse s!"{name} literal {String.ofList text} incorrect length of {text.length}"

def addressLiteral (address : List Char) : Except Failure Literal :=
  wordLiteral "address" .address address

def hashLiteral (hash : List Char) : Except Failure Literal := wordLiteral "hash" .hash hash

def fieldsLiteral (n : List Char) : Except Failure Literal := do
  let cells ← readCells (fun cell => s!"fields literal {cell} out of range")
    (chunks 16 (trimEndMatches "fields".toList n))
  pure (.cells .dynamicBytes cells)

/-- The literal of a number, at the type it is resolved to where there is one. -/
def bigintToExpression (n : ℤ) (resolveTo : Option LiteralTy) : Except Failure (LiteralTy × ℤ) :=
  match resolveTo with
  | some ty =>
    if ty.isInteger then .ok (ty,n) else refuse s!"expected '{ty.toString}', found integer"
  | none => if bits n > 256 then refuse s!"{n} is too large" else .ok (.uint 32,n)

def numberLiteral (integer : List Char) (resolveTo : Option LiteralTy) :
    Except Failure (LiteralTy × ℤ) := do
  let n ← unwrap (fromStrRadix 10 integer)
  bigintToExpression n resolveTo

def hexNumberLiteral (n : List Char) (resolveTo : Option LiteralTy) :
    Except Failure (LiteralTy × ℤ) := do
  let n ← unwrap (fromStrRadix 16 n)
  bigintToExpression n resolveTo

/-! ### The check of folded constants -/

def overflowCheck (result : ℤ) (ty : LiteralTy) : Except Failure (Option Diagnostic) :=
  if result < 0 then .ok (some (.error "negative value not allowed"))
  else match ty with
    | .uint n =>
      if bits result > n then
        .ok (some (.error s!"value {result} does not fit into type u{n}."))
      else .ok none
    | .field =>
      if result < 2^64 then
        if result > FIELD_ORDER then
          .ok (some (.error
            s!"value {result} exceeded the maximum range that field can represent."))
        else .ok none
      else .error .panic
    | _ => .ok none

/-- Resolved expressions, as far as they are folded. -/
inductive Constant
  | numberLiteral (ty : LiteralTy) (value : ℤ)
  | binary (op : BinaryOp) (ty : LiteralTy) (left right : Constant)
  | zeroExt (target : LiteralTy) (expr : Constant)
  | other (ty : LiteralTy)

namespace Constant

def ty : Constant → LiteralTy
  | .numberLiteral ty _ | .binary _ ty _ _ | .zeroExt ty _ | .other ty => ty

/-- The expressions whose folding is checked. -/
def isChecked : Constant → Bool
  | .numberLiteral _ _ | .binary _ _ _ _ => true
  | _ => false

end Constant

def evalConstantsInExpression : Constant → Folding
  | .binary op _ left right =>
    let l := evalConstantsInExpression left
    let r := evalConstantsInExpression right
    match l.literal, r.literal with
    | some m, some n =>
      let result := foldOp op m n
      { result with reported := l.reported ++ r.reported ++ result.reported }
    | _, _ => ⟨none,true,l.reported ++ r.reported⟩
  | .zeroExt _ expr =>
    let e := evalConstantsInExpression expr
    ⟨e.literal,true,e.reported⟩
  | .numberLiteral _ value => ⟨some value,true,[]⟩
  | .other _ => ⟨none,true,[]⟩

/-- What is reported, and whether the operands are checked on their own. -/
def checkTermForConstantOverflow (expr : Constant) : Except Failure (List Diagnostic × Bool) :=
  if expr.isChecked then
    let folding := evalConstantsInExpression expr
    match folding.literal, folding.proceed with
    | some result, _ => do
      let overflow ← overflowCheck result expr.ty
      pure (folding.reported ++ overflow.toList,false)
    | none, false => pure (folding.reported,false)
    | none, true => pure (folding.reported,true)
  else pure ([],true)

/-! ### The terms of `ConstantEval` -/

/-- Its integer types among the ones of literals. -/
def LiteralTy.ofTy : Ty → Option LiteralTy
  | .uint32 => some (.uint 32)
  | .field => some .field
  | .address => some .address
  | .hash => some .hash
  | .dynamicBytes => some .dynamicBytes
  | _ => none

/-- What is no number and no operation is not folded. -/
def Constant.ofTerm : ConstantEval.Term → Option Constant
  | .numberLiteral ty value => do
    let ty ← LiteralTy.ofTy ty
    some (.numberLiteral ty value)
  | .binary op ty left right => do
    let ty ← LiteralTy.ofTy ty
    let left ← ofTerm left
    let right ← ofTerm right
    some (.binary op ty left right)
  | .variable ty _ | .constantVariable ty _ | .bitwiseNot ty _ => do
    let ty ← LiteralTy.ofTy ty
    some (.other ty)

theorem overflowCheck_ofTy {ty : Ty} {ty' : LiteralTy} (h : LiteralTy.ofTy ty = some ty')
    (result : ℤ) :
    overflowCheck result ty' =
      (ConstantEval.overflowCheck result ty).mapError fun _ => Failure.panic := by
  have hmessage : s!"value {result} does not fit into type u{32}." =
      s!"value {result} does not fit into type u32." := by
    simp only [String.append_assoc]
    rfl
  cases ty with
  | uint32 =>
    cases h
    simp only [overflowCheck,ConstantEval.overflowCheck,hmessage]
    split_ifs <;> rfl
  | field =>
    cases h
    simp only [overflowCheck,ConstantEval.overflowCheck]
    split_ifs <;> rfl
  | address | hash | dynamicBytes =>
    cases h
    simp only [overflowCheck,ConstantEval.overflowCheck]
    split_ifs <;> rfl
  | _ => cases h

theorem evalConstantsInExpression_ofTerm {t : ConstantEval.Term} {e : Constant}
    (h : Constant.ofTerm t = some e) :
    evalConstantsInExpression e = ConstantEval.evalConstantsInExpression t := by
  induction t generalizing e with
  | numberLiteral ty value =>
    obtain ⟨ty',_,h⟩ := Option.bind_eq_some_iff.mp h
    cases h
    rfl
  | binary op ty left right ihl ihr =>
    obtain ⟨ty',_,h⟩ := Option.bind_eq_some_iff.mp h
    obtain ⟨l,hl,h⟩ := Option.bind_eq_some_iff.mp h
    obtain ⟨r,hr,h⟩ := Option.bind_eq_some_iff.mp h
    cases h
    rw [evalConstantsInExpression,ihl hl,ihr hr]
    rfl
  | _ =>
    obtain ⟨ty',_,h⟩ := Option.bind_eq_some_iff.mp h
    cases h
    rfl

/-- Both analyses check a term in the same way. -/
theorem checkTermForConstantOverflow_ofTerm {t : ConstantEval.Term} {e : Constant}
    (h : Constant.ofTerm t = some e) :
    checkTermForConstantOverflow e =
      (ConstantEval.checkTermForConstantOverflow t).mapError fun _ => Failure.panic := by
  have heval := evalConstantsInExpression_ofTerm h
  have hty : LiteralTy.ofTy t.ty = some e.ty := by
    cases t with
    | binary op ty left right =>
      obtain ⟨ty',hty,h⟩ := Option.bind_eq_some_iff.mp h
      obtain ⟨l,_,h⟩ := Option.bind_eq_some_iff.mp h
      obtain ⟨r,_,h⟩ := Option.bind_eq_some_iff.mp h
      cases h
      exact hty
    | _ =>
      obtain ⟨ty',hty,h⟩ := Option.bind_eq_some_iff.mp h
      cases h
      exact hty
  have hfolded : e.isChecked = true → checkTermForConstantOverflow e =
      (match (ConstantEval.evalConstantsInExpression t).literal,
          (ConstantEval.evalConstantsInExpression t).proceed with
        | some result, _ => do
          let overflow ← ConstantEval.overflowCheck result t.ty
          pure ((ConstantEval.evalConstantsInExpression t).reported ++ overflow.toList,false)
        | none, false => pure ((ConstantEval.evalConstantsInExpression t).reported,false)
        | none, true => pure ((ConstantEval.evalConstantsInExpression t).reported,true) :
        Except Fault (List Diagnostic × Bool)).mapError fun _ => Failure.panic := by
    intro hc
    rw [checkTermForConstantOverflow,if_pos hc,heval]
    cases hliteral : (ConstantEval.evalConstantsInExpression t).literal with
    | some result =>
      simp only [hliteral,overflowCheck_ofTy hty]
      cases ConstantEval.overflowCheck result t.ty <;> rfl
    | none =>
      cases hproceed : (ConstantEval.evalConstantsInExpression t).proceed <;>
        simp only [hliteral,hproceed] <;> rfl
  cases t with
  | numberLiteral ty value =>
    obtain ⟨ty',_,h⟩ := Option.bind_eq_some_iff.mp h
    cases h
    exact hfolded rfl
  | binary op ty left right =>
    obtain ⟨ty',_,h⟩ := Option.bind_eq_some_iff.mp h
    obtain ⟨l,_,h⟩ := Option.bind_eq_some_iff.mp h
    obtain ⟨r,_,h⟩ := Option.bind_eq_some_iff.mp h
    cases h
    exact hfolded rfl
  | _ =>
    obtain ⟨ty',_,h⟩ := Option.bind_eq_some_iff.mp h
    cases h
    rfl

/-- An error among the diagnostics refuses the program. -/
def accept (diagnostics : List Diagnostic) : Except Failure Unit :=
  match diagnostics.find? (·.level = .error) with
  | some d => .error (.diagnostic d)
  | none => .ok ()

def checkConstant (expr : Constant) : Except Failure Unit := do
  let (reported,_) ← checkTermForConstantOverflow expr
  accept reported

/-- A number literal as the initializer of a variable: it is resolved, then checked. -/
def initializer (literal : Except Failure (LiteralTy × ℤ)) : Except Failure Literal := do
  let (ty,n) ← literal
  checkConstant (.numberLiteral ty n)
  pure (.number ty n)

/-! ### The implicit cast -/

/-- The arms of `cast_types` that a number literal comes to. -/
def castTypes (value : ℤ) (source target : LiteralTy) : Except Failure Literal :=
  match source, target with
  | .field, .dynamicBytes => .ok (.bytesCast value)
  | _, _ => refuse s!"conversion from {source.toString} to {target.toString} not possible"

/-- `cast` of a number literal of the type `source`. -/
def cast (value : ℤ) (source target : LiteralTy) : Except Failure Literal :=
  if source = target then .ok (.number source value)
  else match target with
    | .uint toLen =>
      if bits value ≥ toLen then
        refuse s!"implicit conversion would truncate from '{source.toString}' to '{target.toString}'"
      else .ok (.number (.uint toLen) value)
    | .field =>
      if source ≠ .uint 32 then
        refuse s!"type {source.toString} cannot be converted to type '{target.toString}'"
      else .ok (.number .field value)
    | .address =>
      if source = .uint 32 then .ok (.cells .address [0,0,0,value]) else castTypes value source target
    | .hash =>
      if source = .uint 32 then .ok (.cells .hash [0,0,0,value]) else castTypes value source target
    | _ => castTypes value source target

/-! ### Literals of digits -/

/-- The digits of a literal, as the lexer gives them behind the prefix. -/
structure Digits (radix : ℕ) where
  text : List Char
  nonempty : text ≠ []
  digits : ∀ c ∈ text, ∃ v < radix, toDigit c = some v

/-- The number that digits denote. -/
def digitsValue (radix : ℕ) (text : List Char) : ℕ :=
  text.foldl (fun n c => n*radix+(toDigit c).getD 0) 0

/-- The numbers that the cells of a literal denote. -/
def cellValues (text : List Char) : List ℕ := (chunks 16 text).map (digitsValue 16)

section

variable {radix : ℕ} {text : List Char}

theorem foldlM_digits (h : ∀ c ∈ text, ∃ v < radix, toDigit c = some v) (n : ℕ) :
    text.foldlM (fun n c => (toDigit c).bind fun v =>
      if v < radix then some (n*radix+v) else none) n =
      some (text.foldl (fun n c => n*radix+(toDigit c).getD 0) n) := by
  induction text generalizing n with
  | nil => rfl
  | cons c text ih =>
    obtain ⟨v,hv,hc⟩ := h c (by simp)
    simp [hc,hv,ih fun d hd => h d (by simp [hd])]

/-- Digits are parsed. -/
theorem fromStrRadix_digits (hne : text ≠ []) (h : ∀ c ∈ text, ∃ v < radix, toDigit c = some v) :
    fromStrRadix radix text = some (digitsValue radix text) := by
  rw [fromStrRadix,if_neg hne,foldlM_digits h,digitsValue]

theorem foldl_digits_lt (h : ∀ c ∈ text, ∃ v < radix, toDigit c = some v) (n : ℕ) :
    text.foldl (fun n c => n*radix+(toDigit c).getD 0) n < (n+1)*radix^text.length := by
  induction text generalizing n with
  | nil => simp
  | cons c text ih =>
    obtain ⟨v,hv,hc⟩ := h c (by simp)
    have hrec := ih (fun d hd => h d (by simp [hd])) (n*radix+v)
    calc (c::text).foldl (fun n c => n*radix+(toDigit c).getD 0) n
      _ = text.foldl (fun n c => n*radix+(toDigit c).getD 0) (n*radix+v) := by simp [hc]
      _ < (n*radix+v+1)*radix^text.length := hrec
      _ ≤ ((n+1)*radix)*radix^text.length :=
        Nat.mul_le_mul_right _ (by rw [Nat.add_mul]; omega)
      _ = (n+1)*radix^(c::text).length := by rw [List.length_cons,Nat.pow_succ',Nat.mul_assoc]

/-- A chunk fits a machine word. -/
theorem u64FromHex_digits (hne : text ≠ []) (hlen : text.length ≤ 16)
    (h : ∀ c ∈ text, ∃ v < 16, toDigit c = some v) :
    u64FromHex text = some (digitsValue 16 text) := by
  have hlt : digitsValue 16 text < 2^64 := by
    calc digitsValue 16 text < (0+1)*16^text.length := foldl_digits_lt h 0
      _ ≤ 1*16^16 := Nat.mul_le_mul_left _ (Nat.pow_le_pow_right (by omega) hlen)
      _ = 2^64 := by norm_num
  simpa [u64FromHex,fromStrRadix_digits hne h] using hlt

theorem mem_chunks {n : ℕ} {chunk : List Char} (h : chunk ∈ chunks n text) :
    chunk ≠ [] ∧ chunk.length ≤ n ∧ ∀ c ∈ chunk, c ∈ text := by
  fun_induction chunks n text with
  | case1 => simp at h
  | case2 text hne ih =>
    obtain ⟨htext,hn⟩ := not_or.mp hne
    rcases List.mem_cons.mp h with rfl | h
    · exact ⟨by simp [htext,hn],by simp,fun c hc => List.mem_of_mem_take hc⟩
    · obtain ⟨hc,hlen,hmem⟩ := ih h
      exact ⟨hc,hlen,fun c hm => List.mem_of_mem_drop (hmem c hm)⟩

/-- Digits do not end in the name of their literal. -/
theorem trimEndMatches_digits {suffix : List Char} {c : Char} (hc : c ∈ suffix)
    (hnone : toDigit c = none) (h : ∀ c ∈ text, ∃ v < 16, toDigit c = some v) :
    trimEndMatches suffix (text++suffix) = text := by
  have hne : suffix ≠ [] := List.ne_nil_of_mem hc
  have hnot : ¬ suffix <:+ text := by
    intro hs
    obtain ⟨v,-,hv⟩ := h c (hs.subset hc)
    simp [hnone] at hv
  have htake : (text++suffix).take ((text++suffix).length-suffix.length) = text := by simp
  rw [trimEndMatches,if_pos ⟨hne,List.suffix_append _ _⟩,htake,trimEndMatches,
    if_neg fun hs => hnot hs.2]

end

/-! ### Exact checks -/

/-- The check accepts on `P` only, and does not panic. -/
def ExactOn {α : Type} (m : Except Failure α) (P : Prop) : Prop :=
  ((∃ a, m = .ok a) ↔ P) ∧ m ≠ .error .panic

/-- The cells are read where none exceeds the order of the field. -/
theorem readCells_cases (message : ℕ → String) (cs : List (List Char))
    (h : ∀ chunk ∈ cs, u64FromHex chunk = some (digitsValue 16 chunk)) :
    (readCells message cs = .ok (cs.map fun chunk => (digitsValue 16 chunk : ℤ)) ∧
        ∀ chunk ∈ cs, digitsValue 16 chunk ≤ FIELD_ORDER) ∨
      ∃ d, readCells message cs = .error (.diagnostic d) ∧
        ∃ chunk ∈ cs, FIELD_ORDER < digitsValue 16 chunk := by
  induction cs with
  | nil => exact Or.inl ⟨rfl,by simp⟩
  | cons chunk cs ih =>
    have hchunk := h chunk (by simp)
    by_cases hlt : FIELD_ORDER < digitsValue 16 chunk
    · right
      refine ⟨.error (message (digitsValue 16 chunk)),?_,chunk,by simp,hlt⟩
      simp [readCells,hchunk,unwrap,hlt,refuse,bind,Except.bind]
    · rcases ih fun c hc => h c (by simp [hc]) with ⟨hok,hle⟩ | ⟨d,herr,c,hc,hd⟩
      · left
        refine ⟨?_,?_⟩
        · simp [readCells,hchunk,unwrap,hlt,hok,bind,Except.bind,pure,Except.pure]
        · intro c hc
          rcases List.mem_cons.mp hc with rfl | hc
          · exact not_lt.mp hlt
          · exact hle c hc
      · right
        refine ⟨d,?_,c,by simp [hc],hd⟩
        simp [readCells,hchunk,unwrap,hlt,herr,bind,Except.bind]

/-- The cells on which the loop over the chunks is exact: the order itself is no element of the field,
and a greater number refuses the literal anyway. -/
def CellsFit (values : List ℕ) : Prop := (∃ v ∈ values, FIELD_ORDER < v) ∨ FIELD_ORDER ∉ values

theorem exactOn_cells {message : ℕ → String} {text : List Char} {ty : LiteralTy}
    (h : ∀ c ∈ text, ∃ v < 16, toDigit c = some v) :
    ExactOn (do
      let cells ← readCells message (chunks 16 text)
      pure (Literal.cells ty cells)) (∀ v ∈ cellValues text, v < FIELD_ORDER) ↔
      CellsFit (cellValues text) := by
  have hchunks : ∀ chunk ∈ chunks 16 text, u64FromHex chunk = some (digitsValue 16 chunk) := by
    intro chunk hc
    obtain ⟨hne,hlen,hmem⟩ := mem_chunks hc
    exact u64FromHex_digits hne hlen fun c hc => h c (hmem c hc)
  rcases readCells_cases message _ hchunks with ⟨hok,hle⟩ | ⟨d,herr,chunk,hc,hlt⟩
  · have hall : ∀ v ∈ cellValues text, v ≤ FIELD_ORDER := by simpa [cellValues] using hle
    have hfit : CellsFit (cellValues text) ↔ ∀ v ∈ cellValues text, v < FIELD_ORDER := by
      constructor
      · rintro (⟨w,hw,hlt⟩ | hne) v hv
        · exact absurd (hall w hw) (not_le.mpr hlt)
        · exact lt_of_le_of_ne (hall v hv) fun he => hne (he ▸ hv)
      · exact fun hlt => Or.inr fun hm => absurd (hlt _ hm) (lt_irrefl _)
    simp [ExactOn,hok,hfit,pure,Except.pure,bind,Except.bind]
  · have hbig : ∃ v ∈ cellValues text, FIELD_ORDER < v := ⟨_,List.mem_map_of_mem hc,hlt⟩
    have hnot : ¬ ∀ v ∈ cellValues text, v < FIELD_ORDER := by
      obtain ⟨v,hv,hlt⟩ := hbig
      exact fun hall => absurd (hall v hv) (by omega)
    simp only [ExactOn,herr,CellsFit,hbig,hnot,true_or,iff_true,iff_false]
    simp [bind,Except.bind]

theorem exactOn_wordLiteral {name : String} {ty : LiteralTy} (ds : Digits 16)
    (hlen : ds.text.length = 64) {c : Char} (hc : c ∈ name.toList) (hnone : toDigit c = none) :
    ExactOn (wordLiteral name ty (ds.text++name.toList)) (∀ v ∈ cellValues ds.text, v < FIELD_ORDER) ↔
      CellsFit (cellValues ds.text) := by
  have hall : ds.text.all (· ≠ '_') ∧ ds.text.length = 64 := by
    refine ⟨List.all_eq_true.mpr fun d hd => ?_,hlen⟩
    obtain ⟨v,-,hv⟩ := ds.digits d hd
    have hne : d ≠ '_' := by
      rintro rfl
      simp [toDigit] at hv
    simpa using hne
  rw [wordLiteral]
  simp only [trimEndMatches_digits hc hnone ds.digits,if_pos hall]
  exact exactOn_cells ds.digits

theorem exactOn_fieldsLiteral (ds : Digits 16) :
    ExactOn (fieldsLiteral (ds.text++"fields".toList)) (∀ v ∈ cellValues ds.text, v < FIELD_ORDER) ↔
      CellsFit (cellValues ds.text) := by
  have htrim : trimEndMatches "fields".toList (ds.text++"fields".toList) = ds.text :=
    trimEndMatches_digits (c := 's') (by decide) (by decide) ds.digits
  rw [fieldsLiteral,htrim]
  exact exactOn_cells ds.digits

/-! ### Numbers -/

section

variable {v : ℤ} {ty : LiteralTy}

theorem bits_le_iff {n : ℕ} (hv : 0 ≤ v) : bits v ≤ n ↔ v < 2^n := by
  rw [bits,Nat.size_le]
  have hcast : ((v.natAbs : ℕ) : ℤ) = v := Int.natAbs_of_nonneg hv
  constructor
  · intro h
    rw [← hcast]
    exact_mod_cast h
  · intro h
    rw [← hcast] at h
    exact_mod_cast h

/-- The numbers at which `overflow_check` is exact. -/
def OverflowFits : LiteralTy → ℤ → Prop
  | .uint _, _ => True
  | .field, v => v < 2^64 ∧ v ≠ FIELD_ORDER
  | ty, v => v < 0 ∨ ty.Represents v

theorem not_represents_of_neg (hv : v < 0) : ¬ ty.Represents v := by
  intro hr
  induction ty with
  | userType name ty ih => exact ih hr
  | _ => exact absurd hr.1 (not_le.mpr hv)

theorem overflowFits_of_neg (hv : v < 0) : OverflowFits ty v := by
  have hp : (FIELD_ORDER : ℤ) = 0xFFFFFFFF00000001 := rfl
  cases ty with
  | uint n => trivial
  | field => exact ⟨by omega,by omega⟩
  | _ => exact Or.inl hv

/-- The three answers of `overflow_check`. -/
theorem overflowCheck_cases (v : ℤ) (ty : LiteralTy) :
    (overflowCheck v ty = .error .panic ∧ ¬ OverflowFits ty v) ∨
      (overflowCheck v ty = .ok none ∧ (ty.Represents v ↔ OverflowFits ty v)) ∨
      ∃ message, overflowCheck v ty = .ok (some (.error message)) ∧ ¬ ty.Represents v ∧
        OverflowFits ty v := by
  have hp : (FIELD_ORDER : ℤ) = 0xFFFFFFFF00000001 := rfl
  by_cases h0 : v < 0
  · exact Or.inr (Or.inr ⟨_,if_pos h0,not_represents_of_neg h0,overflowFits_of_neg h0⟩)
  have hnn : 0 ≤ v := not_lt.mp h0
  unfold overflowCheck
  rw [if_neg h0]
  cases ty with
  | uint n =>
    by_cases hb : bits v > n
    · refine Or.inr (Or.inr ⟨_,if_pos hb,?_,trivial⟩)
      rintro ⟨-,hlt⟩
      exact absurd ((bits_le_iff hnn).mpr hlt) (not_le.mpr hb)
    · refine Or.inr (Or.inl ⟨if_neg hb,?_⟩)
      simpa [LiteralTy.Represents,OverflowFits,hnn] using (bits_le_iff hnn).mp (not_lt.mp hb)
  | field =>
    by_cases hw : v < 2^64
    · by_cases hf : v > FIELD_ORDER
      · refine Or.inr (Or.inr ⟨_,(if_pos hw).trans (if_pos hf),?_,hw,by omega⟩)
        rintro ⟨-,hlt⟩
        omega
      · refine Or.inr (Or.inl ⟨(if_pos hw).trans (if_neg hf),?_⟩)
        simp only [LiteralTy.Represents,OverflowFits]
        omega
    · exact Or.inl ⟨if_neg hw,fun h => hw h.1⟩
  | _ => exact Or.inr (Or.inl ⟨rfl,by simp [OverflowFits,h0]⟩)

end

/-! ### Folded constants -/

/-- The result of an operator on integers, where there is one. -/
def integerOp : BinaryOp → ℤ → ℤ → Option ℤ
  | .add, m, n => some (m+n)
  | .subtract, m, n => some (m-n)
  | .multiply, m, n => some (m*n)
  | .divide, m, n => if n = 0 then none else some (m.tdiv n)
  | .modulo, m, n => if n = 0 then none else some (m.tmod n)
  | .bitwiseAnd, m, n => some (m.land n)
  | .bitwiseOr, m, n => some (m.lor n)
  | .bitwiseXor, m, n => some (m.xor n)
  | .power, m, n => if n < 0 then none else some (m^n.toNat)
  | .shiftLeft, m, n => if n < 0 then none else some (m*2^n.toNat)
  | .shiftRight, m, n => if n < 0 then none else some (m/2^n.toNat)

/-- The number that a constant expression denotes. -/
def Constant.value : Constant → Option ℤ
  | .numberLiteral _ v => some v
  | .binary op _ left right => do
    let m ← left.value
    let n ← right.value
    integerOp op m n
  | .zeroExt _ expr => expr.value
  | .other _ => none

/-- The right operands that an operator is folded with. -/
def OpFolds : BinaryOp → ℤ → Prop
  | .power, n => n < 2^16
  | .shiftLeft, n | .shiftRight, n => n < 2^64
  | _, _ => True

/-- Exponents fit 16 bits, and shift distances a machine word. -/
def Constant.Folds : Constant → Prop
  | .binary op _ left right => left.Folds ∧ right.Folds ∧ ∀ n, right.value = some n → OpFolds op n
  | .zeroExt _ expr => expr.Folds
  | _ => True

section

variable {op : BinaryOp} {m n v : ℤ} {e : Constant}

theorem fitsUint_iff {width : ℕ} : fitsUint n width = true ↔ 0 ≤ n ∧ n < 2^width := by
  rw [fitsUint]
  by_cases hn : 0 ≤ n
  · simp [hn,bits_le_iff hn]
  · simp [hn]

/-- A folding without an error gives the number of the expression, one with an error gives none. -/
structure FoldsAs (folding : Folding) (value : Option ℤ) (folds : Prop) : Prop where
  sound : ∀ v, folding.literal = some v → value = some v
  complete : ∀ v, value = some v → folds →
    folding.literal = some v ∧ ∀ d ∈ folding.reported, d.level ≠ .error
  refused : ∀ v, value = some v → ¬ folds →
    folding.literal = none ∧ ∃ d ∈ folding.reported, d.level = .error

/-- The operators that check their right operand against a width. -/
theorem foldsAs_of_width {width : ℕ} {r : ℤ} {ds : List Diagnostic} {message : String}
    (hds : ∀ d ∈ ds, d.level ≠ .error) :
    FoldsAs (if fitsUint n width then ⟨some r,true,ds⟩ else ⟨none,false,[.error message]⟩)
      (if n < 0 then none else some r) (n < 2^width) := by
  have hf : fitsUint n width = true ↔ 0 ≤ n ∧ n < 2^width := fitsUint_iff
  by_cases h0 : n < 0
  · constructor <;> simp [h0,hf,not_le.mpr h0]
  · by_cases hlt : n < 2^width
    · constructor <;> simp [h0,hf,hlt,not_lt.mp h0]
      exact hds
    · constructor <;> simp [h0,hf,hlt,Diagnostic.error]

theorem foldOp_foldsAs (op : BinaryOp) (m n : ℤ) :
    FoldsAs (foldOp op m n) (integerOp op m n) (OpFolds op n) := by
  cases op with
  | power => exact foldsAs_of_width (by simp)
  | shiftLeft =>
    refine foldsAs_of_width fun d hd => ?_
    split_ifs at hd
    · obtain rfl : d = _ := by simpa using hd
      simp [Diagnostic.warning]
    · simp at hd
  | shiftRight => exact foldsAs_of_width (by simp)
  | divide => constructor <;> simp [foldOp,integerOp,OpFolds] <;> split_ifs <;> simp_all
  | modulo => constructor <;> simp [foldOp,integerOp,OpFolds] <;> split_ifs <;> simp_all
  | _ => constructor <;> simp [foldOp,integerOp,OpFolds]

/-- An operand that is folded is one that folds, and its folding reports no error. -/
theorem FoldsAs.of_literal {folding : Folding} {value : Option ℤ} {folds : Prop}
    (h : FoldsAs folding value folds) (hlit : folding.literal = some v) :
    value = some v ∧ folds ∧ ∀ d ∈ folding.reported, d.level ≠ .error := by
  have hv := h.sound v hlit
  have hfolds : folds := by
    by_contra hn
    simp [(h.refused v hv hn).1] at hlit
  exact ⟨hv,hfolds,(h.complete v hv hfolds).2⟩

/-- An operand that is not folded but has a value has reported an error. -/
theorem FoldsAs.of_none {folding : Folding} {value : Option ℤ} {folds : Prop}
    (h : FoldsAs folding value folds) (hlit : folding.literal = none) (hv : value = some v) :
    ¬ folds ∧ ∃ d ∈ folding.reported, d.level = .error := by
  have hfolds : ¬ folds := by
    intro hf
    simp [(h.complete v hv hf).1] at hlit
  exact ⟨hfolds,(h.refused v hv hfolds).2⟩

theorem value_binary {ty : LiteralTy} {l r : Constant}
    (h : (Constant.binary op ty l r).value = some v) :
    ∃ m n, l.value = some m ∧ r.value = some n ∧ integerOp op m n = some v := by
  simp only [Constant.value,Option.bind_eq_bind,Option.bind_eq_some_iff] at h
  obtain ⟨m,hm,n,hn,hv⟩ := h
  exact ⟨m,n,hm,hn,hv⟩

/-- The folding of an expression, from those of its operands. -/
theorem eval_foldsAs (e : Constant) : FoldsAs (evalConstantsInExpression e) e.value e.Folds := by
  induction e with
  | numberLiteral ty v =>
    constructor <;> simp [evalConstantsInExpression,Constant.value,Constant.Folds]
  | other ty => constructor <;> simp [evalConstantsInExpression,Constant.value]
  | zeroExt target e ih => exact ⟨ih.sound,ih.complete,ih.refused⟩
  | binary op ty l r ihl ihr =>
    cases hl : (evalConstantsInExpression l).literal with
    | none =>
      constructor
      · intro v hv
        simp [evalConstantsInExpression,hl] at hv
      · intro v hv hf
        obtain ⟨m,n,hm,-⟩ := value_binary hv
        exact absurd hf.1 (ihl.of_none hl hm).1
      · intro v hv _
        obtain ⟨m,n,hm,-⟩ := value_binary hv
        obtain ⟨-,d,hd,herr⟩ := ihl.of_none hl hm
        simp only [evalConstantsInExpression,hl]
        exact ⟨trivial,d,by simp [hd],herr⟩
    | some m =>
      obtain ⟨hm,hfl,hdl⟩ := ihl.of_literal hl
      cases hr : (evalConstantsInExpression r).literal with
      | none =>
        constructor
        · intro v hv
          simp [evalConstantsInExpression,hl,hr] at hv
        · intro v hv hf
          obtain ⟨m,n,-,hn,-⟩ := value_binary hv
          exact absurd hf.2.1 (ihr.of_none hr hn).1
        · intro v hv _
          obtain ⟨m,n,-,hn,-⟩ := value_binary hv
          obtain ⟨-,d,hd,herr⟩ := ihr.of_none hr hn
          simp only [evalConstantsInExpression,hl,hr]
          exact ⟨trivial,d,by simp [hd],herr⟩
      | some n =>
        obtain ⟨hn,hfr,hdr⟩ := ihr.of_literal hr
        have hop := foldOp_foldsAs op m n
        have hvalue : (Constant.binary op ty l r).value = integerOp op m n := by
          simp [Constant.value,hm,hn]
        have hfolds : (Constant.binary op ty l r).Folds ↔ OpFolds op n := by
          simp [Constant.Folds,hfl,hfr,hn]
        rw [hvalue,hfolds]
        simp only [evalConstantsInExpression,hl,hr]
        constructor
        · exact hop.sound
        · intro v hv hf
          obtain ⟨hlit,hd⟩ := hop.complete v hv hf
          refine ⟨hlit,fun d hmem => ?_⟩
          rcases List.mem_append.mp hmem with hmem | hmem
          · exact (List.mem_append.mp hmem).elim (hdl d) (hdr d)
          · exact hd d hmem
        · intro v hv hf
          obtain ⟨hlit,d,hd,herr⟩ := hop.refused v hv hf
          exact ⟨hlit,d,List.mem_append_right _ hd,herr⟩

theorem accept_eq_ok {ds : List Diagnostic} :
    accept ds = .ok () ↔ ∀ d ∈ ds, d.level ≠ .error := by
  cases h : ds.find? (·.level = .error) with
  | none => simpa [accept,h] using List.find?_eq_none.mp h
  | some d =>
    have hd : d.level = .error := by simpa using List.find?_some h
    simp only [accept,h,reduceCtorEq,false_iff]
    exact fun hall => hall d (List.mem_of_find?_eq_some h) hd

theorem accept_ne_panic (ds : List Diagnostic) : accept ds ≠ .error .panic := by
  unfold accept
  split <;> simp

/-- The numbers at which the check of a constant is exact. -/
def ConstantFits (e : Constant) : Prop :=
  ∀ v, e.value = some v →
    (e.Folds ∧ OverflowFits e.ty v) ∨ (¬ e.Folds ∧ ¬ e.ty.Represents v)

/-- The check of a constant, exact for the number it denotes. -/
def ConstantExact (e : Constant) : Prop :=
  (∀ v, e.value = some v → (checkConstant e = .ok () ↔ e.ty.Represents v)) ∧
    checkConstant e ≠ .error .panic

theorem checkConstant_of_literal (hc : e.isChecked) {folding : Folding}
    (hfold : evalConstantsInExpression e = folding) (hlit : folding.literal = some v) :
    checkConstant e = overflowCheck v e.ty >>= fun o => accept (folding.reported ++ o.toList) := by
  obtain ⟨literal,proceed,reported⟩ := folding
  obtain rfl : literal = some v := hlit
  simp only [checkConstant,checkTermForConstantOverflow,if_pos hc,hfold]
  cases overflowCheck v e.ty <;> rfl

theorem checkConstant_of_none (hc : e.isChecked) {folding : Folding}
    (hfold : evalConstantsInExpression e = folding) (hlit : folding.literal = none) :
    checkConstant e = accept folding.reported := by
  obtain ⟨literal,proceed,reported⟩ := folding
  obtain rfl : literal = none := hlit
  simp only [checkConstant,checkTermForConstantOverflow,if_pos hc,hfold]
  cases proceed <;> rfl

theorem constantExact_iff (hc : e.isChecked) : ConstantExact e ↔ ConstantFits e := by
  have hfolds := eval_foldsAs e
  cases hlit : (evalConstantsInExpression e).literal with
  | none =>
    have hcheck := checkConstant_of_none hc rfl hlit
    have hno : ∀ v, e.value = some v → ¬ e.Folds ∧ checkConstant e ≠ .ok () := by
      intro v hv
      obtain ⟨hf,d,hd,herr⟩ := hfolds.of_none hlit hv
      rw [hcheck,Ne,accept_eq_ok]
      exact ⟨hf,fun hall => hall d hd herr⟩
    constructor
    · intro h v hv
      exact Or.inr ⟨(hno v hv).1,fun hr => (hno v hv).2 ((h.1 v hv).mpr hr)⟩
    · intro h
      refine ⟨fun v hv => iff_of_false (hno v hv).2 ?_,hcheck ▸ accept_ne_panic _⟩
      rcases h v hv with ⟨hf,-⟩ | ⟨-,hr⟩
      · exact absurd hf (hno v hv).1
      · exact hr
  | some v =>
    obtain ⟨hv,hf,hd⟩ := hfolds.of_literal hlit
    have hcheck := checkConstant_of_literal hc rfl hlit
    have hfits : ConstantFits e ↔ OverflowFits e.ty v := by simp [ConstantFits,hv,hf]
    have hexact : ConstantExact e ↔
        (checkConstant e = .ok () ↔ e.ty.Represents v) ∧ checkConstant e ≠ .error .panic := by
      simp [ConstantExact,hv]
    rw [hfits,hexact,hcheck]
    rcases overflowCheck_cases v e.ty with ⟨ho,hn⟩ | ⟨ho,hr⟩ | ⟨message,ho,hn,hfit⟩
    · simp [ho,hn,bind,Except.bind]
    · have hok : accept ((evalConstantsInExpression e).reported ++ []) = .ok () := by
        rw [accept_eq_ok]
        simpa using hd
      simp [ho,bind,Except.bind,← hr] at hok ⊢
      simp [hok]
    · have hno : accept ((evalConstantsInExpression e).reported ++ [.error message]) ≠ .ok () := by
        rw [Ne,accept_eq_ok]
        exact fun hall => hall (.error message) (by simp) rfl
      simpa [ho,hn,hfit,bind,Except.bind] using ⟨hno,accept_ne_panic _⟩

/-! ### Numbers and casts -/

/-- A number literal is checked at the type it is resolved to. -/
theorem initializer_exact {m : Except Failure (LiteralTy × ℤ)} {ty : LiteralTy} {n : ℤ}
    (hm : m = .ok (ty,n)) :
    ExactOn (initializer m) (ty.Represents n) ↔ OverflowFits ty n := by
  have hexact := constantExact_iff (e := .numberLiteral ty n) rfl
  have hfits : ConstantFits (.numberLiteral ty n) ↔ OverflowFits ty n := by
    simp [ConstantFits,Constant.value,Constant.Folds,Constant.ty]
  rw [← hfits,← hexact,hm]
  cases h : checkConstant (.numberLiteral ty n) <;>
    simp [ExactOn,ConstantExact,initializer,Constant.value,Constant.ty,h,bind,Except.bind,pure,
      Except.pure]

/-- The conversions of number literals that the language has. -/
inductive Convertible : LiteralTy → LiteralTy → Prop
  | toUint {source : LiteralTy} {n : ℕ} (h : source ≠ .uint n) : Convertible source (.uint n)
  | toField : Convertible (.uint 32) .field
  | toAddress : Convertible (.uint 32) .address
  | toHash : Convertible (.uint 32) .hash
  | toFields : Convertible .field .dynamicBytes

/-- The numbers at which the cast is exact: one bit is lost at the unsigned types, and nothing is
checked at the others. -/
def CastFits (value : ℤ) : LiteralTy → Prop
  | .uint n => (0 ≤ value ∧ bits value ≠ n) ∨ (value < 0 ∧ n ≤ bits value)
  | target => target.Represents value

theorem cast_exact {value : ℤ} {source target : LiteralTy} (h : Convertible source target) :
    ExactOn (cast value source target) (target.Represents value) ↔ CastFits value target := by
  cases h with
  | @toUint _ n hne =>
    have hrep : (LiteralTy.uint n).Represents value ↔ 0 ≤ value ∧ bits value ≤ n := by
      by_cases h0 : 0 ≤ value <;> simp [LiteralTy.Represents,h0,bits_le_iff]
    have hfit : CastFits value (.uint n) ↔
      (0 ≤ value ∧ bits value ≠ n) ∨ (value < 0 ∧ n ≤ bits value) := Iff.rfl
    rw [cast,if_neg hne,hrep,hfit]
    by_cases hb : n ≤ bits value
    · simp [ExactOn,hb,refuse]
      omega
    · simp [ExactOn,hb]
      omega
  | toField => simp [cast,ExactOn,CastFits]
  | toAddress => simp [cast,ExactOn,CastFits]
  | toHash => simp [cast,ExactOn,CastFits]
  | toFields => simp [cast,castTypes,ExactOn,CastFits]

end

/-! ### All checks -/

/-- The literals and constants of a program, with the check that decides about each. -/
inductive Check
  | address (ds : Digits 16) (h : ds.text.length = 64)
  | hash (ds : Digits 16) (h : ds.text.length = 64)
  | fields (ds : Digits 16)
  | number (ds : Digits 10) (resolveTo : Option {ty : LiteralTy // ty.isInteger})
  | hexNumber (ds : Digits 16) (resolveTo : Option {ty : LiteralTy // ty.isInteger})
  | overflow (result : ℤ) (ty : LiteralTy)
  | folded (e : Constant) (h : e.isChecked)
  | cast (value : ℤ) (source target : LiteralTy) (h : Convertible source target)

/-- The type a number literal is resolved to. -/
def resolvedTy (resolveTo : Option {ty : LiteralTy // ty.isInteger}) : LiteralTy :=
  (resolveTo.map Subtype.val).getD (.uint 32)

/-- The check accepts exactly what is representable, and does not panic. -/
def Check.Exact : Check → Prop
  | .address ds _ =>
    ExactOn (addressLiteral (ds.text++"address".toList)) (∀ v ∈ cellValues ds.text, v < FIELD_ORDER)
  | .hash ds _ =>
    ExactOn (hashLiteral (ds.text++"hash".toList)) (∀ v ∈ cellValues ds.text, v < FIELD_ORDER)
  | .fields ds =>
    ExactOn (fieldsLiteral (ds.text++"fields".toList)) (∀ v ∈ cellValues ds.text, v < FIELD_ORDER)
  | .number ds resolveTo =>
    ExactOn (initializer (numberLiteral ds.text (resolveTo.map Subtype.val)))
      ((resolvedTy resolveTo).Represents (digitsValue 10 ds.text))
  | .hexNumber ds resolveTo =>
    ExactOn (initializer (hexNumberLiteral ds.text (resolveTo.map Subtype.val)))
      ((resolvedTy resolveTo).Represents (digitsValue 16 ds.text))
  | .overflow result ty =>
    ExactOn (do
      let overflow ← overflowCheck result ty
      accept overflow.toList) (ty.Represents result)
  | .folded e _ => ConstantExact e
  | .cast value source target _ =>
    ExactOn (LiteralRange.cast value source target) (target.Represents value)

/-- Where it does. -/
def Check.Fits : Check → Prop
  | .address ds _ | .hash ds _ | .fields ds => CellsFit (cellValues ds.text)
  | .number ds resolveTo => OverflowFits (resolvedTy resolveTo) (digitsValue 10 ds.text)
  | .hexNumber ds resolveTo => OverflowFits (resolvedTy resolveTo) (digitsValue 16 ds.text)
  | .overflow result ty => OverflowFits ty result
  | .folded e _ => ConstantFits e
  | .cast value _ target _ => CastFits value target

theorem bigint_exact (n : ℕ) (resolveTo : Option {ty : LiteralTy // ty.isInteger}) :
    ExactOn (initializer (bigintToExpression n (resolveTo.map Subtype.val)))
      ((resolvedTy resolveTo).Represents n) ↔ OverflowFits (resolvedTy resolveTo) n := by
  cases resolveTo with
  | some ty => exact initializer_exact (if_pos ty.2)
  | none =>
    by_cases hb : bits (n : ℤ) > 256
    · have hm : bigintToExpression n none = refuse s!"{(n : ℤ)} is too large" := if_pos hb
      have hnot : ¬ (LiteralTy.uint 32).Represents n := by
        rintro ⟨h0,hlt⟩
        exact absurd ((bits_le_iff h0).mpr hlt) (by omega)
      simp only [Option.map_none,hm,resolvedTy,Option.getD_none]
      simp [ExactOn,OverflowFits,initializer,refuse,hnot,bind,Except.bind]
    · exact initializer_exact (if_neg hb)

theorem overflow_exact (result : ℤ) (ty : LiteralTy) :
    (Check.overflow result ty).Exact ↔ OverflowFits ty result := by
  rcases overflowCheck_cases result ty with ⟨ho,hn⟩ | ⟨ho,hr⟩ | ⟨message,ho,hn,hfit⟩
  · simp [Check.Exact,ExactOn,ho,hn,bind,Except.bind]
  · simp [Check.Exact,ExactOn,ho,hr,accept,bind,Except.bind]
  · simp [Check.Exact,ExactOn,ho,hn,hfit,accept,Diagnostic.error,bind,Except.bind]

/-- The checks are exact at the inputs that fit them. -/
theorem literalChecks_iff (c : Check) : c.Exact ↔ c.Fits := by
  cases c with
  | address ds h => exact exactOn_wordLiteral ds h (c := 'r') (by decide) (by decide)
  | hash ds h => exact exactOn_wordLiteral ds h (c := 's') (by decide) (by decide)
  | fields ds => exact exactOn_fieldsLiteral ds
  | number ds resolveTo =>
    rw [Check.Exact,numberLiteral,fromStrRadix_digits ds.nonempty ds.digits]
    exact bigint_exact _ resolveTo
  | hexNumber ds resolveTo =>
    rw [Check.Exact,hexNumberLiteral,fromStrRadix_digits ds.nonempty ds.digits]
    exact bigint_exact _ resolveTo
  | overflow result ty => exact overflow_exact result ty
  | folded e h => exact constantExact_iff h
  | cast value source target h => exact cast_exact h

/-- The order of the field is accepted as a field, `2^64` stops the compiler, and the cast to `u64`
refuses `2^63`. -/
theorem order_is_accepted :
    overflowCheck FIELD_ORDER .field = .ok none ∧ overflowCheck (2^64) .field = .error .panic ∧
    (∃ d, cast (2^63) (.uint 32) (.uint 64) = .error (.diagnostic d)) ∧
    ¬ ∀ c : Check, c.Exact := by
  refine ⟨rfl,rfl,⟨_,rfl⟩,fun h => ?_⟩
  have hfit := (overflow_exact FIELD_ORDER .field).mp (h _)
  exact hfit.2 rfl

end LiteralRange
end OlaLang
