import OlaLang.Types

/-! The signature strings of functions, and which names and parameter types they tell apart. -/
namespace OlaLang
namespace Signatures

/-! ### Types of parameters -/

/-- The types a user type can be defined as. -/
inductive Elementary
  | bool | uint32 | field | address | hash
  deriving DecidableEq

/-- A struct carries its members, a user type its definition. -/
inductive ParamTy
  | bool | uint32 | field | enum | address | contract | hash | string | dynamicBytes
  | userType (ty : Elementary)
  | struct (fields : List ParamTy)
  | array (elem : ParamTy) (dims : List ArrayLength)

namespace ParamTy

def ofElementary : Elementary → ParamTy
  | .bool => .bool
  | .uint32 => .uint32
  | .field => .field
  | .address => .address
  | .hash => .hash

def isArray : ParamTy → Bool
  | .array _ _ => true
  | _ => false

def isUserType : ParamTy → Bool
  | .userType _ => true
  | _ => false

mutual
/-- The types `resolve_type` gives: an array has its dimensions in one list, and there are no arrays
of user types. -/
def isResolved : ParamTy → Bool
  | .struct fields => areResolved fields
  | .array elem dims => !dims.isEmpty && !elem.isArray && !elem.isUserType && elem.isResolved
  | _ => true

def areResolved : List ParamTy → Bool
  | [] => true
  | ty::rest => ty.isResolved && areResolved rest
end

mutual
/-- The type with contracts as addresses, enums as `u32` and user types as their definitions. -/
def erase : ParamTy → ParamTy
  | .contract => .address
  | .enum => .uint32
  | .userType ty => ofElementary ty
  | .struct fields => .struct (eraseAll fields)
  | .array elem dims => .array elem.erase dims
  | ty => ty

def eraseAll : List ParamTy → List ParamTy
  | [] => []
  | ty::rest => ty.erase::eraseAll rest
end

def Elementary.lower : Elementary → Ty
  | .bool => .bool
  | .uint32 => .uint32
  | .field => .field
  | .address => .address
  | .hash => .hash

mutual
/-- The type the decoder goes by. It reads a user type as its definition. -/
def lower : ParamTy → Ty
  | .bool => .bool
  | .uint32 => .uint32
  | .field => .field
  | .enum => .enum
  | .address => .address
  | .contract => .contract
  | .hash => .hash
  | .string => .string
  | .dynamicBytes => .dynamicBytes
  | .userType ty => Elementary.lower ty
  | .struct fields => .struct (lowerAll fields)
  | .array elem dims => .array elem.lower dims

def lowerAll : List ParamTy → List Ty
  | [] => []
  | ty::rest => ty.lower::lowerAll rest
end

end ParamTy

open ParamTy

/-! ### Signatures -/

section Strings

-- The equations of the strings need not read the literals.
attribute [local irreducible] String.toList

def elementaryString : Elementary → List Char
  | .bool => "bool".toList
  | .uint32 => "u32".toList
  | .field => "field".toList
  | .address => "address".toList
  | .hash => "hash".toList

def lengthString : ArrayLength → List Char
  | .fixed len => '['::(Nat.repr len).toList ++ [']']
  | .dynamic => ['[',']']

def lengthsString (dims : List ArrayLength) : List Char := dims.flatMap lengthString

mutual
/-- `to_signature_string`, where structs are tuples of their members. -/
def toSignatureString : ParamTy → List Char
  | .bool => "bool".toList
  | .hash => "hash".toList
  | .field => "field".toList
  | .contract | .address => "address".toList
  | .uint32 | .enum => "u32".toList
  | .string => "string".toList
  | .dynamicBytes => "fields".toList
  | .array ty len => toSignatureString ty ++ lengthsString len
  | .struct fields => '('::joined fields ++ [')']
  | .userType ty => elementaryString ty

/-- The strings of the types, with commas between them. -/
def joined : List ParamTy → List Char
  | [] => []
  | ty::rest => toSignatureString ty ++ joinedRest rest

def joinedRest : List ParamTy → List Char
  | [] => []
  | ty::rest => ','::toSignatureString ty ++ joinedRest rest
end

/-- `[$_]*[a-zA-Z][a-zA-Z$_0-9]*`. -/
def IsIdentifier (name : List Char) : Prop := ∃ start c rest, name = start ++ c::rest ∧
  (∀ d ∈ start, d = '$' ∨ d = '_') ∧ c.isAlpha = true ∧
  ∀ d ∈ rest, d.isAlphanum = true ∨ d = '$' ∨ d = '_'

/-- A function with resolved parameters. -/
structure Function where
  name : List Char
  params : List ParamTy
  identifier : IsIdentifier name
  resolved : areResolved params = true

def Function.signature (f : Function) : List Char := f.name ++ '('::joined f.params ++ [')']

/-! ### Erased types have the same string -/

theorem toSignatureString_ofElementary (ty : Elementary) :
    toSignatureString (ofElementary ty) = elementaryString ty := by
  cases ty <;> simp [ofElementary,toSignatureString,elementaryString]

mutual
theorem toSignatureString_erase (ty : ParamTy) :
    toSignatureString ty.erase = toSignatureString ty := by
  cases ty with
  | userType ty => rw [erase,toSignatureString_ofElementary,toSignatureString]
  | struct fields => rw [erase,toSignatureString,toSignatureString,joined_erase fields]
  | array elem dims => rw [erase,toSignatureString,toSignatureString,toSignatureString_erase elem]
  | _ => simp [erase,toSignatureString]

theorem joined_erase (tys : List ParamTy) : joined (eraseAll tys) = joined tys := by
  cases tys with
  | nil => rfl
  | cons ty rest =>
    rw [eraseAll,joined,joined,toSignatureString_erase ty,joinedRest_erase rest]

theorem joinedRest_erase (tys : List ParamTy) : joinedRest (eraseAll tys) = joinedRest tys := by
  cases tys with
  | nil => rfl
  | cons ty rest =>
    rw [eraseAll,joinedRest,joinedRest,toSignatureString_erase ty,joinedRest_erase rest]
end

end Strings

/-! ### Reading a string back -/

/-- What follows a type in a list. -/
def Ends (r : List Char) : Prop := ∀ c, r.head? = some c → c = ',' ∨ c = ')'

/-- What follows a word. -/
def Breaks (r : List Char) : Prop := ∀ c, r.head? = some c → c.isAlphanum = false

theorem Ends.breaks {r : List Char} (h : Ends r) : Breaks r := by
  intro c hc
  rcases h c hc with rfl | rfl <;> rfl

/-- Two words are the same, when they stand before what is no part of a word. -/
theorem word_split {p : Char → Bool} {w w' r r' : List Char} (hw : ∀ c ∈ w, p c = true)
    (hw' : ∀ c ∈ w', p c = true) (hr : ∀ c, r.head? = some c → p c = false)
    (hr' : ∀ c, r'.head? = some c → p c = false) (h : w ++ r = w' ++ r') : w = w' ∧ r = r' := by
  have hstop : ∀ {r : List Char}, (∀ c, r.head? = some c → p c = false) → r.takeWhile p = [] := by
    intro r hr
    cases r with
    | nil => rfl
    | cons c r => simp [hr c rfl]
  have htake := congrArg (List.takeWhile p) h
  rw [List.takeWhile_append_of_pos hw,List.takeWhile_append_of_pos hw',hstop hr,hstop hr',
    List.append_nil,List.append_nil] at htake
  subst htake
  exact ⟨rfl,List.append_cancel_left h⟩

theorem repr_split {m n : ℕ} {r r' : List Char} (hr : r.head? = some ']')
    (hr' : r'.head? = some ']') (h : (Nat.repr m).toList ++ r = (Nat.repr n).toList ++ r') :
    m = n ∧ r = r' := by
  have hdigits : ∀ k, ∀ c ∈ (Nat.repr k).toList, c.isDigit = true := by
    intro k c hc
    rw [Nat.toList_repr] at hc
    exact Nat.isDigit_of_mem_toDigits (by omega) (by omega) hc
  have hbracket : ∀ {r : List Char}, r.head? = some ']' →
      ∀ c, r.head? = some c → c.isDigit = false := by
    intro r hr c hc
    obtain rfl := Option.some.inj (hr.symm.trans hc)
    rfl
  obtain ⟨heq,hrest⟩ := word_split (hdigits m) (hdigits n) (hbracket hr) (hbracket hr') h
  rw [Nat.toList_repr,Nat.toList_repr] at heq
  have hnum := congrArg (fun ds => Nat.ofDigitChars 10 ds 0) heq
  simp only [Nat.ofDigitChars_ten_toDigits] at hnum
  exact ⟨hnum,hrest⟩

theorem repr_ne_bracket (n : ℕ) (r r' : List Char) : (Nat.repr n).toList ++ r ≠ ']'::r' := by
  intro h
  rw [Nat.toList_repr] at h
  obtain ⟨c,ds,hds⟩ := List.exists_cons_of_ne_nil (Nat.toDigits_ne_nil (n := n) (b := 10))
  have hc : c.isDigit = true :=
    Nat.isDigit_of_mem_toDigits (n := n) (b := 10) (by omega) (by omega) (by simp [hds])
  rw [hds,List.cons_append,List.cons.injEq] at h
  rw [h.1] at hc
  cases hc

theorem lengthString_split {d d' : ArrayLength} {r r' : List Char}
    (h : lengthString d ++ r = lengthString d' ++ r') : d = d' ∧ r = r' := by
  cases d with
  | fixed m =>
    cases d' with
    | fixed n =>
      simp only [lengthString,List.cons_append,List.append_assoc,List.cons.injEq,true_and] at h
      obtain ⟨rfl,hrest⟩ := repr_split rfl rfl h
      exact ⟨rfl,(List.cons.inj hrest).2⟩
    | dynamic =>
      simp only [lengthString,List.cons_append,List.append_assoc,List.cons.injEq,true_and] at h
      exact absurd h (repr_ne_bracket m _ _)
  | dynamic =>
    cases d' with
    | fixed n =>
      simp only [lengthString,List.cons_append,List.append_assoc,List.cons.injEq,true_and] at h
      exact absurd h.symm (repr_ne_bracket n _ _)
    | dynamic => exact ⟨rfl,by simpa [lengthString] using h⟩

theorem lengthString_head (d : ArrayLength) (r : List Char) :
    (lengthString d ++ r).head? = some '[' := by cases d <;> rfl

theorem not_ends_lengthString (d : ArrayLength) (r : List Char) : ¬ Ends (lengthString d ++ r) := by
  intro h
  rcases h _ (lengthString_head d r) with hc | hc <;> cases hc

theorem lengthsString_split {dims dims' : List ArrayLength} {r r' : List Char} (hr : Ends r)
    (hr' : Ends r') (h : lengthsString dims ++ r = lengthsString dims' ++ r') :
    dims = dims' ∧ r = r' := by
  induction dims generalizing dims' with
  | nil =>
    cases dims' with
    | nil => exact ⟨rfl,h⟩
    | cons d' dims' =>
      simp only [lengthsString,List.flatMap_nil,List.nil_append,List.flatMap_cons,
        List.append_assoc] at h
      exact absurd (h ▸ hr) (not_ends_lengthString d' _)
  | cons d dims ih =>
    cases dims' with
    | nil =>
      simp only [lengthsString,List.flatMap_nil,List.nil_append,List.flatMap_cons,
        List.append_assoc] at h
      exact absurd (h ▸ hr') (not_ends_lengthString d _)
    | cons d' dims' =>
      simp only [lengthsString,List.flatMap_cons,List.append_assoc] at h
      obtain ⟨rfl,hrest⟩ := lengthString_split h
      obtain ⟨rfl,rfl⟩ := ih hrest
      exact ⟨rfl,rfl⟩

theorem breaks_lengthsString (dims : List ArrayLength) {r : List Char} (hr : Ends r) :
    Breaks (lengthsString dims ++ r) := by
  cases dims with
  | nil => exact hr.breaks
  | cons d dims =>
    intro c hc
    rw [lengthsString,List.flatMap_cons,List.append_assoc,lengthString_head] at hc
    obtain rfl := Option.some.inj hc
    rfl

/-- The string of a type that is neither a struct nor an array. -/
def word : ParamTy → Option (List Char)
  | .struct _ | .array _ _ => none
  | ty => some (toSignatureString ty)

/-- The erased type a word stands for. -/
def ofWord (w : List Char) : ParamTy :=
  if w = "bool".toList then .bool
  else if w = "u32".toList then .uint32
  else if w = "field".toList then .field
  else if w = "address".toList then .address
  else if w = "hash".toList then .hash
  else if w = "string".toList then .string
  else .dynamicBytes

theorem toSignatureString_of_word {ty : ParamTy} {w : List Char} (h : word ty = some w) :
    toSignatureString ty = w := by
  cases ty <;> simp_all [word]

theorem erase_of_word {ty : ParamTy} {w : List Char} (h : word ty = some w) :
    ty.erase = ofWord w := by
  cases ty with
  | struct fields => simp [word] at h
  | array elem dims => simp [word] at h
  | userType ty =>
    obtain rfl := Option.some.inj h
    cases ty <;> rfl
  | _ =>
    obtain rfl := Option.some.inj h
    rfl

/-- Each word is a constant, so that both parts are computed. -/
theorem isAlphanum_of_word {ty : ParamTy} {w : List Char} (h : word ty = some w) :
    w ≠ [] ∧ ∀ c ∈ w, c.isAlphanum = true := by
  rw [← List.isEmpty_eq_false_iff,← List.all_eq_true]
  cases ty with
  | struct fields => simp [word] at h
  | array elem dims => simp [word] at h
  | userType ty =>
    obtain rfl := Option.some.inj h
    cases ty <;> exact ⟨rfl,rfl⟩
  | _ =>
    obtain rfl := Option.some.inj h
    exact ⟨rfl,rfl⟩

/-- A type opens with a word or a bracket. -/
theorem toSignatureString_head (ty : ParamTy) :
    ∃ c s, toSignatureString ty = c::s ∧ (c = '(' ∨ c.isAlphanum = true) := by
  have hword : ∀ {ty w}, word ty = some w →
      ∃ c s, toSignatureString ty = c::s ∧ (c = '(' ∨ c.isAlphanum = true) := by
    intro ty w h
    obtain ⟨hne,hw⟩ := isAlphanum_of_word h
    obtain ⟨c,s,rfl⟩ := List.exists_cons_of_ne_nil hne
    exact ⟨c,s,toSignatureString_of_word h,.inr (hw c (by simp))⟩
  match ty with
  | .array elem dims =>
    obtain ⟨c,s,hs,hc⟩ := toSignatureString_head elem
    exact ⟨c,s ++ lengthsString dims,by rw [toSignatureString,hs]; rfl,hc⟩
  | .struct fields => exact ⟨'(',_,by rw [toSignatureString]; rfl,.inl rfl⟩
  | .bool | .uint32 | .field | .enum | .address | .contract | .hash | .string | .dynamicBytes
  | .userType _ => exact hword rfl

/-- A type that is no array is a struct or a word. -/
theorem struct_or_word {ty : ParamTy} (h : ty.isArray = false) :
    (∃ fields, ty = .struct fields) ∨ ∃ w, word ty = some w := by
  cases ty with
  | struct fields => exact .inl ⟨fields,rfl⟩
  | array elem dims => cases h
  | _ => exact .inr ⟨_,rfl⟩

/-- The element type and the dimensions of a type, which has none unless it is an array. -/
def element : ParamTy → ParamTy × List ArrayLength
  | .array elem dims => (elem,dims)
  | ty => (ty,[])

theorem toSignatureString_element (ty : ParamTy) :
    toSignatureString ty = toSignatureString (element ty).1 ++ lengthsString (element ty).2 := by
  cases ty <;> simp [element,toSignatureString,lengthsString]

theorem isArray_element {ty : ParamTy} (h : ty.isResolved = true) :
    (element ty).1.isArray = false ∧ (element ty).1.isResolved = true := by
  cases ty <;> simp_all [element,isResolved,isArray]

theorem erase_eq_of_element {ty ty' : ParamTy} (h : ty.isResolved = true)
    (h' : ty'.isResolved = true) (helem : (element ty).1.erase = (element ty').1.erase)
    (hdims : (element ty).2 = (element ty').2) : ty.erase = ty'.erase := by
  have harray : ∀ elem dims, isResolved (.array elem dims) = true → dims ≠ [] := by
    intro elem dims h hnil
    simp [isResolved,hnil] at h
  cases ty with
  | array elem dims =>
    cases ty' with
    | array elem' dims' => simp_all [element,erase]
    | _ => exact absurd hdims (harray elem dims h)
  | _ =>
    cases ty' with
    | array elem' dims' => exact absurd hdims.symm (harray elem' dims' h')
    | _ => exact helem

theorem ends_joinedRest (tys : List ParamTy) (r : List Char) : Ends (joinedRest tys ++ ')'::r) := by
  intro c hc
  cases tys with
  | nil => exact .inr (Option.some.inj hc).symm
  | cons ty rest =>
    rw [joinedRest] at hc
    exact .inl (Option.some.inj hc).symm

theorem toSignatureString_ne_close (ty : ParamTy) (r r' : List Char) :
    toSignatureString ty ++ r ≠ ')'::r' := by
  intro h
  obtain ⟨c,s,hs,hc⟩ := toSignatureString_head ty
  rw [hs,List.cons_append,List.cons.injEq] at h
  rw [h.1] at hc
  rcases hc with hc | hc <;> cases hc

theorem word_ne_open {ty : ParamTy} {w : List Char} (h : word ty = some w) (r r' : List Char) :
    toSignatureString ty ++ r ≠ '('::r' := by
  intro hr
  obtain ⟨hne,hw⟩ := isAlphanum_of_word h
  obtain ⟨c,s,rfl⟩ := List.exists_cons_of_ne_nil hne
  rw [toSignatureString_of_word h,List.cons_append,List.cons.injEq] at hr
  have hc := hw c (by simp)
  rw [hr.1] at hc
  cases hc

theorem words_split {ty ty' : ParamTy} {w w' r r' : List Char} (hw : word ty = some w)
    (hw' : word ty' = some w') (hr : Breaks r) (hr' : Breaks r')
    (h : toSignatureString ty ++ r = toSignatureString ty' ++ r') :
    ty.erase = ty'.erase ∧ r = r' := by
  rw [toSignatureString_of_word hw,toSignatureString_of_word hw'] at h
  obtain ⟨rfl,hrest⟩ := word_split (isAlphanum_of_word hw).2 (isAlphanum_of_word hw').2 hr hr' h
  exact ⟨(erase_of_word hw).trans (erase_of_word hw').symm,hrest⟩

mutual
/-- Two types are the same up to erasure, when their strings stand before what ends a type. -/
theorem toSignatureString_split {ty ty' : ParamTy} {r r' : List Char} (hty : ty.isResolved = true)
    (hty' : ty'.isResolved = true) (hr : Ends r) (hr' : Ends r')
    (h : toSignatureString ty ++ r = toSignatureString ty' ++ r') :
    ty.erase = ty'.erase ∧ r = r' := by
  obtain ⟨harray,helem⟩ := isArray_element hty
  obtain ⟨harray',helem'⟩ := isArray_element hty'
  rw [toSignatureString_element ty,toSignatureString_element ty',List.append_assoc,
    List.append_assoc] at h
  obtain ⟨herase,hrest⟩ := element_split helem helem' harray harray'
    (breaks_lengthsString (element ty).2 hr) (breaks_lengthsString (element ty').2 hr') h
  obtain ⟨hdims,hrest⟩ := lengthsString_split hr hr' hrest
  exact ⟨erase_eq_of_element hty hty' herase hdims,hrest⟩
termination_by (sizeOf ty,1)
decreasing_by
  cases ty <;> simp [element,Prod.lex_def]
  omega

/-- Only types that are no arrays stand before dimensions. -/
theorem element_split {ty ty' : ParamTy} {r r' : List Char} (hty : ty.isResolved = true)
    (hty' : ty'.isResolved = true) (harray : ty.isArray = false) (harray' : ty'.isArray = false)
    (hr : Breaks r) (hr' : Breaks r')
    (h : toSignatureString ty ++ r = toSignatureString ty' ++ r') :
    ty.erase = ty'.erase ∧ r = r' := by
  rcases struct_or_word harray with ⟨fields,rfl⟩ | ⟨w,hw⟩
  · rcases struct_or_word harray' with ⟨fields',rfl⟩ | ⟨w',hw'⟩
    · simp only [toSignatureString,List.cons_append,List.append_assoc,List.nil_append,
        List.cons.injEq,true_and] at h
      obtain ⟨herase,hrest⟩ := joined_split hty hty' h
      exact ⟨by rw [erase,erase,herase],hrest⟩
    · exact absurd h.symm (word_ne_open hw' _ _)
  · rcases struct_or_word harray' with ⟨fields',rfl⟩ | ⟨w',hw'⟩
    · exact absurd h (word_ne_open hw _ _)
    · exact words_split hw hw' hr hr' h
termination_by (sizeOf ty,0)

theorem joined_split {tys tys' : List ParamTy} {r r' : List Char} (htys : areResolved tys = true)
    (htys' : areResolved tys' = true) (h : joined tys ++ ')'::r = joined tys' ++ ')'::r') :
    eraseAll tys = eraseAll tys' ∧ r = r' := by
  match tys, tys' with
  | [], [] => exact ⟨rfl,(List.cons.inj h).2⟩
  | [], ty'::rest' =>
    simp only [joined,List.nil_append,List.append_assoc] at h
    exact absurd h.symm (toSignatureString_ne_close ty' _ _)
  | ty::rest, [] =>
    simp only [joined,List.nil_append,List.append_assoc] at h
    exact absurd h (toSignatureString_ne_close ty _ _)
  | ty::rest, ty'::rest' =>
    simp only [areResolved,Bool.and_eq_true] at htys htys'
    simp only [joined,List.append_assoc] at h
    obtain ⟨hhead,hrest⟩ := toSignatureString_split htys.1 htys'.1 (ends_joinedRest rest r)
      (ends_joinedRest rest' r') h
    obtain ⟨htail,hrest⟩ := joinedRest_split htys.2 htys'.2 hrest
    exact ⟨by rw [eraseAll,eraseAll,hhead,htail],hrest⟩
termination_by (sizeOf tys,0)

theorem joinedRest_split {tys tys' : List ParamTy} {r r' : List Char}
    (htys : areResolved tys = true) (htys' : areResolved tys' = true)
    (h : joinedRest tys ++ ')'::r = joinedRest tys' ++ ')'::r') :
    eraseAll tys = eraseAll tys' ∧ r = r' := by
  match tys, tys' with
  | [], [] => exact ⟨rfl,(List.cons.inj h).2⟩
  | [], ty'::rest' => simp [joinedRest] at h
  | ty::rest, [] => simp [joinedRest] at h
  | ty::rest, ty'::rest' =>
    simp only [areResolved,Bool.and_eq_true] at htys htys'
    simp only [joinedRest,List.append_assoc,List.cons_append,List.cons.injEq,true_and] at h
    obtain ⟨hhead,hrest⟩ := toSignatureString_split htys.1 htys'.1 (ends_joinedRest rest r)
      (ends_joinedRest rest' r') h
    obtain ⟨htail,hrest⟩ := joinedRest_split htys.2 htys'.2 hrest
    exact ⟨by rw [eraseAll,eraseAll,hhead,htail],hrest⟩
termination_by (sizeOf tys,0)
end

/-- A name has no bracket. -/
theorem IsIdentifier.ne_open {name : List Char} (h : IsIdentifier name) :
    ∀ c ∈ name, (c ≠ '(' : Bool) = true := by
  obtain ⟨start,c,rest,rfl,hstart,hc,hrest⟩ := h
  intro d hd
  rw [decide_eq_true_eq]
  intro hopen
  subst hopen
  rcases List.mem_append.mp hd with hd | hd
  · rcases hstart _ hd with h | h <;> cases h
  · rcases List.mem_cons.mp hd with rfl | hd
    · cases hc
    · rcases hrest _ hd with h | h | h <;> cases h

theorem signature_eq_iff (f g : Function) : f.signature = g.signature ↔
    f.name = g.name ∧ eraseAll f.params = eraseAll g.params := by
  constructor
  · intro h
    rw [Function.signature,Function.signature] at h
    simp only [List.append_assoc,List.cons_append] at h
    obtain ⟨hname,hrest⟩ := word_split f.identifier.ne_open g.identifier.ne_open
      (by simp) (by simp) h
    exact ⟨hname,(joined_split f.resolved g.resolved (List.cons.inj hrest).2).1⟩
  · rintro ⟨hname,herase⟩
    rw [Function.signature,Function.signature,hname,← joined_erase f.params,herase,joined_erase]

end Signatures
end OlaLang
