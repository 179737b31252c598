import OlaLang.FieldConstants
import OlaLang.Parsing

/-! The places where the parser of the IR text may get lost: what it unwraps or asserts, the chains that
it follows, and what is behind an item of a list. From the fine ones it goes on. -/
namespace OlaLang
namespace Codegen
namespace IrParser

open Parsing
open FieldConstants (IsDecimal readDecimal parseSigned ConstantInt)

inductive Name
  | name (s : Text) | number (n : ℕ)
  deriving DecidableEq

/-- The types of the arena `0`, and the entries of the table. -/
inductive Ty
  | void | i1 | i8 | i16 | i32 | i64 | compound (id : ℕ)
  deriving DecidableEq

inductive CompoundType
  | pointer (inner : Ty) | array (inner : Ty) (numElements : ℕ)
  | function (ret : Ty) (params : List Ty) (isVarArg : Bool)
  | struct (elems : List Ty) (isPacked : Bool) | alias (ty : Ty) | metadata
  deriving DecidableEq

/-- What the parser changes and looks at later: the table of types, the named types, and the links
between the blocks of the function that is parsed, named by their labels. -/
structure State where
  types : List CompoundType
  namedTypes : List (Name × Ty)
  next : List (Name × Name)
  firstBlock : Option Name
  lastBlock : Option Name

/-- `Module::new`: the table begins with the type of metadata. -/
def State.new : State := ⟨[.metadata],[],[],none,none⟩

/-! ### Texts -/

def isHexDigit (c : Char) : Bool :=
  c.isDigit || ('a' ≤ c && c ≤ 'f') || ('A' ≤ c && c ≤ 'F')

def hexValue (c : Char) : ℕ :=
  if c.isDigit then c.toNat-48 else if c.toNat < 97 then c.toNat-55 else c.toNat-87

/-- `unescape`, with its `unwrap`s: nothing where one of them fails, and where the result is. -/
def unescape : Text → Option Text
  | [] => some []
  | c::rest =>
    if c ≠ '\x5c' then (unescape rest).map fun s => c::s
    else match rest with
      | [] => none
      | [b] => if b = '\x5c' then some ['\x5c'] else none
      | b::a::rest =>
        if b = '\x5c' then (unescape (a::rest)).map fun s => '\x5c'::s
        else if isHexDigit b && isHexDigit a then
          (unescape rest).map fun s => Char.ofNat (16*hexValue b+hexValue a)::s
        else none

/-- Every backslash has another one or two hexadecimal digits behind it. -/
inductive Escaped : Text → Prop
  | nil : Escaped []
  | char {c : Char} {rest : Text} : c ≠ '\x5c' → Escaped rest → Escaped (c::rest)
  | backslash {rest : Text} : Escaped rest → Escaped ( '\x5c' :: '\x5c' :: rest)
  | code {b a : Char} {rest : Text} : isHexDigit b = true → isHexDigit a = true → Escaped rest →
    Escaped ( '\x5c' :: b :: a :: rest)

def compoundOf (types : List CompoundType) : Ty → Option CompoundType
  | .compound id => types[id]?
  | _ => none

def aliasOf (types : List CompoundType) (ty : Ty) : Option Ty :=
  match compoundOf types ty with
  | some (.alias ty) => some ty
  | _ => none

/-- The element of a type that is no alias. -/
def elementIn (i : Option ℕ) : Option CompoundType → Option Ty
  | some (.pointer inner) => some inner
  | some (.array inner _) => some inner
  | some (.struct elems _) => i.bind fun j => elems[j]?
  | _ => none

/-- The type of the elements, behind the aliases of a type. Structs have elements only at an index. -/
inductive Element (types : List CompoundType) (i : Option ℕ) : Ty → Ty → Prop
  | link {a b c : Ty} : aliasOf types a = some b → Element types i b c → Element types i a c
  | pointer {a c : Ty} : compoundOf types a = some (.pointer c) → Element types i a c
  | array {a c : Ty} {n : ℕ} : compoundOf types a = some (.array c n) → Element types i a c
  | struct {a c : Ty} {elems : List Ty} {isPacked : Bool} :
    compoundOf types a = some (.struct elems isPacked) → (i.bind fun j => elems[j]?) = some c →
      Element types i a c

/-- The indices lead to a type, each of them to an element of the type before. -/
inductive Members (types : List CompoundType) : Ty → List (Option ℕ) → Prop
  | nil (ty : Ty) : Members types ty []
  | cons {i : Option ℕ} {path : List (Option ℕ)} {ty elem : Ty} : Element types i ty elem →
    Members types elem path → Members types ty (i::path)

/-! ### Places -/

/-- A text for a signed number of so many bits. -/
def FitsSigned (bits : ℕ) (num : Text) : Prop :=
  IsDecimal num ∧ -2^(bits-1) ≤ readDecimal num ∧ readDecimal num < 2^(bits-1)

instance (bits : ℕ) (num : Text) : Decidable (FitsSigned bits num) := by
  unfold FitsSigned
  infer_instance

/-- What is unwrapped or asserted, the chain of the blocks, and what is behind an item of a list. -/
inductive Place
  | escapes (s : Text)
  | number (bits : ℕ) (digits : Text)
  | constant (ty : Ty) (num : Text)
  | members (types : List CompoundType) (ty : Ty) (path : List (Option ℕ))
  | functionName (name : Name)
  | clauses (cleanup : Bool) (catches : ℕ)
  | sameType (a b : Ty)
  | blocks (links : List (Name × Name)) (first : Name)
  | behindItem (rest : Text)
  deriving DecidableEq

/-- The parser goes on from these places. -/
def Place.Fine : Place → Prop
  | .escapes s => Escaped s
  | .number bits digits => Nat.ofDigitChars 10 digits 0 < 2^bits
  | .constant ty num => ty = .i1 ∨ ty = .i8 ∧ FitsSigned 8 num ∨
    (ty = .i32 ∨ ty = .i64) ∧ FitsSigned 64 num
  | .members types ty path => Members types ty path
  | .functionName name => ∃ s, name = .name s
  | .clauses cleanup catches => cleanup = true ∨ catches ≠ 0
  | .sameType a b => a = b
  | .blocks links first => Ends (fun label => links.lookup label) first
  | .behindItem rest => (FieldConstants.spaces rest).head? = some ',' ∨
    (FieldConstants.spaces rest).head? = some ')'

/-! ### Which of them are fine can be computed -/

theorem escaped_iff (s : Text) : Escaped s ↔ (unescape s).isSome = true := by
  constructor
  · intro h
    induction h with
    | nil => rfl
    | char hc _ ih =>
      rw [unescape.eq_def]
      simpa [hc] using ih
    | @backslash rest _ ih =>
      cases rest with
      | nil => rfl
      | cons c rest =>
        rw [unescape.eq_def]
        simpa using ih
    | @code b a rest hb ha _ ih =>
      have hne : b ≠ '\x5c' := fun h => by simp [h,isHexDigit] at hb
      rw [unescape.eq_def]
      simpa [hne,hb,ha] using ih
  · fun_induction unescape s with
    | case1 => exact fun _ => .nil
    | case2 c rest hc ih => exact fun h => .char hc (ih (by simpa using h))
    | case3 => exact fun h => by cases h
    | case4 c hc =>
      intro _
      rw [not_not.mp hc]
      exact .backslash .nil
    | case5 => exact fun h => by cases h
    | case6 c hc a rest ih =>
      intro h
      rw [not_not.mp hc]
      exact .backslash (ih (by simpa using h))
    | case7 c hc b a rest hb hhex ih =>
      intro h
      obtain ⟨hb,ha⟩ := Bool.and_eq_true_iff.mp hhex
      rw [not_not.mp hc]
      exact .code hb ha (ih (by simpa using h))
    | case8 => exact fun h => by cases h

/-- The table has as many places for aliases as it has types. -/
theorem aliases_mem {types : List CompoundType} (a b : Ty) (h : aliasOf types a = some b) :
    a ∈ (Finset.range types.length).image Ty.compound := by
  cases a with
  | compound id =>
    refine Finset.mem_image_of_mem _ (Finset.mem_range.mpr ?_)
    by_contra hlen
    simp [aliasOf,compoundOf,List.getElem?_eq_none (Nat.not_lt.mp hlen)] at h
  | _ => simp [aliasOf,compoundOf] at h

theorem aliases_card (types : List CompoundType) :
    ((Finset.range types.length).image Ty.compound).card ≤ types.length :=
  Finset.card_image_le.trans_eq (Finset.card_range _)

/-- The element of a type, behind its aliases. -/
def elementOf (types : List CompoundType) (i : Option ℕ) (ty : Ty) : Option Ty :=
  (follow (aliasOf types) types.length ty).bind fun ty => elementIn i (compoundOf types ty)

theorem aliasOf_eq_none {types : List CompoundType} {ty : Ty}
    (h : ∀ a, compoundOf types ty ≠ some (.alias a)) : aliasOf types ty = none := by
  rw [aliasOf]
  split
  · rename_i a ha
    exact absurd ha (h a)
  · rfl

theorem element_iff {types : List CompoundType} {i : Option ℕ} {ty elem : Ty} :
    Element types i ty elem ↔ elementOf types i ty = some elem := by
  constructor
  · intro h
    obtain ⟨n,b,hb,hlast,helem⟩ : ∃ n b, along (aliasOf types) n ty = some b ∧
        aliasOf types b = none ∧ elementIn i (compoundOf types b) = some elem := by
      induction h with
      | link ha _ ih =>
        obtain ⟨n,b,hb,hlast,helem⟩ := ih
        refine ⟨n+1,b,?_,hlast,helem⟩
        rw [along,Function.iterate_succ_apply,Option.bind_some,ha]
        exact hb
      | pointer hp => exact ⟨0,_,rfl,aliasOf_eq_none (by simp [hp]),by rw [hp]; rfl⟩
      | array ha => exact ⟨0,_,rfl,aliasOf_eq_none (by simp [ha]),by rw [ha]; rfl⟩
      | struct hs hi => exact ⟨0,_,rfl,aliasOf_eq_none (by simp [hs]),by rw [hs]; exact hi⟩
    rw [elementOf,follow_of_along aliases_mem (aliases_card types) hb hlast,Option.bind_some,helem]
  · intro h
    obtain ⟨b,hb,helem⟩ := Option.bind_eq_some_iff.mp h
    obtain ⟨n,hn,_⟩ := follow_eq_some hb
    clear h hb
    induction n generalizing ty with
    | zero =>
      obtain rfl : ty = b := Option.some.inj hn
      cases hc : compoundOf types ty with
      | none =>
        rw [hc] at helem
        cases helem
      | some c =>
        rw [hc] at helem
        cases c with
        | pointer inner =>
          cases helem
          exact .pointer hc
        | array inner n =>
          cases helem
          exact .array hc
        | struct elems isPacked => exact .struct hc helem
        | _ => cases helem
    | succ n ih =>
      rw [along,Function.iterate_succ_apply,Option.bind_some] at hn
      cases ha : aliasOf types ty with
      | none =>
        rw [ha,iterate_none] at hn
        cases hn
      | some c =>
        rw [ha] at hn
        exact .link ha (ih hn)

/-- The type that the indices lead to. -/
def memberOf (types : List CompoundType) : Ty → List (Option ℕ) → Option Ty
  | ty, [] => some ty
  | ty, i::path => (elementOf types i ty).bind fun elem => memberOf types elem path

theorem members_iff {types : List CompoundType} {ty : Ty} {path : List (Option ℕ)} :
    Members types ty path ↔ (memberOf types ty path).isSome = true := by
  constructor
  · intro h
    induction h with
    | nil ty => rfl
    | cons helem _ ih =>
      rw [memberOf,element_iff.mp helem]
      exact ih
  · intro h
    induction path generalizing ty with
    | nil => exact .nil ty
    | cons i path ih =>
      rw [memberOf] at h
      cases helem : elementOf types i ty with
      | none =>
        rw [helem] at h
        cases h
      | some elem =>
        rw [helem] at h
        exact .cons (element_iff.mpr helem) (ih h)

theorem lookup_mem {links : List (Name × Name)} (a b : Name) (h : links.lookup a = some b) :
    a ∈ (links.map Prod.fst).toFinset := by
  rw [List.mem_toFinset]
  induction links with
  | nil => cases h
  | cons link links ih =>
    rw [List.lookup_cons] at h
    cases hlink : a == link.1 with
    | true => exact List.mem_map.mpr ⟨link,List.mem_cons_self,(eq_of_beq hlink).symm⟩
    | false =>
      rw [hlink] at h
      exact List.mem_cons_of_mem _ (ih h)

/-- Links that are followed more often than there are links lead in a circle. -/
theorem blocks_iff (links : List (Name × Name)) (first : Name) :
    Ends (fun label => links.lookup label) first ↔
      follow (fun label => links.lookup label) links.length first ≠ none :=
  ends_iff lookup_mem ((List.toFinset_card_le _).trans_eq (List.length_map Prod.fst))

instance : DecidablePred Place.Fine
  | .escapes s => decidable_of_iff _ (escaped_iff s).symm
  | .number bits digits => inferInstanceAs (Decidable (Nat.ofDigitChars 10 digits 0 < 2^bits))
  | .constant ty num => inferInstanceAs (Decidable (ty = .i1 ∨ ty = .i8 ∧ FitsSigned 8 num ∨
    (ty = .i32 ∨ ty = .i64) ∧ FitsSigned 64 num))
  | .members _ _ _ => decidable_of_iff _ members_iff.symm
  | .functionName (.name s) => .isTrue ⟨s,rfl⟩
  | .functionName (.number _) => .isFalse fun ⟨_,h⟩ => by cases h
  | .clauses cleanup catches => inferInstanceAs (Decidable (cleanup = true ∨ catches ≠ 0))
  | .sameType a b => inferInstanceAs (Decidable (a = b))
  | .blocks links first => decidable_of_iff _ (blocks_iff links first).symm
  | .behindItem rest => inferInstanceAs (Decidable ((FieldConstants.spaces rest).head? = some ',' ∨
    (FieldConstants.spaces rest).head? = some ')'))

instance : Places Place := ⟨Place.Fine,inferInstance⟩

end IrParser
end Codegen
end OlaLang
