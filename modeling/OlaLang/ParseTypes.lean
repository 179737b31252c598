import OlaLang.ParsePlaces
import Mathlib.Data.List.DropRight

/-! The parser of the IR text: blanks, names, and the types with the table they are kept in. -/
namespace OlaLang
namespace Codegen
namespace IrParser

open Parsing
open FieldConstants (isMultispace)

/-- The letters and digits of Unicode. -/
class Unicode where
  isAlphanumeric : Char → Bool

abbrev P (α : Type) := Parser Place State α

/-! ### Blanks, strings and names -/

variable {σ : Type}

def multispace0 : Parser Place σ Unit := do
  let _ ← takeWhile isMultispace
  pure ()

/-- A comment with blanks around it. -/
def comment : Parser Place σ Unit := do
  multispace0
  char ';'
  let _ ← takeUntil '\n'
  char '\n'
  multispace0

/-- `spaces`: comments, or blanks. -/
def spaces : Parser Place σ Unit :=
  orElse (do
      comment
      let _ ← many0 comment
      pure ())
    multispace0

/-- `preceded(spaces, p)`. -/
def spaced {α : Type} (p : Parser Place σ α) : Parser Place σ α := do
  spaces
  p

/-- `unwrap`. -/
def unwrap {α : Type} : Option α → Parser Place σ α
  | some a => pure a
  | none => fail .panic

def unwrapAt {α : Type} (place : Place) (a : Option α) : Parser Place σ α := visit place (unwrap a)

def stringLiteral : Parser Place σ Text := do
  char '\x22'
  let s ← cut do
    let s ← takeUntil '\x22'
    char '\x22'
    pure s
  unwrapAt (.escapes s) (unescape s)

def digit1 : Parser Place σ Text := takeWhile1 Char.isDigit

/-- `parse` of the unsigned types. -/
def parseUnsigned (bits : ℕ) (num : Text) : Option ℕ :=
  let n := Nat.ofDigitChars 10 num 0
  if n < 2^bits then some n else none

/-- The `unwrap` of it. -/
def parseNumber (bits : ℕ) (num : Text) : Parser Place σ ℕ :=
  unwrapAt (.number bits num) (parseUnsigned bits num)

def identifier [U : Unicode] : Parser Place σ Text :=
  takeWhile1 fun c => U.isAlphanumeric c || c = '.' || c = '_'

/-- `name::parse`. -/
def parseName [Unicode] : Parser Place σ Name :=
  spaced (alt [
    do
      let i ← digit1
      let n ← parseNumber 64 i
      pure (.number n),
    do
      let n ← identifier
      pure (.name n),
    do
      let s ← stringLiteral
      pure (.name s)])

/-- `preceded(spaces, preceded(char(c), name::parse))`. -/
def named [Unicode] (c : Char) : Parser Place σ Name := spaced do
  char c
  parseName

/-- The value of the first word that the text begins with. -/
def words {α : Type} (list : List (String × α)) : Parser Place σ α :=
  alt (list.map fun entry => do
    tag entry.1
    pure entry.2)

def anyTag (list : List String) : Parser Place σ Unit := words (list.map fun word => (word,()))

/-! ### The table of types -/

def newType (ty : CompoundType) (s : State) : Ty × State :=
  (.compound s.types.length,{ s with types := s.types ++ [ty] })

/-- The caches: pointers and arrays are in the table once. -/
def cached (ty : CompoundType) : P Ty := onState fun s =>
  match s.types.idxOf? ty with
  | some id => (.compound id,s)
  | none => newType ty s

def pointer (inner : Ty) : P Ty := cached (.pointer inner)

def array (inner : Ty) (numElements : ℕ) : P Ty := cached (.array inner numElements)

def function (ret : Ty) (params : List Ty) (isVarArg : Bool) : P Ty :=
  onState (newType (.function ret params isVarArg))

def anonymousStruct (elems : List Ty) (isPacked : Bool) : P Ty :=
  onState (newType (.struct elems isPacked))

def emptyNamed (name : Name) (s : State) : Ty × State :=
  match s.namedTypes.lookup name with
  | some ty => (ty,s)
  | none =>
    let (ty,s) := newType (.alias .void) s
    (ty,{ s with namedTypes := (name,ty)::s.namedTypes })

def emptyNamedType (name : Name) : P Ty := onState (emptyNamed name)

def setType (types : List CompoundType) (ty : Ty) (c : CompoundType) : List CompoundType :=
  match ty with
  | .compound id => types.set id c
  | _ => types

/-- A struct becomes the named type and leaves an empty one behind; every other type gets an alias. -/
def changeToNamedType (ty : Ty) (name : Name) : P Unit := onState fun s =>
  let (namedTy,s) := emptyNamed name s
  match compoundOf s.types ty with
  | some (.struct elems isPacked) =>
    let types := setType s.types ty (.struct [] false)
    ((),{ s with types := setType types namedTy (.struct elems isPacked) })
  | _ => ((),{ s with types := setType s.types namedTy (.alias ty) })

/-- The table of the types. -/
def typesTable : P (List CompoundType) := onState fun s => (s.types,s)

/-- `element` and `element_at`, which go along the aliases. -/
def elementWith (types : List CompoundType) (i : Option ℕ) (ty : Ty) :
    Parser Place σ (Option Ty) := do
  let ty ← endOf (aliasOf types) types.length ty
  pure (elementIn i (compoundOf types ty))

def element (types : List CompoundType) (ty : Ty) : Parser Place σ (Option Ty) :=
  elementWith types none ty

def elementAt (types : List CompoundType) (ty : Ty) (i : ℕ) : Parser Place σ (Option Ty) :=
  elementWith types (some i) ty

/-! ### The parser of types -/

section Types

variable [Unicode] (parse : Unit → P Ty)

def parseArray : P Ty := do
  let n ← spaced digit1
  spaced (char 'x')
  let ty ← parse ()
  spaced (char ']')
  let n ← parseNumber 32 n
  array ty n

def closeStruct (isPacked : Bool) : P Unit := spaced (tag (if isPacked then "\x7d>" else "\x7d"))

def parseStruct (isPacked : Bool) : P Ty :=
  ifOk (closeStruct isPacked) (fun _ => anonymousStruct [] isPacked) <|
  loop (fun elems => do
    let ty ← parse ()
    let elems := elems ++ [ty]
    ifOk (spaced (char ',')) (fun _ => pure (.inl elems)) do
      closeStruct isPacked
      let ty ← anonymousStruct elems isPacked
      pure (.inr ty)) []

def parseFuncType (ret : Ty) : P Ty :=
  ifOk (spaced (char ')')) (fun _ => function ret [] false) do
    let (params,isVarArg) ← loop (fun params =>
      ifOk (spaced (tag "...")) (fun _ => pure (.inr (params,true))) do
        let param ← parse ()
        let params := params ++ [param]
        ifOk (spaced (char ',')) (fun _ => pure (.inl params)) (pure (.inr (params,false)))) []
    spaced (char ')')
    function ret params isVarArg

/-- The stars and parameters behind a type. -/
def parseSuffixes (base : Ty) : P Ty :=
  loop (fun base =>
    ifOk (spaced (char '*')) (fun _ => do
      let base ← pointer base
      pure (.inl base)) <|
    ifOk (spaced (char '(')) (fun _ => do
      let base ← parseFuncType parse base
      pure (.inl base)) <|
    pure (.inr base)) base

/-- `types::parse`. The text `i64` gives the type of 32 bits. -/
def parseTypeBody (_ : Unit) : P Ty :=
  ifOk (spaced (char '[')) (fun _ => do
    let base ← parseArray parse
    parseSuffixes parse base) <|
  ifOk (spaced (char '\x7b')) (fun _ => do
    let base ← parseStruct parse false
    parseSuffixes parse base) <|
  ifOk (spaced (tag "<\x7b")) (fun _ => do
    let base ← parseStruct parse true
    parseSuffixes parse base) <|
  ifOk (spaced (tag "opaque")) (fun _ => anonymousStruct [] false) <|
  ifOk (spaced (tag "ptr")) (fun _ => pointer .i32) <|
  ifOk (named '%') (fun name => do
    let base ← emptyNamedType name
    parseSuffixes parse base) do
  let base ← spaced (words [("metadata",.compound 0),("void",.void),("i64",.i32),("i32",.i32),
    ("i16",.i16),("i8",.i8),("i1",.i1)])
  parseSuffixes parse base

def parseType : P Ty := fix parseTypeBody ()

end Types

/-! ### Blanks are skipped as in `FieldConstants` -/

section Spaces

/-- What is behind a comment and the blanks around it. -/
def behindComment (t : Text) : Option Text :=
  match t.dropWhile isMultispace with
  | [] => none
  | c::rest =>
    if c = ';' then (FieldConstants.afterNewline rest).map fun rest => rest.dropWhile isMultispace
    else none

/-- There is a line end just where the text behind it is found. -/
theorem afterNewline_cases (t : Text) :
    ('\n' ∉ t ∧ FieldConstants.afterNewline t = none) ∨
      '\n' ∈ t ∧ ∃ rest, t.dropWhile (· ≠ '\n') = '\n'::rest ∧
        FieldConstants.afterNewline t = some rest := by
  induction t with
  | nil => exact .inl ⟨List.not_mem_nil,rfl⟩
  | cons c t ih =>
    rw [FieldConstants.afterNewline]
    by_cases hc : c = '\n'
    · exact .inr ⟨by simp [hc],t,by simp [hc],if_pos hc⟩
    · rw [if_neg hc,List.dropWhile_cons_of_pos (by simpa using hc),List.mem_cons]
      rcases ih with ⟨hnot,hnone⟩ | ⟨hmem,hrest⟩
      · exact .inl ⟨fun h => h.elim (fun h => hc h.symm) hnot,hnone⟩
      · exact .inr ⟨.inr hmem,hrest⟩

theorem comment_eq : (comment : Parser Place σ Unit) = reading behindComment := by
  funext m s t
  have hblanks : comment m s t = (do
      char ';'
      let _ ← takeUntil '\n'
      char '\n'
      multispace0 : Parser Place σ Unit) m s (t.dropWhile isMultispace) := rfl
  rw [hblanks]
  cases ht : t.dropWhile isMultispace with
  | nil =>
    rw [reading_none (by rw [behindComment,ht])]
    rfl
  | cons c rest =>
    by_cases hc : c = ';'
    · have hsign : (char ';' : Parser Place σ Unit) m s (c::rest) = (.ok ((),rest),s) := by
        simp [char,ofText,hc]
      rcases afterNewline_cases rest with ⟨hnot,hnone⟩ | ⟨hmem,line,hdrop,hline⟩
      · have huntil : (takeUntil '\n' : Parser Place σ Text) m s rest = (.error .error,s) := by
          simp only [takeUntil,ofText,if_neg hnot]
        rw [reading_none (by simp [behindComment,ht,hc,hnone])]
        simp only [bind_run,hsign,huntil]
      · have huntil : (takeUntil '\n' : Parser Place σ Text) m s rest =
            (.ok (rest.takeWhile (· ≠ '\n'),'\n'::line),s) := by
          simp only [takeUntil,ofText,if_pos hmem,hdrop]
        have hbehind : behindComment t = some (line.dropWhile isMultispace) := by
          simp [behindComment,ht,hc,hline]
        rw [reading_some hbehind]
        simp only [bind_run,hsign,huntil]
        rfl
    · have hsign : (char ';' : Parser Place σ Unit) m s (c::rest) = (.error .error,s) := by
        simp [char,ofText,hc]
      rw [bind_run,hsign,reading_none (by simp [behindComment,ht,hc])]

theorem spaces_dropWhile (t : Text) :
    FieldConstants.spaces (t.dropWhile isMultispace) = FieldConstants.spaces t := by
  induction t with
  | nil => rfl
  | cons c t ih =>
    by_cases hc : isMultispace c = true
    · rw [List.dropWhile_cons_of_pos hc,ih,FieldConstants.spaces,if_pos hc]
    · rw [List.dropWhile_cons_of_neg hc]

theorem spaces_of_behindComment {t rest : Text} (h : behindComment t = some rest) :
    FieldConstants.spaces rest = FieldConstants.spaces t ∧ rest.length < t.length := by
  rw [behindComment] at h
  cases ht : t.dropWhile isMultispace with
  | nil =>
    rw [ht] at h
    cases h
  | cons c after =>
    rw [ht] at h
    by_cases hc : c = ';'
    · simp only [hc,if_true] at h
      obtain ⟨line,hline,rfl⟩ := Option.map_eq_some_iff.mp h
      refine ⟨?_,?_⟩
      · rw [spaces_dropWhile,← spaces_dropWhile t,ht,hc,FieldConstants.spaces_comment hline]
      · have hshort := FieldConstants.length_afterNewline hline
        have hlen := length_dropWhile isMultispace t
        have hlen' := length_dropWhile isMultispace line
        rw [ht,List.length_cons] at hlen
        omega
    · simp only [hc,if_false] at h
      cases h

theorem behindComment_blank {t rest : Text} (h : behindComment t = some rest) :
    rest.dropWhile isMultispace = rest := by
  rw [behindComment] at h
  split at h
  · cases h
  · split_ifs at h
    obtain ⟨line,_,rfl⟩ := Option.map_eq_some_iff.mp h
    exact List.dropWhile_idempotent isMultispace line

theorem spaces_of_not_behindComment {t : Text} (h : behindComment t = none) :
    FieldConstants.spaces t = t.dropWhile isMultispace := by
  rw [← spaces_dropWhile]
  rw [behindComment] at h
  cases ht : t.dropWhile isMultispace with
  | nil => rw [FieldConstants.spaces]
  | cons c after =>
    rw [ht] at h
    have hblank : isMultispace c = false := by
      simpa [ht] using List.head?_dropWhile_not isMultispace t
    by_cases hc : c = ';'
    · simp only [hc,if_true,Option.map_eq_none_iff] at h
      rw [hc,FieldConstants.spaces_open h]
    · exact FieldConstants.spaces_other hblank hc

theorem many0_comment (n : ℕ) (list : List Unit) (m : Mode) (s : Trace Place σ) {t : Text}
    (hn : t.length < n) (ht : t.dropWhile isMultispace = t) : ∃ list',
      turns (many0Turn comment) n list m s t = (.ok (list',FieldConstants.spaces t),s) := by
  rw [comment_eq]
  induction n generalizing list t with
  | zero => exact absurd hn (Nat.not_lt_zero _)
  | succ n ih =>
    rw [turns_succ,many0Turn_apply]
    cases hcomment : behindComment t with
    | none =>
      rw [reading_none hcomment,spaces_of_not_behindComment hcomment,ht]
      exact ⟨list,rfl⟩
    | some rest =>
      obtain ⟨hspaces,hlen⟩ := spaces_of_behindComment hcomment
      rw [reading_some hcomment,← hspaces]
      simp only [if_neg (Nat.ne_of_lt hlen)]
      exact ih _ (by omega) (behindComment_blank hcomment)

theorem spaces_run (m : Mode) (s : Trace Place σ) (t : Text) :
    (spaces : Parser Place σ Unit) m s t = (.ok ((),FieldConstants.spaces t),s) := by
  rw [spaces,orElse,branch,bind_run,comment_eq]
  cases hcomment : behindComment t with
  | none =>
    rw [reading_none hcomment,spaces_of_not_behindComment hcomment]
    rfl
  | some rest =>
    obtain ⟨list,hrun⟩ := many0_comment (rest.length+1+m.extra) [] m s (t := rest) (by omega)
      (behindComment_blank hcomment)
    have hmany : (many0 comment : Parser Place σ (List Unit)) m s rest =
        (.ok (list,FieldConstants.spaces rest),s) := hrun
    rw [reading_some hcomment,← comment_eq,← (spaces_of_behindComment hcomment).1]
    simp only [bind_run,hmany]
    rfl

/-- What is behind a character with blanks before it. -/
def behindSign (c : Char) (t : Text) : Option Text :=
  match FieldConstants.spaces t with
  | [] => none
  | b::rest => if b = c then some rest else none

theorem spaced_run {α : Type} (p : Parser Place σ α) (m : Mode) (s : Trace Place σ) (t : Text) :
    spaced p m s t = p m s (FieldConstants.spaces t) := by
  rw [spaced,bind_run,spaces_run]

theorem sign_eq (c : Char) : (spaced (char c) : Parser Place σ Unit) = reading (behindSign c) := by
  funext m s t
  rw [spaced_run]
  simp only [char,reading,ofText,behindSign]
  cases FieldConstants.spaces t with
  | nil => rfl
  | cons b rest =>
    by_cases hb : b = c
    · simp only [if_pos hb]
      rfl
    · simp only [if_neg hb]
      rfl

end Spaces

/-! ### It comes to an end -/

section Sound

variable {d : ℕ}

theorem Safe.multispace0 : Safe d (multispace0 : Parser Place σ Unit) :=
  (Sound.takeWhile isMultispace).bind (fun _ _ => Safe.ret ()) fun _ _ => Safe.ret ()

theorem Safe.comment : Safe d (comment : Parser Place σ Unit) :=
  Safe.multispace0.bind fun _ => ((Eats.char ';').bind fun _ => (Safe.takeUntil '\n').bind fun _ =>
    (Eats.char '\n').safe.bind fun _ => Safe.multispace0).safe

theorem Safe.spaces : Safe d (spaces : Parser Place σ Unit) :=
  Sound.orElse (Safe.comment.bind fun _ => (Safe.many0 Safe.comment).bind fun _ => Safe.ret ())
    Safe.multispace0

theorem Safe.spaced {α : Type} {p : Parser Place σ α} (hp : Safe d p) : Safe d (spaced p) :=
  Safe.spaces.bind fun _ => hp

theorem Eats.spaced {α : Type} {p : Parser Place σ α} (hp : Eats d p) : Eats d (spaced p) :=
  Safe.spaces.bind fun _ => hp

/-- A character with blanks before it. -/
theorem Eats.sign (c : Char) : Eats d (IrParser.spaced (char c) : Parser Place σ Unit) :=
  Eats.spaced (Eats.char c)

theorem length_behindSign {c : Char} {t rest : Text} (h : behindSign c t = some rest) :
    rest.length ≤ t.length := by
  have hrun : (IrParser.spaced (char c) : Parser Place Unit Unit) .watched ⟨(),[]⟩ t =
      (.ok ((),rest),⟨(),[]⟩) := by
    rw [sign_eq,reading_some h]
  exact ((Eats.sign (d := 0) c).shrinks hrun).1

/-- Items in parentheses, with commas between them. -/
theorem Safe.commaItems {α : Type} {item : Parser Place σ α} (hitem : Eats d item)
    (hblind : Blind item item) :
    Safe d (items Place.behindItem (IrParser.spaced (char ',')) (IrParser.spaced (char ')')) item) := by
  rw [sign_eq,sign_eq]
  refine Safe.items hitem hblind (fun _ _ => length_behindSign) (fun _ _ => length_behindSign)
    fun t => ?_
  have hsign : ∀ c, behindSign c t ≠ none ↔ (FieldConstants.spaces t).head? = some c := fun c => by
    rw [behindSign]
    cases FieldConstants.spaces t <;> simp
  rw [hsign,hsign]
  exact Iff.rfl

/-- What is unwrapped is there just where the place is fine. -/
theorem Safe.unwrapAt {α : Type} {place : Place} {a : Option α}
    (h : place.Fine ↔ a.isSome = true) : Safe d (unwrapAt place a : Parser Place σ α) := by
  cases a with
  | none =>
    exact Sound.visit (fun hfine => absurd (h.mp hfine) (by simp))
      (fun _ k s t => ⟨.panic,s,rfl,.panic⟩) (fun hrun => by cases hrun)
  | some a =>
    exact Sound.visit (fun _ => Safe.ret a) (fun hnot => absurd (h.mpr rfl) hnot)
      (Safe.ret (d := d) a).shrinks

theorem Safe.parseNumber (bits : ℕ) (num : Text) :
    Safe d (parseNumber bits num : Parser Place σ ℕ) := by
  refine Safe.unwrapAt ?_
  rw [parseUnsigned]
  by_cases hlt : Nat.ofDigitChars 10 num 0 < 2^bits
  · simp [Place.Fine,hlt]
  · simp [Place.Fine,hlt]

theorem Eats.stringLiteral : Eats d (stringLiteral : Parser Place σ Text) :=
  (Eats.char '\x22').bind fun _ => Safe.bind (Sound.cut ((Safe.takeUntil '\x22').bind fun s =>
    (Eats.char '\x22').safe.bind fun _ => Safe.ret s)) fun s => Safe.unwrapAt (escaped_iff s)

theorem Eats.digit1 : Eats d (digit1 : Parser Place σ Text) := Eats.takeWhile1 Char.isDigit

theorem Eats.identifier [Unicode] : Eats d (identifier : Parser Place σ Text) := Eats.takeWhile1 _

theorem Eats.parseName [Unicode] : Eats d (parseName : Parser Place σ Name) :=
  Eats.spaced <|
    .alt_cons (Eats.digit1.bind fun _ => (Safe.parseNumber _ _).bind fun _ => Safe.ret _) <|
    .alt_cons (Eats.identifier.bind fun _ => Safe.ret _) <|
    .alt_cons (Eats.stringLiteral.bind fun _ => Safe.ret _) .alt_nil

theorem Eats.named [Unicode] (c : Char) : Eats d (named c : Parser Place σ Name) :=
  Eats.spaced ((Eats.char c).bind fun _ => Eats.parseName.safe)

theorem Safe.words {α : Type} (list : List (String × α)) : Safe d (words list : Parser Place σ α) :=
  Sound.alt fun p hp => by
    obtain ⟨entry,_,rfl⟩ := List.mem_map.mp hp
    exact (Safe.tag entry.1).bind fun _ => Safe.ret entry.2

theorem Eats.words {α : Type} {list : List (String × α)} (h : ∀ entry ∈ list, entry.1.toList ≠ []) :
    Eats d (words list : Parser Place σ α) :=
  Sound.alt fun p hp => by
    obtain ⟨entry,hentry,rfl⟩ := List.mem_map.mp hp
    exact (Eats.tag (h entry hentry)).bind fun _ => Safe.ret entry.2

theorem Safe.cached (ty : CompoundType) : Safe d (cached ty) := Sound.onState _

/-- The element is found, there is none, or the aliases lead in a circle. -/
theorem elementWith_cases (types : List CompoundType) (i : Option ℕ) (ty : Ty) :
    (∃ elem, elementOf types i ty = some elem ∧
      (elementWith types i ty : Parser Place σ (Option Ty)) = pure (some elem)) ∨
    elementOf types i ty = none ∧
      ((elementWith types i ty : Parser Place σ (Option Ty)) = pure none ∨
        (elementWith types i ty : Parser Place σ (Option Ty)) = fail .endless) := by
  rw [elementWith,endOf,elementOf]
  cases follow (aliasOf types) types.length ty with
  | none => exact .inr ⟨rfl,.inr rfl⟩
  | some b =>
    rw [Option.bind_some]
    cases helem : elementIn i (compoundOf types b) with
    | none => exact .inr ⟨rfl,.inl (by rw [← helem]; rfl)⟩
    | some elem => exact .inl ⟨elem,rfl,by rw [← helem]; rfl⟩

/-- A parser for the type that the indices lead to, which is unwrapped. -/
theorem Safe.members {types : List CompoundType} {ty : Ty} {path : List (Option ℕ)}
    {p : Parser Place σ (Option Ty)}
    (h : (∃ elem, memberOf types ty path = some elem ∧ p = pure (some elem)) ∨
      memberOf types ty path = none ∧ (p = pure none ∨ p = fail .endless)) :
    Safe d (visit (.members types ty path) (p >>= unwrap)) := by
  have hfine : Places.Fine (Place.members types ty path) ↔
      (memberOf types ty path).isSome = true := members_iff
  rcases h with ⟨elem,hmember,rfl⟩ | ⟨hmember,hp⟩
  · rw [hmember] at hfine
    have hpure : (pure (some elem) >>= unwrap : Parser Place σ Ty) = pure elem := rfl
    rw [hpure]
    exact Sound.visit (fun _ => Safe.ret elem) (fun hnot => absurd (hfine.mpr rfl) hnot)
      (Safe.ret (d := d) elem).shrinks
  · rw [hmember] at hfine
    have hnot : ¬ Places.Fine (Place.members types ty path) := fun h => by cases hfine.mp h
    rcases hp with rfl | rfl
    · exact Sound.visit (fun h => absurd h hnot) (fun _ k s t => ⟨.panic,s,rfl,.panic⟩)
        fun hrun => by cases hrun
    · exact Sound.visit (fun h => absurd h hnot) (fun _ k s t => ⟨.endless,s,rfl,.endless⟩)
        fun hrun => by cases hrun

theorem Safe.element (types : List CompoundType) (ty : Ty) :
    Safe d (visit (.members types ty [none]) (IrParser.element types ty >>= unwrap) :
      Parser Place σ Ty) := by
  refine Safe.members ?_
  rcases elementWith_cases types none ty with ⟨elem,helem,hp⟩ | ⟨hnone,hp⟩
  · exact .inl ⟨elem,by rw [memberOf,helem]; rfl,hp⟩
  · exact .inr ⟨by rw [memberOf,hnone]; rfl,hp⟩

variable {parse : Unit → P Ty}

theorem Safe.parseArray (h : Eats d (parse ())) : Safe d (parseArray parse) :=
  (Eats.spaced Eats.digit1).safe.bind fun _ => (Eats.sign 'x').safe.bind fun _ =>
    h.safe.bind fun _ => (Eats.sign ']').safe.bind fun _ =>
      (Safe.parseNumber _ _).bind fun _ => Safe.cached _

theorem Safe.closeStruct (isPacked : Bool) : Safe d (closeStruct isPacked) :=
  Safe.spaced (Safe.tag _)

theorem Safe.parseStruct (h : Eats d (parse ())) (isPacked : Bool) :
    Safe d (parseStruct parse isPacked) := by
  refine Safe.ifOk (Safe.closeStruct isPacked) (fun _ => Sound.onState _) (Safe.loop (fun elems => ?_) [])
  refine Eats.sound (h.bind fun ty => ?_)
  exact Safe.ifOk (Eats.sign ',').safe (fun _ => Safe.ret _)
    ((Safe.closeStruct isPacked).bind fun _ => (Sound.onState _).bind fun ty => Safe.ret _)

theorem Safe.parseFuncType (h : Eats d (parse ())) (ret : Ty) : Safe d (parseFuncType parse ret) := by
  refine Safe.ifOk (Eats.sign ')').safe (fun _ => Sound.onState _)
    (Safe.bind (Safe.loop (fun params => ?_) []) fun r => ?_)
  · refine Safe.ifOk (Safe.spaced (Safe.tag "...")) (fun _ => Sound.ret (by simp)) ?_
    refine Eats.sound (h.bind fun param => ?_)
    exact Safe.ifOk (Eats.sign ',').safe (fun _ => Safe.ret _) (Safe.ret _)
  · exact (Eats.sign ')').safe.bind fun _ => Sound.onState _

theorem Safe.parseSuffixes (h : Eats (d-1) (parse ())) (base : Ty) :
    Safe d (parseSuffixes parse base) :=
  Safe.loop (fun base =>
    Eats.ifOk (Eats.sign '*') (fun _ => (Safe.cached _).bind fun base => Safe.ret _)
      (Eats.ifOk (Eats.sign '(') (fun _ => (Safe.parseFuncType h base).bind fun base =>
        Safe.ret _) (Sound.ret (by simp)))) base

theorem Eats.parseTypeBody [Unicode] (h : Eats d (parse ())) : Eats (d+1) (parseTypeBody parse ()) := by
  have hsuffixes : ∀ base, Safe d (IrParser.parseSuffixes parse base) :=
    Safe.parseSuffixes (h.le (Nat.sub_le d 1))
  refine Eats.ifOk (Eats.sign '[') (fun _ => (Safe.parseArray h).bind hsuffixes) ?_
  refine Eats.ifOk (Eats.sign '\x7b')
    (fun _ => (Safe.parseStruct h false).bind hsuffixes) ?_
  refine Eats.ifOk (Eats.spaced (Eats.tag (by simp)))
    (fun _ => (Safe.parseStruct h true).bind hsuffixes) ?_
  refine Eats.ifOk (Eats.spaced (Eats.tag (by simp))) (fun _ => Sound.onState _) ?_
  refine Eats.ifOk (Eats.spaced (Eats.tag (by simp))) (fun _ => Safe.cached _) ?_
  refine Eats.ifOk (Eats.named '%') (fun name => (Sound.onState _).bind hsuffixes) ?_
  exact (Eats.spaced (Eats.words (by simp))).bind hsuffixes

theorem Eats.parseType [Unicode] : Eats d parseType :=
  Sound.fix (fun _ h _ => Eats.parseTypeBody (h ())) ()

end Sound

/-! ### It does the same in every state -/

section Blind

theorem Blind.multispace0 : Blind (multispace0 : Parser Place σ Unit) IrParser.multispace0 :=
  (Blind.ofText _).bind fun _ _ _ => Oblivious.ret trivial

theorem Blind.comment : Blind (comment : Parser Place σ Unit) IrParser.comment :=
  Blind.multispace0.bind fun _ _ _ => (Blind.ofText _).bind fun _ _ _ => (Blind.ofText _).bind
    fun _ _ _ => (Blind.ofText _).bind fun _ _ _ => Blind.multispace0

theorem Blind.spaces : Blind (spaces : Parser Place σ Unit) IrParser.spaces :=
  Oblivious.orElse (Blind.comment.bind fun _ _ _ => (Oblivious.many0 Blind.comment).bind
    fun _ _ _ => Oblivious.ret trivial) Blind.multispace0

theorem Oblivious.spaced {α β : Type} {R : α → β → Prop} {p : Parser Place σ α} {q : Parser Place σ β}
    (h : Oblivious R p q) : Oblivious R (spaced p) (spaced q) := Blind.spaces.bind fun _ _ _ => h

theorem Blind.sign (c : Char) : Blind (spaced (char c) : Parser Place σ Unit) (spaced (char c)) :=
  Oblivious.spaced (Blind.ofText _)

theorem Blind.tag (word : String) :
    Blind (spaced (tag word) : Parser Place σ Unit) (spaced (tag word)) :=
  Oblivious.spaced (Blind.ofText _)

theorem Blind.unwrap {α β : Type} (a : Option α) (b : Option β) :
    Blind (unwrap a : Parser Place σ α) (unwrap b) := by
  intro k s s' t
  cases a with
  | none => exact .left (e := .panic) s _ .panic
  | some a =>
    cases b with
    | none => exact .right (e := .panic) _ s' .panic
    | some b => exact .ok t s s' trivial

theorem Blind.unwrapAt {α β : Type} (place place' : Place) (a : Option α) (b : Option β) :
    Blind (unwrapAt place a : Parser Place σ α) (unwrapAt place' b) :=
  Oblivious.visit place place' (Blind.unwrap a b)

theorem Blind.stringLiteral : Blind (stringLiteral : Parser Place σ Text) IrParser.stringLiteral :=
  (Blind.ofText _).bind fun _ _ _ => Oblivious.bind (Oblivious.cut ((Blind.ofText _).bind fun _ _ _ =>
    (Blind.ofText _).bind fun _ _ _ => Oblivious.ret trivial)) fun _ _ _ => Blind.unwrapAt _ _ _ _

theorem Blind.digit1 : Blind (digit1 : Parser Place σ Text) IrParser.digit1 :=
  (Oblivious.takeWhile1 _).blind

theorem Blind.parseName [Unicode] : Blind (parseName : Parser Place σ Name) IrParser.parseName := by
  refine Oblivious.spaced (Oblivious.alt (.cons ?_ (.cons ?_ (.cons ?_ .nil))))
  · exact Blind.digit1.bind fun _ _ _ => (Blind.unwrapAt _ _ _ _).bind
      fun _ _ _ => Oblivious.ret trivial
  · exact (Oblivious.takeWhile1 _).bind fun _ _ _ => Oblivious.ret trivial
  · exact Blind.stringLiteral.bind fun _ _ _ => Oblivious.ret trivial

theorem Blind.named [Unicode] (c : Char) : Blind (named c : Parser Place σ Name) (IrParser.named c) :=
  Oblivious.spaced ((Blind.ofText _).bind fun _ _ _ => Blind.parseName)

theorem Blind.words {α : Type} (list : List (String × α)) :
    Oblivious Eq (words list : Parser Place σ α) (words list) := by
  refine Oblivious.alt ?_
  induction list with
  | nil => exact .nil
  | cons entry list ih =>
    exact .cons ((Blind.ofText _).bind fun _ _ _ => Oblivious.ret rfl) ih

theorem Blind.cached (ty ty' : CompoundType) : Blind (cached ty) (IrParser.cached ty') :=
  Oblivious.onState _ _

theorem Blind.elementWith (types types' : List CompoundType) (i i' : Option ℕ) (ty ty' : Ty) :
    Blind (elementWith types i ty : Parser Place σ (Option Ty)) (elementWith types' i' ty') :=
  (Oblivious.endOf _ _ _ _ _ _).bind fun _ _ _ => Oblivious.ret trivial

variable {parse parse' : Unit → P Ty}

theorem Blind.parseArray (h : Blind (parse ()) (parse' ())) :
    Blind (parseArray parse) (parseArray parse') :=
  (Oblivious.spaced Blind.digit1).bind fun _ _ _ => (Blind.sign 'x').bind fun _ _ _ =>
    h.bind fun _ _ _ => (Blind.sign ']').bind fun _ _ _ =>
      (Blind.unwrapAt _ _ _ _).bind fun _ _ _ => Blind.cached _ _

theorem Blind.parseStruct (h : Blind (parse ()) (parse' ())) (isPacked : Bool) :
    Blind (parseStruct parse isPacked) (parseStruct parse' isPacked) := by
  refine (Blind.tag _).ifOk (fun _ _ _ => Oblivious.onState _ _) ?_
  refine Oblivious.loop (fun elems elems' => h.bind fun _ _ _ => ?_) [] []
  exact (Blind.sign ',').ifOk (fun _ _ _ => Oblivious.goOn _ _) ((Blind.tag _).bind fun _ _ _ =>
    (Oblivious.onState _ _).bind fun _ _ _ => Oblivious.leave trivial)

theorem Blind.parseFuncType (h : Blind (parse ()) (parse' ())) (ret ret' : Ty) :
    Blind (parseFuncType parse ret) (parseFuncType parse' ret') := by
  refine (Blind.sign ')').ifOk (fun _ _ _ => Oblivious.onState _ _) ?_
  refine Oblivious.bind (Oblivious.loop (Q := fun _ _ => True) (fun params params' => ?_) [] [])
    fun _ _ _ => (Blind.sign ')').bind fun _ _ _ => Oblivious.onState _ _
  refine (Blind.tag "...").ifOk (fun _ _ _ => Oblivious.leave trivial) (h.bind fun _ _ _ => ?_)
  exact (Blind.sign ',').ifOk (fun _ _ _ => Oblivious.goOn _ _) (Oblivious.leave trivial)

theorem Blind.parseSuffixes (h : Blind (parse ()) (parse' ())) (base base' : Ty) :
    Blind (parseSuffixes parse base) (parseSuffixes parse' base') :=
  Oblivious.loop (fun base base' =>
    (Blind.sign '*').ifOk (fun _ _ _ => (Blind.cached _ _).bind fun _ _ _ =>
        Oblivious.goOn _ _) <|
    (Blind.sign '(').ifOk (fun _ _ _ => (Blind.parseFuncType h base base').bind fun _ _ _ =>
        Oblivious.goOn _ _) <|
    Oblivious.leave trivial) base base'

theorem Blind.parseTypeBody [Unicode] (h : Blind (parse ()) (parse' ())) :
    Blind (parseTypeBody parse ()) (parseTypeBody parse' ()) := by
  have hsuffixes : ∀ base base', True →
      Blind (IrParser.parseSuffixes parse base) (IrParser.parseSuffixes parse' base') :=
    fun base base' _ => Blind.parseSuffixes h base base'
  refine (Blind.sign '[').ifOk (fun _ _ _ => (Blind.parseArray h).bind hsuffixes) ?_
  refine (Blind.sign '\x7b').ifOk (fun _ _ _ => (Blind.parseStruct h false).bind hsuffixes) ?_
  refine (Blind.tag _).ifOk (fun _ _ _ => (Blind.parseStruct h true).bind hsuffixes) ?_
  refine (Blind.tag _).ifOk (fun _ _ _ => Oblivious.onState _ _) ?_
  refine (Blind.tag _).ifOk (fun _ _ _ => Blind.cached _ _) ?_
  refine (Blind.named '%').ifOk (fun _ _ _ => (Oblivious.onState _ _).bind hsuffixes) ?_
  exact (Oblivious.spaced (Blind.words _).blind).bind hsuffixes

theorem Blind.parseType [Unicode] : Blind parseType IrParser.parseType :=
  Oblivious.fix (fun _ _ h _ _ => Blind.parseTypeBody (h () ())) () ()

end Blind

end IrParser
end Codegen
end OlaLang
