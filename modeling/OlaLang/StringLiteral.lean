import OlaLang.Types
import Mathlib.Data.List.TakeWhile
import Mathlib.Tactic.Ring

/-! String literals: the tokens the lexer cuts out of the source, the scanner that resolves their
escapes, and when the two agree on where a literal ends. -/
namespace OlaLang
namespace StringLiteral

/-! ### The lexer -/

structure Loc where
  file : ℕ
  start : ℕ
  stop : ℕ
  deriving DecidableEq

def Loc.useEndFrom (loc other : Loc) : Loc := {loc with stop := other.stop}

/-- The bytes of a text. -/
def byteLength (text : List Char) : ℕ := (text.map Char.utf8Size).sum

/-- A token of the lexer: the text between the quotes holds no quote. -/
structure Token where
  loc : Loc
  string : List Char
  noQuote : '"' ∉ string

theorem quote_notMem_takeWhile (input : List Char) : '"' ∉ input.takeWhile (· ≠ '"') := by
  intro h
  simpa using List.mem_takeWhile_imp h

/-- The token at the start of the input, as `"[^"]*"` matches it, and what follows it. -/
def lexStringLiteral (file l : ℕ) : List Char → Option (Token × List Char)
  | '"'::input => match input.dropWhile (· ≠ '"') with
    | '"'::rest =>
      let string := input.takeWhile (· ≠ '"')
      some (⟨⟨file,l,l+byteLength string+2⟩,string,quote_notMem_takeWhile input⟩,rest)
    | _ => none
  | _ => none

/-! ### The scanner -/

structure Diagnostic where
  loc : Loc
  message : String
  deriving DecidableEq

/-- What resolving a text has given: the values, and what was reported. -/
structure Unescaped where
  s : List ℕ
  diagnostics : List Diagnostic
  deriving DecidableEq

def Unescaped.append (a b : Unescaped) : Unescaped := ⟨a.s++b.s,a.diagnostics++b.diagnostics⟩

def Unescaped.push (v : ℕ) : Unescaped := ⟨[v],[]⟩

def Unescaped.report (loc : Loc) (message : String) : Unescaped := ⟨[],[⟨loc,message⟩]⟩

/-- The characters of a text with their offsets in bytes. -/
def charIndices : ℕ → List Char → List (ℕ × Char)
  | _, [] => []
  | i, c::cs => (i,c)::charIndices (i+c.utf8Size) cs

/-- `to_digit(16)`. -/
def toDigit (c : Char) : Option ℕ :=
  if '0' ≤ c ∧ c ≤ '9' then some (c.toNat-48)
  else if 'a' ≤ c ∧ c ≤ 'f' then some (c.toNat-87)
  else if 'A' ≤ c ∧ c ≤ 'F' then some (c.toNat-55)
  else none

def usizeMax : ℕ := 2^64-1

/-- `get_digits`, with the digits already read in `n`: the value, or the offset of the character
after the one that is no digit. -/
def getDigits : ℕ → ℕ → List (ℕ × Char) → Except ℕ ℕ × List (ℕ × Char)
  | 0, n, input => (.ok n,input)
  | _+1, _, [] => (.error usizeMax,[])
  | len+1, n, (_,ch)::input => match toDigit ch with
    | some v => getDigits len (n*2^4+v) input
    | none => match input with
      | [] => (.error usizeMax,[])
      | (i,_)::input => (.error i,input)

/-- The values a text denotes, its offset in the source and the file it stands in. -/
structure Source where
  literal : List Char
  start : ℕ
  fileNo : ℕ

def Source.loc (src : Source) (i j : ℕ) : Loc := ⟨src.fileNo,src.start+i,src.start+j⟩

/-- The location of an escape whose digits end early. -/
def Source.digitsLoc (src : Source) (i offset : ℕ) : Loc :=
  src.loc i (min (byteLength src.literal) offset)

/-- The escape of the character `ch` behind a backslash, and the input behind it. -/
def escape (src : Source) (i : ℕ) (ch : Char) (indeces : List (ℕ × Char)) :
    Unescaped × List (ℕ × Char) :=
  match ch with
  | '\n' => (⟨[],[]⟩,indeces)
  | '\\' => (.push 92,indeces)
  | '\'' => (.push 39,indeces)
  | '"' => (.push 34,indeces)
  | 'b' => (.push 8,indeces)
  | 'f' => (.push 12,indeces)
  | 'n' => (.push 10,indeces)
  | 'r' => (.push 13,indeces)
  | 't' => (.push 9,indeces)
  | 'v' => (.push 11,indeces)
  | 'x' => match getDigits 2 0 indeces with
    | (.ok ch,indeces) => (.push ch,indeces)
    | (.error offset,indeces) =>
      (.report (src.digitsLoc i offset) "\\x escape should be followed by two hex digits",indeces)
  | 'u' => match getDigits 4 0 indeces with
    | (.ok codepoint,indeces) =>
      if codepoint.isValidChar then (.push codepoint,indeces)
      else (.report (src.loc i (i+6)) "Found an invalid unicode character",indeces)
    | (.error offset,indeces) =>
      (.report (src.digitsLoc i offset) "\\u escape should be followed by four hex digits",indeces)
  | ch => (.report (src.loc i (i+ch.utf8Size)) s!"unknown escape character '{ch}'",indeces)

theorem getDigits_length (len n : ℕ) (input : List (ℕ × Char)) :
    (getDigits len n input).2.length ≤ input.length := by
  fun_induction getDigits len n input <;> simp at * <;> omega

theorem escape_length (src : Source) (i : ℕ) (ch : Char) (input : List (ℕ × Char)) :
    (escape src i ch input).2.length ≤ input.length := by
  have hx := getDigits_length 2 0 input
  have hu := getDigits_length 4 0 input
  unfold escape
  split <;> grind

/-- The loop of `unescape`; `none` is its `unreachable!`. -/
def unescapeLoop (src : Source) : List (ℕ × Char) → Option Unescaped
  | [] => some ⟨[],[]⟩
  | (_,ch)::indeces =>
    if ch ≠ '\\' then (unescapeLoop src indeces).map (Unescaped.push ch.toNat).append
    else match indeces with
      | [] => none
      | (i,ch)::indeces =>
        (unescapeLoop src (escape src i ch indeces).2).map (escape src i ch indeces).1.append
  termination_by indeces => indeces.length
  decreasing_by
    · simp
    · have := escape_length src i ch indeces
      simp
      omega

def unescape (literal : List Char) (start fileNo : ℕ) : Option Unescaped :=
  unescapeLoop ⟨literal,start,fileNo⟩ (charIndices 0 literal)

/-! ### The resolved expression -/

inductive ResolveTo
  | unknown | discard
  | type (ty : Ty)

/-- `Expression::AllocDynamicBytes` of the type `string`; its length is a literal of `u32`. -/
structure AllocDynamicBytes where
  loc : Loc
  length : ℕ
  init : List ℕ

/-- The loop over the tokens that stand side by side. -/
def concatenate : List Token → Option Unescaped
  | [] => some ⟨[],[]⟩
  | s::v => do
    let u ← unescape s.string s.loc.start s.loc.file
    let us ← concatenate v
    pure (u.append us)

/-- `string_literal` of the token `s` and those behind it. -/
def stringLiteral (s : Token) (v : List Token) (resolveTo : ResolveTo) :
    Option (AllocDynamicBytes × List Diagnostic) := do
  let u ← concatenate (s::v)
  let loc := v.foldl (fun loc t => loc.useEndFrom t.loc) s.loc
  match resolveTo with
  | .type .string => pure (⟨loc,u.s.length,u.s⟩,u.diagnostics)
  | _ => pure (⟨loc,u.s.length,u.s⟩,u.diagnostics)

/-! ### Scanning -/

/-- The digits of the two numeric escapes. -/
inductive Numeric : Char → ℕ → Prop
  | x : Numeric 'x' 2
  | u : Numeric 'u' 4

/-- Behind its whole escapes the text has one backslash. An escape by digits that is cut short takes
the character that is no digit, and one more. -/
inductive Dangling : List Char → Prop
  | backslash : Dangling ['\\']
  | plain {c cs} (hc : c ≠ '\\') (h : Dangling cs) : Dangling (c::cs)
  | escape {c cs} (hx : c ≠ 'x') (hu : c ≠ 'u') (h : Dangling cs) : Dangling ('\\'::c::cs)
  | digits {c n ds cs} (hc : Numeric c n) (hn : ds.length = n) (hds : ∀ d ∈ ds, (toDigit d).isSome)
      (h : Dangling cs) : Dangling ('\\'::c::(ds++cs))
  | cut {c n ds d e cs} (hc : Numeric c n) (hn : ds.length < n)
      (hds : ∀ d ∈ ds, (toDigit d).isSome) (hd : toDigit d = none) (h : Dangling cs) :
      Dangling ('\\'::c::(ds++d::e::cs))

/-- The characters of an input. -/
def text (input : List (ℕ × Char)) : List Char := input.map Prod.snd

@[simp] theorem text_nil : text [] = [] := rfl

@[simp] theorem text_cons (x : ℕ × Char) (input : List (ℕ × Char)) :
    text (x::input) = x.2::text input := rfl

@[simp] theorem text_charIndices (i : ℕ) (cs : List Char) : text (charIndices i cs) = cs := by
  induction cs generalizing i with
  | nil => rfl
  | cons c cs ih => simp [charIndices,ih]

theorem text_eq_cons {input : List (ℕ × Char)} {c : Char} {cs : List Char}
    (h : text input = c::cs) : ∃ i rest, input = (i,c)::rest ∧ text rest = cs := by
  obtain ⟨⟨i,d⟩,rest,rfl,rfl,rfl⟩ := List.map_eq_cons_iff.mp h
  exact ⟨i,rest,rfl,rfl⟩

/-- What `getDigits` takes of its input, and with which answer. -/
inductive Taken (len n : ℕ) (input : List (ℕ × Char)) : Except ℕ ℕ × List (ℕ × Char) → Prop
  | digits (ds) {rest v} (hin : text input = ds++text rest) (hn : ds.length = len)
      (hds : ∀ d ∈ ds, (toDigit d).isSome) (hv : v < (n+1)*16^len) : Taken len n input (.ok v,rest)
  | cut (ds) {d e rest offset} (hin : text input = ds++d::e::text rest) (hn : ds.length < len)
      (hds : ∀ d ∈ ds, (toDigit d).isSome) (hd : toDigit d = none) :
      Taken len n input (.error offset,rest)
  | all {offset} : Taken len n input (.error offset,[])

theorem toDigit_lt {c : Char} {v : ℕ} (h : toDigit c = some v) : v < 16 := by
  unfold toDigit at h
  simp only [Char.le_def,UInt32.le_iff_toNat_le] at h
  have hn : c.val.toNat = c.toNat := rfl
  have h9 : ('9' : Char).val.toNat = 57 := rfl
  have hf : ('f' : Char).val.toNat = 102 := rfl
  have hF : ('F' : Char).val.toNat = 70 := rfl
  split_ifs at h <;> simp only [Option.some.injEq] at h <;> omega

theorem getDigits_taken (len n : ℕ) (input : List (ℕ × Char)) :
    Taken len n input (getDigits len n input) := by
  fun_induction getDigits len n input with
  | case1 n input => exact .digits [] rfl rfl (by simp) (by simp)
  | case2 => exact .all
  | case3 len n i ch input v hv ih =>
    have hlt := toDigit_lt hv
    generalize getDigits len (n*2^4+v) input = r at ih
    cases ih with
    | @digits ds rest w hin hn hds hw =>
      refine .digits (ch::ds) (by simp [hin]) (by simp [hn]) (by simpa [hv] using hds) ?_
      calc w < (n*2^4+v+1)*16^len := hw
        _ ≤ ((n+1)*16)*16^len := Nat.mul_le_mul_right _ (by omega)
        _ = (n+1)*16^(len+1) := by ring
    | @cut ds d e rest offset hin hn hds hd =>
      exact .cut (ch::ds) (e := e) (by simp [hin]) (by simpa using hn)
        (by simpa [hv] using hds) hd
    | all => exact .all
  | case4 len n i ch hv => exact .all
  | case5 len n i ch hv j e input => exact .cut [] rfl (by simp) (by simp) hv

/-- The digits there are read. -/
theorem getDigits_digits {ds : List Char} (hds : ∀ d ∈ ds, (toDigit d).isSome)
    {input rest : List (ℕ × Char)} (n : ℕ) (h : text input = ds++text rest) :
    ∃ v rest', getDigits ds.length n input = (.ok v,rest') ∧ text rest' = text rest := by
  induction ds generalizing input n with
  | nil => exact ⟨n,input,rfl,by simpa using h⟩
  | cons d ds ih =>
    cases input with
    | nil => simp at h
    | cons x input =>
      obtain ⟨hx,hin⟩ : x.2 = d ∧ text input = ds++text rest := by simpa using h
      obtain ⟨v,hv⟩ := Option.isSome_iff_exists.mp (hds d (by simp))
      simpa [getDigits,hx,hv] using ih (fun e he => hds e (by simp [he])) (n*16+v) hin

/-- Where they end early, two more characters are. -/
theorem getDigits_cut {ds : List Char} (hds : ∀ d ∈ ds, (toDigit d).isSome) {d e : Char}
    (hd : toDigit d = none) {len : ℕ} (hlen : ds.length < len) {input rest : List (ℕ × Char)} (n : ℕ)
    (h : text input = ds++d::e::text rest) :
    ∃ offset rest', getDigits len n input = (.error offset,rest') ∧ text rest' = text rest := by
  obtain ⟨len,rfl⟩ : ∃ k, len = k+1 := ⟨len-1,by omega⟩
  induction ds generalizing input n len with
  | nil =>
    match input, h with
    | x::y::input, h =>
      obtain ⟨hx,-,hin⟩ : x.2 = d ∧ y.2 = e ∧ text input = text rest := by simpa using h
      exact ⟨y.1,input,by simp [getDigits,hx,hd],hin⟩
    | [x], h => simp at h
    | [], h => simp at h
  | cons c ds ih =>
    cases input with
    | nil => simp at h
    | cons x input =>
      obtain ⟨hx,hin⟩ : x.2 = c ∧ text input = ds++d::e::text rest := by simpa using h
      obtain ⟨v,hv⟩ := Option.isSome_iff_exists.mp (hds c (by simp))
      obtain ⟨len,rfl⟩ : ∃ k, len = k+1 := ⟨len-1,by simp at hlen; omega⟩
      simpa [getDigits,hx,hv] using
        ih (fun e he => hds e (by simp [he])) (n*16+v) hin len (by simpa using hlen)

/-! ### The escapes -/

variable {src : Source} {i : ℕ} {ch : Char} {input : List (ℕ × Char)}

/-- An escape that is no number takes its one character. -/
theorem escape_rest (hx : ch ≠ 'x') (hu : ch ≠ 'u') : (escape src i ch input).2 = input := by
  unfold escape
  split <;> simp_all

theorem escape_numeric_rest {n : ℕ} (h : Numeric ch n) :
    (escape src i ch input).2 = (getDigits n 0 input).2 := by
  cases h with
  | x =>
    rcases hr : getDigits 2 0 input with ⟨_|_,rest⟩ <;> simp [escape,hr]
  | u =>
    rcases hr : getDigits 4 0 input with ⟨_|_,rest⟩ <;> simp [escape,hr]
    split <;> simp

@[simp] theorem push_s (v : ℕ) : (Unescaped.push v).s = [v] := rfl

@[simp] theorem report_s (loc : Loc) (message : String) : (Unescaped.report loc message).s = [] :=
  rfl

@[simp] theorem append_s (a b : Unescaped) : (a.append b).s = a.s++b.s := rfl

/-- The values an escape gives are code points. -/
theorem escape_valid {v : ℕ} (h : v ∈ (escape src i ch input).1.s) : v.isValidChar := by
  unfold escape at h
  split at h
  case h_11 =>
    have hd := getDigits_taken 2 0 input
    generalize getDigits 2 0 input = r at h hd
    cases hd with
    | digits hin hn hds hv =>
      obtain rfl : v = _ := by simpa using h
      exact Or.inl (by omega)
    | cut => simp at h
    | all => simp at h
  case h_12 =>
    split at h
    · split at h
      · obtain rfl : v = _ := by simpa using h
        assumption
      · simp at h
    · simp at h
  case h_1 => simp at h
  case h_13 => simp at h
  all_goals
    obtain rfl : v = _ := by simpa using h
    decide

theorem unescapeLoop_plain (hc : ch ≠ '\\') :
    unescapeLoop src ((i,ch)::input) =
      (unescapeLoop src input).map (Unescaped.push ch.toNat).append := by
  rw [unescapeLoop.eq_def]
  simp [hc]

theorem unescapeLoop_escape (j : ℕ) :
    unescapeLoop src ((j,'\\')::(i,ch)::input) =
      (unescapeLoop src (escape src i ch input).2).map (escape src i ch input).1.append := by
  simp [unescapeLoop]

theorem unescapeLoop_backslash (j : ℕ) : unescapeLoop src [(j,'\\')] = none := by
  simp [unescapeLoop]

/-- Whether the scan ends depends on the characters only. -/
theorem unescapeLoop_none_of_dangling {cs : List Char} (h : Dangling cs) :
    ∀ input, text input = cs → unescapeLoop src input = none := by
  induction h with
  | backslash =>
    intro input hin
    obtain ⟨j,rest,rfl,hrest⟩ := text_eq_cons hin
    obtain rfl : rest = [] := by simpa [text] using hrest
    exact unescapeLoop_backslash j
  | plain hc h ih =>
    intro input hin
    obtain ⟨j,rest,rfl,hrest⟩ := text_eq_cons hin
    simp [unescapeLoop_plain hc,ih rest hrest]
  | escape hx hu h ih =>
    intro input hin
    obtain ⟨j,rest,rfl,hrest⟩ := text_eq_cons hin
    obtain ⟨i,rest,rfl,hcs⟩ := text_eq_cons hrest
    simp [unescapeLoop_escape,escape_rest hx hu,ih rest hcs]
  | @digits ch n ds cs hc hn hds h ih =>
    intro input hin
    obtain ⟨j,rest,rfl,hrest⟩ := text_eq_cons hin
    obtain ⟨i,rest,rfl,hcs⟩ := text_eq_cons hrest
    have htext : text rest = ds ++ text (charIndices 0 cs) := by simpa using hcs
    obtain ⟨v,rest',hr,hrest'⟩ := getDigits_digits hds 0 htext
    rw [hn] at hr
    simp [unescapeLoop_escape,escape_numeric_rest hc,hr,ih rest' (by simpa using hrest')]
  | @cut ch n ds d e cs hc hn hds hd h ih =>
    intro input hin
    obtain ⟨j,rest,rfl,hrest⟩ := text_eq_cons hin
    obtain ⟨i,rest,rfl,hcs⟩ := text_eq_cons hrest
    have htext : text rest = ds ++ d::e::text (charIndices 0 cs) := by simpa using hcs
    obtain ⟨v,rest',hr,hrest'⟩ := getDigits_cut hds hd hn 0 htext
    simp [unescapeLoop_escape,escape_numeric_rest hc,hr,ih rest' (by simpa using hrest')]

/-- An escape leaves behind what a dangling text goes on with. -/
theorem dangling_escape (h : Dangling (text (escape src i ch input).2)) :
    Dangling ('\\'::ch::text input) := by
  have hnil : ¬ Dangling [] := by rintro ⟨⟩
  have hnum : ∀ {n}, Numeric ch n → Dangling ('\\'::ch::text input) := by
    intro n hc
    rw [escape_numeric_rest hc] at h
    have hd := getDigits_taken n 0 input
    generalize getDigits n 0 input = r at h hd
    cases hd with
    | digits ds hin hn hds hv =>
      rw [hin]
      exact .digits hc hn hds h
    | cut ds hin hn hds hd =>
      rw [hin]
      exact .cut hc hn hds hd h
    | all => exact absurd h hnil
  by_cases hx : ch = 'x'
  · exact hnum (n := 2) (by rw [hx]; exact .x)
  by_cases hu : ch = 'u'
  · exact hnum (n := 4) (by rw [hu]; exact .u)
  rw [escape_rest hx hu] at h
  exact .escape hx hu h

theorem dangling_of_unescapeLoop_none (input : List (ℕ × Char)) (h : unescapeLoop src input = none) :
    Dangling (text input) := by
  fun_induction unescapeLoop src input with
  | case1 => simp at h
  | case2 i ch input hc ih => exact .plain hc (ih (by simpa using h))
  | case3 i ch hc =>
    obtain rfl : ch = '\\' := by simpa using hc
    exact .backslash
  | case4 j c hc i ch input ih =>
    obtain rfl : c = '\\' := by simpa using hc
    exact dangling_escape (ih (by simpa using h))

/-- `unescape` hits its `unreachable!` on the dangling texts. -/
theorem unescape_eq_none (literal : List Char) (start fileNo : ℕ) :
    unescape literal start fileNo = none ↔ Dangling literal := by
  constructor
  · intro h
    simpa using dangling_of_unescapeLoop_none _ h
  · intro h
    exact unescapeLoop_none_of_dangling h _ (text_charIndices 0 literal)

theorem unescapeLoop_valid (input : List (ℕ × Char)) {u : Unescaped}
    (h : unescapeLoop src input = some u) : ∀ v ∈ u.s, v.isValidChar := by
  fun_induction unescapeLoop src input generalizing u with
  | case1 =>
    obtain rfl : _ = u := by simpa using h
    simp
  | case2 i ch input hc ih =>
    obtain ⟨u,hu,rfl⟩ := Option.map_eq_some_iff.mp h
    simpa using ⟨ch.valid,ih hu⟩
  | case3 => simp at h
  | case4 j c hc i ch input ih =>
    obtain ⟨u,hu,rfl⟩ := Option.map_eq_some_iff.mp h
    intro v hv
    rcases List.mem_append.mp hv with hv | hv
    · exact escape_valid hv
    · exact ih hu v hv

/-! ### Spellings -/

/-- The letters of the escapes, with the characters they stand for. -/
def letters : List (Char × Char) :=
  [('\\','\\'),('\'','\''),('"','"'),('b',.ofNat 8),('f',.ofNat 12),('n','\n'),('r','\r'),('t','\t'),
    ('v',.ofNat 11)]

/-- The ways of writing a character in a literal, and a line break that stands for none. -/
inductive Spells : List Char → List Char → Prop
  | raw {c} (hb : c ≠ '\\') (hq : c ≠ '"') : Spells [c] [c]
  | letter {l c} (h : (l,c) ∈ letters) : Spells [c] ['\\',l]
  | lineBreak : Spells [] ['\\','\n']
  | hex {c d₁ d₀ v₁ v₀} (h₁ : toDigit d₁ = some v₁) (h₀ : toDigit d₀ = some v₀)
      (hc : c.toNat = v₁*16+v₀) : Spells [c] ['\\','x',d₁,d₀]
  | unicode {c d₃ d₂ d₁ d₀ v₃ v₂ v₁ v₀} (h₃ : toDigit d₃ = some v₃) (h₂ : toDigit d₂ = some v₂)
      (h₁ : toDigit d₁ = some v₁) (h₀ : toDigit d₀ = some v₀)
      (hc : c.toNat = ((v₃*16+v₂)*16+v₁)*16+v₀) : Spells [c] ['\\','u',d₃,d₂,d₁,d₀]

structure Spelling where
  chars : List Char
  text : List Char
  spells : Spells chars text

/-- The spelled text, and the code points it stands for. -/
def spelled (xs : List Spelling) : List Char := xs.flatMap Spelling.text

def codePoints (xs : List Spelling) : List ℕ := xs.flatMap fun x => x.chars.map Char.toNat

@[simp] theorem push_append_nil (v : ℕ) : (Unescaped.push v).append = Unescaped.append ⟨[v],[]⟩ := rfl

/-- A spelling is read as what it stands for. -/
theorem unescapeLoop_spelling (x : Spelling) (i : ℕ) (tail : List Char) :
    ∃ j, unescapeLoop src (charIndices i (x.text++tail)) =
      (unescapeLoop src (charIndices j tail)).map (Unescaped.append ⟨x.chars.map Char.toNat,[]⟩) := by
  obtain ⟨chars,text,h⟩ := x
  cases h with
  | raw hb hq => exact ⟨_,unescapeLoop_plain hb⟩
  | @letter l c h =>
    refine ⟨i+1+l.utf8Size,(unescapeLoop_escape i).trans ?_⟩
    simp only [letters,List.mem_cons,Prod.mk.injEq,List.not_mem_nil,or_false] at h
    rcases h with ⟨rfl,rfl⟩ | ⟨rfl,rfl⟩ | ⟨rfl,rfl⟩ | ⟨rfl,rfl⟩ | ⟨rfl,rfl⟩ | ⟨rfl,rfl⟩ | ⟨rfl,rfl⟩ |
      ⟨rfl,rfl⟩ | ⟨rfl,rfl⟩ <;> rfl
  | lineBreak => exact ⟨_,unescapeLoop_escape i⟩
  | @hex c d₁ d₀ v₁ v₀ h₁ h₀ hc =>
    refine ⟨i+1+1+d₁.utf8Size+d₀.utf8Size,(unescapeLoop_escape i).trans ?_⟩
    simp [escape,charIndices,getDigits,h₁,h₀,hc]
    rfl
  | @unicode c d₃ d₂ d₁ d₀ v₃ v₂ v₁ v₀ h₃ h₂ h₁ h₀ hc =>
    refine ⟨i+1+1+d₃.utf8Size+d₂.utf8Size+d₁.utf8Size+d₀.utf8Size,
      (unescapeLoop_escape i).trans ?_⟩
    have hvalid : (((v₃*16+v₂)*16+v₁)*16+v₀).isValidChar := hc ▸ c.valid
    simp [escape,charIndices,getDigits,h₃,h₂,h₁,h₀,hc,hvalid]
    rfl

theorem unescapeLoop_spelled (xs : List Spelling) (i : ℕ) :
    unescapeLoop src (charIndices i (spelled xs)) = some ⟨codePoints xs,[]⟩ := by
  induction xs generalizing i with
  | nil => simp [spelled,codePoints,charIndices,unescapeLoop]
  | cons x xs ih =>
    obtain ⟨j,hj⟩ : ∃ j, unescapeLoop src (charIndices i (x.text++spelled xs)) = _ :=
      unescapeLoop_spelling x i (spelled xs)
    calc unescapeLoop src (charIndices i (x.text++spelled xs)) = _ := hj
      _ = some ⟨codePoints (x::xs),[]⟩ := by simp [ih,Unescaped.append,codePoints]

/-- The lexer ends a token at the first quote behind its own. -/
theorem lexStringLiteral_eq (file l : ℕ) {b : List Char} (hb : '"' ∉ b) (rest : List Char) :
    lexStringLiteral file l ('"'::(b ++ '"'::rest)) =
      some (⟨⟨file,l,l+byteLength b+2⟩,b,hb⟩,rest) := by
  have hall : ∀ c ∈ b, decide (c ≠ '"') = true := by
    intro c hc
    simpa using fun h : c = '"' => hb (h ▸ hc)
  have hdrop : (b ++ '"'::rest).dropWhile (· ≠ '"') = '"'::rest := by
    rw [List.dropWhile_append_of_pos hall]
    simp
  have htake : (b ++ '"'::rest).takeWhile (· ≠ '"') = b := by
    rw [List.takeWhile_append_of_pos hall]
    simp
  simp only [lexStringLiteral,hdrop,htake]

/-- What a digit of an escape is not. -/
theorem toDigit_ne_quote {d : Char} {v : ℕ} (h : toDigit d = some v) : d ≠ '"' := by
  rintro rfl
  simp [toDigit] at h

/-- A spelling holds a quote when it is the escaped quote. -/
theorem quote_mem_spelling (x : Spelling) : '"' ∈ x.text ↔ x.text = ['\\','"'] := by
  obtain ⟨chars,text,h⟩ := x
  cases h with
  | raw hb hq => simpa using Ne.symm hq
  | @letter l c h => simp [eq_comm]
  | lineBreak => decide
  | hex h₁ h₀ hc => simpa using ⟨(toDigit_ne_quote h₁).symm,(toDigit_ne_quote h₀).symm⟩
  | unicode h₃ h₂ h₁ h₀ hc =>
    simpa using ⟨(toDigit_ne_quote h₃).symm,(toDigit_ne_quote h₂).symm,(toDigit_ne_quote h₁).symm,
      (toDigit_ne_quote h₀).symm⟩

theorem quote_notMem_spelled (xs : List Spelling) :
    '"' ∉ spelled xs ↔ ∀ x ∈ xs, x.text ≠ ['\\','"'] := by
  simp [spelled,quote_mem_spelling]

/-! ### The two results -/

/-- Resolving the tokens ends, with code points only. -/
def Resolves (s : Token) (v : List Token) : Prop := ∀ resolveTo,
  ∃ e diagnostics, stringLiteral s v resolveTo = some (e,diagnostics) ∧
    ∀ n ∈ e.init, n.isValidChar

/-- Between quotes, the spelled text is one token, and the scanner gives its code points. -/
def RoundTrips (xs : List Spelling) : Prop := ∀ file l rest,
  ∃ t, lexStringLiteral file l ('"'::(spelled xs ++ '"'::rest)) = some (t,rest) ∧
    t.string = spelled xs ∧ unescape t.string t.loc.start t.loc.file = some ⟨codePoints xs,[]⟩

theorem concatenate_eq_none (v : List Token) :
    concatenate v = none ↔ ∃ t ∈ v, Dangling t.string := by
  induction v with
  | nil => simp [concatenate]
  | cons s v ih =>
    rw [concatenate]
    cases hs : unescape s.string s.loc.start s.loc.file with
    | none => simp [(unescape_eq_none _ _ _).mp hs]
    | some u =>
      have hn : ¬ Dangling s.string := by
        rw [← unescape_eq_none _ s.loc.start s.loc.file,hs]
        simp
      cases hv : concatenate v with
      | none => simpa [hn] using ih.mp hv
      | some us => simpa [hn,hv] using ih

theorem concatenate_valid (v : List Token) {u : Unescaped} (h : concatenate v = some u) :
    ∀ n ∈ u.s, n.isValidChar := by
  induction v generalizing u with
  | nil =>
    obtain rfl : _ = u := by simpa [concatenate] using h
    simp
  | cons s v ih =>
    obtain ⟨a,ha,b,hb,rfl⟩ : ∃ a, unescape s.string s.loc.start s.loc.file = some a ∧
        ∃ b, concatenate v = some b ∧ a.append b = u := by
      simpa [concatenate,Option.bind_eq_some_iff] using h
    intro n hn
    rcases List.mem_append.mp hn with hn | hn
    · exact unescapeLoop_valid _ ha n hn
    · exact ih hb n hn

theorem stringLiteral_eq (s : Token) (v : List Token) (resolveTo : ResolveTo) :
    stringLiteral s v resolveTo = (concatenate (s::v)).map fun u =>
      (⟨v.foldl (fun loc t => loc.useEndFrom t.loc) s.loc,u.s.length,u.s⟩,u.diagnostics) := by
  cases h : concatenate (s::v) <;> simp [stringLiteral,h]
  split <;> rfl

theorem resolves_iff (s : Token) (v : List Token) :
    Resolves s v ↔ ∀ t ∈ s::v, ¬ Dangling t.string := by
  cases h : concatenate (s::v) with
  | none =>
    obtain ⟨t,ht,hd⟩ := (concatenate_eq_none _).mp h
    constructor
    · intro hr
      obtain ⟨e,ds,he,-⟩ := hr .unknown
      simp [stringLiteral_eq,h] at he
    · intro hall
      exact absurd hd (hall t ht)
  | some u =>
    constructor
    · intro _ t ht hd
      simp [(concatenate_eq_none _).mpr ⟨t,ht,hd⟩] at h
    · intro _ resolveTo
      exact ⟨_,_,by rw [stringLiteral_eq,h]; rfl,concatenate_valid _ h⟩

theorem roundTrips_iff (xs : List Spelling) :
    RoundTrips xs ↔ ∀ x ∈ xs, x.text ≠ ['\\','"'] := by
  rw [← quote_notMem_spelled]
  constructor
  · intro h
    obtain ⟨t,-,ht,-⟩ := h 0 0 []
    exact ht ▸ t.noQuote
  · intro h file l rest
    exact ⟨_,lexStringLiteral_eq file l h rest,rfl,unescapeLoop_spelled xs 0⟩

/-- The scanner resolves the literals whose texts do not end in a backslash behind their whole
escapes, and the lexer agrees with it on the spellings without an escaped quote. -/
theorem literals_iff (s : Token) (v : List Token) (xs : List Spelling) :
    (Resolves s v ↔ ∀ t ∈ s::v, ¬ Dangling t.string) ∧
      (RoundTrips xs ↔ ∀ x ∈ xs, x.text ≠ ['\\','"']) :=
  ⟨resolves_iff s v,roundTrips_iff xs⟩

/-- The text `"\""`: the token ends at the escaped quote, and resolving it ends nowhere. -/
theorem escaped_quote_panics : ∃ t, lexStringLiteral 0 0 ['"','\\','"','"'] = some (t,['"']) ∧
    stringLiteral t [] .unknown = none ∧ ¬ Resolves t [] ∧
    ¬ RoundTrips [⟨['"'],['\\','"'],.letter (by decide)⟩] := by
  refine ⟨_,rfl,?_,?_,?_⟩
  · rw [stringLiteral_eq,(concatenate_eq_none _).mpr ⟨_,List.mem_singleton.mpr rfl,.backslash⟩]
    rfl
  · rw [resolves_iff]
    exact fun h => h _ (List.mem_singleton.mpr rfl) .backslash
  · rw [roundTrips_iff]
    simp

end StringLiteral
end OlaLang
