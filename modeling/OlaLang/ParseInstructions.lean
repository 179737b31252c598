import OlaLang.ParseConstants

/-! The parser of the IR text: instructions. Of an instruction only its end in the text is kept. -/
namespace OlaLang
namespace Codegen
namespace IrParser

open Parsing
open FieldConstants (ConstantInt)

variable {σ : Type}

/-- Only the place in the text is kept. -/
def ignored {α : Type} (p : Parser Place σ α) : Parser Place σ Unit := do
  let _ ← p
  pure ()

/-- `align` with a number. -/
def alignNumber : Parser Place σ Unit := do
  tag "align"
  let _ ← spaced digit1
  pure ()

/-- `, align` with a number. -/
def commaAlign : Parser Place σ Unit := spaced do
  char ','
  spaced alignNumber

def optAlign : Parser Place σ Unit := ignored (opt commaAlign)

/-- `parse_metadata`. -/
def attachedMetadata (name : String) : Parser Place σ Unit := do
  spaces
  char ','
  spaces
  tag name
  spaces
  char '!'
  let _ ← digit1
  pure ()

/-- The condition of an `assert`. -/
def check (place : Place) (b : Bool) : Parser Place σ Unit :=
  visit place (if b then pure () else fail .panic)

def castToUsize : ConstantInt → ℕ
  | .int1 b => b.toNat
  | .int8 v => (v.signExtend 64).toNat
  | .int32 v => (v.signExtend 64).toNat
  | .int64 v => v.toNat

/-- `val2idx`. -/
def val2idx : Value → ℕ
  | .int i => castToUsize i
  | .other => 0

section Definitions

variable [Unicode]

def parseAlloca : P Unit := do
  spaced (tag "alloca")
  let _ ← parseType
  ifOk (spaced (char ',')) (fun _ =>
    ifOk (spaced alignNumber) pure do
      let _ ← typedConstant parseConstant
      ifOk commaAlign pure (pure ())) (pure ())

def parsePhi : P Unit := do
  spaced (tag "phi")
  let ty ← parseType
  loop (fun _ => do
    spaced (char '[')
    let _ ← parseValue ty
    spaced (char ',')
    let _ ← named '%'
    spaced (char ']')
    ifOk (spaced (char ',')) (fun _ => pure (.inl ())) (pure (.inr ()))) ()

def parseLoad : P Unit := do
  spaced (tag "load")
  let _ ← parseType
  spaced (char ',')
  let _ ← typedValue
  optAlign
  ignored (opt (attachedMetadata "!nonnull"))
  ignored (opt (attachedMetadata "!range"))

def parseStore : P Unit := do
  spaced do
    tag "store"
    spaces
  let _ ← typedValue
  spaced (char ',')
  let _ ← typedValue
  optAlign

/-- More indices, each behind a comma. -/
def parseIndices : List Value → P (List Value) :=
  loop fun args => ifOk (spaced (char ',')) (fun _ => do
    let idx ← parseValue .i32
    pure (.inl (args ++ [idx]))) (pure (.inr args))

def parseInsertvalue : P Unit := do
  spaced (tag "insertvalue")
  let _ ← typedValue
  spaced (char ',')
  let _ ← typedValue
  spaced (char ',')
  let idx ← parseValue .i32
  ignored (parseIndices [idx])

/-- `element_at_`. -/
def elementAtAll (types : List CompoundType) : Ty → List Value → Parser Place σ (Option Ty)
  | ty, [] => pure (some ty)
  | ty, idx::rest => do
    match ← elementAt types ty (val2idx idx) with
    | some ty => elementAtAll types ty rest
    | none => pure none

def parseExtractvalue : P Unit := do
  spaced (tag "extractvalue")
  let aggreTy ← parseType
  let _ ← parseValue aggreTy
  spaced (char ',')
  let idx ← parseValue .i32
  let args ← parseIndices [idx]
  let types ← typesTable
  ignored (visit (.members types aggreTy (args.map fun idx => some (val2idx idx))) do
    let ty ← elementAtAll types aggreTy args
    unwrap ty)

/-- A type and two values of it. -/
def twoValues : P Unit := do
  let ty ← parseType
  let _ ← parseValue ty
  spaced (char ',')
  ignored (parseValue ty)

def parseAddSubMul : P Unit := do
  spaced (anyTag ["add","sub","mul","sdiv","srem","and","or","xor","shl","ashr","lshr"])
  ignored (opt (spaced (tag "nuw")))
  ignored (opt (spaced (tag "nsw")))
  ignored (opt (spaced (tag "exact")))
  twoValues

def parseIcmp : P Unit := do
  spaced (tag "icmp")
  spaced (anyTag ["eq","ne","ugt","uge","ult","ule","sgt","sge","slt","sle"])
  twoValues

def parseCast : P Unit := do
  spaced (anyTag ["sext","zext","bitcast","trunc","inttoptr","ptrtoint"])
  let _ ← typedValue
  spaced (tag "to")
  ignored parseType

/-- An argument of a call. -/
def callArg : P Value := do
  let ty ← parseType
  let _ ← parseParamAttrs
  parseValue ty

def parseCallArgs : P Unit := do
  spaced (char '(')
  ifOk (spaced (char ')')) pure
    (ignored (items .behindItem (spaced (char ',')) (spaced (char ')')) callArg))

def parseGetelementptr : P Unit := do
  spaced (tag "getelementptr")
  ignored (opt (spaced (tag "inbounds")))
  let _ ← parseType
  spaced (char ',')
  loop (fun _ => do
    let _ ← typedValue
    ifOk (spaced (char ',')) (fun _ => pure (.inl ())) (pure (.inr ()))) ()

def parseCallAsm : Parser Place σ Unit := do
  spaced (tag "asm")
  ignored (opt (spaced (tag "sideeffect")))
  let _ ← spaced stringLiteral
  spaced (char ',')
  ignored (spaced stringLiteral)

def parseCallee (ty : Ty) : P Unit := ifOk parseCallAsm pure (ignored (parseValue ty))

def parseCall : P Unit := do
  spaced (tag "call")
  let _ ← parseParamAttrs
  let ty ← parseType
  parseCallee ty
  parseCallArgs
  let _ ← parseAttributes
  ignored (opt (attachedMetadata "!srcloc"))

/-- A word, and `label` with the name of a block. -/
def labelled (word : String) : Parser Place σ Unit := do
  spaced (tag word)
  spaced (tag "label")
  ignored (named '%')

def parseInvoke : P Unit := do
  spaced (tag "invoke")
  let _ ← parseParamAttrs
  let _ ← typedValue
  parseCallArgs
  let _ ← parseAttributes
  labelled "to"
  labelled "unwind"

def parseLandingpad : P Unit := do
  spaced (tag "landingpad")
  let _ ← parseType
  let cleanup ← opt (spaced (tag "cleanup"))
  let catches ← loop (fun catches => do
    match ← opt (spaced (tag "catch")) with
    | none => pure (.inr catches)
    | some _ => do
      let _ ← typedValue
      pure (.inl (catches+1))) 0
  check (.clauses cleanup.isSome catches) (cleanup.isSome || catches ≠ 0)

def parseResume : P Unit := do
  spaced (tag "resume")
  ignored typedValue

/-- `label` and the name of a block. -/
def parseLabel : Parser Place σ Unit := do
  spaced (tag "label")
  ignored (named '%')

def parseBr : P Unit := do
  spaced (tag "br")
  ifOk (spaced (tag "label")) (fun _ => ignored (named '%')) do
    let ty ← parseType
    check (.sameType ty .i1) (ty = .i1)
    let _ ← parseValue ty
    spaced (char ',')
    parseLabel
    spaced (char ',')
    parseLabel

def parseSwitch : P Unit := do
  spaced (tag "switch")
  let condTy ← parseType
  let _ ← parseValue condTy
  spaced (char ',')
  parseLabel
  spaced (char '[')
  loop (fun _ => do
    match ← opt (spaced (char ']')) with
    | some _ => pure (.inr ())
    | none => do
      let caseTy ← parseType
      check (.sameType caseTy condTy) (caseTy = condTy)
      let _ ← parseValue caseTy
      spaced (char ',')
      parseLabel
      pure (.inl ())) ()

def parseRet : P Unit := do
  spaced do
    tag "ret"
    spaces
  let ty ← parseType
  if ty = .void then pure () else ignored (parseValue ty)

def parseUnreachable : P Unit := spaced do
  tag "unreachable"
  spaces

def parseMetadataIfAny : P Unit :=
  loop (fun _ => ifOk (spaced (char ',')) (fun _ => do
    let _ ← spaced do
      char '!'
      identifier
    metadataOperand
    pure (.inl ())) (pure (.inr ()))) ()

/-- The first of the parsers that does not fail, and the metadata behind it. -/
def firstInstruction : List (P Unit) → P Unit
  | [] => fail .error
  | f::rest => ifOk f (fun _ => parseMetadataIfAny) (firstInstruction rest)

def instructionParsers : List (P Unit) :=
  [parseAlloca,parsePhi,parseLoad,parseStore,parseInsertvalue,parseExtractvalue,parseAddSubMul,
    parseIcmp,parseCast,parseGetelementptr,parseCall,parseInvoke,parseLandingpad,parseResume,parseBr,
    parseSwitch,parseRet,parseUnreachable]

/-- `instruction::parse`. -/
def parseInstruction : P Unit := do
  ignored (opt do
    spaces
    char '%'
    let _ ← parseName
    spaces
    char '=')
  firstInstruction instructionParsers

end Definitions

/-! ### They come to an end -/

section Sound

variable {d : ℕ}

theorem Safe.ignored {α : Type} {p : Parser Place σ α} (hp : Safe d p) : Safe d (ignored p) :=
  hp.bind fun _ => Safe.ret ()

theorem Eats.word {word : String} (hword : word.toList ≠ []) :
    Eats d (IrParser.spaced (Parsing.tag word) : Parser Place σ Unit) := Eats.spaced (Eats.tag hword)

theorem Safe.word (word : String) :
    Safe d (IrParser.spaced (Parsing.tag word) : Parser Place σ Unit) := Safe.spaced (Safe.tag word)

theorem Safe.alignNumber : Safe d (alignNumber : Parser Place σ Unit) :=
  (Safe.tag _).bind fun _ => (Eats.spaced Eats.digit1).safe.bind fun _ => Safe.ret ()

theorem Safe.commaAlign : Safe d (commaAlign : Parser Place σ Unit) :=
  Safe.spaced ((Eats.char ',').safe.bind fun _ => Safe.spaced Safe.alignNumber)

theorem Safe.optAlign : Safe d (optAlign : Parser Place σ Unit) := Safe.ignored Safe.commaAlign.opt

theorem Safe.attachedMetadata (name : String) : Safe d (attachedMetadata name : Parser Place σ Unit) :=
  Safe.spaces.bind fun _ => (Eats.char ',').safe.bind fun _ => Safe.spaces.bind fun _ =>
    (Safe.tag name).bind fun _ => Safe.spaces.bind fun _ => (Eats.char '!').safe.bind fun _ =>
      Eats.digit1.safe.bind fun _ => Safe.ret ()

theorem Safe.check {place : Place} {b : Bool} (h : place.Fine ↔ b = true) :
    Safe d (check place b : Parser Place σ Unit) := by
  cases b with
  | true =>
    exact Sound.visit (fun _ => Safe.ret ()) (fun hnot => absurd (h.mpr rfl) hnot)
      (Safe.ret (d := d) ()).shrinks
  | false =>
    exact Sound.visit (fun hfine => by cases h.mp hfine) (fun _ _ s _ => ⟨.panic,s,rfl,.panic⟩)
      fun hrun => by cases hrun

theorem Safe.sameType (a b : Ty) :
    Safe d (IrParser.check (.sameType a b) (a = b) : Parser Place σ Unit) :=
  Safe.check decide_eq_true_iff.symm

variable [Unicode]

theorem Safe.parseLabel : Safe d (parseLabel : Parser Place σ Unit) :=
  (Safe.word _).bind fun _ => Safe.ignored (Eats.named '%').safe

theorem Safe.twoValues : Safe d twoValues :=
  Eats.parseType.safe.bind fun ty => (Safe.parseValue ty).bind fun _ => (Eats.sign ',').safe.bind
    fun _ => Safe.ignored (Safe.parseValue ty)

theorem Safe.parseIndices (args : List Value) : Safe d (parseIndices args) :=
  Safe.loop (fun _ => Eats.ifOk (Eats.sign ',') (fun _ => (Safe.parseValue .i32).bind
    fun _ => Safe.ret _) (Sound.ret (by simp))) args

omit [Unicode] in
theorem elementAtAll_cases (types : List CompoundType) (ty : Ty) (args : List Value) :
    (∃ elem, memberOf types ty (args.map fun idx => some (val2idx idx)) = some elem ∧
      (elementAtAll types ty args : Parser Place σ (Option Ty)) = pure (some elem)) ∨
    memberOf types ty (args.map fun idx => some (val2idx idx)) = none ∧
      ((elementAtAll types ty args : Parser Place σ (Option Ty)) = pure none ∨
        (elementAtAll types ty args : Parser Place σ (Option Ty)) = fail .endless) := by
  induction args generalizing ty with
  | nil => exact .inl ⟨ty,rfl,rfl⟩
  | cons idx rest ih =>
    rw [List.map_cons,memberOf,elementAtAll,elementAt]
    rcases elementWith_cases types (some (val2idx idx)) ty with ⟨elem,helem,hp⟩ | ⟨hnone,hp | hp⟩
    · rw [helem,hp]
      exact ih elem
    · rw [hnone,hp]
      exact .inr ⟨rfl,.inl rfl⟩
    · rw [hnone,hp]
      exact .inr ⟨rfl,.inr rfl⟩

theorem Safe.parseCallArgs : Safe d parseCallArgs := by
  have hitem : Eats d callArg := Eats.parseType.bind fun ty => Safe.parseParamAttrs.bind fun _ =>
    Safe.parseValue ty
  have hblind : Blind callArg callArg := Blind.parseType.bind fun ty ty' _ =>
    Blind.parseParamAttrs.bind fun _ _ _ => (Blind.parseConstant ty ty').ifOk
      (fun _ _ _ => Oblivious.ret trivial)
      ((Blind.named '%').bind fun _ _ _ => Oblivious.ret trivial)
  refine (Eats.sign '(').safe.bind fun _ => Safe.ifOk (Eats.sign ')').safe (fun _ => Safe.ret _) ?_
  exact Safe.ignored (Safe.commaItems hitem hblind)

theorem Eats.parseAlloca : Eats d parseAlloca :=
  (Eats.word (by simp)).bind fun _ => Eats.parseType.safe.bind fun _ =>
    Safe.ifOk (Eats.sign ',').safe (fun _ => Safe.ifOk (Safe.spaced Safe.alignNumber) Safe.ret
      ((Eats.typedConstant Safe.parseConstant).safe.bind fun _ =>
        Safe.ifOk Safe.commaAlign Safe.ret (Safe.ret ()))) (Safe.ret ())

theorem Eats.parsePhi : Eats d parsePhi := by
  refine (Eats.word (by simp)).bind fun _ => Eats.parseType.safe.bind fun ty =>
    Safe.loop (fun _ => Eats.sound (Eats.bind (Eats.sign '[') fun _ => ?_)) ()
  exact (Safe.parseValue ty).bind fun _ => (Eats.sign ',').safe.bind fun _ =>
    (Eats.named '%').safe.bind fun _ => (Eats.sign ']').safe.bind fun _ =>
      Safe.ifOk (Eats.sign ',').safe (fun _ => Safe.ret _) (Safe.ret _)

theorem Eats.parseLoad : Eats d parseLoad :=
  (Eats.word (by simp)).bind fun _ => Eats.parseType.safe.bind fun _ => (Eats.sign ',').safe.bind
    fun _ => Eats.typedValue.safe.bind fun _ => Safe.optAlign.bind fun _ =>
      (Safe.ignored (Safe.attachedMetadata _).opt).bind fun _ =>
        Safe.ignored (Safe.attachedMetadata _).opt

theorem Eats.parseStore : Eats d parseStore :=
  Eats.bind (Eats.spaced (Eats.bind (Eats.tag (by simp)) fun _ => Safe.spaces)) fun _ =>
    Eats.typedValue.safe.bind fun _ => (Eats.sign ',').safe.bind fun _ =>
      Eats.typedValue.safe.bind fun _ => Safe.optAlign

theorem Eats.parseInsertvalue : Eats d parseInsertvalue :=
  (Eats.word (by simp)).bind fun _ => Eats.typedValue.safe.bind fun _ => (Eats.sign ',').safe.bind
    fun _ => Eats.typedValue.safe.bind fun _ => (Eats.sign ',').safe.bind fun _ =>
      (Safe.parseValue .i32).bind fun _ => Safe.ignored (Safe.parseIndices _)

theorem Eats.parseExtractvalue : Eats d parseExtractvalue :=
  (Eats.word (by simp)).bind fun _ => Eats.parseType.safe.bind fun ty =>
    (Safe.parseValue ty).bind fun _ => (Eats.sign ',').safe.bind fun _ =>
      (Safe.parseValue .i32).bind fun _ => (Safe.parseIndices _).bind fun _ =>
        Safe.bind (Sound.onState _) fun _ =>
          Safe.ignored (Safe.members (elementAtAll_cases _ _ _))

theorem Eats.parseAddSubMul : Eats d parseAddSubMul :=
  Eats.bind (Eats.spaced (Eats.words (by simp))) fun _ =>
    (Safe.ignored (Safe.word _).opt).bind fun _ => (Safe.ignored (Safe.word _).opt).bind fun _ =>
      (Safe.ignored (Safe.word _).opt).bind fun _ => Safe.twoValues

theorem Eats.parseIcmp : Eats d parseIcmp :=
  (Eats.word (by simp)).bind fun _ => (Safe.spaced (Safe.words _)).bind fun _ => Safe.twoValues

theorem Eats.parseCast : Eats d parseCast :=
  Eats.bind (Eats.spaced (Eats.words (by simp))) fun _ => Eats.typedValue.safe.bind fun _ =>
    (Safe.word _).bind fun _ => Safe.ignored Eats.parseType.safe

theorem Eats.parseGetelementptr : Eats d parseGetelementptr := by
  refine (Eats.word (by simp)).bind fun _ => (Safe.ignored (Safe.word _).opt).bind fun _ =>
    Eats.parseType.safe.bind fun _ => (Eats.sign ',').safe.bind fun _ => Safe.loop (fun _ => ?_) ()
  exact Eats.sound (Eats.typedValue.bind fun _ =>
    Safe.ifOk (Eats.sign ',').safe (fun _ => Safe.ret _) (Safe.ret _))

theorem Safe.parseCallee (ty : Ty) : Safe d (parseCallee ty) := by
  refine Safe.ifOk ?_ Safe.ret (Safe.ignored (Safe.parseValue ty))
  exact (Safe.word _).bind fun _ => (Safe.ignored (Safe.word _).opt).bind fun _ =>
    (Eats.spaced Eats.stringLiteral).safe.bind fun _ => (Eats.sign ',').safe.bind fun _ =>
      Safe.ignored (Eats.spaced Eats.stringLiteral).safe

theorem Eats.parseCall : Eats d parseCall :=
  (Eats.word (by simp)).bind fun _ => Safe.parseParamAttrs.bind fun _ =>
    Eats.parseType.safe.bind fun ty => (Safe.parseCallee ty).bind fun _ =>
      Safe.parseCallArgs.bind fun _ => Safe.parseAttributes.bind fun _ =>
        Safe.ignored (Safe.attachedMetadata _).opt

theorem Safe.labelled (word : String) : Safe d (labelled word : Parser Place σ Unit) :=
  (Safe.word _).bind fun _ => Safe.parseLabel

theorem Eats.parseInvoke : Eats d parseInvoke :=
  (Eats.word (by simp)).bind fun _ => Safe.parseParamAttrs.bind fun _ =>
    Eats.typedValue.safe.bind fun _ => Safe.parseCallArgs.bind fun _ => Safe.parseAttributes.bind
      fun _ => (Safe.labelled _).bind fun _ => Safe.labelled _

theorem Eats.parseLandingpad : Eats d parseLandingpad := by
  refine (Eats.word (by simp)).bind fun _ => Eats.parseType.safe.bind fun _ =>
    (Safe.word _).opt.bind fun _ => Safe.bind (Safe.loop (fun catches => ?_) 0) fun _ =>
      Safe.check (by simp [Place.Fine])
  refine Sound.bind (Eats.opt (Eats.word (by simp))) (fun a _ => ?_) fun a ha => ?_
  · cases a with
    | none => exact Safe.ret _
    | some _ => exact Eats.typedValue.safe.bind fun _ => Safe.ret _
  · cases a with
    | none => exact Sound.ret (by simp)
    | some _ => exact absurd rfl ha

theorem Eats.parseResume : Eats d parseResume :=
  (Eats.word (by simp)).bind fun _ => Safe.ignored Eats.typedValue.safe

theorem Eats.parseBr : Eats d parseBr :=
  (Eats.word (by simp)).bind fun _ => Safe.ifOk (Safe.word _)
    (fun _ => Safe.ignored (Eats.named '%').safe)
    (Eats.parseType.safe.bind fun ty => (Safe.sameType ty .i1).bind fun _ => (Safe.parseValue ty).bind
      fun _ => (Eats.sign ',').safe.bind fun _ => Safe.parseLabel.bind fun _ =>
        (Eats.sign ',').safe.bind fun _ => Safe.parseLabel)

theorem Eats.parseSwitch : Eats d parseSwitch := by
  refine (Eats.word (by simp)).bind fun _ => Eats.parseType.safe.bind fun ty =>
    (Safe.parseValue ty).bind fun _ => (Eats.sign ',').safe.bind fun _ => Safe.parseLabel.bind
      fun _ => (Eats.sign '[').safe.bind fun _ => Safe.loop (fun _ => ?_) ()
  refine Safe.bind (Eats.sign ']').safe.opt fun a => ?_
  cases a with
  | some _ => exact Sound.ret (by simp)
  | none =>
    exact Eats.sound (Eats.parseType.bind fun caseTy => (Safe.sameType caseTy ty).bind fun _ =>
      (Safe.parseValue caseTy).bind fun _ => (Eats.sign ',').safe.bind fun _ => Safe.parseLabel.bind
        fun _ => Safe.ret _)

theorem Eats.parseRet : Eats d parseRet := by
  refine Eats.bind (Eats.spaced (Eats.bind (Eats.tag (by simp)) fun _ => Safe.spaces)) fun _ =>
    Eats.parseType.safe.bind fun ty => ?_
  split_ifs
  · exact Safe.ret ()
  · exact Safe.ignored (Safe.parseValue ty)

omit [Unicode] in
theorem Eats.parseUnreachable : Eats d parseUnreachable :=
  Eats.spaced (Eats.bind (Eats.tag (by simp)) fun _ => Safe.spaces)

theorem Safe.parseMetadataIfAny : Safe d parseMetadataIfAny := by
  refine Safe.loop (fun _ => Eats.ifOk (Eats.sign ',') (fun _ => ?_) (Sound.ret (by simp))) ()
  exact (Eats.spaced ((Eats.char '!').bind fun _ => Eats.identifier.safe)).safe.bind fun _ =>
    Safe.metadataOperand.bind fun _ => Safe.ret _

theorem Eats.firstInstruction {list : List (P Unit)} (h : ∀ p ∈ list, ∀ d, Eats d p) :
    Eats d (firstInstruction list) := by
  induction list with
  | nil => exact Sound.fail .error
  | cons p list ih =>
    exact Eats.ifOk (h p List.mem_cons_self d) (fun _ => Safe.parseMetadataIfAny)
      (ih fun q hq => h q (List.mem_cons_of_mem p hq))

theorem Eats.parseInstruction : Eats d parseInstruction := by
  refine Safe.bind (Safe.ignored (Safe.opt ?_)) fun _ => Eats.firstInstruction ?_
  · exact Safe.spaces.bind fun _ => (Eats.char '%').safe.bind fun _ => Eats.parseName.safe.bind
      fun _ => Safe.spaces.bind fun _ => (Eats.char '=').safe
  · simp only [instructionParsers,List.forall_mem_cons,List.not_mem_nil,false_imp_iff,implies_true,
      and_true]
    exact ⟨fun _ => Eats.parseAlloca,fun _ => Eats.parsePhi,fun _ => Eats.parseLoad,
      fun _ => Eats.parseStore,fun _ => Eats.parseInsertvalue,fun _ => Eats.parseExtractvalue,
      fun _ => Eats.parseAddSubMul,fun _ => Eats.parseIcmp,fun _ => Eats.parseCast,
      fun _ => Eats.parseGetelementptr,fun _ => Eats.parseCall,fun _ => Eats.parseInvoke,
      fun _ => Eats.parseLandingpad,fun _ => Eats.parseResume,fun _ => Eats.parseBr,
      fun _ => Eats.parseSwitch,fun _ => Eats.parseRet,fun _ => Eats.parseUnreachable⟩

end Sound

end IrParser
end Codegen
end OlaLang
