import OlaLang.ParseInstructions

/-! The parser of the IR text: global variables, functions and modules. It returns a module or an
error exactly for the texts in which all places that its run comes to are fine. -/
namespace OlaLang
namespace Codegen
namespace IrParser

open Parsing

variable {σ : Type}

/-! ### Blocks -/

/-- `append_block`: the block that was the last one gets a link to the new one. -/
def appendBlock (label : Name) : P Unit := onState fun s => ((),{ s with
  next := match s.lastBlock with
    | some last => (last,label)::s.next
    | none => s.next
  lastBlock := some label
  firstBlock := s.firstBlock.or (some label) })

/-- `Layout::new`. -/
def newLayout : P Unit := onState fun s =>
  ((),{ s with next := [], firstBlock := none, lastBlock := none })

/-- `set_blocks_info` goes over the links, from the first block to one that has none. -/
def setBlocksInfo : P Unit := do
  let s ← onState fun s : State => (s,s)
  match s.firstBlock with
  | some first =>
    ignored (visit (.blocks s.next first)
      (endOf (fun label => s.next.lookup label) s.next.length first))
  | none => pure ()

/-! ### Functions -/

def parseLinkage : Parser Place σ String :=
  words (["private","internal","external","externalweak","availableexternally","linkonce_any",
    "linkonce_odr","linkonce_odrautohide","weakany","weakodr","common","appending","dllimport",
    "dllexport","ghost","linkerprivate","linkerprivateweak"].map fun word => (word,word))

/-- Linkage, preemption specifier and visibility. -/
def parseSpecifiers : Parser Place σ (Option String) := do
  let linkage ← opt (spaced parseLinkage)
  ignored (opt (spaced (anyTag ["dso_local","dso_preemptable"])))
  ignored (opt (spaced (anyTag ["default","hidden","protected"])))
  pure linkage

def parseUnnamedAddr : Parser Place σ Unit :=
  ignored (opt (spaced (anyTag ["local_unnamed_addr","unnamed_addr"])))

section Definitions

variable [Unicode]

def parseArgument : P Unit := do
  let _ ← parseType
  let _ ← parseParamAttrs
  ignored (opt (named '%'))

/-- The number of the parameters. -/
def parseArgumentList : P ℕ := do
  spaced (char '(')
  ifOk (spaced (char ')')) (fun _ => pure 0) do
    let params ← loop (fun params =>
      ifOk (spaced (tag "...")) (fun _ => pure (.inr params)) do
        parseArgument
        ifOk (spaced (char ',')) (fun _ => pure (.inl (params+1))) (pure (.inr (params+1)))) 0
    spaced (char ')')
    pure params

/-- A label in front of a block. -/
def blockLabel : Parser Place σ Name := spaced do
  let label ← parseName
  spaced (char ':')
  pure label

/-- A turn of the loop of `parse_body`: a block, and the label of the next one. -/
def bodyTurn (label : Name) : P (Name ⊕ Unit) := do
  appendBlock label
  loop (fun _ => ifOk parseInstruction (fun _ => pure (.inl ())) (pure (.inr ()))) ()
  ifOk (spaced (char '\x7d')) (fun _ => do
    setBlocksInfo
    pure (.inr ())) <|
  ifOk blockLabel (fun label => pure (.inl label)) do
  let rest ← source
  fail (.located rest "Parse error: function body")

def parseBody (numArgs : ℕ) : P Unit := do
  spaced (char '\x7b')
  ifOk (spaced (char '\x7d')) pure do
    let entry ← opt blockLabel
    loop bodyTurn (entry.getD (.number numArgs))

def parsePersonality : P Unit :=
  ifOk (spaced (tag "personality")) (fun _ => ignored (typedConstant parseConstant)) (pure ())

/-- A name of letters, `to_string().cloned().unwrap()`. -/
def nameString : Name → Option Text
  | .name s => some s
  | .number _ => none

/-- `function::parse`. -/
def parseFunction : P Unit := do
  let isPrototype ← spaced (words [("define",false),("declare",true)])
  let _ ← parseSpecifiers
  let _ ← parseParamAttrs
  let _ ← parseType
  spaced (char '@')
  spaces
  let name ← parseName
  ignored (unwrapAt (.functionName name) (nameString name))
  let params ← parseArgumentList
  parseUnnamedAddr
  let _ ← parseAttributes
  ignored (opt do
    spaced (tag "section")
    spaced stringLiteral)
  ignored (opt (spaced (tag "comdat")))
  ignored (opt do
    spaced (tag "align")
    spaced digit1)
  parsePersonality
  newLayout
  if isPrototype then pure () else parseBody params

/-! ### Modules -/

/-- `global_variable::parse`. -/
def parseGlobalVariable : P Unit := do
  let _ ← named '@'
  spaced (char '=')
  let linkage ← parseSpecifiers
  parseUnnamedAddr
  spaced (anyTag ["global","constant"])
  let ty ← parseType
  if linkage = some "external" ∨ linkage = some "externalweak" then pure () else
    ifOk (parseConstant ty) (fun _ => pure ()) (pure ())
  let align ← opt (spaced do
    char ','
    spaced do
      tag "align"
      spaced digit1)
  match align with
  | some digits => ignored (parseNumber 32 digits)
  | none => pure ()

def parseSourceFilename : Parser Place σ Unit := do
  tag "source_filename"
  spaced (char '=')
  ignored (spaced stringLiteral)

/-- `parse_target_datalayout` and `parse_target_triple`. -/
def parseTarget (word : String) : Parser Place σ Unit := do
  tag "target"
  spaced (tag word)
  spaced (char '=')
  ignored (spaced stringLiteral)

def parseAttributeGroup : Parser Place σ Unit := do
  tag "attributes"
  spaced (char '#')
  let id ← digit1
  spaced (char '=')
  spaced (char '\x7b')
  let _ ← spaced parseAttributes
  spaced (char '\x7d')
  ignored (parseNumber 32 id)

def parseLocalType : P Unit := do
  let name ← named '%'
  let _ ← emptyNamedType name
  spaced (char '=')
  spaced (tag "type")
  let ty ← parseType
  changeToNamedType ty name

/-- A turn of the loop of `module::parse`: an item of the module, or the end of the text. -/
def moduleTurn (_ : Unit) : P (Unit ⊕ Unit) := do
  spaces
  let rest ← source
  if rest = [] then pure (.inr ()) else
  let next : Unit → P (Unit ⊕ Unit) := fun _ => pure (.inl ())
  ifOk parseSourceFilename next <|
  ifOk (parseTarget "datalayout") next <|
  ifOk (parseTarget "triple") next <|
  ifOk parseAttributeGroup next <|
  ifOk parseLocalType next <|
  ifOk parseGlobalVariable next <|
  ifOk parseFunction next <|
  ifOk parseMetadata next <|
  fail (.located rest "Parse error: module body")

def parseModule : P Unit := loop moduleTurn ()

/-- The beginning of a run. -/
def start : Trace Place State := ⟨State.new,[]⟩

/-- `module::parse` on a whole text. -/
def parse (m : Mode) (text : Text) : Result Unit := (parseModule m start text).1

/-- The places that the run comes to on a text, up to the first one that is not fine. -/
def places (text : Text) : List Place := (parseModule .watched start text).2.places

end Definitions

/-- A module or an error. -/
def Returns {α : Type} : Result α → Prop
  | .ok _ => True
  | .error .panic | .error .endless | .error .stuck => False
  | .error _ => True

/-! ### The parser comes to an end -/

section Sound

variable {d : ℕ}

theorem Safe.setBlocksInfo : Safe d setBlocksInfo := by
  refine (Sound.onState _).bind fun s => ?_
  cases s.firstBlock with
  | none => exact Safe.ret ()
  | some first => exact Safe.ignored (Safe.endOf (blocks_iff s.next first))

theorem Safe.parseSpecifiers : Safe d (parseSpecifiers : Parser Place σ (Option String)) :=
  (Safe.opt (Safe.spaced (Safe.words _))).bind fun _ =>
    (Safe.ignored (Safe.opt (Safe.spaced (Safe.words _)))).bind fun _ =>
      (Safe.ignored (Safe.opt (Safe.spaced (Safe.words _)))).bind fun _ => Safe.ret _

theorem Safe.parseUnnamedAddr : Safe d (parseUnnamedAddr : Parser Place σ Unit) :=
  Safe.ignored (Safe.opt (Safe.spaced (Safe.words _)))

variable [Unicode]

theorem Eats.parseArgument : Eats d parseArgument :=
  Eats.parseType.bind fun _ => Safe.parseParamAttrs.bind fun _ => Safe.ignored (Eats.named '%').safe.opt

theorem Safe.parseArgumentList : Safe d parseArgumentList := by
  refine (Eats.sign '(').safe.bind fun _ => Safe.ifOk (Eats.sign ')').safe (fun _ => Safe.ret _)
    (Safe.bind (Safe.loop (fun params => ?_) 0) fun _ => (Eats.sign ')').safe.bind
      fun _ => Safe.ret _)
  refine Safe.ifOk (Safe.word _) (fun _ => Sound.ret (by simp)) ?_
  exact Eats.sound (Eats.parseArgument.bind fun _ => Safe.ifOk (Eats.sign ',').safe
    (fun _ => Safe.ret _) (Safe.ret _))

theorem Eats.blockLabel : Eats d (blockLabel : Parser Place σ Name) :=
  Eats.spaced (Eats.parseName.bind fun _ => (Eats.sign ':').safe.bind fun _ => Safe.ret _)

theorem Sound.bodyTurn (label : Name) :
    Sound d (fun r => r.isLeft = true) (bodyTurn label) := by
  refine Safe.bind (Sound.onState _) fun _ => Safe.bind (Safe.loop (fun _ => ?_) ()) fun _ => ?_
  · exact Eats.ifOk Eats.parseInstruction (fun _ => Safe.ret _) (Sound.ret (by simp))
  · refine Eats.ifOk (Eats.sign '\x7d') (fun _ => Safe.setBlocksInfo.bind fun _ => Safe.ret _) ?_
    exact Eats.ifOk Eats.blockLabel (fun _ => Safe.ret _) (Safe.bind Sound.source fun _ =>
      Sound.fail (.located _ _))

theorem Safe.parseBody (numArgs : ℕ) : Safe d (parseBody numArgs) :=
  (Eats.sign '\x7b').safe.bind fun _ => Safe.ifOk (Eats.sign '\x7d').safe Safe.ret
    (Eats.blockLabel.safe.opt.bind fun _ => Safe.loop Sound.bodyTurn _)

theorem Safe.parsePersonality : Safe d parsePersonality :=
  Safe.ifOk (Safe.word _) (fun _ => Safe.ignored (Eats.typedConstant Safe.parseConstant).safe)
    (Safe.ret ())

omit [Unicode] in
theorem Safe.functionName (name : Name) :
    Safe d (IrParser.ignored (IrParser.unwrapAt (.functionName name) (nameString name)) : P Unit) := by
  refine Safe.ignored (Safe.unwrapAt ?_)
  cases name <;> simp [Place.Fine,nameString]

theorem Eats.parseFunction : Eats d parseFunction := by
  refine Eats.bind (Eats.spaced (Eats.words (by simp))) fun isPrototype => ?_
  refine Safe.parseSpecifiers.bind fun _ => Safe.parseParamAttrs.bind fun _ =>
    Eats.parseType.safe.bind fun _ => (Eats.sign '@').safe.bind fun _ => Safe.spaces.bind fun _ =>
      Eats.parseName.safe.bind fun name => (Safe.functionName name).bind fun _ =>
        Safe.parseArgumentList.bind fun _ => Safe.parseUnnamedAddr.bind fun _ =>
          Safe.parseAttributes.bind fun _ => ?_
  have hsection : Safe (d-1) (do
      IrParser.spaced (tag "section")
      IrParser.spaced IrParser.stringLiteral : P Text) :=
    (Safe.word _).bind fun _ => (Eats.spaced Eats.stringLiteral).safe
  have halign : Safe (d-1) (do
      IrParser.spaced (tag "align")
      IrParser.spaced IrParser.digit1 : P Text) :=
    (Safe.word _).bind fun _ => (Eats.spaced Eats.digit1).safe
  refine (Safe.ignored hsection.opt).bind fun _ => (Safe.ignored (Safe.word _).opt).bind fun _ =>
    (Safe.ignored halign.opt).bind fun _ => Safe.parsePersonality.bind fun _ =>
      Safe.bind (Sound.onState _) fun _ => ?_
  split_ifs
  · exact Safe.ret ()
  · exact Safe.parseBody _

theorem Eats.parseGlobalVariable : Eats d parseGlobalVariable := by
  refine (Eats.named '@').bind fun _ => (Eats.sign '=').safe.bind fun _ =>
    Safe.parseSpecifiers.bind fun _ => Safe.parseUnnamedAddr.bind fun _ =>
      (Safe.spaced (Safe.words _)).bind fun _ => Eats.parseType.safe.bind fun ty => ?_
  have halign : Safe (d-1) (opt (IrParser.spaced (do
      char ','
      IrParser.spaced (do
        tag "align"
        IrParser.spaced IrParser.digit1))) : P (Option Text)) :=
    Safe.opt (Safe.spaced ((Eats.char ',').safe.bind fun _ => Safe.spaced ((Safe.tag _).bind
      fun _ => (Eats.spaced Eats.digit1).safe)))
  have hnumber : ∀ align : Option Text, Safe (d-1) (match align with
      | some digits => IrParser.ignored (IrParser.parseNumber 32 digits)
      | none => pure () : P Unit) := fun align => by
    cases align with
    | some digits => exact Safe.ignored (Safe.parseNumber 32 digits)
    | none => exact Safe.ret ()
  have hrest := halign.bind hnumber
  split_ifs
  · exact (Safe.ret ()).bind fun _ => hrest
  · exact Safe.bind (Safe.ifOk (Safe.parseConstant ty) (fun _ => Safe.ret _) (Safe.ret _))
      fun _ => hrest

omit [Unicode] in
theorem Eats.parseSourceFilename : Eats d (parseSourceFilename : Parser Place σ Unit) :=
  Eats.bind (Eats.tag (by simp)) fun _ => (Eats.sign '=').safe.bind fun _ =>
    Safe.ignored (Eats.spaced Eats.stringLiteral).safe

omit [Unicode] in
theorem Eats.parseTarget (word : String) : Eats d (parseTarget word : Parser Place σ Unit) :=
  Eats.bind (Eats.tag (by simp)) fun _ => (Safe.word _).bind fun _ => (Eats.sign '=').safe.bind
    fun _ => Safe.ignored (Eats.spaced Eats.stringLiteral).safe

omit [Unicode] in
theorem Eats.parseAttributeGroup : Eats d (parseAttributeGroup : Parser Place σ Unit) :=
  Eats.bind (Eats.tag (by simp)) fun _ => (Eats.sign '#').safe.bind fun _ => Eats.digit1.safe.bind
    fun _ => (Eats.sign '=').safe.bind fun _ => (Eats.sign '\x7b').safe.bind fun _ =>
      (Safe.spaced Safe.parseAttributes).bind fun _ => (Eats.sign '\x7d').safe.bind fun _ =>
        Safe.ignored (Safe.parseNumber 32 _)

theorem Eats.parseLocalType : Eats d parseLocalType :=
  (Eats.named '%').bind fun _ => Safe.bind (Sound.onState _) fun _ => (Eats.sign '=').safe.bind
    fun _ => (Safe.word _).bind fun _ => Eats.parseType.safe.bind fun _ => Sound.onState _

theorem Sound.moduleTurn : Sound d (fun r => r.isLeft = true) (moduleTurn ()) := by
  refine Safe.spaces.bind fun _ => Safe.bind Sound.source fun rest => ?_
  split_ifs
  · exact Sound.ret (by simp)
  refine Eats.ifOk Eats.parseSourceFilename (fun _ => Safe.ret _) ?_
  refine Eats.ifOk (Eats.parseTarget _) (fun _ => Safe.ret _) ?_
  refine Eats.ifOk (Eats.parseTarget _) (fun _ => Safe.ret _) ?_
  refine Eats.ifOk Eats.parseAttributeGroup (fun _ => Safe.ret _) ?_
  refine Eats.ifOk Eats.parseLocalType (fun _ => Safe.ret _) ?_
  refine Eats.ifOk Eats.parseGlobalVariable (fun _ => Safe.ret _) ?_
  refine Eats.ifOk Eats.parseFunction (fun _ => Safe.ret _) ?_
  exact Eats.ifOk Eats.parseMetadata (fun _ => Safe.ret _) (Sound.fail (.located _ _))

theorem Safe.parseModule : Safe d parseModule := Safe.loop (fun _ => Sound.moduleTurn) ()

theorem parse_follows (k : ℕ) (text : Text) :
    Follows (IrParser.parseModule .watched start text) (IrParser.parseModule (.turns k) start text) :=
  Safe.parseModule.follows k start text (fun _ h => absurd h List.not_mem_nil) (Nat.lt_succ_self _)

/-- A run that comes back has come to the same places as the watched one. -/
theorem places_of_returns {k : ℕ} {text : Text} (h : Returns (parse (.turns k) text)) :
    (IrParser.parseModule (.turns k) start text).2.places = places text := by
  have hfollows := parse_follows k text
  rw [parse] at h
  rw [places]
  generalize IrParser.parseModule .watched start text = w at hfollows ⊢
  generalize IrParser.parseModule (.turns k) start text = c at h hfollows ⊢
  cases hfollows with
  | ok _ _ _ => rfl
  | err _ _ => rfl
  | lost _ _ he =>
    cases he with
    | panic => exact False.elim h
    | endless => exact False.elim h

/-- A run that comes back has come to fine places only. -/
theorem fine_of_returns {k : ℕ} {text : Text} (h : Returns (parse (.turns k) text)) :
    ∀ place ∈ places text, place.Fine := by
  have hfollows := parse_follows k text
  rw [parse] at h
  rw [places]
  generalize IrParser.parseModule .watched start text = w at hfollows ⊢
  generalize IrParser.parseModule (.turns k) start text = c at h hfollows
  cases hfollows with
  | ok _ _ hs => exact hs
  | err hs _ => exact hs
  | lost _ _ he =>
    cases he with
    | panic => exact False.elim h
    | endless => exact False.elim h

/-- From fine places the run goes on, until it comes back. -/
theorem returns_of_fine (k : ℕ) {text : Text} (h : ∀ place ∈ places text, place.Fine) :
    Returns (parse (.turns k) text) := by
  have hfollows := parse_follows k text
  rw [places] at h
  rw [parse]
  generalize IrParser.parseModule .watched start text = w at h hfollows
  generalize IrParser.parseModule (.turns k) start text = c at hfollows ⊢
  cases hfollows with
  | ok _ _ _ => trivial
  | err _ he =>
    cases he with
    | error => trivial
    | failure => trivial
    | located _ _ => trivial
  | lost _ hs _ => exact absurd h hs

end Sound

/-! ### A text that breaks off -/

/-- The letters and digits of ASCII. -/
@[reducible] def ascii : Unicode := ⟨Char.isAlphanum⟩

/-- The list of the indices is not closed. -/
def brokenOff : Text := "@g = global i32 getelementptr (i32, i32 undef".toList

end IrParser
end Codegen
end OlaLang
