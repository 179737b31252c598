import OlaLang.ParseTypes

/-! The parser of the IR text: attributes, constants, operands and metadata. -/
namespace OlaLang
namespace Codegen
namespace IrParser

open Parsing
open FieldConstants (ConstantInt parseSigned)

variable {σ : Type}

/-! ### Attributes -/

/-- The constant in front of `=`, and the one behind it. -/
def stringAttribute : Parser Place σ Unit := do
  let _ ← stringLiteral
  spaces
  char '='
  spaces
  let _ ← stringLiteral
  pure ()

/-- `#` with a number that fits. -/
def attributeRef : Parser Place σ Unit := do
  char '#'
  let num ← digit1
  let _ ← parseNumber 32 num
  pure ()

def attributeWords : List String :=
  ["alwaysinline","builtin","cold","convergent","inaccessiblememonly","inaccessiblememorargmemonly",
    "inlinehint","jumptable","minimizesize","mustprogress","naked","nobuiltin","nocfcheck",
    "noduplicate","nofree","noimplicitfloat","noinline","nonlazybind","noredzone","noreturn",
    "norecurse","willreturn","returnstwice","nosync","nounwind","optforfuzzing","optnone","optsize",
    "readnone","readonly","writeonly","argmemonly","safestack","sanitizeaddress","sanitizememory",
    "sanitizethread","sanitizehwaddress","sanitizememtag","shadowcallstack",
    "speculativeloadhardening","speculatable","ssp","sspreq","sspstrong","strictfp","uwtable"]

def parseAttribute : Parser Place σ Unit :=
  alt [anyTag attributeWords,stringAttribute,do
    let _ ← stringLiteral
    pure (),attributeRef]

def parseAttributes : Parser Place σ (List Unit) := many0 (spaced parseAttribute)

section Definitions

variable [Unicode]

/-- A number in parentheses, which may be left out. -/
def dereferenceable : Parser Place σ Unit := do
  tag "dereferenceable"
  spaces
  let _ ← opt (char '(')
  let num ← digit1
  let _ ← opt (char ')')
  let _ ← parseNumber 64 num
  pure ()

def alignment : Parser Place σ Unit := do
  let num ← alt [do
      tag "align"
      spaces
      char '('
      let n ← digit1
      char ')'
      pure n,
    do
      tag "align"
      spaces
      digit1]
  let _ ← parseNumber 64 num
  pure ()

def parseParamAttr : P Unit :=
  alt [anyTag ["zeroext","signext","inreg","byval","inalloca"],
    do
      tag "sret"
      spaces
      char '('
      let _ ← parseType
      char ')',
    tag "sret",
    alignment,
    anyTag ["readonly","noalias","nocapture","nofree","nest","returned","nonnull","noundef"],
    dereferenceable,
    anyTag ["swiftself","swifterror","writeonly","immarg"],
    stringAttribute,
    attributeRef]

def parseParamAttrs : P (List Unit) := many0 (spaced parseParamAttr)

/-! ### Constants -/

/-- What the parser looks at of a constant. -/
inductive Value
  | int (i : ConstantInt) | other

/-- The text of a number or a truth value. -/
def recognizeInt : Parser Place σ Text := do
  let sign ← opt (char '-')
  let num ← alt [digit1,words [("true","true".toList),("false","false".toList)]]
  pure (if sign.isSome then '-'::num else num)

def constantInt (ty : Ty) (num : Text) : Option ConstantInt :=
  match ty with
  | .i1 => some (.int1 (num = "true".toList))
  | .i8 => (parseSigned 8 num).map .int8
  | .i32 | .i64 => (parseSigned 64 num).map .int64
  | _ => none

def parseConstantInt (ty : Ty) : P Value := do
  let num ← spaced recognizeInt
  let val ← unwrapAt (.constant ty num) (constantInt ty num)
  pure (.int val)

variable (parse : Ty → P Value)

/-- A type and a constant of it. -/
def typedConstant : P Value := do
  let ty ← parseType
  parse ty

def parseConstantArray (ty : Ty) : P Value :=
  ifOk (spaced (char 'c')) (fun _ => do
    let _ ← spaced stringLiteral
    pure .other) do
  spaced (char '[')
  loop (fun _ => do
    let _ ← typedConstant parse
    ifOk (spaced (char ',')) (fun _ => pure (.inl ())) (pure (.inr ()))) ()
  spaced (char ']')
  let types ← typesTable
  let _ ← visit (.members types ty [none]) do
    let elem ← element types ty
    unwrap elem
  pure .other

def parseConstantGetelementptr : P Value := do
  spaced (tag "getelementptr")
  let _ ← opt (spaced (tag "inbounds"))
  spaced (char '(')
  let _ ← parseType
  spaced (char ',')
  let _ ← items .behindItem (spaced (char ',')) (spaced (char ')')) (typedConstant parse)
  pure .other

def parseConstantBitcast : P Value := do
  spaced (tag "bitcast")
  spaced (char '(')
  let _ ← typedConstant parse
  spaced (tag "to")
  let _ ← parseType
  spaced (char ')')
  pure .other

def parseConstantExpr : P Value :=
  ifOk (parseConstantGetelementptr parse) pure (parseConstantBitcast parse)

def parseConstantGlobalRef : Parser Place σ Value := do
  let _ ← named '@'
  pure .other

def parseConstantStruct : P Value := do
  let isPacked ← spaced (words [("\x7b",false),("<\x7b",true)])
  loop (fun _ => do
    let _ ← typedConstant parse
    ifOk (spaced (char ',')) (fun _ => pure (.inl ())) do
      closeStruct isPacked
      pure (.inr .other)) ()

def parseConstantBody (ty : Ty) : P Value :=
  ifOk (spaced (tag "undef")) (fun _ => pure .other) <|
  ifOk (spaced (tag "null")) (fun _ => pure .other) <|
  ifOk (spaced (tag "zeroinitializer")) (fun _ => pure .other) <|
  ifOk (parseConstantInt ty) pure <|
  ifOk (parseConstantArray parse ty) pure <|
  ifOk parseConstantGlobalRef pure <|
  ifOk (parseConstantStruct parse) pure <|
  parseConstantExpr parse

def parseConstant (ty : Ty) : P Value := fix parseConstantBody ty

def parseLocal : Parser Place σ Value := do
  let _ ← named '%'
  pure .other

/-- `value::parse`. -/
def parseValue (ty : Ty) : P Value := ifOk (parseConstant ty) pure parseLocal

/-- A type and a value of it. -/
def typedValue : P Value := do
  let ty ← parseType
  parseValue ty

/-! ### Metadata -/

def exclamation : Parser Place σ Unit := spaced (tag "!")

def metadataString : Parser Place σ Unit := do
  exclamation
  let _ ← spaced stringLiteral
  pure ()

def metadataName : Parser Place σ Unit := do
  exclamation
  let _ ← parseName
  pure ()

def metadataInt : P Unit := do
  let _ ← typedConstant parseConstant
  pure ()

def metadataNode (operand : Unit → P Unit) : P Unit := do
  spaces
  let _ ← opt (tag "distinct")
  exclamation
  spaces
  char '\x7b'
  let _ ← separatedList0 (spaced (tag ",")) (operand ())
  spaces
  char '\x7d'

def metadataOperand : P Unit :=
  fix (fun operand _ => alt [metadataString,metadataName,metadataNode operand,metadataInt]) ()

/-- `metadata::parse`. -/
def parseMetadata : P Unit := do
  exclamation
  let _ ← parseName
  spaced (tag "=")
  metadataNode fun _ => metadataOperand

end Definitions

/-! ### All of them come to an end -/

section Sound

variable {d : ℕ}

theorem Safe.stringAttribute : Safe d (stringAttribute : Parser Place σ Unit) :=
  Eats.stringLiteral.safe.bind fun _ => Safe.spaces.bind fun _ => (Eats.char '=').safe.bind fun _ =>
    Safe.spaces.bind fun _ => Eats.stringLiteral.safe.bind fun _ => Safe.ret ()

theorem Safe.attributeRef : Safe d (attributeRef : Parser Place σ Unit) :=
  (Eats.char '#').safe.bind fun _ => Eats.digit1.safe.bind fun _ =>
    (Safe.parseNumber _ _).bind fun _ => Safe.ret ()

theorem Safe.parseAttribute : Safe d (parseAttribute : Parser Place σ Unit) :=
  .alt_cons (Safe.words _) <| .alt_cons Safe.stringAttribute <|
    .alt_cons (Eats.stringLiteral.safe.bind fun _ => Safe.ret ()) <|
    .alt_cons Safe.attributeRef .alt_nil

theorem Safe.parseAttributes : Safe d (parseAttributes : Parser Place σ (List Unit)) :=
  Safe.many0 (Safe.spaced Safe.parseAttribute)

theorem Safe.dereferenceable : Safe d (dereferenceable : Parser Place σ Unit) :=
  (Safe.tag _).bind fun _ => Safe.spaces.bind fun _ => (Eats.char '(').safe.opt.bind fun _ =>
    Eats.digit1.safe.bind fun _ => (Eats.char ')').safe.opt.bind fun _ =>
      (Safe.parseNumber _ _).bind fun _ => Safe.ret ()

theorem Safe.alignment : Safe d (alignment : Parser Place σ Unit) :=
  Safe.bind (.alt_cons ((Safe.tag _).bind fun _ => Safe.spaces.bind fun _ =>
        (Eats.char '(').safe.bind fun _ => Eats.digit1.safe.bind fun _ =>
          (Eats.char ')').safe.bind fun _ => Safe.ret _) <|
      .alt_cons ((Safe.tag _).bind fun _ => Safe.spaces.bind fun _ => Eats.digit1.safe) .alt_nil)
    fun _ => (Safe.parseNumber _ _).bind fun _ => Safe.ret ()

variable [Unicode]

theorem Safe.parseParamAttr : Safe d parseParamAttr :=
  .alt_cons (Safe.words _) <|
  .alt_cons ((Safe.tag _).bind fun _ => Safe.spaces.bind fun _ => (Eats.char '(').safe.bind fun _ =>
    Eats.parseType.safe.bind fun _ => (Eats.char ')').safe) <|
  .alt_cons (Safe.tag _) <| .alt_cons Safe.alignment <| .alt_cons (Safe.words _) <|
  .alt_cons Safe.dereferenceable <| .alt_cons (Safe.words _) <|
  .alt_cons Safe.stringAttribute <| .alt_cons Safe.attributeRef .alt_nil

theorem Safe.parseParamAttrs : Safe d parseParamAttrs := Safe.many0 (Safe.spaced Safe.parseParamAttr)

omit [Unicode] in
theorem Safe.recognizeInt : Safe d (recognizeInt : Parser Place σ Text) :=
  (Eats.char '-').safe.opt.bind fun _ =>
    Safe.bind (.alt_cons Eats.digit1.safe (.alt_cons (Safe.words _) .alt_nil)) fun _ => Safe.ret _

omit [Unicode] in
theorem constant_fine (ty : Ty) (num : Text) :
    (Place.constant ty num).Fine ↔ (constantInt ty num).isSome = true := by
  have hsigned : ∀ bits, (parseSigned bits num).isSome = true ↔ FitsSigned bits num := fun bits => by
    rw [parseSigned,FitsSigned]
    split_ifs with h <;> simp [h]
  cases ty <;> simp [Place.Fine,constantInt,hsigned]

omit [Unicode] in
theorem Safe.parseConstantInt (ty : Ty) : Safe d (parseConstantInt ty) :=
  (Safe.spaced Safe.recognizeInt).bind fun num =>
    (Safe.unwrapAt (constant_fine ty num)).bind fun _ => Safe.ret _

theorem Safe.parseConstantGlobalRef : Safe d (parseConstantGlobalRef : Parser Place σ Value) :=
  (Eats.named '@').safe.bind fun _ => Safe.ret _

variable {parse : Ty → P Value}

theorem Eats.typedConstant (h : ∀ ty, Safe (d-1) (parse ty)) : Eats d (typedConstant parse) :=
  Eats.parseType.bind h

theorem Safe.parseConstantArray (h : ∀ ty, Safe d (parse ty)) (ty : Ty) :
    Safe (d+1) (parseConstantArray parse ty) := by
  have hitem := Eats.typedConstant fun ty => (h ty).le (Nat.sub_le d 1)
  refine Safe.ifOk (Eats.sign 'c').safe (fun _ => (Eats.spaced Eats.stringLiteral).safe.bind
    fun _ => Safe.ret _) (Eats.bind (Eats.sign '[') fun _ => ?_).safe
  refine Safe.bind (Safe.loop (fun _ => ?_) ()) fun _ => (Eats.sign ']').safe.bind fun _ =>
    Safe.bind (Sound.onState _) fun types => (Safe.element types ty).bind fun _ => Safe.ret _
  exact Eats.sound (hitem.bind fun _ => Safe.ifOk (Eats.sign ',').safe (fun _ => Safe.ret _)
    (Safe.ret _))

theorem Safe.parseConstantGetelementptr (h : ∀ ty, Safe d (parse ty))
    (h' : ∀ ty ty', Blind (parse ty) (parse ty')) :
    Eats (d+1) (parseConstantGetelementptr parse) := by
  have hitem := Eats.typedConstant fun ty => (h ty).le (Nat.sub_le d 1)
  have hblind : Blind (typedConstant parse) (typedConstant parse) :=
    Blind.parseType.bind fun ty ty' _ => h' ty ty'
  refine Eats.bind (Eats.spaced (Eats.tag (by simp))) fun _ => ?_
  refine (Safe.opt (Safe.spaced (Safe.tag _))).bind fun _ => (Eats.sign '(').safe.bind fun _ =>
    Eats.parseType.safe.bind fun _ => (Eats.sign ',').safe.bind fun _ => Safe.bind ?_
      fun _ => Safe.ret _
  exact Safe.commaItems hitem hblind

theorem Safe.parseConstantBitcast (h : ∀ ty, Safe d (parse ty)) :
    Eats (d+1) (parseConstantBitcast parse) :=
  Eats.bind (Eats.spaced (Eats.tag (by simp))) fun _ => (Eats.sign '(').safe.bind fun _ =>
    (Eats.typedConstant fun ty => (h ty).le (Nat.sub_le d 1)).safe.bind fun _ =>
      (Safe.spaced (Safe.tag _)).bind fun _ => Eats.parseType.safe.bind fun _ =>
        (Eats.sign ')').safe.bind fun _ => Safe.ret _

theorem Safe.parseConstantStruct (h : ∀ ty, Safe d (parse ty)) :
    Eats (d+1) (parseConstantStruct parse) := by
  have hitem := Eats.typedConstant fun ty => (h ty).le (Nat.sub_le d 1)
  refine Eats.bind (Eats.spaced (Eats.words (by simp))) fun isPacked => Safe.loop (fun _ => ?_) ()
  exact Eats.sound (hitem.bind fun _ => Safe.ifOk (Eats.sign ',').safe (fun _ => Safe.ret _)
    ((Safe.closeStruct isPacked).bind fun _ => Safe.ret _))

theorem Safe.parseConstantBody (h : ∀ ty, Safe d (parse ty))
    (h' : ∀ ty ty', Blind (parse ty) (parse ty')) (ty : Ty) :
    Safe (d+1) (parseConstantBody parse ty) := by
  have hword : ∀ word, Safe (d+1) (IrParser.spaced (tag word) : P Unit) := fun word =>
    Safe.spaced (Safe.tag word)
  refine Safe.ifOk (hword _) (fun _ => Safe.ret _) (Safe.ifOk (hword _) (fun _ => Safe.ret _)
    (Safe.ifOk (hword _) (fun _ => Safe.ret _) ?_))
  refine Safe.ifOk (Safe.parseConstantInt ty) Safe.ret ?_
  refine Safe.ifOk (Safe.parseConstantArray h ty) Safe.ret ?_
  refine Safe.ifOk Safe.parseConstantGlobalRef Safe.ret ?_
  refine Safe.ifOk (Safe.parseConstantStruct h).safe Safe.ret ?_
  exact Safe.ifOk (Safe.parseConstantGetelementptr h h').safe Safe.ret
    (Safe.parseConstantBitcast h).safe

/-! ### They do the same in every state -/

omit [Unicode] in
theorem Blind.stringAttribute :
    Blind (stringAttribute : Parser Place σ Unit) IrParser.stringAttribute :=
  Blind.stringLiteral.bind fun _ _ _ => Blind.spaces.bind fun _ _ _ => (Blind.ofText _).bind
    fun _ _ _ => Blind.spaces.bind fun _ _ _ => Blind.stringLiteral.bind fun _ _ _ =>
      Oblivious.ret trivial

omit [Unicode] in
theorem Blind.attributeRef : Blind (attributeRef : Parser Place σ Unit) IrParser.attributeRef :=
  (Blind.ofText _).bind fun _ _ _ => Blind.digit1.bind fun _ _ _ => (Blind.unwrapAt _ _ _ _).bind
    fun _ _ _ => Oblivious.ret trivial

omit [Unicode] in
theorem Blind.dereferenceable :
    Blind (dereferenceable : Parser Place σ Unit) IrParser.dereferenceable :=
  (Blind.ofText _).bind fun _ _ _ => Blind.spaces.bind fun _ _ _ => (Blind.ofText _).opt.bind
    fun _ _ _ => Blind.digit1.bind fun _ _ _ => (Blind.ofText _).opt.bind fun _ _ _ =>
      (Blind.unwrapAt _ _ _ _).bind fun _ _ _ => Oblivious.ret trivial

omit [Unicode] in
theorem Blind.alignment : Blind (alignment : Parser Place σ Unit) IrParser.alignment := by
  refine Oblivious.bind (R := fun _ _ => True) (Oblivious.alt (.cons ?_ (.cons ?_ .nil)))
    fun _ _ _ => (Blind.unwrapAt _ _ _ _).bind fun _ _ _ => Oblivious.ret trivial
  · exact (Blind.ofText _).bind fun _ _ _ => Blind.spaces.bind fun _ _ _ => (Blind.ofText _).bind
      fun _ _ _ => Blind.digit1.bind fun _ _ _ => (Blind.ofText _).bind fun _ _ _ =>
        Oblivious.ret trivial
  · exact (Blind.ofText _).bind fun _ _ _ => Blind.spaces.bind fun _ _ _ => Blind.digit1

theorem Blind.parseParamAttrs : Blind parseParamAttrs IrParser.parseParamAttrs := by
  have hsret : Blind (do
      Parsing.tag "sret"
      IrParser.spaces
      char '('
      let _ ← IrParser.parseType
      char ')' : P Unit) (do
      Parsing.tag "sret"
      IrParser.spaces
      char '('
      let _ ← IrParser.parseType
      char ')') :=
    (Blind.ofText _).bind fun _ _ _ => Blind.spaces.bind fun _ _ _ => (Blind.ofText _).bind
      fun _ _ _ => Blind.parseType.bind fun _ _ _ => Blind.ofText _
  have hattr : Blind IrParser.parseParamAttr IrParser.parseParamAttr := Oblivious.alt <|
    .cons (Blind.words _).blind <| .cons hsret <| .cons (Blind.ofText _) <| .cons Blind.alignment <|
    .cons (Blind.words _).blind <| .cons Blind.dereferenceable <| .cons (Blind.words _).blind <|
    .cons Blind.stringAttribute <| .cons Blind.attributeRef .nil
  exact Oblivious.many0 (Oblivious.spaced hattr)

omit [Unicode] in
theorem Blind.parseConstantInt (ty ty' : Ty) :
    Blind (parseConstantInt ty) (IrParser.parseConstantInt ty') := by
  have hint : Blind (recognizeInt : P Text) recognizeInt :=
    (Blind.ofText _).opt.bind fun _ _ _ => Oblivious.bind (R := fun _ _ => True)
      (Oblivious.alt (.cons Blind.digit1 (.cons (Blind.words _).blind .nil)))
      fun _ _ _ => Oblivious.ret trivial
  exact (Oblivious.spaced hint).bind fun _ _ _ => (Blind.unwrapAt _ _ _ _).bind fun _ _ _ =>
    Oblivious.ret trivial

variable {parse' : Ty → P Value}

section Self

variable (h : ∀ ty ty', Blind (parse ty) (parse' ty'))

include h

theorem Blind.typedConstant : Blind (typedConstant parse) (typedConstant parse') :=
  Blind.parseType.bind fun ty ty' _ => h ty ty'

theorem Blind.parseConstantArray (ty ty' : Ty) :
    Blind (parseConstantArray parse ty) (parseConstantArray parse' ty') := by
  refine (Blind.sign 'c').ifOk (fun _ _ _ => (Oblivious.spaced Blind.stringLiteral).bind
    fun _ _ _ => Oblivious.ret trivial) ((Blind.sign '[').bind fun _ _ _ => ?_)
  refine Oblivious.bind (Oblivious.loop (Q := fun _ _ => True) (fun _ _ => ?_) () ()) fun _ _ _ =>
    (Blind.sign ']').bind fun _ _ _ => (Oblivious.onState _ _).bind fun types types' _ =>
      (Oblivious.visit _ _ ((Blind.elementWith types types' none none ty ty').bind
        fun _ _ _ => Blind.unwrap _ _)).bind fun _ _ _ => Oblivious.ret trivial
  exact (Blind.typedConstant h).bind fun _ _ _ => (Blind.sign ',').ifOk
    (fun _ _ _ => Oblivious.goOn _ _) (Oblivious.leave trivial)

theorem Blind.parseConstantGetelementptr :
    Blind (parseConstantGetelementptr parse) (parseConstantGetelementptr parse') := by
  have hitems : Blind
      (items .behindItem (spaced (char ',')) (spaced (char ')')) (IrParser.typedConstant parse))
      (items .behindItem (spaced (char ',')) (spaced (char ')')) (IrParser.typedConstant parse')) :=
    Oblivious.items (Blind.typedConstant h) (Blind.sign ',') (Blind.sign ')')
  exact (Blind.tag _).bind fun _ _ _ => (Blind.tag _).opt.bind fun _ _ _ =>
    (Blind.sign '(').bind fun _ _ _ => Blind.parseType.bind fun _ _ _ => (Blind.sign ',').bind
      fun _ _ _ => hitems.bind fun _ _ _ => Oblivious.ret trivial

theorem Blind.parseConstantBitcast :
    Blind (parseConstantBitcast parse) (parseConstantBitcast parse') :=
  (Blind.tag _).bind fun _ _ _ => (Blind.sign '(').bind fun _ _ _ =>
    (Blind.typedConstant h).bind fun _ _ _ => (Blind.tag _).bind fun _ _ _ =>
      Blind.parseType.bind fun _ _ _ => (Blind.sign ')').bind fun _ _ _ => Oblivious.ret trivial

theorem Blind.parseConstantStruct :
    Blind (parseConstantStruct parse) (parseConstantStruct parse') := by
  refine (Oblivious.spaced (Blind.words _)).bind fun isPacked isPacked' hpacked => ?_
  subst hpacked
  refine Oblivious.loop (fun _ _ => (Blind.typedConstant h).bind fun _ _ _ => ?_) () ()
  exact (Blind.sign ',').ifOk (fun _ _ _ => Oblivious.goOn _ _)
    ((Blind.tag _).bind fun _ _ _ => Oblivious.leave trivial)

theorem Blind.parseConstantBody (ty ty' : Ty) :
    Blind (parseConstantBody parse ty) (parseConstantBody parse' ty') := by
  have hother : ∀ a a' : Unit, True → Blind (pure .other : P Value) (pure .other : P Value) :=
    fun _ _ _ => Oblivious.ret trivial
  have hvalue : ∀ v v' : Value, True → Blind (pure v : P Value) (pure v' : P Value) :=
    fun _ _ _ => Oblivious.ret trivial
  have hglobal : Blind (parseConstantGlobalRef : P Value) parseConstantGlobalRef :=
    (Blind.named '@').bind fun _ _ _ => Oblivious.ret trivial
  refine (Blind.tag _).ifOk hother ((Blind.tag _).ifOk hother ((Blind.tag _).ifOk hother ?_))
  refine (Blind.parseConstantInt ty ty').ifOk hvalue ?_
  refine (Blind.parseConstantArray h ty ty').ifOk hvalue (hglobal.ifOk hvalue ?_)
  refine (Blind.parseConstantStruct h).ifOk hvalue ?_
  exact (Blind.parseConstantGetelementptr h).ifOk hvalue (Blind.parseConstantBitcast h)

end Self

theorem Blind.parseConstant (ty ty' : Ty) :
    Blind (parseConstant ty) (IrParser.parseConstant ty') :=
  Oblivious.fix (fun _ _ h _ _ => Blind.parseConstantBody h _ _) ty ty'

theorem Blind.typedValue : Blind typedValue IrParser.typedValue :=
  Blind.parseType.bind fun ty ty' _ => (Blind.parseConstant ty ty').ifOk
    (fun _ _ _ => Oblivious.ret trivial) ((Blind.named '%').bind fun _ _ _ => Oblivious.ret trivial)

/-! ### Constants, operands and metadata -/

theorem Safe.parseConstant (ty : Ty) : Safe d (parseConstant ty) := by
  refine Sound.fix (fun n h i => Safe.parseConstantBody h ?_ i) ty
  exact Oblivious.depth (fun _ _ h => Blind.parseConstantBody h) n

theorem Safe.parseValue (ty : Ty) : Safe d (parseValue ty) :=
  Safe.ifOk (Safe.parseConstant ty) Safe.ret ((Eats.named '%').safe.bind fun _ => Safe.ret _)

theorem Eats.typedValue : Eats d typedValue := Eats.parseType.bind Safe.parseValue

omit [Unicode] in
theorem Safe.exclamation : Safe d (exclamation : Parser Place σ Unit) := Safe.spaced (Safe.tag _)

omit [Unicode] in
theorem Eats.metadataNode {operand : Unit → P Unit} (h : Safe d (operand ())) :
    Eats (d+1) (metadataNode operand) := by
  refine Safe.spaces.bind fun _ => (Safe.opt (Safe.tag _)).bind fun _ =>
    Eats.bind (Eats.spaced (Eats.tag (by simp))) fun _ => ?_
  exact Safe.spaces.bind fun _ => (Eats.char '\x7b').safe.bind fun _ =>
    (Safe.separatedList0 (Eats.spaced (Eats.tag (by simp))) h).bind fun _ => Safe.spaces.bind fun _ =>
      (Eats.char '\x7d').safe

theorem Safe.metadataOperand : Safe d metadataOperand := by
  refine Sound.fix (fun n h _ => ?_) ()
  exact .alt_cons (Safe.exclamation.bind fun _ => (Eats.spaced Eats.stringLiteral).safe.bind
      fun _ => Safe.ret ()) <|
    .alt_cons (Safe.exclamation.bind fun _ => Eats.parseName.safe.bind fun _ => Safe.ret ()) <|
    .alt_cons (Eats.metadataNode (h ())).safe <|
    .alt_cons ((Eats.typedConstant Safe.parseConstant).safe.bind fun _ => Safe.ret ()) .alt_nil

theorem Eats.parseMetadata : Eats d parseMetadata := by
  have hnode : Eats (d-1) (IrParser.metadataNode fun _ => IrParser.metadataOperand) :=
    (Eats.metadataNode Safe.metadataOperand).le (Nat.le_succ _)
  exact Eats.bind (Eats.spaced (Eats.tag (by simp))) fun _ => Eats.parseName.safe.bind fun _ =>
    (Safe.spaced (Safe.tag _)).bind fun _ => hnode.safe

end Sound

/-! ### The constants of `FieldConstants` -/

section Scalars

variable {m : Mode} {s : Trace Place σ} {t rest : Text}

theorem ifOk_of_error {α β : Type} {p : Parser Place σ α} {yes : α → Parser Place σ β}
    {no : Parser Place σ β} (h : p m s t = (.error .error,s)) :
    ifOk p yes no m s t = no m s t := by
  rw [ifOk,branch,h]
  rfl

theorem tag_run (word : String) (m : Mode) (s : Trace Place σ) (t : Text) :
    (tag word : Parser Place σ Unit) m s t = match FieldConstants.tag word t with
      | some rest => (.ok ((),rest),s)
      | none => (.error .error,s) := by
  rw [tag,ofText,FieldConstants.tag]
  cases word.toList.isPrefixOf? t <;> rfl

theorem words_run {α : Type} (list : List (String × α)) (m : Mode) (s : Trace Place σ) (t : Text) :
    (words list : Parser Place σ α) m s t =
      match list.findSome? fun entry => (FieldConstants.tag entry.1 t).map fun rest => (entry.2,rest) with
      | some r => (.ok r,s)
      | none => (.error .error,s) := by
  induction list with
  | nil => rfl
  | cons entry list ih =>
    rw [words,List.map_cons,alt,orElse,branch,bind_run,tag_run,List.findSome?_cons]
    cases FieldConstants.tag entry.1 t with
    | some rest => rfl
    | none => exact ih

/-- The scalar types. -/
def irTy : FieldConstants.IrTy → Ty
  | .metadata => .compound 0
  | .void => .void
  | .i1 => .i1
  | .i8 => .i8
  | .i16 => .i16
  | .i32 => .i32
  | .i64 => .i64

theorem parseSuffixes_run {parse : Unit → P Ty} {base : Ty} {s : Trace Place State}
    (hstar : (FieldConstants.spaces t).head? ≠ some '*')
    (hparen : (FieldConstants.spaces t).head? ≠ some '(') :
    parseSuffixes parse base m s t = (.ok (base,t),s) := by
  have hnone : ∀ c, (FieldConstants.spaces t).head? ≠ some c → behindSign c t = none := fun c hc => by
    rw [behindSign]
    cases hu : FieldConstants.spaces t with
    | nil => rfl
    | cons b rest =>
      rw [hu] at hc
      exact if_neg fun h => hc (by rw [h]; rfl)
  rw [parseSuffixes,loop,Nat.add_right_comm,turns_succ,sign_eq,sign_eq,
    ifOk_of_error (reading_none (hnone '*' hstar) m s),
    ifOk_of_error (reading_none (hnone '(' hparen) m s)]
  rfl

/-- A scalar type is parsed by both parsers to the same type. -/
theorem parseType_of_scalar [Unicode] {ty : FieldConstants.IrTy} {s : Trace Place State}
    (h : FieldConstants.parseType t = some (ty,rest)) :
    parseType m s t = (.ok (irTy ty,rest),s) := by
  obtain ⟨⟨ty',rest'⟩,hword,hnext⟩ := Option.bind_eq_some_iff.mp h
  have hsuffix : (FieldConstants.spaces rest').head? ≠ some '*' ∧
      (FieldConstants.spaces rest').head? ≠ some '(' ∧ ty' = ty ∧ rest' = rest := by
    simp only at hnext
    split_ifs at hnext with hhead
    cases hnext
    exact ⟨fun h => hhead (.inl h),fun h => hhead (.inr h),rfl,rfl⟩
  obtain ⟨hstar,hparen,rfl,rfl⟩ := hsuffix
  have hfind : ([("metadata",Ty.compound 0),("void",Ty.void),("i64",Ty.i32),("i32",Ty.i32),
      ("i16",Ty.i16),("i8",Ty.i8),("i1",Ty.i1)] : List (String × Ty)).findSome? (fun entry =>
        (FieldConstants.tag entry.1 (FieldConstants.spaces t)).map fun rest => (entry.2,rest)) =
      some (irTy ty',rest') := by
    simp only [Option.orElse_eq_some,Option.map_eq_some_iff,Option.map_eq_none_iff,
      Prod.mk.injEq] at hword
    rcases hword with ⟨r,h1,rfl,rfl⟩ | ⟨h1,⟨r,h2,rfl,rfl⟩ | ⟨h2,⟨r,h3,rfl,rfl⟩ | ⟨h3,⟨r,h4,rfl,rfl⟩ |
      ⟨h4,⟨r,h5,rfl,rfl⟩ | ⟨h5,⟨r,h6,rfl,rfl⟩ | ⟨h6,r,h7,rfl,rfl⟩⟩⟩⟩⟩⟩ <;>
      simp only [List.findSome?_cons,Option.map_some,Option.map_none,irTy, *]
  obtain ⟨c,cs,hu,hc⟩ : ∃ c cs, FieldConstants.spaces t = c::cs ∧ (c = 'm' ∨ c = 'v' ∨ c = 'i') := by
    obtain ⟨entry,hentry,htag⟩ := List.exists_of_findSome?_eq_some hfind
    obtain ⟨r,hr,_⟩ := Option.map_eq_some_iff.mp htag
    have hsplit := List.isPrefixOf?_eq_some_iff_append_eq.mp hr
    simp only [List.mem_cons,List.not_mem_nil,or_false] at hentry
    rcases hentry with rfl | rfl | rfl | rfl | rfl | rfl | rfl <;>
      exact ⟨_,_,hsplit.symm,by decide⟩
  have hsign : ∀ b, c ≠ b → (spaced (char b) : P Unit) m s t = (.error .error,s) := fun b hb => by
    rw [sign_eq]
    exact reading_none (by rw [behindSign,hu]; exact if_neg hb) m s
  have htag : ∀ word b, word.toList.head? = some b → c ≠ b →
      (spaced (tag word) : P Unit) m s t = (.error .error,s) := fun word b hword hb => by
    rw [spaced_run,tag_run,hu,FieldConstants.tag_of_ne cs hword (Ne.symm hb)]
  have hpercent : (named '%' : P Name) m s t = (.error .error,s) := by
    rw [named,spaced_run,bind_run]
    have hchar := hsign '%' (by rcases hc with rfl | rfl | rfl <;> decide)
    rw [spaced_run] at hchar
    rw [hchar]
  have hne : ∀ b, b ≠ 'm' → b ≠ 'v' → b ≠ 'i' → c ≠ b := by
    rintro b hm hv hi rfl
    rcases hc with h | h | h
    · exact hm h
    · exact hv h
    · exact hi h
  have hbody : parseType m s t = parseTypeBody (depth parseTypeBody t.length) () m s t := rfl
  rw [hbody,parseTypeBody,ifOk_of_error (hsign '[' (hne _ (by decide) (by decide) (by decide))),
    ifOk_of_error (hsign '\x7b' (hne _ (by decide) (by decide) (by decide))),
    ifOk_of_error (htag "<\x7b" '<' rfl (hne _ (by decide) (by decide) (by decide))),
    ifOk_of_error (htag "opaque" 'o' rfl (hne _ (by decide) (by decide) (by decide))),
    ifOk_of_error (htag "ptr" 'p' rfl (hne _ (by decide) (by decide) (by decide))),
    ifOk_of_error hpercent,bind_run,spaced_run,words_run,hfind]
  exact parseSuffixes_run hstar hparen

theorem unwrapAt_run {α : Type} {place : Place} {a : Option α} {v : α}
    (hfine : place.Fine ↔ a.isSome = true) (ha : a = some v) (m : Mode) (s : Trace Place σ)
    (t : Text) : (unwrapAt place a : Parser Place σ α) m s t = (.ok (v,t),s.visit place) := by
  subst ha
  cases m with
  | watched => exact if_pos (hfine.mpr rfl)
  | turns k => rfl

/-- Digits or a truth value, without the sign. -/
theorem unsignedInt_run (m : Mode) (s : Trace Place σ) (t : Text) :
    (alt [digit1,words [("true","true".toList),("false","false".toList)]] : Parser Place σ Text) m s t =
      match (if t.takeWhile Char.isDigit ≠ [] then
          some (t.takeWhile Char.isDigit,t.dropWhile Char.isDigit)
        else ((FieldConstants.tag "true" t).map fun r => ("true".toList,r)) <|>
          ((FieldConstants.tag "false" t).map fun r => ("false".toList,r))) with
      | some r => (.ok r,s)
      | none => (.error .error,s) := by
  rw [alt,orElse,branch,digit1,takeWhile1,bind_run]
  by_cases hdigits : t.takeWhile Char.isDigit = []
  · simp only [takeWhile,ofText,hdigits,ne_eq,not_true_eq_false,if_false]
    simp only [fail,Stop.isError,if_true,alt,orElse,branch,words_run,List.findSome?_cons,
      List.findSome?_nil]
    cases FieldConstants.tag "true" t with
    | some rest => rfl
    | none => cases FieldConstants.tag "false" t <;> rfl
  · simp only [takeWhile,ofText,hdigits,ne_eq,not_false_eq_true,if_true]
    rfl

theorem recognizeInt_run (m : Mode) (s : Trace Place σ) (t : Text) :
    (recognizeInt : Parser Place σ Text) m s t = match FieldConstants.recognizeInt t with
      | some r => (.ok r,s)
      | none => (.error .error,s) := by
  rw [recognizeInt,bind_run,FieldConstants.recognizeInt]
  by_cases hsign : t.head? = some '-'
  · obtain ⟨u,rfl⟩ := List.head?_eq_some_iff.mp hsign
    have hminus : (opt (char '-') : Parser Place σ (Option Unit)) m s ('-'::u) =
        (.ok (some (),u),s) := rfl
    rw [hminus]
    simp only [bind_run,unsignedInt_run,List.head?_cons,if_true,List.length_singleton,
      List.drop_succ_cons,List.drop_zero]
    by_cases hdigits : u.takeWhile Char.isDigit = []
    · simp only [hdigits,ne_eq,not_true_eq_false,if_false]
      cases FieldConstants.tag "true" u with
      | some rest => rfl
      | none => cases FieldConstants.tag "false" u <;> rfl
    · simp only [hdigits,ne_eq,not_false_eq_true,if_true]
      rfl
  · have hnone : (opt (char '-') : Parser Place σ (Option Unit)) m s t = (.ok (none,t),s) := by
      rw [opt,branch]
      cases t with
      | nil => rfl
      | cons c u =>
        have hc : c ≠ '-' := fun h => hsign (by rw [h]; rfl)
        simp only [char,ofText,if_neg hc]
        rfl
    rw [hnone]
    simp only [bind_run,unsignedInt_run,if_neg hsign,List.length_nil,List.drop_zero]
    by_cases hdigits : t.takeWhile Char.isDigit = []
    · simp only [hdigits,ne_eq,not_true_eq_false,if_false]
      cases FieldConstants.tag "true" t with
      | some rest => rfl
      | none => cases FieldConstants.tag "false" t <;> rfl
    · simp only [hdigits,ne_eq,not_false_eq_true,if_true]
      rfl

/-- What is kept of a constant. -/
def Value.ofConstant : FieldConstants.ConstantValue → Value
  | .int i => .int i
  | _ => .other

theorem parseConstantInt_of_scalar {ty : FieldConstants.IrTy} {i : ConstantInt}
    {s : Trace Place State} (h : FieldConstants.parseConstantInt t ty = some (i,rest)) :
    ∃ s', parseConstantInt (irTy ty) m s t = (.ok (.int i,rest),s') ∧ s'.state = s.state := by
  obtain ⟨⟨num,source⟩,hnum,hval⟩ := Option.bind_eq_some_iff.mp h
  obtain ⟨hconst,rfl⟩ : constantInt (irTy ty) num = some i ∧ source = rest := by
    cases ty with
    | i1 =>
      cases hval
      exact ⟨rfl,rfl⟩
    | i8 | i32 | i64 =>
      obtain ⟨val,hsome,hpair⟩ := Option.bind_eq_some_iff.mp hval
      cases hpair
      exact ⟨hsome,rfl⟩
    | _ => cases hval
  refine ⟨s.visit (.constant (irTy ty) num),?_,rfl⟩
  rw [parseConstantInt,bind_run,spaced_run,recognizeInt_run,hnum]
  simp only [bind_run,unwrapAt_run (constant_fine (irTy ty) num) hconst]
  rfl

theorem parseConstant_of_scalar [Unicode] {ty : FieldConstants.IrTy}
    {c : FieldConstants.ConstantValue} {s : Trace Place State}
    (h : FieldConstants.parseConstant t ty = some (c,rest)) :
    ∃ s', parseConstant (irTy ty) m s t = (.ok (.ofConstant c,rest),s') ∧ s'.state = s.state := by
  have hbody : parseConstant (irTy ty) m s t =
      parseConstantBody (depth parseConstantBody t.length) (irTy ty) m s t := rfl
  have hword : ∀ word rest, FieldConstants.tag word (FieldConstants.spaces t) = some rest →
      (spaced (tag word) : P Unit) m s t = (.ok ((),rest),s) := fun word rest hrest => by
    rw [spaced_run,tag_run,hrest]
  have hnone : ∀ word, FieldConstants.tag word (FieldConstants.spaces t) = none →
      (spaced (tag word) : P Unit) m s t = (.error .error,s) := fun word hrest => by
    rw [spaced_run,tag_run,hrest]
  rw [hbody,parseConstantBody]
  simp only [FieldConstants.parseConstant,Option.orElse_eq_some,Option.map_eq_some_iff,
    Option.map_eq_none_iff,Prod.mk.injEq] at h
  rcases h with ⟨r,h1,rfl,rfl⟩ | ⟨h1,⟨r,h2,rfl,rfl⟩ | ⟨h2,⟨r,h3,rfl,rfl⟩ | ⟨h3,r,h4,rfl,rfl⟩⟩⟩
  · refine ⟨s,?_,rfl⟩
    rw [ifOk,branch,hword _ _ h1]
    rfl
  · refine ⟨s,?_,rfl⟩
    rw [ifOk_of_error (hnone _ h1),ifOk,branch,hword _ _ h2]
    rfl
  · refine ⟨s,?_,rfl⟩
    rw [ifOk_of_error (hnone _ h1),ifOk_of_error (hnone _ h2),ifOk,branch,hword _ _ h3]
    rfl
  · obtain ⟨s',hrun,hs'⟩ := parseConstantInt_of_scalar (m := m) (s := s) h4
    refine ⟨s',?_,hs'⟩
    rw [ifOk_of_error (hnone _ h1),ifOk_of_error (hnone _ h2),ifOk_of_error (hnone _ h3),ifOk,branch,
      hrun]
    rfl

/-- An operand that `FieldConstants` parses is parsed to the same constant. -/
theorem typedConstant_of_scalar [Unicode] {ty : FieldConstants.IrTy} {source : Text}
    {c : FieldConstants.ConstantValue} {s : Trace Place State}
    (htype : FieldConstants.parseType t = some (ty,source))
    (hconst : FieldConstants.parseConstant source ty = some (c,rest)) :
    ∃ s', typedConstant parseConstant m s t = (.ok (.ofConstant c,rest),s') ∧ s'.state = s.state := by
  rw [typedConstant,bind_run,parseType_of_scalar htype]
  exact parseConstant_of_scalar hconst

end Scalars

end IrParser
end Codegen
end OlaLang
