import Mathlib.Data.Nat.Notation
import Mathlib.Logic.Function.Basic

/-! Statements: what semantic analysis makes of a function body, and the basic blocks that are
generated for it. -/
namespace OlaLang
namespace ControlFlow

abbrev BlockId := ℕ

/-- An expression, by the blocks its code makes: straight code, the loops of the code generator and
the conditional operator. -/
inductive Flow
  | line
  | seq (first second : Flow)
  | staticLoop (body : Flow)
  | condLoop (body : Flow)
  | arrayLoop (bound body : Flow)
  | conditional (cond left right : Flow)

/-! ### Semantic analysis -/

/-- What a returned expression gives to `returns`: values, each with whether the LLVM parameter that a
function with several results has for it is a pointer, or a panic. A call gives its results, but one
zero for a function without results; a conditional operator has the type `Unreachable`, for which
there is no phi; of an external call the first result is taken, which is a panic without results. -/
inductive Returned
  | values (pointers : List Bool)
  | conditional
  | noResult
  deriving DecidableEq

/-- A statement of the source. A simple one is a declaration, an expression, a destructuring or a
delete. -/
inductive Source
  | simple (expr : Flow)
  | block (statements : List Source)
  | ifThen (cond : Flow) (thenStmt : Source)
  | ifElse (cond : Flow) (thenStmt elseStmt : Source)
  | whileLoop (cond : Flow) (body : Source)
  | doWhile (body : Source) (cond : Flow)
  | forLoop (init cond next : Option Flow) (body : Option Source)
  | breakLoop
  | continueLoop
  | returns (value : Option (Flow × Returned))

/-- A resolved statement. -/
inductive Statement
  | block (statements : List Statement)
  | simple (expr : Flow)
  | ifElse (reachable : Bool) (cond : Flow) (thenStmt elseStmt : List Statement)
  | whileLoop (reachable : Bool) (cond : Flow) (body : List Statement)
  | doWhile (reachable : Bool) (body : List Statement) (cond : Flow)
  | forLoop (reachable : Bool) (init : List Statement) (cond next : Option Flow)
      (body : List Statement)
  | breakLoop
  | continueLoop
  | returns (value : Option (Flow × Returned))

mutual

def Statement.reachable : Statement → Bool
  | .block statements => allReachable statements
  | .simple _ => true
  | .continueLoop | .breakLoop | .returns _ => false
  | .ifElse reachable _ _ _ | .whileLoop reachable _ _ | .doWhile reachable _ _
  | .forLoop reachable _ _ _ _ => reachable

def allReachable : List Statement → Bool
  | [] => true
  | s::rest => s.reachable && allReachable rest

end

/-- The breaks and continues of the loops around a statement, the innermost first. -/
abbrev LoopScopes := List (ℕ × ℕ)

mutual

/-- `statement`: the resolved statement, the answer whether its end is reachable, the loops with their
counts and the errors on the way. An error leaves the analysis going, but a break or continue outside
a loop ends it. -/
def analyse : Source → LoopScopes → Option (Statement × Bool × LoopScopes × List String)
  | .simple expr, loops => some (.simple expr,true,loops,[])
  | .block statements, loops => do
    let (res,reachable,loops,errors) ← analyseBlock statements true false loops
    pure (.block res,reachable,loops,errors)
  | .ifThen cond thenStmt, loops => do
    let (thenStmt,_,loops,errors) ← analyse thenStmt loops
    pure (.ifElse true cond [thenStmt] [],true,loops,errors)
  | .ifElse cond thenStmt elseStmt, loops => do
    let (thenStmt,reachable,loops,errors) ← analyse thenStmt loops
    let (elseStmt,reachable',loops,errors') ← analyse elseStmt loops
    let reachable := reachable || reachable'
    pure (.ifElse reachable cond [thenStmt] [elseStmt],reachable,loops,errors ++ errors')
  | .whileLoop cond body, loops => do
    let (body,_,loops,errors) ← analyse body ((0,0)::loops)
    pure (.whileLoop true cond [body],true,loops.tail,errors)
  | .doWhile body cond, loops => do
    let (body,_,loops,errors) ← analyse body ((0,0)::loops)
    pure (.doWhile true [body] cond,true,loops.tail,errors)
  | .forLoop init cond next body, loops => do
    let init := init.toList.map Statement.simple
    let (body,bodyReachable,loops,errors) ← analyseBody body ((0,0)::loops)
    let (breaks,continues) := loops.head?.getD (0,0)
    match cond with
    | none => pure (.forLoop (breaks > 0) init none next body,breaks > 0,loops.tail,errors)
    | some cond =>
      let next := if bodyReachable || continues > 0 then next else none
      pure (.forLoop true init (some cond) next body,true,loops.tail,errors)
  | .breakLoop, (breaks,continues)::loops => some (.breakLoop,false,(breaks + 1,continues)::loops,[])
  | .continueLoop, (breaks,continues)::loops =>
    some (.continueLoop,false,(breaks,continues + 1)::loops,[])
  | .breakLoop, [] | .continueLoop, [] => none
  | .returns value, loops => some (.returns value,false,loops,[])

/-- The first statement behind an unreachable end is reported; the answer is the last one's. -/
def analyseBlock : List Source → Bool → Bool → LoopScopes →
    Option (List Statement × Bool × LoopScopes × List String)
  | [], reachable, _, loops => some ([],reachable,loops,[])
  | s::rest, reachable, alreadyUnreachable, loops => do
    let report := !reachable && !alreadyUnreachable
    let (s,reachable,loops,errors) ← analyse s loops
    let (rest,reachable,loops,errors') ←
      analyseBlock rest reachable (alreadyUnreachable || report) loops
    pure (s::rest,reachable,loops,
      (if report then ["unreachable statement"] else []) ++ errors ++ errors')

def analyseBody : Option Source → LoopScopes →
    Option (List Statement × Bool × LoopScopes × List String)
  | none, loops => some ([],true,loops,[])
  | some body, loops => do
    let (body,reachable,loops,errors) ← analyse body loops
    pure ([body],reachable,loops,errors)

end

/-- The resolved statement of a body that is accepted. -/
def resolve (s : Source) (loops : LoopScopes) : Option (Statement × Bool × LoopScopes) :=
  match analyse s loops with
  | some (stmt,reachable,loops,[]) => some (stmt,reachable,loops)
  | _ => none

/-! ### The builder -/

inductive Terminator
  | br (target : BlockId)
  | condBr (ifTrue ifFalse : BlockId)
  | ret
  deriving DecidableEq

inductive Item
  | op
  | term (t : Terminator)
  deriving DecidableEq

/-- The exit of a loop and the block in which it continues. -/
abbrev Loop := BlockId × BlockId

/-- The blocks so far, the one at whose end the builder is and the stack of loops. `jumps` lists, for
each break and continue, its target and the one in the innermost loop of the source. -/
structure Builder where
  size : ℕ
  block : BlockId → List Item
  cur : BlockId
  loops : List Loop
  jumps : List (BlockId × BlockId)

namespace Builder

/-- `append_basic_block`: the new block is `b.size`. -/
def newBlock (b : Builder) : Builder := { b with size := b.size + 1 }

def emit (x : Item) (b : Builder) : Builder :=
  { b with block := Function.update b.block b.cur (b.block b.cur ++ [x]) }

def op : Builder → Builder := emit .op

def br (target : BlockId) : Builder → Builder := emit (.term (.br target))

def condBr (ifTrue ifFalse : BlockId) : Builder → Builder := emit (.term (.condBr ifTrue ifFalse))

def ret : Builder → Builder := emit (.term .ret)

def position (i : BlockId) (b : Builder) : Builder := { b with cur := i }

def push (loop : Loop) (b : Builder) : Builder := { b with loops := loop::b.loops }

def pop (b : Builder) : Builder := { b with loops := b.loops.tail }

def jump (target intended : BlockId) (b : Builder) : Builder :=
  { b.br target with jumps := b.jumps ++ [(target,intended)] }

end Builder

/-- The code of an expression. -/
def genFlow : Flow → Builder → Builder
  | .line, b => b.op
  | .seq first second, b => genFlow second (genFlow first b)
  | .staticLoop body, b =>
    let bodyBlock := b.size
    let done := b.size + 1
    let b := b.newBlock.newBlock.op.br bodyBlock |>.position bodyBlock |>.op
    (genFlow body b).op.condBr bodyBlock done |>.position done
  | .condLoop body, b =>
    let cond := b.size
    let bodyBlock := b.size + 1
    let done := b.size + 2
    let b := b.newBlock.newBlock.newBlock.op.br cond |>.position cond |>.op
      |>.condBr bodyBlock done |>.position bodyBlock
    (genFlow body b).op.br cond |>.position done
  | .arrayLoop bound body, b =>
    let cond := b.size
    let bodyBlock := b.size + 1
    let next := b.size + 2
    let done := b.size + 3
    let b := b.newBlock.newBlock.newBlock.newBlock.op.br cond |>.position cond
    let b := (genFlow bound b).op.condBr bodyBlock done |>.position bodyBlock
    (genFlow body b).br next |>.position next |>.op |>.br cond |>.position done
  | .conditional cond left right, b =>
    let b := genFlow cond b
    let leftBlock := b.size
    let rightBlock := b.size + 1
    let done := b.size + 2
    let b := b.newBlock.newBlock.newBlock.condBr leftBlock rightBlock |>.position leftBlock
    let b := (genFlow left b).br done |>.position rightBlock
    (genFlow right b).br done |>.position done |>.op

/-- The reachable flag of the last statement. -/
def lastReachable (statements : List Statement) : Bool :=
  (statements.getLast?.map Statement.reachable).getD true

def genOption (expr : Option Flow) (b : Builder) : Builder := match expr with
  | none => b
  | some expr => genFlow expr b

/-- `returns`, behind the code of the expression: nothing for no values, `ret` for one, and for several
the stores to the parameters, which have to be pointers. -/
def genReturned : Returned → Builder → Option Builder
  | .values [], b => some b
  | .values [_], b => some b.ret
  | .values pointers, b => if pointers.all id then some b.op.ret else none
  | .conditional, _ | .noResult, _ => none

mutual

/-- The code of a statement. `inner` is the innermost loop around it in the source, to which the
target of a break or continue is compared. -/
def genStatement (inner : Loop) : Statement → Builder → Option Builder
  | .block statements, b => genBlock inner statements b
  | .simple expr, b => some (genFlow expr b)
  | .returns none, b => some b.ret
  | .returns (some (expr,returned)), b => genReturned returned (genFlow expr b)
  | .ifElse _ cond thenStmt [], b => do
    let b := (genFlow cond b).op
    let thenBlock := b.size
    let endif := b.size + 1
    let b := b.newBlock.newBlock.condBr thenBlock endif |>.position thenBlock
    let b ← genStatements inner thenStmt b
    let b := if lastReachable thenStmt then b.br endif else b
    pure (b.position endif)
  | .ifElse _ cond thenStmt (elseStmt::elseStmts), b => do
    let b := (genFlow cond b).op
    let thenBlock := b.size
    let elseBlock := b.size + 1
    let b := b.newBlock.newBlock.condBr thenBlock elseBlock |>.position thenBlock
    let b ← genStatements inner thenStmt b
    -- the block behind the statement is made when a branch comes to its end
    let (endif,b) := if lastReachable thenStmt then (some b.size,b.newBlock.br b.size) else (none,b)
    let b := b.position elseBlock
    let b ← genStatements inner (elseStmt::elseStmts) b
    let (endif,b) := if lastReachable (elseStmt::elseStmts) then match endif with
        | none => (some b.size,b.newBlock.br b.size)
        | some endif => (some endif,b.br endif)
      else (endif,b)
    pure (match endif with
      | none => b
      | some endif => b.position endif)
  | .forLoop _ init (some cond) next body, b => do
    let condBlock := b.size
    let bodyBlock := b.size + 1
    let nextBlock := b.size + 2
    let endBlock := b.size + 3
    let b ← genStatements inner init b.newBlock.newBlock.newBlock.newBlock
    let b := genFlow cond (b.br condBlock |>.position condBlock)
    let b := b.condBr bodyBlock endBlock |>.position bodyBlock |>.push (endBlock,nextBlock)
    let b ← genStatements (endBlock,nextBlock) body b
    let b := if lastReachable body then b.br nextBlock else b
    let b := genOption next (b.pop.position nextBlock)
    pure (b.br condBlock |>.position endBlock)
  | .forLoop _ init none next body, b => do
    let bodyBlock := b.size
    let nextBlock := b.size + 1
    let endBlock := b.size + 2
    let b ← genStatements inner init b.newBlock.newBlock.newBlock
    let loop := (endBlock,if next.isNone then bodyBlock else nextBlock)
    let b := b.br bodyBlock |>.position bodyBlock |>.push loop
    let b ← genStatements loop body b
    let b := if lastReachable body then b.br nextBlock else b
    let b := b.pop
    let b := if lastReachable body then (genOption next (b.position nextBlock)).br bodyBlock else b
    pure (b.position endBlock)
  | .breakLoop, b => do
    let loop ← b.loops.head?
    pure (b.jump loop.1 inner.1)
  | .continueLoop, b => do
    let loop ← b.loops.head?
    pure (b.jump loop.2 inner.2)
  | .whileLoop _ cond body, b => do
    let bodyBlock := b.size
    let condBlock := b.size + 1
    let endBlock := b.size + 2
    let b := b.newBlock.newBlock.newBlock.br condBlock |>.position condBlock
    let b := (genFlow cond b).op.condBr bodyBlock endBlock |>.position bodyBlock
    let b ← genStatements (endBlock,condBlock) body (b.push (endBlock,condBlock))
    let b := if lastReachable body then b.br condBlock else b
    pure (b.pop.position endBlock)
  | .doWhile _ body cond, b => do
    let bodyBlock := b.size
    let condBlock := b.size + 1
    let endBlock := b.size + 2
    let b := b.newBlock.newBlock.newBlock.br bodyBlock |>.position bodyBlock
    let b ← genStatements (endBlock,condBlock) body (b.push (endBlock,condBlock))
    let b := if lastReachable body then b.br condBlock else b
    let b := (genFlow cond (b.position condBlock)).op.condBr bodyBlock endBlock
    pure (b.position endBlock)

/-- The statements of a body, one after the other. -/
def genStatements (inner : Loop) : List Statement → Builder → Option Builder
  | [], b => some b
  | s::rest, b => do
    let b ← genStatement inner s b
    genStatements inner rest b

/-- The statements of a block, up to the first one whose end is not reachable. -/
def genBlock (inner : Loop) : List Statement → Builder → Option Builder
  | [], b => some b
  | s::rest, b => do
    let b ← genStatement inner s b
    if s.reachable then genBlock inner rest b else pure b

end

/-- A function: the code for its arguments and named returns, whether each return value has a
variable, and its body. -/
structure Function where
  prelude : Flow
  returns : List Bool
  body : List Statement

def entry : Builder := ⟨1,fun _ => [],0,[],[]⟩

/-- The implicit return of each return value; one without a variable is a panic. -/
def implicitReturns : List Bool → Builder → Option Builder
  | [], b => some b
  | named::rest, b => if named then implicitReturns rest b.op.ret else none

def genFunction (f : Function) : Option Builder := do
  let b ← genBlock (0,0) f.body (genFlow f.prelude entry)
  let b ← if lastReachable f.body then implicitReturns f.returns b else some b
  pure (if f.returns.isEmpty then b.ret else b)

/-! ### Well-formed control flow -/

/-- Straight code. -/
def Open (items : List Item) : Prop := ∀ x ∈ items, x = .op

/-- Straight code that ends in one terminator. -/
def Closed (items : List Item) : Prop := ∃ ops t, items = ops ++ [.term t] ∧ Open ops

/-- A statement in another one. -/
inductive Within : Statement → Statement → Prop
  | self {s} : Within s s
  | block {s t statements} : t ∈ statements → Within s t → Within s (.block statements)
  | thenStmt {s t r c thenStmt elseStmt} : t ∈ thenStmt → Within s t →
      Within s (.ifElse r c thenStmt elseStmt)
  | elseStmt {s t r c thenStmt elseStmt} : t ∈ elseStmt → Within s t →
      Within s (.ifElse r c thenStmt elseStmt)
  | whileLoop {s t r c body} : t ∈ body → Within s t → Within s (.whileLoop r c body)
  | doWhile {s t r c body} : t ∈ body → Within s t → Within s (.doWhile r body c)
  | forInit {s t r init c n body} : t ∈ init → Within s t → Within s (.forLoop r init c n body)
  | forBody {s t r init c n body} : t ∈ body → Within s t → Within s (.forLoop r init c n body)

/-- Every block ends in its only terminator, every break and continue goes to the innermost loop of
the source, and every statement leaves the stack of loops as high as it was. -/
structure WellFormed (f : Function) : Prop where
  blocks : ∃ out, genFunction f = some out ∧ (∀ i < out.size, Closed (out.block i)) ∧
    ∀ jump ∈ out.jumps, jump.1 = jump.2
  height : ∀ t ∈ f.body, ∀ s, Within s t → ∀ inner b b', genStatement inner s b = some b' →
    b'.loops.length = b.loops.length

end ControlFlow
end OlaLang
