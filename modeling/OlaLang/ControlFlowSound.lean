import OlaLang.ControlFlowBlocks

/-! Which function bodies are generated with well-formed control flow. -/
namespace OlaLang
namespace ControlFlow

/-! ### What semantic analysis accepts -/

/-- A resolved statement: bodies are one statement at most, only the last statement of a block has an
unreachable end, breaks and continues stand in loops. -/
inductive Resolved : Bool → Statement → Prop
  | block {inLoop statements} : (∀ s ∈ statements, Resolved inLoop s) →
      (∀ s ∈ statements.dropLast, s.reachable = true) → Resolved inLoop (.block statements)
  | simple {inLoop expr} : Resolved inLoop (.simple expr)
  | ifThen {inLoop cond thenStmt} : Resolved inLoop thenStmt →
      Resolved inLoop (.ifElse true cond [thenStmt] [])
  | ifElse {inLoop cond thenStmt elseStmt} : Resolved inLoop thenStmt → Resolved inLoop elseStmt →
      Resolved inLoop (.ifElse (thenStmt.reachable || elseStmt.reachable) cond [thenStmt] [elseStmt])
  | whileLoop {inLoop cond body} : Resolved true body →
      Resolved inLoop (.whileLoop true cond [body])
  | doWhile {inLoop cond body} : Resolved true body → Resolved inLoop (.doWhile true [body] cond)
  | forLoop {inLoop reachable cond next body} {init : List Flow} : (cond.isSome = true → reachable = true) →
      (∀ s ∈ body, Resolved true s) → body.length ≤ 1 →
      Resolved inLoop (.forLoop reachable (init.map Statement.simple) cond next body)
  | breakLoop : Resolved true .breakLoop
  | continueLoop : Resolved true .continueLoop
  | returns {inLoop value} : Resolved inLoop (.returns value)

theorem allReachable_eq {statements : List Statement}
    (h : ∀ s ∈ statements.dropLast, s.reachable = true) :
    allReachable statements = lastReachable statements := by
  induction statements with
  | nil => rfl
  | cons s rest ih =>
    cases rest with
    | nil => simp [allReachable,lastReachable]
    | cons t rest =>
      rw [List.dropLast_cons_cons] at h
      have hs := h s List.mem_cons_self
      have hrest := ih fun s' hmem => h s' (List.mem_cons_of_mem _ hmem)
      rw [allReachable,hs,Bool.true_and,hrest]
      simp [lastReachable]

theorem isEmpty_of_length {loops loops' : LoopScopes} (h : loops'.length = loops.length) :
    loops'.isEmpty = loops.isEmpty := by
  cases loops <;> cases loops' <;> simp_all

mutual

theorem analyse_resolved : ∀ (s : Source) (loops : LoopScopes) {stmt : Statement}
    {reachable : Bool} {loops' : LoopScopes}, analyse s loops = some (stmt,reachable,loops',[]) →
    Resolved (!loops.isEmpty) stmt ∧ stmt.reachable = reachable ∧ loops'.length = loops.length
  | .simple expr, loops, stmt, reachable, loops', h => by
    simp only [analyse,Option.some.injEq,Prod.mk.injEq] at h
    obtain ⟨rfl,rfl,rfl,-⟩ := h
    exact ⟨.simple,rfl,rfl⟩
  | .block statements, loops, stmt, reachable, loops', h => by
    simp only [analyse,Option.bind_eq_bind,Option.bind_eq_some_iff,Option.pure_def,
      Option.some.injEq,Prod.mk.injEq] at h
    obtain ⟨⟨res,reachable1,loops1,errors1⟩,hres,rfl,rfl,rfl,rfl⟩ := h
    obtain ⟨hall,hlast,hreach,hlen⟩ := analyseBlock_resolved statements true loops hres
    exact ⟨.block hall hlast,(allReachable_eq hlast).trans hreach,hlen⟩
  | .ifThen cond thenStmt, loops, stmt, reachable, loops', h => by
    simp only [analyse,Option.bind_eq_bind,Option.bind_eq_some_iff,Option.pure_def,
      Option.some.injEq,Prod.mk.injEq] at h
    obtain ⟨⟨thenStmt1,reachable1,loops1,errors1⟩,hthen,rfl,rfl,rfl,rfl⟩ := h
    obtain ⟨hres,-,hlen⟩ := analyse_resolved thenStmt loops hthen
    exact ⟨.ifThen hres,rfl,hlen⟩
  | .ifElse cond thenStmt elseStmt, loops, stmt, reachable, loops', h => by
    simp only [analyse,Option.bind_eq_bind,Option.bind_eq_some_iff,Option.pure_def,
      Option.some.injEq,Prod.mk.injEq,List.append_eq_nil_iff] at h
    obtain ⟨⟨thenStmt1,reachable1,loops1,errors1⟩,hthen,⟨elseStmt1,reachable2,loops2,errors2⟩,helse,
      rfl,rfl,rfl,rfl,rfl⟩ := h
    obtain ⟨hres1,hr1,hlen1⟩ := analyse_resolved thenStmt loops hthen
    obtain ⟨hres2,hr2,hlen2⟩ := analyse_resolved elseStmt loops1 helse
    rw [isEmpty_of_length hlen1] at hres2
    subst hr1 hr2
    exact ⟨.ifElse hres1 hres2,rfl,hlen2.trans hlen1⟩
  | .whileLoop cond body, loops, stmt, reachable, loops', h => by
    simp only [analyse,Option.bind_eq_bind,Option.bind_eq_some_iff,Option.pure_def,
      Option.some.injEq,Prod.mk.injEq] at h
    obtain ⟨⟨body1,reachable1,loops1,errors1⟩,hbody,rfl,rfl,rfl,rfl⟩ := h
    obtain ⟨hres,-,hlen⟩ := analyse_resolved body ((0,0)::loops) hbody
    exact ⟨.whileLoop hres,rfl,by rw [List.length_tail,hlen]; rfl⟩
  | .doWhile body cond, loops, stmt, reachable, loops', h => by
    simp only [analyse,Option.bind_eq_bind,Option.bind_eq_some_iff,Option.pure_def,
      Option.some.injEq,Prod.mk.injEq] at h
    obtain ⟨⟨body1,reachable1,loops1,errors1⟩,hbody,rfl,rfl,rfl,rfl⟩ := h
    obtain ⟨hres,-,hlen⟩ := analyse_resolved body ((0,0)::loops) hbody
    exact ⟨.doWhile hres,rfl,by rw [List.length_tail,hlen]; rfl⟩
  | .forLoop init cond next body, loops, stmt, reachable, loops', h => by
    simp only [analyse,Option.bind_eq_bind,Option.bind_eq_some_iff,Option.pure_def] at h
    obtain ⟨⟨body1,reachable1,loops1,errors1⟩,hbody,h⟩ := h
    have herrors : errors1 = [] := by
      cases cond <;> simp only [Option.some.injEq,Prod.mk.injEq] at h <;> exact h.2.2.2
    subst herrors
    obtain ⟨hres,hone,-,hlen⟩ := analyseBody_resolved body ((0,0)::loops) hbody
    have htail : loops1.tail.length = loops.length := by
      rw [List.length_tail,hlen]
      rfl
    cases cond with
    | none =>
      simp only [Option.some.injEq,Prod.mk.injEq] at h
      obtain ⟨rfl,rfl,rfl,-⟩ := h
      exact ⟨.forLoop (fun h => (by cases h)) hres hone,rfl,htail⟩
    | some cond =>
      simp only [Option.some.injEq,Prod.mk.injEq] at h
      obtain ⟨rfl,rfl,rfl,-⟩ := h
      exact ⟨.forLoop (fun _ => rfl) hres hone,rfl,htail⟩
  | .breakLoop, loops, stmt, reachable, loops', h => by
    cases loops with
    | nil => cases h
    | cons scope loops =>
      cases h
      exact ⟨.breakLoop,rfl,rfl⟩
  | .continueLoop, loops, stmt, reachable, loops', h => by
    cases loops with
    | nil => cases h
    | cons scope loops =>
      cases h
      exact ⟨.continueLoop,rfl,rfl⟩
  | .returns value, loops, stmt, reachable, loops', h => by
    simp only [analyse,Option.some.injEq,Prod.mk.injEq] at h
    obtain ⟨rfl,rfl,rfl,-⟩ := h
    exact ⟨.returns,rfl,rfl⟩

theorem analyseBlock_resolved : ∀ (statements : List Source) (reachable : Bool)
    (loops : LoopScopes) {res : List Statement} {reachable' : Bool} {loops' : LoopScopes},
    analyseBlock statements reachable false loops = some (res,reachable',loops',[]) →
    (∀ s ∈ res, Resolved (!loops.isEmpty) s) ∧ (∀ s ∈ res.dropLast, s.reachable = true) ∧
      (res.getLast?.map Statement.reachable).getD reachable = reachable' ∧
      loops'.length = loops.length
  | [], reachable, loops, res, reachable', loops', h => by
    simp only [analyseBlock,Option.some.injEq,Prod.mk.injEq] at h
    obtain ⟨rfl,rfl,rfl,-⟩ := h
    exact ⟨fun _ h => (by cases h),fun _ h => (by cases h),rfl,rfl⟩
  | s::rest, reachable, loops, res, reachable', loops', h => by
    simp only [analyseBlock,Option.bind_eq_bind,Option.bind_eq_some_iff,Option.pure_def,
      Option.some.injEq,Prod.mk.injEq,List.append_eq_nil_iff] at h
    obtain ⟨⟨s1,reachable1,loops1,errors1⟩,hs,⟨rest1,reachable2,loops2,errors2⟩,hrest,rfl,rfl,rfl,
      ⟨hreport,rfl⟩,rfl⟩ := h
    have hbefore : reachable = true := by
      by_contra hr
      simp [hr] at hreport
    subst hbefore
    obtain ⟨hres,hr,hlen⟩ := analyse_resolved s loops hs
    obtain ⟨hall,hlast,hreach,hlen'⟩ := analyseBlock_resolved rest reachable1 loops1 hrest
    rw [isEmpty_of_length hlen] at hall
    refine ⟨fun t ht => ?_,?_,?_,hlen'.trans hlen⟩
    · rcases List.mem_cons.mp ht with rfl|ht
      · exact hres
      · exact hall t ht
    · cases rest1 with
      | nil => exact fun _ h => (by cases h)
      | cons t rest1 =>
        have hfirst : s1.reachable = true := by
          cases rest with
          | nil => simp [analyseBlock] at hrest
          | cons u rest =>
            by_contra hunreachable
            have hfalse : reachable1 = false := hr ▸ Bool.eq_false_iff.mpr hunreachable
            simp [analyseBlock,hfalse,Option.bind_eq_some_iff] at hrest
        intro u hu
        rw [List.dropLast_cons_cons] at hu
        rcases List.mem_cons.mp hu with rfl|hu
        · exact hfirst
        · exact hlast u hu
    · rw [← hreach,← hr]
      cases rest1 with
      | nil => rfl
      | cons t rest1 =>
        rw [List.getLast?_cons_cons]
        cases hlast : (t::rest1).getLast? with
        | none => exact absurd (List.getLast?_eq_none_iff.mp hlast) (List.cons_ne_nil _ _)
        | some u => rfl

theorem analyseBody_resolved : ∀ (body : Option Source) (loops : LoopScopes)
    {res : List Statement} {reachable : Bool} {loops' : LoopScopes},
    analyseBody body loops = some (res,reachable,loops',[]) →
    (∀ s ∈ res, Resolved (!loops.isEmpty) s) ∧ res.length ≤ 1 ∧ lastReachable res = reachable ∧
      loops'.length = loops.length
  | none, loops, res, reachable, loops', h => by
    simp only [analyseBody,Option.some.injEq,Prod.mk.injEq] at h
    obtain ⟨rfl,rfl,rfl,-⟩ := h
    exact ⟨fun _ h => (by cases h),Nat.zero_le 1,rfl,rfl⟩
  | some body, loops, res, reachable, loops', h => by
    simp only [analyseBody,Option.bind_eq_bind,Option.bind_eq_some_iff,Option.pure_def,
      Option.some.injEq,Prod.mk.injEq] at h
    obtain ⟨⟨s,reachable1,loops1,errors1⟩,hs,rfl,rfl,rfl,rfl⟩ := h
    obtain ⟨hres,hr,hlen⟩ := analyse_resolved body loops hs
    refine ⟨fun t ht => ?_,le_refl 1,?_,hlen⟩
    · rw [List.mem_singleton.mp ht]
      exact hres
    · simp [lastReachable,hr]

end

theorem resolve_eq_some {s : Source} {loops loops' : LoopScopes} {stmt : Statement}
    {reachable : Bool} : resolve s loops = some (stmt,reachable,loops') ↔
      analyse s loops = some (stmt,reachable,loops',[]) := by
  unfold resolve
  constructor
  · intro h
    split at h
    · cases h
      assumption
    · cases h
  · intro h
    rw [h]

theorem resolve_resolved {s : Source} {loops loops' : LoopScopes} {stmt : Statement}
    {reachable : Bool} (h : resolve s loops = some (stmt,reachable,loops')) :
    Resolved (!loops.isEmpty) stmt ∧ stmt.reachable = reachable ∧ loops'.length = loops.length :=
  analyse_resolved s loops (resolve_eq_some.mp h)

/-! ### What the generated code looks like -/

mutual

/-- Whether the block in which the builder ends is open. -/
def opens : Statement → Bool
  | .block statements => opensLast statements
  | .simple _ => true
  | .ifElse _ _ _ [] => true
  | .ifElse _ _ thenStmt (elseStmt::elseStmts) => lastReachable thenStmt ||
    lastReachable (elseStmt::elseStmts) || opensLast (elseStmt::elseStmts)
  | .whileLoop _ _ _ | .doWhile _ _ _ | .forLoop _ _ _ _ _ => true
  | .breakLoop | .continueLoop => false
  | .returns none => false
  | .returns (some (_,returned)) => returned == .values []

def opensLast : List Statement → Bool
  | [] => true
  | s::rest => if rest.isEmpty then opens s else opensLast rest

end

/-- The reachable flag of a body says whether its last block still lacks a terminator. -/
def fits (statements : List Statement) : Bool := lastReachable statements == opensLast statements

mutual

/-- Every body ends as its reachable flag says, where the generator goes by the flag. -/
def tidy : Statement → Bool
  | .block statements => tidyAll statements
  | .ifElse _ _ thenStmt [] => tidyAll thenStmt && fits thenStmt
  | .ifElse _ _ thenStmt (elseStmt::elseStmts) => tidyAll thenStmt && fits thenStmt &&
    tidyAll (elseStmt::elseStmts) &&
    (fits (elseStmt::elseStmts) || !(lastReachable thenStmt || lastReachable (elseStmt::elseStmts)))
  | .whileLoop _ _ body | .doWhile _ body _ | .forLoop _ _ (some _) _ body =>
    tidyAll body && fits body
  | .forLoop _ _ none _ body => tidyAll body && lastReachable body
  | .simple _ | .breakLoop | .continueLoop | .returns _ => true

def tidyAll : List Statement → Bool
  | [] => true
  | s::rest => tidy s && tidyAll rest

end

mutual

def hasDoWhile : Statement → Bool
  | .block statements => anyDoWhile statements
  | .ifElse _ _ thenStmt elseStmt => anyDoWhile thenStmt || anyDoWhile elseStmt
  | .whileLoop _ _ body => anyDoWhile body
  | .forLoop _ init _ _ body => anyDoWhile init || anyDoWhile body
  | .doWhile _ _ _ => true
  | .simple _ | .breakLoop | .continueLoop | .returns _ => false

def anyDoWhile : List Statement → Bool
  | [] => false
  | s::rest => hasDoWhile s || anyDoWhile rest

end

/-- Several values, not all of them for pointers, a conditional operator, or no result to take. -/
def Returned.panics : Returned → Bool
  | .values pointers => decide (2 ≤ pointers.length) && !pointers.all id
  | .conditional | .noResult => true

def Statement.panics : Statement → Bool
  | .returns (some (_,returned)) => returned.panics
  | _ => false

/-- The generator panics at no `return` in the statement. -/
def Fine (s : Statement) : Prop := ∀ u, Within u s → u.panics = false

theorem anyDoWhile_eq_false {statements : List Statement} :
    anyDoWhile statements = false ↔ ∀ s ∈ statements, hasDoWhile s = false := by
  induction statements with
  | nil => simp [anyDoWhile]
  | cons s rest ih => simp [anyDoWhile,ih]

theorem tidyAll_cons (s : Statement) (rest : List Statement) :
    tidyAll (s::rest) = (tidy s && tidyAll rest) := by
  rw [tidyAll]

@[simp] theorem lastReachable_singleton (s : Statement) : lastReachable [s] = s.reachable := rfl

@[simp] theorem opensLast_singleton (s : Statement) : opensLast [s] = opens s := rfl

theorem lastReachable_cons_cons (s t : Statement) (rest : List Statement) :
    lastReachable (s::t::rest) = lastReachable (t::rest) := by
  rw [lastReachable,List.getLast?_cons_cons,lastReachable]

/-- A body whose end is reachable ends in an open block. -/
theorem opensLast_of_reachable {statements : List Statement}
    (h : ∀ s ∈ statements, s.reachable = true → opens s = true)
    (hlast : lastReachable statements = true) : opensLast statements = true := by
  induction statements with
  | nil => rfl
  | cons s rest ih =>
    cases rest with
    | nil => exact h s List.mem_cons_self hlast
    | cons t rest =>
      rw [lastReachable_cons_cons] at hlast
      exact ih (fun u hu => h u (List.mem_cons_of_mem s hu)) hlast

theorem Resolved.opens {inLoop : Bool} {s : Statement} (h : Resolved inLoop s)
    (hreach : s.reachable = true) : opens s = true := by
  induction h with
  | block hall hlast ih =>
    rw [Statement.reachable,allReachable_eq hlast] at hreach
    exact opensLast_of_reachable ih hreach
  | simple => rfl
  | ifThen _ _ => rfl
  | ifElse _ _ _ _ =>
    rw [Statement.reachable] at hreach
    simp only [ControlFlow.opens,lastReachable_singleton,hreach,Bool.true_or]
  | whileLoop _ _ => rfl
  | doWhile _ _ => rfl
  | forLoop _ _ _ _ => rfl
  | breakLoop => cases hreach
  | continueLoop => cases hreach
  | returns => cases hreach

section Fine

variable {r : Bool} {c : Flow} {cond next : Option Flow} {l l' : List Statement}

@[simp] theorem fine_block : Fine (.block l) ↔ ∀ s ∈ l, Fine s := by
  refine ⟨fun h s hs u hu => h u (.block hs hu),fun h u hu => ?_⟩
  cases hu with
  | self => rfl
  | block hs hu => exact h _ hs u hu

@[simp] theorem fine_ifElse :
    Fine (.ifElse r c l l') ↔ (∀ s ∈ l, Fine s) ∧ ∀ s ∈ l', Fine s := by
  refine ⟨fun h => ⟨fun s hs u hu => h u (.thenStmt hs hu),fun s hs u hu => h u (.elseStmt hs hu)⟩,
    fun h u hu => ?_⟩
  cases hu with
  | self => rfl
  | thenStmt hs hu => exact h.1 _ hs u hu
  | elseStmt hs hu => exact h.2 _ hs u hu

@[simp] theorem fine_whileLoop : Fine (.whileLoop r c l) ↔ ∀ s ∈ l, Fine s := by
  refine ⟨fun h s hs u hu => h u (.whileLoop hs hu),fun h u hu => ?_⟩
  cases hu with
  | self => rfl
  | whileLoop hs hu => exact h _ hs u hu

@[simp] theorem fine_doWhile : Fine (.doWhile r l c) ↔ ∀ s ∈ l, Fine s := by
  refine ⟨fun h s hs u hu => h u (.doWhile hs hu),fun h u hu => ?_⟩
  cases hu with
  | self => rfl
  | doWhile hs hu => exact h _ hs u hu

@[simp] theorem fine_forLoop :
    Fine (.forLoop r l cond next l') ↔ (∀ s ∈ l, Fine s) ∧ ∀ s ∈ l', Fine s := by
  refine ⟨fun h => ⟨fun s hs u hu => h u (.forInit hs hu),fun s hs u hu => h u (.forBody hs hu)⟩,
    fun h u hu => ?_⟩
  cases hu with
  | self => rfl
  | forInit hs hu => exact h.1 _ hs u hu
  | forBody hs hu => exact h.2 _ hs u hu

@[simp] theorem fine_simple : Fine (.simple c) := by
  rintro u ⟨⟩
  rfl

@[simp] theorem fine_breakLoop : Fine .breakLoop := by
  rintro u ⟨⟩
  rfl

@[simp] theorem fine_continueLoop : Fine .continueLoop := by
  rintro u ⟨⟩
  rfl

@[simp] theorem fine_returns {value : Option (Flow × Returned)} :
    Fine (.returns value) ↔ (Statement.returns value).panics = false := by
  refine ⟨fun h => h _ .self,fun h u hu => ?_⟩
  cases hu
  exact h

end Fine

/-- What the end of a `return` does to the builder, where it does not panic. -/
theorem genReturned_eq_some {returned : Returned} {b b' : Builder}
    (h : genReturned returned b = some b') : returned.panics = false ∧
      (returned = .values [] ∧ b' = b ∨ returned ≠ .values [] ∧ (b' = b.ret ∨ b' = b.op.ret)) := by
  match returned with
  | .values [] =>
    cases h
    exact ⟨rfl,.inl ⟨rfl,rfl⟩⟩
  | .values [_] =>
    cases h
    exact ⟨rfl,.inr ⟨by simp,.inl rfl⟩⟩
  | .values (p::q::pointers) =>
    rw [genReturned] at h
    · split at h
      · rename_i hall
        cases h
        exact ⟨by simp only [Returned.panics,hall,Bool.not_true,Bool.and_false],
          .inr ⟨by simp,.inr rfl⟩⟩
      · cases h
    · simp
    · simp
  | .conditional | .noResult => cases h

theorem genReturned_isSome {returned : Returned} (h : returned.panics = false) (b : Builder) :
    ∃ b', genReturned returned b = some b' := by
  match returned with
  | .values [] => exact ⟨b,rfl⟩
  | .values [_] => exact ⟨b.ret,rfl⟩
  | .values (p::q::pointers) =>
    have hall : (p::q::pointers).all id = true := by
      simpa only [Returned.panics,List.length_cons,Nat.le_add_left,decide_true,Bool.true_and,
        Bool.not_eq_false'] using h
    refine ⟨b.op.ret,?_⟩
    rw [genReturned,if_pos hall] <;> simp
  | .conditional | .noResult => cases h

/-- The stack of loops is the same, and the jumps that were added go where they should. -/
structure Keeps (b b' : Builder) : Prop where
  loops : b'.loops = b.loops
  jumps : (∀ jump ∈ b.jumps, jump.1 = jump.2) → ∀ jump ∈ b'.jumps, jump.1 = jump.2

theorem Keeps.of {b b' : Builder} (hloops : b'.loops = b.loops) (hjumps : b'.jumps = b.jumps) :
    Keeps b b' := ⟨hloops,by rw [hjumps]; exact fun h => h⟩

theorem Keeps.refl (b : Builder) : Keeps b b := .of rfl rfl

theorem Keeps.trans {a b c : Builder} (h1 : Keeps a b) (h2 : Keeps b c) : Keeps a c :=
  ⟨h2.loops.trans h1.loops,fun h => h2.jumps (h1.jumps h)⟩

theorem Keeps.to {a b c : Builder} (h : Keeps a b) (hloops : c.loops = b.loops)
    (hjumps : c.jumps = b.jumps) : Keeps a c := h.trans (.of hloops hjumps)

/-- Then other code, from a builder that differs in the blocks only. -/
theorem Keeps.next {a b c d : Builder} (h : Keeps a b) (h' : Keeps c d) (hloops : c.loops = b.loops)
    (hjumps : c.jumps = b.jumps) : Keeps a d :=
  (h.to hloops hjumps).trans h'

theorem genFlow_keeps (e : Flow) (b : Builder) : Keeps b (genFlow e b) := by
  obtain ⟨hloops,hjumps⟩ := genFlow_loops e b
  exact .of hloops hjumps

theorem genOption_keeps (e : Option Flow) (b : Builder) : Keeps b (genOption e b) := by
  cases e with
  | none => exact .refl b
  | some e => exact genFlow_keeps e b

/-- Between a push and a pop. -/
theorem Keeps.pop {loop : Loop} {a b b' : Builder} (h : Keeps (b.push loop) b') (hab : Keeps a b) :
    Keeps a b'.pop := by
  refine ⟨?_,fun ha => h.jumps (hab.jumps ha)⟩
  rw [← hab.loops]
  exact congrArg List.tail h.loops

/-! ### The stack of loops -/

/-- A result with a stack of loops at least as high as before, and the same one when there is no
`do` loop (`d` tells whether there is one). In a loop there is a result where the generator panics at
no `return`, which is `fine`. -/
def Grows (d : Bool) (fine : Prop) (b : Builder) (r : Option Builder) : Prop :=
  (fine → r = none → b.loops = []) ∧
    ∀ b', r = some b' → b.loops.length ≤ b'.loops.length ∧ (d = false → b'.loops = b.loops)

section Grows

variable {d d' : Bool} {fine fine' : Prop} {b c : Builder} {r : Option Builder}
  {f : Builder → Option Builder}

theorem Grows.pure {b' : Builder} (h : b'.loops = b.loops) : Grows d fine b (some b') := by
  refine ⟨fun _ h => (by cases h),fun b1 h1 => ?_⟩
  cases h1
  exact ⟨by rw [h],fun _ => h⟩

theorem Grows.congr (h : Grows d fine c r) (hloops : c.loops = b.loops) : Grows d fine b r := by
  unfold Grows at h ⊢
  rwa [hloops] at h

theorem Grows.mono (h : Grows d fine b r) (hfine : fine' → fine) : Grows d fine' b r :=
  ⟨fun h' => h.1 (hfine h'),h.2⟩

theorem Grows.bind (h : Grows d fine b r) (hf : ∀ b', Grows d' fine b' (f b')) :
    Grows (d || d') fine b (r.bind f) := by
  cases r with
  | none => exact ⟨fun hfine _ => h.1 hfine rfl,fun b' h' => (by cases h')⟩
  | some b1 =>
    obtain ⟨hle,heq⟩ := h.2 b1 rfl
    refine ⟨fun hfine hnone => ?_,fun b' hb' => ?_⟩
    · have hlen := hle
      rw [(hf b1).1 hfine hnone] at hlen
      exact List.length_eq_zero_iff.mp (Nat.le_zero.mp hlen)
    · obtain ⟨hle',heq'⟩ := (hf b1).2 b' hb'
      refine ⟨hle.trans hle',fun hd => ?_⟩
      rw [Bool.or_eq_false_iff] at hd
      exact (heq' hd.2).trans (heq hd.1)

/-- The body of a loop, whose entry is taken from the stack behind it. -/
theorem Grows.body (loop : Loop) (h : Grows d fine c r) (hloops : c.loops = loop::b.loops)
    {g : Builder → Builder} (hg : ∀ b', (g b').loops = b'.loops.tail) :
    Grows d fine b (r.bind fun b' => some (g b')) := by
  cases r with
  | none =>
    refine ⟨fun hfine _ => ?_,fun b' h => (by cases h)⟩
    have hnil := h.1 hfine rfl
    rw [hloops] at hnil
    cases hnil
  | some b1 =>
    obtain ⟨hle,heq⟩ := h.2 b1 rfl
    rw [hloops] at hle heq
    refine ⟨fun _ h => (by cases h),fun b' hb' => ?_⟩
    cases hb'
    refine ⟨?_,fun hd => ?_⟩
    · rw [hg,List.length_tail]
      exact Nat.le_sub_one_of_lt hle
    · rw [hg,heq hd,List.tail_cons]

@[simp] theorem genFlow_loops_eq (e : Flow) (b : Builder) : (genFlow e b).loops = b.loops :=
  (genFlow_loops e b).1

@[simp] theorem genOption_loops (e : Option Flow) (b : Builder) : (genOption e b).loops = b.loops :=
  (genOption_keeps e b).loops

@[simp] theorem newBlock_loops (b : Builder) : b.newBlock.loops = b.loops := rfl

@[simp] theorem emit_loops (x : Item) (b : Builder) : (b.emit x).loops = b.loops := rfl

@[simp] theorem op_loops (b : Builder) : b.op.loops = b.loops := rfl

@[simp] theorem ret_loops (b : Builder) : b.ret.loops = b.loops := rfl

@[simp] theorem br_loops (target : BlockId) (b : Builder) : (b.br target).loops = b.loops := rfl

@[simp] theorem condBr_loops (ifTrue ifFalse : BlockId) (b : Builder) :
    (b.condBr ifTrue ifFalse).loops = b.loops := rfl

@[simp] theorem position_loops (i : BlockId) (b : Builder) : (b.position i).loops = b.loops := rfl

@[simp] theorem push_loops (loop : Loop) (b : Builder) : (b.push loop).loops = loop::b.loops := rfl

@[simp] theorem pop_loops (b : Builder) : b.pop.loops = b.loops.tail := rfl

/-- The entry of a `do` loop stays on the stack. -/
theorem Grows.doWhile (inner : Loop) (reachable : Bool) {body : List Statement} (cond : Flow)
    (h : ∀ loop c, Grows d fine c (genStatements loop body c)) (b : Builder) :
    (fine → ∃ b', genStatement inner (.doWhile reachable body cond) b = some b') ∧
      ∀ b', genStatement inner (.doWhile reachable body cond) b = some b' →
        b.loops.length < b'.loops.length := by
  simp only [genStatement]
  generalize hc : Builder.push (b.size + 2,b.size + 1) _ = c
  have hloops : c.loops = (b.size + 2,b.size + 1)::b.loops := by
    rw [← hc]
    rfl
  obtain ⟨hnone,hsome⟩ := h (b.size + 2,b.size + 1) c
  cases hr : genStatements (b.size + 2,b.size + 1) body c with
  | none =>
    refine ⟨fun hfine => ?_,fun b' h => (by cases h)⟩
    have hnil := hnone hfine hr
    rw [hloops] at hnil
    cases hnil
  | some b1 =>
    have hle := (hsome b1 hr).1
    rw [hloops] at hle
    refine ⟨fun _ => ⟨_,rfl⟩,fun b' h => ?_⟩
    cases h
    refine lt_of_lt_of_eq hle ?_
    split <;> simp

mutual

theorem genStatement_grows (inner : Loop) : ∀ (s : Statement) (b : Builder),
    Grows (hasDoWhile s) (Fine s) b (genStatement inner s b)
  | .block statements, b => by
    simp only [genStatement,hasDoWhile]
    exact (genBlock_grows inner statements b).mono fine_block.mp
  | .simple expr, b => by
    simp only [genStatement]
    exact .pure (by simp)
  | .returns none, b => by
    simp only [genStatement]
    exact .pure rfl
  | .returns (some (expr,returned)), b => by
    simp only [genStatement]
    refine ⟨fun hfine hnone => ?_,fun b' hb' => ?_⟩
    · obtain ⟨b',hb'⟩ := genReturned_isSome (fine_returns.mp hfine) (genFlow expr b)
      rw [hb'] at hnone
      cases hnone
    · have hloops : b'.loops = b.loops := by
        rcases (genReturned_eq_some hb').2 with ⟨-,rfl⟩|⟨-,rfl|rfl⟩ <;> simp
      exact ⟨by rw [hloops],fun _ => hloops⟩
  | .ifElse _ cond thenStmt [], b => by
    simp only [genStatement,hasDoWhile]
    refine ((genStatements_grows inner thenStmt _).congr (b := b) ?_).mono (fun h => (fine_ifElse.mp h).1) |>.bind
      fun b1 => ?_
    · simp
    · refine .pure ?_
      split <;> simp
  | .ifElse _ cond thenStmt (elseStmt::elseStmts), b => by
    simp only [genStatement,hasDoWhile]
    refine ((genStatements_grows inner thenStmt _).congr (b := b) ?_).mono (fun h => (fine_ifElse.mp h).1) |>.bind
      fun b1 => ?_
    · simp
    · rw [← Bool.or_false (anyDoWhile (elseStmt::elseStmts))]
      refine ((genStatements_grows inner (elseStmt::elseStmts) _).congr (b := b1) ?_).mono
        (fun h => (fine_ifElse.mp h).2) |>.bind fun b2 => .pure ?_
      · cases lastReachable thenStmt <;> simp
      · cases lastReachable thenStmt <;> cases lastReachable (elseStmt::elseStmts) <;> simp
  | .forLoop _ init (some cond) next body, b => by
    simp only [genStatement,hasDoWhile]
    refine ((genStatements_grows inner init _).congr (b := b) ?_).mono (fun h => (fine_forLoop.mp h).1) |>.bind
      fun b1 => ?_
    · simp
    · refine (Grows.body (b.size + 3,b.size + 2) (genStatements_grows _ body _) (b := b1) ?_
        fun b2 => ?_).mono fun h => (fine_forLoop.mp h).2
      · simp
      · split <;> simp
  | .forLoop _ init none next body, b => by
    simp only [genStatement,hasDoWhile]
    refine ((genStatements_grows inner init _).congr (b := b) ?_).mono (fun h => (fine_forLoop.mp h).1) |>.bind
      fun b1 => ?_
    · simp
    · refine (Grows.body (b.size + 2,if next.isNone then b.size else b.size + 1)
        (genStatements_grows _ body _) (b := b1) ?_ fun b2 => ?_).mono fun h => (fine_forLoop.mp h).2
      · simp
      · split <;> simp
  | .breakLoop, b => by
    simp only [genStatement]
    cases hloops : b.loops with
    | nil => exact ⟨fun _ _ => hloops,fun b' h => (by cases h)⟩
    | cons loop loops => exact .pure rfl
  | .continueLoop, b => by
    simp only [genStatement]
    cases hloops : b.loops with
    | nil => exact ⟨fun _ _ => hloops,fun b' h => (by cases h)⟩
    | cons loop loops => exact .pure rfl
  | .whileLoop _ cond body, b => by
    simp only [genStatement,hasDoWhile]
    refine (Grows.body (b.size + 2,b.size + 1) (genStatements_grows _ body _) ?_ fun b1 => ?_).mono
      fine_whileLoop.mp
    · simp
    · split <;> simp
  | .doWhile _ body cond, b => by
    obtain ⟨hsome,hlt⟩ := Grows.doWhile inner _ cond (genStatements_grows · body) b
    rw [hasDoWhile]
    refine ⟨fun hfine hnone => ?_,fun b' h => ⟨(hlt b' h).le,fun h => (by cases h)⟩⟩
    obtain ⟨b',hb'⟩ := hsome (fine_doWhile.mp hfine)
    rw [hb'] at hnone
    cases hnone

theorem genStatements_grows (inner : Loop) : ∀ (statements : List Statement) (b : Builder),
    Grows (anyDoWhile statements) (∀ s ∈ statements, Fine s) b (genStatements inner statements b)
  | [], b => by
    rw [genStatements]
    exact .pure rfl
  | s::rest, b => by
    rw [genStatements,anyDoWhile]
    exact ((genStatement_grows inner s b).mono fun h => h s List.mem_cons_self).bind fun b' =>
      (genStatements_grows inner rest b').mono fun h t ht => h t (List.mem_cons_of_mem s ht)

theorem genBlock_grows (inner : Loop) : ∀ (statements : List Statement) (b : Builder),
    Grows (anyDoWhile statements) (∀ s ∈ statements, Fine s) b (genBlock inner statements b)
  | [], b => by
    rw [genBlock]
    exact .pure rfl
  | s::rest, b => by
    rw [genBlock,anyDoWhile]
    refine ((genStatement_grows inner s b).mono fun h => h s List.mem_cons_self).bind fun b' => ?_
    split
    · exact (genBlock_grows inner rest b').mono fun h t ht => h t (List.mem_cons_of_mem s ht)
    · exact .pure rfl

end

end Grows

/-! ### The code of a statement -/

/-- What the code of a statement does when the builder comes to it in an open block. -/
def Emits (inLoop : Bool) (gen : Loop → Builder → Option Builder) (isTidy isOpen : Bool) : Prop :=
  ∀ (inner : Loop) (pend : Set BlockId) (ok : Bool) (b : Builder), At pend ok true b →
    (inLoop = true → b.loops.head? = some inner) →
    ∃ b', gen inner b = some b' ∧ At pend (ok && isTidy) isOpen b' ∧ Keeps b b'

section Emits

variable {inLoop : Bool}

theorem emits_statements {statements : List Statement}
    (h : ∀ s ∈ statements, Emits inLoop (genStatement · s) (tidy s) (opens s))
    (hopen : ∀ s ∈ statements.dropLast, opens s = true) :
    Emits inLoop (genStatements · statements) (tidyAll statements) (opensLast statements) := by
  induction statements with
  | nil =>
    intro inner pend ok b hb hloop
    exact ⟨b,by simp only [genStatements],hb.congr rfl (by rw [tidyAll,Bool.and_true]) rfl,.refl b⟩
  | cons s rest ih =>
    intro inner pend ok b hb hloop
    obtain ⟨b1,hgen,hat,hkeeps⟩ := h s List.mem_cons_self _ _ _ _ hb hloop
    cases rest with
    | nil =>
      refine ⟨b1,?_,hat.congr rfl ?_ rfl,hkeeps⟩
      · simp only [genStatements,hgen,Option.bind_eq_bind,Option.bind_some]
      · rw [tidyAll_cons,tidyAll,Bool.and_true]
    | cons t rest =>
      have hs : opens s = true := hopen s List.mem_cons_self
      have htail := ih (fun u hu => h u (List.mem_cons_of_mem s hu))
        (fun u hu => hopen u (by rw [List.dropLast_cons_cons]; exact List.mem_cons_of_mem s hu))
      rw [hs] at hat
      have hloop1 : inLoop = true → b1.loops.head? = some inner := by
        rw [hkeeps.loops]
        exact hloop
      obtain ⟨b2,hgen2,hat2,hkeeps2⟩ := htail _ _ _ _ hat hloop1
      refine ⟨b2,?_,hat2.congr rfl ?_ rfl,hkeeps.trans hkeeps2⟩
      · simp only [genStatements,hgen,Option.bind_eq_bind,Option.bind_some] at hgen2 ⊢
        exact hgen2
      · rw [Bool.and_assoc,tidyAll_cons s]

/-- No statement of an accepted block is left out. -/
theorem genBlock_eq (inner : Loop) {statements : List Statement}
    (h : ∀ s ∈ statements.dropLast, s.reachable = true) (b : Builder) :
    genBlock inner statements b = genStatements inner statements b := by
  induction statements generalizing b with
  | nil => rw [genBlock,genStatements]
  | cons s rest ih =>
    rw [genBlock,genStatements]
    cases rest with
    | nil =>
      congr 1
      funext b'
      rw [genBlock,genStatements]
      exact ite_self _
    | cons t rest =>
      rw [List.dropLast_cons_cons] at h
      have hs := h s List.mem_cons_self
      have hrest := ih fun u hu => h u (List.mem_cons_of_mem s hu)
      simp only [hs,if_true,hrest]

/-- The end of a body: a branch to `target` when the flag says that the end is reachable. -/
def leave (reachable : Bool) (target : BlockId) (b : Builder) : Builder :=
  if reachable then b.br target else b

theorem leave_keeps (reachable : Bool) (target : BlockId) (b : Builder) :
    Keeps b (leave reachable target b) := by
  cases reachable with
  | false => exact .refl b
  | true => exact .of rfl rfl

theorem At.leave {pend : Set BlockId} {ok isOpen reachable : Bool} {b : Builder}
    (h : At pend ok isOpen b) (hreach : reachable = true → isOpen = true) (target : BlockId) :
    At pend ok (isOpen && !reachable) (leave reachable target b) := by
  cases reachable with
  | false => exact h.congr rfl rfl (by simp)
  | true =>
    have hopen := hreach rfl
    subst hopen
    exact (h.term (.br target)).congr rfl (by simp) rfl

/-- The end of a body and the next block. -/
theorem At.leave_go {pend : Set BlockId} {ok isOpen reachable : Bool} {b : Builder}
    (h : At pend ok isOpen b) (hreach : reachable = true → isOpen = true) (target : BlockId)
    {p : BlockId} (hp : p ∈ pend) :
    At (pend \ {p}) (ok && (reachable == isOpen)) true
      ((ControlFlow.leave reachable target b).position p) := by
  refine ((h.leave hreach target).position hp).congr rfl ?_ rfl
  cases reachable <;> cases isOpen <;> simp_all

/-- A block that is left empty for good. -/
theorem At.abandon {pend : Set BlockId} {ok isOpen : Bool} {b : Builder} (h : At pend ok isOpen b)
    {p : BlockId} (hp : p ∈ pend) : At (pend \ {p}) false isOpen b := by
  obtain ⟨hlt,hempty⟩ := h.pending p hp
  refine ⟨⟨h.cur.1,fun hmem => h.cur.2 hmem.1⟩,fun q hq => h.pending q hq.1,h.above,
    fun hok => (by cases hok),fun _ => ⟨p,hlt,fun hmem => hmem.2 rfl,.inr ⟨?_,?_⟩⟩⟩
  · exact fun heq => h.cur.2 (heq ▸ hp)
  · rw [hempty]
    exact open_nil.not_closed

/-- The parts of a spec for the code that follows a body. -/
theorem Resolved.fits {s : Statement} (h : Resolved inLoop s) :
    lastReachable [s] = true → opensLast [s] = true := fun hreach => h.opens hreach

theorem emits_flows (init : List Flow) (inner : Loop) {pend : Set BlockId} {ok : Bool} {b : Builder}
    (h : At pend ok true b) : ∃ b', genStatements inner (init.map Statement.simple) b = some b' ∧
      At pend ok true b' ∧ Keeps b b' := by
  induction init generalizing b with
  | nil => exact ⟨b,by rw [List.map_nil,genStatements],h,.refl b⟩
  | cons e init ih =>
    obtain ⟨b',hgen,hat,hkeeps⟩ := ih (genFlow_at e h)
    refine ⟨b',?_,hat,(genFlow_keeps e b).trans hkeeps⟩
    simp only [List.map_cons,genStatements,genStatement,Option.bind_eq_bind,Option.bind_some,hgen]

theorem genOption_at (e : Option Flow) {pend : Set BlockId} {ok : Bool} {b : Builder}
    (h : At pend ok true b) : At pend ok true (genOption e b) := by
  cases e with
  | none => exact h
  | some e => exact genFlow_at e h

theorem emits_ifThen {cond : Flow} {thenStmt : List Statement}
    (h : Emits inLoop (genStatements · thenStmt) (tidyAll thenStmt) (opensLast thenStmt))
    (hfits : lastReachable thenStmt = true → opensLast thenStmt = true) :
    Emits inLoop (genStatement · (.ifElse true cond thenStmt []))
      (tidyAll thenStmt && fits thenStmt) true := by
  intro inner pend ok b hb hloop
  have hcond := (genFlow_at cond hb).op
  have hkeeps : Keeps b (genFlow cond b).op := (genFlow_keeps cond b).trans (.of rfl rfl)
  generalize hb0 : (genFlow cond b).op = b0 at hcond hkeeps
  have hthen := hcond.two.go (.condBr b0.size (b0.size + 1)) (p := b0.size) (by simp)
  obtain ⟨b1,hgen,hat,hkeeps1⟩ := h inner _ _ _ hthen (by rw [← hkeeps.loops] at hloop; exact hloop)
  have hend := hat.leave_go hfits (b0.size + 1) (p := b0.size + 1) (by simp)
  refine ⟨_,?_,hend.congr (pend_two hcond.pend_lt) ?_ rfl,?_⟩
  · simp only [genStatement,hb0]
    have hgen' := hgen
    simp only [Builder.condBr] at hgen' ⊢
    rw [hgen']
    rfl
  · rw [fits,Bool.and_assoc]
  · have hleave := leave_keeps (lastReachable thenStmt) (b0.size + 1) b1
    exact ((hkeeps.next hkeeps1 rfl rfl).trans hleave).trans (.of rfl rfl)

theorem At.newBlock_br {pend : Set BlockId} {ok : Bool} {b : Builder} (h : At pend ok true b) :
    At (insert b.size pend) ok false (b.newBlock.br b.size) :=
  (h.newBlock.term (.br b.size)).congr rfl (by simp) rfl

theorem emits_ifElse {cond : Flow} {reachable : Bool} {thenStmt elseStmts : List Statement}
    {elseStmt : Statement}
    (hthen : Emits inLoop (genStatements · thenStmt) (tidyAll thenStmt) (opensLast thenStmt))
    (hthenFits : lastReachable thenStmt = true → opensLast thenStmt = true)
    (helse : Emits inLoop (genStatements · (elseStmt::elseStmts)) (tidyAll (elseStmt::elseStmts))
      (opensLast (elseStmt::elseStmts)))
    (helseFits : lastReachable (elseStmt::elseStmts) = true →
      opensLast (elseStmt::elseStmts) = true) :
    Emits inLoop (genStatement · (.ifElse reachable cond thenStmt (elseStmt::elseStmts)))
      (tidy (.ifElse reachable cond thenStmt (elseStmt::elseStmts)))
      (opens (.ifElse reachable cond thenStmt (elseStmt::elseStmts))) := by
  intro inner pend ok b hb hloop
  have hcond := (genFlow_at cond hb).op
  have hkeeps : Keeps b (genFlow cond b).op := (genFlow_keeps cond b).trans (.of rfl rfl)
  generalize hb0 : (genFlow cond b).op = b0 at hcond hkeeps
  have hstart := hcond.two.go (.condBr b0.size (b0.size + 1)) (p := b0.size) (by simp)
  have hloop0 : inLoop = true → b0.loops.head? = some inner := by
    rw [hkeeps.loops]
    exact hloop
  obtain ⟨b1,hgen,hat,hkeeps1⟩ := hthen inner _ _ _ hstart hloop0
  have hgen1 : genStatements inner thenStmt ((b0.newBlock.newBlock.condBr b0.size
    (b0.size + 1)).position b0.size) = some b1 := hgen
  have hkeeps01 : Keeps b b1 := hkeeps.next hkeeps1 rfl rfl
  have hloop1 : inLoop = true → b1.loops.head? = some inner := by
    rw [hkeeps01.loops]
    exact hloop
  have hpend := pend_two hcond.pend_lt
  have helseMem : b0.size + 1 ∈ insert (b0.size + 1) (insert b0.size pend) \ {b0.size} := by simp
  cases hr : lastReachable thenStmt with
  | true =>
    rw [hthenFits hr] at hat
    have hat1 := hat.newBlock_br.position (p := b0.size + 1) (.inr helseMem)
    obtain ⟨b2,hgen2,hat2,hkeeps2⟩ := helse inner _ _ _ hat1 hloop1
    have hgen2' : genStatements inner (elseStmt::elseStmts)
      ((b1.newBlock.br b1.size).position (b0.size + 1)) = some b2 := hgen2
    have hkeeps12 : Keeps b b2 := hkeeps01.next hkeeps2 rfl rfl
    have hne : b1.size ≠ b0.size + 1 := fun heq =>
      absurd (hat.pend_lt (b0.size + 1) helseMem) (by rw [heq]; exact lt_irrefl _)
    have hend := hat2.leave_go helseFits b1.size (p := b1.size) ⟨.inl rfl,hne⟩
    refine ⟨_,?_,hend.congr ?_ ?_ ?_,(hkeeps12.trans (leave_keeps _ _ _)).trans (.of rfl rfl)⟩
    · simp only [genStatement,hb0,hgen1,hr,hgen2',Option.bind_eq_bind,Option.bind_some,if_true,
        Option.pure_def]
      cases lastReachable (elseStmt::elseStmts) <;> rfl
    · have hlt : ∀ p ∈ pend, p < b1.size := fun p hp => hat.pend_lt p (by
        rw [← hpend] at hp
        exact hp.1)
      rw [← hpend]
      ext x
      have hx : x ∈ pend → x < b1.size := hlt x
      rw [← hpend] at hx
      simp only [Set.mem_sdiff,Set.mem_insert_iff,Set.mem_singleton_iff] at hx ⊢
      grind
    · simp only [tidy,fits,hr,hthenFits hr]
      simp [Bool.and_assoc]
    · simp only [opens,hr,Bool.true_or]
  | false =>
    have hat1 := (hat.position helseMem).congr hpend rfl rfl
    obtain ⟨b2,hgen2,hat2,hkeeps2⟩ := helse inner _ _ _ hat1 hloop1
    have hgen2' : genStatements inner (elseStmt::elseStmts) (b1.position (b0.size + 1)) =
      some b2 := hgen2
    have hkeeps12 : Keeps b b2 := hkeeps01.next hkeeps2 rfl rfl
    cases hr' : lastReachable (elseStmt::elseStmts) with
    | true =>
      rw [helseFits hr'] at hat2
      have hend := hat2.newBlock_br.position (p := b2.size) (.inl rfl)
      refine ⟨_,?_,hend.congr ?_ ?_ ?_,hkeeps12.trans (.of rfl rfl)⟩
      · simp only [genStatement,hb0,hgen1,hr,hr',Option.bind_eq_bind,Option.bind_some,if_true,
          Bool.false_eq_true,if_false,hgen2',Option.pure_def]
      · ext x
        have hx := hat2.pend_lt x
        simp only [Set.mem_sdiff,Set.mem_insert_iff,Set.mem_singleton_iff]
        grind
      · simp only [tidy,fits,hr,hr',helseFits hr']
        cases ok <;> cases opensLast thenStmt <;> simp
      · simp only [opens,hr,hr',Bool.true_or,Bool.or_true]
    | false =>
      refine ⟨b2,?_,hat2.congr rfl ?_ ?_,hkeeps12⟩
      · simp only [genStatement,hb0,hgen1,hr,hr',Option.bind_eq_bind,Option.bind_some,
          Bool.false_eq_true,if_false,hgen2',Option.pure_def]
      · simp only [tidy,fits,hr,hr']
        cases ok <;> cases opensLast thenStmt <;> simp
      · simp only [opens,hr,hr',Bool.false_or]

theorem emits_whileLoop {cond : Flow} {reachable : Bool} {body : List Statement}
    (h : Emits true (genStatements · body) (tidyAll body) (opensLast body))
    (hfits : lastReachable body = true → opensLast body = true) :
    Emits inLoop (genStatement · (.whileLoop reachable cond body)) (tidyAll body && fits body)
      true := by
  intro inner pend ok b hb hloop
  have hcond := genFlow_at cond (hb.three.go (.br (b.size + 1)) (p := b.size + 1) (by simp))
  have hbody := hcond.op.go (.condBr b.size (b.size + 2)) (p := b.size) (by simp)
  have hkeeps := genFlow_keeps cond
    ((b.newBlock.newBlock.newBlock.br (b.size + 1)).position (b.size + 1))
  obtain ⟨b1,hgen,hat,hkeeps1⟩ := h (b.size + 2,b.size + 1) _ _ _
    (hbody.push (b.size + 2,b.size + 1)) (fun _ => rfl)
  have hend := hat.leave_go hfits (b.size + 1) (p := b.size + 2) (by simp)
  refine ⟨_,?_,hend.pop.congr (pend_three hb.pend_lt (by omega)) ?_ rfl,?_⟩
  · simp only [genStatement]
    simp only [Builder.condBr,Builder.br] at hgen ⊢
    rw [hgen]
    rfl
  · rw [fits,Bool.and_assoc]
  · have hbefore := (Keeps.refl b).next hkeeps rfl rfl
    have hinner := hkeeps1.trans (leave_keeps (lastReachable body) (b.size + 1) b1)
    exact (hinner.pop (hbefore.to rfl rfl)).to rfl rfl

theorem emits_forLoop {init : List Flow} {cond : Flow} {next : Option Flow} {reachable : Bool}
    {body : List Statement}
    (h : Emits true (genStatements · body) (tidyAll body) (opensLast body))
    (hfits : lastReachable body = true → opensLast body = true) :
    Emits inLoop (genStatement · (.forLoop reachable (init.map Statement.simple) (some cond) next
      body)) (tidyAll body && fits body) true := by
  intro inner pend ok b hb hloop
  obtain ⟨b0,hgen0,hat0,hkeeps0⟩ := emits_flows init inner hb.four
  have hcond := genFlow_at cond (hat0.go (.br b.size) (p := b.size) (by simp))
  have hkeeps := genFlow_keeps cond ((b0.br b.size).position b.size)
  have hbody := hcond.go (.condBr (b.size + 1) (b.size + 3)) (p := b.size + 1) (by simp)
  obtain ⟨b1,hgen,hat,hkeeps1⟩ := h (b.size + 3,b.size + 2) _ _ _
    (hbody.push (b.size + 3,b.size + 2)) (fun _ => rfl)
  have hnext := genOption_at next
    (hat.leave_go hfits (b.size + 2) (p := b.size + 2) (by simp)).pop
  have hend := hnext.go (.br b.size) (p := b.size + 3) (by simp)
  refine ⟨_,?_,hend.congr (pend_four hb.pend_lt (by omega)) ?_ rfl,?_⟩
  · simp only [genStatement]
    rw [hgen0]
    simp only [Option.bind_eq_bind,Option.bind_some,Builder.condBr,Builder.br] at hgen ⊢
    rw [hgen]
    rfl
  · rw [fits,Bool.and_assoc]
  · have hbefore := ((Keeps.refl b).next hkeeps0 rfl rfl).next hkeeps rfl rfl
    have hinner := hkeeps1.trans (leave_keeps (lastReachable body) (b.size + 2) b1)
    have hnext := genOption_keeps next
      ((leave (lastReachable body) (b.size + 2) b1).position (b.size + 2)).pop
    exact ((hinner.pop (hbefore.to rfl rfl)).next hnext rfl rfl).to rfl rfl

/-- A loop without a condition. Where its body cannot come to its end, the block `next` is never
filled. -/
theorem emits_endless {init : List Flow} {next : Option Flow} {reachable : Bool}
    {body : List Statement}
    (h : Emits true (genStatements · body) (tidyAll body) (opensLast body))
    (hfits : lastReachable body = true → opensLast body = true) :
    Emits inLoop (genStatement · (.forLoop reachable (init.map Statement.simple) none next body))
      (tidyAll body && lastReachable body) true := by
  intro inner pend ok b hb hloop
  obtain ⟨b0,hgen0,hat0,hkeeps0⟩ := emits_flows init inner hb.three
  have hbody := hat0.go (.br b.size) (p := b.size) (by simp)
  obtain ⟨b1,hgen,hat,hkeeps1⟩ := h (b.size + 2,if next.isNone then b.size else b.size + 1) _ _ _
    (hbody.push _) (fun _ => rfl)
  have hbefore : Keeps b ((b0.br b.size).position b.size) :=
    ((Keeps.refl b).next hkeeps0 rfl rfl).to rfl rfl
  cases hr : lastReachable body with
  | true =>
    rw [hfits hr] at hat
    have hnext := genOption_at next
      (hat.go (.br (b.size + 1)) (p := b.size + 1) (by simp)).pop
    have hend := hnext.go (.br b.size) (p := b.size + 2) (by simp)
    refine ⟨_,?_,hend.congr (pend_three hb.pend_lt (by omega)) ?_ rfl,?_⟩
    · simp only [genStatement]
      rw [hgen0]
      simp only [Option.bind_eq_bind,Option.bind_some,Builder.br,hr,if_true] at hgen ⊢
      rw [hgen]
      rfl
    · rw [Bool.and_true]
    · have hnext := genOption_keeps next ((b1.br (b.size + 1)).position (b.size + 1)).pop
      exact ((hkeeps1.pop hbefore).next hnext rfl rfl).to rfl rfl
  | false =>
    have hend := (hat.abandon (p := b.size + 1) (by simp)).pop.position (p := b.size + 2) (by simp)
    refine ⟨_,?_,hend.congr (pend_three hb.pend_lt (by omega)) ?_ rfl,?_⟩
    · simp only [genStatement]
      rw [hgen0]
      simp only [Option.bind_eq_bind,Option.bind_some,Builder.br,hr,Bool.false_eq_true,if_false]
        at hgen ⊢
      rw [hgen]
      rfl
    · rw [Bool.false_and,Bool.and_false,Bool.and_false]
    · exact (hkeeps1.pop hbefore).to rfl rfl

theorem emits_jump (target : Loop → BlockId) {s : Statement}
    (hgen : ∀ loop b, genStatement loop s b = b.loops.head?.map fun loop' =>
      b.jump (target loop') (target loop)) : Emits true (genStatement · s) true false := by
  intro inner pend ok b hb hloop
  refine ⟨b.jump (target inner) (target inner),?_,?_,rfl,fun h jump hjump => ?_⟩
  · simp only [hgen,hloop rfl,Option.map_some]
  · have hterm := hb.term (.br (target inner))
    exact ⟨hterm.cur,hterm.pending,hterm.above,hterm.good,hterm.bad⟩
  · rcases List.mem_append.mp hjump with hjump|hjump
    · exact h jump hjump
    · rw [List.mem_singleton.mp hjump]

theorem emits_returns {value : Option (Flow × Returned)} (h : Fine (.returns value)) :
    Emits inLoop (genStatement · (.returns value)) true (opens (.returns value)) := by
  intro inner pend ok b hb hloop
  cases value with
  | none =>
    exact ⟨b.ret,by simp only [genStatement],hb.term .ret,.of rfl rfl⟩
  | some value =>
    obtain ⟨expr,returned⟩ := value
    have hexpr := genFlow_at expr hb
    have hkeeps := genFlow_keeps expr b
    obtain ⟨b',hgen⟩ := genReturned_isSome (fine_returns.mp h) (genFlow expr b)
    refine ⟨b',by simp only [genStatement,hgen],?_⟩
    rcases (genReturned_eq_some hgen).2 with ⟨rfl,rfl⟩|⟨hne,rfl|rfl⟩
    · exact ⟨hexpr.congr rfl (by simp) rfl,hkeeps⟩
    · exact ⟨(hexpr.term .ret).congr rfl rfl (by simp [opens,hne]),hkeeps.to rfl rfl⟩
    · exact ⟨(hexpr.op.term .ret).congr rfl rfl (by simp [opens,hne]),hkeeps.to rfl rfl⟩

theorem emits_one {s : Statement} (h : Emits inLoop (genStatement · s) (tidy s) (opens s)) :
    Emits inLoop (genStatements · [s]) (tidyAll [s]) (opensLast [s]) := by
  refine emits_statements (fun t ht => ?_) (fun t ht => (by cases ht))
  rw [List.mem_singleton.mp ht]
  exact h

/-- Every accepted statement without a `do` loop in which the generator panics at no `return`. -/
theorem Resolved.emits {s : Statement} (h : Resolved inLoop s) (hdo : hasDoWhile s = false)
    (hfine : Fine s) : Emits inLoop (genStatement · s) (tidy s) (ControlFlow.opens s) := by
  induction h with
  | block hall hlast ih =>
    rw [hasDoWhile,anyDoWhile_eq_false] at hdo
    have hlist := emits_statements (fun s hs => ih s hs (hdo s hs) (fine_block.mp hfine s hs)) fun s hs =>
      (hall s ((List.dropLast_sublist _).subset hs)).opens (hlast s hs)
    intro inner pend ok b hb hloop
    simp only [genStatement,genBlock_eq inner hlast,tidy,ControlFlow.opens]
    exact hlist inner pend ok b hb hloop
  | @simple inLoop expr =>
    intro inner pend ok b hb hloop
    exact ⟨genFlow expr b,by simp only [genStatement],
      (genFlow_at expr hb).congr rfl (by simp [tidy]) rfl,genFlow_keeps expr b⟩
  | ifThen hthen ih =>
    simp only [hasDoWhile,anyDoWhile,Bool.or_false] at hdo
    exact emits_ifThen (emits_one (ih hdo ((fine_ifElse.mp hfine).1 _ List.mem_cons_self))) hthen.fits
  | ifElse hthen helse ih1 ih2 =>
    simp only [hasDoWhile,anyDoWhile,Bool.or_false,Bool.or_eq_false_iff] at hdo
    exact emits_ifElse (emits_one (ih1 hdo.1 ((fine_ifElse.mp hfine).1 _ List.mem_cons_self))) hthen.fits
      (emits_one (ih2 hdo.2 ((fine_ifElse.mp hfine).2 _ List.mem_cons_self))) helse.fits
  | whileLoop hbody ih =>
    simp only [hasDoWhile,anyDoWhile,Bool.or_false] at hdo
    exact emits_whileLoop (emits_one (ih hdo (fine_whileLoop.mp hfine _ List.mem_cons_self))) hbody.fits
  | doWhile hbody ih => cases hdo
  | @forLoop inLoop reachable cond next body init hcond hbody hone ih =>
    rw [hasDoWhile,Bool.or_eq_false_iff,@anyDoWhile_eq_false body] at hdo
    have hopen : ∀ s ∈ body.dropLast, ControlFlow.opens s = true := by
      have hlen : body.dropLast.length = 0 := by
        rw [List.length_dropLast]
        omega
      rw [List.length_eq_zero_iff.mp hlen]
      exact fun _ h => (by cases h)
    have hlist := emits_statements (fun s hs => ih s hs (hdo.2 s hs) ((fine_forLoop.mp hfine).2 s hs)) hopen
    have hfits : lastReachable body = true → opensLast body = true :=
      opensLast_of_reachable fun s hs => (hbody s hs).opens
    cases cond with
    | none => exact emits_endless hlist hfits
    | some cond => exact emits_forLoop hlist hfits
  | breakLoop =>
    refine emits_jump Prod.fst fun loop b => ?_
    cases hloops : b.loops <;> simp [genStatement,hloops]
  | continueLoop =>
    refine emits_jump Prod.snd fun loop b => ?_
    cases hloops : b.loops <;> simp [genStatement,hloops]
  | returns => exact emits_returns hfine

/-- The generator comes to every statement of an accepted one. -/
theorem fine_of_genStatements {statements : List Statement}
    (h : ∀ s ∈ statements, ∀ inner b b', genStatement inner s b = some b' → Fine s) {inner : Loop}
    {b b' : Builder} (hgen : genStatements inner statements b = some b') :
    ∀ s ∈ statements, Fine s := by
  induction statements generalizing b with
  | nil => exact fun _ hs => (by cases hs)
  | cons s rest ih =>
    rw [genStatements] at hgen
    obtain ⟨b1,hs,hrest⟩ := Option.bind_eq_some_iff.mp hgen
    exact List.forall_mem_cons.mpr ⟨h s List.mem_cons_self _ _ _ hs,
      ih (fun t ht => h t (List.mem_cons_of_mem s ht)) hrest⟩

theorem fine_of_genStatements_one {s : Statement}
    (h : ∀ inner b b', genStatement inner s b = some b' → Fine s) {inner : Loop}
    {b b' : Builder} (hgen : genStatements inner [s] b = some b') : ∀ t ∈ [s], Fine t :=
  fine_of_genStatements (by simpa only [List.forall_mem_singleton] using h) hgen

theorem Resolved.fine {s : Statement} (h : Resolved inLoop s) (inner : Loop) (b b' : Builder)
    (hgen : genStatement inner s b = some b') : Fine s := by
  induction h generalizing inner b b' with
  | block hall hlast ih =>
    simp only [genStatement,genBlock_eq inner hlast] at hgen
    exact fine_block.mpr (fine_of_genStatements ih hgen)
  | simple => exact fine_simple
  | ifThen hthen ih =>
    simp only [genStatement,Option.bind_eq_bind,Option.bind_eq_some_iff] at hgen
    obtain ⟨b1,hgen,-⟩ := hgen
    exact fine_ifElse.mpr ⟨fine_of_genStatements_one ih hgen,fun _ hs => (by cases hs)⟩
  | ifElse hthen helse ih1 ih2 =>
    simp only [genStatement,Option.bind_eq_bind,Option.bind_eq_some_iff] at hgen
    obtain ⟨b1,hgen1,b2,hgen2,-⟩ := hgen
    exact fine_ifElse.mpr ⟨fine_of_genStatements_one ih1 hgen1,fine_of_genStatements_one ih2 hgen2⟩
  | whileLoop hbody ih =>
    simp only [genStatement,Option.bind_eq_bind,Option.bind_eq_some_iff] at hgen
    obtain ⟨b1,hgen,-⟩ := hgen
    exact fine_whileLoop.mpr (fine_of_genStatements_one ih hgen)
  | doWhile hbody ih =>
    simp only [genStatement,Option.bind_eq_bind,Option.bind_eq_some_iff] at hgen
    obtain ⟨b1,hgen,-⟩ := hgen
    exact fine_doWhile.mpr (fine_of_genStatements_one ih hgen)
  | @forLoop inLoop reachable cond next body init hcond hbody hone ih =>
    refine fine_forLoop.mpr ⟨fun s hs => ?_,?_⟩
    · obtain ⟨e,-,rfl⟩ := List.mem_map.mp hs
      exact fine_simple
    · cases cond with
      | none =>
        simp only [genStatement,Option.bind_eq_bind,Option.bind_eq_some_iff] at hgen
        obtain ⟨b1,-,b2,hgen,-⟩ := hgen
        exact fine_of_genStatements ih hgen
      | some cond =>
        simp only [genStatement,Option.bind_eq_bind,Option.bind_eq_some_iff] at hgen
        obtain ⟨b1,-,b2,hgen,-⟩ := hgen
        exact fine_of_genStatements ih hgen
  | breakLoop => exact fine_breakLoop
  | continueLoop => exact fine_continueLoop
  | @returns inLoop value =>
    refine fine_returns.mpr ?_
    cases value with
    | none => rfl
    | some value =>
      simp only [genStatement] at hgen
      exact (genReturned_eq_some hgen).1

end Emits

/-! ### Functions -/

mutual

theorem exists_doWhile : ∀ s : Statement, hasDoWhile s = true →
    ∃ reachable body cond, Within (.doWhile reachable body cond) s
  | .block statements, h => by
    rw [hasDoWhile] at h
    obtain ⟨t,ht,reachable,body,cond,hin⟩ := exists_doWhile_mem statements h
    exact ⟨reachable,body,cond,.block ht hin⟩
  | .ifElse _ _ thenStmt elseStmt, h => by
    rw [hasDoWhile,Bool.or_eq_true] at h
    rcases h with h|h
    · obtain ⟨t,ht,reachable,body,cond,hin⟩ := exists_doWhile_mem thenStmt h
      exact ⟨reachable,body,cond,.thenStmt ht hin⟩
    · obtain ⟨t,ht,reachable,body,cond,hin⟩ := exists_doWhile_mem elseStmt h
      exact ⟨reachable,body,cond,.elseStmt ht hin⟩
  | .whileLoop _ _ body, h => by
    rw [hasDoWhile] at h
    obtain ⟨t,ht,reachable,body,cond,hin⟩ := exists_doWhile_mem body h
    exact ⟨reachable,body,cond,.whileLoop ht hin⟩
  | .doWhile reachable body cond, _ => ⟨reachable,body,cond,.self⟩
  | .forLoop _ init _ _ body, h => by
    rw [hasDoWhile,Bool.or_eq_true] at h
    rcases h with h|h
    · obtain ⟨t,ht,reachable,body,cond,hin⟩ := exists_doWhile_mem init h
      exact ⟨reachable,body,cond,.forInit ht hin⟩
    · obtain ⟨t,ht,reachable,body,cond,hin⟩ := exists_doWhile_mem body h
      exact ⟨reachable,body,cond,.forBody ht hin⟩
  | .simple _, h | .breakLoop, h | .continueLoop, h | .returns _, h => by simp [hasDoWhile] at h

theorem exists_doWhile_mem : ∀ statements : List Statement, anyDoWhile statements = true →
    ∃ t ∈ statements, ∃ reachable body cond, Within (.doWhile reachable body cond) t
  | [], h => by simp [anyDoWhile] at h
  | s::rest, h => by
    rw [anyDoWhile,Bool.or_eq_true] at h
    rcases h with h|h
    · exact ⟨s,List.mem_cons_self,exists_doWhile s h⟩
    · obtain ⟨t,ht,hin⟩ := exists_doWhile_mem rest h
      exact ⟨t,List.mem_cons_of_mem s ht,hin⟩

end

theorem Within.trans {s t u : Statement} (h : Within s t) (h' : Within t u) : Within s u := by
  induction h' with
  | self => exact h
  | block hmem _ ih => exact .block hmem ih
  | thenStmt hmem _ ih => exact .thenStmt hmem ih
  | elseStmt hmem _ ih => exact .elseStmt hmem ih
  | whileLoop hmem _ ih => exact .whileLoop hmem ih
  | doWhile hmem _ ih => exact .doWhile hmem ih
  | forInit hmem _ ih => exact .forInit hmem ih
  | forBody hmem _ ih => exact .forBody hmem ih

theorem Within.no_doWhile {s t : Statement} (h : Within s t) (hdo : hasDoWhile t = false) :
    hasDoWhile s = false := by
  induction h with
  | self => exact hdo
  | block hmem _ ih =>
    rw [hasDoWhile,anyDoWhile_eq_false] at hdo
    exact ih (hdo _ hmem)
  | thenStmt hmem _ ih =>
    rw [hasDoWhile,Bool.or_eq_false_iff,anyDoWhile_eq_false,anyDoWhile_eq_false] at hdo
    exact ih (hdo.1 _ hmem)
  | elseStmt hmem _ ih =>
    rw [hasDoWhile,Bool.or_eq_false_iff,anyDoWhile_eq_false,anyDoWhile_eq_false] at hdo
    exact ih (hdo.2 _ hmem)
  | whileLoop hmem _ ih =>
    rw [hasDoWhile,anyDoWhile_eq_false] at hdo
    exact ih (hdo _ hmem)
  | doWhile => cases hdo
  | forInit hmem _ ih =>
    rw [hasDoWhile,Bool.or_eq_false_iff,anyDoWhile_eq_false,anyDoWhile_eq_false] at hdo
    exact ih (hdo.1 _ hmem)
  | forBody hmem _ ih =>
    rw [hasDoWhile,Bool.or_eq_false_iff,anyDoWhile_eq_false,anyDoWhile_eq_false] at hdo
    exact ih (hdo.2 _ hmem)

/-- The stack of loops keeps its height in every statement just when there is no `do` loop. -/
theorem height_iff {t : Statement} (hfine : Fine t) : (∀ s, Within s t → ∀ inner b b',
    genStatement inner s b = some b' → b'.loops.length = b.loops.length) ↔ hasDoWhile t = false := by
  constructor
  · intro h
    by_contra hdo
    obtain ⟨reachable,body,cond,hin⟩ := exists_doWhile t (by simpa using hdo)
    obtain ⟨hsome,hlt⟩ := Grows.doWhile (0,0) reachable cond (genStatements_grows · body) entry
    obtain ⟨b',hgen⟩ := hsome fun s hs u hu => hfine u ((Within.doWhile hs hu).trans hin)
    exact absurd (h _ hin _ _ _ hgen) (hlt b' hgen).ne'
  · intro hdo s hin inner b b' hgen
    rw [((genStatement_grows inner s b).2 b' hgen).2 (hin.no_doWhile hdo)]

section Functions

variable {ok isOpen : Bool} {b : Builder}

theorem At.closed_iff (h : At ∅ ok isOpen b) :
    (∀ i < b.size, Closed (b.block i)) ↔ ok = true ∧ isOpen = false := by
  constructor
  · intro hclosed
    cases ok with
    | false =>
      obtain ⟨i,hi,-,hbad⟩ := h.bad rfl
      rcases hbad with hbad|⟨-,hbad⟩
      · exact absurd (hclosed i hi) hbad.not_closed
      · exact absurd (hclosed i hi) hbad
    | true =>
      cases isOpen with
      | false => exact ⟨rfl,rfl⟩
      | true => exact absurd (hclosed b.cur h.cur.1) ((h.good rfl).2.1 rfl).not_closed
  · rintro ⟨rfl,rfl⟩ i hi
    obtain ⟨hclosed,-,hcur⟩ := h.good rfl
    by_cases hic : i = b.cur
    · rw [hic]
      exact hcur rfl
    · exact hclosed i hi hic (Set.notMem_empty i)

theorem At.entry : At ∅ true true entry where
  cur := ⟨Nat.zero_lt_one,Set.notMem_empty 0⟩
  pending := fun _ h => (by cases h)
  above := fun _ _ => rfl
  good := fun _ => ⟨fun i hi hne => absurd (Nat.lt_one_iff.mp hi) hne,fun _ => open_nil,
    fun h => (by cases h)⟩
  bad := fun h => (by cases h)

theorem At.return_named {pend : Set BlockId} (h : At pend ok isOpen b) :
    At pend (ok && isOpen) false b.op.ret := by
  have hop := h.emit .op true fun ho => ⟨fun _ => ho.op,fun h => (by cases h)⟩
  exact (hop.term .ret).congr rfl (by simp) rfl

/-- After two terminators there is no way back. -/
theorem implicitReturns_spoiled {returns : List Bool} {b' : Builder} (h : At ∅ false isOpen b)
    (hgen : implicitReturns returns b = some b') : ∃ isOpen', At ∅ false isOpen' b' := by
  induction returns generalizing b isOpen with
  | nil =>
    cases hgen
    exact ⟨isOpen,h⟩
  | cons named rest ih =>
    rw [implicitReturns] at hgen
    split at hgen
    · exact ih h.return_named hgen
    · cases hgen

theorem implicitReturns_jumps {returns : List Bool} {b' : Builder}
    (hgen : implicitReturns returns b = some b') : b'.jumps = b.jumps := by
  induction returns generalizing b with
  | nil =>
    cases hgen
    rfl
  | cons named rest ih =>
    rw [implicitReturns] at hgen
    split at hgen
    · have hrest := ih hgen
      exact hrest
    · cases hgen

/-- How the body has to end for the epilogue to add the terminator that is missing, and only that. -/
def Ends (stmt : Statement) (returns : List Bool) : Prop :=
  if stmt.reachable then returns = [] ∨ returns = [true] else returns = [] ↔ opens stmt = true

/-- The epilogue of a function. -/
def epilogue (reachable : Bool) (returns : List Bool) (b : Builder) : Option Builder := do
  let b ← if reachable then implicitReturns returns b else some b
  pure (if returns.isEmpty then b.ret else b)

theorem epilogue_jumps {reachable : Bool} {returns : List Bool} {out : Builder}
    (h : epilogue reachable returns b = some out) : out.jumps = b.jumps := by
  have hret : ∀ b1 : Builder, (if returns.isEmpty then b1.ret else b1).jumps = b1.jumps := by
    intro b1
    split <;> rfl
  cases reachable with
  | false =>
    cases h
    exact hret b
  | true =>
    simp only [epilogue,if_true,Option.bind_eq_bind,Option.bind_eq_some_iff,Option.pure_def,
      Option.some.injEq] at h
    obtain ⟨b1,hgen,rfl⟩ := h
    rw [hret,implicitReturns_jumps hgen]

theorem genFunction_eq (prelude : Flow) (returns : List Bool) (stmt : Statement) :
    genFunction ⟨prelude,returns,[stmt]⟩ =
      (genStatement (0,0) stmt (genFlow prelude entry)).bind (epilogue stmt.reachable returns) := by
  simp only [genFunction,genBlock,lastReachable_singleton]
  cases genStatement (0,0) stmt (genFlow prelude entry) with
  | none => rfl
  | some b => by_cases hr : stmt.reachable = true <;> simp [epilogue,hr]

theorem epilogue_iff {stmt : Statement} (returns : List Bool) (h : At ∅ ok (opens stmt) b)
    (hopens : stmt.reachable = true → opens stmt = true) :
    (∃ out, epilogue stmt.reachable returns b = some out ∧ ∀ i < out.size, Closed (out.block i)) ↔
      ok = true ∧ Ends stmt returns := by
  cases hr : stmt.reachable with
  | true =>
    rw [hopens hr] at h
    simp only [Ends,hr,if_true]
    match returns with
    | [] =>
      have hret := (h.term .ret).closed_iff
      simp only [Bool.and_true,and_true] at hret
      simp only [true_or,and_true]
      rw [← hret]
      exact ⟨fun ⟨out,hout,hclosed⟩ => (by cases hout; exact hclosed),fun hclosed =>
        ⟨_,rfl,hclosed⟩⟩
    | [true] =>
      have hret := h.return_named.closed_iff
      simp only [Bool.and_true,and_true] at hret
      simp only [or_true,and_true]
      rw [← hret]
      exact ⟨fun ⟨out,hout,hclosed⟩ => (by cases hout; exact hclosed),fun hclosed =>
        ⟨_,rfl,hclosed⟩⟩
    | [false] =>
      refine ⟨fun ⟨out,hout,_⟩ => (by cases hout),fun ⟨_,hends⟩ => ?_⟩
      simp at hends
    | named::named'::rest =>
      refine ⟨fun ⟨out,hout,hclosed⟩ => ?_,fun ⟨_,hends⟩ => ?_⟩
      · simp only [epilogue,implicitReturns,if_true,List.isEmpty_cons,Bool.false_eq_true,if_false,
          Option.bind_eq_bind,Option.pure_def] at hout
        cases named with
        | false => cases hout
        | true =>
          cases named' with
          | false => cases hout
          | true =>
            have hspoiled := h.return_named.return_named.congr rfl (Bool.and_false _) rfl
            simp only [if_true,Option.bind_fun_some] at hout
            obtain ⟨isOpen',hout'⟩ := implicitReturns_spoiled hspoiled hout
            cases (hout'.closed_iff.mp hclosed).1
      · simp at hends
  | false =>
    simp only [Ends,hr,Bool.false_eq_true,if_false]
    cases returns with
    | nil =>
      have hret := (h.term .ret).closed_iff
      simp only [Bool.and_eq_true,and_true] at hret
      simp only [true_iff]
      rw [← hret]
      exact ⟨fun ⟨out,hout,hclosed⟩ => (by cases hout; exact hclosed),fun hclosed =>
        ⟨_,rfl,hclosed⟩⟩
    | cons named rest =>
      simp only [reduceCtorEq,false_iff,Bool.not_eq_true]
      rw [← h.closed_iff]
      exact ⟨fun ⟨out,hout,hclosed⟩ => (by cases hout; exact hclosed),fun hclosed =>
        ⟨_,rfl,hclosed⟩⟩

/-- A loop that is left by a `break` in a branch. -/
def searchLoop : Source :=
  .block [.whileLoop .line (.block [.ifThen .line .breakLoop,.simple .line]),.simple .line]

end Functions

end ControlFlow
end OlaLang
