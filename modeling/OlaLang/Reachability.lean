import OlaLang.ControlFlow
import Mathlib.Order.Nat

/-! Reachability: the answers, flags and counts of semantic analysis against the runs of a function
body. -/
namespace OlaLang
namespace Reachability

open ControlFlow

/-! ### What is emitted -/

mutual

/-- The statement as the source has it, with nothing dropped. -/
def plain : Source → Statement
  | .simple expr => .simple expr
  | .block statements => .block (plainAll statements)
  | .ifThen cond thenStmt => .ifElse true cond [plain thenStmt] []
  | .ifElse cond thenStmt elseStmt => .ifElse true cond [plain thenStmt] [plain elseStmt]
  | .whileLoop cond body => .whileLoop true cond [plain body]
  | .doWhile body cond => .doWhile true [plain body] cond
  | .forLoop init cond next body =>
    .forLoop true (init.toList.map Statement.simple) cond next (plainBody body)
  | .breakLoop => .breakLoop
  | .continueLoop => .continueLoop
  | .returns value => .returns value

def plainAll : List Source → List Statement
  | [] => []
  | s::rest => plain s::plainAll rest

def plainBody : Option Source → List Statement
  | none => []
  | some body => [plain body]

end

mutual

/-- What the generator makes code of: in a block, the statements up to the first one whose end is not
reachable. Whether it makes code for the last expression of a loop is `nextEmitted`. -/
def emitted : Statement → Statement
  | .block statements => .block (emittedBlock statements)
  | .simple expr => .simple expr
  | .ifElse r cond thenStmt elseStmt => .ifElse r cond (emittedAll thenStmt) (emittedAll elseStmt)
  | .whileLoop r cond body => .whileLoop r cond (emittedAll body)
  | .doWhile r body cond => .doWhile r (emittedAll body) cond
  | .forLoop r init cond next body => .forLoop r (emittedAll init) cond next (emittedAll body)
  | .breakLoop => .breakLoop
  | .continueLoop => .continueLoop
  | .returns value => .returns value

def emittedBlock : List Statement → List Statement
  | [] => []
  | s::rest => emitted s::if s.reachable then emittedBlock rest else []

def emittedAll : List Statement → List Statement
  | [] => []
  | s::rest => emitted s::emittedAll rest

end

/-! ### Runs -/

/-- How a run of a statement ends. -/
inductive Outcome (σ : Type)
  | normal (s : σ)
  | breaks (s : σ)
  | continues (s : σ)
  | returns (s : σ)
  | abort

/-- What an expression does to a state: it aborts, or it gives a truth value and a state. -/
abbrev Eval (σ : Type) := Flow → σ → Option (Bool × σ) → Prop

/-- The points at which a run can stand: before a statement or a list of them, at the condition of a
loop, or at its body. -/
inductive Point
  | stmt (s : Statement)
  | stmts (l : List Statement)
  | loop (cond next : Option Flow) (body : List Statement)
  | iter (cond next : Option Flow) (body : List Statement)

namespace Outcome

variable {σ : Type}

/-- The state in which a loop goes on behind its body. -/
def goesOn : Outcome σ → Option σ
  | .normal s | .continues s => some s
  | _ => none

/-- The end of a loop behind its body. -/
def leaves : Outcome σ → Option (Outcome σ)
  | .breaks s => some (.normal s)
  | .returns s => some (.returns s)
  | .abort => some .abort
  | _ => none

def isNormal : Outcome σ → Bool
  | .normal _ => true
  | _ => false

end Outcome

/-- Whether there is code for the block `next`, to which a `continue` jumps. In a loop without a
condition it is made only where the end of the body is reachable; without a last expression a
`continue` of such a loop jumps to the body itself. -/
def nextEmitted (cond next : Option Flow) (body : List Statement) : Bool :=
  cond.isSome || next.isNone || lastReachable body

/-- The runs that end, for any meaning of the expressions: of the source, in which the flags of the
statements play no part, or, for `gen`, of the emitted code, which stops for good in a block that was
left empty. -/
inductive Runs (gen : Bool) {σ : Type} (ev : Eval σ) : Point → σ → Outcome σ → Prop
  | simple {e s b t} (h : ev e s (some (b,t))) : Runs gen ev (.stmt (.simple e)) s (.normal t)
  | simpleAbort {e s} (h : ev e s none) : Runs gen ev (.stmt (.simple e)) s .abort
  | block {l s o} (h : Runs gen ev (.stmts l) s o) : Runs gen ev (.stmt (.block l)) s o
  | nil {s} : Runs gen ev (.stmts []) s (.normal s)
  | cons {a l s t o} (ha : Runs gen ev (.stmt a) s (.normal t)) (hl : Runs gen ev (.stmts l) t o) :
      Runs gen ev (.stmts (a::l)) s o
  | stop {a l s o} (ha : Runs gen ev (.stmt a) s o) (ho : o.isNormal = false) :
      Runs gen ev (.stmts (a::l)) s o
  | ifTrue {r c a b s t o} (hc : ev c s (some (true,t))) (h : Runs gen ev (.stmts a) t o) :
      Runs gen ev (.stmt (.ifElse r c a b)) s o
  | ifFalse {r c a b s t o} (hc : ev c s (some (false,t))) (h : Runs gen ev (.stmts b) t o) :
      Runs gen ev (.stmt (.ifElse r c a b)) s o
  | ifAbort {r c a b s} (hc : ev c s none) : Runs gen ev (.stmt (.ifElse r c a b)) s .abort
  | whileLoop {r c body s o} (h : Runs gen ev (.loop (some c) none body) s o) :
      Runs gen ev (.stmt (.whileLoop r c body)) s o
  | doWhile {r c body s o} (h : Runs gen ev (.iter (some c) none body) s o) :
      Runs gen ev (.stmt (.doWhile r body c)) s o
  | forLoop {r init c n body s t o} (hi : Runs gen ev (.stmts init) s (.normal t))
      (h : Runs gen ev (.loop c n body) t o) : Runs gen ev (.stmt (.forLoop r init c n body)) s o
  | forInit {r init c n body s o} (hi : Runs gen ev (.stmts init) s o) (ho : o.isNormal = false) :
      Runs gen ev (.stmt (.forLoop r init c n body)) s o
  | breakLoop {s} : Runs gen ev (.stmt .breakLoop) s (.breaks s)
  | continueLoop {s} : Runs gen ev (.stmt .continueLoop) s (.continues s)
  | returns {s} : Runs gen ev (.stmt (.returns none)) s (.returns s)
  | returnsValue {e n s b t} (h : ev e s (some (b,t))) :
      Runs gen ev (.stmt (.returns (some (e,n)))) s (.returns t)
  | returnsAbort {e n s} (h : ev e s none) : Runs gen ev (.stmt (.returns (some (e,n)))) s .abort
  | loopTrue {c n body s t o} (hc : ev c s (some (true,t))) (h : Runs gen ev (.iter (some c) n body) t o) :
      Runs gen ev (.loop (some c) n body) s o
  | loopFalse {c n body s t} (hc : ev c s (some (false,t))) :
      Runs gen ev (.loop (some c) n body) s (.normal t)
  | loopAbort {c n body s} (hc : ev c s none) : Runs gen ev (.loop (some c) n body) s .abort
  | loopForever {n body s o} (h : Runs gen ev (.iter none n body) s o) : Runs gen ev (.loop none n body) s o
  | iterNext {c n body s p t u o} (hb : Runs gen ev (.stmts body) s p) (hp : p.goesOn = some t)
      (hcode : gen = true → nextEmitted c n body = true)
      (hn : Runs gen ev (.stmts (n.toList.map Statement.simple)) t (.normal u))
      (h : Runs gen ev (.loop c n body) u o) : Runs gen ev (.iter c n body) s o
  | iterStop {c n body s p t o} (hb : Runs gen ev (.stmts body) s p) (hp : p.goesOn = some t)
      (hcode : gen = true → nextEmitted c n body = true)
      (hn : Runs gen ev (.stmts (n.toList.map Statement.simple)) t o) (ho : o.isNormal = false) :
      Runs gen ev (.iter c n body) s o
  | iterLeave {c n body s p o} (hb : Runs gen ev (.stmts body) s p) (hp : p.leaves = some o) :
      Runs gen ev (.iter c n body) s o

section

variable {gen : Bool} {σ : Type} {ev : Eval σ} {a b : σ} {o : Outcome σ}

/-- The points inside a loop. -/
def Point.isLoop : Point → Bool
  | .loop _ _ _ | .iter _ _ _ => true
  | _ => false

theorem Outcome.leaves_normal {p : Outcome σ} (h : p.leaves = some o) :
    (∀ b, o ≠ .breaks b) ∧ (∀ b, o ≠ .continues b) ∧ ∀ b, o = .normal b → p = .breaks b := by
  cases p <;> simp [Outcome.leaves] at h <;> subst h <;> simp

theorem Outcome.leaves_eq_none {p : Outcome σ} {t : σ} (h : p.goesOn = some t) : p.leaves = none := by
  cases p <;> simp [Outcome.goesOn,Outcome.leaves] at h ⊢

/-- A list of simple statements ends normally or aborts. -/
theorem simples_runs {l : List Flow} (h : Runs gen ev (.stmts (l.map Statement.simple)) a o) :
    (∃ b, o = .normal b) ∨ o = .abort := by
  induction l generalizing a with
  | nil =>
    cases h with
    | nil => exact Or.inl ⟨_,rfl⟩
  | cons e l ih =>
    cases h with
    | cons ha hl => exact ih hl
    | stop ha ho => cases ha with
      | simple h => simp [Outcome.isNormal] at ho
      | simpleAbort h => exact Or.inr rfl

/-- Simple statements run alike in the source and in the emitted code. -/
theorem simples_gen {gen' : Bool} {l : List Flow}
    (h : Runs gen ev (.stmts (l.map Statement.simple)) a o) :
    Runs gen' ev (.stmts (l.map Statement.simple)) a o := by
  induction l generalizing a with
  | nil =>
    cases h with
    | nil => exact .nil
  | cons e l ih =>
    cases h with
    | cons ha hl => cases ha with
      | simple h => exact .cons (.simple h) (ih hl)
    | stop ha ho => cases ha with
      | simple h => exact .stop (.simple h) ho
      | simpleAbort h => exact .stop (.simpleAbort h) ho

/-- A loop keeps the breaks and continues of its body to itself. -/
theorem loop_outcome {p : Point} (h : Runs gen ev p a o) (hl : p.isLoop) :
    (∀ b, o ≠ .breaks b) ∧ ∀ b, o ≠ .continues b := by
  induction h with
  | loopTrue hc h ih => exact ih rfl
  | loopFalse hc => simp
  | loopAbort hc => simp
  | loopForever h ih => exact ih rfl
  | iterNext hb hp hcode hn h ihb ihn ih => exact ih rfl
  | iterStop hb hp hcode hn ho =>
    rcases simples_runs hn with ⟨b,rfl⟩ | rfl
    · simp [Outcome.isNormal] at ho
    · simp
  | iterLeave hb hp =>
    obtain ⟨h1,h2,-⟩ := Outcome.leaves_normal hp
    exact ⟨h1,h2⟩
  | _ => simp [Point.isLoop] at hl

/-- A loop without a condition is left normally through a break of its body. -/
theorem forever_normal {n : Option Flow} {body : List Statement}
    (hbody : ∀ a b, ¬ Runs gen ev (.stmts body) a (.breaks b)) {p : Point}
    (hl : p = .loop none n body ∨ p = .iter none n body) (h : Runs gen ev p a o) :
    ∀ b, o ≠ .normal b := by
  induction h with
  | loopForever h ih =>
    obtain ⟨rfl,rfl⟩ : _ = n ∧ _ = body := by simpa using hl
    exact ih (Or.inr rfl)
  | iterNext hb hp hcode hn h ihb ihn ih =>
    obtain ⟨rfl,rfl,rfl⟩ : _ = none ∧ _ = n ∧ _ = body := by simpa using hl
    exact ih (Or.inl rfl)
  | iterStop hb hp hcode hn ho =>
    rintro b rfl
    simp [Outcome.isNormal] at ho
  | iterLeave hb hp =>
    obtain ⟨rfl,rfl,rfl⟩ : _ = none ∧ _ = n ∧ _ = body := by simpa using hl
    rintro b rfl
    rw [(Outcome.leaves_normal hp).2.2 b rfl] at hb
    exact hbody _ _ hb
  | _ => simp at hl

/-- A loop runs as its parts do: with another body that has the runs of the first, and where the body
comes to the last expression, with the same one and code for it. -/
theorem loop_mono {gen' : Bool} {c n n' : Option Flow} {body body' : List Statement}
    (hbody : ∀ a o, Runs gen ev (.stmts body) a o → Runs gen' ev (.stmts body') a o)
    (hnext : (n = n' ∧ (gen' = true → nextEmitted c n' body' = true)) ∨
      ∀ a o, Runs gen ev (.stmts body) a o → o.goesOn = none) {p : Point}
    (h : Runs gen ev p a o) :
    (p = .loop c n body → Runs gen' ev (.loop c n' body') a o) ∧
      (p = .iter c n body → Runs gen' ev (.iter c n' body') a o) := by
  induction h with
  | loopTrue hc h ih =>
    refine ⟨fun he => ?_,nofun⟩
    cases he
    exact .loopTrue hc (ih.2 rfl)
  | loopFalse hc =>
    refine ⟨fun he => ?_,nofun⟩
    cases he
    exact .loopFalse hc
  | loopAbort hc =>
    refine ⟨fun he => ?_,nofun⟩
    cases he
    exact .loopAbort hc
  | loopForever h ih =>
    refine ⟨fun he => ?_,nofun⟩
    cases he
    exact .loopForever (ih.2 rfl)
  | iterNext hb hp hcode hn h ihb ihn ih =>
    refine ⟨nofun,fun he => ?_⟩
    cases he
    rcases hnext with ⟨rfl,hcode'⟩ | hnone
    · exact .iterNext (hbody _ _ hb) hp hcode' (simples_gen hn) (ih.1 rfl)
    · simp [hnone _ _ hb] at hp
  | iterStop hb hp hcode hn ho =>
    refine ⟨nofun,fun he => ?_⟩
    cases he
    rcases hnext with ⟨rfl,hcode'⟩ | hnone
    · exact .iterStop (hbody _ _ hb) hp hcode' (simples_gen hn) ho
    · simp [hnone _ _ hb] at hp
  | iterLeave hb hp =>
    refine ⟨nofun,fun he => ?_⟩
    cases he
    exact .iterLeave (hbody _ _ hb) hp
  | _ => exact ⟨nofun,nofun⟩

/-- Two points with the same runs. -/
def Same (ev : Eval σ) (p q : Point) : Prop := ∀ a o, Runs false ev p a o ↔ Runs false ev q a o

theorem Same.refl (p : Point) : Same ev p p := fun _ _ => Iff.rfl

theorem Same.trans {p q r : Point} (h : Same ev p q) (h' : Same ev q r) : Same ev p r :=
  fun a o => (h a o).trans (h' a o)

theorem Same.loops {c n n' : Option Flow} {body body' : List Statement}
    (hbody : Same ev (.stmts body) (.stmts body'))
    (hnext : n = n' ∨ ∀ a o, Runs false ev (.stmts body) a o → o.goesOn = none) :
    Same ev (.loop c n body) (.loop c n' body') ∧ Same ev (.iter c n body) (.iter c n' body') := by
  have hnext' : n' = n ∨ ∀ a o, Runs false ev (.stmts body') a o → o.goesOn = none :=
    hnext.imp Eq.symm fun h a o hr => h a o ((hbody a o).mpr hr)
  have hto := hnext.imp_left fun h => And.intro h (nofun : false = true → nextEmitted c n' body' = true)
  have hof := hnext'.imp_left fun h => And.intro h (nofun : false = true → nextEmitted c n body = true)
  constructor
  · intro a o
    exact ⟨fun h => (loop_mono (fun a o => (hbody a o).mp) hto h).1 rfl,
      fun h => (loop_mono (fun a o => (hbody a o).mpr) hof h).1 rfl⟩
  · intro a o
    exact ⟨fun h => (loop_mono (fun a o => (hbody a o).mp) hto h).2 rfl,
      fun h => (loop_mono (fun a o => (hbody a o).mpr) hof h).2 rfl⟩

theorem nil_runs : Runs gen ev (.stmts []) a o ↔ o = .normal a := by
  constructor
  · rintro ⟨⟩
    rfl
  · rintro rfl
    exact .nil

/-- A list runs its first statement, and the rest behind its normal end. -/
theorem cons_runs {s : Statement} {l : List Statement} : Runs gen ev (.stmts (s::l)) a o ↔
    (∃ b, Runs gen ev (.stmt s) a (.normal b) ∧ Runs gen ev (.stmts l) b o) ∨
      (Runs gen ev (.stmt s) a o ∧ o.isNormal = false) := by
  constructor
  · intro h
    cases h with
    | cons hs hl => exact Or.inl ⟨_,hs,hl⟩
    | stop hs ho => exact Or.inr ⟨hs,ho⟩
  · rintro (⟨b,hs,hl⟩ | ⟨hs,ho⟩)
    · exact .cons hs hl
    · exact .stop hs ho

theorem singleton_runs {s : Statement} : Runs gen ev (.stmts [s]) a o ↔ Runs gen ev (.stmt s) a o := by
  simp only [cons_runs,nil_runs]
  cases o <;> simp [Outcome.isNormal]

theorem Same.cons {s s' : Statement} {l l' : List Statement} (hs : Same ev (.stmt s) (.stmt s'))
    (hl : Same ev (.stmts l) (.stmts l')) : Same ev (.stmts (s::l)) (.stmts (s'::l')) := by
  intro a o
  simp only [cons_runs,hs a,hl _ o]

/-- What stands behind a statement that never ends normally plays no part. -/
theorem Same.cut {s : Statement} (l : List Statement)
    (hs : ∀ a b, ¬ Runs false ev (.stmt s) a (.normal b)) : Same ev (.stmts (s::l)) (.stmts [s]) := by
  intro a o
  simp [cons_runs,hs]

theorem Same.single {s s' : Statement} (h : Same ev (.stmt s) (.stmt s')) :
    Same ev (.stmts [s]) (.stmts [s']) := h.cons (.refl _)

theorem block_runs {l : List Statement} :
    Runs gen ev (.stmt (.block l)) a o ↔ Runs gen ev (.stmts l) a o :=
  ⟨fun h => by cases h; assumption,.block⟩

theorem if_runs {r : Bool} {c : Flow} {l l' : List Statement} :
    Runs gen ev (.stmt (.ifElse r c l l')) a o ↔
      (∃ b, ev c a (some (true,b)) ∧ Runs gen ev (.stmts l) b o) ∨
      (∃ b, ev c a (some (false,b)) ∧ Runs gen ev (.stmts l') b o) ∨ (ev c a none ∧ o = .abort) := by
  constructor
  · intro h
    cases h with
    | ifTrue hc h => exact Or.inl ⟨_,hc,h⟩
    | ifFalse hc h => exact Or.inr (Or.inl ⟨_,hc,h⟩)
    | ifAbort hc => exact Or.inr (Or.inr ⟨hc,rfl⟩)
  · rintro (⟨b,hc,h⟩ | ⟨b,hc,h⟩ | ⟨hc,rfl⟩)
    · exact .ifTrue hc h
    · exact .ifFalse hc h
    · exact .ifAbort hc

theorem while_runs {r : Bool} {c : Flow} {body : List Statement} :
    Runs gen ev (.stmt (.whileLoop r c body)) a o ↔ Runs gen ev (.loop (some c) none body) a o :=
  ⟨fun h => by cases h; assumption,.whileLoop⟩

theorem doWhile_runs {r : Bool} {c : Flow} {body : List Statement} :
    Runs gen ev (.stmt (.doWhile r body c)) a o ↔ Runs gen ev (.iter (some c) none body) a o :=
  ⟨fun h => by cases h; assumption,.doWhile⟩

theorem for_runs {r : Bool} {init : List Statement} {c n : Option Flow} {body : List Statement} :
    Runs gen ev (.stmt (.forLoop r init c n body)) a o ↔
      (∃ b, Runs gen ev (.stmts init) a (.normal b) ∧ Runs gen ev (.loop c n body) b o) ∨
      (Runs gen ev (.stmts init) a o ∧ o.isNormal = false) := by
  constructor
  · intro h
    cases h with
    | forLoop hi h => exact Or.inl ⟨_,hi,h⟩
    | forInit hi ho => exact Or.inr ⟨hi,ho⟩
  · rintro (⟨b,hi,h⟩ | ⟨hi,ho⟩)
    · exact .forLoop hi h
    · exact .forInit hi ho

theorem Same.ifElse {r r' : Bool} {c : Flow} {l l' m m' : List Statement}
    (hl : Same ev (.stmts l) (.stmts l')) (hm : Same ev (.stmts m) (.stmts m')) :
    Same ev (.stmt (.ifElse r c l m)) (.stmt (.ifElse r' c l' m')) := by
  intro a o
  simp only [if_runs,hl _ o,hm _ o]

theorem Same.forLoop {r r' : Bool} {init init' : List Statement} {c n n' : Option Flow}
    {body body' : List Statement} (hi : Same ev (.stmts init) (.stmts init'))
    (h : Same ev (.loop c n body) (.loop c n' body')) :
    Same ev (.stmt (.forLoop r init c n body)) (.stmt (.forLoop r' init' c n' body')) := by
  intro a o
  simp only [for_runs,hi a,h _ o]

/-! ### Sound answers -/

/-- The breaks and continues counted for the innermost loop. -/
def breaksOf (loops : LoopScopes) : ℕ := (loops.head?.getD (0,0)).1

def continuesOf (loops : LoopScopes) : ℕ := (loops.head?.getD (0,0)).2

/-- The analysis of the point `p` of the source gave `q`: where it answers that the end is not
reachable there is no normal end, a run that breaks or continues has been counted, and nothing that
runs has been dropped. -/
structure Sound (ev : Eval σ) (p q : Point) (reachable : Bool) (loops loops' : LoopScopes) :
    Prop where
  answer : reachable = false → ∀ a b, ¬ Runs false ev p a (.normal b)
  tail : loops'.tail = loops.tail
  breaks_le : breaksOf loops ≤ breaksOf loops'
  continues_le : continuesOf loops ≤ continuesOf loops'
  breaks : ∀ a b, Runs false ev p a (.breaks b) → breaksOf loops < breaksOf loops'
  continues : ∀ a b, Runs false ev p a (.continues b) → continuesOf loops < continuesOf loops'
  same : Same ev p q

/-- A statement that neither breaks nor continues out of itself. -/
theorem sound_closed {p q : Point} {loops : LoopScopes} {reachable : Bool}
    (hsame : Same ev p q)
    (hout : ∀ a o, Runs false ev p a o → (∀ b, o ≠ .breaks b) ∧ ∀ b, o ≠ .continues b)
    (hanswer : reachable = false → ∀ a b, ¬ Runs false ev p a (.normal b)) :
    Sound ev p q reachable loops loops :=
  ⟨hanswer,rfl,le_rfl,le_rfl,fun a b h => absurd rfl ((hout a _ h).1 b),
    fun a b h => absurd rfl ((hout a _ h).2 b),hsame⟩

/-- The body of a loop, analysed with counts of its own. -/
theorem Sound.body_breaks {p q : Point} {r : Bool} {loops loops' : LoopScopes}
    (h : Sound ev p q r ((0,0)::loops) loops') (hb : ¬ breaksOf loops' > 0) (a b : σ) :
    ¬ Runs false ev p a (.breaks b) := fun hr => hb (lt_of_le_of_lt (Nat.zero_le _) (h.breaks a b hr))

theorem Sound.body_goesOn {p q : Point} {r : Bool} {loops loops' : LoopScopes}
    (h : Sound ev p q r ((0,0)::loops) loops') (hr : r = false) (hc : ¬ continuesOf loops' > 0)
    (a : σ) (o : Outcome σ) (hrun : Runs false ev p a o) : o.goesOn = none := by
  cases o with
  | normal b => exact absurd hrun (h.answer hr a b)
  | continues b => exact absurd (lt_of_le_of_lt (Nat.zero_le _) (h.continues a b hrun)) hc
  | _ => rfl

theorem Sound.single {s s' : Statement} {r : Bool} {loops loops' : LoopScopes}
    (h : Sound ev (.stmt s) (.stmt s') r loops loops') :
    Sound ev (.stmts [s]) (.stmts [s']) r loops loops' := by
  refine ⟨fun hr a b => ?_,h.tail,h.breaks_le,h.continues_le,fun a b hrun => ?_,fun a b hrun => ?_,
    h.same.single⟩
  · rw [singleton_runs]
    exact h.answer hr a b
  · exact h.breaks a b (singleton_runs.mp hrun)
  · exact h.continues a b (singleton_runs.mp hrun)

variable (ev)

mutual

theorem analyse_sound : ∀ (s : Source) (loops : LoopScopes) {stmt : Statement} {reachable : Bool}
    {loops' : LoopScopes} {errors : List String},
    analyse s loops = some (stmt,reachable,loops',errors) →
    Sound ev (.stmt (plain s)) (.stmt stmt) reachable loops loops'
  | .simple expr, loops, stmt, reachable, loops', errors, h => by
    simp only [analyse,Option.some.injEq,Prod.mk.injEq] at h
    obtain ⟨rfl,rfl,rfl,rfl⟩ := h
    refine sound_closed (.refl _) (fun a o h => ?_) nofun
    cases h <;> simp
  | .block statements, loops, stmt, reachable, loops', errors, h => by
    simp only [analyse,Option.bind_eq_bind,Option.bind_eq_some_iff,Option.pure_def,
      Option.some.injEq,Prod.mk.injEq] at h
    obtain ⟨⟨res,reachable1,loops1,errors1⟩,hres,rfl,rfl,rfl,rfl⟩ := h
    have hs := analyseBlock_sound statements true false loops hres
    refine ⟨fun hr a b => ?_,hs.tail,hs.breaks_le,hs.continues_le,fun a b hrun => ?_,
      fun a b hrun => ?_,fun a o => ?_⟩
    · rw [plain,block_runs]
      exact hs.answer (by simpa using hr) a b
    · exact hs.breaks a b (block_runs.mp hrun)
    · exact hs.continues a b (block_runs.mp hrun)
    · rw [plain,block_runs,block_runs]
      exact hs.same a o
  | .ifThen cond thenStmt, loops, stmt, reachable, loops', errors, h => by
    simp only [analyse,Option.bind_eq_bind,Option.bind_eq_some_iff,Option.pure_def,
      Option.some.injEq,Prod.mk.injEq] at h
    obtain ⟨⟨thenStmt1,reachable1,loops1,errors1⟩,hthen,rfl,rfl,rfl,rfl⟩ := h
    have hs := (analyse_sound thenStmt loops hthen).single
    refine ⟨nofun,hs.tail,hs.breaks_le,hs.continues_le,fun a b hrun => ?_,fun a b hrun => ?_,
      hs.same.ifElse (.refl _)⟩
    · rcases if_runs.mp hrun with ⟨c,-,hrun⟩ | ⟨c,-,hrun⟩ | ⟨-,hrun⟩
      · exact hs.breaks c b hrun
      · simp [nil_runs] at hrun
      · cases hrun
    · rcases if_runs.mp hrun with ⟨c,-,hrun⟩ | ⟨c,-,hrun⟩ | ⟨-,hrun⟩
      · exact hs.continues c b hrun
      · simp [nil_runs] at hrun
      · cases hrun
  | .ifElse cond thenStmt elseStmt, loops, stmt, reachable, loops', errors, h => by
    simp only [analyse,Option.bind_eq_bind,Option.bind_eq_some_iff,Option.pure_def,
      Option.some.injEq,Prod.mk.injEq] at h
    obtain ⟨⟨thenStmt1,reachable1,loops1,errors1⟩,hthen,
      ⟨elseStmt1,reachable2,loops2,errors2⟩,helse,rfl,rfl,rfl,rfl⟩ := h
    have hs := (analyse_sound thenStmt loops hthen).single
    have hs' := (analyse_sound elseStmt loops1 helse).single
    refine ⟨fun hr a b hrun => ?_,hs'.tail.trans hs.tail,hs.breaks_le.trans hs'.breaks_le,
      hs.continues_le.trans hs'.continues_le,fun a b hrun => ?_,fun a b hrun => ?_,
      hs.same.ifElse hs'.same⟩
    · obtain ⟨hr1,hr2⟩ := Bool.or_eq_false_iff.mp hr
      rcases if_runs.mp hrun with ⟨c,-,hrun⟩ | ⟨c,-,hrun⟩ | ⟨-,hrun⟩
      · exact hs.answer hr1 c b hrun
      · exact hs'.answer hr2 c b hrun
      · cases hrun
    · rcases if_runs.mp hrun with ⟨c,-,hrun⟩ | ⟨c,-,hrun⟩ | ⟨-,hrun⟩
      · exact (hs.breaks c b hrun).trans_le hs'.breaks_le
      · exact hs.breaks_le.trans_lt (hs'.breaks c b hrun)
      · cases hrun
    · rcases if_runs.mp hrun with ⟨c,-,hrun⟩ | ⟨c,-,hrun⟩ | ⟨-,hrun⟩
      · exact (hs.continues c b hrun).trans_le hs'.continues_le
      · exact hs.continues_le.trans_lt (hs'.continues c b hrun)
      · cases hrun
  | .whileLoop cond body, loops, stmt, reachable, loops', errors, h => by
    simp only [analyse,Option.bind_eq_bind,Option.bind_eq_some_iff,Option.pure_def,
      Option.some.injEq,Prod.mk.injEq] at h
    obtain ⟨⟨body1,reachable1,loops1,errors1⟩,hbody,rfl,rfl,rfl,rfl⟩ := h
    have hs := (analyse_sound body ((0,0)::loops) hbody).single
    have htail : loops1.tail = loops := hs.tail
    rw [htail]
    refine sound_closed (fun a o => ?_) (fun a o h => ?_) nofun
    · rw [plain,while_runs,while_runs]
      exact (hs.same.loops (Or.inl rfl)).1 a o
    · exact loop_outcome (while_runs.mp h) rfl
  | .doWhile body cond, loops, stmt, reachable, loops', errors, h => by
    simp only [analyse,Option.bind_eq_bind,Option.bind_eq_some_iff,Option.pure_def,
      Option.some.injEq,Prod.mk.injEq] at h
    obtain ⟨⟨body1,reachable1,loops1,errors1⟩,hbody,rfl,rfl,rfl,rfl⟩ := h
    have hs := (analyse_sound body ((0,0)::loops) hbody).single
    have htail : loops1.tail = loops := hs.tail
    rw [htail]
    refine sound_closed (fun a o => ?_) (fun a o h => ?_) nofun
    · rw [plain,doWhile_runs,doWhile_runs]
      exact (hs.same.loops (Or.inl rfl)).2 a o
    · exact loop_outcome (doWhile_runs.mp h) rfl
  | .forLoop init cond next body, loops, stmt, reachable, loops', errors, h => by
    simp only [analyse,Option.bind_eq_bind,Option.bind_eq_some_iff] at h
    obtain ⟨⟨body1,reachable1,loops1,errors1⟩,hbody,h⟩ := h
    have hs := analyseBody_sound body ((0,0)::loops) hbody
    have htail : loops1.tail = loops := hs.tail
    have hout : ∀ a o, Runs false ev (.stmt (plain (.forLoop init cond next body))) a o →
        (∀ b, o ≠ .breaks b) ∧ ∀ b, o ≠ .continues b := by
      intro a o hrun
      rcases for_runs.mp hrun with ⟨c,-,hrun⟩ | ⟨hrun,ho⟩
      · exact loop_outcome hrun rfl
      · rcases simples_runs hrun with ⟨c,rfl⟩ | rfl <;> simp
    cases cond with
    | none =>
      simp only [Option.pure_def,Option.some.injEq,Prod.mk.injEq] at h
      obtain ⟨rfl,rfl,rfl,rfl⟩ := h
      rw [htail]
      refine sound_closed (.forLoop (.refl _) (hs.same.loops (Or.inl rfl)).1) hout fun hr a b hrun => ?_
      have hb : ¬ breaksOf loops1 > 0 := by simpa [breaksOf] using hr
      rcases for_runs.mp hrun with ⟨c,-,hrun⟩ | ⟨-,ho⟩
      · exact forever_normal (hs.body_breaks hb) (Or.inl rfl) hrun b rfl
      · simp [Outcome.isNormal] at ho
    | some cond =>
      simp only [Option.pure_def,Option.some.injEq,Prod.mk.injEq] at h
      obtain ⟨rfl,rfl,rfl,rfl⟩ := h
      rw [htail]
      refine sound_closed (.forLoop (.refl _) (hs.same.loops ?_).1) hout nofun
      by_cases hgo : (reachable1 || decide ((loops1.head?.getD (0,0)).2 > 0)) = true
      · exact Or.inl (if_pos hgo).symm
      · obtain ⟨hr,hc⟩ := Bool.or_eq_false_iff.mp (Bool.not_eq_true _ ▸ hgo)
        exact Or.inr (hs.body_goesOn hr (of_decide_eq_false hc))
  | .breakLoop, (breaks,continues)::loops, stmt, reachable, loops', errors, h => by
    simp only [analyse,Option.some.injEq,Prod.mk.injEq] at h
    obtain ⟨rfl,rfl,rfl,rfl⟩ := h
    refine ⟨fun _ a b h => ?_,rfl,Nat.le_succ _,le_rfl,fun a b _ => Nat.lt_succ_self _,
      fun a b h => ?_,.refl _⟩
    · cases h
    · cases h
  | .continueLoop, (breaks,continues)::loops, stmt, reachable, loops', errors, h => by
    simp only [analyse,Option.some.injEq,Prod.mk.injEq] at h
    obtain ⟨rfl,rfl,rfl,rfl⟩ := h
    refine ⟨fun _ a b h => ?_,rfl,le_rfl,Nat.le_succ _,fun a b h => ?_,
      fun a b _ => Nat.lt_succ_self _,.refl _⟩
    · cases h
    · cases h
  | .breakLoop, [], stmt, reachable, loops', errors, h => by simp [analyse] at h
  | .continueLoop, [], stmt, reachable, loops', errors, h => by simp [analyse] at h
  | .returns values, loops, stmt, reachable, loops', errors, h => by
    simp only [analyse,Option.some.injEq,Prod.mk.injEq] at h
    obtain ⟨rfl,rfl,rfl,rfl⟩ := h
    refine sound_closed (.refl _) (fun a o h => ?_) fun _ a b h => ?_
    · cases h <;> simp
    · cases h

theorem analyseBlock_sound : ∀ (l : List Source) (before already : Bool) (loops : LoopScopes)
    {res : List Statement} {reachable : Bool} {loops' : LoopScopes} {errors : List String},
    analyseBlock l before already loops = some (res,reachable,loops',errors) →
    Sound ev (.stmts (plainAll l)) (.stmts res) (reachable || (l.isEmpty && !before)) loops loops'
  | [], before, already, loops, res, reachable, loops', errors, h => by
    simp only [analyseBlock,Option.some.injEq,Prod.mk.injEq] at h
    obtain ⟨rfl,rfl,rfl,rfl⟩ := h
    refine sound_closed (.refl _) (fun a o h => ?_) fun hr => ?_
    · rw [plainAll,nil_runs] at h
      simp [h]
    · cases before <;> simp at hr
  | s::rest, before, already, loops, res, reachable, loops', errors, h => by
    simp only [analyseBlock,Option.bind_eq_bind,Option.bind_eq_some_iff,Option.pure_def,
      Option.some.injEq,Prod.mk.injEq] at h
    obtain ⟨⟨s1,reachable1,loops1,errors1⟩,hs,⟨rest1,reachable2,loops2,errors2⟩,hrest,
      rfl,rfl,rfl,rfl⟩ := h
    have hs := analyse_sound s loops hs
    have hrest' := analyseBlock_sound rest reachable1 _ loops1 hrest
    refine ⟨fun hr a b hrun => ?_,hrest'.tail.trans hs.tail,hs.breaks_le.trans hrest'.breaks_le,
      hs.continues_le.trans hrest'.continues_le,fun a b hrun => ?_,fun a b hrun => ?_,
      hs.same.cons hrest'.same⟩
    · have hr2 : reachable2 = false := by simpa using hr
      rcases cons_runs.mp hrun with ⟨c,hrun1,hrun2⟩ | ⟨-,ho⟩
      · cases rest with
        | nil =>
          obtain ⟨-,rfl,-⟩ : _ ∧ reachable1 = reachable2 ∧ _ := by simpa [analyseBlock] using hrest
          exact hs.answer hr2 a c hrun1
        | cons s' rest => exact hrest'.answer (by simpa using hr2) c b hrun2
      · simp [Outcome.isNormal] at ho
    · rcases cons_runs.mp hrun with ⟨c,-,hrun⟩ | ⟨hrun,-⟩
      · exact hs.breaks_le.trans_lt (hrest'.breaks c b hrun)
      · exact (hs.breaks a b hrun).trans_le hrest'.breaks_le
    · rcases cons_runs.mp hrun with ⟨c,-,hrun⟩ | ⟨hrun,-⟩
      · exact hs.continues_le.trans_lt (hrest'.continues c b hrun)
      · exact (hs.continues a b hrun).trans_le hrest'.continues_le

theorem analyseBody_sound : ∀ (body : Option Source) (loops : LoopScopes)
    {res : List Statement} {reachable : Bool} {loops' : LoopScopes} {errors : List String},
    analyseBody body loops = some (res,reachable,loops',errors) →
    Sound ev (.stmts (plainBody body)) (.stmts res) reachable loops loops'
  | none, loops, res, reachable, loops', errors, h => by
    simp only [analyseBody,Option.some.injEq,Prod.mk.injEq] at h
    obtain ⟨rfl,rfl,rfl,rfl⟩ := h
    refine sound_closed (.refl _) (fun a o h => ?_) nofun
    rw [plainBody,nil_runs] at h
    simp [h]
  | some body, loops, res, reachable, loops', errors, h => by
    simp only [analyseBody,Option.bind_eq_bind,Option.bind_eq_some_iff,Option.pure_def,
      Option.some.injEq,Prod.mk.injEq] at h
    obtain ⟨⟨body1,reachable1,loops1,errors1⟩,hbody,rfl,rfl,rfl,rfl⟩ := h
    exact (analyse_sound body loops hbody).single

end

/-! ### Sound flags -/

/-- A statement in `s` whose flag says that its end is not reachable has no normal end. -/
def Flagged (s : Statement) : Prop := ∀ u, Within u s → u.reachable = false →
  ∀ a b, ¬ Runs false ev (.stmt u) a (.normal b)

variable {ev}

/-- The flag of a list is that of a member. -/
theorem not_normal_of_allReachable {l : List Statement} (hl : ∀ t ∈ l, Flagged ev t)
    (h : allReachable l = false) (a b : σ) : ¬ Runs false ev (.stmts l) a (.normal b) := by
  induction l generalizing a with
  | nil => simp [allReachable] at h
  | cons s l ih =>
    intro hrun
    rcases cons_runs.mp hrun with ⟨c,hs,hrest⟩ | ⟨-,ho⟩
    · rcases Bool.and_eq_false_iff.mp h with hr | hr
      · exact hl s (by simp) s .self hr a c hs
      · exact ih (fun t ht => hl t (by simp [ht])) hr c hrest
    · simp [Outcome.isNormal] at ho

theorem flagged_block {l : List Statement} (hl : ∀ t ∈ l, Flagged ev t) : Flagged ev (.block l) := by
  intro u hu hr
  cases hu with
  | self =>
    intro a b hrun
    exact not_normal_of_allReachable hl hr a b (block_runs.mp hrun)
  | block hmem hu => exact hl _ hmem u hu hr

/-- A statement without others in it. -/
theorem flagged_leaf {s : Statement} (hs : ∀ u, Within u s → u = s)
    (h : s.reachable = false → ∀ a b, ¬ Runs false ev (.stmt s) a (.normal b)) : Flagged ev s := by
  intro u hu hr
  obtain rfl := hs u hu
  exact h hr

theorem flagged_ifElse {r : Bool} {c : Flow} {l m : List Statement} (hl : ∀ t ∈ l, Flagged ev t)
    (hm : ∀ t ∈ m, Flagged ev t)
    (h : r = false → ∀ a b, ¬ Runs false ev (.stmt (.ifElse r c l m)) a (.normal b)) :
    Flagged ev (.ifElse r c l m) := by
  intro u hu hr
  cases hu with
  | self => exact h hr
  | thenStmt hmem hu => exact hl _ hmem u hu hr
  | elseStmt hmem hu => exact hm _ hmem u hu hr

theorem flagged_forLoop {r : Bool} {init body : List Statement} {c n : Option Flow}
    (hi : ∀ t ∈ init, Flagged ev t) (hb : ∀ t ∈ body, Flagged ev t)
    (h : r = false → ∀ a b, ¬ Runs false ev (.stmt (.forLoop r init c n body)) a (.normal b)) :
    Flagged ev (.forLoop r init c n body) := by
  intro u hu hr
  cases hu with
  | self => exact h hr
  | forInit hmem hu => exact hi _ hmem u hu hr
  | forBody hmem hu => exact hb _ hmem u hu hr

theorem flagged_simples (l : List Flow) : ∀ t ∈ l.map Statement.simple, Flagged ev t := by
  intro t ht
  obtain ⟨e,-,rfl⟩ := List.mem_map.mp ht
  exact flagged_leaf (fun u hu => by cases hu; rfl) nofun

variable (ev)

/-- What the analysis resolves a statement to has no normal end either. -/
theorem analyse_answer {s : Source} {loops : LoopScopes} {stmt : Statement} {reachable : Bool}
    {loops' : LoopScopes} {errors : List String}
    (h : analyse s loops = some (stmt,reachable,loops',errors)) (hr : reachable = false) (a b : σ) :
    ¬ Runs false ev (.stmt stmt) a (.normal b) := by
  have hs := analyse_sound ev s loops h
  rw [← hs.same]
  exact hs.answer hr a b

mutual

theorem analyse_flagged : ∀ (s : Source) (loops : LoopScopes) {stmt : Statement} {reachable : Bool}
    {loops' : LoopScopes} {errors : List String},
    analyse s loops = some (stmt,reachable,loops',errors) → Flagged ev stmt
  | .simple expr, loops, stmt, reachable, loops', errors, h => by
    simp only [analyse,Option.some.injEq,Prod.mk.injEq] at h
    obtain ⟨rfl,rfl,rfl,rfl⟩ := h
    exact flagged_leaf (fun u hu => by cases hu; rfl) nofun
  | .block statements, loops, stmt, reachable, loops', errors, h => by
    simp only [analyse,Option.bind_eq_bind,Option.bind_eq_some_iff,Option.pure_def,
      Option.some.injEq,Prod.mk.injEq] at h
    obtain ⟨⟨res,reachable1,loops1,errors1⟩,hres,rfl,rfl,rfl,rfl⟩ := h
    exact flagged_block (analyseBlock_flagged statements true false loops hres)
  | .ifThen cond thenStmt, loops, stmt, reachable, loops', errors, h => by
    simp only [analyse,Option.bind_eq_bind,Option.bind_eq_some_iff,Option.pure_def,
      Option.some.injEq,Prod.mk.injEq] at h
    obtain ⟨⟨thenStmt1,reachable1,loops1,errors1⟩,hthen,rfl,rfl,rfl,rfl⟩ := h
    exact flagged_ifElse (by simpa using analyse_flagged thenStmt loops hthen) (by simp) nofun
  | .ifElse cond thenStmt elseStmt, loops, stmt, reachable, loops', errors, h => by
    have hanswer := analyse_answer ev h
    simp only [analyse,Option.bind_eq_bind,Option.bind_eq_some_iff,Option.pure_def,
      Option.some.injEq,Prod.mk.injEq] at h
    obtain ⟨⟨thenStmt1,reachable1,loops1,errors1⟩,hthen,
      ⟨elseStmt1,reachable2,loops2,errors2⟩,helse,rfl,rfl,rfl,rfl⟩ := h
    exact flagged_ifElse (by simpa using analyse_flagged thenStmt loops hthen)
      (by simpa using analyse_flagged elseStmt loops1 helse) hanswer
  | .whileLoop cond body, loops, stmt, reachable, loops', errors, h => by
    simp only [analyse,Option.bind_eq_bind,Option.bind_eq_some_iff,Option.pure_def,
      Option.some.injEq,Prod.mk.injEq] at h
    obtain ⟨⟨body1,reachable1,loops1,errors1⟩,hbody,rfl,rfl,rfl,rfl⟩ := h
    have hb := analyse_flagged body ((0,0)::loops) hbody
    intro u hu hr
    cases hu with
    | self => cases hr
    | whileLoop hmem hu =>
      obtain rfl := List.mem_singleton.mp hmem
      exact hb u hu hr
  | .doWhile body cond, loops, stmt, reachable, loops', errors, h => by
    simp only [analyse,Option.bind_eq_bind,Option.bind_eq_some_iff,Option.pure_def,
      Option.some.injEq,Prod.mk.injEq] at h
    obtain ⟨⟨body1,reachable1,loops1,errors1⟩,hbody,rfl,rfl,rfl,rfl⟩ := h
    have hb := analyse_flagged body ((0,0)::loops) hbody
    intro u hu hr
    cases hu with
    | self => cases hr
    | doWhile hmem hu =>
      obtain rfl := List.mem_singleton.mp hmem
      exact hb u hu hr
  | .forLoop init cond next body, loops, stmt, reachable, loops', errors, h => by
    have hanswer := analyse_answer ev h
    simp only [analyse,Option.bind_eq_bind,Option.bind_eq_some_iff] at h
    obtain ⟨⟨body1,reachable1,loops1,errors1⟩,hbody,h⟩ := h
    have hb := analyseBody_flagged body ((0,0)::loops) hbody
    cases cond with
    | none =>
      simp only [Option.pure_def,Option.some.injEq,Prod.mk.injEq] at h
      obtain ⟨rfl,rfl,rfl,rfl⟩ := h
      exact flagged_forLoop (flagged_simples _) hb hanswer
    | some cond =>
      simp only [Option.pure_def,Option.some.injEq,Prod.mk.injEq] at h
      obtain ⟨rfl,rfl,rfl,rfl⟩ := h
      exact flagged_forLoop (flagged_simples _) hb nofun
  | .breakLoop, (breaks,continues)::loops, stmt, reachable, loops', errors, h => by
    simp only [analyse,Option.some.injEq,Prod.mk.injEq] at h
    obtain ⟨rfl,rfl,rfl,rfl⟩ := h
    exact flagged_leaf (fun u hu => by cases hu; rfl) fun _ a b h => by cases h
  | .continueLoop, (breaks,continues)::loops, stmt, reachable, loops', errors, h => by
    simp only [analyse,Option.some.injEq,Prod.mk.injEq] at h
    obtain ⟨rfl,rfl,rfl,rfl⟩ := h
    exact flagged_leaf (fun u hu => by cases hu; rfl) fun _ a b h => by cases h
  | .breakLoop, [], stmt, reachable, loops', errors, h => by simp [analyse] at h
  | .continueLoop, [], stmt, reachable, loops', errors, h => by simp [analyse] at h
  | .returns values, loops, stmt, reachable, loops', errors, h => by
    simp only [analyse,Option.some.injEq,Prod.mk.injEq] at h
    obtain ⟨rfl,rfl,rfl,rfl⟩ := h
    exact flagged_leaf (fun u hu => by cases hu; rfl) fun _ a b h => by cases h

theorem analyseBlock_flagged : ∀ (l : List Source) (before already : Bool) (loops : LoopScopes)
    {res : List Statement} {reachable : Bool} {loops' : LoopScopes} {errors : List String},
    analyseBlock l before already loops = some (res,reachable,loops',errors) →
    ∀ t ∈ res, Flagged ev t
  | [], before, already, loops, res, reachable, loops', errors, h => by
    simp only [analyseBlock,Option.some.injEq,Prod.mk.injEq] at h
    obtain ⟨rfl,rfl,rfl,rfl⟩ := h
    simp
  | s::rest, before, already, loops, res, reachable, loops', errors, h => by
    simp only [analyseBlock,Option.bind_eq_bind,Option.bind_eq_some_iff,Option.pure_def,
      Option.some.injEq,Prod.mk.injEq] at h
    obtain ⟨⟨s1,reachable1,loops1,errors1⟩,hs,⟨rest1,reachable2,loops2,errors2⟩,hrest,
      rfl,rfl,rfl,rfl⟩ := h
    exact List.forall_mem_cons.mpr ⟨analyse_flagged s loops hs,
      analyseBlock_flagged rest reachable1 _ loops1 hrest⟩

theorem analyseBody_flagged : ∀ (body : Option Source) (loops : LoopScopes)
    {res : List Statement} {reachable : Bool} {loops' : LoopScopes} {errors : List String},
    analyseBody body loops = some (res,reachable,loops',errors) → ∀ t ∈ res, Flagged ev t
  | none, loops, res, reachable, loops', errors, h => by
    simp only [analyseBody,Option.some.injEq,Prod.mk.injEq] at h
    obtain ⟨rfl,rfl,rfl,rfl⟩ := h
    simp
  | some body, loops, res, reachable, loops', errors, h => by
    simp only [analyseBody,Option.bind_eq_bind,Option.bind_eq_some_iff,Option.pure_def,
      Option.some.injEq,Prod.mk.injEq] at h
    obtain ⟨⟨body1,reachable1,loops1,errors1⟩,hbody,rfl,rfl,rfl,rfl⟩ := h
    simpa using analyse_flagged body loops hbody

end

/-! ### Dropped statements -/

mutual

/-- Where the flags are sound, the emitted statements run as the resolved ones. -/
theorem emitted_same : ∀ (s : Statement), Flagged ev s → Same ev (.stmt s) (.stmt (emitted s))
  | .block l, h => by
    have hl := emittedBlock_same l fun t ht u hu => h u (.block ht hu)
    intro a o
    rw [emitted,block_runs,block_runs]
    exact hl a o
  | .simple expr, _ => .refl _
  | .ifElse r c l m, h =>
    (emittedAll_same l fun t ht u hu => h u (.thenStmt ht hu)).ifElse
      (emittedAll_same m fun t ht u hu => h u (.elseStmt ht hu))
  | .whileLoop r c body, h => by
    have hb := emittedAll_same body fun t ht u hu => h u (.whileLoop ht hu)
    intro a o
    rw [emitted,while_runs,while_runs]
    exact (hb.loops (Or.inl rfl)).1 a o
  | .doWhile r body c, h => by
    have hb := emittedAll_same body fun t ht u hu => h u (.doWhile ht hu)
    intro a o
    rw [emitted,doWhile_runs,doWhile_runs]
    exact (hb.loops (Or.inl rfl)).2 a o
  | .forLoop r init c n body, h => by
    have hi := emittedAll_same init fun t ht u hu => h u (.forInit ht hu)
    have hb := emittedAll_same body fun t ht u hu => h u (.forBody ht hu)
    exact hi.forLoop (hb.loops (Or.inl rfl)).1
  | .breakLoop, _ => .refl _
  | .continueLoop, _ => .refl _
  | .returns values, _ => .refl _

theorem emittedBlock_same : ∀ (l : List Statement), (∀ t ∈ l, Flagged ev t) →
    Same ev (.stmts l) (.stmts (emittedBlock l))
  | [], _ => .refl _
  | s::l, h => by
    have hs := emitted_same s (h s (by simp))
    rw [emittedBlock]
    split
    · exact hs.cons (emittedBlock_same l fun t ht => h t (by simp [ht]))
    · rename_i hr
      exact (Same.cut l (h s (by simp) s .self (by simpa using hr))).trans hs.single

theorem emittedAll_same : ∀ (l : List Statement), (∀ t ∈ l, Flagged ev t) →
    Same ev (.stmts l) (.stmts (emittedAll l))
  | [], _ => .refl _
  | s::l, h =>
    (emitted_same s (h s (by simp))).cons (emittedAll_same l fun t ht => h t (by simp [ht]))

end

end

/-! ### The ways in which runs end -/

/-- The ways in which the runs of a statement can end, whatever its expressions do; it can always
abort. -/
structure Ends where
  normal : Bool
  breaks : Bool
  continues : Bool
  returns : Bool

namespace Ends

def or (e f : Ends) : Ends :=
  ⟨e.normal || f.normal,e.breaks || f.breaks,e.continues || f.continues,e.returns || f.returns⟩

/-- The ends of a statement and of what stands behind it. -/
def andThen (e f : Ends) : Ends :=
  ⟨e.normal && f.normal,e.breaks || e.normal && f.breaks,e.continues || e.normal && f.continues,
    e.returns || e.normal && f.returns⟩

/-- The ends of a loop, from those of its body and whether its condition can end it. -/
def loop (e : Ends) (exits : Bool) : Ends := ⟨exits || e.breaks,false,false,e.returns⟩

/-- Whether a loop can go on behind its body. -/
def goesOn (e : Ends) : Bool := e.normal || e.continues

def has {σ : Type} (e : Ends) : Outcome σ → Bool
  | .normal _ => e.normal
  | .breaks _ => e.breaks
  | .continues _ => e.continues
  | .returns _ => e.returns
  | .abort => true

end Ends

mutual

/-- The ways in which the runs of a statement can end. -/
def ends : Statement → Ends
  | .simple _ => ⟨true,false,false,false⟩
  | .block l => endsAll l
  | .ifElse _ _ l m => (endsAll l).or (endsAll m)
  | .whileLoop _ _ body => (endsAll body).loop true
  | .doWhile _ body _ => (endsAll body).loop (endsAll body).goesOn
  | .forLoop _ init cond _ body => (endsAll init).andThen ((endsAll body).loop cond.isSome)
  | .breakLoop => ⟨false,true,false,false⟩
  | .continueLoop => ⟨false,false,true,false⟩
  | .returns _ => ⟨false,false,false,true⟩

def endsAll : List Statement → Ends
  | [] => ⟨true,false,false,false⟩
  | s::l => (ends s).andThen (endsAll l)

end

def Point.ends : Point → Ends
  | .stmt s => Reachability.ends s
  | .stmts l => endsAll l
  | .loop c _ body => (endsAll body).loop c.isSome
  | .iter c _ body => (endsAll body).loop (c.isSome && (endsAll body).goesOn)

mutual

/-- No run comes to a last expression for which there is no code. -/
def kept : Statement → Bool
  | .block l => keptAll l
  | .ifElse _ _ l m => keptAll l && keptAll m
  | .whileLoop _ _ body => keptAll body
  | .doWhile _ body _ => keptAll body
  | .forLoop _ init cond next body =>
    keptAll init && (!(endsAll init).normal ||
      keptAll body && (nextEmitted cond next body || !(endsAll body).goesOn))
  | .simple _ | .breakLoop | .continueLoop | .returns _ => true

def keptAll : List Statement → Bool
  | [] => true
  | s::l => kept s && (!(ends s).normal || keptAll l)

end

section

variable {gen : Bool} {σ : Type} {ev : Eval σ} {a b : σ} {o : Outcome σ}

theorem Ends.has_loop {e : Ends} {exits : Bool} {p : Outcome σ} (h : e.has p = true)
    (hp : p.leaves = some o) : (e.loop exits).has o = true := by
  cases p <;> simp [Outcome.leaves] at hp <;> subst hp <;> simp_all [Ends.has,Ends.loop]

theorem Ends.goesOn_of_has {e : Ends} {p : Outcome σ} {t : σ} (h : e.has p = true)
    (hp : p.goesOn = some t) : e.goesOn = true := by
  cases p <;> simp [Outcome.goesOn] at hp <;> simp_all [Ends.has,Ends.goesOn]

theorem Ends.has_andThen {e f : Ends} : (e.andThen f).has o = true ↔
    (e.normal = true ∧ f.has o = true) ∨ (o.isNormal = false ∧ e.has o = true) := by
  cases o <;> simp [Ends.has,Ends.andThen,Outcome.isNormal,or_comm]

/-- Every run ends in one of the ways of its point. -/
theorem Runs.has_ends {p : Point} (h : Runs gen ev p a o) : p.ends.has o = true := by
  induction h with
  | simple h => rfl
  | simpleAbort h => rfl
  | block h ih => exact ih
  | nil => rfl
  | cons ha hl iha ihl => exact Ends.has_andThen.mpr (Or.inl ⟨iha,ihl⟩)
  | stop ha ho ih => exact Ends.has_andThen.mpr (Or.inr ⟨ho,ih⟩)
  | @ifTrue r c l m s t o hc h ih =>
    cases o <;> simp_all [Ends.has,Point.ends,ends,Ends.or]
  | @ifFalse r c l m s t o hc h ih =>
    cases o <;> simp_all [Ends.has,Point.ends,ends,Ends.or]
  | ifAbort hc => rfl
  | whileLoop h ih => exact ih
  | doWhile h ih => simpa [Point.ends,ends] using ih
  | forLoop hi h ihi ih => exact Ends.has_andThen.mpr (Or.inl ⟨ihi,ih⟩)
  | forInit hi ho ih => exact Ends.has_andThen.mpr (Or.inr ⟨ho,ih⟩)
  | breakLoop => rfl
  | continueLoop => rfl
  | returns => rfl
  | returnsValue h => rfl
  | returnsAbort h => rfl
  | @loopTrue c n body s t o hc h ih =>
    cases o <;> simp_all [Ends.has,Point.ends,Ends.loop]
  | loopFalse hc => rfl
  | loopAbort hc => rfl
  | loopForever h ih => simpa [Point.ends] using ih
  | iterNext hb hp hcode hn h ihb ihn ih =>
    have hgo := Ends.goesOn_of_has ihb hp
    simpa [Point.ends,show (endsAll _).goesOn = true from hgo] using ih
  | iterStop hb hp hcode hn ho =>
    rcases simples_runs hn with ⟨b,rfl⟩ | rfl
    · simp [Outcome.isNormal] at ho
    · rfl
  | iterLeave hb hp ih => exact Ends.has_loop ih hp

end

/-! ### Scripts -/

/-- The expressions read their truth values off a list, and abort at its end. -/
def script : Eval (List Bool) := fun _ s r => r = s.head?.map (·,s.tail)

@[simp] theorem script_cons (e : Flow) (b : Bool) (s : List Bool) :
    script e (b::s) (some (b,s)) := rfl

@[simp] theorem script_nil (e : Flow) : script e [] none := rfl

section

variable {gen : Bool} {a b : List Bool} {o : Outcome (List Bool)}

/-- What the script has decided a run comes to one end only. -/
theorem Runs.unique {p : Point} (h : Runs gen script p a o) :
    ∀ {o' : Outcome (List Bool)}, Runs gen script p a o' → o = o' := by
  have hdec : ∀ {e : Flow} {s : List Bool} {r r' : Option (Bool × List Bool)}, script e s r →
      script e s r' → r = r' := fun h h' => Eq.trans h (Eq.symm h')
  induction h with
  | simple h =>
    intro o' h'
    cases h' with
    | simple h' => cases hdec h h'; rfl
    | simpleAbort h' => cases hdec h h'
  | simpleAbort h =>
    intro o' h'
    cases h' with
    | simple h' => cases hdec h h'
    | simpleAbort h' => rfl
  | block h ih => exact fun h' => ih (block_runs.mp h')
  | nil => exact fun h' => (nil_runs.mp h').symm
  | cons ha hl iha ihl =>
    intro o' h'
    rcases cons_runs.mp h' with ⟨t,ha',hl'⟩ | ⟨ha',ho'⟩
    · cases iha ha'
      exact ihl hl'
    · cases iha ha'
      simp [Outcome.isNormal] at ho'
  | stop ha ho iha =>
    intro o' h'
    rcases cons_runs.mp h' with ⟨t,ha',hl'⟩ | ⟨ha',ho'⟩
    · cases iha ha'
      simp [Outcome.isNormal] at ho
    · exact iha ha'
  | ifTrue hc h ih =>
    intro o' h'
    rcases if_runs.mp h' with ⟨t,hc',h'⟩ | ⟨t,hc',h'⟩ | ⟨hc',rfl⟩
    · cases hdec hc hc'
      exact ih h'
    · cases hdec hc hc'
    · cases hdec hc hc'
  | ifFalse hc h ih =>
    intro o' h'
    rcases if_runs.mp h' with ⟨t,hc',h'⟩ | ⟨t,hc',h'⟩ | ⟨hc',rfl⟩
    · cases hdec hc hc'
    · cases hdec hc hc'
      exact ih h'
    · cases hdec hc hc'
  | ifAbort hc =>
    intro o' h'
    rcases if_runs.mp h' with ⟨t,hc',h'⟩ | ⟨t,hc',h'⟩ | ⟨hc',rfl⟩
    · cases hdec hc hc'
    · cases hdec hc hc'
    · rfl
  | whileLoop h ih => exact fun h' => ih (while_runs.mp h')
  | doWhile h ih => exact fun h' => ih (doWhile_runs.mp h')
  | forLoop hi h ihi ih =>
    intro o' h'
    rcases for_runs.mp h' with ⟨t,hi',h'⟩ | ⟨hi',ho'⟩
    · cases ihi hi'
      exact ih h'
    · cases ihi hi'
      simp [Outcome.isNormal] at ho'
  | forInit hi ho ihi =>
    intro o' h'
    rcases for_runs.mp h' with ⟨t,hi',h'⟩ | ⟨hi',ho'⟩
    · cases ihi hi'
      simp [Outcome.isNormal] at ho
    · exact ihi hi'
  | breakLoop =>
    rintro o' ⟨⟩
    rfl
  | continueLoop =>
    rintro o' ⟨⟩
    rfl
  | returns =>
    rintro o' ⟨⟩
    rfl
  | returnsValue h =>
    intro o' h'
    cases h' with
    | returnsValue h' => cases hdec h h'; rfl
    | returnsAbort h' => cases hdec h h'
  | returnsAbort h =>
    intro o' h'
    cases h' with
    | returnsValue h' => cases hdec h h'
    | returnsAbort h' => rfl
  | loopTrue hc h ih =>
    intro o' h'
    cases h' with
    | loopTrue hc' h' =>
      cases hdec hc hc'
      exact ih h'
    | loopFalse hc' => cases hdec hc hc'
    | loopAbort hc' => cases hdec hc hc'
  | loopFalse hc =>
    intro o' h'
    cases h' with
    | loopTrue hc' h' => cases hdec hc hc'
    | loopFalse hc' => cases hdec hc hc'; rfl
    | loopAbort hc' => cases hdec hc hc'
  | loopAbort hc =>
    intro o' h'
    cases h' with
    | loopTrue hc' h' => cases hdec hc hc'
    | loopFalse hc' => cases hdec hc hc'
    | loopAbort hc' => rfl
  | loopForever h ih =>
    intro o' h'
    cases h' with
    | loopForever h' => exact ih h'
  | iterNext hb hp hcode hn h ihb ihn ih =>
    intro o' h'
    cases h' with
    | iterNext hb' hp' hcode' hn' h' =>
      cases ihb hb'
      cases hp.symm.trans hp'
      cases ihn hn'
      exact ih h'
    | iterStop hb' hp' hcode' hn' ho' =>
      cases ihb hb'
      cases hp.symm.trans hp'
      cases ihn hn'
      simp [Outcome.isNormal] at ho'
    | iterLeave hb' hp' =>
      cases ihb hb'
      simp [Outcome.leaves_eq_none hp] at hp'
  | iterStop hb hp hcode hn ho ihb ihn =>
    intro o' h'
    cases h' with
    | iterNext hb' hp' hcode' hn' h' =>
      cases ihb hb'
      cases hp.symm.trans hp'
      cases ihn hn'
      simp [Outcome.isNormal] at ho
    | iterStop hb' hp' hcode' hn' ho' =>
      cases ihb hb'
      cases hp.symm.trans hp'
      exact ihn hn'
    | iterLeave hb' hp' =>
      cases ihb hb'
      simp [Outcome.leaves_eq_none hp] at hp'
  | iterLeave hb hp ihb =>
    intro o' h'
    cases h' with
    | iterNext hb' hp' hcode' hn' h' =>
      cases ihb hb'
      simp [Outcome.leaves_eq_none hp'] at hp
    | iterStop hb' hp' hcode' hn' ho' =>
      cases ihb hb'
      simp [Outcome.leaves_eq_none hp'] at hp
    | iterLeave hb' hp' =>
      cases ihb hb'
      exact Option.some.inj (hp.symm.trans hp')

end

/-- A loop leaves through its condition, or through a body that breaks or returns. -/
theorem loop_run {c : Option Flow} (n : Option Flow) {body : List Statement}
    (hbody : ∀ {o : Outcome (List Bool)}, o ≠ .abort → (endsAll body).has o = true →
      ∃ w, Runs false script (.stmts body) w o) {o : Outcome (List Bool)} (ho : o ≠ .abort)
    (h : ((endsAll body).loop c.isSome).has o = true) : ∃ w, Runs false script (.loop c n body) w o := by
  have hleave : ∀ p : Outcome (List Bool), p ≠ .abort → (endsAll body).has p = true →
      p.leaves = some o → ∃ w, Runs false script (.loop c n body) w o := by
    intro p hp hhas hleaves
    obtain ⟨w,hw⟩ := hbody hp hhas
    cases c with
    | none => exact ⟨w,.loopForever (.iterLeave hw hleaves)⟩
    | some c => exact ⟨_,.loopTrue (script_cons c true w) (.iterLeave hw hleaves)⟩
  cases o with
  | normal t =>
    cases c with
    | none => exact hleave (.breaks t) nofun (by simpa [Ends.has,Ends.loop] using h) rfl
    | some c => exact ⟨_,.loopFalse (script_cons c false t)⟩
  | returns t => exact hleave (.returns t) nofun h rfl
  | breaks t => cases h
  | continues t => cases h
  | abort => exact absurd rfl ho

/-- A do-while is left like a loop, and through its condition only behind its body. -/
theorem iter_run (c : Flow) {body : List Statement}
    (hbody : ∀ {o : Outcome (List Bool)}, o ≠ .abort → (endsAll body).has o = true →
      ∃ w, Runs false script (.stmts body) w o) {o : Outcome (List Bool)} (ho : o ≠ .abort)
    (h : ((endsAll body).loop (endsAll body).goesOn).has o = true) :
    ∃ w, Runs false script (.iter (some c) none body) w o := by
  have hgo : ∀ (p : Outcome (List Bool)) (t : List Bool), p ≠ .abort → (endsAll body).has p = true →
      p.goesOn = some (false::t) → ∃ w, Runs false script (.iter (some c) none body) w (.normal t) := by
    intro p t hp hhas ht
    obtain ⟨w,hw⟩ := hbody hp hhas
    exact ⟨w,.iterNext hw ht nofun .nil (.loopFalse (script_cons c false t))⟩
  have hleave : ∀ p : Outcome (List Bool), p ≠ .abort → (endsAll body).has p = true →
      p.leaves = some o → ∃ w, Runs false script (.iter (some c) none body) w o := by
    intro p hp hhas hleaves
    obtain ⟨w,hw⟩ := hbody hp hhas
    exact ⟨w,.iterLeave hw hleaves⟩
  cases o with
  | normal t =>
    have hor : (endsAll body).normal = true ∨ (endsAll body).continues = true ∨
        (endsAll body).breaks = true := by
      simpa [Ends.has,Ends.loop,Ends.goesOn,or_assoc] using h
    rcases hor with hn | hc | hb
    · exact hgo (.normal (false::t)) t nofun hn rfl
    · exact hgo (.continues (false::t)) t nofun hc rfl
    · exact hleave (.breaks t) nofun hb rfl
  | returns t => exact hleave (.returns t) nofun h rfl
  | breaks t => cases h
  | continues t => cases h
  | abort => exact absurd rfl ho

mutual

/-- Every way in which a statement can end is that of a run with a script, whatever is left of it. -/
theorem ends_run : ∀ (s : Statement) {o : Outcome (List Bool)}, o ≠ .abort →
    (ends s).has o = true → ∃ w, Runs false script (.stmt s) w o
  | .simple expr, o, ho, h => by
    cases o <;> simp_all [ends,Ends.has]
    exact ⟨_,.simple (script_cons expr true _)⟩
  | .block l, o, ho, h => by
    obtain ⟨w,hw⟩ := endsAll_run l ho h
    exact ⟨w,.block hw⟩
  | .ifElse r c l m, o, ho, h => by
    have hor : (endsAll l).has o = true ∨ (endsAll m).has o = true := by
      cases o <;> simp_all [ends,Ends.has,Ends.or]
    rcases hor with hl | hm
    · obtain ⟨w,hw⟩ := endsAll_run l ho hl
      exact ⟨_,.ifTrue (script_cons c true w) hw⟩
    · obtain ⟨w,hw⟩ := endsAll_run m ho hm
      exact ⟨_,.ifFalse (script_cons c false w) hw⟩
  | .whileLoop r c body, o, ho, h => by
    obtain ⟨w,hw⟩ := loop_run (c := some c) none (fun ho h => endsAll_run body ho h) ho h
    exact ⟨w,.whileLoop hw⟩
  | .doWhile r body c, o, ho, h => by
    obtain ⟨w,hw⟩ := iter_run c (fun ho h => endsAll_run body ho h) ho h
    exact ⟨w,.doWhile hw⟩
  | .forLoop r init c n body, o, ho, h => by
    rcases Ends.has_andThen.mp h with ⟨hi,h⟩ | ⟨hn,h⟩
    · obtain ⟨t,ht⟩ := loop_run (c := c) n (fun ho h => endsAll_run body ho h) ho h
      obtain ⟨w,hw⟩ := endsAll_run init (o := .normal t) nofun hi
      exact ⟨w,.forLoop hw ht⟩
    · obtain ⟨w,hw⟩ := endsAll_run init ho h
      exact ⟨w,.forInit hw hn⟩
  | .breakLoop, o, ho, h => by
    cases o <;> simp_all [ends,Ends.has]
    exact ⟨_,.breakLoop⟩
  | .continueLoop, o, ho, h => by
    cases o <;> simp_all [ends,Ends.has]
    exact ⟨_,.continueLoop⟩
  | .returns none, o, ho, h => by
    cases o <;> simp_all [ends,Ends.has]
    exact ⟨_,.returns⟩
  | .returns (some (e,n)), o, ho, h => by
    cases o <;> simp_all [ends,Ends.has]
    exact ⟨_,.returnsValue (script_cons e true _)⟩

theorem endsAll_run : ∀ (l : List Statement) {o : Outcome (List Bool)}, o ≠ .abort →
    (endsAll l).has o = true → ∃ w, Runs false script (.stmts l) w o
  | [], o, ho, h => by
    cases o <;> simp_all [endsAll,Ends.has]
    exact ⟨_,.nil⟩
  | s::l, o, ho, h => by
    rcases Ends.has_andThen.mp h with ⟨hs,h⟩ | ⟨hn,h⟩
    · obtain ⟨t,ht⟩ := endsAll_run l ho h
      obtain ⟨w,hw⟩ := ends_run s (o := .normal t) nofun hs
      exact ⟨w,.cons hw ht⟩
    · obtain ⟨w,hw⟩ := ends_run s ho h
      exact ⟨w,.stop hw hn⟩

end

/-! ### Code that is not lost -/

section

variable {gen : Bool} {σ : Type} {ev : Eval σ} {a b : σ} {o : Outcome σ}

/-- A run of the emitted code is one of its statements. -/
theorem Runs.source {p : Point} (h : Runs gen ev p a o) : Runs false ev p a o := by
  induction h with
  | simple h => exact .simple h
  | simpleAbort h => exact .simpleAbort h
  | block h ih => exact .block ih
  | nil => exact .nil
  | cons ha hl iha ihl => exact .cons iha ihl
  | stop ha ho ih => exact .stop ih ho
  | ifTrue hc h ih => exact .ifTrue hc ih
  | ifFalse hc h ih => exact .ifFalse hc ih
  | ifAbort hc => exact .ifAbort hc
  | whileLoop h ih => exact .whileLoop ih
  | doWhile h ih => exact .doWhile ih
  | forLoop hi h ihi ih => exact .forLoop ihi ih
  | forInit hi ho ih => exact .forInit ih ho
  | breakLoop => exact .breakLoop
  | continueLoop => exact .continueLoop
  | returns => exact .returns
  | returnsValue h => exact .returnsValue h
  | returnsAbort h => exact .returnsAbort h
  | loopTrue hc h ih => exact .loopTrue hc ih
  | loopFalse hc => exact .loopFalse hc
  | loopAbort hc => exact .loopAbort hc
  | loopForever h ih => exact .loopForever ih
  | iterNext hb hp hcode hn h ihb ihn ih => exact .iterNext ihb hp nofun ihn ih
  | iterStop hb hp hcode hn ho ihb ihn => exact .iterStop ihb hp nofun ihn ho
  | iterLeave hb hp ih => exact .iterLeave ih hp

mutual

@[simp] theorem emitted_reachable : ∀ s : Statement, (emitted s).reachable = s.reachable
  | .block l => emittedBlock_reachable l
  | .simple _ | .ifElse _ _ _ _ | .whileLoop _ _ _ | .doWhile _ _ _ | .forLoop _ _ _ _ _ => rfl
  | .breakLoop | .continueLoop | .returns _ => rfl

theorem emittedBlock_reachable : ∀ l : List Statement, allReachable (emittedBlock l) = allReachable l
  | [] => rfl
  | s::l => by
    rw [emittedBlock,allReachable,emitted_reachable s,allReachable]
    cases s.reachable with
    | true => simpa using emittedBlock_reachable l
    | false => rfl

end

theorem emittedAll_eq_map (l : List Statement) : emittedAll l = l.map emitted := by
  induction l with
  | nil => rfl
  | cons s l ih => rw [emittedAll,ih,List.map_cons]

@[simp] theorem nextEmitted_emittedAll (c n : Option Flow) (body : List Statement) :
    nextEmitted c n (emittedAll body) = nextEmitted c n body := by
  have hlast : lastReachable (emittedAll body) = lastReachable body := by
    rw [emittedAll_eq_map,lastReachable,lastReachable,List.getLast?_map,Option.map_map]
    cases body.getLast? with
    | none => rfl
    | some s => simp
  rw [nextEmitted,hlast,nextEmitted]

/-- A loop whose last expression has code, or whose body does not come to it, is emitted whole. -/
theorem emitted_loop {c n : Option Flow} {body : List Statement}
    (hbody : ∀ a o, Runs false ev (.stmts body) a o → Runs true ev (.stmts (emittedAll body)) a o)
    (hnext : (nextEmitted c n body || !(endsAll body).goesOn) = true) :
    (∀ a o, Runs false ev (.loop c n body) a o → Runs true ev (.loop c n (emittedAll body)) a o) ∧
      ∀ a o, Runs false ev (.iter c n body) a o → Runs true ev (.iter c n (emittedAll body)) a o := by
  have hcode : (n = n ∧ (true = true → nextEmitted c n (emittedAll body) = true)) ∨
      ∀ a o, Runs false ev (.stmts body) a o → o.goesOn = none := by
    rcases Bool.or_eq_true_iff.mp hnext with hnext | hnone
    · exact Or.inl ⟨rfl,fun _ => by simpa using hnext⟩
    · refine Or.inr fun a o hrun => ?_
      cases hgo : o.goesOn with
      | none => rfl
      | some t =>
        have hon : (endsAll body).goesOn = true := Ends.goesOn_of_has hrun.has_ends hgo
        simp [hon] at hnone
  exact ⟨fun a o h => (loop_mono hbody hcode h).1 rfl,fun a o h => (loop_mono hbody hcode h).2 rfl⟩

mutual

/-- Where no run comes to an expression without code, the emitted code has every run. -/
theorem kept_runs : ∀ (s : Statement), Flagged ev s → kept s = true → ∀ (a : σ) (o : Outcome σ),
    Runs false ev (.stmt s) a o → Runs true ev (.stmt (emitted s)) a o
  | .block l, hf, hk, a, o, h =>
    .block (keptBlock_runs l (fun t ht u hu => hf u (.block ht hu)) hk a o (block_runs.mp h))
  | .simple expr, hf, hk, a, o, h => singleton_runs.mp (simples_gen (l := [expr]) (singleton_runs.mpr h))
  | .ifElse r c l m, hf, hk, a, o, h => by
    obtain ⟨hl,hm⟩ := Bool.and_eq_true_iff.mp hk
    rcases if_runs.mp h with ⟨t,hc,h⟩ | ⟨t,hc,h⟩ | ⟨hc,rfl⟩
    · exact .ifTrue hc (keptAll_runs l (fun t ht u hu => hf u (.thenStmt ht hu)) hl t o h)
    · exact .ifFalse hc (keptAll_runs m (fun t ht u hu => hf u (.elseStmt ht hu)) hm t o h)
    · exact .ifAbort hc
  | .whileLoop r c body, hf, hk, a, o, h =>
    .whileLoop ((emitted_loop (keptAll_runs body (fun t ht u hu => hf u (.whileLoop ht hu)) hk)
      rfl).1 a o (while_runs.mp h))
  | .doWhile r body c, hf, hk, a, o, h =>
    .doWhile ((emitted_loop (keptAll_runs body (fun t ht u hu => hf u (.doWhile ht hu)) hk)
      rfl).2 a o (doWhile_runs.mp h))
  | .forLoop r init c n body, hf, hk, a, o, h => by
    obtain ⟨hki,hkb⟩ := Bool.and_eq_true_iff.mp hk
    have hinit := keptAll_runs init (fun t ht u hu => hf u (.forInit ht hu)) hki
    rcases for_runs.mp h with ⟨t,hi,h⟩ | ⟨hi,ho⟩
    · have hnormal : (endsAll init).normal = true := hi.has_ends
      obtain ⟨hb,hnext⟩ : keptAll body = true ∧ (nextEmitted c n body || !(endsAll body).goesOn) = true := by
        simpa [hnormal] using hkb
      have hbody := keptAll_runs body (fun t ht u hu => hf u (.forBody ht hu)) hb
      exact .forLoop (hinit a _ hi) ((emitted_loop hbody hnext).1 t o h)
    · exact .forInit (hinit a o hi) ho
  | .breakLoop, hf, hk, a, o, h => by
    cases h
    exact .breakLoop
  | .continueLoop, hf, hk, a, o, h => by
    cases h
    exact .continueLoop
  | .returns value, hf, hk, a, o, h => by
    cases h with
    | returns => exact .returns
    | returnsValue h => exact .returnsValue h
    | returnsAbort h => exact .returnsAbort h

theorem keptBlock_runs : ∀ (l : List Statement), (∀ t ∈ l, Flagged ev t) → keptAll l = true →
    ∀ (a : σ) (o : Outcome σ), Runs false ev (.stmts l) a o → Runs true ev (.stmts (emittedBlock l)) a o
  | [], hf, hk, a, o, h => nil_runs.mpr (nil_runs.mp h)
  | s::l, hf, hk, a, o, h => by
    obtain ⟨hks,hkl⟩ := Bool.and_eq_true_iff.mp hk
    have hs := kept_runs s (hf s (by simp)) hks
    rw [emittedBlock]
    rcases cons_runs.mp h with ⟨t,ha,hl⟩ | ⟨ha,ho⟩
    · have hnormal : (ends s).normal = true := ha.has_ends
      have hreach : s.reachable = true := by
        by_contra hr
        exact hf s (by simp) s .self (by simpa using hr) a t ha
      rw [if_pos hreach]
      refine .cons (hs a _ ha) (keptBlock_runs l (fun t ht => hf t (by simp [ht])) ?_ t o hl)
      simpa [hnormal] using hkl
    · exact .stop (hs a o ha) ho

theorem keptAll_runs : ∀ (l : List Statement), (∀ t ∈ l, Flagged ev t) → keptAll l = true →
    ∀ (a : σ) (o : Outcome σ), Runs false ev (.stmts l) a o → Runs true ev (.stmts (emittedAll l)) a o
  | [], hf, hk, a, o, h => nil_runs.mpr (nil_runs.mp h)
  | s::l, hf, hk, a, o, h => by
    obtain ⟨hks,hkl⟩ := Bool.and_eq_true_iff.mp hk
    have hs := kept_runs s (hf s (by simp)) hks
    rcases cons_runs.mp h with ⟨t,ha,hl⟩ | ⟨ha,ho⟩
    · have hnormal : (ends s).normal = true := ha.has_ends
      refine .cons (hs a _ ha) (keptAll_runs l (fun t ht => hf t (by simp [ht])) ?_ t o hl)
      simpa [hnormal] using hkl
    · exact .stop (hs a o ha) ho

end

end

/-! ### Code that is lost -/

/-- The source aborts from `w`, and the emitted code comes to no end. -/
def LostAt (p q : Point) (w : List Bool) : Prop :=
  Runs false script p w .abort ∧ ∀ o, ¬ Runs true script q w o

/-- A run of emitted statements ends as that of the source. -/
theorem emittedAll_unique {l : List Statement} (hf : ∀ t ∈ l, Flagged script t) {w : List Bool}
    {o o' : Outcome (List Bool)} (h : Runs false script (.stmts l) w o)
    (h' : Runs true script (.stmts (emittedAll l)) w o') : o = o' :=
  h.unique ((emittedAll_same script l hf w o').mpr h'.source)

theorem emitted_unique {s : Statement} (hf : Flagged script s) {w : List Bool}
    {o o' : Outcome (List Bool)} (h : Runs false script (.stmt s) w o)
    (h' : Runs true script (.stmt (emitted s)) w o') : o = o' :=
  h.unique ((emitted_same script s hf w o').mpr h'.source)

theorem LostAt.iter {c n : Option Flow} {body body' : List Statement} {w : List Bool}
    (h : LostAt (.stmts body) (.stmts body') w) : LostAt (.iter c n body) (.iter c n body') w := by
  refine ⟨.iterLeave h.1 rfl,fun o hrun => ?_⟩
  cases hrun with
  | iterNext hb => exact h.2 _ hb
  | iterStop hb => exact h.2 _ hb
  | iterLeave hb => exact h.2 _ hb

theorem LostAt.loop {c n : Option Flow} {body body' : List Statement} {w : List Bool}
    (h : LostAt (.iter c n body) (.iter c n body') w) :
    ∃ w, LostAt (.loop c n body) (.loop c n body') w := by
  cases c with
  | none =>
    refine ⟨w,.loopForever h.1,fun o hrun => ?_⟩
    cases hrun with
    | loopForever hrun => exact h.2 o hrun
  | some c =>
    refine ⟨true::w,.loopTrue (script_cons c true w) h.1,fun o hrun => ?_⟩
    cases hrun with
    | loopTrue hc hrun =>
      cases hc
      exact h.2 o hrun
    | loopFalse hc => cases hc
    | loopAbort hc => cases hc

/-- A body that goes on comes to a last expression without code. -/
theorem lost_next {c n : Option Flow} {body : List Statement} (hf : ∀ t ∈ body, Flagged script t)
    (hnext : nextEmitted c n body = false) (hgo : (endsAll body).goesOn = true) :
    ∃ w, LostAt (.iter c n body) (.iter c n (emittedAll body)) w := by
  obtain ⟨o,w,ho,hw⟩ : ∃ (o : Outcome (List Bool)) (w : List Bool), o.goesOn = some [] ∧
      Runs false script (.stmts body) w o := by
    rcases Bool.or_eq_true_iff.mp hgo with hn | hc
    · obtain ⟨w,hw⟩ := endsAll_run body (o := .normal []) nofun hn
      exact ⟨_,w,rfl,hw⟩
    · obtain ⟨w,hw⟩ := endsAll_run body (o := .continues []) nofun hc
      exact ⟨_,w,rfl,hw⟩
  obtain ⟨e,rfl⟩ : ∃ e, n = some e := by
    cases n with
    | none => simp [nextEmitted] at hnext
    | some e => exact ⟨e,rfl⟩
  refine ⟨w,.iterStop hw ho nofun (.stop (.simpleAbort (script_nil e)) rfl) rfl,fun o' hrun => ?_⟩
  cases hrun with
  | iterNext hb hp hcode => simp [hnext] at hcode
  | iterStop hb hp hcode => simp [hnext] at hcode
  | iterLeave hb hp =>
    cases emittedAll_unique hf hw hb
    simp [Outcome.leaves_eq_none ho] at hp

mutual

/-- Where a run can come to an expression without code, one that aborts there is lost. -/
theorem lost : ∀ (s : Statement), Flagged script s → kept s = false →
    ∃ w, LostAt (.stmt s) (.stmt (emitted s)) w
  | .block l, hf, hk => by
    obtain ⟨w,hw⟩ := lostBlock l (fun t ht u hu => hf u (.block ht hu)) hk
    exact ⟨w,.block hw.1,fun o h => hw.2 o (block_runs.mp h)⟩
  | .ifElse r c l m, hf, hk => by
    rcases Bool.and_eq_false_iff.mp hk with hk | hk
    · obtain ⟨w,hw⟩ := lostAll l (fun t ht u hu => hf u (.thenStmt ht hu)) hk
      refine ⟨true::w,.ifTrue (script_cons c true w) hw.1,fun o h => ?_⟩
      rcases if_runs.mp h with ⟨t,hc,h⟩ | ⟨t,hc,h⟩ | ⟨hc,-⟩
      · cases hc
        exact hw.2 o h
      · cases hc
      · cases hc
    · obtain ⟨w,hw⟩ := lostAll m (fun t ht u hu => hf u (.elseStmt ht hu)) hk
      refine ⟨false::w,.ifFalse (script_cons c false w) hw.1,fun o h => ?_⟩
      rcases if_runs.mp h with ⟨t,hc,h⟩ | ⟨t,hc,h⟩ | ⟨hc,-⟩
      · cases hc
      · cases hc
        exact hw.2 o h
      · cases hc
  | .whileLoop r c body, hf, hk => by
    obtain ⟨w,hw⟩ := lostAll body (fun t ht u hu => hf u (.whileLoop ht hu)) hk
    obtain ⟨w,hw⟩ := (hw.iter (c := some c) (n := none)).loop
    exact ⟨w,.whileLoop hw.1,fun o h => hw.2 o (while_runs.mp h)⟩
  | .doWhile r body c, hf, hk => by
    obtain ⟨w,hw⟩ := lostAll body (fun t ht u hu => hf u (.doWhile ht hu)) hk
    have hw := hw.iter (c := some c) (n := none)
    exact ⟨w,.doWhile hw.1,fun o h => hw.2 o (doWhile_runs.mp h)⟩
  | .forLoop r init c n body, hf, hk => by
    have hfi : ∀ t ∈ init, Flagged script t := fun t ht u hu => hf u (.forInit ht hu)
    have hfb : ∀ t ∈ body, Flagged script t := fun t ht u hu => hf u (.forBody ht hu)
    rcases Bool.and_eq_false_iff.mp hk with hk | hk
    · obtain ⟨w,hw⟩ := lostAll init hfi hk
      refine ⟨w,.forInit hw.1 rfl,fun o h => ?_⟩
      rcases for_runs.mp h with ⟨t,hi,-⟩ | ⟨hi,-⟩
      · exact hw.2 _ hi
      · exact hw.2 _ hi
    · obtain ⟨hnormal,hk⟩ : (endsAll init).normal = true ∧ (keptAll body &&
          (nextEmitted c n body || !(endsAll body).goesOn)) = false := by
        simpa [Bool.or_eq_false_iff] using hk
      obtain ⟨t,ht⟩ : ∃ t, LostAt (.loop c n body) (.loop c n (emittedAll body)) t := by
        rcases Bool.and_eq_false_iff.mp hk with hk | hk
        · obtain ⟨w,hw⟩ := lostAll body hfb hk
          exact (hw.iter (c := c) (n := n)).loop
        · obtain ⟨hnext,hgo⟩ := Bool.or_eq_false_iff.mp hk
          obtain ⟨w,hw⟩ := lost_next hfb hnext (by simpa using hgo)
          exact hw.loop
      obtain ⟨w,hw⟩ := endsAll_run init (o := .normal t) nofun hnormal
      refine ⟨w,.forLoop hw ht.1,fun o h => ?_⟩
      rcases for_runs.mp h with ⟨t',hi,h⟩ | ⟨hi,ho⟩
      · cases emittedAll_unique hfi hw hi
        exact ht.2 o h
      · cases emittedAll_unique hfi hw hi
        simp [Outcome.isNormal] at ho
  | .simple _, _, hk | .breakLoop, _, hk | .continueLoop, _, hk | .returns _, _, hk => nomatch hk

theorem lostBlock : ∀ (l : List Statement), (∀ t ∈ l, Flagged script t) → keptAll l = false →
    ∃ w, LostAt (.stmts l) (.stmts (emittedBlock l)) w
  | [], hf, hk => nomatch hk
  | s::l, hf, hk => by
    have hs := hf s (by simp)
    rw [emittedBlock]
    rcases Bool.and_eq_false_iff.mp hk with hk | hk
    · obtain ⟨w,hw⟩ := lost s hs hk
      refine ⟨w,.stop hw.1 rfl,fun o h => ?_⟩
      rcases cons_runs.mp h with ⟨t,h,-⟩ | ⟨h,-⟩
      · exact hw.2 _ h
      · exact hw.2 _ h
    · obtain ⟨hnormal,hk⟩ : (ends s).normal = true ∧ keptAll l = false := by simpa using hk
      obtain ⟨t,ht⟩ := lostBlock l (fun t ht => hf t (by simp [ht])) hk
      obtain ⟨w,hw⟩ := ends_run s (o := .normal t) nofun hnormal
      have hreach : s.reachable = true := by
        by_contra hr
        exact hs s .self (by simpa using hr) w t hw
      rw [if_pos hreach]
      refine ⟨w,.cons hw ht.1,fun o h => ?_⟩
      rcases cons_runs.mp h with ⟨t',h,hl⟩ | ⟨h,ho⟩
      · cases emitted_unique hs hw h
        exact ht.2 o hl
      · cases emitted_unique hs hw h
        simp [Outcome.isNormal] at ho

theorem lostAll : ∀ (l : List Statement), (∀ t ∈ l, Flagged script t) → keptAll l = false →
    ∃ w, LostAt (.stmts l) (.stmts (emittedAll l)) w
  | [], hf, hk => nomatch hk
  | s::l, hf, hk => by
    have hs := hf s (by simp)
    rcases Bool.and_eq_false_iff.mp hk with hk | hk
    · obtain ⟨w,hw⟩ := lost s hs hk
      refine ⟨w,.stop hw.1 rfl,fun o h => ?_⟩
      rcases cons_runs.mp h with ⟨t,h,-⟩ | ⟨h,-⟩
      · exact hw.2 _ h
      · exact hw.2 _ h
    · obtain ⟨hnormal,hk⟩ : (ends s).normal = true ∧ keptAll l = false := by simpa using hk
      obtain ⟨t,ht⟩ := lostAll l (fun t ht => hf t (by simp [ht])) hk
      obtain ⟨w,hw⟩ := ends_run s (o := .normal t) nofun hnormal
      refine ⟨w,.cons hw ht.1,fun o h => ?_⟩
      rcases cons_runs.mp h with ⟨t',h,hl⟩ | ⟨h,ho⟩
      · cases emitted_unique hs hw h
        exact ht.2 o hl
      · cases emitted_unique hs hw h
        simp [Outcome.isNormal] at ho

end

/-! ### Soundness -/

section

variable {σ : Type} (ev : Eval σ)

/-- A call of a function: its body, and the implicit return behind the normal end where there is
one. -/
def CallRuns (gen implicitReturn : Bool) (body : List Statement) (a : σ) (o : Outcome σ) : Prop :=
  (Runs gen ev (.stmts body) a o ∧ o.isNormal = false) ∨
    (implicitReturn = true ∧ ∃ b, Runs gen ev (.stmts body) a (.normal b) ∧ o = .returns b)

/-- What the analysis of the statement `s` answered is right for all runs, and the code emitted for
it has the runs of the source. -/
structure ReachabilitySound (s : Source) (loops : LoopScopes) (stmt : Statement) (reachable : Bool)
    (loops' : LoopScopes) : Prop where
  answer : reachable = false → ∀ a b, ¬ Runs false ev (.stmt (plain s)) a (.normal b)
  flags : ∀ u, Within u stmt → u.reachable = false → ∀ a b, ¬ Runs false ev (.stmt u) a (.normal b)
  breaks : ∀ a b, Runs false ev (.stmt (plain s)) a (.breaks b) → breaksOf loops < breaksOf loops'
  continues : ∀ a b, Runs false ev (.stmt (plain s)) a (.continues b) →
    continuesOf loops < continuesOf loops'
  dropped : ∀ a o, Runs false ev (.stmt (plain s)) a o ↔ Runs true ev (.stmt (emitted stmt)) a o
  implicitReturn : ∀ a o, CallRuns ev false true [plain s] a o ↔
    CallRuns ev true (lastReachable [stmt]) (emittedBlock [stmt]) a o

variable {s : Source} {loops loops' : LoopScopes} {stmt : Statement} {reachable : Bool}
  {errors : List String}

/-- Where no run comes to an expression without code, no run is lost with the statements behind an
unreachable end, or with the implicit return. -/
theorem sound_of_kept (h : analyse s loops = some (stmt,reachable,loops',errors))
    (hk : kept stmt = true) : ReachabilitySound ev s loops stmt reachable loops' := by
  have hs := analyse_sound ev s loops h
  have hf := analyse_flagged ev s loops h
  have hdropped : ∀ a o, Runs false ev (.stmt (plain s)) a o ↔
      Runs true ev (.stmt (emitted stmt)) a o := by
    intro a o
    rw [hs.same]
    exact ⟨kept_runs stmt hf hk a o,fun hrun => (emitted_same ev stmt hf a o).mpr hrun.source⟩
  refine ⟨hs.answer,hf,hs.breaks,hs.continues,hdropped,fun a o => ?_⟩
  have hlast : lastReachable [stmt] = stmt.reachable := rfl
  have hblock : emittedBlock [stmt] = [emitted stmt] := by simp [emittedBlock]
  simp only [CallRuns,hblock,singleton_runs,← hdropped,hlast,true_and]
  cases hr : stmt.reachable with
  | true => simp
  | false =>
    have hno : ∀ b, ¬ Runs false ev (.stmt (plain s)) a (.normal b) := by
      intro b hrun
      exact hf stmt .self hr a b ((hs.same _ _).mp hrun)
    simp [hno]

/-- Where a run can come to an expression without code, the code does not have the runs of the
source. -/
theorem not_sound_of_lost (h : analyse s loops = some (stmt,reachable,loops',errors))
    (hk : kept stmt = false) : ¬ ReachabilitySound script s loops stmt reachable loops' := by
  intro hsound
  obtain ⟨w,hw⟩ := lost stmt (analyse_flagged script s loops h) hk
  have hrun := ((analyse_sound script s loops h).same w .abort).mpr hw.1
  exact hw.2 _ ((hsound.dropped w .abort).mp hrun)

/-- The answers, flags and counts are right for every body; that the code has the runs of the source
whatever the expressions mean comes down to the last expressions of loops without a condition. -/
theorem reachability_iff (h : analyse s loops = some (stmt,reachable,loops',errors)) :
    (∀ (σ : Type) (ev : Eval σ), ReachabilitySound ev s loops stmt reachable loops') ↔
      kept stmt = true := by
  constructor
  · intro hsound
    by_contra hk
    exact not_sound_of_lost h (by simpa using hk) (hsound _ script)
  · exact fun hk σ ev => sound_of_kept ev h hk

/-- `for (;;) { if (c) { while (c) break; return; } else continue; }`: the break belongs to the inner
loop, so the end of the outer one is not reachable. -/
def endlessLoop : Source :=
  .forLoop none none none (some (.block [.ifElse .line
    (.block [.whileLoop .line .breakLoop,.returns none]) .continueLoop]))

theorem endlessLoop_sound : ∃ stmt, ∀ (σ : Type) (ev : Eval σ),
    ReachabilitySound ev endlessLoop [] stmt false [] :=
  ⟨_,(reachability_iff rfl).mpr rfl⟩

/-- `for (;; x++) { if (c) continue; return; }`: the end of the body is not reachable, and the
`continue` jumps to a block without code. -/
def skippedNext : Source :=
  .forLoop none none (some .line) (some (.block [.ifThen .line .continueLoop,.returns none]))

theorem skippedNext_lost : ∃ stmt, analyse skippedNext [] = some (stmt,false,[],[]) ∧
    ¬ ReachabilitySound script skippedNext [] stmt false [] :=
  ⟨_,rfl,not_sound_of_lost rfl rfl⟩

end

end Reachability
end OlaLang
