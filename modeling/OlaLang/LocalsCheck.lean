import OlaLang.LocalsRun
import Mathlib.Data.List.Forall2
import Mathlib.Data.Nat.Basic

/-! Which functions read their local variables right in every run: a check that follows the table
through the statements, and the proof that the runs of a checked function read only what is
current. The check does not look at which value a variable is bound to: a variable that a branch
binds to the value it has anyway is current in every run, and is not known after the branch. -/
namespace OlaLang.Locals

/-! ### The check -/

/-- The entry of a variable: its value, or the cell that holds it. -/
inductive Mode
  | value
  | cell
  deriving DecidableEq

/-- The variables for which the table agrees with every path to a point. -/
def Known := ℕ → Option Mode

namespace Known

def set (K : Known) (x : ℕ) (mode : Mode) : Known := fun y => if y = x then some mode else K y

def drop (K : Known) (xs : List ℕ) : Known := fun y => if y ∈ xs then none else K y

end Known

section Check

variable (kind : ℕ → Kind)

def Expr.isPointer : Expr → Bool
  | .variable x => (kind x).isPointer
  | .assign _ right => right.isPointer
  | .update _ _ => true
  | .apply _ pointer _ | .conditionalOperator pointer _ _ _ => pointer

def readMode (x : ℕ) : Mode :=
  if (kind x).isReferenceType && !(kind x).isContractStorage then .value else .cell

/-- A variable gets a new entry; nothing is known if the value is not of its LLVM type. -/
def got (K : Known) (x : ℕ) (mode : Mode) (pointer : Bool) : Known :=
  if pointer = (kind x).isPointer then K.set x mode else K.drop [x]

def declared (K : Known) (x : ℕ) (pointer : Bool) : Known := got kind K x (readMode kind x) pointer

def checkRead (x : ℕ) (K : Known) : Option Known :=
  if K x = some (readMode kind x) then some K else none

def checkAssign (x : ℕ) (pointer : Bool) (K : Known) : Option Known :=
  if !(kind x).isReferenceType then
    if K x = some .cell ∧ pointer = (kind x).isPointer then some K else none
  else some (got kind K x .value pointer)

mutual
/-- The variables that an expression gives a new entry. -/
def Expr.rebinds : Expr → List ℕ
  | .variable _ | .update _ _ => []
  | .assign x right => right.rebinds ++ if !(kind x).isReferenceType then [] else [x]
  | .apply _ _ args => rebindsList args
  | .conditionalOperator _ cond left right => cond.rebinds ++ (left.rebinds ++ right.rebinds)

def rebindsList : List Expr → List ℕ
  | [] => []
  | e::rest => e.rebinds ++ rebindsList rest
end

mutual
def checkExpr : Expr → Known → Option Known
  | .variable x, K => checkRead kind x K
  | .assign x right, K => (checkExpr right K).bind (checkAssign kind x (right.isPointer kind))
  | .update x _, K => if K x = some .cell ∧ (kind x).isPointer = false then some K else none
  | .apply _ _ args, K => checkExprs args K
  | .conditionalOperator _ cond left right, K => (checkExpr cond K).bind fun K1 =>
    (checkExpr left K1).bind fun _ =>
    (checkExpr right (K1.drop (left.rebinds kind))).map fun _ =>
      K1.drop (left.rebinds kind ++ right.rebinds kind)

def checkExprs : List Expr → Known → Option Known
  | [], K => some K
  | e::rest, K => (checkExpr e K).bind (checkExprs rest)
end

def Field.rebinds : Field → List ℕ
  | .none => []
  | .variableDecl x | .variable x => [x]
  | .place _ left => left.rebinds kind

def checkField (field : Field) (pointer : Bool) (K : Known) : Option Known := match field with
  | .none => some K
  | .variableDecl x => some (got kind K x .cell pointer)
  | .variable x => some (got kind K x .value pointer)
  | .place _ left => checkExpr kind left K

def fieldsRebind : List Field → List ℕ
  | [] => []
  | field::fields => field.rebinds kind ++ fieldsRebind fields

def checkFields : List Field → List Bool → Known → Option Known
  | [], _, K => some K
  | _::_, [], _ => none
  | field::fields, pointer::pointers, K =>
    (checkField kind field pointer K).bind (checkFields fields pointers)

def Values.rebinds (fields : List Field) : Values → List ℕ
  | .list exprs => rebindsList kind exprs ++ fieldsRebind kind fields
  | .functionCall _ _ args => rebindsList kind args ++ fieldsRebind kind fields
  | .conditionalOperator cond trueOption falseOption => cond.rebinds kind ++
    (trueOption.rebinds fields ++ falseOption.rebinds fields)

def checkValues (fields : List Field) : Values → Known → Option Known
  | .list exprs, K =>
    (checkExprs kind exprs K).bind (checkFields kind fields (exprs.map (Expr.isPointer kind)))
  | .functionCall _ returns args, K => (checkExprs kind args K).bind (checkFields kind fields returns)
  | .conditionalOperator cond trueOption falseOption, K => (checkExpr kind cond K).bind fun K1 =>
    (checkValues fields trueOption K1).bind fun _ =>
    (checkValues fields falseOption (K1.drop (trueOption.rebinds kind fields))).map fun _ =>
      K1.drop (trueOption.rebinds kind fields ++ falseOption.rebinds kind fields)

def optionRebinds : Option Expr → List ℕ
  | none => []
  | some e => e.rebinds kind

def checkOption : Option Expr → Known → Option Known
  | none, K => some K
  | some e, K => checkExpr kind e K

mutual
def Stmt.rebinds : Stmt → List ℕ
  | .block body => stmtsRebind body
  | .variableDecl x init => optionRebinds kind init ++ [x]
  | .expression e => e.rebinds kind
  | .ifThen cond body => cond.rebinds kind ++ stmtsRebind body
  | .ifThenElse cond body other => cond.rebinds kind ++ (stmtsRebind body ++ stmtsRebind other)
  | .whileLoop cond body => cond.rebinds kind ++ stmtsRebind body
  | .doWhile body cond => stmtsRebind body ++ cond.rebinds kind
  | .forLoop init cond next body => stmtsRebind init ++
    (optionRebinds kind cond ++ (stmtsRebind body ++ optionRebinds kind next))
  | .destructure fields values => values.rebinds kind fields

def stmtsRebind : List Stmt → List ℕ
  | [] => []
  | s::rest => s.rebinds ++ stmtsRebind rest
end

mutual
/-- What is known after a statement, or `none` where a variable that is not known is used. -/
def checkStmt : Stmt → Known → Option Known
  | .block body, K => checkStmts body K
  | .variableDecl x (some e), K =>
    (checkExpr kind e K).map fun K1 => declared kind K1 x (e.isPointer kind)
  | .variableDecl x none, K => some (declared kind K x (kind x).isPointer)
  | .expression e, K => checkExpr kind e K
  | .ifThen cond body, K => (checkExpr kind cond K).bind fun K1 =>
    (checkStmts body K1).map fun _ => K1.drop (stmtsRebind kind body)
  | .ifThenElse cond body other, K => (checkExpr kind cond K).bind fun K1 =>
    (checkStmts body K1).bind fun _ =>
    (checkStmts other (K1.drop (stmtsRebind kind body))).map fun _ =>
      K1.drop (stmtsRebind kind body ++ stmtsRebind kind other)
  -- what the loop rebinds is not known at its head
  | .whileLoop cond body, K =>
    (checkExpr kind cond (K.drop (cond.rebinds kind ++ stmtsRebind kind body))).bind fun K1 =>
    (checkStmts body K1).map fun _ => K1.drop (stmtsRebind kind body)
  | .doWhile body cond, K =>
    (checkStmts body (K.drop (stmtsRebind kind body ++ cond.rebinds kind))).bind (checkExpr kind cond)
  | .forLoop init cond next body, K => (checkStmts init K).bind fun K1 =>
    (checkOption kind cond (K1.drop (optionRebinds kind cond ++
      (stmtsRebind kind body ++ optionRebinds kind next)))).bind fun K2 =>
    (checkStmts body K2).bind fun K3 =>
    (checkOption kind next K3).map fun _ => K2.drop (stmtsRebind kind body ++ optionRebinds kind next)
  | .destructure fields values, K => checkValues kind fields values K

def checkStmts : List Stmt → Known → Option Known
  | [], K => some K
  | s::rest, K => (checkStmt s K).bind (checkStmts rest)
end

/-- An argument of reference type is bound to its value, any other is kept in its cell. -/
def knownArguments : List ℕ → Known → Known
  | [], K => K
  | x::rest, K =>
    knownArguments rest (K.set x (if (kind x).isReferenceType then .value else .cell))

def knownReturns : List ℕ → Known → Known
  | [], K => K
  | x::rest, K => knownReturns rest (if (kind x).hasDefault then K.set x .cell else K)

/-- The implicit return loads the first named return from a cell. -/
def checkReturn : List ℕ → Known → Bool
  | [], _ => true
  | x::_, K => K x = some .cell

/-- The check of a whole function. -/
def checkFunction (func : Function) : Bool :=
  match checkStmts kind func.body
    (knownReturns kind func.returns (knownArguments kind func.arguments fun _ => none)) with
  | none => false
  | some K => checkReturn func.returns K

end Check

/-! ### What the generator emits -/

namespace Gen

variable {α β : Type} {b b' : Builder} {c : Code}

@[simp] theorem bind_ok {g : Gen α} {f : α → Gen β} {a' : β} : (g >>= f) b = some (a',c,b') ↔
    ∃ a c1 b1 c2, g b = some (a,c1,b1) ∧ f a b1 = some (a',c2,b') ∧ c = .seq c1 c2 := by
  constructor
  · intro h
    change Gen.bind g f b = _ at h
    unfold Gen.bind at h
    split at h
    · cases h
    · rename_i a c1 b1 hg
      split at h
      · cases h
      · rename_i a2 c2 b2 hf
        cases h
        exact ⟨a,c1,b1,c2,hg,hf,rfl⟩
  · rintro ⟨a,c1,b1,c2,hg,hf,rfl⟩
    change Gen.bind g f b = _
    simp only [Gen.bind,hg,hf]

@[simp] theorem pure_ok {a a' : α} :
    (Pure.pure a : Gen α) b = some (a',c,b') ↔ a' = a ∧ c = .skip ∧ b' = b := by
  change some (a,Code.skip,b) = _ ↔ _
  simp [eq_comm]

@[simp] theorem emit_ok {d : Code} {u : Unit} :
    emit d b = some (u,c,b') ↔ c = d ∧ b' = b := by
  simp [emit,eq_comm]

@[simp] theorem unwrap_ok {o : Option α} {a : α} :
    unwrap o b = some (a,c,b') ↔ o = some a ∧ c = .skip ∧ b' = b := by
  cases o <;> simp [unwrap,eq_comm]

@[simp] theorem block_ok {g : Gen α} {r : α × Code} :
    block g b = some (r,c,b') ↔ g b = some (r.1,r.2,b') ∧ c = .skip := by
  unfold block
  cases hg : g b with
  | none => simp
  | some q =>
    obtain ⟨a,d,b1⟩ := q
    obtain ⟨a',d'⟩ := r
    constructor
    · intro h
      cases h
      exact ⟨rfl,rfl⟩
    · rintro ⟨h,rfl⟩
      cases h
      rfl

@[simp] theorem fresh_ok {count n : ℕ} : fresh count b = some (n,c,b') ↔
    n = b.next ∧ c = .skip ∧ b' = ⟨b.table,b.next+count⟩ := by
  simp [fresh,eq_comm]

@[simp] theorem get_ok {x : ℕ} {o : Operand} :
    get x b = some (o,c,b') ↔ b.table x = some o ∧ c = .skip ∧ b' = b := by
  unfold get
  cases b.table x <;> simp [eq_comm]

@[simp] theorem insert_ok {x : ℕ} {o : Operand} {u : Unit} : insert x o b = some (u,c,b') ↔
    c = .skip ∧ b' = ⟨fun y => if y = x then some o else b.table y,b.next⟩ := by
  simp [insert,eq_comm]

end Gen

/-! ### The table and the run -/

def Operand.Below (o : Operand) (n : ℕ) : Prop := match o with
  | .reg r _ => r < n
  | .cell _ => True

section Correct

variable (kind : ℕ → Kind) {World Word : Type} (I : Ops World Word)

/-- The entry of `x` is of the mode that is known. -/
def Placed (x : ℕ) (o : Operand) : Mode → Prop
  | .value => o.isPointer = (kind x).isPointer
  | .cell => ∃ c, o = .cell c ∧ c.name = x

structure Ready (K : Known) (b : Builder) : Prop where
  below : ∀ x o, b.table x = some o → o.Below b.next
  placed : ∀ x mode, K x = some mode → ∃ o, b.table x = some o ∧ Placed kind x o mode

/-- The home that an entry of the table tells of. -/
def homeOf (x : ℕ) (o : Operand) : Mode → Option Home
  | .value => some (.value o)
  | .cell => match o with
    | .reg _ _ => none
    | .cell c => some (.cell c (kind x).isPointer)

/-- The table is right about every variable that is known. -/
def Synced (K : Known) (b : Builder) (m : Machine World Word) : Prop :=
  ∀ x mode o, K x = some mode → b.table x = some o → m.home x = homeOf kind x o mode

/-- Code that takes a run from what is known at `b` to what is known at `b'`, reads only what is
current and gives new entries to the variables `xs` only. -/
structure Correct (K K' : Known) (b b' : Builder) (c : Code) (xs : List ℕ) : Prop where
  ready : Ready kind K' b'
  next : b.next ≤ b'.next
  table : ∀ x, x ∉ xs → b'.table x = b.table x
  known : ∀ x, x ∉ xs → K' x = K x
  keeps : ∀ fuel, Run.Keeps (fun m : Machine World Word => Current m.trace) (Synced kind K b)
    (exec I fuel c) (Synced kind K' b')

/-- The operand is defined at `b`, and of the LLVM type given. -/
structure Fits (o : Operand) (b : Builder) (pointer : Bool) : Prop where
  below : o.Below b.next
  isPointer : o.isPointer = pointer

variable {kind I} {K K1 K2 K3 : Known} {b b1 b2 b3 : Builder} {c d : Code} {xs ys : List ℕ}

theorem Operand.Below.mono {o : Operand} {n n' : ℕ} (h : o.Below n) (hn : n ≤ n') : o.Below n' := by
  cases o with
  | cell c => trivial
  | reg r pointer => exact lt_of_lt_of_le h hn

theorem Fits.mono {o : Operand} {pointer : Bool} (h : Fits o b pointer) (hn : b.next ≤ b1.next) :
    Fits o b1 pointer := ⟨h.below.mono hn,h.isPointer⟩

@[simp] theorem drop_nil (K : Known) : K.drop [] = K := by
  funext x
  simp [Known.drop]

theorem drop_of_notMem {x : ℕ} (h : x ∉ xs) : K.drop xs x = K x := if_neg h

theorem drop_eq_some {x : ℕ} {mode : Mode} : K.drop xs x = some mode ↔ x ∉ xs ∧ K x = some mode := by
  unfold Known.drop
  by_cases h : x ∈ xs <;> simp [h]

/-- What is known of fewer variables. -/
theorem Ready.drop (h : Ready kind K1 b1) (hk : ∀ x, x ∉ xs → K1 x = K x) :
    Ready kind (K.drop xs) b1 where
  below := h.below
  placed := by
    intro x mode hx
    obtain ⟨hn,hK⟩ := drop_eq_some.mp hx
    exact h.placed x mode ((hk x hn).trans hK)

theorem Synced.drop {m : Machine World Word} (h : Synced kind K1 b1 m)
    (hk : ∀ x, x ∉ xs → K1 x = K x) (ht : ∀ x, x ∉ xs → b2.table x = b1.table x) :
    Synced kind (K.drop xs) b2 m := by
  intro x mode o hx ho
  obtain ⟨hn,hK⟩ := drop_eq_some.mp hx
  exact h x mode o ((hk x hn).trans hK) ((ht x hn).symm.trans ho)

theorem correct_skip (h : Ready kind K b) : Correct kind I K K b b .skip [] :=
  ⟨h,le_rfl,fun _ _ => rfl,fun _ _ => rfl,fun _ => Run.keeps_skip⟩

theorem Correct.seq (hc : Correct kind I K K1 b b1 c xs) (hd : Correct kind I K1 K2 b1 b2 d ys) :
    Correct kind I K K2 b b2 (.seq c d) (xs ++ ys) where
  ready := hd.ready
  next := le_trans hc.next hd.next
  table := by
    intro x hx
    rw [List.mem_append,not_or] at hx
    exact (hd.table x hx.2).trans (hc.table x hx.1)
  known := by
    intro x hx
    rw [List.mem_append,not_or] at hx
    exact (hd.known x hx.2).trans (hc.known x hx.1)
  keeps := fun fuel => Run.keeps_seq (hc.keeps fuel) (hd.keeps fuel)

/-- Blocks that are set aside leave nothing behind but a `skip`. -/
theorem Correct.skip_seq (h : Correct kind I K K1 b b1 c xs) :
    Correct kind I K K1 b b1 (.seq .skip c) xs := ⟨h.ready,h.next,h.table,h.known,h.keeps⟩

theorem Correct.seq_skip (h : Correct kind I K K1 b b1 c xs) :
    Correct kind I K K1 b b1 (.seq c .skip) xs := by
  have hs := h.seq (correct_skip h.ready)
  rwa [List.append_nil] at hs

/-- Both ways through a branch lead to the table that was made last. -/
theorem correct_branch {o : Operand} (hc : Correct kind I K K1 b b1 c xs)
    (hd : Correct kind I (K.drop xs) K2 b1 b2 d ys) :
    Correct kind I K (K.drop (xs ++ ys)) b b2 (.branch o c d) (xs ++ ys) where
  ready := by
    refine hd.ready.drop fun x hx => ?_
    rw [List.mem_append,not_or] at hx
    exact (hd.known x hx.2).trans (drop_of_notMem hx.1)
  next := le_trans hc.next hd.next
  table := by
    intro x hx
    rw [List.mem_append,not_or] at hx
    exact (hd.table x hx.2).trans (hc.table x hx.1)
  known := fun x hx => drop_of_notMem hx
  keeps := by
    intro fuel
    refine Run.keeps_branch ?_ ?_
    · refine Run.keeps_weaken (fun m hm => hm) (hc.keeps fuel) fun m hm => ?_
      refine hm.drop (fun x hx => ?_) fun x hx => ?_ <;> rw [List.mem_append,not_or] at hx
      · exact hc.known x hx.1
      · exact hd.table x hx.2
    · refine Run.keeps_weaken (fun m hm => ?_) (hd.keeps fuel) fun m hm => ?_
      · exact Synced.drop hm (fun _ _ => rfl) hc.table
      · refine hm.drop (fun x hx => ?_) fun _ _ => rfl
        rw [List.mem_append,not_or] at hx
        exact (hd.known x hx.2).trans (drop_of_notMem hx.1)

/-- At the head of a loop the table is right about what the loop does not rebind, and so it is at
its end about what the body does not rebind. -/
theorem correct_loop {o : Option Operand}
    (hc : Correct kind I (K.drop (xs ++ ys)) K1 b b1 c xs)
    (hd : Correct kind I K1 K2 b1 b2 d ys) :
    Correct kind I K (K1.drop ys) b b2 (.loop c o d) (xs ++ ys) where
  ready := hd.ready.drop hd.known
  next := le_trans hc.next hd.next
  table := (hc.seq hd).table
  known := by
    intro x hx
    have hy := hx
    rw [List.mem_append,not_or] at hy
    rw [drop_of_notMem hy.2,hc.known x hy.1,drop_of_notMem hx]
  keeps := by
    intro fuel
    have hb : Run.Keeps (fun m : Machine World Word => Current m.trace) (Synced kind K1 b1)
        (exec I fuel d) (Synced kind (K.drop (xs ++ ys)) b) := by
      refine Run.keeps_weaken (fun m hm => hm) (hd.keeps fuel) fun m hm => ?_
      refine hm.drop (fun x hx => ?_) fun x hx => ((hc.seq hd).table x hx).symm
      rw [(hc.seq hd).known x hx,drop_of_notMem hx]
    refine Run.keeps_weaken (fun m hm => ?_) (Run.keeps_loop (hc.keeps fuel) hb fuel) fun m hm => ?_
    · exact Synced.drop hm (fun _ _ => rfl) fun _ _ => rfl
    · exact Synced.drop hm (fun _ _ => rfl) hd.table

/-! ### Instructions -/

theorem got_eq_some {x y : ℕ} {mode mode' : Mode} {pointer : Bool} :
    got kind K x mode pointer y = some mode' ↔
      (y = x ∧ pointer = (kind x).isPointer ∧ mode' = mode) ∨ (y ≠ x ∧ K y = some mode') := by
  unfold got Known.set Known.drop
  by_cases hp : pointer = (kind x).isPointer <;> by_cases hy : y = x <;> simp [hp,hy,eq_comm]

theorem got_of_ne {x y : ℕ} {mode : Mode} {pointer : Bool} (h : y ∉ [x]) :
    got kind K x mode pointer y = K y := by
  rw [List.mem_singleton] at h
  unfold got Known.set Known.drop
  by_cases hp : pointer = (kind x).isPointer <;> simp [hp,h]

theorem homesBut_eq {m : Machine World Word} {p : Home → Bool} {x : ℕ}
    (h : ∀ h, m.home x = some h → p h = false) : m.homesBut p x = m.home x := by
  unfold Machine.homesBut
  cases hx : m.home x with
  | none => rfl
  | some k => simp [h k hx]

theorem inRegs_homeOf {x n count : ℕ} {o : Operand} {mode : Mode} {h : Home} (ho : o.Below n)
    (hh : homeOf kind x o mode = some h) : h.inRegs n count = false := by
  cases mode with
  | value =>
    cases hh
    cases o with
    | cell c => rfl
    | reg r pointer =>
      have hr : r < n := ho
      simp [Home.inRegs,Nat.not_le.mpr hr]
  | cell => cases o with
    | reg r pointer => cases hh
    | cell c =>
      cases hh
      rfl

theorem inCell_homeOf {x : ℕ} {o : Operand} {mode : Mode} {h : Home} {cell : Cell}
    (ho : Placed kind x o mode) (hc : x ≠ cell.name) (hh : homeOf kind x o mode = some h) :
    h.inCell cell = false := by
  cases mode with
  | value =>
    cases hh
    rfl
  | cell =>
    obtain ⟨c',rfl,hn⟩ := ho
    cases hh
    have hne : c' ≠ cell := by
      rintro rfl
      exact hc hn.symm
    simp [Home.inCell,hne]

theorem Ready.advance (h : Ready kind K b) (n : ℕ) : Ready kind K ⟨b.table,b.next+n⟩ where
  below := fun x o ho => (h.below x o ho).mono (Nat.le_add_right _ _)
  placed := h.placed

theorem correct_fresh (h : Ready kind K b) (n : ℕ) :
    Correct kind I K K b ⟨b.table,b.next+n⟩ .skip [] :=
  ⟨h.advance n,Nat.le_add_right _ _,fun _ _ => rfl,fun _ _ => rfl,fun _ => Run.keeps_skip⟩

/-- New registers are the home of nothing. -/
theorem synced_writeRegs {m : Machine World Word} (h : Ready kind K b) (hm : Synced kind K b m)
    (count n : ℕ) (res : ℕ → Word ⊕ Cell) :
    Synced kind K ⟨b.table,n⟩ (m.writeRegs b.next count res) := by
  intro x mode o hx ho
  have hh := hm x mode o hx ho
  have hs : m.homesBut (Home.inRegs b.next count) x = m.home x :=
    homesBut_eq fun k hk => inRegs_homeOf (h.below x o ho) (hh.symm.trans hk)
  exact hs.trans hh

theorem correct_call (h : Ready kind K b) (f count : ℕ) (args : List Operand) :
    Correct kind I K K b ⟨b.table,b.next+count⟩ (.call f b.next count args) [] where
  ready := h.advance count
  next := Nat.le_add_right _ _
  table := fun _ _ => rfl
  known := fun _ _ => rfl
  keeps := by
    intro fuel
    refine Run.keeps_step fun m hI hm => ⟨hI,?_⟩
    have hw : Synced kind K b { m with world := (I.call f m.world (args.map m.eval)).1 } := hm
    exact synced_writeRegs h hw count _ (I.call f m.world (args.map m.eval)).2

theorem correct_phi (h : Ready kind K b) {dst : ℕ} (hdst : b.next ≤ dst) (value : Operand) :
    Correct kind I K K b b (.phi dst value) [] where
  ready := h
  next := le_rfl
  table := fun _ _ => rfl
  known := fun _ _ => rfl
  keeps := by
    intro fuel
    refine Run.keeps_step fun m hI hm => ⟨hI,?_⟩
    have hw : Synced kind K ⟨b.table,dst⟩ m := hm
    have hb : Ready kind K ⟨b.table,dst⟩ :=
      ⟨fun x o ho => (h.below x o ho).mono hdst,h.placed⟩
    exact synced_writeRegs hb hw 1 b.next fun _ => m.eval value

theorem correct_load (h : Ready kind K b) {x : ℕ} {o : Operand} (hx : K x = some .cell)
    (ho : b.table x = some o) :
    Correct kind I K K b ⟨b.table,b.next+1⟩ (.load x b.next (kind x).isPointer o) [] where
  ready := h.advance 1
  next := Nat.le_add_right _ _
  table := fun _ _ => rfl
  known := fun _ _ => rfl
  keeps := by
    intro fuel
    obtain ⟨o',ho',cell,rfl,hn⟩ := h.placed x _ hx
    cases ho'.symm.trans ho
    refine Run.keeps_step fun m hI hm => ⟨⟨?_,hI⟩,?_⟩
    · have hh := hm x _ _ hx ho
      simpa [Machine.isHome,Machine.eval,homeOf] using hh
    · have hs : ∀ v current, Synced kind K b (m.sawRead x v current) := fun _ _ => hm
      exact synced_writeRegs h (hs _ _) 1 _ fun _ => m.contents I (m.eval (.cell cell))

theorem correct_use (h : Ready kind K b) {x : ℕ} {o : Operand} (hx : K x = some .value)
    (ho : b.table x = some o) : Correct kind I K K b b (.use x o) [] where
  ready := h
  next := le_rfl
  table := fun _ _ => rfl
  known := fun _ _ => rfl
  keeps := by
    intro fuel
    refine Run.keeps_step fun m hI hm => ⟨⟨?_,hI⟩,hm⟩
    exact decide_eq_true (hm x _ _ hx ho)

/-- A store to a cell of `x` leaves the other variables alone. -/
theorem storeCell_home {m : Machine World Word} (h : Ready kind K b) (hm : Synced kind K b m)
    {x y : ℕ} (hy : y ≠ x) (no : ℕ) (value : Operand) {mode : Mode} {o : Operand}
    (hk : K y = some mode) (ho : b.table y = some o) :
    (m.storeCell x ⟨x,no⟩ value).home y = homeOf kind y o mode := by
  obtain ⟨o',ho',hp⟩ := h.placed y mode hk
  cases ho'.symm.trans ho
  have hh := hm y mode o hk ho
  have hs : m.homesBut (Home.inCell ⟨x,no⟩) y = m.home y :=
    homesBut_eq fun k hk' => inCell_homeOf hp hy (hh.symm.trans hk')
  exact (if_neg hy).trans (hs.trans hh)

theorem correct_alloca (h : Ready kind K b) (x : ℕ) (value : Operand) :
    Correct kind I K (got kind K x .cell value.isPointer) b
      ⟨fun y => if y = x then some (.cell ⟨x,b.next⟩) else b.table y,b.next+1⟩
      (.store x (.cell ⟨x,b.next⟩) value) [x] where
  ready := by
    constructor
    · intro y o ho
      by_cases hy : y = x
      · cases (if_pos hy).symm.trans ho
        trivial
      · exact (h.below y o ((if_neg hy).symm.trans ho)).mono (Nat.le_add_right _ _)
    · intro y mode hk
      rcases got_eq_some.mp hk with ⟨rfl,_,rfl⟩ | ⟨hy,hk⟩
      · exact ⟨_,if_pos rfl,_,rfl,rfl⟩
      · obtain ⟨o,ho,hp⟩ := h.placed y mode hk
        exact ⟨o,(if_neg hy).trans ho,hp⟩
  next := Nat.le_add_right _ _
  table := fun y hy => if_neg (fun hyx => hy (List.mem_singleton.mpr hyx))
  known := fun y hy => got_of_ne hy
  keeps := by
    intro fuel
    refine Run.keeps_step fun m hI hm => ⟨hI,?_⟩
    intro y mode o hk ho
    rcases got_eq_some.mp hk with ⟨rfl,hp,rfl⟩ | ⟨hy,hk⟩
    · cases (if_pos rfl).symm.trans ho
      have hs : (m.storeCell y ⟨y,b.next⟩ value).home y = some (.cell ⟨y,b.next⟩ value.isPointer) :=
        if_pos rfl
      rw [hp] at hs
      exact hs
    · exact storeCell_home h hm hy b.next value hk ((if_neg hy).symm.trans ho)

theorem correct_store (h : Ready kind K b) {x : ℕ} {o value : Operand} (hx : K x = some .cell)
    (ho : b.table x = some o) (hp : value.isPointer = (kind x).isPointer) :
    Correct kind I K K b b (.store x o value) [] where
  ready := h
  next := le_rfl
  table := fun _ _ => rfl
  known := fun _ _ => rfl
  keeps := by
    intro fuel
    obtain ⟨o',ho',⟨name,no⟩,rfl,hn⟩ := h.placed x _ hx
    have hn : name = x := hn
    subst hn
    cases ho'.symm.trans ho
    refine Run.keeps_step fun m hI hm => ⟨hI,?_⟩
    intro y mode o2 hk ho2
    by_cases hy : y = name
    · subst hy
      cases ho.symm.trans ho2
      cases hx.symm.trans hk
      have hs : (m.storeCell y ⟨y,no⟩ value).home y = some (.cell ⟨y,no⟩ value.isPointer) :=
        if_pos rfl
      rw [hp] at hs
      exact hs
    · exact storeCell_home h hm hy no value hk ho2

theorem correct_bind (h : Ready kind K b) (x : ℕ) {value : Operand} (hv : value.Below b.next) :
    Correct kind I K (got kind K x .value value.isPointer) b
      ⟨fun y => if y = x then some value else b.table y,b.next⟩ (.bind x value) [x] where
  ready := by
    constructor
    · intro y o ho
      by_cases hy : y = x
      · cases (if_pos hy).symm.trans ho
        exact hv
      · exact h.below y o ((if_neg hy).symm.trans ho)
    · intro y mode hk
      rcases got_eq_some.mp hk with ⟨rfl,hp,rfl⟩ | ⟨hy,hk⟩
      · exact ⟨value,if_pos rfl,hp⟩
      · obtain ⟨o,ho,hp⟩ := h.placed y mode hk
        exact ⟨o,(if_neg hy).trans ho,hp⟩
  next := le_rfl
  table := fun y hy => if_neg (fun hyx => hy (List.mem_singleton.mpr hyx))
  known := fun y hy => got_of_ne hy
  keeps := by
    intro fuel
    refine Run.keeps_step fun m hI hm => ⟨hI,?_⟩
    intro y mode o hk ho
    rcases got_eq_some.mp hk with ⟨rfl,_,rfl⟩ | ⟨hy,hk⟩
    · cases (if_pos rfl).symm.trans ho
      exact if_pos rfl
    · exact (if_neg hy).trans (hm y mode o hk ((if_neg hy).symm.trans ho))

/-! ### Expressions -/

theorem intoPointerValue_ok {o o' : Operand} : intoPointerValue o b = some (o',c,b1) ↔
    o.isPointer = true ∧ o' = o ∧ c = .skip ∧ b1 = b := by
  unfold intoPointerValue
  cases h : o.isPointer <;> simp [@eq_comm _ o o']

theorem intoIntValue_ok {o o' : Operand} : intoIntValue o b = some (o',c,b1) ↔
    o.isPointer = false ∧ o' = o ∧ c = .skip ∧ b1 = b := by
  unfold intoIntValue
  cases h : o.isPointer <;> simp [@eq_comm _ o o']

theorem results_fits {n : ℕ} (table : ℕ → Option Operand) (returns : List Bool) {next : ℕ}
    (h : n + returns.length ≤ next) :
    List.Forall₂ (fun o pointer => Fits o ⟨table,next⟩ pointer) (results n returns) returns := by
  induction returns generalizing n with
  | nil => exact List.Forall₂.nil
  | cons pointer rest ih =>
    rw [List.length_cons] at h
    have hn : n < next := by omega
    exact List.Forall₂.cons ⟨hn,rfl⟩ (ih (by omega))

theorem call_correct {f : ℕ} {returns : List Bool} {args os : List Operand} (h : Ready kind K b)
    (he : call f returns args b = some (os,c,b1)) : Correct kind I K K b b1 c [] ∧
      List.Forall₂ (fun o pointer => Fits o b1 pointer) os returns := by
  simp only [call,Gen.bind_ok,Gen.fresh_ok,Gen.emit_ok,Gen.pure_ok] at he
  obtain ⟨_,_,_,_,⟨rfl,rfl,rfl⟩,⟨_,_,_,_,⟨rfl,rfl⟩,⟨rfl,rfl,rfl⟩,rfl⟩,rfl⟩ := he
  exact ⟨(correct_call h f returns.length args).seq_skip.skip_seq,results_fits _ returns le_rfl⟩

theorem apply_correct {f : ℕ} {pointer : Bool} {args : List Operand} {o : Operand}
    (h : Ready kind K b) (he : apply f pointer args b = some (o,c,b1)) :
    Correct kind I K K b b1 c [] ∧ Fits o b1 pointer := by
  simp only [apply,Gen.bind_ok,Gen.fresh_ok,Gen.emit_ok,Gen.pure_ok] at he
  obtain ⟨_,_,_,_,⟨rfl,rfl,rfl⟩,⟨_,_,_,_,⟨rfl,rfl⟩,⟨rfl,rfl,rfl⟩,rfl⟩,rfl⟩ := he
  exact ⟨(correct_call h f 1 args).seq_skip.skip_seq,⟨Nat.lt_succ_self _,rfl⟩⟩

theorem loadVariable_correct {x : ℕ} {o : Operand} (h : Ready kind K b) (hx : K x = some .cell)
    (he : loadVariable x (kind x).isPointer b = some (o,c,b1)) :
    Correct kind I K K b b1 c [] ∧ Fits o b1 (kind x).isPointer := by
  simp only [loadVariable,Gen.bind_ok,Gen.get_ok,intoPointerValue_ok,Gen.fresh_ok,Gen.emit_ok,
    Gen.pure_ok] at he
  obtain ⟨src,_,_,_,⟨hsrc,rfl,rfl⟩,⟨_,_,_,_,⟨_,rfl,rfl,rfl⟩,⟨_,_,_,_,⟨rfl,rfl,rfl⟩,
    ⟨_,_,_,_,⟨rfl,rfl⟩,⟨rfl,rfl,rfl⟩,rfl⟩,rfl⟩,rfl⟩,rfl⟩ := he
  have hl := (correct_load (I := I) h hx hsrc).seq_skip
  exact ⟨hl.skip_seq.skip_seq.skip_seq,⟨Nat.lt_succ_self _,rfl⟩⟩

theorem storeVariable_correct {x : ℕ} {o value : Operand} (h : Ready kind K b)
    (hx : K x = some .cell) (hp : value.isPointer = (kind x).isPointer)
    (he : storeVariable x value b = some (o,c,b1)) :
    Correct kind I K K b b1 c [] ∧ Fits o b1 true := by
  simp only [storeVariable,Gen.bind_ok,Gen.get_ok,intoPointerValue_ok,Gen.emit_ok,Gen.pure_ok] at he
  obtain ⟨dst,_,_,_,⟨hdst,rfl,rfl⟩,⟨_,_,_,_,⟨hptr,rfl,rfl,rfl⟩,⟨_,_,_,_,⟨rfl,rfl⟩,
    ⟨rfl,rfl,rfl⟩,rfl⟩,rfl⟩,rfl⟩ := he
  have hs := (correct_store (I := I) h hx hdst hp).seq_skip
  exact ⟨hs.skip_seq.skip_seq,⟨h.below x _ hdst,hptr⟩⟩

theorem allocaVariable_correct {x : ℕ} {value : Operand} {u : Unit} (h : Ready kind K b)
    (he : allocaVariable x value b = some (u,c,b1)) :
    Correct kind I K (got kind K x .cell value.isPointer) b b1 c [x] := by
  simp only [allocaVariable,Gen.bind_ok,Gen.fresh_ok,Gen.emit_ok,Gen.insert_ok] at he
  obtain ⟨_,_,_,_,⟨rfl,rfl,rfl⟩,⟨_,_,_,_,⟨rfl,rfl⟩,⟨rfl,rfl⟩,rfl⟩,rfl⟩ := he
  exact (correct_alloca h x value).seq_skip.skip_seq

theorem bindVariable_correct {x : ℕ} {value : Operand} {u : Unit} (h : Ready kind K b)
    (hv : value.Below b.next) (he : bindVariable x value b = some (u,c,b1)) :
    Correct kind I K (got kind K x .value value.isPointer) b b1 c [x] := by
  simp only [bindVariable,Gen.bind_ok,Gen.emit_ok,Gen.insert_ok] at he
  obtain ⟨_,_,_,_,⟨rfl,rfl⟩,⟨rfl,rfl⟩,rfl⟩ := he
  exact (correct_bind h x hv).seq_skip

theorem readVariable_correct {x : ℕ} {o : Operand} (h : Ready kind K b)
    (hk : checkRead kind x K = some K1) (he : readVariable kind x b = some (o,c,b1)) :
    Correct kind I K K1 b b1 c [] ∧ Fits o b1 (kind x).isPointer := by
  obtain ⟨hx,hK⟩ := Option.ite_none_right_eq_some.mp hk
  cases hK
  unfold readVariable at he
  unfold readMode at hx
  by_cases hr : ((kind x).isReferenceType && !(kind x).isContractStorage) = true
  · rw [if_pos hr] at he hx
    simp only [Gen.bind_ok,Gen.get_ok,Gen.emit_ok,Gen.pure_ok] at he
    obtain ⟨_,_,_,_,⟨ho,rfl,rfl⟩,⟨_,_,_,_,⟨rfl,rfl⟩,⟨rfl,rfl,rfl⟩,rfl⟩,rfl⟩ := he
    obtain ⟨_,ho',hp⟩ := h.placed x _ hx
    cases ho'.symm.trans ho
    exact ⟨(correct_use h hx ho).seq_skip.skip_seq,⟨h.below x _ ho,hp⟩⟩
  · rw [if_neg hr] at he hx
    exact loadVariable_correct h hx he

theorem assignSingle_correct {x : ℕ} {right o : Operand} {pointer : Bool} (h : Ready kind K b)
    (hr : Fits right b pointer) (hk : checkAssign kind x pointer K = some K1)
    (he : assignSingle kind x right b = some (o,c,b1)) :
    Correct kind I K K1 b b1 c (if !(kind x).isReferenceType then [] else [x]) ∧
      Fits o b1 pointer := by
  simp only [assignSingle,Gen.bind_ok,Gen.pure_ok] at he
  obtain ⟨_,c1,b2,_,h1,⟨rfl,rfl,rfl⟩,rfl⟩ := he
  have hc : Correct kind I K K1 b b1 c1 (if !(kind x).isReferenceType then [] else [x]) := by
    unfold assignTable at h1
    unfold checkAssign at hk
    by_cases hs : (!(kind x).isReferenceType) = true
    · rw [if_pos hs] at h1 hk ⊢
      obtain ⟨⟨hx,hp⟩,hK⟩ := Option.ite_none_right_eq_some.mp hk
      cases hK
      simp only [Gen.bind_ok,Gen.pure_ok] at h1
      obtain ⟨_,_,_,_,h2,⟨_,rfl,rfl⟩,rfl⟩ := h1
      exact (storeVariable_correct h hx (hr.isPointer.trans hp) h2).1.seq_skip
    · rw [if_neg hs] at h1 hk ⊢
      cases hk
      have hb := bindVariable_correct (I := I) h hr.below h1
      rwa [hr.isPointer] at hb
  exact ⟨hc.seq_skip,hr.mono hc.next⟩

theorem update_correct {x f : ℕ} {o : Operand} (h : Ready kind K b) (hx : K x = some .cell)
    (hp : (kind x).isPointer = false) (he : expression kind (.update x f) b = some (o,c,b1)) :
    Correct kind I K K b b1 c [] ∧ Fits o b1 true := by
  rw [expression] at he
  simp only [Gen.bind_ok,intoIntValue_ok] at he
  obtain ⟨v,c1,b2,_,h1,⟨_,_,_,_,⟨_,rfl,rfl,rfl⟩,⟨after,c2,b3,c3,h2,h3,rfl⟩,rfl⟩,rfl⟩ := he
  have hm : readMode kind x = .cell := by
    unfold readMode
    cases hk : kind x <;> simp_all [Kind.isPointer,Kind.isReferenceType,Kind.isContractStorage]
  have hread : checkRead kind x K = some K := by
    rw [checkRead,hm,if_pos hx]
  obtain ⟨hr,_⟩ := readVariable_correct (I := I) h hread h1
  obtain ⟨ha,hafter⟩ := apply_correct (I := I) hr.ready h2
  obtain ⟨hs,ho⟩ := storeVariable_correct (I := I) ha.ready hx
    (hafter.isPointer.trans hp.symm) h3
  exact ⟨hr.seq (ha.seq hs).skip_seq,ho⟩

mutual
theorem expression_correct : ∀ (e : Expr) {K K1 : Known} {b b1 : Builder} {c : Code} {o : Operand},
    Ready kind K b → checkExpr kind e K = some K1 → expression kind e b = some (o,c,b1) →
    Correct kind I K K1 b b1 c (e.rebinds kind) ∧ Fits o b1 (e.isPointer kind)
  | .variable x, _, _, _, _, _, _, h, hk, he => by
    rw [checkExpr] at hk
    rw [expression] at he
    rw [Expr.rebinds]
    exact readVariable_correct h hk he
  | .assign x right, _, _, _, _, _, _, h, hk, he => by
    rw [checkExpr] at hk
    obtain ⟨K2,hk1,hk2⟩ := Option.bind_eq_some_iff.mp hk
    rw [expression] at he
    obtain ⟨value,c1,b2,c2,h1,h2,rfl⟩ := Gen.bind_ok.mp he
    obtain ⟨hr,hv⟩ := expression_correct right h hk1 h1
    obtain ⟨ha,ho⟩ := assignSingle_correct (I := I) hr.ready hv hk2 h2
    rw [Expr.rebinds]
    exact ⟨hr.seq ha,ho⟩
  | .update x f, _, _, _, _, _, _, h, hk, he => by
    rw [checkExpr] at hk
    obtain ⟨⟨hx,hp⟩,hK⟩ := Option.ite_none_right_eq_some.mp hk
    cases hK
    rw [Expr.rebinds]
    exact update_correct h hx hp he
  | .apply f pointer args, _, _, _, _, _, _, h, hk, he => by
    rw [checkExpr] at hk
    rw [expression] at he
    obtain ⟨os,c1,b2,c2,h1,h2,rfl⟩ := Gen.bind_ok.mp he
    obtain ⟨ha,_⟩ := expressions_correct args h hk h1
    obtain ⟨hf,ho⟩ := apply_correct (I := I) ha.ready h2
    have hs := ha.seq hf
    rw [List.append_nil] at hs
    rw [Expr.rebinds]
    exact ⟨hs,ho⟩
  | .conditionalOperator pointer cond left right, _, _, _, _, _, _, h, hk, he => by
    rw [checkExpr] at hk
    obtain ⟨K2,hk1,hk2⟩ := Option.bind_eq_some_iff.mp hk
    obtain ⟨K3,hk3,hk4⟩ := Option.bind_eq_some_iff.mp hk2
    obtain ⟨K4,hk5,rfl⟩ := Option.map_eq_some_iff.mp hk4
    rw [expression] at he
    simp only [Gen.bind_ok,Gen.block_ok,Gen.fresh_ok,Gen.emit_ok,Gen.pure_ok,intoIntValue_ok] at he
    obtain ⟨_,_,_,_,h1,⟨o,_,_,_,⟨_,rfl,rfl,rfl⟩,⟨l,_,b2,_,⟨h2,rfl⟩,⟨r,_,b3,_,⟨h3,rfl⟩,
      ⟨_,_,_,_,⟨rfl,rfl,rfl⟩,⟨_,_,_,_,⟨rfl,rfl⟩,⟨rfl,rfl,rfl⟩,rfl⟩,rfl⟩,rfl⟩,rfl⟩,rfl⟩,rfl⟩ := he
    have hc := (expression_correct cond h hk1 h1).1
    have hl := (expression_correct left hc.ready hk3 h2).1
    have hr := (expression_correct right (hl.ready.drop hl.known) hk5 h3).1
    have hl' := hl.seq (correct_phi hl.ready hr.next l.1)
    have hr' := hr.seq (correct_phi hr.ready le_rfl r.1)
    rw [List.append_nil] at hl' hr'
    have hb := correct_branch (o := o) hl' hr'
    have hs := hb.seq (correct_fresh hb.ready 1)
    rw [List.append_nil] at hs
    rw [Expr.rebinds]
    exact ⟨hc.seq hs.skip_seq.skip_seq.skip_seq.skip_seq,⟨Nat.lt_succ_self _,rfl⟩⟩

theorem expressions_correct : ∀ (es : List Expr) {K K1 : Known} {b b1 : Builder} {c : Code}
    {os : List Operand}, Ready kind K b → checkExprs kind es K = some K1 →
    expressions kind es b = some (os,c,b1) → Correct kind I K K1 b b1 c (rebindsList kind es) ∧
      List.Forall₂ (fun o pointer => Fits o b1 pointer) os (es.map (Expr.isPointer kind))
  | [], _, _, _, _, _, _, h, hk, he => by
    rw [checkExprs] at hk
    cases hk
    rw [expressions] at he
    obtain ⟨rfl,rfl,rfl⟩ := Gen.pure_ok.mp he
    exact ⟨correct_skip h,List.Forall₂.nil⟩
  | e::rest, _, _, _, _, _, _, h, hk, he => by
    rw [checkExprs] at hk
    obtain ⟨K2,hk1,hk2⟩ := Option.bind_eq_some_iff.mp hk
    rw [expressions] at he
    simp only [Gen.bind_ok,Gen.pure_ok] at he
    obtain ⟨o,c1,b2,_,h1,⟨os,c2,b3,_,h2,⟨rfl,rfl,rfl⟩,rfl⟩,rfl⟩ := he
    obtain ⟨hr,ho⟩ := expression_correct e h hk1 h1
    obtain ⟨hrest,hos⟩ := expressions_correct rest hr.ready hk2 h2
    rw [rebindsList]
    exact ⟨hr.seq hrest.seq_skip,List.Forall₂.cons (ho.mono hrest.next) hos⟩
end

/-! ### Statements -/

theorem condition_correct {e : Expr} {o : Operand} (h : Ready kind K b)
    (hk : checkExpr kind e K = some K1) (he : condition kind e b = some (o,c,b1)) :
    Correct kind I K K1 b b1 c (e.rebinds kind) := by
  simp only [condition,Gen.bind_ok,intoIntValue_ok] at he
  obtain ⟨_,_,_,_,h1,⟨_,_,rfl,rfl⟩,rfl⟩ := he
  exact (expression_correct e h hk h1).1.seq_skip

theorem default_correct {x : ℕ} {o : Operand} (h : Ready kind K b)
    (he : default kind x b = some (o,c,b1)) :
    Correct kind I K K b b1 c [] ∧ Fits o b1 (kind x).isPointer := by
  unfold default at he
  by_cases hd : (kind x).hasDefault = true
  · rw [if_pos hd] at he
    exact apply_correct h he
  · rw [if_neg hd] at he
    cases (Gen.unwrap_ok.mp he).1

theorem declare_correct {x : ℕ} {value : Operand} {pointer : Bool} {u : Unit} (h : Ready kind K b)
    (hv : Fits value b pointer) (he : declare kind x value b = some (u,c,b1)) :
    Correct kind I K (declared kind K x pointer) b b1 c [x] := by
  unfold declare at he
  unfold declared readMode
  rw [← hv.isPointer]
  by_cases hr : ((kind x).isReferenceType && !(kind x).isContractStorage) = true
  · rw [if_pos hr] at he ⊢
    simp only [Gen.bind_ok,intoPointerValue_ok] at he
    obtain ⟨_,_,_,_,⟨_,rfl,rfl,rfl⟩,h1,rfl⟩ := he
    exact (bindVariable_correct h hv.below h1).skip_seq
  · rw [if_neg hr] at he ⊢
    exact allocaVariable_correct h he

theorem destructureField_correct {field : Field} {value : Operand} {pointer : Bool} {u : Unit}
    (h : Ready kind K b) (hv : Fits value b pointer)
    (hk : checkField kind field pointer K = some K1)
    (he : destructureField kind field value b = some (u,c,b1)) :
    Correct kind I K K1 b b1 c (field.rebinds kind) := by
  cases field with
  | none =>
    cases hk
    obtain ⟨_,rfl,rfl⟩ := Gen.pure_ok.mp he
    exact correct_skip h
  | variableDecl x =>
    cases hk
    have hc := allocaVariable_correct (I := I) h he
    rwa [hv.isPointer] at hc
  | «variable» x =>
    cases hk
    have hc := bindVariable_correct (I := I) h hv.below he
    rwa [hv.isPointer] at hc
  | place f left =>
    simp only [destructureField,Gen.bind_ok,Gen.pure_ok] at he
    obtain ⟨_,_,_,_,h1,⟨_,_,_,_,h2,⟨_,rfl,rfl⟩,rfl⟩,rfl⟩ := he
    have hl := (expression_correct (I := I) left h hk h1).1
    have hs := hl.seq (call_correct hl.ready h2).1.seq_skip
    rwa [List.append_nil] at hs

theorem destructureFields_correct {fields : List Field} {values : List Operand}
    {pointers : List Bool} {u : Unit} (h : Ready kind K b)
    (hv : List.Forall₂ (fun o pointer => Fits o b pointer) values pointers)
    (hk : checkFields kind fields pointers K = some K1)
    (he : destructureFields kind fields values b = some (u,c,b1)) :
    Correct kind I K K1 b b1 c (fieldsRebind kind fields) := by
  induction fields generalizing values pointers K b c with
  | nil =>
    cases hk
    obtain ⟨_,rfl,rfl⟩ := Gen.pure_ok.mp he
    exact correct_skip h
  | cons field fields ih => cases hv with
    | nil => cases hk
    | cons hvalue hvalues =>
      obtain ⟨K2,hk1,hk2⟩ := Option.bind_eq_some_iff.mp hk
      obtain ⟨_,_,b2,_,h1,h2,rfl⟩ := Gen.bind_ok.mp he
      have hf := destructureField_correct (I := I) h hvalue hk1 h1
      have hrest := ih hf.ready (hvalues.imp fun _ _ ho => ho.mono hf.next) hk2 h2
      exact hf.seq hrest

theorem destructure_correct {fields : List Field} {values : Values} {u : Unit} (h : Ready kind K b)
    (hk : checkValues kind fields values K = some K1)
    (he : destructure kind fields values b = some (u,c,b1)) :
    Correct kind I K K1 b b1 c (values.rebinds kind fields) := by
  induction values generalizing K K1 b b1 c u with
  | list exprs =>
    obtain ⟨K2,hk1,hk2⟩ := Option.bind_eq_some_iff.mp hk
    obtain ⟨_,_,_,_,h1,h2,rfl⟩ := Gen.bind_ok.mp he
    obtain ⟨hc,hos⟩ := expressions_correct (I := I) exprs h hk1 h1
    exact hc.seq (destructureFields_correct hc.ready hos hk2 h2)
  | functionCall f returns args =>
    obtain ⟨K2,hk1,hk2⟩ := Option.bind_eq_some_iff.mp hk
    simp only [destructure,Gen.bind_ok] at he
    obtain ⟨_,_,_,_,h1,⟨_,_,_,_,h2,h3,rfl⟩,rfl⟩ := he
    obtain ⟨hc,_⟩ := expressions_correct (I := I) args h hk1 h1
    obtain ⟨hr,hos⟩ := call_correct (I := I) hc.ready h2
    exact hc.seq (hr.seq (destructureFields_correct hr.ready hos hk2 h3))
  | conditionalOperator cond trueOption falseOption iht ihf =>
    obtain ⟨K2,hk1,hk2⟩ := Option.bind_eq_some_iff.mp hk
    obtain ⟨K3,hk3,hk4⟩ := Option.bind_eq_some_iff.mp hk2
    obtain ⟨K4,hk5,rfl⟩ := Option.map_eq_some_iff.mp hk4
    simp only [destructure,Gen.bind_ok,Gen.block_ok,Gen.emit_ok] at he
    obtain ⟨o,_,_,_,h1,⟨left,_,_,_,⟨h2,rfl⟩,⟨right,_,_,_,⟨h3,rfl⟩,⟨rfl,rfl⟩,rfl⟩,rfl⟩,rfl⟩ := he
    have hc := condition_correct (I := I) h hk1 h1
    have ht := iht hc.ready hk3 h2
    have hf := ihf (ht.ready.drop ht.known) hk5 h3
    exact hc.seq (correct_branch ht hf).skip_seq.skip_seq

theorem optionally_correct {e : Option Expr} {u : Unit} (h : Ready kind K b)
    (hk : checkOption kind e K = some K1) (he : optionally kind e b = some (u,c,b1)) :
    Correct kind I K K1 b b1 c (optionRebinds kind e) := by
  cases e with
  | none =>
    cases hk
    obtain ⟨_,rfl,rfl⟩ := Gen.pure_ok.mp he
    exact correct_skip h
  | some e =>
    simp only [optionally,Gen.bind_ok,Gen.pure_ok] at he
    obtain ⟨_,_,_,_,h1,⟨_,rfl,rfl⟩,rfl⟩ := he
    exact (expression_correct e h hk h1).1.seq_skip

theorem optionalCondition_correct {e : Option Expr} {o : Option Operand} (h : Ready kind K b)
    (hk : checkOption kind e K = some K1) (he : optionalCondition kind e b = some (o,c,b1)) :
    Correct kind I K K1 b b1 c (optionRebinds kind e) := by
  cases e with
  | none =>
    cases hk
    obtain ⟨_,rfl,rfl⟩ := Gen.pure_ok.mp he
    exact correct_skip h
  | some e =>
    simp only [optionalCondition,Gen.bind_ok,Gen.pure_ok] at he
    obtain ⟨_,_,_,_,h1,⟨_,rfl,rfl⟩,rfl⟩ := he
    exact (condition_correct h hk h1).seq_skip

theorem variableDecl_correct {x : ℕ} {init : Option Expr} {u : Unit} (h : Ready kind K b)
    (hk : checkStmt kind (.variableDecl x init) K = some K1)
    (he : variableDecl kind x init b = some (u,c,b1)) :
    Correct kind I K K1 b b1 c (optionRebinds kind init ++ [x]) := by
  obtain ⟨_,_,_,_,h1,h2,rfl⟩ := Gen.bind_ok.mp he
  cases init with
  | none =>
    rw [checkStmt] at hk
    cases hk
    obtain ⟨hd,hv⟩ := default_correct (I := I) h h1
    exact hd.seq (declare_correct hd.ready hv h2)
  | some e =>
    rw [checkStmt] at hk
    obtain ⟨K2,hk1,rfl⟩ := Option.map_eq_some_iff.mp hk
    obtain ⟨hd,hv⟩ := expression_correct (I := I) e h hk1 h1
    exact hd.seq (declare_correct hd.ready hv h2)

mutual
theorem statement_correct : ∀ (s : Stmt) {K K1 : Known} {b b1 : Builder} {c : Code} {u : Unit},
    Ready kind K b → checkStmt kind s K = some K1 → statement kind s b = some (u,c,b1) →
    Correct kind I K K1 b b1 c (s.rebinds kind)
  | .block body, _, _, _, _, _, _, h, hk, he => by
    rw [checkStmt] at hk
    rw [statement] at he
    rw [Stmt.rebinds]
    exact statements_correct body h hk he
  | .variableDecl x init, _, _, _, _, _, _, h, hk, he => by
    rw [statement] at he
    rw [Stmt.rebinds]
    exact variableDecl_correct h hk he
  | .expression e, _, _, _, _, _, _, h, hk, he => by
    rw [checkStmt] at hk
    rw [statement] at he
    simp only [Gen.bind_ok,Gen.pure_ok] at he
    obtain ⟨_,_,_,_,h1,⟨_,rfl,rfl⟩,rfl⟩ := he
    rw [Stmt.rebinds]
    exact (expression_correct e h hk h1).1.seq_skip
  | .ifThen cond body, _, _, _, _, _, _, h, hk, he => by
    rw [checkStmt] at hk
    obtain ⟨K2,hk1,hk2⟩ := Option.bind_eq_some_iff.mp hk
    obtain ⟨K3,hk3,rfl⟩ := Option.map_eq_some_iff.mp hk2
    rw [statement] at he
    simp only [Gen.bind_ok,Gen.block_ok,Gen.emit_ok] at he
    obtain ⟨o,_,_,_,h1,⟨thenBlock,_,_,_,⟨h2,rfl⟩,⟨rfl,rfl⟩,rfl⟩,rfl⟩ := he
    have hc := condition_correct (I := I) h hk1 h1
    have ht := statements_correct body hc.ready hk3 h2
    have hb := correct_branch (o := o) ht (correct_skip (ht.ready.drop ht.known))
    rw [List.append_nil] at hb
    rw [Stmt.rebinds]
    exact hc.seq hb.skip_seq
  | .ifThenElse cond body other, _, _, _, _, _, _, h, hk, he => by
    rw [checkStmt] at hk
    obtain ⟨K2,hk1,hk2⟩ := Option.bind_eq_some_iff.mp hk
    obtain ⟨K3,hk3,hk4⟩ := Option.bind_eq_some_iff.mp hk2
    obtain ⟨K4,hk5,rfl⟩ := Option.map_eq_some_iff.mp hk4
    rw [statement] at he
    simp only [Gen.bind_ok,Gen.block_ok,Gen.emit_ok] at he
    obtain ⟨o,_,_,_,h1,⟨thenBlock,_,_,_,⟨h2,rfl⟩,⟨elseBlock,_,_,_,⟨h3,rfl⟩,⟨rfl,rfl⟩,rfl⟩,rfl⟩,rfl⟩ :=
      he
    have hc := condition_correct (I := I) h hk1 h1
    have ht := statements_correct body hc.ready hk3 h2
    have hf := statements_correct other (ht.ready.drop ht.known) hk5 h3
    rw [Stmt.rebinds]
    exact hc.seq (correct_branch ht hf).skip_seq.skip_seq
  | .whileLoop cond body, _, _, _, _, _, _, h, hk, he => by
    rw [checkStmt] at hk
    obtain ⟨K2,hk1,hk2⟩ := Option.bind_eq_some_iff.mp hk
    obtain ⟨K3,hk3,rfl⟩ := Option.map_eq_some_iff.mp hk2
    rw [statement] at he
    simp only [Gen.bind_ok,Gen.block_ok,Gen.emit_ok] at he
    obtain ⟨test,_,_,_,⟨h1,rfl⟩,⟨bodyBlock,_,_,_,⟨h2,rfl⟩,⟨rfl,rfl⟩,rfl⟩,rfl⟩ := he
    have hc := condition_correct (I := I) (h.drop fun _ _ => rfl) hk1 h1
    have hd := statements_correct body hc.ready hk3 h2
    rw [Stmt.rebinds]
    exact (correct_loop hc hd).skip_seq.skip_seq
  | .doWhile body cond, K, K1, b, b1, _, _, h, hk, he => by
    rw [checkStmt] at hk
    obtain ⟨K2,hk1,hk2⟩ := Option.bind_eq_some_iff.mp hk
    rw [statement] at he
    simp only [Gen.bind_ok,Gen.block_ok,Gen.emit_ok] at he
    obtain ⟨bodyBlock,_,_,_,⟨h1,rfl⟩,⟨test,_,_,_,⟨h2,rfl⟩,⟨rfl,rfl⟩,rfl⟩,rfl⟩ := he
    have hd := statements_correct body (h.drop fun _ _ => rfl) hk1 h1
    have hc := condition_correct (I := I) hd.ready hk2 h2
    have hs : Correct kind I (K.drop (stmtsRebind kind body ++ cond.rebinds kind ++ [])) K1 b b1
        (.seq bodyBlock.2 test.2) (stmtsRebind kind body ++ cond.rebinds kind) := by
      rw [List.append_nil]
      exact hd.seq hc
    have hl := correct_loop (o := some test.1) hs (correct_skip hs.ready)
    rw [drop_nil,List.append_nil] at hl
    rw [Stmt.rebinds]
    exact hl.skip_seq.skip_seq
  | .forLoop init cond next body, _, _, _, _, _, _, h, hk, he => by
    rw [checkStmt] at hk
    obtain ⟨K2,hk1,hk2⟩ := Option.bind_eq_some_iff.mp hk
    obtain ⟨K3,hk3,hk4⟩ := Option.bind_eq_some_iff.mp hk2
    obtain ⟨K4,hk5,hk6⟩ := Option.bind_eq_some_iff.mp hk4
    obtain ⟨K5,hk7,rfl⟩ := Option.map_eq_some_iff.mp hk6
    rw [statement] at he
    simp only [Gen.bind_ok,Gen.block_ok,Gen.emit_ok] at he
    obtain ⟨_,_,_,_,h1,⟨test,_,_,_,⟨h2,rfl⟩,⟨bodyBlock,_,_,_,⟨h3,rfl⟩,
      ⟨nextBlock,_,_,_,⟨h4,rfl⟩,⟨rfl,rfl⟩,rfl⟩,rfl⟩,rfl⟩,rfl⟩ := he
    have hi := statements_correct init h hk1 h1
    have hc := optionalCondition_correct (I := I) (hi.ready.drop fun _ _ => rfl) hk3 h2
    have hd := statements_correct body hc.ready hk5 h3
    have hn := optionally_correct (I := I) hd.ready hk7 h4
    rw [Stmt.rebinds]
    exact hi.seq (correct_loop hc (hd.seq hn)).skip_seq.skip_seq.skip_seq
  | .destructure fields values, _, _, _, _, _, _, h, hk, he => by
    rw [checkStmt] at hk
    rw [statement] at he
    rw [Stmt.rebinds]
    exact destructure_correct h hk he

theorem statements_correct : ∀ (ss : List Stmt) {K K1 : Known} {b b1 : Builder} {c : Code}
    {u : Unit}, Ready kind K b → checkStmts kind ss K = some K1 →
    statements kind ss b = some (u,c,b1) → Correct kind I K K1 b b1 c (stmtsRebind kind ss)
  | [], _, _, _, _, _, _, h, hk, he => by
    rw [checkStmts] at hk
    cases hk
    rw [statements] at he
    obtain ⟨_,rfl,rfl⟩ := Gen.pure_ok.mp he
    exact correct_skip h
  | s::rest, _, _, _, _, _, _, h, hk, he => by
    rw [checkStmts] at hk
    obtain ⟨K2,hk1,hk2⟩ := Option.bind_eq_some_iff.mp hk
    rw [statements] at he
    obtain ⟨_,_,_,_,h1,h2,rfl⟩ := Gen.bind_ok.mp he
    have hs := statement_correct s h hk1 h1
    rw [stmtsRebind]
    exact hs.seq (statements_correct rest hs.ready hk2 h2)
end

/-! ### Functions -/

theorem Correct.mono (h : Correct kind I K K1 b b1 c xs) (hs : xs ⊆ ys) :
    Correct kind I K K1 b b1 c ys where
  ready := h.ready
  next := h.next
  table := fun x hx => h.table x fun hx' => hx (hs hx')
  known := fun x hx => h.known x fun hx' => hx (hs hx')
  keeps := h.keeps

theorem got_isPointer {x : ℕ} {mode : Mode} :
    got kind K x mode (kind x).isPointer = K.set x mode := if_pos rfl

theorem set_set {x : ℕ} {mode mode' : Mode} : (K.set x mode).set x mode' = K.set x mode' := by
  funext y
  unfold Known.set
  by_cases hy : y = x <;> simp [hy]

theorem populateArgument_correct {i x : ℕ} {u : Unit} (h : Ready kind K b)
    (he : populateArgument kind i x b = some (u,c,b1)) :
    Correct kind I K (K.set x (if (kind x).isReferenceType then .value else .cell)) b b1 c [x] := by
  unfold populateArgument at he
  obtain ⟨_,c1,b2,c2,h1,h2,rfl⟩ := Gen.bind_ok.mp he
  have ha := allocaVariable_correct (I := I) h h1
  have hp : (Operand.reg i (kind x).isPointer).isPointer = (kind x).isPointer := rfl
  rw [hp,got_isPointer] at ha
  by_cases hr : (kind x).isReferenceType = true
  · rw [if_pos hr] at h2 ⊢
    obtain ⟨_,_,_,_,h3,h4,rfl⟩ := Gen.bind_ok.mp h2
    obtain ⟨hl,hv⟩ := loadVariable_correct (I := I) ha.ready (if_pos rfl) h3
    have hb := bindVariable_correct (I := I) hl.ready hv.below h4
    rw [hv.isPointer,got_isPointer,set_set] at hb
    exact (ha.seq (hl.seq hb)).mono (by simp)
  · rw [if_neg hr] at h2 ⊢
    obtain ⟨_,rfl,rfl⟩ := Gen.pure_ok.mp h2
    exact ha.seq_skip

theorem populateArguments_correct {i : ℕ} {arguments : List ℕ} {u : Unit} (h : Ready kind K b)
    (he : populateArguments kind i arguments b = some (u,c,b1)) :
    Correct kind I K (knownArguments kind arguments K) b b1 c arguments := by
  induction arguments generalizing i K b c with
  | nil =>
    obtain ⟨_,rfl,rfl⟩ := Gen.pure_ok.mp he
    exact correct_skip h
  | cons x rest ih =>
    obtain ⟨_,_,_,_,h1,h2,rfl⟩ := Gen.bind_ok.mp he
    have ha := populateArgument_correct (I := I) h h1
    exact ha.seq (ih ha.ready h2)

theorem populateNamedReturns_correct {returns : List ℕ} {u : Unit} (h : Ready kind K b)
    (he : populateNamedReturns kind returns b = some (u,c,b1)) :
    Correct kind I K (knownReturns kind returns K) b b1 c returns := by
  induction returns generalizing K b c with
  | nil =>
    obtain ⟨_,rfl,rfl⟩ := Gen.pure_ok.mp he
    exact correct_skip h
  | cons x rest ih =>
    obtain ⟨_,c1,b2,_,h1,h2,rfl⟩ := Gen.bind_ok.mp he
    have ha : Correct kind I K (if (kind x).hasDefault then K.set x .cell else K) b b2 c1 [x] := by
      unfold populateNamedReturn at h1
      by_cases hd : (kind x).hasDefault = true
      · rw [if_pos hd] at h1 ⊢
        obtain ⟨_,_,_,_,h3,h4,rfl⟩ := Gen.bind_ok.mp h1
        obtain ⟨hd,hv⟩ := default_correct (I := I) h h3
        have hc := allocaVariable_correct (I := I) hd.ready h4
        rw [hv.isPointer,got_isPointer] at hc
        exact hd.seq hc
      · rw [if_neg hd] at h1 ⊢
        obtain ⟨_,rfl,rfl⟩ := Gen.pure_ok.mp h1
        exact (correct_skip h).mono (List.nil_subset _)
    exact ha.seq (ih ha.ready h2)

theorem implicitReturn_keeps {returns : List ℕ} {u : Unit} (h : Ready kind K b)
    (hk : checkReturn returns K = true) (he : implicitReturn kind returns b = some (u,c,b1))
    (fuel : ℕ) : Run.Keeps (fun m : Machine World Word => Current m.trace) (Synced kind K b)
      (exec I fuel c) fun _ => True := by
  cases returns with
  | nil =>
    obtain ⟨_,rfl,rfl⟩ := Gen.pure_ok.mp he
    exact Run.keeps_weaken (fun _ hm => hm) Run.keeps_skip fun _ _ => trivial
  | cons x rest =>
    simp only [implicitReturn,Gen.bind_ok,Gen.block_ok,Gen.pure_ok] at he
    obtain ⟨_,_,_,_,h1,⟨_,_,_,_,⟨_,rfl⟩,⟨_,rfl,rfl⟩,rfl⟩,rfl⟩ := he
    have hl := (loadVariable_correct (I := I) h (of_decide_eq_true hk) h1).1
    exact Run.keeps_weaken (fun _ hm => hm) (hl.seq_skip.keeps fuel) fun _ _ => trivial

theorem ready_empty (n : ℕ) : Ready kind (fun _ => none) ⟨fun _ => none,n⟩ :=
  ⟨fun _ _ h => (by cases h),fun _ _ h => (by cases h)⟩

/-- A function that passes the check reads nothing but what is current. -/
theorem current_of_check {func : Function} (hk : checkFunction kind func = true)
    (he : generate kind func = some c) (fuel : ℕ) {m : Machine World Word} (hm : m.Entered) :
    Current (exec I fuel c m).1.trace := by
  obtain ⟨⟨_,d,b'⟩,hg,rfl⟩ := Option.map_eq_some_iff.mp he
  simp only [genFunction,Gen.bind_ok,Gen.fresh_ok] at hg
  obtain ⟨_,_,_,_,⟨rfl,rfl,rfl⟩,⟨_,_,_,_,h1,⟨_,_,_,_,h2,⟨_,_,_,_,h3,h4,rfl⟩,rfl⟩,rfl⟩,rfl⟩ := hg
  unfold checkFunction at hk
  split at hk
  · cases hk
  · rename_i K hbody
    have ha := populateArguments_correct (I := I) (ready_empty _) h1
    have hr := populateNamedReturns_correct (I := I) ha.ready h2
    have hb := statements_correct (I := I) _ hr.ready hbody h3
    have hi := implicitReturn_keeps (I := I) hb.ready hk h4 fuel
    have hI : Current m.trace := by
      rw [hm.trace]
      trivial
    have hall := Run.keeps_seq (ha.keeps fuel) (Run.keeps_seq (hr.keeps fuel)
      (Run.keeps_seq (hb.keeps fuel) hi))
    exact (hall m hI fun _ _ _ hx _ => (by cases hx)).1

end Correct

/-! ### Variables under control flow -/

section Variables

variable {World Word : Type} {kind : ℕ → Kind} {func : Function} {code : Code}

end Variables

/-- Every operation gives the next number, and the numbers below 5 are true. -/
def counting : Ops ℕ ℕ where
  call := fun _ w _ => (w+1,fun _ => .inl w)
  truth := fun v => v.elim (fun w => w < 5) fun _ => true
  peek := fun _ w => .inl w
  poke := fun w _ _ => w

def entered : Machine ℕ ℕ := ⟨0,fun _ => .inl 0,fun _ => .inl 0,fun _ => none,[]⟩

/-- Variable 0 is an array, all others are integers. -/
def oneArray (x : ℕ) : Kind := if x = 0 then .reference else .scalar false

/-- `xs = f(); i = 0; while (g(i)) { h(xs); i++; }` -/
def countingLoop : Function where
  arguments := []
  returns := []
  body := [.variableDecl 0 (some (.apply 1 true [])),.variableDecl 1 none,
    .whileLoop (.apply 2 false [.variable 1])
      [.expression (.apply 3 false [.variable 0]),.expression (.update 1 4)]]

/-- `xs = f(); while (g()) { h(xs); xs = f(); }` -/
def rebindingLoop : Function where
  arguments := []
  returns := []
  body := [.variableDecl 0 (some (.apply 1 true [])),
    .whileLoop (.apply 2 false [])
      [.expression (.apply 3 false [.variable 0]),.expression (.assign 0 (.apply 1 true []))]]

end OlaLang.Locals
