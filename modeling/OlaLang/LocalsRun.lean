import OlaLang.Locals
import Mathlib.Data.List.Basic

/-! Runs of the emitted code, with a trace of the reads and assignments of local variables: when
a read gives the value that was assigned last. -/
namespace OlaLang.Locals

/-! ### The machine -/

/-- A value: the word or the address of a cell that a register holds, as an integer or a
pointer. -/
structure Value (Word : Type) where
  bits : Word ⊕ Cell
  pointer : Bool
  deriving DecidableEq

inductive Event (Word : Type)
  | assigned (x : ℕ) (v : Value Word)
  | read (x : ℕ) (v : Value Word) (current : Bool)

/-- Where the last executed assignment left the value of a variable. -/
inductive Home
  | value (o : Operand)
  | cell (c : Cell) (pointer : Bool)
  deriving DecidableEq

/-- The operations that the code is built from, on a memory and storage of any kind. -/
structure Ops (World Word : Type) where
  call : ℕ → World → List (Word ⊕ Cell) → World × (ℕ → Word ⊕ Cell)
  truth : Word ⊕ Cell → Bool
  peek : World → Word → Word ⊕ Cell
  poke : World → Word → Word ⊕ Cell → World

/-- `home` and `trace`, newest first, are watched and have no effect. -/
structure Machine (World Word : Type) where
  world : World
  regs : ℕ → Word ⊕ Cell
  cells : Cell → Word ⊕ Cell
  home : ℕ → Option Home
  trace : List (Event Word)

namespace Home

/-- Is the value in one of the registers from `dst`? -/
def inRegs (dst count : ℕ) : Home → Bool
  | value (.reg r _) => dst ≤ r && r < dst+count
  | _ => false

def inCell (c : Cell) : Home → Bool
  | cell c' _ => c' = c
  | _ => false

end Home

section Execution

variable {World Word : Type} (ops : Ops World Word)

namespace Machine

variable (m : Machine World Word)

def eval : Operand → Word ⊕ Cell
  | .reg r _ => m.regs r
  | .cell c => .inr c

def valueOf (o : Operand) : Value Word := ⟨m.eval o,o.isPointer⟩

def valueAt : Home → Value Word
  | .value o => m.valueOf o
  | .cell c pointer => ⟨m.cells c,pointer⟩

/-- The homes that do not meet `p`. -/
def homesBut (p : Home → Bool) (x : ℕ) : Option Home := (m.home x).filter fun h => !p h

def writeRegs (dst count : ℕ) (res : ℕ → Word ⊕ Cell) : Machine World Word :=
  { m with
    regs := fun r => if dst ≤ r ∧ r < dst+count then res (r-dst) else m.regs r
    home := m.homesBut (Home.inRegs dst count) }

def call (f dst count : ℕ) (args : List Operand) : Machine World Word :=
  let r := ops.call f m.world (args.map m.eval)
  { m with world := r.1 }.writeRegs dst count r.2

def phi (dst : ℕ) (value : Operand) : Machine World Word :=
  m.writeRegs dst 1 fun _ => m.eval value

def contents : Word ⊕ Cell → Word ⊕ Cell
  | .inl w => ops.peek m.world w
  | .inr c => m.cells c

/-- Is the value of `x` in the cell that is loaded, and of the loaded type? -/
def isHome (x : ℕ) (pointer : Bool) : Word ⊕ Cell → Bool
  | .inl _ => false
  | .inr c => m.home x = some (.cell c pointer)

def sawRead (x : ℕ) (v : Value Word) (current : Bool) : Machine World Word :=
  { m with trace := .read x v current::m.trace }

def load (x dst : ℕ) (pointer : Bool) (src : Operand) : Machine World Word :=
  let v := m.contents ops (m.eval src)
  (m.sawRead x ⟨v,pointer⟩ (m.isHome x pointer (m.eval src))).writeRegs dst 1 fun _ => v

def use (x : ℕ) (o : Operand) : Machine World Word :=
  m.sawRead x (m.valueOf o) (m.home x = some (.value o))

def storeCell (x : ℕ) (c : Cell) (value : Operand) : Machine World Word :=
  { m with
    cells := fun c' => if c' = c then m.eval value else m.cells c'
    home := fun y => if y = x then some (.cell c value.isPointer) else m.homesBut (Home.inCell c) y
    trace := .assigned x (m.valueOf value)::m.trace }

def storeWord (x : ℕ) (w : Word) (value : Operand) : Machine World Word :=
  { m with
    world := ops.poke m.world w (m.eval value)
    home := fun y => if y = x then none else m.home y
    trace := .assigned x (m.valueOf value)::m.trace }

def store (x : ℕ) (dst value : Operand) : Machine World Word := match m.eval dst with
  | .inl w => m.storeWord ops x w value
  | .inr c => m.storeCell x c value

def bind (x : ℕ) (value : Operand) : Machine World Word :=
  { m with
    home := fun y => if y = x then some (.value value) else m.home y
    trace := .assigned x (m.valueOf value)::m.trace }

def tests : Option Operand → Bool
  | none => true
  | some o => ops.truth (m.eval o)

/-- A function is entered: no variable has been assigned. -/
structure Entered : Prop where
  home : ∀ x, m.home x = none
  trace : m.trace = []

end Machine

/-- The run of a piece of code in which every loop is cut off after `fuel` rounds. -/
def exec (fuel : ℕ) : Code → Run (Machine World Word)
  | .skip => .skip
  | .seq a b => .seq (exec fuel a) (exec fuel b)
  | .call f dst count args => .step fun m => m.call ops f dst count args
  | .phi dst value => .step fun m => m.phi dst value
  | .load x dst pointer src => .step fun m => m.load ops x dst pointer src
  | .use x o => .step fun m => m.use x o
  | .store x dst value => .step fun m => m.store ops x dst value
  | .bind x value => .step fun m => m.bind x value
  | .branch cond a b => .branch (fun m => m.tests ops (some cond)) (exec fuel a) (exec fuel b)
  | .loop test cond body => .loop (exec fuel test) (fun m => m.tests ops cond) (exec fuel body) fuel

end Execution

/-! ### Reads of the value assigned last -/

section Trace

variable {Word : Type}

def lastAssigned (x : ℕ) : List (Event Word) → Option (Value Word)
  | [] => none
  | .assigned y v::trace => if y = x then some v else lastAssigned x trace
  | .read _ _ _::trace => lastAssigned x trace

/-- Every read gives the value that was assigned last on the path taken. -/
def ReadsRight : List (Event Word) → Prop
  | [] => True
  | .assigned _ _::trace => ReadsRight trace
  | .read x v _::trace => lastAssigned x trace = some v ∧ ReadsRight trace

def decidableReadsRight [DecidableEq Word] : ∀ trace : List (Event Word), Decidable (ReadsRight trace)
  | [] => .isTrue trivial
  | .assigned _ _::trace => decidableReadsRight trace
  | .read _ _ _::trace => @instDecidableAnd _ _ inferInstance (decidableReadsRight trace)

instance [DecidableEq Word] (trace : List (Event Word)) : Decidable (ReadsRight trace) :=
  decidableReadsRight trace

/-- Every variable was read where its last assignment had left the value. -/
def Current : List (Event Word) → Prop
  | [] => True
  | .assigned _ _::trace => Current trace
  | .read _ _ current::trace => current = true ∧ Current trace

/-- Every read that is current gives the value assigned last. -/
def CurrentRight : List (Event Word) → Prop
  | [] => True
  | .assigned _ _::trace => CurrentRight trace
  | .read x v current::trace => (current = true → lastAssigned x trace = some v) ∧ CurrentRight trace

theorem readsRight_of_current {trace : List (Event Word)} (hr : CurrentRight trace)
    (hc : Current trace) : ReadsRight trace := by
  induction trace with
  | nil => trivial
  | cons e trace ih => cases e with
    | assigned x v => exact ih hr hc
    | read x v current => exact ⟨hr.1 hc.1,ih hr.2 hc.2⟩

end Trace

/-! ### What every run keeps -/

section Sound

variable {World Word : Type} {ops : Ops World Word}

/-- The homes hold the values assigned last, and the current reads were right. -/
structure Sound (m : Machine World Word) : Prop where
  home : ∀ x h, m.home x = some h → lastAssigned x m.trace = some (m.valueAt h)
  reads : CurrentRight m.trace

theorem homesBut_eq_some {m : Machine World Word} {p : Home → Bool} {x : ℕ} {h : Home} :
    m.homesBut p x = some h ↔ m.home x = some h ∧ p h = false := by
  simp [Machine.homesBut,Option.filter_eq_some_iff]

theorem valueAt_writeRegs (m : Machine World Word) {dst count : ℕ} {res : ℕ → Word ⊕ Cell} {h : Home}
    (hh : h.inRegs dst count = false) : (m.writeRegs dst count res).valueAt h = m.valueAt h := by
  cases h with
  | cell c pointer => rfl
  | value o => cases o with
    | cell c => rfl
    | reg r pointer =>
      have hr : ¬ (dst ≤ r ∧ r < dst+count) := by simpa [Home.inRegs] using hh
      simp [Machine.valueAt,Machine.valueOf,Machine.eval,Machine.writeRegs,hr,Operand.isPointer]

theorem sound_writeRegs {m : Machine World Word} (hm : Sound m) (dst count : ℕ)
    (res : ℕ → Word ⊕ Cell) : Sound (m.writeRegs dst count res) where
  home := by
    intro x h hx
    have ⟨hh,hp⟩ := homesBut_eq_some.mp hx
    rw [valueAt_writeRegs m hp]
    exact hm.home x h hh
  reads := hm.reads

theorem valueAt_of_regs_cells {m n : Machine World Word} (hr : n.regs = m.regs)
    (hc : n.cells = m.cells) (h : Home) : n.valueAt h = m.valueAt h := by
  cases h with
  | cell c pointer => simp [Machine.valueAt,hc]
  | value o => cases o <;> simp [Machine.valueAt,Machine.valueOf,Machine.eval,hr]

theorem home_of_same {m n : Machine World Word} (hr : n.regs = m.regs) (hc : n.cells = m.cells)
    {y : ℕ} {h : Home} (hy : lastAssigned y m.trace = some (m.valueAt h))
    (ht : lastAssigned y n.trace = lastAssigned y m.trace) :
    lastAssigned y n.trace = some (n.valueAt h) := by
  rw [ht,valueAt_of_regs_cells hr hc]
  exact hy

/-- A read leaves the homes alone. -/
theorem sound_sawRead {m : Machine World Word} (hm : Sound m) {x : ℕ} {v : Value Word}
    {current : Bool} (h : current = true → lastAssigned x m.trace = some v) :
    Sound (m.sawRead x v current) where
  home := fun y p hy => home_of_same rfl rfl (hm.home y p hy) rfl
  reads := ⟨h,hm.reads⟩

theorem sound_call {m : Machine World Word} (hm : Sound m) (f dst count : ℕ) (args : List Operand) :
    Sound (m.call ops f dst count args) := by
  have h1 : Sound { m with world := (ops.call f m.world (args.map m.eval)).1 } :=
    ⟨fun x h hx => home_of_same rfl rfl (hm.home x h hx) rfl,hm.reads⟩
  exact sound_writeRegs h1 dst count _

theorem sound_load {m : Machine World Word} (hm : Sound m) (x dst : ℕ) (pointer : Bool)
    (src : Operand) : Sound (m.load ops x dst pointer src) := by
  have h1 : m.isHome x pointer (m.eval src) = true →
      lastAssigned x m.trace = some ⟨m.contents ops (m.eval src),pointer⟩ := by
    intro hc
    cases hs : m.eval src with
    | inl w => simp [Machine.isHome,hs] at hc
    | inr c =>
      have hh : m.home x = some (.cell c pointer) := by simpa [Machine.isHome,hs] using hc
      exact hm.home x _ hh
  exact sound_writeRegs (sound_sawRead hm h1) dst 1 fun _ => m.contents ops (m.eval src)

theorem sound_use {m : Machine World Word} (hm : Sound m) (x : ℕ) (o : Operand) :
    Sound (m.use x o) :=
  sound_sawRead hm fun hc => hm.home x _ (of_decide_eq_true hc)

theorem valueAt_storeCell (m : Machine World Word) (x : ℕ) {c : Cell} (value : Operand) {h : Home}
    (hh : h.inCell c = false) : (m.storeCell x c value).valueAt h = m.valueAt h := by
  cases h with
  | value o => cases o <;> rfl
  | cell c' pointer =>
    have hc : c' ≠ c := by simpa [Home.inCell] using hh
    simp [Machine.valueAt,Machine.storeCell,hc]

theorem sound_storeCell {m : Machine World Word} (hm : Sound m) (x : ℕ) (c : Cell)
    (value : Operand) : Sound (m.storeCell x c value) where
  home := by
    intro y h hy
    by_cases hyx : y = x
    · subst hyx
      have hh : h = .cell c value.isPointer := by simpa [Machine.storeCell,eq_comm] using hy
      subst hh
      simp [Machine.storeCell,lastAssigned,Machine.valueAt,Machine.valueOf]
    · have ⟨hh,hp⟩ : m.home y = some h ∧ h.inCell c = false := by
        simpa [Machine.storeCell,hyx,homesBut_eq_some] using hy
      rw [valueAt_storeCell m x value hp]
      simpa [Machine.storeCell,lastAssigned,Ne.symm hyx] using hm.home y h hh
  reads := hm.reads

theorem sound_storeWord {m : Machine World Word} (hm : Sound m) (x : ℕ) (w : Word)
    (value : Operand) : Sound (m.storeWord ops x w value) where
  home := by
    intro y h hy
    have ⟨hyx,hh⟩ : y ≠ x ∧ m.home y = some h := by simpa [Machine.storeWord] using hy
    exact home_of_same (m := m) (n := m.storeWord ops x w value) rfl rfl (hm.home y h hh)
      (if_neg (Ne.symm hyx))
  reads := hm.reads

theorem sound_store {m : Machine World Word} (hm : Sound m) (x : ℕ) (dst value : Operand) :
    Sound (m.store ops x dst value) := by
  unfold Machine.store
  cases m.eval dst with
  | inl w => exact sound_storeWord hm x w value
  | inr c => exact sound_storeCell hm x c value

theorem sound_bind {m : Machine World Word} (hm : Sound m) (x : ℕ) (value : Operand) :
    Sound (m.bind x value) where
  home := by
    intro y h hy
    by_cases hyx : y = x
    · subst hyx
      have hh : h = .value value := by simpa [Machine.bind,eq_comm] using hy
      subst hh
      rw [valueAt_of_regs_cells (m := m) (n := m.bind y value) rfl rfl]
      simp [Machine.bind,lastAssigned,Machine.valueAt]
    · have hh : m.home y = some h := by simpa [Machine.bind,hyx] using hy
      exact home_of_same (m := m) (n := m.bind x value) rfl rfl (hm.home y h hh)
        (if_neg (Ne.symm hyx))
  reads := hm.reads

/-- Whatever the code, its runs keep every home intact. -/
theorem exec_sound (fuel : ℕ) (c : Code) :
    Run.Keeps Sound (fun _ => True) (exec ops fuel c) fun _ => True := by
  induction c with
  | skip => exact Run.keeps_skip
  | seq a b iha ihb => exact Run.keeps_seq iha ihb
  | call f dst count args => exact Run.keeps_step fun m hm _ => ⟨sound_call hm f dst count args,trivial⟩
  | phi dst value => exact Run.keeps_step fun m hm _ => ⟨sound_writeRegs hm dst 1 _,trivial⟩
  | load x dst pointer src => exact Run.keeps_step fun m hm _ => ⟨sound_load hm x dst pointer src,trivial⟩
  | use x o => exact Run.keeps_step fun m hm _ => ⟨sound_use hm x o,trivial⟩
  | store x dst value => exact Run.keeps_step fun m hm _ => ⟨sound_store hm x dst value,trivial⟩
  | bind x value => exact Run.keeps_step fun m hm _ => ⟨sound_bind hm x value,trivial⟩
  | branch cond a b iha ihb => exact Run.keeps_branch iha ihb
  | loop test cond body iht ihb => exact Run.keeps_loop iht ihb fuel

theorem sound_of_entered {m : Machine World Word} (hm : m.Entered) : Sound m where
  home := by
    intro x h hx
    rw [hm.home x] at hx
    cases hx
  reads := by
    rw [hm.trace]
    trivial

end Sound

/-! ### No other place will do -/

section Exact

variable {World Word : Type}

namespace Machine

/-- A look at the operand `o` gives the value of `x`, whatever the values are that the homes of `m`
hold. -/
def UseRight (m : Machine World Word) (x : ℕ) (o : Operand) : Prop :=
  ∀ n : Machine World Word, Sound n → n.home = m.home →
    lastAssigned x n.trace = some (n.valueOf o)

/-- A load at the address `a` gives the value of `x`, whatever the memory holds and whatever the
values are that the homes of `m` hold. -/
def LoadRight (m : Machine World Word) (x : ℕ) (pointer : Bool) (a : Word ⊕ Cell) : Prop :=
  ∀ (ops : Ops World Word) (n : Machine World Word), Sound n → n.home = m.home →
    lastAssigned x n.trace = some ⟨n.contents ops a,pointer⟩

/-- The value that is assigned to `y` when the homes hold those of `m`; `lost` for a value that has
no home. -/
def held (m : Machine World Word) (lost : Value Word) (y : ℕ) : Value Word := match m.home y with
  | none => lost
  | some h => m.valueAt h

end Machine

/-- The assignments of a trace, with other values. -/
def reassigned (val : ℕ → Value Word) : List (Event Word) → List (Event Word)
  | [] => []
  | .assigned y _::trace => .assigned y (val y)::reassigned val trace
  | .read _ _ _::trace => reassigned val trace

theorem lastAssigned_reassigned (val : ℕ → Value Word) (x : ℕ) (trace : List (Event Word)) :
    lastAssigned x (reassigned val trace) = (lastAssigned x trace).map fun _ => val x := by
  induction trace with
  | nil => rfl
  | cons e trace ih => cases e with
    | read y v current => exact ih
    | assigned y v =>
      rw [reassigned,lastAssigned,lastAssigned]
      by_cases hy : y = x
      · rw [if_pos hy,if_pos hy,hy]
        rfl
      · rw [if_neg hy,if_neg hy]
        exact ih

theorem currentRight_reassigned (val : ℕ → Value Word) (trace : List (Event Word)) :
    CurrentRight (reassigned val trace) := by
  induction trace with
  | nil => trivial
  | cons e trace ih => cases e <;> exact ih

/-- `m` with values that tell its registers and cells from each other, and from the cells whose
numbers are below `k`. -/
def Machine.apart (m : Machine World Word) (k : ℕ) (lost : Value Word) : Machine World Word :=
  let n := { m with
    regs := fun r => .inr ⟨0,k+2*r⟩
    cells := fun c => .inr ⟨c.name,k+1+2*c.no⟩ }
  { n with trace := reassigned (n.held lost) m.trace }

variable {m : Machine World Word} {k : ℕ} {lost : Value Word} {h h' : Home}

theorem lastAssigned_apart (x : ℕ) : lastAssigned x (m.apart k lost).trace =
    (lastAssigned x m.trace).map fun _ => (m.apart k lost).held lost x :=
  lastAssigned_reassigned _ x m.trace

theorem sound_apart (hm : Sound m) : Sound (m.apart k lost) where
  home := by
    intro x h hx
    have hheld : (m.apart k lost).held lost x = (m.apart k lost).valueAt h := by
      rw [Machine.held,hx]
    rw [lastAssigned_apart,hm.home x h hx,hheld]
    rfl
  reads := currentRight_reassigned _ _

/-- The home is not the address of a cell, or that of one whose number is below `k`. -/
def Home.Below (k : ℕ) : Home → Prop
  | .value (.cell c) => c.no < k
  | _ => True

def Home.pointer : Home → Bool
  | .value o => o.isPointer
  | .cell _ p => p

/-- What the home holds in `m.apart k lost`. -/
def Home.address (k : ℕ) : Home → Cell
  | .value (.reg r _) => ⟨0,k+2*r⟩
  | .value (.cell c) => c
  | .cell c _ => ⟨c.name,k+1+2*c.no⟩

theorem valueAt_apart : (m.apart k lost).valueAt h = ⟨.inr (h.address k),h.pointer⟩ := by
  rcases h with (⟨r,p⟩ | c) | ⟨c,p⟩ <;> rfl

theorem valueAt_apart_inj (hh : h.Below k) (hh' : h'.Below k)
    (heq : (m.apart k lost).valueAt h = (m.apart k lost).valueAt h') : h = h' := by
  rw [valueAt_apart,valueAt_apart,Value.mk.injEq,Sum.inr.injEq] at heq
  obtain ⟨hbits,hpointer⟩ := heq
  have hname := congrArg Cell.name hbits
  have hno := congrArg Cell.no hbits
  rcases h with (⟨r,p⟩ | c) | ⟨c,p⟩ <;> rcases h' with (⟨r',p'⟩ | c') | ⟨c',p'⟩
  · have hr : k+2*r = k+2*r' := hno
    have hp : p = p' := hpointer
    rw [hp,show r = r' by omega]
  · have hr : k+2*r = c'.no := hno
    have hc : c'.no < k := hh'
    omega
  · have hr : k+2*r = k+1+2*c'.no := hno
    omega
  · have hr : c.no = k+2*r' := hno
    have hc : c.no < k := hh
    omega
  · have hc : c = c' := hbits
    rw [hc]
  · have hr : c.no = k+1+2*c'.no := hno
    have hc : c.no < k := hh
    omega
  · have hr : k+1+2*c.no = k+2*r' := hno
    omega
  · have hr : k+1+2*c.no = c'.no := hno
    have hc : c'.no < k := hh'
    omega
  · have hn : c.name = c'.name := hname
    have hr : k+1+2*c.no = k+1+2*c'.no := hno
    have hp : p = p' := hpointer
    have hc : c = c' := Cell.ext hn (by omega)
    rw [hc,hp]

def Home.bound : Home → ℕ
  | .value (.cell c) => c.no+1
  | _ => 0

theorem below_bound (hk : h.bound ≤ k) : h.Below k := by
  rcases h with (⟨r,p⟩ | c) | ⟨c,p⟩
  · trivial
  · exact hk
  · trivial

theorem held_apart {x : ℕ} {v : Value Word}
    (hv : lastAssigned x (m.apart k lost).trace = some v) :
    v = lost ∨ ∃ h, m.home x = some h ∧ v = (m.apart k lost).valueAt h := by
  rw [lastAssigned_apart] at hv
  obtain ⟨_,_,rfl⟩ := Option.map_eq_some_iff.mp hv
  have hhome : (m.apart k lost).home x = m.home x := rfl
  rw [Machine.held,hhome]
  cases hx : m.home x with
  | none => exact .inl rfl
  | some h => exact .inr ⟨h,rfl,rfl⟩

/-- A look at an operand is right, whatever the values, only if the operand is the home. -/
theorem useRight_iff (hm : Sound m) {x : ℕ} {o : Operand} :
    m.UseRight x o ↔ m.home x = some (.value o) := by
  constructor
  · intro hright
    let lost : Value Word := ⟨.inr ⟨0,0⟩,!o.isPointer⟩
    let k := (Home.value o).bound + ((m.home x).map Home.bound).getD 0
    have hv := hright (m.apart k lost) (sound_apart hm) rfl
    rcases held_apart hv with hlost | ⟨h,hx,heq⟩
    · have hp : o.isPointer = !o.isPointer := congrArg Value.pointer hlost
      cases hb : o.isPointer <;> rw [hb] at hp <;> cases hp
    · have hk : h.bound ≤ k := by simp [k,hx]
      have hvalue : (m.apart k lost).valueAt (.value o) = (m.apart k lost).valueAt h := heq
      rw [hx,valueAt_apart_inj (below_bound (Nat.le_add_right _ _)) (below_bound hk) hvalue]
  · intro hx n hn hhome
    exact hn.home x _ (hhome ▸ hx)

/-- A load is right, whatever the memory and the values, only if the address is that of the home. -/
theorem loadRight_iff (hm : Sound m) {x : ℕ} {pointer : Bool} {a : Word ⊕ Cell} :
    m.LoadRight x pointer a ↔ m.isHome x pointer a = true := by
  cases a with
  | inl w =>
    refine ⟨fun hright => ?_,fun hhome => by cases hhome⟩
    let memory (no : ℕ) : Ops World Word :=
      ⟨fun _ w _ => (w,fun _ => .inr ⟨0,0⟩),fun _ => true,fun _ _ => .inr ⟨0,no⟩,fun s _ _ => s⟩
    have h0 := hright (memory 0) m hm rfl
    have h1 := hright (memory 1) m hm rfl
    rw [h0] at h1
    have hno : (Sum.inr ⟨0,0⟩ : Word ⊕ Cell) = .inr ⟨0,1⟩ :=
      congrArg Value.bits (Option.some.inj h1)
    cases hno
  | inr c =>
    rw [Machine.isHome,decide_eq_true_iff]
    constructor
    · intro hright
      let lost : Value Word := ⟨.inr ⟨0,0⟩,!pointer⟩
      let k := ((m.home x).map Home.bound).getD 0
      let ops : Ops World Word :=
        ⟨fun _ w _ => (w,fun _ => .inr ⟨0,0⟩),fun _ => true,fun _ _ => .inr ⟨0,0⟩,fun s _ _ => s⟩
      have hv := hright ops (m.apart k lost) (sound_apart hm) rfl
      rcases held_apart hv with hlost | ⟨h,hx,heq⟩
      · have hp : pointer = !pointer := congrArg Value.pointer hlost
        cases pointer <;> cases hp
      · have hk : h.bound ≤ k := by simp [k,hx]
        have hvalue : (m.apart k lost).valueAt (.cell c pointer) = (m.apart k lost).valueAt h := heq
        rw [hx,valueAt_apart_inj (below_bound (Nat.zero_le k)) (below_bound hk) hvalue]
    · intro hx ops n hn hhome
      exact hn.home x _ (hhome ▸ hx)

end Exact

end OlaLang.Locals
