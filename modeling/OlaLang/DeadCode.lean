import OlaLang.UseDef
import Mathlib.Data.Finset.Basic
import Mathlib.Data.Finset.Lattice.Lemmas
import Mathlib.Data.Finset.Dedup
import Mathlib.Logic.Relation

/-! Dead code elimination: the worklist over the operands of what has been removed. -/
namespace OlaLang
namespace Codegen
namespace DeadCode

open Relation (ReflTransGen)

abbrev InstructionId := ℕ
abbrev BlockId := ℕ

inductive Opcode
  | Alloca | Phi | Load | Store | InsertValue | ExtractValue
  | Add | Sub | Mul | SDiv | SRem | And | Or | Xor | Shl | AShr | LShr
  | ICmp | Sext | Zext | Bitcast | Trunc | IntToPtr | PtrToInt | GetElementPtr
  | Call | Invoke | LandingPad | Resume | Br | CondBr | Switch | Ret | Unreachable | Invalid
  deriving DecidableEq

def Opcode.isTerminator : Opcode → Bool
  | .Ret | .Br | .CondBr | .Switch | .Invoke | .Resume => true
  | _ => false

def Opcode.doNotEliminate (op : Opcode) : Bool :=
  (op matches .Alloca | .Store | .Call) || op.isTerminator

/-- An operand: the result of an instruction, or an argument or a constant by its number. -/
inductive Value
  | instruction (id : InstructionId) | other (n : ℕ)
  deriving DecidableEq

abbrev Layout := List (BlockId × List InstructionId)

def Layout.insts (blocks : Layout) : List InstructionId := blocks.flatMap (·.2)

/-- The instructions among some operands. -/
def argInsts (args : List Value) : List InstructionId :=
  args.filterMap fun arg => match arg with
    | .instruction i => some i
    | .other _ => none

/-- A function: every instruction is in the layout once, its operands are instructions of the layout,
and the users are exact. -/
structure Function where
  blocks : Layout
  opcode : InstructionId → Opcode
  args : InstructionId → List Value
  users : InstructionId → Finset InstructionId
  nodup : blocks.insts.Nodup
  args_mem : ∀ i ∈ blocks.insts, ∀ j ∈ argInsts (args i), j ∈ blocks.insts
  users_iff : ∀ i j, i ∈ users j ↔ i ∈ blocks.insts ∧ j ∈ argInsts (args i)

namespace Function

def insts (f : Function) : List InstructionId := f.blocks.insts

/-- The operands of an instruction that are instructions. -/
def uses (f : Function) (i : InstructionId) : List InstructionId := argInsts (f.args i)

def eliminable (f : Function) (i : InstructionId) : Bool := !(f.opcode i).doNotEliminate

end Function

/-- What the pass changes. -/
structure State where
  blocks : Layout
  users : InstructionId → Finset InstructionId

/-- Why a run has no result: a failed `unwrap`, or the steps have been used up. -/
inductive Stop
  | panic | fuel
  deriving DecidableEq

variable (f : Function)

/-- `remove_uses`. -/
def removeUses (i : InstructionId) (users : InstructionId → Finset InstructionId) :
    InstructionId → Finset InstructionId :=
  (f.uses i).foldl (fun users j => Function.update users j ((users j).erase i)) users

/-- `remove_inst` with `unwrap`: the layout gives `None` for an instruction that it does not have. -/
def removeInst (i : InstructionId) (s : State) : Except Stop State :=
  if i ∈ s.blocks.insts then .ok {
    blocks := s.blocks.map fun block => (block.1,block.2.filter (· ≠ i))
    users := removeUses f i s.users }
  else .error .panic

/-- `check_if_elimination_possible`. The last elements of the two vectors are the first ones of the
lists. -/
def checkIfEliminationPossible (users : InstructionId → Finset InstructionId) (i : InstructionId)
    (lists : List InstructionId × List InstructionId) : List InstructionId × List InstructionId :=
  if f.eliminable i ∧ users i = ∅ then (i::lists.1,(f.uses i).reverse ++ lists.2) else lists

/-- The loop that empties the elimination list. -/
def eliminate : List InstructionId → State → Except Stop State
  | [], s => .ok s
  | i::rest, s => (removeInst f i s).bind (eliminate rest)

/-- The loop over the worklist. -/
def drain : ℕ → List InstructionId → State → Except Stop State
  | 0, _, _ => .error .fuel
  | _+1, [], s => .ok s
  | fuel+1, i::worklist, s =>
    let (eliminationList,worklist) := checkIfEliminationPossible f s.users i ([],worklist)
    (eliminate f eliminationList s).bind (drain fuel worklist)

/-- The lists after the loop over all instructions. -/
def scan : List InstructionId × List InstructionId :=
  f.insts.foldl (fun lists i => checkIfEliminationPossible f f.users i lists) ([],[])

/-- A bound for the turns of the loop over the worklist. -/
def fuel : ℕ := (f.insts.flatMap f.uses).length+1

def runOnFunction : Except Stop State :=
  (eliminate f (scan f).1 ⟨f.blocks,f.users⟩).bind (drain f (fuel f) (scan f).2)

/-! ### What is to be removed -/

/-- No side effect and no user that has not been removed. -/
def Unused (removed : Finset InstructionId) (i : InstructionId) : Prop :=
  f.eliminable i = true ∧ ∀ u ∈ f.users i, u ∈ removed

/-- An unused instruction without side effects is deleted. -/
def Delete (removed removed' : Finset InstructionId) : Prop :=
  ∃ i ∈ f.insts, Unused f removed i ∧ removed' = insert i removed

/-- Repeated deletion comes to the instruction. -/
def Deletable (i : InstructionId) : Prop := ∃ removed, ReflTransGen (Delete f) ∅ removed ∧ i ∈ removed

/-- The walk that always goes on with the last operand that has not been looked at, and deletes the
instructions that have become unused, comes to none of them again. -/
inductive Clean : List InstructionId → Finset InstructionId → Prop
  | done (removed) : Clean [] removed
  | keep {i rest removed} : ¬ Unused f removed i → Clean rest removed → Clean (i::rest) removed
  | delete {i rest removed} : Unused f removed i → i ∉ removed →
    Clean ((f.uses i).reverse ++ rest) (insert i removed) → Clean (i::rest) removed

/-- The instructions without users and side effects, in the order of the layout. -/
def unused : List InstructionId := f.insts.filter fun i => f.eliminable i && f.users i = ∅

variable {f}

theorem foldl_check (l : List InstructionId) (lists : List InstructionId × List InstructionId) :
    l.foldl (fun lists i => checkIfEliminationPossible f f.users i lists) lists =
      let dead := l.filter fun i => f.eliminable i && f.users i = ∅
      (dead.reverse ++ lists.1,(dead.flatMap f.uses).reverse ++ lists.2) := by
  induction l generalizing lists with
  | nil => rfl
  | cons i l ih =>
    rw [List.foldl_cons,ih]
    by_cases h : f.eliminable i = true ∧ f.users i = ∅
    · simp [checkIfEliminationPossible,h]
    · have hfilter : (f.eliminable i && decide (f.users i = ∅)) = false := by simpa using h
      simp [checkIfEliminationPossible,h,hfilter]

theorem scan_eq : scan f = ((unused f).reverse,((unused f).flatMap f.uses).reverse) := by
  rw [scan,foldl_check]
  simp [unused]

/-! ### One removal -/

theorem mem_foldl_erase {i j k : InstructionId} (l : List InstructionId)
    (users : InstructionId → Finset InstructionId) :
    k ∈ l.foldl (fun users j => Function.update users j ((users j).erase i)) users j ↔
      k ∈ users j ∧ ¬ (k = i ∧ j ∈ l) := by
  induction l generalizing users with
  | nil => simp
  | cons a l ih =>
    rw [List.foldl_cons,ih,List.mem_cons]
    by_cases hj : j = a
    · subst hj
      rw [Function.update_self,Finset.mem_erase]
      tauto
    · rw [Function.update_of_ne hj]
      simp [hj]

/-! ### The users that the operations have kept -/

section Operations

variable {blocks : Layout} {d : UseDef.Data}

/-- The operands of an instruction; what is no instruction keeps the number of its value. -/
def argsOf (d : UseDef.Data) (i : InstructionId) : List Value :=
  (d.instructions i).args.map fun arg => match d.values arg with
    | .instruction j => .instruction j
    | .other => .other arg

theorem argInsts_argsOf (d : UseDef.Data) (i : InstructionId) :
    argInsts (argsOf d i) = d.argInsts i := by
  rw [argInsts,argsOf,List.filterMap_map,UseDef.Data.argInsts]
  refine congrArg (fun g => List.filterMap g _) (funext fun arg => ?_)
  rw [Function.comp_apply]
  cases d.values arg <;> rfl

/-- The function that the operations of the parser and the passes before this one have built. Its users
are the ones that they keep. -/
def Function.ofOps {ops : List UseDef.Op}
    (hops : OperationRuns.Steps UseDef.Op.step UseDef.Op.Performed ops UseDef.new)
    (hrun : OperationRuns.run UseDef.Op.step ops UseDef.new = some d)
    (opcode : InstructionId → Opcode) (hnodup : blocks.insts.Nodup)
    (hlayout : ∀ i, i ∈ blocks.insts ↔ i ∈ d.layout)
    (hargs : ∀ i ∈ d.layout, ∀ j ∈ d.argInsts i, j ∈ d.layout) : Function where
  blocks := blocks
  opcode := opcode
  args := argsOf d
  users := d.users
  nodup := hnodup
  args_mem i hi j hj := by
    rw [argInsts_argsOf] at hj
    exact (hlayout j).mpr (hargs i ((hlayout i).mp hi) j hj)
  users_iff i j := by
    have hexact := OperationRuns.along_iff.mp (UseDef.along_exact ops hops) ops.length d
      (by rwa [List.take_length])
    rw [argInsts_argsOf,hlayout,hexact]

/-- `remove_inst` of the data does to the users what the pass does. -/
theorem removeUses_ofOps {ops : List UseDef.Op}
    (hops : OperationRuns.Steps UseDef.Op.step UseDef.Op.Performed ops UseDef.new)
    (hrun : OperationRuns.run UseDef.Op.step ops UseDef.new = some d)
    (opcode : InstructionId → Opcode) (hnodup : blocks.insts.Nodup)
    (hlayout : ∀ i, i ∈ blocks.insts ↔ i ∈ d.layout)
    (hargs : ∀ i ∈ d.layout, ∀ j ∈ d.argInsts i, j ∈ d.layout) (i : InstructionId) :
    removeUses (Function.ofOps hops hrun opcode hnodup hlayout hargs) i d.users =
      (d.removeInst i).users := by
  funext j
  ext k
  have huses : (Function.ofOps hops hrun opcode hnodup hlayout hargs).uses i = d.argInsts i :=
    argInsts_argsOf d i
  have hremoved : k ∈ (d.removeInst i).users j ↔ k ∈ d.users j ∧ ¬ (k = i ∧ j ∈ d.argInsts i) :=
    UseDef.Data.mem_users_foldl_removeUser
  rw [removeUses,mem_foldl_erase,huses,hremoved]

end Operations

/-- The layout without some instructions. -/
def without (blocks : Layout) (removed : Finset InstructionId) : Layout :=
  blocks.map fun block => (block.1,block.2.filter (· ∉ removed))

theorem mem_without {blocks : Layout} {removed : Finset InstructionId} {i : InstructionId} :
    i ∈ (without blocks removed).insts ↔ i ∈ blocks.insts ∧ i ∉ removed := by
  simp only [without,Layout.insts,List.mem_flatMap,List.mem_map]
  constructor
  · rintro ⟨_,⟨block,hblock,rfl⟩,hi⟩
    obtain ⟨hi,hout⟩ := List.mem_filter.mp hi
    exact ⟨⟨block,hblock,hi⟩,of_decide_eq_true hout⟩
  · rintro ⟨⟨block,hblock,hi⟩,hout⟩
    exact ⟨_,⟨block,hblock,rfl⟩,List.mem_filter.mpr ⟨hi,decide_eq_true hout⟩⟩

/-- The state after the removal of some instructions, all of them by deletions. -/
structure Removed (f : Function) (removed : Finset InstructionId) (s : State) : Prop where
  reach : ReflTransGen (Delete f) ∅ removed
  blocks : s.blocks = without f.blocks removed
  users : ∀ i j, i ∈ s.users j ↔ i ∈ f.users j ∧ i ∉ removed

variable {removed : Finset InstructionId} {s : State} {i j : InstructionId}

theorem Removed.unused_iff (h : Removed f removed s) :
    Unused f removed i ↔ f.eliminable i = true ∧ s.users i = ∅ := by
  refine and_congr_right fun _ => ?_
  rw [Finset.eq_empty_iff_forall_notMem]
  refine forall_congr' fun u => ?_
  rw [h.users u i]
  tauto

theorem Removed.mem_insts (h : Removed f removed s) :
    i ∈ s.blocks.insts ↔ i ∈ f.insts ∧ i ∉ removed := by
  rw [h.blocks]
  exact mem_without

theorem removeInst_ok (h : Removed f removed s) (hi : i ∈ f.insts) (hout : i ∉ removed)
    (hunused : Unused f removed i) :
    ∃ s', removeInst f i s = .ok s' ∧ Removed f (insert i removed) s' := by
  refine ⟨_,if_pos (h.mem_insts.mpr ⟨hi,hout⟩),h.reach.tail ⟨i,hi,hunused,rfl⟩,?_,fun k j => ?_⟩
  · simp only [h.blocks,without,List.map_map]
    refine List.map_congr_left fun block _ => ?_
    simp only [Function.comp_apply,List.filter_filter]
    congr 1
    refine List.filter_congr fun k _ => ?_
    simp [Finset.mem_insert,not_or]
  · rw [removeUses,mem_foldl_erase,h.users k j,Finset.mem_insert]
    constructor
    · rintro ⟨⟨hk,hkr⟩,hnot⟩
      refine ⟨hk,fun hor => hor.elim (fun heq => hnot ⟨heq,?_⟩) hkr⟩
      exact ((f.users_iff k j).mp hk).2 |> (heq ▸ ·)
    · rintro ⟨hk,hnot⟩
      exact ⟨⟨hk,fun h => hnot (.inr h)⟩,fun hand => hnot (.inl hand.1)⟩

theorem removeInst_panic (h : Removed f removed s) (hin : i ∈ removed) :
    removeInst f i s = .error .panic :=
  if_neg fun hmem => (h.mem_insts.mp hmem).2 hin

/-! ### The loops -/

theorem Unused.mono {removed' : Finset InstructionId} (h : Unused f removed i)
    (hsub : removed ⊆ removed') : Unused f removed' i := ⟨h.1,fun u hu => hsub (h.2 u hu)⟩

theorem eliminate_ok {l : List InstructionId} (h : Removed f removed s) (hnodup : l.Nodup)
    (hl : ∀ i ∈ l, i ∈ f.insts ∧ i ∉ removed ∧ Unused f removed i) :
    ∃ s', eliminate f l s = .ok s' ∧ Removed f (removed ∪ l.toFinset) s' := by
  induction l generalizing removed s with
  | nil => exact ⟨s,rfl,by simpa using h⟩
  | cons i l ih =>
    obtain ⟨hi,hout,hunused⟩ := hl i List.mem_cons_self
    obtain ⟨hnot,hnodup⟩ := List.nodup_cons.mp hnodup
    obtain ⟨s₁,hstep,h₁⟩ := removeInst_ok h hi hout hunused
    obtain ⟨s₂,hloop,h₂⟩ := ih h₁ hnodup fun j hj => by
      obtain ⟨hj',hjout,hjunused⟩ := hl j (List.mem_cons_of_mem i hj)
      refine ⟨hj',fun hmem => ?_,hjunused.mono (Finset.subset_insert i removed)⟩
      exact (Finset.mem_insert.mp hmem).elim (fun heq => hnot (heq ▸ hj)) hjout
    refine ⟨s₂,?_,?_⟩
    · rw [eliminate,hstep]
      exact hloop
    · rw [List.toFinset_cons,Finset.union_insert,← Finset.insert_union]
      exact h₂

/-- What has become unused is still to be looked at. -/
def Pending (f : Function) (worklist : List InstructionId) (removed : Finset InstructionId) : Prop :=
  ∀ i ∈ f.insts, i ∉ removed → Unused f removed i → i ∈ worklist

/-- The operands of the instructions that are left. -/
def operandsLeft (f : Function) (removed : Finset InstructionId) : ℕ :=
  ((f.insts.filter (· ∉ removed)).flatMap f.uses).length

theorem operandsLeft_insert (hi : i ∈ f.insts) (hout : i ∉ removed) :
    operandsLeft f removed = (f.uses i).length+operandsLeft f (insert i removed) := by
  have hmem : i ∈ f.insts.filter (· ∉ removed) := List.mem_filter.mpr ⟨hi,decide_eq_true hout⟩
  have hnodup : (f.insts.filter (· ∉ removed)).Nodup := f.nodup.filter _
  have herase : (f.insts.filter (· ∉ removed)).erase i =
      f.insts.filter (· ∉ insert i removed) := by
    rw [hnodup.erase_eq_filter,List.filter_filter]
    refine List.filter_congr fun k _ => ?_
    by_cases hk : k = i <;> simp [hk]
  have hperm := (List.perm_cons_erase hmem).flatMap_right f.uses
  rw [operandsLeft,hperm.length_eq,herase,List.flatMap_cons,List.length_append,operandsLeft]

theorem clean_cons_iff {rest : List InstructionId} : Clean f (i::rest) removed ↔
    ¬ Unused f removed i ∧ Clean f rest removed ∨
      Unused f removed i ∧ i ∉ removed ∧ Clean f ((f.uses i).reverse ++ rest) (insert i removed) := by
  constructor
  · intro h
    cases h with
    | keep hnot hrest => exact .inl ⟨hnot,hrest⟩
    | delete hunused hout hrest => exact .inr ⟨hunused,hout,hrest⟩
  · rintro (⟨hnot,hrest⟩ | ⟨hunused,hout,hrest⟩)
    · exact .keep hnot hrest
    · exact .delete hunused hout hrest

theorem uses_subset (hi : i ∈ f.insts) : f.uses i ⊆ f.insts := f.args_mem i hi

/-- The loop over the worklist ends. It panics exactly when the walk comes to an instruction that has
been removed. -/
theorem drain_spec {fuel : ℕ} {worklist : List InstructionId} (h : Removed f removed s)
    (hpending : Pending f worklist removed) (hwork : worklist ⊆ f.insts)
    (hfuel : worklist.length+operandsLeft f removed < fuel) :
    (Clean f worklist removed ∧ ∃ s' removed', drain f fuel worklist s = .ok s' ∧
      Removed f removed' s' ∧ Pending f [] removed') ∨
    ¬ Clean f worklist removed ∧ drain f fuel worklist s = .error .panic := by
  induction fuel generalizing worklist removed s with
  | zero => exact absurd hfuel (Nat.not_lt_zero _)
  | succ fuel ih =>
    cases worklist with
    | nil => exact .inl ⟨.done removed,s,removed,rfl,h,hpending⟩
    | cons i rest =>
      obtain ⟨hi,hrest⟩ := List.cons_subset.mp hwork
      rw [List.length_cons] at hfuel
      rw [clean_cons_iff]
      by_cases hunused : Unused f removed i
      · have hcheck : checkIfEliminationPossible f s.users i ([],rest) =
            ([i],(f.uses i).reverse ++ rest) := if_pos (h.unused_iff.mp hunused)
        by_cases hin : i ∈ removed
        · refine .inr ⟨by simp [hunused,hin],?_⟩
          rw [drain,hcheck]
          simp only [eliminate,removeInst_panic h hin]
          rfl
        · obtain ⟨s',hstep,h'⟩ := removeInst_ok h hi hin hunused
          have hdrain : drain f (fuel+1) (i::rest) s =
              drain f fuel ((f.uses i).reverse ++ rest) s' := by
            rw [drain,hcheck]
            simp only [eliminate,hstep]
            rfl
          have hpending' : Pending f ((f.uses i).reverse ++ rest) (insert i removed) := by
            intro j hj hout hj'
            rw [Finset.mem_insert,not_or] at hout
            by_cases hlast : i ∈ f.users j
            · have hmem := ((f.users_iff i j).mp hlast).2
              exact List.mem_append_left _ (List.mem_reverse.mpr hmem)
            · have hbefore : Unused f removed j := ⟨hj'.1,fun u hu =>
                (Finset.mem_insert.mp (hj'.2 u hu)).resolve_left fun heq => hlast (heq ▸ hu)⟩
              have hmem := hpending j hj hout.2 hbefore
              exact List.mem_append_right _ ((List.mem_cons.mp hmem).resolve_left hout.1)
          have hsub : (f.uses i).reverse ++ rest ⊆ f.insts := by
            intro j hj
            rcases List.mem_append.mp hj with hj | hj
            · exact uses_subset hi (List.mem_reverse.mp hj)
            · exact hrest hj
          have hlen : ((f.uses i).reverse ++ rest).length+operandsLeft f (insert i removed) <
              fuel := by
            rw [operandsLeft_insert hi hin] at hfuel
            rw [List.length_append,List.length_reverse]
            omega
          rw [hdrain]
          simpa [hunused,hin] using ih h' hpending' hsub hlen
      · have hcheck : checkIfEliminationPossible f s.users i ([],rest) = ([],rest) :=
          if_neg fun hand => hunused (h.unused_iff.mpr hand)
        have hdrain : drain f (fuel+1) (i::rest) s = drain f fuel rest s := by
          rw [drain,hcheck]
          rfl
        have hpending' : Pending f rest removed := fun j hj hout hj' =>
          (List.mem_cons.mp (hpending j hj hout hj')).resolve_left fun heq => hunused (heq ▸ hj')
        rw [hdrain]
        simpa [hunused] using ih h hpending' hrest (by omega)

/-- The operands of the instructions that are unused at first, the last one first. -/
def firstOperands (f : Function) : List InstructionId := ((unused f).flatMap f.uses).reverse

theorem removed_empty (f : Function) : Removed f ∅ ⟨f.blocks,f.users⟩ where
  reach := .refl
  blocks := by simp [without]
  users i j := by simp

theorem unused_spec (removed : Finset InstructionId) (hi : i ∈ unused f) :
    i ∈ f.insts ∧ Unused f removed i := by
  obtain ⟨hi,hunused⟩ := List.mem_filter.mp hi
  simp only [Bool.and_eq_true,decide_eq_true_eq] at hunused
  exact ⟨hi,hunused.1,fun u hu => absurd hu (by simp [hunused.2])⟩

/-- The instructions that are unused at first are all removed. -/
theorem eliminate_unused (f : Function) : ∃ s,
    eliminate f (unused f).reverse ⟨f.blocks,f.users⟩ = .ok s ∧
      Removed f (unused f).toFinset s := by
  have hnodup : (unused f).reverse.Nodup := List.nodup_reverse.mpr (f.nodup.filter _)
  obtain ⟨s,heliminate,h⟩ := eliminate_ok (removed_empty f) hnodup fun i hi =>
    ⟨(unused_spec ∅ (List.mem_reverse.mp hi)).1,Finset.notMem_empty i,
      (unused_spec ∅ (List.mem_reverse.mp hi)).2⟩
  have hset : ∅ ∪ (unused f).reverse.toFinset = (unused f).toFinset := by
    ext i
    simp
  exact ⟨s,heliminate,hset ▸ h⟩

theorem runOnFunction_spec (f : Function) :
    (Clean f (firstOperands f) (unused f).toFinset ∧ ∃ s removed, runOnFunction f = .ok s ∧
      Removed f removed s ∧ Pending f [] removed) ∨
    ¬ Clean f (firstOperands f) (unused f).toFinset ∧ runOnFunction f = .error .panic := by
  obtain ⟨s,heliminate,h⟩ := eliminate_unused f
  have hrun : runOnFunction f = drain f (fuel f) (firstOperands f) s := by
    rw [runOnFunction,scan_eq,heliminate]
    rfl
  have hpending : Pending f (firstOperands f) (unused f).toFinset := by
    intro i hi hout hunused
    have hsome : f.users i ≠ ∅ := fun hnone =>
      hout (List.mem_toFinset.mpr (List.mem_filter.mpr ⟨hi,by simp [hunused.1,hnone]⟩))
    obtain ⟨u,hu⟩ := Finset.nonempty_of_ne_empty hsome
    have hmem := List.mem_toFinset.mp (hunused.2 u hu)
    exact List.mem_reverse.mpr (List.mem_flatMap.mpr ⟨u,hmem,((f.users_iff u i).mp hu).2⟩)
  have hsub : firstOperands f ⊆ f.insts := by
    intro j hj
    obtain ⟨i,hi,hj⟩ := List.mem_flatMap.mp (List.mem_reverse.mp hj)
    exact uses_subset (List.mem_filter.mp hi).1 hj
  have hlen : (firstOperands f).length+operandsLeft f (unused f).toFinset < fuel f := by
    have hrest : f.insts.filter (· ∉ (unused f).toFinset) =
        f.insts.filter fun i => !(f.eliminable i && decide (f.users i = ∅)) := by
      refine List.filter_congr fun i hi => ?_
      simp [unused,hi]
    have hperm := (List.filter_append_perm (fun i => f.eliminable i && decide (f.users i = ∅))
      f.insts).flatMap_right f.uses
    have htotal := hperm.length_eq
    rw [List.flatMap_append,List.length_append] at htotal
    rw [firstOperands,List.length_reverse,operandsLeft,hrest,fuel,unused]
    omega
  rw [hrun]
  exact drain_spec h hpending hsub hlen

/-! ### What is removed -/

/-- What is deleted has no side effects, and all its users are deleted. -/
theorem reach_spec (h : ReflTransGen (Delete f) ∅ removed) (hi : i ∈ removed) :
    i ∈ f.insts ∧ Unused f removed i := by
  induction h with
  | refl => exact absurd hi (Finset.notMem_empty i)
  | @tail r r' _ hstep ih =>
    obtain ⟨j,hj,hunused,rfl⟩ := hstep
    have hsub := Finset.subset_insert j r
    rcases Finset.mem_insert.mp hi with rfl | hi
    · exact ⟨hj,hunused.mono hsub⟩
    · exact ⟨(ih hi).1,(ih hi).2.mono hsub⟩

/-- When nothing is pending, exactly what repeated deletion comes to has been removed. -/
theorem Removed.mem_iff_deletable (h : Removed f removed s) (hpending : Pending f [] removed) :
    i ∈ removed ↔ Deletable f i := by
  constructor
  · exact fun hi => ⟨removed,h.reach,hi⟩
  · rintro ⟨r,hr,hi⟩
    have hsub : r ⊆ removed := by
      clear hi
      induction hr with
      | refl => exact Finset.empty_subset removed
      | tail _ hstep ih =>
        obtain ⟨j,hj,hunused,rfl⟩ := hstep
        refine Finset.insert_subset ?_ ih
        by_contra hout
        exact absurd (hpending j hj hout (hunused.mono ih)) List.not_mem_nil
    exact hsub hi

theorem Removed.operand_out (h : Removed f removed s) (hi : i ∈ f.insts) (hout : i ∉ removed)
    (hj : j ∈ f.uses i) : j ∉ removed := fun hin =>
  hout ((reach_spec h.reach hin).2.2 i ((f.users_iff i j).mpr ⟨hi,hj⟩))

/-! ### Runs of a function -/

abbrev Env (Val : Type) := InstructionId → Val

/-- Where a terminator leads. -/
inductive Exit (Val : Type)
  | goto (block : BlockId) | leave (value : Option Val)

/-- What the instructions of a function do: `other` gives the arguments and the constants, `value` the
result of what only computes or reads, which is a phi's by the block before, `effect` what an
allocation, a store or a call does, and `exit` what a terminator does. What does not come back has no
result. -/
structure Semantics (Val Mem Event : Type) where
  other : ℕ → Val
  value : InstructionId → List Val → Mem → Option BlockId → Val
  effect : InstructionId → List Val → Mem → Option (Val × Mem × List Event)
  exit : InstructionId → List Val → Mem → Option (Val × Mem × List Event × Exit Val)

/-- What can be seen of a run: the events, and the memory and the value at a return. -/
inductive Outcome (Val Mem Event : Type)
  | running (events : List Event) | stopped (events : List Event)
  | returned (value : Option Val) (mem : Mem) (events : List Event)

inductive BlockResult (Val Mem Event : Type)
  | next (block : BlockId) (env : Env Val) (mem : Mem) (events : List Event)
  | finished (outcome : Outcome Val Mem Event)

namespace Semantics

variable {Val Mem Event : Type} (S : Semantics Val Mem Event)

def operand (env : Env Val) : Value → Val
  | .instruction i => env i
  | .other n => S.other n

/-- The phis of a block are computed when it is entered. -/
def enter (f : Function) (insts : List InstructionId) (prev : Option BlockId) (env : Env Val)
    (mem : Mem) : Env Val := fun i =>
  if i ∈ insts ∧ f.opcode i = .Phi then S.value i ((f.args i).map (S.operand env)) mem prev
  else env i

def execInsts (f : Function) (prev : Option BlockId) :
    List InstructionId → Env Val → Mem → List Event → BlockResult Val Mem Event
  | [], _, _, events => .finished (.stopped events)
  | i::rest, env, mem, events =>
    let vals := (f.args i).map (S.operand env)
    if (f.opcode i).isTerminator then
      match S.exit i vals mem with
      | none => .finished (.stopped events)
      | some (v,mem,new,.goto b) => .next b (Function.update env i v) mem (events ++ new)
      | some (_,mem,new,.leave w) => .finished (.returned w mem (events ++ new))
    else if (f.opcode i).doNotEliminate then
      match S.effect i vals mem with
      | none => .finished (.stopped events)
      | some (v,mem,new) => execInsts f prev rest (Function.update env i v) mem (events ++ new)
    else if f.opcode i = .Phi then execInsts f prev rest env mem events
    else execInsts f prev rest (Function.update env i (S.value i vals mem prev)) mem events

/-- So many blocks of a run. -/
def run (f : Function) (blocks : Layout) :
    ℕ → BlockId → Option BlockId → Env Val → Mem → List Event → Outcome Val Mem Event
  | 0, _, _, _, _, events => .running events
  | n+1, b, prev, env, mem, events =>
    match blocks.lookup b with
    | none => .stopped events
    | some insts =>
      match S.execInsts f prev insts (S.enter f insts prev env mem) mem events with
      | .next b' env mem events => run f blocks n b' (some b) env mem events
      | .finished outcome => outcome

end Semantics

/-- The environments give the same values to what has not been removed. -/
def Agree {Val : Type} (removed : Finset InstructionId) (env env' : Env Val) : Prop :=
  ∀ i, i ∉ removed → env i = env' i

/-- The results of a block with and without the removed instructions. -/
inductive Same {Val Mem Event : Type} (removed : Finset InstructionId) :
    BlockResult Val Mem Event → BlockResult Val Mem Event → Prop
  | next (b : BlockId) {env env' : Env Val} (mem : Mem) (events : List Event) :
    Agree removed env env' → Same removed (.next b env mem events) (.next b env' mem events)
  | finished (outcome : Outcome Val Mem Event) : Same removed (.finished outcome) (.finished outcome)

section Runs

variable {Val Mem Event : Type} (S : Semantics Val Mem Event) {env env' : Env Val}

theorem Agree.update (h : Agree removed env env') (i : InstructionId) (v : Val) :
    Agree removed (Function.update env i v) (Function.update env' i v) := by
  intro j hj
  by_cases hji : j = i
  · rw [hji,Function.update_self,Function.update_self]
  · rw [Function.update_of_ne hji,Function.update_of_ne hji]
    exact h j hj

theorem Agree.update_left (h : Agree removed env env') (hi : i ∈ removed) (v : Val) :
    Agree removed (Function.update env i v) env' := by
  intro j hj
  have hji : j ≠ i := fun heq => hj (heq ▸ hi)
  rw [Function.update_of_ne hji]
  exact h j hj

/-- What is left has only operands that are left. -/
theorem map_operand_eq (h : Removed f removed s) (hagree : Agree removed env env') (hi : i ∈ f.insts)
    (hout : i ∉ removed) : (f.args i).map (S.operand env) = (f.args i).map (S.operand env') := by
  refine List.map_congr_left fun arg harg => ?_
  cases arg with
  | other n => rfl
  | instruction j =>
    have hj : j ∈ f.uses i := List.mem_filterMap.mpr ⟨_,harg,rfl⟩
    exact hagree j (h.operand_out hi hout hj)

theorem execInsts_same (h : Removed f removed s) (prev : Option BlockId) {l : List InstructionId}
    (hl : l ⊆ f.insts) (hagree : Agree removed env env') (mem : Mem) (events : List Event) :
    Same removed (S.execInsts f prev l env mem events)
      (S.execInsts f prev (l.filter (· ∉ removed)) env' mem events) := by
  induction l generalizing env env' mem events with
  | nil => exact .finished _
  | cons i l ih =>
    obtain ⟨hi,hl⟩ := List.cons_subset.mp hl
    by_cases hin : i ∈ removed
    · have hfilter : (i::l).filter (· ∉ removed) = l.filter (· ∉ removed) := by simp [hin]
      have heliminable := (reach_spec h.reach hin).2.1
      have hdo : (f.opcode i).doNotEliminate = false := by
        simpa [Function.eliminable] using heliminable
      have hterm : (f.opcode i).isTerminator = false := (Bool.or_eq_false_iff.mp hdo).2
      rw [hfilter,Semantics.execInsts]
      simp only [hterm,hdo,Bool.false_eq_true,if_false]
      split_ifs
      · exact ih hl hagree mem events
      · exact ih hl (hagree.update_left hin _) mem events
    · have hfilter : (i::l).filter (· ∉ removed) = i::l.filter (· ∉ removed) := by simp [hin]
      rw [hfilter,Semantics.execInsts,Semantics.execInsts,map_operand_eq S h hagree hi hin]
      split_ifs
      · split
        · exact .finished _
        · exact .next _ _ _ (hagree.update i _)
        · exact .finished _
      · split
        · exact .finished _
        · exact ih hl (hagree.update i _) _ _
      · exact ih hl hagree mem events
      · exact ih hl (hagree.update i _) mem events

theorem enter_agree (h : Removed f removed s) (prev : Option BlockId) {l : List InstructionId}
    (hl : l ⊆ f.insts) (hagree : Agree removed env env') (mem : Mem) :
    Agree removed (S.enter f l prev env mem)
      (S.enter f (l.filter (· ∉ removed)) prev env' mem) := by
  intro i hout
  have hmem : i ∈ l.filter (· ∉ removed) ↔ i ∈ l := by simp [hout]
  simp only [Semantics.enter,hmem]
  by_cases hphi : i ∈ l ∧ f.opcode i = .Phi
  · rw [if_pos hphi,if_pos hphi,map_operand_eq S h hagree (hl hphi.1) hout]
  · rw [if_neg hphi,if_neg hphi]
    exact hagree i hout

theorem lookup_without (blocks : Layout) (b : BlockId) :
    (without blocks removed).lookup b =
      (blocks.lookup b).map fun l => l.filter (· ∉ removed) := by
  induction blocks with
  | nil => rfl
  | cons block blocks ih =>
    rw [without,List.map_cons,List.lookup_cons,List.lookup_cons]
    cases hb : b == block.1 with
    | true => rfl
    | false => exact ih

theorem mem_of_lookup {blocks : Layout} {b : BlockId} {l : List InstructionId}
    (h : blocks.lookup b = some l) : (b,l) ∈ blocks := by
  induction blocks with
  | nil => exact absurd h (by simp)
  | cons block blocks ih =>
    rw [List.lookup_cons] at h
    cases hb : b == block.1 with
    | true =>
      rw [hb] at h
      have hblock : block = (b,l) := Prod.ext (eq_of_beq hb).symm (Option.some.inj h)
      exact hblock ▸ List.mem_cons_self
    | false =>
      rw [hb] at h
      exact List.mem_cons_of_mem block (ih h)

theorem run_same (h : Removed f removed s) (n : ℕ) (b : BlockId) (prev : Option BlockId)
    (hagree : Agree removed env env') (mem : Mem) (events : List Event) :
    S.run f f.blocks n b prev env mem events = S.run f s.blocks n b prev env' mem events := by
  induction n generalizing b prev env env' mem events with
  | zero => rfl
  | succ n ih =>
    rw [Semantics.run,Semantics.run,h.blocks,lookup_without]
    cases hlookup : f.blocks.lookup b with
    | none => rfl
    | some l =>
      have hl : l ⊆ f.insts := fun i hi =>
        List.mem_flatMap.mpr ⟨(b,l),mem_of_lookup hlookup,hi⟩
      have hsame := execInsts_same S h prev hl (enter_agree S h prev hl hagree mem) mem events
      simp only [Option.map_some]
      revert hsame
      generalize S.execInsts f prev l _ mem events = result
      generalize S.execInsts f prev (l.filter _) _ mem events = result'
      rintro (⟨b',mem,events,hagree⟩ | outcome)
      · simp only [← h.blocks]
        exact ih b' (some b) hagree mem events
      · rfl

end Runs

/-! ### The pass as a whole -/

theorem Removed.not_mem_iff (h : Removed f removed s) (hi : i ∈ f.insts) :
    i ∉ s.blocks.insts ↔ i ∈ removed := by
  rw [h.mem_insts]
  tauto

/-- Exactly what repeated deletion comes to is out of the layout, no operand is out of it, and all
runs are the same. -/
structure Eliminates (f : Function) (s : State) : Prop where
  kept : ∀ i ∈ s.blocks.insts, i ∈ f.insts
  removed : ∀ i ∈ f.insts, i ∉ s.blocks.insts ↔ Deletable f i
  operands : ∀ i ∈ s.blocks.insts, ∀ j ∈ f.uses i, j ∈ s.blocks.insts
  same : ∀ (Val Mem Event : Type) (S : Semantics Val Mem Event) (n : ℕ) (b : BlockId)
    (prev : Option BlockId) (env : Env Val) (mem : Mem) (events : List Event),
    S.run f s.blocks n b prev env mem events = S.run f f.blocks n b prev env mem events

theorem Removed.eliminates (h : Removed f removed s) (hpending : Pending f [] removed) :
    Eliminates f s where
  kept i hi := (h.mem_insts.mp hi).1
  removed i hi := (h.not_mem_iff hi).trans (h.mem_iff_deletable hpending)
  operands i hi j hj := by
    obtain ⟨hi,hout⟩ := h.mem_insts.mp hi
    exact h.mem_insts.mpr ⟨uses_subset hi hj,h.operand_out hi hout hj⟩
  same Val Mem Event S n b prev env mem events :=
    (run_same S h n b prev (fun _ _ => rfl) mem events).symm

theorem eliminates_iff (f : Function) :
    runOnFunction f ≠ .error .fuel ∧
      ((∃ s, runOnFunction f = .ok s ∧ Eliminates f s) ↔
        Clean f (firstOperands f) (unused f).toFinset) := by
  rcases runOnFunction_spec f with ⟨hclean,s,removed,hrun,h,hpending⟩ | ⟨hnot,hrun⟩
  · rw [hrun]
    exact ⟨by simp,iff_of_true ⟨s,rfl,h.eliminates hpending⟩ hclean⟩
  · rw [hrun]
    exact ⟨by simp,iff_of_false (by simp) hnot⟩

/-! ### Instructions that are operands only once -/

/-- What is on the worklist once, and has not been removed. -/
structure OnlyOnce (f : Function) (worklist : List InstructionId) (removed : Finset InstructionId) :
    Prop where
  reach : ReflTransGen (Delete f) ∅ removed
  nodup : worklist.Nodup
  operand : ∀ j ∈ worklist, j ∉ removed ∧ ∃ u ∈ removed, j ∈ f.uses u

/-- The operands of what can be deleted are all different. -/
structure MentionedOnce (f : Function) : Prop where
  nodup : ∀ i, Deletable f i → (f.uses i).Nodup
  disjoint : ∀ i j, Deletable f i → Deletable f j → i ≠ j → (f.uses i).Disjoint (f.uses j)

theorem OnlyOnce.delete {rest : List InstructionId} (hf : MentionedOnce f)
    (h : OnlyOnce f (i::rest) removed) (hi : i ∈ f.insts) (hunused : Unused f removed i) :
    OnlyOnce f ((f.uses i).reverse ++ rest) (insert i removed) := by
  have hout := (h.operand i List.mem_cons_self).1
  obtain ⟨hnot,hnodup⟩ := List.nodup_cons.mp h.nodup
  have hreach : ReflTransGen (Delete f) ∅ (insert i removed) := h.reach.tail ⟨i,hi,hunused,rfl⟩
  have hdeletable : ∀ j ∈ insert i removed, Deletable f j := fun j hj => ⟨_,hreach,hj⟩
  have hi' := hdeletable i (Finset.mem_insert_self i removed)
  have hnew : ∀ j ∈ f.uses i, j ∉ insert i removed := by
    intro j hj hmem
    have huser : i ∈ f.users j := (f.users_iff i j).mpr ⟨hi,hj⟩
    rcases Finset.mem_insert.mp hmem with rfl | hmem
    · exact hout (hunused.2 j huser)
    · exact hout ((reach_spec h.reach hmem).2.2 i huser)
  refine ⟨hreach,?_,fun j hj => ?_⟩
  · refine List.nodup_append'.mpr ⟨List.nodup_reverse.mpr (hf.nodup i hi'),hnodup,?_⟩
    intro j hj hrest
    obtain ⟨u,hu,hju⟩ := (h.operand j (List.mem_cons_of_mem i hrest)).2
    have hne : i ≠ u := fun heq => hout (heq ▸ hu)
    exact hf.disjoint i u hi' (hdeletable u (Finset.mem_insert_of_mem hu)) hne
      (List.mem_reverse.mp hj) hju
  · rcases List.mem_append.mp hj with hj | hj
    · have hj := List.mem_reverse.mp hj
      exact ⟨hnew j hj,i,Finset.mem_insert_self i removed,hj⟩
    · obtain ⟨hjout,u,hu,hju⟩ := h.operand j (List.mem_cons_of_mem i hj)
      have hne : j ≠ i := fun heq => hnot (heq ▸ hj)
      exact ⟨by simp [hne,hjout],u,Finset.mem_insert_of_mem hu,hju⟩

theorem OnlyOnce.clean {worklist : List InstructionId} (hf : MentionedOnce f)
    (h : OnlyOnce f worklist removed) : Clean f worklist removed := by
  induction hn : worklist.length+operandsLeft f removed using Nat.strong_induction_on
    generalizing worklist removed with
  | _ n ih =>
    cases worklist with
    | nil => exact .done removed
    | cons i rest =>
      obtain ⟨hout,u,hu,hiu⟩ := h.operand i List.mem_cons_self
      have hi : i ∈ f.insts := uses_subset (reach_spec h.reach hu).1 hiu
      rw [List.length_cons] at hn
      by_cases hunused : Unused f removed i
      · have hlen : ((f.uses i).reverse ++ rest).length+operandsLeft f (insert i removed) < n := by
          rw [operandsLeft_insert hi hout] at hn
          rw [List.length_append,List.length_reverse]
          omega
        exact .delete hunused hout (ih _ hlen (h.delete hf hi hunused) rfl)
      · have hrest : OnlyOnce f rest removed := ⟨h.reach,(List.nodup_cons.mp h.nodup).2,
          fun j hj => h.operand j (List.mem_cons_of_mem i hj)⟩
        exact .keep hunused (ih _ (by omega) hrest rfl)

theorem onlyOnce_first (hf : MentionedOnce f) :
    OnlyOnce f (firstOperands f) (unused f).toFinset := by
  obtain ⟨s,_,h⟩ := eliminate_unused f
  have hdeletable : ∀ i ∈ unused f, Deletable f i := fun i hi =>
    ⟨_,h.reach,List.mem_toFinset.mpr hi⟩
  refine ⟨h.reach,List.nodup_reverse.mpr (List.nodup_flatMap.mpr ⟨?_,?_⟩),fun j hj => ?_⟩
  · exact fun i hi => hf.nodup i (hdeletable i hi)
  · refine (f.nodup.filter _).imp_of_mem fun hi hj hne => ?_
    exact hf.disjoint _ _ (hdeletable _ hi) (hdeletable _ hj) hne
  · obtain ⟨u,hu,hj⟩ := List.mem_flatMap.mp (List.mem_reverse.mp hj)
    refine ⟨fun hmem => ?_,u,List.mem_toFinset.mpr hu,hj⟩
    obtain ⟨_,hnone⟩ := List.mem_filter.mp (List.mem_toFinset.mp hmem)
    have huser : u ∈ f.users j := (f.users_iff u j).mpr ⟨(List.mem_filter.mp hu).1,hj⟩
    simp only [Bool.and_eq_true,decide_eq_true_eq] at hnone
    exact absurd (hnone.2 ▸ huser) (Finset.notMem_empty u)

/-- When the operands of what can be deleted are all different, the pass does what is meant. -/
theorem eliminates_of_mentionedOnce (hf : MentionedOnce f) :
    ∃ s, runOnFunction f = .ok s ∧ Eliminates f s := by
  rcases runOnFunction_spec f with ⟨_,s,removed,hrun,h,hpending⟩ | ⟨hnot,_⟩
  · exact ⟨s,hrun,h.eliminates hpending⟩
  · exact absurd ((onlyOnce_first hf).clean hf) hnot

/-! ### An unused addition of a value to itself -/

/-- A load, an addition of its value to itself that nothing uses, and a return. -/
def doubled : Function where
  blocks := [(0,[0,1,2])]
  opcode i := if i = 0 then .Load else if i = 1 then .Add else .Ret
  args i := if i = 1 then [.instruction 0,.instruction 0] else [.other 0]
  users j := if j = 0 then {1} else ∅
  nodup := by decide
  args_mem i hi j hj := by
    by_cases h : i = 1 <;> simp_all [argInsts,Layout.insts]
  users_iff i j := by
    by_cases h : i = 1 <;> by_cases h' : j = 0 <;> simp_all [argInsts,Layout.insts]

/-- Both operands of the addition are the load, which is removed for the first one. -/
theorem doubled_panics : ¬ ∀ f : Function, runOnFunction f ≠ .error .fuel ∧
    ∃ s, runOnFunction f = .ok s ∧ Eliminates f s := by
  intro h
  obtain ⟨_,s,hrun,_⟩ := h doubled
  have hpanic : runOnFunction doubled = .error .panic := by rfl
  rw [hpanic] at hrun
  exact absurd hrun (by simp)

end DeadCode
end Codegen
end OlaLang
