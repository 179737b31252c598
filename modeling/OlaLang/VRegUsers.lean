import OlaLang.UseDef
import OlaLang.Regalloc
import OlaLang.CompareLowering
import Mathlib.Data.Finset.Basic

/-! The users of the virtual registers of a machine function: which operations of the lowering and
the passes keep them the inverse of the operands of the instructions in the layout. -/
namespace OlaLang
namespace Codegen

/-- `rewrite`, on the operands. -/
def InstructionData.rewrite (vreg : VReg) (reg : Reg) (inst : InstructionData) : InstructionData :=
  { inst with operands := inst.operands.map fun op =>
      if op.data = .vreg vreg then { op with data := .reg reg } else op }

namespace VRegUsers

open OperationRuns
open Spiller (VRegUser)
open Regalloc (allVregsOf)
open ProgramPoints (InstId)

/-- A machine function: its instructions, its registers with their users, and the instructions that
are in the layout. -/
structure Function where
  insts : InstId → InstructionData
  nextInst : ℕ
  nextVReg : ℕ
  users : VReg → List VRegUser
  layout : Finset InstId

def new : Function := ⟨fun _ => ⟨.Phi,[]⟩,0,0,fun _ => [],∅⟩

/-- The registers `create_inst` looks at: those of the inputs and of the outputs. -/
def flagged (inst : InstructionData) (v : VReg) : Prop := v ∈ inst.inputVregs ∨ v ∈ inst.outputVregs

instance (inst : InstructionData) (v : VReg) : Decidable (flagged inst v) :=
  inferInstanceAs (Decidable (_ ∨ _))

namespace Function

def addVreg (f : Function) : Function := { f with nextVReg := f.nextVReg+1 }

/-- `create_inst`. -/
def createInst (inst : InstructionData) (f : Function) : Function :=
  let user v : VRegUser :=
    ⟨f.nextInst,decide (v ∈ inst.inputVregs),decide (v ∈ inst.outputVregs)⟩
  { f with
    insts := Function.update f.insts f.nextInst inst
    nextInst := f.nextInst+1
    users := fun v => if flagged inst v then f.users v ++ [user v] else f.users v }

/-- `append_inst` or an insertion: the instruction is in the layout. -/
def place (i : InstId) (f : Function) : Function := { f with layout := insert i f.layout }

/-- `replace_vreg`, with the unwrapped result of `remove_use`. -/
def replaceVreg (i : InstId) (source target : VReg) (f : Function) : Option Function :=
  ((f.users source).find? (·.inst = i)).map fun user =>
    { f with
      insts := Function.update f.insts i ((f.insts i).replaceVreg source target)
      users := Function.update
        (Function.update f.users source ((f.users source).eraseP (·.inst = i)))
        target (f.users target ++ [user]) }

def rewrite (i : InstId) (vreg : VReg) (reg : Reg) (f : Function) : Function :=
  { f with insts := Function.update f.insts i ((f.insts i).rewrite vreg reg) }

/-- `Function::remove_inst`, which leaves the users as they are. -/
def removeInst (i : InstId) (f : Function) : Function := { f with layout := f.layout.erase i }

end Function

/-- The operations of the lowering and the passes. What is created goes into the layout at once, but
for an instruction that the spiller puts behind the last one of its block, and a register is replaced
by one that `create_from` has just made. -/
inductive Op
  | addVreg
  | createInst (inst : InstructionData) (placed : Bool)
  | replaceVreg (i : InstId) (source : VReg)
  | rewrite (i : InstId) (vreg : VReg) (reg : Reg)
  | removeInst (i : InstId)

namespace Op

def step : Op → Function → Option Function
  | addVreg, f => some f.addVreg
  | createInst inst placed, f =>
    some (if placed then (f.createInst inst).place f.nextInst else f.createInst inst)
  | replaceVreg i source, f => f.addVreg.replaceVreg i source f.nextVReg
  | rewrite i vreg reg, f => some (f.rewrite i vreg reg)
  | removeInst i, f => some (f.removeInst i)

/-- What holds where the operations are called: instructions name existing registers, a register is
replaced in one of its users, and what is rewritten or removed is in the layout. -/
def Performed : Op → Function → Prop
  | addVreg, _ => True
  | createInst inst _, f => ∀ v ∈ allVregsOf inst, v < f.nextVReg
  | replaceVreg i source, f => ∃ user ∈ f.users source, user.inst = i
  | rewrite i _ _, f => i ∈ f.layout
  | removeInst i, f => i ∈ f.layout

/-- The condition: the registers of a new instruction in the layout are all inputs or outputs, one
that stays outside has none, only registers that the instruction does not name are rewritten, and
only instructions without registers are removed. -/
def Keeps : Op → Function → Prop
  | addVreg, _ => True
  | createInst inst placed, _ => ∀ v ∈ allVregsOf inst, flagged inst v ↔ placed = true
  | replaceVreg _ _, _ => True
  | rewrite i vreg _, f => vreg ∉ allVregsOf (f.insts i)
  | removeInst i, f => allVregsOf (f.insts i) = []

end Op

/-- Instruction `i` is listed as a user of `v`. -/
def Listed (f : Function) (v : VReg) (i : InstId) : Prop := ∃ user ∈ f.users v, user.inst = i

/-- An instruction is listed as a user of `v` exactly when it is in the layout and `v` is one of its
operands. -/
def Exact (f : Function) : Prop := ∀ v i, Listed f v i ↔ i ∈ f.layout ∧ v ∈ allVregsOf (f.insts i)

/-- What all operations keep: names are those of existing instructions and registers, and no
instruction is listed twice for a register. -/
structure WellFormed (f : Function) : Prop where
  layout_lt : ∀ i ∈ f.layout, i < f.nextInst
  vregs_lt : ∀ i < f.nextInst, ∀ v ∈ allVregsOf (f.insts i), v < f.nextVReg
  listed_lt : ∀ v i, Listed f v i → i < f.nextInst ∧ v < f.nextVReg
  nodup : ∀ v, ((f.users v).map (·.inst)).Nodup

/-! ### Operands -/

theorem mem_allVregsOf {inst : InstructionData} {v : VReg} :
    v ∈ allVregsOf inst ↔ ∃ op ∈ inst.operands, op.data = .vreg v := by
  rw [allVregsOf,List.mem_filterMap]
  refine exists_congr fun op => and_congr_right fun _ => ?_
  cases op.data <;> simp [OperandData.asVReg?]

theorem mem_allVregsOf_of_flagged {inst : InstructionData} {v : VReg} (h : flagged inst v) :
    v ∈ allVregsOf inst := by
  rcases h with h | h
  · obtain ⟨op,hop,hv⟩ := List.mem_filterMap.mp h
    refine List.mem_filterMap.mpr ⟨op,hop,?_⟩
    cases hin : op.input <;> simp_all
  · obtain ⟨op,hop,hv⟩ := List.mem_filterMap.mp h
    refine List.mem_filterMap.mpr ⟨op,hop,?_⟩
    cases hout : op.output <;> simp_all

/-- Every operand that is register `v` gets the data `new`. -/
theorem mem_allVregsOf_map {inst : InstructionData} {v w : VReg} (new : OperandData)
    {inst' : InstructionData} (hinst : inst'.operands = inst.operands.map fun op =>
      if op.data = .vreg v then { op with data := new } else op) :
    w ∈ allVregsOf inst' ↔ w ∈ allVregsOf inst ∧ w ≠ v ∨ v ∈ allVregsOf inst ∧ new = .vreg w := by
  rw [mem_allVregsOf,mem_allVregsOf,mem_allVregsOf,hinst]
  constructor
  · rintro ⟨_,hmem,hw⟩
    obtain ⟨op,hop,rfl⟩ := List.mem_map.mp hmem
    by_cases hv : op.data = .vreg v
    · rw [if_pos hv] at hw
      exact .inr ⟨⟨op,hop,hv⟩,hw⟩
    · rw [if_neg hv] at hw
      exact .inl ⟨⟨op,hop,hw⟩,fun h => hv (h ▸ hw)⟩
  · rintro (⟨⟨op,hop,hw⟩,hne⟩ | ⟨⟨op,hop,hv⟩,hw⟩)
    · have hv : op.data ≠ .vreg v := fun hv => hne (OperandData.vreg.inj (hw.symm.trans hv))
      refine ⟨op,List.mem_map.mpr ⟨op,hop,?_⟩,hw⟩
      rw [if_neg hv]
    · refine ⟨{ op with data := new },List.mem_map.mpr ⟨op,hop,?_⟩,hw⟩
      rw [if_pos hv]

theorem mem_allVregsOf_replaceVreg {inst : InstructionData} {source target w : VReg} :
    w ∈ allVregsOf (inst.replaceVreg source target) ↔
      w ∈ allVregsOf inst ∧ w ≠ source ∨ source ∈ allVregsOf inst ∧ w = target := by
  rw [mem_allVregsOf_map (.vreg target) rfl,OperandData.vreg.injEq,eq_comm (a := target)]

theorem mem_allVregsOf_rewrite {inst : InstructionData} {v w : VReg} {reg : Reg} :
    w ∈ allVregsOf (inst.rewrite v reg) ↔ w ∈ allVregsOf inst ∧ w ≠ v := by
  rw [mem_allVregsOf_map (.reg reg) rfl]
  simp

/-! ### The users after each operation -/

section Users

variable {f : Function} {i j : InstId} {v w : VReg}

theorem listed_createInst (inst : InstructionData) :
    Listed (f.createInst inst) v i ↔ Listed f v i ∨ i = f.nextInst ∧ flagged inst v := by
  by_cases hv : flagged inst v
  · simp [Listed,Function.createInst,hv,or_and_right,exists_or,eq_comm]
  · simp [Listed,Function.createInst,hv]

/-- In a list without two entries of one instruction, `position` and `remove` leave no entry of it. -/
theorem exists_mem_eraseP {users : List VRegUser} (h : (users.map (·.inst)).Nodup) :
    (∃ user ∈ users.eraseP (·.inst = i),user.inst = j) ↔ j ≠ i ∧ ∃ user ∈ users,user.inst = j := by
  induction users with
  | nil => simp
  | cons user users ih =>
    obtain ⟨hnot,hrest⟩ := List.nodup_cons.mp h
    have hout : ∀ u ∈ users, u.inst ≠ user.inst := fun u hu heq =>
      hnot (List.mem_map.mpr ⟨u,hu,heq⟩)
    by_cases hi : user.inst = i
    · rw [List.eraseP_cons_of_pos (by simpa using hi)]
      constructor
      · rintro ⟨u,hu,rfl⟩
        exact ⟨hi ▸ hout u hu,u,List.mem_cons_of_mem user hu,rfl⟩
      · rintro ⟨hne,u,hu,rfl⟩
        rcases List.mem_cons.mp hu with rfl | hu
        · exact absurd hi hne
        · exact ⟨u,hu,rfl⟩
    · rw [List.eraseP_cons_of_neg (by simpa using hi)]
      simp only [List.exists_mem_cons_iff,ih hrest]
      constructor
      · rintro (rfl | h)
        · exact ⟨hi,.inl rfl⟩
        · exact ⟨h.1,.inr h.2⟩
      · rintro ⟨hne,h⟩
        exact h.imp id fun h => ⟨hne,h⟩

theorem listed_replaceVreg {source target : VReg} {f' : Function} (hne : source ≠ target)
    (hnodup : ((f.users source).map (·.inst)).Nodup)
    (hrun : f.replaceVreg i source target = some f') :
    Listed f' v j ↔ if v = target then Listed f target j ∨ j = i
      else if v = source then j ≠ i ∧ Listed f source j else Listed f v j := by
  obtain ⟨user,hfind,hf'⟩ := Option.map_eq_some_iff.mp hrun
  have huser : user.inst = i := by simpa using List.find?_some hfind
  subst hf'
  by_cases hvt : v = target
  · subst hvt
    simp [Listed,or_and_right,exists_or,huser,eq_comm]
  · by_cases hvs : v = source
    · subst hvs
      simp only [Listed,Function.update_of_ne hvt,Function.update_self,if_neg hvt,if_true]
      exact exists_mem_eraseP hnodup
    · simp [Listed,hvt,hvs]

end Users

/-! ### What every operation keeps -/

section Kept

variable {f f' : Function} {i : InstId}

/-- The operands of instruction `i` become those of `inst`, and the users stay or `i` stays one. -/
theorem vregs_lt_update (hf : WellFormed f) {inst : InstructionData} {n m : ℕ}
    (hn : ∀ j < n, j = i ∨ j < f.nextInst) (hm : f.nextVReg ≤ m)
    (hinst : ∀ v ∈ allVregsOf inst, v < m) :
    ∀ j < n, ∀ v ∈ allVregsOf (Function.update f.insts i inst j), v < m := by
  intro j hj v hv
  by_cases hji : j = i
  · rw [hji,Function.update_self] at hv
    exact hinst v hv
  · rw [Function.update_of_ne hji] at hv
    exact lt_of_lt_of_le (hf.vregs_lt j ((hn j hj).resolve_left hji) v hv) hm

theorem createInst_wellFormed (hf : WellFormed f) {inst : InstructionData}
    (hinst : ∀ v ∈ allVregsOf inst, v < f.nextVReg) : WellFormed (f.createInst inst) where
  layout_lt j hj := (hf.layout_lt j hj).trans (Nat.lt_succ_self _)
  vregs_lt := vregs_lt_update hf (fun _ hj => (Nat.lt_succ_iff_lt_or_eq.mp hj).symm) (le_refl _) hinst
  listed_lt v j hlisted := by
    rcases (listed_createInst inst).mp hlisted with h | ⟨rfl,hv⟩
    · exact ⟨(hf.listed_lt v j h).1.trans (Nat.lt_succ_self _),(hf.listed_lt v j h).2⟩
    · exact ⟨Nat.lt_succ_self _,hinst v (mem_allVregsOf_of_flagged hv)⟩
  nodup v := by
    by_cases hv : flagged inst v
    · simp only [Function.createInst,if_pos hv,List.map_append,List.map_cons,List.map_nil]
      refine List.Nodup.append (hf.nodup v) (List.nodup_singleton _) ?_
      intro j hj hj'
      obtain ⟨user,huser,rfl⟩ := List.mem_map.mp hj
      have hlt := (hf.listed_lt v user.inst ⟨user,huser,rfl⟩).1
      exact absurd (List.mem_singleton.mp hj') (Nat.ne_of_lt hlt)
    · simp only [Function.createInst,if_neg hv]
      exact hf.nodup v

/-- The register that `create_from` makes has no users. -/
theorem users_next (hf : WellFormed f) : f.users f.nextVReg = [] := by
  refine List.eq_nil_iff_forall_not_mem.mpr fun user huser => ?_
  exact absurd (hf.listed_lt f.nextVReg user.inst ⟨user,huser,rfl⟩).2 (Nat.lt_irrefl _)

/-- An instruction gets a new register for one of those it is listed for. -/
theorem listed_replaceVreg_next (hf : WellFormed f) {source : VReg}
    (hrun : f.addVreg.replaceVreg i source f.nextVReg = some f') :
    Listed f source i ∧ ∀ v j, Listed f' v j ↔ if v = f.nextVReg then j = i
      else if v = source then j ≠ i ∧ Listed f source j else Listed f v j := by
  obtain ⟨user,hfind,-⟩ := Option.map_eq_some_iff.mp hrun
  have hi : Listed f source i := ⟨user,List.mem_of_find?_eq_some hfind,
    by simpa using List.find?_some hfind⟩
  refine ⟨hi,fun v j => ?_⟩
  have hne : source ≠ f.nextVReg := Nat.ne_of_lt (hf.listed_lt source i hi).2
  have hnone : ¬ Listed f.addVreg f.nextVReg j := fun hj =>
    absurd (hf.listed_lt f.nextVReg j hj).2 (Nat.lt_irrefl _)
  have hnodup : ((f.addVreg.users source).map (·.inst)).Nodup := hf.nodup source
  rw [listed_replaceVreg hne hnodup hrun]
  simp only [hnone,false_or]
  rfl

theorem replaceVreg_wellFormed (hf : WellFormed f) {source : VReg}
    (hrun : f.addVreg.replaceVreg i source f.nextVReg = some f') : WellFormed f' := by
  obtain ⟨hi,hlisted⟩ := listed_replaceVreg_next hf hrun
  obtain ⟨hilt,hslt⟩ := hf.listed_lt source i hi
  obtain ⟨user,-,rfl⟩ := Option.map_eq_some_iff.mp hrun
  constructor
  · exact hf.layout_lt
  · refine vregs_lt_update hf (fun j hj => .inr hj) (Nat.le_succ _) fun v hv => ?_
    rcases mem_allVregsOf_replaceVreg.mp hv with ⟨hv,-⟩ | ⟨-,hv⟩
    · exact (hf.vregs_lt i hilt v hv).trans (Nat.lt_succ_self _)
    · rw [hv]
      exact Nat.lt_succ_self f.nextVReg
  · intro v j hj
    have hj := (hlisted v j).mp hj
    by_cases hv : v = f.nextVReg
    · rw [if_pos hv] at hj
      refine ⟨hj ▸ hilt,?_⟩
      rw [hv]
      exact Nat.lt_succ_self f.nextVReg
    · rw [if_neg hv] at hj
      by_cases hvs : v = source
      · rw [if_pos hvs] at hj
        exact ⟨(hf.listed_lt source j hj.2).1,hvs ▸ hslt.trans (Nat.lt_succ_self _)⟩
      · rw [if_neg hvs] at hj
        exact ⟨(hf.listed_lt v j hj).1,(hf.listed_lt v j hj).2.trans (Nat.lt_succ_self _)⟩
  · intro v
    by_cases hv : v = f.nextVReg
    · subst hv
      have hnil : f.addVreg.users f.nextVReg = [] := users_next hf
      simp [hnil]
    · by_cases hvs : v = source
      · subst hvs
        simp only [Function.update_of_ne hv,Function.update_self]
        exact (hf.nodup v).sublist ((List.eraseP_sublist).map _)
      · simp only [Function.update_of_ne hv,Function.update_of_ne hvs]
        exact hf.nodup v

theorem rewrite_wellFormed (hf : WellFormed f) (hi : i ∈ f.layout) (v : VReg) (reg : Reg) :
    WellFormed (f.rewrite i v reg) where
  layout_lt := hf.layout_lt
  vregs_lt := vregs_lt_update hf (fun _ hj => .inr hj) (le_refl _) fun w hw =>
    hf.vregs_lt i (hf.layout_lt i hi) w (mem_allVregsOf_rewrite.mp hw).1
  listed_lt := hf.listed_lt
  nodup := hf.nodup

theorem Op.step_wellFormed {op : Op} (hf : WellFormed f) (hop : op.Performed f)
    (hrun : op.step f = some f') : WellFormed f' := by
  cases op with
  | addVreg =>
    cases hrun
    exact ⟨hf.layout_lt,fun j hj v hv => (hf.vregs_lt j hj v hv).trans (Nat.lt_succ_self _),
      fun v j h => ⟨(hf.listed_lt v j h).1,(hf.listed_lt v j h).2.trans (Nat.lt_succ_self _)⟩,
      hf.nodup⟩
  | createInst inst placed =>
    have hnew := createInst_wellFormed hf hop
    cases placed with
    | false =>
      cases hrun
      exact hnew
    | true =>
      cases hrun
      refine ⟨fun j hj => ?_,hnew.vregs_lt,hnew.listed_lt,hnew.nodup⟩
      rcases Finset.mem_insert.mp hj with rfl | hj
      · exact Nat.lt_succ_self _
      · exact hnew.layout_lt j hj
  | replaceVreg i source => exact replaceVreg_wellFormed hf hrun
  | rewrite i v reg =>
    cases hrun
    exact rewrite_wellFormed hf hop v reg
  | removeInst i =>
    cases hrun
    exact ⟨fun j hj => hf.layout_lt j (Finset.mem_of_mem_erase hj),hf.vregs_lt,hf.listed_lt,
      hf.nodup⟩

end Kept

/-! ### Which operations keep the users exact -/

section Exact

variable {f f' : Function} {i : InstId}

theorem createInst_exact_iff (hf : WellFormed f) (hex : Exact f) (inst : InstructionData)
    (placed : Bool) :
    Exact (if placed then (f.createInst inst).place f.nextInst else f.createInst inst) ↔
      ∀ v ∈ allVregsOf inst, flagged inst v ↔ placed = true := by
  have hlisted : ∀ v j, Listed (if placed then (f.createInst inst).place f.nextInst
      else f.createInst inst) v j ↔ Listed f v j ∨ j = f.nextInst ∧ flagged inst v := fun v j => by
    rw [← listed_createInst inst]
    cases placed <;> rfl
  have hlayout : ∀ j, j ∈ (if placed then (f.createInst inst).place f.nextInst
      else f.createInst inst).layout ↔ j ∈ f.layout ∨ j = f.nextInst ∧ placed = true := fun j => by
    cases placed with
    | false => simp [Function.createInst]
    | true => simp [Function.createInst,Function.place,or_comm]
  have hinsts : (if placed then (f.createInst inst).place f.nextInst
      else f.createInst inst).insts = Function.update f.insts f.nextInst inst := by
    cases placed <;> rfl
  have hnew : ∀ v, ¬ Listed f v f.nextInst := fun v h =>
    absurd (hf.listed_lt v _ h).1 (Nat.lt_irrefl _)
  have hout : f.nextInst ∉ f.layout := fun h => absurd (hf.layout_lt _ h) (Nat.lt_irrefl _)
  constructor
  · intro h v hv
    have hv' := h v f.nextInst
    rw [hlisted,hlayout,hinsts,Function.update_self] at hv'
    simpa [hnew v,hout,hv] using hv'
  · intro h v j
    rw [hlisted,hlayout,hinsts]
    by_cases hj : j = f.nextInst
    · subst hj
      rw [Function.update_self]
      simp only [hnew v,hout,true_and,false_or]
      constructor
      · exact fun hv => ⟨(h v (mem_allVregsOf_of_flagged hv)).mp hv,mem_allVregsOf_of_flagged hv⟩
      · exact fun hv => (h v hv.2).mpr hv.1
    · rw [Function.update_of_ne hj]
      simp only [hj,false_and,or_false]
      exact hex v j

theorem replaceVreg_exact (hf : WellFormed f) (hex : Exact f) {source : VReg}
    (hrun : f.addVreg.replaceVreg i source f.nextVReg = some f') : Exact f' := by
  obtain ⟨hi,hlisted⟩ := listed_replaceVreg_next hf hrun
  obtain ⟨hin,hsource⟩ := (hex source i).mp hi
  have hslt := (hf.listed_lt source i hi).2
  obtain ⟨user,-,hf'⟩ := Option.map_eq_some_iff.mp hrun
  have hlayout : f'.layout = f.layout := by rw [← hf']; rfl
  have hinsts : f'.insts = Function.update f.insts i
      ((f.insts i).replaceVreg source f.nextVReg) := by rw [← hf']; rfl
  have hfresh : ∀ j ∈ f.layout, f.nextVReg ∉ allVregsOf (f.insts j) := fun j hj hv =>
    absurd (hf.vregs_lt j (hf.layout_lt j hj) _ hv) (Nat.lt_irrefl _)
  intro v j
  rw [hlisted,hlayout,hinsts]
  by_cases hj : j = i
  · subst hj
    rw [Function.update_self,mem_allVregsOf_replaceVreg]
    by_cases hv : v = f.nextVReg
    · simp [hv,hin,hsource]
    · by_cases hvs : v = source
      · subst hvs
        simp [hv]
      · simp [hv,hvs,hin,hex v j]
  · rw [Function.update_of_ne hj]
    by_cases hv : v = f.nextVReg
    · subst hv
      simp only [if_true,hj,false_iff,not_and]
      exact hfresh j
    · rw [if_neg hv,← hex v j]
      by_cases hvs : v = source
      · rw [if_pos hvs,hvs]
        exact and_iff_right hj
      · rw [if_neg hvs]

theorem rewrite_exact_iff (hex : Exact f) (hi : i ∈ f.layout) (v : VReg) (reg : Reg) :
    Exact (f.rewrite i v reg) ↔ v ∉ allVregsOf (f.insts i) := by
  have hlisted : ∀ w j, Listed (f.rewrite i v reg) w j ↔ Listed f w j := fun _ _ => Iff.rfl
  have hself : (f.rewrite i v reg).insts i = (f.insts i).rewrite v reg := Function.update_self _ _ _
  constructor
  · intro h hv
    have hnow := (h v i).mp ((hex v i).mpr ⟨hi,hv⟩)
    rw [hself,mem_allVregsOf_rewrite] at hnow
    exact hnow.2.2 rfl
  · intro hv w j
    rw [hlisted,hex w j]
    by_cases hj : j = i
    · subst hj
      rw [hself,mem_allVregsOf_rewrite]
      refine and_congr_right fun _ => ⟨fun hw => ⟨hw,fun heq => hv (heq ▸ hw)⟩,fun hw => hw.1⟩
    · have hother : (f.rewrite i v reg).insts j = f.insts j := Function.update_of_ne hj _ _
      rw [hother]
      rfl

theorem removeInst_exact_iff (hex : Exact f) (hi : i ∈ f.layout) :
    Exact (f.removeInst i) ↔ allVregsOf (f.insts i) = [] := by
  have hlisted : ∀ w j, Listed (f.removeInst i) w j ↔ Listed f w j := fun _ _ => Iff.rfl
  constructor
  · intro h
    refine List.eq_nil_iff_forall_not_mem.mpr fun v hv => ?_
    have hnow := ((h v i).mp ((hex v i).mpr ⟨hi,hv⟩)).1
    exact absurd rfl (Finset.mem_erase.mp hnow).1
  · intro hnil w j
    rw [hlisted,hex w j]
    have hother : (f.removeInst i).insts = f.insts := rfl
    rw [hother,Function.removeInst,Finset.mem_erase]
    by_cases hj : j = i
    · simp [hj,hnil]
    · simp [hj]

theorem Op.exact_iff {op : Op} (hf : WellFormed f) (hex : Exact f) (hop : op.Performed f)
    (hrun : op.step f = some f') : Exact f' ↔ op.Keeps f := by
  cases op with
  | addVreg =>
    cases hrun
    exact iff_of_true hex trivial
  | createInst inst placed =>
    cases hrun
    exact createInst_exact_iff hf hex inst placed
  | replaceVreg i source => exact iff_of_true (replaceVreg_exact hf hex hrun) trivial
  | rewrite i v reg =>
    cases hrun
    exact rewrite_exact_iff hex hop v reg
  | removeInst i =>
    cases hrun
    exact removeInst_exact_iff hex hop

/-- `unwrap` does not fail: a listed user is found. -/
theorem Op.step_total {op : Op} (hop : op.Performed f) : ∃ f', op.step f = some f' := by
  cases op with
  | addVreg => exact ⟨_,rfl⟩
  | createInst inst placed => exact ⟨_,rfl⟩
  | replaceVreg i source =>
    obtain ⟨user,huser,hi⟩ := hop
    obtain ⟨found,hfound⟩ : ∃ found, (f.users source).find? (·.inst = i) = some found := by
      rw [← Option.isSome_iff_exists,List.find?_isSome]
      exact ⟨user,huser,by simpa using hi⟩
    exact ⟨_,Option.map_eq_some_iff.mpr ⟨found,hfound,rfl⟩⟩
  | rewrite i v reg => exact ⟨_,rfl⟩
  | removeInst i => exact ⟨_,rfl⟩

end Exact

theorem wellFormed_new : WellFormed new where
  layout_lt _ hi := absurd hi (Finset.notMem_empty _)
  vregs_lt _ hi := absurd hi (Nat.not_lt_zero _)
  listed_lt _ _ h := absurd h (by simp [Listed,new])
  nodup _ := List.nodup_nil

theorem exact_new : Exact new := by
  intro v i
  simp [Listed,new]

theorem along_exact_iff {ops : List Op} (hops : Steps Op.step Op.Performed ops new) :
    Along Op.step Exact ops new ↔ Steps Op.step Op.Keeps ops new :=
  along_iff_steps wellFormed_new exact_new hops
    (fun _ _ _ hf hop hrun => Op.step_wellFormed hf hop hrun)
    (fun _ _ _ hf hex hop hrun => Op.exact_iff hf hex hop hrun)
    (fun _ _ _ _ hop => Op.step_total hop)

/-- The users of the IR stay exact along every run. Those of the machine function do exactly along
the runs whose operations all meet the condition. -/
theorem users_inverse_iff {ops : List UseDef.Op} {machineOps : List Op}
    (hops : Steps UseDef.Op.step UseDef.Op.Performed ops UseDef.new)
    (hmachine : Steps Op.step Op.Performed machineOps new) :
    Along UseDef.Op.step UseDef.Exact ops UseDef.new ∧
      (Along Op.step Exact machineOps new ↔ Steps Op.step Op.Keeps machineOps new) :=
  ⟨UseDef.along_exact ops hops,along_exact_iff hmachine⟩

/-- A use before its definition, which is filled in and then removed. -/
def forwardRun : List UseDef.Op :=
  [.createPlaceholder,.createValue (.instruction 0),
    .createInst ⟨false,[0,0],fun h => absurd h (by decide)⟩,
    .replaceInst 0 ⟨false,[],fun _ => rfl⟩,.createValue .other,.replaceAllUses 0 1 [1],.removeInst 0]

/-- The code of `icmp sle` with a constant: register 1 is the left operand, 0 the result. -/
def compareRun : List Op := [.addVreg,.addVreg] ++
  (CompareLowering.compareInsts 0 .sle 0 1 (.int64 5) ⟨2,fun _ => none⟩).1.map (.createInst · true)

/-- A spill: the definition of register 0 and its use get registers of their own. -/
def spillRun : List Op :=
  [.addVreg,.createInst ⟨.MOVri,[.asOutput (.vreg 0),.plain (.int32 1)]⟩ true,
    .replaceVreg 0 0,.createInst (Spiller.storeVregToSlot 0 1) true]

theorem forwardRun_performed : Steps UseDef.Op.step UseDef.Op.Performed forwardRun UseDef.new := by
  refine ⟨trivial,fun _ h => ?_⟩
  cases h
  refine ⟨fun i hi => ?_,fun _ h => ?_⟩
  · cases hi
    decide
  cases h
  refine ⟨⟨rfl,by decide⟩,fun _ h => ?_⟩
  cases h
  refine ⟨⟨by decide,rfl,by decide⟩,fun _ h => ?_⟩
  cases h
  refine ⟨fun i hi => absurd hi (by simp),fun _ h => ?_⟩
  cases h
  refine ⟨⟨by decide,fun i => ?_,by decide⟩,fun _ h => ?_⟩
  · exact show i ∈ [1] ↔ i ∈ ({1} : Finset ℕ) by simp
  cases h
  exact ⟨trivial,fun _ h => trivial⟩

theorem spillRun_performed : Steps Op.step Op.Performed spillRun new := by
  refine ⟨trivial,fun _ h => ?_⟩
  cases h
  refine ⟨show ∀ v ∈ [0],v < 1 by decide,fun _ h => ?_⟩
  cases h
  refine ⟨⟨⟨0,false,true⟩,by decide,rfl⟩,fun _ h => ?_⟩
  cases h
  refine ⟨show ∀ v ∈ [1],v < 2 by decide,fun _ h => ?_⟩
  cases h
  trivial

theorem users_inverse_iff_runs :
    Along UseDef.Op.step UseDef.Exact forwardRun UseDef.new ∧
      (Along Op.step Exact spillRun new ↔ Steps Op.step Op.Keeps spillRun new) :=
  users_inverse_iff forwardRun_performed spillRun_performed

theorem compareRun_performed : Steps Op.step Op.Performed compareRun new := by
  refine ⟨trivial,fun _ h => ?_⟩
  cases h
  refine ⟨trivial,fun _ h => ?_⟩
  cases h
  refine ⟨show ∀ v ∈ ([] : List ℕ),v < 2 by decide,fun _ h => ?_⟩
  cases h
  refine ⟨show ∀ v ∈ [0,1],v < 2 by decide,fun _ h => ?_⟩
  cases h
  trivial

/-- The left operand of `icmp sle` with a constant is no listed use of its register. -/
theorem compareRun_not_exact : ¬ ∀ machineOps, Steps Op.step Op.Performed machineOps new →
    Along Op.step Exact machineOps new := by
  intro h
  have hkeeps := along_exact_iff compareRun_performed |>.mp (h compareRun compareRun_performed)
  obtain ⟨-,hrest⟩ := hkeeps
  obtain ⟨-,hrest⟩ := hrest _ rfl
  obtain ⟨-,hrest⟩ := hrest _ rfl
  obtain ⟨hlast,-⟩ := hrest _ rfl
  have hflag := (hlast 1 (show 1 ∈ [0,1] by decide)).mpr rfl
  exact absurd hflag (by decide)

end VRegUsers
end Codegen
end OlaLang
