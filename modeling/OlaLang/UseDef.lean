import OlaLang.OperationRuns
import Mathlib.Data.Finset.Basic

/-! The users of the values of an IR function: the operations of the parser and the passes keep them
the inverse of the operands of the instructions in the layout. -/
namespace OlaLang
namespace Codegen
namespace UseDef

open OperationRuns

abbrev ValueId := ℕ
abbrev InstructionId := ℕ

/-- A value is the result of an instruction or something else: a constant or an argument. -/
inductive Value
  | instruction (id : InstructionId) | other
  deriving DecidableEq

/-- An instruction with the values its operand names. `Opcode::Invalid` marks a placeholder, whose
operand is `Operand::Invalid`. -/
structure Instruction where
  invalid : Bool
  args : List ValueId
  args_of_invalid : invalid = true → args = []

def placeholder : Instruction := ⟨true,[],fun _ => rfl⟩

/-- `Data`, with the layout. The arenas are functions with the number of their entries. -/
structure Data where
  values : ValueId → Value
  nextValue : ℕ
  instructions : InstructionId → Instruction
  nextInst : ℕ
  usersMap : InstructionId → Option (Finset InstructionId)
  layout : Finset InstructionId

def new : Data := ⟨fun _ => .other,0,fun _ => placeholder,0,fun _ => none,∅⟩

namespace Data

/-- `users_of`, empty where the map has no entry. -/
def users (d : Data) (v : InstructionId) : Finset InstructionId := (d.usersMap v).getD ∅

/-- The instructions among the operands. -/
def argInsts (d : Data) (id : InstructionId) : List InstructionId :=
  (d.instructions id).args.filterMap fun arg => match d.values arg with
    | .instruction i => some i
    | .other => none

def createValue (v : Value) (d : Data) : Data :=
  { d with values := Function.update d.values d.nextValue v,nextValue := d.nextValue+1 }

/-- `entry(arg).or_insert_with(default).insert(id)`. -/
def insertUser (id : InstructionId) (d : Data) (arg : InstructionId) : Data :=
  { d with usersMap := Function.update d.usersMap arg (some (insert id (d.users arg))) }

def validateInstUses (id : InstructionId) (d : Data) : Data :=
  (d.argInsts id).foldl (insertUser id) d

def setInst (id : InstructionId) (inst : Instruction) (d : Data) : Data :=
  { d with instructions := Function.update d.instructions id inst }

def createInst (inst : Instruction) (d : Data) : Data :=
  let id := d.nextInst
  let d := { d.setInst id inst with nextInst := d.nextInst+1 }
  { d with usersMap := Function.update d.usersMap id (some ∅) }.validateInstUses id

/-- `append_inst` or an insertion: the instruction is in the layout. -/
def place (id : InstructionId) (d : Data) : Data := { d with layout := insert id d.layout }

/-- `replace_inst`, with the assertion of `replace`. -/
def replaceInst (id : InstructionId) (inst : Instruction) (d : Data) : Option Data :=
  if (d.instructions id).invalid then some ((d.setInst id inst).validateInstUses id) else none

theorem args_map_of_invalid (inst : Instruction) (f : ValueId → ValueId)
    (h : inst.invalid = true) : inst.args.map f = [] := by
  rw [inst.args_of_invalid h]
  rfl

/-- `replace_inst_arg`. -/
def replaceInstArg (id source : InstructionId) (target : ValueId) (d : Data) : Option Data :=
  let inst := d.instructions id
  let swap arg := if d.values arg = .instruction source then target else arg
  let replaced := inst.args.any fun arg => d.values arg = .instruction source
  let d := d.setInst id ⟨inst.invalid,inst.args.map swap,args_map_of_invalid inst swap⟩
  if replaced then do
    let d ← match d.usersMap source with
      | some users =>
        if id ∈ users then
          some { d with usersMap := Function.update d.usersMap source (some (users.erase id)) }
        else none
      | none => some d
    match d.values target with
    | .instruction i => some (d.insertUser id i)
    | .other => some d
  else some d

/-- The loop of `replace_all_uses` over the users it has copied. -/
def replaceUses (source : InstructionId) (target : ValueId) : List InstructionId → Data → Option Data
  | [], d => some d
  | user::users, d => (d.replaceInstArg user source target).bind (replaceUses source target users)

/-- `replace_all_uses`, with the order in which the set of users is iterated. -/
def replaceAllUses (source : InstructionId) (target : ValueId) (order : List InstructionId)
    (d : Data) : Option Data :=
  (d.usersMap source).bind fun _ => d.replaceUses source target order

/-- A value becomes one more operand of a phi, and the uses are validated. -/
def pushPhiArg (phi : InstructionId) (value : ValueId) (d : Data) : Option Data :=
  let inst := d.instructions phi
  if h : inst.invalid = true then none
  else some ((d.setInst phi
    ⟨inst.invalid,inst.args ++ [value],fun hi => absurd hi h⟩).validateInstUses phi)

/-- `users.remove(&id)` where there is an entry. -/
def removeUser (id : InstructionId) (d : Data) (arg : InstructionId) : Data :=
  match d.usersMap arg with
  | some users => { d with usersMap := Function.update d.usersMap arg (some (users.erase id)) }
  | none => d

def removeUses (id : InstructionId) (d : Data) : Data := (d.argInsts id).foldl (removeUser id) d

/-- `Function::remove_inst`. -/
def removeInst (id : InstructionId) (d : Data) : Data :=
  let d := d.removeUses id
  { d with layout := d.layout.erase id }

end Data

/-- The operations of the parser and the passes: what is created or replaced goes into the layout
before anything else happens, but for the placeholders of forward references. -/
inductive Op
  | createValue (v : Value)
  | createPlaceholder
  | createInst (inst : Instruction)
  | replaceInst (id : InstructionId) (inst : Instruction)
  | replaceInstArg (id source : InstructionId) (target : ValueId)
  | replaceAllUses (source : InstructionId) (target : ValueId) (order : List InstructionId)
  | pushPhiArg (phi : InstructionId) (value : ValueId)
  | removeInst (id : InstructionId)

namespace Op

def step : Op → Data → Option Data
  | createValue v, d => some (d.createValue v)
  | createPlaceholder, d => some (d.createInst placeholder)
  | createInst inst, d => some ((d.createInst inst).place d.nextInst)
  | replaceInst id inst, d => (d.replaceInst id inst).map (·.place id)
  | replaceInstArg id source target, d => d.replaceInstArg id source target
  | replaceAllUses source target order, d => d.replaceAllUses source target order
  | pushPhiArg phi value, d => d.pushPhiArg phi value
  | removeInst id, d => some (d.removeInst id)

/-- What holds where the operations are called: names are those of existing values and
instructions, new instructions are no placeholders, operands are replaced in users of the replaced
instruction, and phis that get operands are in the layout. -/
def Performed : Op → Data → Prop
  | createValue v, d => ∀ i, v = .instruction i → i < d.nextInst
  | createPlaceholder, _ => True
  | createInst inst, d => inst.invalid = false ∧ ∀ arg ∈ inst.args, arg < d.nextValue
  | replaceInst id inst, d => id < d.nextInst ∧ inst.invalid = false ∧
    ∀ arg ∈ inst.args, arg < d.nextValue
  | replaceInstArg id source target, d => id ∈ d.users source ∧ target < d.nextValue
  | replaceAllUses source target order, d => order.Nodup ∧ (∀ i, i ∈ order ↔ i ∈ d.users source) ∧
    target < d.nextValue
  | pushPhiArg phi value, d => phi ∈ d.layout ∧ value < d.nextValue
  | removeInst _, _ => True

end Op

/-- An instruction is listed as a user of `v` exactly when it is in the layout and `v` is one of its
operands. -/
def Exact (d : Data) : Prop := ∀ v i, i ∈ d.users v ↔ i ∈ d.layout ∧ v ∈ d.argInsts i

/-- What the operations keep beside the users: names are those of existing values and instructions,
and no placeholder is in the layout. -/
structure WellFormed (d : Data) : Prop where
  layout_lt : ∀ i ∈ d.layout, i < d.nextInst ∧ (d.instructions i).invalid = false
  args_lt : ∀ i < d.nextInst, ∀ arg ∈ (d.instructions i).args, arg < d.nextValue
  value_lt : ∀ a < d.nextValue, ∀ i, d.values a = .instruction i → i < d.nextInst

namespace Data

variable {d : Data} {id i v : InstructionId} {l : List InstructionId}

theorem mem_argInsts : v ∈ d.argInsts i ↔
    ∃ arg ∈ (d.instructions i).args, d.values arg = .instruction v := by
  rw [argInsts,List.mem_filterMap]
  refine exists_congr fun arg => and_congr_right fun _ => ?_
  cases d.values arg <;> simp

theorem mem_users_insertUser (arg : InstructionId) :
    i ∈ (d.insertUser id arg).users v ↔ i ∈ d.users v ∨ i = id ∧ v = arg := by
  by_cases hv : v = arg
  · subst hv
    simp [insertUser,users,or_comm]
  · simp [insertUser,users,hv]

theorem mem_users_foldl_insertUser :
    i ∈ (l.foldl (insertUser id) d).users v ↔ i ∈ d.users v ∨ i = id ∧ v ∈ l := by
  induction l generalizing d with
  | nil => simp
  | cons arg l ih =>
    rw [List.foldl_cons,ih,mem_users_insertUser,List.mem_cons]
    tauto

theorem foldl_insertUser_eq :
    l.foldl (insertUser id) d = { d with usersMap := (l.foldl (insertUser id) d).usersMap } := by
  induction l generalizing d with
  | nil => rfl
  | cons arg l ih =>
    rw [List.foldl_cons,ih]
    rfl

theorem mem_users_removeUser (arg : InstructionId) :
    i ∈ (d.removeUser id arg).users v ↔ i ∈ d.users v ∧ ¬ (i = id ∧ v = arg) := by
  cases harg : d.usersMap arg with
  | none =>
    by_cases hv : v = arg
    · subst hv
      simp [removeUser,users,harg]
    · simp [removeUser,users,harg,hv]
  | some set =>
    by_cases hv : v = arg
    · subst hv
      simp [removeUser,users,harg,and_comm]
    · simp [removeUser,users,harg,hv]

theorem removeUser_eq (arg : InstructionId) :
    d.removeUser id arg = { d with usersMap := (d.removeUser id arg).usersMap } := by
  rw [removeUser]
  cases d.usersMap arg <;> rfl

theorem mem_users_foldl_removeUser :
    i ∈ (l.foldl (removeUser id) d).users v ↔ i ∈ d.users v ∧ ¬ (i = id ∧ v ∈ l) := by
  induction l generalizing d with
  | nil => simp
  | cons arg l ih =>
    rw [List.foldl_cons,ih,mem_users_removeUser,List.mem_cons]
    tauto

theorem foldl_removeUser_eq :
    l.foldl (removeUser id) d = { d with usersMap := (l.foldl (removeUser id) d).usersMap } := by
  induction l generalizing d with
  | nil => rfl
  | cons arg l ih =>
    rw [List.foldl_cons,ih,removeUser_eq]

@[simp] theorem setInst_self (inst : Instruction) :
    (d.setInst id inst).instructions id = inst := Function.update_self _ _ _

theorem setInst_of_ne (inst : Instruction) (h : i ≠ id) :
    (d.setInst id inst).instructions i = d.instructions i := Function.update_of_ne h _ _

/-- The state after the uses of `id` have been validated. -/
theorem validateInstUses_eq (id : InstructionId) (d : Data) :
    ∃ m, d.validateInstUses id = { d with usersMap := m } ∧
      ∀ i v, i ∈ ({ d with usersMap := m } : Data).users v ↔
        i ∈ d.users v ∨ i = id ∧ v ∈ d.argInsts id := by
  refine ⟨(d.validateInstUses id).usersMap,foldl_insertUser_eq,fun i v => ?_⟩
  have hmem := @mem_users_foldl_insertUser d id i v (d.argInsts id)
  exact hmem

end Data

/-! One lemma for each operation: it keeps the users exact and the state well formed. -/
section Steps

variable {d : Data} {id : InstructionId}

/-- The users do not depend on whether a new instruction has an empty entry or none. -/
theorem users_new (hd : WellFormed d) (hex : Exact d) : d.users d.nextInst = ∅ := by
  refine Finset.eq_empty_of_forall_notMem fun j hj => ?_
  obtain ⟨hlayout,hmem⟩ := (hex d.nextInst j).mp hj
  obtain ⟨arg,harg,hval⟩ := Data.mem_argInsts.mp hmem
  have hlt := hd.args_lt j (hd.layout_lt j hlayout).1 arg harg
  exact absurd (hd.value_lt arg hlt _ hval) (Nat.lt_irrefl _)

theorem createValue_step (hd : WellFormed d) (hex : Exact d) {v : Value}
    (hv : ∀ i, v = .instruction i → i < d.nextInst) :
    WellFormed (d.createValue v) ∧ Exact (d.createValue v) := by
  have hval : ∀ a < d.nextValue, (d.createValue v).values a = d.values a := fun a ha =>
    Function.update_of_ne (Nat.ne_of_lt ha) _ _
  constructor
  · refine ⟨hd.layout_lt,fun i hi arg harg => ?_,fun a ha i hai => ?_⟩
    · exact (hd.args_lt i hi arg harg).trans (Nat.lt_succ_self _)
    · rcases Nat.lt_succ_iff_lt_or_eq.mp ha with hlt | rfl
      · exact hd.value_lt a hlt i ((hval a hlt).symm.trans hai)
      · refine hv i ?_
        have hself : (d.createValue v).values d.nextValue = v := Function.update_self _ _ _
        exact hself.symm.trans hai
  · intro w i
    rw [show (d.createValue v).users w = d.users w from rfl,hex w i]
    refine and_congr_right fun hi => ?_
    have hlt := hd.args_lt i (hd.layout_lt i hi).1
    rw [Data.mem_argInsts,Data.mem_argInsts]
    refine exists_congr fun arg => and_congr_right fun harg => ?_
    rw [hval arg (hlt arg harg)]

/-- A new operand list for one instruction, with its uses added: exact where the instruction had no
operands in the layout before, or none that are gone now. -/
theorem exact_of_validated {d' : Data} {inst : Instruction} (hex : Exact d)
    (hvalues : d'.values = d.values) (hinsts : d'.instructions = (d.setInst id inst).instructions)
    (hlayout : d'.layout = insert id d.layout)
    (husers : ∀ i v, i ∈ d'.users v ↔ i ∈ d.users v ∨ i = id ∧ v ∈ d'.argInsts id)
    (hold : id ∈ d.layout → ∀ v ∈ d.argInsts id, v ∈ d'.argInsts id) : Exact d' := by
  intro v i
  rw [husers,hex,hlayout,Finset.mem_insert]
  by_cases hi : i = id
  · subst hi
    constructor
    · rintro (⟨hin,hv⟩ | ⟨-,hv⟩)
      · exact ⟨.inl rfl,hold hin v hv⟩
      · exact ⟨.inl rfl,hv⟩
    · exact fun h => .inr ⟨rfl,h.2⟩
  · have hargs : d'.argInsts i = d.argInsts i := by
      rw [Data.argInsts,Data.argInsts,hinsts,Data.setInst_of_ne inst hi,hvalues]
    simp [hi,hargs]

theorem createInst_eq (hd : WellFormed d) (hex : Exact d) (inst : Instruction) :
    ∃ m, d.createInst inst =
        { d.setInst d.nextInst inst with nextInst := d.nextInst+1,usersMap := m } ∧
      ∀ i v, i ∈ (d.createInst inst).users v ↔
        i ∈ d.users v ∨ i = d.nextInst ∧ v ∈ (d.createInst inst).argInsts d.nextInst := by
  let d₁ : Data := { d.setInst d.nextInst inst with
    nextInst := d.nextInst+1,usersMap := Function.update d.usersMap d.nextInst (some ∅) }
  have husers : ∀ v, d₁.users v = d.users v := by
    intro v
    by_cases hv : v = d.nextInst
    · rw [hv,users_new hd hex]
      simp [d₁,Data.users]
    · simp [d₁,Data.users,hv]
  obtain ⟨m,heq,hmem⟩ := Data.validateInstUses_eq d.nextInst d₁
  have hcreate : d.createInst inst = { d₁ with usersMap := m } := heq
  refine ⟨m,hcreate,fun i v => ?_⟩
  rw [hcreate,hmem,husers]
  rfl

/-- The operands of one instruction are set, of a new one or of one that exists. -/
theorem wellFormed_of_setInst {d' : Data} {inst : Instruction} (hd : WellFormed d)
    (hvalues : d'.values = d.values ∧ d'.nextValue = d.nextValue)
    (hinsts : d'.instructions = (d.setInst id inst).instructions)
    (hnext : d.nextInst ≤ d'.nextInst ∧ ∀ i < d'.nextInst, i = id ∨ i < d.nextInst)
    (hargs : ∀ arg ∈ inst.args, arg < d.nextValue)
    (hlayout : ∀ i ∈ d'.layout, i = id ∧ id < d'.nextInst ∧ inst.invalid = false ∨
      i ≠ id ∧ i ∈ d.layout) : WellFormed d' := by
  refine ⟨fun i hi => ?_,fun i hi arg harg => ?_,fun a ha i hai => ?_⟩
  · rw [hinsts]
    rcases hlayout i hi with ⟨rfl,hlt,hinst⟩ | ⟨hne,hin⟩
    · rw [Data.setInst_self]
      exact ⟨hlt,hinst⟩
    · rw [Data.setInst_of_ne inst hne]
      obtain ⟨hlt,hvalid⟩ := hd.layout_lt i hin
      exact ⟨lt_of_lt_of_le hlt hnext.1,hvalid⟩
  · rw [hinsts] at harg
    rw [hvalues.2]
    by_cases hne : i = id
    · rw [hne,Data.setInst_self] at harg
      exact hargs arg harg
    · rw [Data.setInst_of_ne inst hne] at harg
      exact hd.args_lt i ((hnext.2 i hi).resolve_left hne) arg harg
  · rw [hvalues.1] at hai
    rw [hvalues.2] at ha
    exact lt_of_lt_of_le (hd.value_lt a ha i hai) hnext.1

theorem createPlaceholder_step (hd : WellFormed d) (hex : Exact d) :
    WellFormed (d.createInst placeholder) ∧ Exact (d.createInst placeholder) := by
  obtain ⟨m,heq,husers⟩ := createInst_eq hd hex placeholder
  have hinsts : (d.createInst placeholder).instructions =
      (d.setInst d.nextInst placeholder).instructions := by rw [heq]
  have hvalues : (d.createInst placeholder).values = d.values := by rw [heq]; rfl
  have hlayout : (d.createInst placeholder).layout = d.layout := by rw [heq]; rfl
  have hne : ∀ i ∈ d.layout, i ≠ d.nextInst := fun i hi => Nat.ne_of_lt (hd.layout_lt i hi).1
  have hself : (d.createInst placeholder).argInsts d.nextInst = [] := by
    rw [Data.argInsts,hinsts,Data.setInst_self]
    rfl
  constructor
  · refine wellFormed_of_setInst hd ⟨hvalues,by rw [heq]; rfl⟩ hinsts ⟨?_,?_⟩ (by simp [placeholder])
      fun i hi => ?_
    · rw [heq]
      exact Nat.le_succ _
    · rw [heq]
      exact fun i hi => (Nat.lt_succ_iff_lt_or_eq.mp hi).symm
    · rw [hlayout] at hi
      exact .inr ⟨hne i hi,hi⟩
  · intro v i
    rw [husers,hself,hex v i,hlayout]
    simp only [List.not_mem_nil,and_false,or_false]
    refine and_congr_right fun hi => ?_
    rw [Data.argInsts,Data.argInsts,hinsts,hvalues,Data.setInst_of_ne placeholder (hne i hi)]

theorem createInst_step (hd : WellFormed d) (hex : Exact d) {inst : Instruction}
    (hinst : inst.invalid = false) (hargs : ∀ arg ∈ inst.args, arg < d.nextValue) :
    WellFormed ((d.createInst inst).place d.nextInst) ∧
      Exact ((d.createInst inst).place d.nextInst) := by
  obtain ⟨m,heq,husers⟩ := createInst_eq hd hex inst
  have hinsts : ((d.createInst inst).place d.nextInst).instructions =
      (d.setInst d.nextInst inst).instructions := by rw [Data.place,heq]
  have hvalues : ((d.createInst inst).place d.nextInst).values = d.values := by
    rw [Data.place,heq]
    rfl
  have hlayout : ((d.createInst inst).place d.nextInst).layout = insert d.nextInst d.layout := by
    rw [Data.place,heq]
    rfl
  have hnext : ((d.createInst inst).place d.nextInst).nextInst = d.nextInst+1 := by
    rw [Data.place,heq]
  have hne : ∀ i ∈ d.layout, i ≠ d.nextInst := fun i hi => Nat.ne_of_lt (hd.layout_lt i hi).1
  constructor
  · refine wellFormed_of_setInst hd ⟨hvalues,by rw [Data.place,heq]; rfl⟩ hinsts ⟨?_,?_⟩ hargs
      fun i hi => ?_
    · rw [hnext]
      exact Nat.le_succ _
    · rw [hnext]
      exact fun i hi => (Nat.lt_succ_iff_lt_or_eq.mp hi).symm
    · rw [hlayout] at hi
      rw [hnext]
      rcases Finset.mem_insert.mp hi with rfl | hi
      · exact .inl ⟨rfl,Nat.lt_succ_self _,hinst⟩
      · exact .inr ⟨hne i hi,hi⟩
  · exact exact_of_validated hex hvalues hinsts hlayout husers
      fun hin => absurd rfl (hne _ hin)

theorem replaceInst_step (hd : WellFormed d) (hex : Exact d) {inst : Instruction}
    (hid : id < d.nextInst) (hinst : inst.invalid = false)
    (hargs : ∀ arg ∈ inst.args, arg < d.nextValue) {d' : Data}
    (hrun : (d.replaceInst id inst).map (·.place id) = some d') : WellFormed d' ∧ Exact d' := by
  rw [Data.replaceInst] at hrun
  by_cases hinvalid : (d.instructions id).invalid = true
  · rw [if_pos hinvalid] at hrun
    obtain ⟨m,heq,husers⟩ := Data.validateInstUses_eq id (d.setInst id inst)
    rw [Option.map_some,heq] at hrun
    cases hrun
    have hnot : id ∉ d.layout := fun hin => by
      rw [(hd.layout_lt id hin).2] at hinvalid
      cases hinvalid
    constructor
    · refine wellFormed_of_setInst hd ⟨rfl,rfl⟩ rfl ⟨le_refl _,fun i hi => .inr hi⟩ hargs
        fun i hi => ?_
      rcases Finset.mem_insert.mp hi with rfl | hi
      · exact .inl ⟨rfl,hid,hinst⟩
      · exact .inr ⟨fun h => hnot (h ▸ hi),hi⟩
    · exact exact_of_validated hex rfl rfl rfl husers fun hin => absurd hin hnot
  · rw [if_neg hinvalid] at hrun
    cases hrun

theorem pushPhiArg_step (hd : WellFormed d) (hex : Exact d) {value : ValueId}
    (hid : id ∈ d.layout) (hvalue : value < d.nextValue) {d' : Data}
    (hrun : d.pushPhiArg id value = some d') : WellFormed d' ∧ Exact d' := by
  obtain ⟨hlt,hvalid⟩ := hd.layout_lt id hid
  have hne : ¬ (d.instructions id).invalid = true := by simp [hvalid]
  rw [Data.pushPhiArg,dif_neg hne] at hrun
  let inst : Instruction := ⟨(d.instructions id).invalid,(d.instructions id).args ++ [value],
    fun hi => absurd hi hne⟩
  obtain ⟨m,heq,husers⟩ := Data.validateInstUses_eq id (d.setInst id inst)
  have hd' : d' = { d.setInst id inst with usersMap := m } := by
    rw [← heq]
    exact (Option.some.inj hrun).symm
  subst hd'
  constructor
  · refine @wellFormed_of_setInst d id _ inst hd ⟨rfl,rfl⟩ rfl
      ⟨le_refl _,fun i hi => .inr hi⟩ ?_ fun i hi => ?_
    · intro arg harg
      rcases List.mem_append.mp harg with harg | harg
      · exact hd.args_lt id hlt arg harg
      · rw [List.mem_singleton.mp harg]
        exact hvalue
    · by_cases hi' : i = id
      · exact .inl ⟨hi',hlt,hvalid⟩
      · exact .inr ⟨hi',hi⟩
  · refine @exact_of_validated d id _ inst hex rfl rfl
      (Finset.insert_eq_of_mem hid).symm husers ?_
    intro _ v hv
    obtain ⟨arg,harg,hval⟩ := Data.mem_argInsts.mp hv
    refine Data.mem_argInsts.mpr ⟨arg,?_,hval⟩
    rw [show ({ d.setInst id inst with usersMap := m } : Data).instructions id = inst from
      Data.setInst_self inst]
    exact List.mem_append_left _ harg

theorem removeInst_step (hd : WellFormed d) (hex : Exact d) :
    WellFormed (d.removeInst id) ∧ Exact (d.removeInst id) := by
  have heq : d.removeUses id = { d with usersMap := (d.removeUses id).usersMap } :=
    Data.foldl_removeUser_eq
  have husers : ∀ i v, i ∈ (d.removeUses id).users v ↔
      i ∈ d.users v ∧ ¬ (i = id ∧ v ∈ d.argInsts id) := fun i v => Data.mem_users_foldl_removeUser
  have hremove : d.removeInst id =
      { d with usersMap := (d.removeUses id).usersMap,layout := d.layout.erase id } := by
    rw [Data.removeInst,heq]
  constructor
  · rw [hremove]
    exact ⟨fun i hi => hd.layout_lt i (Finset.mem_of_mem_erase hi),hd.args_lt,hd.value_lt⟩
  · intro v i
    have hu : i ∈ (d.removeInst id).users v ↔ i ∈ (d.removeUses id).users v := Iff.rfl
    rw [hu,husers,hex v i,hremove]
    rw [show ({ d with usersMap := (d.removeUses id).usersMap,layout := d.layout.erase id } :
      Data).argInsts i = d.argInsts i from rfl,Finset.mem_erase]
    by_cases hi : i = id
    · subst hi
      simp
    · simp [hi]

/-- The operands after those that are `source` have become `target`. -/
theorem mem_argInsts_swap {d' : Data} {source : InstructionId} {target : ValueId}
    (hvalues : d'.values = d.values)
    (hargs : (d'.instructions id).args = (d.instructions id).args.map
      fun arg => if d.values arg = .instruction source then target else arg) (v : InstructionId) :
    v ∈ d'.argInsts id ↔ v ∈ d.argInsts id ∧ v ≠ source ∨
      source ∈ d.argInsts id ∧ d.values target = .instruction v := by
  rw [Data.mem_argInsts,Data.mem_argInsts,Data.mem_argInsts,hvalues,hargs]
  constructor
  · rintro ⟨_,hmem,hval⟩
    obtain ⟨arg,harg,rfl⟩ := List.mem_map.mp hmem
    by_cases hs : d.values arg = .instruction source
    · rw [if_pos hs] at hval
      exact .inr ⟨⟨arg,harg,hs⟩,hval⟩
    · rw [if_neg hs] at hval
      exact .inl ⟨⟨arg,harg,hval⟩,fun heq => hs (heq ▸ hval)⟩
  · rintro (⟨⟨arg,harg,hval⟩,hne⟩ | ⟨⟨arg,harg,hs⟩,hval⟩)
    · have hs : d.values arg ≠ .instruction source := fun hs =>
        hne (Value.instruction.inj (hval.symm.trans hs))
      exact ⟨arg,List.mem_map.mpr ⟨arg,harg,if_neg hs⟩,hval⟩
    · exact ⟨target,List.mem_map.mpr ⟨arg,harg,if_pos hs⟩,hval⟩

/-- What `replace_inst_arg` leaves of an instruction in the layout and of the users. -/
theorem replaceInstArg_eq (hex : Exact d) {source : InstructionId} {target : ValueId}
    (hid : id ∈ d.layout) {d' : Data} (hrun : d.replaceInstArg id source target = some d') :
    (d'.values = d.values ∧ d'.nextValue = d.nextValue ∧ d'.nextInst = d.nextInst ∧
      d'.layout = d.layout) ∧
    (∃ h, d'.instructions = (d.setInst id ⟨(d.instructions id).invalid,
      (d.instructions id).args.map fun arg =>
        if d.values arg = .instruction source then target else arg,h⟩).instructions) ∧
    ∀ i v, i ∈ d'.users v ↔ i ∈ d.users v ∧ ¬ (i = id ∧ v = source) ∨
      i = id ∧ source ∈ d.argInsts id ∧ d.values target = .instruction v := by
  rw [Data.replaceInstArg] at hrun
  by_cases hany : ((d.instructions id).args.any
      fun arg => d.values arg = .instruction source) = true
  · have hsource : source ∈ d.argInsts id := by
      obtain ⟨arg,harg,hval⟩ := List.any_eq_true.mp hany
      exact Data.mem_argInsts.mpr ⟨arg,harg,of_decide_eq_true hval⟩
    have huser : id ∈ d.users source := (hex source id).mpr ⟨hid,hsource⟩
    obtain ⟨users,husers⟩ : ∃ users, d.usersMap source = some users := by
      cases h : d.usersMap source with
      | none => simp [Data.users,h] at huser
      | some users => exact ⟨users,rfl⟩
    have hin : id ∈ users := by simpa [Data.users,husers] using huser
    have hremove : ∀ i v, i ∈ (Function.update d.usersMap source (some (users.erase id)) v).getD ∅ ↔
        i ∈ d.users v ∧ ¬ (i = id ∧ v = source) := by
      intro i v
      by_cases hv : v = source
      · subst hv
        simp [Data.users,husers,and_comm]
      · simp [Data.users,hv]
    cases htarget : d.values target with
    | other =>
      simp only [hany,if_true,Data.setInst,husers,hin,Option.bind_eq_bind,Option.bind_some,
        htarget,Option.some.injEq] at hrun
      subst hrun
      refine ⟨⟨rfl,rfl,rfl,rfl⟩,⟨_,rfl⟩,fun i v => ?_⟩
      simp only [reduceCtorEq,and_false,or_false]
      exact hremove i v
    | instruction t =>
      simp only [hany,if_true,Data.setInst,husers,hin,Option.bind_eq_bind,Option.bind_some,
        htarget,Option.some.injEq] at hrun
      subst hrun
      refine ⟨⟨rfl,rfl,rfl,rfl⟩,⟨_,rfl⟩,fun i v => ?_⟩
      rw [Data.mem_users_insertUser]
      refine or_congr (hremove i v) ?_
      simp [hsource,eq_comm]
  · have hsource : source ∉ d.argInsts id := by
      intro hmem
      obtain ⟨arg,harg,hval⟩ := Data.mem_argInsts.mp hmem
      exact hany (List.any_eq_true.mpr ⟨arg,harg,decide_eq_true hval⟩)
    simp only [hany,Bool.false_eq_true,if_false,Option.some.injEq] at hrun
    subst hrun
    refine ⟨⟨rfl,rfl,rfl,rfl⟩,⟨_,rfl⟩,fun i v => ?_⟩
    have hnot : i ∈ d.users v → ¬ (i = id ∧ v = source) := by
      rintro hu ⟨rfl,rfl⟩
      exact hsource ((hex v i).mp hu).2
    simp only [hsource,false_and,and_false,or_false]
    exact ⟨fun h => ⟨h,hnot h⟩,fun h => h.1⟩

theorem replaceInstArg_step (hd : WellFormed d) (hex : Exact d) {source : InstructionId}
    {target : ValueId} (hid : id ∈ d.layout) (htarget : target < d.nextValue) {d' : Data}
    (hrun : d.replaceInstArg id source target = some d') :
    (WellFormed d' ∧ Exact d') ∧ d'.layout = d.layout ∧ d'.nextValue = d.nextValue := by
  obtain ⟨⟨hvalues,hnextv,hnexti,hlayout⟩,⟨_,hinsts⟩,husers⟩ := replaceInstArg_eq hex hid hrun
  obtain ⟨hlt,hvalid⟩ := hd.layout_lt id hid
  refine ⟨⟨?_,?_⟩,hlayout,hnextv⟩
  · refine wellFormed_of_setInst hd ⟨hvalues,hnextv⟩ hinsts
      ⟨le_of_eq hnexti.symm,fun i hi => .inr (hnexti ▸ hi)⟩ ?_ fun i hi => ?_
    · intro arg harg
      obtain ⟨old,hold,rfl⟩ := List.mem_map.mp harg
      by_cases hs : d.values old = .instruction source
      · rw [if_pos hs]
        exact htarget
      · rw [if_neg hs]
        exact hd.args_lt id hlt old hold
    · rw [hlayout] at hi
      rw [hnexti]
      by_cases hi' : i = id
      · exact .inl ⟨hi',hlt,hvalid⟩
      · exact .inr ⟨hi',hi⟩
  · have hswap := @mem_argInsts_swap d id d' source target hvalues
      (by rw [hinsts,Data.setInst_self])
    intro v i
    rw [husers,hex v i,hlayout]
    by_cases hi : i = id
    · subst hi
      rw [hswap]
      simp [hid]
    · have hargs : d'.argInsts i = d.argInsts i := by
        rw [Data.argInsts,Data.argInsts,hinsts,Data.setInst_of_ne _ hi,hvalues]
      simp [hi,hargs]

theorem replaceUses_step {source : InstructionId} {target : ValueId}
    {order : List InstructionId} (hd : WellFormed d) (hex : Exact d)
    (horder : ∀ i ∈ order, i ∈ d.layout) (htarget : target < d.nextValue) {d' : Data}
    (hrun : d.replaceUses source target order = some d') : WellFormed d' ∧ Exact d' := by
  induction order generalizing d with
  | nil =>
    cases hrun
    exact ⟨hd,hex⟩
  | cons user order ih =>
    obtain ⟨d₁,hfirst,hrest⟩ := Option.bind_eq_some_iff.mp hrun
    obtain ⟨⟨hd₁,hex₁⟩,hlayout,hnext⟩ :=
      replaceInstArg_step hd hex (horder user List.mem_cons_self) htarget hfirst
    refine ih hd₁ hex₁ ?_ (hnext.symm ▸ htarget) hrest
    intro i hi
    rw [hlayout]
    exact horder i (List.mem_cons_of_mem user hi)

end Steps

theorem Op.step_exact {op : Op} {d d' : Data} (hd : WellFormed d) (hex : Exact d)
    (hop : op.Performed d) (hrun : op.step d = some d') : WellFormed d' ∧ Exact d' := by
  cases op with
  | createValue v =>
    cases hrun
    exact createValue_step hd hex hop
  | createPlaceholder =>
    cases hrun
    exact createPlaceholder_step hd hex
  | createInst inst =>
    cases hrun
    exact createInst_step hd hex hop.1 hop.2
  | replaceInst id inst => exact replaceInst_step hd hex hop.1 hop.2.1 hop.2.2 hrun
  | replaceInstArg id source target =>
    exact (replaceInstArg_step hd hex ((hex source id).mp hop.1).1 hop.2 hrun).1
  | replaceAllUses source target order =>
    obtain ⟨_,_,hrun⟩ := Option.bind_eq_some_iff.mp hrun
    exact replaceUses_step hd hex
      (fun i hi => ((hex source i).mp ((hop.2.1 i).mp hi)).1) hop.2.2 hrun
  | pushPhiArg phi value => exact pushPhiArg_step hd hex hop.1 hop.2 hrun
  | removeInst id =>
    cases hrun
    exact removeInst_step hd hex

/-- The users are exact in every state the operations lead to. -/
theorem along_exact (ops : List Op) (hops : Steps Op.step Op.Performed ops new) :
    Along Op.step Exact ops new := by
  have hnew : WellFormed new ∧ Exact new := by
    refine ⟨⟨fun i hi => absurd hi (Finset.notMem_empty i),
      fun i hi => absurd hi (Nat.not_lt_zero i),fun a ha => absurd ha (Nat.not_lt_zero a)⟩,?_⟩
    intro v i
    simp [new,Data.users]
  have hkept := along_of_kept (I := fun d => WellFormed d ∧ Exact d) hnew hops
    fun op d d' hd hop hrun => Op.step_exact hd.1 hd.2 hop hrun
  exact hkept.mono fun d hd => hd.2

end UseDef
end Codegen
end OlaLang
