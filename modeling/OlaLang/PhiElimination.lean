import OlaLang.MachineCode

/-! Phi elimination: copies before the last instruction of the predecessors, and when they deliver
the operands of the phis at the entry of a block. -/
namespace OlaLang
namespace Codegen
namespace PhiElimination

/-! ### The pass -/

/-- One entry of a phi: its destination and the operand for a predecessor. -/
structure PhiArg where
  output : Reg
  val : OperandData
  block : BasicBlockId
  deriving DecidableEq

/-- The operands behind the first are values and blocks in turn; anything else is a panic. -/
def pairs : List Operand → Option (List (OperandData × BasicBlockId))
  | [] => some []
  | [_] => none
  | val::block::rest => do
    let b ← block.data.asBlock?
    let rest ← pairs rest
    pure ((val.data,b)::rest)

def phiArgs (inst : InstructionData) : Option (List PhiArg) :=
  if inst.isPhi then match inst.operands with
    | [] => none
    | output::args => do
      let r ← output.data.asReg?
      let args ← pairs args
      pure (args.map fun (val,block) => ⟨r,val,block⟩)
  else some []

def argsOf : List InstructionData → Option (List PhiArg)
  | [] => some []
  | inst::rest => do
    let args ← phiArgs inst
    let rest ← argsOf rest
    pure (args ++ rest)

/-- The entries of all phis in layout order. -/
def entries (f : Function) : Option (List PhiArg) := argsOf (f.blocks.flatMap BasicBlock.insts)

/-- The entries of a map from destinations, which is walked in the order of its keys. -/
def walk (order : List Reg → List Reg) (args : List PhiArg) : List PhiArg :=
  (order (args.map PhiArg.output).dedup).flatMap fun r => args.filter fun arg => arg.output = r

def copy (arg : PhiArg) : Option InstructionData := match arg.val with
  | .int32 _ | .int64 _ => some ⟨.MOVri,[.asOutput (.reg arg.output),.plain arg.val]⟩
  | .reg _ => some ⟨.MOVrr,[.asOutput (.reg arg.output),.asInput arg.val]⟩
  | _ => none

/-- The copy goes before the last instruction of the predecessor. -/
def insertCopy (blocks : List BasicBlock) (arg : PhiArg) : Option (List BasicBlock) := do
  let block ← blocks[arg.block]?
  let maybeTerm ← block.insts.getLast?
  let mov ← copy arg
  pure (blocks.set arg.block { block with insts := block.insts.dropLast ++ [mov,maybeTerm] })

/-- `run_on_function`; `order` is the order in which the hash map lists its keys. -/
def eliminatePhi (order : List Reg → List Reg) (f : Function) : Option Function := do
  let args ← entries f
  let blocks ← (walk order args).foldlM insertCopy f.blocks
  pure { f with blocks := blocks.map fun b =>
    { b with insts := b.insts.filter fun inst => !inst.isPhi } }

/-! ### Execution -/

structure Machine (World : Type) where
  regs : Reg → Felt
  world : World

def value (regs : Reg → Felt) : OperandData → Option Felt
  | .reg r => some (regs r)
  | data => data.immediate?

/-- The jump by which a block is left: its condition register, its target, and whether it is the
last instruction. -/
structure Edge where
  cond : Option Reg
  succ : BasicBlockId
  last : Bool
  deriving DecidableEq

section Exec

variable {World : Type} (sem : InstructionData → Machine World → Option (Machine World))

/-- A block is run to the jump that leaves it. The instructions other than copies and jumps do what
`sem` says; phis are no instructions of the machine. -/
def leaves : List InstructionData → Machine World → Option (Edge × Machine World)
  | [], _ => none
  | inst::rest, m => match inst.opcode, inst.operands with
    | .Phi, _ => leaves rest m
    | .JMPr, [target] => do
      let b ← target.data.asBlock?
      pure (⟨none,b,rest.isEmpty⟩,m)
    | .CJMPr, [cond,target] => do
      let c ← cond.data.asReg?
      let b ← target.data.asBlock?
      if m.regs c = 1 then pure (⟨some c,b,rest.isEmpty⟩,m) else leaves rest m
    | .MOVri, [output,src] | .MOVrr, [output,src] => do
      let r ← output.data.asReg?
      let v ← value m.regs src.data
      leaves rest { m with regs := Function.update m.regs r v }
    | .RET, _ | .END, _ => none
    | _, _ => do
      let m ← sem inst m
      leaves rest m

/-- A block that was left, with the state in which it was entered and the one in which the next
block is. -/
structure Crossing (World : Type) where
  pred : BasicBlockId
  start : Machine World
  edge : Edge
  entry : Machine World

/-- The first crossings of a run. -/
def crossings (f : Function) : ℕ → BasicBlockId → Machine World → List (Crossing World)
  | 0, _, _ => []
  | n+1, b, m => match leaves sem (f.insts b) m with
    | none => []
    | some (edge,m') => ⟨b,m,edge,m'⟩::crossings f n edge.succ m'

end Exec

/-! ### What the copies deliver -/

/-- The copies at the end of block `b`, in their order. -/
def copiesAt (order : List Reg → List Reg) (args : List PhiArg) (b : BasicBlockId) : List PhiArg :=
  (walk order args).filter fun arg => arg.block = b

/-- The registers after copies that are executed one after the other. -/
def execCopies : List PhiArg → (Reg → Felt) → Reg → Felt
  | [], regs => regs
  | arg::rest, regs =>
    execCopies rest (Function.update regs arg.output ((value regs arg.val).getD 0))

/-- The operand a register comes from, through copies that are listed from the last to the first. -/
def source : List PhiArg → OperandData → OperandData
  | [], data => data
  | arg::earlier, data => if data = .reg arg.output then source earlier arg.val
    else source earlier data

/-- The same register, or immediates with the same value. -/
def Same (x y : OperandData) : Prop :=
  x = y ∨ ∃ v, x.immediate? = some v ∧ y.immediate? = some v

/-- The entries of the phis of block `b` for the predecessor `pred`. -/
def phisFor (f : Function) (b pred : BasicBlockId) : List PhiArg :=
  ((argsOf (f.insts b)).getD []).filter fun arg => arg.block = pred

/-- The jump hands every phi its operand. The last jump does so when the copies trace each
destination back to its operand; an earlier jump skips the copies, so the destination must be its
operand already (the condition register of a jump that is taken holds 1). -/
def Delivers (copies args : List PhiArg) (edge : Edge) : Prop :=
  ∀ arg ∈ args, if edge.last then Same (source copies.reverse (.reg arg.output)) arg.val
    else arg.val = .reg arg.output ∨ edge.cond = some arg.output ∧ arg.val.immediate? = some 1

/-- The registers at the entry of the next block, for those at the jump. -/
def arrive (copies : List PhiArg) (edge : Edge) (regs : Reg → Felt) : Reg → Felt :=
  if edge.last then execCopies copies regs else regs

/-- Every phi finds the value its operand had at the jump. -/
def Arrives (args : List PhiArg) (regs regs' : Reg → Felt) : Prop :=
  ∀ arg ∈ args, some (regs' arg.output) = value regs arg.val

/-- The jump can be taken with these registers. -/
def Edge.taken (edge : Edge) (regs : Reg → Felt) : Prop := ∀ c, edge.cond = some c → regs c = 1

/-! ### The result of the pass -/

section Pass

variable {order : List Reg → List Reg} {f g : Function} {args : List PhiArg}

/-- A block with the copies of `args` before its last instruction. -/
def withCopies (args : List PhiArg) (insts : List InstructionData) : List InstructionData :=
  insts.dropLast ++ args.filterMap copy ++ insts.getLast?.toList

theorem withCopies_nil (insts : List InstructionData) : withCopies [] insts = insts := by
  rcases List.eq_nil_or_concat insts with rfl|⟨body,last,rfl⟩ <;> simp [withCopies]

theorem withCopies_cons {arg : PhiArg} {rest : List PhiArg} {insts : List InstructionData}
    {mov last : InstructionData} (hmov : copy arg = some mov) (hlast : insts.getLast? = some last) :
    withCopies rest (insts.dropLast ++ [mov,last]) = withCopies (arg::rest) insts := by
  have hsplit : insts.dropLast ++ [mov,last] = (insts.dropLast ++ [mov]) ++ [last] := by simp
  rw [withCopies,withCopies,hsplit,List.dropLast_concat,List.getLast?_concat,
    List.filterMap_cons_some hmov,hlast]
  simp

theorem insertCopy_get {blocks blocks' : List BasicBlock} {arg : PhiArg}
    (h : insertCopy blocks arg = some blocks') (b : BasicBlockId) (rest : List PhiArg) :
    (copy arg).isSome ∧
    (blocks'[b]?.map fun block => withCopies (rest.filter fun arg => arg.block = b) block.insts) =
      blocks[b]?.map fun block =>
        withCopies ((arg::rest).filter fun arg => arg.block = b) block.insts := by
  simp only [insertCopy,Option.bind_eq_bind,Option.bind_eq_some_iff,Option.pure_def,
    Option.some.injEq] at h
  obtain ⟨block,hblock,last,hlast,mov,hmov,rfl⟩ := h
  refine ⟨by rw [hmov]; rfl,?_⟩
  by_cases hb : arg.block = b
  · subst hb
    have hlt : arg.block < blocks.length := (List.getElem?_eq_some_iff.mp hblock).1
    rw [List.getElem?_set_self hlt,hblock]
    simp [withCopies_cons hmov hlast]
  · rw [List.getElem?_set_ne hb]
    simp [hb]

theorem foldlM_insertCopy (args : List PhiArg) {blocks blocks' : List BasicBlock}
    (h : args.foldlM insertCopy blocks = some blocks') :
    (∀ arg ∈ args, (copy arg).isSome) ∧ ∀ b, (blocks'[b]?.map BasicBlock.insts) =
      blocks[b]?.map fun block =>
        withCopies (args.filter fun arg => arg.block = b) block.insts := by
  induction args generalizing blocks with
  | nil =>
    simp only [List.foldlM_nil,Option.pure_def,Option.some.injEq] at h
    subst h
    refine ⟨fun _ h => (by cases h),fun b => ?_⟩
    simp [withCopies_nil]
  | cons arg rest ih =>
    simp only [List.foldlM_cons,Option.bind_eq_bind,Option.bind_eq_some_iff] at h
    obtain ⟨blocks1,h1,h2⟩ := h
    obtain ⟨hsome,hget⟩ := ih h2
    constructor
    · intro arg' harg
      rcases List.mem_cons.mp harg with rfl|hmem
      · exact (insertCopy_get h1 0 rest).1
      · exact hsome arg' hmem
    · intro b
      rw [hget b]
      exact (insertCopy_get h1 b rest).2

theorem eliminatePhi_copyable (hargs : entries f = some args)
    (hg : eliminatePhi order f = some g) : ∀ arg ∈ walk order args, (copy arg).isSome := by
  simp only [eliminatePhi,hargs,Option.bind_eq_bind,Option.bind_some,Option.bind_eq_some_iff] at hg
  obtain ⟨blocks,hfold,-⟩ := hg
  exact (foldlM_insertCopy _ hfold).1

/-- A block of the result: the copies are inserted and the phis are gone. -/
theorem eliminatePhi_insts (hargs : entries f = some args) (hg : eliminatePhi order f = some g)
    (b : BasicBlockId) : g.insts b = if b < f.blocks.length then
      (withCopies (copiesAt order args b) (f.insts b)).filter fun inst => !inst.isPhi else [] := by
  simp only [eliminatePhi,hargs,Option.bind_eq_bind,Option.bind_some,Option.bind_eq_some_iff,
    Option.pure_def,Option.some.injEq] at hg
  obtain ⟨blocks,hfold,rfl⟩ := hg
  have hb := (foldlM_insertCopy _ hfold).2 b
  simp only [Function.insts,List.getElem?_map,Option.map_map]
  by_cases hlt : b < f.blocks.length
  · rw [List.getElem?_eq_getElem hlt] at hb
    cases hblock : blocks[b]? with
    | none =>
      rw [hblock] at hb
      cases hb
    | some block =>
      rw [hblock] at hb
      simp only [Option.map_some,Option.some.injEq] at hb
      simp only [Option.map_some,Option.getD_some,Function.comp,hb,copiesAt,
        List.getElem?_eq_getElem hlt,if_pos hlt]
  · rw [List.getElem?_eq_none (not_lt.mp hlt),Option.map_none,Option.map_eq_none_iff] at hb
    rw [hb,if_neg hlt]
    rfl

end Pass

/-! ### Runs of a block before and after the pass -/

section Block

variable {World : Type} {sem : InstructionData → Machine World → Option (Machine World)}

/-- The last instruction is a jump to `succ`. -/
def jumpTo (inst : InstructionData) (succ : BasicBlockId) : Prop :=
  inst.opcode = .JMPr ∧ ∃ target, inst.operands = [target] ∧ target.data.asBlock? = some succ

theorem leaves_jump {jump : InstructionData} {succ : BasicBlockId} (h : jumpTo jump succ)
    (m : Machine World) : leaves sem [jump] m = some (⟨none,succ,true⟩,m) := by
  obtain ⟨hop,target,hoperands,hblock⟩ := h
  simp [leaves,hop,hoperands,hblock]

/-- The copies are executed before the jump. -/
theorem leaves_copies {jump : InstructionData} {succ : BasicBlockId} (h : jumpTo jump succ)
    (copies : List PhiArg) (hcopy : ∀ arg ∈ copies, (copy arg).isSome) (m : Machine World) :
    leaves sem (copies.filterMap copy ++ [jump]) m =
      some (⟨none,succ,true⟩,{ m with regs := execCopies copies m.regs }) := by
  induction copies generalizing m with
  | nil => exact leaves_jump h m
  | cons arg rest ih =>
    have hrest := ih fun arg' harg => hcopy arg' (List.mem_cons_of_mem _ harg)
    have hsome := hcopy arg List.mem_cons_self
    obtain ⟨output,val,block⟩ := arg
    cases val with
    | reg r => simp [copy,leaves,value,hrest,execCopies,Operand.asOutput,Operand.asInput,
        OperandData.asReg?]
    | int32 i => simp [copy,leaves,value,hrest,execCopies,Operand.asOutput,Operand.plain,
        OperandData.asReg?,OperandData.immediate?]
    | int64 i => simp [copy,leaves,value,hrest,execCopies,Operand.asOutput,Operand.plain,
        OperandData.asReg?,OperandData.immediate?]
    | vreg v => cases hsome
    | int8 i => cases hsome
    | memStart => cases hsome
    | slot s => cases hsome
    | block b => cases hsome
    | label name => cases hsome
    | globalAddress name => cases hsome
    | none => cases hsome

/-- A block that ends in a jump is left by the same jump after the pass, and at the last jump the
copies have been executed. -/
theorem leaves_eliminated {jump : InstructionData} {succ : BasicBlockId} (h : jumpTo jump succ)
    (copies : List PhiArg) (hcopy : ∀ arg ∈ copies, (copy arg).isSome)
    (body : List InstructionData) (m : Machine World) :
    leaves sem (body.filter (fun inst => !inst.isPhi) ++ (copies.filterMap copy ++ [jump])) m =
      (leaves sem (body ++ [jump]) m).map fun (edge,m) =>
        (edge,{ m with regs := arrive copies edge m.regs }) := by
  induction body generalizing m with
  | nil =>
    rw [List.filter_nil,List.nil_append,List.nil_append,leaves_copies h copies hcopy,leaves_jump h]
    rfl
  | cons inst rest ih =>
    by_cases hphi : inst.isPhi = true
    · have hop : inst.opcode = .Phi := by simpa [InstructionData.isPhi] using hphi
      rw [List.filter_cons_of_neg (by simpa using hphi),ih]
      simp [leaves,hop]
    · rw [List.filter_cons_of_pos (by simpa using hphi),List.cons_append,List.cons_append]
      have hempty : (rest ++ [jump]).isEmpty = false := by simp
      have hempty' : (rest.filter (fun inst => !inst.isPhi) ++
          (copies.filterMap copy ++ [jump])).isEmpty = false := by simp
      unfold leaves
      split
      · rename_i hop
        exact absurd (by simp [InstructionData.isPhi,hop]) hphi
      · cases hb : OperandData.asBlock? _ <;> simp [hempty,hempty',arrive]
      · cases hc : OperandData.asReg? _ with
        | none => rfl
        | some c =>
          cases hb : OperandData.asBlock? _ with
          | none => rfl
          | some b =>
            simp only [Option.bind_eq_bind,Option.bind_some]
            by_cases htaken : m.regs c = 1
            · rw [if_pos htaken,if_pos htaken]
              simp [hempty,hempty',arrive]
            · rw [if_neg htaken,if_neg htaken]
              exact ih m
      · cases hr : OperandData.asReg? _ <;> cases hv : value m.regs _ <;> simp [ih]
      · cases hr : OperandData.asReg? _ <;> cases hv : value m.regs _ <;> simp [ih]
      · rfl
      · rfl
      · cases hm : sem inst m <;> simp [ih]

/-- A block is left by its first instruction, a jump that is taken, or by what follows. -/
theorem leaves_cases {inst : InstructionData} {rest : List InstructionData} {m τ : Machine World}
    {edge : Edge} (h : leaves sem (inst::rest) m = some (edge,τ)) :
    (∃ m', leaves sem rest m' = some (edge,τ)) ∨
    (∃ b, inst.opcode = .JMPr ∧ edge = ⟨none,b,rest.isEmpty⟩ ∧ τ = m) ∨
    ∃ c b, inst.opcode = .CJMPr ∧ m.regs c = 1 ∧ edge = ⟨some c,b,rest.isEmpty⟩ ∧ τ = m := by
  unfold leaves at h
  split at h
  · exact .inl ⟨m,h⟩
  · rename_i hop _
    simp only [Option.bind_eq_bind,Option.bind_eq_some_iff] at h
    obtain ⟨b,-,h⟩ := h
    cases h
    exact .inr (.inl ⟨b,hop,rfl,rfl⟩)
  · rename_i hop _
    simp only [Option.bind_eq_bind,Option.bind_eq_some_iff] at h
    obtain ⟨c,-,b,-,h⟩ := h
    split at h
    · rename_i htaken
      cases h
      exact .inr (.inr ⟨c,b,hop,htaken,rfl,rfl⟩)
    · exact .inl ⟨m,h⟩
  · simp only [Option.bind_eq_bind,Option.bind_eq_some_iff] at h
    obtain ⟨_,_,_,_,h⟩ := h
    exact .inl ⟨_,h⟩
  · simp only [Option.bind_eq_bind,Option.bind_eq_some_iff] at h
    obtain ⟨_,_,_,_,h⟩ := h
    exact .inl ⟨_,h⟩
  · cases h
  · cases h
  · simp only [Option.bind_eq_bind,Option.bind_eq_some_iff] at h
    obtain ⟨_,_,h⟩ := h
    exact .inl ⟨_,h⟩

/-- A block without jumps is not left by one. -/
theorem leaves_none (insts : List InstructionData)
    (h : ∀ inst ∈ insts, inst.opcode ≠ .JMPr ∧ inst.opcode ≠ .CJMPr) (m : Machine World) :
    leaves sem insts m = none := by
  induction insts generalizing m with
  | nil => rfl
  | cons inst rest ih =>
    have hrest := ih fun inst' hinst => h inst' (List.mem_cons_of_mem _ hinst)
    obtain ⟨hjmp,hcjmp⟩ := h inst List.mem_cons_self
    rw [Option.eq_none_iff_forall_ne_some]
    intro ⟨edge,τ⟩ hleave
    rcases leaves_cases hleave with ⟨m',h'⟩|⟨_,hop,_⟩|⟨_,_,hop,_⟩
    · rw [hrest] at h'
      cases h'
    · exact hjmp hop
    · exact hcjmp hop

/-- A jump that is taken had its condition. -/
theorem leaves_taken (insts : List InstructionData) {m τ : Machine World} {edge : Edge}
    (h : leaves sem insts m = some (edge,τ)) : edge.taken τ.regs := by
  induction insts generalizing m with
  | nil => cases h
  | cons inst rest ih =>
    rcases leaves_cases h with ⟨m',h'⟩|⟨_,_,rfl,rfl⟩|⟨c,_,_,htaken,rfl,rfl⟩
    · exact ih h'
    · intro c hc
      cases hc
    · intro c' hc
      cases hc
      exact htaken

/-- A block ends in a jump, after any conditional jumps, or it has none. -/
def Terminated (insts : List InstructionData) : Prop :=
  (∃ body jump succ, insts = body ++ [jump] ∧ jumpTo jump succ) ∨
    ∀ inst ∈ insts, inst.opcode ≠ .JMPr ∧ inst.opcode ≠ .CJMPr

theorem copy_opcode {arg : PhiArg} {mov : InstructionData} (h : copy arg = some mov) :
    mov.opcode = .MOVri ∨ mov.opcode = .MOVrr := by
  obtain ⟨output,val,block⟩ := arg
  cases val <;> simp only [copy,Option.some.injEq,reduceCtorEq] at h <;> subst h <;> simp

/-- A block is left as it was, with the copies executed at its last jump. -/
theorem leaves_withCopies {insts : List InstructionData} (hterm : Terminated insts)
    (copies : List PhiArg) (hcopy : ∀ arg ∈ copies, (copy arg).isSome) (m : Machine World) :
    leaves sem ((withCopies copies insts).filter fun inst => !inst.isPhi) m =
      (leaves sem insts m).map fun (edge,m) =>
        (edge,{ m with regs := arrive copies edge m.regs }) := by
  rcases hterm with ⟨body,jump,succ,rfl,hjump⟩|hnone
  · have hmovs : (copies.filterMap copy).filter (fun inst => !inst.isPhi) =
        copies.filterMap copy := by
      rw [List.filter_eq_self]
      intro mov hmov
      obtain ⟨arg,-,harg⟩ := List.mem_filterMap.mp hmov
      rcases copy_opcode harg with hop|hop <;> simp [InstructionData.isPhi,hop]
    have hsplit : (withCopies copies (body ++ [jump])).filter (fun inst => !inst.isPhi) =
        body.filter (fun inst => !inst.isPhi) ++ (copies.filterMap copy ++ [jump]) := by
      rw [withCopies,List.dropLast_concat,List.getLast?_concat,List.filter_append,
        List.filter_append,hmovs]
      simp [InstructionData.isPhi,hjump.1]
    rw [hsplit]
    exact leaves_eliminated hjump copies hcopy body m
  · rw [leaves_none insts hnone,leaves_none _ _ m]
    · rfl
    · intro inst hinst
      have hmem := List.mem_of_mem_filter hinst
      simp only [withCopies,List.mem_append,List.mem_filterMap,Option.mem_toList] at hmem
      obtain (hbody|⟨arg,-,harg⟩)|hlast := hmem
      · exact hnone inst (List.mem_of_mem_dropLast hbody)
      · rcases copy_opcode harg with hop|hop <;> simp [hop]
      · exact hnone inst (List.mem_of_getLast? hlast)

/-- The last jump of a block that ends in a jump has no condition. -/
theorem leaves_last {insts : List InstructionData} (hterm : Terminated insts)
    {m τ : Machine World} {edge : Edge} (h : leaves sem insts m = some (edge,τ)) :
    edge.last = true → edge.cond = none := by
  rcases hterm with ⟨body,jump,succ,rfl,hjump⟩|hnone
  · intro hlast
    induction body generalizing m with
    | nil =>
      rw [List.nil_append,leaves_jump hjump] at h
      cases h
      rfl
    | cons inst rest ih =>
      rcases leaves_cases h with ⟨m',h'⟩|⟨_,_,rfl,_⟩|⟨_,_,_,_,rfl,_⟩
      · exact ih h'
      · rfl
      · simp at hlast
  · rw [leaves_none insts hnone] at h
    cases h

end Block

/-! ### Copies executed one after the other -/

section Copies

theorem source_append (xs ys : List PhiArg) (data : OperandData) :
    source (xs ++ ys) data = source ys (source xs data) := by
  induction xs generalizing data with
  | nil => rfl
  | cons arg xs ih =>
    simp only [List.cons_append,source]
    split
    · exact ih _
    · exact ih _

/-- An operand that a copy can have. -/
def Copyable (data : OperandData) : Prop := (∃ r, data = .reg r) ∨ ∃ v, data.immediate? = some v

theorem copyable_val {arg : PhiArg} (h : (copy arg).isSome) : Copyable arg.val := by
  obtain ⟨output,val,block⟩ := arg
  cases val with
  | reg r => exact .inl ⟨r,rfl⟩
  | int32 i => exact .inr ⟨_,rfl⟩
  | int64 i => exact .inr ⟨_,rfl⟩
  | _ => cases h

theorem value_copyable {data : OperandData} (h : Copyable data) (regs : Reg → Felt) :
    some ((value regs data).getD 0) = value regs data := by
  rcases h with ⟨r,rfl⟩|⟨v,hv⟩
  · rfl
  · cases data <;> simp_all [value,OperandData.immediate?]

theorem source_copyable (copies : List PhiArg) (hcopy : ∀ arg ∈ copies, Copyable arg.val)
    {data : OperandData} (hdata : Copyable data) : Copyable (source copies data) := by
  induction copies generalizing data with
  | nil => exact hdata
  | cons arg copies ih =>
    have hrest : ∀ arg' ∈ copies, Copyable arg'.val := fun arg' harg =>
      hcopy arg' (List.mem_cons_of_mem _ harg)
    simp only [source]
    split
    · exact ih hrest (hcopy arg List.mem_cons_self)
    · exact ih hrest hdata

/-- After one copy an operand has the value its source had before. -/
theorem value_update {arg : PhiArg} (harg : Copyable arg.val) (regs : Reg → Felt)
    (data : OperandData) :
    value (Function.update regs arg.output ((value regs arg.val).getD 0)) data =
      value regs (source [arg] data) := by
  simp only [source]
  by_cases h : data = .reg arg.output
  · rw [if_pos h,h,← value_copyable harg]
    simp [value]
  · rw [if_neg h]
    cases data with
    | reg r =>
      have hne : r ≠ arg.output := fun heq => h (by rw [heq])
      simp [value,Function.update_of_ne hne]
    | _ => rfl

/-- The copies leave in a register the value its source had before them. -/
theorem value_execCopies (copies : List PhiArg) (hcopy : ∀ arg ∈ copies, Copyable arg.val)
    (regs : Reg → Felt) (data : OperandData) :
    value (execCopies copies regs) data = value regs (source copies.reverse data) := by
  induction copies generalizing regs with
  | nil => rfl
  | cons arg rest ih =>
    rw [execCopies,ih (fun arg' harg => hcopy arg' (List.mem_cons_of_mem _ harg)),
      value_update (hcopy arg List.mem_cons_self),List.reverse_cons,source_append]

/-- Operands that have the same value in all states. -/
theorem same_iff {x y : OperandData} (hx : Copyable x) :
    Same x y ↔ ∀ regs, value regs x = value regs y := by
  constructor
  · rintro (rfl|⟨v,hxv,hyv⟩) regs
    · rfl
    · cases x <;> cases y <;> simp_all [value,OperandData.immediate?]
  · intro h
    rcases hx with ⟨r,rfl⟩|⟨v,hv⟩
    · cases y with
      | reg s =>
        have hr := h (Function.update (fun _ => 0) r 1)
        by_cases hrs : s = r
        · exact .inl (by rw [hrs])
        · simp [value,Function.update_of_ne hrs] at hr
      | _ =>
        have h0 := h fun _ => 0
        have h1 := h fun _ => 1
        simp only [value] at h0 h1
        rw [← h0] at h1
        simp at h1
    · refine .inr ⟨v,hv,?_⟩
      have hval : ∀ regs, value regs x = some v := by
        intro regs
        cases x <;> simp_all [value,OperandData.immediate?]
      cases y with
      | reg s =>
        have h0 := h fun _ => 0
        have h1 := h fun _ => 1
        rw [hval] at h0 h1
        simp only [value,Option.some.injEq] at h0 h1
        rw [h0] at h1
        simp at h1
      | _ => exact (h fun _ => 0).symm.trans (hval _)

/-- Registers that agree whenever a jump is taken. -/
theorem kept_iff {data : OperandData} (hdata : Copyable data) (r : Reg) (edge : Edge) :
    (∀ regs, edge.taken regs → some (regs r) = value regs data) ↔
      data = .reg r ∨ edge.cond = some r ∧ data.immediate? = some 1 := by
  constructor
  · intro h
    have htaken : edge.taken fun _ => 1 := fun _ _ => rfl
    have h1 := h _ htaken
    rcases hdata with ⟨s,rfl⟩|⟨v,hv⟩
    · by_cases hrs : s = r
      · exact .inl (by rw [hrs])
      · -- the one of the two that the condition does not fix is made 0
        by_cases hc : edge.cond = some r
        · have hr := h (Function.update (fun _ => 1) s 0) (by
            intro c hc'
            rw [hc,Option.some.injEq] at hc'
            subst hc'
            exact Function.update_of_ne (Ne.symm hrs) _ _)
          simp [value,Function.update_of_ne (Ne.symm hrs)] at hr
        · have hr := h (Function.update (fun _ => 1) r 0) (by
            intro c hc'
            have hcr : c ≠ r := fun heq => hc (by rw [hc',heq])
            exact Function.update_of_ne hcr _ _)
          simp [value,Function.update_of_ne hrs] at hr
    · have hval : ∀ regs, value regs data = some v := by
        intro regs
        cases data <;> simp_all [value,OperandData.immediate?]
      rw [hval,Option.some.injEq] at h1
      subst h1
      by_cases hc : edge.cond = some r
      · exact .inr ⟨hc,hv⟩
      · have hr := h (Function.update (fun _ => 1) r 0) (by
          intro c hc'
          have hcr : c ≠ r := fun heq => hc (by rw [hc',heq])
          exact Function.update_of_ne hcr _ _)
        rw [hval] at hr
        simp at hr
  · rintro (rfl|⟨hc,hv⟩) regs htaken
    · rfl
    · rw [htaken r hc]
      cases data <;> simp_all [value,OperandData.immediate?]

/-- A jump hands over the operands from every state exactly when the copies trace back to them. -/
theorem arrives_iff {copies args : List PhiArg} (hcopy : ∀ arg ∈ copies, Copyable arg.val)
    (hargs : ∀ arg ∈ args, Copyable arg.val) {edge : Edge}
    (hedge : edge.last = true → edge.cond = none) :
    (∀ regs, edge.taken regs → Arrives args regs (arrive copies edge regs)) ↔
      Delivers copies args edge := by
  have hsource : ∀ r, Copyable (source copies.reverse (.reg r)) := fun r =>
    source_copyable _ (fun arg harg => hcopy arg (List.mem_reverse.mp harg)) (.inl ⟨r,rfl⟩)
  have hentry : ∀ regs r, some (execCopies copies regs r) =
      value regs (source copies.reverse (.reg r)) :=
    fun regs r => value_execCopies copies hcopy regs (.reg r)
  simp only [Arrives,Delivers,arrive]
  by_cases hlast : edge.last = true
  · have htaken : ∀ regs, edge.taken regs := fun regs c hc => by
      rw [hedge hlast] at hc
      cases hc
    simp only [hlast,if_true,same_iff (hsource _),hentry]
    exact ⟨fun h arg harg regs => h regs (htaken regs) arg harg,
      fun h regs _ arg harg => h arg harg regs⟩
  · simp only [hlast,if_false,Bool.false_eq_true]
    constructor
    · intro h arg harg
      exact (kept_iff (hargs arg harg) arg.output edge).mp fun regs ht => h regs ht arg harg
    · intro h regs ht arg harg
      exact (kept_iff (hargs arg harg) arg.output edge).mpr (h arg harg) regs ht

end Copies

/-! ### Runs -/

section Runs

theorem mem_argsOf {insts : List InstructionData} {args : List PhiArg}
    (h : argsOf insts = some args) (arg : PhiArg) :
    arg ∈ args ↔ ∃ inst ∈ insts, ∃ as, phiArgs inst = some as ∧ arg ∈ as := by
  induction insts generalizing args with
  | nil =>
    simp only [argsOf,Option.some.injEq] at h
    subst h
    simp
  | cons inst rest ih =>
    simp only [argsOf,Option.bind_eq_bind,Option.bind_eq_some_iff,Option.pure_def,
      Option.some.injEq] at h
    obtain ⟨as,has,more,hmore,rfl⟩ := h
    simp [ih hmore,has]

theorem mem_walk {order : List Reg → List Reg} (horder : ∀ rs, (order rs).Perm rs)
    (args : List PhiArg) (arg : PhiArg) : arg ∈ walk order args ↔ arg ∈ args := by
  simp only [walk,List.mem_flatMap,(horder _).mem_iff,List.mem_dedup,List.mem_map,
    List.mem_filter,decide_eq_true_eq]
  constructor
  · rintro ⟨r,-,harg,-⟩
    exact harg
  · intro harg
    exact ⟨arg.output,⟨arg,harg,rfl⟩,harg,rfl⟩

/-- The entries for a predecessor are among its copies. -/
theorem phisFor_subset {order : List Reg → List Reg} (horder : ∀ rs, (order rs).Perm rs)
    {f : Function} {args : List PhiArg} (hargs : entries f = some args) (succ b : BasicBlockId) :
    ∀ arg ∈ phisFor f succ b, arg ∈ copiesAt order args b := by
  intro arg harg
  obtain ⟨hmem,hblock⟩ := List.mem_filter.mp harg
  refine List.mem_filter.mpr ⟨(mem_walk horder args arg).mpr ?_,hblock⟩
  cases hsub : argsOf (f.insts succ) with
  | none => simp [hsub] at hmem
  | some sub =>
    rw [hsub,Option.getD_some] at hmem
    obtain ⟨inst,hinst,as,has,harg'⟩ := (mem_argsOf hsub arg).mp hmem
    exact (mem_argsOf hargs arg).mpr ⟨inst,insts_subset f succ hinst,as,has,harg'⟩

/-- One block of a run: it is left as in the original function, and the registers are those that
its copies make of the ones at the jump. -/
theorem leaves_preserved {World : Type} {sem : InstructionData → Machine World →
    Option (Machine World)} {order : List Reg → List Reg} {f g : Function} {args : List PhiArg}
    (hterm : ∀ block ∈ f.blocks, Terminated block.insts) (hargs : entries f = some args)
    (hg : eliminatePhi order f = some g) {b : BasicBlockId} {m entry : Machine World} {edge : Edge}
    (hleave : leaves sem (g.insts b) m = some (edge,entry)) :
    ∃ τ, leaves sem (f.insts b) m = some (edge,τ) ∧
      entry.regs = arrive (copiesAt order args b) edge τ.regs := by
  rw [eliminatePhi_insts hargs hg] at hleave
  by_cases hlt : b < f.blocks.length
  · have hcopy : ∀ arg ∈ copiesAt order args b, (copy arg).isSome := fun arg harg =>
      eliminatePhi_copyable hargs hg arg (List.mem_of_mem_filter harg)
    have hblock : Terminated (f.insts b) := by
      rw [Function.insts,List.getElem?_eq_getElem hlt]
      exact hterm _ (List.getElem_mem hlt)
    rw [if_pos hlt,leaves_withCopies hblock _ hcopy,Option.map_eq_some_iff] at hleave
    obtain ⟨⟨edge',τ⟩,hτ,heq⟩ := hleave
    simp only [Prod.mk.injEq] at heq
    obtain ⟨rfl,rfl⟩ := heq
    exact ⟨τ,hτ,rfl⟩
  · rw [if_neg hlt] at hleave
    cases hleave

/-- A crossing of a run is a block that was left. -/
theorem crossings_leave {World : Type} {sem : InstructionData → Machine World →
    Option (Machine World)} {f : Function} (n : ℕ) {b : BasicBlockId} {m : Machine World}
    {c : Crossing World} (hc : c ∈ crossings sem f n b m) :
    leaves sem (f.insts c.pred) c.start = some (c.edge,c.entry) := by
  induction n generalizing b m with
  | zero => cases hc
  | succ n ih =>
    simp only [crossings] at hc
    cases hleave : leaves sem (f.insts b) m with
    | none => simp [hleave] at hc
    | some next =>
      simp only [hleave,List.mem_cons] at hc
      obtain rfl|hc := hc
      · exact hleave
      · exact ih hc

/-- The crossing is one of the original function, up to the copies, and every phi of the block
that is entered holds the value of its operand at the jump. -/
def Kept {World : Type} (sem : InstructionData → Machine World → Option (Machine World))
    (f : Function) (c : Crossing World) : Prop :=
  ∃ τ, leaves sem (f.insts c.pred) c.start = some (c.edge,τ) ∧
    Arrives (phisFor f c.edge.succ c.pred) τ.regs c.entry.regs

/-- In every run of the result, the crossings whose jump delivers are kept; and a jump delivers
exactly when no registers with which it is taken make a phi lose its operand. -/
theorem phi_elimination_kept (order : List Reg → List Reg) (horder : ∀ rs, (order rs).Perm rs)
    {f g : Function} {args : List PhiArg} (hterm : ∀ block ∈ f.blocks, Terminated block.insts)
    (hargs : entries f = some args) (hg : eliminatePhi order f = some g) :
    (∀ (World : Type) (sem : InstructionData → Machine World → Option (Machine World)) (n : ℕ)
      (b : BasicBlockId) (m : Machine World), ∀ c ∈ crossings sem g n b m,
      Delivers (copiesAt order args c.pred) (phisFor f c.edge.succ c.pred) c.edge →
        Kept sem f c) ∧
    ∀ (b : BasicBlockId) (edge : Edge), (edge.last = true → edge.cond = none) →
      (Delivers (copiesAt order args b) (phisFor f edge.succ b) edge ↔
        ∀ regs, edge.taken regs → Arrives (phisFor f edge.succ b) regs
          (arrive (copiesAt order args b) edge regs)) := by
  have hcopy : ∀ b, ∀ arg ∈ copiesAt order args b, Copyable arg.val := fun b arg harg =>
    copyable_val (eliminatePhi_copyable hargs hg arg (List.mem_of_mem_filter harg))
  have hphis : ∀ succ b, ∀ arg ∈ phisFor f succ b, Copyable arg.val := fun succ b arg harg =>
    hcopy b arg (phisFor_subset horder hargs succ b arg harg)
  constructor
  · intro World sem n b m c hc hdelivers
    obtain ⟨τ,hτ,hentry⟩ := leaves_preserved hterm hargs hg (crossings_leave n hc)
    have hblock : Terminated (f.insts c.pred) := by
      cases hb : f.blocks[c.pred]? with
      | none => exact .inr fun inst hinst => by simp [Function.insts,hb] at hinst
      | some block =>
        rw [Function.insts,hb]
        exact hterm block (List.mem_of_getElem? hb)
    refine ⟨τ,hτ,?_⟩
    rw [hentry]
    exact (arrives_iff (hcopy c.pred) (hphis c.edge.succ c.pred) (leaves_last hblock hτ)).mpr
      hdelivers τ.regs (leaves_taken _ hτ)
  · intro b edge hedge
    exact (arrives_iff (hcopy b) (hphis edge.succ b) hedge).symm

def jmp (b : BasicBlockId) : InstructionData := ⟨.JMPr,[.plain (.block b)]⟩

def cjmp (cond : Reg) (b : BasicBlockId) : InstructionData :=
  ⟨.CJMPr,[.asInput (.reg cond),.plain (.block b)]⟩

def phi (output : Reg) (args : List (OperandData × BasicBlockId)) : InstructionData :=
  ⟨.Phi,.asOutput (.reg output)::args.flatMap fun (val,b) => [.asInput val,.plain (.block b)]⟩

def functionOf (name : String) (blocks : List (List InstructionData)) : Function :=
  ⟨name,blocks.map fun insts => ⟨insts,[],[]⟩,[],[],false⟩

/-- A diamond: each of two blocks ends in one jump to the block with the phi. -/
def diamond : Function := functionOf "diamond"
  [[cjmp (GR 1) 2,jmp 1],[jmp 3],[jmp 3],
    [phi (GR 0) [(.int64 100,1),(.reg (GR 2),2)],⟨.RET,[]⟩]]

theorem diamond_kept : ∃ g, eliminatePhi id diamond = some g ∧
    ∀ (n : ℕ) (m : Machine Unit), ∀ c ∈ crossings (fun _ m => some m) g n 1 m,
      c.pred = 1 → c.edge = ⟨none,3,true⟩ → Kept (fun _ m => some m) diamond c := by
  refine ⟨_,rfl,fun n m c hc hpred hedge => ?_⟩
  refine (phi_elimination_kept id (fun _ => List.Perm.refl _) ?_ rfl rfl).1 Unit _ n 1 m c hc ?_
  · intro block hblock
    simp only [diamond,functionOf,List.map_cons,List.map_nil,List.mem_cons,List.not_mem_nil,
      or_false] at hblock
    rcases hblock with rfl|rfl|rfl|rfl
    · exact .inl ⟨[cjmp (GR 1) 2],jmp 1,1,rfl,rfl,_,rfl,rfl⟩
    · exact .inl ⟨[],jmp 3,3,rfl,rfl,_,rfl,rfl⟩
    · exact .inl ⟨[],jmp 3,3,rfl,rfl,_,rfl,rfl⟩
    · exact .inr (by decide)
  · rw [hpred,hedge]
    intro arg harg
    have hargs : phisFor diamond 3 1 = [⟨GR 0,.int64 100,1⟩] := rfl
    rw [hargs,List.mem_singleton] at harg
    subst harg
    exact .inl rfl

/-- Every crossing of every run of the result is kept. -/
def Preserved (f g : Function) : Prop :=
  ∀ (World : Type) (sem : InstructionData → Machine World → Option (Machine World)) (n : ℕ)
    (b : BasicBlockId) (m : Machine World), ∀ c ∈ crossings sem g n b m, Kept sem f c

/-- The first block enters the last one by its conditional jump, or through the second block. -/
def criticalEdge : Function := functionOf "critical_edge"
  [[cjmp (GR 1) 2,jmp 1],[jmp 2],[phi (GR 0) [(.int64 100,0),(.int64 200,1)],⟨.RET,[]⟩]]

/-- The phis of the second block exchange two registers each time around. -/
def swap : Function := functionOf "swap"
  [[jmp 1],[phi (GR 0) [(.int64 5,0),(.reg (GR 1),1)],phi (GR 1) [(.int64 7,0),(.reg (GR 0),1)],
    jmp 1]]

theorem phi_elimination_lost :
    (∃ g, eliminatePhi id criticalEdge = some g ∧ ¬ Preserved criticalEdge g) ∧
      ∃ g, eliminatePhi id swap = some g ∧ ¬ Preserved swap g := by
  constructor
  · refine ⟨_,rfl,fun h => ?_⟩
    have hkept := h Unit (fun _ m => some m) 1 0 ⟨fun _ => 1,()⟩
      ⟨0,⟨fun _ => 1,()⟩,⟨some (GR 1),2,false⟩,⟨fun _ => 1,()⟩⟩ List.mem_cons_self
    obtain ⟨τ,-,harrives⟩ := hkept
    have hphi := harrives ⟨GR 0,.int64 100,0⟩ List.mem_cons_self
    exact absurd (Option.some.inj hphi) (by decide)
  · refine ⟨_,rfl,fun h => ?_⟩
    have hkept := h Unit (fun _ m => some m) 1 1 ⟨fun r => r.idx,()⟩
      ⟨1,⟨fun r => r.idx,()⟩,⟨none,1,true⟩,
        ⟨execCopies [⟨GR 0,.reg (GR 1),1⟩,⟨GR 1,.reg (GR 0),1⟩] fun r => r.idx,()⟩⟩
      List.mem_cons_self
    obtain ⟨τ,hτ,harrives⟩ := hkept
    have hphi := harrives ⟨GR 1,.reg (GR 0),1⟩ (List.mem_cons_of_mem _ List.mem_cons_self)
    cases hτ
    exact absurd (Option.some.inj hphi) (by decide)

end Runs

end PhiElimination
end Codegen
end OlaLang
