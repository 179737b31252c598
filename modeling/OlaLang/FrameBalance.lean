import OlaLang.FramePointer
import Mathlib.Tactic.Ring

/-! At which exits the frame pointer is back where it was at the entry, over all runs. -/
namespace OlaLang
namespace Codegen
namespace FramePointer

/-! ### The shape of the text -/

/-- An instruction of the body. -/
structure Plain (g : Function) (inst : InstructionData) : Prop where
  writes : R9 ∉ inst.outputRegs
  jumps : ∀ op ∈ inst.operands, op.data ≠ .block 0
  calls : inst.opcode = .CALL → hasCall g = true

/-- The line of a `RET`, after the epilogue if there is a frame. -/
def leaveLines (g : Function) (line : Line) : List Line :=
  (if 0 < adj g then [.inst (subFp (adj g))] else []) ++ [line]

/-- What follows a place behind the prologue. -/
inductive Body (g : Function) : List Line → Prop
  | nil : Body g []
  | bareRet {rest} : Body g rest → Body g (.bareRet::rest)
  | inst {i rest} : Plain g i → Body g rest → Body g (.inst i::rest)
  | ret {rest} : Body g rest → Body g (leaveLines g .ret ++ rest)
  | fin {rest} : Body g rest → Body g (leaveLines g .fin ++ rest)

/-- The size of the frame in cells. -/
def frame (g : Function) : ℕ := (adj g).toNat

section Text

variable {f g : Function}

/-- The lines of one instruction. -/
theorem body_epilogue {inst : InstructionData} {name : String} {rest : List Line}
    (hplain : Plain g inst) (hsaves : isSaveFp inst = false) (hrest : Body g rest)
    (hadj : adj f = adj g) : Body g ((epilogue f inst).map (printInst name) ++ rest) := by
  by_cases hret : inst.opcode = .RET
  · have hline : printInst name inst = .ret ∨ printInst name inst = .fin := by
      simp only [printInst,hsaves,hret,Bool.false_eq_true,if_false,if_true]
      split
      · exact .inr rfl
      · exact .inl rfl
    have hsub : printInst name (subFp (adj f)) = .inst (subFp (adj g)) := by
      rw [hadj]
      rfl
    have hlines : (epilogue f inst).map (printInst name) = leaveLines g (printInst name inst) := by
      by_cases hpos : 0 < adj f
      · rw [epilogue,if_pos ⟨hret,hpos⟩,leaveLines,if_pos (hadj ▸ hpos),List.map_cons,hsub]
        rfl
      · rw [epilogue,if_neg (fun h => hpos h.2),leaveLines,if_neg (hadj ▸ hpos)]
        rfl
    rw [hlines]
    rcases hline with hline|hline <;> rw [hline]
    · exact .ret hrest
    · exact .fin hrest
  · have hline : printInst name inst = .inst inst := by
      simp only [printInst,hsaves,hret,Bool.false_eq_true,if_false]
    rw [epilogue,if_neg (fun h => hret h.1),List.map_cons,hline]
    exact .inst hplain hrest

theorem epilogue_ne_nil (f : Function) (inst : InstructionData) : epilogue f inst ≠ [] := by
  rw [epilogue]
  split <;> simp

/-- The instructions of a block, as far as they come from the lowered function. -/
theorem body_insts (insts : List InstructionData) {name : String} {rest : List Line}
    (hinsts : ∀ inst ∈ insts, Plain g inst ∧ isSaveFp inst = false)
    (hrest : Body g rest) (hadj : adj f = adj g) :
    Body g ((insts.flatMap (epilogue f)).map (printInst name) ++ rest) := by
  induction insts with
  | nil => exact hrest
  | cons inst insts ih =>
    obtain ⟨hplain,hsaves⟩ := hinsts inst List.mem_cons_self
    rw [List.flatMap_cons,List.map_append,List.append_assoc]
    exact body_epilogue hplain hsaves
      (ih fun inst' hmem => hinsts inst' (List.mem_cons_of_mem _ hmem)) hadj

theorem printBlock_cons (name : String) (b : BasicBlock) (h : b.insts ≠ []) :
    printBlock name b = b.insts.map (printInst name) := by
  rw [printBlock]
  cases hlast : b.insts.getLast? with
  | none => exact absurd (List.getLast?_eq_none_iff.mp hlast) h
  | some last => rfl

theorem body_block (b : BasicBlock) {name : String} {rest : List Line}
    (hinsts : ∀ inst ∈ b.insts, Plain g inst ∧ isSaveFp inst = false)
    (hrest : Body g rest) (hadj : adj f = adj g) :
    Body g (printBlock name (insertEpilogue f b) ++ rest) := by
  by_cases hb : b.insts = []
  · have hprint : printBlock name (insertEpilogue f b) = [.bareRet] := by
      simp [printBlock,insertEpilogue,hb]
    rw [hprint]
    exact .bareRet hrest
  · have hne : (insertEpilogue f b).insts ≠ [] := by
      obtain ⟨inst,insts,hcons⟩ := List.exists_cons_of_ne_nil hb
      simp [insertEpilogue,hcons,epilogue_ne_nil]
    rw [printBlock_cons name _ hne]
    exact body_insts b.insts hinsts hrest hadj

theorem body_blocks (blocks : List BasicBlock) {name : String}
    (hblocks : ∀ b ∈ blocks, ∀ inst ∈ b.insts, Plain g inst ∧ isSaveFp inst = false)
    (hadj : adj f = adj g) :
    Body g ((blocks.map (insertEpilogue f)).flatMap (printBlock name)) := by
  induction blocks with
  | nil => exact .nil
  | cons b blocks ih =>
    rw [List.map_cons,List.flatMap_cons]
    exact body_block b (hblocks b List.mem_cons_self)
      (ih fun b' hmem => hblocks b' (List.mem_cons_of_mem _ hmem)) hadj

theorem prologue_of_call (hpos : 0 < adj f) (hcall : hasCall f = true) :
    prologue f = [addFp (adj f),mstoreFp] := by
  rw [prologue,if_pos hpos,hcall]
  rfl

theorem prologue_of_frame (hpos : 0 < adj f) (hcall : hasCall f = false) :
    prologue f = [addFp (adj f)] := by
  rw [prologue,if_pos hpos,hcall]
  rfl

theorem prologue_of_plain (hadj : adj f ≤ 0) (hcall : hasCall f = false) : prologue f = [] := by
  rw [prologue,if_neg (not_lt.mpr hadj),hcall]
  rfl

theorem epilogue_prologue (f : Function) : (prologue f).flatMap (epilogue f) = prologue f := by
  have hadd : epilogue f (addFp (adj f)) = [addFp (adj f)] := by simp [epilogue,addFp]
  have hsave : epilogue f mstoreFp = [mstoreFp] := by simp [epilogue,mstoreFp]
  rw [prologue]
  split <;> split <;> simp [hadd,hsave]

theorem print_addFp (name : String) (i : ℤ) : printInst name (addFp i) = .inst (addFp i) := rfl

theorem print_mstoreFp (name : String) : printInst name mstoreFp = .saveFp := rfl

/-- The text of a function: the prologue, if there is one, and the body. -/
inductive Entry (g : Function) : List Line → Prop
  | plain {rest} : adj g ≤ 0 → hasCall g = false → Body g rest → Entry g rest
  | frame {rest} : 0 < adj g → hasCall g = false → Body g rest →
      Entry g (.inst (addFp (adj g))::rest)
  | calls {rest} : 2 ≤ adj g → hasCall g = true → Body g rest →
      Entry g (.inst (addFp (adj g))::.saveFp::rest)

/-- A function of the program that is not a declaration. -/
structure Shaped (g : Function) : Prop where
  entry : Entry g (text g 0)
  body : ∀ b, b ≠ 0 → Body g (text g b)
  small : 0 ≤ adj g ∧ adj g < 2^31

/-- The text of the first block is that of its prologue and of its instructions. -/
theorem print_entry (entry : BasicBlock) (name : String) (hne : prologue f ≠ []) :
    printBlock name (insertEpilogue f { entry with insts := prologue f ++ entry.insts }) =
      (prologue f).map (printInst name) ++
        (entry.insts.flatMap (epilogue f)).map (printInst name) := by
  have happend : (prologue f ++ entry.insts).flatMap (epilogue f) =
      prologue f ++ entry.insts.flatMap (epilogue f) := by
    rw [List.flatMap_append,epilogue_prologue]
  have hinsts : (insertEpilogue f { entry with insts := prologue f ++ entry.insts }).insts ≠ [] := by
    rw [insertEpilogue]
    simp only [happend]
    exact List.append_ne_nil_of_left_ne_nil hne _
  rw [printBlock_cons _ _ hinsts,insertEpilogue]
  simp only [happend,List.map_append]

theorem entry_of_block (entry : BasicBlock) {name : String} {rest : List Line}
    (hinsts : ∀ inst ∈ entry.insts, Plain g inst ∧ isSaveFp inst = false)
    (hrest : Body g rest) (hadj : adj f = adj g) (hcall : hasCall f = hasCall g)
    (htwo : hasCall g = true → 2 ≤ adj g) :
    Entry g (printBlock name (insertEpilogue f { entry with insts := prologue f ++ entry.insts }) ++
      rest) := by
  have hbody : Body g ((entry.insts.flatMap (epilogue f)).map (printInst name) ++ rest) :=
    body_insts entry.insts hinsts hrest hadj
  cases hg : hasCall g with
  | false =>
    have hf : hasCall f = false := hcall.trans hg
    by_cases hpos : 0 < adj f
    · have hpro := prologue_of_frame hpos hf
      rw [print_entry entry name (by rw [hpro]; exact List.cons_ne_nil _ _),hpro,List.map_singleton,
        print_addFp,hadj,List.append_assoc]
      exact .frame (hadj ▸ hpos) hg hbody
    · have hpro := prologue_of_plain (not_lt.mp hpos) hf
      rw [hpro,List.nil_append]
      exact .plain (hadj ▸ not_lt.mp hpos) hg (body_block entry hinsts hrest hadj)
  | true =>
    have hle := htwo hg
    have hpro := prologue_of_call (f := f) (by omega) (hcall.trans hg)
    rw [print_entry entry name (by rw [hpro]; exact List.cons_ne_nil _ _),hpro,List.map_cons,
      List.map_singleton,print_addFp,print_mstoreFp,hadj,List.append_assoc]
    exact .calls hle hg hbody

theorem hasCall_insert {entry : BasicBlock} {blocks : List BasicBlock}
    (hblocks : f.blocks = entry::blocks) {g : Function}
    (hg : g.blocks = ({ entry with insts := prologue f ++ entry.insts }::blocks).map
      (insertEpilogue f)) : hasCall g = hasCall f := by
  have hepi : ∀ inst, (epilogue f inst).any InstructionData.isCall = inst.isCall := by
    intro inst
    rw [epilogue]
    split
    · simp [InstructionData.isCall,subFp]
    · simp
  have hinsts : ∀ insts : List InstructionData,
      (insts.flatMap (epilogue f)).any InstructionData.isCall =
        insts.any InstructionData.isCall := by
    intro insts
    induction insts with
    | nil => rfl
    | cons inst insts ih => rw [List.flatMap_cons,List.any_append,hepi,ih,List.any_cons]
  have hpro : (prologue f).any InstructionData.isCall = false := by
    rw [prologue]
    split <;> split <;> simp [InstructionData.isCall,addFp,mstoreFp]
  have hrest : ((blocks.map (insertEpilogue f)).flatMap BasicBlock.insts).any
      InstructionData.isCall = (blocks.flatMap BasicBlock.insts).any InstructionData.isCall := by
    clear hblocks hg
    induction blocks with
    | nil => rfl
    | cons b blocks ih =>
      rw [List.map_cons,List.flatMap_cons,List.any_append,ih,List.flatMap_cons,List.any_append,
        insertEpilogue,hinsts]
  rw [hasCall,hasCall,hg,hblocks,List.map_cons,List.flatMap_cons,List.flatMap_cons,List.any_append,
    List.any_append,hrest,insertEpilogue,hinsts,List.any_append,hpro,Bool.false_or]

theorem insertProEpi_eq_some (hdeclared : g.isDeclaration = false) (h : insertProEpi f = some g) :
    ∃ entry blocks, f.blocks = entry::blocks ∧
      g = { f with
        blocks := ({ entry with insts := prologue f ++ entry.insts }::blocks).map
          (insertEpilogue f) } := by
  rw [insertProEpi] at h
  split at h
  · rename_i hdecl
    cases h
    rw [hdeclared] at hdecl
    cases hdecl
  · split at h
    · cases h
    · exact ⟨_,_,‹_›,(Option.some.inj h).symm⟩

theorem Lowered.small (h : Lowered f) :
    0 ≤ adj (eliminateSlot f) ∧ adj (eliminateSlot f) < 2^31 := by
  have hfits := h.fits
  rw [h.adj_eq]
  constructor
  · exact Int.natCast_nonneg _
  · have hlt : ensureComputedOffsets (eliminateSlot f).slots / 4 < 2^31 := by omega
    exact_mod_cast hlt

/-- An instruction of a lowered function is one of the body. -/
theorem Lowered.plain (h : Lowered f) (hcall : hasCall g = hasCall f) {b : BasicBlock}
    (hb : b ∈ f.blocks) {inst : InstructionData} (hinst : inst ∈ b.insts) :
    Plain g inst ∧ isSaveFp inst = false := by
  refine ⟨⟨h.writes b hb inst hinst,h.jumps b hb inst hinst,fun hop => ?_⟩,h.saves b hb inst hinst⟩
  rw [hcall,hasCall,List.any_eq_true]
  exact ⟨inst,List.mem_flatMap.mpr ⟨b,hb,hinst⟩,by simp [InstructionData.isCall,hop]⟩

/-- What the passes make of a lowered function. -/
theorem shaped_of_built (h : Built g) (hdeclared : g.isDeclaration = false) : Shaped g := by
  obtain ⟨f,hlow,hg⟩ := h
  obtain ⟨entry,blocks,hblocks,hg⟩ := insertProEpi_eq_some hdeclared hg
  have hadj : adj (eliminateSlot f) = adj g := by
    rw [hg]
    rfl
  have hcall : hasCall (eliminateSlot f) = hasCall g :=
    (hasCall_insert hblocks (by rw [hg])).symm
  have hplain : ∀ b ∈ entry::blocks, ∀ inst ∈ b.insts, Plain g inst ∧ isSaveFp inst = false := by
    intro b hb inst hinst
    rw [← hblocks,eliminateSlot_blocks] at hb
    exact hlow.plain (hcall.symm.trans (hasCall_eliminateSlot f)) hb hinst
  have htail : ∀ b ∈ blocks, ∀ inst ∈ b.insts, Plain g inst ∧ isSaveFp inst = false :=
    fun b hb => hplain b (List.mem_cons_of_mem _ hb)
  refine ⟨?_,fun b hb => ?_,hadj ▸ hlow.small⟩
  · have htext : text g 0 = printBlock g.name (insertEpilogue (eliminateSlot f)
        { entry with insts := prologue (eliminateSlot f) ++ entry.insts }) ++
        (blocks.map (insertEpilogue (eliminateSlot f))).flatMap (printBlock g.name) := by
      rw [text,hg]
      rfl
    rw [htext]
    refine entry_of_block entry (hplain entry List.mem_cons_self) (body_blocks blocks htail hadj)
      hadj hcall fun hcalls => ?_
    rw [← hadj]
    exact two_le_adj hlow ((hasCall_eliminateSlot f).symm.trans (hcall.trans hcalls))
  · obtain ⟨n,rfl⟩ := Nat.exists_eq_succ_of_ne_zero hb
    have htext : text g (n + 1) =
        ((blocks.drop n).map (insertEpilogue (eliminateSlot f))).flatMap (printBlock g.name) := by
      rw [text,hg,List.map_drop]
      rfl
    rw [Nat.succ_eq_add_one,htext]
    exact body_blocks (blocks.drop n) (fun b hb => htail b (List.mem_of_mem_drop hb)) hadj

end Text

/-! ### One step -/

section Step

variable {P : List Function} {vm : VM} {s s' : State} {i : InstructionData} {rest : List Line}

/-- What an instruction can do. -/
theorem step_inst (hrest : s.pc.rest = .inst i::rest) (h : step P vm s = some s') :
    (∃ op ∈ i.operands, ∃ b, op.data = .block b ∧ i.opcode ≠ .ADDri ∧
      s' = { s with pc := ⟨s.pc.fn,text (functionAt P s.pc.fn) b⟩ }) ∨
    (i.opcode ≠ .ADDri ∧ s' = { s with pc := ⟨s.pc.fn,rest⟩ }) ∨
    (∃ g, i.opcode = .CALL ∧ callee P i = some g ∧ s' = call P s rest g) ∨
    ∃ m, vm.exec i s.machine = some m ∧ s' = { s with pc := ⟨s.pc.fn,rest⟩, machine := m } := by
  have hjump : ∀ {target : Operand}, target ∈ i.operands → i.opcode ≠ .ADDri →
      jump P s target = some s' → ∃ op ∈ i.operands, ∃ b, op.data = .block b ∧ i.opcode ≠ .ADDri ∧
        s' = { s with pc := ⟨s.pc.fn,text (functionAt P s.pc.fn) b⟩ } := by
    intro target hmem hop hj
    simp only [jump,Option.bind_eq_bind,Option.bind_eq_some_iff,Option.pure_def,
      Option.some.injEq] at hj
    obtain ⟨b,hb,rfl⟩ := hj
    refine ⟨target,hmem,b,?_,hop,rfl⟩
    cases hdata : target.data <;> simp_all [OperandData.asBlock?]
  unfold step at h
  rw [hrest] at h
  simp only at h
  split at h
  · rename_i hop hoperands
    exact .inl (hjump (by rw [hoperands]; exact List.mem_cons_self) (by rw [hop]; decide) h)
  · rename_i cond target hop hoperands
    simp only [Option.bind_eq_bind,Option.bind_eq_some_iff] at h
    obtain ⟨c,-,h⟩ := h
    have hadd : i.opcode ≠ .ADDri := by
      rw [hop]
      decide
    split at h
    · exact .inl (hjump (by rw [hoperands]; simp) hadd h)
    · cases h
      exact .inr (.inl ⟨hadd,rfl⟩)
  · rename_i hop
    simp only [Option.bind_eq_bind,Option.bind_eq_some_iff,Option.pure_def,
      Option.some.injEq] at h
    obtain ⟨g,hg,rfl⟩ := h
    exact .inr (.inr (.inl ⟨g,hop,hg,rfl⟩))
  · simp only [Option.bind_eq_bind,Option.bind_eq_some_iff,Option.pure_def,
      Option.some.injEq] at h
    obtain ⟨m,hm,rfl⟩ := h
    exact .inr (.inr (.inr ⟨m,hm,rfl⟩))

/-- The frame pointer is moved by an immediate. -/
theorem exec_fp {a b : Operand} {k : ℤ} {m m' : Machine} (hk : -2^31 < k ∧ k < 2^31)
    (hout : a.output = true) (ha : a.data = .reg R9) (hb : b.data = .reg R9)
    (h : vm.exec ⟨.ADDri,[a,b,.asInput (.int32 (BitVec.ofInt 32 k))]⟩ m = some m') :
    m' = m.set R9 (m.fp + k) := by
  have hval : (Operand.asInput (.int32 (BitVec.ofInt 32 k))).data.immediate? = some (k : Felt) := by
    have hint : (BitVec.ofInt 32 k).toInt = k := by
      rw [BitVec.toInt_ofInt,Int.bmod_eq_of_le (by omega) (by omega)]
    simp only [Operand.asInput,OperandData.immediate?,hint]
  rw [vm.exec_add rfl rfl hout ha hb hval] at h
  exact (Option.some.inj h).symm

/-- The step of such an instruction. -/
theorem step_fp {a b : Operand} {k : ℤ} (hk : -2^31 < k ∧ k < 2^31) (hout : a.output = true)
    (ha : a.data = .reg R9) (hb : b.data = .reg R9)
    (hrest : s.pc.rest = .inst ⟨.ADDri,[a,b,.asInput (.int32 (BitVec.ofInt 32 k))]⟩::rest)
    (h : step P vm s = some s') :
    s' = ⟨⟨s.pc.fn,rest⟩,s.machine.set R9 (s.machine.fp + k),s.links⟩ := by
  rcases step_inst hrest h with ⟨_,_,_,_,hop,_⟩|⟨hop,_⟩|⟨_,hop,_⟩|⟨m,hm,rfl⟩
  · exact absurd rfl hop
  · exact absurd rfl hop
  · cases hop
  · rw [exec_fp hk hout ha hb hm]

theorem step_saveFp (hrest : s.pc.rest = .saveFp::rest) : step P vm s = some ⟨⟨s.pc.fn,rest⟩,
    s.machine.store (s.machine.fp - 2) (.felt s.machine.fp),s.links⟩ := by
  unfold step
  rw [hrest]

theorem step_nil (hrest : s.pc.rest = []) : step P vm s = none := by
  unfold step
  rw [hrest]

theorem step_fin (hrest : s.pc.rest = .fin::rest) : step P vm s = none := by
  unfold step
  rw [hrest]

theorem step_ret (hrest : s.pc.rest = .ret::rest) : step P vm s = ret s := by
  unfold step
  rw [hrest]

theorem step_bareRet (hrest : s.pc.rest = .bareRet::rest) : step P vm s = ret s := by
  unfold step
  rw [hrest]

theorem mem_of_callee {g : ℕ} (h : callee P i = some g) :
    (functionAt P g).isDeclaration = false ∧ functionAt P g ∈ P := by
  simp only [callee,Option.bind_eq_bind,Option.bind_eq_some_iff] at h
  obtain ⟨op,-,h⟩ := h
  split at h
  · rename_i name _
    obtain ⟨hlt,hg,-⟩ := List.findIdx?_eq_some_iff_getElem.mp h
    have hat : functionAt P g = P[g] := by rw [functionAt,List.getElem?_eq_getElem hlt,Option.getD_some]
    simp only [decide_eq_true_eq] at hg
    rw [hat]
    exact ⟨hg.2,List.getElem_mem hlt⟩
  · cases h

end Step

/-! ### Frames -/

/-- Where a function is, in terms of its text and its frame pointer. -/
inductive Phase (g : Function) (link : Link) (s : State) : Prop
  | entry {rest} : s.pc.rest = .inst (addFp (adj g))::rest → 0 < adj g →
      (hasCall g = false ∧ Body g rest ∨ hasCall g = true ∧ ∃ rest', rest = .saveFp::rest' ∧
        Body g rest') → s.machine.fp = link.fp → Phase g link s
  | saving {rest} : s.pc.rest = .saveFp::rest → hasCall g = true → Body g rest →
      s.machine.fp = link.fp + frame g → Phase g link s
  | body : Body g s.pc.rest → s.machine.fp = link.fp + frame g →
      (hasCall g = true → s.machine.mem (s.machine.fp - 2) = .felt s.machine.fp) → Phase g link s
  | leaving {line rest} : s.pc.rest = line::rest → line = .ret ∨ line = .fin → 0 < adj g →
      s.machine.fp = link.fp → Phase g link s

/-- The links of the functions that are running, the last one first. -/
inductive Chain (P : List Function) : List Link → Prop
  | one {link : Link} : Shaped (functionAt P link.fn) → 2 ≤ link.fp.val → Chain P [link]
  | call {link caller : Link} {links : List Link} {rest : List Line} : Shaped (functionAt P link.fn) →
      link.fp = caller.fp + frame (functionAt P caller.fn) →
      hasCall (functionAt P caller.fn) = true → link.frame = .felt link.fp →
      link.pc = .pc ⟨caller.fn,rest⟩ → Body (functionAt P caller.fn) rest →
      Chain P (caller::links) → Chain P (link::caller::links)

/-- A state of a run: the links are in memory and the function is in one of its phases. -/
structure Inv (P : List Function) (s : State) (link : Link) (callers : List Link) : Prop where
  links : s.links = link::callers
  chain : Chain P (link::callers)
  cells : ∀ k ∈ link::callers, s.machine.mem (k.fp - 1) = k.pc ∧ s.machine.mem (k.fp - 2) = k.frame
  fn : s.pc.fn = link.fn
  phase : Phase (functionAt P link.fn) link s

section Frames

variable {P : List Function} {g : Function}

theorem two_le_frame (h : Shaped g) (hcall : hasCall g = true) : 2 ≤ frame g := by
  have hadj : 2 ≤ adj g := by
    have hentry := h.entry
    generalize text g 0 = lines at hentry
    cases hentry with
    | plain _ hno _ => simp [hcall] at hno
    | frame _ hno _ => simp [hcall] at hno
    | calls htwo _ _ => exact htwo
  rw [frame]
  omega

theorem Chain.shaped {link : Link} {links : List Link} (h : Chain P (link::links)) :
    Shaped (functionAt P link.fn) := by
  cases h with
  | one h _ => exact h
  | call h _ _ _ _ _ _ => exact h

theorem frame_val {x : Felt} (h : x.val + frame g < FIELD_ORDER) :
    (x + (frame g : Felt)).val = x.val + frame g := by
  have hframe : ((frame g : ℕ) : Felt).val = frame g :=
    ZMod.val_natCast_of_lt (by omega)
  rw [ZMod.val_add_of_lt (by rw [hframe]; exact h),hframe]

/-- The frames lie one above the other. -/
theorem Chain.room {link : Link} {links : List Link} (h : Chain P (link::links))
    (hfits : ∀ k ∈ link::links, k.fp.val + frame (functionAt P k.fn) < FIELD_ORDER) :
    ∀ k ∈ link::links, 2 ≤ k.fp.val ∧ k.fp.val ≤ link.fp.val := by
  induction links generalizing link with
  | nil =>
    cases h with
    | one _ htwo =>
      intro k hk
      rw [List.mem_singleton] at hk
      subst hk
      exact ⟨htwo,le_refl _⟩
  | cons caller links ih =>
    cases h with
    | call _ hfp _ _ _ _ hchain =>
      have hcallers := ih hchain fun k hk => hfits k (List.mem_cons_of_mem _ hk)
      have hval : link.fp.val = caller.fp.val + frame (functionAt P caller.fn) := by
        rw [hfp]
        exact frame_val (hfits caller (by simp))
      intro k hk
      rcases List.mem_cons.mp hk with rfl|hk
      · have := (hcallers caller List.mem_cons_self).1
        exact ⟨by omega,le_refl _⟩
      · obtain ⟨h1,h2⟩ := hcallers k hk
        exact ⟨h1,by omega⟩

/-- The cells below a frame pointer are not those below one that is two lower. -/
theorem cell_ne {x k a b : Felt} (hk : 2 ≤ k.val) (hx : k.val + 2 ≤ x.val) (ha : a.val ≤ 2)
    (hb : 1 ≤ b.val) (hb' : b.val ≤ 2) : x - a ≠ k - b := by
  intro heq
  have hval := congrArg ZMod.val heq
  rw [ZMod.val_sub (by omega),ZMod.val_sub (by omega)] at hval
  omega

theorem frame_eq_zero (h : adj g ≤ 0) : frame g = 0 := Int.toNat_of_nonpos h

theorem frame_cast (h : 0 < adj g) : ((frame g : ℕ) : Felt) = (adj g : ℤ) := by
  have hcast : ((frame g : ℕ) : ℤ) = adj g := Int.toNat_of_nonneg h.le
  rw [← hcast,Int.cast_natCast]

@[simp] theorem fp_store (m : Machine) (a : Felt) (c : Cell) : (m.store a c).fp = m.fp := rfl

@[simp] theorem fp_set (m : Machine) (x : Felt) : (m.set R9 x).fp = x := by
  simp [Machine.set,Machine.fp]

@[simp] theorem mem_set (m : Machine) (r : Reg) (x : Felt) : (m.set r x).mem = m.mem := rfl

theorem mem_store_ne {m : Machine} {a a' : Felt} {c : Cell} (h : a' ≠ a) :
    (m.store a c).mem a' = m.mem a' := Function.update_of_ne h _ _

variable {vm : VM} {s s' : State} {link : Link} {callers : List Link}

/-- A function that has just been entered. -/
theorem phase_enter (h : Shaped g) (hrest : s.pc.rest = text g 0) (hfp : s.machine.fp = link.fp) :
    Phase g link s := by
  have hentry := h.entry
  rw [← hrest] at hentry
  generalize hlines : s.pc.rest = lines at hentry
  cases hentry with
  | plain hadj hno hbody =>
    refine .body (hlines ▸ hbody) ?_ fun hcall => ?_
    · rw [frame_eq_zero hadj,Nat.cast_zero,add_zero]
      exact hfp
    · rw [hcall] at hno
      cases hno
  | frame hadj hno hbody => exact .entry hlines hadj (.inl ⟨hno,hbody⟩) hfp
  | calls hadj hcall hbody => exact .entry hlines (by omega) (.inr ⟨hcall,_,rfl,hbody⟩) hfp

section Fits

variable (hinv : Inv P s link callers)
  (hfits : ∀ k ∈ link::callers, k.fp.val + frame (functionAt P k.fn) < FIELD_ORDER)

include hinv hfits

/-- The cells of the links are not those below the frame pointer of a function with calls. -/
theorem Inv.cells_ne (hcall : hasCall (functionAt P link.fn) = true)
    (hfp : s.machine.fp = link.fp + frame (functionAt P link.fn)) {a : Felt} (ha : a.val ≤ 2) :
    ∀ k ∈ link::callers, k.fp - 1 ≠ s.machine.fp - a ∧ k.fp - 2 ≠ s.machine.fp - a := by
  intro k hk
  obtain ⟨hk2,hle⟩ := hinv.chain.room hfits k hk
  have hval := frame_val (hfits link List.mem_cons_self)
  rw [← hfp] at hval
  have htwo := two_le_frame hinv.chain.shaped hcall
  have hx : k.fp.val + 2 ≤ s.machine.fp.val := by omega
  exact ⟨(cell_ne hk2 hx ha (by decide) (by decide)).symm,
    (cell_ne hk2 hx ha (by decide) (by decide)).symm⟩

/-- A return from a function whose frame pointer is back. -/
theorem Inv.returns (hfp : s.machine.fp = link.fp) (hret : ret s = some s') :
    ∃ caller callers', callers = caller::callers' ∧ Inv P s' caller callers' ∧
      s'.machine.fp = link.fp ∧ link.pc = .pc s'.pc := by
  obtain ⟨hpc,hframe⟩ := hinv.cells link List.mem_cons_self
  have hchain := hinv.chain
  simp only [ret,hfp,hpc,hframe,hinv.links] at hret
  cases hchain with
  | one _ _ => split at hret <;> simp_all
  | @call _ caller callers' rest _ hlink hcall hsaved hreturn hbody hchain =>
    rw [hreturn,hsaved] at hret
    simp only [Option.some.injEq] at hret
    subst hret
    refine ⟨caller,callers',rfl,⟨rfl,hchain,fun k hk => ?_,rfl,?_⟩,fp_set _ _,hreturn⟩
    · rw [mem_set]
      exact hinv.cells k (List.mem_cons_of_mem _ hk)
    · refine .body hbody ?_ fun _ => ?_
      · rw [fp_set]
        exact hlink
      · rw [fp_set,mem_set,hframe,hsaved]

/-- A call from the body of a function. -/
theorem Inv.enters {rest : List Line} {fn : ℕ} (hcall : hasCall (functionAt P link.fn) = true)
    (hfp : s.machine.fp = link.fp + frame (functionAt P link.fn))
    (hsaved : s.machine.mem (s.machine.fp - 2) = .felt s.machine.fp)
    (hbody : Body (functionAt P link.fn) rest) (hshape : Shaped (functionAt P fn)) :
    ∃ link' callers', Inv P (call P s rest fn) link' callers' := by
  have hne : s.machine.fp - 2 ≠ s.machine.fp - 1 := by
    rw [Ne,sub_right_inj]
    decide
  have hpc : (s.machine.store (s.machine.fp - 1) (.pc ⟨s.pc.fn,rest⟩)).mem (s.machine.fp - 1) =
      .pc ⟨link.fn,rest⟩ := by
    rw [← hinv.fn]
    exact Function.update_self _ _ _
  have hframe := (mem_store_ne (c := .pc ⟨s.pc.fn,rest⟩) hne).trans hsaved
  refine ⟨_,link::callers,congrArg _ hinv.links,?_,fun k hk => ?_,rfl,phase_enter hshape rfl rfl⟩
  · exact .call hshape hfp hcall hframe hpc hbody hinv.chain
  · rcases List.mem_cons.mp hk with rfl|hk
    · exact ⟨rfl,rfl⟩
    · obtain ⟨h1,h2⟩ := hinv.cells_ne hfits hcall hfp (by decide : (1 : Felt).val ≤ 2) k hk
      obtain ⟨hc1,hc2⟩ := hinv.cells k hk
      exact ⟨(mem_store_ne h1).trans hc1,(mem_store_ne h2).trans hc2⟩

end Fits

/-- A place moves on without a change of the machine. -/
theorem Inv.goto (hinv : Inv P s link callers) {rest : List Line}
    (hphase : Phase (functionAt P link.fn) link { s with pc := ⟨s.pc.fn,rest⟩ }) :
    Inv P { s with pc := ⟨s.pc.fn,rest⟩ } link callers :=
  ⟨hinv.links,hinv.chain,hinv.cells,hinv.fn,hphase⟩

/-- The frame pointer is moved, and memory stays. -/
theorem Inv.move (hinv : Inv P s link callers) {rest : List Line} {x : Felt}
    (hphase : Phase (functionAt P link.fn) link ⟨⟨s.pc.fn,rest⟩,s.machine.set R9 x,s.links⟩) :
    Inv P ⟨⟨s.pc.fn,rest⟩,s.machine.set R9 x,s.links⟩ link callers :=
  ⟨hinv.links,hinv.chain,hinv.cells,hinv.fn,hphase⟩

/-- An instruction of the body that the machine executes. -/
theorem Inv.executes (hinv : Inv P s link callers) {i : InstructionData} {rest : List Line}
    {m : Machine} (hrest : s.pc.rest = .inst i::rest) (hplain : Plain (functionAt P link.fn) i)
    (hguard : Guarded P vm s) (hbody : Body (functionAt P link.fn) rest)
    (hfp : s.machine.fp = link.fp + frame (functionAt P link.fn))
    (hsaved : hasCall (functionAt P link.fn) = true →
      s.machine.mem (s.machine.fp - 2) = .felt s.machine.fp)
    (hexec : vm.exec i s.machine = some m) :
    Inv P { s with pc := ⟨s.pc.fn,rest⟩, machine := m } link callers := by
  have hfp' : m.fp = s.machine.fp := vm.exec_regs hexec R9 hplain.writes
  have hmem : ∀ a, Linked P s a → m.mem a = s.machine.mem a := fun a ha =>
    vm.exec_mem hexec a fun hstore => hguard.1 i rest hrest a hstore ha
  refine ⟨hinv.links,hinv.chain,fun k hk => ?_,hinv.fn,.body hbody (hfp'.trans hfp) fun hcall => ?_⟩
  · have hk' : k ∈ s.links := hinv.links ▸ hk
    obtain ⟨h1,h2⟩ := hinv.cells k hk
    exact ⟨(hmem _ (.inl ⟨k,hk',.inl rfl⟩)).trans h1,(hmem _ (.inl ⟨k,hk',.inr rfl⟩)).trans h2⟩
  · have hlinked : Linked P s (s.machine.fp - 2) := .inr ⟨hinv.fn ▸ hcall,rfl⟩
    rw [hfp',hmem _ hlinked]
    exact hsaved hcall

section Steps

variable (hinv : Inv P s link callers) {rest : List Line}

include hinv

/-- The step of the prologue's `add`. -/
theorem Inv.step_add (hrest : s.pc.rest = .inst (addFp (adj (functionAt P link.fn)))::rest)
    (hpos : 0 < adj (functionAt P link.fn)) (hnext : hasCall (functionAt P link.fn) = false ∧
      Body (functionAt P link.fn) rest ∨ hasCall (functionAt P link.fn) = true ∧
        ∃ rest', rest = .saveFp::rest' ∧ Body (functionAt P link.fn) rest')
    (hfp : s.machine.fp = link.fp) (hstep : step P vm s = some s') : Inv P s' link callers := by
  obtain ⟨-,hsmall⟩ := hinv.chain.shaped.small
  have hs' := step_fp (by omega) rfl rfl rfl hrest hstep
  subst hs'
  have hmoved : s.machine.fp + (adj (functionAt P link.fn) : ℤ) =
      link.fp + frame (functionAt P link.fn) := by rw [hfp,frame_cast hpos]
  refine hinv.move ?_
  rcases hnext with ⟨hno,hbody⟩|⟨hcall,rest',rfl,hbody⟩
  · refine .body hbody (by rw [fp_set]; exact hmoved) fun hcall => ?_
    rw [hcall] at hno
    cases hno
  · exact .saving rfl hcall hbody (by rw [fp_set]; exact hmoved)

/-- The step that saves the frame pointer. -/
theorem Inv.step_save
    (hfits : ∀ k ∈ link::callers, k.fp.val + frame (functionAt P k.fn) < FIELD_ORDER)
    (hrest : s.pc.rest = .saveFp::rest) (hcall : hasCall (functionAt P link.fn) = true)
    (hbody : Body (functionAt P link.fn) rest)
    (hfp : s.machine.fp = link.fp + frame (functionAt P link.fn))
    (hstep : step P vm s = some s') : Inv P s' link callers := by
  rw [step_saveFp hrest] at hstep
  cases hstep
  refine ⟨hinv.links,hinv.chain,fun k hk => ?_,hinv.fn,
    .body hbody hfp fun _ => Function.update_self _ _ _⟩
  obtain ⟨h1,h2⟩ := hinv.cells_ne hfits hcall hfp (by decide : (2 : Felt).val ≤ 2) k hk
  obtain ⟨hc1,hc2⟩ := hinv.cells k hk
  exact ⟨(mem_store_ne h1).trans hc1,(mem_store_ne h2).trans hc2⟩

/-- The step of the epilogue's `sub`. -/
theorem Inv.step_sub {line : Line} (hline : line = .ret ∨ line = .fin)
    (hpos : 0 < adj (functionAt P link.fn))
    (hrest : s.pc.rest = leaveLines (functionAt P link.fn) line ++ rest)
    (hfp : s.machine.fp = link.fp + frame (functionAt P link.fn))
    (hstep : step P vm s = some s') : Inv P s' link callers := by
  obtain ⟨-,hsmall⟩ := hinv.chain.shaped.small
  rw [leaveLines,if_pos hpos] at hrest
  have hs' := step_fp (by omega) rfl rfl rfl hrest hstep
  subst hs'
  refine hinv.move (.leaving rfl hline hpos ?_)
  rw [fp_set,hfp,frame_cast hpos,Int.cast_neg,add_neg_cancel_right]

/-- The step of an instruction of the body. -/
theorem Inv.step_plain (hP : ∀ g ∈ P, Built g) (hguard : Guarded P vm s) {i : InstructionData}
    (hrest : s.pc.rest = .inst i::rest) (hplain : Plain (functionAt P link.fn) i)
    (hbody : Body (functionAt P link.fn) rest)
    (hfp : s.machine.fp = link.fp + frame (functionAt P link.fn))
    (hsaved : hasCall (functionAt P link.fn) = true →
      s.machine.mem (s.machine.fp - 2) = .felt s.machine.fp)
    (hstep : step P vm s = some s') : ∃ link' callers', Inv P s' link' callers' := by
  rcases step_inst hrest hstep with ⟨op,hop,b,hb,_,rfl⟩|⟨_,rfl⟩|⟨fn,hop,hfn,rfl⟩|⟨m,hm,rfl⟩
  · have hne : b ≠ 0 := fun h => hplain.jumps op hop (h ▸ hb)
    refine ⟨link,callers,hinv.goto (.body ?_ hfp hsaved)⟩
    rw [hinv.fn]
    exact hinv.chain.shaped.body b hne
  · exact ⟨link,callers,hinv.goto (.body hbody hfp hsaved)⟩
  · obtain ⟨hdeclared,hmem⟩ := mem_of_callee hfn
    have hcall := hplain.calls hop
    exact hinv.enters (hinv.links ▸ hguard.2) hcall hfp (hsaved hcall) hbody
      (shaped_of_built (hP _ hmem) hdeclared)
  · exact ⟨link,callers,hinv.executes hrest hplain hguard hbody hfp hsaved hm⟩

/-- The step of a return, once the frame pointer is back. -/
theorem Inv.step_back
    (hfits : ∀ k ∈ link::callers, k.fp.val + frame (functionAt P k.fn) < FIELD_ORDER)
    (hfp : s.machine.fp = link.fp) (hret : ret s = some s') :
    ∃ link' callers', Inv P s' link' callers' := by
  obtain ⟨caller,callers',-,hinv',-⟩ := hinv.returns hfits hfp hret
  exact ⟨caller,callers',hinv'⟩

/-- A step from the body, one case for each kind of line. -/
theorem Inv.step_body (hP : ∀ g ∈ P, Built g) (hguard : Guarded P vm s)
    (hexits : ∀ bare, AtExit s bare → bare = false ∨ adj (functionAt P s.pc.fn) ≤ 0)
    (hbody : Body (functionAt P link.fn) s.pc.rest)
    (hfp : s.machine.fp = link.fp + frame (functionAt P link.fn))
    (hsaved : hasCall (functionAt P link.fn) = true →
      s.machine.mem (s.machine.fp - 2) = .felt s.machine.fp)
    (hstep : step P vm s = some s') : ∃ link' callers', Inv P s' link' callers' := by
  have hfits : ∀ k ∈ link::callers, k.fp.val + frame (functionAt P k.fn) < FIELD_ORDER :=
    hinv.links ▸ hguard.2
  have hback : adj (functionAt P link.fn) ≤ 0 → s.machine.fp = link.fp := fun hadj => by
    rw [hfp,frame_eq_zero hadj,Nat.cast_zero,add_zero]
  generalize hlines : s.pc.rest = lines at hbody
  cases hbody with
  | nil =>
    rw [step_nil hlines] at hstep
    cases hstep
  | bareRet hbody =>
    have hadj := (hexits true (.bareRet hlines)).resolve_left (by decide)
    rw [step_bareRet hlines] at hstep
    exact hinv.step_back hfits (hback (hinv.fn ▸ hadj)) hstep
  | inst hplain hbody => exact hinv.step_plain hP hguard hlines hplain hbody hfp hsaved hstep
  | ret hbody =>
    by_cases hpos : 0 < adj (functionAt P link.fn)
    · exact ⟨link,callers,hinv.step_sub (.inl rfl) hpos hlines hfp hstep⟩
    · rw [leaveLines,if_neg hpos] at hlines
      rw [step_ret hlines] at hstep
      exact hinv.step_back hfits (hback (not_lt.mp hpos)) hstep
  | fin hbody =>
    by_cases hpos : 0 < adj (functionAt P link.fn)
    · exact ⟨link,callers,hinv.step_sub (.inr rfl) hpos hlines hfp hstep⟩
    · rw [leaveLines,if_neg hpos] at hlines
      rw [step_fin hlines] at hstep
      cases hstep

end Steps

/-- One step of a followed run keeps the invariant. -/
theorem inv_step (hP : ∀ g ∈ P, Built g) (hinv : Inv P s link callers)
    (hfollows : Follows P vm s s') : ∃ link' callers', Inv P s' link' callers' := by
  obtain ⟨hguard,hexits,hstep⟩ := hfollows
  have hfits : ∀ k ∈ link::callers, k.fp.val + frame (functionAt P k.fn) < FIELD_ORDER :=
    hinv.links ▸ hguard.2
  cases hinv.phase with
  | entry hrest hpos hnext hfp =>
    exact ⟨link,callers,hinv.step_add hrest hpos hnext hfp hstep⟩
  | saving hrest hcall hbody hfp =>
    exact ⟨link,callers,hinv.step_save hfits hrest hcall hbody hfp hstep⟩
  | body hbody hfp hsaved => exact hinv.step_body hP hguard hexits hbody hfp hsaved hstep
  | leaving hrest hline hpos hfp =>
    rcases hline with rfl|rfl
    · rw [step_ret hrest] at hstep
      exact hinv.step_back hfits hfp hstep
    · rw [step_fin hrest] at hstep
      cases hstep

end Frames

/-! ### Runs -/

section Runs

open Relation

variable {P : List Function} {vm : VM} {s0 s : State}

theorem inv_start (hP : ∀ g ∈ P, Built g) (h : Start P s) :
    ∃ link callers, Inv P s link callers := by
  have hmem : functionAt P s.pc.fn ∈ P := by
    rw [functionAt,List.getElem?_eq_getElem h.fn,Option.getD_some]
    exact List.getElem_mem h.fn
  have hshape := shaped_of_built (hP _ hmem) h.declared
  refine ⟨_,[],h.links,.one hshape h.room,fun k hk => ?_,rfl,phase_enter hshape h.rest rfl⟩
  rw [List.mem_singleton] at hk
  subst hk
  exact ⟨rfl,rfl⟩

theorem inv_run (hP : ∀ g ∈ P, Built g) (hstart : Start P s0)
    (hrun : ReflTransGen (Follows P vm) s0 s) : ∃ link callers, Inv P s link callers := by
  induction hrun with
  | refl => exact inv_start hP hstart
  | tail _ hfollows ih =>
    obtain ⟨link,callers,hinv⟩ := ih
    exact inv_step hP hinv hfollows

/-- At a `ret` of the function the frame pointer is back; at the one of an empty block it is not. -/
theorem Inv.exit {link : Link} {callers : List Link} (hinv : Inv P s link callers) {bare : Bool}
    (hexit : AtExit s bare) : bare = false ∧ s.machine.fp = link.fp ∨
      bare = true ∧ s.machine.fp = link.fp + frame (functionAt P link.fn) := by
  cases hexit with
  | @bareRet rest hline =>
    right
    cases hinv.phase with
    | entry hrest _ _ _ => simp [hrest] at hline
    | saving hrest _ _ _ => simp [hrest] at hline
    | leaving hrest hret _ _ =>
      rw [hrest] at hline
      cases hline
      simp at hret
    | body _ hfp _ => exact ⟨rfl,hfp⟩
  | @ret rest hline =>
    left
    cases hinv.phase with
    | entry hrest _ _ _ => simp [hrest] at hline
    | saving hrest _ _ _ => simp [hrest] at hline
    | leaving _ _ _ hfp => exact ⟨rfl,hfp⟩
    | body hbody hfp _ =>
      rw [hline] at hbody
      generalize hlines : Line.ret::rest = lines at hbody
      have hframe : adj (functionAt P link.fn) ≤ 0 := by
        by_contra hpos
        cases hbody with
        | nil => cases hlines
        | bareRet _ => cases hlines
        | inst _ _ => cases hlines
        | ret _ => simp [leaveLines,not_le.mp hpos] at hlines
        | fin _ => simp [leaveLines,not_le.mp hpos] at hlines
      exact ⟨rfl,by rw [hfp,frame_eq_zero hframe,Nat.cast_zero,add_zero]⟩

/-- At every exit that a run comes to, the frame pointer and the cells below it are those of the
entry exactly when the exit is a `ret` of the function or the function has no frame, and then the
return gives the caller its frame pointer and the place after its call. -/
theorem exit_balanced_iff (hP : ∀ g ∈ P, Built g) (hstart : Start P s0)
    (hrun : ReflTransGen (Follows P vm) s0 s) (hguard : Guarded P vm s) {bare : Bool}
    (hexit : AtExit s bare) :
    (Balanced s ↔ bare = false ∨ adj (functionAt P s.pc.fn) ≤ 0) ∧
    (Balanced s → ∀ s', step P vm s = some s' → ∃ link caller callers,
      s.links = link::caller::callers ∧ s'.links = caller::callers ∧
        s'.machine.fp = link.fp ∧ link.pc = .pc s'.pc) := by
  obtain ⟨link,callers,hinv⟩ := inv_run hP hstart hrun
  have hfits : ∀ k ∈ link::callers, k.fp.val + frame (functionAt P k.fn) < FIELD_ORDER :=
    hinv.links ▸ hguard.2
  have hbalanced : Balanced s ↔ s.machine.fp = link.fp := by
    constructor
    · intro h
      exact (h link callers hinv.links).1
    · intro h link' callers' hlinks
      rw [hinv.links] at hlinks
      cases hlinks
      exact ⟨h,hinv.cells link List.mem_cons_self⟩
  constructor
  · rw [hbalanced,hinv.fn]
    rcases hinv.exit hexit with ⟨rfl,hfp⟩|⟨rfl,hfp⟩
    · exact ⟨fun _ => .inl rfl,fun _ => hfp⟩
    · have hlt := hfits link List.mem_cons_self
      have hzero : s.machine.fp = link.fp ↔ frame (functionAt P link.fn) = 0 := by
        rw [hfp,add_eq_left,ZMod.natCast_eq_zero_iff]
        exact ⟨fun h => Nat.eq_zero_of_dvd_of_lt h (by omega),fun h => h ▸ Nat.dvd_zero _⟩
      rw [hzero,frame,Int.toNat_eq_zero]
      simp
  · intro h s' hstep
    have hret : ret s = some s' := by
      cases hexit with
      | ret hrest => exact (step_ret hrest).symm.trans hstep
      | bareRet hrest => exact (step_bareRet hrest).symm.trans hstep
    obtain ⟨caller,callers',rfl,hinv',hfp,hpc⟩ :=
      hinv.returns hfits (hbalanced.mp h) hret
    exact ⟨link,caller,callers',hinv.links,hinv'.links,hfp,hpc⟩

/-- Which exit the function is at, if it is at one. -/
def exit? (s : State) : Option Bool := match s.pc.rest with
  | .ret::_ => some false
  | .bareRet::_ => some true
  | _ => none

theorem exit?_eq_some_iff (s : State) (bare : Bool) : exit? s = some bare ↔ AtExit s bare := by
  constructor
  · intro h
    unfold exit? at h
    split at h
    · cases h
      exact .ret ‹_›
    · cases h
      exact .bareRet ‹_›
    · cases h
  · intro h
    cases h with
    | ret hrest => rw [exit?,hrest]
    | bareRet hrest => rw [exit?,hrest]

/-- The passes on one function. -/
def compiled (f : Function) : Function := (insertProEpi (eliminateSlot f)).getD f

theorem built_compiled {f : Function} (h : Lowered f) (hblocks : f.blocks ≠ []) :
    Built (compiled f) := by
  refine ⟨f,h,?_⟩
  rw [compiled]
  cases hg : insertProEpi (eliminateSlot f) with
  | some g => rfl
  | none =>
    rw [insertProEpi,eliminateSlot_blocks] at hg
    split at hg
    · cases hg
    · split at hg
      · contradiction
      · cases hg

/-- A machine that executes additions only. -/
def additions : VM where
  exec inst m := match inst.opcode, inst.operands with
    | .ADDri, [d,a,c] => if d.output then do
        let rd ← d.data.asReg?
        let ra ← a.data.asReg?
        let v ← c.data.immediate?
        pure (m.set rd (m.regs ra + v))
      else none
    | _, _ => none
  stores _ _ := ∅
  exec_regs := by
    intro inst m m' h r hr
    split at h
    · rename_i d a c hop hoperands
      split at h
      · rename_i hout
        simp only [Option.bind_eq_bind,Option.bind_eq_some_iff,Option.pure_def,
          Option.some.injEq] at h
        obtain ⟨rd,hrd,ra,-,v,-,rfl⟩ := h
        refine Function.update_of_ne (fun heq => hr ?_) _ _
        rw [InstructionData.outputRegs,hoperands,List.mem_filterMap]
        exact ⟨d,List.mem_cons_self,by rw [if_pos hout,hrd,heq]⟩
      · cases h
    · cases h
  exec_mem := by
    intro inst m m' h a _
    split at h
    · split at h
      · simp only [Option.bind_eq_bind,Option.bind_eq_some_iff,Option.pure_def,
          Option.some.injEq] at h
        obtain ⟨rd,-,ra,-,v,-,rfl⟩ := h
        rfl
      · cases h
    · cases h
  exec_add := by
    intro inst m d a c rd ra v hop hoperands hout hd ha hc
    simp [hop,hoperands,hout,hd,ha,hc,OperandData.asReg?]

/-- A function that makes one call and returns. -/
def calling (name callee : String) : Function :=
  ⟨name,[⟨[⟨.CALL,[.plain (.label callee)]⟩,⟨.RET,[]⟩],[],[]⟩],[⟨4,4⟩],[],false⟩

/-- A function that returns at once. -/
def returning : Function := ⟨"leaf",[⟨[⟨.RET,[]⟩],[],[]⟩],[⟨4,4⟩],[],false⟩

/-- Calls that nest three functions deep, each with a slot in its frame. -/
def nested : List Function :=
  [compiled (calling "outer" "middle"),compiled (calling "middle" "leaf"),compiled returning]

def nestedStart : State :=
  ⟨⟨0,text (functionAt nested 0) 0⟩,⟨fun _ => 2,fun _ => .felt 0⟩,[⟨0,2,.felt 0,.felt 0⟩]⟩

/-- The states of the run from `nestedStart`. -/
def nestedAt (n : ℕ) : State := (fun s => (step nested additions s).getD s)^[n] nestedStart

/-- A function with a slot whose second block is empty. -/
def stranded : Function :=
  ⟨"stranded",[⟨[⟨.JMPr,[.plain (.block 1)]⟩],[],[1]⟩,⟨[],[0],[]⟩],[⟨4,4⟩],[],false⟩

theorem lowered_returning : Lowered returning where
  writes := by decide
  saves := by decide
  jumps := by decide
  aligned := by decide
  fits := by decide

theorem lowered_calling (name callee : String) : Lowered (calling name callee) where
  writes := by simp [calling,InstructionData.outputRegs,Operand.plain]
  saves := by simp [calling,isSaveFp]
  jumps := by simp [calling,Operand.plain]
  aligned := by simp [calling]
  fits := by simp [calling,eliminateSlot,hasCall,InstructionData.isCall,ensureComputedOffsets,offsets]

theorem built_nested : ∀ g ∈ nested, Built g := by
  intro g hg
  simp only [nested,List.mem_cons,List.not_mem_nil,or_false] at hg
  rcases hg with rfl|rfl|rfl
  · exact built_compiled (lowered_calling "outer" "middle") (List.cons_ne_nil _ _)
  · exact built_compiled (lowered_calling "middle" "leaf") (List.cons_ne_nil _ _)
  · exact built_compiled lowered_returning (List.cons_ne_nil _ _)

theorem lowered_stranded : Lowered stranded where
  writes := by decide
  saves := by decide
  jumps := by decide
  aligned := by decide
  fits := by decide

/-- The frames of a state fit, and it is not at the `ret` of an empty block. -/
def followed (P : List Function) (s : State) : Bool :=
  (s.links.all fun link => link.fp.val + (adj (functionAt P link.fn)).toNat < FIELD_ORDER) &&
    exit? s != some true

theorem guarded_of_followed (h : followed P s = true) : Guarded P additions s := by
  rw [followed,Bool.and_eq_true,List.all_eq_true] at h
  exact ⟨fun _ _ _ a ha => absurd ha (Set.notMem_empty a),fun link hlink =>
    of_decide_eq_true (h.1 link hlink)⟩

theorem follows_of_followed {s' : State} (h : followed P s = true)
    (hstep : step P additions s = some s') : Follows P additions s s' := by
  refine ⟨guarded_of_followed h,fun bare hexit => .inl ?_,hstep⟩
  rw [followed,Bool.and_eq_true,(exit?_eq_some_iff s bare).mpr hexit] at h
  cases bare with
  | false => rfl
  | true => cases h.2

theorem nestedAt_run {n : ℕ} (h : ∀ k < n, followed nested (nestedAt k) = true ∧
    (step nested additions (nestedAt k)).isSome = true) :
    ReflTransGen (Follows nested additions) nestedStart (nestedAt n) := by
  induction n with
  | zero => exact .refl
  | succ n ih =>
    obtain ⟨hfollowed,hsome⟩ := h n n.lt_succ_self
    obtain ⟨s',hstep⟩ := Option.isSome_iff_exists.mp hsome
    have hnext : nestedAt (n + 1) = s' := by
      rw [nestedAt,Function.iterate_succ_apply',← nestedAt,hstep]
      rfl
    rw [hnext]
    exact (ih fun k hk => h k (hk.trans n.lt_succ_self)).tail (follows_of_followed hfollowed hstep)

/-- `outer` calls `middle`, which calls `leaf`: behind the return of `leaf` and its own epilogue
`middle` is balanced, and its return gives `outer` the frame pointer 5 and the place after the
call. -/
theorem exit_balanced_nested : Balanced (nestedAt 10) ∧
    ∃ s', step nested additions (nestedAt 10) = some s' ∧ s'.machine.fp = 5 ∧
      s'.links.map Link.fp = [2] := by
  have hstart : Start nested nestedStart := ⟨by decide,by decide,rfl,by decide,rfl⟩
  have hrun : ReflTransGen (Follows nested additions) nestedStart (nestedAt 10) :=
    nestedAt_run (by decide +kernel)
  have hguard : Guarded nested additions (nestedAt 10) := guarded_of_followed (by decide +kernel)
  have hexit : AtExit (nestedAt 10) false := (exit?_eq_some_iff _ _).mp (by decide +kernel)
  obtain ⟨hiff,hreturn⟩ := exit_balanced_iff built_nested hstart hrun hguard hexit
  have hlinks : (nestedAt 10).links.map Link.fp = [5,2] := by decide +kernel
  have hsome : (step nested additions (nestedAt 10)).isSome = true := by decide +kernel
  obtain ⟨s',hstep⟩ := Option.isSome_iff_exists.mp hsome
  obtain ⟨link,caller,callers,hcons,hcallers,hfp,-⟩ := hreturn (hiff.mpr (.inl rfl)) s' hstep
  rw [hcons,List.map_cons,List.cons.injEq] at hlinks
  exact ⟨hiff.mpr (.inl rfl),s',hstep,hfp.trans hlinks.1,by rw [hcallers]; exact hlinks.2⟩

/-- From frame pointer 2 the function comes to the `ret` of its empty block with 3. -/
theorem stranded_unbalanced : ¬ ∀ (P : List Function) (vm : VM) (s0 s : State) (bare : Bool),
    (∀ g ∈ P, Built g) → Start P s0 → ReflTransGen (Follows P vm) s0 s → Guarded P vm s →
      AtExit s bare → Balanced s := by
  intro h
  let P := [compiled stranded]
  let link : Link := ⟨0,2,.felt 0,.felt 0⟩
  let m0 : Machine := ⟨fun _ => 2,fun _ => .felt 0⟩
  let m1 : Machine := m0.set R9 (2 + ((BitVec.ofInt 32 (adj (compiled stranded))).toInt : ℤ))
  let s0 : State := ⟨⟨0,text (functionAt P 0) 0⟩,m0,[link]⟩
  let s1 : State := ⟨⟨0,(text (functionAt P 0) 0).tail⟩,m1,[link]⟩
  let s2 : State := ⟨⟨0,text (functionAt P 0) 1⟩,m1,[link]⟩
  have hbuilt : ∀ g ∈ P, Built g := by
    intro g hg
    rw [List.mem_singleton.mp hg]
    exact built_compiled lowered_stranded (by decide)
  have hfirst : Follows P additions s0 s1 := follows_of_followed (by decide) rfl
  have hsecond : Follows P additions s1 s2 := follows_of_followed (by decide) rfl
  have hrun : ReflTransGen (Follows P additions) s0 s2 := .tail (.tail .refl hfirst) hsecond
  have hstart : Start P s0 := ⟨by decide,by decide,rfl,by decide,rfl⟩
  have hguard : Guarded P additions s2 :=
    ⟨fun _ _ _ a ha => absurd ha (Set.notMem_empty a),by decide⟩
  have hbalanced := h P additions s0 s2 true hbuilt hstart hrun hguard (.bareRet rfl)
  have hfp : m1.fp = 2 := (hbalanced link [] rfl).1
  revert hfp
  decide

end Runs

end FramePointer
end Codegen
end OlaLang
