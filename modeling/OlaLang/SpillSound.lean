import OlaLang.SpillMeaning

/-! A spill preserves what the function does on every path exactly when the register is neither read
where it is written nor read by a phi. The instructions between two of the old function are the
store after a definition and the load before a use; one step of the old function is then one or two
steps of the new one. -/
namespace OlaLang
namespace Codegen
namespace Spiller

open Liveness ProgramPoints

variable {f f' : State} {r v slot k i b : ℕ} {inst : InstructionData} {pred : Option BasicBlockId}

/-! ### The registers of the old function -/

theorem old_ne (hv : f.nextVReg ≤ v) {lr : LReg} (h : Old f lr) : lr ≠ .virt v := by
  rintro rfl
  exact absurd (h v rfl) (Nat.not_lt.mpr hv)

theorem substReg_self : substReg r v (.virt r) = .virt v := if_pos rfl

theorem substReg_of_ne {lr : LReg} (h : lr ≠ .virt r) : substReg r v lr = lr := if_neg h

/-- A new register is none of the old ones. -/
theorem substReg_injective (hv : f.nextVReg ≤ v) {x y : LReg} (hx : Old f x) (hy : Old f y)
    (h : substReg r v x = substReg r v y) : x = y := by
  by_cases hxr : x = .virt r
  · by_cases hyr : y = .virt r
    · rw [hxr,hyr]
    · rw [hxr,substReg_self,substReg_of_ne hyr] at h
      exact absurd h.symm (old_ne hv hy)
  · by_cases hyr : y = .virt r
    · rw [hyr,substReg_self,substReg_of_ne hxr] at h
      exact absurd h (old_ne hv hx)
    · rw [substReg_of_ne hxr,substReg_of_ne hyr] at h
      exact h

theorem lreg_eq_virt {d : OperandData} {w : ℕ} (h : lreg? d = some (.virt w)) : d = .vreg w := by
  cases d with
  | vreg u =>
    cases h
    rfl
  | _ => cases h

theorem WellFormed.old_inputs (hf : WellFormed f) (hi : i ∈ f.numbering.layout.flatten) :
    ∀ lr ∈ inputsOf (f.insts i) pred, Old f lr := by
  intro lr hlr w hw
  rcases List.mem_filterMap.mp hlr with ⟨⟨op,n⟩,hop,hsome⟩
  have hmem : op ∈ (f.insts i).operands := (List.mem_zipIdx hop).2.2 ▸ List.getElem_mem _
  rcases Option.ite_none_right_eq_some.mp hsome with ⟨_,hreg⟩
  rw [hw] at hreg
  exact hf.vregs i hi op hmem w (lreg_eq_virt hreg)

theorem WellFormed.old_outputs (hf : WellFormed f) (hi : i ∈ f.numbering.layout.flatten) :
    ∀ lr ∈ outputsOf (f.insts i), Old f lr := by
  intro lr hlr w hw
  rcases List.mem_filterMap.mp hlr with ⟨op,hop,hsome⟩
  rcases Option.ite_none_right_eq_some.mp hsome with ⟨_,hreg⟩
  rw [hw] at hreg
  exact hf.vregs i hi op hop w (lreg_eq_virt hreg)

theorem WellFormed.noSlot (hf : WellFormed f) (hi : i ∈ f.numbering.layout.flatten) :
    NoSlot f.slots.length (f.insts i) := fun op hop h =>
  absurd (hf.slots i hi op hop _ h) (Nat.lt_irrefl _)

/-- A phi that reads a register names it as an input, and so does any other instruction. -/
theorem inputVregs_of_mem (h : .virt r ∈ inputsOf inst pred) : r ∈ inst.inputVregs := by
  rcases List.mem_filterMap.mp h with ⟨⟨op,n⟩,hop,hsome⟩
  have hmem : op ∈ inst.operands := (List.mem_zipIdx hop).2.2 ▸ List.getElem_mem _
  rcases Option.ite_none_right_eq_some.mp hsome with ⟨hinput,hreg⟩
  refine List.mem_filterMap.mpr ⟨op,hmem,?_⟩
  rw [if_pos hinput.1,lreg_eq_virt hreg]
  rfl

theorem Separate.noRead (h : Separate f r) (hi : i ∈ f.numbering.insts b)
    (hin : i ∈ f.numbering.layout.flatten) (hpred : ∀ p, pred = some p → p ∈ f.preds b)
    (hread : (f.insts i).isPhi = true ∨ r ∈ (f.insts i).outputVregs) :
    .virt r ∉ inputsOf (f.insts i) pred := by
  intro hmem
  cases hphi : (f.insts i).isPhi with
  | false =>
    rw [hphi] at hread
    rw [mem_inputsOf hphi] at hmem
    exact h.noReadWrite i hin hphi hmem (hread.resolve_left Bool.false_ne_true)
  | true =>
    cases pred with
    | none =>
      rcases List.mem_filterMap.mp hmem with ⟨op,_,hsome⟩
      rcases Option.ite_none_right_eq_some.mp hsome with ⟨hinput,_⟩
      exact absurd (hinput.2 hphi).1 Bool.false_ne_true
    | some p => exact h.noPhi b i hi hphi p (hpred p rfl) hmem

/-! ### One instruction -/

section
variable {V W : Type} {m : Meaning V W} {c c' e : Cpu V W} {entry entry' : LReg → V}

/-- The instruction with another register does what the instruction does, when it reads the same
values in the same world. -/
theorem execOther_replace (hv : f.nextVReg ≤ v) (hold : ∀ lr ∈ outputsOf inst, Old f lr)
    (hvalues : valuesOf pred entry' (inst.replaceVreg r v) e = valuesOf pred entry inst c)
    (hworld : e.world = c.world) :
    (execOther m pred entry' (inst.replaceVreg r v) e).world =
      (execOther m pred entry inst c).world ∧
    ∀ lr, Old f lr → e.regs (substReg r v lr) = c.regs lr ∨ lr ∈ outputsOf inst →
      (execOther m pred entry' (inst.replaceVreg r v) e).regs (substReg r v lr) =
        (execOther m pred entry inst c).regs lr := by
  have hopcode : (inst.replaceVreg r v).opcode = inst.opcode := rfl
  constructor
  · rw [execOther,execOther,hvalues,hworld,shape_replace,hopcode]
  · intro lr hlr h
    rw [execOther,execOther,hvalues,hworld,shape_replace,hopcode,outputsOf_replace]
    exact writeFrom_map (fun x hx heq => substReg_injective hv (hold x hx) hlr heq) h

theorem map_agree {regs regs' : LReg → V} {l : List LReg}
    (hregs : ∀ lr, lr ≠ .virt r → Old f lr → regs' lr = regs lr) (hold : ∀ lr ∈ l, Old f lr)
    (hnot : .virt r ∉ l) : l.map regs' = l.map regs := by
  apply List.map_congr_left
  intro lr hlr
  exact hregs lr (fun heq => hnot (heq ▸ hlr)) (hold lr hlr)

/-- An instruction that does not read the register reads the same values. -/
theorem valuesOf_agree (hregs : ∀ lr, lr ≠ .virt r → Old f lr → c'.regs lr = c.regs lr)
    (hentry : ∀ lr, lr ≠ .virt r → Old f lr → entry' lr = entry lr)
    (hold : ∀ lr ∈ inputsOf inst pred, Old f lr) (hnot : .virt r ∉ inputsOf inst pred) :
    valuesOf pred entry' inst c' = valuesOf pred entry inst c := by
  rw [valuesOf,valuesOf]
  cases inst.isPhi with
  | true => exact map_agree hentry hold hnot
  | false => exact map_agree hregs hold hnot

theorem valuesOf_replace (hnot : .virt r ∉ inputsOf inst pred) :
    valuesOf pred entry (inst.replaceVreg r v) c = valuesOf pred entry inst c := by
  have hphi : (inst.replaceVreg r v).isPhi = inst.isPhi := rfl
  rw [valuesOf,valuesOf,inputsOf_replace,map_substReg hnot,hphi]

/-- An instruction that does not name the register. -/
theorem agree_other (ha : Agree f r c c')
    (hentry : ∀ lr, lr ≠ .virt r → Old f lr → entry' lr = entry lr)
    (hin : ∀ lr ∈ inputsOf inst pred, Old f lr) (hread : .virt r ∉ inputsOf inst pred)
    (hwrite : .virt r ∉ outputsOf inst) :
    Agree f r (execOther m pred entry inst c) (execOther m pred entry' inst c') := by
  have hvalues := valuesOf_agree ha.regs hentry hin hread
  constructor
  · intro lr hlr hold
    rw [execOther,execOther,hvalues,ha.world]
    exact writeFrom_congr (ha.regs lr hlr hold)
  · show c'.cell = _
    rw [execOther]
    exact ha.cell.trans (writeFrom_of_not_mem hwrite).symm
  · rw [execOther,execOther,hvalues,ha.world]

/-- A definition with a register of its own, and the store behind it. -/
theorem agree_def (ha : Agree f r c c') (hv : f.nextVReg ≤ v) (hr : r < f.nextVReg)
    (hentry : ∀ lr, lr ≠ .virt r → Old f lr → entry' lr = entry lr)
    (hin : ∀ lr ∈ inputsOf inst pred, Old f lr) (hout : ∀ lr ∈ outputsOf inst, Old f lr)
    (hread : .virt r ∉ inputsOf inst pred) (hwrite : .virt r ∈ outputsOf inst) :
    Agree f r (execOther m pred entry inst c)
      (exec m slot pred entry' (storeVregToSlot slot v)
        (execOther m pred entry' (inst.replaceVreg r v) c')) := by
  have hvalues : valuesOf pred entry' (inst.replaceVreg r v) c' = valuesOf pred entry inst c := by
    rw [valuesOf_replace hread,valuesOf_agree ha.regs hentry hin hread]
  rcases execOther_replace (m := m) hv hout hvalues ha.world with ⟨hworld,hregs⟩
  rw [exec_store]
  constructor
  · intro lr hlr hold
    have hstep := hregs lr hold
    rw [substReg_of_ne hlr] at hstep
    exact hstep (Or.inl (ha.regs lr hlr hold))
  · have hold : Old f (.virt r) := fun w hw => by
      cases hw
      exact hr
    have hstep := hregs (.virt r) hold (Or.inr hwrite)
    rw [substReg_self] at hstep
    exact hstep
  · exact hworld

/-- A use with a register of its own, and the load in front of it. -/
theorem agree_use (ha : Agree f r c c') (hv : f.nextVReg ≤ v)
    (hentry : ∀ lr, lr ≠ .virt r → Old f lr → entry' lr = entry lr)
    (hin : ∀ lr ∈ inputsOf inst pred, Old f lr) (hout : ∀ lr ∈ outputsOf inst, Old f lr)
    (hphi : inst.isPhi = true → .virt r ∉ inputsOf inst pred) (hwrite : .virt r ∉ outputsOf inst) :
    Agree f r (execOther m pred entry inst c)
      (execOther m pred entry' (inst.replaceVreg r v)
        (exec m slot pred entry' (loadFromSlot slot v) c')) := by
  rw [exec_load]
  have hloaded : ∀ lr, Old f lr →
      Function.update c'.regs (.virt v) c'.cell (substReg r v lr) = c.regs lr := by
    intro lr hold
    by_cases hlr : lr = .virt r
    · rw [hlr,substReg_self,Function.update_self]
      exact ha.cell
    · rw [substReg_of_ne hlr,Function.update_of_ne (old_ne hv hold)]
      exact ha.regs lr hlr hold
  have hvalues : valuesOf pred entry' (inst.replaceVreg r v)
      { c' with regs := Function.update c'.regs (.virt v) c'.cell } =
      valuesOf pred entry inst c := by
    cases hp : inst.isPhi with
    | true =>
      have hp' : (inst.replaceVreg r v).isPhi = true := hp
      rw [valuesOf,valuesOf,inputsOf_replace,map_substReg (hphi hp),hp,hp']
      exact map_agree hentry hin (hphi hp)
    | false =>
      have hp' : (inst.replaceVreg r v).isPhi = false := hp
      rw [valuesOf,valuesOf,inputsOf_replace,hp,hp',List.map_map]
      exact List.map_congr_left fun lr hlr => hloaded lr (hin lr hlr)
  rcases execOther_replace (m := m) hv hout hvalues ha.world with ⟨hworld,hregs⟩
  constructor
  · intro lr hlr hold
    have hstep := hregs lr hold (Or.inl (hloaded lr hold))
    rw [substReg_of_ne hlr] at hstep
    exact hstep
  · show c'.cell = _
    rw [execOther]
    exact ha.cell.trans (writeFrom_of_not_mem hwrite).symm
  · exact hworld

theorem execAll_append {l l' : List InstructionData} :
    execAll m slot pred entry (l ++ l') c =
      execAll m slot pred entry l' (execAll m slot pred entry l c) := by
  induction l generalizing c with
  | nil => rfl
  | cons inst rest ih => exact ih

end

/-! ### A block and a path -/

namespace Spilled

theorem insts_def (h : Spilled f f' r) (hf : WellFormed f) (hk : (f.defs r)[k]? = some i) :
    (f.expansion r i).map f'.insts = [(f.insts i).replaceVreg r (f.nextVReg+k),
      storeVregToSlot f.slots.length (f.nextVReg+k)] := by
  rw [hf.expansion_def hk,List.map_cons,List.map_cons,List.map_nil,h.defs k i hk,
    h.stores k (List.getElem?_eq_some_iff.mp hk).1]

theorem insts_use (h : Spilled f f' r) (hf : WellFormed f) (hk : (f.reloads r)[k]? = some i) :
    (f.expansion r i).map f'.insts =
      [loadFromSlot f.slots.length (f.nextVReg+(f.defs r).length+k),
        (f.insts i).replaceVreg r (f.nextVReg+(f.defs r).length+k)] := by
  rw [hf.expansion_use hk,List.map_cons,List.map_cons,List.map_nil,h.uses k i hk,
    h.loads k (List.getElem?_eq_some_iff.mp hk).1]

theorem insts_other (h : Spilled f f' r) (hi : i < f.nextInst) (hd : i ∉ f.defs r)
    (hu : i ∉ f.reloads r) : (f.expansion r i).map f'.insts = [f.insts i] := by
  rw [WellFormed.expansion_other hd hu,List.map_singleton,h.kept i hi hd hu]

theorem insts (h : Spilled f f' r) (b : ℕ) :
    f'.numbering.insts b = (f.numbering.insts b).flatMap (f.expansion r) := by
  rw [Numbering.insts,Numbering.insts,h.layout,List.getElem?_map]
  cases f.numbering.layout[b]? with
  | none => rfl
  | some l => rfl

theorem blockInsts (h : Spilled f f' r) (b : ℕ) : f'.blockInsts b =
    (f.numbering.insts b).flatMap fun i => (f.expansion r i).map f'.insts := by
  rw [State.blockInsts,h.insts,List.map_flatMap]

end Spilled

theorem mem_insts (h : i ∈ f.numbering.insts b) : i ∈ f.numbering.layout.flatten := by
  rw [Numbering.insts] at h
  cases hl : f.numbering.layout[b]? with
  | none =>
    rw [hl] at h
    cases h
  | some l =>
    rw [hl] at h
    exact List.mem_flatten.mpr ⟨l,List.mem_of_getElem? hl,h⟩

section
variable {V W : Type} {m : Meaning V W} {c c' : Cpu V W} {entry entry' : LReg → V}

/-- One step of the old function, and what the spill has made of it. -/
theorem Separate.step (h : Separate f r) (hf : WellFormed f) (hr : r < f.nextVReg)
    (hs : Spilled f f' r) (hi : i ∈ f.numbering.insts b)
    (hpred : ∀ p, pred = some p → p ∈ f.preds b)
    (hentry : ∀ lr, lr ≠ .virt r → Old f lr → entry' lr = entry lr) (ha : Agree f r c c') :
    Agree f r (exec m f.slots.length pred entry (f.insts i) c)
      (execAll m f.slots.length pred entry' ((f.expansion r i).map f'.insts) c') := by
  have hin := mem_insts hi
  rw [exec_other (hf.noSlot hin)]
  by_cases hd : i ∈ f.defs r
  · rcases List.getElem?_of_mem hd with ⟨k,hk⟩
    have hwrite := (hf.mem_defs.mp hd).2
    rw [hs.insts_def hf hk,execAll,execAll,execAll,exec_other (hf.noSlot hin).replace]
    exact agree_def ha (Nat.le_add_right _ _) hr hentry (hf.old_inputs hin) (hf.old_outputs hin)
      (h.noRead hi hin hpred (Or.inr hwrite)) (mem_outputsOf.mpr hwrite)
  · by_cases hu : i ∈ f.reloads r
    · rcases List.getElem?_of_mem hu with ⟨k,hk⟩
      rw [hs.insts_use hf hk,execAll,execAll,execAll,exec_other (hf.noSlot hin).replace]
      refine agree_use ha ?_ hentry (hf.old_inputs hin) (hf.old_outputs hin) ?_ ?_
      · rw [Nat.add_assoc]
        exact Nat.le_add_right _ _
      · exact fun hphi => h.noRead hi hin hpred (Or.inl hphi)
      · exact fun hmem => (hf.mem_reloads.mp hu).2.2 (mem_outputsOf.mp hmem)
    · have hnames : r ∉ (f.insts i).outputVregs ∧ r ∉ (f.insts i).inputVregs := by
        rw [hf.mem_defs] at hd
        rw [hf.mem_reloads] at hu
        tauto
      rw [hs.insts_other (hf.old i hin) hd hu,execAll,execAll,exec_other (hf.noSlot hin)]
      exact agree_other ha hentry (hf.old_inputs hin)
        (fun hmem => hnames.2 (inputVregs_of_mem hmem))
        (fun hmem => hnames.1 (mem_outputsOf.mp hmem))

theorem Separate.steps (h : Separate f r) (hf : WellFormed f) (hr : r < f.nextVReg)
    (hs : Spilled f f' r) (hpred : ∀ p, pred = some p → p ∈ f.preds b)
    (hentry : ∀ lr, lr ≠ .virt r → Old f lr → entry' lr = entry lr) {l : List ℕ}
    (hl : ∀ i ∈ l, i ∈ f.numbering.insts b) (ha : Agree f r c c') :
    Agree f r (execAll m f.slots.length pred entry (l.map f.insts) c)
      (execAll m f.slots.length pred entry'
        (l.flatMap fun i => (f.expansion r i).map f'.insts) c') := by
  induction l generalizing c c' with
  | nil => exact ha
  | cons i rest ih =>
    rw [List.forall_mem_cons] at hl
    rw [List.map_cons,List.flatMap_cons,execAll_append,execAll]
    exact ih hl.2 (h.step hf hr hs hl.1 hpred hentry ha)

theorem Separate.block (h : Separate f r) (hf : WellFormed f) (hr : r < f.nextVReg)
    (hs : Spilled f f' r) (hpred : ∀ p, pred = some p → p ∈ f.preds b)
    (hentry : ∀ lr, lr ≠ .virt r → Old f lr → entry' lr = entry lr) (ha : Agree f r c c') :
    Agree f r (execAll m f.slots.length pred entry (f.blockInsts b) c)
      (execAll m f.slots.length pred entry' (f'.blockInsts b) c') := by
  rw [hs.blockInsts]
  exact h.steps hf hr hs hpred hentry (fun _ hi => hi) ha

theorem Separate.preserves (h : Separate f r) (hf : WellFormed f) (hr : r < f.nextVReg)
    (hs : Spilled f f' r) : Preserves f f' r := by
  intro V W m pred path c c' hwalk ha
  induction path generalizing pred c c' with
  | nil => exact ha
  | cons b rest ih =>
    exact ih _ _ _ hwalk.2 (h.block hf hr hs hwalk.1 ha.regs ha)

end

/-! ### The other way: a register that is read and was never loaded -/

/-- The outputs are zero, and the values that are read go to a log. -/
def logging : Meaning ℕ (List ℕ) where
  out := fun _ _ _ _ _ _ => 0
  world := fun _ _ _ values log => log ++ values

/-- No value above one. -/
structure Low (c : Cpu ℕ (List ℕ)) : Prop where
  regs : ∀ lr, c.regs lr ≤ 1
  cell : c.cell ≤ 1
  world : ∀ x ∈ c.world, x ≤ 1

section
variable {c c' : Cpu ℕ (List ℕ)} {entry : LReg → ℕ} {l : List InstructionData}

theorem writeFrom_le {regs : LReg → ℕ} {rs : List LReg} (h : ∀ lr, regs lr ≤ 1) (lr : LReg) :
    writeFrom (fun _ => 0) k rs regs lr ≤ 1 := by
  induction rs generalizing k regs with
  | nil => exact h lr
  | cons x rest ih =>
    apply ih
    intro y
    by_cases hy : y = x
    · rw [hy,Function.update_self]
      exact Nat.zero_le 1
    · rw [Function.update_of_ne hy]
      exact h y

theorem Low.exec (h : Low c) (hentry : ∀ lr, entry lr ≤ 1) :
    Low (exec logging slot pred entry inst c) := by
  rw [Spiller.exec]
  split
  · exact ⟨h.regs,h.regs _,h.world⟩
  · split
    · refine ⟨fun lr => ?_,h.cell,h.world⟩
      show Function.update c.regs _ c.cell lr ≤ 1
      rw [Function.update_apply]
      split
      · exact h.cell
      · exact h.regs lr
    · refine ⟨writeFrom_le h.regs,h.cell,fun x hx => ?_⟩
      rcases List.mem_append.mp hx with hx | hx
      · exact h.world x hx
      · rcases List.mem_map.mp hx with ⟨lr,_,rfl⟩
        split
        · exact hentry lr
        · exact h.regs lr

theorem Low.execAll (h : Low c) (hentry : ∀ lr, entry lr ≤ 1) :
    Low (execAll logging slot pred entry l c) := by
  induction l generalizing c with
  | nil => exact h
  | cons inst rest ih => exact ih (h.exec hentry)

theorem exec_log (h : 2 ∈ c.world) : 2 ∈ (exec logging slot pred entry inst c).world := by
  rw [exec]
  split
  · exact h
  · split
    · exact h
    · exact List.mem_append_left _ h

theorem execAll_log (h : 2 ∈ c.world) : 2 ∈ (execAll logging slot pred entry l c).world := by
  induction l generalizing c with
  | nil => exact h
  | cons inst rest ih => exact ih (exec_log h)

theorem exec_keeps {lr : LReg} (h : lr ∉ outputsOf inst) :
    (exec logging slot pred entry inst c).regs lr = c.regs lr := by
  rw [exec]
  split
  · rfl
  · split
    · rename_i w hw
      rcases Option.filter_eq_some_iff.mp hw with ⟨hhead,_⟩
      have hout : .virt w ∈ outputsOf inst :=
        mem_outputsOf.mpr (List.mem_of_mem_head? hhead)
      exact Function.update_of_ne (fun heq : lr = .virt w => h (heq ▸ hout)) _ _
    · exact writeFrom_of_not_mem h

theorem execAll_keeps {lr : LReg} (h : ∀ inst ∈ l, lr ∉ outputsOf inst) :
    (execAll logging slot pred entry l c).regs lr = c.regs lr := by
  induction l generalizing c with
  | nil => rfl
  | cons inst rest ih =>
    rw [List.forall_mem_cons] at h
    exact (ih h.2).trans (exec_keeps h.1)

/-- The value two in a register that nothing writes before the instruction that reads it. -/
theorem execAll_reads {lr : LReg} {before after : List InstructionData}
    (hslot : NoSlot slot inst) (hread : lr ∈ inputsOf inst pred) (hc : c.regs lr = 2)
    (hkept : inst.isPhi = true ∨ ∀ inst ∈ before, lr ∉ outputsOf inst) :
    2 ∈ (execAll logging slot pred c.regs (before ++ inst::after) c).world := by
  rw [execAll_append,execAll]
  apply execAll_log
  rw [exec_other hslot]
  apply List.mem_append_right
  refine List.mem_map.mpr ⟨lr,hread,?_⟩
  cases hphi : inst.isPhi with
  | true => exact hc
  | false =>
    rw [hphi] at hkept
    exact (execAll_keeps (hkept.resolve_left Bool.false_ne_true)).trans hc

end

/-- The old registers hold one, the new ones two. -/
def marked (f : State) : LReg → ℕ
  | .virt v => if v < f.nextVReg then 1 else 2
  | .phys _ => 1

theorem marked_old {lr : LReg} (h : Old f lr) : marked f lr = 1 := by
  cases lr with
  | virt v => exact if_pos (h v rfl)
  | phys _ => rfl

/-- A function that does on every path what it did reads no new register that is not loaded. -/
theorem Preserves.not_mem_inputs (h : Preserves f f' r) (hf : WellFormed f)
    (hi : i ∈ f.numbering.insts b) (hpred : ∀ p, pred = some p → p ∈ f.preds b)
    (hv : f.nextVReg ≤ v) {before after : List InstructionData}
    (hblock : f'.blockInsts b = before ++ (f.insts i).replaceVreg r v::after)
    (hkept : (f.insts i).isPhi = true ∨ ∀ inst ∈ before, .virt v ∉ outputsOf inst) :
    .virt r ∉ inputsOf (f.insts i) pred := by
  intro hmem
  have hread : .virt v ∈ inputsOf ((f.insts i).replaceVreg r v) pred := by
    rw [inputsOf_replace]
    exact List.mem_map.mpr ⟨_,hmem,substReg_self⟩
  have hagree : Agree f r (⟨fun _ => 1,1,[]⟩ : Cpu ℕ (List ℕ)) ⟨marked f,1,[]⟩ :=
    ⟨fun _ _ hold => marked_old hold,rfl,rfl⟩
  have hrun := (h ℕ (List ℕ) logging pred [b] _ _ ⟨hpred,trivial⟩ hagree).world
  have htwo : 2 ∈ (execAll logging f.slots.length pred (marked f) (f'.blockInsts b)
      ⟨marked f,1,[]⟩).world := by
    rw [hblock]
    exact execAll_reads (c := ⟨marked f,1,[]⟩) (hf.noSlot (mem_insts hi)).replace hread
      (if_neg (Nat.not_lt.mpr hv)) hkept
  have hlow : Low (execAll logging f.slots.length pred (fun _ => 1) (f.blockInsts b)
      ⟨fun _ => 1,1,[]⟩) :=
    Low.execAll ⟨fun _ => le_refl 1,le_refl 1,by simp⟩ fun _ => le_refl 1
  have hmem' : 2 ∈ (execAll logging f.slots.length pred (fun _ => 1) (f.blockInsts b)
      ⟨fun _ => 1,1,[]⟩).world := hrun ▸ htwo
  exact absurd (hlow.world 2 hmem') (by decide)

namespace Spilled

/-- The instructions before a definition do not write its new register. -/
theorem not_output (h : Spilled f f' r) (hf : WellFormed f) {j : ℕ} (hk : (f.defs r)[k]? = some i)
    (hj : j ∈ f.numbering.layout.flatten) (hne : j ≠ i) :
    ∀ inst ∈ (f.expansion r j).map f'.insts, .virt (f.nextVReg+k) ∉ outputsOf inst := by
  have hlt := (List.getElem?_eq_some_iff.mp hk).1
  have hold : .virt (f.nextVReg+k) ∉ outputsOf (f.insts j) := fun hmem =>
    old_ne (Nat.le_add_right _ _) (hf.old_outputs hj _ hmem) rfl
  have hsubst : ∀ w ≠ f.nextVReg+k,
      .virt (f.nextVReg+k) ∉ outputsOf ((f.insts j).replaceVreg r w) := by
    intro w hw hmem
    rw [outputsOf_replace] at hmem
    rcases List.mem_map.mp hmem with ⟨lr,hlr,heq⟩
    by_cases hr : lr = .virt r
    · rw [hr,substReg_self] at heq
      exact hw (LReg.virt.inj heq)
    · rw [substReg_of_ne hr] at heq
      exact hold (heq ▸ hlr)
  intro inst hinst
  by_cases hd : j ∈ f.defs r
  · rcases List.getElem?_of_mem hd with ⟨n,hn⟩
    rw [h.insts_def hf hn] at hinst
    have hnk : n ≠ k := fun heq => hne (Option.some.inj (hn.symm.trans (heq ▸ hk)))
    rcases List.mem_cons.mp hinst with rfl | hinst
    · exact hsubst _ (by omega)
    · rw [List.mem_singleton] at hinst
      rw [hinst]
      simp [outputsOf,storeVregToSlot,Operand.plain,Operand.asInput]
  · by_cases hu : j ∈ f.reloads r
    · rcases List.getElem?_of_mem hu with ⟨n,hn⟩
      rw [h.insts_use hf hn] at hinst
      rcases List.mem_cons.mp hinst with rfl | hinst
      · have hw : f.nextVReg+(f.defs r).length+n ≠ f.nextVReg+k := by omega
        simpa [outputsOf,loadFromSlot,Operand.plain,Operand.asInput,Operand.asOutput,lreg?]
          using hw.symm
      · rw [List.mem_singleton] at hinst
        rw [hinst]
        exact hsubst _ (by omega)
    · rw [h.insts_other (hf.old j hj) hd hu,List.mem_singleton] at hinst
      rw [hinst]
      exact hold

theorem noReadWrite (h : Spilled f f' r) (hf : WellFormed f) (hp : Preserves f f' r)
    (hi : i ∈ f.numbering.layout.flatten) (hphi : (f.insts i).isPhi = false)
    (hread : r ∈ (f.insts i).inputVregs) : r ∉ (f.insts i).outputVregs := by
  intro hwrite
  rcases List.getElem?_of_mem (hf.mem_defs.mpr ⟨hi,hwrite⟩) with ⟨k,hk⟩
  rcases List.mem_flatten.mp hi with ⟨l,hl,hil⟩
  rcases List.getElem?_of_mem hl with ⟨b,hb⟩
  have hinsts : f.numbering.insts b = l := by rw [Numbering.insts,hb]; rfl
  rcases List.append_of_mem hil with ⟨front,back,hsplit⟩
  have hnodup : l.Nodup := (List.nodup_flatten.mp hf.nodup).1 l hl
  have hblock : f'.blockInsts b = front.flatMap (fun j => (f.expansion r j).map f'.insts) ++
      (f.insts i).replaceVreg r (f.nextVReg+k)::(storeVregToSlot f.slots.length (f.nextVReg+k)::
        back.flatMap fun j => (f.expansion r j).map f'.insts) := by
    rw [h.blockInsts,hinsts,hsplit,List.flatMap_append,List.flatMap_cons,h.insts_def hf hk]
    rfl
  have hread' : .virt r ∈ inputsOf (f.insts i) none := (mem_inputsOf hphi).mpr hread
  refine hp.not_mem_inputs hf (by rw [hinsts]; exact hil) (by simp) (Nat.le_add_right _ _) hblock
    (Or.inr ?_) hread'
  intro inst hinst
  rcases List.mem_flatMap.mp hinst with ⟨j,hj,hinst⟩
  have hjl : j ∈ l := by
    rw [hsplit]
    exact List.mem_append_left _ hj
  refine h.not_output hf hk (List.mem_flatten.mpr ⟨l,hl,hjl⟩) ?_ inst hinst
  rintro rfl
  rw [hsplit] at hnodup
  exact (List.nodup_append.mp hnodup).2.2 j hj j List.mem_cons_self rfl

theorem noPhi (h : Spilled f f' r) (hf : WellFormed f) (hp : Preserves f f' r)
    (hi : i ∈ f.numbering.insts b) (hphi : (f.insts i).isPhi = true) {p : ℕ}
    (hpreds : p ∈ f.preds b) : .virt r ∉ inputsOf (f.insts i) (some p) := by
  intro hmem
  have hin := mem_insts hi
  rcases List.append_of_mem hi with ⟨front,back,hsplit⟩
  have hblock := h.blockInsts b
  rw [hsplit,List.flatMap_append,List.flatMap_cons] at hblock
  have hpred : ∀ q, some p = some q → q ∈ f.preds b := fun q hq => Option.some.inj hq ▸ hpreds
  by_cases hd : i ∈ f.defs r
  · rcases List.getElem?_of_mem hd with ⟨k,hk⟩
    rw [h.insts_def hf hk] at hblock
    exact hp.not_mem_inputs hf hi hpred (Nat.le_add_right _ _) hblock (Or.inl hphi) hmem
  · have hu : i ∈ f.reloads r := hf.mem_reloads.mpr ⟨hin,inputVregs_of_mem hmem,fun hwrite =>
      hd (hf.mem_defs.mpr ⟨hin,hwrite⟩)⟩
    rcases List.getElem?_of_mem hu with ⟨k,hk⟩
    rw [h.insts_use hf hk,List.cons_append,List.append_cons] at hblock
    refine hp.not_mem_inputs hf hi hpred ?_ hblock (Or.inl hphi) hmem
    rw [Nat.add_assoc]
    exact Nat.le_add_right _ _

theorem separate (h : Spilled f f' r) (hf : WellFormed f) (hp : Preserves f f' r) : Separate f r :=
  ⟨fun _ hi hphi hread => h.noReadWrite hf hp hi hphi hread,
    fun _ _ hi hphi _ hpreds => h.noPhi hf hp hi hphi hpreds⟩

end Spilled

/-! ### The spill -/

/-- The spiller comes to an end with a function that does on every path what the function did, with
the stores and loads in their places, when its insertions have room, the register is a word, and no
instruction reads it where it writes it and no phi reads it. -/
theorem spill_preserves_iff (hf : WellFormed f) (hr : r < f.nextVReg) :
    (∃ fuel newVregs f', spill fuel r f = .ok (newVregs,f') ∧ Spilled f f' r ∧ Preserves f f' r) ↔
      Spillable f r ∧ Separate f r := by
  constructor
  · rintro ⟨fuel,newVregs,f',hrun,hs,hp⟩
    exact ⟨(spill_spec hf hr hrun).1,hs.separate hf hp⟩
  · rintro ⟨hspill,hsep⟩
    rcases spill_ok hf hr hspill with ⟨fuel,newVregs,f',hrun⟩
    have hs := (spill_spec hf hr hrun).2
    exact ⟨fuel,newVregs,f',hrun,hs,hsep.preserves hf hr hs⟩

/-- A function of one block, with registers of words and no slots, as the lowering leaves it. -/
def oneBlock (insts : List InstructionData) (vregs : ℕ) : State where
  insts := fun i => insts.getD i ⟨.RET,[]⟩
  parent := fun _ => 0
  preds := fun _ => []
  nextInst := insts.length
  vregs := fun _ => ⟨4,4⟩
  nextVReg := vregs
  users := fun v => ((List.range insts.length).map fun i =>
    (⟨i,decide (v ∈ (insts.getD i ⟨.RET,[]⟩).inputVregs),
      decide (v ∈ (insts.getD i ⟨.RET,[]⟩).outputVregs)⟩ : VRegUser)).filter
        fun u => u.read || u.write
  slots := []
  numbering := ⟨[List.range insts.length],ProgramPoints.numbering 0 [List.range insts.length],[]⟩

/-- The registers of the instruction are below `n`, and it names no slot. -/
def closed (n : ℕ) (inst : InstructionData) : Bool :=
  inst.operands.all fun op => match op.data with
    | .vreg v => decide (v < n)
    | .slot _ => false
    | _ => true

theorem oneBlock_wellFormed {insts : List InstructionData} {n : ℕ}
    (h : insts.all (closed n) = true) : WellFormed (oneBlock insts n) := by
  have hflat : (oneBlock insts n).numbering.layout.flatten = List.range insts.length := by
    simp [oneBlock]
  have hnodup : [List.range insts.length].flatten.Nodup := by
    rw [List.flatten_singleton]
    exact List.nodup_range
  have hclosed : ∀ i ∈ (oneBlock insts n).numbering.layout.flatten,
      closed n ((oneBlock insts n).insts i) = true := by
    intro i hi
    rw [hflat,List.mem_range] at hi
    have hget : (oneBlock insts n).insts i = insts[i] := by
      show insts.getD i _ = _
      rw [List.getD_eq_getElem?_getD,List.getElem?_eq_getElem hi]
      rfl
    rw [hget]
    exact List.all_eq_true.mp h _ (List.getElem_mem hi)
  constructor
  · exact increasing_numbering hnodup []
  · exact hnodup
  · intro b l hb i _
    cases b with
    | zero => rfl
    | succ b => cases hb
  · intro i hi
    rw [hflat,List.mem_range] at hi
    exact hi
  · intro i hi
    refine List.lookup_eq_none_iff.mpr ?_
    rintro ⟨j,pp⟩ hmem
    have hj : j ∈ List.range insts.length := by
      have hzip : (j,pp) ∈ (List.range insts.length).zip
          ((steps STEP (List.range insts.length).length).map fun n => (⟨0,n⟩ : ProgramPoint)) := by
        simpa [oneBlock,numbering] using hmem
      exact (List.of_mem_zip hzip).1
    rw [List.mem_range] at hj
    have hne : i ≠ j := Nat.ne_of_gt (Nat.lt_of_lt_of_le hj hi)
    simpa using hne
  · intro v u
    rw [hflat]
    show u ∈ ((List.range insts.length).map fun i => (oneBlock insts n).userOf v i).filter
      (fun u => u.read || u.write) ↔ _
    rw [List.mem_filter,List.mem_map,Bool.or_eq_true]
    constructor
    · rintro ⟨⟨i,hi,rfl⟩,hflag⟩
      exact ⟨hi,rfl,hflag⟩
    · rintro ⟨hi,heq,hflag⟩
      exact ⟨⟨u.inst,hi,heq.symm⟩,hflag⟩
  · intro v
    have hmap : ((List.range insts.length).map fun i => (oneBlock insts n).userOf v i).map
        (·.inst) = List.range insts.length := by
      rw [List.map_map]
      exact List.map_id _
    have hsub : (((oneBlock insts n).users v).map (·.inst)).Sublist
        (((List.range insts.length).map fun i => (oneBlock insts n).userOf v i).map (·.inst)) :=
      List.filter_sublist.map _
    rw [hmap] at hsub
    exact List.nodup_range.sublist hsub
  · intro i hi op hop v hv
    have hop' := List.all_eq_true.mp (hclosed i hi) op hop
    rw [hv] at hop'
    exact of_decide_eq_true hop'
  · intro i hi op hop s hs
    have hop' := List.all_eq_true.mp (hclosed i hi) op hop
    rw [hs] at hop'
    cases hop'

/-- `a < b`, with the value of the comparison kept for later. -/
def strictCompare : List InstructionData :=
  [⟨.GTE,[.asOutput (.vreg 0),.asInput (.reg (GR 2)),.asInput (.reg (GR 1))]⟩,
   ⟨.NEQ,[.asOutput (.vreg 1),.asInput (.reg (GR 1)),.asInput (.reg (GR 2))]⟩,
   ⟨.ANDrr,[.asOutput (.vreg 0),.inputOutput (.vreg 0),.asInput (.vreg 1)]⟩,
   ⟨.MOVrr,[.asOutput (.reg (GR 0)),.asInput (.vreg 0)]⟩]

theorem spill_preserves_iff_strictCompare :
    (∃ fuel newVregs f', spill fuel 1 (oneBlock strictCompare 2) = .ok (newVregs,f') ∧
      Spilled (oneBlock strictCompare 2) f' 1 ∧ Preserves (oneBlock strictCompare 2) f' 1) ↔
      Spillable (oneBlock strictCompare 2) 1 ∧ Separate (oneBlock strictCompare 2) 1 :=
  spill_preserves_iff (oneBlock_wellFormed (by decide)) (by decide)

/-- The conjunction of a strict comparison reads the register that it writes. -/
theorem strictCompare_not_preserved : ¬ ∀ (f : State) (r : ℕ), WellFormed f → r < f.nextVReg →
    ∃ fuel newVregs f', spill fuel r f = .ok (newVregs,f') ∧ Spilled f f' r ∧
      Preserves f f' r := by
  intro h
  have hf : WellFormed (oneBlock strictCompare 2) := oneBlock_wellFormed (by decide)
  rcases h _ 0 hf (by decide) with ⟨_,_,f',_,hs,hp⟩
  exact (hs.separate hf hp).noReadWrite 2 (by decide) (by decide) (by decide) (by decide)

end Spiller
end Codegen
end OlaLang
