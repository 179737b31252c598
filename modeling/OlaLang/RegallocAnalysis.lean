import OlaLang.LivenessSound
import OlaLang.Regalloc
import OlaLang.SpillKeeps
import OlaLang.SpillSound

/-! The live ranges that the allocator starts with. A virtual register has one exactly when some
instruction reads or writes it, whatever else names it, and a physical register has a segment at
every instruction that names it. -/
namespace OlaLang
namespace Codegen

namespace Liveness

/-! ### What the analysis finds -/

section Ranges

variable {f : Function} {x : LReg} {v : VReg} {b n : ℕ} {data data' : Data} {live : Analysis}
  {inst : InstructionData} {l l' : LocalRanges} {insts : List InstructionData}

theorem foldlM_invariant {α σ : Type} {step : σ → α → Option σ} {I : σ → Prop} {as : List α}
    (hstep : ∀ a ∈ as, ∀ s s', step s a = some s' → I s → I s') {s s' : σ}
    (h : as.foldlM step s = some s') (hs : I s) : I s' := by
  induction as generalizing s with
  | nil =>
    cases h
    exact hs
  | cons a as ih =>
    rw [List.foldlM_cons] at h
    obtain ⟨s₁,h₁,hrest⟩ := Option.bind_eq_some_iff.mp h
    exact ih (fun a' ha' => hstep a' (List.mem_cons_of_mem _ ha')) hrest
      (hstep a List.mem_cons_self s s₁ h₁ hs)

theorem propagateReg_grows {fuel : ℕ} {phiPred : Option BasicBlockId}
    (h : propagateReg f x fuel b phiPred data = some data') : Grows x data data' := by
  induction fuel generalizing b phiPred data data' with
  | zero => cases h
  | succ fuel ih =>
    rw [propagateReg] at h
    split at h
    · cases h
      exact .refl x data
    · split at h
      · cases h
        exact .refl x data
      · refine (addLiveIn_grows x data b).trans
          (foldlM_invariant (I := fun s => Grows x (data.addLiveIn b x) s) ?_ h (.refl _ _))
        intro pred _ s s' hs hgrows
        split at hs
        · cases hs
          exact hgrows
        · split at hs
          · cases hs
            exact hgrows
          · exact hgrows.trans ((addLiveOut_grows x s pred).trans (ih hs))

/-- A register that no instruction reads is live nowhere. -/
theorem visit_unread (h : visit f (setDef f) = some data)
    (hx : ∀ b phiPred, (b,x,phiPred) ∉ visits f) (b : ℕ) :
    x ∉ (data b).liveIn ∧ x ∉ (data b).liveOut := by
  refine foldlM_invariant (I := fun s : Data => ∀ b, x ∉ (s b).liveIn ∧ x ∉ (s b).liveOut) ?_ h
    (fun b => by simp [setDef]) b
  rintro ⟨b',y,phiPred⟩ hmem s s' hs hnone b
  have hne : x ≠ y := by
    rintro rfl
    exact hx b' phiPred hmem
  have hgrows := propagateReg_grows hs
  exact ⟨fun hin => (hnone b).1 (hgrows.otherIn b x hne hin),
    fun hout => (hnone b).2 (hgrows.otherOut b x hne hout)⟩

theorem visitInst_isSome (pp : ProgramPoint) : ((l.visitInst pp inst).vregs v).isSome ↔
    (l.vregs v).isSome ∨ v ∈ inst.inputVregs ∨ v ∈ inst.outputVregs := by
  rw [visitInst_vregs,outputEntry,inputEntry]
  by_cases hin : v ∈ inst.inputVregs <;> by_cases hout : v ∈ inst.outputVregs <;> simp [hin,hout]

theorem scan_isSome : ((l.scan b n insts).vregs v).isSome ↔
    (l.vregs v).isSome ∨ ∃ inst ∈ insts, v ∈ inst.inputVregs ∨ v ∈ inst.outputVregs := by
  induction insts generalizing n l with
  | nil => simp [LocalRanges.scan]
  | cons inst insts ih =>
    rw [LocalRanges.scan,ih,visitInst_isSome,List.exists_mem_cons_iff,or_assoc]

theorem leave_isSome {pp : ProgramPoint} {liveOut : Finset LReg}
    (h : l.leave pp liveOut = some l') : (l'.vregs v).isSome ↔ (l.vregs v).isSome := by
  rw [leave_vregs h]
  split <;> simp

theorem mapM_forall {α β : Type} {g : α → Option β} {as : List α} {bs : List β}
    (h : as.mapM g = some bs) : ∀ a ∈ as, ∃ b, g a = some b := by
  induction as generalizing bs with
  | nil => simp
  | cons a as ih =>
    rw [List.mapM_cons] at h
    obtain ⟨b,hb,h⟩ := Option.bind_eq_some_iff.mp h
    obtain ⟨bs',hbs,_⟩ := Option.bind_eq_some_iff.mp h
    exact List.forall_mem_cons.mpr ⟨⟨b,hb⟩,ih hbs⟩

theorem analyzeFunction_eq_some (h : analyzeFunction f = some live) :
    ∃ data, visit f (setDef f) = some data ∧ (∀ b < f.blocks.length, ∃ l,
      blockRanges f data b = some l) ∧ ∀ x seg, seg ∈ live.ranges x ↔
        ∃ b < f.blocks.length, ∃ l, blockRanges f data b = some l ∧ seg ∈ l.segments x := by
  obtain ⟨data,hdata,h⟩ := Option.bind_eq_some_iff.mp h
  obtain ⟨locals,hlocals,h⟩ := Option.bind_eq_some_iff.mp h
  cases h
  have hall : ∀ b < f.blocks.length, ∃ l, blockRanges f data b = some l := fun b hb =>
    mapM_forall hlocals b (List.mem_range.mpr hb)
  obtain ⟨locals',hlocals',hmem⟩ := mapM_some (g := blockRanges f data)
    (List.range f.blocks.length) fun b hb =>
      Option.isSome_iff_exists.mpr (hall b (List.mem_range.mp hb))
  cases hlocals.symm.trans hlocals'
  refine ⟨data,hdata,hall,fun x seg => ?_⟩
  simp only [List.mem_flatMap,hmem,List.mem_range]
  constructor
  · rintro ⟨l,⟨b,hb,hl⟩,hseg⟩
    exact ⟨b,hb,l,hl,hseg⟩
  · rintro ⟨b,hb,l,hl,hseg⟩
    exact ⟨l,⟨b,hb,hl⟩,hseg⟩

theorem inputVregs_of_visitInst {phiPred : Option BasicBlockId}
    (h : (.virt v,phiPred) ∈ visitInst inst) : v ∈ inst.inputVregs := by
  rcases List.mem_append.mp h with h | h
  · obtain ⟨⟨i,w⟩,hw,heq⟩ := List.mem_map.mp h
    cases heq
    exact mem_inputVregs.mpr ⟨i,mem_inputVregsWithIndexes.mp hw⟩
  · obtain ⟨_,_,heq⟩ := List.mem_map.mp h
    cases heq

/-- A virtual register has segments when some instruction reads or writes it. -/
theorem ranges_virt (h : analyzeFunction f = some live) : live.ranges (.virt v) ≠ [] ↔
    ∃ b < f.blocks.length, ∃ inst ∈ f.insts b, v ∈ inst.inputVregs ∨ v ∈ inst.outputVregs := by
  obtain ⟨data,hdata,hall,hmem⟩ := analyzeFunction_eq_some h
  have hsome : ∀ l : LocalRanges, (∃ seg, seg ∈ l.segments (.virt v)) ↔ (l.vregs v).isSome := by
    intro l
    rw [LocalRanges.segments,Option.isSome_iff_exists]
    simp only [Option.mem_toList]
  have hblock : ∀ b l, blockRanges f data b = some l → ((l.vregs v).isSome ↔
      .virt v ∈ (data b).liveIn ∨ ∃ inst ∈ f.insts b, v ∈ inst.inputVregs ∨ v ∈ inst.outputVregs) := by
    intro b l hl
    rw [leave_isSome hl,scan_isSome]
    refine or_congr ?_ Iff.rfl
    by_cases hin : .virt v ∈ (data b).liveIn <;> simp [LocalRanges.enter,hin]
  constructor
  · intro hne
    obtain ⟨seg,hseg⟩ := List.exists_mem_of_ne_nil _ hne
    obtain ⟨b,hb,l,hl,hseg⟩ := (hmem _ _).mp hseg
    rcases (hblock b l hl).mp ((hsome l).mp ⟨seg,hseg⟩) with hin | hnamed
    · by_contra hnone
      refine (visit_unread hdata ?_ b).1 hin
      intro b' phiPred hread
      obtain ⟨inst,hinst,hread⟩ := mem_visits.mp hread
      obtain ⟨i,hi⟩ := List.mem_iff_getElem?.mp hinst
      exact hnone ⟨b',lt_of_insts hi,inst,hinst,.inl (inputVregs_of_visitInst hread)⟩
    · exact ⟨b,hb,hnamed⟩
  · rintro ⟨b,hb,hnamed⟩
    obtain ⟨l,hl⟩ := hall b hb
    obtain ⟨seg,hseg⟩ := (hsome l).mpr ((hblock b l hl).mpr (.inr hnamed))
    exact List.ne_nil_of_mem ((hmem _ seg).mpr ⟨b,hb,l,hl,hseg⟩)

theorem mem_extendLast (pp : ProgramPoint) {segs : List LiveSegment} {seg : LiveSegment}
    (h : seg ∈ segs) : ∃ seg' ∈ LocalRanges.extendLast pp segs,
      seg'.start = seg.start ∧ (seg'.stop = seg.stop ∨ seg'.stop = pp) := by
  have hne : segs ≠ [] := List.ne_nil_of_mem h
  rw [LocalRanges.extendLast,List.getLast?_eq_some_getLast hne]
  rw [← List.dropLast_append_getLast hne,List.mem_append,List.mem_singleton] at h
  rcases h with h | rfl
  · exact ⟨seg,List.mem_append_left _ h,rfl,.inl rfl⟩
  · exact ⟨_,List.mem_append_right _ (List.mem_singleton_self _),rfl,.inr rfl⟩

/-- A physical register has a segment from every instruction that reads or writes it. -/
theorem ranges_phys {i : ℕ} {r : Reg} (h : analyzeFunction f = some live)
    (hi : (f.insts b)[i]? = some inst) (hr : r ∈ inst.inputRegs ∨ r ∈ inst.outputRegs) :
    ∃ seg ∈ live.ranges (.phys r),
      seg.start = ⟨b,STEP*(i+1)⟩ ∧ ProgramPoint.le ⟨b,STEP*(i+1)⟩ seg.stop := by
  obtain ⟨data,hdata,hall,hmem⟩ := analyzeFunction_eq_some h
  have hb := lt_of_insts hi
  obtain ⟨l,hl⟩ := hall b hb
  have hpoint : LiveSegment.newPoint ⟨b,STEP*(i+1)⟩ ∈
      segs ((LocalRanges.enter b (data b).liveIn).scan b STEP (f.insts b)) r := by
    rw [scan_split hi,← STEP_succ i]
    obtain ⟨k,hk,hk0⟩ := visitInst_regs ⟨b,STEP*(i+1)⟩ inst
      ((LocalRanges.enter b (data b).liveIn).scan b STEP ((f.insts b).take i)) r
    obtain ⟨added,hadded,-⟩ := scan_regs b (STEP+STEP*(i+1)) ((f.insts b).drop (i+1))
      (((LocalRanges.enter b (data b).liveIn).scan b STEP ((f.insts b).take i)).visitInst
        ⟨b,STEP*(i+1)⟩ inst) r
    rw [hadded,hk]
    exact List.mem_append_left _ (List.mem_append_right _ (List.mem_replicate.mpr ⟨hk0 hr,rfl⟩))
  have hsame : ProgramPoint.le ⟨b,STEP*(i+1)⟩ ⟨b,STEP*(i+1)⟩ := .inr ⟨rfl,Nat.le_refl _⟩
  have hstop : ProgramPoint.le ⟨b,STEP*(i+1)⟩ ⟨b,STEP*((f.insts b).length+1)⟩ := by
    have hlt := (List.getElem?_eq_some_iff.mp hi).1
    exact .inr ⟨rfl,Nat.mul_le_mul_left STEP (Nat.succ_le_succ (Nat.le_of_lt hlt))⟩
  have hsegs : l.segments (.phys r) = segs l r := rfl
  rw [blockRanges] at hl
  have hleave := leave_segs hl r
  by_cases hout : .phys r ∈ (data b).liveOut
  · rw [if_pos hout] at hleave
    obtain ⟨seg,hseg,hstart,hend⟩ := mem_extendLast ⟨b,STEP*((f.insts b).length+1)⟩ hpoint
    refine ⟨seg,(hmem _ _).mpr ⟨b,hb,l,hl,?_⟩,hstart,?_⟩
    · rw [hsegs,hleave]
      exact hseg
    · rcases hend with hend | hend <;> rw [hend]
      · exact hsame
      · exact hstop
  · rw [if_neg hout] at hleave
    refine ⟨.newPoint ⟨b,STEP*(i+1)⟩,(hmem _ _).mpr ⟨b,hb,l,hl,?_⟩,rfl,hsame⟩
    rw [hsegs,hleave]
    exact hpoint

end Ranges

end Liveness

namespace Regalloc

open Liveness ProgramPoints Spiller

variable {f g : Spiller.State} {v i b : ℕ} {r : Reg} {pp : ProgramPoint}

/-! ### Analyzed functions -/

/-- The points and the ranges of the function are those that the analysis finds. -/
def Analyzed (f : Spiller.State) : Prop := analyze f = .ok f

/-- Some instruction reads or writes the register. -/
def Touched (f : Spiller.State) (v : ℕ) : Prop := ∃ i ∈ f.numbering.layout.flatten,
  v ∈ (f.insts i).inputVregs ∨ v ∈ (f.insts i).outputVregs

theorem analyze_eq_ok : analyze f = .ok g ↔ ∃ live points,
    analyzeFunction (machineFunction f) = some live ∧
    numberBlocks 0 f.numbering.layout = .ok points ∧
    g = { f with numbering := ⟨f.numbering.layout,points,
      ((touched f).map fun r => (r,live.ranges r)).filter fun range => range.2 ≠ []⟩ } := by
  constructor
  · intro h
    rcases bind_eq_ok.mp h with ⟨live,hlive,h⟩
    rcases bind_eq_ok.mp h with ⟨points,hpoints,h⟩
    cases h
    refine ⟨live,points,?_,hpoints,rfl⟩
    cases hrun : analyzeFunction (machineFunction f) with
    | none =>
      rw [hrun] at hlive
      cases hlive
    | some live' =>
      rw [hrun] at hlive
      cases hlive
      rfl
  · rintro ⟨live,points,hlive,hpoints,rfl⟩
    exact bind_eq_ok.mpr ⟨live,by rw [hlive]; rfl,bind_eq_ok.mpr ⟨points,hpoints,rfl⟩⟩

/-- The analysis of what it has analyzed finds the same. -/
theorem analyze_analyzed (h : analyze f = .ok g) : Analyzed g := by
  rcases analyze_eq_ok.mp h with ⟨live,points,hlive,hpoints,rfl⟩
  exact analyze_eq_ok.mpr ⟨live,points,hlive,hpoints,rfl⟩

theorem machineFunction_insts (b : ℕ) :
    (machineFunction f).insts b = (f.numbering.insts b).map f.insts := by
  rw [Function.insts,machineFunction,List.getElem?_mapIdx,Numbering.insts]
  cases f.numbering.layout[b]? <;> rfl

theorem machineFunction_length :
    (machineFunction f).blocks.length = f.numbering.layout.length := List.length_mapIdx

theorem touched_iff : (∃ b < (machineFunction f).blocks.length,
    ∃ inst ∈ (machineFunction f).insts b, v ∈ inst.inputVregs ∨ v ∈ inst.outputVregs) ↔
      Touched f v := by
  constructor
  · rintro ⟨b,hb,inst,hinst,hv⟩
    rw [machineFunction_insts] at hinst
    rcases List.mem_map.mp hinst with ⟨i,hi,rfl⟩
    exact ⟨i,mem_insts hi,hv⟩
  · rintro ⟨i,hi,hv⟩
    rcases List.mem_flatten.mp hi with ⟨l,hl,hil⟩
    rcases List.getElem?_of_mem hl with ⟨b,hb⟩
    have hinsts : f.numbering.insts b = l := by rw [Numbering.insts,hb]; rfl
    refine ⟨b,?_,f.insts i,?_,hv⟩
    · rw [machineFunction_length]
      exact (List.getElem?_eq_some_iff.mp hb).1
    · rw [machineFunction_insts,hinsts]
      exact List.mem_map_of_mem hil

theorem mem_touched {x : LReg} : x ∈ touched f ↔
    ∃ i ∈ f.numbering.layout.flatten, x ∈ touchedRegs (f.insts i) := by
  rw [touched,List.mem_dedup,List.mem_flatMap]

theorem lookup_ranges {regs : List LReg} {ranges : LReg → List LiveSegment} {x : LReg} :
    (((regs.map fun r => (r,ranges r)).filter fun range => range.2 ≠ []).lookup x) =
      if x ∈ regs ∧ ranges x ≠ [] then some (ranges x) else none := by
  induction regs with
  | nil => simp
  | cons y rest ih =>
    rw [List.map_cons]
    by_cases hy : ranges y = []
    · rw [List.filter_cons_of_neg (by simpa using hy),ih]
      refine if_congr ?_ rfl rfl
      rw [List.mem_cons]
      refine and_congr_left fun hx => ⟨.inr,fun h => h.resolve_left fun heq => ?_⟩
      subst heq
      exact hx hy
    · rw [List.filter_cons_of_pos (by simpa using hy),List.lookup_cons]
      by_cases hxy : x = y
      · subst hxy
        rw [beq_self_eq_true,if_pos ⟨List.mem_cons_self,hy⟩]
      · rw [beq_eq_false_iff_ne.mpr hxy,ih]
        simp [hxy]

/-- A register that is read or written has a live range. -/
theorem Analyzed.ranged (h : Analyzed f) (hv : Touched f v) : Ranged f.numbering v := by
  rcases analyze_eq_ok.mp h with ⟨live,points,hlive,_,heq⟩
  have hne := (ranges_virt (v := v) hlive).mpr (touched_iff.mpr hv)
  have hmem : .virt v ∈ touched f := by
    rcases hv with ⟨i,hi,hv⟩
    refine mem_touched.mpr ⟨i,hi,List.mem_append_left _ (List.mem_append.mpr ?_)⟩
    exact hv.imp List.mem_map_of_mem List.mem_map_of_mem
  have hlookup : f.numbering.ranges.lookup (.virt v) = some (live.ranges (.virt v)) := by
    rw [heq]
    exact lookup_ranges.trans (if_pos ⟨hmem,hne⟩)
  cases hsegs : live.ranges (.virt v) with
  | nil => exact absurd hsegs hne
  | cons seg segs =>
    rw [hsegs] at hlookup
    exact ⟨seg,segs,hlookup⟩

/-- A register that is only named has none. -/
theorem Analyzed.rangeless (h : Analyzed f) (hv : ¬ Touched f v) :
    rangeOf f.numbering (.virt v) = none := by
  rcases analyze_eq_ok.mp h with ⟨live,points,hlive,_,heq⟩
  have hnone : ¬ live.ranges (.virt v) ≠ [] := fun hne => hv (touched_iff.mp ((ranges_virt hlive).mp hne))
  rw [rangeOf,heq]
  exact lookup_ranges.trans (if_neg fun h => hnone h.2)

/-- A physical register has a segment from the point of every instruction that names it. -/
theorem Analyzed.segment (h : Analyzed f) (hf : WellFormed f)
    (hi : i ∈ f.numbering.layout.flatten)
    (hr : r ∈ (f.insts i).inputRegs ∨ r ∈ (f.insts i).outputRegs) :
    ∃ pp segs, f.numbering.point? i = some pp ∧ rangeOf f.numbering (.phys r) = some segs ∧
      ∃ seg ∈ segs, seg.start = pp ∧ pp.le seg.stop := by
  rcases analyze_eq_ok.mp h with ⟨live,points,hlive,hpoints,heq⟩
  rcases List.mem_flatten.mp hi with ⟨l,hl,hil⟩
  rcases List.getElem?_of_mem hl with ⟨b,hb⟩
  rcases List.getElem?_of_mem hil with ⟨k,hk⟩
  have hinst : ((machineFunction f).insts b)[k]? = some (f.insts i) := by
    rw [machineFunction_insts,Numbering.insts,hb]
    show (l.map f.insts)[k]? = _
    rw [List.getElem?_map,hk]
    rfl
  rcases ranges_phys hlive hinst hr with ⟨seg,hseg,hstart,hstop⟩
  have hpoint : f.numbering.point? i = some ⟨b,STEP*(k+1)⟩ := by
    have hlookup : l.map (fun i => (numbering 0 f.numbering.layout).lookup i) =
        (steps STEP l.length).map fun n => some ⟨0+b,n⟩ := lookup_numbering hf.nodup hb
    have hget := congrArg (·[k]?) hlookup
    have hlt := (List.getElem?_eq_some_iff.mp hk).1
    rw [List.getElem?_map,hk,List.getElem?_map,steps,List.getElem?_map,List.getElem?_range hlt] at hget
    have hnum : points = numbering 0 f.numbering.layout :=
      ((numberBlocks_eq_ok (Nat.zero_le _)).mp hpoints).2.2
    rw [heq,hnum]
    refine (Option.some.inj hget).trans ?_
    rw [Nat.zero_add,Nat.mul_succ,Nat.add_comm,Nat.mul_comm]
  have hmem : .phys r ∈ touched f := by
    refine mem_touched.mpr ⟨i,hi,List.mem_append_right _ (List.mem_append.mpr ?_)⟩
    exact hr.imp List.mem_map_of_mem List.mem_map_of_mem
  refine ⟨_,live.ranges (.phys r),hpoint,?_,seg,hseg,hstart,hstop⟩
  rw [rangeOf,heq]
  exact lookup_ranges.trans (if_pos ⟨hmem,List.ne_nil_of_mem hseg⟩)

/-! ### Functions of one block -/

/-- A function of one block, with the live ranges of its registers. -/
def rangedBlock (insts : List InstructionData) (vregs : ℕ)
    (ranges : List (LReg × List LiveSegment)) : Spiller.State :=
  { oneBlock insts vregs with
    numbering := { (oneBlock insts vregs).numbering with ranges := ranges } }

theorem rangedBlock_wellFormed {insts : List InstructionData} {m : ℕ}
    {ranges : List (LReg × List LiveSegment)} (h : insts.all (closed m) = true) :
    WellFormed (rangedBlock insts m ranges) :=
  (oneBlock_wellFormed h).sameCode ⟨ranges,rfl⟩

end Regalloc
end Codegen
end OlaLang
