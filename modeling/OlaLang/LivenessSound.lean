import OlaLang.Liveness
import Mathlib.Data.Finset.Card

/-! When the live sets and segments cover every point at which a register is live. -/
namespace OlaLang
namespace Codegen
namespace Liveness

/-! ### Reads and visits -/

section Reads

theorem mem_inputVregsWithIndexes {inst : InstructionData} {i : ℕ} {v : VReg} :
    (i,v) ∈ inst.inputVregsWithIndexes ↔ ReadsAt inst (.virt v) i := by
  simp only [InstructionData.inputVregsWithIndexes,List.mem_filterMap,ReadsAt]
  constructor
  · rintro ⟨⟨op,j⟩,hmem,hop⟩
    have hget := List.mem_zipIdx_iff_getElem?.mp hmem
    by_cases hin : op.input = true
    · simp only [hin,if_true,Option.map_eq_some_iff,Prod.mk.injEq] at hop
      obtain ⟨w,hw,rfl,rfl⟩ := hop
      refine ⟨op,hget,hin,?_⟩
      cases hdata : op.data <;> simp_all [OperandData.asVReg?,lreg?]
    · simp [hin] at hop
  · rintro ⟨op,hget,hin,hdata⟩
    refine ⟨(op,i),List.mem_zipIdx_iff_getElem?.mpr hget,?_⟩
    cases hop : op.data <;> simp_all [OperandData.asVReg?,lreg?]

theorem mem_inputVregs {inst : InstructionData} {v : VReg} :
    v ∈ inst.inputVregs ↔ ∃ i, ReadsAt inst (.virt v) i := by
  simp only [InstructionData.inputVregs,List.mem_filterMap,ReadsAt]
  constructor
  · rintro ⟨op,hmem,hop⟩
    obtain ⟨i,hget⟩ := List.mem_iff_getElem?.mp hmem
    refine ⟨i,op,hget,?_⟩
    cases hdata : op.data <;> simp_all [OperandData.asVReg?,lreg?]
  · rintro ⟨i,op,hget,hin,hdata⟩
    refine ⟨op,List.mem_of_getElem? hget,?_⟩
    cases hop : op.data <;> simp_all [OperandData.asVReg?,lreg?]

theorem mem_inputRegs {inst : InstructionData} {r : Reg} :
    r ∈ inst.inputRegs ↔ ∃ i, ReadsAt inst (.phys r) i := by
  simp only [InstructionData.inputRegs,List.mem_filterMap,ReadsAt]
  constructor
  · rintro ⟨op,hmem,hop⟩
    obtain ⟨i,hget⟩ := List.mem_iff_getElem?.mp hmem
    refine ⟨i,op,hget,?_⟩
    cases hdata : op.data <;> simp_all [OperandData.asReg?,lreg?]
  · rintro ⟨i,op,hget,hin,hdata⟩
    refine ⟨op,List.mem_of_getElem? hget,?_⟩
    cases hop : op.data <;> simp_all [OperandData.asReg?,lreg?]

variable {f : Function}

theorem lt_of_insts {b i : ℕ} {inst : InstructionData} (h : (f.insts b)[i]? = some inst) :
    b < f.blocks.length := by
  by_contra hb
  rw [Function.insts,List.getElem?_eq_none (not_lt.mp hb)] at h
  cases h

theorem mem_visits {b : BasicBlockId} {r : LReg} {phiPred : Option BasicBlockId} :
    (b,r,phiPred) ∈ visits f ↔ ∃ inst ∈ f.insts b, (r,phiPred) ∈ visitInst inst := by
  simp only [visits,List.mem_flatMap,List.mem_map,List.mem_range,Prod.mk.injEq]
  constructor
  · rintro ⟨b',-,inst,hinst,read,hread,rfl,rfl⟩
    exact ⟨inst,hinst,hread⟩
  · rintro ⟨inst,hinst,hread⟩
    obtain ⟨i,hi⟩ := List.mem_iff_getElem?.mp hinst
    exact ⟨b,lt_of_insts hi,inst,hinst,(r,phiPred),hread,rfl,rfl⟩

theorem visits_of_reads {b i : ℕ} {inst : InstructionData} {v : VReg}
    (hinst : (f.insts b)[i]? = some inst) (hreads : Reads inst (.virt v)) :
    (b,.virt v,none) ∈ visits f := by
  obtain ⟨hphi,j,hj⟩ := hreads
  refine mem_visits.mpr ⟨inst,List.mem_of_getElem? hinst,List.mem_append_left _ ?_⟩
  exact List.mem_map.mpr ⟨(j,v),mem_inputVregsWithIndexes.mpr hj,by simp [hphi]⟩

theorem visits_phi_iff {b pred : BasicBlockId} {v : VReg} :
    (b,.virt v,some pred) ∈ visits f ↔ PhiReads f b (.virt v) pred := by
  rw [mem_visits]
  constructor
  · rintro ⟨inst,hinst,hread⟩
    obtain hread|hread := List.mem_append.mp hread
    swap
    · obtain ⟨_,_,heq⟩ := List.mem_map.mp hread
      cases heq
    obtain ⟨⟨i,w⟩,hw,heq⟩ := List.mem_map.mp hread
    obtain ⟨heq,hblock⟩ := Prod.mk.inj heq
    cases heq
    cases hphi : inst.isPhi with
    | false => simp [hphi] at hblock
    | true =>
      simp only [hphi,if_true] at hblock
      exact ⟨inst,hinst,hphi,i,mem_inputVregsWithIndexes.mp hw,hblock⟩
  · rintro ⟨inst,hinst,hphi,i,hi,hblock⟩
    refine ⟨inst,hinst,List.mem_append_left _ ?_⟩
    exact List.mem_map.mpr ⟨(i,v),mem_inputVregsWithIndexes.mpr hi,by simp [hphi,hblock]⟩

end Reads

/-! ### Propagation -/

/-- A fold that keeps an invariant and finishes each element, once and for all. -/
theorem foldlM_kept {α σ : Type} {step : σ → α → Option σ} (I : σ → Prop) (Done : α → σ → Prop)
    (l : List α)
    (hstep : ∀ a ∈ l, ∀ s, I s → ∃ s', step s a = some s' ∧ I s' ∧ Done a s' ∧
      ∀ a', Done a' s → Done a' s')
    (s : σ) (hs : I s) :
    ∃ s', l.foldlM step s = some s' ∧ I s' ∧ (∀ a ∈ l, Done a s') ∧ ∀ a, Done a s → Done a s' := by
  induction l generalizing s with
  | nil => exact ⟨s,rfl,hs,fun _ h => (by cases h),fun _ h => h⟩
  | cons a l ih =>
    obtain ⟨s1,h1,hI1,hdone,hkeep⟩ := hstep a List.mem_cons_self s hs
    obtain ⟨s2,h2,hI2,hall,hkeep2⟩ := ih
      (fun a' ha' => hstep a' (List.mem_cons_of_mem _ ha')) s1 hI1
    refine ⟨s2,by rw [List.foldlM_cons,h1]; exact h2,hI2,fun a' ha' => ?_,
      fun a' h => hkeep2 a' (hkeep a' h)⟩
    rcases List.mem_cons.mp ha' with rfl|hmem
    · exact hkeep2 _ hdone
    · exact hall a' hmem

section Propagate

variable {f : Function} {x : LReg} {data data' : Data}

/-- Only the live sets have grown, and only by `x`. -/
structure Grows (x : LReg) (data data' : Data) : Prop where
  defs : ∀ b, (data' b).defs = (data b).defs
  liveIn : ∀ b, (data b).liveIn ⊆ (data' b).liveIn
  liveOut : ∀ b, (data b).liveOut ⊆ (data' b).liveOut
  otherIn : ∀ b y, y ≠ x → y ∈ (data' b).liveIn → y ∈ (data b).liveIn
  otherOut : ∀ b y, y ≠ x → y ∈ (data' b).liveOut → y ∈ (data b).liveOut

theorem Grows.refl (x : LReg) (data : Data) : Grows x data data where
  defs _ := rfl
  liveIn _ := Finset.Subset.refl _
  liveOut _ := Finset.Subset.refl _
  otherIn _ _ _ h := h
  otherOut _ _ _ h := h

theorem Grows.trans {data'' : Data} (h : Grows x data data') (h' : Grows x data' data'') :
    Grows x data data'' where
  defs b := (h'.defs b).trans (h.defs b)
  liveIn b := (h.liveIn b).trans (h'.liveIn b)
  liveOut b := (h.liveOut b).trans (h'.liveOut b)
  otherIn b y hy hin := h.otherIn b y hy (h'.otherIn b y hy hin)
  otherOut b y hy hin := h.otherOut b y hy (h'.otherOut b y hy hin)

@[simp] theorem addLiveIn_defs (b b' : BasicBlockId) :
    ((data.addLiveIn b x) b').defs = (data b').defs := by
  by_cases h : b' = b
  · subst h
    simp [Data.addLiveIn]
  · simp [Data.addLiveIn,h]

@[simp] theorem addLiveIn_liveOut (b b' : BasicBlockId) :
    ((data.addLiveIn b x) b').liveOut = (data b').liveOut := by
  by_cases h : b' = b
  · subst h
    simp [Data.addLiveIn]
  · simp [Data.addLiveIn,h]

@[simp] theorem mem_addLiveIn (b b' : BasicBlockId) (y : LReg) :
    y ∈ ((data.addLiveIn b x) b').liveIn ↔ b' = b ∧ y = x ∨ y ∈ (data b').liveIn := by
  by_cases h : b' = b
  · subst h
    simp [Data.addLiveIn]
  · simp [Data.addLiveIn,h]

@[simp] theorem addLiveOut_defs (b b' : BasicBlockId) :
    ((data.addLiveOut b x) b').defs = (data b').defs := by
  by_cases h : b' = b
  · subst h
    simp [Data.addLiveOut]
  · simp [Data.addLiveOut,h]

@[simp] theorem addLiveOut_liveIn (b b' : BasicBlockId) :
    ((data.addLiveOut b x) b').liveIn = (data b').liveIn := by
  by_cases h : b' = b
  · subst h
    simp [Data.addLiveOut]
  · simp [Data.addLiveOut,h]

@[simp] theorem mem_addLiveOut (b b' : BasicBlockId) (y : LReg) :
    y ∈ ((data.addLiveOut b x) b').liveOut ↔ b' = b ∧ y = x ∨ y ∈ (data b').liveOut := by
  by_cases h : b' = b
  · subst h
    simp [Data.addLiveOut]
  · simp [Data.addLiveOut,h]

theorem addLiveIn_grows (x : LReg) (data : Data) (b : BasicBlockId) : Grows x data (data.addLiveIn b x) where
  defs := by simp
  liveIn := fun b' y hy => (mem_addLiveIn b b' y).mpr (.inr hy)
  liveOut := by simp
  otherIn := by
    intro b' y hy hin
    simpa [hy] using hin
  otherOut := by simp

theorem addLiveOut_grows (x : LReg) (data : Data) (b : BasicBlockId) : Grows x data (data.addLiveOut b x) where
  defs := by simp
  liveIn := by simp
  liveOut := fun b' y hy => (mem_addLiveOut b b' y).mpr (.inr hy)
  otherIn := by simp
  otherOut := by
    intro b' y hy hin
    simpa [hy] using hin

/-- The predecessors of a block into which `x` is live have been handled: all of them, or the one
of an operand of a phi. -/
def Handled (f : Function) (x : LReg) (data : Data) (b : BasicBlockId) : Prop :=
  (∀ pred ∈ f.preds b, x ∈ (data pred).liveOut) ∨
    ∃ pred, (b,x,some pred) ∈ visits f ∧ (pred ∈ f.preds b → x ∈ (data pred).liveOut)

/-- The live sets of `x`, but for the blocks `working` that are being handled and the block
`pending` at whose end `x` has just become live. -/
structure Inv (f : Function) (x : LReg) (working pending : Set BasicBlockId) (data : Data) :
    Prop where
  passes : ∀ b ∉ pending, x ∈ (data b).liveOut → x ∈ (data b).defs ∨ x ∈ (data b).liveIn
  handled : ∀ b ∉ working, x ∈ (data b).liveIn → Handled f x data b
  disjoint : ∀ b, x ∈ (data b).liveIn → x ∉ (data b).defs

theorem Handled.grows {y : LReg} (h : Grows y data data') {b : BasicBlockId}
    (hb : Handled f x data b) : Handled f x data' b := by
  rcases hb with hall|⟨pred,hphi,hpred⟩
  · exact .inl fun pred hmem => h.liveOut pred (hall pred hmem)
  · exact .inr ⟨pred,hphi,fun hmem => h.liveOut pred (hpred hmem)⟩

/-- Another register is not affected. -/
theorem Inv.other {y : LReg} {working pending : Set BasicBlockId} (hy : x ≠ y)
    (h : Grows y data data') (hinv : Inv f x working pending data) :
    Inv f x working pending data' where
  passes b hb hout := by
    rw [h.defs b]
    rcases hinv.passes b hb (h.otherOut b x hy hout) with hd|hin
    · exact .inl hd
    · exact .inr (h.liveIn b hin)
  handled b hb hin := (hinv.handled b hb (h.otherIn b x hy hin)).grows h
  disjoint b hin := by
    rw [h.defs b]
    exact hinv.disjoint b (h.otherIn b x hy hin)

theorem Inv.enter {working : Set BasicBlockId} {b : BasicBlockId} (hb : x ∉ (data b).defs)
    (hinv : Inv f x working {b} data) : Inv f x (insert b working) ∅ (data.addLiveIn b x) where
  passes b' _ hout := by
    by_cases hbb : b' = b
    · exact .inr ((mem_addLiveIn b b' x).mpr (.inl ⟨hbb,rfl⟩))
    · rw [addLiveIn_liveOut] at hout
      rw [addLiveIn_defs]
      rcases hinv.passes b' hbb hout with hd|hin
      · exact .inl hd
      · exact .inr ((mem_addLiveIn b b' x).mpr (.inr hin))
  handled b' hb' hin := by
    have hne : b' ≠ b := fun heq => hb' (by simp [heq])
    have hin' : x ∈ (data b').liveIn := by simpa [hne] using hin
    exact (hinv.handled b' (fun h => hb' (Set.mem_insert_of_mem _ h)) hin').grows
      (addLiveIn_grows x data b)
  disjoint b' hin := by
    rw [addLiveIn_defs]
    rcases (mem_addLiveIn b b' x).mp hin with ⟨rfl,-⟩|hin
    · exact hb
    · exact hinv.disjoint b' hin

theorem Inv.reach {working : Set BasicBlockId} (pred : BasicBlockId)
    (hinv : Inv f x working ∅ data) : Inv f x working {pred} (data.addLiveOut pred x) where
  passes b hb hout := by
    have hne : b ≠ pred := hb
    have hout' : x ∈ (data b).liveOut := by simpa [hne] using hout
    rw [addLiveOut_defs,addLiveOut_liveIn]
    exact hinv.passes b (Set.notMem_empty b) hout'
  handled b hb hin := by
    rw [addLiveOut_liveIn] at hin
    exact (hinv.handled b hb hin).grows (addLiveOut_grows x data pred)
  disjoint b hin := by
    rw [addLiveOut_liveIn] at hin
    rw [addLiveOut_defs]
    exact hinv.disjoint b hin

/-- The blocks at whose end `x` is not live yet. -/
def remaining (f : Function) (x : LReg) (data : Data) : ℕ :=
  ((Finset.range f.blocks.length).filter fun b => x ∉ (data b).liveOut).card

theorem remaining_le (f : Function) (x : LReg) (data : Data) :
    remaining f x data ≤ f.blocks.length :=
  (Finset.card_filter_le _ _).trans (Finset.card_range _).le

theorem remaining_grows (h : Grows x data data') : remaining f x data' ≤ remaining f x data := by
  refine Finset.card_le_card fun b hb => ?_
  obtain ⟨hlt,hout⟩ := Finset.mem_filter.mp hb
  exact Finset.mem_filter.mpr ⟨hlt,fun hin => hout (h.liveOut b hin)⟩

theorem remaining_addLiveOut {pred : BasicBlockId} (hlt : pred < f.blocks.length)
    (hout : x ∉ (data pred).liveOut) :
    remaining f x (data.addLiveOut pred x) < remaining f x data := by
  refine Finset.card_lt_card (Finset.ssubset_iff_of_subset ?_ |>.mpr ⟨pred,?_,?_⟩)
  · intro b hb
    obtain ⟨hb1,hb2⟩ := Finset.mem_filter.mp hb
    exact Finset.mem_filter.mpr ⟨hb1,fun hin => hb2 ((mem_addLiveOut pred b x).mpr (.inr hin))⟩
  · exact Finset.mem_filter.mpr ⟨Finset.mem_range.mpr hlt,hout⟩
  · intro hmem
    exact (Finset.mem_filter.mp hmem).2 ((mem_addLiveOut pred pred x).mpr (.inl ⟨rfl,rfl⟩))

/-- With enough fuel the call returns, and afterwards no block is pending. -/
theorem propagateReg_spec (hpreds : ∀ b, ∀ pred ∈ f.preds b, pred < f.blocks.length)
    (fuel : ℕ) (b : BasicBlockId) (phiPred : Option BasicBlockId)
    (hphi : ∀ pred, phiPred = some pred → (b,x,some pred) ∈ visits f)
    (working : Set BasicBlockId) (data : Data) (hfuel : remaining f x data < fuel)
    (hinv : Inv f x working {b} data) :
    ∃ data', propagateReg f x fuel b phiPred data = some data' ∧ Inv f x working ∅ data' ∧
      Grows x data data' ∧ (x ∈ (data' b).defs ∨ x ∈ (data' b).liveIn) := by
  induction fuel generalizing b phiPred working data with
  | zero => exact absurd hfuel (Nat.not_lt_zero _)
  | succ fuel ih =>
    have hclear : x ∈ (data b).defs ∨ x ∈ (data b).liveIn → Inv f x working ∅ data := by
      intro hb
      refine ⟨fun b' _ hout => ?_,hinv.handled,hinv.disjoint⟩
      by_cases hbb : b' = b
      · rw [hbb]
        exact hb
      · exact hinv.passes b' hbb hout
    rw [propagateReg]
    by_cases hdefs : x ∈ (data b).defs
    · rw [if_pos hdefs]
      exact ⟨data,rfl,hclear (.inl hdefs),Grows.refl x data,.inl hdefs⟩
    · rw [if_neg hdefs]
      by_cases hin : x ∈ (data b).liveIn
      · rw [if_pos hin]
        exact ⟨data,rfl,hclear (.inr hin),Grows.refl x data,.inr hin⟩
      · rw [if_neg hin]
        let I : Data → Prop := fun s =>
          Inv f x (insert b working) ∅ s ∧ Grows x (data.addLiveIn b x) s
        let Done : BasicBlockId → Data → Prop := fun pred s =>
          phiPred.any (pred ≠ ·) = false → x ∈ (s pred).liveOut
        have hstep : ∀ pred ∈ f.preds b, ∀ s, I s → ∃ s',
            (if phiPred.any (pred ≠ ·) then some s
              else if x ∈ (s pred).liveOut then some s
              else propagateReg f x fuel pred none (s.addLiveOut pred x)) = some s' ∧
            I s' ∧ Done pred s' ∧ ∀ pred', Done pred' s → Done pred' s' := by
          intro pred hpred s hs
          obtain ⟨hI,hG⟩ := hs
          by_cases hskip : phiPred.any (pred ≠ ·) = true
          · refine ⟨s,by rw [if_pos hskip],⟨hI,hG⟩,fun h => ?_,fun _ h => h⟩
            rw [hskip] at h
            cases h
          · rw [if_neg hskip]
            by_cases hout : x ∈ (s pred).liveOut
            · exact ⟨s,by rw [if_pos hout],⟨hI,hG⟩,fun _ => hout,fun _ h => h⟩
            · rw [if_neg hout]
              have hless := remaining_addLiveOut (hpreds b pred hpred) hout
              have hmono := remaining_grows (f := f) ((addLiveIn_grows x data b).trans hG)
              obtain ⟨s',hs',hI',hG',-⟩ := ih pred none (by simp) (insert b working)
                (s.addLiveOut pred x) (by omega) (hI.reach pred)
              have hGs := (addLiveOut_grows x s pred).trans hG'
              refine ⟨s',hs',⟨hI',hG.trans hGs⟩,fun _ => ?_,
                fun a h hskip' => hGs.liveOut a (h hskip')⟩
              exact hG'.liveOut pred ((mem_addLiveOut pred pred x).mpr (.inl ⟨rfl,rfl⟩))
        obtain ⟨data',hfold,⟨hinv',hgrows⟩,hdone,-⟩ := foldlM_kept I Done (f.preds b) hstep
          (data.addLiveIn b x) ⟨hinv.enter hdefs,Grows.refl _ _⟩
        have hgrows' := (addLiveIn_grows x data b).trans hgrows
        have hlive : x ∈ (data' b).liveIn :=
          hgrows.liveIn b ((mem_addLiveIn b b x).mpr (.inl ⟨rfl,rfl⟩))
        refine ⟨data',hfold,⟨hinv'.passes,fun b' hb' hin' => ?_,hinv'.disjoint⟩,hgrows',.inr hlive⟩
        by_cases hbb : b' = b
        · subst hbb
          cases hpp : phiPred with
          | none => exact .inl fun pred hmem => hdone pred hmem (by simp [hpp])
          | some pred =>
            exact .inr ⟨pred,hphi pred hpp,fun hmem => hdone pred hmem (by simp [hpp])⟩
        · exact hinv'.handled b' (by simp [hbb,hb']) hin'

/-- The analysis of a function in which every predecessor is a block returns, with the invariant
for every register and every read handled. -/
theorem visit_spec (hpreds : ∀ b, ∀ pred ∈ f.preds b, pred < f.blocks.length) :
    ∃ data, visit f (setDef f) = some data ∧ (∀ x, Inv f x ∅ ∅ data) ∧
      (∀ b, (data b).defs = (setDef f b).defs) ∧
      ∀ b x phiPred, (b,x,phiPred) ∈ visits f → x ∈ (data b).defs ∨ x ∈ (data b).liveIn := by
  let I : Data → Prop := fun s =>
    (∀ x, Inv f x ∅ ∅ s) ∧ ∀ b, (s b).defs = (setDef f b).defs
  let Done : BasicBlockId × LReg × Option BasicBlockId → Data → Prop := fun read s =>
    read.2.1 ∈ (s read.1).defs ∨ read.2.1 ∈ (s read.1).liveIn
  have hstep : ∀ read ∈ visits f, ∀ s, I s → ∃ s',
      propagateReg f read.2.1 (f.blocks.length + 1) read.1 read.2.2 s = some s' ∧ I s' ∧
        Done read s' ∧ ∀ read', Done read' s → Done read' s' := by
    intro ⟨b,x,phiPred⟩ hread s ⟨hinv,hdefs⟩
    have hpend : Inv f x ∅ {b} s :=
      ⟨fun b' _ => (hinv x).passes b' (Set.notMem_empty b'),(hinv x).handled,(hinv x).disjoint⟩
    obtain ⟨s',hs',hinv',hgrows,hdone⟩ := propagateReg_spec hpreds (f.blocks.length + 1) b phiPred
      (fun pred hpred => hpred ▸ hread) ∅ s (Nat.lt_succ_of_le (remaining_le f x s)) hpend
    refine ⟨s',hs',⟨fun y => ?_,fun b' => (hgrows.defs b').trans (hdefs b')⟩,hdone,
      fun read' h => ?_⟩
    · by_cases hy : y = x
      · rw [hy]
        exact hinv'
      · exact (hinv y).other hy hgrows
    · rcases h with h|h
      · exact .inl (by rw [hgrows.defs]; exact h)
      · exact .inr (hgrows.liveIn _ h)
  obtain ⟨data,hdata,⟨hinv,hdefs⟩,hdone,-⟩ := foldlM_kept I Done (visits f) hstep (setDef f)
    ⟨fun x => ⟨fun b _ h => absurd h (by simp [setDef]),fun b _ h => absurd h (by simp [setDef]),
      fun b h => absurd h (by simp [setDef])⟩,fun _ => rfl⟩
  exact ⟨data,hdata,hinv,hdefs,fun b x phiPred hread => hdone (b,x,phiPred) hread⟩

end Propagate

/-! ### Live registers are in the live sets -/

section Live

variable {f : Function}

/-- Block `b` writes the register. -/
def Writes (f : Function) (b : BasicBlockId) (r : LReg) : Prop := ∃ inst ∈ f.insts b, r ∈ outputs inst

theorem mem_setDef {b : BasicBlockId} {r : LReg} : r ∈ (setDef f b).defs ↔ Writes f b r := by
  simp [setDef,Writes]

/-- No block with predecessors that writes the register has it live at its head. -/
def NoneHidden (f : Function) (r : LReg) : Prop :=
  ∀ b, f.preds b ≠ [] → Writes f b r → ¬ LiveAt f r b 0

/-- A block with a phi that reads the register does not write it, has it as operand for one
predecessor only, and no other predecessor if it is live at its head. -/
def PhisAlone (f : Function) (r : LReg) : Prop :=
  ∀ b pred, PhiReads f b r pred → ¬ Writes f b r ∧ (∀ pred', PhiReads f b r pred' → pred' = pred) ∧
    (LiveAt f r b 0 → ∀ pred' ∈ f.preds b, pred' = pred)

/-- The final live sets of a virtual register. -/
structure Solved (f : Function) (v : VReg) (data : Data) : Prop where
  inv : Inv f (.virt v) ∅ ∅ data
  defs : ∀ b, .virt v ∈ (data b).defs ↔ Writes f b (.virt v)
  visited : ∀ b phiPred, (b,.virt v,phiPred) ∈ visits f →
    .virt v ∈ (data b).defs ∨ .virt v ∈ (data b).liveIn

variable {v : VReg} {data : Data}

theorem Solved.pass (h : Solved f v data) {b : BasicBlockId} (hout : .virt v ∈ (data b).liveOut)
    (hwrites : ¬ Writes f b (.virt v)) : .virt v ∈ (data b).liveIn :=
  (h.inv.passes b (Set.notMem_empty b) hout).resolve_left fun hd => hwrites ((h.defs b).mp hd)

theorem Solved.edge (h : Solved f v data) (hphis : PhisAlone f (.virt v)) {b pred : BasicBlockId}
    (hpred : pred ∈ f.preds b) (hin : .virt v ∈ (data b).liveIn)
    (hlive : LiveAt f (.virt v) b 0 ∨ PhiReads f b (.virt v) pred) :
    .virt v ∈ (data pred).liveOut := by
  rcases h.inv.handled b (Set.notMem_empty b) hin with hall|⟨pred',hphi,hout⟩
  · exact hall pred hpred
  · have hreads := visits_phi_iff.mp hphi
    obtain ⟨-,hone,halone⟩ := hphis b pred' hreads
    have heq : pred = pred' := by
      rcases hlive with hlive|hlive
      · exact halone hlive pred hpred
      · exact hone pred hlive
    subst heq
    exact hout hpred

/-- Where the register is live at the end of a block, the block has it in `liveOut`; where it is
live before any write, the block writes it later or has it in `liveIn`. -/
theorem Solved.live (h : Solved f v data) (hhidden : NoneHidden f (.virt v))
    (hphis : PhisAlone f (.virt v)) {b i : ℕ} (hlive : LiveAt f (.virt v) b i) :
    (i = (f.insts b).length → .virt v ∈ (data b).liveOut) ∧
      (¬ Writes f b (.virt v) → .virt v ∈ (data b).liveIn) := by
  induction hlive with
  | @read b i inst hinst hreads =>
    refine ⟨fun heq => ?_,fun hwrites => ?_⟩
    · rw [heq,List.getElem?_eq_none (le_refl _)] at hinst
      cases hinst
    · exact (h.visited b none (visits_of_reads hinst hreads)).resolve_left fun hd =>
        hwrites ((h.defs b).mp hd)
  | @step b i inst hinst hout hnext ih =>
    refine ⟨fun heq => ?_,ih.2⟩
    rw [heq,List.getElem?_eq_none (le_refl _)] at hinst
    cases hinst
  | @phi b pred hpred hreads =>
    have hwrites : ¬ Writes f b (.virt v) := (hphis b pred hreads).1
    have hin := (h.visited b (some pred) (visits_phi_iff.mpr hreads)).resolve_left fun hd =>
      hwrites ((h.defs b).mp hd)
    have hout := h.edge hphis hpred hin (.inr hreads)
    exact ⟨fun _ => hout,fun hw => h.pass hout hw⟩
  | @edge b pred hpred hlive ih =>
    have hwrites : ¬ Writes f b (.virt v) := fun hw =>
      hhidden b (List.ne_nil_of_mem hpred) hw hlive
    have hout := h.edge hphis hpred (ih.2 hwrites) (.inl hlive)
    exact ⟨fun _ => hout,fun hw => h.pass hout hw⟩

/-- A live register is read later in the block, or live at its end, and not written before. -/
theorem live_cases {r : LReg} {b i : ℕ} (h : LiveAt f r b i) :
    (∃ j inst, i ≤ j ∧ (f.insts b)[j]? = some inst ∧ Reads inst r ∧
      ∀ k inst', i ≤ k → k < j → (f.insts b)[k]? = some inst' → r ∉ outputs inst') ∨
    LiveAt f r b (f.insts b).length ∧ i ≤ (f.insts b).length ∧
      ∀ k inst', i ≤ k → (f.insts b)[k]? = some inst' → r ∉ outputs inst' := by
  induction h with
  | @read b i inst hinst hreads =>
    exact .inl ⟨i,inst,le_refl i,hinst,hreads,fun k inst' h1 h2 => by omega⟩
  | @step b i inst hinst hout _ ih =>
    rcases ih with ⟨j,inst',hle,hj,hreads,hno⟩|⟨hend,hle,hno⟩
    · refine .inl ⟨j,inst',by omega,hj,hreads,fun k inst'' h1 h2 hk => ?_⟩
      by_cases hki : k = i
      · subst hki
        rw [hinst] at hk
        cases hk
        exact hout
      · exact hno k inst'' (by omega) h2 hk
    · refine .inr ⟨hend,by omega,fun k inst'' h1 hk => ?_⟩
      by_cases hki : k = i
      · subst hki
        rw [hinst] at hk
        cases hk
        exact hout
      · exact hno k inst'' (by omega) hk
  | @phi b pred hpred hreads =>
    refine .inr ⟨.phi hpred hreads,le_refl _,fun k inst' hle hk => ?_⟩
    rw [List.getElem?_eq_none hle] at hk
    cases hk
  | @edge b pred hpred hlive _ =>
    refine .inr ⟨.edge hpred hlive,le_refl _,fun k inst' hle hk => ?_⟩
    rw [List.getElem?_eq_none hle] at hk
    cases hk

end Live

/-! ### Segments of a virtual register -/

section Vregs

open LocalRanges

theorem foldl_touchVreg (start pp : ProgramPoint) (vs : List VReg) (l : LocalRanges) (v : VReg) :
    (vs.foldl (touchVreg start pp) l).vregs v = if v ∈ vs then
      some (((l.vregs v).getD (.newPoint start)).setStop pp) else l.vregs v := by
  induction vs generalizing l with
  | nil => rfl
  | cons w vs ih =>
    rw [List.foldl_cons,ih]
    by_cases hv : v = w
    · subst hv
      by_cases hmem : v ∈ vs <;> simp [hmem,touchVreg,LiveSegment.setStop]
    · by_cases hmem : v ∈ vs <;> simp [hmem,hv,touchVreg]

@[simp] theorem foldl_touchReg_vregs (pp : ProgramPoint) (rs : List Reg) (l : LocalRanges) :
    (rs.foldl (touchReg pp) l).vregs = l.vregs := by
  induction rs generalizing l with
  | nil => rfl
  | cons r rs ih => rw [List.foldl_cons,ih,touchReg]

/-- The segment of a register after the inputs of the instruction at `pp`. -/
def inputEntry (pp : ProgramPoint) (inst : InstructionData) (v : VReg)
    (entry : Option LiveSegment) : Option LiveSegment :=
  if v ∈ inst.inputVregs then some ((entry.getD (.newPoint ⟨pp.block,0⟩)).setStop pp) else entry

/-- The segment after its outputs. -/
def outputEntry (pp : ProgramPoint) (inst : InstructionData) (v : VReg)
    (entry : Option LiveSegment) : Option LiveSegment :=
  if v ∈ inst.outputVregs then some ((entry.getD (.newPoint pp)).setStop pp) else entry

theorem visitInst_vregs (pp : ProgramPoint) (inst : InstructionData) (l : LocalRanges) (v : VReg) :
    (l.visitInst pp inst).vregs v = outputEntry pp inst v (inputEntry pp inst v (l.vregs v)) := by
  simp only [LocalRanges.visitInst,foldl_touchReg_vregs,foldl_touchVreg,inputEntry,outputEntry]

/-- The segment of block `b` reaches from `lo` to `hi`. -/
def Spans (b lo hi : ℕ) (entry : Option LiveSegment) : Prop :=
  ∃ seg, entry = some seg ∧ seg.start.block = b ∧ seg.stop.block = b ∧ seg.start.inst ≤ lo ∧
    hi ≤ seg.stop.inst

/-- A segment of block `b`, if there is one, starts at `n` at the latest. -/
def Upto (b n : ℕ) (entry : Option LiveSegment) : Prop :=
  ∀ seg, entry = some seg → seg.start.block = b ∧ seg.start.inst ≤ n

theorem Spans.mono {b lo lo' hi hi' : ℕ} {entry : Option LiveSegment} (h : Spans b lo hi entry)
    (hlo : lo ≤ lo') (hhi : hi' ≤ hi) : Spans b lo' hi' entry := by
  obtain ⟨seg,hseg,h1,h2,h3,h4⟩ := h
  exact ⟨seg,hseg,h1,h2,h3.trans hlo,hhi.trans h4⟩

variable {b n lo hi : ℕ} {inst : InstructionData} {l : LocalRanges} {v : VReg}
  {entry : Option LiveSegment}

theorem Spans.setStop (h : Spans b lo hi entry) (pp : ProgramPoint) :
    Spans b lo n (some ((entry.getD (.newPoint pp)).setStop ⟨b,n⟩)) := by
  obtain ⟨seg,rfl,h1,h2,h3,h4⟩ := h
  exact ⟨_,rfl,h1,rfl,h3,le_refl n⟩

theorem Upto.setStop {m k : ℕ} (h : Upto b m entry) (hk : k ≤ m) :
    Spans b m n (some ((entry.getD (.newPoint ⟨b,k⟩)).setStop ⟨b,n⟩)) := by
  cases entry with
  | none => exact ⟨_,rfl,rfl,rfl,hk,le_refl n⟩
  | some seg =>
    obtain ⟨hblock,hinst⟩ := h seg rfl
    exact ⟨_,rfl,hblock,rfl,hinst,le_refl n⟩

theorem Spans.upto {seg : LiveSegment} (h : Spans b lo hi (some seg)) : Upto b lo (some seg) := by
  obtain ⟨seg',hseg,h1,-,h3,-⟩ := h
  cases hseg
  intro seg'' hseg
  cases hseg
  exact ⟨h1,h3⟩

theorem Upto.mono {m : ℕ} (h : Upto b m entry) (hm : m ≤ n) : Upto b n entry :=
  fun seg hseg => ⟨(h seg hseg).1,(h seg hseg).2.trans hm⟩

theorem inputEntry_upto (inst : InstructionData) (v : VReg) (n : ℕ) {m : ℕ} (h : Upto b m entry) :
    Upto b m (inputEntry ⟨b,n⟩ inst v entry) := by
  rw [inputEntry]
  split
  · exact (h.setStop (Nat.zero_le m)).upto
  · exact h

theorem inputEntry_spans (inst : InstructionData) (v : VReg) (h : Spans b lo hi entry)
    (hn : hi ≤ n) : Spans b lo hi (inputEntry ⟨b,n⟩ inst v entry) := by
  rw [inputEntry]
  split
  · exact (h.setStop _).mono (le_refl lo) hn
  · exact h

theorem outputEntry_spans (inst : InstructionData) (v : VReg) (h : Spans b lo hi entry)
    (hn : hi ≤ n) : Spans b lo hi (outputEntry ⟨b,n⟩ inst v entry) := by
  rw [outputEntry]
  split
  · exact (h.setStop _).mono (le_refl lo) hn
  · exact h

theorem visitInst_upto {m : ℕ} (h : Upto b m (l.vregs v)) (hm : m ≤ n) :
    Upto b n ((l.visitInst ⟨b,n⟩ inst).vregs v) := by
  have hin : Upto b n (inputEntry ⟨b,n⟩ inst v (l.vregs v)) := inputEntry_upto inst v n (h.mono hm)
  rw [visitInst_vregs,outputEntry]
  split
  · exact (hin.setStop (le_refl n)).upto
  · exact hin

theorem visitInst_spans (h : Spans b lo hi (l.vregs v)) (hn : hi ≤ n) :
    Spans b lo hi ((l.visitInst ⟨b,n⟩ inst).vregs v) := by
  rw [visitInst_vregs]
  exact outputEntry_spans inst v (inputEntry_spans inst v h hn) hn

/-- A read extends the segment, or makes one from the head of the block. -/
theorem visitInst_read (h : (∃ hi, Spans b lo hi (l.vregs v)) ∨ Upto b 0 (l.vregs v))
    (hread : v ∈ inst.inputVregs) : Spans b lo n ((l.visitInst ⟨b,n⟩ inst).vregs v) := by
  have hin : Spans b lo n (inputEntry ⟨b,n⟩ inst v (l.vregs v)) := by
    rw [inputEntry,if_pos hread]
    obtain ⟨hi,h⟩|h := h
    · exact h.setStop _
    · exact (h.setStop (le_refl 0)).mono (Nat.zero_le lo) (le_refl n)
  rw [visitInst_vregs]
  exact outputEntry_spans inst v hin (le_refl n)

theorem visitInst_write {m : ℕ} (h : Upto b m (l.vregs v)) (hm : m ≤ n)
    (hwrite : v ∈ inst.outputVregs) : Spans b n n ((l.visitInst ⟨b,n⟩ inst).vregs v) := by
  rw [visitInst_vregs,outputEntry,if_pos hwrite]
  exact (inputEntry_upto inst v n (h.mono hm)).setStop (le_refl n)

/-- An instruction that does not write keeps the segment at the head of the block. -/
theorem visitInst_head (h : Upto b 0 (l.vregs v)) (hwrite : v ∉ inst.outputVregs) :
    Upto b 0 ((l.visitInst ⟨b,n⟩ inst).vregs v) := by
  rw [visitInst_vregs,outputEntry,if_neg hwrite]
  exact inputEntry_upto inst v n h

theorem STEP_succ (k : ℕ) : STEP * (k + 1) = STEP + STEP * k := by
  rw [Nat.mul_succ,Nat.add_comm]

theorem scan_append (b n : ℕ) (xs ys : List InstructionData) (l : LocalRanges) :
    l.scan b n (xs ++ ys) = (l.scan b n xs).scan b (n + STEP * xs.length) ys := by
  induction xs generalizing n l with
  | nil => rfl
  | cons inst xs ih =>
    rw [List.cons_append,LocalRanges.scan,ih,LocalRanges.scan,List.length_cons,Nat.mul_succ,
      Nat.add_assoc,Nat.add_comm STEP]

/-- The scan up to an instruction, the instruction, and the rest. -/
theorem scan_split {insts : List InstructionData} {j : ℕ} (hj : insts[j]? = some inst)
    (b n : ℕ) (l : LocalRanges) : l.scan b n insts =
      (((l.scan b n (insts.take j)).visitInst ⟨b,n + STEP * j⟩ inst).scan b
        (n + STEP * (j + 1)) (insts.drop (j + 1))) := by
  obtain ⟨hlt,rfl⟩ := List.getElem?_eq_some_iff.mp hj
  have hsplit : insts = insts.take j ++ insts[j]::insts.drop (j + 1) := by
    rw [List.getElem_cons_drop,List.take_append_drop]
  have hlen : (insts.take j).length = j := List.length_take_of_le hlt.le
  conv_lhs => rw [hsplit]
  rw [scan_append,hlen,LocalRanges.scan,Nat.mul_succ,Nat.add_assoc]

theorem scan_spans (insts : List InstructionData) (h : Spans b lo hi (l.vregs v)) (hn : hi ≤ n) :
    Spans b lo hi ((l.scan b n insts).vregs v) := by
  induction insts generalizing n l with
  | nil => exact h
  | cons inst insts ih => exact ih (visitInst_spans h hn) (hn.trans (Nat.le_add_right n STEP))

theorem scan_upto (insts : List InstructionData) {m : ℕ} (h : Upto b m (l.vregs v)) (hm : m ≤ n) :
    Upto b (n + STEP * insts.length) ((l.scan b n insts).vregs v) := by
  induction insts generalizing m n l with
  | nil => exact fun seg hseg => ⟨(h seg hseg).1,(h seg hseg).2.trans hm⟩
  | cons inst insts ih =>
    have hvisit : Upto b n ((l.visitInst ⟨b,n⟩ inst).vregs v) := visitInst_upto h hm
    have hrest := ih hvisit (Nat.le_add_right n STEP)
    rw [List.length_cons,Nat.mul_succ,Nat.add_comm (STEP * _),← Nat.add_assoc]
    exact hrest

theorem scan_head (insts : List InstructionData) (h : Upto b 0 (l.vregs v))
    (hwrite : ∀ inst ∈ insts, v ∉ inst.outputVregs) : Upto b 0 ((l.scan b n insts).vregs v) := by
  induction insts generalizing n l with
  | nil => exact h
  | cons inst insts ih =>
    exact ih (visitInst_head h (hwrite inst List.mem_cons_self))
      fun inst' hinst => hwrite inst' (List.mem_cons_of_mem _ hinst)

theorem enter_upto (b : ℕ) (liveIn : Finset LReg) (v : VReg) :
    Upto b 0 ((enter b liveIn).vregs v) := by
  intro seg hseg
  by_cases hin : .virt v ∈ liveIn
  · simp only [enter,hin,if_true,Option.some.injEq] at hseg
    subst hseg
    exact ⟨rfl,le_refl 0⟩
  · simp [enter,hin] at hseg

theorem enter_spans {liveIn : Finset LReg} (h : .virt v ∈ liveIn) :
    Spans b 0 0 ((enter b liveIn).vregs v) :=
  ⟨.newPoint ⟨b,0⟩,by simp [enter,h],rfl,rfl,le_refl 0,le_refl 0⟩

/-- The segment after the write by instruction `k`. -/
theorem scan_write {insts : List InstructionData} {k : ℕ} (hk : insts[k]? = some inst)
    (hwrite : v ∈ inst.outputVregs) (liveIn : Finset LReg) :
    Spans b (STEP * (k + 1)) (STEP * (k + 1)) (((enter b liveIn).scan b STEP insts).vregs v) := by
  rw [scan_split hk]
  have hlen : (insts.take k).length = k :=
    List.length_take_of_le (List.getElem?_eq_some_iff.mp hk).1.le
  have hupto := scan_upto (insts.take k) (enter_upto b liveIn v) (Nat.zero_le STEP)
  rw [hlen] at hupto
  have hspan := visitInst_write hupto (le_refl _) hwrite
  rw [← STEP_succ k] at hspan ⊢
  exact scan_spans _ hspan (Nat.le_add_left _ STEP)

theorem mem_outputs_virt : .virt v ∈ outputs inst ↔ v ∈ inst.outputVregs := by
  simp [outputs]

/-- A register that is read at `j` and has been written before `i`, or not at all before `j`, has
its segment from `i` to the read. -/
theorem scan_read {insts : List InstructionData} {i j : ℕ} (hj : insts[j]? = some inst)
    (hread : v ∈ inst.inputVregs) (hij : i ≤ j)
    (hno : ∀ k inst', i ≤ k → k < j → insts[k]? = some inst' → v ∉ inst'.outputVregs)
    (liveIn : Finset LReg) :
    Spans b (STEP * i) (STEP * (i + 1)) (((enter b liveIn).scan b STEP insts).vregs v) := by
  have hlt := (List.getElem?_eq_some_iff.mp hj).1
  have hspan : Spans b (STEP * i) (STEP * (j + 1))
      ((((enter b liveIn).scan b STEP (insts.take j)).visitInst ⟨b,STEP * (j + 1)⟩ inst).vregs
        v) := by
    by_cases hbefore : ∃ k inst', k < i ∧ insts[k]? = some inst' ∧ v ∈ inst'.outputVregs
    · obtain ⟨k,inst',hki,hk,hwrite⟩ := hbefore
      have hk' : (insts.take j)[k]? = some inst' := by
        rw [List.getElem?_take_of_lt (by omega)]
        exact hk
      have hle : STEP * (k + 1) ≤ STEP * i := Nat.mul_le_mul_left STEP hki
      have hw := scan_write (b := b) hk' hwrite liveIn
      exact visitInst_read (.inl ⟨_,hw.mono hle (le_refl _)⟩) hread
    · have hnone : ∀ inst' ∈ insts.take j, v ∉ inst'.outputVregs := by
        intro inst' hmem hwrite
        obtain ⟨k,hk⟩ := List.mem_iff_getElem?.mp hmem
        have hkj : k < j := by
          have := (List.getElem?_eq_some_iff.mp hk).1
          rw [List.length_take] at this
          omega
        rw [List.getElem?_take_of_lt hkj] at hk
        by_cases hki : k < i
        · exact hbefore ⟨k,inst',hki,hk,hwrite⟩
        · exact hno k inst' (not_lt.mp hki) hkj hk hwrite
      have hhead := scan_head (n := STEP) _ (enter_upto b liveIn v) hnone
      exact visitInst_read (.inr hhead) hread
  rw [scan_split hj,← STEP_succ j]
  have hle : STEP * (i + 1) ≤ STEP * (j + 1) := Nat.mul_le_mul_left STEP (by omega)
  exact scan_spans _ (hspan.mono (le_refl _) hle) (hle.trans (Nat.le_add_left _ STEP))

theorem leave_vregs {pp : ProgramPoint} {liveOut : Finset LReg} {l' : LocalRanges}
    (h : l.leave pp liveOut = some l') (v : VReg) :
    l'.vregs v = if .virt v ∈ liveOut then (l.vregs v).map (.setStop pp) else l.vregs v := by
  rw [leave] at h
  split at h
  · cases h
    rfl
  · cases h

end Vregs

/-! ### Segments of a physical register -/

section Regs

open LocalRanges

/-- The segments of a register; no entry is no segment. -/
def segs (l : LocalRanges) (r : Reg) : List LiveSegment := (l.regs r).getD []

theorem foldl_touchReg (pp : ProgramPoint) (rs : List Reg) (l : LocalRanges) (r : Reg) :
    ∃ k, segs (rs.foldl (touchReg pp) l) r = segs l r ++ List.replicate k (.newPoint pp) ∧
      (r ∈ rs → k ≠ 0) := by
  induction rs generalizing l with
  | nil => exact ⟨0,by simp,by simp⟩
  | cons r' rs ih =>
    obtain ⟨k,hk,hmem⟩ := ih (touchReg pp l r')
    rw [List.foldl_cons,hk]
    by_cases hr : r = r'
    · subst hr
      refine ⟨k + 1,?_,fun _ => Nat.succ_ne_zero k⟩
      simp [segs,touchReg,List.replicate_succ]
    · refine ⟨k,?_,fun h => hmem ?_⟩
      · simp [segs,touchReg,hr]
      · rcases List.mem_cons.mp h with heq|h
        · exact absurd heq hr
        · exact h

@[simp] theorem foldl_touchVreg_regs (start pp : ProgramPoint) (vs : List VReg)
    (l : LocalRanges) : (vs.foldl (touchVreg start pp) l).regs = l.regs := by
  induction vs generalizing l with
  | nil => rfl
  | cons v vs ih => rw [List.foldl_cons,ih,touchVreg]

theorem visitInst_regs (pp : ProgramPoint) (inst : InstructionData) (l : LocalRanges) (r : Reg) :
    ∃ k, segs (l.visitInst pp inst) r = segs l r ++ List.replicate k (.newPoint pp) ∧
      (r ∈ inst.inputRegs ∨ r ∈ inst.outputRegs → k ≠ 0) := by
  simp only [LocalRanges.visitInst]
  obtain ⟨k,hk,hin⟩ := foldl_touchReg pp inst.inputRegs
    (inst.inputVregs.foldl (touchVreg ⟨pp.block,0⟩ pp) l) r
  obtain ⟨k',hk',hout⟩ := foldl_touchReg pp inst.outputRegs (inst.outputVregs.foldl (touchVreg pp pp)
    (inst.inputRegs.foldl (touchReg pp) (inst.inputVregs.foldl (touchVreg ⟨pp.block,0⟩ pp) l))) r
  refine ⟨k + k',?_,?_⟩
  · rw [hk',segs,foldl_touchVreg_regs,← segs,hk,segs,foldl_touchVreg_regs,← segs,
      List.append_assoc,List.replicate_append_replicate]
  · rintro (h|h)
    · have := hin h
      omega
    · have := hout h
      omega

/-- The segments that a scan adds are points, from `n` on. -/
theorem scan_regs (b n : ℕ) (insts : List InstructionData) (l : LocalRanges) (r : Reg) :
    ∃ added, segs (l.scan b n insts) r = segs l r ++ added ∧
      (∀ seg ∈ added, ∃ m, n ≤ m ∧ seg = .newPoint ⟨b,m⟩) ∧
      ((∃ inst ∈ insts, r ∈ inst.inputRegs ∨ r ∈ inst.outputRegs) → added ≠ []) := by
  induction insts generalizing n l with
  | nil => exact ⟨[],by simp [LocalRanges.scan],by simp,by simp⟩
  | cons inst insts ih =>
    obtain ⟨k,hk,hk0⟩ := visitInst_regs ⟨b,n⟩ inst l r
    obtain ⟨added,hadded,hpoints,hne⟩ := ih (n + STEP) (l.visitInst ⟨b,n⟩ inst)
    refine ⟨List.replicate k (.newPoint ⟨b,n⟩) ++ added,?_,?_,?_⟩
    · rw [LocalRanges.scan,hadded,hk,List.append_assoc]
    · intro seg hseg
      rcases List.mem_append.mp hseg with hseg|hseg
      · exact ⟨n,le_refl n,(List.mem_replicate.mp hseg).2⟩
      · obtain ⟨m,hm,rfl⟩ := hpoints seg hseg
        exact ⟨m,(Nat.le_add_right n STEP).trans hm,rfl⟩
    · rintro ⟨inst',hmem,hocc⟩ hnil
      obtain ⟨hrep,hnil⟩ := List.append_eq_nil_iff.mp hnil
      rcases List.mem_cons.mp hmem with rfl|hmem
      · exact hk0 hocc (by simpa using hrep)
      · exact hne ⟨inst',hmem,hocc⟩ hnil

theorem enter_regs {b : ℕ} {liveIn : Finset LReg} {r : Reg} {seg : LiveSegment}
    (h : seg ∈ segs (enter b liveIn) r) : seg = .newPoint ⟨b,0⟩ := by
  by_cases hin : .phys r ∈ liveIn
  · simpa [segs,enter,hin] using h
  · simp [segs,enter,hin] at h

theorem leave_segs {l l' : LocalRanges} {pp : ProgramPoint} {liveOut : Finset LReg}
    (h : l.leave pp liveOut = some l') (r : Reg) : segs l' r =
      if .phys r ∈ liveOut then extendLast pp (segs l r) else segs l r := by
  rw [leave] at h
  split at h
  · cases h
    by_cases hr : .phys r ∈ liveOut
    · simp only [segs,hr,if_true]
      cases l.regs r <;> rfl
    · simp only [segs,hr,if_false]
  · cases h

/-- In the segments of a block, one that is not a point starts at the last occurrence. -/
theorem block_segs {f : Function} {data : Data} {b : ℕ} {l : LocalRanges}
    (h : blockRanges f data b = some l) (r : Reg) {seg : LiveSegment} (hseg : seg ∈ segs l r) :
    seg.start.block = b ∧ seg.stop.block = b ∧ (seg.start = seg.stop ∨
      ∀ j inst, (f.insts b)[j]? = some inst → r ∈ inst.inputRegs → STEP * (j + 1) ≤ seg.start.inst) := by
  rw [blockRanges] at h
  rw [leave_segs h] at hseg
  have hpoint : ∀ seg ∈ segs ((enter b (data b).liveIn).scan b STEP (f.insts b)) r,
      ∃ m, seg = .newPoint ⟨b,m⟩ := by
    intro seg hseg
    obtain ⟨added,hadded,hpoints,-⟩ := scan_regs b STEP (f.insts b) (enter b (data b).liveIn) r
    rw [hadded] at hseg
    rcases List.mem_append.mp hseg with hseg|hseg
    · exact ⟨0,enter_regs hseg⟩
    · obtain ⟨m,-,rfl⟩ := hpoints seg hseg
      exact ⟨m,rfl⟩
  by_cases hout : .phys r ∈ (data b).liveOut
  · rw [if_pos hout,extendLast] at hseg
    rcases List.mem_append.mp hseg with hseg|hseg
    · obtain ⟨m,rfl⟩ := hpoint seg (List.mem_of_mem_dropLast hseg)
      exact ⟨rfl,rfl,.inl rfl⟩
    · obtain ⟨last,hlast,rfl⟩ := List.mem_map.mp hseg
      have hlast' := List.mem_of_getLast? (Option.mem_toList.mp hlast)
      obtain ⟨m,rfl⟩ := hpoint last hlast'
      refine ⟨rfl,rfl,.inr fun j inst hj hread => ?_⟩
      rw [scan_split hj,← STEP_succ j] at hlast
      obtain ⟨k,hk,hk0⟩ := visitInst_regs ⟨b,STEP * (j + 1)⟩ inst
        ((enter b (data b).liveIn).scan b STEP ((f.insts b).take j)) r
      obtain ⟨added,hadded,hpoints,-⟩ := scan_regs b (STEP + STEP * (j + 1))
        ((f.insts b).drop (j + 1)) (((enter b (data b).liveIn).scan b STEP
          ((f.insts b).take j)).visitInst ⟨b,STEP * (j + 1)⟩ inst) r
      rw [hadded,hk,List.append_assoc,List.getLast?_append_of_ne_nil _ (by
        simp [hk0 (.inl hread)])] at hlast
      rcases List.mem_append.mp (List.mem_of_getLast? (Option.mem_toList.mp hlast)) with h|h
      · have heq := (List.mem_replicate.mp h).2
        cases heq
        exact le_refl _
      · obtain ⟨m',hm',heq⟩ := hpoints _ h
        cases heq
        exact (Nat.le_add_left _ STEP).trans hm'
  · rw [if_neg hout] at hseg
    obtain ⟨m,rfl⟩ := hpoint seg hseg
    exact ⟨rfl,rfl,.inl rfl⟩

end Regs

/-! ### Soundness -/

theorem mapM_some {α β : Type} {g : α → Option β} (l : List α) (h : ∀ a ∈ l, (g a).isSome) :
    ∃ bs, l.mapM g = some bs ∧ ∀ b, b ∈ bs ↔ ∃ a ∈ l, g a = some b := by
  induction l with
  | nil => exact ⟨[],rfl,by simp⟩
  | cons a l ih =>
    obtain ⟨bs,hbs,hmem⟩ := ih fun a' ha' => h a' (List.mem_cons_of_mem _ ha')
    obtain ⟨b,hb⟩ := Option.isSome_iff_exists.mp (h a List.mem_cons_self)
    refine ⟨b::bs,by simp [List.mapM_cons,hb,hbs],fun b' => ?_⟩
    simp [hmem,hb,eq_comm]

section Sound

variable {f : Function}

/-- A register at the end of a block has a segment in it. -/
theorem blockRanges_some {data : Data} {b : BasicBlockId} (hinv : ∀ x, Inv f x ∅ ∅ data)
    (hdefs : ∀ b, (data b).defs = (setDef f b).defs) : (blockRanges f data b).isSome := by
  rw [blockRanges,LocalRanges.leave,if_pos]
  · rfl
  · intro x hx
    have hpass := (hinv x).passes b (Set.notMem_empty b) hx
    rw [hdefs,mem_setDef] at hpass
    cases x with
    | virt v =>
      have hspan : ∃ lo hi, Spans b lo hi
          (((LocalRanges.enter b (data b).liveIn).scan b STEP (f.insts b)).vregs v) := by
        rcases hpass with ⟨inst,hinst,hout⟩|hin
        · obtain ⟨k,hk⟩ := List.mem_iff_getElem?.mp hinst
          exact ⟨_,_,scan_write hk (mem_outputs_virt.mp hout) _⟩
        · exact ⟨0,0,scan_spans _ (enter_spans hin) (Nat.zero_le _)⟩
      obtain ⟨lo,hi,seg,hseg,-⟩ := hspan
      simp [LocalRanges.has,hseg]
    | phys r =>
      obtain ⟨added,hadded,-,hne⟩ := scan_regs b STEP (f.insts b)
        (LocalRanges.enter b (data b).liveIn) r
      have hsegs : segs ((LocalRanges.enter b (data b).liveIn).scan b STEP (f.insts b)) r ≠ [] := by
        rw [hadded]
        rcases hpass with ⟨inst,hinst,hout⟩|hin
        · have hout' : r ∈ inst.outputRegs := by simpa [outputs] using hout
          simp [hne ⟨inst,hinst,.inr hout'⟩]
        · simp [segs,LocalRanges.enter,hin]
      simp only [segs] at hsegs
      simp only [LocalRanges.has]
      cases hregs : ((LocalRanges.enter b (data b).liveIn).scan b STEP (f.insts b)).regs r with
      | none => simp [hregs] at hsegs
      | some list => simpa [hregs] using hsegs

/-- The analysis returns, with the segments of all blocks. -/
theorem analyzeFunction_some (hpreds : ∀ b, ∀ pred ∈ f.preds b, pred < f.blocks.length) :
    ∃ live, analyzeFunction f = some live ∧ (∀ x, Inv f x ∅ ∅ live.blockData) ∧
      (∀ v, Solved f v live.blockData) ∧ (∀ b, (blockRanges f live.blockData b).isSome) ∧
      ∀ x seg, seg ∈ live.ranges x ↔ ∃ b < f.blocks.length, ∃ l,
        blockRanges f live.blockData b = some l ∧ seg ∈ l.segments x := by
  obtain ⟨data,hdata,hinv,hdefs,hvisited⟩ := visit_spec hpreds
  obtain ⟨locals,hlocals,hmem⟩ := mapM_some (g := blockRanges f data) (List.range f.blocks.length)
    fun b _ => blockRanges_some hinv hdefs
  refine ⟨⟨data,fun x => locals.flatMap fun l => l.segments x⟩,?_,hinv,fun v => ?_,
    fun b => blockRanges_some hinv hdefs,fun x seg => ?_⟩
  · simp [analyzeFunction,hdata,hlocals]
  · exact ⟨hinv _,fun b => by rw [hdefs,mem_setDef],fun b phiPred => hvisited b _ phiPred⟩
  · simp only [List.mem_flatMap,hmem,List.mem_range]
    constructor
    · rintro ⟨l,⟨b,hb,hl⟩,hseg⟩
      exact ⟨b,hb,l,hl,hseg⟩
    · rintro ⟨b,hb,l,hl,hseg⟩
      exact ⟨l,⟨b,hb,hl⟩,hseg⟩

/-- A segment that spans a gap is in the ranges and covers it. -/
theorem covered_of_spans {b i : ℕ} {l : LocalRanges} {v : VReg}
    (h : Spans b (STEP * i) (STEP * (i + 1)) (l.vregs v)) :
    ∃ seg ∈ l.segments (.virt v), seg.start.le ⟨b,STEP * i⟩ ∧
      ProgramPoint.le ⟨b,STEP * (i + 1)⟩ seg.stop := by
  obtain ⟨seg,hseg,h1,h2,h3,h4⟩ := h
  exact ⟨seg,by simp [LocalRanges.segments,hseg],.inr ⟨h1,h3⟩,.inr ⟨h2.symm,h4⟩⟩

/-- The end of a block extends a segment. -/
theorem Spans.leave {l l' : LocalRanges} {b n lo hi : ℕ} {liveOut : Finset LReg} {v : VReg}
    (hleave : l.leave ⟨b,n⟩ liveOut = some l') (h : Spans b lo hi (l.vregs v)) (hn : hi ≤ n) :
    Spans b lo hi (l'.vregs v) ∧ (.virt v ∈ liveOut → Spans b lo n (l'.vregs v)) := by
  obtain ⟨seg,hseg,h1,h2,h3,h4⟩ := h
  rw [leave_vregs hleave]
  by_cases hout : .virt v ∈ liveOut
  · simp only [hout,if_true,hseg,Option.map_some]
    exact ⟨⟨_,rfl,h1,rfl,h3,hn⟩,fun _ => ⟨_,rfl,h1,rfl,h3,le_refl n⟩⟩
  · simp only [hout,if_false]
    exact ⟨⟨seg,hseg,h1,h2,h3,h4⟩,fun h => absurd h id⟩

/-- A virtual register is covered wherever it is live. -/
theorem Solved.spans {v : VReg} {data : Data} (h : Solved f v data)
    (hhidden : NoneHidden f (.virt v)) (hphis : PhisAlone f (.virt v)) {b i : ℕ} {l : LocalRanges}
    (hl : blockRanges f data b = some l) (hlive : LiveAt f (.virt v) b i) :
    Spans b (STEP * i) (STEP * (i + 1)) (l.vregs v) := by
  rw [blockRanges] at hl
  rcases live_cases hlive with ⟨j,inst,hij,hj,hreads,hno⟩|⟨hend,hle,hno⟩
  · -- the register is read in the block
    have hspan := scan_read (b := b) hj (mem_inputVregs.mpr hreads.2) hij
      (fun k inst' h1 h2 hk => fun hout => hno k inst' h1 h2 hk (mem_outputs_virt.mpr hout))
      (data b).liveIn
    have hlt := (List.getElem?_eq_some_iff.mp hj).1
    exact (hspan.leave hl (Nat.mul_le_mul_left STEP (by omega))).1
  · -- the register is live at the end of the block
    obtain ⟨hout,hin⟩ := h.live hhidden hphis hend
    have hspan : ∃ hi ≤ STEP * ((f.insts b).length + 1), Spans b (STEP * i) hi
        (((LocalRanges.enter b (data b).liveIn).scan b STEP (f.insts b)).vregs v) := by
      by_cases hwrites : Writes f b (.virt v)
      · obtain ⟨inst,hinst,hw⟩ := hwrites
        obtain ⟨k,hk⟩ := List.mem_iff_getElem?.mp hinst
        have hki : k < i := by
          by_contra hki
          exact hno k inst (not_lt.mp hki) hk hw
        have hlo : STEP * (k + 1) ≤ STEP * i := Nat.mul_le_mul_left STEP hki
        refine ⟨STEP * (k + 1),Nat.mul_le_mul_left STEP (by omega),?_⟩
        exact (scan_write hk (mem_outputs_virt.mp hw) _).mono hlo (le_refl _)
      · exact ⟨0,Nat.zero_le _,(scan_spans _ (enter_spans (hin hwrites)) (Nat.zero_le _)).mono
          (Nat.zero_le _) (le_refl 0)⟩
    obtain ⟨hi,hhi,hspan⟩ := hspan
    exact ((hspan.leave hl hhi).2 (hout rfl)).mono (le_refl _)
      (Nat.mul_le_mul_left STEP (by omega))

/-- The condition for a register: a virtual one is hidden nowhere, and a physical one is not read
at all. -/
def Clear (f : Function) : LReg → Prop
  | .virt v => NoneHidden f (.virt v) ∧ PhisAlone f (.virt v)
  | .phys r => ∀ b, ∀ inst ∈ f.insts b, ∀ i, ¬ ReadsAt inst (.phys r) i

theorem lt_of_live {r : LReg} (hpreds : ∀ b, ∀ pred ∈ f.preds b, pred < f.blocks.length) {b i : ℕ}
    (h : LiveAt f r b i) : b < f.blocks.length := by
  cases h with
  | read hinst _ => exact lt_of_insts hinst
  | step hinst _ _ => exact lt_of_insts hinst
  | phi hpred _ => exact hpreds _ _ hpred
  | edge hpred _ => exact hpreds _ _ hpred

theorem not_live_of_unread {r : Reg} (hclear : Clear f (.phys r)) {b i : ℕ} :
    ¬ LiveAt f (.phys r) b i := by
  intro h
  induction h with
  | read hinst hreads =>
    obtain ⟨-,j,hj⟩ := hreads
    exact hclear _ _ (List.mem_of_getElem? hinst) j hj
  | step _ _ _ ih => exact ih
  | phi _ hreads =>
    obtain ⟨inst,hinst,-,j,hj,-⟩ := hreads
    exact hclear _ _ hinst j hj
  | edge _ _ ih => exact ih

theorem sound_of_clear (hpreds : ∀ b, ∀ pred ∈ f.preds b, pred < f.blocks.length) {r : LReg}
    (hclear : Clear f r) : Sound f r := by
  obtain ⟨live,hlive,-,hsolved,hblocks,hranges⟩ := analyzeFunction_some hpreds
  refine ⟨live,hlive,?_⟩
  cases r with
  | phys r => exact ⟨fun b i h => absurd h (not_live_of_unread hclear),
      fun b h => absurd h (not_live_of_unread hclear)⟩
  | virt v =>
    obtain ⟨hhidden,hphis⟩ := hclear
    constructor
    · intro b i h
      have hb := lt_of_live hpreds h
      obtain ⟨l,hl⟩ := Option.isSome_iff_exists.mp (hblocks b)
      obtain ⟨seg,hseg,hcover⟩ := covered_of_spans ((hsolved v).spans hhidden hphis hl h)
      exact ⟨seg,(hranges _ seg).mpr ⟨b,hb,l,hl,hseg⟩,hcover⟩
    · intro b h pred hpred
      have hwrites : ¬ Writes f b (.virt v) := fun hw =>
        hhidden b (List.ne_nil_of_mem hpred) hw h
      have hin := ((hsolved v).live hhidden hphis h).2 hwrites
      exact ⟨(hsolved v).edge hphis hpred hin (.inl h),hin⟩

/-- No phi reads the register. -/
def NoPhiReads (f : Function) (r : LReg) : Prop :=
  ∀ b, ∀ inst ∈ f.insts b, inst.isPhi = true → ∀ i, ¬ ReadsAt inst r i

theorem clear_of_sound (hpreds : ∀ b, ∀ pred ∈ f.preds b, pred < f.blocks.length) {r : LReg}
    (hphi : NoPhiReads f r) (hsound : Sound f r) : Clear f r := by
  obtain ⟨live,hlive,hinv,hsolved,-,hranges⟩ := analyzeFunction_some hpreds
  obtain ⟨live',hlive',hcovered,hbounds⟩ := hsound
  rw [hlive] at hlive'
  cases hlive'
  cases r with
  | virt v =>
    constructor
    · intro b hne hwrites hhead
      obtain ⟨pred,hpred⟩ := List.exists_mem_of_ne_nil _ hne
      have hin := (hbounds b hhead pred hpred).2
      exact (hinv _).disjoint b hin (((hsolved v).defs b).mpr hwrites)
    · rintro b pred ⟨inst,hinst,hop,i,hi,-⟩
      exact absurd hi (hphi b inst hinst hop i)
  | phys r =>
    intro b inst hinst i hi
    obtain ⟨j,hj⟩ := List.mem_iff_getElem?.mp hinst
    have hop : inst.isPhi = false := by
      cases hop : inst.isPhi with
      | false => rfl
      | true => exact absurd hi (hphi b inst hinst hop i)
    obtain ⟨seg,hseg,hstart,hstop⟩ := hcovered b j (.read hj ⟨hop,i,hi⟩)
    obtain ⟨b',-,l,hl,hseg⟩ := (hranges _ seg).mp hseg
    obtain ⟨hb1,hb2,hshape⟩ := block_segs hl r hseg
    simp only [ProgramPoint.le,hb1,hb2] at hstart hstop
    have hbb : b' = b := by omega
    subst hbb
    rcases hshape with heq|hlast
    · rw [heq] at hstart
      simp only [STEP] at hstart hstop
      omega
    · have hafter := hlast j inst hj (mem_inputRegs.mpr ⟨i,hi⟩)
      simp only [STEP] at hstart hafter
      omega

/-- A register that is hidden nowhere is covered wherever it is live, and for one that no phi reads
the analysis is sound only then. -/
theorem liveness_sound (hpreds : ∀ b, ∀ pred ∈ f.preds b, pred < f.blocks.length) (r : LReg) :
    (Clear f r → Sound f r) ∧ (NoPhiReads f r → (Sound f r ↔ Clear f r)) :=
  ⟨sound_of_clear hpreds,fun hphi => ⟨clear_of_sound hpreds hphi,sound_of_clear hpreds⟩⟩

/-- A counting loop before phi elimination: the counter comes in as `v0` and goes around as `v1`. -/
def countingLoop : Function where
  name := "counting_loop"
  blocks := [⟨[⟨.JMPr,[.plain (.block 1)]⟩],[],[1]⟩,
    ⟨[⟨.Phi,[.asOutput (.vreg 0),.asInput (.int64 0),.plain (.block 0),.asInput (.vreg 1),
        .plain (.block 1)]⟩,
      ⟨.ADDri,[.asOutput (.vreg 1),.asInput (.vreg 0),.plain (.int64 1)]⟩,
      ⟨.JMPr,[.plain (.block 1)]⟩],[0,1],[1]⟩]
  slots := []
  usedCsr := []
  isDeclaration := false

theorem countingLoop_preds : ∀ b, ∀ pred ∈ countingLoop.preds b,
    pred < countingLoop.blocks.length := by
  intro b pred hpred
  match b with
  | 0 => cases hpred
  | 1 => simpa [countingLoop,Function.preds,or_comm,Nat.lt_succ_iff,Nat.le_one_iff_eq_zero_or_eq_one]
      using hpred
  | b+2 => cases hpred

theorem countingLoop_sound : NoPhiReads countingLoop (.virt 0) ∧
    (Sound countingLoop (.virt 0) ↔ Clear countingLoop (.virt 0)) := by
  have hphi : NoPhiReads countingLoop (.virt 0) := by
    intro b inst hinst hop i hi
    have hall : ∀ block ∈ countingLoop.blocks, ∀ inst ∈ block.insts, inst.isPhi = true →
        0 ∉ inst.inputVregs := by decide
    obtain ⟨block,hblock,hinst⟩ := List.mem_flatMap.mp (insts_subset countingLoop b hinst)
    exact hall block hblock inst hinst hop (mem_inputVregs.mpr ⟨i,hi⟩)
  exact ⟨hphi,(liveness_sound countingLoop_preds (.virt 0)).2 hphi⟩

/-- The counter of the loop is not covered at the end of the block, where the phi reads it. -/
theorem countingLoop_uncovered : ¬ Sound countingLoop (.virt 1) := by
  rintro ⟨live,hlive,hcovered,-⟩
  have hphi : PhiReads countingLoop 1 (.virt 1) 1 := ⟨_,List.mem_cons_self,rfl,3,⟨_,rfl,rfl,rfl⟩,rfl⟩
  have hpred : 1 ∈ countingLoop.preds 1 := List.mem_cons_of_mem _ List.mem_cons_self
  obtain ⟨seg,hseg,-,hstop⟩ := hcovered 1 3 (.phi hpred hphi)
  have hranges : live.ranges (.virt 1) = [⟨⟨1,0⟩,⟨1,32⟩⟩] := by
    have h : (analyzeFunction countingLoop).map (fun live => live.ranges (.virt 1)) =
        some [⟨⟨1,0⟩,⟨1,32⟩⟩] := by rfl
    rw [hlive] at h
    exact Option.some.inj h
  rw [hranges,List.mem_singleton] at hseg
  subst hseg
  revert hstop
  decide

end Sound

end Liveness
end Codegen
end OlaLang
