import OlaLang.RegallocEnds

/-! The registers of the arguments and of the result of a call. After the allocation nothing
between the move into an argument register and the call writes it exactly when nothing did in the
lowered code and no turn of the allocator comes to a register that is written there and whose first
free register it is. Spills only insert instructions, which write registers of their own. -/
namespace OlaLang
namespace Codegen
namespace Regalloc

open Liveness ProgramPoints Spiller

variable {f g : Spiller.State} {r v w i j k b fuel : ℕ} {a : Reg} {newVregs vregs : List ℕ}
  {preferred : VReg → List Reg} {s t u : Alloc} {l l' : List ℕ} {inst : InstructionData}
  {W : ℕ → ℕ → ℕ → Reg → Prop}

/-! ### Between two instructions -/

/-- `k` stands between `i` and `j`. -/
def Between (l : List ℕ) (i j k : ℕ) : Prop :=
  ∃ pre mid post, l = pre ++ i::(mid ++ j::post) ∧ k ∈ mid

theorem Between.mem (h : Between l i j k) : k ∈ l := by
  rcases h with ⟨pre,mid,post,rfl,hk⟩
  simp [hk]

theorem Between.ne (h : Between l i j k) (hnodup : l.Nodup) : k ≠ i ∧ k ≠ j := by
  rcases h with ⟨pre,mid,post,rfl,hk⟩
  have htail := (List.nodup_append.mp hnodup).2.1
  rw [List.nodup_cons] at htail
  have hrest := List.nodup_append.mp htail.2
  refine ⟨?_,fun heq => hrest.2.2 k hk j List.mem_cons_self heq⟩
  rintro rfl
  exact htail.1 (List.mem_append_left _ hk)

/-- The places of the elements that are kept do not depend on the others. -/
theorem between_filter {p : ℕ → Bool} (hi : p i = true) (hj : p j = true) (hk : p k = true) :
    Between (l.filter p) i j k ↔ Between l i j k := by
  constructor
  · rintro ⟨pre,mid,post,hsplit,hmem⟩
    rcases List.filter_eq_append_iff.mp hsplit with ⟨l₁,l₂,rfl,_,h₂⟩
    rcases List.filter_eq_cons_iff.mp h₂ with ⟨l₃,l₄,rfl,_,_,h₄⟩
    rcases List.filter_eq_append_iff.mp h₄ with ⟨l₅,l₆,rfl,rfl,h₆⟩
    rcases List.filter_eq_cons_iff.mp h₆ with ⟨l₇,l₈,rfl,_,_,_⟩
    exact ⟨l₁ ++ l₃,l₅ ++ l₇,l₈,by simp,List.mem_append_left _ (List.mem_of_mem_filter hmem)⟩
  · rintro ⟨pre,mid,post,rfl,hmem⟩
    refine ⟨pre.filter p,mid.filter p,post.filter p,?_,List.mem_filter.mpr ⟨hmem,hk⟩⟩
    rw [List.filter_append,List.filter_cons_of_pos hi,List.filter_append,List.filter_cons_of_pos hj]

/-! ### Windows -/

/-- A move into register `a` and the call behind it, or a call and the move from the register of its
result, with no other call between the two. -/
structure Window (f : Spiller.State) (b i j : ℕ) (a : Reg) : Prop where
  span : ∃ pre mid post, f.numbering.insts b = pre ++ i::(mid ++ j::post)
  near : ∀ k, Between (f.numbering.insts b) i j k → (f.insts k).isCall = false
  kind : isCopy (f.insts i) = true ∧ a ∈ (f.insts i).outputRegs ∧ (f.insts j).isCall = true ∨
    (f.insts i).isCall = true ∧ a ∈ (f.insts i).outputRegs ∧ isCopy (f.insts j) = true ∧
      a ∈ (f.insts j).inputRegs

/-- No instruction between the two writes the register. -/
def Clear (g : Spiller.State) (b i j : ℕ) (a : Reg) : Prop :=
  ∀ k, Between (g.numbering.insts b) i j k → a ∉ (g.insts k).outputRegs

/-- The register at the head of the worklist is written in none of the windows `W` of the first of
its candidates that it does not overlap. -/
def Safe (W : ℕ → ℕ → ℕ → Reg → Prop) (preferred : VReg → List Reg) (s : Alloc) : Prop :=
  ∀ v rest a, s.worklist = v::rest → FirstFree s.f.numbering v (s.availables preferred v) a →
    ∀ b i j, W b i j a → ∀ k, Between (s.f.numbering.insts b) i j k →
      v ∉ (s.f.insts k).outputVregs

theorem Window.mem (h : Window f b i j a) : i ∈ f.numbering.insts b ∧ j ∈ f.numbering.insts b := by
  rcases h.span with ⟨pre,mid,post,hsplit⟩
  rw [hsplit]
  simp

/-! ### The code after a spill -/

theorem outputRegs_replace : (inst.replaceVreg r w).outputRegs = inst.outputRegs := by
  rw [InstructionData.outputRegs,InstructionData.outputRegs,InstructionData.replaceVreg,
    List.filterMap_map]
  apply List.filterMap_congr
  rintro ⟨data,input,output,implicit⟩ _
  cases data with
  | vreg u => by_cases h : u = r <;> cases output <;> simp [h,OperandData.asReg?]
  | _ => cases output <;> simp [OperandData.asReg?]

/-- The code with new instructions between the old ones, which write new registers only. -/
structure Grown (f g : Spiller.State) : Prop where
  wellFormed : WellFormed g
  insts : f.nextInst ≤ g.nextInst
  vregs : f.nextVReg ≤ g.nextVReg
  layout : ∀ b, (g.numbering.insts b).filter (· < f.nextInst) = f.numbering.insts b
  outputRegs : ∀ b, ∀ i ∈ g.numbering.insts b, i < f.nextInst →
    (g.insts i).outputRegs = (f.insts i).outputRegs
  outputVregs : ∀ b, ∀ i ∈ g.numbering.insts b, ∀ v ∈ (g.insts i).outputVregs,
    i < f.nextInst ∧ v ∈ (f.insts i).outputVregs ∨ f.nextVReg ≤ v
  newInsts : ∀ b, ∀ i ∈ g.numbering.insts b, f.nextInst ≤ i → (g.insts i).outputRegs = []

theorem Grown.refl (h : WellFormed f) : Grown f f where
  wellFormed := h
  insts := Nat.le_refl _
  vregs := Nat.le_refl _
  layout := fun b => by
    rw [List.filter_eq_self]
    intro i hi
    exact decide_eq_true (h.old i (mem_insts hi))
  outputRegs := fun _ _ _ _ => rfl
  outputVregs := fun _ i hi v hv => Or.inl ⟨h.old i (mem_insts hi),hv⟩
  newInsts := fun _ i hi hle => absurd (h.old i (mem_insts hi)) (Nat.not_lt.mpr hle)

theorem old_of_grown (h : Grown f g) (hf : WellFormed f) (hi : i ∈ f.numbering.insts b) :
    i < g.nextInst := Nat.lt_of_lt_of_le (hf.old i (mem_insts hi)) h.insts

theorem Grown.mem (h : Grown f g) (hi : i ∈ g.numbering.insts b) (hlt : i < f.nextInst) :
    i ∈ f.numbering.insts b := by
  rw [← h.layout b]
  exact List.mem_filter.mpr ⟨hi,decide_eq_true hlt⟩

theorem Grown.trans {e : Spiller.State} (h : Grown f g) (h' : Grown g e) : Grown f e where
  wellFormed := h'.wellFormed
  insts := Nat.le_trans h.insts h'.insts
  vregs := Nat.le_trans h.vregs h'.vregs
  layout := fun b => by
    rw [← h.layout b,← h'.layout b,List.filter_filter]
    apply List.filter_congr
    intro i _
    have hle := h.insts
    rw [Bool.eq_iff_iff,Bool.and_eq_true,decide_eq_true_iff,decide_eq_true_iff]
    exact ⟨fun hi => ⟨hi,Nat.lt_of_lt_of_le hi hle⟩,fun hi => hi.1⟩
  outputRegs := fun b i hi hlt => by
    have hlt' := Nat.lt_of_lt_of_le hlt h.insts
    rw [h'.outputRegs b i hi hlt',h.outputRegs b i (h'.mem hi hlt') hlt]
  outputVregs := fun b i hi v hv => by
    rcases h'.outputVregs b i hi v hv with ⟨hlt,hv⟩ | hle
    · exact h.outputVregs b i (h'.mem hi hlt) v hv
    · exact Or.inr (Nat.le_trans h.vregs hle)
  newInsts := fun b i hi hle => by
    rcases Nat.lt_or_ge i g.nextInst with hlt | hge
    · rw [h'.outputRegs b i hi hlt]
      exact h.newInsts b i (h'.mem hi hlt) hle
    · exact h'.newInsts b i hi hge

/-- What stands in a block after a spill: an old instruction, with a new register where it named the
spilled one, or a new one. -/
theorem spilled_cases (hf : WellFormed f) (hs : Spilled f g r) (hi : i ∈ g.numbering.insts b) :
    i < f.nextInst ∧ i ∈ f.numbering.insts b ∧ (g.insts i = f.insts i ∨
      ∃ w, f.nextVReg ≤ w ∧ g.insts i = (f.insts i).replaceVreg r w) ∨
    f.nextInst ≤ i ∧ ∃ w, f.nextVReg ≤ w ∧ (g.insts i = storeVregToSlot f.slots.length w ∨
      g.insts i = loadFromSlot f.slots.length w) := by
  rw [hs.insts,List.mem_flatMap] at hi
  rcases hi with ⟨i₀,hi₀,hi⟩
  have hlt := hf.old i₀ (mem_insts hi₀)
  by_cases hd : i₀ ∈ f.defs r
  · rcases List.getElem?_of_mem hd with ⟨k,hk⟩
    rw [hf.expansion_def hk,List.mem_cons,List.mem_singleton] at hi
    rcases hi with rfl | rfl
    · exact Or.inl ⟨hlt,hi₀,Or.inr ⟨_,Nat.le_add_right _ _,hs.defs k i hk⟩⟩
    · exact Or.inr ⟨Nat.le_add_right _ _,_,Nat.le_add_right _ _,
        Or.inl (hs.stores k (List.getElem?_eq_some_iff.mp hk).1)⟩
  · by_cases hu : i₀ ∈ f.reloads r
    · rcases List.getElem?_of_mem hu with ⟨k,hk⟩
      have hle : f.nextVReg ≤ f.nextVReg+(f.defs r).length+k := by
        rw [Nat.add_assoc]
        exact Nat.le_add_right _ _
      rw [hf.expansion_use hk,List.mem_cons,List.mem_singleton] at hi
      rcases hi with rfl | rfl
      · refine Or.inr ⟨?_,_,hle,Or.inr (hs.loads k (List.getElem?_eq_some_iff.mp hk).1)⟩
        rw [Nat.add_assoc]
        exact Nat.le_add_right _ _
      · exact Or.inl ⟨hlt,hi₀,Or.inr ⟨_,hle,hs.uses k i hk⟩⟩
    · rw [WellFormed.expansion_other hd hu,List.mem_singleton] at hi
      subst hi
      exact Or.inl ⟨hlt,hi₀,Or.inl (hs.kept i hlt hd hu)⟩

theorem expansion_filter (hf : WellFormed f) (hi : i < f.nextInst) :
    (f.expansion r i).filter (· < f.nextInst) = [i] := by
  by_cases hd : i ∈ f.defs r
  · rcases List.getElem?_of_mem hd with ⟨k,hk⟩
    rw [hf.expansion_def hk]
    simp [hi]
  · by_cases hu : i ∈ f.reloads r
    · rcases List.getElem?_of_mem hu with ⟨k,hk⟩
      rw [hf.expansion_use hk]
      simp [hi,Nat.add_assoc]
    · rw [WellFormed.expansion_other hd hu]
      simp [hi]

theorem grown_of_spilled (hf : WellFormed f) (hset : Settled r newVregs f g)
    (hs : Spilled f g r) : Grown f g where
  wellFormed := hset.wellFormed
  insts := hset.nextInst
  vregs := by
    rw [hset.nextVReg]
    exact Nat.le_add_right _ _
  layout := fun b => by
    rw [hs.insts,List.filter_flatMap]
    have hsame : ∀ i ∈ f.numbering.insts b,
        (f.expansion r i).filter (· < f.nextInst) = [i] := fun i hi =>
      expansion_filter hf (hf.old i (mem_insts hi))
    rw [List.flatMap_congr hsame]
    simp
  outputRegs := fun b i hi hlt => by
    rcases spilled_cases hf hs hi with ⟨_,_,h | ⟨w,_,h⟩⟩ | ⟨hle,_⟩
    · rw [h]
    · rw [h,outputRegs_replace]
    · exact absurd hlt (Nat.not_lt.mpr hle)
  outputVregs := fun b i hi v hv => by
    rcases spilled_cases hf hs hi with ⟨hlt,_,h | ⟨w,hw,h⟩⟩ | ⟨_,w,hw,h⟩
    · rw [h] at hv
      exact Or.inl ⟨hlt,hv⟩
    · rw [h,outputVregs_replace,mem_subst] at hv
      rcases hv with ⟨rfl,_⟩ | ⟨_,hv⟩
      · exact Or.inr hw
      · exact Or.inl ⟨hlt,hv⟩
    · right
      have hname : v = w := by
        rcases h with h | h <;> rw [h] at hv
        · exact (names_store f.slots.length w v).mp (Or.inr hv)
        · exact (names_load f.slots.length w v).mp (Or.inr hv)
      rw [hname]
      exact hw
  newInsts := fun b i hi hle => by
    rcases spilled_cases hf hs hi with ⟨hlt,_⟩ | ⟨_,w,_,h | h⟩
    · exact absurd hlt (Nat.not_lt.mpr hle)
    · rw [h]
      rfl
    · rw [h]
      rfl

/-- An instruction goes on writing the registers that are not spilled. -/
theorem spilled_writes (hf : WellFormed f) (hs : Spilled f g r) (hi : i ∈ g.numbering.insts b)
    (hlt : i < f.nextInst) (hv : v ∈ (f.insts i).outputVregs) (hne : v ≠ r) :
    v ∈ (g.insts i).outputVregs := by
  rcases spilled_cases hf hs hi with ⟨_,_,h | ⟨w,_,h⟩⟩ | ⟨hle,_⟩
  · rw [h]
    exact hv
  · rw [h,outputVregs_replace,mem_subst]
    exact Or.inr ⟨hne,hv⟩
  · exact absurd hlt (Nat.not_lt.mpr hle)

theorem Grown.between (h : Grown f g) (hi : i < f.nextInst) (hj : j < f.nextInst)
    (hk : k < f.nextInst) :
    Between (f.numbering.insts b) i j k ↔ Between (g.numbering.insts b) i j k := by
  rw [← h.layout b]
  exact between_filter (decide_eq_true hi) (decide_eq_true hj) (decide_eq_true hk)

/-- What is between two instructions writes the same physical registers before and after. -/
theorem Window.clear_iff (h : Window f b i j a) (hf : WellFormed f) (hg : Grown f g) :
    Clear g b i j a ↔ Clear f b i j a := by
  have hi := hf.old i (mem_insts h.mem.1)
  have hj := hf.old j (mem_insts h.mem.2)
  constructor
  · intro hclear k hk
    have hlt := hf.old k (mem_insts hk.mem)
    have hk' := (hg.between hi hj hlt).mp hk
    rw [← hg.outputRegs b k hk'.mem hlt]
    exact hclear k hk'
  · intro hclear k hk
    rcases Nat.lt_or_ge k f.nextInst with hlt | hge
    · rw [hg.outputRegs b k hk.mem hlt]
      exact hclear k ((hg.between hi hj hlt).mpr hk)
    · rw [hg.newInsts b k hk.mem hge]
      simp

/-! ### The turns -/

/-- The state of the loop over the lowered code `f`. -/
structure Steady (f : Spiller.State) (s : Alloc) : Prop where
  grown : Grown f s.f
  nodup : s.worklist.Nodup
  old : ∀ v ∈ s.worklist, v < s.f.nextVReg
  assigned : ∀ v, s.assigned v ≠ none → v < s.f.nextVReg ∧ v ∉ s.worklist

theorem sameCode_of_assign {numbering : Numbering} (h : assign f.numbering a v = .ok numbering) :
    SameCode f { f with numbering := numbering } := by
  rcases assign_eq_ok h with ⟨segs,rfl⟩
  exact sameCode_setRange

theorem grown_of_sameCode (h : WellFormed f) (hs : SameCode f g) : Grown f g := by
  have hg := h.sameCode hs
  rcases hs with ⟨ranges,rfl⟩
  exact ⟨hg,(Grown.refl h).insts,(Grown.refl h).vregs,(Grown.refl h).layout,
    (Grown.refl h).outputRegs,(Grown.refl h).outputVregs,(Grown.refl h).newInsts⟩

theorem Steady.turn {rest : List ℕ} (h : Steady f s) (hlist : s.worklist = v::rest)
    (hturn : s.turn fuel preferred v rest = .ok t) : Steady f t := by
  have hnodup := h.nodup
  have hold := h.old
  rw [hlist] at hnodup hold
  rw [List.nodup_cons] at hnodup
  rw [List.forall_mem_cons] at hold
  rcases turn_eq_ok.mp hturn with ⟨reg,numbering,_,hassign,rfl⟩ | ⟨newVregs,g,_,hspill,rfl⟩
  · have hsame := sameCode_of_assign hassign
    refine ⟨h.grown.trans (grown_of_sameCode h.grown.wellFormed hsame),hnodup.2,hold.2,?_⟩
    intro w hw
    change Function.update s.assigned v (some reg) w ≠ none at hw
    by_cases hwv : w = v
    · rw [hwv]
      exact ⟨hold.1,hnodup.1⟩
    · rw [Function.update_of_ne hwv] at hw
      rcases h.assigned w hw with ⟨hlt,hnot⟩
      rw [hlist,List.mem_cons,not_or] at hnot
      exact ⟨hlt,hnot.2⟩
  · have hset := spill_settled h.grown.wellFormed hold.1 hspill
    have hg := grown_of_spilled h.grown.wellFormed hset (spill_spec h.grown.wellFormed hold.1 hspill).2
    have hboth := hset.append hnodup.2 hold.2
    refine ⟨h.grown.trans hg,hboth.1,hboth.2,?_⟩
    intro w hw
    rcases h.assigned w hw with ⟨hlt,hnot⟩
    rw [hlist,List.mem_cons,not_or] at hnot
    refine ⟨Nat.lt_of_lt_of_le hlt hg.vregs,fun hin => ?_⟩
    rcases List.mem_append.mp hin with hin | hin
    · exact hnot.2 hin
    · exact absurd (hset.mem_new hin).1 (Nat.not_le.mpr hlt)

theorem Steady.reaches (h : Steady f s) (hst : Relation.ReflTransGen (Turns preferred) s t) :
    Steady f t := by
  induction hst with
  | refl => exact h
  | tail _ hturn ih =>
    rcases hturn with ⟨fuel,v,rest,hlist,hturn⟩
    exact ih.turn hlist hturn

theorem assign_layout {numbering : Numbering} (h : assign f.numbering a v = .ok numbering) (b : ℕ) :
    numbering.insts b = f.numbering.insts b := by
  rcases sameCode_of_assign h with ⟨ranges,heq⟩
  have hnumbering : numbering.layout = f.numbering.layout :=
    congrArg (fun g : Spiller.State => g.numbering.layout) heq
  rw [Numbering.insts,Numbering.insts,hnumbering]

/-- No register is written in a window of the one that it was given. -/
def Guarded (W : ℕ → ℕ → ℕ → Reg → Prop) (s : Alloc) : Prop :=
  ∀ b i j a, W b i j a → ∀ k, Between (s.f.numbering.insts b) i j k →
    ∀ v ∈ (s.f.insts k).outputVregs, s.assigned v ≠ some a

/-- A safe turn: the new instructions write registers that have none yet. -/
theorem Guarded.turn {rest : List ℕ} (h : Guarded W s) (hf : WellFormed f)
    (hW : ∀ b i j a, W b i j a → Window f b i j a) (hs : Steady f s) (hsafe : Safe W preferred s)
    (hlist : s.worklist = v::rest) (hturn : s.turn fuel preferred v rest = .ok t) : Guarded W t := by
  have hran := turn_ranged hturn
  have hold : v < s.f.nextVReg := hs.old v (by rw [hlist]; exact List.mem_cons_self)
  intro b i j a hwin k hk w hw
  rcases turn_eq_ok.mp hturn with ⟨reg,numbering,hfree,hassign,rfl⟩ | ⟨newVregs,g,_,hspill,rfl⟩
  · have hk' : Between (s.f.numbering.insts b) i j k := by
      rw [← assign_layout hassign b]
      exact hk
    show Function.update s.assigned v (some reg) w ≠ some a
    by_cases hwv : w = v
    · subst hwv
      rw [Function.update_self]
      intro heq
      cases heq
      exact hsafe w rest a hlist ((firstFree_iff hran).mp hfree) b i j hwin k hk' hw
    · rw [Function.update_of_ne hwv]
      exact h b i j a hwin k hk' w hw
  · have hset := spill_settled hs.grown.wellFormed hold hspill
    have hg := grown_of_spilled hs.grown.wellFormed hset
      (spill_spec hs.grown.wellFormed hold hspill).2
    rcases hg.outputVregs b k hk.mem w hw with ⟨hlt,hw⟩ | hle
    · have hi := old_of_grown hs.grown hf (hW b i j a hwin).mem.1
      have hj := old_of_grown hs.grown hf (hW b i j a hwin).mem.2
      exact h b i j a hwin k ((hg.between hi hj hlt).mpr hk) w hw
    · intro heq
      have hlt := (hs.assigned w (by rw [heq]; simp)).1
      exact absurd hle (Nat.not_le.mpr hlt)

/-- A register that is written in a window of the one that it was given. -/
structure Spoiled (s : Alloc) (b i j k v : ℕ) (a : Reg) : Prop where
  ends : i < s.f.nextInst ∧ j < s.f.nextInst
  old : k < s.f.nextInst
  between : Between (s.f.numbering.insts b) i j k
  writes : v ∈ (s.f.insts k).outputVregs
  assigned : s.assigned v = some a

/-- It stays so, since no spill comes to it any more. -/
theorem Spoiled.turn {rest : List ℕ} (h : Spoiled s b i j k v a) (hs : Steady f s)
    (hlist : s.worklist = w::rest) (hturn : s.turn fuel preferred w rest = .ok t) :
    Spoiled t b i j k v a := by
  have hold : w < s.f.nextVReg := hs.old w (by rw [hlist]; exact List.mem_cons_self)
  have hnot := (hs.assigned v (by rw [h.assigned]; simp)).2
  rw [hlist,List.mem_cons,not_or] at hnot
  rcases turn_eq_ok.mp hturn with ⟨reg,numbering,_,hassign,rfl⟩ | ⟨newVregs,g,_,hspill,rfl⟩
  · refine ⟨h.ends,h.old,?_,h.writes,(Function.update_of_ne hnot.1 _ _).trans h.assigned⟩
    show Between (numbering.insts b) i j k
    rw [assign_layout hassign b]
    exact h.between
  · have hset := spill_settled hs.grown.wellFormed hold hspill
    have hcode := (spill_spec hs.grown.wellFormed hold hspill).2
    have hg := grown_of_spilled hs.grown.wellFormed hset hcode
    have hk := (hg.between h.ends.1 h.ends.2 h.old).mp h.between
    exact ⟨⟨Nat.lt_of_lt_of_le h.ends.1 hg.insts,Nat.lt_of_lt_of_le h.ends.2 hg.insts⟩,
      Nat.lt_of_lt_of_le h.old hg.insts,hk,
      spilled_writes hs.grown.wellFormed hcode hk.mem h.old h.writes hnot.1,h.assigned⟩

/-- The turn that gives the register of a window to one that is written in it. -/
theorem Steady.spoiled {rest : List ℕ} (ht : Steady f s) (hf : WellFormed f)
    (hwin : Window f b i j a) (hturn : s.turn fuel preferred v rest = .ok t)
    (hfirst : FirstFree s.f.numbering v (s.availables preferred v) a)
    (hk : Between (s.f.numbering.insts b) i j k) (hv : v ∈ (s.f.insts k).outputVregs) :
    Spoiled t b i j k v a := by
  have hi := old_of_grown ht.grown hf hwin.mem.1
  have hj := old_of_grown ht.grown hf hwin.mem.2
  have hfree := (firstFree_iff (turn_ranged hturn)).mpr hfirst
  rcases turn_eq_ok.mp hturn with ⟨reg,numbering,hreg,hassign,rfl⟩ | ⟨_,_,hnone,_,_⟩
  · rw [hfree] at hreg
    cases hreg
    refine ⟨⟨hi,hj⟩,ht.grown.wellFormed.old k (mem_insts hk.mem),?_,hv,Function.update_self ..⟩
    show Between (numbering.insts b) i j k
    rw [assign_layout hassign b]
    exact hk
  · rw [hfree] at hnone
    cases hnone

theorem Spoiled.reaches (h : Spoiled s b i j k v a) (hs : Steady f s)
    (hst : Relation.ReflTransGen (Turns preferred) s t) : Spoiled t b i j k v a := by
  induction hst with
  | refl => exact h
  | tail hst hturns ih =>
    rcases hturns with ⟨_,_,_,hlist,hturn⟩
    exact ih.turn (hs.reaches hst) hlist hturn

/-! ### Whole runs -/

theorem spillAroundCalls_grown {around vregs' : List ℕ} (hf : WellFormed f) (hnodup : vregs.Nodup)
    (hold : ∀ v ∈ vregs, v < f.nextVReg) (haround : ∀ v ∈ around, v < f.nextVReg)
    (h : spillAroundCalls fuel around vregs f = .ok (vregs',g)) :
    Grown f g ∧ vregs'.Nodup ∧ ∀ v ∈ vregs', v < g.nextVReg := by
  induction around generalizing vregs f with
  | nil =>
    cases h
    exact ⟨.refl hf,hnodup,hold⟩
  | cons v rest ih =>
    rw [List.forall_mem_cons] at haround
    rcases bind_eq_ok.mp h with ⟨⟨newVregs,f₁⟩,hspill,h⟩
    have hset := spill_settled hf haround.1 hspill
    have hg := grown_of_spilled hf hset (spill_spec hf haround.1 hspill).2
    have hboth := hset.append (hnodup.erase v) fun w hw => hold w (List.mem_of_mem_erase hw)
    rcases ih hset.wellFormed hboth.1 hboth.2
      (fun w hw => Nat.lt_of_lt_of_le (haround.2 w hw) hg.vregs) h with ⟨hrest,hlists⟩
    exact ⟨hg.trans hrest,hlists⟩

theorem start_steady {hash : HashOrder} (hf : WellFormed f)
    (h : start hash fuel f = .ok (preferred,s)) : Steady f s ∧ s.assigned = fun _ => none := by
  rcases bind_eq_ok.mp h with ⟨around,haround,h⟩
  rcases bind_eq_ok.mp h with ⟨⟨vregs,g⟩,hspills,h⟩
  rcases bind_eq_ok.mp h with ⟨worklist,hsort,h⟩
  cases h
  have hperm := hash.perm (allVregs f)
  have hold : ∀ v ∈ hash.order (allVregs f), v < f.nextVReg := by
    intro v hv
    rcases mem_allVregs.mp (hperm.mem_iff.mp hv) with ⟨i,hi,hm⟩
    exact hf.mentions_lt hi hm
  have hnodup : (hash.order (allVregs f)).Nodup := hperm.nodup_iff.mpr (List.nodup_dedup _)
  rcases spillAroundCalls_grown hf hnodup hold
    (fun v hv => hold v ((aliveAroundCalls_mem haround).1 v hv)) hspills with ⟨hg,hnodup',hold'⟩
  have hperm' := (sortWorklist_perm hsort).trans (hash.perm vregs)
  exact ⟨⟨hg,hperm'.nodup_iff.mpr hnodup',fun v hv => hold' v (hperm'.mem_iff.mp hv),
    fun v hv => absurd rfl hv⟩,rfl⟩

theorem mem_outputRegs {reg : Reg} : reg ∈ inst.outputRegs ↔
    ∃ op ∈ inst.operands, op.output = true ∧ op.data = .reg reg := by
  rw [InstructionData.outputRegs,List.mem_filterMap]
  refine exists_congr fun op => and_congr_right fun _ => ?_
  cases op.output with
  | false => simp
  | true => cases op.data <;> simp [OperandData.asReg?]

theorem mem_outputVregs : v ∈ inst.outputVregs ↔
    ∃ op ∈ inst.operands, op.output = true ∧ op.data = .vreg v := by
  rw [InstructionData.outputVregs,List.mem_filterMap]
  refine exists_congr fun op => and_congr_right fun _ => ?_
  cases op.output with
  | false => simp
  | true => cases op.data <;> simp [OperandData.asVReg?]

/-- What an instruction writes with its registers. -/
theorem outputRegs_rewrite {assigned : VReg → Option Reg} {reg : Reg} :
    reg ∈ (rewriteRegs assigned inst).outputRegs ↔
      reg ∈ inst.outputRegs ∨ ∃ v ∈ inst.outputVregs, assigned v = some reg := by
  rw [mem_outputRegs,mem_outputRegs]
  constructor
  · rintro ⟨op',hop',hout,hdata⟩
    rcases List.mem_map.mp hop' with ⟨op,hop,rfl⟩
    cases hreg : op.data.asVReg?.bind assigned with
    | none =>
      simp only [hreg] at hout hdata
      exact Or.inl ⟨op,hop,hout,hdata⟩
    | some reg' =>
      simp only [hreg] at hout hdata
      cases hdata
      rcases Option.bind_eq_some_iff.mp hreg with ⟨v,hv,hassigned⟩
      refine Or.inr ⟨v,mem_outputVregs.mpr ⟨op,hop,hout,?_⟩,hassigned⟩
      cases hd : op.data with
      | vreg w =>
        rw [hd] at hv
        cases hv
        rfl
      | _ =>
        rw [hd] at hv
        cases hv
  · rintro (⟨op,hop,hout,hdata⟩ | ⟨v,hv,hassigned⟩)
    · refine ⟨_,List.mem_map_of_mem hop,?_⟩
      have hreg : op.data.asVReg?.bind assigned = none := by
        rw [hdata]
        rfl
      simp only [hreg]
      exact ⟨hout,hdata⟩
    · rcases mem_outputVregs.mp hv with ⟨op,hop,hout,hdata⟩
      refine ⟨_,List.mem_map_of_mem hop,?_⟩
      have hreg : op.data.asVReg?.bind assigned = some reg := by
        rw [hdata]
        exact hassigned
      simp only [hreg]
      exact ⟨hout,trivial⟩

/-- `g(x < y, 2, 3, 4, 5)`: the comparison is computed between the moves of the other arguments and
that of the first one. -/
def lessArgument : Spiller.State :=
  rangedBlock [⟨.MOVrr,[.asOutput (.vreg 0),.asInput (.reg (GR 1))]⟩,
    ⟨.MOVrr,[.asOutput (.vreg 1),.asInput (.reg (GR 2))]⟩,
    ⟨.MOVri,[.asOutput (.reg (GR 5)),.asInput (.int64 5)]⟩,
    ⟨.MOVri,[.asOutput (.reg (GR 4)),.asInput (.int64 4)]⟩,
    ⟨.MOVri,[.asOutput (.reg (GR 3)),.asInput (.int64 3)]⟩,
    ⟨.MOVri,[.asOutput (.reg (GR 2)),.asInput (.int64 2)]⟩,
    ⟨.GTE,[.asOutput (.vreg 2),.asInput (.vreg 1),.asInput (.vreg 0)]⟩,
    ⟨.NEQ,[.asOutput (.vreg 3),.asInput (.vreg 0),.asInput (.vreg 1)]⟩,
    ⟨.ANDrr,[.asOutput (.vreg 2),.inputOutput (.vreg 2),.asInput (.vreg 3)]⟩,
    ⟨.MOVrr,[.asOutput (.vreg 4),.asInput (.vreg 2)]⟩,
    ⟨.MOVrr,[.asOutput (.reg (GR 1)),.asInput (.vreg 4)]⟩,
    ⟨.CALL,[.implicitOutput (.reg (GR 0)),.plain (.label "g")]⟩,
    ⟨.RET,[]⟩] 6
    [(.phys (GR 5),[⟨⟨0,48⟩,⟨0,48⟩⟩]),(.phys (GR 4),[⟨⟨0,64⟩,⟨0,64⟩⟩]),
      (.phys (GR 3),[⟨⟨0,80⟩,⟨0,80⟩⟩]),(.phys (GR 2),[⟨⟨0,32⟩,⟨0,32⟩⟩,⟨⟨0,96⟩,⟨0,96⟩⟩]),
      (.virt 0,[⟨⟨0,16⟩,⟨0,128⟩⟩]),(.virt 1,[⟨⟨0,32⟩,⟨0,128⟩⟩]),(.virt 3,[⟨⟨0,128⟩,⟨0,144⟩⟩]),
      (.virt 2,[⟨⟨0,112⟩,⟨0,160⟩⟩]),(.virt 4,[⟨⟨0,160⟩,⟨0,176⟩⟩]),
      (.phys (GR 1),[⟨⟨0,16⟩,⟨0,16⟩⟩,⟨⟨0,176⟩,⟨0,176⟩⟩]),(.phys (GR 0),[⟨⟨0,192⟩,⟨0,192⟩⟩])]

theorem lessArgument_wellFormed : WellFormed lessArgument := rangedBlock_wellFormed (by decide)

theorem lessArgument_analyzed : Analyzed lessArgument := rfl

def lessPreferred : VReg → List Reg := collectPreferredRegisters lessArgument [0,1,3,2,4]

/-- The states of the loop. -/
def lessLoop : Alloc := ⟨lessArgument,[0,1,2,3,4],[],fun _ => none⟩

def lessLoop₁ : Alloc := given lessLoop 0 [1,2,3,4] (GR 6) [⟨⟨0,16⟩,⟨0,128⟩⟩]

def lessLoop₂ : Alloc := given lessLoop₁ 1 [2,3,4] (GR 7) [⟨⟨0,32⟩,⟨0,128⟩⟩]

def lessLoop₃ : Alloc := given lessLoop₂ 2 [3,4] (GR 1)
  [⟨⟨0,16⟩,⟨0,16⟩⟩,⟨⟨0,112⟩,⟨0,160⟩⟩,⟨⟨0,176⟩,⟨0,176⟩⟩]

def lessLoop₄ : Alloc := given lessLoop₃ 3 [4] (GR 5) [⟨⟨0,48⟩,⟨0,48⟩⟩,⟨⟨0,128⟩,⟨0,144⟩⟩]

def lessLoop₅ : Alloc := given lessLoop₄ 4 [] (GR 1)
  [⟨⟨0,16⟩,⟨0,16⟩⟩,⟨⟨0,112⟩,⟨0,160⟩⟩,⟨⟨0,160⟩,⟨0,176⟩⟩,⟨⟨0,176⟩,⟨0,176⟩⟩]

/-- The code with its registers: the comparison of the operands for inequality goes to the register
of the fifth argument. -/
def lessAllocated : Spiller.State :=
  { lessLoop₅.f with insts := fun i => rewriteRegs lessLoop₅.assigned (lessLoop₅.f.insts i) }

theorem lessArgument_start :
    start insertionOrder 6 lessArgument = .ok (lessPreferred,lessLoop) := by
  have haround : collectVregsAliveAroundCall lessArgument
      (insertionOrder.order (allVregs lessArgument)) = .ok [] := by decide
  have hall : allVregs lessArgument = [0,1,3,2,4] := by decide
  have hkeys : sortKeys lessArgument.numbering [0,1,3,2,4] = .ok [(0,⟨0,16⟩,1120),(1,⟨0,32⟩,960),
      (3,⟨0,128⟩,160),(2,⟨0,112⟩,480),(4,⟨0,160⟩,160)] := rfl
  have hsort : sortWorklist lessArgument.numbering (insertionOrder.order [0,1,3,2,4]) =
      .ok [0,1,2,3,4] := by
    show sortWorklist lessArgument.numbering [0,1,3,2,4] = _
    rw [sortWorklist,if_neg (by decide),hkeys]
    show Except.ok (List.map _ (List.mergeSort _ _)) = _
    simp [List.mergeSort,List.MergeSort.Internal.splitInTwo,keyLe,ProgramPoint.le]
  refine start_eq_ok.mpr ⟨[],[0,1,3,2,4],lessArgument,[0,1,2,3,4],haround,?_,hsort,rfl,rfl⟩
  rw [hall]
  rfl

theorem lessLoop_run : allocate lessPreferred 6 lessLoop = .ok lessLoop₅ := by
  have h₁ : lessLoop.turn 5 lessPreferred 0 [1,2,3,4] = .ok lessLoop₁ :=
    turn_given [⟨⟨0,16⟩,⟨0,128⟩⟩] rfl rfl (List.mergeSort_singleton _)
  have h₂ : lessLoop₁.turn 4 lessPreferred 1 [2,3,4] = .ok lessLoop₂ :=
    turn_given [⟨⟨0,32⟩,⟨0,128⟩⟩] rfl rfl (List.mergeSort_singleton _)
  have h₃ : lessLoop₂.turn 3 lessPreferred 2 [3,4] = .ok lessLoop₃ := by
    refine turn_given [⟨⟨0,112⟩,⟨0,160⟩⟩] rfl rfl ?_
    show List.mergeSort ([⟨⟨0,16⟩,⟨0,16⟩⟩,⟨⟨0,176⟩,⟨0,176⟩⟩,⟨⟨0,112⟩,⟨0,160⟩⟩] :
      List LiveSegment) _ = _
    simp [List.mergeSort,List.MergeSort.Internal.splitInTwo,ProgramPoint.le]
  have h₄ : lessLoop₃.turn 2 lessPreferred 3 [4] = .ok lessLoop₄ := by
    refine turn_given [⟨⟨0,128⟩,⟨0,144⟩⟩] rfl rfl ?_
    show List.mergeSort ([⟨⟨0,48⟩,⟨0,48⟩⟩,⟨⟨0,128⟩,⟨0,144⟩⟩] : List LiveSegment) _ = _
    simp [List.mergeSort,List.MergeSort.Internal.splitInTwo,ProgramPoint.le]
  have h₅ : lessLoop₄.turn 1 lessPreferred 4 [] = .ok lessLoop₅ := by
    refine turn_given [⟨⟨0,160⟩,⟨0,176⟩⟩] rfl rfl ?_
    show List.mergeSort ([⟨⟨0,16⟩,⟨0,16⟩⟩,⟨⟨0,112⟩,⟨0,160⟩⟩,⟨⟨0,176⟩,⟨0,176⟩⟩,
      ⟨⟨0,160⟩,⟨0,176⟩⟩] : List LiveSegment) _ = _
    simp [List.mergeSort,List.MergeSort.Internal.splitInTwo,ProgramPoint.le]
  exact bind_eq_ok.mpr ⟨_,h₁,bind_eq_ok.mpr ⟨_,h₂,bind_eq_ok.mpr ⟨_,h₃,
    bind_eq_ok.mpr ⟨_,h₄,bind_eq_ok.mpr ⟨_,h₅,rfl⟩⟩⟩⟩⟩

theorem lessArgument_run : runOnFunction insertionOrder 6 lessArgument =
    .ok (lessAllocated,usedCsr lessLoop₅) :=
  runOnFunction_eq_ok.mpr ⟨_,_,_,lessArgument_start,lessLoop_run,rfl,rfl⟩

/-- The moves of the arguments and the call. -/
theorem lessArgument_window {pre mid post : List ℕ} (hi : i ∈ [2,3,4,5,10])
    (hsplit : lessArgument.numbering.insts 0 = pre ++ i::(mid ++ 11::post))
    (ha : a ∈ (lessArgument.insts i).outputRegs) : Window lessArgument 0 i 11 a where
  span := ⟨pre,mid,post,hsplit⟩
  near := by
    have hcalls : ∀ k ∈ lessArgument.numbering.insts 0, k ≠ 11 →
        (lessArgument.insts k).isCall = false := by decide
    exact fun k hk => hcalls k hk.mem (hk.ne (by decide)).2
  kind := by
    have hcopies : ∀ i ∈ [2,3,4,5,10], isCopy (lessArgument.insts i) = true := by decide
    exact Or.inl ⟨hcopies i hi,ha,by decide⟩

end Regalloc
end Codegen
end OlaLang
