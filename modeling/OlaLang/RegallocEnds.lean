import OlaLang.RegallocAnalysis
import Mathlib.Logic.Relation

/-! When the allocator comes to an end. A turn either gives a register to the one that was popped,
or spills one that is not of the spiller and so leaves fewer such registers in the worklist; the
registers of the code are in the list or have a register. A run that ends has met the condition in
each of its states. -/
namespace OlaLang
namespace Codegen
namespace Regalloc

open Liveness ProgramPoints Spiller

variable {f g : Spiller.State} {r v w fuel : ℕ} {newVregs vregs : List ℕ} {n : Numbering}
  {preferred : VReg → List Reg} {s t : Alloc}

/-! ### Interference -/

/-- A segment of one begins before one of the other ends, and ends after that one begins. -/
def Overlaps (xs ys : List LiveSegment) : Prop :=
  ∃ x ∈ xs, ∃ y ∈ ys, ¬ y.stop.le x.start ∧ ¬ x.stop.le y.start

/-- The segments of a register; one without any is nowhere live. -/
def segsOf (n : Numbering) (r : LReg) : List LiveSegment := (rangeOf n r).getD []

section Interference

variable {xs ys : List LiveSegment}

theorem interfereAll_eq_false : interfereAll xs ys = false ↔
    ∀ x ∈ xs, ∀ y ∈ ys, x.interfere y = false := by
  simp [interfereAll]

theorem not_overlaps_iff : ¬ Overlaps xs ys ↔ interfereAll xs ys = false := by
  rw [interfereAll_eq_false]
  constructor
  · intro h x hx y hy
    rw [LiveSegment.interfere,Bool.and_eq_false_iff]
    simp only [Bool.not_eq_false',decide_eq_true_eq]
    by_contra hboth
    rw [not_or] at hboth
    exact h ⟨x,hx,y,hy,hboth⟩
  · rintro h ⟨x,hx,y,hy,hstart,hstop⟩
    have hxy := h x hx y hy
    rw [LiveSegment.interfere,Bool.and_eq_false_iff] at hxy
    simp only [Bool.not_eq_false',decide_eq_true_eq] at hxy
    exact hxy.elim hstart hstop

/-- The answer is about the segments when the register has some. -/
theorem interfere_eq (h : rangeOf n (.virt v) ≠ none) (reg : Reg) : interfere n reg v =
    .ok (interfereAll (segsOf n (.virt v)) (segsOf n (.phys reg))) := by
  rcases Option.ne_none_iff_exists'.mp h with ⟨range,hrange⟩
  rw [interfere,segsOf,segsOf,hrange]
  cases rangeOf n (.phys reg) with
  | none =>
    have hnone : interfereAll range [] = false := interfereAll_eq_false.mpr (by simp)
    exact congrArg Except.ok hnone.symm
  | some regRange =>
    simp only [vregRange,hrange]
    rfl

/-- A register that is free does not interfere with what it holds. -/
theorem interfere_eq_false {reg : Reg} (h : interfere n reg v = .ok false) :
    interfereAll (segsOf n (.virt v)) (segsOf n (.phys reg)) = false := by
  cases hrange : rangeOf n (.virt v) with
  | none =>
    rw [segsOf,hrange]
    rfl
  | some range =>
    rw [interfere_eq (by rw [hrange]; simp)] at h
    exact Except.ok.inj h

theorem overlaps_of_interfere {reg : Reg} (h : interfere n reg v = .ok true) :
    Overlaps (segsOf n (.virt v)) (segsOf n (.phys reg)) := by
  by_contra hfree
  cases hrange : rangeOf n (.virt v) with
  | none =>
    rw [interfere,vregRange,hrange] at h
    split at h <;> cases h
  | some range =>
    rw [interfere_eq (by rw [hrange]; simp),not_overlaps_iff.mp hfree] at h
    cases h

/-- The first register of the list whose segments do not overlap those of the register. -/
def FirstFree (n : Numbering) (v : VReg) (regs : List Reg) (reg : Reg) : Prop :=
  ∃ before after, regs = before ++ reg::after ∧
    (∀ r ∈ before, Overlaps (segsOf n (.virt v)) (segsOf n (.phys r))) ∧
    ¬ Overlaps (segsOf n (.virt v)) (segsOf n (.phys reg))

theorem firstFree_iff (h : rangeOf n (.virt v) ≠ none) {regs : List Reg} {reg : Reg} :
    firstFree n v regs = .ok (some reg) ↔ FirstFree n v regs reg := by
  induction regs with
  | nil =>
    refine iff_of_false (fun h => by cases h) ?_
    rintro ⟨before,after,hsplit,_⟩
    cases before <;> cases hsplit
  | cons r rest ih =>
    rw [firstFree,interfere_eq h r]
    cases htaken : interfereAll (segsOf n (.virt v)) (segsOf n (.phys r)) with
    | false =>
      have hfree := not_overlaps_iff.mpr htaken
      constructor
      · intro hok
        cases hok
        exact ⟨[],rest,rfl,by simp,hfree⟩
      · rintro ⟨before,after,hsplit,hbefore,_⟩
        cases before with
        | nil =>
          cases hsplit
          rfl
        | cons r' before =>
          cases hsplit
          exact absurd (hbefore r List.mem_cons_self) hfree
    | true =>
      have hover : Overlaps (segsOf n (.virt v)) (segsOf n (.phys r)) := by
        by_contra hfree
        rw [not_overlaps_iff.mp hfree] at htaken
        cases htaken
      refine ih.trans ?_
      constructor
      · rintro ⟨before,after,rfl,hbefore,hfree⟩
        exact ⟨r::before,after,rfl,List.forall_mem_cons.mpr ⟨hover,hbefore⟩,hfree⟩
      · rintro ⟨before,after,hsplit,hbefore,hfree⟩
        cases before with
        | nil =>
          cases hsplit
          exact absurd hover hfree
        | cons r' before =>
          cases hsplit
          exact ⟨before,after,rfl,(List.forall_mem_cons.mp hbefore).2,hfree⟩

end Interference

/-! ### Fuel -/

theorem rewriteUsers_mono {make : VReg → InstructionData} {op : InstId → InstId → BasicBlockId → Op}
    {E : List ℕ} {fuel' : ℕ} (hle : fuel ≤ fuel')
    (h : rewriteUsers fuel make op r E f = .ok (newVregs,g)) :
    rewriteUsers fuel' make op r E f = .ok (newVregs,g) := by
  induction E generalizing f newVregs with
  | nil => exact h
  | cons i rest ih =>
    rcases rewriteUsers_cons.mp h with ⟨v,vs,g',hfirst,hrest,rfl⟩
    rcases rewriteUser_eq_ok.mp hfirst with ⟨user,n,hfind,hsize,hstep,hv,hg⟩
    exact rewriteUsers_cons.mpr ⟨v,vs,g',rewriteUser_eq_ok.mpr
      ⟨user,n,hfind,hsize,step_mono hle hstep,hv,hg⟩,ih hrest,rfl⟩

theorem spill_mono {fuel' : ℕ} (hle : fuel ≤ fuel') (h : spill fuel v f = .ok (newVregs,g)) :
    spill fuel' v f = .ok (newVregs,g) := by
  rcases spill_eq_ok.mp h with ⟨vs₁,f₁,vs₂,f₂,g',h₁,h₂,hrest⟩
  exact spill_eq_ok.mpr
    ⟨vs₁,f₁,vs₂,f₂,g',rewriteUsers_mono hle h₁,rewriteUsers_mono hle h₂,hrest⟩

theorem turn_eq_ok {rest : List ℕ} : s.turn fuel preferred v rest = .ok t ↔
    (∃ reg numbering, firstFree s.f.numbering v (s.availables preferred v) = .ok (some reg) ∧
      assign s.f.numbering reg v = .ok numbering ∧
      t = { s with
        f := { s.f with numbering := numbering }
        worklist := rest
        assigned := Function.update s.assigned v (some reg) }) ∨
    ∃ newVregs g, firstFree s.f.numbering v (s.availables preferred v) = .ok none ∧
      spill fuel v s.f = .ok (newVregs,g) ∧
      t = { s with f := g, worklist := rest ++ newVregs, spillRegs := newVregs ++ s.spillRegs } := by
  rw [Alloc.turn,bind_eq_ok]
  constructor
  · rintro ⟨reg?,hfree,h⟩
    cases reg? with
    | some reg =>
      rcases bind_eq_ok.mp h with ⟨numbering,hassign,h⟩
      cases h
      exact Or.inl ⟨reg,numbering,hfree,hassign,rfl⟩
    | none =>
      rcases bind_eq_ok.mp h with ⟨⟨newVregs,g⟩,hspill,h⟩
      cases h
      exact Or.inr ⟨newVregs,g,hfree,hspill,rfl⟩
  · rintro (⟨reg,numbering,hfree,hassign,rfl⟩ | ⟨newVregs,g,hfree,hspill,rfl⟩)
    · exact ⟨some reg,hfree,bind_eq_ok.mpr ⟨numbering,hassign,rfl⟩⟩
    · exact ⟨none,hfree,bind_eq_ok.mpr ⟨(newVregs,g),hspill,rfl⟩⟩

theorem turn_mono {rest : List ℕ} {fuel' : ℕ} (hle : fuel ≤ fuel')
    (h : s.turn fuel preferred v rest = .ok t) : s.turn fuel' preferred v rest = .ok t := by
  rw [turn_eq_ok] at h ⊢
  rcases h with h | ⟨newVregs,g,hfree,hspill,ht⟩
  · exact Or.inl h
  · exact Or.inr ⟨newVregs,g,hfree,spill_mono hle hspill,ht⟩

theorem allocate_mono {fuel' : ℕ} (hle : fuel ≤ fuel') (h : allocate preferred fuel s = .ok t) :
    allocate preferred fuel' s = .ok t := by
  induction fuel generalizing fuel' s with
  | zero => cases h
  | succ fuel ih =>
    cases fuel' with
    | zero => exact absurd hle (Nat.not_succ_le_zero fuel)
    | succ fuel' =>
      have hle' := Nat.le_of_succ_le_succ hle
      rw [allocate] at h ⊢
      cases hlist : s.worklist with
      | nil =>
        rw [hlist] at h
        exact h
      | cons v rest =>
        rw [hlist] at h
        rcases bind_eq_ok.mp h with ⟨u,hturn,hrest⟩
        exact bind_eq_ok.mpr ⟨u,turn_mono hle' hturn,ih hle' hrest⟩

/-! ### The condition -/

/-- One turn of the loop. -/
def Turns (preferred : VReg → List Reg) (s t : Alloc) : Prop :=
  ∃ fuel v rest, s.worklist = v::rest ∧ s.turn fuel preferred v rest = .ok t

/-- The register at the head of the worklist has a free register, or it is not one of the spiller,
can be spilled, and has a flag wherever it is named. -/
def Meets (preferred : VReg → List Reg) (s : Alloc) : Prop :=
  ∀ v rest, s.worklist = v::rest →
    (∃ reg ∈ s.availables preferred v, ¬ Overlaps (segsOf s.f.numbering (.virt v))
      (segsOf s.f.numbering (.phys reg))) ∨
        v ∉ s.spillRegs ∧ Spillable s.f v ∧ Flagged s.f v

/-- Every spill around a call has room in the state it meets, and leaves no name of the register. -/
def SpillsMeet : List VReg → Spiller.State → Prop
  | [], _ => True
  | v::rest, f => (Spillable f v ∧ Flagged f v) ∧
    ∀ fuel newVregs g, spill fuel v f = .ok (newVregs,g) → SpillsMeet rest g

/-- The weights that the sorting of the list needs fit. -/
def WeightsMeet (n : Numbering) (vregs : List VReg) : Prop :=
  vregs.length ≤ 1 ∨ ∀ v ∈ vregs, ∀ segs, rangeOf n (.virt v) = some segs →
    ∃ w, weight 0 segs = .ok w

/-- The condition under which the allocator comes to an end. -/
structure Allocatable (hash : HashOrder) (f : Spiller.State) : Prop where
  named : ∀ v, Occurs f v → Touched f v
  spills : ∀ around, collectVregsAliveAroundCall f (hash.order (allVregs f)) = .ok around →
    SpillsMeet around f
  weights : ∀ fuel around vregs g,
    collectVregsAliveAroundCall f (hash.order (allVregs f)) = .ok around →
    spillAroundCalls fuel around (hash.order (allVregs f)) f = .ok (vregs,g) →
    WeightsMeet g.numbering (hash.order vregs)
  turns : ∀ fuel preferred s, start hash fuel f = .ok (preferred,s) →
    ∀ t, Relation.ReflTransGen (Turns preferred) s t → Meets preferred t

/-- The worklist becomes empty, and no virtual register is left in the code. -/
def Ends (hash : HashOrder) (f : Spiller.State) : Prop :=
  ∃ fuel g csr, runOnFunction hash fuel f = .ok (g,csr) ∧ ∀ v, ¬ Occurs g v

/-- No register that the spiller made is found without a free register, and spilled again. -/
def SpillsOnce (hash : HashOrder) (f : Spiller.State) : Prop :=
  ∀ fuel preferred s, start hash fuel f = .ok (preferred,s) →
    ∀ t, Relation.ReflTransGen (Turns preferred) s t → ∀ v rest, t.worklist = v::rest →
      v ∈ t.spillRegs → firstFree t.f.numbering v (t.availables preferred v) ≠ .ok none

/-! ### A turn -/

/-- The registers that wait in the worklist have ranges and no register yet. -/
structure Waits (s : Alloc) : Prop where
  wellFormed : WellFormed s.f
  nodup : s.worklist.Nodup
  old : ∀ v ∈ s.worklist, v < s.f.nextVReg
  ranged : ∀ v ∈ s.worklist, Ranged s.f.numbering v
  waiting : ∀ v ∈ s.worklist, s.assigned v = none
  given : ∀ v, s.assigned v ≠ none → v < s.f.nextVReg

/-- The registers of the code are in the worklist or have a register. -/
def Complete (s : Alloc) : Prop := ∀ v, Occurs s.f v → v ∈ s.worklist ∨ s.assigned v ≠ none

theorem vregRange_ok (h : Ranged n v) : ∃ segs, vregRange n v = .ok segs := by
  rcases h with ⟨seg,segs,hseg⟩
  exact ⟨seg::segs,by rw [vregRange,rangeOf,hseg]; rfl⟩

theorem interfere_ok (h : Ranged n v) (reg : Reg) : ∃ taken, interfere n reg v = .ok taken := by
  rw [interfere]
  cases rangeOf n (.phys reg) with
  | none => exact ⟨false,rfl⟩
  | some regRange =>
    rcases vregRange_ok h with ⟨segs,hsegs⟩
    exact ⟨interfereAll segs regRange,by rw [hsegs]; rfl⟩

theorem assign_rangeless {reg : Reg} (h : rangeOf n (.virt v) = none) :
    assign n reg v = .error .panic := by
  rw [assign,vregRange,h]
  rfl

theorem firstFree_eq_some {regs : List Reg} {reg : Reg} (h : firstFree n v regs = .ok (some reg)) :
    reg ∈ regs ∧ interfere n reg v = .ok false := by
  induction regs with
  | nil => cases h
  | cons r rest ih =>
    rcases bind_eq_ok.mp h with ⟨taken,htaken,h⟩
    cases taken with
    | true => exact ⟨List.mem_cons_of_mem r (ih h).1,(ih h).2⟩
    | false =>
      cases h
      exact ⟨List.mem_cons_self,htaken⟩

theorem firstFree_eq_none {regs : List Reg} (h : firstFree n v regs = .ok none) :
    ∀ reg ∈ regs, interfere n reg v = .ok true := by
  induction regs with
  | nil => simp
  | cons r rest ih =>
    rcases bind_eq_ok.mp h with ⟨taken,htaken,h⟩
    cases taken with
    | true => exact List.forall_mem_cons.mpr ⟨htaken,ih h⟩
    | false => cases h

theorem firstFree_ok (h : Ranged n v) (regs : List Reg) :
    ∃ reg?, firstFree n v regs = .ok reg? := by
  induction regs with
  | nil => exact ⟨none,rfl⟩
  | cons reg rest ih =>
    rcases interfere_ok h reg with ⟨taken,htaken⟩
    rw [firstFree,htaken]
    cases taken with
    | false => exact ⟨some reg,rfl⟩
    | true => exact ih

theorem assign_ok (h : Ranged n v) (reg : Reg) : ∃ segs, assign n reg v =
    .ok (setRange n (.phys reg) segs) := by
  rcases vregRange_ok h with ⟨segs,hsegs⟩
  exact ⟨_,by rw [assign,hsegs]; rfl⟩

theorem ranged_assign {segs : List LiveSegment} {reg : Reg} (h : Ranged n v) :
    Ranged (setRange n (.phys reg) segs) v := by
  rcases h with ⟨seg,rest,hseg⟩
  refine ⟨seg,rest,?_⟩
  rw [lookup_setRange,if_neg (by simp)]
  exact hseg

theorem assign_eq_ok {numbering : Numbering} {reg : Reg}
    (h : assign n reg v = .ok numbering) : ∃ segs, numbering = setRange n (.phys reg) segs := by
  rw [assign] at h
  cases hrange : vregRange n v with
  | error e =>
    rw [hrange] at h
    cases h
  | ok segs =>
    rw [hrange] at h
    cases h
    exact ⟨_,rfl⟩

theorem sameCode_setRange {reg : Reg} {segs : List LiveSegment} :
    SameCode f { f with numbering := setRange f.numbering (.phys reg) segs } := ⟨_,rfl⟩

/-- A turn keeps the list of the waiting registers: the new ones are above the others. -/
theorem Waits.turn {rest : List ℕ} (h : Waits s) (hlist : s.worklist = v::rest)
    (hturn : s.turn fuel preferred v rest = .ok t) : Waits t := by
  have hnodup := h.nodup
  rw [hlist,List.nodup_cons] at hnodup
  have hold : v < s.f.nextVReg := h.old v (by rw [hlist]; exact List.mem_cons_self)
  have hmem : ∀ w ∈ rest, w ∈ s.worklist := fun w hw => by
    rw [hlist]
    exact List.mem_cons_of_mem v hw
  have hne : ∀ w ∈ rest, w ≠ v := fun w hw heq => hnodup.1 (heq ▸ hw)
  rcases turn_eq_ok.mp hturn with ⟨reg,numbering,_,hassign,rfl⟩ | ⟨newVregs,g,_,hspill,rfl⟩
  · rcases assign_eq_ok hassign with ⟨segs,rfl⟩
    refine ⟨h.wellFormed.sameCode sameCode_setRange,hnodup.2,fun w hw => h.old w (hmem w hw),
      fun w hw => ranged_assign (h.ranged w (hmem w hw)),?_,?_⟩
    · intro w hw
      exact (Function.update_of_ne (hne w hw) _ _).trans (h.waiting w (hmem w hw))
    · intro w hw
      change Function.update s.assigned v (some reg) w ≠ none at hw
      by_cases hwv : w = v
      · rw [hwv]
        exact hold
      · rw [Function.update_of_ne hwv] at hw
        exact h.given w hw
  · have hs := spill_settled h.wellFormed hold hspill
    have hboth := hs.append hnodup.2 fun w hw => h.old w (hmem w hw)
    refine ⟨hs.wellFormed,hboth.1,hboth.2,?_,?_,?_⟩
    · intro w hw
      rcases List.mem_append.mp hw with hw | hw
      · exact hs.ranged w (hne w hw) (h.ranged w (hmem w hw))
      · exact hs.newRanged w hw
    · intro w hw
      rcases List.mem_append.mp hw with hw | hw
      · exact h.waiting w (hmem w hw)
      · by_contra hgiven
        exact absurd (hs.mem_new hw).1 (Nat.not_le.mpr (h.given w hgiven))
    · intro w hw
      show w < g.nextVReg
      rw [hs.nextVReg]
      exact Nat.lt_add_right _ (h.given w hw)

/-- The turn that gives a register. -/
theorem Complete.assigned {rest : List ℕ} {reg : Reg} {segs : List LiveSegment} (h : Complete s)
    (hlist : s.worklist = v::rest) : Complete { s with
      f := { s.f with numbering := setRange s.f.numbering (.phys reg) segs }
      worklist := rest
      assigned := Function.update s.assigned v (some reg) } := by
  intro w hw
  show w ∈ rest ∨ Function.update s.assigned v (some reg) w ≠ none
  by_cases hwv : w = v
  · right
    subst hwv
    rw [Function.update_self]
    simp
  · rw [Function.update_of_ne hwv]
    rcases h w hw with hin | hsome
    · rw [hlist] at hin
      exact Or.inl ((List.mem_cons.mp hin).resolve_left hwv)
    · exact Or.inr hsome

/-- The turn that spills a register that has a flag wherever it is named. -/
theorem Complete.spilled {rest : List ℕ} (h : Complete s) (hlist : s.worklist = v::rest)
    (hflag : Flagged s.f v) (hs : Settled v newVregs s.f g) : Complete { s with
      f := g, worklist := rest ++ newVregs, spillRegs := newVregs ++ s.spillRegs } := by
  intro w hw
  have hwv : w ≠ v := fun heq => hs.gone hflag (heq ▸ hw)
  rcases hs.occurs w hw with hold | hin
  · rcases h w hold with hin | hsome
    · rw [hlist] at hin
      exact Or.inl (List.mem_append_left _ ((List.mem_cons.mp hin).resolve_left hwv))
    · exact Or.inr hsome
  · exact Or.inl (List.mem_append_right _ hin)

/-- The registers of the list that are not of the spiller. -/
def Alloc.ordinary (s : Alloc) : List VReg := s.worklist.filter (· ∉ s.spillRegs)

/-- A turn that meets the condition succeeds; it leaves fewer ordinary registers, or no more of them
and a shorter list. -/
theorem Waits.progress {rest : List ℕ} (h : Waits s) (hall : Complete s)
    (hmeets : Meets preferred s) (hlist : s.worklist = v::rest) :
    ∃ fuel t, s.turn fuel preferred v rest = .ok t ∧ Complete t ∧
      (t.ordinary.length < s.ordinary.length ∨
        t.ordinary.length ≤ s.ordinary.length ∧ t.worklist.length < s.worklist.length) := by
  have hran : Ranged s.f.numbering v := h.ranged v (by rw [hlist]; exact List.mem_cons_self)
  rcases firstFree_ok hran (s.availables preferred v) with ⟨reg?,hfree⟩
  cases reg? with
  | some reg =>
    rcases assign_ok hran reg with ⟨segs,hassign⟩
    refine ⟨0,_,turn_eq_ok.mpr (Or.inl ⟨reg,_,hfree,hassign,rfl⟩),hall.assigned hlist,Or.inr ⟨?_,?_⟩⟩
    · rw [Alloc.ordinary,Alloc.ordinary,hlist]
      exact (List.Sublist.filter _ (List.sublist_cons_self v rest)).length_le
    · rw [hlist]
      exact Nat.lt_succ_self _
  | none =>
    have hspill : v ∉ s.spillRegs ∧ Spillable s.f v ∧ Flagged s.f v := by
      refine (hmeets v rest hlist).resolve_left ?_
      rintro ⟨reg,hreg,hnot⟩
      exact hnot (overlaps_of_interfere (firstFree_eq_none hfree reg hreg))
    have hold := h.old v (by rw [hlist]; exact List.mem_cons_self)
    rcases spill_ok h.wellFormed hold hspill.2.1 with ⟨fuel,newVregs,g,hrun⟩
    have hs := spill_settled h.wellFormed hold hrun
    refine ⟨fuel,_,turn_eq_ok.mpr (Or.inr ⟨newVregs,g,hfree,hrun,rfl⟩),
      hall.spilled hlist hspill.2.2 hs,Or.inl ?_⟩
    have hnone : newVregs.filter (· ∉ newVregs ++ s.spillRegs) = [] := by
      rw [List.filter_eq_nil_iff]
      intro w hw
      simp [hw]
    have hsub : (rest.filter (· ∉ newVregs ++ s.spillRegs)).Sublist
        (rest.filter (· ∉ s.spillRegs)) :=
      List.monotone_filter_right rest fun w hw => by
        rw [decide_eq_true_iff] at hw ⊢
        exact fun hin => hw (List.mem_append_right _ hin)
    show ((rest ++ newVregs).filter (· ∉ newVregs ++ s.spillRegs)).length < _
    rw [List.filter_append,hnone,List.append_nil,Alloc.ordinary,hlist,
      List.filter_cons_of_pos (by simpa using hspill.1),List.length_cons]
    exact Nat.lt_succ_of_le hsub.length_le

/-! ### The loop -/

/-- A run whose turns all meet the condition comes to an end with an empty list. -/
theorem Waits.allocate {s : Alloc} (h : Waits s) (hall : Complete s)
    (hmeets : ∀ t, Relation.ReflTransGen (Turns preferred) s t → Meets preferred t) :
    ∃ fuel t, allocate preferred fuel s = .ok t ∧ Complete t ∧ t.worklist = [] := by
  cases hlist : s.worklist with
  | nil => exact ⟨1,s,by rw [Regalloc.allocate,hlist],hall,hlist⟩
  | cons v rest =>
    rcases h.progress hall (hmeets s .refl) hlist with ⟨fuel,t,hturn,ht,hmeasure⟩
    have hturns : Turns preferred s t := ⟨fuel,v,rest,hlist,hturn⟩
    rcases (h.turn hlist hturn).allocate ht fun u hu => hmeets u (.head hturns hu) with
      ⟨fuel',u,hrun,hu⟩
    refine ⟨max fuel fuel'+1,u,?_,hu⟩
    rw [Regalloc.allocate,hlist]
    exact bind_eq_ok.mpr ⟨t,turn_mono (le_max_left _ _) hturn,allocate_mono (le_max_right _ _) hrun⟩
termination_by (s.ordinary.length,s.worklist.length)
decreasing_by
  rcases hmeasure with hlt | ⟨hle,hlt⟩
  · exact Prod.Lex.left _ _ hlt
  · rcases Nat.lt_or_eq_of_le hle with hlt' | heq
    · exact Prod.Lex.left _ _ hlt'
    · rw [heq]
      exact Prod.Lex.right _ hlt

/-- The states of a run, up to its end. -/
theorem allocate_turns {u : Alloc} (h : allocate preferred fuel s = .ok u) :
    Relation.ReflTransGen (Turns preferred) s u := by
  induction fuel generalizing s with
  | zero => cases h
  | succ fuel ih =>
    rw [allocate] at h
    cases hlist : s.worklist with
    | nil =>
      rw [hlist] at h
      cases h
      exact .refl
    | cons v rest =>
      rw [hlist] at h
      rcases bind_eq_ok.mp h with ⟨t,hturn,h⟩
      exact .head ⟨fuel,v,rest,hlist,hturn⟩ (ih h)

/-- A run that ends goes through every state that its turns reach. -/
theorem allocate_reaches {u : Alloc} (h : allocate preferred fuel s = .ok u)
    (hst : Relation.ReflTransGen (Turns preferred) s t) :
    ∃ fuel', allocate preferred fuel' t = .ok u := by
  induction hst with
  | refl => exact ⟨fuel,h⟩
  | tail _ hturns ih =>
    rcases ih with ⟨fuel₁,h₁⟩
    rcases hturns with ⟨fuel₂,v,rest,hlist,hturn⟩
    cases fuel₁ with
    | zero => cases h₁
    | succ fuel₁ =>
      rw [allocate,hlist] at h₁
      rcases bind_eq_ok.mp h₁ with ⟨t',hturn',h₁⟩
      have h' := turn_mono (le_max_left fuel₁ fuel₂) hturn'
      rw [turn_mono (le_max_right fuel₁ fuel₂) hturn] at h'
      cases h'
      exact ⟨fuel₁,h₁⟩

theorem Waits.reaches (h : Waits s) (hst : Relation.ReflTransGen (Turns preferred) s t) :
    Waits t := by
  induction hst with
  | refl => exact h
  | tail _ hturns ih =>
    rcases hturns with ⟨fuel,v,rest,hlist,hturn⟩
    exact ih.turn hlist hturn

/-- A register that is neither in the worklist nor given one gets none any more, and keeps the
operands that name it without a flag. -/
theorem Turns.left (hturn : Turns preferred s t) (h : Waits s) (hw : w ∉ s.worklist)
    (hlt : w < s.f.nextVReg) (hnone : s.assigned w = none) (hflag : ¬ Flagged s.f w) :
    w ∉ t.worklist ∧ w < t.f.nextVReg ∧ t.assigned w = none ∧ ¬ Flagged t.f w := by
  rcases hturn with ⟨fuel,v,rest,hlist,hturn⟩
  have hold : v < s.f.nextVReg := h.old v (by rw [hlist]; exact List.mem_cons_self)
  rw [hlist,List.mem_cons,not_or] at hw
  rcases turn_eq_ok.mp hturn with ⟨reg,numbering,_,hassign,rfl⟩ | ⟨newVregs,g,_,hspill,rfl⟩
  · rcases assign_eq_ok hassign with ⟨segs,rfl⟩
    exact ⟨hw.2,hlt,(Function.update_of_ne hw.1 _ _).trans hnone,hflag⟩
  · have hs := spill_settled h.wellFormed hold hspill
    refine ⟨fun hin => ?_,?_,hnone,fun hf => hflag ((hs.flagged w).mp hf)⟩
    · rcases List.mem_append.mp hin with hin | hin
      · exact hw.2 hin
      · exact absurd (hs.mem_new hin).1 (Nat.not_le.mpr hlt)
    · show w < g.nextVReg
      rw [hs.nextVReg]
      exact Nat.lt_add_right _ hlt

/-- Such a register is still in the code at the end. -/
theorem Waits.left (h : Waits s) (hst : Relation.ReflTransGen (Turns preferred) s t)
    (hw : w ∉ s.worklist) (hlt : w < s.f.nextVReg) (hnone : s.assigned w = none)
    (hflag : ¬ Flagged s.f w) : Occurs t.f w ∧ t.assigned w = none := by
  have hleft : w ∉ t.worklist ∧ w < t.f.nextVReg ∧ t.assigned w = none ∧ ¬ Flagged t.f w := by
    induction hst with
    | refl => exact ⟨hw,hlt,hnone,hflag⟩
    | tail hst hturn ih => exact hturn.left (h.reaches hst) ih.1 ih.2.1 ih.2.2.1 ih.2.2.2
  exact ⟨occurs_of_not_flagged hleft.2.2.2,hleft.2.2.1⟩

/-! ### The spills around the calls -/

/-- A set of registers with ranges. -/
structure Covers (vregs : List ℕ) (f : Spiller.State) : Prop where
  wellFormed : WellFormed f
  nodup : vregs.Nodup
  old : ∀ v ∈ vregs, v < f.nextVReg
  ranged : ∀ v ∈ vregs, Ranged f.numbering v

theorem mem_allVregs : v ∈ allVregs f ↔ Occurs f v := by
  rw [allVregs,List.mem_dedup,List.mem_flatMap]
  refine exists_congr fun i => and_congr_right fun _ => ?_
  rw [allVregsOf,List.mem_filterMap]
  refine exists_congr fun op => and_congr_right fun _ => ?_
  cases op.data <;> simp [OperandData.asVReg?]

theorem Covers.perm {vregs' : List ℕ} (h : Covers vregs f) (hperm : vregs'.Perm vregs) :
    Covers vregs' f where
  wellFormed := h.wellFormed
  nodup := hperm.nodup_iff.mpr h.nodup
  old := fun v hv => h.old v (hperm.mem_iff.mp hv)
  ranged := fun v hv => h.ranged v (hperm.mem_iff.mp hv)

theorem covers_allVregs (hf : WellFormed f) (hran : Analyzed f)
    (hnamed : ∀ v, Occurs f v → Touched f v) : Covers (allVregs f) f where
  wellFormed := hf
  nodup := List.nodup_dedup _
  old := fun v hv => by
    rcases mem_allVregs.mp hv with ⟨i,hi,hm⟩
    exact hf.mentions_lt hi hm
  ranged := fun v hv => hran.ranged (hnamed v (mem_allVregs.mp hv))

/-- A register that was spilled already may be spilled again. -/
theorem Covers.spilled (h : Covers vregs f) (hs : Settled v newVregs f g) :
    Covers (vregs.erase v ++ newVregs) g := by
  have hboth := hs.append (h.nodup.erase v) fun w hw => h.old w (List.mem_of_mem_erase hw)
  refine ⟨hs.wellFormed,hboth.1,hboth.2,?_⟩
  intro w hw
  rcases List.mem_append.mp hw with hw | hw
  · rw [h.nodup.mem_erase_iff] at hw
    exact hs.ranged w hw.1 (h.ranged w hw.2)
  · exact hs.newRanged w hw

/-- The names of the code stay in the set when the spilled register has a flag everywhere. -/
theorem Covers.names (h : Covers vregs f) (hs : Settled v newVregs f g) (hflag : Flagged f v)
    (hall : ∀ w, Occurs f w → w ∈ vregs) : ∀ w, Occurs g w → w ∈ vregs.erase v ++ newVregs := by
  intro w hw
  have hwv : w ≠ v := fun heq => hs.gone hflag (heq ▸ hw)
  rcases hs.occurs w hw with hold | hin
  · exact List.mem_append_left _ (h.nodup.mem_erase_iff.mpr ⟨hwv,hall w hold⟩)
  · exact List.mem_append_right _ hin

theorem spillAroundCalls_mono {around vregs' : List ℕ} {fuel' : ℕ} (hle : fuel ≤ fuel')
    (h : spillAroundCalls fuel around vregs f = .ok (vregs',g)) :
    spillAroundCalls fuel' around vregs f = .ok (vregs',g) := by
  induction around generalizing vregs f with
  | nil => exact h
  | cons v rest ih =>
    rcases bind_eq_ok.mp h with ⟨⟨newVregs,f₁⟩,hspill,hrest⟩
    exact bind_eq_ok.mpr ⟨(newVregs,f₁),spill_mono hle hspill,ih hrest⟩

theorem Covers.spills {around : List ℕ} (h : Covers vregs f)
    (hall : ∀ v, Occurs f v → v ∈ vregs) (hold : ∀ v ∈ around, v < f.nextVReg)
    (hmeets : SpillsMeet around f) : ∃ fuel vregs' g,
      spillAroundCalls fuel around vregs f = .ok (vregs',g) ∧ Covers vregs' g ∧
        ∀ v, Occurs g v → v ∈ vregs' := by
  induction around generalizing vregs f with
  | nil => exact ⟨0,vregs,f,rfl,h,hall⟩
  | cons v rest ih =>
    rw [List.forall_mem_cons] at hold
    rcases spill_ok h.wellFormed hold.1 hmeets.1.1 with ⟨fuel,newVregs,f₁,hspill⟩
    have hs := spill_settled h.wellFormed hold.1 hspill
    have hold' : ∀ w ∈ rest, w < f₁.nextVReg := fun w hw => by
      rw [hs.nextVReg]
      exact Nat.lt_add_right _ (hold.2 w hw)
    rcases ih (h.spilled hs) (h.names hs hmeets.1.2 hall) hold' (hmeets.2 fuel newVregs f₁ hspill)
      with ⟨fuel',vregs',g,hrun,hg⟩
    refine ⟨max fuel fuel',vregs',g,bind_eq_ok.mpr ⟨(newVregs,f₁),?_,?_⟩,hg⟩
    · exact spill_mono (le_max_left _ _) hspill
    · exact spillAroundCalls_mono (le_max_right _ _) hrun

/-- What the spills that succeed leave: the registers that were spilled are not in the set. -/
theorem Covers.spilledAll {around vregs' : List ℕ} (h : Covers vregs f)
    (hold : ∀ v ∈ around, v < f.nextVReg)
    (hrun : spillAroundCalls fuel around vregs f = .ok (vregs',g)) :
    Covers vregs' g ∧ f.nextVReg ≤ g.nextVReg ∧ (∀ v, Flagged g v ↔ Flagged f v) ∧
      (∀ v ∈ around, v ∉ vregs') ∧ ∀ v < f.nextVReg, v ∉ vregs → v ∉ vregs' := by
  induction around generalizing vregs f with
  | nil =>
    cases hrun
    exact ⟨h,Nat.le_refl _,fun _ => Iff.rfl,by simp,fun _ _ => id⟩
  | cons v rest ih =>
    rw [List.forall_mem_cons] at hold
    rcases bind_eq_ok.mp hrun with ⟨⟨newVregs,f₁⟩,hspill,hrun⟩
    have hs := spill_settled h.wellFormed hold.1 hspill
    have hle : f.nextVReg ≤ f₁.nextVReg := by
      rw [hs.nextVReg]
      exact Nat.le_add_right _ _
    have hout : ∀ w < f.nextVReg, w ∉ vregs.erase v → w ∉ vregs.erase v ++ newVregs := by
      intro w hlt hw hin
      rcases List.mem_append.mp hin with hin | hin
      · exact hw hin
      · exact absurd (hs.mem_new hin).1 (Nat.not_le.mpr hlt)
    rcases ih (h.spilled hs) (fun w hw => Nat.lt_of_lt_of_le (hold.2 w hw) hle) hrun with
      ⟨hcover,hmore,hflag,hgone,hkeep⟩
    refine ⟨hcover,Nat.le_trans hle hmore,fun w => (hflag w).trans (hs.flagged w),?_,?_⟩
    · rw [List.forall_mem_cons]
      refine ⟨hkeep v (Nat.lt_of_lt_of_le hold.1 hle) (hout v hold.1 ?_),hgone⟩
      rw [h.nodup.mem_erase_iff]
      exact fun hin => hin.1 rfl
    · intro w hlt hw
      refine hkeep w (Nat.lt_of_lt_of_le hlt hle) (hout w hlt fun hin => hw ?_)
      exact List.mem_of_mem_erase hin

/-- Every spill that succeeds has met the condition, when what is left out of the set has flags. -/
theorem Covers.spillsMeet {around vregs' : List ℕ} (h : Covers vregs f)
    (hold : ∀ v ∈ around, v < f.nextVReg)
    (hrun : spillAroundCalls fuel around vregs f = .ok (vregs',g))
    (hflag : ∀ v ∈ around, Flagged f v) : SpillsMeet around f := by
  induction around generalizing vregs f with
  | nil => exact trivial
  | cons v rest ih =>
    rw [List.forall_mem_cons] at hold hflag
    rcases bind_eq_ok.mp hrun with ⟨⟨newVregs,f₁⟩,hspill,hrun⟩
    have hs := spill_settled h.wellFormed hold.1 hspill
    refine ⟨⟨(spill_spec h.wellFormed hold.1 hspill).1,hflag.1⟩,?_⟩
    intro fuel' newVregs' g' hspill'
    have hsame := (spill_mono (le_max_left fuel fuel') hspill).symm.trans
      (spill_mono (le_max_right fuel fuel') hspill')
    cases hsame
    refine ih (h.spilled hs) (fun w hw => ?_) hrun fun w hw => (hs.flagged w).mpr (hflag.2 w hw)
    rw [hs.nextVReg]
    exact Nat.lt_add_right _ (hold.2 w hw)

theorem vregRange_rangeless (h : rangeOf n (.virt v) = none) :
    ¬ ∃ segs, vregRange n v = .ok segs := by
  rintro ⟨segs,hsegs⟩
  rw [vregRange,h] at hsegs
  cases hsegs

theorem aliveAround_ok (pp : ProgramPoint) (h : ∀ v ∈ vregs, Ranged n v) :
    ∃ alive, aliveAround n pp vregs = .ok alive := by
  induction vregs with
  | nil => exact ⟨[],rfl⟩
  | cons v rest ih =>
    rw [List.forall_mem_cons] at h
    rcases vregRange_ok h.1 with ⟨segs,hsegs⟩
    rcases ih h.2 with ⟨others,hothers⟩
    exact ⟨_,bind_eq_ok.mpr ⟨segs,hsegs,bind_eq_ok.mpr ⟨others,hothers,rfl⟩⟩⟩

theorem aliveAround_mem {pp : ProgramPoint} {alive : List ℕ}
    (h : aliveAround n pp vregs = .ok alive) :
    (∀ v ∈ alive, v ∈ vregs) ∧ ∀ v ∈ vregs, ∃ segs, vregRange n v = .ok segs := by
  induction vregs generalizing alive with
  | nil =>
    cases h
    simp
  | cons v rest ih =>
    rcases bind_eq_ok.mp h with ⟨range,hrange,h⟩
    rcases bind_eq_ok.mp h with ⟨others,hothers,h⟩
    cases h
    refine ⟨?_,List.forall_mem_cons.mpr ⟨⟨range,hrange⟩,(ih hothers).2⟩⟩
    intro w hw
    split at hw
    · rcases List.mem_cons.mp hw with rfl | hw
      · exact List.mem_cons_self
      · exact List.mem_cons_of_mem v ((ih hothers).1 w hw)
    · exact List.mem_cons_of_mem v ((ih hothers).1 w hw)

theorem aliveAroundCalls_ok {insts : List ℕ} (h : ∀ v ∈ vregs, Ranged f.numbering v)
    (hpoints : ∀ i ∈ insts, ∃ pp, f.numbering.point? i = some pp) :
    ∃ alive, aliveAroundCalls f vregs insts = .ok alive := by
  induction insts with
  | nil => exact ⟨[],rfl⟩
  | cons i rest ih =>
    rw [List.forall_mem_cons] at hpoints
    rcases ih hpoints.2 with ⟨others,hothers⟩
    rw [aliveAroundCalls]
    split
    · rcases hpoints.1 with ⟨pp,hpp⟩
      have hpoint : f.numbering.pointOf i = .ok pp := by
        rw [Numbering.pointOf,hpp]
        rfl
      rcases aliveAround_ok pp h with ⟨here,hhere⟩
      exact ⟨here ++ others,bind_eq_ok.mpr ⟨pp,hpoint,bind_eq_ok.mpr ⟨here,hhere,
        bind_eq_ok.mpr ⟨others,hothers,rfl⟩⟩⟩⟩
    · exact ⟨others,hothers⟩

/-- The ranges of all registers are looked up when there is a call. -/
theorem aliveAroundCalls_mem {insts alive : List ℕ}
    (h : aliveAroundCalls f vregs insts = .ok alive) : (∀ v ∈ alive, v ∈ vregs) ∧
      (alive = [] ∨ ∀ v ∈ vregs, ∃ segs, vregRange f.numbering v = .ok segs) := by
  induction insts generalizing alive with
  | nil =>
    cases h
    exact ⟨by simp,Or.inl rfl⟩
  | cons i rest ih =>
    rw [aliveAroundCalls] at h
    split at h
    · rcases bind_eq_ok.mp h with ⟨pp,_,h⟩
      rcases bind_eq_ok.mp h with ⟨here,hhere,h⟩
      rcases bind_eq_ok.mp h with ⟨others,hothers,h⟩
      cases h
      refine ⟨fun w hw => ?_,Or.inr (aliveAround_mem hhere).2⟩
      exact (List.mem_append.mp hw).elim ((aliveAround_mem hhere).1 w) ((ih hothers).1 w)
    · exact ih h

/-! ### The worklist -/

theorem sortKeys_ok (h : ∀ v ∈ vregs, ∃ key, sortKey n v = .ok key) :
    ∃ keys, sortKeys n vregs = .ok keys := by
  induction vregs with
  | nil => exact ⟨[],rfl⟩
  | cons v rest ih =>
    rw [List.forall_mem_cons] at h
    rcases h.1 with ⟨key,hkey⟩
    rcases ih h.2 with ⟨keys,hkeys⟩
    exact ⟨(v,key)::keys,bind_eq_ok.mpr ⟨key,hkey,bind_eq_ok.mpr ⟨keys,hkeys,rfl⟩⟩⟩

theorem sortKeys_map {keys : List (ℕ × ProgramPoint × ℕ)} (h : sortKeys n vregs = .ok keys) :
    keys.map (·.1) = vregs := by
  induction vregs generalizing keys with
  | nil =>
    cases h
    rfl
  | cons v rest ih =>
    rcases bind_eq_ok.mp h with ⟨key,_,h⟩
    rcases bind_eq_ok.mp h with ⟨others,hothers,h⟩
    cases h
    exact congrArg (v::·) (ih hothers)

theorem sortWorklist_perm {worklist : List ℕ} (h : sortWorklist n vregs = .ok worklist) :
    worklist.Perm vregs := by
  rw [sortWorklist] at h
  split at h
  · cases h
    exact .refl _
  · cases hkeys : sortKeys n vregs with
    | error e =>
      rw [hkeys] at h
      cases h
    | ok keys =>
      rw [hkeys] at h
      cases h
      have hperm := (List.mergeSort_perm keys fun a b => keyLe a.2 b.2).map (·.1)
      rw [sortKeys_map hkeys] at hperm
      exact hperm

theorem sortKeys_ranged {keys : List (ℕ × ProgramPoint × ℕ)} (h : sortKeys n vregs = .ok keys) :
    ∀ v ∈ vregs, ∃ segs w, rangeOf n (.virt v) = some segs ∧ weight 0 segs = .ok w := by
  induction vregs generalizing keys with
  | nil => simp
  | cons v rest ih =>
    rcases bind_eq_ok.mp h with ⟨key,hkey,h⟩
    rcases bind_eq_ok.mp h with ⟨others,hothers,_⟩
    refine List.forall_mem_cons.mpr ⟨?_,ih hothers⟩
    rw [sortKey] at hkey
    cases hrange : rangeOf n (.virt v) with
    | none =>
      rw [hrange] at hkey
      cases hkey
    | some segs =>
      rw [hrange] at hkey
      cases segs with
      | nil => cases hkey
      | cons seg segs =>
        cases hw : weight 0 (seg::segs) with
        | error e =>
          simp only [hw] at hkey
          cases hkey
        | ok w => exact ⟨_,w,rfl,hw⟩

theorem sortWorklist_ranged {worklist : List ℕ} (h : sortWorklist n vregs = .ok worklist) :
    vregs.length ≤ 1 ∨
      ∀ v ∈ vregs, ∃ segs w, rangeOf n (.virt v) = some segs ∧ weight 0 segs = .ok w := by
  rw [sortWorklist] at h
  split at h
  · exact Or.inl ‹_›
  · right
    cases hkeys : sortKeys n vregs with
    | error e =>
      rw [hkeys] at h
      cases h
    | ok keys => exact sortKeys_ranged hkeys

theorem sortWorklist_meets {worklist : List ℕ} (h : sortWorklist n vregs = .ok worklist) :
    WeightsMeet n vregs := by
  refine (sortWorklist_ranged h).imp id fun hall v hv segs hsegs => ?_
  rcases hall v hv with ⟨segs',w,hsegs',hw⟩
  cases hsegs.symm.trans hsegs'
  exact ⟨w,hw⟩

theorem sortWorklist_ok (h : ∀ v ∈ vregs, Ranged n v) (hw : WeightsMeet n vregs) :
    ∃ worklist, sortWorklist n vregs = .ok worklist := by
  rw [sortWorklist]
  split
  · exact ⟨vregs,rfl⟩
  · have hkey : ∀ v ∈ vregs, ∃ key, sortKey n v = .ok key := by
      intro v hv
      rcases h v hv with ⟨seg,segs,hseg⟩
      rcases (hw.resolve_left ‹_›) v hv _ hseg with ⟨w,hweight⟩
      refine ⟨(seg.start,w),?_⟩
      rw [sortKey,rangeOf,hseg]
      show (weight 0 (seg::segs)).map _ = _
      rw [hweight]
      rfl
    rcases sortKeys_ok hkey with ⟨keys,hkeys⟩
    rw [hkeys]
    exact ⟨_,rfl⟩

/-! ### The function -/

section Start

variable {hash : HashOrder}

theorem start_eq_ok : start hash fuel f = .ok (preferred,s) ↔ ∃ around vregs g worklist,
    collectVregsAliveAroundCall f (hash.order (allVregs f)) = .ok around ∧
    spillAroundCalls fuel around (hash.order (allVregs f)) f = .ok (vregs,g) ∧
    sortWorklist g.numbering (hash.order vregs) = .ok worklist ∧
    preferred = collectPreferredRegisters g (hash.order vregs) ∧
    s = ⟨g,worklist,[],fun _ => none⟩ := by
  constructor
  · intro h
    rcases bind_eq_ok.mp h with ⟨around,haround,h⟩
    rcases bind_eq_ok.mp h with ⟨⟨vregs,g⟩,hspills,h⟩
    rcases bind_eq_ok.mp h with ⟨worklist,hsort,h⟩
    cases h
    exact ⟨around,vregs,g,worklist,haround,hspills,hsort,rfl,rfl⟩
  · rintro ⟨around,vregs,g,worklist,haround,hspills,hsort,rfl,rfl⟩
    exact bind_eq_ok.mpr ⟨around,haround,bind_eq_ok.mpr ⟨(vregs,g),hspills,
      bind_eq_ok.mpr ⟨worklist,hsort,rfl⟩⟩⟩

theorem around_old (hf : WellFormed f) {around : List ℕ}
    (h : collectVregsAliveAroundCall f (hash.order (allVregs f)) = .ok around) :
    ∀ v ∈ around, v < f.nextVReg := by
  intro v hv
  have hin := (aliveAroundCalls_mem h).1 v hv
  rcases mem_allVregs.mp ((hash.perm _).mem_iff.mp hin) with ⟨i,hi,hm⟩
  exact hf.mentions_lt hi hm

theorem start_waits (hf : WellFormed f) (hran : Analyzed f)
    (hnamed : ∀ v, Occurs f v → Touched f v) (h : start hash fuel f = .ok (preferred,s)) :
    Waits s := by
  rcases start_eq_ok.mp h with ⟨around,vregs,g,worklist,haround,hspills,hsort,rfl,rfl⟩
  have hcover := (covers_allVregs hf hran hnamed).perm (hash.perm (allVregs f))
  have hg := (hcover.spilledAll (around_old hf haround) hspills).1
  have hlist := (hg.perm (hash.perm vregs)).perm (sortWorklist_perm hsort)
  exact ⟨hlist.wellFormed,hlist.nodup,hlist.old,hlist.ranged,fun _ _ => rfl,
    fun v hv => absurd rfl hv⟩

theorem start_ok (hf : WellFormed f) (hran : Analyzed f) (h : Allocatable hash f) :
    ∃ fuel preferred s, start hash fuel f = .ok (preferred,s) ∧ Complete s := by
  have hcover := (covers_allVregs hf hran h.named).perm (hash.perm (allVregs f))
  have hall : ∀ v, Occurs f v → v ∈ hash.order (allVregs f) := fun v hv =>
    (hash.perm _).mem_iff.mpr (mem_allVregs.mpr hv)
  have hpoints : ∀ i ∈ f.numbering.layout.flatten, ∃ pp, f.numbering.point? i = some pp :=
    fun i hi => Increasing.exists_point hf.increasing hi
  rcases aliveAroundCalls_ok hcover.ranged hpoints with ⟨around,haround⟩
  rcases hcover.spills hall (around_old hf haround) (h.spills around haround) with
    ⟨fuel,vregs,g,hrun,hg,hnames⟩
  have hperm := hash.perm vregs
  rcases sortWorklist_ok (hg.perm hperm).ranged (h.weights fuel around vregs g haround hrun) with
    ⟨worklist,hsort⟩
  refine ⟨fuel,_,_,start_eq_ok.mpr ⟨around,vregs,g,worklist,haround,hrun,hsort,rfl,rfl⟩,?_⟩
  intro v hv
  have hin := hperm.mem_iff.mpr (hnames v hv)
  exact Or.inl ((sortWorklist_perm hsort).mem_iff.mpr hin)

end Start

theorem start_mono {hash : HashOrder} {fuel' : ℕ} {p : (VReg → List Reg) × Alloc}
    (hle : fuel ≤ fuel') (h : start hash fuel f = .ok p) : start hash fuel' f = .ok p := by
  rcases bind_eq_ok.mp h with ⟨around,haround,h⟩
  rcases bind_eq_ok.mp h with ⟨⟨vregs,g⟩,hrun,h⟩
  exact bind_eq_ok.mpr ⟨around,haround,bind_eq_ok.mpr
    ⟨(vregs,g),spillAroundCalls_mono hle hrun,h⟩⟩

theorem runOnFunction_eq_ok {hash : HashOrder} {csr : List Reg} :
    runOnFunction hash fuel f = .ok (g,csr) ↔ ∃ preferred s t,
      start hash fuel f = .ok (preferred,s) ∧ allocate preferred fuel s = .ok t ∧
      g = { t.f with insts := fun i => rewriteRegs t.assigned (t.f.insts i) } ∧ csr = usedCsr t := by
  constructor
  · intro h
    rcases bind_eq_ok.mp h with ⟨⟨preferred,s⟩,hstart,h⟩
    rcases bind_eq_ok.mp h with ⟨t,hrun,h⟩
    cases h
    exact ⟨preferred,s,t,hstart,hrun,rfl,rfl⟩
  · rintro ⟨preferred,s,t,hstart,hrun,rfl,rfl⟩
    exact bind_eq_ok.mpr ⟨(preferred,s),hstart,bind_eq_ok.mpr ⟨t,hrun,rfl⟩⟩

/-- A register that is left in the code is one without a register. -/
theorem mentions_rewriteRegs {assigned : VReg → Option Reg} {inst : InstructionData} :
    Mentions (rewriteRegs assigned inst) v ↔ Mentions inst v ∧ assigned v = none := by
  constructor
  · rintro ⟨op',hop',hv⟩
    rcases List.mem_map.mp hop' with ⟨op,hop,rfl⟩
    cases hreg : op.data.asVReg?.bind assigned with
    | some reg =>
      simp only [hreg] at hv
      cases hv
    | none =>
      simp only [hreg] at hv
      rw [hv] at hreg
      exact ⟨⟨op,hop,hv⟩,hreg⟩
  · rintro ⟨⟨op,hop,hv⟩,hnone⟩
    refine ⟨_,List.mem_map_of_mem hop,?_⟩
    have hreg : op.data.asVReg?.bind assigned = none := by
      rw [hv]
      exact hnone
    simp only [hreg]
    exact hv

/-- A register that is to be given a physical one has ranges. -/
theorem turn_ranged {rest : List ℕ} (h : s.turn fuel preferred v rest = .ok t) :
    rangeOf s.f.numbering (.virt v) ≠ none := by
  intro hnone
  rcases turn_eq_ok.mp h with ⟨reg,numbering,_,hassign,_⟩ | ⟨newVregs,g,hfree,_,_⟩
  · rw [assign_rangeless hnone] at hassign
    cases hassign
  · have hmem : ∃ reg, reg ∈ s.availables preferred v := by
      rw [Alloc.availables]
      by_cases hcalls : firstBlockCalls s.f = true
      · exact ⟨GR 5,List.mem_append_right _ (by rw [hcalls]; split <;> decide)⟩
      · rw [Bool.not_eq_true] at hcalls
        exact ⟨GR 1,List.mem_append_right _ (by rw [hcalls]; split <;> decide)⟩
    rcases hmem with ⟨reg,hreg⟩
    have htaken := firstFree_eq_none hfree reg hreg
    rw [interfere,vregRange,hnone] at htaken
    split at htaken <;> cases htaken

/-- A register without a flag at any place stops the allocator: its range is asked for. -/
theorem Ends.named {hash : HashOrder} (h : Ends hash f) (hran : Analyzed f) :
    ∀ v, Occurs f v → Touched f v := by
  intro v hocc
  by_contra htouched
  have hnone := hran.rangeless htouched
  rcases h with ⟨fuel,g,csr,hrun,_⟩
  rcases runOnFunction_eq_ok.mp hrun with ⟨preferred,s,t,hstart,hloop,rfl,_⟩
  rcases start_eq_ok.mp hstart with ⟨around,vregs,f₁,worklist,haround,hspills,hsort,rfl,rfl⟩
  have hin : v ∈ hash.order (allVregs f) := (hash.perm _).mem_iff.mpr (mem_allVregs.mpr hocc)
  rcases (aliveAroundCalls_mem haround).2 with rfl | hranges
  · cases hspills
    have hmem : v ∈ worklist := (sortWorklist_perm hsort).mem_iff.mpr ((hash.perm _).mem_iff.mpr hin)
    rcases sortWorklist_ranged hsort with hlen | hranges
    · rw [← (sortWorklist_perm hsort).length_eq] at hlen
      cases fuel with
      | zero => cases hloop
      | succ fuel =>
        cases worklist with
        | nil => cases hmem
        | cons w rest =>
          have hrest : rest = [] := List.eq_nil_of_length_eq_zero (by simpa using hlen)
          rw [hrest,List.mem_singleton] at hmem
          subst hmem
          rcases bind_eq_ok.mp hloop with ⟨u,hturn,_⟩
          exact turn_ranged hturn hnone
    · rcases hranges v ((hash.perm _).mem_iff.mpr hin) with ⟨segs,w,hsegs,_⟩
      rw [hnone] at hsegs
      cases hsegs
  · exact vregRange_rangeless hnone (hranges v hin)

/-- A run that ends and spills no register of the spiller has met the condition. -/
theorem allocatable_of_ends {hash : HashOrder} (hf : WellFormed f) (hran : Analyzed f)
    (h : Ends hash f) : (∀ around, collectVregsAliveAroundCall f (hash.order (allVregs f)) =
      .ok around → SpillsMeet around f) ∧ (SpillsOnce hash f → Allocatable hash f) := by
  have hnamed := h.named hran
  rcases h with ⟨fuel,g,csr,hrun,hnone⟩
  rcases runOnFunction_eq_ok.mp hrun with ⟨preferred,s,t,hstart,hloop,rfl,_⟩
  have hwaits := start_waits hf hran hnamed hstart
  have hgone : ∀ w, Occurs t.f w → t.assigned w ≠ none := by
    rintro w ⟨i,hi,hm⟩ hfree
    exact hnone w ⟨i,hi,mentions_rewriteRegs.mpr ⟨hm,hfree⟩⟩
  rcases start_eq_ok.mp hstart with ⟨around,vregs,f₁,worklist,haround,hspills,hsort,rfl,rfl⟩
  have hcover := (covers_allVregs hf hran hnamed).perm (hash.perm (allVregs f))
  have hold := around_old hf haround
  have hmeet : SpillsMeet around f := by
    rcases hcover.spilledAll hold hspills with ⟨_,hle,hflags,hout,_⟩
    refine hcover.spillsMeet hold hspills fun v hv => ?_
    by_contra hflag
    have hlist : v ∉ worklist := fun hin => hout v hv ((hash.perm _).mem_iff.mp
      ((sortWorklist_perm hsort).mem_iff.mp hin))
    rcases hwaits.left (allocate_turns hloop) hlist (Nat.lt_of_lt_of_le (hold v hv) hle) rfl
      (fun hf => hflag ((hflags v).mp hf)) with ⟨hocc,hfree⟩
    exact hgone v hocc hfree
  have hmeets : ∀ around', collectVregsAliveAroundCall f (hash.order (allVregs f)) =
      .ok around' → SpillsMeet around' f := by
    intro around' haround'
    cases haround.symm.trans haround'
    exact hmeet
  refine ⟨hmeets,fun honce => ⟨hnamed,hmeets,?_,?_⟩⟩
  · intro fuel' around' vregs' g' haround' hspills'
    cases haround.symm.trans haround'
    cases (spillAroundCalls_mono (le_max_left fuel fuel') hspills).symm.trans
      (spillAroundCalls_mono (le_max_right fuel fuel') hspills')
    exact sortWorklist_meets hsort
  · intro fuel' preferred' s' hstart' t' ht' v rest hlist
    cases (start_mono (le_max_left fuel fuel') hstart).symm.trans
      (start_mono (le_max_right fuel fuel') hstart')
    have hw := hwaits.reaches ht'
    have holdv : v < t'.f.nextVReg := hw.old v (by rw [hlist]; exact List.mem_cons_self)
    rcases allocate_reaches hloop ht' with ⟨fuel₁,hrest⟩
    cases fuel₁ with
    | zero => cases hrest
    | succ fuel₁ =>
      rw [allocate,hlist] at hrest
      rcases bind_eq_ok.mp hrest with ⟨u,hturn,hrest⟩
      rcases turn_eq_ok.mp hturn with ⟨reg,numbering,hfree,_,_⟩ | ⟨newVregs,g,hfree,hspill,hu⟩
      · have hreg := firstFree_eq_some hfree
        exact Or.inl ⟨reg,hreg.1,not_overlaps_iff.mpr (interfere_eq_false hreg.2)⟩
      · refine Or.inr ⟨fun hin => honce fuel' _ _ hstart' t' ht' v rest hlist hin hfree,
          (spill_spec hw.wellFormed holdv hspill).1,?_⟩
        by_contra hflag
        have hs := spill_settled hw.wellFormed holdv hspill
        have hnodup := hw.nodup
        rw [hlist,List.nodup_cons] at hnodup
        have hnew : v ∉ rest ++ newVregs := fun hin => by
          rcases List.mem_append.mp hin with hin | hin
          · exact hnodup.1 hin
          · exact absurd (hs.mem_new hin).1 (Nat.not_le.mpr holdv)
        have hlt : v < g.nextVReg := by
          rw [hs.nextVReg]
          exact Nat.lt_add_right _ holdv
        have hfree' := hw.waiting v (by rw [hlist]; exact List.mem_cons_self)
        subst hu
        rcases (hw.turn hlist hturn).left (allocate_turns hrest) hnew hlt hfree'
          (fun hf => hflag ((hs.flagged v).mp hf)) with ⟨hocc,hnone⟩
        exact hgone v hocc hnone

/-- The set as it was built. -/
def insertionOrder : HashOrder where
  order := id
  perm := fun _ => .refl _

theorem Turns.unique {t' : Alloc} (h : Turns preferred s t) (h' : Turns preferred s t') :
    t = t' := by
  rcases h with ⟨fuel,v,rest,hlist,hturn⟩
  rcases h' with ⟨fuel',v',rest',hlist',hturn'⟩
  cases hlist.symm.trans hlist'
  exact Except.ok.inj ((turn_mono (le_max_left fuel fuel') hturn).symm.trans
    (turn_mono (le_max_right fuel fuel') hturn'))

/-- `x` from before a call is asserted after it, and the result of the call is returned: `x` is
spilled around the call. -/
def assertAcrossCall : Spiller.State :=
  rangedBlock [⟨.MOVrr,[.asOutput (.vreg 0),.asInput (.reg (GR 1))]⟩,
    ⟨.CALL,[.implicitOutput (.reg (GR 0)),.plain (.label "g")]⟩,
    ⟨.MOVrr,[.asOutput (.vreg 1),.asInput (.reg (GR 0))]⟩,
    ⟨.ASSERTri,[.asInput (.vreg 0)]⟩,
    ⟨.MOVrr,[.asOutput (.reg (GR 0)),.asInput (.vreg 1)]⟩,
    ⟨.RET,[]⟩] 2
    [(.phys (GR 1),[⟨⟨0,0⟩,⟨0,0⟩⟩,⟨⟨0,16⟩,⟨0,16⟩⟩]),(.virt 0,[⟨⟨0,16⟩,⟨0,64⟩⟩]),
      (.virt 1,[⟨⟨0,48⟩,⟨0,80⟩⟩]),
      (.phys (GR 0),[⟨⟨0,32⟩,⟨0,32⟩⟩,⟨⟨0,48⟩,⟨0,48⟩⟩,⟨⟨0,80⟩,⟨0,80⟩⟩])]

theorem assertAcrossCall_wellFormed : WellFormed assertAcrossCall :=
  rangedBlock_wellFormed (by decide)

theorem assertAcrossCall_analyzed : Analyzed assertAcrossCall := rfl

theorem assertAcrossCall_flagged : Flagged assertAcrossCall 0 := by
  intro i hi hm
  have hv : 0 ∈ allVregsOf (assertAcrossCall.insts i) := by
    rcases hm with ⟨op,hop,hdata⟩
    exact List.mem_filterMap.mpr ⟨op,hop,by rw [hdata]; rfl⟩
  have hall : ∀ i ∈ assertAcrossCall.numbering.layout.flatten,
      0 ∈ allVregsOf (assertAcrossCall.insts i) → 0 ∈ (assertAcrossCall.insts i).inputVregs ∨
        0 ∈ (assertAcrossCall.insts i).outputVregs := by decide
  exact hall i hi hv

/-- The state that a run of the spiller leaves; it is only read where the run ends. -/
def stateOf (run : Except Fault (List VReg × Spiller.State)) : Spiller.State :=
  run.toOption.elim assertAcrossCall (·.2)

/-- The register 2 has the definition, with a store behind it. -/
def assertStored : Spiller.State := stateOf (rewriteUsers 1 (storeVregToSlot 0) .after 0 [0]
  { assertAcrossCall with slots := [⟨4,4⟩] })

/-- The register 3 has the use, with a load in front of it. -/
def assertReloaded : Spiller.State :=
  stateOf (rewriteUsers 1 (loadFromSlot 0) .before 0 (assertStored.uses 0) assertStored)

def assertSpilled : Spiller.State := removeVreg (stateOf
  ((computeAllRanges [2,3] assertReloaded).map fun f => ([],f))) 0

theorem assertAcrossCall_spill : spill 1 0 assertAcrossCall = .ok ([2,3],assertSpilled) := by
  have hwrites : ((assertAcrossCall.users 0).filter (·.write)).map (·.inst) = [0] := by decide
  have hdefs : assertAcrossCall.defs 0 = [0] := by
    rw [State.defs,hwrites,List.mergeSort_singleton]
    rfl
  refine spill_eq_ok.mpr ⟨[2],assertStored,[3],assertReloaded,_,?_,rfl,rfl,rfl,rfl⟩
  rw [hdefs]
  rfl

theorem assertAcrossCall_alive : collectVregsAliveAroundCall assertAcrossCall
    (insertionOrder.order (allVregs assertAcrossCall)) = .ok [0] := by decide

theorem assertAcrossCall_spills : spillAroundCalls 1 [0]
    (insertionOrder.order (allVregs assertAcrossCall)) assertAcrossCall =
      .ok ([1,2,3],assertSpilled) :=
  bind_eq_ok.mpr ⟨_,assertAcrossCall_spill,rfl⟩

/-- The loop starts with the registers of the spiller and the one of the result. -/
def assertLoop : Alloc := ⟨assertSpilled,[2,1,3],[],fun _ => none⟩

def assertPreferred : VReg → List Reg := collectPreferredRegisters assertSpilled [1,2,3]

theorem assertAcrossCall_start :
    start insertionOrder 1 assertAcrossCall = .ok (assertPreferred,assertLoop) := by
  have hkeys : sortKeys assertSpilled.numbering [1,2,3] =
      .ok [(1,⟨0,48⟩,320),(2,⟨0,16⟩,80),(3,⟨0,56⟩,80)] := rfl
  have hsort : sortWorklist assertSpilled.numbering (insertionOrder.order [1,2,3]) =
      .ok [2,1,3] := by
    show sortWorklist assertSpilled.numbering [1,2,3] = _
    rw [sortWorklist,if_neg (by decide),hkeys]
    show Except.ok (List.map _ (List.mergeSort _ _)) = _
    simp [List.mergeSort,List.MergeSort.Internal.splitInTwo,keyLe,ProgramPoint.le]
  exact start_eq_ok.mpr ⟨[0],[1,2,3],assertSpilled,[2,1,3],assertAcrossCall_alive,
    assertAcrossCall_spills,hsort,rfl,rfl⟩

/-- The state after a turn that gives a register. -/
def given (s : Alloc) (v : VReg) (rest : List VReg) (reg : Reg) (segs : List LiveSegment) : Alloc :=
  { s with
    f := { s.f with numbering := setRange s.f.numbering (.phys reg) segs }
    worklist := rest
    assigned := Function.update s.assigned v (some reg) }

theorem turn_given {rest : List ℕ} {reg : Reg} (range : List LiveSegment) {segs : List LiveSegment}
    (hfree : firstFree s.f.numbering v (s.availables preferred v) = .ok (some reg))
    (hrange : rangeOf s.f.numbering (.virt v) = some range)
    (hmerge : merge ((rangeOf s.f.numbering (.phys reg)).getD []) range = segs) :
    s.turn fuel preferred v rest = .ok (given s v rest reg segs) := by
  refine turn_eq_ok.mpr (Or.inl ⟨reg,_,hfree,?_,rfl⟩)
  rw [assign,vregRange,hrange]
  show Except.ok (setRange _ _ (merge _ _)) = _
  rw [hmerge]

/-- The states of the loop. -/
def assertLoop₁ : Alloc := given assertLoop 2 [1,3] (GR 5) [⟨⟨0,16⟩,⟨0,24⟩⟩]

def assertLoop₂ : Alloc := given assertLoop₁ 1 [3] (GR 0)
  [⟨⟨0,32⟩,⟨0,32⟩⟩,⟨⟨0,48⟩,⟨0,48⟩⟩,⟨⟨0,48⟩,⟨0,80⟩⟩,⟨⟨0,80⟩,⟨0,80⟩⟩]

def assertLoop₃ : Alloc := given assertLoop₂ 3 [] (GR 5) [⟨⟨0,16⟩,⟨0,24⟩⟩,⟨⟨0,56⟩,⟨0,64⟩⟩]

theorem assertLoop_turn₁ :
    assertLoop.turn fuel assertPreferred 2 [1,3] = .ok assertLoop₁ :=
  turn_given [⟨⟨0,16⟩,⟨0,24⟩⟩] rfl rfl (List.mergeSort_singleton _)

theorem assertLoop_turn₂ : assertLoop₁.turn fuel assertPreferred 1 [3] = .ok assertLoop₂ := by
  refine turn_given [⟨⟨0,48⟩,⟨0,80⟩⟩] rfl rfl ?_
  show List.mergeSort ([⟨⟨0,32⟩,⟨0,32⟩⟩,⟨⟨0,48⟩,⟨0,48⟩⟩,⟨⟨0,80⟩,⟨0,80⟩⟩,⟨⟨0,48⟩,⟨0,80⟩⟩] :
    List LiveSegment) _ = _
  simp [List.mergeSort,List.MergeSort.Internal.splitInTwo,ProgramPoint.le]

theorem assertLoop_turn₃ : assertLoop₂.turn fuel assertPreferred 3 [] = .ok assertLoop₃ := by
  refine turn_given [⟨⟨0,56⟩,⟨0,64⟩⟩] rfl rfl ?_
  show List.mergeSort ([⟨⟨0,16⟩,⟨0,24⟩⟩,⟨⟨0,56⟩,⟨0,64⟩⟩] : List LiveSegment) _ = _
  simp [List.mergeSort,List.MergeSort.Internal.splitInTwo,ProgramPoint.le]

theorem assertLoop_run : allocate assertPreferred 4 assertLoop = .ok assertLoop₃ :=
  bind_eq_ok.mpr ⟨_,assertLoop_turn₁,bind_eq_ok.mpr ⟨_,assertLoop_turn₂,
    bind_eq_ok.mpr ⟨_,assertLoop_turn₃,rfl⟩⟩⟩

/-- Each turn gives one of them a register. -/
theorem assertLoop_meets : ∀ t, Relation.ReflTransGen (Turns assertPreferred) assertLoop t →
    Meets assertPreferred t := by
  intro t ht
  rcases ht.cases_head with rfl | ⟨s₁,hturn,ht⟩
  · intro v rest hlist
    cases hlist
    exact Or.inl ⟨GR 5,by decide,not_overlaps_iff.mpr rfl⟩
  cases hturn.unique ⟨0,_,_,rfl,assertLoop_turn₁⟩
  rcases ht.cases_head with rfl | ⟨s₂,hturn,ht⟩
  · intro v rest hlist
    cases hlist
    exact Or.inl ⟨GR 0,by decide,not_overlaps_iff.mpr rfl⟩
  cases hturn.unique ⟨0,_,_,rfl,assertLoop_turn₂⟩
  rcases ht.cases_head with rfl | ⟨s₃,hturn,ht⟩
  · intro v rest hlist
    cases hlist
    exact Or.inl ⟨GR 5,by decide,not_overlaps_iff.mpr rfl⟩
  cases hturn.unique ⟨0,_,_,rfl,assertLoop_turn₃⟩
  rcases ht.cases_head with rfl | ⟨s₄,⟨_,_,_,hlist,_⟩,_⟩
  · intro v rest hlist
    cases hlist
  · cases hlist

theorem assertAcrossCall_allocatable : Allocatable insertionOrder assertAcrossCall where
  named := by
    have htouched : ∀ v ∈ allVregs assertAcrossCall, ∃ i ∈ assertAcrossCall.numbering.layout.flatten,
        v ∈ (assertAcrossCall.insts i).inputVregs ∨ v ∈ (assertAcrossCall.insts i).outputVregs := by
      decide
    exact fun v hv => htouched v (mem_allVregs.mpr hv)
  spills := by
    intro around h
    cases h.symm.trans assertAcrossCall_alive
    exact ⟨⟨(spill_spec assertAcrossCall_wellFormed (by decide) assertAcrossCall_spill).1,
      assertAcrossCall_flagged⟩,fun _ _ _ _ => trivial⟩
  weights := by
    intro fuel around vregs g h hspills
    cases h.symm.trans assertAcrossCall_alive
    cases (spillAroundCalls_mono (le_max_left fuel 1) hspills).symm.trans
      (spillAroundCalls_mono (le_max_right fuel 1) assertAcrossCall_spills)
    rcases start_eq_ok.mp assertAcrossCall_start with ⟨around,vregs,g,_,haround,hspills',hsort,_,_⟩
    cases haround.symm.trans assertAcrossCall_alive
    cases hspills'.symm.trans assertAcrossCall_spills
    exact sortWorklist_meets hsort
  turns := by
    intro fuel preferred s h
    cases (start_mono (le_max_left fuel 1) h).symm.trans
      (start_mono (le_max_right fuel 1) assertAcrossCall_start)
    exact assertLoop_meets

/-- A call, then the assertion that `x` from before it is at most five, and `x` as the result: the
comparison has `x` as an operand without a flag. -/
def compareAfterCall : Spiller.State :=
  rangedBlock [⟨.MOVrr,[.asOutput (.vreg 0),.asInput (.reg (GR 1))]⟩,
    ⟨.CALL,[.implicitOutput (.reg (GR 0)),.plain (.label "g")]⟩,
    ⟨.MOVri,[.asOutput (.reg (GR 7)),.asInput (.int64 5)]⟩,
    ⟨.GTE,[.asOutput (.vreg 2),.asInput (.reg (GR 7)),.plain (.vreg 0)]⟩,
    ⟨.MOVrr,[.asOutput (.vreg 3),.asInput (.vreg 2)]⟩,
    ⟨.ASSERTri,[.asInput (.vreg 3)]⟩,
    ⟨.MOVrr,[.asOutput (.reg (GR 0)),.asInput (.vreg 0)]⟩,
    ⟨.RET,[]⟩] 4
    [(.phys (GR 1),[⟨⟨0,0⟩,⟨0,0⟩⟩,⟨⟨0,16⟩,⟨0,16⟩⟩]),
      (.phys (GR 7),[⟨⟨0,48⟩,⟨0,48⟩⟩,⟨⟨0,64⟩,⟨0,64⟩⟩]),(.virt 2,[⟨⟨0,64⟩,⟨0,80⟩⟩]),
      (.virt 3,[⟨⟨0,80⟩,⟨0,96⟩⟩]),(.virt 0,[⟨⟨0,16⟩,⟨0,112⟩⟩]),
      (.phys (GR 0),[⟨⟨0,32⟩,⟨0,32⟩⟩,⟨⟨0,112⟩,⟨0,112⟩⟩])]

end Regalloc
end Codegen
end OlaLang
