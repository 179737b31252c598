import OlaLang.RegallocEnds

/-! What the allocator hands out. The points may be renumbered at every spill, always in the same
order, so that live ranges that do not interfere stay so: two virtual registers that are given the
same physical register have no segments that overlap, none overlaps the segments where the physical
register is in use already, and no register of the function that keeps one is live across a call. -/
namespace OlaLang
namespace Codegen
namespace Regalloc

open Liveness ProgramPoints Spiller

/-! ### Points in order -/

/-- A renumbering that keeps the order of the points. -/
def Embeds (e : ProgramPoint → ProgramPoint) : Prop := ∀ p q, (e p).le (e q) ↔ p.le q

/-- The live segments after a renumbering. -/
def moveSegs (e : ProgramPoint → ProgramPoint) (segs : List LiveSegment) : List LiveSegment :=
  segs.map fun seg => ⟨e seg.start,e seg.stop⟩

/-- Some segment starts before the point and ends behind it. -/
def LiveAcross (segs : List LiveSegment) (pp : ProgramPoint) : Prop :=
  ∃ seg ∈ segs, ¬ pp.le seg.start ∧ ¬ seg.stop.le pp

section Points

variable {e e' : ProgramPoint → ProgramPoint} {xs ys zs : List LiveSegment} {p q pp : ProgramPoint}

theorem Embeds.id : Embeds fun p => p := fun _ _ => Iff.rfl

theorem Embeds.comp (h : Embeds e) (h' : Embeds e') : Embeds fun p => e' (e p) := fun p q =>
  (h' (e p) (e q)).trans (h p q)

theorem shift_embeds {start : ProgramPoint} {base : ℕ} (hbase : start.inst ≤ base) :
    Embeds (shift start base) := by
  rintro ⟨b,m⟩ ⟨b',n⟩
  have hblock : ∀ b n, (shift start base ⟨b,n⟩).block = b := by
    intro b n
    rw [shift]
    split <;> rfl
  simp only [ProgramPoint.le,hblock]
  refine or_congr Iff.rfl (and_congr_right ?_)
  rintro rfl
  by_cases hb : b = start.block
  · subst hb
    rw [shift_same,shift_same]
    constructor
    · intro hle
      by_contra hlt
      exact absurd (shiftNum_lt hbase (Nat.lt_of_not_le hlt)) (Nat.not_lt_of_le hle)
    · intro hle
      rcases Nat.lt_or_eq_of_le hle with hlt | rfl
      · exact Nat.le_of_lt (shiftNum_lt hbase hlt)
      · exact Nat.le_refl _
  · rw [shift_other hb,shift_other hb]

theorem le_trans_point {p q r : ProgramPoint} (h : p.le q) (h' : q.le r) : p.le r := by
  unfold ProgramPoint.le at h h' ⊢
  omega

theorem interfere_comm (x y : LiveSegment) : x.interfere y = y.interfere x := by
  rw [LiveSegment.interfere,LiveSegment.interfere,Bool.and_comm]

theorem interfereAll_comm (h : interfereAll xs ys = false) : interfereAll ys xs = false := by
  rw [interfereAll_eq_false] at h ⊢
  intro y hy x hx
  rw [interfere_comm]
  exact h x hx y hy

theorem interfereAll_subset (h : interfereAll xs ys = false) (hsub : ∀ z ∈ zs, z ∈ ys) :
    interfereAll xs zs = false := by
  rw [interfereAll_eq_false] at h ⊢
  exact fun x hx z hz => h x hx z (hsub z hz)

/-- Interference is a matter of the order of the points. -/
theorem interfereAll_move (he : Embeds e) :
    interfereAll (moveSegs e xs) (moveSegs e ys) = interfereAll xs ys := by
  have hseg : ∀ x y : LiveSegment, LiveSegment.interfere ⟨e x.start,e x.stop⟩ ⟨e y.start,e y.stop⟩ =
      x.interfere y := by
    intro x y
    simp only [LiveSegment.interfere,he _ _]
  simp only [interfereAll,moveSegs,List.any_map,Function.comp_def,hseg]

/-- A register that is live across a point is live where another one has a segment from there. -/
theorem LiveAcross.overlaps (h : LiveAcross xs pp) {y : LiveSegment} (hy : y ∈ ys)
    (hstart : y.start = pp) (hstop : pp.le y.stop) : Overlaps xs ys := by
  obtain ⟨x,hx,hbefore,hbehind⟩ := h
  refine ⟨x,hx,y,hy,fun hle => hbefore (le_trans_point hstop hle),?_⟩
  rw [hstart]
  exact hbehind

theorem not_liveAcross_iff : ¬ LiveAcross xs pp ↔ interfereAll xs [.newPoint pp] = false := by
  rw [← not_overlaps_iff,not_iff_not]
  constructor
  · rintro ⟨x,hx,hboth⟩
    exact ⟨x,hx,_,List.mem_singleton_self _,hboth⟩
  · rintro ⟨x,hx,y,hy,hboth⟩
    rw [List.mem_singleton] at hy
    subst hy
    exact ⟨x,hx,hboth⟩

end Points

/-! ### Spills renumber the ranges -/

section Moved

variable {f g h : Spiller.State} {n t : Numbering} {v fuel k : ℕ} {newVregs : List ℕ}
  {e e' : ProgramPoint → ProgramPoint}

/-- Every range, and the point of every instruction below `k`, is renumbered by `e`. -/
structure Moved (k : ℕ) (e : ProgramPoint → ProgramPoint) (n t : Numbering) : Prop where
  embeds : Embeds e
  ranges : ∀ r, rangeOf t r = (rangeOf n r).map (moveSegs e)
  points : ∀ i < k, t.point? i = (n.point? i).map e

theorem Moved.refl (k : ℕ) (n : Numbering) : Moved k (fun p => p) n n where
  embeds := .id
  ranges := by
    intro r
    have hid : moveSegs (fun p => p) = fun segs => segs := by
      funext segs
      exact List.map_id segs
    rw [hid,Option.map_id_fun']
    rfl
  points := by
    intro i _
    rw [Option.map_id_fun']
    rfl

theorem moveSegs_moveSegs (segs : List LiveSegment) :
    moveSegs e' (moveSegs e segs) = moveSegs (fun p => e' (e p)) segs := List.map_map

theorem Moved.trans {u : Numbering} (h : Moved k e n t) (h' : Moved k e' t u) :
    Moved k (fun p => e' (e p)) n u where
  embeds := h.embeds.comp h'.embeds
  ranges := by
    intro r
    rw [h'.ranges,h.ranges,Option.map_map]
    congr 1
    funext segs
    exact moveSegs_moveSegs segs
  points := by
    intro i hi
    rw [h'.points i hi,h.points i hi,Option.map_map]
    rfl

theorem Moved.mono {k' : ℕ} (h : Moved k e n t) (hk : k' ≤ k) : Moved k' e n t :=
  ⟨h.embeds,h.ranges,fun i hi => h.points i (Nat.lt_of_lt_of_le hi hk)⟩

theorem step_moved {op : Op} {inst : ℕ} (hop : inserted? op = some inst) (hk : k ≤ inst)
    (h : step fuel op n = .ok t) : ∃ e, Moved k e n t := by
  refine step_rule_up (P := fun t => ∃ e, Moved k e n t) (by simp [hop]) ?_ ?_ h
    ⟨_,Moved.refl k n⟩
  · rintro t start base hbase ⟨e,he⟩
    refine ⟨_,he.trans ⟨shift_embeds hbase,fun r => ?_,fun i _ => Numbering.mapPoints_point?⟩⟩
    exact lookup_map t.ranges (moveSegs (shift start base)) r
  · rintro t layout i pp hi ⟨e,he⟩
    rw [hop,Option.some.injEq] at hi
    subst hi
    refine ⟨e,he.embeds,he.ranges,fun i hi => ?_⟩
    have hne : (i == inst) = false := beq_false_of_ne (Nat.ne_of_lt (Nat.lt_of_lt_of_le hi hk))
    rw [← he.points i hi]
    show List.lookup i ((inst,pp)::t.instToPP) = _
    rw [List.lookup_cons,hne]
    rfl

theorem rewriteUsers_moved {make : VReg → InstructionData} {op : InstId → InstId → BasicBlockId → Op}
    {E : List ℕ} (hop : ∀ i inst b, inserted? (op i inst b) = some inst)
    (h : rewriteUsers fuel make op v E f = .ok (newVregs,g)) :
    (∃ e, Moved f.nextInst e f.numbering g.numbering) ∧ f.nextInst ≤ g.nextInst ∧
      newVregs = List.range' f.nextVReg newVregs.length ∧
      g.nextVReg = f.nextVReg+newVregs.length := by
  induction E generalizing f newVregs with
  | nil =>
    cases h
    exact ⟨⟨_,Moved.refl _ _⟩,Nat.le_refl _,rfl,rfl⟩
  | cons i rest ih =>
    rcases rewriteUsers_cons.mp h with ⟨w,vs,g₁,hfirst,hrest,rfl⟩
    rcases rewriteUser_eq_ok.mp hfirst with ⟨user,n,_,_,hstep,rfl,rfl⟩
    obtain ⟨⟨e',he'⟩,hinst,hvs,hnext⟩ := ih hrest
    obtain ⟨e,he⟩ := step_moved (hop _ _ _) (Nat.le_refl _) hstep
    refine ⟨⟨_,he.trans (he'.mono (Nat.le_succ _))⟩,Nat.le_of_succ_le hinst,?_,?_⟩
    · rw [List.length_cons,List.range'_succ]
      exact congrArg _ hvs
    · rw [hnext,List.length_cons]
      show f.nextVReg+1+vs.length = _
      omega

theorem computeAllRanges_others {vs : List ℕ} (h : computeAllRanges vs f = .ok g) :
    (∀ r, (∀ v ∈ vs, r ≠ .virt v) → rangeOf g.numbering r = rangeOf f.numbering r) ∧
    ∀ i, g.numbering.point? i = f.numbering.point? i := by
  induction vs generalizing f with
  | nil =>
    cases h
    exact ⟨fun _ _ => rfl,fun _ => rfl⟩
  | cons v rest ih =>
    rcases Exec.except_bind_eq_ok.mp h with ⟨g₁,hfirst,hrest⟩
    obtain ⟨hranges,hpoints⟩ := ih hrest
    obtain ⟨seg,rfl⟩ := computeLiveRanges_set hfirst
    refine ⟨fun r hr => ?_,hpoints⟩
    rw [List.forall_mem_cons] at hr
    rw [hranges r hr.2,rangeOf,lookup_setRange,if_neg hr.1]
    rfl

/-- A spill renumbers what it does not rewrite, and takes new registers. -/
structure Spilled (v : ℕ) (newVregs : List ℕ) (e : ProgramPoint → ProgramPoint)
    (f g : Spiller.State) : Prop where
  embeds : Embeds e
  phys : ∀ reg, rangeOf g.numbering (.phys reg) = (rangeOf f.numbering (.phys reg)).map (moveSegs e)
  virt : ∀ w, w ≠ v → w < f.nextVReg →
    rangeOf g.numbering (.virt w) = (rangeOf f.numbering (.virt w)).map (moveSegs e)
  points : ∀ i < f.nextInst, g.numbering.point? i = (f.numbering.point? i).map e
  nextInst : f.nextInst ≤ g.nextInst
  fresh : newVregs = List.range' f.nextVReg newVregs.length
  nextVReg : g.nextVReg = f.nextVReg+newVregs.length

theorem computeAllRanges_next {vs : List ℕ} (h : computeAllRanges vs f = .ok g) :
    g.nextVReg = f.nextVReg ∧ g.nextInst = f.nextInst := by
  obtain ⟨ranges,rfl⟩ := (computeAllRanges_spec h).1
  exact ⟨rfl,rfl⟩

theorem spill_spilled (h : spill fuel v f = .ok (newVregs,g)) : ∃ e, Spilled v newVregs e f g := by
  rcases spill_eq_ok.mp h with ⟨vs₁,f₁,vs₂,f₂,g',h₁,h₂,hg,rfl,rfl⟩
  obtain ⟨⟨e₁,he₁⟩,hinst₁,hvs₁,hnext₁⟩ := rewriteUsers_moved (fun _ _ _ => rfl) h₁
  obtain ⟨⟨e₂,he₂⟩,hinst₂,hvs₂,hnext₂⟩ := rewriteUsers_moved (fun _ _ _ => rfl) h₂
  obtain ⟨hranges,hpoints⟩ := computeAllRanges_others hg
  obtain ⟨hnext,hinst⟩ := computeAllRanges_next hg
  have hmoved : Moved f.nextInst _ f.numbering f₂.numbering := he₁.trans (he₂.mono hinst₁)
  have hnew : vs₁ ++ vs₂ = List.range' f.nextVReg (vs₁ ++ vs₂).length := by
    change f₁.nextVReg = f.nextVReg+vs₁.length at hnext₁
    change vs₁ = List.range' f.nextVReg vs₁.length at hvs₁
    rw [hnext₁] at hvs₂
    rw [List.length_append,← List.range'_append_1,← hvs₁,← hvs₂]
  refine ⟨_,hmoved.embeds,fun reg => ?_,fun w hw hlt => ?_,fun i hi => ?_,?_,hnew,?_⟩
  · rw [← hmoved.ranges,← hranges (.phys reg) fun _ _ h => by cases h]
    exact lookup_filter_ne fun h => by cases h
  · have hfree : ∀ x ∈ vs₁ ++ vs₂, LReg.virt w ≠ .virt x := by
      intro x hx heq
      rw [hnew,List.mem_range'_1] at hx
      cases heq
      exact absurd hx.1 (Nat.not_le_of_lt hlt)
    rw [← hmoved.ranges,← hranges (.virt w) hfree]
    exact lookup_filter_ne fun h => hw (LReg.virt.inj h)
  · exact (hpoints i).trans (hmoved.points i hi)
  · show f.nextInst ≤ g'.nextInst
    rw [hinst]
    exact Nat.le_trans hinst₁ hinst₂
  · show g'.nextVReg = _
    rw [hnext,hnext₂,hnext₁,List.length_append]
    show f.nextVReg+vs₁.length+vs₂.length = _
    omega

end Moved

/-! ### The registers that were given -/

section Given

variable {f g : Spiller.State} {s t : Alloc} {preferred : VReg → List Reg} {v w fuel : ℕ}
  {newVregs vregs : List ℕ} {e e' : ProgramPoint → ProgramPoint} {n : Numbering}

/-- From the function `f` on, the code was renumbered by `e`; the registers of `f` in `vregs` keep
their ranges. -/
structure Carried (f : Spiller.State) (e : ProgramPoint → ProgramPoint) (vregs : List ℕ)
    (g : Spiller.State) : Prop where
  embeds : Embeds e
  nextInst : f.nextInst ≤ g.nextInst
  nextVReg : f.nextVReg ≤ g.nextVReg
  points : ∀ i < f.nextInst, g.numbering.point? i = (f.numbering.point? i).map e
  old : ∀ v ∈ vregs, v < g.nextVReg
  nodup : vregs.Nodup
  ranges : ∀ v ∈ vregs, v < f.nextVReg →
    rangeOf g.numbering (.virt v) = (rangeOf f.numbering (.virt v)).map (moveSegs e)

theorem Carried.spilled (h : Carried f e vregs g) {h' : Spiller.State}
    (hs : Spilled v newVregs e' g h') :
    Carried f (fun p => e' (e p)) (vregs.erase v ++ newVregs) h' where
  embeds := h.embeds.comp hs.embeds
  nextInst := Nat.le_trans h.nextInst hs.nextInst
  nextVReg := Nat.le_trans h.nextVReg (by rw [hs.nextVReg]; exact Nat.le_add_right _ _)
  points := by
    intro i hi
    rw [hs.points i (Nat.lt_of_lt_of_le hi h.nextInst),h.points i hi,Option.map_map]
    rfl
  old := by
    intro w hw
    rw [hs.nextVReg]
    rcases List.mem_append.mp hw with hw | hw
    · exact Nat.lt_of_lt_of_le (h.old w (List.mem_of_mem_erase hw)) (Nat.le_add_right _ _)
    · rw [hs.fresh,List.mem_range'_1] at hw
      exact hw.2
  nodup := by
    refine List.nodup_append.mpr ⟨h.nodup.erase v,?_,fun w hw x hx hwx => ?_⟩
    · rw [hs.fresh]
      exact List.nodup_range'
    · subst hwx
      rw [hs.fresh,List.mem_range'_1] at hx
      exact absurd hx.1 (Nat.not_le_of_lt (h.old w (List.mem_of_mem_erase hw)))
  ranges := by
    intro w hw hlt
    rcases List.mem_append.mp hw with hw | hw
    · rw [h.nodup.mem_erase_iff] at hw
      rw [hs.virt w hw.1 (h.old w hw.2),h.ranges w hw.2 hlt,Option.map_map]
      congr 1
      funext segs
      exact moveSegs_moveSegs segs
    · rw [hs.fresh,List.mem_range'_1] at hw
      exact absurd hw.1 (Nat.not_le_of_lt (Nat.lt_of_lt_of_le hlt h.nextVReg))

theorem Carried.perm {vregs' : List ℕ} (h : Carried f e vregs g) (hperm : vregs'.Perm vregs) :
    Carried f e vregs' g :=
  ⟨h.embeds,h.nextInst,h.nextVReg,h.points,fun v hv => h.old v (hperm.mem_iff.mp hv),
    hperm.nodup_iff.mpr h.nodup,fun v hv => h.ranges v (hperm.mem_iff.mp hv)⟩

/-- The ranges of the physical registers are renumbered only. -/
def Fixed (e : ProgramPoint → ProgramPoint) (f g : Spiller.State) : Prop :=
  ∀ reg, rangeOf g.numbering (.phys reg) = (rangeOf f.numbering (.phys reg)).map (moveSegs e)

theorem Fixed.spilled (h : Fixed e f g) {h' : Spiller.State} (hs : Spilled v newVregs e' g h') :
    Fixed (fun p => e' (e p)) f h' := by
  intro reg
  rw [hs.phys,h reg,Option.map_map]
  congr 1
  funext segs
  exact moveSegs_moveSegs segs

/-- The spills around the calls drop their registers. -/
theorem Carried.spillAroundCalls {around vregs' : List ℕ} {h' : Spiller.State}
    (h : Carried f e vregs g) (hfixed : Fixed e f g)
    (hrun : spillAroundCalls fuel around vregs g = .ok (vregs',h')) :
    ∃ e', Carried f e' vregs' h' ∧ Fixed e' f h' ∧
      ∀ v ∈ vregs', v < f.nextVReg → v ∈ vregs ∧ v ∉ around := by
  induction around generalizing vregs g e with
  | nil =>
    cases hrun
    exact ⟨e,h,hfixed,fun v hv _ => ⟨hv,List.not_mem_nil⟩⟩
  | cons v rest ih =>
    rcases Exec.except_bind_eq_ok.mp hrun with ⟨⟨newVregs,g₁⟩,hspill,hrest⟩
    obtain ⟨e₁,hs⟩ := spill_spilled hspill
    obtain ⟨e',hcarried,hfixed',hmem⟩ := ih (h.spilled hs) (hfixed.spilled hs) hrest
    refine ⟨e',hcarried,hfixed',fun w hw hlt => ?_⟩
    obtain ⟨hw',hrest'⟩ := hmem w hw hlt
    rcases List.mem_append.mp hw' with hw' | hw'
    · rw [h.nodup.mem_erase_iff] at hw'
      exact ⟨hw'.2,fun hm => (List.mem_cons.mp hm).elim hw'.1 hrest'⟩
    · rw [hs.fresh,List.mem_range'_1] at hw'
      exact absurd hw'.1 (Nat.not_le_of_lt (Nat.lt_of_lt_of_le hlt h.nextVReg))

/-- What holds before each turn: the registers that were given away lie in the ranges of the
physical registers, and do not interfere with each other or with what was there before. -/
structure Sound (f : Spiller.State) (vregs : List ℕ) (e : ProgramPoint → ProgramPoint) (s : Alloc) :
    Prop where
  carried : Carried f e s.worklist s.f
  source : ∀ v ∈ s.worklist, v < f.nextVReg → v ∈ vregs
  waiting : ∀ v ∈ s.worklist, s.assigned v = none
  old : ∀ v, s.assigned v ≠ none → v < s.f.nextVReg
  given : ∀ v, s.assigned v ≠ none → v < f.nextVReg → v ∈ vregs ∧
    rangeOf s.f.numbering (.virt v) = (rangeOf f.numbering (.virt v)).map (moveSegs e)
  fixed : ∀ reg, ∀ seg ∈ moveSegs e (segsOf f.numbering (.phys reg)),
    seg ∈ segsOf s.f.numbering (.phys reg)
  inside : ∀ v reg, s.assigned v = some reg → ∀ seg ∈ segsOf s.f.numbering (.virt v),
    seg ∈ segsOf s.f.numbering (.phys reg)
  apart : ∀ v w reg, v ≠ w → s.assigned v = some reg → s.assigned w = some reg →
    interfereAll (segsOf s.f.numbering (.virt v)) (segsOf s.f.numbering (.virt w)) = false
  free : ∀ v reg, s.assigned v = some reg → interfereAll (segsOf s.f.numbering (.virt v))
    (moveSegs e (segsOf f.numbering (.phys reg))) = false

theorem segsOf_setRange {r r' : LReg} {segs : List LiveSegment} :
    segsOf (setRange n r segs) r' = if r' = r then segs else segsOf n r' := by
  rw [segsOf,rangeOf,lookup_setRange]
  split <;> rfl

theorem segsOf_of_map {t : Numbering} {r : LReg}
    (h : rangeOf t r = (rangeOf n r).map (moveSegs e)) : segsOf t r = moveSegs e (segsOf n r) := by
  rw [segsOf,h,segsOf]
  cases rangeOf n r <;> rfl

theorem assign_eq_merge {reg : Reg} {m : Numbering} (h : assign n reg v = .ok m) :
    m = setRange n (.phys reg) (merge (segsOf n (.phys reg)) (segsOf n (.virt v))) := by
  rw [assign] at h
  cases hv : rangeOf n (.virt v) with
  | none =>
    simp only [vregRange,hv] at h
    cases h
  | some range =>
    simp only [vregRange,hv] at h
    cases h
    rw [segsOf,segsOf,hv]
    rfl

theorem mem_merge {xs ys : List LiveSegment} {seg : LiveSegment} :
    seg ∈ merge xs ys ↔ seg ∈ xs ∨ seg ∈ ys := by
  rw [merge,List.mem_mergeSort,List.mem_append]

theorem Sound.assigned {rest : List ℕ} {reg : Reg} (h : Sound f vregs e s)
    (hlist : s.worklist = v::rest) (hfree : interfere s.f.numbering reg v = .ok false)
    (hn : n = setRange s.f.numbering (.phys reg)
      (merge (segsOf s.f.numbering (.phys reg)) (segsOf s.f.numbering (.virt v)))) :
    Sound f vregs e { s with
      f := { s.f with numbering := n }
      worklist := rest
      assigned := Function.update s.assigned v (some reg) } := by
  have hvirt : ∀ w, rangeOf n (.virt w) = rangeOf s.f.numbering (.virt w) := by
    intro w
    rw [hn,rangeOf,lookup_setRange,if_neg (by simp)]
    rfl
  have hsegs : ∀ w, segsOf n (.virt w) = segsOf s.f.numbering (.virt w) := fun w => by
    rw [segsOf,hvirt,segsOf]
  have hphys : ∀ r, ∀ seg ∈ segsOf s.f.numbering (.phys r), seg ∈ segsOf n (.phys r) := by
    intro r seg hseg
    rw [hn,segsOf_setRange]
    by_cases hr : LReg.phys r = .phys reg
    · cases hr
      rw [if_pos rfl,mem_merge]
      exact .inl hseg
    · rwa [if_neg hr]
  have hv : v ∈ s.worklist := by rw [hlist]; exact List.mem_cons_self
  have hrest : ∀ w ∈ rest, w ∈ s.worklist := fun w hw => by rw [hlist]; exact List.mem_cons_of_mem v hw
  have hnodup := h.carried.nodup
  rw [hlist,List.nodup_cons] at hnodup
  have hclear := interfere_eq_false hfree
  refine ⟨⟨h.carried.embeds,h.carried.nextInst,h.carried.nextVReg,?_,
    fun w hw => h.carried.old w (hrest w hw),hnodup.2,?_⟩,fun w hw => h.source w (hrest w hw),
    ?_,?_,?_,?_,?_,?_,?_⟩
  · intro i hi
    rw [hn]
    exact h.carried.points i hi
  · intro w hw hlt
    rw [hvirt]
    exact h.carried.ranges w (hrest w hw) hlt
  · intro w hw
    have hne : w ≠ v := by
      rintro rfl
      exact hnodup.1 hw
    exact (Function.update_of_ne hne _ _).trans (h.waiting w (hrest w hw))
  · intro w hw
    dsimp only at hw
    by_cases hwv : w = v
    · subst hwv
      exact h.carried.old w hv
    · rw [Function.update_of_ne hwv] at hw
      exact h.old w hw
  · intro w hw hlt
    dsimp only at hw ⊢
    rw [hvirt]
    by_cases hwv : w = v
    · subst hwv
      exact ⟨h.source w hv hlt,h.carried.ranges w hv hlt⟩
    · rw [Function.update_of_ne hwv] at hw
      exact h.given w hw hlt
  · exact fun r seg hseg => hphys r seg (h.fixed r seg hseg)
  · intro w r hw seg hseg
    dsimp only at hw hseg ⊢
    rw [hsegs] at hseg
    by_cases hwv : w = v
    · subst hwv
      rw [Function.update_self,Option.some.injEq] at hw
      subst hw
      rw [hn,segsOf_setRange,if_pos rfl,mem_merge]
      exact .inr hseg
    · rw [Function.update_of_ne hwv] at hw
      exact hphys r seg (h.inside w r hw seg hseg)
  · -- the register that is given was free where the others that hold it live
    intro w x r hne hw hx
    dsimp only at hw hx ⊢
    rw [hsegs,hsegs]
    by_cases hwv : w = v
    · subst hwv
      rw [Function.update_self,Option.some.injEq] at hw
      subst hw
      rw [Function.update_of_ne (Ne.symm hne)] at hx
      exact interfereAll_subset hclear fun seg hseg => h.inside x _ hx seg hseg
    · rw [Function.update_of_ne hwv] at hw
      by_cases hxv : x = v
      · subst hxv
        rw [Function.update_self,Option.some.injEq] at hx
        subst hx
        exact interfereAll_comm (interfereAll_subset hclear fun seg hseg => h.inside w _ hw seg hseg)
      · rw [Function.update_of_ne hxv] at hx
        exact h.apart w x r hne hw hx
  · intro w r hw
    dsimp only at hw ⊢
    rw [hsegs]
    by_cases hwv : w = v
    · subst hwv
      rw [Function.update_self,Option.some.injEq] at hw
      subst hw
      exact interfereAll_subset hclear (h.fixed _)
    · rw [Function.update_of_ne hwv] at hw
      exact h.free w r hw

theorem Sound.spilled {rest : List ℕ} (h : Sound f vregs e s) (hlist : s.worklist = v::rest)
    (hs : Spilled v newVregs e' s.f g) :
    Sound f vregs (fun p => e' (e p)) { s with
      f := g, worklist := rest ++ newVregs, spillRegs := newVregs ++ s.spillRegs } := by
  have hv : v ∈ s.worklist := by rw [hlist]; exact List.mem_cons_self
  have herase : s.worklist.erase v = rest := by rw [hlist,List.erase_cons_head]
  have hcarried := h.carried.spilled hs
  rw [herase] at hcarried
  have hnew : ∀ w ∈ newVregs, s.f.nextVReg ≤ w := by
    intro w hw
    rw [hs.fresh,List.mem_range'_1] at hw
    exact hw.1
  have hrest : ∀ w ∈ rest, w ∈ s.worklist := fun w hw => by rw [hlist]; exact List.mem_cons_of_mem v hw
  have hkept : ∀ w, s.assigned w ≠ none → rangeOf g.numbering (.virt w) =
      (rangeOf s.f.numbering (.virt w)).map (moveSegs e') := by
    intro w hw
    refine hs.virt w ?_ (h.old w hw)
    rintro rfl
    exact hw (h.waiting w hv)
  have hsegs : ∀ w r, s.assigned w = some r →
      segsOf g.numbering (.virt w) = moveSegs e' (segsOf s.f.numbering (.virt w)) := fun w r hw =>
    segsOf_of_map (hkept w (by rw [hw]; simp))
  have hphys : ∀ r, segsOf g.numbering (.phys r) = moveSegs e' (segsOf s.f.numbering (.phys r)) :=
    fun r => segsOf_of_map (hs.phys r)
  refine ⟨hcarried,?_,?_,?_,?_,?_,?_,?_,?_⟩
  · intro w hw hlt
    rcases List.mem_append.mp hw with hw | hw
    · exact h.source w (hrest w hw) hlt
    · exact absurd (hnew w hw) (Nat.not_le_of_lt (Nat.lt_of_lt_of_le hlt h.carried.nextVReg))
  · intro w hw
    rcases List.mem_append.mp hw with hw | hw
    · exact h.waiting w (hrest w hw)
    · by_contra hgiven
      exact absurd (hnew w hw) (Nat.not_le_of_lt (h.old w hgiven))
  · intro w hw
    show w < g.nextVReg
    rw [hs.nextVReg]
    exact Nat.lt_of_lt_of_le (h.old w hw) (Nat.le_add_right _ _)
  · intro w hw hlt
    obtain ⟨hmem,hrange⟩ := h.given w hw hlt
    refine ⟨hmem,?_⟩
    rw [hkept w hw,hrange,Option.map_map]
    congr 1
    funext segs
    exact moveSegs_moveSegs segs
  · intro r seg hseg
    rw [hphys,moveSegs]
    rw [← moveSegs_moveSegs] at hseg
    obtain ⟨seg',hseg',rfl⟩ := List.mem_map.mp hseg
    exact List.mem_map_of_mem (h.fixed r seg' hseg')
  · intro w r hw seg hseg
    rw [hsegs w r hw] at hseg
    rw [hphys]
    obtain ⟨seg',hseg',rfl⟩ := List.mem_map.mp hseg
    exact List.mem_map_of_mem (h.inside w r hw seg' hseg')
  · intro w x r hne hw hx
    rw [hsegs w r hw,hsegs x r hx,interfereAll_move hs.embeds]
    exact h.apart w x r hne hw hx
  · intro w r hw
    rw [hsegs w r hw,← moveSegs_moveSegs (segsOf f.numbering (.phys r)),interfereAll_move hs.embeds]
    exact h.free w r hw

/-- One turn of the loop. -/
theorem Sound.turn {rest : List ℕ} (h : Sound f vregs e s) (hlist : s.worklist = v::rest)
    (hrun : s.turn fuel preferred v rest = .ok t) : ∃ e', Sound f vregs e' t := by
  rcases turn_eq_ok.mp hrun with ⟨reg,m,hfree,hassign,rfl⟩ | ⟨newVregs,g,_,hspill,rfl⟩
  · exact ⟨e,h.assigned hlist (firstFree_eq_some hfree).2 (assign_eq_merge hassign)⟩
  · obtain ⟨e',hs⟩ := spill_spilled hspill
    exact ⟨_,h.spilled hlist hs⟩

/-- The whole loop. -/
theorem Sound.allocate (h : Sound f vregs e s) (hrun : allocate preferred fuel s = .ok t) :
    ∃ e', Sound f vregs e' t := by
  induction fuel generalizing s e with
  | zero => cases hrun
  | succ fuel ih =>
    rw [Regalloc.allocate] at hrun
    cases hlist : s.worklist with
    | nil =>
      rw [hlist] at hrun
      cases hrun
      exact ⟨e,h⟩
    | cons v rest =>
      rw [hlist] at hrun
      rcases Exec.except_bind_eq_ok.mp hrun with ⟨s₁,hturn,hrest⟩
      obtain ⟨e₁,h₁⟩ := h.turn hlist hturn
      exact ih h₁ hrest

/-- The worklist at the start: the registers of the code that are not live across a call, and those
of the spiller. -/
theorem start_sound {hash : HashOrder} (hf : WellFormed f)
    (hstart : start hash fuel f = .ok (preferred,s)) :
    ∃ around e, collectVregsAliveAroundCall f (hash.order (allVregs f)) = .ok around ∧
      Sound f ((allVregs f).filter (· ∉ around)) e s := by
  rcases Exec.except_bind_eq_ok.mp hstart with ⟨around,haround,hrest⟩
  rcases Exec.except_bind_eq_ok.mp hrest with ⟨⟨vregs,g⟩,hspills,hrest⟩
  rcases Exec.except_bind_eq_ok.mp hrest with ⟨worklist,hsort,hrest⟩
  cases hrest
  have hall : ∀ v ∈ hash.order (allVregs f), v ∈ allVregs f := fun v hv =>
    (hash.perm _).mem_iff.mp hv
  have hold : ∀ v ∈ hash.order (allVregs f), v < f.nextVReg := by
    intro v hv
    obtain ⟨i,hi,hm⟩ := mem_allVregs.mp (hall v hv)
    exact hf.mentions_lt hi hm
  have hid : ∀ r, rangeOf f.numbering r = (rangeOf f.numbering r).map (moveSegs fun p => p) :=
    (Moved.refl 0 f.numbering).ranges
  have h₀ : Carried f (fun p => p) (hash.order (allVregs f)) f :=
    ⟨.id,Nat.le_refl _,Nat.le_refl _,(Moved.refl f.nextInst f.numbering).points,hold,
      ((hash.perm _).nodup_iff).mpr (List.nodup_dedup _),fun v _ _ => hid _⟩
  obtain ⟨e,hcarried,hfixed,hmem⟩ := h₀.spillAroundCalls (fun r => hid _) hspills
  have hperm : worklist.Perm vregs := (sortWorklist_perm hsort).trans (hash.perm vregs)
  refine ⟨around,e,haround,hcarried.perm hperm,?_,fun _ _ => rfl,fun v hv => absurd rfl hv,
    fun v hv => absurd rfl hv,?_,fun v _ hv => (by cases hv),fun v _ _ _ hv => (by cases hv),
    fun v _ hv => (by cases hv)⟩
  · intro v hv hlt
    obtain ⟨hsource,hcall⟩ := hmem v (hperm.mem_iff.mp hv) hlt
    exact List.mem_filter.mpr ⟨hall v hsource,by simpa using hcall⟩
  · intro reg seg hseg
    rwa [segsOf_of_map (hfixed reg)]

theorem aliveAround_complete {pp : ProgramPoint} {alive : List VReg}
    (h : aliveAround n pp vregs = .ok alive) {range : List LiveSegment} (hv : v ∈ vregs)
    (hrange : vregRange n v = .ok range) (hnot : v ∉ alive) :
    interfereAll range [.newPoint pp] = false := by
  induction vregs generalizing alive with
  | nil => cases hv
  | cons w rest ih =>
    rcases Exec.except_bind_eq_ok.mp h with ⟨range',hrange',h⟩
    rcases Exec.except_bind_eq_ok.mp h with ⟨others,hothers,h⟩
    have halive : alive = if interfereAll range' [.newPoint pp] then w::others else others :=
      (Except.ok.inj h).symm
    have hother : v ∉ others := by
      intro hmem
      rw [halive] at hnot
      split at hnot
      · exact hnot (List.mem_cons_of_mem _ hmem)
      · exact hnot hmem
    rcases List.mem_cons.mp hv with rfl | hv
    · cases hrange.symm.trans hrange'
      by_contra hlive
      rw [Bool.not_eq_false] at hlive
      rw [halive,if_pos hlive] at hnot
      exact hnot List.mem_cons_self
    · exact ih hothers hv hother

/-- A register that is not live around any call interferes with none of them. -/
theorem aliveAroundCalls_complete {insts : List InstId} {around : List VReg} {i : InstId}
    {pp : ProgramPoint} {range : List LiveSegment} (h : aliveAroundCalls f vregs insts = .ok around)
    (hi : i ∈ insts) (hcall : (f.insts i).isCall = true) (hpp : f.numbering.point? i = some pp)
    (hv : v ∈ vregs) (hrange : vregRange f.numbering v = .ok range) (hnot : v ∉ around) :
    interfereAll range [.newPoint pp] = false := by
  induction insts generalizing around with
  | nil => cases hi
  | cons j rest ih =>
    rw [aliveAroundCalls] at h
    by_cases hj : (f.insts j).isCall = true
    · rw [if_pos hj] at h
      rcases Exec.except_bind_eq_ok.mp h with ⟨pp',hpp',h⟩
      rcases Exec.except_bind_eq_ok.mp h with ⟨here,hhere,h⟩
      rcases Exec.except_bind_eq_ok.mp h with ⟨others,hothers,h⟩
      cases h
      rw [List.mem_append,not_or] at hnot
      rcases List.mem_cons.mp hi with rfl | hi
      · rw [Numbering.pointOf,hpp] at hpp'
        cases hpp'
        exact aliveAround_complete hhere hv hrange hnot.1
      · exact ih hothers hi hnot.2
    · rw [if_neg hj] at h
      rcases List.mem_cons.mp hi with rfl | hi
      · exact absurd hcall hj
      · exact ih h hi hnot

/-! ### The results -/

/-- A virtual register of the function that is given a physical one, whatever it is, is not live
across a call. -/
theorem allocate_calls {hash : HashOrder} {fuel' : ℕ} (hf : WellFormed f)
    (hstart : start hash fuel f = .ok (preferred,s)) (hrun : allocate preferred fuel' s = .ok t) :
    ∀ v reg, t.assigned v = some reg → v < f.nextVReg → ∀ i ∈ f.numbering.layout.flatten,
      (f.insts i).isCall = true → ∀ pp, t.f.numbering.point? i = some pp →
        ¬ LiveAcross (segsOf t.f.numbering (.virt v)) pp := by
  intro v reg hv hold i hi hcall pp hpp
  obtain ⟨around,e₀,haround,hs⟩ := start_sound hf hstart
  obtain ⟨e,ht⟩ := hs.allocate hrun
  obtain ⟨hmem,hrange⟩ := ht.given v (by rw [hv]; simp) hold
  rw [List.mem_filter,decide_eq_true_eq] at hmem
  rw [not_liveAcross_iff,segsOf_of_map hrange]
  have hpoint := ht.carried.points i (hf.old i hi)
  rw [hpp] at hpoint
  cases hat : f.numbering.point? i with
  | none =>
    rw [hat] at hpoint
    cases hpoint
  | some pp₀ =>
    rw [hat] at hpoint
    cases hpoint
    have hnew : [LiveSegment.newPoint (e pp₀)] = moveSegs e [.newPoint pp₀] := rfl
    rw [hnew,interfereAll_move ht.carried.embeds]
    cases hr : rangeOf f.numbering (.virt v) with
    | none =>
      rw [segsOf,hr]
      rfl
    | some range =>
      rw [segsOf,hr]
      exact aliveAroundCalls_complete haround hi hcall hat ((hash.perm _).mem_iff.mpr hmem.1)
        (by rw [vregRange,hr]; rfl) hmem.2

/-- The value that lives across the call gets no register, and the one that does not gets one. -/
theorem allocate_calls_assertAcrossCall :
    LiveAcross (segsOf assertAcrossCall.numbering (.virt 0)) ⟨0,32⟩ ∧
    assertLoop₃.assigned 0 = none ∧ assertLoop₃.assigned 1 = some (GR 0) ∧
    ∀ pp, assertLoop₃.f.numbering.point? 1 = some pp →
      ¬ LiveAcross (segsOf assertLoop₃.f.numbering (.virt 1)) pp :=
  ⟨⟨_,List.mem_singleton_self _,by decide,by decide⟩,rfl,rfl,
    allocate_calls assertAcrossCall_wellFormed assertAcrossCall_start assertLoop_run 1 (GR 0) rfl
      (by decide) 1 (by decide) (by decide)⟩

end Given

end Regalloc
end Codegen
end OlaLang
