import OlaLang.ProgramPoints
import Mathlib.Data.List.Basic
import Mathlib.Tactic.Ring

/-! Which insertions succeed. Behind the last instruction of a block nothing is inserted, and before
an instruction the gap to the previous one only shrinks: moving the later points does not widen it. -/
namespace OlaLang
namespace Codegen
namespace ProgramPoints

open Liveness

variable {s t : Numbering} {b : BasicBlockId} {i target inst : InstId} {pp start : ProgramPoint}
  {base fuel : ℕ} {pre post : List InstId}

/-! ### Places in a block -/

theorem nextInstOf_append (h : target ∉ pre) :
    nextInstOf target (pre ++ target::post) = post.head? := by
  induction pre with
  | nil => simp [nextInstOf]
  | cons x pre ih =>
    rw [List.mem_cons,not_or] at h
    rw [List.cons_append,nextInstOf,if_neg (Ne.symm h.1),ih h.2]

theorem prevInstOf_eq_none (h : target ∉ post) (x : InstId) :
    prevInstOf target (x::post) = none := by
  induction post generalizing x with
  | nil => rfl
  | cons y rest ih =>
    rw [List.mem_cons,not_or] at h
    rw [prevInstOf,if_neg (Ne.symm h.1),ih h.2]

theorem prevInstOf_append (h : target ∉ pre) (hpost : target ∉ post) :
    prevInstOf target (pre ++ target::post) = pre.getLast? := by
  induction pre with
  | nil => exact prevInstOf_eq_none hpost target
  | cons x pre ih =>
    rw [List.mem_cons,not_or] at h
    cases pre with
    | nil => simp [prevInstOf]
    | cons y pre =>
      have hy : y ≠ target := fun heq => h.2 (heq ▸ List.mem_cons_self)
      rw [List.cons_append,List.cons_append,prevInstOf,if_neg hy,List.getLast?_cons_cons]
      exact ih h.2

theorem placeAfter_append (h : target ∉ pre) :
    placeAfter target inst (pre ++ target::post) = pre ++ target::inst::post := by
  induction pre with
  | nil => simp [placeAfter]
  | cons x pre ih =>
    rw [List.mem_cons,not_or] at h
    rw [List.cons_append,placeAfter,if_neg (Ne.symm h.1),ih h.2]
    rfl

theorem placeBefore_append (h : target ∉ pre) :
    placeBefore target inst (pre ++ target::post) = pre ++ inst::target::post := by
  induction pre with
  | nil => simp [placeBefore]
  | cons x pre ih =>
    rw [List.mem_cons,not_or] at h
    rw [List.cons_append,placeBefore,if_neg (Ne.symm h.1),ih h.2]
    rfl

/-! ### Points -/

theorem lookup_map {K A B : Type} [BEq K] (l : List (K × A)) (g : A → B) (key : K) :
    (l.map fun entry => (entry.1,g entry.2)).lookup key = (l.lookup key).map g := by
  induction l with
  | nil => rfl
  | cons entry rest ih =>
    rcases entry with ⟨other,a⟩
    simp only [List.map_cons,List.lookup_cons]
    cases key == other with
    | true => rfl
    | false => exact ih

theorem mem_of_lookup {l : List (InstId × ProgramPoint)} (h : l.lookup i = some pp) :
    (i,pp) ∈ l := by
  induction l with
  | nil => cases h
  | cons entry rest ih =>
    rcases entry with ⟨j,pp'⟩
    rw [List.lookup_cons] at h
    cases hij : i == j with
    | true =>
      rw [hij] at h
      cases h
      rw [beq_iff_eq.mp hij]
      exact List.mem_cons_self
    | false =>
      rw [hij] at h
      exact List.mem_cons_of_mem _ (ih h)

namespace Numbering

variable {g : ProgramPoint → ProgramPoint}

@[simp] theorem mapPoints_layout : (s.mapPoints g).layout = s.layout := rfl

@[simp] theorem mapPoints_insts : (s.mapPoints g).insts b = s.insts b := rfl

@[simp] theorem mapPoints_point? : (s.mapPoints g).point? i = (s.point? i).map g :=
  lookup_map s.instToPP g _

theorem mapPoints_points : (s.mapPoints g).points = s.points.map g := by
  simp only [points,mapPoints,List.map_append,List.map_map,List.flatMap_map,List.map_flatMap]
  rfl

theorem mem_points (h : s.point? i = some pp) : pp ∈ s.points :=
  List.mem_append_left _ (List.mem_map_of_mem (mem_of_lookup h))

theorem pointOf_eq_ok (h : s.point? i = some pp) : s.pointOf i = .ok pp := by
  rw [pointOf,h]
  rfl

theorem recompute_eq_ok {add : Bool} : s.recomputeProgramPointsAfter start add = .ok t ↔
    start.inst + (if add then STEP else 0) < 2^32 ∧
      s.Fits start (start.inst + if add then STEP else 0) ∧
      t = s.mapPoints (shift start (start.inst + if add then STEP else 0)) := by
  rw [recomputeProgramPointsAfter]
  by_cases h : start.inst + (if add then STEP else 0) < 2^32 ∧
      s.Fits start (start.inst + if add then STEP else 0)
  · rw [if_pos h]
    constructor
    · intro heq
      cases heq
      exact ⟨h.1,h.2,rfl⟩
    · rintro ⟨_,_,rfl⟩
      rfl
  · rw [if_neg h]
    constructor
    · intro heq
      cases heq
    · rintro ⟨h1,h2,_⟩
      exact absurd ⟨h1,h2⟩ h

/-- A retry runs from the moved points. -/
theorem recompute_bind {add : Bool} {g : Numbering → Except Fault Numbering} :
    (s.recomputeProgramPointsAfter start add >>= g) = .ok t ↔
      start.inst + (if add then STEP else 0) < 2^32 ∧
        s.Fits start (start.inst + if add then STEP else 0) ∧
        g (s.mapPoints (shift start (start.inst + if add then STEP else 0))) = .ok t := by
  cases hrun : s.recomputeProgramPointsAfter start add with
  | error e =>
    refine iff_of_false (fun h => by cases h) ?_
    rintro ⟨hbase,hfits,_⟩
    rw [recompute_eq_ok.mpr ⟨hbase,hfits,rfl⟩] at hrun
    cases hrun
  | ok u =>
    rcases recompute_eq_ok.mp hrun with ⟨hbase,hfits,rfl⟩
    exact ⟨fun h => ⟨hbase,hfits,h⟩,fun h => h.2.2⟩

end Numbering

theorem between_eq (m n : ℕ) : between ⟨b,m⟩ ⟨b,n⟩ =
    if n ≤ m+1 then .ok none
    else if n+m < 2^32 then .ok (some ⟨b,(n+m)/2⟩) else .error .panic := by
  rw [between]
  simp only [ne_eq,not_true_eq_false,if_false]
  by_cases hle : n ≤ m+1
  · rw [if_pos hle]
    by_cases hgt : m > n
    · rw [if_pos hgt]
    · rw [if_neg hgt,if_pos (by omega)]
  · rw [if_neg hle,if_neg (by omega),if_neg (by omega),u32]
    split <;> rfl

/-- The number of a point of the block after the points from `a` on are moved. -/
def shiftNum (a base n : ℕ) : ℕ := if a ≤ n then base + (n-a)*STEP else n

theorem shift_same (a n : ℕ) : shift ⟨b,a⟩ base ⟨b,n⟩ = ⟨b,shiftNum a base n⟩ := by
  rw [shift,shiftNum]
  by_cases h : a ≤ n
  · rw [if_pos ⟨rfl,h⟩,if_pos h]
  · rw [if_neg (fun hc => h hc.2),if_neg h]

theorem shift_other {n : ℕ} (h : b ≠ start.block) : shift start base ⟨b,n⟩ = ⟨b,n⟩ :=
  if_neg fun hc => h hc.1

theorem shiftNum_lt {a m n : ℕ} (hbase : a ≤ base) (h : m < n) :
    shiftNum a base m < shiftNum a base n := by
  rw [shiftNum,shiftNum,STEP]
  split <;> split <;> omega

/-- Moving the points of a block keeps their order. -/
theorem Increasing.mapPoints (h : Increasing s) (hstart : 0 < start.inst)
    (hbase : start.inst ≤ base) : Increasing (s.mapPoints (shift start base)) := by
  intro b insts hb
  rcases h b insts hb with ⟨ns,hns,hlt⟩
  have hmap : insts.map (s.mapPoints (shift start base)).point? =
      (insts.map s.point?).map (Option.map (shift start base)) := by
    rw [List.map_map]
    exact List.map_congr_left fun _ _ => Numbering.mapPoints_point?
  rw [Rising,hmap,hns]
  by_cases hblock : b = start.block
  · refine ⟨ns.map (shiftNum start.inst base),?_,?_⟩
    · rw [List.map_map,List.map_map]
      apply List.map_congr_left
      intro n _
      show some (shift start base ⟨b,n⟩) = some _
      rw [hblock]
      exact congrArg some (shift_same start.inst n)
    · have hzero : shiftNum start.inst base 0 = 0 := if_neg (by omega)
      have hlist : 0::ns.map (shiftNum start.inst base) =
          (0::ns).map (shiftNum start.inst base) := by rw [List.map_cons,hzero]
      rw [hlist]
      exact hlt.map _ fun _ _ => shiftNum_lt hbase
  · refine ⟨ns,?_,hlt⟩
    rw [List.map_map]
    apply List.map_congr_left
    intro n _
    exact congrArg some (shift_other hblock)

/-! ### Increasing blocks around an instruction -/

/-- The block with the target, and the numbers of its points. -/
structure Around (s : Numbering) (b : BasicBlockId) (pre : List InstId) (target : InstId)
    (post : List InstId) (npre : List ℕ) (n : ℕ) (npost : List ℕ) : Prop where
  layout : s.layout[b]? = some (pre ++ target::post)
  notMem : target ∉ pre
  notMemPost : target ∉ post
  before : pre.map s.point? = npre.map fun n => some ⟨b,n⟩
  here : s.point? target = some ⟨b,n⟩
  after : post.map s.point? = npost.map fun n => some ⟨b,n⟩
  lt : (0::(npre ++ n::npost)).Pairwise (· < ·)

theorem Increasing.around (h : Increasing s) (hnodup : s.layout.flatten.Nodup)
    (hmem : target ∈ s.insts b) :
    ∃ pre post npre n npost, Around s b pre target post npre n npost := by
  cases hb : s.layout[b]? with
  | none => simp [Numbering.insts,hb] at hmem
  | some insts =>
    rw [Numbering.insts,hb] at hmem
    rcases List.append_of_mem hmem with ⟨pre,post,hsplit⟩
    change insts = pre ++ target::post at hsplit
    rw [hsplit] at hb
    have hblock : (pre ++ target::post).Nodup :=
      (List.nodup_flatten.mp hnodup).1 _ (List.mem_of_getElem? hb)
    have hnot : target ∉ pre := fun hin =>
      (List.disjoint_of_nodup_append hblock) hin List.mem_cons_self
    have hnotPost : target ∉ post := (List.nodup_cons.mp hblock.of_append_right).1
    rcases h b _ hb with ⟨ns,hns,hlt⟩
    rw [List.map_append,List.map_cons] at hns
    rcases List.map_eq_append_iff.mp hns.symm with ⟨npre,rest,rfl,hpre,hrest⟩
    rcases List.map_eq_cons_iff.mp hrest with ⟨n,npost,rfl,hn,hpost⟩
    exact ⟨pre,post,npre,n,npost,hb,hnot,hnotPost,hpre.symm,hn.symm,hpost.symm,hlt⟩

theorem pairwise_place {l r : List ℕ} {x : ℕ} (h : (l ++ r).Pairwise (· < ·))
    (hl : ∀ a ∈ l, a < x) (hr : ∀ a ∈ r, x < a) : (l ++ x::r).Pairwise (· < ·) := by
  rw [List.pairwise_append] at h
  rw [List.pairwise_append,List.pairwise_cons]
  refine ⟨h.1,⟨hr,h.2.1⟩,?_⟩
  intro a ha c hc
  rcases List.mem_cons.mp hc with rfl | hc
  · exact hl a ha
  · exact h.2.2 a ha c hc

/-- A new point between two neighbours keeps the blocks increasing. -/
theorem increasing_place {s : Numbering} (h : Increasing s) {f : List InstId → List InstId}
    (pre post : List InstId) (npre npost : List ℕ) {x : ℕ} (hb : s.layout[b]? = some (pre ++ post))
    (hf : f (pre ++ post) = pre ++ inst::post) (hfresh : inst ∉ s.layout.flatten)
    (hpre : pre.map s.point? = npre.map fun n => some ⟨b,n⟩)
    (hpost : post.map s.point? = npost.map fun n => some ⟨b,n⟩)
    (hlt : (0::(npre ++ x::npost)).Pairwise (· < ·)) :
    Increasing ⟨s.layout.modify b f,(inst,⟨b,x⟩)::s.instToPP,s.ranges⟩ := by
  have hpoint : ∀ l : List InstId, inst ∉ l →
      l.map (Numbering.point? ⟨s.layout.modify b f,(inst,⟨b,x⟩)::s.instToPP,s.ranges⟩) =
        l.map s.point? := by
    intro l hl
    apply List.map_congr_left
    intro j hj
    have hne : (j == inst) = false := beq_eq_false_iff_ne.mpr fun heq => hl (heq ▸ hj)
    show List.lookup j ((inst,_)::s.instToPP) = _
    rw [List.lookup_cons,hne]
    rfl
  have hnew : Numbering.point? ⟨s.layout.modify b f,(inst,⟨b,x⟩)::s.instToPP,s.ranges⟩ inst =
      some ⟨b,x⟩ := by
    show List.lookup inst ((inst,_)::s.instToPP) = _
    rw [List.lookup_cons,beq_self_eq_true]
  have hother : ∀ insts ∈ s.layout, inst ∉ insts := fun insts hin hi =>
    hfresh (List.mem_flatten.mpr ⟨insts,hin,hi⟩)
  intro c insts hc
  change (s.layout.modify b f)[c]? = some insts at hc
  rw [List.getElem?_modify] at hc
  by_cases hbc : b = c
  · subst hbc
    rw [hb] at hc
    change some (if b = b then f (pre ++ post) else _) = some insts at hc
    rw [if_pos rfl,hf] at hc
    cases hc
    have hnot := hother _ (List.mem_of_getElem? hb)
    rw [List.mem_append,not_or] at hnot
    refine ⟨npre ++ x::npost,?_,hlt⟩
    rw [List.map_append,List.map_cons,hpoint pre hnot.1,hpoint post hnot.2,hnew,hpre,hpost]
    simp
  · have hc' : s.layout[c]? = some insts := by simpa [hbc] using hc
    rcases h c insts hc' with ⟨ns,hns,hlt'⟩
    exact ⟨ns,(hpoint insts (hother insts (List.mem_of_getElem? hc'))).trans hns,hlt'⟩

namespace Around

variable {npre npost : List ℕ} {n k m : ℕ}

theorem insts (h : Around s b pre target post npre n npost) :
    s.insts b = pre ++ target::post := by
  rw [Numbering.insts,h.layout]
  rfl

theorem pos (h : Around s b pre target post npre n npost) : 0 < n :=
  (List.pairwise_cons.mp h.lt).1 n (by simp)

theorem next_lt {next : InstId} {rest : List InstId} {nrest : List ℕ}
    (h : Around s b pre target (next::rest) npre n (k::nrest)) : n < k := by
  have htail := (List.pairwise_append.mp (List.pairwise_cons.mp h.lt).2).2.1
  exact (List.pairwise_cons.mp htail).1 k List.mem_cons_self

theorem prev_lt {prev : InstId} {front : List InstId} {nfront : List ℕ}
    (h : Around s b (front ++ [prev]) target post (nfront ++ [k]) n npost) : k < n :=
  (List.pairwise_append.mp (List.pairwise_cons.mp h.lt).2).2.2 k (by simp) n (by simp)

theorem mapPoints {a : ℕ} (h : Around s b pre target post npre n npost) (ha : 0 < a)
    (hbase : a ≤ base) : Around (s.mapPoints (shift ⟨b,a⟩ base)) b pre target post
      (npre.map (shiftNum a base)) (shiftNum a base n) (npost.map (shiftNum a base)) := by
  have hmap : ∀ (l : List InstId) (ns : List ℕ),
      (l.map s.point? = ns.map fun n => some ⟨b,n⟩) →
      l.map (s.mapPoints (shift ⟨b,a⟩ base)).point? =
        (ns.map (shiftNum a base)).map fun n => some ⟨b,n⟩ := by
    intro l ns hl
    have hcomp : l.map (s.mapPoints (shift ⟨b,a⟩ base)).point? =
        (l.map s.point?).map (Option.map (shift ⟨b,a⟩ base)) := by
      rw [List.map_map]
      exact List.map_congr_left fun _ _ => Numbering.mapPoints_point?
    rw [hcomp,hl,List.map_map,List.map_map]
    exact List.map_congr_left fun n _ => congrArg some (shift_same a n)
  have hzero : shiftNum a base 0 = 0 := if_neg (by omega)
  refine ⟨h.layout,h.notMem,h.notMemPost,hmap _ _ h.before,?_,hmap _ _ h.after,?_⟩
  · rw [Numbering.mapPoints_point?,h.here]
    exact congrArg some (shift_same a n)
  · have hlist : 0::(npre.map (shiftNum a base) ++ shiftNum a base n::npost.map (shiftNum a base)) =
        (0::(npre ++ n::npost)).map (shiftNum a base) := by
      rw [List.map_cons,hzero,List.map_append,List.map_cons]
    rw [hlist]
    exact h.lt.map _ fun _ _ => shiftNum_lt hbase

/-! ### The runs of an insertion -/

theorem insertAfter_last (h : Around s b pre target [] npre n npost) :
    insertInstAfter (fuel+1) target inst b s = .ok s := by
  have hnone : nextInstOf target (pre ++ [target]) = none := nextInstOf_append h.notMem
  rw [insertInstAfter,Numbering.pointOf_eq_ok h.here,h.insts]
  simp only [bind,Except.bind,hnone]

theorem insertAfter_next {next : InstId} {rest : List InstId} {nrest : List ℕ}
    (h : Around s b pre target (next::rest) npre n (k::nrest)) :
    insertInstAfter (fuel+1) target inst b s =
      if k ≤ n+1 then s.recomputeProgramPointsAfter ⟨b,n⟩ false >>= insertInstAfter fuel target inst b
      else if k+n < 2^32 then .ok ⟨s.layout.modify b (placeAfter target inst),
        (inst,⟨b,(k+n)/2⟩)::s.instToPP,s.ranges⟩
      else .error .panic := by
  have hnext : s.point? next = some ⟨b,k⟩ := (List.cons.inj h.after).1
  have hsome : nextInstOf target (pre ++ target::next::rest) = some next :=
    nextInstOf_append h.notMem
  rw [insertInstAfter,Numbering.pointOf_eq_ok h.here,h.insts]
  simp only [bind,Except.bind,hsome,Numbering.pointOf_eq_ok hnext]
  rw [between_eq]
  by_cases hle : k ≤ n+1
  · rw [if_pos hle,if_pos hle]
  · rw [if_neg hle,if_neg hle]
    by_cases hsum : k+n < 2^32
    · rw [if_pos hsum,if_pos hsum]
    · rw [if_neg hsum,if_neg hsum]

theorem insertBefore_prev {prev : InstId} {front : List InstId} {nfront : List ℕ}
    (h : Around s b (front ++ [prev]) target post (nfront ++ [k]) n npost) :
    insertInstBefore (fuel+1) target inst b s =
      if n ≤ k+1 then s.recomputeProgramPointsAfter ⟨b,n⟩ false >>= insertInstBefore fuel target inst b
      else if n+k < 2^32 then .ok ⟨s.layout.modify b (placeBefore target inst),
        (inst,⟨b,(n+k)/2⟩)::s.instToPP,s.ranges⟩
      else .error .panic := by
  have hprev : s.point? prev = some ⟨b,k⟩ := by
    have hlast := congrArg List.getLast? h.before
    simpa using hlast
  have hpoint : prevPoint target ⟨b,n⟩ b s = .ok (⟨b,k⟩,s) := by
    rw [prevPoint,h.insts,prevInstOf_append h.notMem h.notMemPost,List.getLast?_concat]
    show (s.pointOf prev).map _ = _
    rw [Numbering.pointOf_eq_ok hprev]
    rfl
  rw [insertInstBefore,Numbering.pointOf_eq_ok h.here]
  show (prevPoint target ⟨b,n⟩ b s >>= _) = _
  rw [hpoint]
  show (between ⟨b,k⟩ ⟨b,n⟩ >>= _) = _
  rw [between_eq]
  by_cases hle : n ≤ k+1
  · rw [if_pos hle,if_pos hle]
    rfl
  · rw [if_neg hle,if_neg hle]
    split <;> rfl

theorem insertBefore_first (h : Around s b [] target post npre n npost) :
    insertInstBefore (fuel+1) target inst b s =
      s.recomputeProgramPointsAfter ⟨b,n⟩ true >>= fun s =>
        if n ≤ 1 then s.recomputeProgramPointsAfter ⟨b,n⟩ false >>=
          insertInstBefore fuel target inst b
        else if n < 2^32 then .ok ⟨s.layout.modify b (placeBefore target inst),
          (inst,⟨b,n/2⟩)::s.instToPP,s.ranges⟩
        else .error .panic := by
  have hpoint : prevPoint target ⟨b,n⟩ b s =
      s.recomputeProgramPointsAfter ⟨b,n⟩ true >>= fun s => .ok (⟨b,0⟩,s) := by
    rw [prevPoint,h.insts,prevInstOf_append h.notMem h.notMemPost]
    show (s.recomputeProgramPointsAfter ⟨b,n⟩ true >>= fun s =>
      if 0 < n then Except.ok ((⟨b,0⟩ : ProgramPoint),s) else .error .panic) = _
    simp only [if_pos h.pos]
  rw [insertInstBefore,Numbering.pointOf_eq_ok h.here]
  show (prevPoint target ⟨b,n⟩ b s >>= _) = _
  rw [hpoint]
  cases s.recomputeProgramPointsAfter ⟨b,n⟩ true with
  | error e => rfl
  | ok t =>
    show (between ⟨b,0⟩ ⟨b,n⟩ >>= _) = _
    rw [between_eq]
    show _ = if n ≤ 1 then _ else _
    by_cases hle : n ≤ 0+1
    · rw [if_pos hle,if_pos hle]
      rfl
    · rw [if_neg hle,if_neg hle,Nat.add_zero]
      split <;> rfl

end Around

/-! ### The condition -/

/-- Before the first instruction of a block the points of the block are moved, three times if its
point is 1. -/
def FirstRoom (s : Numbering) (q : ProgramPoint) : Prop :=
  if q.inst = 1 then
    ∀ pp ∈ s.points, pp.block = q.block → 1 ≤ pp.inst → 4096*pp.inst < 2^32+3823
  else s.Fits q (q.inst+STEP)

/-- The insertion finds a point: behind an instruction that is not the last of its block, and
before one that does not follow the previous instruction immediately, in 32 bits. -/
def HasRoom : Op → Numbering → Prop
  | .after target _ block, s => ∃ next, nextInstOf target (s.insts block) = some next ∧
    ∀ p q, s.point? target = some p → s.point? next = some q →
      p.inst+1 < q.inst ∧ q.inst+p.inst < 2^32 ∨
        q.inst = p.inst+1 ∧ s.Fits p p.inst ∧ 2*p.inst+STEP < 2^32
  | .before target _ block, s => match prevInstOf target (s.insts block) with
    | some prev => ∀ p q, s.point? prev = some p → s.point? target = some q →
      p.inst+1 < q.inst ∧ q.inst+p.inst < 2^32
    | none => ∀ q, s.point? target = some q → FirstRoom s q
  | .ranges _, _ => True

/-- The step ends in a numbering with the property. -/
def Leads (Q : Numbering → Prop) (op : Op) (s : Numbering) : Prop := ∃ t, Steps s op t ∧ Q t

/-- The instruction is placed, and the points are increasing. -/
def Places (op : Op) (s t : Numbering) : Prop := t.layout = op.place s.layout ∧ Increasing t

/-- The step ends, places its instruction and leaves increasing points. -/
def Placed (op : Op) (s : Numbering) : Prop := Leads (Places op s) op s

namespace Around

variable {npre npost : List ℕ} {n k : ℕ}

theorem increasing_after (h : Around s b pre target post npre n (k::npost)) (hinc : Increasing s)
    (hfresh : inst ∉ s.layout.flatten) (hgap : n+1 < k) :
    Increasing ⟨s.layout.modify b (placeAfter target inst),(inst,⟨b,(k+n)/2⟩)::s.instToPP,
      s.ranges⟩ := by
  have hlist : pre ++ target::post = (pre ++ [target]) ++ post := by simp
  have hlt : ((0::(npre ++ [n])) ++ k::npost).Pairwise (· < ·) := by simpa using h.lt
  have hsplit := List.pairwise_append.mp hlt
  refine increasing_place hinc (pre ++ [target]) post (npre ++ [n]) (k::npost) ?_ ?_ hfresh ?_
    h.after ?_
  · rw [← hlist]
    exact h.layout
  · rw [← hlist,placeAfter_append h.notMem]
    simp
  · rw [List.map_append,List.map_append,h.before,List.map_singleton,List.map_singleton,h.here]
  · refine pairwise_place hlt ?_ ?_
    · intro a ha
      have hle : a ≤ n := by
        have hfront := hsplit.1
        rw [← List.cons_append,List.pairwise_append] at hfront
        rcases List.mem_append.mp (show a ∈ (0::npre) ++ [n] from ha) with ha | ha
        · exact (hfront.2.2 a ha n (by simp)).le
        · exact (List.mem_singleton.mp ha).le
      omega
    · intro a ha
      have hle : k ≤ a := by
        rcases List.mem_cons.mp ha with rfl | ha
        · exact le_refl _
        · exact ((List.pairwise_cons.mp hsplit.2.1).1 a ha).le
      omega

/-- The new point lies above all points before the target, and below that of the target. -/
theorem increasing_before (h : Around s b pre target post npre n npost) (hinc : Increasing s)
    (hfresh : inst ∉ s.layout.flatten) {x : ℕ} (hpre : ∀ a ∈ 0::npre, a < x) (hx : x < n) :
    Increasing ⟨s.layout.modify b (placeBefore target inst),(inst,⟨b,x⟩)::s.instToPP,
      s.ranges⟩ := by
  have hlt : ((0::npre) ++ n::npost).Pairwise (· < ·) := h.lt
  have hsplit := List.pairwise_append.mp hlt
  refine increasing_place hinc pre (target::post) npre (n::npost) h.layout
    (placeBefore_append h.notMem) hfresh h.before ?_ (pairwise_place hlt hpre ?_)
  · rw [List.map_cons,List.map_cons,h.here,h.after]
  · intro a ha
    rcases List.mem_cons.mp ha with rfl | ha
    · exact hx
    · exact hx.trans ((List.pairwise_cons.mp hsplit.2.1).1 a ha)

theorem increasing_before_prev {prev : InstId} {front : List InstId} {nfront : List ℕ}
    (h : Around s b (front ++ [prev]) target post (nfront ++ [k]) n npost) (hinc : Increasing s)
    (hfresh : inst ∉ s.layout.flatten) (hgap : k+1 < n) :
    Increasing ⟨s.layout.modify b (placeBefore target inst),(inst,⟨b,(n+k)/2⟩)::s.instToPP,
      s.ranges⟩ := by
  refine h.increasing_before hinc hfresh ?_ (by omega)
  intro a ha
  have hle : a ≤ k := by
    have hfront : ((0::nfront) ++ [k]).Pairwise (· < ·) :=
      (List.pairwise_append.mp (show ((0::(nfront ++ [k])) ++ n::npost).Pairwise (· < ·) from
        h.lt)).1
    rcases List.mem_append.mp (show a ∈ (0::nfront) ++ [k] from ha) with ha | ha
    · exact ((List.pairwise_append.mp hfront).2.2 a ha k (by simp)).le
    · exact (List.mem_singleton.mp ha).le
  omega

theorem after_last (h : Around s b pre target [] npre n npost) (t : Numbering) :
    Steps s (.after target inst b) t ↔ t = s := by
  constructor
  · rintro ⟨fuel,hrun⟩
    cases fuel with
    | zero => cases hrun
    | succ fuel =>
      rw [step,h.insertAfter_last] at hrun
      cases hrun
      rfl
  · rintro rfl
    exact ⟨1,h.insertAfter_last⟩

/-- Behind an instruction that is the last of its block nothing is inserted. -/
theorem not_placed_last (h : Around s b pre target [] npre n npost) :
    ¬ Placed (.after target inst b) s := by
  rintro ⟨t,hsteps,hlayout,_⟩
  rw [(h.after_last t).mp hsteps] at hlayout
  have hblock := congrArg (fun layout : List (List InstId) => (layout[b]?).map List.length) hlayout
  dsimp only [Op.place] at hblock
  rw [List.getElem?_modify,h.layout] at hblock
  change some (pre ++ [target]).length =
    some (if b = b then placeAfter target inst (pre ++ [target]) else _).length at hblock
  rw [if_pos rfl,placeAfter_append h.notMem] at hblock
  simp at hblock

/-! In what follows the property `Q` holds wherever the instruction is placed. -/

variable {Q : Numbering → Prop}

theorem leads_after_wide {next : InstId} {rest : List InstId} {nrest : List ℕ}
    (h : Around s b pre target (next::rest) npre n (k::nrest)) (hinc : Increasing s)
    (hfresh : inst ∉ s.layout.flatten) (hgap : n+1 < k)
    (hQ : ∀ t, Places (.after target inst b) s t → Q t) :
    Leads Q (.after target inst b) s ↔ k+n < 2^32 := by
  have hrun : ∀ fuel, insertInstAfter (fuel+1) target inst b s =
      if k+n < 2^32 then .ok ⟨s.layout.modify b (placeAfter target inst),
        (inst,⟨b,(k+n)/2⟩)::s.instToPP,s.ranges⟩
      else .error .panic := by
    intro fuel
    rw [h.insertAfter_next,if_neg (by omega)]
  constructor
  · rintro ⟨t,⟨fuel,hstep⟩,_⟩
    by_contra hsum
    cases fuel with
    | zero => cases hstep
    | succ fuel =>
      rw [step,hrun,if_neg hsum] at hstep
      cases hstep
  · intro hsum
    exact ⟨_,⟨1,by rw [step,hrun,if_pos hsum]⟩,hQ _ ⟨rfl,h.increasing_after hinc hfresh hgap⟩⟩

/-- Without room the points from the target on are moved first. -/
theorem leads_after_narrow {next : InstId} {rest : List InstId} {nrest : List ℕ}
    (h : Around s b pre target (next::rest) npre n (k::nrest)) (hgap : k ≤ n+1) :
    Leads Q (.after target inst b) s ↔ n < 2^32 ∧ s.Fits ⟨b,n⟩ n ∧
      Leads Q (.after target inst b) (s.mapPoints (shift ⟨b,n⟩ n)) := by
  have hrun : ∀ fuel t, insertInstAfter (fuel+1) target inst b s = .ok t ↔ n < 2^32 ∧
      s.Fits ⟨b,n⟩ n ∧ insertInstAfter fuel target inst b (s.mapPoints (shift ⟨b,n⟩ n)) = .ok t := by
    intro fuel t
    rw [h.insertAfter_next,if_pos hgap]
    exact Numbering.recompute_bind
  constructor
  · rintro ⟨t,⟨fuel,hstep⟩,hq⟩
    cases fuel with
    | zero => cases hstep
    | succ fuel =>
      rcases (hrun fuel t).mp hstep with ⟨hn,hfits,hrest⟩
      exact ⟨hn,hfits,t,⟨fuel,hrest⟩,hq⟩
  · rintro ⟨hn,hfits,t,⟨fuel,hrest⟩,hq⟩
    exact ⟨t,⟨fuel+1,(hrun fuel t).mpr ⟨hn,hfits,hrest⟩⟩,hq⟩

theorem hasRoom_after {next : InstId} {rest : List InstId} {nrest : List ℕ}
    (h : Around s b pre target (next::rest) npre n (k::nrest)) :
    HasRoom (.after target inst b) s ↔ n+1 < k ∧ k+n < 2^32 ∨
      k = n+1 ∧ s.Fits ⟨b,n⟩ n ∧ 2*n+STEP < 2^32 := by
  have hpoint : s.point? next = some ⟨b,k⟩ := (List.cons.inj h.after).1
  have hnext : nextInstOf target (s.insts b) = some next := by
    rw [h.insts,nextInstOf_append h.notMem]
    rfl
  constructor
  · rintro ⟨next',hsome,hr⟩
    rw [hnext] at hsome
    cases hsome
    exact hr ⟨b,n⟩ ⟨b,k⟩ h.here hpoint
  · intro hr
    refine ⟨next,hnext,?_⟩
    intro p q hp hq
    rw [h.here] at hp
    rw [hpoint] at hq
    cases hp
    cases hq
    exact hr

/-- Behind an instruction that is not the last of its block. -/
theorem leads_after {next : InstId} {rest : List InstId} {nrest : List ℕ}
    (h : Around s b pre target (next::rest) npre n (k::nrest)) (hinc : Increasing s)
    (hfresh : inst ∉ s.layout.flatten) (hQ : ∀ t, Places (.after target inst b) s t → Q t) :
    Leads Q (.after target inst b) s ↔ HasRoom (.after target inst b) s := by
  have hlt := h.next_lt
  rw [h.hasRoom_after]
  by_cases hgap : k ≤ n+1
  · have hk : shiftNum n n k = n+STEP := by
      rw [shiftNum,if_pos (by omega),show k-n = 1 by omega,Nat.one_mul]
    have hn : shiftNum n n n = n := by simp [shiftNum]
    have hmoved := h.mapPoints h.pos (le_refl n)
    rw [List.map_cons,hk,hn] at hmoved
    rw [h.leads_after_narrow hgap,
      hmoved.leads_after_wide (hinc.mapPoints h.pos (le_refl n)) hfresh (by rw [STEP]; omega) hQ]
    constructor
    · rintro ⟨_,hfits,hsum⟩
      exact Or.inr ⟨by omega,hfits,by omega⟩
    · rintro (⟨hwide,_⟩ | ⟨_,hfits,hsum⟩)
      · omega
      · exact ⟨by omega,hfits,by omega⟩
  · rw [h.leads_after_wide hinc hfresh (by omega) hQ]
    constructor
    · intro hsum
      exact Or.inl ⟨by omega,hsum⟩
    · rintro (⟨_,hsum⟩ | ⟨hk,_⟩)
      · exact hsum
      · omega

theorem placed_after (h : Around s b pre target post npre n npost) (hinc : Increasing s)
    (hfresh : inst ∉ s.layout.flatten) :
    Placed (.after target inst b) s ↔ HasRoom (.after target inst b) s := by
  cases post with
  | nil =>
    have hnone : npost = [] := by simpa using h.after.symm
    subst hnone
    refine iff_of_false h.not_placed_last ?_
    rintro ⟨next,hsome,_⟩
    rw [h.insts,nextInstOf_append h.notMem] at hsome
    cases hsome
  | cons next rest => cases npost with
    | nil => simpa using h.after
    | cons k nrest => exact h.leads_after hinc hfresh fun _ => id

/-! ### Before an instruction -/

/-- Moving the points from the target on leaves the gap before it, so the retries never end. -/
theorem insertBefore_stuck {prev : InstId} {front : List InstId} {nfront : List ℕ}
    (h : Around s b (front ++ [prev]) target post (nfront ++ [k]) n npost) (hgap : n ≤ k+1) :
    insertInstBefore fuel target inst b s ≠ .ok t := by
  induction fuel generalizing s nfront k npost with
  | zero => exact fun hrun => by cases hrun
  | succ fuel ih =>
    intro hrun
    rw [h.insertBefore_prev,if_pos hgap] at hrun
    rcases Numbering.recompute_bind.mp hrun with ⟨_,_,hrest⟩
    have hmoved := h.mapPoints h.pos (le_refl n)
    have hn : shiftNum n n n = n := by simp [shiftNum]
    have hk : shiftNum n n k = k := if_neg (by have := h.prev_lt; omega)
    rw [List.map_append,List.map_singleton,hk,hn] at hmoved
    exact ih hmoved hgap hrest

theorem leads_before_prev {prev : InstId} {front : List InstId} {nfront : List ℕ}
    (h : Around s b (front ++ [prev]) target post (nfront ++ [k]) n npost) (hinc : Increasing s)
    (hfresh : inst ∉ s.layout.flatten) (hQ : ∀ t, Places (.before target inst b) s t → Q t) :
    Leads Q (.before target inst b) s ↔ k+1 < n ∧ n+k < 2^32 := by
  have hrun : k+1 < n → ∀ fuel, insertInstBefore (fuel+1) target inst b s =
      if n+k < 2^32 then .ok ⟨s.layout.modify b (placeBefore target inst),
        (inst,⟨b,(n+k)/2⟩)::s.instToPP,s.ranges⟩
      else .error .panic := by
    intro hgap fuel
    rw [h.insertBefore_prev,if_neg (by omega)]
  constructor
  · rintro ⟨t,⟨fuel,hstep⟩,_⟩
    have hgap : k+1 < n := by
      by_contra hnarrow
      exact h.insertBefore_stuck (by omega) hstep
    refine ⟨hgap,?_⟩
    by_contra hsum
    cases fuel with
    | zero => cases hstep
    | succ fuel =>
      rw [step,hrun hgap,if_neg hsum] at hstep
      cases hstep
  · rintro ⟨hgap,hsum⟩
    exact ⟨_,⟨1,by rw [step,hrun hgap,if_pos hsum]⟩,
      hQ _ ⟨rfl,h.increasing_before_prev hinc hfresh hgap⟩⟩

theorem fits_lt {npre : List ℕ} (h : Around s b pre target post npre n npost)
    (hfits : s.Fits ⟨b,n⟩ base) : base < 2^32 := by
  simpa using hfits ⟨b,n⟩ (Numbering.mem_points h.here) rfl (le_refl n)

theorem leads_first_wide (h : Around s b [] target post [] n npost) (hinc : Increasing s)
    (hfresh : inst ∉ s.layout.flatten) (hn : 1 < n)
    (hQ : ∀ t, Places (.before target inst b) s t → Q t) :
    Leads Q (.before target inst b) s ↔ s.Fits ⟨b,n⟩ (n+STEP) := by
  have hrun : ∀ fuel t, insertInstBefore (fuel+1) target inst b s = .ok t ↔ n+STEP < 2^32 ∧
      s.Fits ⟨b,n⟩ (n+STEP) ∧ (if n < 2^32 then
        Except.ok ⟨s.layout.modify b (placeBefore target inst),
          (inst,⟨b,n/2⟩)::(s.mapPoints (shift ⟨b,n⟩ (n+STEP))).instToPP,
          (s.mapPoints (shift ⟨b,n⟩ (n+STEP))).ranges⟩
        else Except.error Fault.panic) = Except.ok t := by
    intro fuel t
    rw [h.insertBefore_first,Numbering.recompute_bind,if_neg (show ¬ n ≤ 1 by omega)]
    exact Iff.rfl
  have hmoved := h.mapPoints h.pos (Nat.le_add_right n STEP)
  have hnew : shiftNum n (n+STEP) n = n+STEP := by simp [shiftNum]
  rw [hnew] at hmoved
  constructor
  · rintro ⟨t,⟨fuel,hstep⟩,_⟩
    cases fuel with
    | zero => cases hstep
    | succ fuel => exact ((hrun fuel t).mp hstep).2.1
  · intro hfits
    have hlt := h.fits_lt hfits
    refine ⟨_,⟨1,(hrun 0 _).mpr ⟨hlt,hfits,if_pos (by omega)⟩⟩,hQ _ ⟨rfl,?_⟩⟩
    refine hmoved.increasing_before (hinc.mapPoints h.pos (Nat.le_add_right n STEP)) hfresh ?_
      (by omega)
    intro a ha
    rw [List.map_nil,List.mem_singleton] at ha
    omega

/-- At point 1 there is no room at the head of the block: the points are moved again before the
next try. -/
theorem leads_first_narrow (h : Around s b [] target post [] 1 npost) :
    Leads Q (.before target inst b) s ↔ s.Fits ⟨b,1⟩ (1+STEP) ∧
      (s.mapPoints (shift ⟨b,1⟩ (1+STEP))).Fits ⟨b,1⟩ 1 ∧
      Leads Q (.before target inst b)
        ((s.mapPoints (shift ⟨b,1⟩ (1+STEP))).mapPoints (shift ⟨b,1⟩ 1)) := by
  have hrun : ∀ fuel t, insertInstBefore (fuel+1) target inst b s = .ok t ↔ 1+STEP < 2^32 ∧
      s.Fits ⟨b,1⟩ (1+STEP) ∧ 1 < 2^32 ∧ (s.mapPoints (shift ⟨b,1⟩ (1+STEP))).Fits ⟨b,1⟩ 1 ∧
      insertInstBefore fuel target inst b
        ((s.mapPoints (shift ⟨b,1⟩ (1+STEP))).mapPoints (shift ⟨b,1⟩ 1)) = .ok t := by
    intro fuel t
    rw [h.insertBefore_first,Numbering.recompute_bind,if_pos (le_refl 1)]
    exact and_congr_right fun _ => and_congr_right fun _ => Numbering.recompute_bind
  constructor
  · rintro ⟨t,⟨fuel,hstep⟩,hq⟩
    cases fuel with
    | zero => cases hstep
    | succ fuel =>
      rcases (hrun fuel t).mp hstep with ⟨_,hfits,_,hfits',hrest⟩
      exact ⟨hfits,hfits',t,⟨fuel,hrest⟩,hq⟩
  · rintro ⟨hfits,hfits',t,⟨fuel,hrest⟩,hq⟩
    exact ⟨t,⟨fuel+1,(hrun fuel t).mpr ⟨by decide,hfits,by decide,hfits',hrest⟩⟩,hq⟩

end Around

theorem fits_mapPoints {g : ProgramPoint → ProgramPoint} : (s.mapPoints g).Fits start base ↔
    ∀ pp ∈ s.points, (g pp).block = start.block → start.inst ≤ (g pp).inst →
      base + ((g pp).inst-start.inst)*STEP < 2^32 := by
  rw [Numbering.Fits,Numbering.mapPoints_points,List.forall_mem_map]

/-- The last of the three moves is the one that has to fit. -/
theorem firstRoom_one : FirstRoom s ⟨b,1⟩ ↔ s.Fits ⟨b,1⟩ (1+STEP) ∧
    (s.mapPoints (shift ⟨b,1⟩ (1+STEP))).Fits ⟨b,1⟩ 1 ∧
    ((s.mapPoints (shift ⟨b,1⟩ (1+STEP))).mapPoints (shift ⟨b,1⟩ 1)).Fits ⟨b,257⟩ (257+STEP) := by
  have hpoints : ∀ pp : ProgramPoint, pp.block = b → 1 ≤ pp.inst →
      shift ⟨b,1⟩ (1+STEP) pp = ⟨b,16*pp.inst+1⟩ ∧
      shift ⟨b,1⟩ 1 (shift ⟨b,1⟩ (1+STEP) pp) = ⟨b,256*pp.inst+1⟩ := by
    rintro ⟨c,y⟩ hc hy
    change c = b at hc
    change 1 ≤ y at hy
    subst hc
    have h1 : shiftNum 1 (1+STEP) y = 16*y+1 := by rw [shiftNum,if_pos hy,STEP]; omega
    have h2 : shiftNum 1 1 (16*y+1) = 256*y+1 := by rw [shiftNum,if_pos (by omega),STEP]; omega
    rw [shift_same,h1,shift_same,h2]
    exact ⟨rfl,rfl⟩
  have hkeep : ∀ pp : ProgramPoint, ¬ (pp.block = b ∧ 1 ≤ pp.inst) → ∀ base,
      shift ⟨b,1⟩ base pp = pp := fun pp h base => if_neg h
  rw [FirstRoom,if_pos rfl]
  constructor
  · intro hall
    have hbound : ∀ pp ∈ s.points, pp.block = b ∧ 1 ≤ pp.inst → 4096*pp.inst < 2^32+3823 :=
      fun pp hpp hin => hall pp hpp hin.1 hin.2
    refine ⟨?_,fits_mapPoints.mpr ?_,fits_mapPoints.mpr ?_⟩
    · intro pp hpp hc hle
      have hlt := hbound pp hpp ⟨hc,hle⟩
      dsimp only [STEP] at hle ⊢
      omega
    · intro pp hpp hc hle
      by_cases hin : pp.block = b ∧ 1 ≤ pp.inst
      · have hlt := hbound pp hpp hin
        rw [(hpoints pp hin.1 hin.2).1]
        dsimp only [STEP]
        omega
      · rw [hkeep pp hin] at hc hle
        exact absurd ⟨hc,hle⟩ hin
    · rw [Numbering.mapPoints_points,List.forall_mem_map]
      intro pp hpp hc hle
      by_cases hin : pp.block = b ∧ 1 ≤ pp.inst
      · have hlt := hbound pp hpp hin
        rw [(hpoints pp hin.1 hin.2).2]
        dsimp only [STEP]
        omega
      · rw [hkeep pp hin,hkeep pp hin] at hc hle
        exact absurd ⟨hc,by dsimp only at hle; omega⟩ hin
  · rintro ⟨_,_,h3⟩ pp hpp hc hle
    rw [fits_mapPoints,Numbering.mapPoints_points,List.forall_mem_map] at h3
    have hlt := h3 pp hpp
    rw [(hpoints pp hc hle).2] at hlt
    have hlast := hlt rfl (by dsimp only; omega)
    dsimp only [STEP] at hlast
    omega

theorem Around.leads_before {npre npost : List ℕ} {n : ℕ} {Q : Numbering → Prop}
    (h : Around s b pre target post npre n npost) (hinc : Increasing s)
    (hfresh : inst ∉ s.layout.flatten) (hQ : ∀ t, Places (.before target inst b) s t → Q t) :
    Leads Q (.before target inst b) s ↔ HasRoom (.before target inst b) s := by
  have hprevOf : prevInstOf target (s.insts b) = pre.getLast? := by
    rw [h.insts,prevInstOf_append h.notMem h.notMemPost]
  rw [HasRoom,hprevOf]
  rcases pre.eq_nil_or_concat' with rfl | ⟨front,prev,rfl⟩
  · have hnone : npre = [] := by simpa using h.before.symm
    subst hnone
    have hroom : (∀ q, s.point? target = some q → FirstRoom s q) ↔ FirstRoom s ⟨b,n⟩ := by
      rw [h.here]
      exact ⟨fun hr => hr ⟨b,n⟩ rfl,fun hr q hq => Option.some.inj hq ▸ hr⟩
    refine Iff.trans ?_ hroom.symm
    by_cases hn : n = 1
    · subst hn
      have hmoved := (h.mapPoints Nat.one_pos (Nat.le_add_right 1 STEP)).mapPoints Nat.one_pos
        (le_refl 1)
      have hinc' := (hinc.mapPoints (show 0 < ProgramPoint.inst ⟨b,1⟩ from Nat.one_pos)
        (Nat.le_add_right 1 STEP)).mapPoints (show 0 < ProgramPoint.inst ⟨b,1⟩ from Nat.one_pos)
        (le_refl 1)
      rw [h.leads_first_narrow,firstRoom_one,hmoved.leads_first_wide hinc' hfresh (by decide) hQ]
      exact Iff.rfl
    · rw [h.leads_first_wide hinc hfresh (by have := h.pos; omega) hQ,FirstRoom,if_neg hn]
  · have hbefore := h.before
    rw [List.map_append] at hbefore
    rcases List.map_eq_append_iff.mp hbefore.symm with ⟨nfront,nlast,rfl,_,hlast⟩
    rcases List.map_eq_singleton_iff.mp hlast with ⟨k,rfl,hk⟩
    rw [h.leads_before_prev hinc hfresh hQ,List.getLast?_concat]
    constructor
    · intro hr p q hp hq
      rw [← hk] at hp
      rw [h.here] at hq
      cases hp
      cases hq
      exact hr
    · intro hr
      exact hr ⟨b,k⟩ ⟨b,n⟩ hk.symm h.here

/-! ### Runs -/

theorem Placed.ranges (hinc : Increasing s) (ranges : List (LReg × List LiveSegment)) :
    Placed (.ranges ranges) s := ⟨_,⟨0,rfl⟩,rfl,hinc⟩

/-- An insertion that ends had room, unless it stands behind the last instruction of its block and
leaves everything as it is. -/
theorem Steps.hasRoom {op : Op} (h : Steps s op t) (hinc : Increasing s)
    (hnodup : s.layout.flatten.Nodup) (hvalid : op.Valid s) :
    HasRoom op s ∨ t = s ∧ ∃ target inst b, op = .after target inst b := by
  cases op with
  | after target inst block =>
    rcases hinc.around hnodup hvalid.1 with ⟨pre,post,npre,n,npost,hat⟩
    cases post with
    | nil =>
      have hnone : npost = [] := by simpa using hat.after.symm
      subst hnone
      exact Or.inr ⟨(hat.after_last t).mp h,target,inst,block,rfl⟩
    | cons next rest => cases npost with
      | nil => simpa using hat.after
      | cons k nrest =>
        exact Or.inl ((hat.leads_after hinc hvalid.2 fun _ _ => trivial).mp ⟨t,h,trivial⟩)
  | before target inst block =>
    rcases hinc.around hnodup hvalid.1 with ⟨pre,post,npre,n,npost,hat⟩
    exact Or.inl ((hat.leads_before hinc hvalid.2 fun _ _ => trivial).mp ⟨t,h,trivial⟩)
  | ranges ranges => exact Or.inl trivial

/-- An insertion succeeds exactly when it has room. -/
theorem placed_iff {op : Op} (hinc : Increasing s) (hnodup : s.layout.flatten.Nodup)
    (hvalid : op.Valid s) : Placed op s ↔ HasRoom op s := by
  cases op with
  | after target inst block =>
    rcases hinc.around hnodup hvalid.1 with ⟨pre,post,npre,n,npost,h⟩
    exact h.placed_after hinc hvalid.2
  | before target inst block =>
    rcases hinc.around hnodup hvalid.1 with ⟨pre,post,npre,n,npost,h⟩
    exact h.leads_before hinc hvalid.2 fun _ => id
  | ranges ranges => exact iff_of_true (Placed.ranges hinc ranges) trivial

theorem bind_eq_ok {α β : Type} {m : Except Fault α} {g : α → Except Fault β} {b : β} :
    m >>= g = .ok b ↔ ∃ a, m = .ok a ∧ g a = .ok b := by
  cases m with
  | error e => exact iff_of_false (fun h => by cases h) fun ⟨_,h,_⟩ => by cases h
  | ok a =>
    constructor
    · exact fun h => ⟨a,rfl,h⟩
    · rintro ⟨_,⟨⟩,h⟩
      exact h

theorem bind_mono {α : Type} {m : Except Fault α} {f g : α → Except Fault Numbering}
    (h : ∀ a, f a = .ok t → g a = .ok t) : m >>= f = .ok t → m >>= g = .ok t := by
  cases m with
  | error e => exact id
  | ok a => exact h a

/-- One more renumbering does not change a run that ended. -/
theorem insertInstAfter_succ {after : InstId} : insertInstAfter fuel after inst b s = .ok t →
    insertInstAfter (fuel+1) after inst b s = .ok t := by
  induction fuel generalizing s with
  | zero => exact fun h => by cases h
  | succ fuel ih =>
    rw [insertInstAfter,insertInstAfter]
    refine bind_mono fun p => ?_
    cases nextInstOf after (s.insts b) with
    | none => exact id
    | some next =>
      refine bind_mono fun q => bind_mono fun room => ?_
      cases room with
      | some pp => exact id
      | none => exact bind_mono fun _ => ih

theorem insertInstBefore_succ {before : InstId} : insertInstBefore fuel before inst b s = .ok t →
    insertInstBefore (fuel+1) before inst b s = .ok t := by
  induction fuel generalizing s with
  | zero => exact fun h => by cases h
  | succ fuel ih =>
    rw [insertInstBefore,insertInstBefore]
    refine bind_mono fun p => bind_mono fun prev => bind_mono fun room => ?_
    cases room with
    | some pp => exact id
    | none => exact bind_mono fun _ => ih

theorem step_mono {op : Op} {fuel' : ℕ} (hle : fuel ≤ fuel') (h : step fuel op s = .ok t) :
    step fuel' op s = .ok t := by
  induction fuel', hle using Nat.le_induction with
  | base => exact h
  | succ fuel' _ ih => cases op with
    | after target inst block => exact insertInstAfter_succ ih
    | before target inst block => exact insertInstBefore_succ ih
    | ranges ranges => exact ih

theorem Steps.unique {op : Op} {u : Numbering} (h : Steps s op t) (h' : Steps s op u) : t = u := by
  rcases h with ⟨fuel,hrun⟩
  rcases h' with ⟨fuel',hrun'⟩
  have h1 := step_mono (le_max_left fuel fuel') hrun
  have h2 := step_mono (le_max_right fuel fuel') hrun'
  exact Except.ok.inj (h1.symm.trans h2)

theorem flatten_modify {f : List InstId → List InstId} {layout : List (List InstId)}
    {insts : List InstId} (hb : layout[b]? = some insts) (hf : (f insts).Perm (inst::insts)) :
    (layout.modify b f).flatten.Perm (inst::layout.flatten) := by
  induction layout generalizing b with
  | nil => cases hb
  | cons first rest ih => cases b with
    | zero =>
      cases hb
      exact hf.append_right rest.flatten
    | succ b =>
      have hrest := (ih hb).append_left first
      exact hrest.trans List.perm_middle

/-- A new instruction keeps the instructions of the layout distinct. -/
theorem nodup_place {op : Op} (hnodup : s.layout.flatten.Nodup) (hvalid : op.Valid s) :
    (op.place s.layout).flatten.Nodup := by
  have hplace : ∀ {target inst : InstId} {b : BasicBlockId} {f : List InstId → List InstId},
      target ∈ s.insts b → inst ∉ s.layout.flatten →
      (∀ pre post, target ∉ pre → (f (pre ++ target::post)).Perm (inst::(pre ++ target::post))) →
      (s.layout.modify b f).flatten.Nodup := by
    intro target inst b f hmem hfresh hf
    cases hb : s.layout[b]? with
    | none => simp [Numbering.insts,hb] at hmem
    | some insts =>
      rw [Numbering.insts,hb] at hmem
      rcases List.append_of_mem hmem with ⟨pre,post,hsplit⟩
      change insts = pre ++ target::post at hsplit
      subst hsplit
      have hblock := (List.nodup_flatten.mp hnodup).1 _ (List.mem_of_getElem? hb)
      have hnot : target ∉ pre := fun hin =>
        (List.disjoint_of_nodup_append hblock) hin List.mem_cons_self
      rw [(flatten_modify hb (hf pre post hnot)).nodup_iff]
      exact List.nodup_cons.mpr ⟨hfresh,hnodup⟩
  cases op with
  | after target inst block =>
    refine hplace hvalid.1 hvalid.2 ?_
    intro pre post hnot
    have hlist : pre ++ target::inst::post = (pre ++ [target]) ++ inst::post := by simp
    rw [placeAfter_append hnot,hlist]
    refine List.perm_middle.trans ?_
    rw [List.append_assoc]
    exact List.Perm.refl _
  | before target inst block =>
    refine hplace hvalid.1 hvalid.2 ?_
    intro pre post hnot
    rw [placeBefore_append hnot]
    exact List.perm_middle
  | ranges ranges => exact hnodup

/-- Every insertion of the run has room in the state it meets. -/
def RunMeets : List Op → Numbering → Prop
  | [], _ => True
  | op::rest, s => op.Valid s → HasRoom op s ∧ ∀ t, Steps s op t → RunMeets rest t

theorem runOk_iff {ops : List Op} (hinc : Increasing s) (hnodup : s.layout.flatten.Nodup) :
    RunOk ops s ↔ RunMeets ops s := by
  induction ops generalizing s with
  | nil => exact Iff.rfl
  | cons op rest ih =>
    rw [RunOk,RunMeets]
    refine forall_congr' fun hvalid => ?_
    have hplaced := placed_iff hinc hnodup hvalid
    have hnext : ∀ u : Numbering, u.layout = op.place s.layout → u.layout.flatten.Nodup := fun u hu =>
      hu ▸ nodup_place hnodup hvalid
    constructor
    · rintro ⟨u,hsteps,hlayout,hincu,hrest⟩
      refine ⟨hplaced.mp ⟨u,hsteps,hlayout,hincu⟩,?_⟩
      intro v hv
      rw [hv.unique hsteps]
      exact (ih hincu (hnext u hlayout)).mp hrest
    · rintro ⟨hroom,hrest⟩
      rcases hplaced.mpr hroom with ⟨u,hsteps,hlayout,hincu⟩
      exact ⟨u,hsteps,hlayout,hincu,(ih hincu (hnext u hlayout)).mpr (hrest u hsteps)⟩

/-! ### The first numbering -/

variable {layout : List (List InstId)} {pts : List (InstId × ProgramPoint)}

/-- The points of a block of `n` instructions. -/
def steps (start n : ℕ) : List ℕ := (List.range n).map fun k => start + k*STEP

theorem steps_succ (start n : ℕ) : steps start (n+1) = start::steps (start+STEP) n := by
  rw [steps,List.range_succ_eq_map,List.map_cons,List.map_map,Nat.zero_mul,Nat.add_zero]
  congr 1
  apply List.map_congr_left
  intro k _
  show start + (k+1)*STEP = start+STEP + k*STEP
  ring

theorem numberBlock_eq_ok {block start : ℕ} {insts : List InstId} (hstart : start < 2^32) :
    numberBlock block start insts = .ok pts ↔ start + insts.length*STEP < 2^32 ∧
      pts = insts.zip ((steps start insts.length).map fun n => ⟨block,n⟩) := by
  induction insts generalizing start pts with
  | nil =>
    constructor
    · intro h
      cases h
      exact ⟨by simpa using hstart,rfl⟩
    · rintro ⟨_,rfl⟩
      rfl
  | cons i rest ih =>
    rw [numberBlock,u32,List.length_cons,steps_succ]
    by_cases hnext : start+STEP < 2^32
    · rw [if_pos hnext]
      show (numberBlock block (start+STEP) rest >>= fun others => _) = _ ↔ _
      constructor
      · intro h
        cases hrest : numberBlock block (start+STEP) rest with
        | error e =>
          rw [hrest] at h
          cases h
        | ok others =>
          rw [hrest] at h
          cases h
          rcases (ih hnext).mp hrest with ⟨hlen,rfl⟩
          refine ⟨?_,rfl⟩
          rw [Nat.add_mul,Nat.one_mul]
          omega
      · rintro ⟨hlen,rfl⟩
        rw [Nat.add_mul,Nat.one_mul] at hlen
        rw [(ih hnext).mpr ⟨by omega,rfl⟩]
        rfl
    · rw [if_neg hnext]
      refine iff_of_false (fun h => by cases h) ?_
      rintro ⟨hlen,_⟩
      rw [Nat.add_mul,Nat.one_mul] at hlen
      omega

/-- The points of a function whose instructions were never renumbered. -/
def numbering : ℕ → List (List InstId) → List (InstId × ProgramPoint)
  | _, [] => []
  | block, insts::rest =>
    insts.zip ((steps STEP insts.length).map fun n => ⟨block,n⟩) ++ numbering (block+1) rest

/-- The blocks and the points of their ends are numbered in 32 bits. -/
def Small (layout : List (List InstId)) : Prop :=
  layout.length ≤ 2^32 ∧ ∀ insts ∈ layout, (insts.length+1)*STEP < 2^32

theorem numberBlocks_eq_ok {block : ℕ} (hblock : block ≤ 2^32) :
    numberBlocks block layout = .ok pts ↔ block + layout.length ≤ 2^32 ∧
      (∀ insts ∈ layout, (insts.length+1)*STEP < 2^32) ∧ pts = numbering block layout := by
  induction layout generalizing block pts with
  | nil =>
    constructor
    · intro h
      cases h
      exact ⟨by simpa using hblock,by simp,rfl⟩
    · rintro ⟨_,_,rfl⟩
      rfl
  | cons insts rest ih =>
    rw [numberBlocks,u32,List.length_cons,List.forall_mem_cons]
    by_cases hlt : block < 2^32
    · rw [if_pos hlt]
      show (numberBlock block STEP insts >>= fun here => _) = _ ↔ _
      constructor
      · intro h
        cases hhere : numberBlock block STEP insts with
        | error e =>
          rw [hhere] at h
          cases h
        | ok here =>
          rw [hhere] at h
          change (numberBlocks (block+1) rest >>= fun others => _) = _ at h
          cases hrest : numberBlocks (block+1) rest with
          | error e =>
            rw [hrest] at h
            cases h
          | ok others =>
            rw [hrest] at h
            cases h
            rcases (numberBlock_eq_ok (by decide)).mp hhere with ⟨hlen,rfl⟩
            rcases (ih (by omega)).mp hrest with ⟨hcount,hsmall,rfl⟩
            exact ⟨by omega,⟨by rw [Nat.add_mul]; omega,hsmall⟩,rfl⟩
      · rintro ⟨hcount,⟨hlen,hsmall⟩,rfl⟩
        rw [Nat.add_mul] at hlen
        rw [(numberBlock_eq_ok (by decide)).mpr ⟨by omega,rfl⟩]
        show (numberBlocks (block+1) rest >>= fun others => _) = _
        rw [(ih (by omega)).mpr ⟨by omega,hsmall,rfl⟩]
        rfl
    · rw [if_neg hlt]
      refine iff_of_false (fun h => by cases h) ?_
      rintro ⟨hcount,_⟩
      omega

theorem lookup_zip_none {insts : List InstId} (h : i ∉ insts) (pps : List ProgramPoint) :
    (insts.zip pps).lookup i = none := by
  induction insts generalizing pps with
  | nil => rfl
  | cons j rest ih =>
    rw [List.mem_cons,not_or] at h
    cases pps with
    | nil => rfl
    | cons pp pps =>
      rw [List.zip_cons_cons,List.lookup_cons,beq_eq_false_iff_ne.mpr h.1]
      exact ih h.2 pps

theorem map_lookup_zip {insts : List InstId} (h : insts.Nodup) {pps : List ProgramPoint}
    (hlen : insts.length = pps.length) :
    insts.map (fun i => (insts.zip pps).lookup i) = pps.map some := by
  induction insts generalizing pps with
  | nil =>
    rw [List.length_eq_zero_iff.mp hlen.symm]
    rfl
  | cons i rest ih =>
    rw [List.nodup_cons] at h
    cases pps with
    | nil => cases hlen
    | cons pp pps =>
      have hrest := ih h.2 (Nat.succ.inj hlen)
      rw [List.map_cons,List.map_cons,List.zip_cons_cons,List.lookup_cons,beq_self_eq_true,
        ← hrest]
      congr 1
      apply List.map_congr_left
      intro j hj
      have hne : j ≠ i := fun heq => h.1 (heq ▸ hj)
      rw [List.lookup_cons,beq_eq_false_iff_ne.mpr hne]

theorem lookup_numbering {block k : ℕ} {insts : List InstId} (hnodup : layout.flatten.Nodup)
    (hk : layout[k]? = some insts) :
    insts.map (fun i => (numbering block layout).lookup i) =
      (steps STEP insts.length).map fun n => some ⟨block+k,n⟩ := by
  induction layout generalizing block k with
  | nil => cases hk
  | cons first rest ih =>
    rw [List.flatten_cons] at hnodup
    cases k with
    | zero =>
      cases hk
      have hzip := map_lookup_zip (List.Nodup.of_append_left hnodup)
        (show insts.length = ((steps STEP insts.length).map fun n =>
          (⟨block,n⟩ : ProgramPoint)).length by simp [steps])
      rw [List.map_map] at hzip
      rw [Nat.add_zero]
      refine Eq.trans ?_ hzip
      apply List.map_congr_left
      intro i hi
      have hin := List.mem_map_of_mem (f := fun i => (insts.zip ((steps STEP insts.length).map
        fun n => (⟨block,n⟩ : ProgramPoint))).lookup i) hi
      rw [hzip] at hin
      rcases List.mem_map.mp hin with ⟨n,_,hn⟩
      rw [numbering,List.lookup_append,← hn]
      rfl
    | succ k =>
      have hrest : insts.map (fun i => (numbering (block+1) rest).lookup i) =
          (steps STEP insts.length).map fun n => some ⟨block+1+k,n⟩ :=
        ih (List.Nodup.of_append_right hnodup) hk
      rw [Nat.add_assoc,Nat.add_comm 1 k] at hrest
      rw [← hrest]
      apply List.map_congr_left
      intro i hi
      have hnot : i ∉ first := fun hin => (List.disjoint_of_nodup_append hnodup) hin
        (List.mem_flatten.mpr ⟨insts,List.mem_of_getElem? hk,hi⟩)
      rw [numbering,List.lookup_append,lookup_zip_none hnot]
      rfl

theorem increasing_numbering (hnodup : layout.flatten.Nodup)
    (ranges : List (LReg × List LiveSegment)) :
    Increasing ⟨layout,numbering 0 layout,ranges⟩ := by
  intro b insts hb
  refine ⟨steps STEP insts.length,?_,?_⟩
  · have hlookup : insts.map (fun i => (numbering 0 layout).lookup i) =
        (steps STEP insts.length).map fun n => some ⟨0+b,n⟩ := lookup_numbering hnodup hb
    rw [Nat.zero_add] at hlookup
    exact hlookup
  · rw [List.pairwise_cons,steps,List.pairwise_map]
    constructor
    · intro n hn
      rcases List.mem_map.mp hn with ⟨k,_,rfl⟩
      exact Nat.lt_of_lt_of_le (by decide : 0 < STEP) (Nat.le_add_right STEP _)
    · refine List.pairwise_lt_range.imp ?_
      intro k m hlt
      rw [STEP]
      omega

/-! ### Whole runs -/

/-- The function is numbered, and every insertion of the run ends, places its instruction and leaves
increasing points. -/
def Succeeds (layout : List (List InstId)) (ranges : List (LReg × List LiveSegment))
    (ops : List Op) : Prop :=
  ∃ pts, numberBlocks 0 layout = .ok pts ∧ Increasing ⟨layout,pts,ranges⟩ ∧
    RunOk ops ⟨layout,pts,ranges⟩

/-- The numbering of a function rises along its blocks through a sequence of insertions when the
function is small and every insertion has room in the state it meets. -/
theorem insertions_succeed_iff (hnodup : layout.flatten.Nodup)
    (ranges : List (LReg × List LiveSegment)) (ops : List Op) :
    Succeeds layout ranges ops ↔
      Small layout ∧ RunMeets ops ⟨layout,numbering 0 layout,ranges⟩ := by
  have hinc := increasing_numbering hnodup ranges
  have hstart : ∀ pts, numberBlocks 0 layout = .ok pts ↔ Small layout ∧ pts = numbering 0 layout := by
    intro pts
    rw [numberBlocks_eq_ok (Nat.zero_le _),Nat.zero_add]
    exact and_assoc.symm
  constructor
  · rintro ⟨pts,hpts,_,hrun⟩
    rcases (hstart pts).mp hpts with ⟨hsmall,rfl⟩
    exact ⟨hsmall,(runOk_iff hinc hnodup).mp hrun⟩
  · rintro ⟨hsmall,hrun⟩
    exact ⟨_,(hstart _).mpr ⟨hsmall,rfl⟩,hinc,(runOk_iff hinc hnodup).mpr hrun⟩

theorem insertions_succeed_iff_two : Succeeds [[0,1]] [] [.before 1 2 0] ↔
    Small [[0,1]] ∧ RunMeets [.before 1 2 0] ⟨[[0,1]],numbering 0 [[0,1]],[]⟩ :=
  insertions_succeed_iff (by decide) [] [.before 1 2 0]

/-- Five reloads before one instruction: four halve the gap to the previous one, and the fifth
renumbers for ever. -/
theorem fifth_reload_stuck : ¬ ∀ (layout : List (List InstId)) ranges ops,
    layout.flatten.Nodup → Succeeds layout ranges ops := by
  intro h
  rcases h [[0,1]] [] [.before 1 2 0,.before 1 3 0,.before 1 4 0,.before 1 5 0,.before 1 6 0]
    (by decide) with ⟨pts,hpts,hinc,hrun⟩
  cases hpts
  have h1 := ((runOk_iff hinc (by decide)).mp hrun (by decide)).2 _ ⟨1,rfl⟩
  have h2 := (h1 (by decide)).2 _ ⟨1,rfl⟩
  have h3 := (h2 (by decide)).2 _ ⟨1,rfl⟩
  have h4 := (h3 (by decide)).2 _ ⟨1,rfl⟩
  have h5 := (h4 (by decide)).1 ⟨0,31⟩ ⟨0,32⟩ rfl rfl
  exact absurd h5.1 (by decide)

end ProgramPoints
end Codegen
end OlaLang
