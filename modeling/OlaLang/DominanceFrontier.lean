import OlaLang.Dominators

/-! The dominance frontiers: what the recursion over the tree computes, and when that is the frontier
of the immediate dominators it is given. -/
namespace OlaLang
namespace Codegen
namespace DominatorTree

open DepthFirstTree (Anc)

variable {B : Type}

abbrev Frontier (B : Type) := B → Option (List B)

/-- Some block below `x` leads to `w`, and the immediate dominator of `w` is not on the path from `x`
to that block: this is what the recursion collects. -/
def Collected (g : Cfg B) (idom : B → Option B) (x w : B) : Prop :=
  ∃ u, Anc idom x u ∧ w ∈ g.succs u ∧ ∀ z, Anc idom x z → Anc idom z u → idom w ≠ some z

/-- `x` dominates a predecessor of `w` in the tree and does not strictly dominate `w`. -/
def InFrontier (g : Cfg B) (idom : B → Option B) (x w : B) : Prop :=
  (∃ u ∈ g.preds w, Anc idom x u) ∧ ¬ (Anc idom x w ∧ x ≠ w)

/-- The frontier of `y` has been computed. -/
def Done (g : Cfg B) (idom : B → Option B) (frontier : Frontier B) (y : B) : Prop :=
  ∃ l, frontier y = some l ∧ ∀ w, w ∈ l ↔ Collected g idom y w

/-- Where there is a frontier below `x`, all frontiers below that block have been computed. -/
def Ready (g : Cfg B) (idom : B → Option B) (frontier : Frontier B) (x : B) : Prop :=
  ∀ z, Anc idom x z → (frontier z).isSome → ∀ y, Anc idom z y → Done g idom frontier y

section Ready

variable {g : Cfg B} {idom : B → Option B} {frontier : Frontier B} {x k : B}

theorem Ready.congr {frontier' : Frontier B} (hr : Ready g idom frontier k)
    (heq : ∀ z, Anc idom k z → frontier' z = frontier z) : Ready g idom frontier' k := by
  intro z hz hsome y hy
  rw [heq z hz] at hsome
  obtain ⟨l,hl,hiff⟩ := hr z hz hsome y hy
  exact ⟨l,(heq y (hz.trans hy)).trans hl,hiff⟩

theorem Ready.of_done (hdone : ∀ y, Anc idom x y → Done g idom frontier y) :
    Ready g idom frontier x := fun _ hz _ y hy => hdone y (hz.trans hy)

/-- What a call for `x` does: all frontiers below `x` are computed, nothing else changes. -/
def CallSpec (g : Cfg B) (c : Context B) (call : Frontier B → Option (Frontier B)) (x : B) : Prop :=
  ∀ frontier, Ready g c.idom frontier x → ∃ frontier', call frontier = some frontier' ∧
    (∀ y, Anc c.idom x y → Done g c.idom frontier' y) ∧
    ∀ z, ¬ Anc c.idom x z → frontier' z = frontier z

/-- The calls for children of the entry leave it to the last call to do the rest. -/
theorem foldlM_roots {c : Context B} {ks : List B} (hks : ∀ k ∈ ks, c.idom k = some x)
    {call : B → Frontier B → Option (Frontier B)} (hcall : ∀ k ∈ ks, CallSpec g c (call k) k)
    (hready : Ready g c.idom frontier x) (hnone : ∀ z, ¬ Anc c.idom x z → frontier z = none) :
    ∃ frontier', ks.foldlM (fun frontier child => call child frontier) frontier = some frontier' ∧
      Ready g c.idom frontier' x ∧ ∀ z, ¬ Anc c.idom x z → frontier' z = none := by
  induction ks generalizing frontier with
  | nil => exact ⟨frontier,rfl,hready,hnone⟩
  | cons k ks ih =>
    have hk := hks k List.mem_cons_self
    have hbelow : Ready g c.idom frontier k := fun z hz => hready z (.head hk hz)
    obtain ⟨f,hstep,hdone,hout⟩ := hcall k List.mem_cons_self frontier hbelow
    have hready' : Ready g c.idom f x := by
      intro z hz hsome y hy
      by_cases hky : Anc c.idom k y
      · exact hdone y hky
      · have hkz : ¬ Anc c.idom k z := fun h => hky (h.trans hy)
        rw [hout z hkz] at hsome
        obtain ⟨l,hl,hiff⟩ := hready z hz hsome y hy
        exact ⟨l,(hout y hky).trans hl,hiff⟩
    obtain ⟨f',hloop,hr,hn⟩ := ih (fun j hj => hks j (List.mem_cons_of_mem k hj))
      (fun j hj => hcall j (List.mem_cons_of_mem k hj)) hready' fun z hz =>
        (hout z fun hkz => hz (.head hk hkz)).trans (hnone z hz)
    refine ⟨f',?_,hr,hn⟩
    rw [List.foldlM_cons,hstep]
    exact hloop

end Ready

variable [DecidableEq B]

/-- `frontier.get_mut(&x).unwrap().insert(y)` where `x` is not the immediate dominator of `y`. -/
def offer (c : Context B) (x : B) (frontier : Frontier B) (y : B) : Option (Frontier B) :=
  if c.idom y = some x then some frontier
  else (frontier x).map fun l => Function.update frontier x (some (l.insert y))

/-- One turn of the loop over the children of `x`, with the recursive call. -/
def childTurn (h : SetOrder B) (c : Context B) (call : B → Frontier B → Option (Frontier B)) (x : B)
    (frontier : Frontier B) (child : B) : Option (Frontier B) := do
  let frontier ← call child frontier
  let ys ← frontier child
  (h.order ys).foldlM (offer c x) frontier

/-- One turn of the loop over the successors of `x`, which has the loop over the children inside. -/
def succTurn (g : Cfg B) (h : SetOrder B) (c : Context B)
    (call : B → Frontier B → Option (Frontier B)) (x : B) (frontier : Frontier B) (succ : B) :
    Option (Frontier B) := do
  let frontier ← offer c x frontier succ
  (childrenOf g h c x).foldlM (childTurn h c call x) frontier

def computeDomFrontierOf (g : Cfg B) (h : SetOrder B) (c : Context B) :
    ℕ → B → Frontier B → Option (Frontier B)
  | 0, _, _ => none
  | fuel+1, x, frontier =>
    if (frontier x).isSome then some frontier
    else (g.succs x).foldlM (succTurn g h c (computeDomFrontierOf g h c fuel) x)
      (Function.update frontier x (some []))

/-- `compute_dom_frontier`: the children of the entry, then the entry. -/
def computeDomFrontier (g : Cfg B) (h : SetOrder B) (c : Context B) : Option (Frontier B) := do
  let frontier ← (childrenOf g h c g.entry).foldlM
    (fun frontier child => computeDomFrontierOf g h c g.fuel child frontier) fun _ => none
  computeDomFrontierOf g h c g.fuel g.entry frontier

section Tree

variable {g : Cfg B} {c₀ : Context B} {idom : B → Option B} {x y w k : B}

theorem Computed.num_le (C : Computed g c₀ idom) (h : Anc idom x y) :
    c₀.vertex.idxOf x ≤ c₀.vertex.idxOf y := by
  induction h with
  | refl => exact le_refl _
  | tail _ hstep ih => exact ih.trans (Nat.le_of_lt (C.idom_spec hstep).2.2.2)

theorem Computed.antisymm (C : Computed g c₀ idom) (h : Anc idom x y) (h' : Anc idom y x) :
    x = y := by
  by_contra hne
  obtain ⟨p,hp,hxp⟩ := h.cases_parent hne
  have hlt := lt_of_le_of_lt (C.num_le hxp) (C.idom_spec hp).2.2.2
  exact absurd (C.num_le h') (not_le.mpr hlt)

theorem Computed.not_anc_child (C : Computed g c₀ idom) (hk : idom k = some x) : ¬ Anc idom k x :=
  fun h => absurd (C.num_le h) (not_le.mpr (C.idom_spec hk).2.2.2)

theorem Computed.anc_entry (C : Computed g c₀ idom) (hw : w ∈ c₀.vertex) :
    Anc idom g.entry w := by
  induction hn : c₀.vertex.idxOf w using Nat.strong_induction_on generalizing w with
  | _ n ih =>
    by_cases hne : w = g.entry
    · rw [hne]
      exact .refl
    · obtain ⟨s,-,hcases⟩ := C.spec w hw hne
      obtain ⟨p,hp⟩ : ∃ p, idom w = some p := by
        rcases hcases with h | ⟨y,-,-,-,-,-,-,h⟩
        · exact ⟨s,h⟩
        · exact ⟨y,h⟩
      obtain ⟨-,hmem,-,hlt⟩ := C.idom_spec hp
      exact (ih _ (hn ▸ hlt) hmem rfl).tail hp

theorem Computed.reached_of_anc (C : Computed g c₀ idom) (h : Anc idom x y)
    (hx : x ∈ c₀.vertex) : y ∈ c₀.vertex := by
  cases h with
  | refl => exact hx
  | tail _ hstep => exact (C.idom_spec hstep).1

/-- The recursion: a block collects its successors and what its children collect, without the blocks
it is the immediate dominator of. -/
theorem Computed.collected_iff (C : Computed g c₀ idom) :
    Collected g idom x w ↔ idom w ≠ some x ∧
      (w ∈ g.succs x ∨ ∃ k, idom k = some x ∧ Collected g idom k w) := by
  constructor
  · rintro ⟨u,hxu,hw,hpath⟩
    refine ⟨hpath x .refl hxu,?_⟩
    by_cases hne : x = u
    · exact .inl (hne ▸ hw)
    · obtain ⟨k,hk,hku⟩ := hxu.exists_child hne
      exact .inr ⟨k,hk,u,hku,hw,fun z hkz => hpath z (.head hk hkz)⟩
  · rintro ⟨hne,hw | ⟨k,hk,u,hku,hw,hpath⟩⟩
    · refine ⟨x,.refl,hw,fun z hxz hzx => ?_⟩
      rw [← C.antisymm hxz hzx]
      exact hne
    · refine ⟨u,.head hk hku,hw,fun z hxz hzu => ?_⟩
      by_cases hxz' : x = z
      · rw [← hxz']
        exact hne
      · -- the child of `x` above `z` is `k`, because both are above `u`
        obtain ⟨k',hk',hkz⟩ := hxz.exists_child hxz'
        have hsame : k' = k := by
          by_contra hkk
          have hku' : Anc idom k' u := hkz.trans hzu
          rcases hku'.total hku with h | h
          · obtain ⟨p,hp,hkp⟩ := h.cases_parent hkk
            cases hk.symm.trans hp
            exact C.not_anc_child hk' hkp
          · obtain ⟨p,hp,hkp⟩ := h.cases_parent (Ne.symm hkk)
            cases hk'.symm.trans hp
            exact C.not_anc_child hk hkp
        exact hpath z (hsame ▸ hkz) hzu

/-- What is collected is the frontier exactly when every edge ends below an immediate dominator that
is above its start. -/
theorem Computed.collected_eq_inFrontier_iff (C : Computed g c₀ idom) :
    (∀ x ∈ c₀.vertex, ∀ w ∈ g.order, (Collected g idom x w ↔ InFrontier g idom x w)) ↔
      ∀ u ∈ c₀.vertex, ∀ w ∈ g.succs u, w ≠ g.entry → ∃ d, idom w = some d ∧ Anc idom d u := by
  have hpreds : ∀ u ∈ c₀.vertex, ∀ w ∈ g.order, (u ∈ g.preds w ↔ w ∈ g.succs u) :=
    fun u hu w hw => g.mem_preds u (C.start.mem_order u hu) w hw
  have hidom : ∀ w ∈ c₀.vertex, w ≠ g.entry → ∃ d, idom w = some d := fun w hw hne => by
    obtain ⟨p,hp,-⟩ := (C.anc_entry hw).cases_parent (Ne.symm hne)
    exact ⟨p,hp⟩
  constructor
  · intro hall u hu w hw hne
    obtain ⟨d,hd⟩ := hidom w (C.start.tree.reached_succ u w hu hw) hne
    refine ⟨d,hd,?_⟩
    by_contra hnot
    have hcollected : Collected g idom g.entry w := ⟨u,C.anc_entry hu,hw,fun z _ hzu heq => by
      cases hd.symm.trans heq
      exact hnot hzu⟩
    have hworder := C.start.mem_order w (C.idom_spec hd).1
    have hfrontier := (hall g.entry C.start.tree.root_reached w hworder).mp hcollected
    exact hfrontier.2 ⟨C.anc_entry (C.idom_spec hd).1,Ne.symm hne⟩
  · intro hedges x hx w hworder
    constructor
    · rintro ⟨u,hxu,hw,hpath⟩
      have hu := C.reached_of_anc hxu hx
      refine ⟨⟨u,(hpreds u hu w hworder).mpr hw,hxu⟩,fun ⟨hxw,hne⟩ => ?_⟩
      obtain ⟨p,hp,hxp⟩ := hxw.cases_parent hne
      have hwentry : w ≠ g.entry := (C.reached w p hp).2
      obtain ⟨d,hd,hdu⟩ := hedges u hu w hw hwentry
      cases hp.symm.trans hd
      exact hpath p hxp hdu hp
    · rintro ⟨⟨u,hpred,hxu⟩,hnot⟩
      have hu := C.reached_of_anc hxu hx
      refine ⟨u,hxu,(hpreds u hu w hworder).mp hpred,fun z hxz _ hz => hnot ⟨hxz.tail hz,?_⟩⟩
      rintro rfl
      exact C.not_anc_child hz hxz

end Tree

/-! ### The recursion -/

section Recursion

variable {g : Cfg B} {h : SetOrder B} {c₀ c : Context B} {x y k : B} {frontier : Frontier B}
  {l : List B}

/-- The frontier of `x` is being collected in `l`. -/
structure Collecting (g : Cfg B) (idom : B → Option B) (x : B) (frontier : Frontier B) (l : List B) :
    Prop where
  list : frontier x = some l
  sound : ∀ w ∈ l, Collected g idom x w
  ready : ∀ k, idom k = some x → Ready g idom frontier k

/-- One block is offered. -/
theorem offer_spec (C : Computed g c₀ c.idom) (hc : Collecting g c.idom x frontier l)
    (hy : c.idom y ≠ some x → Collected g c.idom x y) :
    ∃ frontier' l', offer c x frontier y = some frontier' ∧ Collecting g c.idom x frontier' l' ∧
      l ⊆ l' ∧ (c.idom y ≠ some x → y ∈ l') ∧ ∀ z, z ≠ x → frontier' z = frontier z := by
  by_cases hidom : c.idom y = some x
  · exact ⟨frontier,l,by rw [offer,if_pos hidom],hc,List.Subset.refl l,
      fun hne => absurd hidom hne,fun _ _ => rfl⟩
  · have hother : ∀ z, z ≠ x →
        Function.update frontier x (some (l.insert y)) z = frontier z := fun z hz =>
      Function.update_of_ne hz _ _
    refine ⟨Function.update frontier x (some (l.insert y)),l.insert y,?_,⟨?_,?_,?_⟩,?_,?_,hother⟩
    · rw [offer,if_neg hidom,hc.list,Option.map_some]
    · exact Function.update_self _ _ _
    · intro w hw
      rcases List.mem_insert_iff.mp hw with rfl | hw
      · exact hy hidom
      · exact hc.sound w hw
    · intro k hk
      refine (hc.ready k hk).congr fun z hkz => hother z fun heq => ?_
      exact C.not_anc_child hk (heq ▸ hkz)
    · exact fun w hw => List.mem_insert_iff.mpr (.inr hw)
    · exact fun _ => List.mem_insert_iff.mpr (.inl rfl)

theorem foldlM_offer (C : Computed g c₀ c.idom) (ys : List B)
    (hc : Collecting g c.idom x frontier l)
    (hys : ∀ y ∈ ys, c.idom y ≠ some x → Collected g c.idom x y) :
    ∃ frontier' l', ys.foldlM (offer c x) frontier = some frontier' ∧
      Collecting g c.idom x frontier' l' ∧ l ⊆ l' ∧ (∀ y ∈ ys, c.idom y ≠ some x → y ∈ l') ∧
      ∀ z, z ≠ x → frontier' z = frontier z := by
  induction ys generalizing frontier l with
  | nil => exact ⟨frontier,l,rfl,hc,List.Subset.refl l,by simp,fun _ _ => rfl⟩
  | cons y ys ih =>
    obtain ⟨f₁,l₁,hstep,hc₁,hsub₁,hy,hother₁⟩ := offer_spec C hc (hys y List.mem_cons_self)
    obtain ⟨f₂,l₂,hloop,hc₂,hsub₂,hall,hother₂⟩ :=
      ih hc₁ fun z hz => hys z (List.mem_cons_of_mem y hz)
    refine ⟨f₂,l₂,?_,hc₂,List.Subset.trans hsub₁ hsub₂,fun z hz hne => ?_,
      fun z hz => (hother₂ z hz).trans (hother₁ z hz)⟩
    · rw [List.foldlM_cons,hstep]
      exact hloop
    · rcases List.mem_cons.mp hz with rfl | hz
      · exact hsub₂ (hy hne)
      · exact hall z hz hne

/-- One turn of the loop over the children of `x`. -/
theorem childTurn_spec (C : Computed g c₀ c.idom) {call : B → Frontier B → Option (Frontier B)}
    (hcall : CallSpec g c (call k) k) (hk : c.idom k = some x) (hc : Collecting g c.idom x frontier l) :
    ∃ frontier' l', childTurn h c call x frontier k = some frontier' ∧
      Collecting g c.idom x frontier' l' ∧ l ⊆ l' ∧
      (∀ w, Collected g c.idom k w → c.idom w ≠ some x → w ∈ l') ∧
      (∀ y, Anc c.idom k y → Done g c.idom frontier' y) ∧
      (∀ y, ¬ Anc c.idom x y → frontier' y = frontier y) ∧
      ∀ j, c.idom j = some x → j ≠ k → ∀ y, Anc c.idom j y → frontier' y = frontier y := by
  obtain ⟨f₁,hstep,hdone,hother⟩ := hcall frontier (hc.ready k hk)
  have hapart : ∀ j, c.idom j = some x → j ≠ k → ∀ y, Anc c.idom j y → ¬ Anc c.idom k y := by
    intro j hj hne y hjy hky
    rcases hjy.total hky with hjk | hkj
    · obtain ⟨p,hp,hjp⟩ := hjk.cases_parent hne
      cases hk.symm.trans hp
      exact C.not_anc_child hj hjp
    · obtain ⟨p,hp,hkp⟩ := hkj.cases_parent (Ne.symm hne)
      cases hj.symm.trans hp
      exact C.not_anc_child hk hkp
  have hc₁ : Collecting g c.idom x f₁ l := by
    refine ⟨(hother x (C.not_anc_child hk)).trans hc.list,hc.sound,fun j hj => ?_⟩
    by_cases hjk : j = k
    · rw [hjk]
      exact .of_done hdone
    · exact (hc.ready j hj).congr fun z hz => hother z (hapart j hj hjk z hz)
  obtain ⟨ys,hys,hcollected⟩ := hdone k .refl
  obtain ⟨f₂,l₂,hloop,hc₂,hsub,hall,hsame⟩ := foldlM_offer C (h.order ys) hc₁
    fun y hy hne => C.collected_iff.mpr
      ⟨hne,.inr ⟨k,hk,(hcollected y).mp ((h.perm ys).mem_iff.mp hy)⟩⟩
  have hbelow : ∀ j, c.idom j = some x → ∀ y, Anc c.idom j y → f₂ y = f₁ y := fun j hj y hjy =>
    hsame y fun heq => C.not_anc_child hj (heq ▸ hjy)
  refine ⟨f₂,l₂,?_,hc₂,hsub,fun w hw hne => ?_,fun y hy => ?_,fun y hy => ?_,
    fun j hj hjk y hy => ?_⟩
  · simp only [childTurn,hstep,Option.bind_eq_bind,Option.bind_some,hys]
    exact hloop
  · exact hall w ((h.perm ys).mem_iff.mpr ((hcollected w).mpr hw)) hne
  · obtain ⟨ls,hls,hiff⟩ := hdone y hy
    exact ⟨ls,(hbelow k hk y hy).trans hls,hiff⟩
  · rw [hsame y fun heq => hy (heq ▸ .refl)]
    exact hother y fun hky => hy (.head hk hky)
  · rw [hbelow j hj y hy]
    exact hother y (hapart j hj hjk y hy)

/-- The loop over the children of `x`. -/
theorem foldlM_child (C : Computed g c₀ c.idom) {call : B → Frontier B → Option (Frontier B)}
    (ks : List B) (hcall : ∀ k ∈ ks, CallSpec g c (call k) k) (hks : ∀ k ∈ ks, c.idom k = some x)
    (hc : Collecting g c.idom x frontier l) :
    ∃ frontier' l', ks.foldlM (childTurn h c call x) frontier = some frontier' ∧
      Collecting g c.idom x frontier' l' ∧ l ⊆ l' ∧
      (∀ k ∈ ks, ∀ w, Collected g c.idom k w → c.idom w ≠ some x → w ∈ l') ∧
      (∀ k, c.idom k = some x → (k ∈ ks ∨ ∀ y, Anc c.idom k y → Done g c.idom frontier y) →
        ∀ y, Anc c.idom k y → Done g c.idom frontier' y) ∧
      ∀ y, ¬ Anc c.idom x y → frontier' y = frontier y := by
  induction ks generalizing frontier l with
  | nil => exact ⟨frontier,l,rfl,hc,List.Subset.refl l,by simp,by simp,fun _ _ => rfl⟩
  | cons k ks ih =>
    have hk := hks k List.mem_cons_self
    obtain ⟨f₁,l₁,hstep,hc₁,hsub₁,hall₁,hdone₁,hout₁,hother₁⟩ :=
      childTurn_spec (h := h) C (hcall k List.mem_cons_self) hk hc
    obtain ⟨f₂,l₂,hloop,hc₂,hsub₂,hall₂,hdone₂,hout₂⟩ :=
      ih (fun j hj => hcall j (List.mem_cons_of_mem k hj))
        (fun j hj => hks j (List.mem_cons_of_mem k hj)) hc₁
    refine ⟨f₂,l₂,?_,hc₂,List.Subset.trans hsub₁ hsub₂,fun j hj w hw hne => ?_,
      fun j hj hcases => ?_,fun y hy => (hout₂ y hy).trans (hout₁ y hy)⟩
    · rw [List.foldlM_cons,hstep]
      exact hloop
    · rcases List.mem_cons.mp hj with rfl | hj
      · exact hsub₂ (hall₁ w hw hne)
      · exact hall₂ j hj w hw hne
    · refine hdone₂ j hj ?_
      by_cases hjk : j = k
      · exact .inr (hjk ▸ hdone₁)
      · rcases hcases with hmem | hdone
        · exact .inl ((List.mem_cons.mp hmem).resolve_left hjk)
        · refine .inr fun y hy => ?_
          obtain ⟨ls,hls,hiff⟩ := hdone y hy
          exact ⟨ls,(hother₁ j hj hjk y hy).trans hls,hiff⟩

/-- The loop over the successors of `x`: every turn goes over all children. -/
theorem foldlM_succ (C : Computed g c₀ c.idom) {call : B → Frontier B → Option (Frontier B)}
    (hcall : ∀ k, c.idom k = some x → CallSpec g c (call k) k) {succs : List B}
    (hsuccs : succs ⊆ g.succs x) (hc : Collecting g c.idom x frontier l) :
    ∃ frontier' l', succs.foldlM (succTurn g h c call x) frontier = some frontier' ∧
      Collecting g c.idom x frontier' l' ∧ l ⊆ l' ∧
      (∀ w ∈ succs, c.idom w ≠ some x → w ∈ l') ∧
      (succs ≠ [] → ∀ k, c.idom k = some x →
        (∀ w, Collected g c.idom k w → c.idom w ≠ some x → w ∈ l') ∧
          ∀ y, Anc c.idom k y → Done g c.idom frontier' y) ∧
      ∀ y, ¬ Anc c.idom x y → frontier' y = frontier y := by
  induction succs generalizing frontier l with
  | nil => exact ⟨frontier,l,rfl,hc,List.Subset.refl l,by simp,by simp,fun _ _ => rfl⟩
  | cons s succs ih =>
    obtain ⟨hs,hrest⟩ := List.cons_subset.mp hsuccs
    obtain ⟨f₁,l₁,hoffer,hc₁,hsub₁,hmem,hother₁⟩ := offer_spec C hc
      (y := s) fun hne => C.collected_iff.mpr ⟨hne,.inl hs⟩
    obtain ⟨f₂,l₂,hchildren,hc₂,hsub₂,hall₂,hdone₂,hout₂⟩ := foldlM_child (h := h) C
      (childrenOf g h c x) (fun k hk => hcall k (C.mem_children.mp hk)) (fun k hk => C.mem_children.mp hk) hc₁
    obtain ⟨f₃,l₃,hloop,hc₃,hsub₃,hsucc₃,hkids₃,hout₃⟩ := ih hrest hc₂
    have hout : ∀ y, ¬ Anc c.idom x y → f₃ y = frontier y := fun y hy =>
      ((hout₃ y hy).trans (hout₂ y hy)).trans (hother₁ y fun heq => hy (heq ▸ .refl))
    refine ⟨f₃,l₃,?_,hc₃,List.Subset.trans hsub₁ (List.Subset.trans hsub₂ hsub₃),
      fun w hw hne => ?_,fun _ k hk => ⟨fun w hw hne => ?_,?_⟩,hout⟩
    · simp only [List.foldlM_cons,succTurn,hoffer,Option.bind_eq_bind,Option.bind_some,hchildren]
      exact hloop
    · rcases List.mem_cons.mp hw with rfl | hw
      · exact hsub₃ (hsub₂ (hmem hne))
      · exact hsucc₃ w hw hne
    · exact hsub₃ (hall₂ k (C.mem_children.mpr hk) w hw hne)
    · cases succs with
      | nil =>
        cases hloop
        exact hdone₂ k hk (.inl (C.mem_children.mpr hk))
      | cons s' succs => exact (hkids₃ (by simp) k hk).2

/-- By induction on the calls. The memo holds because what is below a block with a frontier is done
as well. -/
theorem computeDomFrontierOf_spec (C : Computed g c₀ c.idom) {fuel : ℕ} (hx : x ∈ c₀.vertex)
    (hfuel : c₀.vertex.length < fuel+c₀.vertex.idxOf x) :
    CallSpec g c (computeDomFrontierOf g h c fuel x) x := by
  induction fuel generalizing x with
  | zero =>
    have hlt : c₀.vertex.idxOf x < c₀.vertex.length := List.idxOf_lt_length_iff.mpr hx
    omega
  | succ fuel ih =>
    intro frontier hready
    by_cases hsome : (frontier x).isSome
    · exact ⟨frontier,by rw [computeDomFrontierOf,if_pos hsome],hready x .refl hsome,
        fun _ _ => rfl⟩
    · have hother : ∀ z, z ≠ x → Function.update frontier x (some []) z = frontier z :=
        fun z hz => Function.update_of_ne hz _ _
      have hfirst : Collecting g c.idom x (Function.update frontier x (some [])) [] := by
        refine ⟨Function.update_self _ _ _,by simp,fun k hk => ?_⟩
        have hk' : Ready g c.idom frontier k := fun z hz => hready z (.head hk hz)
        exact hk'.congr fun z hkz => hother z fun heq => C.not_anc_child hk (heq ▸ hkz)
      have hcall : ∀ k, c.idom k = some x → CallSpec g c (computeDomFrontierOf g h c fuel k) k := by
        intro k hk
        obtain ⟨hmem,-,-,hlt⟩ := C.idom_spec hk
        exact ih hmem (by omega)
      obtain ⟨f,l,hloop,hc,-,hsuccs,hkids,hout⟩ := foldlM_succ (h := h) C hcall
        (List.Subset.refl (g.succs x)) hfirst
      have hne : ∀ k, c.idom k = some x → g.succs x ≠ [] := by
        intro k hk hnil
        obtain ⟨hmem,-,hanc,hlt⟩ := C.idom_spec hk
        obtain ⟨j,hj,hjk⟩ := hanc.exists_child fun heq => Nat.lt_irrefl _ (heq ▸ hlt)
        have hedge := (C.start.tree.parent_spec (C.start.tree.anc_reached hjk hmem) hj).2.1
        rw [hnil] at hedge
        exact absurd hedge List.not_mem_nil
      refine ⟨f,?_,fun y hy => ?_,fun z hz => ?_⟩
      · rw [computeDomFrontierOf,if_neg hsome]
        exact hloop
      · by_cases hxy : x = y
        · subst hxy
          refine ⟨l,hc.list,fun w => ⟨hc.sound w,fun hw => ?_⟩⟩
          obtain ⟨hidom,hw | ⟨k,hk,hw⟩⟩ := C.collected_iff.mp hw
          · exact hsuccs w hw hidom
          · exact (hkids (hne k hk) k hk).1 w hw hidom
        · obtain ⟨k,hk,hky⟩ := hy.exists_child hxy
          exact (hkids (hne k hk) k hk).2 y hky
      · exact (hout z hz).trans (hother z fun heq => hz (heq ▸ .refl))

end Recursion

/-! ### The whole computation -/

section Whole

variable {g : Cfg B} {h : SetOrder B} {c₀ c : Context B} {x y k : B} {frontier : Frontier B}

theorem computeDomFrontier_spec (C : Computed g c₀ c.idom) (h : SetOrder B) :
    ∃ frontier, computeDomFrontier g h c = some frontier ∧
      (∀ x ∈ c₀.vertex, Done g c.idom frontier x) ∧ ∀ x, x ∉ c₀.vertex → frontier x = none := by
  have hlen := C.start.length_le
  have hcall : ∀ k ∈ c₀.vertex, CallSpec g c (computeDomFrontierOf g h c g.fuel k) k := by
    intro k hk
    refine computeDomFrontierOf_spec C hk ?_
    rw [Cfg.fuel]
    omega
  obtain ⟨f,hloop,hready,hnone⟩ := foldlM_roots
    (fun k hk => (C.mem_children (h := h)).mp hk)
    (fun k hk => hcall k (C.idom_spec (C.mem_children.mp hk)).1)
    (fun _ _ hsome => absurd hsome (by simp)) fun _ _ => rfl
  obtain ⟨f',hlast,hdone,hout⟩ := hcall g.entry C.start.tree.root_reached f hready
  refine ⟨f',?_,fun x hx => hdone x (C.anc_entry hx),fun x hx => ?_⟩
  · rw [computeDomFrontier,hloop]
    exact hlast
  · have hentry : ¬ Anc c.idom g.entry x := fun hanc =>
      hx (C.reached_of_anc hanc C.start.tree.root_reached)
    exact (hout x hentry).trans (hnone x hentry)

/-- The computation ends with a frontier for every reachable block. All of them are the frontiers of
the computed tree exactly when every edge ends below an immediate dominator that is above its start. -/
theorem frontier_eq_iff (g : Cfg B) (h : SetOrder B) : ∃ c frontier,
    compute g h = some c ∧ computeDomFrontier g h c = some frontier ∧
      (∀ x, (frontier x).isSome ↔ Reachable g x) ∧
      ((∀ x l, frontier x = some l → ∀ w ∈ g.order, (w ∈ l ↔ InFrontier g c.idom x w)) ↔
        ∀ u, Reachable g u → ∀ w ∈ g.succs u, w ≠ g.entry →
          ∃ d, c.idom w = some d ∧ Anc c.idom d u) := by
  obtain ⟨c₀,c,-,hcompute,C⟩ := compute_computed g h
  obtain ⟨f,hf,hdone,hnone⟩ := computeDomFrontier_spec C h
  have hreach : ∀ x, Reachable g x ↔ x ∈ c₀.vertex := fun x => C.start.reachable_iff
  have hsome : ∀ x, (f x).isSome ↔ x ∈ c₀.vertex := by
    intro x
    by_cases hx : x ∈ c₀.vertex
    · obtain ⟨l,hl,-⟩ := hdone x hx
      simp [hl,hx]
    · simp [hnone x hx,hx]
  refine ⟨c,f,hcompute,hf,fun x => (hsome x).trans (hreach x).symm,?_⟩
  simp only [hreach]
  rw [← C.collected_eq_inFrontier_iff]
  constructor
  · intro hall x hx w hw
    obtain ⟨l,hl,hiff⟩ := hdone x hx
    exact (hiff w).symm.trans (hall x l hl w hw)
  · intro hall x l hl w hw
    have hx : x ∈ c₀.vertex := (hsome x).mp (by rw [hl]; rfl)
    obtain ⟨k,hk,hiff⟩ := hdone x hx
    cases hl.symm.trans hk
    exact (hiff w).trans (hall x hx w hw)

end Whole

/-- The join of the crossing ways is collected for the entry, which strictly dominates it. -/
theorem crossing_frontier_wrong : ¬ ∀ (g : Cfg (Fin 4)) (h : SetOrder (Fin 4)) c frontier,
    compute g h = some c → computeDomFrontier g h c = some frontier →
      ∀ x l, frontier x = some l → ∀ w ∈ g.order, (w ∈ l ↔ InFrontier g c.idom x w) := by
  intro hall
  let order : SetOrder (Fin 4) := ⟨id,fun _ => .refl _⟩
  have hsome : (compute crossing order).isSome := by decide
  obtain ⟨c,hc⟩ := Option.isSome_iff_exists.mp hsome
  have hidom : ((compute crossing order).bind fun c => c.idom 3) = some 2 ∧
      ((compute crossing order).bind fun c => c.idom 2) = some 0 := by decide
  have hfrontier : (((compute crossing order).bind fun c => computeDomFrontier crossing order c).bind
      fun f => f 0) = some [3] := by decide
  rw [hc] at hidom hfrontier
  obtain ⟨f,hf,hl⟩ := Option.bind_eq_some_iff.mp hfrontier
  have hmem := (hall crossing order c f hc hf 0 [3] hl 3 (by decide)).mp (List.mem_singleton_self 3)
  have hjoin : c.idom 3 = some 2 := hidom.1
  have hbranch : c.idom 2 = some 0 := hidom.2
  have habove : Anc c.idom 0 2 := Relation.ReflTransGen.single hbranch
  have hanc : Anc c.idom 0 3 := habove.tail hjoin
  exact hmem.2 ⟨hanc,by decide⟩

end DominatorTree
end Codegen
end OlaLang
