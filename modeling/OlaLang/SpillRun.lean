import OlaLang.SpillLayout

/-! The spiller as a whole: it succeeds when its insertions have room and the register is a word,
and then the instructions that name the register are rewritten and have their neighbours. -/
namespace OlaLang
namespace Codegen
namespace Spiller

open Liveness ProgramPoints

variable {f f' : State} {r i v k fuel : ℕ} {newVregs : List ℕ}

/-- What instruction `i` does to a register, as a user of it. -/
def State.userOf (f : State) (v i : ℕ) : VRegUser :=
  ⟨i,decide (v ∈ (f.insts i).inputVregs),decide (v ∈ (f.insts i).outputVregs)⟩

/-- A function as the lowering and earlier spills leave it: the points increase, the users of a
register are the instructions that name it, and no number is taken that is still to be given. -/
structure WellFormed (f : State) : Prop where
  increasing : Increasing f.numbering
  nodup : f.numbering.layout.flatten.Nodup
  parent : ∀ b l, f.numbering.layout[b]? = some l → ∀ i ∈ l, f.parent i = b
  old : ∀ i : ℕ, i ∈ f.numbering.layout.flatten → i < f.nextInst
  noPoint : ∀ i, f.nextInst ≤ i → f.numbering.point? i = none
  users : ∀ v u, u ∈ f.users v ↔ u.inst ∈ f.numbering.layout.flatten ∧ u = f.userOf v u.inst ∧
    (u.read = true ∨ u.write = true)
  distinct : ∀ v, ((f.users v).map (·.inst)).Nodup
  vregs : ∀ i ∈ f.numbering.layout.flatten, ∀ op ∈ (f.insts i).operands, ∀ v : ℕ,
    op.data = .vreg v → v < f.nextVReg
  slots : ∀ i ∈ f.numbering.layout.flatten, ∀ op ∈ (f.insts i).operands, ∀ s : ℕ,
    op.data = .slot s → s < f.slots.length

namespace WellFormed

theorem block (h : WellFormed f) (hi : i ∈ f.numbering.layout.flatten) :
    ∃ l, f.numbering.layout[f.parent i]? = some l ∧ i ∈ l := by
  rcases List.mem_flatten.mp hi with ⟨l,hl,hil⟩
  rcases List.getElem?_of_mem hl with ⟨b,hb⟩
  exact ⟨l,by rw [h.parent b l hb i hil]; exact hb,hil⟩

theorem user_mem (h : WellFormed f) {u : VRegUser} (hu : u ∈ f.users v) :
    u.inst ∈ f.numbering.layout.flatten := ((h.users v u).mp hu).1

theorem noUsers (h : WellFormed f) (hv : f.nextVReg ≤ v) : f.users v = [] := by
  rw [List.eq_nil_iff_forall_not_mem]
  intro u hu
  rcases (h.users v u).mp hu with ⟨hin,heq,hflag⟩
  have hname : v ∈ (f.insts u.inst).inputVregs ∨ v ∈ (f.insts u.inst).outputVregs := by
    rw [heq] at hflag
    simpa [State.userOf] using hflag
  have hop : ∃ op ∈ (f.insts u.inst).operands, op.data.asVReg? = some v := by
    rcases hname with hname | hname
    · rcases List.mem_filterMap.mp hname with ⟨op,hop,hv⟩
      exact ⟨op,hop,by split at hv; exacts [hv,by cases hv]⟩
    · rcases List.mem_filterMap.mp hname with ⟨op,hop,hv⟩
      exact ⟨op,hop,by split at hv; exacts [hv,by cases hv]⟩
  rcases hop with ⟨op,hop,hdata⟩
  have hvreg : op.data = .vreg v := by
    cases hd : op.data with
    | vreg w =>
      rw [hd] at hdata
      cases hdata
      rfl
    | _ =>
      rw [hd] at hdata
      cases hdata
  have hlt := h.vregs u.inst hin op hop v hvreg
  omega

theorem rewritable (h : WellFormed f) (hr : r < f.nextVReg) : Rewritable r f :=
  ⟨hr,h.distinct r,fun _ hv => h.noUsers hv⟩

end WellFormed

/-! ### The order of the definitions -/

theorem le_total (p q : ProgramPoint) : (decide (p.le q) || decide (q.le p)) = true := by
  rw [Bool.or_eq_true,decide_eq_true_iff,decide_eq_true_iff]
  simp only [ProgramPoint.le]
  omega

theorem le_trans {p q r : ProgramPoint} (h : p.le q) (h' : q.le r) : p.le r := by
  simp only [ProgramPoint.le] at h h' ⊢
  omega

theorem dedupBy_eq_self {same : ℕ → ℕ → Bool} {kept : Option ℕ} {l : List ℕ}
    (h : l.Pairwise fun b a => same a b = false) (hkept : ∀ a ∈ l, kept.any (same a) = false) :
    dedupBy same kept l = l := by
  induction l generalizing kept with
  | nil => rfl
  | cons a rest ih =>
    rw [List.pairwise_cons] at h
    rw [dedupBy,hkept a List.mem_cons_self,if_neg Bool.false_ne_true,ih h.2
      (show ∀ c ∈ rest, (some a).any (same c) = false from h.1)]

theorem WellFormed.not_prev (h : WellFormed f) {a b : ℕ} {l : List ℕ}
    (hl : f.numbering.layout[f.parent a]? = some l) (ha : a ∈ l) (hle : f.pointLe a b = true) :
    prevInstOf a (f.numbering.insts (f.parent a)) ≠ some b := by
  have hin : a ∈ f.numbering.insts (f.parent a) := by
    rw [Numbering.insts,hl]
    exact ha
  rcases h.increasing.around h.nodup hin with ⟨pre,post,npre,n,npost,hat⟩
  intro hprev
  rw [hat.insts,prevInstOf_append hat.notMem hat.notMemPost] at hprev
  rcases pre.eq_nil_or_concat' with rfl | ⟨front,last,rfl⟩
  · cases hprev
  · rw [List.getLast?_concat] at hprev
    cases hprev
    have hbefore := hat.before
    rw [List.map_append] at hbefore
    rcases List.map_eq_append_iff.mp hbefore.symm with ⟨nfront,nlast,rfl,_,hlast⟩
    rcases List.map_eq_singleton_iff.mp hlast with ⟨m,rfl,hm⟩
    have hlt := hat.prev_lt
    have hpoints := of_decide_eq_true hle
    rw [hat.here,← hm] at hpoints
    simp only [Option.getD_some,ProgramPoint.le] at hpoints
    omega

/-- No definition is left out: the one that follows another has a greater point, and the list runs
from the greatest point down. -/
theorem WellFormed.defs_perm (h : WellFormed f) :
    (f.defs r).Perm (((f.users r).filter (·.write)).map (·.inst)) := by
  have hsorted : ((((f.users r).filter (·.write)).map (·.inst)).mergeSort
      fun a b => f.pointLe b a).Pairwise fun a b => f.pointLe b a = true := by
    apply List.pairwise_mergeSort
    · intro a b c hab hbc
      exact decide_eq_true (le_trans (of_decide_eq_true hbc) (of_decide_eq_true hab))
    · intro a b
      exact le_total _ _
  have hperm := List.mergeSort_perm (((f.users r).filter (·.write)).map (·.inst))
    fun a b => f.pointLe b a
  have hself : f.defs r = ((((f.users r).filter (·.write)).map (·.inst)).mergeSort
      fun a b => f.pointLe b a) := by
    apply dedupBy_eq_self
    · refine hsorted.imp_of_mem ?_
      intro b a _ ha hle
      rw [List.mem_mergeSort] at ha
      rcases List.mem_map.mp ha with ⟨u,hu,rfl⟩
      have hin := h.user_mem (List.mem_of_mem_filter hu)
      rcases h.block hin with ⟨l,hl,hul⟩
      rw [decide_eq_false_iff_not]
      exact h.not_prev hl hul hle
    · intro a _
      rfl
  rw [hself]
  exact hperm

/-- The instructions that read the register and do not write it. -/
def State.reloads (f : State) (r : ℕ) : List ℕ :=
  ((f.users r).filter fun u => u.read && !u.write).map (·.inst)

namespace WellFormed

theorem mem_filter_users (h : WellFormed f) (p : VRegUser → Bool) :
    i ∈ ((f.users r).filter p).map (·.inst) ↔ i ∈ f.numbering.layout.flatten ∧
      p (f.userOf r i) = true ∧ ((f.userOf r i).read = true ∨ (f.userOf r i).write = true) := by
  constructor
  · intro hi
    rcases List.mem_map.mp hi with ⟨u,hu,rfl⟩
    rcases List.mem_filter.mp hu with ⟨hu,hp⟩
    rcases (h.users r u).mp hu with ⟨hin,heq,hflag⟩
    rw [← heq]
    exact ⟨hin,hp,hflag⟩
  · rintro ⟨hin,hp,hflag⟩
    exact List.mem_map.mpr ⟨f.userOf r i,
      List.mem_filter.mpr ⟨(h.users r _).mpr ⟨hin,rfl,hflag⟩,hp⟩,rfl⟩

theorem mem_defs (h : WellFormed f) : i ∈ f.defs r ↔
    i ∈ f.numbering.layout.flatten ∧ r ∈ (f.insts i).outputVregs := by
  rw [h.defs_perm.mem_iff,h.mem_filter_users]
  constructor
  · rintro ⟨hin,hp,_⟩
    exact ⟨hin,of_decide_eq_true hp⟩
  · rintro ⟨hin,hout⟩
    exact ⟨hin,decide_eq_true hout,Or.inr (decide_eq_true hout)⟩

theorem mem_reloads (h : WellFormed f) : i ∈ f.reloads r ↔
    i ∈ f.numbering.layout.flatten ∧ r ∈ (f.insts i).inputVregs ∧
      r ∉ (f.insts i).outputVregs := by
  rw [State.reloads,h.mem_filter_users]
  simp only [State.userOf,Bool.and_eq_true,Bool.not_eq_true',decide_eq_true_eq,
    decide_eq_false_iff_not]
  tauto

theorem nodup_defs (h : WellFormed f) : (f.defs r).Nodup := by
  rw [h.defs_perm.nodup_iff]
  exact (h.distinct r).sublist (List.filter_sublist.map _)

theorem nodup_reloads (h : WellFormed f) : (f.reloads r).Nodup :=
  (h.distinct r).sublist (List.filter_sublist.map _)

theorem defs_user (h : WellFormed f) : ∀ i ∈ f.defs r, ∃ u ∈ f.users r, u.inst = i := by
  intro i hi
  rw [h.defs_perm.mem_iff] at hi
  rcases List.mem_map.mp hi with ⟨u,hu,rfl⟩
  exact ⟨u,List.mem_of_mem_filter hu,rfl⟩

/-- The uses that are left when the definitions have registers of their own. -/
theorem uses_of_users (h : WellFormed f) {g : State}
    (husers : g.users r = (f.users r).filter (·.inst ∉ f.defs r)) : g.uses r = f.reloads r := by
  rw [State.uses,State.reloads,husers,List.filter_filter]
  congr 1
  apply List.filter_congr
  intro u hu
  rcases (h.users r u).mp hu with ⟨hin,heq,_⟩
  have hwrite : u.write = decide (u.inst ∈ f.defs r) := by
    have hw : u.write = decide (r ∈ (f.insts u.inst).outputVregs) := congrArg VRegUser.write heq
    rw [hw,Bool.eq_iff_iff,decide_eq_true_iff,decide_eq_true_iff,h.mem_defs]
    exact (and_iff_right hin).symm
  rw [hwrite]
  by_cases hd : u.inst ∈ f.defs r <;> simp [hd]

end WellFormed

/-- The insertions of a spill: the stores from the last definition on, and the reloads. -/
def State.spillOps (f : State) (r : ℕ) : List Op :=
  insertions .after f.parent f.nextInst (f.defs r) ++
    insertions .before f.parent (f.nextInst+(f.defs r).length) (f.reloads r)

/-- What the spill makes of an instruction of the layout. -/
def State.expansion (f : State) (r : ℕ) : ℕ → List ℕ :=
  expandAll placeBefore (f.nextInst+(f.defs r).length) (f.reloads r)
    (expandAll placeAfter f.nextInst (f.defs r) fun i => [i])

namespace WellFormed

theorem spillOps_place (h : WellFormed f) :
    AllValid (f.spillOps r) f.numbering.layout ∧
      placeAll (f.spillOps r) f.numbering.layout =
        f.numbering.layout.map (List.flatMap (f.expansion r)) := by
  have hid : (List.flatMap fun i : ℕ => [i]) = id := funext fun l => by simp
  have hstart : f.numbering.layout = f.numbering.layout.map (List.flatMap fun i => [i]) := by
    rw [hid]
    exact (List.map_id _).symm
  have hself : Expands f.nextInst f.nextInst fun i => [i] :=
    ⟨fun i => List.mem_singleton_self i,fun i x hx => Or.inl (List.mem_singleton.mp hx)⟩
  rcases insertions_place follows_after nextTo_after h.nodup h.old (le_refl _) hself
    (fun i hi => h.block (h.mem_defs.mp hi).1) with ⟨hvalid₁,hplace₁⟩
  rw [← hstart] at hvalid₁ hplace₁
  rcases insertions_place follows_before nextTo_before h.nodup h.old
    (Nat.le_add_right f.nextInst (f.defs r).length)
    (hself.expandAll nextTo_after (le_refl _))
    (fun i hi => h.block (h.mem_reloads.mp hi).1) with ⟨hvalid₂,hplace₂⟩
  rw [State.spillOps,allValid_append,placeAll_append,hplace₁]
  exact ⟨⟨hvalid₁,hvalid₂⟩,hplace₂⟩

theorem inserted_spillOps (f : State) (r : ℕ) : (f.spillOps r).map inserted? =
    (List.range' f.nextInst ((f.defs r).length+(f.reloads r).length)).map some := by
  rw [State.spillOps,List.map_append,inserted_insertions follows_after,
    inserted_insertions follows_before,← List.map_append,List.range'_append_1]

end WellFormed

/-! ### The live ranges of the new registers -/

/-- The states differ in their live ranges only. -/
def SameCode (f g : State) : Prop :=
  ∃ ranges, g = { f with numbering := { f.numbering with ranges := ranges } }

theorem SameCode.refl (f : State) : SameCode f f := ⟨f.numbering.ranges,rfl⟩

theorem SameCode.trans {g e : State} (h : SameCode f g) (h' : SameCode g e) : SameCode f e := by
  rcases h with ⟨r₁,rfl⟩
  rcases h' with ⟨r₂,rfl⟩
  exact ⟨r₂,rfl⟩

theorem userPoints_eq_ok {n : Numbering} {users : List VRegUser}
    {points : List (VRegUser × ProgramPoint)} :
    userPoints n users = .ok points ↔
      points.map (fun p => (p.1,some p.2)) = users.map fun u => (u,n.point? u.inst) := by
  induction users generalizing points with
  | nil =>
    constructor
    · intro h
      cases h
      rfl
    · intro h
      rw [List.map_eq_nil_iff.mp h]
      rfl
  | cons u rest ih =>
    rw [userPoints,bind_eq_ok,Numbering.pointOf]
    constructor
    · rintro ⟨pp,hpp,h⟩
      rcases bind_eq_ok.mp h with ⟨others,hothers,h⟩
      cases h
      cases hu : n.point? u.inst with
      | none =>
        rw [hu] at hpp
        cases hpp
      | some q =>
        rw [hu] at hpp
        cases hpp
        rw [List.map_cons,List.map_cons,ih.mp hothers,hu]
    · intro h
      rcases List.map_eq_cons_iff.mp h with ⟨⟨w,pp⟩,others,rfl,hfirst,hothers⟩
      rcases Prod.mk.inj hfirst with ⟨rfl,hpp⟩
      refine ⟨pp,by rw [← hpp]; rfl,?_⟩
      rw [ih.mpr hothers]
      rfl

/-- With a definition and a use that has a point, the range of a new register is found. -/
theorem computeLiveRanges_ok {u w : VRegUser} {p q : ProgramPoint} (husers : f.users v = [u,w])
    (hp : f.numbering.point? u.inst = some p) (hq : f.numbering.point? w.inst = some q)
    (hflags : u.write = true ∧ w.read = true ∧ w.write = false ∨
      u.read = true ∧ u.write = false ∧ w.write = true) :
    ∃ g, computeLiveRanges f v = .ok g ∧ SameCode f g := by
  have hpoints : userPoints f.numbering (f.users v) = .ok [(u,p),(w,q)] := by
    rw [userPoints_eq_ok,husers]
    simp [hp,hq]
  have hstart : ∃ start, least (([(u,p),(w,q)].filter (·.1.write)).map (·.2)) = some start := by
    rcases hflags with ⟨hu,_,hw⟩ | ⟨_,hu,hw⟩
    · exact ⟨p,by simp [hu,hw,least]⟩
    · exact ⟨q,by simp [hu,hw,least]⟩
  have hstop : ∃ stop, greatest (([(u,p),(w,q)].filter fun p => !p.1.write && p.1.read).map (·.2)) =
      some stop := by
    rcases hflags with ⟨hu,hr,hw⟩ | ⟨hr,hu,hw⟩
    · exact ⟨q,by simp [hu,hw,hr,greatest]⟩
    · exact ⟨p,by simp [hu,hw,hr,greatest]⟩
  rcases hstart with ⟨start,hstart⟩
  rcases hstop with ⟨stop,hstop⟩
  refine ⟨{ f with numbering := setRange f.numbering (.virt v) [⟨start,stop⟩] },?_,⟨_,rfl⟩⟩
  rw [computeLiveRanges,hpoints]
  simp only [bind,Except.bind,hstart,hstop]

/-- A range that is found is one of instructions that have points. -/
theorem computeLiveRanges_spec {g : State} (h : computeLiveRanges f v = .ok g) :
    SameCode f g ∧ ∀ u ∈ f.users v, f.numbering.point? u.inst ≠ none := by
  rcases bind_eq_ok.mp h with ⟨points,hpoints,hrest⟩
  constructor
  · cases hleast : least ((points.filter (·.1.write)).map (·.2)) with
    | none =>
      simp only [hleast] at hrest
      cases hrest
    | some start =>
      cases hgreatest : greatest ((points.filter fun p => !p.1.write && p.1.read).map (·.2)) with
      | none =>
        simp only [hleast,hgreatest] at hrest
        cases hrest
      | some stop =>
        simp only [hleast,hgreatest] at hrest
        cases hrest
        exact ⟨_,rfl⟩
  · intro u hu hnone
    have hmap := userPoints_eq_ok.mp hpoints
    have hin : (u,f.numbering.point? u.inst) ∈ points.map fun p => (p.1,some p.2) := by
      rw [hmap]
      exact List.mem_map_of_mem hu
    rcases List.mem_map.mp hin with ⟨p,_,hp⟩
    have hsome := (Prod.mk.inj hp).2
    rw [hnone] at hsome
    cases hsome

theorem computeAllRanges_ok {vs : List ℕ}
    (h : ∀ g, SameCode f g → ∀ v ∈ vs, ∃ e, computeLiveRanges g v = .ok e ∧ SameCode g e) :
    ∃ g, computeAllRanges vs f = .ok g ∧ SameCode f g := by
  induction vs generalizing f with
  | nil => exact ⟨_,rfl,.refl _⟩
  | cons v rest ih =>
    rcases h _ (.refl _) v List.mem_cons_self with ⟨g,hg,hsame⟩
    rcases ih fun e he w hw => h e (hsame.trans he) w (List.mem_cons_of_mem _ hw) with ⟨e,he,hes⟩
    exact ⟨e,by rw [computeAllRanges,hg]; exact he,hsame.trans hes⟩

theorem computeAllRanges_spec {vs : List ℕ} {g : State} (h : computeAllRanges vs f = .ok g) :
    SameCode f g ∧ ∀ v ∈ vs, ∀ u ∈ f.users v, f.numbering.point? u.inst ≠ none := by
  induction vs generalizing f with
  | nil =>
    cases h
    exact ⟨.refl _,by simp⟩
  | cons v rest ih =>
    rcases bind_eq_ok.mp h with ⟨e,he,hrest⟩
    rcases computeLiveRanges_spec he with ⟨hsame,hpoints⟩
    rcases ih hrest with ⟨hsame',hpoints'⟩
    refine ⟨hsame.trans hsame',?_⟩
    rw [List.forall_mem_cons]
    refine ⟨hpoints,?_⟩
    rcases hsame with ⟨ranges,rfl⟩
    exact hpoints'

/-! ### The spill -/

/-- What a spill leaves: each instruction that names the register has a new one for it, and those in
the layout have the new instructions next to them. -/
structure Spilled (f f' : State) (r : ℕ) : Prop where
  preds : f'.preds = f.preds
  layout : f'.numbering.layout = f.numbering.layout.map (List.flatMap (f.expansion r))
  kept : ∀ i < f.nextInst, i ∉ f.defs r → i ∉ f.reloads r → f'.insts i = f.insts i
  defs : ∀ (k i : ℕ), (f.defs r)[k]? = some i →
    f'.insts i = (f.insts i).replaceVreg r (f.nextVReg+k)
  stores : ∀ k < (f.defs r).length,
    f'.insts (f.nextInst+k) = storeVregToSlot f.slots.length (f.nextVReg+k)
  uses : ∀ (k i : ℕ), (f.reloads r)[k]? = some i →
    f'.insts i = (f.insts i).replaceVreg r (f.nextVReg+(f.defs r).length+k)
  loads : ∀ k < (f.reloads r).length, f'.insts (f.nextInst+(f.defs r).length+k) =
    loadFromSlot f.slots.length (f.nextVReg+(f.defs r).length+k)

theorem Increasing.exists_point {n : Numbering} (h : Increasing n) (hi : i ∈ n.layout.flatten) :
    ∃ pp, n.point? i = some pp := by
  rcases List.mem_flatten.mp hi with ⟨l,hl,hil⟩
  rcases List.getElem?_of_mem hl with ⟨b,hb⟩
  rcases h b l hb with ⟨ns,hns,_⟩
  have hmem : n.point? i ∈ ns.map fun n => some (⟨b,n⟩ : ProgramPoint) := by
    rw [← hns]
    exact List.mem_map_of_mem hil
  rcases List.mem_map.mp hmem with ⟨m,_,hm⟩
  exact ⟨_,hm.symm⟩

theorem stepAll_unique {ops : List Op} {n t u : Numbering} {fuel' : ℕ}
    (h : stepAll fuel ops n = .ok t) (h' : stepAll fuel' ops n = .ok u) : t = u := by
  have h1 := stepAll_mono (le_max_left fuel fuel') h
  have h2 := stepAll_mono (le_max_right fuel fuel') h'
  exact Except.ok.inj (h1.symm.trans h2)

namespace WellFormed

theorem not_reload (h : WellFormed f) (hi : i ∈ f.defs r) : i ∉ f.reloads r := fun hin =>
  (h.mem_reloads.mp hin).2.2 (h.mem_defs.mp hi).2

theorem expansion_def (h : WellFormed f) (hk : (f.defs r)[k]? = some i) :
    f.expansion r i = [i,f.nextInst+k] := by
  have hi : i ∈ f.defs r := List.mem_of_getElem? hk
  rw [State.expansion,expandAll_of_not_mem (h.not_reload hi),expandAll_of_getElem h.nodup_defs hk]
  simp [placeAfter]

theorem expansion_use (h : WellFormed f) (hk : (f.reloads r)[k]? = some i) :
    f.expansion r i = [f.nextInst+(f.defs r).length+k,i] := by
  have hi : i ∈ f.reloads r := List.mem_of_getElem? hk
  have hnot : i ∉ f.defs r := fun hin => h.not_reload hin hi
  rw [State.expansion,expandAll_of_getElem h.nodup_reloads hk,expandAll_of_not_mem hnot]
  simp [placeBefore]

theorem expansion_other (hd : i ∉ f.defs r) (hu : i ∉ f.reloads r) : f.expansion r i = [i] := by
  rw [State.expansion,expandAll_of_not_mem hu,expandAll_of_not_mem hd]

end WellFormed

section
variable {f₁ f₂ : State}

/-- The two loops, one after the other, from a function with a new slot. -/
structure Rewritten (f f₁ f₂ : State) (r : ℕ) : Prop where
  first : Rewrote (storeVregToSlot f.slots.length) r (f.defs r)
    { f with slots := f.slots ++ [f.vregs r] } f₁
  second : Rewrote (loadFromSlot f.slots.length) r (f.reloads r) f₁ f₂

namespace Rewritten

theorem nextInst (h : Rewritten f f₁ f₂ r) : f₁.nextInst = f.nextInst+(f.defs r).length :=
  h.first.nextInst

theorem nextVReg (h : Rewritten f f₁ f₂ r) : f₁.nextVReg = f.nextVReg+(f.defs r).length :=
  h.first.nextVReg

/-- The users of the register of a definition: the definition and the store. -/
theorem users_def (h : Rewritten f f₁ f₂ r) (hf : WellFormed f) (hr : r < f.nextVReg)
    (hk : (f.defs r)[k]? = some i) : ∃ u, u.inst = i ∧ u.write = true ∧
      f₂.users (f.nextVReg+k) = [u,⟨f.nextInst+k,true,false⟩] := by
  rcases h.first.newUsers k i hk with ⟨u,hu,rfl,husers⟩
  have hlt : k < (f.defs r).length := (List.getElem?_eq_some_iff.mp hk).1
  have hold : f.nextVReg+k < f₁.nextVReg := by
    rw [h.nextVReg]
    omega
  refine ⟨u,rfl,?_,?_⟩
  · have hwrite := congrArg VRegUser.write ((hf.users r u).mp hu).2.1
    rw [hwrite]
    exact decide_eq_true (hf.mem_defs.mp (List.mem_of_getElem? hk)).2
  · rw [h.second.oldUsers _ hold (Nat.ne_of_gt (Nat.lt_of_lt_of_le hr (Nat.le_add_right _ _)))]
    refine husers.trans ?_
    simp [storeVregToSlot,InstructionData.inputVregs,InstructionData.outputVregs,Operand.plain,
      Operand.asInput,OperandData.asVReg?]

/-- The users of the register of a use: the use and the load. -/
theorem users_use (h : Rewritten f f₁ f₂ r) (hf : WellFormed f)
    (hk : (f.reloads r)[k]? = some i) : ∃ u, u.inst = i ∧ u.read = true ∧ u.write = false ∧
      f₂.users (f.nextVReg+(f.defs r).length+k) =
        [u,⟨f.nextInst+(f.defs r).length+k,false,true⟩] := by
  rcases h.second.newUsers k i hk with ⟨u,hu,rfl,husers⟩
  have hu' : u ∈ f.users r := by
    rw [h.first.users] at hu
    exact List.mem_of_mem_filter hu
  have huser := ((hf.users r u).mp hu').2.1
  have hflags := (hf.mem_reloads.mp (List.mem_of_getElem? hk)).2
  refine ⟨u,rfl,?_,?_,?_⟩
  · rw [congrArg VRegUser.read huser]
    exact decide_eq_true hflags.1
  · rw [congrArg VRegUser.write huser]
    exact decide_eq_false hflags.2
  · rw [h.nextVReg,h.nextInst] at husers
    refine husers.trans ?_
    simp [loadFromSlot,InstructionData.inputVregs,InstructionData.outputVregs,Operand.plain,
      Operand.asInput,Operand.asOutput,OperandData.asVReg?]

theorem spilled (h : Rewritten f f₁ f₂ r) (hf : WellFormed f) {g : State} (hsame : SameCode f₂ g)
    (hlayout : f₂.numbering.layout = f.numbering.layout.map (List.flatMap (f.expansion r))) :
    Spilled f (removeVreg g r) r := by
  rcases hsame with ⟨ranges,rfl⟩
  have hdef : ∀ i : ℕ, i ∈ f.defs r → i < f₁.nextInst := fun i hi => by
    have hlt := hf.old i (hf.mem_defs.mp hi).1
    rw [h.nextInst]
    omega
  have huse : ∀ i : ℕ, i ∈ f.reloads r → i < f.nextInst := fun i hi =>
    hf.old i (hf.mem_reloads.mp hi).1
  refine ⟨?_,hlayout,?_,?_,?_,?_,?_⟩
  · exact h.second.preds.trans h.first.preds
  · intro i hi hd hu
    have hlt : i < f₁.nextInst := by rw [h.nextInst]; omega
    exact (h.second.kept i hlt hu).trans (h.first.kept i hi hd)
  · intro k i hk
    have hi := List.mem_of_getElem? hk
    exact (h.second.kept i (hdef i hi) (hf.not_reload hi)).trans (h.first.renamed k i hk)
  · intro k hk
    have hlt : f.nextInst+k < f₁.nextInst := by rw [h.nextInst]; omega
    have hnot : f.nextInst+k ∉ f.reloads r := fun hin => by
      have := huse _ hin
      omega
    exact (h.second.kept _ hlt hnot).trans (h.first.made k hk)
  · intro k i hk
    have hi := List.mem_of_getElem? hk
    have hnot : i ∉ f.defs r := fun hin => hf.not_reload hin hi
    have hrenamed := h.second.renamed k i hk
    rw [h.nextVReg,h.first.kept i (huse i hi) hnot] at hrenamed
    exact hrenamed
  · intro k hk
    have hmade := h.second.made k hk
    rw [h.nextVReg,h.nextInst] at hmade
    exact hmade

end Rewritten

end

/-- The condition under which the spiller comes to an end: every insertion has room, and the
register is a word. -/
structure Spillable (f : State) (r : ℕ) : Prop where
  room : RunMeets (f.spillOps r) f.numbering
  word : f.users r ≠ [] → (f.vregs r).size = 4

theorem getElem?_append_range {a : ℕ} {D U : List ℕ}
    (hv : v ∈ List.range' a D.length ++ List.range' (a+D.length) U.length) :
    (∃ k i, D[k]? = some i ∧ v = a+k) ∨ ∃ k i, U[k]? = some i ∧ v = a+D.length+k := by
  rcases List.mem_append.mp hv with hv | hv
  · rcases List.mem_range'.mp hv with ⟨k,hk,rfl⟩
    exact Or.inl ⟨k,D[k],List.getElem?_eq_getElem hk,by omega⟩
  · rcases List.mem_range'.mp hv with ⟨k,hk,rfl⟩
    exact Or.inr ⟨k,U[k],List.getElem?_eq_getElem hk,by omega⟩

/-- After the two loops the new registers have their ranges. -/
theorem Rewritten.ranges {f₁ f₂ : State} (h : Rewritten f f₁ f₂ r) (hf : WellFormed f)
    (hr : r < f.nextVReg) (hinc : Increasing f₂.numbering)
    (hlayout : f₂.numbering.layout = f.numbering.layout.map (List.flatMap (f.expansion r))) :
    ∃ g, computeAllRanges (List.range' f.nextVReg (f.defs r).length ++
      List.range' (f.nextVReg+(f.defs r).length) (f.reloads r).length) f₂ = .ok g ∧
      SameCode f₂ g := by
  have hpoint : ∀ i ∈ f.numbering.layout.flatten, ∀ j ∈ f.expansion r i,
      ∃ pp, f₂.numbering.point? j = some pp := by
    intro i hi j hj
    apply Increasing.exists_point hinc
    rw [hlayout]
    rcases List.mem_flatten.mp hi with ⟨l,hl,hil⟩
    exact List.mem_flatten.mpr ⟨_,List.mem_map_of_mem hl,List.mem_flatMap.mpr ⟨i,hil,hj⟩⟩
  apply computeAllRanges_ok
  rintro g ⟨ranges,rfl⟩ v hv
  rcases getElem?_append_range hv with ⟨k,i,hk,rfl⟩ | ⟨k,i,hk,rfl⟩
  · rcases h.users_def hf hr hk with ⟨u,rfl,hwrite,husers⟩
    have hin := (hf.mem_defs.mp (List.mem_of_getElem? hk)).1
    have hexp := hf.expansion_def hk
    rcases hpoint u.inst hin u.inst (by rw [hexp]; simp) with ⟨p,hp⟩
    rcases hpoint u.inst hin (f.nextInst+k) (by rw [hexp]; simp) with ⟨q,hq⟩
    exact computeLiveRanges_ok husers hp hq (Or.inl ⟨hwrite,rfl,rfl⟩)
  · rcases h.users_use hf hk with ⟨u,rfl,hread,hwrite,husers⟩
    have hin := (hf.mem_reloads.mp (List.mem_of_getElem? hk)).1
    have hexp := hf.expansion_use hk
    rcases hpoint u.inst hin u.inst (by rw [hexp]; simp) with ⟨p,hp⟩
    rcases hpoint u.inst hin (f.nextInst+(f.defs r).length+k) (by rw [hexp]; simp) with ⟨q,hq⟩
    exact computeLiveRanges_ok husers hp hq (Or.inr ⟨hread,hwrite,rfl⟩)

theorem spill_eq_ok : spill fuel r f = .ok (newVregs,f') ↔ ∃ vs₁ f₁ vs₂ f₂ g,
    rewriteUsers fuel (storeVregToSlot f.slots.length) .after r (f.defs r)
      { f with slots := f.slots ++ [f.vregs r] } = .ok (vs₁,f₁) ∧
    rewriteUsers fuel (loadFromSlot f.slots.length) .before r (f₁.uses r) f₁ = .ok (vs₂,f₂) ∧
    computeAllRanges (vs₁ ++ vs₂) f₂ = .ok g ∧ newVregs = vs₁ ++ vs₂ ∧ f' = removeVreg g r := by
  constructor
  · intro h
    rcases bind_eq_ok.mp h with ⟨⟨vs₁,f₁⟩,h₁,h⟩
    rcases bind_eq_ok.mp h with ⟨⟨vs₂,f₂⟩,h₂,h⟩
    rcases bind_eq_ok.mp h with ⟨g,hg,h⟩
    cases h
    exact ⟨vs₁,f₁,vs₂,f₂,g,h₁,h₂,hg,rfl,rfl⟩
  · rintro ⟨vs₁,f₁,vs₂,f₂,g,h₁,h₂,hg,rfl,rfl⟩
    exact bind_eq_ok.mpr ⟨(vs₁,f₁),h₁,bind_eq_ok.mpr ⟨(vs₂,f₂),h₂,bind_eq_ok.mpr ⟨g,hg,rfl⟩⟩⟩

theorem WellFormed.rewritable_slot (hf : WellFormed f) (hr : r < f.nextVReg) :
    Rewritable r { f with slots := f.slots ++ [f.vregs r] } :=
  ⟨hr,hf.distinct r,fun _ hv => hf.noUsers hv⟩

theorem Rewrote.rewritable {make : VReg → InstructionData} {E : List ℕ} {f₁ : State}
    (h : Rewrote make r E f f₁) (hf : Rewritable r f) : Rewritable r f₁ where
  old := by
    rw [h.nextVReg]
    exact Nat.lt_of_lt_of_le hf.old (Nat.le_add_right _ _)
  distinct := by
    rw [h.users]
    exact hf.distinct.sublist (List.filter_sublist.map _)
  noUsers := h.noUsers

/-- The two loops of a spill are a run of its insertions. -/
theorem rewritten_of_runs (hf : WellFormed f) (hr : r < f.nextVReg) {vs₁ vs₂ : List ℕ}
    {f₁ f₂ : State}
    (h₁ : rewriteUsers fuel (storeVregToSlot f.slots.length) .after r (f.defs r)
      { f with slots := f.slots ++ [f.vregs r] } = .ok (vs₁,f₁))
    (h₂ : rewriteUsers fuel (loadFromSlot f.slots.length) .before r (f₁.uses r) f₁ =
      .ok (vs₂,f₂)) :
    Rewritten f f₁ f₂ r ∧ stepAll fuel (f.spillOps r) f.numbering = .ok f₂.numbering ∧
      vs₁ = List.range' f.nextVReg (f.defs r).length ∧
      vs₂ = List.range' (f.nextVReg+(f.defs r).length) (f.reloads r).length ∧
      (f.users r ≠ [] → (f.vregs r).size = 4) := by
  have hdefs : ∀ i ∈ f.defs r, i < f.nextInst := fun i hi => hf.old i (hf.mem_defs.mp hi).1
  rcases rewriteUsers_eq_ok (hf.rewritable_slot hr) (names_store f.slots.length) hf.nodup_defs hdefs
    h₁ with ⟨hfirst,rfl,hword₁,hsteps₁⟩
  have huses := hf.uses_of_users hfirst.users
  rw [huses] at h₂
  have hlt : ∀ i ∈ f.reloads r, i < f₁.nextInst := by
    intro i hi
    rw [hfirst.nextInst]
    exact Nat.lt_of_lt_of_le (hf.old i (hf.mem_reloads.mp hi).1) (Nat.le_add_right _ _)
  rcases rewriteUsers_eq_ok (hfirst.rewritable (hf.rewritable_slot hr)) (names_load f.slots.length)
    hf.nodup_reloads hlt h₂ with ⟨hsecond,rfl,hword₂,hsteps₂⟩
  have hboth : Rewritten f f₁ f₂ r := ⟨hfirst,hsecond⟩
  have hparent : ∀ i ∈ f.reloads r, f₁.parent i = f.parent i := fun i hi =>
    hfirst.parent i (hf.old i (hf.mem_reloads.mp hi).1)
  rw [insertions_congr hparent,hboth.nextInst] at hsteps₂
  refine ⟨hboth,stepAll_append.mpr ⟨_,hsteps₁,hsteps₂⟩,rfl,by rw [hboth.nextVReg],?_⟩
  intro hne
  rcases List.exists_mem_of_ne_nil _ hne with ⟨u,hu⟩
  rcases (hf.users r u).mp hu with ⟨hin,heq,hflag⟩
  rw [heq] at hflag
  by_cases hout : r ∈ (f.insts u.inst).outputVregs
  · exact hword₁ (List.ne_nil_of_mem (hf.mem_defs.mpr ⟨hin,hout⟩))
  · have hread : r ∈ (f.insts u.inst).inputVregs := by
      simpa [State.userOf,hout] using hflag
    have hword := hword₂ (List.ne_nil_of_mem (hf.mem_reloads.mpr ⟨hin,hread,hout⟩))
    rw [hfirst.vregs] at hword
    exact hword

/-- A spill whose insertions have room comes to an end. -/
theorem spill_ok (hf : WellFormed f) (hr : r < f.nextVReg) (h : Spillable f r) :
    ∃ fuel newVregs f', spill fuel r f = .ok (newVregs,f') := by
  rcases hf.spillOps_place (r := r) with ⟨hvalid,hplace⟩
  rcases stepAll_of_meets hf.increasing hf.nodup hvalid h.room with ⟨fuel,t,hsteps,hlayout,hinc⟩
  rcases stepAll_append.mp hsteps with ⟨n,hn,ht⟩
  have hdefs : ∀ i ∈ f.defs r, i < f.nextInst := fun i hi => hf.old i (hf.mem_defs.mp hi).1
  have hreloads : ∀ i ∈ f.reloads r, ∃ u ∈ f.users r, u.inst = i ∧ i ∉ f.defs r := by
    intro i hi
    rcases List.mem_map.mp hi with ⟨u,hu,rfl⟩
    exact ⟨u,List.mem_of_mem_filter hu,rfl,fun hin => hf.not_reload hin hi⟩
  have hrun₁ : ∃ vs₁ f₁, rewriteUsers fuel (storeVregToSlot f.slots.length) .after r (f.defs r)
      { f with slots := f.slots ++ [f.vregs r] } = .ok (vs₁,f₁) := by
    refine rewriteUsers_ok (hf.rewritable_slot hr) (names_store _) hf.nodup_defs hdefs hf.defs_user
      ?_ hn
    intro hne
    rcases List.exists_mem_of_ne_nil _ hne with ⟨i,hi⟩
    rcases hf.defs_user i hi with ⟨u,hu,_⟩
    exact h.word (List.ne_nil_of_mem hu)
  rcases hrun₁ with ⟨vs₁,f₁,hrun₁⟩
  rcases rewriteUsers_eq_ok (hf.rewritable_slot hr) (names_store f.slots.length) hf.nodup_defs hdefs
    hrun₁ with ⟨hfirst,-,-,hsteps₁⟩
  have hrun₂ : ∃ vs₂ f₂, rewriteUsers fuel (loadFromSlot f.slots.length) .before r (f₁.uses r) f₁ =
      .ok (vs₂,f₂) := by
    rw [hf.uses_of_users hfirst.users]
    have hparent : ∀ i ∈ f.reloads r, f₁.parent i = f.parent i := fun i hi =>
      hfirst.parent i (hf.old i (hf.mem_reloads.mp hi).1)
    have hnumbering : f₁.numbering = n := Except.ok.inj (hsteps₁.symm.trans hn)
    refine rewriteUsers_ok (hfirst.rewritable (hf.rewritable_slot hr)) (names_load _)
      hf.nodup_reloads ?_ ?_ ?_ (by rw [insertions_congr hparent,hfirst.nextInst,hnumbering]; exact ht)
    · intro i hi
      rw [hfirst.nextInst]
      exact Nat.lt_of_lt_of_le (hf.old i (hf.mem_reloads.mp hi).1) (Nat.le_add_right _ _)
    · intro i hi
      rcases hreloads i hi with ⟨u,hu,rfl,hnot⟩
      rw [hfirst.users]
      exact ⟨u,List.mem_filter.mpr ⟨hu,by simpa using hnot⟩,rfl⟩
    · intro hne
      rcases List.exists_mem_of_ne_nil _ hne with ⟨i,hi⟩
      rcases hreloads i hi with ⟨u,hu,_⟩
      rw [hfirst.vregs]
      exact h.word (List.ne_nil_of_mem hu)
  rcases hrun₂ with ⟨vs₂,f₂,hrun₂⟩
  rcases rewritten_of_runs hf hr hrun₁ hrun₂ with ⟨hboth,hsteps',rfl,rfl,_⟩
  have hfinal : t = f₂.numbering := stepAll_unique hsteps hsteps'
  rcases hboth.ranges hf hr (hfinal ▸ hinc) (by rw [← hfinal,hlayout,hplace]) with ⟨g,hg,_⟩
  exact ⟨fuel,_,_,spill_eq_ok.mpr ⟨_,_,_,_,_,hrun₁,hrun₂,hg,rfl,rfl⟩⟩

/-- A spill that comes to an end had room for its insertions, and rewrote the function as it
should. -/
theorem spill_spec (hf : WellFormed f) (hr : r < f.nextVReg)
    (h : spill fuel r f = .ok (newVregs,f')) : Spillable f r ∧ Spilled f f' r := by
  rcases spill_eq_ok.mp h with ⟨vs₁,f₁,vs₂,f₂,g,h₁,h₂,hg,rfl,rfl⟩
  rcases rewritten_of_runs hf hr h₁ h₂ with ⟨hboth,hsteps,rfl,rfl,hword⟩
  rcases computeAllRanges_spec hg with ⟨hsame,hpoints⟩
  rcases hf.spillOps_place (r := r) with ⟨hvalid,hplace⟩
  have hinserted := WellFormed.inserted_spillOps f r
  have hnumber : ∀ op ∈ f.spillOps r, ∀ j, inserted? op = some j →
      ∃ k, k < (f.defs r).length+(f.reloads r).length ∧ j = f.nextInst+k := by
    intro op hop j hj
    have hmem : some j ∈ (f.spillOps r).map inserted? := hj ▸ List.mem_map_of_mem hop
    rw [hinserted] at hmem
    rcases List.mem_map.mp hmem with ⟨m,hm,hmj⟩
    rcases List.mem_range'.mp hm with ⟨k,hk,rfl⟩
    exact ⟨k,hk,by rw [← Option.some.inj hmj,Nat.one_mul]⟩
  have hdistinct : ((f.spillOps r).map inserted?).Nodup := by
    rw [hinserted]
    exact (List.nodup_range' ..).map (Option.some_injective _)
  have hroom : RunMeets (f.spillOps r) f.numbering := by
    rcases meets_of_stepAll hf.increasing hf.nodup hvalid hdistinct (fun op hop j hj => by
        rcases hnumber op hop j hj with ⟨k,_,rfl⟩
        exact hf.noPoint _ (Nat.le_add_right _ _)) hsteps with hmeets | ⟨op,hop,j,hj,hnone⟩
    · exact hmeets
    · -- an instruction that was not placed has no point, and its register no range
      exfalso
      rcases hnumber op hop j hj with ⟨k,hk,rfl⟩
      by_cases hd : k < (f.defs r).length
      · rcases hboth.users_def hf hr (List.getElem?_eq_getElem hd) with ⟨u,_,_,husers⟩
        refine hpoints (f.nextVReg+k) (List.mem_append_left _ (List.mem_range'.mpr
          ⟨k,hd,by omega⟩)) ⟨f.nextInst+k,true,false⟩ ?_ hnone
        rw [husers]
        simp
      · have hu : k-(f.defs r).length < (f.reloads r).length := by omega
        rcases hboth.users_use hf (List.getElem?_eq_getElem hu) with ⟨u,_,_,_,husers⟩
        have hsum : f.nextInst+k = f.nextInst+(f.defs r).length+(k-(f.defs r).length) := by omega
        rw [hsum] at hnone
        refine hpoints (f.nextVReg+(f.defs r).length+(k-(f.defs r).length))
          (List.mem_append_right _ (List.mem_range'.mpr ⟨_,hu,by omega⟩))
          ⟨f.nextInst+(f.defs r).length+(k-(f.defs r).length),false,true⟩ ?_ hnone
        rw [husers]
        simp
  rcases stepAll_of_meets hf.increasing hf.nodup hvalid hroom with ⟨fuel',t,hsteps',hlayout,_⟩
  have hfinal := stepAll_unique hsteps hsteps'
  exact ⟨⟨hroom,hword⟩,hboth.spilled hf hsame (by rw [hfinal,hlayout,hplace])⟩

end Spiller
end Codegen
end OlaLang
