import OlaLang.DominatorTree

/-! The main loop of the dominator tree: the semidominators, the forest of the linked blocks with its
shortened paths, and the buckets. -/
namespace OlaLang
namespace Codegen
namespace DominatorTree

open DepthFirstTree (Anc IsTree IsSemi Detour Dominates)

variable {B : Type} [DecidableEq B]

/-- The semidominators with respect to the numbers of a context. -/
def Semi (g : Cfg B) (c : Context B) (w s : B) : Prop :=
  IsSemi (fun u w => w ∈ g.succs u) (· ∈ c.vertex) c.vertex.idxOf w s

/-! ### Paths in the forest -/

/-- `b` is on the path from below `a` down to `v`, and no block on that path, all of which have at
least the number `L`, has an earlier semidominator. -/
structure Covers (c₀ : Context B) (σ : B → B) (L : ℕ) (a v b : B) : Prop where
  anc : Anc c₀.parent a v
  ne : a ≠ v
  best_anc : Anc c₀.parent b v
  best_lt : c₀.vertex.idxOf a < c₀.vertex.idxOf b
  linked : ∀ x, Anc c₀.parent x v → c₀.vertex.idxOf a < c₀.vertex.idxOf x → L ≤ c₀.vertex.idxOf x
  least : ∀ x, Anc c₀.parent x v → c₀.vertex.idxOf a < c₀.vertex.idxOf x →
    c₀.vertex.idxOf (σ b) ≤ c₀.vertex.idxOf (σ x)

/-- The blocks from number `L` on are linked and have their semidominators. -/
structure Forest (c₀ : Context B) (σ : B → B) (L : ℕ) (c : Context B) : Prop where
  dfnum : c.dfnum = c₀.dfnum
  vertex : c.vertex = c₀.vertex
  parent : c.parent = c₀.parent
  semi : ∀ v ∈ c₀.vertex, L ≤ c₀.vertex.idxOf v → c.semi v = some (σ v)
  ancestor_none : ∀ v ∈ c₀.vertex, c₀.vertex.idxOf v < L → c.ancestor v = none
  linked : ∀ v ∈ c₀.vertex, L ≤ c₀.vertex.idxOf v →
    ∃ a b, c.ancestor v = some a ∧ c.best v = some b ∧ Covers c₀ σ L a v b

/-- What a query for `v` may change: ancestors and best blocks of `v` and the blocks before it. -/
structure Compressed (c₀ : Context B) (v : B) (c d : Context B) : Prop where
  rest : d = { c with ancestor := d.ancestor,best := d.best }
  later : ∀ z, c₀.vertex.idxOf v < c₀.vertex.idxOf z →
    d.ancestor z = c.ancestor z ∧ d.best z = c.best z

section Query

variable {g : Cfg B} {c₀ c d : Context B} {σ : B → B} {L fuel n m : ℕ} {v a b r x : B}

theorem ancestorWithLowestSemi_unlinked (ha : c.ancestor v = some a) (hr : c.ancestor a = none)
    (hb : c.best v = some b) : ancestorWithLowestSemi (fuel+1) v c = some (b,c) := by
  simp [ancestorWithLowestSemi,ha,hr,hb]

theorem ancestorWithLowestSemi_linked {b' : B} (ha : c.ancestor v = some a)
    (hlinked : (c.ancestor a).isSome) (hrec : ancestorWithLowestSemi fuel a c = some (b,d))
    (hr : d.ancestor a = some r) (hn : (d.semi b).bind d.dfnum = some n)
    (hb : d.best v = some b') (hm : (d.semi b').bind d.dfnum = some m) :
    ancestorWithLowestSemi (fuel+1) v c = some (if n < m then b else b',
      { d with
        ancestor := Function.update d.ancestor v (some r)
        best := Function.update d.best v (some (if n < m then b else b')) }) := by
  have hself : Function.update d.best v (some b') = d.best := by
    rw [← hb,Function.update_eq_self]
  by_cases hlt : n < m
  · simp [ancestorWithLowestSemi,ha,hlinked,hrec,hr,hn,hb,hm,hlt]
  · simp [ancestorWithLowestSemi,ha,hlinked,hrec,hr,hn,hb,hm,hlt,hself]

/-- The paths from `r` to `a` and from `a` to `v` are put together. -/
theorem Covers.trans (S : Start g c₀) {b' : B} (hv : v ∈ c₀.vertex) (h : Covers c₀ σ L r a b)
    (h' : Covers c₀ σ L a v b') :
    Covers c₀ σ L r v
      (if c₀.vertex.idxOf (σ b) < c₀.vertex.idxOf (σ b') then b else b') := by
  have ha := S.tree.anc_reached h'.anc hv
  have hra := S.tree.num_lt_of_anc h.anc ha h.ne
  have hav := S.tree.num_lt_of_anc h'.anc hv h'.ne
  have hparts : ∀ x, Anc c₀.parent x v → c₀.vertex.idxOf r < c₀.vertex.idxOf x →
      c₀.vertex.idxOf a < c₀.vertex.idxOf x ∨ Anc c₀.parent x a := by
    intro x hx _
    rcases Nat.lt_or_ge (c₀.vertex.idxOf a) (c₀.vertex.idxOf x) with hlt | hle
    · exact .inl hlt
    · exact .inr (S.tree.anc_of_le hx h'.anc hv hle)
  have hlinked : ∀ x, Anc c₀.parent x v → c₀.vertex.idxOf r < c₀.vertex.idxOf x →
      L ≤ c₀.vertex.idxOf x := fun x hx hrx => (hparts x hx hrx).elim
    (h'.linked x hx) fun hxa => h.linked x hxa hrx
  have hne : r ≠ v := by
    rintro rfl
    exact Nat.lt_asymm hra hav
  by_cases hlt : c₀.vertex.idxOf (σ b) < c₀.vertex.idxOf (σ b')
  · rw [if_pos hlt]
    refine ⟨h.anc.trans h'.anc,hne,h.best_anc.trans h'.anc,h.best_lt,hlinked,fun x hx hrx => ?_⟩
    rcases hparts x hx hrx with hax | hxa
    · exact le_trans (Nat.le_of_lt hlt) (h'.least x hx hax)
    · exact h.least x hxa hrx
  · rw [if_neg hlt]
    refine ⟨h.anc.trans h'.anc,hne,h'.best_anc,lt_trans hra h'.best_lt,hlinked,fun x hx hrx => ?_⟩
    rcases hparts x hx hrx with hax | hxa
    · exact h'.least x hx hax
    · exact le_trans (not_lt.mp hlt) (h.least x hxa hrx)

theorem Forest.semiNum (S : Start g c₀) (hσ : ∀ v ∈ c₀.vertex, v ≠ g.entry → Semi g c₀ v (σ v))
    (F : Forest c₀ σ L c) (hpos : 0 < L) (hv : v ∈ c₀.vertex) (hL : L ≤ c₀.vertex.idxOf v) :
    (c.semi v).bind c.dfnum = some (c₀.vertex.idxOf (σ v)) := by
  rw [F.semi v hv hL,Option.bind_some,F.dfnum]
  exact S.dfnum_eq (hσ v hv (S.ne_entry (lt_of_lt_of_le hpos hL))).reached

/-- A query finds the first block that is not linked above `v`, hangs `v` and what it passed from it,
and returns a block with the earliest semidominator below. By induction on the calls: the call for
the ancestor of `v` leaves that one hanging from the block that is not linked. -/
theorem ancestorWithLowestSemi_spec (S : Start g c₀)
    (hσ : ∀ v ∈ c₀.vertex, v ≠ g.entry → Semi g c₀ v (σ v)) (hpos : 0 < L)
    (F : Forest c₀ σ L c) (hv : v ∈ c₀.vertex) (hL : L ≤ c₀.vertex.idxOf v)
    (hfuel : c₀.vertex.idxOf v < fuel) :
    ∃ b d r, ancestorWithLowestSemi fuel v c = some (b,d) ∧ Forest c₀ σ L d ∧
      Compressed c₀ v c d ∧ d.ancestor v = some r ∧ c₀.vertex.idxOf r < L ∧ Covers c₀ σ L r v b := by
  induction fuel generalizing v c with
  | zero => exact absurd hfuel (Nat.not_lt_zero _)
  | succ fuel ih =>
    obtain ⟨a,b',ha,hb',hcov⟩ := F.linked v hv hL
    have hamem := S.tree.anc_reached hcov.anc hv
    have hav := S.tree.num_lt_of_anc hcov.anc hv hcov.ne
    rcases Nat.lt_or_ge (c₀.vertex.idxOf a) L with haL | haL
    · exact ⟨b',c,a,ancestorWithLowestSemi_unlinked ha (F.ancestor_none a hamem haL) hb',F,
        ⟨rfl,fun _ _ => ⟨rfl,rfl⟩⟩,ha,haL,hcov⟩
    · obtain ⟨a₁,_,ha₁,-,-⟩ := F.linked a hamem haL
      obtain ⟨b,d,r,hrec,F',hcomp,hr,hrL,hcov'⟩ := ih F hamem haL (by omega)
      have hbmem := S.tree.anc_reached hcov'.best_anc hamem
      have hb'mem := S.tree.anc_reached hcov.best_anc hv
      have hn := F'.semiNum S hσ hpos hbmem (hcov'.linked b hcov'.best_anc hcov'.best_lt)
      have hm := F'.semiNum S hσ hpos hb'mem (hcov.linked b' hcov.best_anc hcov.best_lt)
      have hbd : d.best v = some b' := (hcomp.later v hav).2.trans hb'
      refine ⟨_,_,r,ancestorWithLowestSemi_linked ha (by rw [ha₁]; rfl) hrec hr hn hbd hm,?_,?_,
        Function.update_self _ _ _,hrL,hcov'.trans S hv hcov⟩
      · refine ⟨F'.dfnum,F'.vertex,F'.parent,F'.semi,fun z hz hzL => ?_,fun z hz hzL => ?_⟩
        · have hne : z ≠ v := fun heq => absurd hL (not_le.mpr (heq ▸ hzL))
          exact (Function.update_of_ne hne _ _).trans (F'.ancestor_none z hz hzL)
        · by_cases hzv : z = v
          · subst hzv
            exact ⟨r,_,Function.update_self _ _ _,Function.update_self _ _ _,
              hcov'.trans S hv hcov⟩
          · obtain ⟨p,q,hp,hq,hc⟩ := F'.linked z hz hzL
            exact ⟨p,q,(Function.update_of_ne hzv _ _).trans hp,
              (Function.update_of_ne hzv _ _).trans hq,hc⟩
      · refine ⟨?_,fun z hz => ?_⟩
        · rw [hcomp.rest]
        · have hne : z ≠ v := fun heq => Nat.lt_irrefl _ (heq ▸ hz)
          obtain ⟨hanc,hbest⟩ := hcomp.later z (lt_trans hav hz)
          exact ⟨(Function.update_of_ne hne _ _).trans hanc,
            (Function.update_of_ne hne _ _).trans hbest⟩

end Query

/-! ### Semidominators -/

section Predecessors

variable {g : Cfg B} {c₀ c : Context B} {σ : B → B} {fuel : ℕ} {w s v : B}

/-- The best candidate for the semidominator of `w` after some of the predecessors. -/
structure Candidate (g : Cfg B) (c₀ : Context B) (σ : B → B) (w : B) (done : List B) (s : B) :
    Prop where
  mem : s ∈ c₀.vertex
  detour : Detour (fun u w => w ∈ g.succs u) c₀.vertex.idxOf s w
  lt : c₀.vertex.idxOf s < c₀.vertex.idxOf w
  before : ∀ u ∈ done, u ∈ c₀.vertex → c₀.vertex.idxOf u < c₀.vertex.idxOf w →
    c₀.vertex.idxOf s ≤ c₀.vertex.idxOf u
  after : ∀ u ∈ done, u ∈ c₀.vertex → c₀.vertex.idxOf w < c₀.vertex.idxOf u →
    ∀ x, Anc c₀.parent x u → c₀.vertex.idxOf w < c₀.vertex.idxOf x →
      c₀.vertex.idxOf s ≤ c₀.vertex.idxOf (σ x)

/-- One more predecessor, and a candidate that is as good as the old one and as what this
predecessor offers. -/
theorem Candidate.cons {done : List B} {s' : B} (h : Candidate g c₀ σ w done s)
    (hmem : s' ∈ c₀.vertex) (hdetour : Detour (fun u w => w ∈ g.succs u) c₀.vertex.idxOf s' w)
    (hle : c₀.vertex.idxOf s' ≤ c₀.vertex.idxOf s)
    (hbefore : v ∈ c₀.vertex → c₀.vertex.idxOf v < c₀.vertex.idxOf w →
      c₀.vertex.idxOf s' ≤ c₀.vertex.idxOf v)
    (hafter : v ∈ c₀.vertex → c₀.vertex.idxOf w < c₀.vertex.idxOf v →
      ∀ x, Anc c₀.parent x v → c₀.vertex.idxOf w < c₀.vertex.idxOf x →
        c₀.vertex.idxOf s' ≤ c₀.vertex.idxOf (σ x)) : Candidate g c₀ σ w (v::done) s' where
  mem := hmem
  detour := hdetour
  lt := lt_of_le_of_lt hle h.lt
  before u hu hmem hlt := by
    rcases List.mem_cons.mp hu with rfl | hu
    · exact hbefore hmem hlt
    · exact le_trans hle (h.before u hu hmem hlt)
  after u hu hmem hlt x hx hwx := by
    rcases List.mem_cons.mp hu with rfl | hu
    · exact hafter hmem hlt x hx hwx
    · exact le_trans hle (h.after u hu hmem hlt x hx hwx)

/-- The earlier one of two candidates. -/
theorem Candidate.choose {done : List B} {s' : B} (h : Candidate g c₀ σ w done s)
    (hmem : s' ∈ c₀.vertex) (hdetour : Detour (fun u w => w ∈ g.succs u) c₀.vertex.idxOf s' w)
    (hbefore : v ∈ c₀.vertex → c₀.vertex.idxOf v < c₀.vertex.idxOf w →
      c₀.vertex.idxOf s' ≤ c₀.vertex.idxOf v)
    (hafter : v ∈ c₀.vertex → c₀.vertex.idxOf w < c₀.vertex.idxOf v →
      ∀ x, Anc c₀.parent x v → c₀.vertex.idxOf w < c₀.vertex.idxOf x →
        c₀.vertex.idxOf s' ≤ c₀.vertex.idxOf (σ x)) :
    Candidate g c₀ σ w (v::done)
      (if c₀.vertex.idxOf s' < c₀.vertex.idxOf s then s' else s) := by
  by_cases hlt : c₀.vertex.idxOf s' < c₀.vertex.idxOf s
  · rw [if_pos hlt]
    exact h.cons hmem hdetour (Nat.le_of_lt hlt) hbefore hafter
  · rw [if_neg hlt]
    have hle := not_lt.mp hlt
    exact h.cons h.mem h.detour (le_refl _) (fun hv hvw => le_trans hle (hbefore hv hvw))
      fun hv hwv x hx hwx => le_trans hle (hafter hv hwv x hx hwx)

theorem considerPred_spec (S : Start g c₀) (hσ : ∀ v ∈ c₀.vertex, v ≠ g.entry → Semi g c₀ v (σ v))
    (hfuel : c₀.vertex.length ≤ fuel) (hw : w ∈ c₀.vertex) {done : List B}
    (F : Forest c₀ σ (c₀.vertex.idxOf w+1) c) (h : Candidate g c₀ σ w done s)
    (hv : v ∈ c₀.vertex → w ∈ g.succs v) :
    ∃ s' d, considerPred fuel w (s,c) v = some (s',d) ∧
      Forest c₀ σ (c₀.vertex.idxOf w+1) d ∧
      d = { c with ancestor := d.ancestor,best := d.best } ∧ Candidate g c₀ σ w (v::done) s' := by
  have hsnum := S.dfnum_eq h.mem
  have hwnum := S.dfnum_eq hw
  by_cases hmem : v ∈ c₀.vertex
  · have hvnum := S.dfnum_eq hmem
    have hedge := hv hmem
    rcases Nat.lt_or_ge (c₀.vertex.idxOf w) (c₀.vertex.idxOf v) with hlt | hle
    · obtain ⟨n,d,r,hquery,F',hcomp,-,hr,hcov⟩ := ancestorWithLowestSemi_spec S hσ
        (Nat.succ_pos _) F hmem hlt (lt_of_lt_of_le (List.idxOf_lt_length_iff.mpr hmem) hfuel)
      have hn := S.tree.anc_reached hcov.best_anc hmem
      have hwn := hcov.linked n hcov.best_anc hcov.best_lt
      have hsemi := hσ n hn (S.ne_entry (Nat.zero_lt_of_lt hwn))
      have hσnum := S.dfnum_eq hsemi.reached
      refine ⟨_,d,?_,F',hcomp.rest,h.choose hsemi.reached
        (S.tree.detour_below hsemi.detour hcov.best_anc hmem hwn hedge)
        (fun _ hvw => absurd hvw (Nat.lt_asymm hlt))
        fun _ _ x hx hwx => hcov.least x hx (lt_of_le_of_lt (Nat.lt_succ_iff.mp hr) hwx)⟩
      simp [considerPred,F.dfnum,hvnum,hwnum,not_le.mpr hlt,hquery,F'.semi n hn hwn,F'.dfnum,
        hσnum,hsnum]
    · refine ⟨_,c,?_,F,rfl,h.choose hmem ⟨v,.refl,hedge⟩ (fun _ _ => le_refl _)
        fun _ hwv => absurd hwv (not_lt.mpr hle)⟩
      simp [considerPred,F.dfnum,hvnum,hwnum,hle,hsnum]
  · refine ⟨s,c,?_,F,rfl,h.cons h.mem h.detour (le_refl _) (fun hv => absurd hv hmem)
      fun hv => absurd hv hmem⟩
    have hnone : c₀.dfnum v = none := by rw [S.numbered v,if_neg hmem]
    simp [considerPred,F.dfnum,hnone]

theorem foldlM_considerPred (S : Start g c₀)
    (hσ : ∀ v ∈ c₀.vertex, v ≠ g.entry → Semi g c₀ v (σ v))
    (hfuel : c₀.vertex.length ≤ fuel) (hw : w ∈ c₀.vertex) {done l : List B}
    (F : Forest c₀ σ (c₀.vertex.idxOf w+1) c) (h : Candidate g c₀ σ w done s)
    (hl : ∀ v ∈ l, v ∈ c₀.vertex → w ∈ g.succs v) :
    ∃ s' d, l.foldlM (considerPred fuel w) (s,c) = some (s',d) ∧
      Forest c₀ σ (c₀.vertex.idxOf w+1) d ∧
      d = { c with ancestor := d.ancestor,best := d.best } ∧
      Candidate g c₀ σ w (l.reverse ++ done) s' := by
  induction l generalizing s c done with
  | nil => exact ⟨s,c,rfl,F,rfl,h⟩
  | cons v l ih =>
    obtain ⟨s₁,c₁,hstep,F₁,hrest₁,h₁⟩ :=
      considerPred_spec S hσ hfuel hw F h (hl v List.mem_cons_self)
    obtain ⟨s₂,c₂,hloop,F₂,hrest₂,h₂⟩ := ih F₁ h₁ fun u hu => hl u (List.mem_cons_of_mem v hu)
    refine ⟨s₂,c₂,?_,F₂,?_,?_⟩
    · rw [List.foldlM_cons,hstep]
      exact hloop
    · rw [hrest₂,hrest₁]
    · rw [List.reverse_cons,List.append_assoc]
      exact h₂

/-- The loop over the predecessors finds the semidominator. -/
theorem semi_found (S : Start g c₀) (hσ : ∀ v ∈ c₀.vertex, v ≠ g.entry → Semi g c₀ v (σ v))
    (hfuel : c₀.vertex.length ≤ fuel) (hw : w ∈ c₀.vertex) (hne : w ≠ g.entry) {pred : B}
    (hpred : c₀.parent w = some pred) (F : Forest c₀ σ (c₀.vertex.idxOf w+1) c) :
    ∃ d, (g.preds w).foldlM (considerPred fuel w) (pred,c) = some (σ w,d) ∧
      Forest c₀ σ (c₀.vertex.idxOf w+1) d ∧
      d = { c with ancestor := d.ancestor,best := d.best } := by
  obtain ⟨hp,hedge,hlt⟩ := S.tree.parent_spec hw hpred
  have hpreds : ∀ u ∈ c₀.vertex, u ∈ g.preds w ↔ w ∈ g.succs u := fun u hu =>
    g.mem_preds u (S.mem_order u hu) w (S.mem_order w hw)
  have hfirst : Candidate g c₀ σ w [] pred :=
    ⟨hp,⟨pred,.refl,hedge⟩,hlt,fun u hu => absurd hu List.not_mem_nil,
      fun u hu => absurd hu List.not_mem_nil⟩
  obtain ⟨s,d,hloop,F',hrest,h⟩ := foldlM_considerPred S hσ hfuel hw F hfirst
    fun v hv hmem => (hpreds v hmem).mp hv
  rw [List.append_nil] at h
  have hsemi : Semi g c₀ w s := S.tree.isSemi_of_preds h.mem h.detour h.lt
    (fun u hu hedge huw => h.before u (List.mem_reverse.mpr ((hpreds u hu).mpr hedge)) hu huw)
    fun u hu hedge hwu x hx hwx => by
      have hx' := S.tree.anc_reached hx hu
      exact ⟨σ x,hσ x hx' (S.ne_entry (Nat.zero_lt_of_lt hwx)),
        h.after u (List.mem_reverse.mpr ((hpreds u hu).mpr hedge)) hu hwu x hx hwx⟩
  rw [S.tree.semi_unique hsemi (hσ w hw hne)] at hloop
  exact ⟨d,hloop,F',hrest⟩

end Predecessors

/-! ### Buckets -/

/-- What has been found out about immediate and relative dominators is right in the sense of the
algorithm. -/
structure Results (g : Cfg B) (c₀ : Context B) (σ : B → B) (c : Context B) : Prop where
  idom : ∀ v s, c.idom v = some s → v ∈ c₀.vertex ∧ v ≠ g.entry ∧ s = σ v
  samedom : ∀ v y, c.samedom v = some y → v ∈ c₀.vertex ∧ v ≠ g.entry ∧ Anc c₀.parent y v ∧ y ≠ v ∧
    c₀.vertex.idxOf (σ v) < c₀.vertex.idxOf y ∧ c₀.vertex.idxOf (σ y) < c₀.vertex.idxOf (σ v)

def Solved (c : Context B) (v : B) : Prop := (c.idom v).isSome ∨ (c.samedom v).isSome

section Buckets

variable {g : Cfg B} {c₀ c : Context B} {σ : B → B} {L fuel : ℕ} {v w pred : B}

theorem Forest.congr {d : Context B} (F : Forest c₀ σ L c) (h : d.dfnum = c.dfnum)
    (hv : d.vertex = c.vertex) (hp : d.parent = c.parent) (hs : d.semi = c.semi)
    (ha : d.ancestor = c.ancestor) (hb : d.best = c.best) : Forest c₀ σ L d where
  dfnum := h.trans F.dfnum
  vertex := hv.trans F.vertex
  parent := hp.trans F.parent
  semi := hs ▸ F.semi
  ancestor_none := ha ▸ F.ancestor_none
  linked := by
    rw [ha,hb]
    exact F.linked

theorem resolve_spec (S : Start g c₀) (hσ : ∀ v ∈ c₀.vertex, v ≠ g.entry → Semi g c₀ v (σ v))
    (hfuel : c₀.vertex.length ≤ fuel) (hpos : 0 < L) (hpred : c₀.vertex.idxOf pred < L)
    (F : Forest c₀ σ L c) (R : Results g c₀ σ c) (hv : v ∈ c₀.vertex)
    (hL : L ≤ c₀.vertex.idxOf v) (hσv : σ v = pred) :
    ∃ d, resolve fuel pred c v = some d ∧ Forest c₀ σ L d ∧ Results g c₀ σ d ∧
      d.bucket = c.bucket ∧ Solved d v ∧ ∀ z, Solved c z → Solved d z := by
  obtain ⟨y,d,r,hquery,F',hcomp,-,hr,hcov⟩ := ancestorWithLowestSemi_spec S hσ hpos F hv hL
    (lt_of_lt_of_le (List.idxOf_lt_length_iff.mpr hv) hfuel)
  have hy := S.tree.anc_reached hcov.best_anc hv
  have hyL := hcov.linked y hcov.best_anc hcov.best_lt
  have hsy := F'.semi y hy hyL
  have hsv := F'.semi v hv hL
  have hrest := hcomp.rest
  have hidom : d.idom = c.idom := by rw [hrest]
  have hsame : d.samedom = c.samedom := by rw [hrest]
  have hbucket : d.bucket = c.bucket := by rw [hrest]
  have hne := S.ne_entry (lt_of_lt_of_le hpos hL)
  by_cases hcase : σ y = σ v
  · refine ⟨{ d with idom := Function.update d.idom v (some pred) },?_,
      F'.congr rfl rfl rfl rfl rfl rfl,⟨fun z s hz => ?_,fun z x hz => ?_⟩,hbucket,?_,fun z hz => ?_⟩
    · simp [resolve,hquery,hsy,hsv,hcase]
    · change Function.update d.idom v (some pred) z = some s at hz
      by_cases hzv : z = v
      · subst hzv
        rw [Function.update_self] at hz
        cases hz
        exact ⟨hv,hne,hσv.symm⟩
      · rw [Function.update_of_ne hzv,hidom] at hz
        exact R.idom z s hz
    · exact R.samedom z x (by rw [← hsame]; exact hz)
    · exact .inl (by simp)
    · by_cases hzv : z = v
      · exact .inl (by simp [hzv])
      · simpa [Solved,hzv,hidom,hsame] using hz
  · have hleast := hcov.least v .refl (S.tree.num_lt_of_anc hcov.anc hv hcov.ne)
    have hlt : c₀.vertex.idxOf (σ y) < c₀.vertex.idxOf (σ v) := by
      refine lt_of_le_of_ne hleast fun heq => hcase ?_
      have hyne := S.ne_entry (lt_of_lt_of_le hpos hyL)
      exact S.tree.num_inj _ _ (hσ y hy hyne).reached (hσ v hv hne).reached heq
    refine ⟨{ d with samedom := Function.update d.samedom v (some y) },?_,
      F'.congr rfl rfl rfl rfl rfl rfl,⟨fun z s hz => ?_,fun z x hz => ?_⟩,hbucket,?_,fun z hz => ?_⟩
    · simp [resolve,hquery,hsy,hsv,hcase]
    · exact R.idom z s (by rw [← hidom]; exact hz)
    · change Function.update d.samedom v (some y) z = some x at hz
      by_cases hzv : z = v
      · subst hzv
        rw [Function.update_self] at hz
        cases hz
        refine ⟨hv,hne,hcov.best_anc,fun heq => hcase (heq ▸ rfl),?_,hlt⟩
        rw [hσv]
        exact lt_of_lt_of_le hpred hyL
      · rw [Function.update_of_ne hzv,hsame] at hz
        exact R.samedom z x hz
    · exact .inr (by simp)
    · by_cases hzv : z = v
      · exact .inr (by simp [hzv])
      · simpa [Solved,hzv,hidom,hsame] using hz

theorem foldlM_resolve (S : Start g c₀)
    (hσ : ∀ v ∈ c₀.vertex, v ≠ g.entry → Semi g c₀ v (σ v))
    (hfuel : c₀.vertex.length ≤ fuel) (hpos : 0 < L) (hpred : c₀.vertex.idxOf pred < L)
    (F : Forest c₀ σ L c) (R : Results g c₀ σ c) {l : List B}
    (hl : ∀ v ∈ l, v ∈ c₀.vertex ∧ L ≤ c₀.vertex.idxOf v ∧ σ v = pred) :
    ∃ d, l.foldlM (resolve fuel pred) c = some d ∧ Forest c₀ σ L d ∧ Results g c₀ σ d ∧
      d.bucket = c.bucket ∧ (∀ v ∈ l, Solved d v) ∧ ∀ z, Solved c z → Solved d z := by
  induction l generalizing c with
  | nil => exact ⟨c,rfl,F,R,rfl,by simp,fun _ hz => hz⟩
  | cons v l ih =>
    obtain ⟨hv,hL,hσv⟩ := hl v List.mem_cons_self
    obtain ⟨c₁,hstep,F₁,R₁,hb₁,hsolved,hkeep₁⟩ :=
      resolve_spec S hσ hfuel hpos hpred F R hv hL hσv
    obtain ⟨c₂,hloop,F₂,R₂,hb₂,hall,hkeep₂⟩ := ih F₁ R₁ fun u hu => hl u (List.mem_cons_of_mem v hu)
    refine ⟨c₂,?_,F₂,R₂,hb₂.trans hb₁,fun u hu => ?_,fun z hz => hkeep₂ z (hkeep₁ z hz)⟩
    · rw [List.foldlM_cons,hstep]
      exact hloop
    · rcases List.mem_cons.mp hu with rfl | hu
      · exact hkeep₂ _ hsolved
      · exact hall u hu

/-- The blocks from number `L` on are done, but for those that wait in the bucket of their
semidominator until its child above them is linked. -/
structure Stage (g : Cfg B) (c₀ : Context B) (σ : B → B) (L : ℕ) (c : Context B) : Prop where
  forest : Forest c₀ σ L c
  results : Results g c₀ σ c
  bucket : ∀ b v, v ∈ c.bucket b → v ∈ c₀.vertex ∧ L ≤ c₀.vertex.idxOf v ∧ σ v = b ∧
    ∀ k ∈ c₀.vertex, c₀.parent k = some b → L ≤ c₀.vertex.idxOf k → ¬ Anc c₀.parent k v
  waiting : ∀ v ∈ c₀.vertex, L ≤ c₀.vertex.idxOf v → v ∈ c.bucket (σ v) ∨ Solved c v

theorem Covers.mono {L' : ℕ} {a b : B} (h : Covers c₀ σ L' a v b) (hle : L ≤ L') :
    Covers c₀ σ L a v b :=
  { h with linked := fun x hx hax => le_trans hle (h.linked x hx hax) }

/-- The next block gets its semidominator and is linked. -/
theorem Forest.link (S : Start g c₀) (hw : w ∈ c₀.vertex) (hpred : c₀.parent w = some pred)
    (F : Forest c₀ σ (c₀.vertex.idxOf w+1) c) {d : Context B}
    (hd : d = ({ c with
      semi := Function.update c.semi w (some (σ w)),bucket := d.bucket } : Context B).link pred w) :
    Forest c₀ σ (c₀.vertex.idxOf w) d := by
  obtain ⟨hp,hedge,hlt⟩ := S.tree.parent_spec hw hpred
  have hsemi : d.semi = Function.update c.semi w (some (σ w)) := by rw [hd]; rfl
  have hanc : d.ancestor = Function.update c.ancestor w (some pred) := by rw [hd]; rfl
  have hbest : d.best = Function.update c.best w (some w) := by rw [hd]; rfl
  have hlater : ∀ v ∈ c₀.vertex, v ≠ w → c₀.vertex.idxOf w ≤ c₀.vertex.idxOf v →
      c₀.vertex.idxOf w+1 ≤ c₀.vertex.idxOf v := fun v hv hne hle =>
    lt_of_le_of_ne hle fun heq => hne (S.tree.num_inj v w hv hw heq.symm)
  have hself : ∀ x, Anc c₀.parent x w → c₀.vertex.idxOf pred < c₀.vertex.idxOf x → x = w := by
    intro x hx hlt
    by_contra hne
    obtain ⟨p,hp',hxp⟩ := hx.cases_parent hne
    cases hpred.symm.trans hp'
    exact absurd (S.tree.num_le_of_anc hxp hp) (not_le.mpr hlt)
  refine ⟨by rw [hd]; exact F.dfnum,by rw [hd]; exact F.vertex,by rw [hd]; exact F.parent,
    fun v hv hL => ?_,fun v hv hL => ?_,fun v hv hL => ?_⟩
  · rw [hsemi]
    by_cases hvw : v = w
    · rw [hvw,Function.update_self]
    · rw [Function.update_of_ne hvw]
      exact F.semi v hv (hlater v hv hvw hL)
  · have hvw : v ≠ w := fun heq => Nat.lt_irrefl _ (heq ▸ hL)
    rw [hanc,Function.update_of_ne hvw]
    exact F.ancestor_none v hv (Nat.lt_succ_of_lt hL)
  · rw [hanc,hbest]
    by_cases hvw : v = w
    · subst hvw
      refine ⟨pred,v,Function.update_self _ _ _,Function.update_self _ _ _,
        Relation.ReflTransGen.single hpred,fun heq => Nat.lt_irrefl _ (heq ▸ hlt),.refl,hlt,
        fun x hx hax => ?_,fun x hx hax => ?_⟩
      · rw [hself x hx hax]
      · rw [hself x hx hax]
    · obtain ⟨a,b,ha,hb,hcov⟩ := F.linked v hv (hlater v hv hvw hL)
      rw [Function.update_of_ne hvw,Function.update_of_ne hvw]
      exact ⟨a,b,ha,hb,hcov.mono (Nat.le_succ _)⟩

end Buckets

/-! ### The main loop -/

section Loop

variable {g : Cfg B} {c₀ c d : Context B} {σ : B → B} {L fuel : ℕ} {v w pred b : B}

/-- The block that has just been linked goes to the bucket of its semidominator. -/
theorem mem_bucket_insert :
    v ∈ Function.update c.bucket (σ w) ((c.bucket (σ w)).insert w) b ↔
      v = w ∧ b = σ w ∨ v ∈ c.bucket b := by
  by_cases hb : b = σ w
  · subst hb
    rw [Function.update_self,List.mem_insert_iff]
    simp
  · rw [Function.update_of_ne hb]
    simp [hb]

/-- The buckets when the bucket of the parent of the linked block has been emptied. -/
theorem Stage.next (S : Start g c₀) (hw : w ∈ c₀.vertex) (hpred : c₀.parent w = some pred)
    (h : Stage g c₀ σ (c₀.vertex.idxOf w+1) c) (F : Forest c₀ σ (c₀.vertex.idxOf w) d)
    (R : Results g c₀ σ d)
    (hbucket : d.bucket = Function.update (Function.update c.bucket (σ w)
      ((c.bucket (σ w)).insert w)) pred [])
    (hsolved : ∀ v, v = w ∧ pred = σ w ∨ v ∈ c.bucket pred → Solved d v)
    (hkeep : ∀ v, Solved c v → Solved d v) : Stage g c₀ σ (c₀.vertex.idxOf w) d := by
  have hsame : ∀ v ∈ c₀.vertex, c₀.vertex.idxOf w = c₀.vertex.idxOf v → v = w := fun v hv heq =>
    S.tree.num_inj v w hv hw heq.symm
  refine ⟨F,R,fun b v hv => ?_,fun v hv hL => ?_⟩
  · rw [hbucket] at hv
    by_cases hb : b = pred
    · subst hb
      rw [Function.update_self] at hv
      cases hv
    · rw [Function.update_of_ne hb,mem_bucket_insert] at hv
      rcases hv with ⟨rfl,rfl⟩ | hv
      · refine ⟨hw,le_refl _,rfl,fun k hk hkb hL hanc => ?_⟩
        have hle := S.tree.num_le_of_anc hanc hw
        rw [hsame k hk (le_antisymm hL hle)] at hkb
        exact hb (Option.some.inj (hkb.symm.trans hpred))
      · obtain ⟨hmem,hL,hσv,hnot⟩ := h.bucket b v hv
        refine ⟨hmem,Nat.le_of_succ_le hL,hσv,fun k hk hkb hLk => ?_⟩
        refine hnot k hk hkb (lt_of_le_of_ne hLk fun heq => hb ?_)
        rw [hsame k hk heq] at hkb
        exact Option.some.inj (hkb.symm.trans hpred)
  · have hcases : v = w ∧ σ v = σ w ∨ v ∈ c.bucket (σ v) ∨ Solved c v := by
      by_cases hvw : v = w
      · exact .inl ⟨hvw,by rw [hvw]⟩
      · exact .inr (h.waiting v hv (lt_of_le_of_ne hL fun heq => hvw (hsame v hv heq)))
    rw [hbucket]
    by_cases hvp : σ v = pred
    · refine .inr ?_
      rcases hcases with ⟨rfl,_⟩ | hmem | hdone
      · exact hsolved v (.inl ⟨rfl,hvp.symm⟩)
      · exact hsolved v (.inr (hvp ▸ hmem))
      · exact hkeep v hdone
    · rw [Function.update_of_ne hvp,mem_bucket_insert]
      rcases hcases with hnew | hmem | hdone
      · exact .inl (.inl hnew)
      · exact .inl (.inr hmem)
      · exact .inr (hkeep v hdone)

theorem processNode_spec (S : Start g c₀)
    (hσ : ∀ v ∈ c₀.vertex, v ≠ g.entry → Semi g c₀ v (σ v)) (h : SetOrder B)
    (hfuel : c₀.vertex.length ≤ fuel) (hw : w ∈ c₀.vertex) (hpos : 0 < c₀.vertex.idxOf w)
    (hc : Stage g c₀ σ (c₀.vertex.idxOf w+1) c) :
    ∃ d, processNode g h fuel c w = some d ∧ Stage g c₀ σ (c₀.vertex.idxOf w) d := by
  have hne := S.ne_entry hpos
  obtain ⟨pred,hpred,hp,-,hlt⟩ := S.tree.parent_of w hw hne
  obtain ⟨c₁,hpreds,F₁,hrest⟩ := semi_found S hσ hfuel hw hne hpred hc.forest
  let c₂ : Context B := ({ c₁ with
    semi := Function.update c₁.semi w (some (σ w))
    bucket := Function.update c₁.bucket (σ w) ((c₁.bucket (σ w)).insert w) } : Context B).link pred w
  have hbucket₁ : c₁.bucket = c.bucket := by rw [hrest]
  have hidom : c₂.idom = c.idom := by simp only [c₂,Context.link]; rw [hrest]
  have hsame : c₂.samedom = c.samedom := by simp only [c₂,Context.link]; rw [hrest]
  have hbucket₂ : c₂.bucket = Function.update c.bucket (σ w) ((c.bucket (σ w)).insert w) := by
    simp only [c₂,Context.link,hbucket₁]
  have F₂ : Forest c₀ σ (c₀.vertex.idxOf w) c₂ := F₁.link S hw hpred rfl
  have R₂ : Results g c₀ σ c₂ := ⟨hidom ▸ hc.results.idom,hsame ▸ hc.results.samedom⟩
  have hlist : ∀ v ∈ h.order (c₂.bucket pred),
      v ∈ c₀.vertex ∧ c₀.vertex.idxOf w ≤ c₀.vertex.idxOf v ∧ σ v = pred := by
    intro v hv
    have hv := (h.perm _).mem_iff.mp hv
    rw [hbucket₂,mem_bucket_insert] at hv
    rcases hv with ⟨rfl,heq⟩ | hv
    · exact ⟨hw,le_refl _,heq.symm⟩
    · obtain ⟨hmem,hL,hσv,-⟩ := hc.bucket pred v hv
      exact ⟨hmem,Nat.le_of_succ_le hL,hσv⟩
  obtain ⟨c₃,hloop,F₃,R₃,hbucket₃,hall,hkeep⟩ :=
    foldlM_resolve S hσ hfuel hpos hlt F₂ R₂ hlist
  refine ⟨{ c₃ with bucket := Function.update c₃.bucket pred [] },?_,?_⟩
  · simp only [processNode,hc.forest.parent,hpred,hpreds,Option.bind_eq_bind,Option.bind_some]
    change ((h.order (c₂.bucket pred)).foldlM (resolve fuel pred) c₂).bind _ = _
    rw [hloop]
    rfl
  · refine hc.next S hw hpred (F₃.congr rfl rfl rfl rfl rfl rfl) ⟨R₃.idom,R₃.samedom⟩ ?_
      (fun v hv => hall v ?_) fun v hv => hkeep v ?_
    · rw [hbucket₃,hbucket₂]
    · rw [(h.perm _).mem_iff,hbucket₂,mem_bucket_insert]
      exact hv
    · rw [Solved,hidom,hsame]
      exact hv

/-- The loop from the last block down to number `L`, by induction on the number of its turns. -/
theorem foldlM_processNode (S : Start g c₀)
    (hσ : ∀ v ∈ c₀.vertex, v ≠ g.entry → Semi g c₀ v (σ v)) (h : SetOrder B)
    (hfuel : c₀.vertex.length ≤ fuel) (n : ℕ) (hpos : 0 < L) (hn : L+n = c₀.vertex.length) :
    ∃ d, (c₀.vertex.drop L).reverse.foldlM (processNode g h fuel) c₀ = some d ∧
      Stage g c₀ σ L d := by
  induction n generalizing L with
  | zero =>
    rw [Nat.add_zero] at hn
    have hnone : ∀ v ∈ c₀.vertex, ¬ L ≤ c₀.vertex.idxOf v := by
      rw [hn]
      exact fun v hv => not_le.mpr (List.idxOf_lt_length_iff.mpr hv)
    refine ⟨c₀,by rw [List.drop_of_length_le (Nat.le_of_eq hn.symm)]; rfl,?_,?_,?_,?_⟩
    · refine ⟨rfl,rfl,rfl,fun v hv hL => absurd hL (hnone v hv),fun v hv _ => ?_,
        fun v hv hL => absurd hL (hnone v hv)⟩
      rw [S.empty]
      rfl
    · constructor
      · intro v s hv
        rw [S.empty] at hv
        cases hv
      · intro v y hv
        rw [S.empty] at hv
        cases hv
    · intro b v hv
      rw [S.empty] at hv
      cases hv
    · exact fun v hv hL => absurd hL (hnone v hv)
  | succ n ih =>
    have hlt : L < c₀.vertex.length := by omega
    obtain ⟨d,hloop,hd⟩ := @ih (L+1) (Nat.succ_pos L) (by omega)
    have hidx : c₀.vertex.idxOf c₀.vertex[L] = L := List.Nodup.idxOf_getElem S.nodup L hlt
    obtain ⟨e,hstep,he⟩ := processNode_spec S hσ h hfuel (List.getElem_mem hlt)
      (by rw [hidx]; exact hpos) (by rw [hidx]; exact hd)
    rw [hidx] at he
    refine ⟨e,?_,he⟩
    rw [List.drop_eq_getElem_cons hlt,List.reverse_cons,List.foldlM_append,hloop]
    simp [hstep]

end Loop

/-! ### The constructed tree -/

section Compute

variable {g : Cfg B} {c₀ c : Context B} {v w : B}

theorem foldl_takeSamedom (l : List B) (c : Context B) :
    (l.foldl takeSamedom c).samedom = c.samedom ∧
      ∀ v, (l.foldl takeSamedom c).idom v =
        if v ∈ l then (c.samedom v).or (c.idom v) else c.idom v := by
  induction l generalizing c with
  | nil => simp
  | cons n l ih =>
    have hstep : (takeSamedom c n).samedom = c.samedom ∧
        ∀ v, (takeSamedom c n).idom v = if v = n then (c.samedom v).or (c.idom v) else c.idom v := by
      cases hn : c.samedom n with
      | none =>
        refine ⟨by simp [takeSamedom,hn],fun v => ?_⟩
        by_cases hv : v = n <;> simp [takeSamedom,hn,hv]
      | some s =>
        refine ⟨by simp [takeSamedom,hn],fun v => ?_⟩
        by_cases hv : v = n <;> simp [takeSamedom,hn,hv]
    rw [List.foldl_cons]
    refine ⟨(ih _).1.trans hstep.1,fun v => ?_⟩
    rw [(ih _).2 v,hstep.1,hstep.2 v]
    by_cases hv : v = n
    · subst hv
      cases c.samedom v <;> simp
    · simp [hv]

/-- The immediate dominators that the constructor computes: of every reachable block but the entry
its semidominator or a block in between. -/
structure Computed (g : Cfg B) (c₀ : Context B) (idom : B → Option B) : Prop where
  start : Start g c₀
  spec : DepthFirstTree.FromSemi (fun u w => w ∈ g.succs u) g.entry (· ∈ c₀.vertex)
    c₀.vertex.idxOf c₀.parent idom
  reached : ∀ v s, idom v = some s → v ∈ c₀.vertex ∧ v ≠ g.entry

/-- In the end all buckets are empty: the child of a semidominator on the way to the block has been
linked by then. -/
theorem Stage.computed {σ : B → B} (S : Start g c₀)
    (hσ : ∀ v ∈ c₀.vertex, v ≠ g.entry → Semi g c₀ v (σ v)) (h : Stage g c₀ σ 1 c)
    {l : List B} (hl : c₀.vertex = g.entry::l) :
    Computed g c₀ (l.foldl takeSamedom c).idom := by
  have hidom := (foldl_takeSamedom l c).2
  have hmeml : ∀ v ∈ c₀.vertex, v ≠ g.entry → v ∈ l := fun v hv hne =>
    (List.mem_cons.mp (hl ▸ hv)).resolve_left hne
  have hpos : ∀ v ∈ c₀.vertex, v ≠ g.entry → 1 ≤ c₀.vertex.idxOf v := fun v hv hne =>
    Nat.one_le_iff_ne_zero.mpr fun heq =>
      hne (S.tree.num_inj v g.entry hv S.tree.root_reached (heq.trans S.idxOf_entry.symm))
  refine ⟨S,fun w hw hne => ⟨σ w,hσ w hw hne,?_⟩,fun v s hv => ?_⟩
  · have hsolved : Solved c w := by
      refine (h.waiting w hw (hpos w hw hne)).resolve_left fun hmem => ?_
      have hanc : Anc c₀.parent (σ w) w := S.tree.anc_of_isSemi c₀.vertex.length
        (fun v hv => List.idxOf_lt_length_iff.mpr hv) hw hne (hσ w hw hne)
      have hsw : σ w ≠ w := fun heq =>
        Nat.lt_irrefl _ (heq ▸ S.tree.semi_lt hw hne (hσ w hw hne))
      obtain ⟨k,hk,hkw⟩ := hanc.exists_child hsw
      have hkmem := S.tree.anc_reached hkw hw
      have hkne : k ≠ g.entry := fun heq => by
        rw [heq,S.tree.parent_root] at hk
        cases hk
      exact (h.bucket _ w hmem).2.2.2 k hkmem hk (hpos k hkmem hkne) hkw
    rw [hidom w,if_pos (hmeml w hw hne)]
    cases hsame : c.samedom w with
    | none =>
      rcases hsolved with hs | hs
      · obtain ⟨s,hs⟩ := Option.isSome_iff_exists.mp hs
        rw [(h.results.idom w s hs).2.2] at hs
        exact .inl hs
      · rw [hsame] at hs
        cases hs
    | some y =>
      obtain ⟨-,-,hanc,hyw,hlt,hsy⟩ := h.results.samedom w y hsame
      have hy := S.tree.anc_reached hanc hw
      exact .inr ⟨y,σ y,hanc,hyw,hlt,hσ y hy (S.ne_entry (Nat.zero_lt_of_lt hlt)),hsy,rfl⟩
  · rw [hidom v] at hv
    have hcases : (∃ y, c.samedom v = some y) ∨ c.idom v = some s := by
      cases hsame : c.samedom v with
      | none =>
        rw [hsame] at hv
        exact .inr (by simpa using hv)
      | some y => exact .inl ⟨y,rfl⟩
    rcases hcases with ⟨y,hy⟩ | hs
    · exact ⟨(h.results.samedom v y hy).1,(h.results.samedom v y hy).2.1⟩
    · exact ⟨(h.results.idom v s hs).1,(h.results.idom v s hs).2.1⟩

/-- The constructor reaches its end. -/
theorem compute_computed (g : Cfg B) (h : SetOrder B) :
    ∃ c₀ c, numberByDfs g g.fuel none g.entry new = some c₀ ∧ compute g h = some c ∧
      Computed g c₀ c.idom := by
  obtain ⟨c₀,hdfs,S⟩ := numberByDfs_start g
  obtain ⟨l,hl⟩ := S.vertex_entry
  have hsemi : ∀ v, ∃ s, v ∈ c₀.vertex → v ≠ g.entry → Semi g c₀ v s := by
    intro v
    by_cases hv : v ∈ c₀.vertex ∧ v ≠ g.entry
    · obtain ⟨s,hs⟩ := S.tree.exists_semi hv.1 hv.2
      exact ⟨s,fun _ _ => hs⟩
    · exact ⟨v,fun hmem hne => absurd ⟨hmem,hne⟩ hv⟩
  choose σ hσ using hsemi
  have hlen : 1+(c₀.vertex.length-1) = c₀.vertex.length := by
    rw [hl,List.length_cons]
    omega
  obtain ⟨c,hloop,hc⟩ := foldlM_processNode S hσ h (Nat.le_succ_of_le S.length_le) _
    Nat.one_pos hlen
  have hdrop : c₀.vertex.tail = c₀.vertex.drop 1 := List.drop_one.symm
  have hvertex : c.vertex.tail = l := by rw [hc.forest.vertex,hl,List.tail_cons]
  refine ⟨c₀,l.foldl takeSamedom c,hdfs,?_,hc.computed S hσ hl⟩
  rw [← hdrop] at hloop
  simp only [compute,hdfs,Option.bind_eq_bind,Option.bind_some]
  rw [show Cfg.fuel g = g.order.length.succ from rfl,hloop,Option.bind_some,hvertex]

end Compute

end DominatorTree
end Codegen
end OlaLang
