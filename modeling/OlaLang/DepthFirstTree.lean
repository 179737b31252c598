import Mathlib.Logic.Relation
import Mathlib.Data.Nat.Basic
import Mathlib.Tactic.Push

/-! Depth-first trees of graphs, and what their numbering says about dominators: paths through later
vertices, semidominators, and trees that are built from semidominators. -/
namespace OlaLang
namespace DepthFirstTree

open Relation (ReflTransGen)

variable {V : Type}

/-- `u` is `w` or an ancestor of it. -/
def Anc (parent : V → Option V) : V → V → Prop := ReflTransGen fun p c => parent c = some p

/-- The numbers and parents that a depth-first walk from the root gives to the vertices it reaches. -/
structure IsTree (succ : V → V → Prop) (root : V) (Reached : V → Prop) (num : V → ℕ)
    (parent : V → Option V) : Prop where
  root_reached : Reached root
  parent_root : parent root = none
  parent_of : ∀ w, Reached w → w ≠ root →
    ∃ p, parent w = some p ∧ Reached p ∧ succ p w ∧ num p < num w
  num_inj : ∀ u w, Reached u → Reached w → num u = num w → u = w
  reached_succ : ∀ u w, Reached u → succ u w → Reached w
  anc_of_succ : ∀ u w, Reached u → succ u w → num u < num w → Anc parent u w
  anc_between : ∀ u a b, Reached a → Reached b → Anc parent u a → num u ≤ num b →
    num b ≤ num a → Anc parent u b

/-- Walks from the root, the last vertex first. -/
inductive Walk (succ : V → V → Prop) (root : V) : List V → V → Prop
  | root : Walk succ root [root] root
  | step {l : List V} {u w : V} : Walk succ root l u → succ u w → Walk succ root (w::l) w

/-- Every walk from the root to `y` passes through `x`. -/
def Dominates (succ : V → V → Prop) (root x y : V) : Prop := ∀ l, Walk succ root l y → x ∈ l

/-- A path from `v` to `w` whose inner vertices all have larger numbers than `w`. -/
def Detour (succ : V → V → Prop) (num : V → ℕ) (v w : V) : Prop :=
  ∃ u, ReflTransGen (fun a b => succ a b ∧ num w < num b) v u ∧ succ u w

/-- The semidominator: the first vertex with such a path. -/
structure IsSemi (succ : V → V → Prop) (Reached : V → Prop) (num : V → ℕ) (w s : V) : Prop where
  reached : Reached s
  detour : Detour succ num s w
  least : ∀ v, Reached v → Detour succ num v w → num s ≤ num v

/-- The tree hangs every vertex from its semidominator, or from a vertex in between whose own
semidominator comes before that one. -/
def FromSemi (succ : V → V → Prop) (root : V) (Reached : V → Prop) (num : V → ℕ)
    (parent idom : V → Option V) : Prop :=
  ∀ w, Reached w → w ≠ root → ∃ s, IsSemi succ Reached num w s ∧ (idom w = some s ∨
    ∃ y t, Anc parent y w ∧ y ≠ w ∧ num s < num y ∧ IsSemi succ Reached num y t ∧
      num t < num s ∧ idom w = some y)

section Walks

variable {succ : V → V → Prop} {root x y z : V} {l : List V}

theorem Walk.mem (h : Walk succ root l y) : y ∈ l := by
  cases h <;> exact List.mem_cons_self

/-- A walk has passed through each of its vertices. -/
theorem Walk.before (h : Walk succ root l y) (hz : z ∈ l) : ∃ k, Walk succ root k z ∧ k ⊆ l := by
  induction h with
  | root =>
    rw [List.mem_singleton.mp hz]
    exact ⟨[root],.root,List.Subset.refl _⟩
  | step hwalk hedge ih =>
    rcases List.mem_cons.mp hz with rfl | hz
    · exact ⟨_,.step hwalk hedge,List.Subset.refl _⟩
    · obtain ⟨k,hk,hsub⟩ := ih hz
      exact ⟨k,hk,fun v hv => List.mem_cons_of_mem _ (hsub hv)⟩

/-- A walk that avoids `x` goes on along edges to other vertices. -/
theorem Walk.avoid {P : V → V → Prop} (h : Walk succ root l y) (hx : x ∉ l)
    (hpath : ReflTransGen P y z) (hP : ∀ a b, P a b → succ a b ∧ b ≠ x) :
    ∃ k, Walk succ root k z ∧ x ∉ k := by
  induction hpath with
  | refl => exact ⟨l,h,hx⟩
  | tail _ hstep ih =>
    obtain ⟨k,hk,hxk⟩ := ih
    obtain ⟨hedge,hne⟩ := hP _ _ hstep
    exact ⟨_,.step hk hedge,fun hmem => (List.mem_cons.mp hmem).elim (fun h => hne h.symm) hxk⟩

theorem Dominates.trans (hxy : Dominates succ root x y) (hyz : Dominates succ root y z) :
    Dominates succ root x z := by
  intro l hl
  obtain ⟨k,hk,hsub⟩ := hl.before (hyz l hl)
  exact hsub (hxy k hk)

theorem dominates_refl (x : V) : Dominates succ root x x := fun _ hl => hl.mem

theorem dominates_root_iff : Dominates succ root x root ↔ x = root :=
  ⟨fun h => List.mem_singleton.mp (h _ .root),fun h => h ▸ dominates_refl _⟩

theorem exists_semi_of_detour {Reached : V → Prop} {num : V → ℕ} {v w : V} (hv : Reached v)
    (hdetour : Detour succ num v w) : ∃ s, IsSemi succ Reached num w s := by
  induction hn : num v using Nat.strong_induction_on generalizing v with
  | _ n ih =>
    by_cases hleast : ∀ u, Reached u → Detour succ num u w → num v ≤ num u
    · exact ⟨v,hv,hdetour,hleast⟩
    · push Not at hleast
      obtain ⟨u,hu,hdet,hlt⟩ := hleast
      exact ih (num u) (hn ▸ hlt) hu hdet rfl

end Walks

section Ancestors

variable {parent : V → Option V} {u w : V}

theorem Anc.mono {parent' : V → Option V} (h : Anc parent u w)
    (hparent : ∀ w p, parent w = some p → parent' w = some p) : Anc parent' u w :=
  ReflTransGen.mono (fun p c hc => hparent c p hc) u w h

theorem Anc.total {a : V} (hu : Anc parent u w) (ha : Anc parent a w) :
    Anc parent u a ∨ Anc parent a u := by
  induction hu with
  | refl => exact .inr ha
  | tail hrest hstep ih =>
    rcases Relation.ReflTransGen.cases_tail ha with rfl | ⟨p,hap,hp⟩
    · exact .inl (hrest.tail hstep)
    · cases Option.some.inj (hstep.symm.trans hp)
      exact ih hap

theorem Anc.cases_parent (h : Anc parent u w) (hne : u ≠ w) : ∃ p, parent w = some p ∧ Anc parent u p := by
  cases h with
  | refl => exact absurd rfl hne
  | tail hrest hstep => exact ⟨_,hstep,hrest⟩

theorem Anc.exists_child (h : Anc parent u w) (hne : u ≠ w) :
    ∃ c, parent c = some u ∧ Anc parent c w := by
  rcases h.cases_head with rfl | ⟨c,hstep,hrest⟩
  · exact absurd rfl hne
  · exact ⟨c,hstep,hrest⟩

end Ancestors

namespace IsTree

variable {succ : V → V → Prop} {root : V} {Reached : V → Prop} {num : V → ℕ} {parent : V → Option V}
  (T : IsTree succ root Reached num parent) {u v w : V}

include T

/-! ### Ancestors -/

theorem parent_spec {p : V} (hw : Reached w) (hp : parent w = some p) :
    Reached p ∧ succ p w ∧ num p < num w := by
  have hne : w ≠ root := fun h => by
    rw [h,T.parent_root] at hp
    cases hp
  obtain ⟨q,hq,hspec⟩ := T.parent_of w hw hne
  cases hp.symm.trans hq
  exact hspec

theorem anc_reached (h : Anc parent u w) (hw : Reached w) : Reached u := by
  induction h using ReflTransGen.head_induction_on with
  | refl => exact hw
  | head hstep hrest ih => exact (T.parent_spec ih hstep).1

theorem num_le_of_anc (h : Anc parent u w) (hw : Reached w) : num u ≤ num w := by
  induction h using ReflTransGen.head_induction_on with
  | refl => exact le_refl _
  | head hstep hrest ih =>
    exact le_trans (Nat.le_of_lt (T.parent_spec (T.anc_reached hrest hw) hstep).2.2) ih

theorem num_lt_of_anc (h : Anc parent u w) (hw : Reached w) (hne : u ≠ w) : num u < num w :=
  lt_of_le_of_ne (T.num_le_of_anc h hw)
    fun heq => hne (T.num_inj u w (T.anc_reached h hw) hw heq)

theorem anc_root (hw : Reached w) : Anc parent root w := by
  induction hn : num w using Nat.strong_induction_on generalizing w with
  | _ n ih =>
    by_cases hne : w = root
    · rw [hne]
      exact .refl
    · obtain ⟨p,hp,hreached,-,hlt⟩ := T.parent_of w hw hne
      exact (ih (num p) (hn ▸ hlt) hreached rfl).tail hp

/-- Ancestors of one vertex are ancestors of one another. -/
theorem anc_of_le (hu : Anc parent u w) (hv : Anc parent v w) (hw : Reached w)
    (hle : num u ≤ num v) : Anc parent u v :=
  T.anc_between u w v hw (T.anc_reached hv hw) hu hle (T.num_le_of_anc hv hw)

theorem path_of_anc (h : Anc parent u w) (hw : Reached w) :
    ReflTransGen (fun a b => succ a b ∧ num u < num b) u w := by
  induction h with
  | refl => exact .refl
  | tail hrest hstep ih =>
    obtain ⟨hp,hedge,hlt⟩ := T.parent_spec hw hstep
    exact (ih hp).tail ⟨hedge,Nat.lt_of_le_of_lt (T.num_le_of_anc hrest hp) hlt⟩

theorem exists_walk (hw : Reached w) :
    ∃ l, Walk succ root l w ∧ ∀ v ∈ l, Anc parent v w := by
  induction T.anc_root hw with
  | refl => exact ⟨_,.root,fun v hv => by rw [List.mem_singleton.mp hv]; exact .refl⟩
  | tail hrest hstep ih =>
    obtain ⟨hp,hedge,-⟩ := T.parent_spec hw hstep
    obtain ⟨l,hl,hanc⟩ := ih hp
    refine ⟨_,.step hl hedge,fun v hv => ?_⟩
    rcases List.mem_cons.mp hv with rfl | hv
    · exact .refl
    · exact (hanc v hv).tail hstep

theorem reached_of_walk {l : List V} (h : Walk succ root l w) : Reached w := by
  induction h with
  | root => exact T.root_reached
  | step _ hedge ih => exact T.reached_succ _ _ ih hedge

/-! ### Detours and semidominators -/

/-- A detour to `x` goes on down the tree to `u`, and along an edge to an earlier vertex. -/
theorem detour_below {t x : V} (hdetour : Detour succ num t x) (hanc : Anc parent x u)
    (hu : Reached u) (hwx : num w < num x) (hedge : succ u w) : Detour succ num t w := by
  obtain ⟨y,hty,hyx⟩ := hdetour
  have hfirst : ReflTransGen (fun a b => succ a b ∧ num w < num b) t y :=
    ReflTransGen.mono (fun _ _ h => ⟨h.1,lt_trans hwx h.2⟩) t y hty
  have hdown : ReflTransGen (fun a b => succ a b ∧ num w < num b) x u :=
    ReflTransGen.mono (fun _ _ h => ⟨h.1,lt_trans hwx h.2⟩) x u (T.path_of_anc hanc hu)
  exact ⟨u,(hfirst.tail ⟨hyx,hwx⟩).trans hdown,hedge⟩

/-- A path through vertices later than `w` ends below a later vertex that its start has a detour to:
by induction on the path, where the last vertex either lies below that vertex again or comes before it
and has the detour itself. -/
theorem exists_anc_detour (hv : Reached v)
    (hpath : ReflTransGen (fun a b => succ a b ∧ num w < num b) v u) :
    Reached u ∧ (u = v ∨ num w < num u ∧
      ∃ x, Anc parent x u ∧ num w < num x ∧ Detour succ num v x) := by
  induction hpath with
  | refl => exact ⟨hv,.inl rfl⟩
  | @tail a b _ hstep ih =>
    obtain ⟨hedge,hlt⟩ := hstep
    obtain ⟨ha,hcases⟩ := ih
    have hb := T.reached_succ a b ha hedge
    refine ⟨hb,.inr ⟨hlt,?_⟩⟩
    rcases hcases with rfl | ⟨-,x,hxa,hwx,hvx⟩
    · exact ⟨b,.refl,hlt,a,.refl,hedge⟩
    · rcases Nat.lt_or_ge (num b) (num x) with hbx | hxb
      · exact ⟨b,.refl,hlt,T.detour_below hvx hxa ha hbx hedge⟩
      · refine ⟨x,?_,hwx,hvx⟩
        rcases Nat.lt_or_ge (num a) (num b) with hab | hba
        · exact hxa.trans (T.anc_of_succ a b ha hedge hab)
        · exact T.anc_between x a b ha hb hxa hxb hba

/-- What is least among the earlier predecessors and the semidominators above the later ones is the
semidominator. -/
theorem isSemi_of_preds {s : V} (hs : Reached s) (hdetour : Detour succ num s w)
    (hsw : num s < num w) (hbefore : ∀ u, Reached u → succ u w → num u < num w → num s ≤ num u)
    (hafter : ∀ u, Reached u → succ u w → num w < num u → ∀ x, Anc parent x u → num w < num x →
      ∃ t, IsSemi succ Reached num x t ∧ num s ≤ num t) : IsSemi succ Reached num w s where
  reached := hs
  detour := hdetour
  least v hv := by
    rintro ⟨u,hpath,hedge⟩
    obtain ⟨hu,rfl | ⟨hlt,x,hxu,hwx,hdet⟩⟩ := T.exists_anc_detour hv hpath
    · rcases Nat.lt_or_ge (num u) (num w) with huw | hwu
      · exact hbefore u hu hedge huw
      · exact Nat.le_of_lt (lt_of_lt_of_le hsw hwu)
    · obtain ⟨t,ht,hst⟩ := hafter u hu hedge hlt x hxu hwx
      exact le_trans hst (ht.least v hv hdet)

theorem semi_unique {s t : V} (hs : IsSemi succ Reached num w s) (ht : IsSemi succ Reached num w t) :
    s = t :=
  T.num_inj s t hs.reached ht.reached
    (le_antisymm (hs.least t ht.reached ht.detour) (ht.least s hs.reached hs.detour))

/-- Vertices between the start of a detour and its end do not dominate the end. -/
theorem not_dominates_of_detour {s y : V} (hs : Reached s) (hdetour : Detour succ num s w)
    (hsy : num s < num y) (hyw : num y < num w) : ¬ Dominates succ root y w := by
  intro hdom
  obtain ⟨u,hpath,hedge⟩ := hdetour
  obtain ⟨l,hl,hanc⟩ := T.exists_walk hs
  have hout : y ∉ l := fun hy => absurd (T.num_le_of_anc (hanc y hy) hs) (not_le.mpr hsy)
  obtain ⟨k,hk,hyk⟩ := hl.avoid hout hpath fun a b h =>
    ⟨h.1,fun heq => absurd (heq ▸ h.2) (Nat.lt_asymm hyw)⟩
  rcases List.mem_cons.mp (hdom _ (.step hk hedge)) with rfl | hmem
  · exact Nat.lt_irrefl _ hyw
  · exact hyk hmem

/-- A vertex above `y` that a detour to `y` leaves out dominates nothing below `y`. -/
theorem not_dominates_of_bypass {s t y : V} (ht : Reached t) (hdetour : Detour succ num t y)
    (hw : Reached w) (hyw : Anc parent y w) (hts : num t < num s) (hsy : num s < num y) :
    ¬ Dominates succ root s w := by
  intro hdom
  obtain ⟨u,hpath,hedge⟩ := hdetour
  obtain ⟨l,hl,hanc⟩ := T.exists_walk ht
  have hout : s ∉ l := fun h => absurd (T.num_le_of_anc (hanc s h) ht) (not_le.mpr hts)
  obtain ⟨k,hk,hsk⟩ := hl.avoid hout hpath fun a b h =>
    ⟨h.1,fun heq => absurd (heq ▸ h.2) (Nat.lt_asymm hsy)⟩
  have hsk' : s ∉ y::k := fun h => (List.mem_cons.mp h).elim
    (fun heq => Nat.lt_irrefl _ (heq ▸ hsy)) hsk
  obtain ⟨k',hk',hsk''⟩ := (Walk.step hk hedge).avoid hsk' (T.path_of_anc hyw hw) fun a b h =>
    ⟨h.1,fun heq => absurd (heq ▸ h.2) (Nat.lt_asymm hsy)⟩
  exact hsk'' (hdom k' hk')

theorem anc_of_dominates (hw : Reached w) (h : Dominates succ root u w) : Anc parent u w := by
  obtain ⟨l,hl,hanc⟩ := T.exists_walk hw
  exact hanc u (h l hl)

/-- What dominates the end of a detour strictly dominates its start. -/
theorem dominates_start {s : V} (hw : Reached w) (hdetour : Detour succ num s w)
    (hdom : Dominates succ root u w) (hne : u ≠ w) : Dominates succ root u s := by
  have hlt := T.num_lt_of_anc (T.anc_of_dominates hw hdom) hw hne
  intro l hl
  by_contra hout
  obtain ⟨a,hpath,hedge⟩ := hdetour
  obtain ⟨k,hk,huk⟩ := hl.avoid hout hpath fun _ b h =>
    ⟨h.1,fun heq => absurd (heq ▸ h.2) (Nat.lt_asymm hlt)⟩
  rcases List.mem_cons.mp (hdom _ (.step hk hedge)) with rfl | hmem
  · exact hne rfl
  · exact huk hmem

theorem exists_semi (hw : Reached w) (hne : w ≠ root) : ∃ s, IsSemi succ Reached num w s := by
  obtain ⟨p,-,hp,hedge,-⟩ := T.parent_of w hw hne
  exact exists_semi_of_detour hp ⟨p,.refl,hedge⟩

theorem semi_lt {s : V} (hw : Reached w) (hne : w ≠ root) (hs : IsSemi succ Reached num w s) :
    num s < num w := by
  obtain ⟨p,-,hp,hedge,hlt⟩ := T.parent_of w hw hne
  exact Nat.lt_of_le_of_lt (hs.least p hp ⟨p,.refl,hedge⟩) hlt

/-- A semidominator is an ancestor. By induction from the last vertex on: the last vertex of the
detour hangs below one with the same semidominator. -/
theorem anc_of_isSemi {s : V} (N : ℕ) (hN : ∀ v, Reached v → num v < N) (hw : Reached w)
    (hne : w ≠ root) (hs : IsSemi succ Reached num w s) : Anc parent s w := by
  induction hn : N - num w using Nat.strong_induction_on generalizing w with
  | _ n ih =>
    have hsw := T.semi_lt hw hne hs
    obtain ⟨u,hpath,hedge⟩ := hs.detour
    obtain ⟨hu,rfl | ⟨hwu,x,hxu,hwx,hsx⟩⟩ := T.exists_anc_detour hs.reached hpath
    · exact T.anc_of_succ u w hu hedge hsw
    · have hx := T.anc_reached hxu hu
      have hxne : x ≠ root := fun h =>
        absurd (T.num_le_of_anc (T.anc_root hw) hw) (not_le.mpr (h ▸ hwx))
      obtain ⟨t,ht⟩ := exists_semi_of_detour hs.reached hsx
      have htw := T.detour_below ht.detour hxu hu hwx hedge
      have hst : s = t := T.num_inj s t hs.reached ht.reached
        (le_antisymm (hs.least t ht.reached htw) (ht.least s hs.reached hsx))
      have hlt : N - num x < n := hn ▸ Nat.sub_lt_sub_left (hN w hw) hwx
      have hanc : Anc parent s x := ih _ hlt hx hxne (hst ▸ ht) rfl
      exact T.anc_between s u w hu hw (hanc.trans hxu) (Nat.le_of_lt hsw) (Nat.le_of_lt hwu)

/-! ### Trees from semidominators -/

/-- The ancestors in such a tree are the dominators exactly when every semidominator dominates. -/
theorem anc_iff_dominates {idom : V → Option V} (hroot : idom root = none)
    (hidom : FromSemi succ root Reached num parent idom) :
    (∀ x y, Reached x → Reached y → (Anc idom x y ↔ Dominates succ root x y)) ↔
      ∀ w s, Reached w → w ≠ root → IsSemi succ Reached num w s → Dominates succ root s w := by
  constructor
  · intro h w s hw hne hs
    obtain ⟨s',hs',hcases⟩ := hidom w hw hne
    cases T.semi_unique hs hs'
    rcases hcases with hw' | ⟨y,t,hyw,hywne,hsy,-,-,hw'⟩
    · exact (h s w hs.reached hw).mp (ReflTransGen.single hw')
    · have hdom := (h y w (T.anc_reached hyw hw) hw).mp (ReflTransGen.single hw')
      exact absurd hdom
        (T.not_dominates_of_detour hs.reached hs.detour hsy (T.num_lt_of_anc hyw hw hywne))
  · intro h x y hx hy
    induction hn : num y using Nat.strong_induction_on generalizing y with
    | _ n ih =>
      by_cases hne : y = root
      · subst hne
        rw [dominates_root_iff]
        constructor
        · intro hanc
          by_contra hxr
          obtain ⟨p,hp,-⟩ := hanc.cases_parent hxr
          cases hroot.symm.trans hp
        · exact fun heq => heq ▸ ReflTransGen.refl
      · obtain ⟨s,hs,hcases⟩ := hidom y hy hne
        have hdom := h y s hy hne hs
        have hidomy : idom y = some s := by
          rcases hcases with hys | ⟨z,t,hzy,-,hsz,ht,hts,-⟩
          · exact hys
          · exact absurd hdom
              (T.not_dominates_of_bypass ht.reached ht.detour hy hzy hts hsz)
        have hrec := ih (num s) (hn ▸ T.semi_lt hy hne hs) s hs.reached rfl
        constructor
        · intro hanc
          by_cases hxy : x = y
          · exact hxy ▸ dominates_refl _
          · obtain ⟨p,hp,hxp⟩ := hanc.cases_parent hxy
            cases hidomy.symm.trans hp
            exact (hrec.mp hxp).trans hdom
        · intro hdomx
          by_cases hxy : x = y
          · exact hxy ▸ ReflTransGen.refl
          · exact ReflTransGen.tail (hrec.mpr (T.dominates_start hy hs.detour hdomx hxy)) hidomy

end IsTree

end DepthFirstTree
end OlaLang
