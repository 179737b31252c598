import OlaLang.LengauerTarjan
import Mathlib.Data.Fin.VecNotation

/-! The queries of the dominator tree: when `dominates` says that every path from the entry to a block
passes through another one. -/
namespace OlaLang
namespace Codegen
namespace DominatorTree

open DepthFirstTree (Anc Walk Dominates)

theorem anyM_eq_some {V : Type} {p : V → Option Bool} {P : V → Prop} (l : List V)
    (hp : ∀ v ∈ l, ∃ b, p v = some b ∧ (b = true ↔ P v)) :
    ∃ b, l.anyM p = some b ∧ (b = true ↔ ∃ v ∈ l, P v) := by
  induction l with
  | nil => exact ⟨false,rfl,by simp⟩
  | cons v l ih =>
    obtain ⟨b,hb,hP⟩ := hp v List.mem_cons_self
    cases b with
    | true =>
      refine ⟨true,by simp [List.anyM,hb],?_⟩
      simp [hP.mp rfl]
    | false =>
      obtain ⟨b',hb',hP'⟩ := ih fun u hu => hp u (List.mem_cons_of_mem v hu)
      refine ⟨b',by simp [List.anyM,hb,hb'],?_⟩
      have hv : ¬ P v := fun h => absurd (hP.mpr h) Bool.false_ne_true
      simp [hP',hv]

variable {B : Type} [DecidableEq B] {g : Cfg B} {h : SetOrder B} {c₀ c : Context B} {x y : B}

/-- There is a path from the entry. -/
def Reachable (g : Cfg B) (x : B) : Prop := ∃ l, Walk (fun u w => w ∈ g.succs u) g.entry l x

/-- Every path from the entry to `y` passes through `x`. -/
def OnEveryPath (g : Cfg B) (x y : B) : Prop := Dominates (fun u w => w ∈ g.succs u) g.entry x y

/-- The numbers and parents of `number_by_dfs`. -/
def depthFirst (g : Cfg B) : Context B := (numberByDfs g g.fuel none g.entry new).getD new

theorem Start.reachable_iff (S : Start g c₀) : Reachable g x ↔ x ∈ c₀.vertex := by
  constructor
  · rintro ⟨l,hl⟩
    exact S.tree.reached_of_walk hl
  · intro hx
    obtain ⟨l,hl,-⟩ := S.tree.exists_walk hx
    exact ⟨l,hl⟩

/-! ### The tree of the immediate dominators -/

/-- An immediate dominator is a block above in the depth-first tree. -/
theorem Computed.idom_spec {idom : B → Option B} (C : Computed g c₀ idom) (hy : idom y = some x) :
    y ∈ c₀.vertex ∧ x ∈ c₀.vertex ∧ Anc c₀.parent x y ∧ c₀.vertex.idxOf x < c₀.vertex.idxOf y := by
  have S := C.start
  obtain ⟨hmem,hne⟩ := C.reached y x hy
  obtain ⟨s,hs,hcases⟩ := C.spec y hmem hne
  have habove : Anc c₀.parent x y ∧ x ≠ y := by
    rcases hcases with hys | ⟨z,t,hzy,hne,-,-,-,hyz⟩
    · cases hy.symm.trans hys
      refine ⟨S.tree.anc_of_isSemi c₀.vertex.length
        (fun v hv => List.idxOf_lt_length_iff.mpr hv) hmem hne hs,fun heq => ?_⟩
      exact Nat.lt_irrefl _ (heq ▸ S.tree.semi_lt hmem hne hs)
    · cases hy.symm.trans hyz
      exact ⟨hzy,hne⟩
  exact ⟨hmem,S.tree.anc_reached habove.1 hmem,habove.1,
    S.tree.num_lt_of_anc habove.1 hmem habove.2⟩

theorem Computed.idom_entry {idom : B → Option B} (C : Computed g c₀ idom) : idom g.entry = none := by
  cases hentry : idom g.entry with
  | none => rfl
  | some s => exact absurd rfl (C.reached g.entry s hentry).2

theorem Computed.mem_children (C : Computed g c₀ c.idom) :
    y ∈ childrenOf g h c x ↔ c.idom y = some x := by
  rw [childrenOf,(h.perm _).mem_iff,List.mem_filter,decide_eq_true_iff]
  exact ⟨fun hy => hy.2,fun hy => ⟨C.start.mem_order y (C.idom_spec hy).1,hy⟩⟩

/-- `dominates` goes down the tree; it ends because the children have later numbers. -/
theorem Computed.dominates_spec (C : Computed g c₀ c.idom) {fuel : ℕ} (hx : x ∈ c₀.vertex)
    (hfuel : c₀.vertex.length < fuel+c₀.vertex.idxOf x) :
    ∃ b, dominates (childrenOf g h c) fuel x y = some b ∧ (b = true ↔ Anc c.idom x y) := by
  induction fuel generalizing x with
  | zero =>
    have hlt : c₀.vertex.idxOf x < c₀.vertex.length := List.idxOf_lt_length_iff.mpr hx
    omega
  | succ fuel ih =>
    by_cases hnow : x = y ∨ y ∈ childrenOf g h c x
    · refine ⟨true,by rw [dominates,if_pos hnow],iff_of_true rfl ?_⟩
      rcases hnow with rfl | hy
      · exact .refl
      · exact Relation.ReflTransGen.single (C.mem_children.mp hy)
    · obtain ⟨b,hb,hiff⟩ := anyM_eq_some (p := fun child =>
        dominates (childrenOf g h c) fuel child y) (P := fun child => Anc c.idom child y)
        (childrenOf g h c x) fun child hchild => by
          obtain ⟨hmem,-,-,hlt⟩ := C.idom_spec (C.mem_children.mp hchild)
          exact ih hmem (by omega)
      refine ⟨b,by rw [dominates,if_neg hnow,hb],hiff.trans ?_⟩
      constructor
      · rintro ⟨child,hchild,hanc⟩
        exact .head (C.mem_children.mp hchild) hanc
      · intro hanc
        obtain ⟨child,hchild,hrest⟩ := hanc.exists_child fun heq => hnow (.inl heq)
        exact ⟨child,C.mem_children.mpr hchild,hrest⟩

/-- What the tree answers for a reachable block. -/
theorem answer_spec (g : Cfg B) (h : SetOrder B) : ∃ idom, Computed g (depthFirst g) idom ∧
    ∀ x y, Reachable g x → ∃ b, answer g h x y = some b ∧ (b = true ↔ Anc idom x y) := by
  obtain ⟨c₀,c,hdfs,hcompute,C⟩ := compute_computed g h
  have hdepth : depthFirst g = c₀ := by rw [depthFirst,hdfs,Option.getD_some]
  refine ⟨c.idom,hdepth ▸ C,fun x y hx => ?_⟩
  have hlen := C.start.length_le
  have hfuel : c₀.vertex.length < g.fuel+c₀.vertex.idxOf x := by
    rw [Cfg.fuel]
    omega
  obtain ⟨b,hb,hiff⟩ := C.dominates_spec (h := h) (y := y) (C.start.reachable_iff.mp hx) hfuel
  exact ⟨b,by rw [answer,hcompute]; exact hb,hiff⟩

/-- The queries about reachable blocks are answered, and all answers are right exactly when every
semidominator dominates its block. -/
theorem dominates_iff_onEveryPath (g : Cfg B) (h : SetOrder B) :
    (∀ x y, Reachable g x → Reachable g y → ∃ b, answer g h x y = some b) ∧
      ((∀ x y, Reachable g x → Reachable g y → (answer g h x y = some true ↔ OnEveryPath g x y)) ↔
        ∀ w s, Reachable g w → w ≠ g.entry → Semi g (depthFirst g) w s → OnEveryPath g s w) := by
  obtain ⟨idom,C,hanswer⟩ := answer_spec g h
  refine ⟨fun x y hx _ => (hanswer x y hx).imp fun _ hb => hb.1,?_⟩
  have htree := C.start.tree.anc_iff_dominates C.idom_entry C.spec
  have htrue : ∀ x y, Reachable g x → (answer g h x y = some true ↔ Anc idom x y) := by
    intro x y hx
    obtain ⟨b,hb,hiff⟩ := hanswer x y hx
    rw [hb,Option.some.injEq]
    exact hiff
  constructor
  · intro hall w s hw hne hs
    refine htree.mp (fun x y hx hy => ?_) w s (C.start.reachable_iff.mp hw) hne hs
    have hx := C.start.reachable_iff.mpr hx
    rw [← htrue x y hx]
    exact hall x y hx (C.start.reachable_iff.mpr hy)
  · intro hsemi x y hx hy
    rw [htrue x y hx]
    exact htree.mpr (fun w s hw hne hs => hsemi w s (C.start.reachable_iff.mpr hw) hne hs) x y
      (C.start.reachable_iff.mp hx) (C.start.reachable_iff.mp hy)

/-- Two ways to the join of a branch that leave it from the middle of the first one. -/
def crossing : Cfg (Fin 4) where
  order := [0,1,2,3]
  entry := 0
  succs := ![[1,2],[2,3],[3],[]]
  preds := ![[],[0],[0,1],[1,2]]
  order_head := rfl
  succs_mem := by decide
  mem_preds := by decide

theorem crossing_wrong : ¬ ∀ (g : Cfg (Fin 4)) (h : SetOrder (Fin 4)) (x y : Fin 4),
    Reachable g x → Reachable g y → (answer g h x y = some true ↔ OnEveryPath g x y) := by
  intro hall
  have hwalk : Walk (fun u w => w ∈ crossing.succs u) crossing.entry [3,1,0] 3 :=
    .step (.step .root (by decide)) (by decide)
  have hother : Walk (fun u w => w ∈ crossing.succs u) crossing.entry [2,0] 2 :=
    .step .root (by decide)
  have hanswer : answer crossing ⟨id,fun _ => .refl _⟩ 2 3 = some true := by decide
  have hdom := (hall crossing ⟨id,fun _ => .refl _⟩ 2 3 ⟨_,hother⟩ ⟨_,hwalk⟩).mp hanswer
  exact absurd (hdom _ hwalk) (by decide)

end DominatorTree
end Codegen
end OlaLang
