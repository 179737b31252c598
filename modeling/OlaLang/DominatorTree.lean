import OlaLang.DepthFirstTree
import Mathlib.Data.List.Nodup
import Mathlib.Data.List.Perm.Basic
import Mathlib.Logic.Function.Basic

/-! The construction of the dominator tree, and its first part: `number_by_dfs` gives a depth-first
tree of the reachable blocks. -/
namespace OlaLang
namespace Codegen
namespace DominatorTree

open DepthFirstTree (Anc IsTree)

variable {B : Type}

/-- The blocks of a function. The layout begins with the entry. Successors and predecessors are in
the order in which their sets are iterated. -/
structure Cfg (B : Type) where
  order : List B
  entry : B
  succs : B → List B
  preds : B → List B
  order_head : order.head? = some entry
  succs_mem : ∀ u ∈ order, ∀ w ∈ succs u, w ∈ order
  mem_preds : ∀ u ∈ order, ∀ w ∈ order, (u ∈ preds w ↔ w ∈ succs u)

/-- The order in which a hash set gives its elements. -/
structure SetOrder (B : Type) where
  order : List B → List B
  perm : ∀ l, (order l).Perm l

/-- `Context`, with the local `bucket` of `compute`. -/
structure Context (B : Type) where
  dfnum : B → Option ℕ
  vertex : List B
  semi : B → Option B
  ancestor : B → Option B
  idom : B → Option B
  samedom : B → Option B
  parent : B → Option B
  best : B → Option B
  bucket : B → List B

section Extends

/-- The blocks that `c` has reached have the same numbers and parents in `d`. -/
structure Extends (c d : Context B) : Prop where
  vertex : ∃ l, d.vertex = c.vertex ++ l
  parent : ∀ w ∈ c.vertex, d.parent w = c.parent w
  rest : d = { c with dfnum := d.dfnum,vertex := d.vertex,parent := d.parent }

theorem Extends.refl (c : Context B) : Extends c c := ⟨⟨[],by simp⟩,fun _ _ => rfl,rfl⟩

variable {c d e : Context B} {w : B}

theorem Extends.mem (h : Extends c d) (hw : w ∈ c.vertex) : w ∈ d.vertex := by
  obtain ⟨l,hl⟩ := h.vertex
  rw [hl]
  exact List.mem_append_left l hw

theorem Extends.trans (h : Extends c d) (h' : Extends d e) : Extends c e := by
  refine ⟨?_,fun w hw => (h'.parent w (h.mem hw)).trans (h.parent w hw),?_⟩
  · obtain ⟨l,hl⟩ := h.vertex
    obtain ⟨k,hk⟩ := h'.vertex
    exact ⟨l ++ k,by rw [hk,hl,List.append_assoc]⟩
  · rw [h'.rest,h.rest]

end Extends

variable [DecidableEq B]

def new : Context B :=
  ⟨fun _ => none,[],fun _ => none,fun _ => none,fun _ => none,fun _ => none,fun _ => none,
    fun _ => none,fun _ => []⟩

namespace Context

/-- The number of a block that is reached for the first time; `num` is the length of `vertex`. -/
def number (pred : Option B) (node : B) (c : Context B) : Context B :=
  { c with
    dfnum := Function.update c.dfnum node (some c.vertex.length)
    vertex := c.vertex ++ [node]
    parent := pred.elim c.parent fun p => Function.update c.parent node (some p) }

def link (pred node : B) (c : Context B) : Context B :=
  { c with
    ancestor := Function.update c.ancestor node (some pred)
    best := Function.update c.best node (some node) }

end Context

def numberByDfs (g : Cfg B) : ℕ → Option B → B → Context B → Option (Context B)
  | 0, _, _, _ => none
  | fuel+1, pred, node, c =>
    if (c.dfnum node).isSome then some c
    else (g.succs node).foldlM (fun c succ => numberByDfs g fuel (some node) succ c)
      (c.number pred node)

def ancestorWithLowestSemi : ℕ → B → Context B → Option (B × Context B)
  | 0, _, _ => none
  | fuel+1, node, c => do
    let a ← c.ancestor node
    let c ← if (c.ancestor a).isSome then do
        let (b,c) ← ancestorWithLowestSemi fuel a c
        let aa ← c.ancestor a
        let c := { c with ancestor := Function.update c.ancestor node (some aa) }
        let n ← (c.semi b).bind c.dfnum
        let m ← ((c.best node).bind c.semi).bind c.dfnum
        some (if n < m then { c with best := Function.update c.best node (some b) } else c)
      else some c
    let b ← c.best node
    some (b,c)

/-- One turn of the loop over the predecessors of `node`. -/
def considerPred (fuel : ℕ) (node : B) (sc : B × Context B) (v : B) : Option (B × Context B) :=
  let (s,c) := sc
  match c.dfnum v with
  | none => some (s,c)
  | some dv => do
    let dn ← c.dfnum node
    let (s',c) ← if dv ≤ dn then some (v,c) else do
        let (n,c) ← ancestorWithLowestSemi fuel v c
        let s' ← c.semi n
        some (s',c)
    let n ← c.dfnum s'
    let m ← c.dfnum s
    some (if n < m then s' else s,c)

/-- One turn of the loop over the bucket of `pred`. -/
def resolve (fuel : ℕ) (pred : B) (c : Context B) (v : B) : Option (Context B) := do
  let (y,c) ← ancestorWithLowestSemi fuel v c
  let sy ← c.semi y
  let sv ← c.semi v
  some (if sy = sv then { c with idom := Function.update c.idom v (some pred) }
    else { c with samedom := Function.update c.samedom v (some y) })

/-- One turn of the main loop. -/
def processNode (g : Cfg B) (h : SetOrder B) (fuel : ℕ) (c : Context B) (node : B) :
    Option (Context B) := do
  let pred ← c.parent node
  let (s,c) ← (g.preds node).foldlM (considerPred fuel node) (pred,c)
  let c := { c with
    semi := Function.update c.semi node (some s)
    bucket := Function.update c.bucket s ((c.bucket s).insert node) }
  let c ← (h.order (c.bucket pred)).foldlM (resolve fuel pred) (c.link pred node)
  some { c with bucket := Function.update c.bucket pred [] }

/-- The last loop: relative dominators are taken over. -/
def takeSamedom (c : Context B) (n : B) : Context B :=
  match c.samedom n with
  | some s => { c with idom := Function.update c.idom n (some s) }
  | none => c

/-- The recursions end within as many calls as there are blocks. -/
def Cfg.fuel (g : Cfg B) : ℕ := g.order.length+1

def compute (g : Cfg B) (h : SetOrder B) : Option (Context B) := do
  let c ← numberByDfs g g.fuel none g.entry new
  let c ← c.vertex.tail.reverse.foldlM (processNode g h g.fuel) c
  some (c.vertex.tail.foldl takeSamedom c)

/-- The children of a block: the blocks it is the immediate dominator of. -/
def childrenOf (g : Cfg B) (h : SetOrder B) (c : Context B) (x : B) : List B :=
  h.order (g.order.filter fun y => c.idom y = some x)

def dominates (children : B → List B) : ℕ → B → B → Option Bool
  | 0, _, _ => none
  | fuel+1, x, y =>
    if x = y ∨ y ∈ children x then some true
    else (children x).anyM fun child => dominates children fuel child y

/-- `DominatorTree::new` and `dominates`. -/
def answer (g : Cfg B) (h : SetOrder B) (x y : B) : Option Bool := do
  let c ← compute g h
  dominates (childrenOf g h c) g.fuel x y

/-! ### Numbering -/

/-- The walk has come to `cur`: the blocks it has reached, the first one first, and their parents. -/
structure Walked (g : Cfg B) (vertex : List B) (parent : B → Option B) (cur : B) : Prop where
  nodup : vertex.Nodup
  mem_order : ∀ b ∈ vertex, b ∈ g.order
  entry_mem : g.entry ∈ vertex
  parent_entry : parent g.entry = none
  parent_of : ∀ w ∈ vertex, w ≠ g.entry → (parent w).isSome
  parent_spec : ∀ w p, parent w = some p →
    w ∈ vertex ∧ p ∈ vertex ∧ w ∈ g.succs p ∧ vertex.idxOf p < vertex.idxOf w
  cur_mem : cur ∈ vertex
  stack : ∀ u b, Anc parent u cur → b ∈ vertex → vertex.idxOf u ≤ vertex.idxOf b → Anc parent u b
  between : ∀ u a b, a ∈ vertex → b ∈ vertex → Anc parent u a →
    vertex.idxOf u ≤ vertex.idxOf b → vertex.idxOf b ≤ vertex.idxOf a → Anc parent u b

/-- What the successors of a block have come to when the walk leaves it. -/
def Left (g : Cfg B) (vertex : List B) (parent : B → Option B) (u : B) : Prop :=
  ∀ w ∈ g.succs u, w ∈ vertex ∧ (vertex.idxOf u < vertex.idxOf w → Anc parent u w)

/-- Numbers are places in `vertex`. -/
def Numbered (c : Context B) : Prop :=
  ∀ b, c.dfnum b = if b ∈ c.vertex then some (c.vertex.idxOf b) else none

variable {c d e : Context B} {u w node cur : B}

theorem Extends.idxOf (h : Extends c d) (hw : w ∈ c.vertex) :
    d.vertex.idxOf w = c.vertex.idxOf w := by
  obtain ⟨l,hl⟩ := h.vertex
  rw [hl,List.idxOf_append_of_mem hw]

theorem Extends.anc {g : Cfg B} (h : Extends c d) (hc : Walked g c.vertex c.parent cur)
    (hanc : Anc c.parent u w) : Anc d.parent u w :=
  hanc.mono (fun w p hp => (h.parent w (hc.parent_spec w p hp).1).trans hp)

theorem Extends.left {g : Cfg B} (h : Extends c d) (hc : Walked g c.vertex c.parent cur)
    (hu : u ∈ c.vertex) (hleft : Left g c.vertex c.parent u) : Left g d.vertex d.parent u := by
  intro w hw
  obtain ⟨hmem,hanc⟩ := hleft w hw
  refine ⟨h.mem hmem,fun hlt => h.anc hc (hanc ?_)⟩
  rwa [h.idxOf hmem,h.idxOf hu] at hlt

section Number

variable {g : Cfg B} {vertex : List B} {parent : B → Option B}

theorem Walked.anc_mem (W : Walked g vertex parent cur) (h : Anc parent u w) (hw : w ∈ vertex) :
    u ∈ vertex := by
  induction h using Relation.ReflTransGen.head_induction_on with
  | refl => exact hw
  | head hstep _ _ => exact (W.parent_spec _ _ hstep).2.1

theorem Walked.anc_update (W : Walked g vertex parent cur) (hnode : node ∉ vertex)
    (h : Anc parent u w) : Anc (Function.update parent node (some cur)) u w := by
  refine h.mono fun w p hp => ?_
  have hne : w ≠ node := fun heq => hnode (heq ▸ (W.parent_spec w p hp).1)
  rw [Function.update_of_ne hne,hp]

theorem Walked.anc_of_update (W : Walked g vertex parent cur) (hnode : node ∉ vertex)
    (hw : w ∈ vertex) (h : Anc (Function.update parent node (some cur)) u w) : Anc parent u w := by
  induction h with
  | refl => exact .refl
  | @tail a w _ hstep ih =>
    have hne : w ≠ node := fun heq => hnode (heq ▸ hw)
    rw [Function.update_of_ne hne] at hstep
    exact (ih (W.parent_spec w a hstep).2.1).tail hstep

/-- The new block has the ancestors of `cur`. -/
theorem Walked.anc_node (W : Walked g vertex parent cur) (hnode : node ∉ vertex)
    (h : Anc (Function.update parent node (some cur)) u node) : u = node ∨ Anc parent u cur := by
  by_cases hne : u = node
  · exact .inl hne
  · obtain ⟨p,hp,hanc⟩ := h.cases_parent hne
    rw [Function.update_self] at hp
    cases hp
    exact .inr (W.anc_of_update hnode W.cur_mem hanc)

/-- A new block below the current one becomes the current one. -/
theorem Walked.number (W : Walked g vertex parent cur) (hnode : node ∉ vertex)
    (hsucc : node ∈ g.succs cur) :
    Walked g (vertex ++ [node]) (Function.update parent node (some cur)) node := by
  have hidx : ∀ w ∈ vertex, (vertex ++ [node]).idxOf w = vertex.idxOf w := fun w hw =>
    List.idxOf_append_of_mem hw
  have hlast : (vertex ++ [node]).idxOf node = vertex.length := by
    rw [List.idxOf_append_of_notMem hnode,List.idxOf_cons_self,Nat.add_zero]
  have hlt : ∀ w ∈ vertex, vertex.idxOf w < vertex.length := fun w hw =>
    List.idxOf_lt_length_iff.mpr hw
  have hentry : g.entry ≠ node := fun heq => hnode (heq ▸ W.entry_mem)
  have hup : ∀ {u w}, Anc parent u w → Anc (Function.update parent node (some cur)) u w :=
    fun h => W.anc_update hnode h
  have hge : ∀ b ∈ vertex ++ [node], (vertex ++ [node]).idxOf node ≤ (vertex ++ [node]).idxOf b →
      b = node := by
    intro b hb hle
    rcases List.mem_append.mp hb with hb | hb
    · rw [hlast,hidx b hb] at hle
      exact absurd (hlt b hb) (not_lt.mpr hle)
    · exact List.mem_singleton.mp hb
  have hstack : ∀ u b, Anc parent u cur → b ∈ vertex ++ [node] →
      (vertex ++ [node]).idxOf u ≤ (vertex ++ [node]).idxOf b →
      Anc (Function.update parent node (some cur)) u b := by
    intro u b hu hb hle
    rcases List.mem_append.mp hb with hb | hb
    · rw [hidx u (W.anc_mem hu W.cur_mem),hidx b hb] at hle
      exact hup (W.stack u b hu hb hle)
    · rw [List.mem_singleton.mp hb]
      exact (hup hu).tail (Function.update_self _ _ _)
  constructor
  · exact List.nodup_append.mpr ⟨W.nodup,List.nodup_singleton node,fun a ha b hb heq =>
      hnode (List.mem_singleton.mp hb ▸ heq ▸ ha)⟩
  · intro b hb
    rcases List.mem_append.mp hb with hb | hb
    · exact W.mem_order b hb
    · rw [List.mem_singleton.mp hb]
      exact g.succs_mem cur (W.mem_order cur W.cur_mem) node hsucc
  · exact List.mem_append_left _ W.entry_mem
  · rw [Function.update_of_ne hentry,W.parent_entry]
  · intro w hw hne
    rcases List.mem_append.mp hw with hw | hw
    · have hwn : w ≠ node := fun heq => hnode (heq ▸ hw)
      rw [Function.update_of_ne hwn]
      exact W.parent_of w hw hne
    · rw [List.mem_singleton.mp hw,Function.update_self]
      rfl
  · intro w p hp
    by_cases hw : w = node
    · subst hw
      rw [Function.update_self] at hp
      cases hp
      refine ⟨List.mem_append_right _ (List.mem_singleton_self _),
        List.mem_append_left _ W.cur_mem,hsucc,?_⟩
      rw [hlast,hidx cur W.cur_mem]
      exact hlt cur W.cur_mem
    · rw [Function.update_of_ne hw] at hp
      obtain ⟨hw,hp,hedge,hlt⟩ := W.parent_spec w p hp
      refine ⟨List.mem_append_left _ hw,List.mem_append_left _ hp,hedge,?_⟩
      rwa [hidx w hw,hidx p hp]
  · exact List.mem_append_right _ (List.mem_singleton_self _)
  · intro u b hu hb hle
    rcases W.anc_node hnode hu with rfl | hu
    · rw [hge b hb hle]
      exact .refl
    · exact hstack u b hu hb hle
  · intro u a b ha hb hu hub hba
    rcases List.mem_append.mp ha with ha | ha
    · rcases List.mem_append.mp hb with hb | hb
      · have hu := W.anc_of_update hnode ha hu
        rw [hidx u (W.anc_mem hu ha),hidx b hb] at hub
        rw [hidx b hb,hidx a ha] at hba
        exact hup (W.between u a b ha hb hu hub hba)
      · rw [List.mem_singleton.mp hb,hlast,hidx a ha] at hba
        exact absurd (hlt a ha) (not_lt.mpr hba)
    · rw [List.mem_singleton.mp ha] at hu
      rcases W.anc_node hnode hu with rfl | hu
      · rw [hge b hb hub]
        exact .refl
      · exact hstack u b hu hb hub

/-- The walk comes back to the parent. -/
theorem Walked.back (W : Walked g vertex parent node) (hparent : parent node = some cur) :
    Walked g vertex parent cur :=
  { W with
    cur_mem := (W.parent_spec node cur hparent).2.1
    stack := fun u b hu hb hle => W.stack u b (hu.tail hparent) hb hle }

/-- When the successors of the current block have been visited, it can be left. -/
theorem Walked.left (W : Walked g vertex parent cur) (hsuccs : ∀ w ∈ g.succs cur, w ∈ vertex) :
    Left g vertex parent cur := fun w hw =>
  ⟨hsuccs w hw,fun hlt => W.stack cur w .refl (hsuccs w hw) (Nat.le_of_lt hlt)⟩

theorem walked_entry (g : Cfg B) : Walked g [g.entry] (fun _ => none) g.entry where
  nodup := List.nodup_singleton _
  mem_order b hb := by
    rw [List.mem_singleton.mp hb]
    exact List.mem_of_head? g.order_head
  entry_mem := List.mem_singleton_self _
  parent_entry := rfl
  parent_of w hw hne := absurd (List.mem_singleton.mp hw) hne
  parent_spec w p hp := by cases hp
  cur_mem := List.mem_singleton_self _
  stack u b hu hb _ := by
    rw [List.mem_singleton.mp hb]
    exact hu
  between u a b ha hb hu _ _ := by
    rw [List.mem_singleton.mp ha] at hu
    rw [List.mem_singleton.mp hb]
    exact hu

end Number

theorem Numbered.isSome_iff (hc : Numbered c) : (c.dfnum w).isSome ↔ w ∈ c.vertex := by
  rw [hc w]
  by_cases hw : w ∈ c.vertex <;> simp [hw]

theorem Numbered.number (hc : Numbered c) (hnode : node ∉ c.vertex) (pred : Option B) :
    Numbered (c.number pred node) := by
  intro b
  have hvertex : (c.number pred node).vertex = c.vertex ++ [node] := rfl
  rw [hvertex]
  by_cases hb : b = node
  · subst hb
    rw [List.idxOf_append_of_notMem hnode]
    simp [Context.number]
  · have hdfnum : (c.number pred node).dfnum b = c.dfnum b := Function.update_of_ne hb _ _
    rw [hdfnum,hc b]
    by_cases hmem : b ∈ c.vertex
    · simp [hmem,List.idxOf_append_of_mem hmem]
    · simp [hmem,hb]

theorem extends_number (hnode : node ∉ c.vertex) (pred : Option B) :
    Extends c (c.number pred node) := by
  refine ⟨⟨[node],rfl⟩,fun w hw => ?_,rfl⟩
  cases pred with
  | none => rfl
  | some p =>
    have hne : w ≠ node := fun heq => hnode (heq ▸ hw)
    exact Function.update_of_ne hne _ _

/-- What a part of the walk that starts and ends at `cur` does. -/
structure Visited (g : Cfg B) (cur : B) (c d : Context B) : Prop where
  extend : Extends c d
  numbered : Numbered d
  walked : Walked g d.vertex d.parent cur
  left : ∀ u ∈ d.vertex, u ∉ c.vertex → Left g d.vertex d.parent u

theorem Visited.trans {g : Cfg B} (h : Visited g cur c d) (h' : Visited g cur d e) :
    Visited g cur c e where
  extend := h.extend.trans h'.extend
  numbered := h'.numbered
  walked := h'.walked
  left u hu hnew := by
    by_cases hmid : u ∈ d.vertex
    · exact h'.extend.left h.walked hmid (h.left u hmid hnew)
    · exact h'.left u hu hmid

/-- The loop over successors, where a call for each of them works. -/
theorem foldlM_numberByDfs {g : Cfg B} (fuel : ℕ) (l : List B)
    (hcall : ∀ succ ∈ g.succs cur, ∀ c, Numbered c → Walked g c.vertex c.parent cur →
      g.order.length < fuel+c.vertex.length →
      ∃ d, numberByDfs g fuel (some cur) succ c = some d ∧ Visited g cur c d ∧ succ ∈ d.vertex)
    (hl : l ⊆ g.succs cur) (hc : Numbered c) (W : Walked g c.vertex c.parent cur)
    (hfuel : g.order.length < fuel+c.vertex.length) :
    ∃ d, l.foldlM (fun c succ => numberByDfs g fuel (some cur) succ c) c = some d ∧
      Visited g cur c d ∧ ∀ w ∈ l, w ∈ d.vertex := by
  induction l generalizing c with
  | nil => exact ⟨c,rfl,⟨Extends.refl c,hc,W,fun u hu hnew => absurd hu hnew⟩,by simp⟩
  | cons succ l ih =>
    obtain ⟨hsucc,hrest⟩ := List.cons_subset.mp hl
    obtain ⟨d,hd,hvisited,hmem⟩ := hcall succ hsucc c hc W hfuel
    have hlen : c.vertex.length ≤ d.vertex.length := by
      obtain ⟨k,hk⟩ := hvisited.extend.vertex
      rw [hk,List.length_append]
      exact Nat.le_add_right _ _
    obtain ⟨e,he,hvisited',hmem'⟩ := ih hrest hvisited.numbered hvisited.walked
      (lt_of_lt_of_le hfuel (Nat.add_le_add_left hlen fuel))
    refine ⟨e,?_,hvisited.trans hvisited',fun w hw => ?_⟩
    · rw [List.foldlM_cons,hd]
      exact he
    · rcases List.mem_cons.mp hw with rfl | hw
      · exact hvisited'.extend.mem hmem
      · exact hmem' w hw

/-- A call of `number_by_dfs` below the current block. -/
theorem numberByDfs_visited {g : Cfg B} {fuel : ℕ} (hsucc : node ∈ g.succs cur) (hc : Numbered c)
    (W : Walked g c.vertex c.parent cur) (hfuel : g.order.length < fuel+c.vertex.length) :
    ∃ d, numberByDfs g fuel (some cur) node c = some d ∧ Visited g cur c d ∧ node ∈ d.vertex := by
  have hnodeOrder := g.succs_mem cur (W.mem_order cur W.cur_mem) node hsucc
  induction fuel generalizing cur node c with
  | zero =>
    have hle := (List.subperm_of_subset W.nodup W.mem_order).length_le
    rw [Nat.zero_add] at hfuel
    exact absurd hfuel (not_lt.mpr hle)
  | succ fuel ih =>
    by_cases hnode : node ∈ c.vertex
    · refine ⟨c,?_,⟨Extends.refl c,hc,W,fun u hu hnew => absurd hu hnew⟩,hnode⟩
      rw [numberByDfs,if_pos (hc.isSome_iff.mpr hnode)]
    · have W₁ : Walked g (c.number (some cur) node).vertex (c.number (some cur) node).parent node :=
        W.number hnode hsucc
      have hlen : (c.number (some cur) node).vertex.length = c.vertex.length+1 := by
        simp [Context.number]
      obtain ⟨d,hd,hvisited,hall⟩ := foldlM_numberByDfs fuel (g.succs node)
        (fun succ hs c hc W hfuel => ih hs hc W hfuel (g.succs_mem node hnodeOrder succ hs))
        (List.Subset.refl _) (hc.number hnode (some cur)) W₁ (by omega)
      have hext := (extends_number hnode (some cur)).trans hvisited.extend
      have hself : node ∈ d.vertex := hvisited.extend.mem W₁.cur_mem
      have hparent : d.parent node = some cur :=
        (hvisited.extend.parent node W₁.cur_mem).trans (Function.update_self _ _ _)
      refine ⟨d,?_,⟨hext,hvisited.numbered,hvisited.walked.back hparent,fun u hu hnew => ?_⟩,hself⟩
      · rw [numberByDfs,if_neg fun h => hnode (hc.isSome_iff.mp h)]
        exact hd
      · by_cases hnum : u ∈ (c.number (some cur) node).vertex
        · have hu : u = node := by
            rcases List.mem_append.mp hnum with h | h
            · exact absurd h hnew
            · exact List.mem_singleton.mp h
          rw [hu]
          exact hvisited.walked.left hall
        · exact hvisited.left u hu hnum

/-- A depth-first tree of the reachable blocks, from the entry on. -/
structure Start (g : Cfg B) (c : Context B) : Prop where
  numbered : Numbered c
  nodup : c.vertex.Nodup
  mem_order : ∀ b ∈ c.vertex, b ∈ g.order
  vertex_entry : ∃ l, c.vertex = g.entry::l
  empty : c = { (new : Context B) with dfnum := c.dfnum,vertex := c.vertex,parent := c.parent }
  tree : IsTree (fun u w => w ∈ g.succs u) g.entry (· ∈ c.vertex) c.vertex.idxOf c.parent

/-- `number_by_dfs` reaches its end. -/
theorem numberByDfs_start (g : Cfg B) :
    ∃ d, numberByDfs g g.fuel none g.entry new = some d ∧ Start g d := by
  have hnone : g.entry ∉ (new : Context B).vertex := List.not_mem_nil
  have hnew : Numbered (new : Context B) := fun b => by simp [new]
  have W₁ : Walked g ((new : Context B).number none g.entry).vertex
      ((new : Context B).number none g.entry).parent g.entry := walked_entry g
  obtain ⟨d,hd,hvisited,hall⟩ := foldlM_numberByDfs g.order.length (g.succs g.entry)
    (fun succ hs c hc W hfuel => numberByDfs_visited hs hc W hfuel) (List.Subset.refl _)
    (hnew.number hnone none) W₁ (Nat.lt_succ_self _)
  have W := hvisited.walked
  have hleft : ∀ u ∈ d.vertex, Left g d.vertex d.parent u := by
    intro u hu
    by_cases hentry : u = g.entry
    · rw [hentry]
      exact W.left hall
    · exact hvisited.left u hu fun h => hentry (List.mem_singleton.mp h)
  refine ⟨d,?_,hvisited.numbered,W.nodup,W.mem_order,hvisited.extend.vertex,
    hvisited.extend.rest,?_⟩
  · rw [Cfg.fuel,numberByDfs,if_neg fun h => hnone (hnew.isSome_iff.mp h)]
    exact hd
  · refine ⟨W.entry_mem,W.parent_entry,fun w hw hne => ?_,fun u w hu hw heq => ?_,?_,?_,?_⟩
    · obtain ⟨p,hp⟩ := Option.isSome_iff_exists.mp (W.parent_of w hw hne)
      exact ⟨p,hp,(W.parent_spec w p hp).2⟩
    · exact (List.idxOf_inj hu).mp heq
    · exact fun u w hu hw => (hleft u hu w hw).1
    · exact fun u w hu hw hlt => (hleft u hu w hw).2 hlt
    · exact fun u a b ha hb hu hub hba => W.between u a b ha hb hu hub hba

theorem Start.dfnum_eq {g : Cfg B} (S : Start g c) (hw : w ∈ c.vertex) :
    c.dfnum w = some (c.vertex.idxOf w) := by
  rw [S.numbered w,if_pos hw]

theorem Start.idxOf_entry {g : Cfg B} (S : Start g c) : c.vertex.idxOf g.entry = 0 := by
  obtain ⟨l,hl⟩ := S.vertex_entry
  rw [hl,List.idxOf_cons_self]

theorem Start.ne_entry {g : Cfg B} (S : Start g c) (hw : 0 < c.vertex.idxOf w) : w ≠ g.entry := by
  rintro rfl
  rw [S.idxOf_entry] at hw
  exact Nat.lt_irrefl _ hw

theorem Start.length_le {g : Cfg B} (S : Start g c) : c.vertex.length ≤ g.order.length :=
  (List.subperm_of_subset S.nodup S.mem_order).length_le

end DominatorTree
end Codegen
end OlaLang
