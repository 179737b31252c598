import OlaLang.Walks
import OlaLang.StructTypes

/-! The search for structs that contain themselves: the marks it sets on the members, and when it
reports exactly the structs of infinite size. -/
namespace OlaLang
namespace StructRecursion

open Relation Walks StructTypes

/-! ### The graph library -/

/-- The node numbers go up to the largest an edge mentions. -/
def nodeCount (edges : List Edge) : ℕ := (edges.map fun e => max e.1 e.2.1 + 1).foldr max 0

/-- The members that connect two structs. -/
def edgesConnecting (edges : List Edge) (a b : ℕ) : List ℕ :=
  (edges.filter fun e => e.1 = a ∧ e.2.1 = b).map fun e => e.2.2

/-- The functions of `petgraph` on the graph with the given edges, in the order they are in. -/
structure Petgraph where
  tarjanScc : List Edge → List (List ℕ)
  allSimplePaths : List Edge → ℕ → ℕ → ℕ → Option ℕ → List (List ℕ)

def Adjacent (edges : List Edge) (a b : ℕ) : Prop := ∃ f, (a,b,f) ∈ edges

/-- A path that meets no node twice. It ends where it starts when it is a cycle. -/
def SimplePath (edges : List Edge) (a b : ℕ) (p : List ℕ) : Prop := ∃ inner,
  p = a::inner ++ [b] ∧ p.IsChain (Adjacent edges) ∧ (a::inner).Nodup ∧ b ∉ inner

/-- The steps a path may have: one more than the nodes allowed between its ends, or, without a
limit, those of a path through all nodes. -/
def pathLimit (edges : List Edge) : Option ℕ → ℕ
  | some intermediate => intermediate + 1
  | none => max 1 (nodeCount edges - 1)

/-- The components have all nodes; the paths are the simple paths within the limits. -/
structure Petgraph.Correct (lib : Petgraph) (edges : List Edge) : Prop where
  nodes : ∀ n, n ∈ (lib.tarjanScc edges).flatten ↔ n < nodeCount edges
  paths : ∀ a b least most p, p ∈ lib.allSimplePaths edges a b least most ↔
    SimplePath edges a b p ∧ least + 2 ≤ p.length ∧ p.length ≤ pathLimit edges most + 1

/-! ### The check -/

/-- The members whose flags `infinite_size` and `recursive` are set, as struct and member number. -/
structure Marks where
  infiniteSize : List (ℕ × ℕ)
  recursive : List (ℕ × ℕ)

/-- Some member of the struct has its flag `infinite_size` set. -/
def Marks.anyInfinite (marks : Marks) (no : ℕ) : Bool := marks.infiniteSize.any fun p => p.1 = no

/-- The members between two structs whose type is the second struct itself. -/
def structEdgesConnecting (ns : Namespace) (edges : List Edge) (a b : ℕ) : List ℕ :=
  (edgesConnecting edges a b).filter fun f => match (ns.fields a)[f]? with
    | some field => field.ty.isStruct
    | none => false

/-- `check_infinite_struct_size`. -/
def checkInfiniteStructSize (ns : Namespace) (edges : List Edge) (nodes : List ℕ) (marks : Marks) :
    Marks :=
  let offenders := (steps nodes).flatMap fun (a,b) =>
    (structEdgesConnecting ns edges a b).map fun f => (a,f)
  let infiniteSize := (steps nodes).all fun (a,b) => !(structEdgesConnecting ns edges a b).isEmpty
  if infiniteSize then { marks with infiniteSize := offenders ++ marks.infiniteSize } else marks

/-- What the innermost loop of `check_recursive_struct_field` does with a member that connects the
structs of a step. -/
def markField (a b : ℕ) (marks : Marks) (field : ℕ) : Marks :=
  let marks := { marks with recursive := (a,field)::marks.recursive }
  if marks.anyInfinite b then { marks with infiniteSize := (a,field)::marks.infiniteSize } else marks

def markStep (edges : List Edge) (marks : Marks) (step : ℕ × ℕ) : Marks :=
  (edgesConnecting edges step.1 step.2).foldl (markField step.1 step.2) marks

/-- The steps of all paths to a node, in the order `check_recursive_struct_field` goes through
them. -/
def pathSteps (lib : Petgraph) (ns : Namespace) (edges : List Edge) (node : ℕ) : List (ℕ × ℕ) :=
  (List.range ns.structs.length).flatMap fun n =>
    (lib.allSimplePaths edges n node 0 none).flatMap steps

/-- `check_recursive_struct_field`. -/
def checkRecursiveStructField (lib : Petgraph) (ns : Namespace) (edges : List Edge) (node : ℕ)
    (marks : Marks) : Marks := (pathSteps lib ns edges node).foldl (markStep edges) marks

/-- Without repetitions of the element before. -/
def dedup : List ℕ → List ℕ
  | a::b::rest => if a = b then dedup (b::rest) else a::dedup (b::rest)
  | rest => rest

/-- The first cycle through the node, if there is one. -/
def firstCycle (lib : Petgraph) (edges : List Edge) (n : ℕ) : Option (List ℕ) :=
  (lib.allSimplePaths edges n n 0 (some (nodeCount edges))).head?

/-- What `find_struct_recursion` does with a node. -/
def checkNode (lib : Petgraph) (ns : Namespace) (edges : List Edge) (marks : Marks) (n : ℕ) : Marks :=
  match firstCycle lib edges n with
  | some cycle =>
    checkRecursiveStructField lib ns edges n (checkInfiniteStructSize ns edges cycle marks)
  | none => marks

def findMarks (lib : Petgraph) (ns : Namespace) (edges : List Edge) : Marks :=
  (dedup (lib.tarjanScc edges).flatten).foldl (checkNode lib ns edges) ⟨[],[]⟩

/-- An error at a struct, with notes at its members. -/
structure Diagnostic where
  struct : ℕ
  message : String
  notes : List (ℕ × String)

/-- The notes for the members of infinite size. -/
def recursiveNotes (marks : Marks) (n : ℕ) (fields : List Parameter) : List (ℕ × String) :=
  (fields.zipIdx.filter fun (_,f) => (n,f) ∈ marks.infiniteSize).map
    fun (field,f) => (f,"recursive field '" ++ field.name ++ "'")

/-- The errors for the structs with a member of infinite size. -/
def diagnostics (ns : Namespace) (marks : Marks) : List Diagnostic :=
  ns.structs.zipIdx.filterMap fun (decl,n) =>
    let notes := recursiveNotes marks n decl.fields
    if notes.isEmpty then none
    else some ⟨n,"struct '" ++ decl.name ++ "' has infinite size",notes⟩

/-- `find_struct_recursion`. -/
def findStructRecursion (lib : Petgraph) (ns : Namespace) : Option (Marks × List Diagnostic) := do
  let edges ← structEdges ns
  let marks := findMarks lib ns edges
  pure (marks,diagnostics ns marks)

/-! ### Structs of infinite size -/

/-- The structs that stand in a type as they are: in itself, and in arrays of fixed length. -/
def held : FieldTy → List ℕ
  | .struct n => [n]
  | .array ty dims => if dims.contains .dynamic then [] else held ty
  | _ => []

/-- A member of the first struct refers to the second. -/
def Refers (ns : Namespace) (a b : ℕ) : Prop := ∃ f ty, ns.HasField a f ty ∧ b ∈ ty.userStructNo

/-- A member of the first struct holds the second. -/
def Holds (ns : Namespace) (a b : ℕ) : Prop := ∃ f ty, ns.HasField a f ty ∧ b ∈ held ty

/-- The struct refers, directly or through others, to one that holds itself, or holds itself. -/
def InfiniteSize (ns : Namespace) (n : ℕ) : Prop :=
  ∃ m, ReflTransGen (Refers ns) n m ∧ TransGen (Holds ns) m m

/-- An error is reported for the struct. -/
def Reported (lib : Petgraph) (ns : Namespace) (n : ℕ) : Prop :=
  ∃ marks ds, findStructRecursion lib ns = some (marks,ds) ∧ ∃ d ∈ ds, d.struct = n

/-! ### What the check goes through -/

/-- A cycle that is checked, or a step of a path. -/
inductive Event
  | cycle (nodes : List ℕ)
  | step (a b : ℕ)
  deriving DecidableEq

def Event.ofStep (step : ℕ × ℕ) : Event := .step step.1 step.2

/-- For each node with a cycle, its first cycle and then the steps of all paths to it. -/
def scan (lib : Petgraph) (ns : Namespace) (edges : List Edge) : List Event :=
  (dedup (lib.tarjanScc edges).flatten).flatMap fun n => match firstCycle lib edges n with
    | some cycle => .cycle cycle::(pathSteps lib ns edges n).map .ofStep
    | none => []

/-- Each struct of the cycle has the next one as the type of a member. -/
def AllStruct (ns : Namespace) (cycle : List ℕ) : Prop :=
  ∀ s ∈ steps cycle, ∃ f, ns.HasField s.1 f (.struct s.2)

/-- After a cycle all of whose structs are members of each other, the steps of a walk from the struct
to one of the cycle occur, the last of them first. -/
def Met (ns : Namespace) (events : List Event) (n : ℕ) : Prop := ∃ cycle walk m,
  AllStruct ns cycle ∧ m ∈ cycle.dropLast ∧ (n::walk).getLast? = some m ∧
    (.cycle cycle::((steps (n::walk)).map .ofStep).reverse).Sublist events

/-! ### Edges -/

/-- The edges are those of all members. -/
def Complete (ns : Namespace) (edges : List Edge) : Prop := ∀ e, e ∈ edges ↔ e ∈ allEdges ns

section Edges

variable {ns : Namespace} {edges : List Edge} (hedges : Complete ns edges)

theorem mem_edgesConnecting {edges : List Edge} {a b f : ℕ} :
    f ∈ edgesConnecting edges a b ↔ (a,b,f) ∈ edges := by
  simp only [edgesConnecting,List.mem_map,List.mem_filter,decide_eq_true_eq]
  constructor
  · rintro ⟨⟨a,b,f⟩,⟨he,rfl,rfl⟩,rfl⟩
    exact he
  · intro he
    exact ⟨(a,b,f),⟨he,rfl,rfl⟩,rfl⟩

include hedges

theorem adjacent_iff {a b : ℕ} : Adjacent edges a b ↔ Refers ns a b := by
  simp only [Adjacent,Refers,hedges _,mem_allEdges]

theorem mem_structEdgesConnecting {a b f : ℕ} :
    f ∈ structEdgesConnecting ns edges a b ↔ ns.HasField a f (.struct b) := by
  rw [structEdgesConnecting,List.mem_filter,mem_edgesConnecting,hedges,mem_allEdges]
  constructor
  · rintro ⟨⟨ty,⟨field,hf,rfl⟩,hb⟩,hstruct⟩
    rw [hf] at hstruct
    refine ⟨field,hf,?_⟩
    cases hty : field.ty with
    | struct n =>
      rw [hty,FieldTy.userStructNo,List.mem_singleton] at hb
      exact congrArg _ hb.symm
    | _ => simp [hty,FieldTy.isStruct] at hstruct
  · rintro ⟨field,hf,hty⟩
    refine ⟨⟨.struct b,⟨field,hf,hty⟩,by simp [FieldTy.userStructNo]⟩,?_⟩
    simp [hf,hty,FieldTy.isStruct]

theorem structEdges_isEmpty {a b : ℕ} : (structEdgesConnecting ns edges a b).isEmpty = false ↔
    ∃ f, ns.HasField a f (.struct b) := by
  simp only [List.isEmpty_eq_false_iff_exists_mem,mem_structEdgesConnecting hedges]

end Edges

/-! ### What the marks say -/

theorem anyInfinite_iff {marks : Marks} {n : ℕ} :
    marks.anyInfinite n = true ↔ ∃ f, (n,f) ∈ marks.infiniteSize := by
  simp only [Marks.anyInfinite,List.any_eq_true,Prod.exists,decide_eq_true_eq]
  constructor
  · rintro ⟨a,f,hmem,rfl⟩
    exact ⟨f,hmem⟩
  · rintro ⟨f,hmem⟩
    exact ⟨n,f,hmem,rfl⟩

/-- A cycle marks its structs, if each is a member of the one before. -/
theorem anyInfinite_cycle {ns : Namespace} {edges : List Edge} (hedges : Complete ns edges)
    (cycle : List ℕ) (marks : Marks) (n : ℕ) :
    (checkInfiniteStructSize ns edges cycle marks).anyInfinite n = true ↔
      marks.anyInfinite n = true ∨ AllStruct ns cycle ∧ n ∈ cycle.dropLast := by
  have hall : ((steps cycle).all fun (a,b) => !(structEdgesConnecting ns edges a b).isEmpty) = true ↔
      AllStruct ns cycle := by
    simp only [List.all_eq_true,Bool.not_eq_true',structEdges_isEmpty hedges,AllStruct]
  rw [checkInfiniteStructSize]
  split
  · rename_i h
    have hcycle := hall.mp h
    simp only [anyInfinite_iff,List.mem_append,exists_or,List.mem_flatMap,List.mem_map,Prod.exists,
      Prod.mk.injEq,mem_structEdgesConnecting hedges,hcycle,true_and,← map_fst_steps]
    rw [or_comm]
    apply or_congr_right
    constructor
    · rintro ⟨f,a,b,hs,f',hf,rfl,rfl⟩
      exact ⟨a,b,hs,rfl⟩
    · rintro ⟨a,b,hs,rfl⟩
      obtain ⟨f,hf⟩ := hcycle _ hs
      exact ⟨f,a,b,hs,f,hf,rfl,rfl⟩
  · rename_i h
    have hcycle : ¬ AllStruct ns cycle := fun hc => h (hall.mpr hc)
    simp [hcycle]

theorem foldl_markField (a b : ℕ) (fields : List ℕ) (marks : Marks) (n : ℕ) :
    (fields.foldl (markField a b) marks).anyInfinite n = true ↔
      marks.anyInfinite n = true ∨ n = a ∧ fields ≠ [] ∧ marks.anyInfinite b = true := by
  induction fields generalizing marks with
  | nil => simp
  | cons f fields ih =>
    have hfield : ∀ n, (markField a b marks f).anyInfinite n = true ↔
        marks.anyInfinite n = true ∨ n = a ∧ marks.anyInfinite b = true := by
      intro n
      have hsame : ∀ k, Marks.anyInfinite { marks with recursive := (a,f)::marks.recursive } k =
        marks.anyInfinite k := fun k => rfl
      rw [markField,hsame]
      split
      · rename_i hb
        have hcons : ∀ k, Marks.anyInfinite ⟨(a,f)::marks.infiniteSize,(a,f)::marks.recursive⟩ k =
          (decide (a = k) || marks.anyInfinite k) := fun k => rfl
        rw [hcons,Bool.or_eq_true,decide_eq_true_eq,or_comm,hb]
        simp [@eq_comm _ a n]
      · rename_i hb
        rw [hsame]
        simp [hb]
    rw [List.foldl_cons,ih,hfield,hfield]
    constructor
    · rintro ((h | h) | ⟨rfl,-,h | ⟨-,h⟩⟩)
      · exact .inl h
      · exact .inr ⟨h.1,by simp,h.2⟩
      · exact .inr ⟨rfl,by simp,h⟩
      · exact .inr ⟨rfl,by simp,h⟩
    · rintro (h | ⟨rfl,-,h⟩)
      · exact .inl (.inl h)
      · exact .inl (.inr ⟨rfl,h⟩)

/-- A step passes a mark on to the struct it starts at. -/
theorem anyInfinite_step {edges : List Edge} {a b : ℕ} (h : Adjacent edges a b) (marks : Marks)
    (n : ℕ) : (markStep edges marks (a,b)).anyInfinite n = true ↔
      marks.anyInfinite n = true ∨ n = a ∧ marks.anyInfinite b = true := by
  obtain ⟨f,hf⟩ := h
  have hne : edgesConnecting edges a b ≠ [] := List.ne_nil_of_mem (mem_edgesConnecting.mpr hf)
  simp only [markStep,foldl_markField,hne,ne_eq,not_false_eq_true,true_and]

/-! ### The marks of the whole check -/

def runEvent (ns : Namespace) (edges : List Edge) (marks : Marks) : Event → Marks
  | .cycle nodes => checkInfiniteStructSize ns edges nodes marks
  | .step a b => markStep edges marks (a,b)

theorem findMarks_eq (lib : Petgraph) (ns : Namespace) (edges : List Edge) :
    findMarks lib ns edges = (scan lib ns edges).foldl (runEvent ns edges) ⟨[],[]⟩ := by
  have hnodes : ∀ (nodes : List ℕ) marks, nodes.foldl (checkNode lib ns edges) marks =
      (nodes.flatMap fun n => match firstCycle lib edges n with
        | some cycle => .cycle cycle::(pathSteps lib ns edges n).map .ofStep
        | none => []).foldl (runEvent ns edges) marks := by
    intro nodes
    induction nodes with
    | nil => exact fun marks => rfl
    | cons n nodes ih =>
      intro marks
      rw [List.foldl_cons,ih,List.flatMap_cons,List.foldl_append]
      congr 1
      rw [checkNode]
      split
      · rw [checkRecursiveStructField,List.foldl_cons,List.foldl_map]
        rfl
      · rfl
  exact hnodes _ _

/-- The last event of a sublist is the last event, or the sublist is one of the events before. -/
theorem sublist_concat_iff {l events : List Event} {x e : Event} :
    (l ++ [x]).Sublist (events ++ [e]) ↔
      (l ++ [x]).Sublist events ∨ x = e ∧ l.Sublist events := by
  rw [← List.reverse_sublist,List.reverse_append,List.reverse_append,List.reverse_singleton,
    List.reverse_singleton,List.singleton_append,List.singleton_append,List.sublist_cons_iff,
    ← List.reverse_sublist,← @List.reverse_sublist _ l]
  simp only [List.reverse_cons,List.reverse_reverse,List.cons.injEq]
  apply or_congr_right
  constructor
  · rintro ⟨r,⟨rfl,rfl⟩,hsub⟩
    exact ⟨rfl,hsub⟩
  · rintro ⟨rfl,hsub⟩
    exact ⟨l.reverse,⟨rfl,rfl⟩,hsub⟩

/-- One more event: a cycle meets its structs, and a step the struct it starts at. -/
theorem met_concat {ns : Namespace} {events : List Event} {e : Event} {n : ℕ} :
    Met ns (events ++ [e]) n ↔ Met ns events n ∨ match e with
      | .cycle nodes => AllStruct ns nodes ∧ n ∈ nodes.dropLast
      | .step a b => n = a ∧ Met ns events b := by
  have hsplit : ∀ cycle n b walk, Event.cycle cycle::((steps (n::b::walk)).map .ofStep).reverse =
      (.cycle cycle::((steps (b::walk)).map .ofStep).reverse) ++ [.step n b] := by
    intro cycle n b walk
    simp [Event.ofStep]
  constructor
  · rintro ⟨cycle,walk,m,hall,hm,hlast,hsub⟩
    cases walk with
    | nil =>
      obtain rfl : n = m := by simpa using hlast
      rcases sublist_concat_iff (l := []) |>.mp hsub with hsub | ⟨rfl,-⟩
      · exact .inl ⟨cycle,[],n,hall,hm,rfl,hsub⟩
      · exact .inr ⟨hall,hm⟩
    | cons b walk =>
      rw [hsplit] at hsub
      rcases sublist_concat_iff.mp hsub with hbefore | ⟨rfl,hbefore⟩
      · exact .inl ⟨cycle,b::walk,m,hall,hm,hlast,by rwa [hsplit]⟩
      · exact .inr ⟨rfl,cycle,walk,m,hall,hm,by simpa using hlast,hbefore⟩
  · rintro (⟨cycle,walk,m,hall,hm,hlast,hsub⟩ | h)
    · exact ⟨cycle,walk,m,hall,hm,hlast,hsub.trans (List.sublist_append_left _ _)⟩
    · cases e with
      | cycle nodes =>
        exact ⟨nodes,[],n,h.1,h.2,rfl,List.sublist_append_right _ _⟩
      | step a b =>
        obtain ⟨rfl,cycle,walk,m,hall,hm,hlast,hsub⟩ := h
        refine ⟨cycle,b::walk,m,hall,hm,by simpa using hlast,?_⟩
        rw [hsplit]
        exact hsub.append (List.Sublist.refl _)

/-- The marks are the structs that are met. -/
theorem anyInfinite_foldl {ns : Namespace} {edges : List Edge} (hedges : Complete ns edges)
    {events : List Event} (hsteps : ∀ a b, .step a b ∈ events → Adjacent edges a b) (n : ℕ) :
    (events.foldl (runEvent ns edges) ⟨[],[]⟩).anyInfinite n = true ↔ Met ns events n := by
  induction events using List.reverseRecOn generalizing n with
  | nil =>
    constructor
    · intro h
      cases h
    · rintro ⟨cycle,walk,m,-,-,-,hsub⟩
      cases hsub
  | append_singleton events e ih =>
    have ih := ih fun a b h => hsteps a b (List.mem_append_left _ h)
    rw [List.foldl_append,List.foldl_cons,List.foldl_nil,met_concat,← ih]
    cases e with
    | cycle nodes => exact anyInfinite_cycle hedges nodes _ n
    | step a b =>
      have hstep := anyInfinite_step (hsteps a b (by simp))
        (events.foldl (runEvent ns edges) ⟨[],[]⟩) n
      rwa [ih b] at hstep

/-! ### The structs the check meets have infinite size -/

theorem held_subset {ty : FieldTy} : held ty ⊆ ty.userStructNo := by
  induction ty with
  | struct n => simp [held,FieldTy.userStructNo]
  | array ty dims ih =>
    rw [held,FieldTy.userStructNo]
    split
    · simp
    · exact ih
  | _ => simp [held]

theorem Holds.refers {ns : Namespace} {a b : ℕ} (h : Holds ns a b) : Refers ns a b := by
  obtain ⟨f,ty,hf,hb⟩ := h
  exact ⟨f,ty,hf,held_subset hb⟩

theorem Refers.lt {ns : Namespace} {a b : ℕ} (h : Refers ns a b) :
    a < ns.structs.length ∧ b < ns.structs.length := by
  obtain ⟨f,ty,hf,hb⟩ := h
  exact ⟨hf.lt,hf.closed hb⟩

theorem infiniteSize_lt {ns : Namespace} {n : ℕ} (h : InfiniteSize ns n) : n < ns.structs.length := by
  obtain ⟨m,hto,hm⟩ := h
  rcases hto.cases_head with rfl | ⟨b,hb,-⟩
  · obtain ⟨b,hb,-⟩ := TransGen.head'_iff.mp hm
    exact hb.refers.lt.1
  · exact hb.lt.1

section Library

variable {lib : Petgraph} {ns : Namespace} {edges : List Edge} (hlib : lib.Correct edges)
  (hedges : Complete ns edges)

theorem mem_dedup {l : List ℕ} {n : ℕ} : n ∈ dedup l ↔ n ∈ l := by
  induction l using dedup.induct with
  | case1 a rest ih => simp [dedup,ih]
  | case2 a b rest hne ih => simp [dedup,hne,ih]
  | case3 l h => rw [dedup]; exact h

/-- The steps that are gone through lie on paths to nodes with a cycle. -/
theorem mem_scan_step {a b : ℕ} : .step a b ∈ scan lib ns edges ↔
    ∃ node ∈ (lib.tarjanScc edges).flatten, (firstCycle lib edges node).isSome = true ∧
      (a,b) ∈ pathSteps lib ns edges node := by
  simp only [scan,List.mem_flatMap,mem_dedup]
  apply exists_congr
  intro node
  apply and_congr_right
  intro hnode
  cases firstCycle lib edges node with
  | none => simp
  | some cycle => simp [Event.ofStep]

theorem mem_scan_cycle {cycle : List ℕ} (h : .cycle cycle ∈ scan lib ns edges) :
    ∃ node, firstCycle lib edges node = some cycle := by
  simp only [scan,List.mem_flatMap] at h
  obtain ⟨node,-,h⟩ := h
  cases hc : firstCycle lib edges node with
  | none => simp [hc] at h
  | some c =>
    obtain rfl : cycle = c := by simpa [hc,Event.ofStep] using h
    exact ⟨node,hc⟩

include hlib

theorem firstCycle_simple {n : ℕ} {cycle : List ℕ} (h : firstCycle lib edges n = some cycle) :
    SimplePath edges n n cycle :=
  ((hlib.paths _ _ _ _ _).mp (List.mem_of_head? h)).1

theorem adjacent_of_scan {a b : ℕ} (h : .step a b ∈ scan lib ns edges) : Adjacent edges a b := by
  obtain ⟨node,-,-,h⟩ := mem_scan_step.mp h
  simp only [pathSteps,List.mem_flatMap] at h
  obtain ⟨n,-,p,hp,hs⟩ := h
  obtain ⟨inner,-,hchain,-⟩ := ((hlib.paths _ _ _ _ _).mp hp).1
  exact isChain_iff_steps.mp hchain _ hs

include hedges

/-- A struct that is met refers to one that holds itself. -/
theorem infiniteSize_of_met {n : ℕ} (h : Met ns (scan lib ns edges) n) : InfiniteSize ns n := by
  obtain ⟨cycle,walk,m,hall,hm,hlast,hsub⟩ := h
  have hwalk : (n::walk).IsChain (Refers ns) := by
    refine isChain_iff_steps.mpr fun s hs => ?_
    have hmem : Event.ofStep s ∈ scan lib ns edges :=
      hsub.subset (List.mem_cons_of_mem _ (List.mem_reverse.mpr (List.mem_map_of_mem hs)))
    exact (adjacent_iff hedges).mp (adjacent_of_scan hlib hmem)
  refine ⟨m,?_,?_⟩
  · exact reflTransGen_of_getLast hwalk hlast
  · obtain ⟨node,hcycle⟩ := mem_scan_cycle (hsub.subset (List.mem_cons_self ..))
    obtain ⟨inner,rfl,-,-⟩ := firstCycle_simple hlib hcycle
    have hchain : (node::inner ++ [node]).IsChain (Holds ns) := by
      refine isChain_iff_steps.mpr fun s hs => ?_
      obtain ⟨f,hf⟩ := hall s hs
      exact ⟨f,_,hf,by simp [held]⟩
    rw [List.dropLast_concat] at hm
    exact transGen_of_closed hchain hm

end Library

/-! ### The reports -/

/-- The marked members are members. -/
def Valid (edges : List Edge) (marks : Marks) : Prop :=
  ∀ p ∈ marks.infiniteSize, ∃ b, (p.1,b,p.2) ∈ edges

theorem Valid.cycle {edges : List Edge} {marks : Marks} (h : Valid edges marks) (ns : Namespace)
    (nodes : List ℕ) : Valid edges (checkInfiniteStructSize ns edges nodes marks) := by
  rw [checkInfiniteStructSize]
  split
  · intro p hp
    rcases List.mem_append.mp hp with hp | hp
    · simp only [List.mem_flatMap,List.mem_map,structEdgesConnecting,List.mem_filter,
        mem_edgesConnecting] at hp
      obtain ⟨⟨a,b⟩,-,f,⟨he,-⟩,rfl⟩ := hp
      exact ⟨b,he⟩
    · exact h p hp
  · exact h

theorem Valid.step {edges : List Edge} {marks : Marks} (h : Valid edges marks) (a b : ℕ) :
    Valid edges (markStep edges marks (a,b)) := by
  have hfold : ∀ (fields : List ℕ) marks, (∀ f ∈ fields, (a,b,f) ∈ edges) → Valid edges marks →
      Valid edges (fields.foldl (markField a b) marks) := by
    intro fields
    induction fields with
    | nil => exact fun marks _ h => h
    | cons f fields ih =>
      intro marks hfields h
      rw [List.forall_mem_cons] at hfields
      refine ih _ hfields.2 ?_
      rw [markField]
      split
      · intro p hp
        rcases List.mem_cons.mp hp with rfl | hp
        · exact ⟨b,hfields.1⟩
        · exact h p hp
      · exact h
  exact hfold _ _ (fun f hf => mem_edgesConnecting.mp hf) h

theorem valid_findMarks (lib : Petgraph) (ns : Namespace) (edges : List Edge) :
    Valid edges (findMarks lib ns edges) := by
  rw [findMarks_eq]
  induction scan lib ns edges using List.reverseRecOn with
  | nil => exact fun p hp => by cases hp
  | append_singleton events e ih =>
    rw [List.foldl_append]
    cases e with
    | cycle nodes => exact ih.cycle ns nodes
    | step a b => exact ih.step a b

theorem recursiveNotes_isEmpty {marks : Marks} {n : ℕ} {fields : List Parameter} :
    (recursiveNotes marks n fields).isEmpty = true ↔
      ∀ f < fields.length, (n,f) ∉ marks.infiniteSize := by
  simp only [recursiveNotes,List.isEmpty_iff,List.map_eq_nil_iff,List.filter_eq_nil_iff,Prod.forall,
    List.mem_zipIdx_iff_getElem?,decide_eq_true_eq]
  constructor
  · intro h f hf
    exact h _ f (List.getElem?_eq_getElem hf)
  · intro h field f hf
    exact h f (List.getElem?_eq_some_iff.mp hf).1

/-- An error is reported at the structs with a member of infinite size. -/
theorem mem_diagnostics {ns : Namespace} {marks : Marks} {n : ℕ}
    (hmarks : ∀ f, (n,f) ∈ marks.infiniteSize → f < (ns.fields n).length) :
    (∃ d ∈ diagnostics ns marks, d.struct = n) ↔ marks.anyInfinite n = true := by
  rw [anyInfinite_iff]
  simp only [diagnostics,List.mem_filterMap,Prod.exists,List.mem_zipIdx_iff_getElem?]
  constructor
  · rintro ⟨d,⟨decl,k,hdecl,hd⟩,rfl⟩
    split at hd
    · cases hd
    · rename_i hne
      cases hd
      by_contra hnone
      rw [not_exists] at hnone
      exact hne (recursiveNotes_isEmpty.mpr fun f _ => hnone f)
  · rintro ⟨f,hf⟩
    have hlt := hmarks f hf
    rw [Namespace.fields] at hlt
    cases hdecl : ns.structs[n]? with
    | none => simp [hdecl] at hlt
    | some decl =>
      rw [hdecl] at hlt
      have hne : ¬ (recursiveNotes marks n decl.fields).isEmpty = true :=
        fun h => recursiveNotes_isEmpty.mp h f hlt hf
      exact ⟨_,⟨decl,n,hdecl,if_neg hne⟩,rfl⟩

/-! ### Cycles and recursive members -/

theorem lt_nodeCount {edges : List Edge} {e : Edge} (h : e ∈ edges) :
    e.1 < nodeCount edges ∧ e.2.1 < nodeCount edges := by
  have hle : max e.1 e.2.1 + 1 ≤ nodeCount edges := by
    rw [nodeCount]
    induction edges with
    | nil => cases h
    | cons e' edges ih =>
      rw [List.map_cons,List.foldr_cons]
      rcases List.mem_cons.mp h with rfl | h
      · exact le_max_left _ _
      · exact (ih h).trans (le_max_right _ _)
  omega

theorem Adjacent.lt {edges : List Edge} {a b : ℕ} (h : Adjacent edges a b) :
    a < nodeCount edges ∧ b < nodeCount edges := by
  obtain ⟨f,hf⟩ := h
  exact lt_nodeCount hf

/-- A walk that meets no node twice has at most as many nodes as the graph. -/
theorem length_le_nodeCount {edges : List Edge} {a : ℕ} {l : List ℕ} (ha : a < nodeCount edges)
    (hchain : (a::l).IsChain (Adjacent edges)) (hnodup : (a::l).Nodup) :
    (a::l).length ≤ nodeCount edges := by
  have hlt : ∀ x ∈ a::l, x < nodeCount edges := by
    intro x hx
    rcases List.mem_cons.mp hx with rfl | hx
    · exact ha
    · obtain ⟨y,-,hy⟩ := TransGen.tail'_iff.mp (transGen_of_isChain hchain hx)
      exact hy.lt.2
  rw [← List.toFinset_card_of_nodup hnodup,← Finset.card_range (nodeCount edges)]
  refine Finset.card_le_card fun x hx => ?_
  rw [Finset.mem_range]
  exact hlt x (List.mem_toFinset.mp hx)

theorem simplePath_cons {edges : List Edge} {a b m : ℕ} {l : List ℕ} (hstep : Adjacent edges a b)
    (hchain : (b::l).IsChain (Adjacent edges)) (hnodup : (b::l).Nodup)
    (hlast : (b::l).getLast? = some m) (ha : a ∉ (b::l).dropLast) : SimplePath edges a m (a::b::l) := by
  have hsplit : b::l = (b::l).dropLast ++ [m] := (List.dropLast_append_getLast? m hlast).symm
  have hnodup' := hsplit ▸ hnodup
  rw [List.nodup_append] at hnodup'
  refine ⟨(b::l).dropLast,by rw [List.cons_append,← hsplit],
    List.isChain_cons_cons.mpr ⟨hstep,hchain⟩,List.nodup_cons.mpr ⟨ha,hnodup'.1⟩,?_⟩
  exact fun hm => hnodup'.2.2 m hm m (by simp) rfl

section Recursive

variable {lib : Petgraph} {ns : Namespace} {edges : List Edge} (hlib : lib.Correct edges)

include hlib

/-- A first cycle is found for the structs that refer to themselves. -/
theorem firstCycle_isSome {n : ℕ} :
    (firstCycle lib edges n).isSome = true ↔ TransGen (Adjacent edges) n n := by
  constructor
  · intro h
    obtain ⟨cycle,hcycle⟩ := Option.isSome_iff_exists.mp h
    obtain ⟨inner,rfl,hchain,-⟩ := firstCycle_simple hlib hcycle
    exact transGen_of_closed hchain (List.mem_cons_self ..)
  · intro h
    obtain ⟨b,hb,hto⟩ := TransGen.head'_iff.mp h
    obtain ⟨l,hchain,hnodup,hlast⟩ := exists_simple hto
    have hn : n ∉ (b::l).dropLast := by
      have hsplit := List.dropLast_append_getLast? n hlast
      rw [← hsplit,List.nodup_append] at hnodup
      exact fun hmem => hnodup.2.2 n hmem n (by simp) rfl
    have hpath := simplePath_cons hb hchain hnodup hlast hn
    have hlen := length_le_nodeCount hb.lt.2 hchain hnodup
    have hmem : n::b::l ∈ lib.allSimplePaths edges n n 0 (some (nodeCount edges)) := by
      refine (hlib.paths _ _ _ _ _).mpr ⟨hpath,by simp,?_⟩
      simp only [List.length_cons,pathLimit] at hlen ⊢
      omega
    rw [firstCycle,List.isSome_head?]
    exact List.ne_nil_of_mem hmem

theorem mem_pathSteps {a b node : ℕ} : (a,b) ∈ pathSteps lib ns edges node ↔
    ∃ n < ns.structs.length, ∃ p, SimplePath edges n node p ∧
      p.length ≤ pathLimit edges none + 1 ∧ (a,b) ∈ steps p := by
  simp only [pathSteps,List.mem_flatMap,List.mem_range,hlib.paths]
  apply exists_congr
  intro n
  apply and_congr_right
  intro _
  apply exists_congr
  intro p
  constructor
  · rintro ⟨⟨hp,-,hlen⟩,hs⟩
    exact ⟨hp,hlen,hs⟩
  · rintro ⟨hp,hlen,hs⟩
    refine ⟨⟨hp,?_,hlen⟩,hs⟩
    obtain ⟨inner,rfl,-⟩ := hp
    simp

variable (hedges : Complete ns edges)

include hedges

/-- The steps gone through are those that lead to a struct that refers to itself. -/
theorem mem_scan_step_iff {a b : ℕ} (hab : Adjacent edges a b) : .step a b ∈ scan lib ns edges ↔
    ∃ m, ReflTransGen (Adjacent edges) b m ∧ TransGen (Adjacent edges) m m := by
  rw [mem_scan_step]
  constructor
  · rintro ⟨node,-,hcycle,hs⟩
    obtain ⟨n,-,p,⟨inner,rfl,hchain,-⟩,-,hs⟩ := (mem_pathSteps hlib).mp hs
    refine ⟨node,?_,(firstCycle_isSome hlib).mp hcycle⟩
    exact reflTransGen_of_step hchain List.getLast?_concat hs
  · rintro ⟨m,hto,hm⟩
    obtain ⟨l,hchain,hnodup,hlast⟩ := exists_simple hto
    have ha : a < ns.structs.length := ((adjacent_iff hedges).mp hab).lt.1
    by_cases hmem : a ∈ b::l
    · -- the walk comes back to `a`, so that `b` refers to itself
      have hba : ReflTransGen (Adjacent edges) b a := by
        rcases List.mem_cons.mp hmem with rfl | hmem
        · exact .refl
        · exact (transGen_of_isChain hchain hmem).to_reflTransGen
      refine ⟨b,(hlib.nodes b).mpr hab.lt.2,(firstCycle_isSome hlib).mpr (.tail' hba hab),?_⟩
      refine (mem_pathSteps hlib).mpr ⟨a,ha,[a,b],⟨[],rfl,List.isChain_pair.mpr hab,by simp,by simp⟩,?_,by simp⟩
      simp [pathLimit]
    · refine ⟨m,?_,(firstCycle_isSome hlib).mpr hm,?_⟩
      · obtain ⟨c,hc,-⟩ := TransGen.head'_iff.mp hm
        exact (hlib.nodes m).mpr hc.lt.1
      · have hpath := simplePath_cons hab hchain hnodup hlast
          fun h => hmem (List.mem_of_mem_dropLast h)
        have hlen := length_le_nodeCount hab.lt.1 (List.isChain_cons_cons.mpr ⟨hab,hchain⟩)
          (List.nodup_cons.mpr ⟨hmem,hnodup⟩)
        refine (mem_pathSteps hlib).mpr ⟨a,ha,a::b::l,hpath,?_,by simp⟩
        simp only [List.length_cons,pathLimit] at hlen ⊢
        omega

end Recursive

theorem mem_recursive_markStep {edges : List Edge} {marks : Marks} {a b : ℕ} {p : ℕ × ℕ} :
    p ∈ (markStep edges marks (a,b)).recursive ↔
      p ∈ marks.recursive ∨ p.1 = a ∧ (a,b,p.2) ∈ edges := by
  have hfold : ∀ (fields : List ℕ) marks, p ∈ (fields.foldl (markField a b) marks).recursive ↔
      p ∈ marks.recursive ∨ p.1 = a ∧ p.2 ∈ fields := by
    intro fields
    induction fields with
    | nil => simp
    | cons f fields ih =>
      intro marks
      have hfield : (markField a b marks f).recursive = (a,f)::marks.recursive := by
        rw [markField]
        split <;> rfl
      rw [List.foldl_cons,ih,hfield,List.mem_cons,List.mem_cons,Prod.ext_iff]
      tauto
  rw [markStep,hfold,mem_edgesConnecting]

/-- The recursive members are those that refer to a struct from which one is reached that refers to
itself. -/
theorem mem_recursive_iff {lib : Petgraph} {ns : Namespace} {edges : List Edge}
    (hlib : lib.Correct edges) (hedges : Complete ns edges) {a f : ℕ} :
    (a,f) ∈ (findMarks lib ns edges).recursive ↔ ∃ ty b m, ns.HasField a f ty ∧
      b ∈ ty.userStructNo ∧ ReflTransGen (Refers ns) b m ∧ TransGen (Refers ns) m m := by
  have hadj : Adjacent edges = Refers ns := by
    funext a b
    exact propext (adjacent_iff hedges)
  have hfold : ∀ events : List Event, (a,f) ∈ (events.foldl (runEvent ns edges) ⟨[],[]⟩).recursive ↔
      ∃ b, .step a b ∈ events ∧ (a,b,f) ∈ edges := by
    intro events
    induction events using List.reverseRecOn with
    | nil => simp
    | append_singleton events e ih =>
      rw [List.foldl_append,List.foldl_cons,List.foldl_nil]
      cases e with
      | cycle nodes =>
        have hcycle : ∀ marks, (checkInfiniteStructSize ns edges nodes marks).recursive =
            marks.recursive := by
          intro marks
          rw [checkInfiniteStructSize]
          split <;> rfl
        rw [runEvent,hcycle,ih]
        simp
      | step a' b =>
        rw [runEvent,mem_recursive_markStep,ih]
        simp only [List.mem_append,List.mem_singleton,Event.step.injEq]
        constructor
        · rintro (⟨b',h,he⟩ | ⟨rfl,he⟩)
          · exact ⟨b',.inl h,he⟩
          · exact ⟨b,.inr ⟨rfl,rfl⟩,he⟩
        · rintro ⟨b',h | ⟨rfl,rfl⟩,he⟩
          · exact .inl ⟨b',h,he⟩
          · exact .inr ⟨rfl,he⟩
  rw [findMarks_eq,hfold]
  constructor
  · rintro ⟨b,hs,he⟩
    obtain ⟨m,hto,hm⟩ := (mem_scan_step_iff hlib hedges ⟨f,he⟩).mp hs
    obtain ⟨ty,hty,hb⟩ := mem_allEdges.mp ((hedges _).mp he)
    exact ⟨ty,b,m,hty,hb,hadj ▸ hto,hadj ▸ hm⟩
  · rintro ⟨ty,b,m,hty,hb,hto,hm⟩
    have he : (a,b,f) ∈ edges := (hedges _).mpr (mem_allEdges.mpr ⟨ty,hty,hb⟩)
    exact ⟨b,(mem_scan_step_iff hlib hedges ⟨f,he⟩).mpr ⟨m,hadj ▸ hto,hadj ▸ hm⟩,he⟩

/-! ### When the reports are right -/

/-- The edges `find_struct_recursion` works on. -/
def graph (ns : Namespace) : List Edge := (structEdges ns).getD []

theorem structEdges_eq (ns : Namespace) : structEdges ns = some (graph ns) := by
  obtain ⟨edges,hrun,-⟩ := structEdges_spec ns
  rw [graph,hrun]
  rfl

theorem complete_graph (ns : Namespace) : Complete ns (graph ns) := by
  obtain ⟨edges,hrun,hmem⟩ := structEdges_spec ns
  rw [graph,hrun]
  exact hmem

theorem findStructRecursion_eq (lib : Petgraph) (ns : Namespace) : findStructRecursion lib ns =
    some (findMarks lib ns (graph ns),diagnostics ns (findMarks lib ns (graph ns))) := by
  rw [findStructRecursion,structEdges_eq]
  rfl

theorem mem_diagnostics_findMarks {lib : Petgraph} {ns : Namespace} {n : ℕ} :
    (∃ d ∈ diagnostics ns (findMarks lib ns (graph ns)), d.struct = n) ↔
      (findMarks lib ns (graph ns)).anyInfinite n = true := by
  apply mem_diagnostics
  intro f hf
  obtain ⟨b,hb⟩ := valid_findMarks lib ns (graph ns) _ hf
  obtain ⟨ty,hty,-⟩ := mem_allEdges.mp ((complete_graph ns _).mp hb)
  exact hty.field_lt

/-- A struct is reported if and only if the check meets it. -/
theorem reported_iff {lib : Petgraph} {ns : Namespace} (hlib : lib.Correct (graph ns)) (n : ℕ) :
    Reported lib ns n ↔ Met ns (scan lib ns (graph ns)) n := by
  rw [← anyInfinite_foldl (complete_graph ns) (fun a b h => adjacent_of_scan hlib h),← findMarks_eq,
    ← mem_diagnostics_findMarks]
  constructor
  · rintro ⟨marks,ds,heq,h⟩
    cases (findStructRecursion_eq lib ns).symm.trans heq
    exact h
  · intro h
    exact ⟨_,_,findStructRecursion_eq lib ns,h⟩

/-- In whatever order the library answers, a struct is reported if its cycles are all made of
members whose types are the structs themselves. -/
theorem reported_of_allStruct {lib : Petgraph} {ns : Namespace} (hlib : lib.Correct (graph ns)) {n : ℕ}
    (hn : TransGen (Refers ns) n n)
    (hall : ∀ cycle, SimplePath (graph ns) n n cycle → AllStruct ns cycle) : Reported lib ns n := by
  have hadj : TransGen (Adjacent (graph ns)) n n :=
    hn.lift id fun a b h => (adjacent_iff (complete_graph ns)).mpr h
  obtain ⟨cycle,hcycle⟩ := Option.isSome_iff_exists.mp ((firstCycle_isSome hlib).mpr hadj)
  have hsimple := firstCycle_simple hlib hcycle
  have hmem : Event.cycle cycle ∈ scan lib ns (graph ns) := by
    obtain ⟨b,hb,-⟩ := TransGen.head'_iff.mp hadj
    refine List.mem_flatMap.mpr ⟨n,mem_dedup.mpr ((hlib.nodes n).mpr hb.lt.1),?_⟩
    simp [hcycle]
  refine (reported_iff hlib n).mpr ⟨cycle,[],n,hall cycle hsimple,?_,rfl,?_⟩
  · obtain ⟨inner,rfl,-⟩ := hsimple
    rw [List.dropLast_concat]
    exact List.mem_cons_self ..
  · simpa using hmem

/-- The reports are right if and only if each struct of infinite size is met. -/
theorem reports_infinite_iff (lib : Petgraph) (ns : Namespace) (hlib : lib.Correct (graph ns)) :
    (∀ n, Reported lib ns n ↔ InfiniteSize ns n) ↔
      ∀ n, InfiniteSize ns n → Met ns (scan lib ns (graph ns)) n := by
  constructor
  · intro h n hn
    exact (reported_iff hlib n).mp ((h n).mpr hn)
  · intro h n
    constructor
    · intro hr
      exact infiniteSize_of_met hlib (complete_graph ns) ((reported_iff hlib n).mp hr)
    · intro hn
      exact (reported_iff hlib n).mpr (h n hn)

/-- A namespace of one struct with one member. -/
def oneStruct (ty : FieldTy) (h : ∀ n ∈ ty.userStructNo, n < 1) : Namespace where
  structs := [⟨"A",[⟨"a",ty⟩]⟩]
  closed := by simpa using h

theorem only_zero : ∀ n ∈ [0], n < 1 := by simp

/-- `struct A { A a; }`. -/
def holdsItself : Namespace := oneStruct (.struct 0) only_zero

/-- `struct A { A[2] a; }`. -/
def holdsTwo : Namespace := oneStruct (.array (.struct 0) [.fixed 2]) only_zero

/-- The answers for one struct that refers to itself. -/
def loopLibrary : Petgraph where
  tarjanScc _ := [[0]]
  allSimplePaths _ a b least _ := if a = 0 ∧ b = 0 ∧ least = 0 then [[0,0]] else []

theorem loopLibrary_correct : loopLibrary.Correct [(0,0,0)] := by
  have hadj : ∀ a b, Adjacent [(0,0,0)] a b ↔ a = 0 ∧ b = 0 := by
    intro a b
    simp [Adjacent]
  refine ⟨fun n => ?_,fun a b least most p => ?_⟩
  · simp [loopLibrary,nodeCount]
  · constructor
    · intro hp
      simp only [loopLibrary] at hp
      split at hp
      · rename_i h
        obtain ⟨rfl,rfl,rfl⟩ := h
        rw [List.mem_singleton] at hp
        subst hp
        refine ⟨⟨[],rfl,List.isChain_pair.mpr ((hadj _ _).mpr ⟨rfl,rfl⟩),by simp,by simp⟩,by simp,?_⟩
        cases most <;> simp [pathLimit]
      · cases hp
    · rintro ⟨⟨inner,rfl,hchain,hnodup,-⟩,hleast,-⟩
      cases inner with
      | nil =>
        obtain ⟨rfl,rfl⟩ := (hadj _ _).mp (List.isChain_pair.mp hchain)
        have hzero : least = 0 := by simpa using hleast
        simp [loopLibrary,hzero]
      | cons c inner =>
        have hac := (hadj _ _).mp (List.isChain_cons_cons.mp hchain).1
        rw [hac.1,hac.2] at hnodup
        simp at hnodup

theorem graph_holdsItself : graph holdsItself = [(0,0,0)] := by decide

theorem graph_holdsTwo : graph holdsTwo = [(0,0,0)] := by decide

theorem reports_infinite_iff_holdsItself :
    Reported loopLibrary holdsItself 0 ↔ InfiniteSize holdsItself 0 := by
  have hall := (reports_infinite_iff loopLibrary holdsItself
    (by rw [graph_holdsItself]; exact loopLibrary_correct)).mpr fun n hn => ?_
  · exact hall 0
  obtain rfl : n = 0 := by simpa [holdsItself,oneStruct] using infiniteSize_lt hn
  refine ⟨[0,0],[],0,?_,by simp,rfl,?_⟩
  · intro s hs
    obtain rfl : s = (0,0) := by simpa using hs
    exact ⟨0,⟨"a",.struct 0⟩,rfl,rfl⟩
  · rw [graph_holdsItself]
    decide

/-- The array has a fixed length, so that the struct holds itself twice. It is not reported. -/
theorem holdsTwo_not_reported : ¬ ∀ n, Reported loopLibrary holdsTwo n ↔ InfiniteSize holdsTwo n := by
  intro h
  have hinfinite : InfiniteSize holdsTwo 0 :=
    ⟨0,.refl,.single ⟨0,_,⟨⟨"a",.array (.struct 0) [.fixed 2]⟩,rfl,rfl⟩,by simp [held]⟩⟩
  obtain ⟨marks,ds,hrun,d,hd,-⟩ := (h 0).mpr hinfinite
  have hnone : findStructRecursion loopLibrary holdsTwo = some (⟨[],[(0,0)]⟩,[]) := by
    rw [findStructRecursion_eq,graph_holdsTwo]
    rfl
  cases hnone.symm.trans hrun
  cases hd

end StructRecursion
end OlaLang
