import Mathlib.Data.Finset.Card
import Mathlib.Data.Finset.Dedup
import OlaLang.Types

/-! Struct definitions whose members refer to structs by number, and the edges between them. -/
namespace OlaLang
namespace StructTypes

instance pairs_lawful : LawfulBEq (ℕ × ℕ) := inferInstance

/-- The types a user type can be defined as. A definition that is refused leaves `unresolved`. -/
inductive Elementary
  | bool | uint (bits : ℕ) | field | address | hash | unresolved

/-- The types a member can have. A user type carries its definition. -/
inductive FieldTy
  | bool | uint (bits : ℕ) | field | address | contract | hash | string | dynamicBytes | enum
  | unresolved
  | userType (ty : Elementary)
  | struct (no : ℕ)
  | array (ty : FieldTy) (dims : List ArrayLength)
  | mapping (key value : FieldTy)
  | ref (ty : FieldTy)
  | slice (ty : FieldTy)
  | storageRef (ty : FieldTy)

namespace FieldTy

/-- The structs a type encapsulates. -/
def userStructNo : FieldTy → List ℕ
  | .struct n => [n]
  | .mapping key value => key.userStructNo ++ value.userStructNo
  | .array ty _ | .ref ty | .slice ty | .storageRef ty => ty.userStructNo
  | _ => []

def isStruct : FieldTy → Bool
  | .struct _ => true
  | _ => false

end FieldTy

structure Parameter where
  name : String
  ty : FieldTy

structure StructDecl where
  name : String
  fields : List Parameter

/-- The structs of a namespace. Their members refer to structs of the same namespace. -/
structure Namespace where
  structs : List StructDecl
  closed : ∀ decl ∈ structs, ∀ field ∈ decl.fields, ∀ n ∈ field.ty.userStructNo, n < structs.length

namespace Namespace

variable (ns : Namespace)

def fields (no : ℕ) : List Parameter := match ns.structs[no]? with
  | some decl => decl.fields
  | none => []

/-- Member `f` of struct `a` has the type. -/
def HasField (a f : ℕ) (ty : FieldTy) : Prop := ∃ field, (ns.fields a)[f]? = some field ∧ field.ty = ty

theorem fields_of_le {a : ℕ} (h : ns.structs.length ≤ a) : ns.fields a = [] := by
  rw [fields,List.getElem?_eq_none h]

variable {ns}

theorem HasField.lt {a f : ℕ} {ty : FieldTy} (h : ns.HasField a f ty) : a < ns.structs.length := by
  obtain ⟨field,hf,-⟩ := h
  by_contra ha
  rw [ns.fields_of_le (not_lt.mp ha)] at hf
  simp at hf

theorem HasField.field_lt {a f : ℕ} {ty : FieldTy} (h : ns.HasField a f ty) :
    f < (ns.fields a).length := by
  obtain ⟨field,hf,-⟩ := h
  exact (List.getElem?_eq_some_iff.mp hf).1

theorem HasField.unique {a f : ℕ} {ty ty' : FieldTy} (h : ns.HasField a f ty)
    (h' : ns.HasField a f ty') : ty = ty' := by
  obtain ⟨field,hf,rfl⟩ := h
  obtain ⟨field',hf',rfl⟩ := h'
  rw [Option.some.inj (hf.symm.trans hf')]

theorem HasField.closed {a f n : ℕ} {ty : FieldTy} (h : ns.HasField a f ty)
    (hn : n ∈ ty.userStructNo) : n < ns.structs.length := by
  obtain ⟨field,hf,rfl⟩ := h
  rw [fields] at hf
  split at hf
  · rename_i decl hdecl
    exact ns.closed decl (List.mem_of_getElem? hdecl) field (List.mem_of_getElem? hf) n hn
  · simp at hf

end Namespace

/-! ### Edges -/

/-- An edge leads from a struct to one that a member of it, given by its number, encapsulates. -/
abbrev Edge := ℕ × ℕ × ℕ

/-- The edges that start at a struct, in the order of its members. -/
def edgesFrom (ns : Namespace) (no : ℕ) : List Edge :=
  (ns.fields no).zipIdx.flatMap fun (field,fieldNo) =>
    field.ty.userStructNo.map fun reaching => (no,reaching,fieldNo)

/-- `collect_struct_edges` goes on from each struct that an edge reaches for the first time. -/
def collectStructEdges (ns : Namespace) : ℕ → ℕ → List Edge → Option (List Edge)
  | 0, _, _ => none
  | fuel+1, no, edges => (edgesFrom ns no).foldlM (fun edges edge =>
      if edge ∈ edges then some edges
      else collectStructEdges ns fuel edge.2.1 (edge::edges)) edges

/-- The edges of all structs. -/
def allEdges (ns : Namespace) : List Edge := (List.range ns.structs.length).flatMap (edgesFrom ns)

/-- The edges `find_struct_recursion` collects. -/
def structEdges (ns : Namespace) : Option (List Edge) :=
  (List.range ns.structs.length).foldlM (fun edges n =>
    collectStructEdges ns ((allEdges ns).length+1) n edges) []

variable {ns : Namespace}

theorem mem_edgesFrom {no : ℕ} {e : Edge} : e ∈ edgesFrom ns no ↔
    e.1 = no ∧ ∃ ty, ns.HasField no e.2.2 ty ∧ e.2.1 ∈ ty.userStructNo := by
  obtain ⟨a,b,f⟩ := e
  simp only [edgesFrom,List.mem_flatMap,List.mem_map,Prod.exists,List.mem_zipIdx_iff_getElem?,
    Prod.mk.injEq]
  constructor
  · rintro ⟨field,i,hi,b',hb,rfl,rfl,rfl⟩
    exact ⟨rfl,field.ty,⟨field,hi,rfl⟩,hb⟩
  · rintro ⟨rfl,ty,⟨field,hi,rfl⟩,hb⟩
    exact ⟨field,f,hi,b,hb,rfl,rfl,rfl⟩

theorem mem_allEdges {e : Edge} : e ∈ allEdges ns ↔
    ∃ ty, ns.HasField e.1 e.2.2 ty ∧ e.2.1 ∈ ty.userStructNo := by
  simp only [allEdges,List.mem_flatMap,List.mem_range,mem_edgesFrom]
  constructor
  · rintro ⟨n,-,rfl,h⟩
    exact h
  · rintro ⟨ty,h,hb⟩
    exact ⟨e.1,h.lt,rfl,ty,h,hb⟩

/-- How many edges are not collected yet. -/
def missing (ns : Namespace) (edges : List Edge) : ℕ :=
  ((allEdges ns).toFinset \ edges.toFinset).card

theorem missing_mono {edges edges' : List Edge} (h : edges ⊆ edges') :
    missing ns edges' ≤ missing ns edges := by
  apply Finset.card_le_card
  intro e he
  simp only [Finset.mem_sdiff,List.mem_toFinset] at he ⊢
  exact ⟨he.1,fun hmem => he.2 (h hmem)⟩

theorem missing_cons {e : Edge} {edges : List Edge} (he : e ∈ allEdges ns) (hnew : e ∉ edges) :
    missing ns (e::edges) < missing ns edges := by
  apply Finset.card_lt_card
  rw [Finset.ssubset_iff_of_subset]
  · exact ⟨e,by simp [he,hnew],by simp⟩
  · intro e' he'
    simp only [Finset.mem_sdiff,List.mem_toFinset,List.mem_cons,not_or] at he' ⊢
    exact ⟨he'.1,he'.2.2⟩

theorem missing_le (edges : List Edge) : missing ns edges ≤ (allEdges ns).length :=
  (Finset.card_le_card Finset.sdiff_subset).trans (List.toFinset_card_le _)

/-- The edges are collected with all edges of the struct among them. -/
structure Collects (ns : Namespace) (edges added edges' : List Edge) : Prop where
  keeps : edges ⊆ edges'
  adds : added ⊆ edges'
  sound : edges' ⊆ allEdges ns

theorem collectStructEdges_spec {fuel no : ℕ} {edges : List Edge} (hfuel : missing ns edges < fuel)
    (hedges : edges ⊆ allEdges ns) :
    ∃ edges', collectStructEdges ns fuel no edges = some edges' ∧
      Collects ns edges (edgesFrom ns no) edges' := by
  induction fuel generalizing no edges with
  | zero => omega
  | succ fuel ih =>
    have hfold : ∀ es acc, es ⊆ allEdges ns → missing ns acc < fuel+1 → acc ⊆ allEdges ns →
        ∃ edges', es.foldlM (fun edges edge =>
          if edge ∈ edges then some edges
          else collectStructEdges ns fuel edge.2.1 (edge::edges)) acc = some edges' ∧
          Collects ns acc es edges' := by
      intro es
      induction es with
      | nil => exact fun acc _ _ hacc => ⟨acc,rfl,List.Subset.refl _,by simp,hacc⟩
      | cons e es ihs =>
        intro acc hes hlt hacc
        rw [List.cons_subset] at hes
        by_cases he : e ∈ acc
        · obtain ⟨edges',hrun,h⟩ := ihs acc hes.2 hlt hacc
          refine ⟨edges',?_,h.keeps,List.cons_subset.mpr ⟨h.keeps he,h.adds⟩,h.sound⟩
          simpa [List.foldlM_cons,he] using hrun
        · have hmissing := missing_cons hes.1 he
          obtain ⟨acc',hstep,hacc'⟩ : ∃ acc', collectStructEdges ns fuel e.2.1 (e::acc) = some acc' ∧
              Collects ns (e::acc) (edgesFrom ns e.2.1) acc' :=
            ih (by omega) (List.cons_subset.mpr ⟨hes.1,hacc⟩)
          have hkeeps := List.cons_subset.mp hacc'.keeps
          have hle : missing ns acc' ≤ missing ns acc := missing_mono hkeeps.2
          obtain ⟨edges',hrun,h⟩ := ihs acc' hes.2 (by omega) hacc'.sound
          refine ⟨edges',?_,fun x hx => h.keeps (hkeeps.2 hx),
            List.cons_subset.mpr ⟨h.keeps hkeeps.1,h.adds⟩,h.sound⟩
          simpa [List.foldlM_cons,he,hstep] using hrun
    refine hfold _ _ (fun e he => ?_) hfuel hedges
    obtain ⟨rfl,h⟩ := mem_edgesFrom.mp he
    exact mem_allEdges.mpr h

/-- The collection ends, with the edges of all structs. -/
theorem structEdges_spec (ns : Namespace) :
    ∃ edges, structEdges ns = some edges ∧ ∀ e, e ∈ edges ↔ e ∈ allEdges ns := by
  have hfold : ∀ (nos : List ℕ) acc, acc ⊆ allEdges ns → ∃ edges, nos.foldlM (fun edges n =>
      collectStructEdges ns ((allEdges ns).length+1) n edges) acc = some edges ∧
      Collects ns acc (nos.flatMap (edgesFrom ns)) edges := by
    intro nos
    induction nos with
    | nil => exact fun acc hacc => ⟨acc,rfl,List.Subset.refl _,by simp,hacc⟩
    | cons no nos ih =>
      intro acc hacc
      have hmissing : missing ns acc < (allEdges ns).length+1 := Nat.lt_succ_of_le (missing_le acc)
      obtain ⟨acc',hstep,hacc'⟩ : ∃ acc', collectStructEdges ns ((allEdges ns).length+1) no acc =
          some acc' ∧ Collects ns acc (edgesFrom ns no) acc' := collectStructEdges_spec hmissing hacc
      obtain ⟨edges,hrun,h⟩ := ih acc' hacc'.sound
      refine ⟨edges,?_,fun x hx => h.keeps (hacc'.keeps hx),?_,h.sound⟩
      · simpa [List.foldlM_cons,hstep] using hrun
      · rw [List.flatMap_cons,List.append_subset]
        exact ⟨fun x hx => h.keeps (hacc'.adds hx),h.adds⟩
  obtain ⟨edges,hrun,h⟩ := hfold (List.range ns.structs.length) [] (by simp)
  exact ⟨edges,hrun,fun e => ⟨fun he => h.sound he,fun he => h.adds he⟩⟩

end StructTypes
end OlaLang
