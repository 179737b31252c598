import OlaLang.Exec
import OlaLang.StringLiteral
import Mathlib.Algebra.Order.BigOperators.GroupWithZero.List

/-! Array literals: the check of their shape, the dimensions that are computed from it, and where the
elements of a literal stand among its leaves. -/
namespace OlaLang
namespace ArrayLiteral

open StringLiteral (Loc Diagnostic ResolveTo)
open Exec (except_bind_eq_ok except_mapM_eq_ok exists_of_mapM_mem)

/-! ### The semantic analysis -/

/-- An expression as the parser gives it: an array literal, or any other one. -/
inductive Expr (α : Type)
  | other (loc : Loc) (e : α)
  | arrayLiteral (loc : Loc) (exprs : List (Expr α))

variable {α β : Type}

def Expr.loc : Expr α → Loc
  | .other loc _ => loc
  | .arrayLiteral loc _ => loc

def identical (i len first : ℕ) : String :=
  "array elements should be identical, sub array " ++ toString (i+1) ++ " has " ++ toString len ++
    " elements rather than " ++ toString first

def shouldBeArray (i : ℕ) : String :=
  "array element " ++ toString (i+1) ++ " should also be an array"

def unexpectedArray (i : ℕ) : String :=
  "array elements should be of the type, element " ++ toString (i+1) ++ " is unexpected array"

/-- Behind an element that is no array there must be none either. -/
def checkLeaves : ℕ → List (Expr α) → Except Diagnostic Unit
  | _, [] => pure ()
  | i, .arrayLiteral loc _::_ => .error ⟨loc,unexpectedArray i⟩
  | i, .other _ _::rest => checkLeaves (i+1) rest

/-- The dimensions with one more, if they are asked for. The number of elements is a `u32`. -/
def pushDim (dims : Option (List ℕ)) (len : ℕ) : Option (List ℕ) := dims.map (· ++ [len % 2^32])

mutual
/-- `check_subarrays`: the first element decides what the others have to be, and only its dimensions
are asked for. -/
def checkSubarrays : List (Expr α) → Option (List ℕ) → List (Expr α) →
    Except Diagnostic (Option (List ℕ) × List (Expr α))
  | .arrayLiteral _ first::rest, dims, flatten => do
    let (dims,flatten) ← checkSubarrays first dims flatten
    let flatten ← checkArrays first.length 1 rest flatten
    pure (pushDim dims (rest.length+1),flatten)
  | .other loc e::rest, dims, flatten => do
    checkLeaves 1 rest
    pure (pushDim dims (rest.length+1),flatten ++ .other loc e::rest)
  | [], dims, flatten => pure (pushDim dims 0,flatten)

/-- The elements behind a first one that is an array. -/
def checkArrays (first : ℕ) : ℕ → List (Expr α) → List (Expr α) → Except Diagnostic (List (Expr α))
  | _, [], flatten => pure flatten
  | i, .arrayLiteral loc other::rest, flatten =>
    if other.length ≠ first then .error ⟨loc,identical i other.length first⟩
    else do
      let (_,flatten) ← checkSubarrays other none flatten
      checkArrays first (i+1) rest flatten
  | i, .other loc _::_, _ => .error ⟨loc,shouldBeArray i⟩
end

/-- The part of the expression resolver that array literals use: `expression`, the place and the type
of what it gives, and `cast`. A cast gives an expression of the type, or a reference to a struct or to
a fixed array. -/
structure Resolver (α β : Type) where
  expression : Expr α → ResolveTo → Except Diagnostic β
  loc : β → Loc
  ty : β → Ty
  cast : Loc → β → Ty → Except Diagnostic β
  cast_ty : ∀ {loc b b' elem}, cast loc b elem = .ok b' →
    ty b' = elem ∨ elem.isFixedReferenceType = true ∧ ty b' = .ref elem

/-- `Expression::ArrayLiteral`. -/
structure Literal (β : Type) where
  loc : Loc
  ty : Ty
  dimensions : List ℕ
  values : List β

/-- The type the elements are resolved to. -/
def elementTo : ResolveTo → ResolveTo
  | .type (.array elem _) => .type elem
  | resolveTo => resolveTo

def resolveFirst (r : Resolver α β) (e : Expr α) (resolveTo : ResolveTo) :
    Except Diagnostic (Ty × β) := do
  let first ← r.expression e resolveTo
  match resolveTo with
  | .type ty => do
    let first ← r.cast (r.loc first) first ty
    pure (ty,first)
  | _ => pure (r.ty first,first)

def resolveOther (r : Resolver α β) (ty : Ty) (e : Expr α) : Except Diagnostic β := do
  let other ← r.expression e (.type ty)
  r.cast e.loc other ty

/-- The type of the elements is the one asked for, or else the type of the first one. -/
def resolveElements (r : Resolver α β) (resolveTo : ResolveTo) :
    List (Expr α) → Except Diagnostic (Option (Ty × List β))
  | [] => pure none
  | e::flattened => do
    let (ty,first) ← resolveFirst r e resolveTo
    let others ← flattened.mapM (resolveOther r ty)
    pure (some (ty,first::others))

/-- `array_literal`. -/
def arrayLiteral (r : Resolver α β) (loc : Loc) (exprs : List (Expr α)) (resolveTo : ResolveTo) :
    Except Diagnostic (Literal β) := do
  let (dimensions,flattened) ← checkSubarrays exprs (some []) []
  match ← resolveElements r (elementTo resolveTo) flattened with
  | none => .error ⟨loc,"array requires at least one element"⟩
  | some (ty,values) =>
    let dimensions := dimensions.getD []
    pure ⟨loc,.array ty (dimensions.map .fixed),dimensions,values⟩

/-! ### Shapes -/

def Expr.isArray : Expr α → Bool
  | .other _ _ => false
  | .arrayLiteral _ _ => true

/-- The array literals with the given places and elements. -/
def arrays (xss : List (Loc × List (Expr α))) : List (Expr α) :=
  xss.map fun x => .arrayLiteral x.1 x.2

theorem arrays_cons (x : Loc × List (Expr α)) (xss : List (Loc × List (Expr α))) :
    arrays (x::xss) = .arrayLiteral x.1 x.2::arrays xss := rfl

@[simp] theorem length_arrays (xss : List (Loc × List (Expr α))) :
    (arrays xss).length = xss.length := by simp [arrays]

/-- In every literal the elements are no arrays, or arrays with the same number of elements. -/
inductive Uniform : List (Expr α) → Prop
  | flat {es : List (Expr α)} (h : ∀ e ∈ es, e.isArray = false) : Uniform es
  | nested {xss : List (Loc × List (Expr α))} {n : ℕ} (hlen : ∀ x ∈ xss, x.2.length = n)
      (h : ∀ x ∈ xss, Uniform x.2) : Uniform (arrays xss)

/-- The literals with the same number of elements at each depth, from the outermost on, and with all
leaves at the last one. -/
inductive HasShape : List ℕ → List (Expr α) → Prop
  | flat {es : List (Expr α)} (hne : es ≠ []) (h : ∀ e ∈ es, e.isArray = false) :
      HasShape [es.length] es
  | nested {xss : List (Loc × List (Expr α))} {shape : List ℕ} (hne : xss ≠ [])
      (h : ∀ x ∈ xss, HasShape shape x.2) : HasShape (xss.length::shape) (arrays xss)

def Rectangular (exprs : List (Expr α)) : Prop := ∃ shape, HasShape shape exprs

mutual
/-- The leaves in the order of the source. -/
def Expr.leaves : Expr α → List (Expr α)
  | .other loc e => [.other loc e]
  | .arrayLiteral _ exprs => ArrayLiteral.leaves exprs

def leaves : List (Expr α) → List (Expr α)
  | [] => []
  | e::rest => e.leaves ++ leaves rest
end

/-- The leaf at a list of indices, the outermost first. -/
def leafAt : List (Expr α) → List ℕ → Option (Expr α)
  | _, [] => none
  | exprs, i::is => match exprs[i]? with
    | none => none
    | some (.other loc e) => if is = [] then some (.other loc e) else none
    | some (.arrayLiteral _ exprs') => leafAt exprs' is

/-- How many leaves stand before it. -/
def leafIndex : List (Expr α) → List ℕ → Option ℕ
  | _, [] => none
  | exprs, i::is => match exprs[i]? with
    | none => none
    | some (.other _ _) => if is = [] then some (leaves (exprs.take i)).length else none
    | some (.arrayLiteral _ exprs') =>
      (leafIndex exprs' is).map ((leaves (exprs.take i)).length + ·)

mutual
/-- The dimensions along the first elements, from the innermost to the outermost. -/
def Expr.dims : Expr α → List ℕ
  | .other _ _ => []
  | .arrayLiteral _ exprs => firstDims exprs

def firstDims : List (Expr α) → List ℕ
  | [] => [0]
  | e::rest => e.dims ++ [(rest.length+1) % 2^32]
end

/-- The number of an element of an array of the shape, row by row. -/
def flatIndex : List ℕ → List ℕ → ℕ
  | _::shape, i::is => i * shape.prod + flatIndex shape is
  | _, _ => 0

theorem isArray_eq_false {e : Expr α} : e.isArray = false ↔ ∃ loc a, e = .other loc a := by
  cases e with
  | other loc a => exact ⟨fun _ => ⟨loc,a,rfl⟩,fun _ => rfl⟩
  | arrayLiteral loc exprs =>
    constructor
    · intro h
      cases h
    · rintro ⟨_,_,h⟩
      cases h

theorem leaves_of_flat {es : List (Expr α)} (h : ∀ e ∈ es, e.isArray = false) : leaves es = es := by
  induction es with
  | nil => rfl
  | cons e rest ih =>
    rw [List.forall_mem_cons] at h
    obtain ⟨loc,a,rfl⟩ := isArray_eq_false.mp h.1
    simp [leaves,Expr.leaves,ih h.2]

@[simp] theorem leaves_arrays_cons (x : Loc × List (Expr α)) (xss : List (Loc × List (Expr α))) :
    leaves (arrays (x::xss)) = leaves x.2 ++ leaves (arrays xss) := rfl

theorem leaves_append (es es' : List (Expr α)) : leaves (es ++ es') = leaves es ++ leaves es' := by
  induction es with
  | nil => rfl
  | cons e rest ih => simp [leaves,ih]

theorem length_leaves_arrays {xss : List (Loc × List (Expr α))} {n : ℕ}
    (h : ∀ x ∈ xss, (leaves x.2).length = n) : (leaves (arrays xss)).length = xss.length*n := by
  induction xss with
  | nil => simp [arrays,leaves]
  | cons x xss ih =>
    rw [List.forall_mem_cons] at h
    simp [h.1,ih h.2,Nat.add_mul,Nat.add_comm]

/-- The shape begins with the number of elements. -/
theorem HasShape.head {shape : List ℕ} {es : List (Expr α)} (h : HasShape shape es) :
    shape.head? = some es.length := by
  cases h with
  | flat _ _ => rfl
  | nested _ _ => simp [arrays]

theorem HasShape.length_leaves {shape : List ℕ} {es : List (Expr α)} (h : HasShape shape es) :
    (leaves es).length = shape.prod := by
  induction h with
  | flat hne h => simp [leaves_of_flat h]
  | nested hne h ih => exact (length_leaves_arrays ih).trans List.prod_cons.symm

theorem HasShape.pos {shape : List ℕ} {es : List (Expr α)} (h : HasShape shape es) :
    ∀ d ∈ shape, 0 < d := by
  induction h with
  | flat hne h => simpa [List.length_pos_iff] using hne
  | nested hne h ih =>
    obtain ⟨x,hx⟩ := List.exists_mem_of_ne_nil _ hne
    simp only [List.forall_mem_cons]
    exact ⟨List.length_pos_of_mem hx,ih x hx⟩

theorem HasShape.firstDims_eq {shape : List ℕ} {es : List (Expr α)} (h : HasShape shape es) :
    firstDims es = (shape.map (· % 2^32)).reverse := by
  induction h with
  | @flat es hne h =>
    cases es with
    | nil => exact absurd rfl hne
    | cons e rest =>
      rw [List.forall_mem_cons] at h
      obtain ⟨loc,a,rfl⟩ := isArray_eq_false.mp h.1
      rfl
  | @nested xss shape hne h ih =>
    cases xss with
    | nil => exact absurd rfl hne
    | cons x xss =>
      have hx := ih x List.mem_cons_self
      simp [arrays,firstDims,Expr.dims,hx]

theorem HasShape.uniform {shape : List ℕ} {es : List (Expr α)} (h : HasShape shape es) :
    Uniform es := by
  induction h with
  | flat hne h => exact .flat h
  | @nested xss shape hne h ih =>
    refine .nested (n := shape.head?.getD 0) (fun x hx => ?_) ih
    simp [(h x hx).head]

theorem HasShape.leaves_ne_nil {shape : List ℕ} {es : List (Expr α)} (h : HasShape shape es) :
    leaves es ≠ [] := by
  have hpos : 0 < shape.prod := List.prod_pos h.pos
  rw [← h.length_leaves] at hpos
  exact List.ne_nil_of_length_pos hpos

theorem arrays_getElem? (xss : List (Loc × List (Expr α))) (i : ℕ) :
    (arrays xss)[i]? = xss[i]?.map fun x => .arrayLiteral x.1 x.2 := by simp [arrays]

theorem leafIndex_other {es : List (Expr α)} {i : ℕ} {loc : Loc} {a : α}
    (h : es[i]? = some (.other loc a)) (is : List ℕ) :
    leafIndex es (i::is) = if is = [] then some (leaves (es.take i)).length else none := by
  simp only [leafIndex,h]

theorem leafIndex_array {es xs : List (Expr α)} {i : ℕ} {loc : Loc}
    (h : es[i]? = some (.arrayLiteral loc xs)) (is : List ℕ) :
    leafIndex es (i::is) = (leafIndex xs is).map ((leaves (es.take i)).length + ·) := by
  simp only [leafIndex,h]

theorem leafIndex_none {es : List (Expr α)} {i : ℕ} (h : es.length ≤ i) (is : List ℕ) :
    leafIndex es (i::is) = none := by
  simp [leafIndex,h]

/-- In a rectangular literal a leaf stands where its number says. -/
theorem HasShape.leafIndex_iff {shape : List ℕ} {es : List (Expr α)} (h : HasShape shape es)
    {is : List ℕ} {j : ℕ} :
    leafIndex es is = some j ↔ List.Forall₂ (· < ·) is shape ∧ j = flatIndex shape is := by
  have hnil : ∀ (d : ℕ) (ds : List ℕ), ¬ List.Forall₂ (· < ·) [] (d::ds) := by
    intro d ds h
    cases h
  induction h generalizing is j with
  | @flat es hne h =>
    cases is with
    | nil => simp [leafIndex,hnil]
    | cons i is =>
      by_cases hlt : i < es.length
      · obtain ⟨loc,a,ha⟩ := isArray_eq_false.mp (h _ (List.getElem_mem hlt))
        have htake : ∀ e ∈ es.take i, e.isArray = false := fun e he => h e (List.mem_of_mem_take he)
        rw [leafIndex_other (List.getElem?_eq_some_iff.mpr ⟨hlt,ha⟩),leaves_of_flat htake]
        cases is with
        | nil => simp [flatIndex,hlt,hlt.le,eq_comm]
        | cons k is =>
          have hcons : ¬ List.Forall₂ (· < ·) (k::is) [] := by
            intro h
            cases h
          simp [hcons]
      · simp [leafIndex_none (not_lt.mp hlt),hlt]
  | @nested xss shape hne h ih =>
    cases is with
    | nil => simp [leafIndex,hnil]
    | cons i is =>
      by_cases hlt : i < xss.length
      · have hx : xss[i] ∈ xss := List.getElem_mem hlt
        have htake : (leaves ((arrays xss).take i)).length = i*shape.prod := by
          have htakes : ∀ y ∈ xss.take i, (leaves y.2).length = shape.prod :=
            fun y hy => (h y (List.mem_of_mem_take hy)).length_leaves
          rw [arrays,← List.map_take]
          exact (length_leaves_arrays htakes).trans (by rw [List.length_take,min_eq_left hlt.le])
        have hi : (arrays xss)[i]? = some (.arrayLiteral xss[i].1 xss[i].2) := by
          rw [arrays_getElem?,List.getElem?_eq_getElem hlt,Option.map_some]
        rw [leafIndex_array hi,htake]
        simp only [Option.map_eq_some_iff,ih _ hx,List.forall₂_cons,flatIndex,hlt,true_and]
        constructor
        · rintro ⟨k,⟨his,rfl⟩,rfl⟩
          exact ⟨his,rfl⟩
        · rintro ⟨his,rfl⟩
          exact ⟨_,⟨his,rfl⟩,rfl⟩
      · simp [leafIndex_none (by simpa using hlt : (arrays xss).length ≤ i),hlt]

/-- The leaf at a list of indices is the one with its number. -/
theorem leaves_leafIndex {es : List (Expr α)} {is : List ℕ} {j : ℕ} (h : leafIndex es is = some j) :
    ∃ e, leafAt es is = some e ∧ (leaves es)[j]? = some e := by
  induction is generalizing es j with
  | nil => simp [leafIndex] at h
  | cons i is ih =>
    cases hi : es[i]? with
    | none => simp [leafIndex_none (List.getElem?_eq_none_iff.mp hi)] at h
    | some e =>
      obtain ⟨hlt,he⟩ := List.getElem?_eq_some_iff.mp hi
      have hsplit : leaves es = leaves (es.take i) ++ (e.leaves ++ leaves (es.drop (i+1))) := by
        rw [← leaves,← he,List.getElem_cons_drop,← leaves_append,List.take_append_drop]
      cases e with
      | other loc a =>
        rw [leafIndex_other hi] at h
        split_ifs at h with his
        obtain rfl := Option.some.inj h
        exact ⟨.other loc a,by simp only [leafAt,hi,his,if_true],by simp [hsplit,Expr.leaves]⟩
      | arrayLiteral loc xs =>
        rw [leafIndex_array hi,Option.map_eq_some_iff] at h
        obtain ⟨k,hk,rfl⟩ := h
        obtain ⟨e,hat,hget⟩ := ih hk
        refine ⟨e,by simp only [leafAt,hi,hat],?_⟩
        have hlt' := (List.getElem?_eq_some_iff.mp hget).1
        rw [hsplit,List.getElem?_append_right (by omega),Nat.add_sub_cancel_left,
          Expr.leaves,List.getElem?_append_left hlt']
        exact hget

/-! ### The check -/

theorem checkLeaves_of_flat {es : List (Expr α)} (h : ∀ e ∈ es, e.isArray = false) (i : ℕ) :
    checkLeaves i es = .ok () := by
  induction es generalizing i with
  | nil => rfl
  | cons e rest ih =>
    rw [List.forall_mem_cons] at h
    obtain ⟨loc,a,rfl⟩ := isArray_eq_false.mp h.1
    exact ih h.2 (i+1)

theorem flat_of_checkLeaves {es : List (Expr α)} {i : ℕ} (h : checkLeaves i es = .ok ()) :
    ∀ e ∈ es, e.isArray = false := by
  induction es generalizing i with
  | nil => simp
  | cons e rest ih =>
    cases e with
    | arrayLiteral loc xs => simp [checkLeaves] at h
    | other loc a => exact List.forall_mem_cons.mpr ⟨rfl,ih h⟩

theorem checkArrays_of_uniform {xss : List (Loc × List (Expr α))} {n : ℕ}
    (hlen : ∀ x ∈ xss, x.2.length = n) (h : ∀ x ∈ xss, ∀ dims flatten,
      checkSubarrays x.2 dims flatten = .ok (dims.map (· ++ firstDims x.2),flatten ++ leaves x.2))
    (i : ℕ) (flatten : List (Expr α)) :
    checkArrays n i (arrays xss) flatten = .ok (flatten ++ leaves (arrays xss)) := by
  induction xss generalizing i flatten with
  | nil => simp [arrays,leaves,checkArrays,pure,Except.pure]
  | cons x xss ih =>
    rw [List.forall_mem_cons] at hlen h
    have hrest := ih hlen.2 h.2 (i+1) (flatten ++ leaves x.2)
    rw [arrays_cons]
    simp [checkArrays,leaves,Expr.leaves,hlen.1,h.1,hrest,bind,Except.bind]

/-- A uniform literal passes, with the dimensions along its first elements. -/
theorem checkSubarrays_of_uniform {es : List (Expr α)} (h : Uniform es) (dims : Option (List ℕ))
    (flatten : List (Expr α)) :
    checkSubarrays es dims flatten = .ok (dims.map (· ++ firstDims es),flatten ++ leaves es) := by
  induction h generalizing dims flatten with
  | @flat es h =>
    rw [leaves_of_flat h]
    cases es with
    | nil => simp [checkSubarrays,firstDims,pushDim,pure,Except.pure]
    | cons e rest =>
      rw [List.forall_mem_cons] at h
      obtain ⟨loc,a,rfl⟩ := isArray_eq_false.mp h.1
      simp [checkSubarrays,checkLeaves_of_flat h.2,firstDims,Expr.dims,pushDim,bind,Except.bind,
        pure,Except.pure]
  | @nested xss n hlen h ih =>
    cases xss with
    | nil => simp [arrays,checkSubarrays,leaves,firstDims,pushDim,pure,Except.pure]
    | cons x xss =>
      rw [List.forall_mem_cons] at hlen ih
      have hrest := checkArrays_of_uniform (fun y hy => (hlen.2 y hy).trans hlen.1.symm) ih.2 1
        (flatten ++ leaves x.2)
      rw [arrays_cons]
      cases dims <;> simp [checkSubarrays,ih.1,hrest,bind,Except.bind,pure,Except.pure,pushDim,
        leaves,Expr.leaves,firstDims,Expr.dims]

/-- Nothing else passes. -/
theorem uniform_of_checkSubarrays (es : List (Expr α)) (dims : Option (List ℕ))
    (flatten : List (Expr α)) : ∀ p, checkSubarrays es dims flatten = .ok p → Uniform es := by
  refine checkSubarrays.induct (fun es dims flatten =>
      ∀ p, checkSubarrays es dims flatten = .ok p → Uniform es)
    (fun first i es flatten => ∀ p, checkArrays first i es flatten = .ok p →
      ∃ xss, es = arrays xss ∧ (∀ x ∈ xss, x.2.length = first) ∧ ∀ x ∈ xss, Uniform x.2)
    ?_ ?_ ?_ ?_ ?_ ?_ ?_ es dims flatten
  · intro loc first rest dims flatten ihfirst ihrest p h
    rw [checkSubarrays] at h
    obtain ⟨⟨dims',flatten'⟩,hfirst,h⟩ := except_bind_eq_ok.mp h
    obtain ⟨flatten'',hrest,-⟩ := except_bind_eq_ok.mp h
    obtain ⟨xss,rfl,hlen,huniform⟩ := ihrest flatten' flatten'' hrest
    rw [← arrays_cons (loc,first)]
    exact .nested (List.forall_mem_cons.mpr ⟨rfl,hlen⟩)
      (List.forall_mem_cons.mpr ⟨ihfirst _ hfirst,huniform⟩)
  · intro loc e rest dims flatten p h
    rw [checkSubarrays] at h
    obtain ⟨_,hrest,-⟩ := except_bind_eq_ok.mp h
    exact .flat (List.forall_mem_cons.mpr ⟨rfl,flat_of_checkLeaves hrest⟩)
  · intro dims flatten p _
    exact .flat (by simp)
  · intro first i flatten p _
    exact ⟨[],rfl,by simp,by simp⟩
  · intro first i loc other rest flatten hne p h
    rw [checkArrays,if_pos hne] at h
    cases h
  · intro first i loc other rest flatten hlen ihother ihrest p h
    rw [checkArrays,if_neg hlen] at h
    obtain ⟨⟨dims',flatten'⟩,hother,h⟩ := except_bind_eq_ok.mp h
    obtain ⟨xss,rfl,hlens,huniform⟩ := ihrest flatten' p h
    exact ⟨(loc,other)::xss,rfl,List.forall_mem_cons.mpr ⟨not_not.mp hlen,hlens⟩,
      List.forall_mem_cons.mpr ⟨ihother _ hother,huniform⟩⟩
  · intro first i loc e rest flatten p h
    rw [checkArrays] at h
    cases h

theorem checkSubarrays_eq_ok {es : List (Expr α)} {dims : Option (List ℕ)} {flatten : List (Expr α)}
    {p : Option (List ℕ) × List (Expr α)} : checkSubarrays es dims flatten = .ok p ↔
      Uniform es ∧ p = (dims.map (· ++ firstDims es),flatten ++ leaves es) := by
  constructor
  · intro h
    have huniform := uniform_of_checkSubarrays es dims flatten p h
    rw [checkSubarrays_of_uniform huniform] at h
    exact ⟨huniform,(Except.ok.inj h).symm⟩
  · rintro ⟨huniform,rfl⟩
    exact checkSubarrays_of_uniform huniform dims flatten

/-- The shape of a literal is accepted when it is uniform and has a leaf. -/
theorem arrayLiteral_eq_ok {r : Resolver α β} {loc : Loc} {exprs : List (Expr α)}
    {resolveTo : ResolveTo} {lit : Literal β} : arrayLiteral r loc exprs resolveTo = .ok lit ↔
      Uniform exprs ∧ ∃ elem values,
        resolveElements r (elementTo resolveTo) (leaves exprs) = .ok (some (elem,values)) ∧
        lit = ⟨loc,.array elem ((firstDims exprs).map .fixed),firstDims exprs,values⟩ := by
  rw [arrayLiteral,except_bind_eq_ok]
  constructor
  · rintro ⟨p,hp,h⟩
    obtain ⟨huniform,rfl⟩ := checkSubarrays_eq_ok.mp hp
    obtain ⟨e,he,h⟩ := except_bind_eq_ok.mp h
    cases e with
    | none => cases h
    | some e => exact ⟨huniform,e.1,e.2,by simpa using he,(Except.ok.inj h).symm⟩
  · rintro ⟨huniform,elem,values,he,rfl⟩
    refine ⟨_,checkSubarrays_eq_ok.mpr ⟨huniform,rfl⟩,except_bind_eq_ok.mpr ⟨_,he,?_⟩⟩
    simp [pure,Except.pure]

/-- The elements have the type of the array, or are references to values of it. -/
structure Resolved (r : Resolver α β) (n : ℕ) (elem : Ty) (values : List β) : Prop where
  length : values.length = n
  ty : ∀ b ∈ values, r.ty b = elem ∨ elem.isFixedReferenceType = true ∧ r.ty b = .ref elem

theorem resolveElements_resolved {r : Resolver α β} {resolveTo : ResolveTo} {es : List (Expr α)}
    {elem : Ty} {values : List β} (h : resolveElements r resolveTo es = .ok (some (elem,values))) :
    Resolved r es.length elem values := by
  cases es with
  | nil => cases h
  | cons e es =>
    obtain ⟨⟨ty,first⟩,hfirst,h⟩ := except_bind_eq_ok.mp h
    obtain ⟨others,hothers,h⟩ := except_bind_eq_ok.mp h
    cases h
    have hlength := (except_mapM_eq_ok.mp hothers).length_eq
    refine ⟨by simp [hlength],List.forall_mem_cons.mpr ⟨?_,fun b hb => ?_⟩⟩
    · obtain ⟨b,hb,h⟩ := except_bind_eq_ok.mp hfirst
      cases resolveTo with
      | type ty =>
        obtain ⟨b',hb',h⟩ := except_bind_eq_ok.mp h
        cases h
        exact r.cast_ty hb'
      | unknown | discard =>
        cases h
        exact .inl rfl
    · obtain ⟨x,-,hx⟩ := (exists_of_mapM_mem hothers).2 b hb
      obtain ⟨b',-,hb'⟩ := except_bind_eq_ok.mp hx
      exact r.cast_ty hb'

end ArrayLiteral
end OlaLang
