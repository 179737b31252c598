import OlaLang.Encoding
import OlaLang.StorageCell

/-! Values and their representation in memory: what an operand of a type stands for, and which cells
it rests on. -/
namespace OlaLang
namespace Encoding

open Builder

/-- A cell, a sequence whose length is that of its type, or a sequence with a length of its own. -/
inductive Val
  | cell (x : Felt)
  | tuple (items : List Val)
  | vector (items : List Val)

mutual

/-- The ABI encoding of a value. -/
def Val.cells : Val → List Felt
  | .cell x => [x]
  | .tuple items => cellsOf items
  | .vector items => (items.length : Felt)::cellsOf items

def cellsOf : List Val → List Felt
  | [] => []
  | x::xs => x.cells ++ cellsOf xs

end

/-- The items of a sequence. -/
def Val.items : Val → List Val
  | .cell _ => []
  | .tuple items | .vector items => items

/-- A sequence of cells. -/
def flat (l : List Felt) : List Val := l.map .cell

@[simp] theorem cellsOf_flat (l : List Felt) : cellsOf (flat l) = l := by
  induction l with
  | nil => rfl
  | cons x l ih =>
    show [x] ++ cellsOf (flat l) = x::l
    rw [ih]
    rfl

@[simp] theorem length_flat (l : List Felt) : (flat l).length = l.length := List.length_map _

@[simp] theorem cells_cell (x : Felt) : (Val.cell x).cells = [x] := by rw [Val.cells]
@[simp] theorem cells_tuple (items : List Val) : (Val.tuple items).cells = cellsOf items := by
  rw [Val.cells]
@[simp] theorem cells_vector (items : List Val) :
    (Val.vector items).cells = (items.length : Felt)::cellsOf items := by rw [Val.cells]
@[simp] theorem cellsOf_nil : cellsOf [] = [] := by rw [cellsOf]
@[simp] theorem cellsOf_cons (x : Val) (xs : List Val) :
    cellsOf (x::xs) = x.cells ++ cellsOf xs := by rw [cellsOf]

theorem cellsOf_append (xs ys : List Val) : cellsOf (xs ++ ys) = cellsOf xs ++ cellsOf ys := by
  induction xs with
  | nil => simp
  | cons x xs ih => simp [ih]

/-- The cells of a sequence whose items all have `k` of them. -/
theorem length_cellsOf {items : List Val} {k : ℕ} (h : ∀ x ∈ items, x.cells.length = k) :
    (cellsOf items).length = items.length * k := by
  induction items with
  | nil => simp
  | cons x xs ih =>
    rw [cellsOf_cons,List.length_append,h x (by simp),ih fun y hy => h y (by simp [hy]),
      List.length_cons]
    ring

/-! ### Types of values -/

/-- The values of an array, outermost dimension first. Lengths are u32 values. -/
def ArrayType (elem : Val → Prop) : List ArrayLength → Val → Prop
  | [], x => elem x
  | .fixed d::rest, x => ∃ items, x = .tuple items ∧ items.length = d ∧
      ∀ y ∈ items, ArrayType elem rest y
  | .dynamic::rest, x => ∃ items, x = .vector items ∧ items.length < 2^32 ∧
      ∀ y ∈ items, ArrayType elem rest y

mutual

def HasType : Ty → Val → Prop
  | .uint32, x | .bool, x | .enum, x | .field, x => ∃ c, x = .cell c
  | .address, x | .contract, x | .hash, x => ∃ w : Word, x = .tuple (flat w.toList)
  | .string, x | .dynamicBytes, x => ∃ l, x = .vector (flat l) ∧ l.length < 2^32
  | .array elemTy dims, x => ArrayType (HasType elemTy) dims.reverse x
  | .struct fields, x => ∃ items, x = .tuple items ∧ HasTypes fields items
  | .void, _ | .mapping _ _, _ | .ref _, _ | .storageRef _, _ => False

def HasTypes : List Ty → List Val → Prop
  | [], [] => True
  | ty::tys, x::xs => HasType ty x ∧ HasTypes tys xs
  | _, _ => False

end

/-! ### Representation -/

variable (P : Pointer → Prop) (s : State)

/-- The cells from `p` on, all in `P`, hold `l`. -/
def Holds : Pointer → List Felt → Prop
  | _, [] => True
  | p, x::l => P p ∧ s.cell p = x ∧ Holds (p.add 1) l

/-- What a load at the type of a variable gives. -/
def loaded (ty : Ty) (p : Pointer) : Value :=
  if ty.llvmVarIsPtr then .ptr (s.mem p).pointer else .int (s.cell p)

/-- The items of a sequence lie one behind the other. -/
def RepItems (rep : Pointer → Val → Prop) (stride : ℕ) : Pointer → List Val → Prop
  | _, [] => True
  | q, x::xs => rep q x ∧ RepItems rep stride (q.add stride) xs

/-- An element of a fixed dimension: rows of fixed length and structs are laid out in place, the
others behind a pointer. -/
def RepPlace (rep : Value → Val → Prop) (elemTy : Ty) (rest : List ArrayLength) (q : Pointer)
    (x : Val) : Prop := match rest with
  | .fixed _::_ => rep (.ptr q) x
  | .dynamic::_ => P q ∧ rep (.ptr (s.mem q).pointer) x
  | [] => match elemTy with
    | .struct _ => rep (.ptr q) x
    | elemTy => P q ∧ rep (loaded s elemTy q) x

/-- An element of a dynamic dimension takes one cell. -/
def loadedRow (elemTy : Ty) (rest : List ArrayLength) (q : Pointer) : Value :=
  loaded s (if rest = [] then elemTy else .array elemTy rest.reverse) q

def RepArray (rep : Value → Val → Prop) (elemTy : Ty) : List ArrayLength → Value → Val → Prop
  | [], v, x => rep v x
  | .fixed d::rest, v, x => ∃ p items, v = .ptr p ∧ x = .tuple items ∧ items.length = d ∧
      RepItems (RepPlace P s (RepArray rep elemTy rest) elemTy rest)
        (Ty.llvmStride elemTy rest.reverse) p items
  | .dynamic::rest, v, x => ∃ p items, v = .ptr p ∧ x = .vector items ∧ items.length < 2^32 ∧
      P p ∧ s.cell p = items.length ∧
      RepItems (fun q x => P q ∧ RepArray rep elemTy rest (loadedRow s elemTy rest q) x) 1
        (p.add 1) items

mutual

/-- The operand stands for the value, which rests on cells in `P`. -/
def Rep : Ty → Value → Val → Prop
  | .uint32, v, x | .bool, v, x | .enum, v, x | .field, v, x => v.isPointer = false ∧ x = .cell v.felt
  | .address, v, x | .contract, v, x | .hash, v, x => ∃ p, ∃ w : Word, v = .ptr p ∧
      x = .tuple (flat w.toList) ∧ Holds P s p x.cells
  | .string, v, x | .dynamicBytes, v, x => ∃ p l, v = .ptr p ∧ x = .vector (flat l) ∧
      l.length < 2^32 ∧ Holds P s p x.cells
  | .array elemTy dims, v, x => RepArray P s (Rep elemTy) elemTy dims.reverse v x
  | .struct fields, v, x => ∃ p items, v = .ptr p ∧ x = .tuple items ∧ RepFields fields p 0 items
  | .void, _, _ | .mapping _ _, _, _ | .ref _, _, _ | .storageRef _, _, _ => False

/-- The members from `offset` on, each at its place in the struct type. -/
def RepFields : List Ty → Pointer → ℕ → List Val → Prop
  | [], _, _, [] => True
  | ty::tys, p, offset, x::xs => P (p.add offset) ∧ Rep ty (loaded s ty (p.add offset)) x ∧
      RepFields tys p (offset + ty.llvmFieldSize) xs
  | _, _, _, _ => False

end

def RepAll : List Ty → List Value → List Val → Prop
  | [], [], [] => True
  | ty::tys, v::vs, x::xs => Rep P s ty v x ∧ RepAll tys vs xs
  | _, _, _ => False

variable {P s} {Q : Pointer → Prop} {t : State} {p q : Pointer} {l : List Felt}

/-! ### Frames -/

/-- What holds on cells that did not change still holds. -/
structure Agree (P Q : Pointer → Prop) (s t : State) : Prop where
  sub : ∀ q, P q → Q q
  mem : ∀ q, P q → t.mem q = s.mem q

theorem Agree.cell (h : Agree P Q s t) (hp : P p) : t.cell p = s.cell p := by
  rw [State.cell,h.mem p hp,State.cell]

theorem Agree.loaded (h : Agree P Q s t) (hp : P p) (ty : Ty) : loaded t ty p = loaded s ty p := by
  simp only [Encoding.loaded,h.mem p hp,h.cell hp]

theorem Holds.mono (h : Agree P Q s t) (hl : Holds P s p l) : Holds Q t p l := by
  induction l generalizing p with
  | nil => trivial
  | cons x l ih => exact ⟨h.sub p hl.1,(h.cell hl.1).trans hl.2.1,ih hl.2.2⟩

theorem RepItems.mono {rep rep' : Pointer → Val → Prop} {stride : ℕ} {items : List Val}
    (h : ∀ q, ∀ x ∈ items, rep q x → rep' q x) (hi : RepItems rep stride q items) :
    RepItems rep' stride q items := by
  induction items generalizing q with
  | nil => trivial
  | cons x xs ih =>
    exact ⟨h q x (by simp) hi.1,ih (fun q y hy => h q y (by simp [hy])) hi.2⟩

theorem RepPlace.mono {rep rep' : Value → Val → Prop} {elemTy : Ty} {rest : List ArrayLength}
    {x : Val} (h : Agree P Q s t) (hrep : ∀ v, rep v x → rep' v x)
    (hq : RepPlace P s rep elemTy rest q x) : RepPlace Q t rep' elemTy rest q x := by
  cases rest with
  | nil =>
    cases elemTy with
    | struct fields => exact hrep _ hq
    | _ => exact ⟨h.sub q hq.1,hrep _ (by rw [h.loaded hq.1]; exact hq.2)⟩
  | cons dim rest =>
    cases dim with
    | fixed d => exact hrep _ hq
    | dynamic => exact ⟨h.sub q hq.1,hrep _ (by rw [h.mem q hq.1]; exact hq.2)⟩

theorem RepArray.mono {rep rep' : Value → Val → Prop} {elemTy : Ty} {dims : List ArrayLength}
    {v : Value} {x : Val} (h : Agree P Q s t) (hrep : ∀ v x, rep v x → rep' v x)
    (ha : RepArray P s rep elemTy dims v x) : RepArray Q t rep' elemTy dims v x := by
  induction dims generalizing v x with
  | nil => exact hrep v x ha
  | cons dim rest ih =>
    cases dim with
    | fixed d =>
      obtain ⟨p,items,hv,hx,hd,hi⟩ := ha
      exact ⟨p,items,hv,hx,hd,hi.mono fun q x _ hq => hq.mono h fun v hv => ih hv⟩
    | dynamic =>
      obtain ⟨p,items,hv,hx,hlt,hp,hn,hi⟩ := ha
      refine ⟨p,items,hv,hx,hlt,h.sub p hp,(h.cell hp).trans hn,hi.mono fun q x _ hq => ?_⟩
      refine ⟨h.sub q hq.1,ih ?_⟩
      rw [loadedRow,h.loaded hq.1]
      exact hq.2

mutual

theorem Rep.mono (h : Agree P Q s t) : ∀ {ty : Ty} {v : Value} {x : Val},
    Rep P s ty v x → Rep Q t ty v x
  | .uint32, _, _, hr | .bool, _, _, hr | .enum, _, _, hr | .field, _, _, hr => by
    rw [Rep] at hr ⊢
    exact hr
  | .address, _, _, hr | .contract, _, _, hr | .hash, _, _, hr => by
    rw [Rep] at hr ⊢
    obtain ⟨p,w,hv,hx,hl⟩ := hr
    exact ⟨p,w,hv,hx,hl.mono h⟩
  | .string, _, _, hr | .dynamicBytes, _, _, hr => by
    rw [Rep] at hr ⊢
    obtain ⟨p,l,hv,hx,hlt,hl⟩ := hr
    exact ⟨p,l,hv,hx,hlt,hl.mono h⟩
  | .array elemTy dims, _, _, hr => by
    rw [Rep] at hr ⊢
    exact hr.mono h fun v x hv => Rep.mono h hv
  | .struct fields, _, _, hr => by
    rw [Rep] at hr ⊢
    obtain ⟨p,items,hv,hx,hf⟩ := hr
    exact ⟨p,items,hv,hx,hf.mono h⟩
  | .void, _, _, hr | .mapping _ _, _, _, hr | .ref _, _, _, hr | .storageRef _, _, _, hr => by
    rw [Rep] at hr
    exact hr.elim

theorem RepFields.mono (h : Agree P Q s t) : ∀ {tys : List Ty} {p : Pointer} {offset : ℕ}
    {items : List Val}, RepFields P s tys p offset items → RepFields Q t tys p offset items
  | [], _, _, [], _ => by
    rw [RepFields]
    trivial
  | ty::tys, p, offset, x::xs, hf => by
    rw [RepFields] at hf ⊢
    refine ⟨h.sub _ hf.1,?_,RepFields.mono h hf.2.2⟩
    rw [h.loaded hf.1]
    exact Rep.mono h hf.2.1
  | [], _, _, _::_, hf | _::_, _, _, [], hf => by simp [RepFields] at hf

end

/-! ### Represented values have their type -/

theorem RepItems.forall {rep : Pointer → Val → Prop} {R : Val → Prop} {stride : ℕ}
    {items : List Val} (h : ∀ q x, rep q x → R x) (hi : RepItems rep stride q items) :
    ∀ x ∈ items, R x := by
  induction items generalizing q with
  | nil => simp
  | cons x xs ih =>
    simp only [List.mem_cons,forall_eq_or_imp]
    exact ⟨h q x hi.1,ih hi.2⟩

theorem RepPlace.elim {rep : Value → Val → Prop} {elemTy : Ty} {rest : List ArrayLength} {x : Val}
    (hq : RepPlace P s rep elemTy rest q x) : ∃ v, rep v x := by
  cases rest with
  | nil =>
    cases elemTy with
    | struct fields => exact ⟨_,hq⟩
    | _ => exact ⟨_,hq.2⟩
  | cons dim rest =>
    cases dim with
    | fixed d => exact ⟨_,hq⟩
    | dynamic => exact ⟨_,hq.2⟩

theorem RepArray.arrayType {rep : Value → Val → Prop} {R : Val → Prop} {elemTy : Ty}
    {dims : List ArrayLength} {v : Value} {x : Val} (hrep : ∀ v x, rep v x → R x)
    (ha : RepArray P s rep elemTy dims v x) : ArrayType R dims x := by
  induction dims generalizing v x with
  | nil => exact hrep v x ha
  | cons dim rest ih =>
    cases dim with
    | fixed d =>
      obtain ⟨p,items,-,hx,hd,hi⟩ := ha
      refine ⟨items,hx,hd,hi.forall fun q x hq => ?_⟩
      obtain ⟨v,hv⟩ := hq.elim
      exact ih hv
    | dynamic =>
      obtain ⟨p,items,-,hx,hlt,-,-,hi⟩ := ha
      exact ⟨items,hx,hlt,hi.forall fun q x hq => ih hq.2⟩

mutual

theorem Rep.hasType : ∀ {ty : Ty} {v : Value} {x : Val}, Rep P s ty v x → HasType ty x
  | .uint32, _, _, hr | .bool, _, _, hr | .enum, _, _, hr | .field, _, _, hr => by
    rw [Rep] at hr
    rw [HasType]
    exact ⟨_,hr.2⟩
  | .address, _, _, hr | .contract, _, _, hr | .hash, _, _, hr => by
    rw [Rep] at hr
    rw [HasType]
    obtain ⟨p,w,-,hx,-⟩ := hr
    exact ⟨w,hx⟩
  | .string, _, _, hr | .dynamicBytes, _, _, hr => by
    rw [Rep] at hr
    rw [HasType]
    obtain ⟨p,l,-,hx,hlt,-⟩ := hr
    exact ⟨l,hx,hlt⟩
  | .array elemTy dims, _, _, hr => by
    rw [Rep] at hr
    rw [HasType]
    exact hr.arrayType fun v x hv => Rep.hasType hv
  | .struct fields, _, _, hr => by
    rw [Rep] at hr
    rw [HasType]
    obtain ⟨p,items,-,hx,hf⟩ := hr
    exact ⟨items,hx,hf.hasTypes⟩
  | .void, _, _, hr | .mapping _ _, _, _, hr | .ref _, _, _, hr | .storageRef _, _, _, hr => by
    rw [Rep] at hr
    exact hr.elim

theorem RepFields.hasTypes : ∀ {tys : List Ty} {p : Pointer} {offset : ℕ} {items : List Val},
    RepFields P s tys p offset items → HasTypes tys items
  | [], _, _, [], _ => by
    rw [HasTypes]
    trivial
  | ty::tys, p, offset, x::xs, hf => by
    rw [RepFields] at hf
    rw [HasTypes]
    exact ⟨Rep.hasType hf.2.1,RepFields.hasTypes hf.2.2⟩
  | [], _, _, _::_, hf | _::_, _, _, [], hf => by simp [RepFields] at hf

end

theorem RepAll.mono (h : Agree P Q s t) : ∀ {tys : List Ty} {vs : List Value} {items : List Val},
    RepAll P s tys vs items → RepAll Q t tys vs items
  | [], [], [], _ => by
    rw [RepAll]
    trivial
  | _::_, _::_, _::_, hr => by
    rw [RepAll] at hr ⊢
    exact ⟨hr.1.mono h,hr.2.mono h⟩
  | [], _::_, _, hr | [], [], _::_, hr | _::_, [], _, hr | _::_, _::_, [], hr => by
    simp [RepAll] at hr

theorem RepAll.hasTypes : ∀ {tys : List Ty} {vs : List Value} {items : List Val},
    RepAll P s tys vs items → HasTypes tys items
  | [], [], [], _ => by
    rw [HasTypes]
    trivial
  | _::_, _::_, _::_, hr => by
    rw [RepAll] at hr
    rw [HasTypes]
    exact ⟨hr.1.hasType,hr.2.hasTypes⟩
  | [], _::_, _, hr | [], [], _::_, hr | _::_, [], _, hr | _::_, _::_, [], hr => by
    simp [RepAll] at hr

/-! ### Cells in a row -/

@[simp] theorem holds_append {l' : List Felt} :
    Holds P s p (l ++ l') ↔ Holds P s p l ∧ Holds P s (p.add l.length) l' := by
  induction l generalizing p with
  | nil => simp [Holds]
  | cons x l ih =>
    simp only [List.cons_append,Holds,ih,Pointer.add_add,List.length_cons,and_assoc]
    rw [Nat.add_comm 1]

theorem holds_cons {x : Felt} : Holds P s p (x::l) ↔ P p ∧ s.cell p = x ∧ Holds P s (p.add 1) l :=
  Iff.rfl

/-- The cell at a place of the list. -/
theorem Holds.get (h : Holds P s p l) {i : ℕ} (hi : i < l.length) :
    P (p.add i) ∧ s.cell (p.add i) = l.get ⟨i,hi⟩ := by
  induction l generalizing p i with
  | nil => simp at hi
  | cons x l ih =>
    cases i with
    | zero => simpa using ⟨h.1,h.2.1⟩
    | succ i =>
      have hget := ih h.2.2 (Nat.lt_of_succ_lt_succ hi)
      rw [Pointer.add_add,Nat.add_comm 1] at hget
      exact hget

theorem RepItems.get {rep : Pointer → Val → Prop} {stride : ℕ} {items : List Val}
    (h : RepItems rep stride q items) {i : ℕ} (hi : i < items.length) :
    rep (q.add (i*stride)) (items.get ⟨i,hi⟩) := by
  induction items generalizing q i with
  | nil => simp at hi
  | cons x xs ih =>
    cases i with
    | zero => simpa using h.1
    | succ i =>
      have hget := ih h.2 (Nat.lt_of_succ_lt_succ hi)
      rw [Pointer.add_add,show stride + i*stride = (i+1)*stride by ring] at hget
      exact hget

end Encoding
end OlaLang
