import OlaLang.ArrayLiteral
import OlaLang.ArraySlice

/-! The code of array literals: the block that is allocated, the place each element is stored at, and
when a subscript reads the element of the source. -/
namespace OlaLang
namespace ArrayInitializer

open Exec (Returns bind_ok bind_eq_ok except_bind_eq_ok)
open Builder Corelib ArrayBounds ArrayLiteral
open StringLiteral (Loc Diagnostic ResolveTo)

/-! ### Generated code -/

/-- An element of the literal, resolved: its type and its code. -/
structure Element where
  ty : Ty
  code : Code Value

/-- The indices of element `i`: each remainder is inserted before the ones of the inner dimensions. -/
def elementIndices (dimensions : List ℕ) (i : ℕ) : List ℕ :=
  (dimensions.foldl (fun (p : List ℕ × ℕ) d => (p.1.insertIdx 1 (p.2 % d),p.2 / d)) ([0],i % 2^32)).1

/-- `build_gep` on an array: the first index counts whole arrays. -/
def gep (elem : Ty) : List ArrayLength → List ℕ → ℕ
  | _, [] => 0
  | dims, i::ind => i * Ty.llvmStride elem dims + gep elem dims.dropLast ind

/-- The cells an element is stored in. A struct or a fixed array is loaded from its place. -/
def loadElement (ty : Ty) (elem : Value) : Code (List Value) :=
  if ty.isFixedReferenceType then do
    let p ← intoPointerValue elem
    fun s => .ok ((List.range ty.llvmSize).map fun c => s.mem (p.add c),s)
  else pure [elem]

def storeCells (p : Pointer) : List Value → Code Unit
  | [] => pure ()
  | v::vs => do
    buildStore p v
    storeCells (p.add 1) vs

/-- A dimension of zero is a division by zero of the generator. -/
def storeElement (elem : Ty) (dimensions : List ℕ) (p : Pointer) (i : ℕ) (e : Element) : Code Unit := do
  if 0 ∈ dimensions then Exec.fail .panic
  let elemptr := p.add (gep elem (dimensions.map .fixed) (elementIndices dimensions i))
  let v ← e.code
  let cells ← loadElement e.ty v
  storeCells elemptr cells

def storeElements (elem : Ty) (dimensions : List ℕ) (p : Pointer) : ℕ → List Element → Code Unit
  | _, [] => pure ()
  | i, e::values => do
    storeElement elem dimensions p i e
    storeElements elem dimensions p (i+1) values

/-- `Expression::ArrayLiteral`: the size of the type counts the elements, and has to be a `u64`. -/
def arrayLiteralCode (elem : Ty) (dimensions : List ℕ) (values : List Element) : Code Value := do
  if 2^64 ≤ dimensions.prod then Exec.fail .panic
  let p ← heapMalloc (dimensions.prod : ℕ)
  storeElements elem dimensions p 0 values
  pure (.ptr p)

/-- An element read by its indices, one subscript for each dimension. -/
def subscripts (host : Host) : Ty → Value → List Value → Code Value
  | _, array, [] => pure array
  | arrayTy, array, index::is => do
    let elem ← arraySubscript host arrayTy array index .uint32
    subscripts host arrayTy.arrayDeref elem is

/-! ### What it should do -/

/-- The cells of a value of the type. -/
def width (ty : Ty) : ℕ := if ty.isFixedReferenceType then ty.llvmSize else 1

/-- What they hold. -/
def content (ty : Ty) (v : Value) (s : State) : List Value :=
  if ty.isFixedReferenceType then (List.range ty.llvmSize).map fun c => (s.mem (v.pointer.add c)).stored
  else [v.stored]

/-- The code of an element gives a place for a struct or a fixed array, keeps what is allocated, and
does not reach the block of the literal, which has no name yet. -/
structure Evaluates (p n : ℕ) (e : Element) : Prop where
  pointer : ∀ s v t, e.code s = .ok (v,t) → e.ty.isFixedReferenceType = true → ∃ q, v = .ptr q
  heap : ∀ s v t, e.code s = .ok (v,t) → s.heap ≤ t.heap
  keeps : ∀ s v t, e.code s = .ok (v,t) → p+n ≤ s.heap → ∀ i < n, t.mem (.heap (p+i)) = s.mem (.heap (p+i))

variable {α β : Type}

/-- The code stops only where an element does, and then each subscript reads the value its element
was evaluated to. -/
structure Initialises (host : Host) (exprs : List (Expr α)) (elem : Ty) (dimensions : List ℕ)
    (values : List Element) (s : State) : Prop where
  stops : ∀ f, arrayLiteralCode elem dimensions values s = .error f → ∃ j e v m,
    values[j]? = some e ∧ arrayLiteralCode elem dimensions (values.take j) s = .ok (v,m) ∧
      e.code m = .error f
  reads : ∀ v t, arrayLiteralCode elem dimensions values s = .ok (v,t) → ∀ is : List Value,
    (∀ i ∈ is, i.isPointer = false) → ∀ j, leafIndex exprs (is.map fun i => i.felt.val) = some j →
    ∃ e a m w m' q, values[j]? = some e ∧
      arrayLiteralCode elem dimensions (values.take j) s = .ok (a,m) ∧ e.code m = .ok (w,m') ∧
      subscripts host (.array elem (dimensions.map .fixed)) v is t = .ok (.ptr q,t) ∧
      (List.range (width elem)).map (fun c => t.mem (q.add c)) = content elem w m'

/-- A literal is accepted when it is rectangular; then its dimensions count the leaves, and whatever
codes the elements have, they are where the source has them. -/
structure Correct (host : Host) (r : Resolver α β) (loc : Loc) (exprs : List (Expr α))
    (resolveTo : ResolveTo) : Prop where
  accepted : (∃ lit, arrayLiteral r loc exprs resolveTo = .ok lit) ↔ Rectangular exprs
  dimensions : ∀ lit, arrayLiteral r loc exprs resolveTo = .ok lit →
    lit.dimensions.prod = (leaves exprs).length
  initialised : ∀ lit elem dims, arrayLiteral r loc exprs resolveTo = .ok lit →
    lit.ty = .array elem dims → ∀ values : List Element, values.map Element.ty = lit.values.map r.ty →
    ∀ s : State, (∀ e ∈ values, Evaluates s.heap (leaves exprs).length e) →
      Initialises host exprs elem lit.dimensions values s

/-- The leaves can be resolved, to values of at least one cell: a struct has a member, and a fixed
array an element. -/
structure Resolves (r : Resolver α β) (exprs : List (Expr α)) (resolveTo : ResolveTo) : Prop where
  resolves : ∃ values, resolveElements r (elementTo resolveTo) (leaves exprs) = .ok values
  width : ∀ elem values,
    resolveElements r (elementTo resolveTo) (leaves exprs) = .ok (some (elem,values)) → 0 < width elem

/-- The elements do not overlap, and all but the last one lie in a block of `n` cells. -/
def Room (elem : Ty) (n : ℕ) : Prop :=
  n = 1 ∨ width elem ≤ elem.llvmFieldSize ∧ (n-2)*elem.llvmFieldSize + width elem ≤ n

/-- Literals that agree with their neighbours are rectangular. Of those there are at most `2^32`
leaves and less than `2^32` elements on each level, no element is given by reference, and each has its
place in the block. -/
structure Fits (r : Resolver α β) (exprs : List (Expr α)) (resolveTo : ResolveTo) : Prop where
  rectangular : Uniform exprs → leaves exprs ≠ [] → Rectangular exprs
  levels : ∀ shape, HasShape shape exprs → ∀ d ∈ shape, d < 2^32
  leaves : Rectangular exprs → (leaves exprs).length ≤ 2^32
  values : Rectangular exprs → ∀ elem values,
    resolveElements r (elementTo resolveTo) (ArrayLiteral.leaves exprs) = .ok (some (elem,values)) →
      (∀ b ∈ values, r.ty b = elem) ∧ Room elem (ArrayLiteral.leaves exprs).length

/-! ### Places -/

/-- The remainders, from the innermost dimension on. -/
def digits : List ℕ → ℕ → List ℕ
  | [], _ => []
  | d::dims, e => e % d::digits dims (e / d)

theorem elementIndices_eq (dims : List ℕ) (i : ℕ) :
    elementIndices dims i = 0::(digits dims (i % 2^32)).reverse := by
  have hloop : ∀ (dims acc : List ℕ) (e : ℕ), (dims.foldl (fun (p : List ℕ × ℕ) d =>
      (p.1.insertIdx 1 (p.2 % d),p.2 / d)) (0::acc,e)).1 = 0::((digits dims e).reverse ++ acc) := by
    intro dims
    induction dims with
    | nil => simp [digits]
    | cons d dims ih =>
      intro acc e
      rw [List.foldl_cons]
      exact (ih (e % d::acc) (e / d)).trans (by simp [digits])
  rw [elementIndices,hloop,List.append_nil]

theorem digits_append (dims : List ℕ) (d e : ℕ) :
    digits (dims ++ [d]) e = digits dims e ++ [e / dims.prod % d] := by
  induction dims generalizing e with
  | nil => simp [digits]
  | cons d' dims ih => simp [digits,ih,Nat.div_div_eq_div_mul]

theorem llvmStride_fixed (elem : Ty) (dims : List ℕ) :
    Ty.llvmStride elem (dims.map .fixed) = elem.llvmFieldSize * dims.prod := by
  rw [Ty.llvmStride,Ty.llvmSize,List.foldl_map]
  generalize elem.llvmFieldSize = n
  induction dims generalizing n with
  | nil => simp
  | cons d dims ih => simp [ih,Nat.mul_assoc]

/-- The places in a fixed array, whatever its first index counts. -/
theorem gep_append (elem : Ty) (dims : List ℕ) (d i : ℕ) (ind : List ℕ) :
    gep elem (((dims ++ [d]).map .fixed).dropLast) (i::ind) =
      i * (elem.llvmFieldSize * dims.prod) + gep elem (dims.map .fixed).dropLast ind := by
  simp [gep,llvmStride_fixed]

theorem gep_digits (elem : Ty) (dims : List ℕ) (e : ℕ) :
    gep elem (dims.map .fixed).dropLast (digits dims e).reverse =
      e % dims.prod * elem.llvmFieldSize := by
  induction dims using List.reverseRecOn with
  | nil => simp [digits,gep,Nat.mod_one]
  | append_singleton dims d ih =>
    rw [digits_append,List.reverse_append,List.reverse_singleton,List.singleton_append,gep_append,ih]
    simp only [List.prod_append,List.prod_singleton,Nat.mod_mul]
    ring

/-- Element `i` is stored at the place of its number, which the code counts as a `u32`. -/
theorem gep_elementIndices (elem : Ty) (dims : List ℕ) (i : ℕ) :
    gep elem (dims.map .fixed) (elementIndices dims i) =
      i % 2^32 % dims.prod * elem.llvmFieldSize := by
  rw [elementIndices_eq,gep,Nat.zero_mul,Nat.zero_add,gep_digits]

/-- Subscripts address the same places. -/
theorem gep_flatIndex (elem : Ty) {dims is : List ℕ} (h : List.Forall₂ (· < ·) is dims.reverse) :
    gep elem (dims.map .fixed).dropLast is = flatIndex dims.reverse is * elem.llvmFieldSize := by
  induction dims using List.reverseRecOn generalizing is with
  | nil => simp only [List.reverse_nil,List.forall₂_nil_right_iff] at h; simp [h,gep,flatIndex]
  | append_singleton dims d ih =>
    rw [List.reverse_append,List.reverse_singleton,List.singleton_append] at h ⊢
    cases h with
    | cons hi his =>
      rw [gep_append,ih his,flatIndex,List.prod_reverse]
      ring

theorem flatIndex_lt {shape is : List ℕ} (h : List.Forall₂ (· < ·) is shape) :
    flatIndex shape is < shape.prod := by
  induction h with
  | nil => simp [flatIndex]
  | @cons i d is shape hi _ ih =>
    rw [flatIndex,List.prod_cons]
    calc i * shape.prod + flatIndex shape is < i * shape.prod + shape.prod := by omega
      _ = (i+1) * shape.prod := by ring
      _ ≤ d * shape.prod := Nat.mul_le_mul_right _ hi

theorem exists_flatIndex {shape : List ℕ} {k : ℕ} (h : k < shape.prod) :
    ∃ is, List.Forall₂ (· < ·) is shape ∧ flatIndex shape is = k := by
  induction shape generalizing k with
  | nil => exact ⟨[],.nil,by simp at h; simp [flatIndex,h]⟩
  | cons d shape ih =>
    rw [List.prod_cons] at h
    have hpos : 0 < shape.prod := Nat.pos_of_ne_zero fun h0 => by simp [h0] at h
    obtain ⟨is,his,hk⟩ := ih (Nat.mod_lt k hpos)
    refine ⟨k / shape.prod::is,.cons (Nat.div_lt_of_lt_mul (by rwa [Nat.mul_comm])) his,?_⟩
    rw [flatIndex,hk]
    exact Nat.div_add_mod' k shape.prod

/-! ### Subscripts -/

theorem rangeCheck_diff {d : ℕ} (hd : d < 2^32) {index : Value} (hi : index.isPointer = false)
    (hlt : index.felt.val < d) (s : State) :
    ∃ a b, buildIntSub (.const (BitVec.ofNat 64 d)) (.const 1) s = .ok (a,s) ∧
      buildIntSub a index s = .ok (b,s) ∧ rangeCheck b s = .ok ((),s) := by
  have hword : (BitVec.ofNat 64 d).toNat = d := by
    rw [BitVec.toNat_ofNat,Nat.mod_eq_of_lt (by omega)]
  have hpos : ∀ w, Value.const (BitVec.ofNat 64 d) = .const w → 1 ≤ w.toNat := by
    intro w hw
    cases hw
    omega
  obtain ⟨a,b,ha,hb,hconst,hint⟩ := difference (s := s) rfl hi hpos
  refine ⟨a,b,ha,hb,?_⟩
  cases hc : b.isConst with
  | true => rw [rangeCheck_const hc]; rfl
  | false =>
    rw [hint hc]
    refine rangeCheck_int_eq_ok.mpr ⟨(isU32_iff _ _).mpr ?_ |>.mpr ?_,rfl⟩
    · have hval : ((d : ℕ) : Felt).val = d := Felt.val_natCast_of_lt (by omega)
      rw [Value.felt_const,hword,hval]
      have := Felt.val_lt index.felt
      unfold FIELD_ORDER at this ⊢
      omega
    · rw [Value.felt_const,hword,Felt.val_natCast_of_lt (by omega)]
      exact hlt

/-- A subscript of a fixed array in memory addresses its element. -/
theorem arraySubscript_element (host : Host) {ty : Ty} (h : Indexable ty)
    (hs : ty.isContractStorage = false) {d : ℕ} (hl : ty.arrayLength = some d) {index : Value}
    (hi : index.isPointer = false) (hlt : index.felt.val < d) (p : Pointer) (s : State) :
    arraySubscript host ty (.ptr p) index .uint32 s =
      .ok (.ptr (ArraySlice.element ty p index.felt.val),s) := by
  obtain ⟨a,b,ha,hb,hcheck⟩ := rangeCheck_diff (h.length_bound hl).2 hi hlt s
  have hlen : subscriptLength host ty (.ptr p) s = .ok (.const (BitVec.ofNat 64 d),s) := by
    rw [subscriptLength,hl]
    rfl
  rw [arraySubscript_eq h,bind_ok hlen,bind_ok ha,bind_ok hb,bind_ok hcheck,ArraySlice.place_eq h hs]
  rfl

/-- The types on the way from a fixed array to its elements. -/
theorem subscripts_step (host : Host) {elem : Ty} {dims : List ℕ} {d : ℕ}
    (hdims : ∀ n ∈ dims ++ [d], 1 ≤ n ∧ n < 2^32) {ty : Ty}
    (hty : ty = .array elem ((dims ++ [d]).map .fixed) ∨
      ty = .ref (.array elem ((dims ++ [d]).map .fixed))) {index : Value}
    (hi : index.isPointer = false) (hlt : index.felt.val < d) (p : Pointer) (is : List Value)
    (s : State) :
    subscripts host ty (.ptr p) (index::is) s = subscripts host
      (if dims = [] then .ref elem else .ref (.array elem (dims.map .fixed)))
      (.ptr (p.add (index.felt.val * (elem.llvmFieldSize * dims.prod)))) is s := by
  have harray : IsArray (.array elem ((dims ++ [d]).map .fixed)) := by
    refine .array (by simp) fun n hn => hdims n ?_
    obtain ⟨m,hm,heq⟩ := List.mem_map.mp hn
    cases heq
    exact hm
  have hderef : ty.arrayDeref =
      if dims = [] then .ref elem else .ref (.array elem (dims.map .fixed)) := by
    by_cases hnil : dims = []
    · rcases hty with rfl | rfl <;> simp [Ty.arrayDeref,hnil]
    · have hpos := List.length_pos_of_ne_nil hnil
      rcases hty with rfl | rfl <;> simp [Ty.arrayDeref,hnil,hpos]
  have hindexable : Indexable ty := by
    rcases hty with rfl | rfl
    · exact .value harray
    · exact .ref harray
  have hstorage : ty.isContractStorage = false := by rcases hty with rfl | rfl <;> rfl
  have hlength : ty.arrayLength = some d := by
    rcases hty with rfl | rfl <;> simp [Ty.arrayLength]
  have hplace : ArraySlice.element ty p index.felt.val =
      p.add (index.felt.val * (elem.llvmFieldSize * dims.prod)) := by
    rcases hty with rfl | rfl <;> simp [ArraySlice.element,ArraySlice.data,ArraySlice.stride,
      Ty.isDynamicMemory,Ty.derefMemory,llvmStride_fixed]
  rw [subscripts,bind_ok (arraySubscript_element host hindexable hstorage hlength hi hlt p s),hderef,
    hplace]

theorem subscripts_eq (host : Host) {elem : Ty} {dims : List ℕ}
    (hdims : ∀ n ∈ dims, 1 ≤ n ∧ n < 2^32) {ty : Ty}
    (hty : ty = .array elem (dims.map .fixed) ∨ ty = .ref (.array elem (dims.map .fixed)) ∨ dims = [])
    {is : List Value} (hi : ∀ i ∈ is, i.isPointer = false)
    (hlt : List.Forall₂ (· < ·) (is.map fun i => i.felt.val) dims.reverse) (p : Pointer) (s : State) :
    subscripts host ty (.ptr p) is s =
      .ok (.ptr (p.add (gep elem (dims.map .fixed).dropLast (is.map fun i => i.felt.val))),s) := by
  induction dims using List.reverseRecOn generalizing ty is p with
  | nil =>
    simp only [List.reverse_nil,List.forall₂_nil_right_iff,List.map_eq_nil_iff] at hlt
    simp [hlt,subscripts,gep]
  | append_singleton dims d ih =>
    rw [List.reverse_append,List.reverse_singleton,List.singleton_append] at hlt
    cases is with
    | nil => cases hlt
    | cons index is =>
      rw [List.forall_mem_cons] at hi
      rw [List.map_cons,List.forall₂_cons] at hlt
      have hty' : ty = .array elem ((dims ++ [d]).map .fixed) ∨
          ty = .ref (.array elem ((dims ++ [d]).map .fixed)) := by simpa using hty
      rw [subscripts_step host hdims hty' hi.1 hlt.1,List.map_cons,gep_append,← Pointer.add_add]
      refine ih (fun n hn => hdims n (List.mem_append_left _ hn)) ?_ hi.2 hlt.2 _
      by_cases hnil : dims = [] <;> simp [hnil]

/-! ### Stores -/

/-- The state with the cells of the heap from `a` on filled. -/
def setCells (s : State) (a : ℕ) (vs : List Value) : State :=
  { s with mem := fun q => match q with
    | .heap x => if a ≤ x then vs.getD (x-a) (s.mem q) else s.mem q
    | .stack _ => s.mem q }

/-- The cells of the heap from `a` on hold the values. -/
def Reads (s : State) (a : ℕ) (vs : List Value) : Prop :=
  ∀ c, ∀ h : c < vs.length, s.mem (.heap (a+c)) = vs[c]

@[simp] theorem setCells_heap (s : State) (a : ℕ) (vs : List Value) :
    (setCells s a vs).heap = s.heap := rfl

@[simp] theorem setCells_stack (s : State) (a : ℕ) (vs : List Value) (x : ℕ) :
    (setCells s a vs).mem (.stack x) = s.mem (.stack x) := rfl

theorem setCells_reads (s : State) (a : ℕ) (vs : List Value) : Reads (setCells s a vs) a vs := by
  intro c h
  simp [setCells,h]

theorem setCells_outside (s : State) {a x : ℕ} {vs : List Value} (h : x < a ∨ a+vs.length ≤ x) :
    (setCells s a vs).mem (.heap x) = s.mem (.heap x) := by
  have hlen : a ≤ x → vs.length ≤ x-a := by omega
  by_cases hle : a ≤ x <;> simp [setCells,hle,hlen]

theorem Reads.of_eq {s t : State} {a : ℕ} {vs : List Value} (h : Reads s a vs)
    (heq : ∀ c < vs.length, t.mem (.heap (a+c)) = s.mem (.heap (a+c))) : Reads t a vs :=
  fun c hc => (heq c hc).trans (h c hc)

theorem storeCells_apply (a : ℕ) (vs : List Value) (s : State) :
    storeCells (.heap a) vs s = .ok ((),setCells s a (vs.map Value.stored)) := by
  induction vs generalizing a s with
  | nil =>
    show Except.ok ((),s) = Except.ok ((),setCells s a [])
    congr 2
    cases s
    simp only [setCells,List.getD_nil,ite_self]
    congr 1
    funext q
    cases q <;> rfl
  | cons v vs ih =>
    have hfirst : buildStore (.heap a) v s = .ok ((),s.write (.heap a) v) := rfl
    rw [storeCells,bind_ok hfirst,Pointer.add_heap,ih]
    congr 2
    simp only [setCells,State.write,List.map_cons]
    congr 1
    funext q
    cases q with
    | stack x => simp
    | heap x =>
      rcases Nat.lt_trichotomy x a with hlt | rfl | hlt
      · have hne : x ≠ a := by omega
        simp [hne,show ¬ a+1 ≤ x by omega,show ¬ a ≤ x by omega]
      · simp
      · obtain ⟨k,rfl⟩ := Nat.exists_eq_add_of_lt hlt
        have hk : a+k+1-a = k+1 := by omega
        have hk' : a+k+1-(a+1) = k := by omega
        have hne : Pointer.heap (a+k+1) ≠ .heap a := by simp; omega
        simp [show a+1 ≤ a+k+1 by omega,show a ≤ a+k+1 by omega,hk,hk',hne]

theorem length_content (ty : Ty) (v : Value) (s : State) : (content ty v s).length = width ty := by
  unfold content width
  split_ifs <;> simp

variable {elem : Ty} {dims : List ℕ} {e : Element} {s t m : State} {p n i : ℕ}

theorem loadElement_apply {ty : Ty} {v : Value} (h : ty.isFixedReferenceType = true → ∃ q, v = .ptr q)
    (s : State) : ∃ cells, loadElement ty v s = .ok (cells,s) ∧
      cells.map Value.stored = content ty v s := by
  unfold loadElement content
  by_cases hty : ty.isFixedReferenceType = true
  · obtain ⟨q,rfl⟩ := h hty
    rw [if_pos hty,if_pos hty]
    exact ⟨_,rfl,by simp⟩
  · rw [if_neg hty,if_neg hty]
    exact ⟨_,rfl,rfl⟩

/-- Where element `i` is stored. -/
def offset (elem : Ty) (dims : List ℕ) (i : ℕ) : ℕ := i % 2^32 % dims.prod * elem.llvmFieldSize

/-- A step of the loop stores what the code of the element gives. -/
theorem storeElement_apply (hdims : 0 ∉ dims) (he : Evaluates p n e) (h : ℕ) (s : State) :
    storeElement elem dims (.heap h) i e s = (e.code s).map fun r =>
      ((),setCells r.2 (h+offset elem dims i) (content e.ty r.1 r.2)) := by
  unfold storeElement
  simp only [if_neg hdims,Pointer.add_heap,gep_elementIndices]
  show (e.code >>= _) s = _
  rw [Exec.bind_apply]
  cases hc : e.code s with
  | error f => rfl
  | ok r =>
    obtain ⟨v,t⟩ := r
    obtain ⟨cells,hload,hcells⟩ := loadElement_apply (he.pointer s v t hc) t
    simp only [Except.map]
    rw [bind_ok hload,storeCells_apply,hcells]
    rfl

theorem storeElements_append (xs ys : List Element) (i : ℕ) :
    storeElements elem dims (.heap p) i (xs ++ ys) = (do
      storeElements elem dims (.heap p) i xs
      storeElements elem dims (.heap p) (i+xs.length) ys) := by
  induction xs generalizing i with
  | nil => rfl
  | cons x xs ih =>
    simp only [List.cons_append,storeElements,ih,Exec.bind_assoc,List.length_cons]
    rw [Nat.add_assoc,Nat.add_comm 1]

/-- The state with the block of the literal. -/
def allocated (dims : List ℕ) (s : State) : State :=
  { s with heap := s.heap+((dims.prod : ℕ) : Felt).val }

@[simp] theorem allocated_mem (dims : List ℕ) (s : State) : (allocated dims s).mem = s.mem := rfl

theorem allocated_heap (h : dims.prod ≤ 2^32) (s : State) :
    (allocated dims s).heap = s.heap+dims.prod := by
  rw [allocated,Felt.val_natCast_of_lt (by omega)]

/-- The code of the literal runs the loop behind the allocation. -/
theorem arrayLiteralCode_eq (h : dims.prod < 2^64) (values : List Element) (s : State) :
    arrayLiteralCode elem dims values s =
      (storeElements elem dims (.heap s.heap) 0 values (allocated dims s)).map
        fun r => (.ptr (.heap s.heap),r.2) := by
  have hmalloc : heapMalloc ((dims.prod : ℕ) : Felt) s = .ok (.heap s.heap,allocated dims s) := rfl
  unfold arrayLiteralCode
  rw [if_neg (by omega)]
  show (heapMalloc ((dims.prod : ℕ) : Felt) >>= _) s = _
  rw [bind_ok hmalloc,Exec.bind_apply]
  cases storeElements elem dims (.heap s.heap) 0 values (allocated dims s) <;> rfl

theorem arrayLiteralCode_eq_ok (h : dims.prod < 2^64) {values : List Element} {v : Value} :
    arrayLiteralCode elem dims values s = .ok (v,t) ↔ v = .ptr (.heap s.heap) ∧
      storeElements elem dims (.heap s.heap) 0 values (allocated dims s) = .ok ((),t) := by
  rw [arrayLiteralCode_eq h]
  cases storeElements elem dims (.heap s.heap) 0 values (allocated dims s) with
  | error f => simp [Except.map]
  | ok r => simp [Except.map,Prod.ext_iff,eq_comm]

theorem arrayLiteralCode_eq_error (h : dims.prod < 2^64) {values : List Element} {f : Fault} :
    arrayLiteralCode elem dims values s = .error f ↔
      storeElements elem dims (.heap s.heap) 0 values (allocated dims s) = .error f := by
  rw [arrayLiteralCode_eq h]
  cases storeElements elem dims (.heap s.heap) 0 values (allocated dims s) <;> simp [Except.map]

theorem arrayLiteralCode_panic (h : 2^64 ≤ dims.prod) (values : List Element) (s : State) :
    arrayLiteralCode elem dims values s = .error .panic := by
  unfold arrayLiteralCode
  rw [if_pos h]
  rfl

/-- A run up to behind element `k` splits at its step. -/
theorem storeElements_take (hdims : 0 ∉ dims) {values : List Element} {k : ℕ}
    (hk : values[k]? = some e) (he : Evaluates p n e) (s : State) :
    storeElements elem dims (.heap p) 0 (values.take (k+1)) s = .ok ((),t) ↔
      ∃ m v m', storeElements elem dims (.heap p) 0 (values.take k) s = .ok ((),m) ∧
        e.code m = .ok (v,m') ∧ t = setCells m' (p+offset elem dims k) (content e.ty v m') := by
  obtain ⟨hlt,hget⟩ := List.getElem?_eq_some_iff.mp hk
  have htake : values.take (k+1) = values.take k ++ [e] := by rw [List.take_add_one,hk]; rfl
  have hone : ∀ m, storeElements elem dims (.heap p) k [e] m =
      (e.code m).map fun r => ((),setCells r.2 (p+offset elem dims k) (content e.ty r.1 r.2)) := by
    intro m
    rw [← storeElement_apply hdims he,storeElements,storeElements,Exec.bind_apply]
    cases storeElement elem dims (.heap p) k e m <;> rfl
  rw [htake,storeElements_append,bind_eq_ok,List.length_take,min_eq_left hlt.le,Nat.zero_add]
  constructor
  · rintro ⟨_,m,hm,hstep⟩
    rw [hone] at hstep
    obtain ⟨⟨v,m'⟩,hcode,heq⟩ : ∃ r, e.code m = .ok r ∧
        ((),setCells r.2 (p+offset elem dims k) (content e.ty r.1 r.2)) = ((),t) := by
      cases hc : e.code m with
      | error f => rw [hc] at hstep; cases hstep
      | ok r => rw [hc] at hstep; exact ⟨r,rfl,Except.ok.inj hstep⟩
    exact ⟨m,v,m',hm,hcode,(Prod.mk.inj heq).2.symm⟩
  · rintro ⟨m,v,m',hm,hcode,rfl⟩
    exact ⟨(),m,hm,by rw [hone,hcode]; rfl⟩

/-- The loop stops where the code of an element does. -/
theorem storeElements_stops (hdims : 0 ∉ dims) {values : List Element}
    (he : ∀ e ∈ values, Evaluates p n e) {f : Fault}
    (h : storeElements elem dims (.heap p) i values s = .error f) :
    ∃ j e m, values[j]? = some e ∧
      storeElements elem dims (.heap p) i (values.take j) s = .ok ((),m) ∧ e.code m = .error f := by
  induction values generalizing i s with
  | nil => cases h
  | cons e values ih =>
    rw [List.forall_mem_cons] at he
    have hstep : storeElement elem dims (.heap p) i e s = _ := storeElement_apply hdims he.1 p s
    cases hc : e.code s with
    | error g =>
      rw [hc] at hstep
      rw [storeElements,Exec.bind_error hstep] at h
      cases h
      exact ⟨0,e,s,rfl,rfl,hc⟩
    | ok r =>
      rw [hc] at hstep
      rw [storeElements,bind_ok hstep] at h
      obtain ⟨j,e',m,hj,hm,hf⟩ := ih he.2 h
      refine ⟨j+1,e',m,by simpa using hj,?_,hf⟩
      rw [List.take_succ_cons,storeElements,bind_ok hstep]
      exact hm

/-! ### The elements that are kept -/

/-- The first `k` elements are in place. -/
structure Kept (elem : Ty) (dims : List ℕ) (p : ℕ) (values : List Element) (s : State) (k : ℕ)
    (t : State) : Prop where
  heap : p+dims.prod ≤ t.heap
  evaluated : ∀ j < k, ∃ e m v m', values[j]? = some e ∧
    storeElements elem dims (.heap p) 0 (values.take j) s = .ok ((),m) ∧ e.code m = .ok (v,m') ∧
    Reads t (p+j*elem.llvmFieldSize) (content elem v m')

theorem offset_of_lt (h : i < dims.prod) (hprod : dims.prod ≤ 2^32) :
    offset elem dims i = i*elem.llvmFieldSize := by
  rw [offset,Nat.mod_eq_of_lt (h.trans_le hprod),Nat.mod_eq_of_lt h]

/-- A step keeps the elements before it: they are apart from its own, and out of reach of its code. -/
theorem Kept.step (hprod : dims.prod ≤ 2^32) (hroom : Room elem dims.prod)
    {values : List Element} {k : ℕ} (hk : values[k]? = some e) (hlt : k < dims.prod)
    (hty : e.ty = elem) (he : Evaluates p dims.prod e) {v : Value} {m' : State}
    (hm : storeElements elem dims (.heap p) 0 (values.take k) s = .ok ((),m))
    (hcode : e.code m = .ok (v,m')) (h : Kept elem dims p values s k m) :
    Kept elem dims p values s (k+1) (setCells m' (p+offset elem dims k) (content e.ty v m')) := by
  rw [offset_of_lt hlt hprod,hty]
  refine ⟨h.heap.trans (he.heap m v m' hcode),fun j hj => ?_⟩
  by_cases heq : j = k
  · subst heq
    exact ⟨e,m,v,m',hk,hm,hcode,setCells_reads _ _ _⟩
  · obtain ⟨e₀,m₀,v₀,m₀',hj₀,hm₀,hcode₀,hreads⟩ := h.evaluated j (by omega)
    refine ⟨e₀,m₀,v₀,m₀',hj₀,hm₀,hcode₀,hreads.of_eq fun c hc => ?_⟩
    rw [length_content] at hc
    have hjk : j < k := by omega
    obtain hone | ⟨hwidth,hblock⟩ := hroom
    · omega
    · have hnext : (j+1)*elem.llvmFieldSize ≤ k*elem.llvmFieldSize := Nat.mul_le_mul_right _ hjk
      have hlast : j*elem.llvmFieldSize ≤ (dims.prod-2)*elem.llvmFieldSize :=
        Nat.mul_le_mul_right _ (by omega)
      rw [Nat.add_mul] at hnext
      rw [setCells_outside _ (.inl (by omega)),Nat.add_assoc]
      exact he.keeps m v m' hcode h.heap _ (by omega)

theorem kept_run (hdims : 0 ∉ dims) (hprod : dims.prod ≤ 2^32) (hroom : Room elem dims.prod)
    {values : List Element} (hlen : values.length = dims.prod) (hty : ∀ e ∈ values, e.ty = elem)
    (he : ∀ e ∈ values, Evaluates p dims.prod e) (hs : p+dims.prod ≤ s.heap) {k : ℕ}
    (hk : k ≤ dims.prod)
    (h : storeElements elem dims (.heap p) 0 (values.take k) s = .ok ((),t)) :
    Kept elem dims p values s k t := by
  induction k generalizing t with
  | zero =>
    cases h
    exact ⟨hs,fun j hj => absurd hj (Nat.not_lt_zero j)⟩
  | succ k ih =>
    have hget : values[k]? = some (values.get ⟨k,by omega⟩) := List.getElem?_eq_getElem _
    have hmem := List.mem_of_getElem? hget
    obtain ⟨m,v,m',hm,hcode,rfl⟩ := (storeElements_take hdims hget (he _ hmem) s).mp h
    exact (ih (by omega) hm).step hprod hroom hget (by omega) (hty _ hmem) (he _ hmem) hm hcode

/-- Where the literal fits, its elements are read as they were evaluated. -/
theorem initialises_of_room (host : Host) {exprs : List (Expr α)} {shape : List ℕ}
    (hshape : HasShape shape exprs) (hlt : ∀ d ∈ shape, d < 2^32) (hprod : shape.prod ≤ 2^32)
    (hroom : Room elem shape.prod) {values : List Element} (hlen : values.length = shape.prod)
    (hty : ∀ e ∈ values, e.ty = elem) (he : ∀ e ∈ values, Evaluates s.heap shape.prod e) :
    Initialises host exprs elem shape.reverse values s := by
  have hrev : shape.reverse.prod = shape.prod := List.prod_reverse shape
  have hdims : 0 ∉ shape.reverse := fun h0 => absurd (hshape.pos 0 (by simpa using h0)) (by simp)
  have hbound : shape.reverse.prod < 2^64 := by omega
  constructor
  · intro f hf
    obtain ⟨j,e,m,hj,hm,hstop⟩ :=
      storeElements_stops hdims he ((arrayLiteralCode_eq_error hbound).mp hf)
    exact ⟨j,e,_,m,hj,(arrayLiteralCode_eq_ok hbound).mpr ⟨rfl,hm⟩,hstop⟩
  · intro v t hrun is his j hj
    obtain ⟨rfl,hloop⟩ := (arrayLiteralCode_eq_ok hbound).mp hrun
    obtain ⟨hin,rfl⟩ := hshape.leafIndex_iff.mp hj
    have hkept : Kept elem shape.reverse s.heap values (allocated shape.reverse s) shape.prod t := by
      refine kept_run hdims (by omega) (by rwa [hrev]) (by omega) hty (by rwa [hrev])
        (allocated_heap (by omega) s).ge hrev.ge ?_
      rwa [List.take_of_length_le hlen.le]
    have hindex := flatIndex_lt hin
    obtain ⟨e,m,w,m',hget,hm,hcode,hreads⟩ := hkept.evaluated _ hindex
    refine ⟨e,_,m,w,m',_,hget,(arrayLiteralCode_eq_ok hbound).mpr ⟨rfl,hm⟩,hcode,
      subscripts_eq host (fun n hn => ?_) (.inl rfl) his (by rwa [List.reverse_reverse]) _ _,?_⟩
    · rw [List.mem_reverse] at hn
      exact ⟨hshape.pos n hn,hlt n hn⟩
    · rw [gep_flatIndex elem (by rwa [List.reverse_reverse]),List.reverse_reverse]
      refine List.ext_getElem (by simp [length_content]) fun c hc hc' => ?_
      simpa [Nat.add_assoc] using hreads c hc'

/-! ### The elements that are lost -/

/-- A stack with `n` cells of one value before cells of another one. -/
def Contrast (n : ℕ) (s : State) : Prop :=
  ∀ x, s.mem (.stack x) = if x < n then .int 1 else .int 2

def contrast (n : ℕ) : State :=
  ⟨fun q => match q with
    | .stack x => if x < n then .int 1 else .int 2
    | .heap _ => .int 0,0,0,fun _ => Word.zero⟩

/-- A value of the first cells, and one of the others. -/
def oneValue (elem : Ty) : Value := if elem.isFixedReferenceType then .ptr (.stack 0) else .int 1

def otherValue (elem : Ty) : Value :=
  if elem.isFixedReferenceType then .ptr (.stack (width elem)) else .int 2

/-- The state with other contents of what is not allocated. -/
def overwritten (s : State) : State :=
  { s with mem := fun q => match q with
    | .heap x => if x < s.heap then s.mem q else .int 2
    | .stack _ => s.mem q }

/-- It writes to the cells behind the heap pointer. -/
def otherCode (elem : Ty) : Code Value := fun s => .ok (otherValue elem,overwritten s)

/-- Elements of the given types: the one of number `k` has the first value. -/
def contrasting (elem : Ty) (k : ℕ) (tys : List Ty) : List Element :=
  tys.mapIdx fun i ty =>
    ⟨ty,if i = k then pure (oneValue elem) else otherCode elem⟩

/-- A step that runs on, and leaves no cell with the first value that had not got it. -/
structure Dull (n : ℕ) (e : Element) : Prop where
  content : ∀ s v t, e.code s = .ok (v,t) → Contrast n s → ∀ c ∈ content e.ty v t, c ≠ .int 1
  keeps : ∀ s v t, e.code s = .ok (v,t) → ∀ q, s.mem q ≠ .int 1 → t.mem q ≠ .int 1

structure Steady (n : ℕ) (e : Element) : Prop where
  runs : ∀ s, ∃ v t, e.code s = .ok (v,t) ∧ t.heap = s.heap ∧ (Contrast n s → Contrast n t)
  evaluates : ∀ p n, Evaluates p n e

variable {k j x w : ℕ}

theorem Contrast.setCells {s : State} (h : Contrast w s) (a : ℕ) (vs : List Value) :
    Contrast w (setCells s a vs) := h

theorem storeElements_steady (hdims : 0 ∉ dims) {values : List Element}
    (he : ∀ e ∈ values, Steady w e) (hs : Contrast w s) (i : ℕ) :
    ∃ t, storeElements elem dims (.heap p) i values s = .ok ((),t) ∧ t.heap = s.heap ∧
      Contrast w t := by
  induction values generalizing i s with
  | nil => exact ⟨s,rfl,rfl,hs⟩
  | cons e values ih =>
    rw [List.forall_mem_cons] at he
    obtain ⟨v,m,hcode,hheap,hm⟩ := he.1.runs s
    have hstep : storeElement elem dims (.heap p) i e s = _ :=
      storeElement_apply hdims (he.1.evaluates p 0) p s
    rw [hcode] at hstep
    obtain ⟨t,ht,hht,hct⟩ := ih he.2 ((hm hs).setCells (p+offset elem dims i) (content e.ty v m)) (i+1)
    exact ⟨t,by rw [storeElements,bind_ok hstep]; exact ht,hht.trans hheap,hct⟩

theorem setCells_ne {a : ℕ} {vs : List Value} (hvs : ∀ c ∈ vs, c ≠ .int 1)
    (h : s.mem (.heap x) ≠ .int 1) : (setCells s a vs).mem (.heap x) ≠ .int 1 := by
  by_cases hin : a ≤ x ∧ x < a+vs.length
  · obtain ⟨c,rfl⟩ := Nat.exists_eq_add_of_le hin.1
    rw [setCells_reads s a vs c (by omega)]
    exact hvs _ (List.getElem_mem _)
  · rw [setCells_outside s (by omega)]
    exact h

/-- Dull steps do not bring the first value back. -/
theorem storeElements_dull (hdims : 0 ∉ dims) {values : List Element}
    (he : ∀ e ∈ values, Steady w e) (hd : ∀ e ∈ values, Dull w e) (hs : Contrast w s)
    (h : s.mem (.heap x) ≠ .int 1)
    (hrun : storeElements elem dims (.heap p) i values s = .ok ((),t)) :
    t.mem (.heap x) ≠ .int 1 := by
  induction values generalizing i s with
  | nil => cases hrun; exact h
  | cons e values ih =>
    rw [List.forall_mem_cons] at he hd
    obtain ⟨v,m,hcode,-,hm⟩ := he.1.runs s
    have hstep : storeElement elem dims (.heap p) i e s = _ :=
      storeElement_apply hdims (he.1.evaluates p 0) p s
    rw [hcode] at hstep
    rw [storeElements,bind_ok hstep] at hrun
    exact ih he.2 hd.2 ((hm hs).setCells _ _)
      (setCells_ne (hd.1.content s v m hcode hs) (hd.1.keeps s v m hcode _ h)) hrun

/-- The types an element of the literal can have. -/
def Typed (elem ty : Ty) : Prop := ty = elem ∨ elem.isFixedReferenceType = true ∧ ty = .ref elem

theorem oneValue_pointer (h : elem.isFixedReferenceType = true) : oneValue elem = .ptr (.stack 0) :=
  if_pos h

theorem otherValue_pointer (h : elem.isFixedReferenceType = true) :
    otherValue elem = .ptr (.stack (width elem)) := if_pos h

theorem Typed.pointer {ty : Ty} (h : Typed elem ty) (hty : ty.isFixedReferenceType = true) :
    elem.isFixedReferenceType = true := by
  rcases h with rfl | ⟨helem,rfl⟩
  · exact hty
  · exact helem

theorem overwritten_contrast (h : Contrast w s) : Contrast w (overwritten s) := h

theorem overwritten_eq (s : State) (q : Pointer) :
    (overwritten s).mem q = s.mem q ∨ (overwritten s).mem q = .int 2 := by
  cases q with
  | stack x => exact .inl rfl
  | heap x =>
    by_cases h : x < s.heap <;> simp [overwritten,h]

theorem steady_one {ty : Ty} (hty : Typed elem ty) : Steady w ⟨ty,pure (oneValue elem)⟩ := by
  refine ⟨fun s => ⟨_,s,rfl,rfl,id⟩,fun p n => ⟨?_,?_,?_⟩⟩
  · intro s v t h hfixed
    cases h
    exact ⟨_,oneValue_pointer (hty.pointer hfixed)⟩
  · intro s v t h
    cases h
    exact le_refl _
  · intro s v t h _ i _
    cases h
    rfl

theorem steady_other {ty : Ty} (hty : Typed elem ty) :
    Steady w ⟨ty,otherCode elem⟩ := by
  refine ⟨fun s => ⟨_,_,rfl,rfl,overwritten_contrast⟩,fun p n => ⟨?_,?_,?_⟩⟩
  · intro s v t h hfixed
    cases h
    exact ⟨_,otherValue_pointer (hty.pointer hfixed)⟩
  · intro s v t h
    cases h
    exact le_refl _
  · intro s v t h hheap i hi
    cases h
    exact if_pos (by omega)

theorem dull_other {ty : Ty} (hty : Typed elem ty) :
    Dull (width elem) ⟨ty,otherCode elem⟩ := by
  refine ⟨fun s v t h hs c hc => ?_,fun s v t h q hq => ?_⟩
  · cases h
    have hone : Value.int (2 : Felt) ≠ .int 1 := by decide
    rcases hty with rfl | ⟨helem,rfl⟩
    · by_cases hfixed : ty.isFixedReferenceType = true
      · rw [content,if_pos hfixed,otherValue_pointer hfixed] at hc
        obtain ⟨i,-,rfl⟩ := List.mem_map.mp hc
        have hcell := overwritten_contrast hs (width ty+i)
        rw [if_neg (by omega)] at hcell
        rw [Value.pointer_ptr,Pointer.add_stack,hcell]
        exact hone
      · rw [content,if_neg hfixed,otherValue,if_neg hfixed] at hc
        rw [List.mem_singleton.mp hc]
        exact hone
    · rw [content,if_neg (by simp [Ty.isFixedReferenceType]),otherValue_pointer helem] at hc
      rw [List.mem_singleton.mp hc]
      simp
  · cases h
    rcases overwritten_eq s q with heq | heq
    · rwa [heq]
    · rw [heq]
      decide

/-- A reference is stored as it is. -/
theorem dull_ref (h : elem.isFixedReferenceType = true) :
    Dull (width elem) ⟨.ref elem,pure (oneValue elem)⟩ := by
  refine ⟨fun s v t hrun _ c hc => ?_,fun s v t hrun q hq => ?_⟩
  · cases hrun
    rw [content,if_neg (by simp [Ty.isFixedReferenceType]),oneValue_pointer h] at hc
    rw [List.mem_singleton.mp hc]
    simp
  · cases hrun
    exact hq

theorem content_oneValue (h : Contrast (width elem) s) :
    content elem (oneValue elem) s = List.replicate (width elem) (.int 1) := by
  unfold content oneValue
  by_cases hfixed : elem.isFixedReferenceType = true
  · have hw : width elem = elem.llvmSize := if_pos hfixed
    rw [if_pos hfixed,if_pos hfixed,hw]
    refine List.ext_getElem (by simp) fun c hc _ => ?_
    have hcell := h c
    rw [if_pos (by rw [hw]; simpa using hc)] at hcell
    simp [hcell]
  · have hw : width elem = 1 := if_neg hfixed
    rw [if_neg hfixed,if_neg hfixed,hw]
    rfl

theorem contrasting_getElem? (elem : Ty) (k : ℕ) (tys : List Ty) (i : ℕ) :
    (contrasting elem k tys)[i]? = tys[i]?.map fun ty =>
      ⟨ty,if i = k then pure (oneValue elem) else otherCode elem⟩ := by
  simp [contrasting]

theorem contrasting_other {tys : List Ty} {i : ℕ} (h : i ≠ k)
    (he : (contrasting elem k tys)[i]? = some e) :
    ∃ ty, tys[i]? = some ty ∧ e = ⟨ty,otherCode elem⟩ := by
  rw [contrasting_getElem?,Option.map_eq_some_iff] at he
  obtain ⟨ty,hty,rfl⟩ := he
  exact ⟨ty,hty,by rw [if_neg h]⟩

theorem contrasting_self {tys : List Ty} (he : (contrasting elem k tys)[k]? = some e) :
    ∃ ty, tys[k]? = some ty ∧ e = ⟨ty,pure (oneValue elem)⟩ := by
  rw [contrasting_getElem?,Option.map_eq_some_iff] at he
  obtain ⟨ty,hty,rfl⟩ := he
  exact ⟨ty,hty,by rw [if_pos rfl]⟩

theorem contrasting_ty (elem : Ty) (k : ℕ) (tys : List Ty) :
    (contrasting elem k tys).map Element.ty = tys := by
  refine List.ext_getElem? fun i => ?_
  rw [List.getElem?_map,contrasting_getElem?,Option.map_map]
  cases tys[i]? <;> rfl

theorem contrasting_steady {tys : List Ty} (htys : ∀ ty ∈ tys, Typed elem ty) :
    ∀ e ∈ contrasting elem k tys, Steady w e := by
  intro e he
  obtain ⟨i,hi⟩ := List.getElem?_of_mem he
  by_cases hk : i = k
  · subst hk
    obtain ⟨ty,hty,rfl⟩ := contrasting_self hi
    exact steady_one (htys ty (List.mem_of_getElem? hty))
  · obtain ⟨ty,hty,rfl⟩ := contrasting_other hk hi
    exact steady_other (htys ty (List.mem_of_getElem? hty))

/-- Behind a number that is not less than `k` all elements are dull. -/
theorem contrasting_dull {tys : List Ty} (htys : ∀ ty ∈ tys, Typed elem ty) (h : k ≤ j) :
    ∀ e ∈ (contrasting elem k tys).drop (j+1), Dull (width elem) e := by
  intro e he
  obtain ⟨i,hi⟩ := List.getElem?_of_mem he
  rw [List.getElem?_drop] at hi
  obtain ⟨ty,hty,rfl⟩ := contrasting_other (by omega) hi
  exact dull_other (htys ty (List.mem_of_getElem? hty))

/-- The state a run from the contrast ends in has lost a cell, when a step has and all steps behind
it are dull. -/
theorem lost_run (hdims : 0 ∉ dims) {tys : List Ty} (htys : ∀ ty ∈ tys, Typed elem ty)
    (hk : k ≤ j) (hj : j < tys.length)
    (hspoil : ∀ e m v m', (contrasting elem k tys)[j]? = some e → Contrast (width elem) m →
      m.heap = s.heap → e.code m = .ok (v,m') →
      (setCells m' (p+offset elem dims j) (content e.ty v m')).mem (.heap x) ≠ .int 1)
    (hs : Contrast (width elem) s)
    (hrun : storeElements elem dims (.heap p) 0 (contrasting elem k tys) s = .ok ((),t)) :
    t.mem (.heap x) ≠ .int 1 := by
  have hsteady := contrasting_steady (w := width elem) (k := k) htys
  obtain ⟨e,he⟩ : ∃ e, (contrasting elem k tys)[j]? = some e :=
    ⟨_,List.getElem?_eq_getElem (by simpa [contrasting] using hj)⟩
  have htake : ∀ e ∈ (contrasting elem k tys).take j, Steady (width elem) e :=
    fun e he => hsteady e (List.mem_of_mem_take he)
  obtain ⟨m,hm,hheap,hcm⟩ : ∃ m, storeElements elem dims (.heap p) 0 _ s = .ok ((),m) ∧ _ ∧ _ :=
    storeElements_steady hdims htake hs 0
  have hev := hsteady e (List.mem_of_getElem? he)
  obtain ⟨v,m',hcode,-,hcm'⟩ := hev.runs m
  have hnext := (storeElements_take hdims he (hev.evaluates p 0) s).mpr ⟨m,v,m',hm,hcode,rfl⟩
  rw [← List.take_append_drop (j+1) (contrasting elem k tys),storeElements_append,bind_ok hnext] at hrun
  exact storeElements_dull hdims (fun e he => hsteady e (List.mem_of_mem_drop he))
    (contrasting_dull htys hk) ((hcm' hcm).setCells _ _) (hspoil e m v m' he hcm hheap hcode) hrun

theorem felt_index {d i : ℕ} (hd : d < 2^32) (hi : i < d) :
    (Value.const (BitVec.ofNat 64 i)).felt.val = i := by
  rw [Value.felt_const,BitVec.toNat_ofNat,Nat.mod_eq_of_lt (by omega),
    Felt.val_natCast_of_lt (by omega)]

theorem map_felt_index {shape is : List ℕ} (h : List.Forall₂ (· < ·) is shape)
    (hlt : ∀ d ∈ shape, d < 2^32) :
    (is.map fun i => Value.const (BitVec.ofNat 64 i)).map (fun v => v.felt.val) = is := by
  induction h with
  | nil => rfl
  | cons hi _ ih =>
    rw [List.forall_mem_cons] at hlt
    simp only [List.map_cons,felt_index hlt.1 hi,ih hlt.2]

/-- The literal does not have all its elements, when a cell of element `k` is lost. -/
theorem not_initialises (host : Host) {exprs : List (Expr α)} {shape : List ℕ}
    (hshape : HasShape shape exprs) (hlt : ∀ d ∈ shape, d < 2^32) {tys : List Ty}
    (hlen : tys.length = shape.prod) (htys : ∀ ty ∈ tys, Typed elem ty) (hk : k ≤ j)
    (hj : j < tys.length) {c : ℕ} (hc : c < width elem) (hx : x = k*elem.llvmFieldSize+c)
    (hspoil : ∀ e m v m', (contrasting elem k tys)[j]? = some e → Contrast (width elem) m →
      m.heap = (allocated shape.reverse (contrast (width elem))).heap → e.code m = .ok (v,m') →
      (setCells m' (0+offset elem shape.reverse j) (content e.ty v m')).mem (.heap x) ≠ .int 1) :
    ¬ Initialises host exprs elem shape.reverse (contrasting elem k tys) (contrast (width elem)) := by
  intro h
  by_cases hpanic : 2^64 ≤ shape.reverse.prod
  · obtain ⟨i,e,v,m,-,hm,-⟩ := h.stops .panic (arrayLiteralCode_panic hpanic _ _)
    rw [arrayLiteralCode_panic hpanic] at hm
    cases hm
  · have hbound := not_le.mp hpanic
    have hdims : 0 ∉ shape.reverse := fun h0 => absurd (hshape.pos 0 (by simpa using h0)) (by simp)
    have hsteady := contrasting_steady (w := width elem) (k := k) htys
    have hs : Contrast (width elem) (allocated shape.reverse (contrast (width elem))) := fun x => rfl
    obtain ⟨t,hrun,-,-⟩ := storeElements_steady hdims hsteady hs 0
    have hlost := lost_run hdims htys hk hj hspoil hs hrun
    obtain ⟨is,his,hflat⟩ := exists_flatIndex (show k < shape.prod by omega)
    obtain ⟨e,a,m,v,m',q,he,hm,hcode,hq,hreads⟩ :=
      h.reads _ t ((arrayLiteralCode_eq_ok hbound).mpr ⟨rfl,hrun⟩)
        (is.map fun i => .const (BitVec.ofNat 64 i)) (by simp [Value.isPointer]) k
        (by rw [map_felt_index his hlt]; exact hshape.leafIndex_iff.mpr ⟨his,hflat.symm⟩)
    have hplace : subscripts host (.array elem (shape.reverse.map .fixed)) _
        (is.map fun i => .const (BitVec.ofNat 64 i)) t = _ := subscripts_eq host
      (fun n hn => ⟨hshape.pos n (by simpa using hn),hlt n (by simpa using hn)⟩) (.inl rfl)
      (by simp [Value.isPointer]) (by rwa [map_felt_index his hlt,List.reverse_reverse])
      (.heap (contrast (width elem)).heap) t
    rw [map_felt_index his hlt,gep_flatIndex elem (by rwa [List.reverse_reverse]),
      List.reverse_reverse,hflat] at hplace
    obtain rfl : Pointer.heap (k*elem.llvmFieldSize) = q := by
      have := hplace.symm.trans hq
      simpa [contrast] using this
    have hprefix := ((arrayLiteralCode_eq_ok hbound).mp hm).2
    obtain ⟨m₀,hm₀,-,hcm⟩ := storeElements_steady hdims
      (fun e he => hsteady e (List.mem_of_mem_take (i := k) he)) hs 0
    obtain rfl : m₀ = m := by
      have := hm₀.symm.trans hprefix
      simpa using this
    obtain ⟨ty,-,rfl⟩ := contrasting_self he
    cases hcode
    rw [content_oneValue hcm] at hreads
    have hcell := congrArg (·[c]?) hreads
    simp [hc] at hcell
    exact hlost (by rw [hx]; exact hcell)

theorem Typed.width_pos {ty : Ty} (h : Typed elem ty) (hw : 0 < width elem) : 0 < width ty := by
  rcases h with rfl | ⟨-,rfl⟩
  · exact hw
  · exact Nat.one_pos

/-- A cell is lost to an element that is stored there and has not got the first value. -/
theorem spoiled_by_store (hd : Dull (width elem) e) (hty : Typed elem e.ty) (hw : 0 < width elem)
    (hx : offset elem dims j = x) {v : Value} {m m' : State} (hm : Contrast (width elem) m)
    (hcode : e.code m = .ok (v,m')) :
    (setCells m' (0+offset elem dims j) (content e.ty v m')).mem (.heap x) ≠ .int 1 := by
  have hpos : 0 < (content e.ty v m').length := by
    rw [length_content]
    exact hty.width_pos hw
  have hcell := setCells_reads m' (0+offset elem dims j) (content e.ty v m') 0 hpos
  rw [Nat.add_zero,Nat.zero_add,hx] at hcell
  rw [Nat.zero_add,hx,hcell]
  exact hd.content m v m' hcode hm _ (List.getElem_mem hpos)

section Lost

variable (host : Host) {exprs : List (Expr α)} {shape : List ℕ} (hshape : HasShape shape exprs)
  (hlt : ∀ d ∈ shape, d < 2^32) {tys : List Ty} (hlen : tys.length = shape.prod)
  (htys : ∀ ty ∈ tys, Typed elem ty) (hw : 0 < width elem)

include hshape hlt hlen htys hw

theorem lost_to_other (hkj : k < j) (hj : j < tys.length) {c : ℕ} (hc : c < width elem)
    (hoff : offset elem shape.reverse j = k*elem.llvmFieldSize+c) :
    ¬ Initialises host exprs elem shape.reverse (contrasting elem k tys) (contrast (width elem)) := by
  refine not_initialises host hshape hlt hlen htys hkj.le hj hc rfl fun e m v m' he hm _ hcode => ?_
  obtain ⟨ty,hty,rfl⟩ := contrasting_other (by omega) he
  have htyped := htys ty (List.mem_of_getElem? hty)
  exact spoiled_by_store (dull_other htyped) htyped hw hoff hm hcode

/-- The code counts the elements as a `u32`. -/
theorem lost_to_wrap (h : 2^32 < shape.prod) :
    ¬ Initialises host exprs elem shape.reverse (contrasting elem 0 tys) (contrast (width elem)) :=
  lost_to_other host hshape hlt hlen htys hw (j := 2^32) (by omega) (by omega) hw
    (by simp [offset])

theorem lost_to_overlap (hprod : shape.prod ≤ 2^32) (h : 1 < shape.prod)
    (hover : elem.llvmFieldSize < width elem) :
    ¬ Initialises host exprs elem shape.reverse (contrasting elem 0 tys) (contrast (width elem)) := by
  have hrev : shape.reverse.prod = shape.prod := List.prod_reverse shape
  refine lost_to_other host hshape hlt hlen htys hw Nat.one_pos (by omega) hover ?_
  rw [offset_of_lt (by omega) (by omega)]
  ring

/-- The last element but one ends behind the block, where the code of the last one may write. -/
theorem lost_to_allocation (hprod : shape.prod ≤ 2^32) (h : 1 < shape.prod)
    (hover : shape.prod < (shape.prod-2)*elem.llvmFieldSize + width elem) :
    ¬ Initialises host exprs elem shape.reverse (contrasting elem (shape.prod-2) tys)
      (contrast (width elem)) := by
  have hrev : shape.reverse.prod = shape.prod := List.prod_reverse shape
  refine not_initialises host hshape hlt hlen htys (j := shape.prod-1) (c := width elem-1)
    (by omega) (by omega) (by omega) rfl fun e m v m' he hm hheap hcode => ?_
  obtain ⟨ty,hty,rfl⟩ := contrasting_other (by omega) he
  have hd := dull_other (htys ty (List.mem_of_getElem? hty))
  refine setCells_ne (hd.content m v m' hcode hm) ?_
  cases hcode
  have hbehind : ¬ (shape.prod-2)*elem.llvmFieldSize+(width elem-1) < m.heap := by
    rw [hheap,allocated_heap (by omega)]
    simp only [contrast]
    omega
  simp only [overwritten,if_neg hbehind]
  decide

theorem lost_to_reference (hprod : shape.prod ≤ 2^32) (hk : tys[k]? = some (.ref elem))
    (helem : elem.isFixedReferenceType = true) :
    ¬ Initialises host exprs elem shape.reverse (contrasting elem k tys) (contrast (width elem)) := by
  have hrev : shape.reverse.prod = shape.prod := List.prod_reverse shape
  obtain ⟨hklt,-⟩ := List.getElem?_eq_some_iff.mp hk
  refine not_initialises host hshape hlt hlen htys le_rfl hklt hw rfl fun e m v m' he hm _ hcode => ?_
  obtain ⟨ty,hty,rfl⟩ := contrasting_self he
  obtain rfl := Option.some.inj (hk.symm.trans hty)
  refine spoiled_by_store (dull_ref helem) (.inr ⟨helem,rfl⟩) hw ?_ hm hcode
  rw [offset_of_lt (by omega) (by omega),Nat.add_zero]

/-- A literal whose elements are all kept, whatever their codes are, fits. -/
theorem room_of_initialises (h : ∀ values : List Element, values.map Element.ty = tys →
      ∀ s : State, (∀ e ∈ values, Evaluates s.heap shape.prod e) →
        Initialises host exprs elem shape.reverse values s) :
    shape.prod ≤ 2^32 ∧ (∀ ty ∈ tys, ty = elem) ∧ Room elem shape.prod := by
  have hall : ∀ k, Initialises host exprs elem shape.reverse (contrasting elem k tys)
      (contrast (width elem)) := fun k => h _ (contrasting_ty elem k tys) _ fun e he =>
    (contrasting_steady (w := 0) htys e he).evaluates _ _
  have hprod : shape.prod ≤ 2^32 := by
    by_contra hwrap
    exact lost_to_wrap host hshape hlt hlen htys hw (by omega) (hall 0)
  refine ⟨hprod,fun ty hty => ?_,?_⟩
  · rcases htys ty hty with rfl | ⟨helem,rfl⟩
    · rfl
    · obtain ⟨k,hk⟩ := List.getElem?_of_mem hty
      exact absurd (hall k) (lost_to_reference host hshape hlt hlen htys hw hprod hk helem)
  · by_cases hone : shape.prod = 1
    · exact .inl hone
    · have hpos : 0 < shape.prod := List.prod_pos hshape.pos
      refine .inr ⟨?_,?_⟩
      · by_contra hover
        exact lost_to_overlap host hshape hlt hlen htys hw hprod (by omega) (by omega) (hall 0)
      · by_contra hover
        exact lost_to_allocation host hshape hlt hlen htys hw hprod (by omega) (by omega) (hall _)

end Lost

/-! ### Literals -/

theorem map_mod_of_lt {shape : List ℕ} (h : ∀ d ∈ shape, d < 2^32) :
    shape.map (· % 2^32) = shape := by
  rw [List.map_congr_left fun d hd => Nat.mod_eq_of_lt (h d hd),List.map_id']

theorem prod_map_mod_le (shape : List ℕ) : (shape.map (· % 2^32)).prod ≤ shape.prod := by
  induction shape with
  | nil => simp
  | cons d shape ih =>
    rw [List.map_cons,List.prod_cons,List.prod_cons]
    exact Nat.mul_le_mul (Nat.mod_le d _) ih

/-- The truncated dimensions only count the leaves when none is truncated. -/
theorem lt_of_prod_map_mod {shape : List ℕ} (hpos : ∀ d ∈ shape, 0 < d)
    (h : (shape.map (· % 2^32)).prod = shape.prod) : ∀ d ∈ shape, d < 2^32 := by
  induction shape with
  | nil => simp
  | cons d shape ih =>
    rw [List.forall_mem_cons] at hpos ⊢
    rw [List.map_cons,List.prod_cons,List.prod_cons] at h
    have hrest : 0 < shape.prod := List.prod_pos hpos.2
    have hd : d < 2^32 := by
      by_contra hge
      have hlt : d % 2^32 < d := (Nat.mod_lt d (by omega)).trans_le (not_lt.mp hge)
      have hless := calc d % 2^32 * (shape.map (· % 2^32)).prod
          ≤ d % 2^32 * shape.prod := Nat.mul_le_mul_left _ (prod_map_mod_le shape)
        _ < d * shape.prod := Nat.mul_lt_mul_of_pos_right hlt hrest
      omega
    rw [Nat.mod_eq_of_lt hd] at h
    exact ⟨hd,ih hpos.2 (Nat.eq_of_mul_eq_mul_left hpos.1 h)⟩

variable {r : Resolver α β} {loc : Loc} {exprs : List (Expr α)} {resolveTo : ResolveTo}

theorem accepted_iff (h : Resolves r exprs resolveTo) :
    (∃ lit, arrayLiteral r loc exprs resolveTo = .ok lit) ↔ Uniform exprs ∧ leaves exprs ≠ [] := by
  obtain ⟨res,hres⟩ := h.resolves
  constructor
  · rintro ⟨lit,hlit⟩
    obtain ⟨huniform,elem,values,hvalues,-⟩ := arrayLiteral_eq_ok.mp hlit
    refine ⟨huniform,fun hnil => ?_⟩
    rw [hnil] at hvalues
    cases hvalues
  · rintro ⟨huniform,hne⟩
    obtain ⟨⟨elem,values⟩,rfl⟩ : ∃ p, res = some p := by
      obtain ⟨e,es,heq⟩ := List.exists_cons_of_ne_nil hne
      rw [heq] at hres
      obtain ⟨first,-,hres⟩ := except_bind_eq_ok.mp hres
      obtain ⟨others,-,hres⟩ := except_bind_eq_ok.mp hres
      exact ⟨_,(Except.ok.inj hres).symm⟩
    exact ⟨_,arrayLiteral_eq_ok.mpr ⟨huniform,elem,values,hres,rfl⟩⟩

theorem typed_of_resolved {n : ℕ} {values : List β} (h : Resolved r n elem values) :
    ∀ ty ∈ values.map r.ty, Typed elem ty := by
  intro ty hty
  obtain ⟨b,hb,rfl⟩ := List.mem_map.mp hty
  exact h.ty b hb

theorem Fits.correct (host : Host) (h : Resolves r exprs resolveTo) (hfits : Fits r exprs resolveTo) :
    Correct host r loc exprs resolveTo := by
  have haccepted : (∃ lit, arrayLiteral r loc exprs resolveTo = .ok lit) ↔ Rectangular exprs := by
    rw [accepted_iff h]
    refine ⟨fun hu => hfits.rectangular hu.1 hu.2,?_⟩
    rintro ⟨shape,hshape⟩
    exact ⟨hshape.uniform,hshape.leaves_ne_nil⟩
  have hdims : ∀ shape, HasShape shape exprs → firstDims exprs = shape.reverse := fun shape hshape => by
    rw [hshape.firstDims_eq,map_mod_of_lt (hfits.levels shape hshape)]
  refine ⟨haccepted,fun lit hlit => ?_,?_⟩
  · obtain ⟨shape,hshape⟩ := haccepted.mp ⟨lit,hlit⟩
    obtain ⟨-,elem,values,-,rfl⟩ := arrayLiteral_eq_ok.mp hlit
    rw [hdims shape hshape,List.prod_reverse,hshape.length_leaves]
  · intro lit elem dims hlit hty values htys s hev
    obtain ⟨shape,hshape⟩ := haccepted.mp ⟨lit,hlit⟩
    obtain ⟨-,elem,resolved,hresolved,rfl⟩ := arrayLiteral_eq_ok.mp hlit
    cases hty
    obtain ⟨hbyValue,hroom⟩ := hfits.values ⟨shape,hshape⟩ elem resolved hresolved
    have hleaves := hfits.leaves ⟨shape,hshape⟩
    rw [hshape.length_leaves] at hroom hev hleaves
    have hlen : values.length = shape.prod := by
      rw [← hshape.length_leaves,← (resolveElements_resolved hresolved).length]
      simpa using congrArg List.length htys
    have hsame : ∀ e ∈ values, e.ty = elem := by
      intro e he
      have hmem : e.ty ∈ resolved.map r.ty := htys ▸ List.mem_map_of_mem he
      obtain ⟨b,hb,hbe⟩ := List.mem_map.mp hmem
      exact hbe ▸ hbyValue b hb
    simp only [hdims shape hshape]
    exact initialises_of_room host hshape (hfits.levels shape hshape) hleaves hroom hlen hsame hev

theorem Correct.fits {host : Host} (h : Resolves r exprs resolveTo)
    (hc : Correct host r loc exprs resolveTo) : Fits r exprs resolveTo := by
  have haccept : ∀ shape, HasShape shape exprs → ∃ elem values,
      resolveElements r (elementTo resolveTo) (ArrayLiteral.leaves exprs) = .ok (some (elem,values)) ∧
      arrayLiteral r loc exprs resolveTo = .ok
        ⟨loc,.array elem ((firstDims exprs).map .fixed),firstDims exprs,values⟩ := by
    intro shape hshape
    obtain ⟨lit,hlit⟩ := hc.accepted.mpr ⟨shape,hshape⟩
    obtain ⟨-,elem,values,hvalues,rfl⟩ := arrayLiteral_eq_ok.mp hlit
    exact ⟨elem,values,hvalues,hlit⟩
  have hlevels : ∀ shape, HasShape shape exprs → ∀ d ∈ shape, d < 2^32 := by
    intro shape hshape
    obtain ⟨elem,values,-,hlit⟩ := haccept shape hshape
    have hprod := hc.dimensions _ hlit
    simp only [hshape.firstDims_eq,List.prod_reverse,hshape.length_leaves] at hprod
    exact lt_of_prod_map_mod hshape.pos hprod
  have hroom : ∀ shape, HasShape shape exprs → ∀ elem values,
      resolveElements r (elementTo resolveTo) (ArrayLiteral.leaves exprs) =
        .ok (some (elem,values)) →
      shape.prod ≤ 2^32 ∧ (∀ ty ∈ values.map r.ty, ty = elem) ∧ Room elem shape.prod := by
    intro shape hshape elem values hvalues
    have hlit : arrayLiteral r loc exprs resolveTo =
        .ok ⟨loc,.array elem ((firstDims exprs).map .fixed),firstDims exprs,values⟩ :=
      arrayLiteral_eq_ok.mpr ⟨hshape.uniform,elem,values,hvalues,rfl⟩
    have hinit := hc.initialised _ elem _ hlit rfl
    have hresolved := resolveElements_resolved hvalues
    rw [hshape.length_leaves] at hinit hresolved
    simp only [hshape.firstDims_eq,map_mod_of_lt (hlevels shape hshape)] at hinit
    exact room_of_initialises host hshape (hlevels shape hshape)
      (by rw [List.length_map,hresolved.length]) (typed_of_resolved hresolved)
      (h.width elem values hvalues) hinit
  refine ⟨fun huniform hne => hc.accepted.mp ((accepted_iff h).mpr ⟨huniform,hne⟩),hlevels,?_,?_⟩
  · rintro ⟨shape,hshape⟩
    obtain ⟨elem,values,hvalues,-⟩ := haccept shape hshape
    rw [hshape.length_leaves]
    exact (hroom shape hshape elem values hvalues).1
  · rintro ⟨shape,hshape⟩ elem values hvalues
    obtain ⟨-,hty,hr⟩ := hroom shape hshape elem values hvalues
    rw [hshape.length_leaves]
    exact ⟨fun b hb => hty _ (List.mem_map_of_mem hb),hr⟩

/-- An array literal is right exactly when it fits. -/
theorem arrayLiteral_correct_iff (host : Host) (h : Resolves r exprs resolveTo) :
    Correct host r loc exprs resolveTo ↔ Fits r exprs resolveTo :=
  ⟨fun hc => hc.fits h,fun hfits => hfits.correct host h⟩

/-- A resolver of number literals, which are of type `u32`. -/
def numbers : Resolver ℕ ℕ where
  expression e _ := match e with
    | .other _ n => .ok n
    | .arrayLiteral loc _ => .error ⟨loc,"array literal where a number is expected"⟩
  loc _ := ⟨0,0,0⟩
  ty _ := .uint32
  cast loc n elem := match elem with
    | .uint32 => .ok n
    | _ => .error ⟨loc,"not a number type"⟩
  cast_ty h := by
    split at h
    · exact .inl rfl
    · cases h

def number (n : ℕ) : Expr ℕ := .other ⟨0,0,0⟩ n

def array (exprs : List (Expr ℕ)) : Expr ℕ := .arrayLiteral ⟨0,0,0⟩ exprs

theorem numbers_resolves {exprs : List (Expr ℕ)} {values : List ℕ}
    (h : resolveElements numbers (elementTo .unknown) (leaves exprs) = .ok (some (.uint32,values))) :
    Resolves numbers exprs .unknown := by
  refine ⟨⟨_,h⟩,fun elem values' h' => ?_⟩
  cases h.symm.trans h'
  exact Nat.one_pos

/-- No prophet is asked. -/
def silentHost : Host := ⟨fun _ => Word.zero,fun _ => 0,fun _ _ => 0,fun _ _ => 0,fun _ => 0,fun _ => 0⟩

theorem arrayLiteral_correct_iff_square : Correct silentHost numbers ⟨0,0,0⟩
      [array [number 1,number 2],array [number 3,number 4]] .unknown ↔
    Fits numbers [array [number 1,number 2],array [number 3,number 4]] .unknown :=
  arrayLiteral_correct_iff silentHost (numbers_resolves rfl)

/-- `[[[1],[2]],[[3,4],[5,6]]]`: the literals of the second level agree, the ones below do not. -/
def cousins : List (Expr ℕ) :=
  [array [array [number 1],array [number 2]],array [array [number 3,number 4],array [number 5,number 6]]]

theorem cousins_not_rectangular : ¬ Rectangular cousins := by
  rintro ⟨shape,hshape⟩
  generalize hes : cousins = es at hshape
  cases hshape with
  | flat hne h =>
    subst hes
    exact absurd (h _ List.mem_cons_self) (by simp [array,Expr.isArray])
  | nested hne h =>
    simp only [cousins,array,arrays] at hes
    obtain ⟨x,xs,rfl,hx,hxs⟩ := List.map_eq_cons_iff.mp hes.symm
    obtain ⟨y,ys,rfl,hy,-⟩ := List.map_eq_cons_iff.mp hxs
    have hfirst := (h x (by simp)).length_leaves
    have hsecond := (h y (by simp)).length_leaves
    cases x
    cases y
    cases hx
    cases hy
    rw [← hfirst] at hsecond
    cases hsecond

theorem cousins_accepted : (∃ lit, arrayLiteral numbers ⟨0,0,0⟩ cousins .unknown = .ok lit ∧
      lit.dimensions = [1,2,2] ∧ lit.values = [1,2,3,4,5,6]) ∧ ¬ Rectangular cousins ∧
    ∀ host, ¬ Correct host numbers ⟨0,0,0⟩ cousins .unknown := by
  have hlit : ∃ lit, arrayLiteral numbers ⟨0,0,0⟩ cousins .unknown = .ok lit ∧
      lit.dimensions = [1,2,2] ∧ lit.values = [1,2,3,4,5,6] := by
    have hcheck : checkSubarrays cousins (some []) [] = .ok (some [1,2,2],leaves cousins) := by
      simp [cousins,array,number,checkSubarrays,checkArrays,checkLeaves,pushDim,leaves,Expr.leaves,
        bind,Except.bind,pure,Except.pure]
    refine ⟨⟨⟨0,0,0⟩,.array .uint32 [.fixed 1,.fixed 2,.fixed 2],[1,2,2],[1,2,3,4,5,6]⟩,?_,rfl,rfl⟩
    rw [arrayLiteral,hcheck]
    rfl
  refine ⟨hlit,cousins_not_rectangular,fun host hc => ?_⟩
  obtain ⟨lit,hok,-⟩ := hlit
  exact cousins_not_rectangular (hc.accepted.mp ⟨lit,hok⟩)

end ArrayInitializer
end OlaLang
