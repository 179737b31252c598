import OlaLang.EncodeSpec

/-! What the decoder builds from encoded values, and the round trip of the encoder and the
decoder. -/
namespace OlaLang
namespace Encoding

open Exec (Returns bind_ok bind_apply returns_pure returns_bind pure_apply)
open Builder Corelib
open State (Keeps Reads)

variable {P Q B : Pointer → Prop} {s t u : State} {p q : Pointer} {l : List Felt} {v : Value} {x : Val}

/-! ### Stored operands -/

theorem loaded_write_ptr {ty : Ty} (h : ty.llvmVarIsPtr = true) :
    loaded (t.write q (.ptr p)) ty q = .ptr p := by
  rw [loaded,if_pos h,State.write_mem_self]
  rfl

/-- A pointer stands for a value of a type that is kept behind a pointer. -/
theorem rep_pointer {ty : Ty} (hgood : Codable ty x = true) (h : ty.llvmVarIsPtr = true)
    (hr : Rep P s ty v x) : ∃ p, v = .ptr p := by
  cases ty with
  | uint32 | bool | enum | field => cases h
  | address | contract | hash | string | dynamicBytes =>
    obtain ⟨-,p,hp,-⟩ := (rep_block rfl).mp hr
    exact ⟨p,hp⟩
  | array elemTy dims =>
    by_cases hflat : isFlatArray elemTy dims = true
    · have hblock : isBlock (.array elemTy dims) = true := hflat
      obtain ⟨-,p,hp,-⟩ := (rep_block hblock).mp hr
      exact ⟨p,hp⟩
    · obtain ⟨hlast,-,hempty⟩|⟨rfl,-,-⟩ := not_flat_of_codable hgood hflat
      · obtain ⟨p,hp,-⟩ := (rep_empty hlast).mp ⟨hr,hempty⟩
        exact ⟨p,hp⟩
      · obtain ⟨p,items,hp,-⟩ := rep_vector.mp hr
        exact ⟨p,hp⟩
  | struct fields =>
    rw [Rep] at hr
    obtain ⟨p,items,hp,-⟩ := hr
    exact ⟨p,hp⟩
  | void | mapping | ref | storageRef => simp [Codable] at hgood

/-- An operand that was stored into a cell is loaded from it at its type. -/
theorem loaded_write {ty : Ty} (hgood : Codable ty x = true) (hr : Rep P s ty v x) :
    Rep P s ty (loaded (t.write q v) ty q) x := by
  by_cases h : ty.llvmVarIsPtr = true
  · obtain ⟨p,rfl⟩ := rep_pointer hgood h hr
    rw [loaded_write_ptr h]
    exact hr
  · have hcell : ty.isOneCell = true := by
      cases ty <;> first | rfl | exact absurd rfl h | simp [Codable] at hgood
    rw [loaded_isOneCell hcell,State.write_cell_self]
    obtain ⟨-,hx⟩ := (rep_isOneCell hcell).mp hr
    exact (rep_isOneCell hcell).mpr ⟨rfl,hx⟩

/-- Where the members of a struct are stored: they fill one cell each. -/
theorem storeFields_rep : ∀ {tys : List Ty} {vs : List Value} {items : List Val} {h offset : ℕ}
    {t : State}, CodableFields tys items = true → RepAll P t tys vs items → Below P (h+offset) →
      (∀ q, P q → Q q) → (∀ i < tys.length, Q (.heap (h+offset+i))) →
      Returns (storeFields tys vs (.heap h) offset) t fun _ u =>
        (u.heap = t.heap ∧ u.stack = t.stack ∧ u.storage = t.storage) ∧
        (∀ q, (∀ i < tys.length, q ≠ .heap (h+offset+i)) → u.mem q = t.mem q) ∧
        RepFields Q u tys (.heap h) offset items
  | [], [], [], _, _, t, _, _, _, _, _ => by
    rw [storeFields]
    · exact ⟨(),t,rfl,⟨rfl,rfl,rfl⟩,fun _ _ => rfl,by rw [RepFields]; trivial⟩
    · simp
  | ty::tys, v::vs, x::xs, h, offset, t, hgood, hr, hb, hsub, hQ => by
    rw [CodableFields,Bool.and_eq_true,Bool.and_eq_true] at hgood
    rw [RepAll] at hr
    have hmem : ∀ q, P q → (t.write (.heap (h+offset)) v).mem q = t.mem q := fun q hq =>
      State.write_mem_of_ne t v fun heq => by
        have := hb (h+offset) (heq ▸ hq)
        omega
    have hagree : Agree P P t (t.write (.heap (h+offset)) v) := ⟨fun q hq => hq,hmem⟩
    have hnext : ∀ i < tys.length, offset + ty.llvmFieldSize = offset + 1 := by
      intro i hi
      have hsize := hgood.1.2
      rw [Bool.or_eq_true,List.isEmpty_iff,decide_eq_true_eq] at hsize
      obtain rfl|hsize := hsize
      · exact absurd hi (by simp)
      · rw [hsize]
    obtain ⟨_,u,hrun,hsame,hkeep,hrest⟩ := storeFields_rep hgood.2 (hr.2.mono hagree)
      (hb.mono (show h+offset ≤ h+(offset+ty.llvmFieldSize) by omega)) hsub
      fun i hi => by
        rw [hnext i hi,show h+(offset+1)+i = h+offset+(i+1) by omega]
        exact hQ (i+1) (Nat.succ_lt_succ hi)
    have hapart : ∀ i < tys.length,
        Pointer.heap (h+offset) ≠ .heap (h+(offset+ty.llvmFieldSize)+i) := by
      intro i hi heq
      rw [hnext i hi] at heq
      have : h + offset = h + (offset+1) + i := by simpa using heq
      omega
    have hagree' : Agree P Q t u := by
      refine ⟨hsub,fun q hq => ?_⟩
      rw [hkeep q fun i hi heq => ?_,hmem q hq]
      rw [hnext i hi] at heq
      have := hb _ (heq ▸ hq)
      omega
    refine ⟨(),u,?_,hsame,fun q hq => ?_,?_⟩
    · rw [storeFields,bind_ok (buildStore_apply _ v t)]
      exact hrun
    · rw [hkeep q fun i hi => ?_,State.write_mem_of_ne t v]
      · simpa using hq 0 (by simp)
      · rw [hnext i hi,show h+(offset+1)+i = h+offset+(i+1) by omega]
        exact hq (i+1) (Nat.succ_lt_succ hi)
    · rw [RepFields]
      refine ⟨by simpa using hQ 0 (by simp),?_,hrest⟩
      have hcell := loaded_write (t := t) (q := .heap (h+offset)) hgood.1.1 hr.1
      have hload : loaded u ty (.heap (h+offset)) =
          loaded (t.write (.heap (h+offset)) v) ty (.heap (h+offset)) := by
        simp only [loaded,State.cell,hkeep _ hapart]
      rw [Pointer.add_heap,hload]
      exact hcell.mono hagree'
  | [], _::_, _, _, _, _, _, hr, _, _, _ | [], [], _::_, _, _, _, _, hr, _, _, _
  | _::_, [], _, _, _, _, _, hr, _, _, _ | _::_, _::_, [], _, _, _, _, hr, _, _, _ => by
    simp [RepAll] at hr

/-! ### The decoder -/

/-- The cells a decoded value rests on: those of the buffer, and new ones. -/
def After (B : Pointer → Prop) (s t : State) (q : Pointer) : Prop := B q ∨ (t.Old q ∧ ¬ s.Old q)

/-- Later reads rest on the buffer and on cells that are new from the start. -/
theorem after_sub (hst : Keeps s t) : ∀ q, After B t u q → After B s u q := by
  rintro q (hq|⟨hq,hnew⟩)
  · exact .inl hq
  · exact .inr ⟨hq,fun h => hnew (hst.old h)⟩

theorem holds_keeps (hB : ∀ q, B q → s.Old q) (hst : Keeps s t) (hl : Holds B s p l) :
    Holds B t p l := hl.mono ⟨fun _ hq => hq,fun q hq => hst.mem q (hB q hq)⟩

/-- What a run of the decoder gives for `x`. -/
structure Decoded (B : Pointer → Prop) (ty : Ty) (x : Val) (s : State) (r : Value × Felt)
    (t : State) : Prop where
  size : r.2 = (x.cells.length : Felt)
  reads : Reads s t
  rep : Rep (After B s t) t ty r.1 x

variable (host : Host)

/-- A block stays in the buffer. -/
theorem decode_block {ty : Ty} (h : isBlock ty = true) (hx : HasType ty x)
    (hl : Holds B s p x.cells) :
    Returns (readFromBuffer host ty p) s (Decoded B ty x s) := by
  have hrep : Rep (After B s s) s ty (.ptr p) x :=
    (rep_block h).mpr ⟨hx,p,rfl,hl.mono ⟨fun q hq => .inl hq,fun _ _ => rfl⟩⟩
  have hsize := size_block host h hx hl
  suffices readFromBuffer host ty p s = .ok ((.ptr p,(x.cells.length : Felt)),s) from
    ⟨_,s,this,rfl,Reads.refl s,hrep⟩
  cases ty with
  | address | contract | hash =>
    rw [HasType] at hx
    obtain ⟨w,rfl⟩ := hx
    rw [readFromBuffer]
    simp [Word.toList]
  | string | dynamicBytes =>
    rw [getArgsTypeSize] at hsize
    rw [readFromBuffer]
    have hlen : s.cell p + 1 = (x.cells.length : Felt) := by
      have : (Except.ok (s.cell p + 1,s) : Except Fault (Felt × State)) =
        .ok ((x.cells.length : Felt),s) := hsize
      injection this with this
      exact congrArg Prod.fst this
    rw [bind_ok (vectorLen_eq p s),hlen]
    rfl
  | array elemTy dims =>
    rw [readFromBuffer,decodeArray,if_pos (isFlatArray_memcpy h),bind_ok hsize]
    rfl
  | _ => cases h

theorem read_oneCell {ty : Ty} (h : ty.isOneCell = true) (buffer : Pointer) (s : State) :
    readFromBuffer host ty buffer s = .ok ((.int (s.cell buffer),1),s) := by
  cases ty <;> first | (cases h; done) | (rw [readFromBuffer]; rfl)

/-- What holds of a vector at `h` after `i` of its elements were decoded. -/
structure Partly (B : Pointer → Prop) (elemTy : Ty) (items : List Val) (s s1 : State) (h : ℕ) (i : ℕ)
    (r : Value × Felt) (t : State) : Prop where
  array : r.1 = .ptr (.heap h)
  offset : r.2 = (((cellsOf (items.take i)).length + 1 : ℕ) : Felt)
  first : Keeps s t
  storage : t.storage = s.storage
  block : s1.heap ≤ t.heap
  length : t.cell (.heap h) = (items.length : Felt)
  elems : ∀ j (hj : j < items.length), j < i →
    Rep (After B s1 t) t elemTy (loaded t elemTy (.heap (h+(1+j)))) (items.get ⟨j,hj⟩)

theorem old_of_heap_le (hle : s.heap ≤ t.heap) (h : s.Old q) : t.Old q := by
  cases q with
  | stack n => trivial
  | heap n => exact Nat.lt_of_lt_of_le h hle

/-- One more element is read and stored in its cell. -/
theorem Partly.step {elemTy : Ty} {items : List Val} {s1 : State} {i : ℕ} {r : Value × Felt}
    {v : Value} {a : Felt} (hB : ∀ q, B q → s.Old q)
    (hs1 : s1.heap = s.heap + items.length + 1) (hi : i < items.length)
    (hgood : Codable elemTy (items.get ⟨i,hi⟩) = true)
    (ht : Partly B elemTy items s s1 s.heap i r t)
    (hu : Decoded B elemTy (items.get ⟨i,hi⟩) t (v,a) u) :
    Partly B elemTy items s s1 s.heap (i+1) (r.1,a + r.2) (u.write (.heap (s.heap+(1+i))) v) := by
  have hblock : ∀ j, j < items.length + 1 → s1.Old (.heap (s.heap+j)) := fun j hj => by
    show s.heap + j < s1.heap
    omega
  have hplace : t.Old (.heap (s.heap+(1+i))) := old_of_heap_le ht.block (hblock (1+i) (by omega))
  have hbuffer : ∀ q, B q → q ≠ .heap (s.heap+(1+i)) := by
    rintro q hq rfl
    have : s.heap + (1+i) < s.heap := hB _ hq
    omega
  have hwrite : ∀ q, q ≠ .heap (s.heap+(1+i)) →
      (u.write (.heap (s.heap+(1+i))) v).mem q = u.mem q := fun q => State.write_mem_of_ne u v
  have hkeep : ∀ q, t.Old q → q ≠ .heap (s.heap+(1+i)) →
      (u.write (.heap (s.heap+(1+i))) v).mem q = t.mem q := fun q hq hne => by
    rw [hwrite q hne,hu.reads.keeps.mem q hq]
  have hbefore : Agree (After B s1 t) (After B s1 (u.write (.heap (s.heap+(1+i))) v)) t
      (u.write (.heap (s.heap+(1+i))) v) := by
    constructor
    · rintro q (hq|⟨hq,hnew⟩)
      · exact .inl hq
      · exact .inr ⟨hu.reads.keeps.old hq,hnew⟩
    · rintro q (hq|⟨hq,hnew⟩)
      · exact hkeep q (ht.first.old (hB q hq)) (hbuffer q hq)
      · refine hkeep q hq ?_
        rintro rfl
        exact hnew (hblock (1+i) (by omega))
  have hafter : Agree (After B t u) (After B s1 (u.write (.heap (s.heap+(1+i))) v)) u
      (u.write (.heap (s.heap+(1+i))) v) := by
    constructor
    · rintro q (hq|⟨hq,hnew⟩)
      · exact .inl hq
      · exact .inr ⟨hq,fun h => hnew (old_of_heap_le ht.block h)⟩
    · rintro q (hq|⟨hq,hnew⟩)
      · exact hwrite q (hbuffer q hq)
      · refine hwrite q ?_
        rintro rfl
        exact hnew hplace
  have hrow : ∀ j, j < items.length + 1 → j ≠ 1+i →
      (u.write (.heap (s.heap+(1+i))) v).mem (.heap (s.heap+j)) = t.mem (.heap (s.heap+j)) :=
    fun j hj hne => hkeep _ (old_of_heap_le ht.block (hblock j hj)) (by simpa using hne)
  refine ⟨ht.array,?_,?_,?_,?_,?_,fun j hj hji => ?_⟩
  · have hsize : a = ((items.get ⟨i,hi⟩).cells.length : Felt) := hu.size
    rw [hsize,ht.offset,List.take_succ_eq_append_getElem hi,cellsOf_append]
    simp
    ring
  · have hsu := ht.first.trans hu.reads.keeps
    refine ⟨hsu.heap,hsu.stack,fun q hq => ?_⟩
    rw [hwrite q ?_,hsu.mem q hq]
    rintro rfl
    have : s.heap + (1+i) < s.heap := hq
    omega
  · exact hu.reads.storage.trans ht.storage
  · exact Nat.le_trans ht.block hu.reads.keeps.heap
  · have h0 := hrow 0 (by omega) (by omega)
    rw [Nat.add_zero] at h0
    rw [State.cell,h0]
    exact ht.length
  · by_cases heq : j = i
    · subst heq
      exact (loaded_write hgood hu.rep).mono hafter
    · have hload : loaded (u.write (.heap (s.heap+(1+i))) v) elemTy (.heap (s.heap+(1+j))) =
          loaded t elemTy (.heap (s.heap+(1+j))) := by
        simp only [loaded,State.cell,hrow (1+j) (by omega) (by omega)]
      rw [hload]
      exact (ht.elems j hj (by omega)).mono hbefore

/-- The loop that reads the elements of a vector into a new one. -/
theorem decode_vector {elemTy : Ty} {items : List Val} (hcopy : allowMemcpy elemTy = false)
    (hgood : ∀ y ∈ items, Codable elemTy y = true)
    (hx : HasType (.array elemTy [.dynamic]) (.vector items))
    (hl : Holds B s p (Val.vector items).cells) (hB : ∀ q, B q → s.Old q)
    (hlen : (Val.vector items).cells.length < FIELD_ORDER)
    (helem : ∀ {x s p}, x ∈ items → HasType elemTy x → Holds B s p x.cells → (∀ q, B q → s.Old q) →
      x.cells.length < FIELD_ORDER →
        Returns (readFromBuffer host elemTy p) s (Decoded B elemTy x s)) :
    Returns (readFromBuffer host (.array elemTy [.dynamic]) p) s
      (Decoded B (.array elemTy [.dynamic]) (.vector items) s) := by
  have htypes : items.length < 2^32 ∧ ∀ y ∈ items, HasType elemTy y := by
    rw [HasType] at hx
    obtain ⟨items',heq,hlt,hi⟩ := hx
    cases heq
    exact ⟨hlt,hi⟩
  obtain ⟨hlt,hitems⟩ := htypes
  rw [cells_vector] at hl hlen
  rw [List.length_cons] at hlen
  have hn : s.cell p = (items.length : Felt) := hl.2.1
  have hval : (items.length : Felt).val = items.length := val_cast (lt_fieldOrder hlt)
  rw [readFromBuffer,decodeArray,if_neg (by simp [not_memcpy_vector hcopy])]
  refine returns_bind ⟨_,s,rfl,?_⟩
  show Returns (decodeComplexArray host (readFromBuffer host elemTy) elemTy [.dynamic] 0 p []
    (s.mem (.stack s.stack),0) >>= _) s _
  rw [decodeComplexArray]
  have hlength : ∃ s1, decodeLength host elemTy [.dynamic] p 0 [] (s.mem (.stack s.stack),0) s =
      .ok ((.ptr (.heap s.heap),0 + 1),s1) ∧ s1.heap = s.heap + items.length + 1 ∧
      Reads s s1 ∧ s1.cell (.heap s.heap) = (items.length : Felt) := by
    refine ⟨{ s with heap := s.heap + items.length + 1 }.write (.heap s.heap)
      (.int (items.length : Felt)),?_,rfl,⟨⟨?_,rfl,?_⟩,rfl⟩,State.write_cell_self _ _ _⟩
    · have hcell : s.cell (p.add (0 : Felt).val) = (items.length : Felt) := by simpa using hn
      have hnew : vectorNew (items.length : Felt) s = .ok (.heap s.heap,
          { s with heap := s.heap + items.length + 1 }.write (.heap s.heap)
            (.int (items.length : Felt))) := by
        rw [vectorNew,hval]
      rw [decodeLength,if_pos (by rfl),bind_ok (buildLoadInt_apply _ s),Value.felt_int,hcell,bind_ok hnew]
      rfl
    · show s.heap ≤ s.heap + items.length + 1
      omega
    · intro q hq
      rw [State.write_mem_of_ne]
      rintro rfl
      exact absurd (show s.heap < s.heap from hq) (by omega)
  obtain ⟨s1,hrun,hs1,hreads,hcell⟩ := hlength
  refine returns_bind (returns_bind ⟨_,s1,hrun,?_⟩)
  dsimp only
  refine (arrayLoop_returns (Partly B elemTy items s s1 s.heap) (lt_fieldOrder hlt) ?_ ?_ ?_).mono ?_
  · intro i r t _ ht
    rw [Value.pointer_ptr,arrayBound_vector,ht.length]
  · intro i r t hi ht
    obtain ⟨arrayVar,offset⟩ := r
    obtain rfl : arrayVar = .ptr (.heap s.heap) := ht.array
    obtain rfl : offset = (((cellsOf (items.take i)).length + 1 : ℕ) : Felt) := ht.offset
    have hle := cellsOf_take_lt hi
    have hoff : ((((cellsOf (items.take i)).length + 1 : ℕ) : Felt)).val =
      (cellsOf (items.take i)).length + 1 := val_cast (by omega)
    have hrest : Holds B t (p.add ((cellsOf (items.take i)).length + 1))
        (items.get ⟨i,hi⟩).cells := by
      have hall := holds_keeps hB ht.first hl.2.2
      rw [← List.take_append_drop i items,cellsOf_append,holds_append,
        List.drop_eq_getElem_cons hi,cellsOf_cons,holds_append,Pointer.add_add,
        Nat.add_comm 1] at hall
      exact hall.2.1
    have hmem := List.get_mem items ⟨i,hi⟩
    obtain ⟨⟨v,a⟩,u,hread,hu⟩ := helem hmem (hitems _ hmem) hrest
      (fun q hq => ht.first.old (hB q hq)) (by omega)
    refine ⟨_,_,?_,ht.step hB hs1 hi (hgood _ hmem) hu⟩
    have hcellu : u.cell (.heap s.heap) = (items.length : Felt) := by
      rw [hu.reads.keeps.cell,ht.length]
      refine old_of_heap_le ht.block ?_
      show s.heap < s1.heap
      omega
    dsimp only
    rw [hoff,bind_ok hread]
    dsimp only
    rw [List.nil_append,List.length_singleton,Value.pointer_ptr,
      bind_ok (indexArray_vector host elemTy hcellu hlt hi _)]
    rfl
  · exact ⟨rfl,by simp,hreads.keeps,hreads.storage,Nat.le_refl _,hcell,
      fun j _ hj => absurd hj (by omega)⟩
  · rintro ⟨arrayVar,offset⟩ t ht
    obtain rfl : arrayVar = .ptr (.heap s.heap) := ht.array
    obtain rfl : offset = (((cellsOf (items.take items.length)).length + 1 : ℕ) : Felt) := ht.offset
    refine returns_pure ⟨?_,⟨ht.first,ht.storage⟩,?_⟩
    · rw [List.take_length,cells_vector,List.length_cons]
    · have hnew : ∀ j, j < items.length + 1 → After B s t (.heap (s.heap+j)) := by
        intro j hj
        refine .inr ⟨?_,?_⟩
        · have := ht.block
          show s.heap + j < t.heap
          omega
        · intro hold
          have : s.heap + j < s.heap := hold
          omega
      refine rep_vector.mpr ⟨.heap s.heap,items,rfl,rfl,hlt,by simpa using hnew 0 (by omega),
        ht.length,fun i hi => ⟨hnew (1+i) (by omega),?_⟩⟩
      exact (ht.elems i hi hi).mono ⟨after_sub hreads.keeps,fun _ _ => rfl⟩

/-- An empty array becomes a new vector of length zero. -/
theorem decode_empty {elemTy : Ty} {dims : List ArrayLength} (h : dims.getLast? = some .dynamic)
    (hcopy : allowMemcpy (.array elemTy dims) = false) (hx : HasType (.array elemTy dims) x)
    (hempty : x.items = []) (hl : Holds B s p x.cells) :
    Returns (readFromBuffer host (.array elemTy dims) p) s (Decoded B (.array elemTy dims) x s) := by
  have hvector : x = .vector [] := by
    obtain ⟨rest,hrest⟩ := reverse_dynamic h
    rw [HasType,hrest] at hx
    obtain ⟨items,rfl,-⟩ := hx
    exact congrArg _ hempty
  subst hvector
  have hn : s.cell p = 0 := by
    rw [cells_vector] at hl
    simpa using hl.2.1
  have hdim := dynamic_outermost h
  let t : State := { s with heap := s.heap + 1 }.write (.heap s.heap) (.int 0)
  have hcell : t.cell (.heap s.heap) = 0 := State.write_cell_self _ _ _
  have hlength : decodeLength host elemTy dims p (dims.length-1) [] (s.mem (.stack s.stack),0) s =
      .ok ((.ptr (.heap s.heap),0 + 1),t) := by
    have hcell : s.cell (p.add (0 : Felt).val) = 0 := by simpa using hn
    have hnew : vectorNew 0 s = .ok (.heap s.heap,t) := rfl
    rw [decodeLength,if_pos hdim,bind_ok (buildLoadInt_apply _ s),Value.felt_int,hcell,bind_ok hnew]
    rfl
  have hbound : arrayBound host elemTy dims (dims.length-1)
      (.ptr (Value.pointer (.ptr (.heap s.heap)))) (.array elemTy dims) [] t = .ok (0,t) := by
    rw [Value.pointer_ptr,arrayBound_outermost host elemTy h,hcell]
  refine ⟨(.ptr (.heap s.heap),1),t,?_,by simp,⟨⟨?_,rfl,fun q hq => ?_⟩,rfl⟩,?_⟩
  · rw [readFromBuffer,decodeArray,if_neg (by simp [hcopy]),
      bind_ok (show uninitialized s = .ok (s.mem (.stack s.stack),s) from rfl)]
    generalize dims.length - 1 = k at hbound hlength
    cases k with
    | zero =>
      show (decodeComplexArray host _ elemTy dims 0 p [] _ >>= _) s = _
      rw [decodeComplexArray,bind_apply,bind_ok hlength]
      dsimp only
      rw [arrayLoop_empty hbound,zero_add]
      rfl
    | succ k =>
      rw [decodeComplexArray,bind_apply,bind_ok hlength]
      dsimp only
      rw [arrayLoop_empty hbound,zero_add]
      rfl
  · show s.heap ≤ s.heap + 1
    omega
  · rw [State.write_mem_of_ne]
    rintro rfl
    exact absurd (show s.heap < s.heap from hq) (Nat.lt_irrefl _)
  · refine ((rep_empty h).mpr ⟨.heap s.heap,rfl,rfl,.inr ⟨?_,?_⟩,hcell⟩).1
    · show s.heap < s.heap + 1
      omega
    · exact fun hold => absurd (show s.heap < s.heap from hold) (Nat.lt_irrefl _)

/-- What a run of `readFields` gives. -/
structure DecodedAll (B : Pointer → Prop) (tys : List Ty) (items : List Val) (s : State)
    (vs : List Value) (t : State) : Prop where
  reads : Reads s t
  rep : RepAll (After B s t) t tys vs items

/-- A value that was read, and those that are read behind it. -/
theorem DecodedAll.cons {ty : Ty} {tys : List Ty} {items : List Val} {r : Value × Felt}
    {vs : List Value} (hB : ∀ q, B q → s.Old q) (h : Decoded B ty x s r t)
    (hs : DecodedAll B tys items t vs u) : DecodedAll B (ty::tys) (x::items) s (r.1::vs) u := by
  refine ⟨h.reads.trans hs.reads,?_⟩
  rw [RepAll]
  refine ⟨h.rep.mono ⟨?_,?_⟩,hs.rep.mono ⟨after_sub h.reads.keeps,fun _ _ => rfl⟩⟩
  · rintro q (hq|⟨hq,hnew⟩)
    · exact .inl hq
    · exact .inr ⟨hs.reads.keeps.old hq,hnew⟩
  · rintro q (hq|⟨hq,-⟩)
    · exact hs.reads.keeps.mem q (h.reads.keeps.old (hB q hq))
    · exact hs.reads.keeps.mem q hq

theorem repAll_length : ∀ {tys : List Ty} {vs : List Value} {items : List Val},
    RepAll P s tys vs items → vs.length = tys.length
  | [], [], [], _ => rfl
  | _::_, _::_, _::_, hr => by
    rw [RepAll] at hr
    rw [List.length_cons,List.length_cons,repAll_length hr.2]
  | [], _::_, _, hr | [], [], _::_, hr | _::_, [], _, hr | _::_, _::_, [], hr => by
    simp [RepAll] at hr

/-- The members that were read are stored in a new struct. -/
theorem structLiteralCopy_rep {tys : List Ty} {vs : List Value} {items : List Val}
    (hgood : CodableFields tys items = true) (hB : ∀ q, B q → s.Old q)
    (hs : DecodedAll B tys items s vs t) (hlen : tys.length < FIELD_ORDER) :
    Returns (structLiteralCopy tys vs) t fun v u => Reads s u ∧
      Rep (After B s u) u (.struct tys) v (.tuple items) := by
  have hkeep : Agree (After B s t) (After B s t) t { t with heap := t.heap + tys.length } :=
    ⟨fun _ hq => hq,fun _ _ => rfl⟩
  have hbelow : Below (After B s t) (t.heap + 0) := by
    rintro n (hn|⟨hn,-⟩)
    · exact hs.reads.keeps.old (hB _ hn)
    · exact hn
  obtain ⟨_,u,hrun,⟨hheap,hstack,hstorage⟩,hmem,hf⟩ :=
    storeFields_rep (Q := fun q => After B s t q ∨ ∃ i < tys.length, q = .heap (t.heap+0+i))
      hgood (hs.rep.mono hkeep) hbelow (fun q hq => .inl hq) fun i hi => .inr ⟨i,hi,rfl⟩
  have hfresh : ∀ q, t.Old q → ∀ i < tys.length, q ≠ .heap (t.heap+0+i) := by
    rintro q hq i - rfl
    have : t.heap + 0 + i < t.heap := hq
    omega
  have htu : Keeps t u := by
    refine ⟨?_,hstack,fun q hq => hmem q (hfresh q hq)⟩
    rw [hheap]
    exact Nat.le_add_right _ _
  refine ⟨.ptr (.heap t.heap),u,?_,hs.reads.trans ⟨htu,hstorage⟩,?_⟩
  · rw [structLiteralCopy]
    have hmalloc : heapMalloc (tys.length : Felt) t =
        .ok (.heap t.heap,{ t with heap := t.heap + tys.length }) := by
      rw [heapMalloc,val_cast hlen]
    rw [bind_ok hmalloc,bind_ok hrun]
    rfl
  · rw [Rep]
    refine ⟨.heap t.heap,items,rfl,rfl,hf.mono ⟨?_,fun _ _ => rfl⟩⟩
    rintro q ((hq|⟨hq,hnew⟩)|⟨i,hi,rfl⟩)
    · exact .inl hq
    · exact .inr ⟨htu.old hq,hnew⟩
    · refine .inr ⟨?_,fun hold => ?_⟩
      · show t.heap + 0 + i < u.heap
        rw [hheap]
        show t.heap + 0 + i < t.heap + tys.length
        omega
      · have h : t.heap + 0 + i < s.heap := hold
        have := hs.reads.keeps.heap
        omega

mutual

/-- What was encoded is read back. -/
theorem readFromBuffer_rep : ∀ {ty : Ty} {x : Val} {s : State} {p : Pointer}, Codable ty x = true →
    HasType ty x → Holds B s p x.cells → (∀ q, B q → s.Old q) → x.cells.length < FIELD_ORDER →
      Returns (readFromBuffer host ty p) s (Decoded B ty x s)
  | .uint32, _, s, p, _, hx, hl, _, _ | .bool, _, s, p, _, hx, hl, _, _
  | .enum, _, s, p, _, hx, hl, _, _ | .field, _, s, p, _, hx, hl, _, _ => by
    obtain ⟨c,rfl⟩ := (hasType_isOneCell rfl).mp hx
    rw [cells_cell] at hl
    refine ⟨_,s,read_oneCell host rfl p s,by simp,Reads.refl s,(rep_isOneCell rfl).mpr ⟨rfl,?_⟩⟩
    rw [Value.felt_int,hl.2.1]
  | .address, _, _, _, _, hx, hl, _, _ | .contract, _, _, _, _, hx, hl, _, _
  | .hash, _, _, _, _, hx, hl, _, _ | .string, _, _, _, _, hx, hl, _, _
  | .dynamicBytes, _, _, _, _, hx, hl, _, _ => decode_block host rfl hx hl
  | .array elemTy dims, x, _, _, hgood, hx, hl, hB, hlen => by
    by_cases hflat : isFlatArray elemTy dims = true
    · exact decode_block host hflat hx hl
    · obtain ⟨hlast,hcopy,hempty⟩|⟨rfl,hcopy,helem⟩ := not_flat_of_codable hgood hflat
      · exact decode_empty host hlast hcopy hx hempty hl
      · have hvector : ∃ items, x = .vector items := by
          rw [HasType] at hx
          obtain ⟨items,rfl,-⟩ := hx
          exact ⟨items,rfl⟩
        obtain ⟨items,rfl⟩ := hvector
        exact decode_vector host hcopy helem hx hl hB hlen fun hmem hx hl hB hlen =>
          readFromBuffer_rep (helem _ hmem) hx hl hB hlen
  | .struct fields, _, s, p, hgood, hx, hl, hB, hlen => by
    rw [Codable,Bool.and_eq_true,decide_eq_true_eq] at hgood
    rw [HasType] at hx
    obtain ⟨items,rfl,hi⟩ := hx
    rw [cells_tuple] at hl hlen
    obtain ⟨r,t,hrun,hsize,ht⟩ := readFields_rep hgood.2 hi hl hB hlen
    obtain ⟨v,u,hcopy,hreads,hrep⟩ := structLiteralCopy_rep hgood.2 hB ht hgood.1
    refine ⟨(v,r.2),u,?_,by rw [cells_tuple]; exact hsize,hreads,hrep⟩
    rw [readFromBuffer,bind_ok hrun]
    dsimp only
    rw [bind_ok hcopy]
    rfl
  | .void, _, _, _, h, _, _, _, _ | .mapping _ _, _, _, _, h, _, _, _, _
  | .ref _, _, _, _, h, _, _, _, _ | .storageRef _, _, _, _, h, _, _, _, _ => by
    simp [Codable] at h

theorem readFields_rep : ∀ {tys : List Ty} {items : List Val} {s : State} {p : Pointer},
    CodableFields tys items = true → HasTypes tys items → Holds B s p (cellsOf items) →
      (∀ q, B q → s.Old q) → (cellsOf items).length < FIELD_ORDER →
      Returns (readFields host tys p) s fun r t =>
        r.2 = ((cellsOf items).length : Felt) ∧ DecodedAll B tys items s r.1 t
  | [], [], s, _, _, _, _, _, _ => by
    rw [readFields]
    exact ⟨_,s,rfl,rfl,Reads.refl s,by rw [RepAll]; trivial⟩
  | ty::tys, x::xs, s, p, hgood, hx, hl, hB, hlen => by
    rw [CodableFields,Bool.and_eq_true,Bool.and_eq_true] at hgood
    rw [HasTypes] at hx
    rw [cellsOf_cons,holds_append] at hl
    rw [cellsOf_cons,List.length_append] at hlen ⊢
    obtain ⟨⟨v,a⟩,t,hrun,hd⟩ := readFromBuffer_rep hgood.1.1 hx.1 hl.1 hB (by omega)
    obtain rfl : a = (x.cells.length : Felt) := hd.size
    obtain ⟨⟨vs,a'⟩,u,hrest,hsize,hds⟩ := readFields_rep hgood.2 hx.2
      (holds_keeps hB hd.reads.keeps hl.2) (fun q hq => hd.reads.keeps.old (hB q hq)) (by omega)
    obtain rfl : a' = ((cellsOf xs).length : Felt) := hsize
    refine ⟨(v::vs,_),u,?_,(Nat.cast_add _ _).symm,hds.cons hB hd⟩
    rw [readFields,bind_ok hrun]
    dsimp only
    rw [val_cast (by omega),bind_ok hrest]
    rfl
  | [], _::_, _, _, _, hx, _, _, _ | _::_, [], _, _, _, hx, _, _, _ => by simp [HasTypes] at hx

end

/-! ### The round trip -/

/-- The values of the arguments, encoded and decoded again, are the same, wherever they lie in
memory. The encoding has fewer cells than the machine can address. -/
def RoundTrip (types : List Ty) (vals : List Val) : Prop := ∀ (s : State) (args : List Value),
  RepAll s.Old s types args vals → (cellsOf vals).length < FIELD_ORDER →
    Returns (do
      let data ← abiEncode host (types.zip args)
      abiDecode host types (Storage.vectorData data)) s fun outs t => RepAll t.Old t types outs vals

theorem codableAll_cons {ty : Ty} {tys : List Ty} {xs : List Val}
    (h : CodableAll (ty::tys) (x::xs) = true) : Codable ty x = true ∧ CodableAll tys xs = true := by
  rwa [CodableAll,Bool.and_eq_true] at h

theorem calculateSizeArgs_rep : ∀ {tys : List Ty} {vs : List Value} {items : List Val},
    CodableAll tys items = true → RepAll P s tys vs items →
      calculateSizeArgs host (tys.zip vs) s = .ok (((cellsOf items).length : Felt),s)
  | [], [], [], _, _ => rfl
  | ty::tys, v::vs, x::xs, hgood, hr => by
    rw [RepAll] at hr
    rw [List.zip_cons_cons,calculateSizeArgs,bind_ok (getArgsTypeSize_rep host (codableAll_cons hgood).1 hr.1),
      bind_ok (calculateSizeArgs_rep (codableAll_cons hgood).2 hr.2),cellsOf_cons,
      List.length_append,Nat.cast_add]
    rfl
  | [], _::_, _, _, hr | [], [], _::_, _, hr | _::_, [], _, _, hr | _::_, _::_, [], _, hr => by
    simp [RepAll] at hr

/-- The arguments are written one behind the other. -/
theorem encodeArgs_rep : ∀ {tys : List Ty} {vs : List Value} {items : List Val} {s : State} {b : ℕ},
    CodableAll tys items = true → RepAll P s tys vs items → Below P b →
      (cellsOf items).length < FIELD_ORDER →
      Returns (encodeArgs host (tys.zip vs) (.heap b)) s fun p t =>
        p = .heap (b + (cellsOf items).length) ∧ Filled s t b (cellsOf items)
  | [], [], [], s, b, _, _, _, _ => ⟨_,s,rfl,rfl,Filled.nil s b⟩
  | ty::tys, v::vs, x::xs, s, b, hgood, hr, hb, hlen => by
    rw [RepAll] at hr
    rw [cellsOf_cons,List.length_append] at hlen ⊢
    obtain ⟨a,t,hrun,rfl,ht⟩ := encodeIntoBuffer_rep host (codableAll_cons hgood).1 hr.1 hb (by omega)
    obtain ⟨p,u,hrest,rfl,hu⟩ := encodeArgs_rep (codableAll_cons hgood).2
      (hr.2.mono (ht.agree hb)) (hb.mono (Nat.le_add_right b x.cells.length)) (by omega)
    refine ⟨_,u,?_,congrArg Pointer.heap (Nat.add_assoc _ _ _),ht.append hu⟩
    rw [List.zip_cons_cons,encodeArgs,bind_ok hrun,val_cast (by omega),Pointer.add_heap,hrest]
  | [], _::_, _, _, _, _, hr, _, _ | [], [], _::_, _, _, _, hr, _, _
  | _::_, [], _, _, _, _, hr, _, _ | _::_, _::_, [], _, _, _, hr, _, _ => by simp [RepAll] at hr

/-- Encoded arguments are decoded to the same values. -/
theorem abiDecode_rep : ∀ {tys : List Ty} {items : List Val} {s : State} {p : Pointer},
    CodableAll tys items = true → HasTypes tys items → Holds B s p (cellsOf items) →
      (∀ q, B q → s.Old q) → (cellsOf items).length < FIELD_ORDER →
      Returns (abiDecode host tys p) s (DecodedAll B tys items s)
  | [], [], s, _, _, _, _, _, _ => by
    rw [abiDecode]
    exact ⟨_,s,rfl,Reads.refl s,by rw [RepAll]; trivial⟩
  | ty::tys, x::xs, s, p, hgood, hx, hl, hB, hlen => by
    rw [HasTypes] at hx
    rw [cellsOf_cons,holds_append] at hl
    rw [cellsOf_cons,List.length_append] at hlen
    obtain ⟨⟨v,a⟩,t,hrun,hd⟩ :=
      readFromBuffer_rep host (codableAll_cons hgood).1 hx.1 hl.1 hB (by omega)
    obtain rfl : a = (x.cells.length : Felt) := hd.size
    obtain ⟨vs,u,hrest,hds⟩ := abiDecode_rep (codableAll_cons hgood).2 hx.2
      (holds_keeps hB hd.reads.keeps hl.2) (fun q hq => hd.reads.keeps.old (hB q hq)) (by omega)
    refine ⟨v::vs,u,?_,hds.cons hB hd⟩
    rw [abiDecode,bind_ok hrun]
    dsimp only
    rw [val_cast (by omega),bind_ok hrest]
    rfl
  | [], _::_, _, _, _, hx, _, _, _ | _::_, [], _, _, _, hx, _, _, _ => by simp [HasTypes] at hx

/-- Encoded arguments in a new vector, behind its length. -/
theorem abiEncode_rep {tys : List Ty} {vs : List Value} {items : List Val}
    (hgood : CodableAll tys items = true) (hr : RepAll s.Old s tys vs items)
    (hlen : (cellsOf items).length < FIELD_ORDER) :
    Returns (abiEncode host (tys.zip vs)) s fun p t => p = .heap s.heap ∧
      t.heap = s.heap + (cellsOf items).length + 1 ∧ Reads s t ∧
      Holds (fun q => ∃ i < (cellsOf items).length + 1, q = .heap (s.heap+i)) t (.heap s.heap)
        (((cellsOf items).length : Felt)::cellsOf items) := by
  have hsize : ((cellsOf items).length : Felt).val = (cellsOf items).length := val_cast hlen
  have hnew : vectorNew ((cellsOf items).length : Felt) s = .ok (.heap s.heap,
      { s with heap := s.heap + (cellsOf items).length + 1 }.write (.heap s.heap)
        (.int ((cellsOf items).length : Felt))) := by
    rw [vectorNew,hsize]
  have hkeep : ∀ q, s.Old q → q ≠ .heap s.heap := by
    rintro q hq rfl
    exact absurd (show s.heap < s.heap from hq) (by omega)
  have hagree : Agree s.Old s.Old s ({ s with heap := s.heap + (cellsOf items).length + 1 }.write
      (.heap s.heap) (.int ((cellsOf items).length : Felt))) :=
    ⟨fun _ hq => hq,fun q hq => State.write_mem_of_ne _ _ (hkeep q hq)⟩
  have hbelow : Below s.Old (s.heap + 1) := fun n hn => Nat.lt_succ_of_lt hn
  obtain ⟨p,t,hrun,rfl,ht⟩ := encodeArgs_rep host hgood (hr.mono hagree) hbelow hlen
  refine ⟨.heap s.heap,t,?_,rfl,?_,⟨⟨?_,?_,fun q hq => ?_⟩,?_⟩,?_⟩
  · cases tys with
    | nil =>
      cases vs with
      | cons v vs => simp [RepAll] at hr
      | nil =>
        cases items with
        | cons x xs => simp [RepAll] at hr
        | nil =>
          rw [List.zip_nil_left,encodeArgs] at hrun
          injection hrun with hrun
          injection hrun with _ hrun
          rw [abiEncode,List.zip_nil_left,if_pos (by rfl),← hrun]
          simpa using hnew
    | cons ty tys =>
      cases vs with
      | nil => simp [RepAll] at hr
      | cons v vs =>
        rw [abiEncode,if_neg (by simp),bind_ok (calculateSizeArgs_rep host hgood hr),bind_ok hnew]
        rw [Pointer.add_heap,bind_ok hrun]
        rfl
  · exact ht.heap
  · rw [ht.heap]
    show s.heap ≤ s.heap + (cellsOf items).length + 1
    omega
  · exact ht.stack
  · rw [(ht.agree hbelow).mem q hq,hagree.mem q hq]
  · exact ht.storage
  · rw [holds_iff]
    intro i hi
    rw [List.length_cons] at hi
    refine ⟨⟨i,hi,rfl⟩,?_⟩
    cases i with
    | zero =>
      rw [Pointer.add_zero,State.cell,ht.mem _ fun j _ heq => ?_]
      · rw [State.write_mem_self]
        rfl
      · have : s.heap = s.heap + 1 + j := by simpa using heq
        omega
    | succ i =>
      have hget := ht.cells i (by omega)
      rw [show s.heap + 1 + i = s.heap + (i+1) by omega] at hget
      exact hget

/-- Encoding and decoding gives the same values when they are encoded and decoded alike. -/
theorem abi_round_trip {types : List Ty} {vals : List Val} (hgood : CodableAll types vals = true) :
    RoundTrip host types vals := by
  intro s args hr hlen
  obtain ⟨p,t,hrun,rfl,hheap,-,hl⟩ := abiEncode_rep host hgood hr hlen
  have hold : ∀ q, (∃ i < (cellsOf vals).length + 1, q = .heap (s.heap+i)) → t.Old q := by
    rintro q ⟨i,hi,rfl⟩
    show s.heap + i < t.heap
    omega
  obtain ⟨outs,u,hdecode,hds⟩ := abiDecode_rep host hgood hr.hasTypes hl.2.2 hold hlen
  refine ⟨outs,u,?_,hds.rep.mono ⟨?_,fun _ _ => rfl⟩⟩
  · rw [bind_ok hrun]
    exact hdecode
  · rintro q (hq|⟨hq,-⟩)
    · exact hds.reads.keeps.old (hold q hq)
    · exact hq

/-- A host whose answers are all zero. -/
def zeroHost : Host where
  poseidon _ := Word.zero
  prophetU32Sqrt _ := 0
  prophetU32Div _ _ := 0
  prophetU32Mod _ _ := 0
  prophetSplitFieldHigh _ := 0
  prophetSplitFieldLow _ := 0

/-- A struct with a string and the structs `(bool, hash)`, a matrix, and a vector of vectors without
elements. -/
theorem struct_round_trip : RoundTrip zeroHost
    [.struct [.string,.uint32,.array (.struct [.bool,.hash]) [.dynamic]],
      .array .field [.fixed 3,.fixed 2],.array .uint32 [.dynamic,.dynamic]]
    [.tuple [.vector (flat [104,105]),.cell 7,.vector [.tuple [.cell 1,.tuple (flat [1,2,3,4])]]],
      .tuple [.tuple (flat [1,2,3]),.tuple (flat [4,5,6])],.vector []] :=
  abi_round_trip zeroHost (by decide)

/-- The memory that holds the value `[[5]]` of type `u32[][]`. -/
def nestedState : State where
  mem
    | .heap 0 => .int 1
    | .heap 1 => .ptr (.heap 2)
    | .heap 2 => .int 1
    | .heap 3 => .int 5
    | _ => .int 0
  heap := 4
  stack := 1
  storage _ := Word.zero

def nestedVal : Val := .vector [.vector [.cell 5]]

theorem nestedState_rep :
    Rep nestedState.Old nestedState (.array .uint32 [.dynamic,.dynamic]) (.ptr (.heap 0)) nestedVal := by
  have hold : ∀ n < 4, nestedState.Old (.heap n) := fun n hn => hn
  rw [Rep]
  refine ⟨.heap 0,_,rfl,rfl,by decide,hold 0 (by omega),rfl,⟨hold 1 (by omega),?_⟩,trivial⟩
  refine ⟨.heap 2,_,rfl,rfl,by decide,hold 2 (by omega),rfl,⟨hold 3 (by omega),?_⟩,trivial⟩
  rw [RepArray,Rep]
  exact ⟨rfl,rfl⟩

/-- The length of the first row of the only value. -/
def rowLength (r : Except Fault (List Value × State)) : Option Felt := match r with
  | .ok ([v],t) => some (t.cell (t.mem (v.pointer.add 1)).pointer)
  | _ => none

/-- The offset of the row counts twice: its length is read from the cell behind it. -/
theorem nested_not_round_trip :
    ¬ RoundTrip zeroHost [.array .uint32 [.dynamic,.dynamic]] [nestedVal] := by
  intro h
  obtain ⟨outs,t,hrun,hr⟩ := h nestedState [.ptr (.heap 0)] ⟨nestedState_rep,trivial⟩ (by decide)
  have hread : rowLength ((do
      let data ← abiEncode zeroHost [(.array .uint32 [.dynamic,.dynamic],.ptr (.heap 0))]
      abiDecode zeroHost [.array .uint32 [.dynamic,.dynamic]] (Storage.vectorData data))
        nestedState) = some 5 := by decide +kernel
  have hfive : rowLength (.ok (outs,t)) = some 5 := hrun ▸ hread
  match outs, hr with
  | [v], hr =>
    rw [RepAll,Rep] at hr
    obtain ⟨⟨p,items,rfl,hitems,-,-,-,hrows⟩,-⟩ := hr
    cases hitems
    obtain ⟨q,cells,hq,hcells,-,-,hlength,-⟩ := hrows.1.2
    cases hcells
    have hrow : (t.mem (p.add 1)).pointer = q := Value.ptr.inj hq
    have hone : t.cell (t.mem (p.add 1)).pointer = 1 := by
      rw [hrow,hlength]
      rfl
    have heq : (1 : Felt) = 5 := by
      rw [← hone]
      exact Option.some.inj hfive
    exact absurd heq (by decide)

end Encoding
end OlaLang
