import OlaLang.Spiller
import OlaLang.InsertionRoom

/-! What a spill leaves: the instructions that name the register with registers of their own, and
the new instructions in the layout next to them. -/
namespace OlaLang
namespace Codegen
namespace Spiller

open Liveness ProgramPoints

variable {f f' : State} {r v newVreg i fuel : ℕ} {make : VReg → InstructionData}
  {op : InstId → InstId → BasicBlockId → Op} {E newVregs : List ℕ}

/-! ### One user -/

/-- The state in which instruction `i` has a new register for `r` and the new instruction is made,
before it is placed. -/
def State.rewritten (f : State) (make : VReg → InstructionData) (r : VReg) (i : InstId)
    (user : VRegUser) : State :=
  State.createInst { f with
    vregs := Function.update f.vregs f.nextVReg (f.vregs r)
    nextVReg := f.nextVReg+1
    insts := Function.update f.insts i ((f.insts i).replaceVreg r f.nextVReg)
    users := Function.update
      (Function.update f.users r ((f.users r).eraseP (·.inst = i)))
      f.nextVReg (f.users f.nextVReg ++ [user]) } (make f.nextVReg) (f.parent i)

theorem rewriteUser_eq_ok : rewriteUser fuel make op r f i = .ok (newVreg,f') ↔
    ∃ user n, (f.users r).find? (·.inst = i) = some user ∧ (f.vregs r).size = 4 ∧
      step fuel (op i f.nextInst (f.parent i)) f.numbering = .ok n ∧ newVreg = f.nextVReg ∧
      f' = { f.rewritten make r i user with numbering := n } := by
  rw [rewriteUser]
  cases hfind : (f.users r).find? (·.inst = i) with
  | none =>
    have hreplace : (f.createFrom r).replaceVreg i r f.nextVReg = .error .panic := by
      rw [State.replaceVreg]
      simp only [State.createFrom,hfind]
    rw [hreplace]
    refine iff_of_false (fun h => by cases h) ?_
    rintro ⟨user,n,h,_⟩
    cases h
  | some user =>
    have hreplace : (f.createFrom r).replaceVreg i r f.nextVReg = .ok { f with
        vregs := Function.update f.vregs f.nextVReg (f.vregs r)
        nextVReg := f.nextVReg+1
        insts := Function.update f.insts i ((f.insts i).replaceVreg r f.nextVReg)
        users := Function.update
          (Function.update f.users r ((f.users r).eraseP (·.inst = i)))
          f.nextVReg (f.users f.nextVReg ++ [user]) } := by
      rw [State.replaceVreg]
      simp only [State.createFrom,hfind]
    rw [hreplace]
    show (if (Function.update f.vregs f.nextVReg (f.vregs r) f.nextVReg).size = 4 then
      (step fuel (op i f.nextInst (f.parent i)) f.numbering >>= fun n =>
        Except.ok (f.nextVReg,{ f.rewritten make r i user with numbering := n }))
      else .error .panic) = _ ↔ _
    rw [Function.update_self]
    by_cases hsize : (f.vregs r).size = 4
    · rw [if_pos hsize]
      constructor
      · intro h
        cases hstep : step fuel (op i f.nextInst (f.parent i)) f.numbering with
        | error e =>
          rw [hstep] at h
          cases h
        | ok n =>
          rw [hstep] at h
          cases h
          exact ⟨user,n,rfl,hsize,rfl,rfl,rfl⟩
      · rintro ⟨user',n,hu,_,hstep,rfl,rfl⟩
        cases hu
        rw [hstep]
        rfl
    · rw [if_neg hsize]
      refine iff_of_false (fun h => by cases h) ?_
      rintro ⟨_,_,_,h,_⟩
      exact hsize h

theorem rewriteUsers_cons {rest : List ℕ} :
    rewriteUsers fuel make op r (i::rest) f = .ok (newVregs,f') ↔
      ∃ v vs g, rewriteUser fuel make op r f i = .ok (v,g) ∧
        rewriteUsers fuel make op r rest g = .ok (vs,f') ∧ newVregs = v::vs := by
  rw [rewriteUsers]
  cases hfirst : rewriteUser fuel make op r f i with
  | error e =>
    refine iff_of_false (fun h => by cases h) ?_
    rintro ⟨v,vs,g,h,_⟩
    cases h
  | ok p =>
    rcases p with ⟨v,g⟩
    show (rewriteUsers fuel make op r rest g >>= fun p => Except.ok (v::p.1,p.2)) = _ ↔ _
    cases hrest : rewriteUsers fuel make op r rest g with
    | error e =>
      refine iff_of_false (fun h => by cases h) ?_
      rintro ⟨v',vs,g',h,h',_⟩
      cases h
      rw [hrest] at h'
      cases h'
    | ok q =>
      rcases q with ⟨vs,f''⟩
      constructor
      · intro h
        cases h
        exact ⟨v,vs,g,rfl,hrest,rfl⟩
      · rintro ⟨v',vs',g',h,h',rfl⟩
        cases h
        rw [hrest] at h'
        cases h'
        rfl

/-! ### All users -/

/-- The new instruction names its own register and no other one. -/
def Names (make : VReg → InstructionData) : Prop :=
  ∀ v w, w ∈ (make v).inputVregs ∨ w ∈ (make v).outputVregs ↔ w = v

theorem names_store (slot : SlotId) : Names (storeVregToSlot slot) := by
  intro v w
  simp [storeVregToSlot,InstructionData.inputVregs,InstructionData.outputVregs,Operand.plain,
    Operand.asInput,OperandData.asVReg?]

theorem names_load (slot : SlotId) : Names (loadFromSlot slot) := by
  intro v w
  simp [loadFromSlot,InstructionData.inputVregs,InstructionData.outputVregs,Operand.plain,
    Operand.asInput,Operand.asOutput,OperandData.asVReg?]

/-- What the rewriting of the instructions `E` leaves of a state: `f'` has a new register and a new
instruction for each. -/
structure Rewrote (make : VReg → InstructionData) (r : ℕ) (E : List ℕ) (f f' : State) :
    Prop where
  parent : ∀ i < f.nextInst, f'.parent i = f.parent i
  preds : f'.preds = f.preds
  nextInst : f'.nextInst = f.nextInst + E.length
  nextVReg : f'.nextVReg = f.nextVReg + E.length
  slots : f'.slots = f.slots
  vregs : f'.vregs r = f.vregs r
  users : f'.users r = (f.users r).filter (·.inst ∉ E)
  kept : ∀ i < f.nextInst, i ∉ E → f'.insts i = f.insts i
  renamed : ∀ k i, E[k]? = some i → f'.insts i = (f.insts i).replaceVreg r (f.nextVReg+k)
  made : ∀ k < E.length, f'.insts (f.nextInst+k) = make (f.nextVReg+k)
  newUsers : ∀ k i, E[k]? = some i → ∃ u ∈ f.users r, u.inst = i ∧
    f'.users (f.nextVReg+k) = [u,⟨f.nextInst+k,
      decide (f.nextVReg+k ∈ (make (f.nextVReg+k)).inputVregs),
      decide (f.nextVReg+k ∈ (make (f.nextVReg+k)).outputVregs)⟩]
  oldUsers : ∀ v < f.nextVReg, v ≠ r → f'.users v = f.users v
  noUsers : ∀ v, f'.nextVReg ≤ v → f'.users v = []

/-- The state a rewriting starts from. -/
structure Rewritable (r : ℕ) (f : State) : Prop where
  old : r < f.nextVReg
  distinct : ((f.users r).map (·.inst)).Nodup
  noUsers : ∀ v, f.nextVReg ≤ v → f.users v = []

theorem eraseP_eq_filter {l : List VRegUser} (h : (l.map (·.inst)).Nodup) :
    l.eraseP (·.inst = i) = l.filter (·.inst ≠ i) := by
  induction l with
  | nil => rfl
  | cons u rest ih =>
    rw [List.map_cons,List.nodup_cons] at h
    by_cases hu : u.inst = i
    · have hrest : rest.filter (·.inst ≠ i) = rest := by
        rw [List.filter_eq_self]
        intro w hw
        have hne : w.inst ≠ i := fun heq => h.1 (by rw [hu,← heq]; exact List.mem_map_of_mem hw)
        simpa using hne
      rw [List.eraseP_cons_of_pos (by simpa using hu),List.filter_cons_of_neg (by simpa using hu),
        hrest]
    · rw [List.eraseP_cons_of_neg (by simpa using hu),List.filter_cons_of_pos (by simpa using hu),
        ih h.2]

theorem Rewrote.nil (h : Rewritable r f) : Rewrote make r [] f f where
  parent := fun _ _ => rfl
  preds := rfl
  nextInst := rfl
  nextVReg := rfl
  slots := rfl
  vregs := rfl
  users := by simp
  kept := fun _ _ _ => rfl
  renamed := fun k i h => by cases h
  made := fun k h => absurd h (Nat.not_lt_zero k)
  newUsers := fun k i h => by cases h
  oldUsers := fun _ _ _ => rfl
  noUsers := h.noUsers

section
variable {user : VRegUser} {n : Numbering}

/-- The state after one rewriting. -/
def State.next (f : State) (make : VReg → InstructionData) (r : VReg) (i : InstId)
    (user : VRegUser) (n : Numbering) : State :=
  { f.rewritten make r i user with numbering := n }

theorem next_users (hnames : Names make) (w : ℕ) : (f.next make r i user n).users w =
    if w = f.nextVReg then
      f.users w ++ [user] ++ [⟨f.nextInst,decide (w ∈ (make f.nextVReg).inputVregs),
        decide (w ∈ (make f.nextVReg).outputVregs)⟩]
    else if w = r then (f.users r).eraseP (·.inst = i) else f.users w := by
  show (if w ∈ (make f.nextVReg).inputVregs ∨ w ∈ (make f.nextVReg).outputVregs then _ else _) = _
  by_cases hw : w = f.nextVReg
  · subst hw
    rw [if_pos ((hnames f.nextVReg f.nextVReg).mpr rfl),if_pos rfl]
    exact congrArg (· ++ _) (Function.update_self f.nextVReg _ _)
  · rw [if_neg (fun hin => hw ((hnames _ _).mp hin)),if_neg hw]
    show Function.update (Function.update f.users r _) f.nextVReg _ w = _
    rw [Function.update_of_ne hw,Function.update_apply]

theorem Rewritable.next (h : Rewritable r f) (hnames : Names make) :
    Rewritable r (f.next make r i user n) where
  old := Nat.lt_succ_of_lt h.old
  distinct := by
    rw [next_users hnames,if_neg (Nat.ne_of_lt h.old),if_pos rfl]
    exact h.distinct.sublist ((List.eraseP_sublist).map _)
  noUsers := by
    intro w hw
    change f.nextVReg+1 ≤ w at hw
    have hold := h.old
    rw [next_users hnames,if_neg (Nat.ne_of_gt hw),if_neg (Nat.ne_of_gt (by omega))]
    exact h.noUsers w (by omega)

/-- The rewriting of the first instruction, and then of the others. -/
theorem Rewrote.cons {rest : List ℕ} (h : Rewritable r f) (hnames : Names make)
    (hfind : (f.users r).find? (·.inst = i) = some user) (hi : i < f.nextInst) (hnot : i ∉ rest)
    (hrest : ∀ j ∈ rest, j < f.nextInst)
    (hnext : Rewrote make r rest (f.next make r i user n) f') : Rewrote make r (i::rest) f f' := by
  have hold := h.old
  have hrn : r ≠ f.nextVReg := Nat.ne_of_lt hold
  have huser : user ∈ f.users r := List.mem_of_find?_eq_some hfind
  have huseri : user.inst = i := by simpa using List.find?_some hfind
  have hparent : ∀ j < f.nextInst, (f.next make r i user n).parent j = f.parent j := fun j hj =>
    Function.update_of_ne (Nat.ne_of_lt hj) _ _
  have hinsts : ∀ j < f.nextInst, (f.next make r i user n).insts j =
      if j = i then (f.insts i).replaceVreg r f.nextVReg else f.insts j := by
    intro j hj
    show Function.update (Function.update f.insts i _) f.nextInst _ j = _
    rw [Function.update_of_ne (Nat.ne_of_lt hj),Function.update_apply]
  have husersR : (f.next make r i user n).users r = (f.users r).filter (·.inst ≠ i) := by
    rw [next_users hnames,if_neg hrn,if_pos rfl,eraseP_eq_filter h.distinct]
  refine ⟨?_,hnext.preds,?_,?_,hnext.slots,?_,?_,?_,?_,?_,?_,?_,hnext.noUsers⟩
  · intro j hj
    rw [hnext.parent j (Nat.lt_succ_of_lt hj),hparent j hj]
  · rw [hnext.nextInst,List.length_cons]
    show f.nextInst+1+rest.length = _
    omega
  · rw [hnext.nextVReg,List.length_cons]
    show f.nextVReg+1+rest.length = _
    omega
  · rw [hnext.vregs]
    exact Function.update_of_ne hrn _ _
  · rw [hnext.users,husersR,List.filter_filter]
    apply List.filter_congr
    intro u _
    simp only [List.mem_cons,not_or,Bool.decide_and]
    rw [Bool.and_comm]
  · intro j hj hnj
    rw [List.mem_cons,not_or] at hnj
    rw [hnext.kept j (Nat.lt_succ_of_lt hj) hnj.2,hinsts j hj,if_neg hnj.1]
  · intro k j hk
    cases k with
    | zero =>
      cases hk
      rw [hnext.kept i (Nat.lt_succ_of_lt hi) hnot,hinsts i hi,if_pos rfl]
      rfl
    | succ k =>
      have hj : j ∈ rest := List.mem_of_getElem? hk
      have hne : j ≠ i := fun heq => hnot (heq ▸ hj)
      rw [hnext.renamed k j hk,hinsts j (hrest j hj),if_neg hne]
      show (f.insts j).replaceVreg r (f.nextVReg+1+k) = _
      rw [Nat.add_assoc,Nat.add_comm 1 k]
  · intro k hk
    cases k with
    | zero =>
      have hkept : f.nextInst ∉ rest := fun hin => absurd (hrest _ hin) (Nat.lt_irrefl _)
      rw [Nat.add_zero,hnext.kept f.nextInst (Nat.lt_succ_self _) hkept]
      exact Function.update_self ..
    | succ k =>
      have hmade := hnext.made k (Nat.lt_of_succ_lt_succ hk)
      change f'.insts (f.nextInst+1+k) = make (f.nextVReg+1+k) at hmade
      rw [Nat.add_assoc,Nat.add_assoc,Nat.add_comm 1 k] at hmade
      exact hmade
  · intro k j hk
    cases k with
    | zero =>
      cases hk
      refine ⟨user,huser,huseri,?_⟩
      have hlt : f.nextVReg < (f.next make r i user n).nextVReg := Nat.lt_succ_self _
      rw [Nat.add_zero,hnext.oldUsers f.nextVReg hlt (Ne.symm hrn),next_users hnames,if_pos rfl,
        h.noUsers f.nextVReg (le_refl _)]
      rfl
    | succ k =>
      rcases hnext.newUsers k j hk with ⟨u,hu,huj,husers⟩
      rw [husersR] at hu
      refine ⟨u,List.mem_of_mem_filter hu,huj,?_⟩
      change f'.users (f.nextVReg+1+k) = [u,⟨f.nextInst+1+k,
        decide (f.nextVReg+1+k ∈ (make (f.nextVReg+1+k)).inputVregs),
        decide (f.nextVReg+1+k ∈ (make (f.nextVReg+1+k)).outputVregs)⟩] at husers
      rw [Nat.add_assoc,Nat.add_assoc,Nat.add_comm 1 k] at husers
      exact husers
  · intro w hw hwr
    rw [hnext.oldUsers w (Nat.lt_succ_of_lt hw) hwr,next_users hnames,if_neg (Nat.ne_of_lt hw),
      if_neg hwr]

end

/-! ### The insertions of a spill -/

/-- The insertions next to the instructions `E`, the first with number `inst`. -/
def insertions (op : InstId → InstId → BasicBlockId → Op) (parent : InstId → BasicBlockId) :
    InstId → List InstId → List Op
  | _, [] => []
  | inst, i::rest => op i inst (parent i)::insertions op parent (inst+1) rest

def stepAll (fuel : ℕ) : List Op → Numbering → Except Fault Numbering
  | [], n => .ok n
  | op::rest, n => step fuel op n >>= stepAll fuel rest

theorem insertions_congr {parent parent' : InstId → BasicBlockId} {inst : InstId}
    (h : ∀ i ∈ E, parent i = parent' i) :
    insertions op parent inst E = insertions op parent' inst E := by
  induction E generalizing inst with
  | nil => rfl
  | cons i rest ih =>
    rw [List.forall_mem_cons] at h
    rw [insertions,insertions,h.1,ih h.2]

/-- The loops of the spiller succeed when the register is a word, the instructions are users of it,
and they can be numbered. -/
theorem rewriteUsers_eq_ok (h : Rewritable r f) (hnames : Names make) (hnodup : E.Nodup)
    (hE : ∀ i ∈ E, i < f.nextInst) : rewriteUsers fuel make op r E f = .ok (newVregs,f') →
    Rewrote make r E f f' ∧ newVregs = List.range' f.nextVReg E.length ∧
      (E ≠ [] → (f.vregs r).size = 4) ∧
      stepAll fuel (insertions op f.parent f.nextInst E) f.numbering = .ok f'.numbering := by
  induction E generalizing f newVregs with
  | nil =>
    intro hrun
    cases hrun
    exact ⟨.nil h,rfl,fun hne => absurd rfl hne,rfl⟩
  | cons i rest ih =>
    intro hrun
    rw [List.nodup_cons] at hnodup
    rw [List.forall_mem_cons] at hE
    rcases rewriteUsers_cons.mp hrun with ⟨v,vs,g,hfirst,hrest,rfl⟩
    rcases rewriteUser_eq_ok.mp hfirst with ⟨user,n,hfind,hsize,hstep,rfl,rfl⟩
    have hlt : ∀ j ∈ rest, j < (f.next make r i user n).nextInst := fun j hj =>
      Nat.lt_succ_of_lt (hE.2 j hj)
    rcases ih (h.next hnames) hnodup.2 hlt hrest with ⟨hrw,rfl,_,hsteps⟩
    refine ⟨.cons h hnames hfind hE.1 hnodup.1 hE.2 hrw,?_,fun _ => hsize,?_⟩
    · rw [List.length_cons,List.range'_succ]
      rfl
    · have hparent : ∀ j ∈ rest, (f.next make r i user n).parent j = f.parent j := fun j hj =>
        Function.update_of_ne (Nat.ne_of_lt (hE.2 j hj)) _ _
      rw [insertions_congr hparent] at hsteps
      rw [insertions,stepAll,hstep]
      exact hsteps

theorem rewriteUsers_ok (h : Rewritable r f) (hnames : Names make) (hnodup : E.Nodup)
    (hE : ∀ i ∈ E, i < f.nextInst) (husers : ∀ i ∈ E, ∃ u ∈ f.users r, u.inst = i)
    (hsize : E ≠ [] → (f.vregs r).size = 4) {n : Numbering}
    (hsteps : stepAll fuel (insertions op f.parent f.nextInst E) f.numbering = .ok n) :
    ∃ newVregs f', rewriteUsers fuel make op r E f = .ok (newVregs,f') := by
  induction E generalizing f with
  | nil => exact ⟨_,_,rfl⟩
  | cons i rest ih =>
    rw [List.nodup_cons] at hnodup
    rw [List.forall_mem_cons] at hE husers
    rcases husers.1 with ⟨u,hu,hui⟩
    have hsome : ((f.users r).find? (·.inst = i)).isSome := by
      rw [List.find?_isSome]
      exact ⟨u,hu,by simpa using hui⟩
    rcases Option.isSome_iff_exists.mp hsome with ⟨user,hfind⟩
    have hfour := hsize (List.cons_ne_nil i rest)
    rw [insertions,stepAll] at hsteps
    cases hstep : step fuel (op i f.nextInst (f.parent i)) f.numbering with
    | error e =>
      rw [hstep] at hsteps
      cases hsteps
    | ok n₁ =>
      rw [hstep] at hsteps
      have hrn : r ≠ f.nextVReg := Nat.ne_of_lt h.old
      have hfirst : rewriteUser fuel make op r f i = .ok (f.nextVReg,f.next make r i user n₁) :=
        rewriteUser_eq_ok.mpr ⟨user,n₁,hfind,hfour,hstep,rfl,rfl⟩
      have hparent : ∀ j ∈ rest, f.parent j = (f.next make r i user n₁).parent j := fun j hj =>
        (Function.update_of_ne (Nat.ne_of_lt (hE.2 j hj)) _ _).symm
      have husers' : (f.next make r i user n₁).users r = (f.users r).filter (·.inst ≠ i) := by
        rw [next_users hnames,if_neg hrn,if_pos rfl,eraseP_eq_filter h.distinct]
      have hrest : ∀ j ∈ rest, ∃ u ∈ (f.next make r i user n₁).users r, u.inst = j := by
        intro j hj
        rcases husers.2 j hj with ⟨u,hu,huj⟩
        have hne : u.inst ≠ i := fun heq => hnodup.1 (by rw [← heq,huj]; exact hj)
        rw [husers']
        exact ⟨u,List.mem_filter.mpr ⟨hu,by simpa using hne⟩,huj⟩
      have hvregs : (f.next make r i user n₁).vregs r = f.vregs r := Function.update_of_ne hrn _ _
      rcases ih (h.next hnames) hnodup.2 (fun j hj => Nat.lt_succ_of_lt (hE.2 j hj)) hrest
        (fun _ => by rw [hvregs]; exact hfour)
        (by rw [← insertions_congr hparent]; exact hsteps) with ⟨vs,f',hrun⟩
      exact ⟨_,_,rewriteUsers_cons.mpr ⟨_,vs,_,hfirst,hrun,rfl⟩⟩

/-! ### Runs of insertions -/

section
variable {ops more : List Op} {n t : Numbering} {layout : List (List ℕ)}

def placeAll : List Op → List (List InstId) → List (List InstId)
  | [], layout => layout
  | op::rest, layout => placeAll rest (op.place layout)

/-- Every target stands in its block, and every instruction is new, when its turn comes. -/
def AllValid : List Op → List (List InstId) → Prop
  | [], _ => True
  | op::rest, layout => op.Valid ⟨layout,[],[]⟩ ∧ AllValid rest (op.place layout)

theorem valid_layout (op : Op) (n : Numbering) : op.Valid ⟨n.layout,[],[]⟩ ↔ op.Valid n := by
  cases op <;> exact Iff.rfl

theorem stepAll_mono {fuel' : ℕ} (hle : fuel ≤ fuel') (h : stepAll fuel ops n = .ok t) :
    stepAll fuel' ops n = .ok t := by
  induction ops generalizing n with
  | nil => exact h
  | cons op rest ih =>
    rw [stepAll] at h ⊢
    cases hstep : step fuel op n with
    | error e =>
      rw [hstep] at h
      cases h
    | ok n₁ =>
      rw [hstep] at h
      rw [step_mono hle hstep]
      exact ih h

theorem stepAll_append : stepAll fuel (ops ++ more) n = .ok t ↔
    ∃ n₁, stepAll fuel ops n = .ok n₁ ∧ stepAll fuel more n₁ = .ok t := by
  induction ops generalizing n with
  | nil => simp [stepAll]
  | cons op rest ih =>
    rw [List.cons_append,stepAll,stepAll]
    cases step fuel op n with
    | error e => exact iff_of_false (fun h => by cases h) fun ⟨_,h,_⟩ => by cases h
    | ok n₁ => exact ih

theorem placeAll_append : placeAll (ops ++ more) layout = placeAll more (placeAll ops layout) := by
  induction ops generalizing layout with
  | nil => rfl
  | cons op rest ih => exact ih

theorem allValid_append : AllValid (ops ++ more) layout ↔
    AllValid ops layout ∧ AllValid more (placeAll ops layout) := by
  induction ops generalizing layout with
  | nil => simp [AllValid,placeAll]
  | cons op rest ih =>
    rw [List.cons_append,AllValid,AllValid,ih,and_assoc]
    rfl

/-- Insertions that have room are all placed. -/
theorem stepAll_of_meets (hinc : Increasing n) (hnodup : n.layout.flatten.Nodup)
    (hvalid : AllValid ops n.layout) (h : RunMeets ops n) :
    ∃ fuel t, stepAll fuel ops n = .ok t ∧ t.layout = placeAll ops n.layout ∧ Increasing t := by
  induction ops generalizing n with
  | nil => exact ⟨0,n,rfl,rfl,hinc⟩
  | cons op rest ih =>
    have hop := (valid_layout op n).mp hvalid.1
    rcases h hop with ⟨hroom,hrest⟩
    rcases (placed_iff hinc hnodup hop).mpr hroom with ⟨n₁,⟨fuel₁,hstep⟩,hlayout,hinc₁⟩
    rcases ih hinc₁ (by rw [hlayout]; exact nodup_place hnodup hop)
      (by rw [hlayout]; exact hvalid.2) (hrest n₁ ⟨fuel₁,hstep⟩) with ⟨fuel,t,hrun,hplace,hinct⟩
    refine ⟨max fuel₁ fuel,t,?_,?_,hinct⟩
    · rw [stepAll,step_mono (le_max_left fuel₁ fuel) hstep]
      exact stepAll_mono (le_max_right fuel₁ fuel) hrun
    · rw [hplace,hlayout]
      rfl

/-- The instruction that an operation inserts. -/
def inserted? : Op → Option InstId
  | .after _ inst _ | .before _ inst _ => some inst
  | .ranges _ => none

/-- What every renumbering and every placing of the new instruction keeps is kept by a step; a
renumbering moves no point down. -/
theorem step_rule_up {P : Numbering → Prop} {op : Op} (hop : inserted? op ≠ none)
    (hmap : ∀ n start base, start.inst ≤ base → P n → P (n.mapPoints (shift start base)))
    (hplace : ∀ n layout inst pp, inserted? op = some inst → P n →
      P ⟨layout,(inst,pp)::n.instToPP,n.ranges⟩) (h : step fuel op n = .ok t) (hn : P n) : P t := by
  have hrec : ∀ {n t : Numbering} {start : ProgramPoint} {add : Bool},
      n.recomputeProgramPointsAfter start add = .ok t → P n → P t := by
    intro n t start add h hn
    rcases Numbering.recompute_eq_ok.mp h with ⟨_,_,rfl⟩
    exact hmap _ _ _ (Nat.le_add_right _ _) hn
  cases op with
  | ranges ranges => exact absurd rfl hop
  | after target inst b =>
    rw [step] at h
    induction fuel generalizing n with
    | zero => cases h
    | succ fuel ih =>
      rw [insertInstAfter] at h
      rcases bind_eq_ok.mp h with ⟨p,_,h⟩
      cases hnext : nextInstOf target (n.insts b) with
      | none =>
        rw [hnext] at h
        cases h
        exact hn
      | some next =>
        rw [hnext] at h
        rcases bind_eq_ok.mp h with ⟨q,_,h⟩
        rcases bind_eq_ok.mp h with ⟨room,_,h⟩
        cases room with
        | some pp =>
          cases h
          exact hplace _ _ _ _ rfl hn
        | none =>
          rcases bind_eq_ok.mp h with ⟨n₁,h₁,h⟩
          exact ih (hrec h₁ hn) h
  | before target inst b =>
    rw [step] at h
    induction fuel generalizing n with
    | zero => cases h
    | succ fuel ih =>
      rw [insertInstBefore] at h
      rcases bind_eq_ok.mp h with ⟨p,_,h⟩
      rcases bind_eq_ok.mp h with ⟨⟨q,n₁⟩,hprev,h⟩
      have hn₁ : P n₁ := by
        rw [prevPoint] at hprev
        cases hat : prevInstOf target (n.insts b) with
        | none =>
          rw [hat] at hprev
          rcases bind_eq_ok.mp hprev with ⟨n₂,h₂,hprev⟩
          by_cases hpos : 0 < p.inst
          · rw [if_pos hpos] at hprev
            cases hprev
            exact hrec h₂ hn
          · rw [if_neg hpos] at hprev
            cases hprev
        | some prev =>
          rw [hat] at hprev
          change (n.pointOf prev).map (fun pp => (pp,n)) = _ at hprev
          cases hpoint : n.pointOf prev with
          | error e =>
            rw [hpoint] at hprev
            cases hprev
          | ok pp =>
            rw [hpoint] at hprev
            cases hprev
            exact hn
      rcases bind_eq_ok.mp h with ⟨room,_,h⟩
      cases room with
      | some pp =>
        cases h
        exact hplace _ _ _ _ rfl hn₁
      | none =>
        rcases bind_eq_ok.mp h with ⟨n₂,h₂,h⟩
        exact ih (hrec h₂ hn₁) h

/-- What every renumbering and every placing of the new instruction keeps is kept by a step. -/
theorem step_rule {P : Numbering → Prop} {op : Op} (hop : inserted? op ≠ none)
    (hmap : ∀ n start base, P n → P (n.mapPoints (shift start base)))
    (hplace : ∀ n layout inst pp, inserted? op = some inst → P n →
      P ⟨layout,(inst,pp)::n.instToPP,n.ranges⟩) (h : step fuel op n = .ok t) (hn : P n) : P t :=
  step_rule_up hop (fun n start base _ => hmap n start base) hplace h hn

/-- A step gives points to no instruction but its own. -/
theorem step_point_none {op : Op} {j : ℕ} (h : step fuel op n = .ok t) (hne : inserted? op ≠ some j)
    (hj : n.point? j = none) : t.point? j = none := by
  cases hop : inserted? op with
  | none =>
    cases op with
    | ranges ranges =>
      cases h
      exact hj
    | after _ _ _ => cases hop
    | before _ _ _ => cases hop
  | some inst =>
    refine step_rule (P := fun n => n.point? j = none) (by rw [hop]; simp) ?_ ?_ h hj
    · intro n start base hn
      rw [Numbering.mapPoints_point?,hn]
      rfl
    · intro n layout k pp hk hn
      have hjk : j ≠ k := fun heq => hne (heq ▸ hk)
      show List.lookup j ((k,pp)::n.instToPP) = none
      rw [List.lookup_cons,beq_eq_false_iff_ne.mpr hjk]
      exact hn

theorem stepAll_point_none {j : ℕ} (h : stepAll fuel ops n = .ok t)
    (hne : ∀ op ∈ ops, inserted? op ≠ some j) (hj : n.point? j = none) : t.point? j = none := by
  induction ops generalizing n with
  | nil =>
    cases h
    exact hj
  | cons op rest ih =>
    rw [List.forall_mem_cons] at hne
    rcases bind_eq_ok.mp h with ⟨n₁,hstep,hrest⟩
    exact ih hrest hne.2 (step_point_none hstep hne.1 hj)

/-- Where a run of insertions ends, all had room, or one of the new instructions has no point. -/
theorem meets_of_stepAll (hinc : Increasing n) (hnodup : n.layout.flatten.Nodup)
    (hvalid : AllValid ops n.layout) (hdistinct : (ops.map inserted?).Nodup)
    (hnone : ∀ op ∈ ops, ∀ j, inserted? op = some j → n.point? j = none)
    (h : stepAll fuel ops n = .ok t) :
    RunMeets ops n ∨ ∃ op ∈ ops, ∃ j, inserted? op = some j ∧ t.point? j = none := by
  induction ops generalizing n with
  | nil => exact Or.inl trivial
  | cons op rest ih =>
    rw [List.map_cons,List.nodup_cons] at hdistinct
    rw [List.forall_mem_cons] at hnone
    have hop := (valid_layout op n).mp hvalid.1
    rcases bind_eq_ok.mp h with ⟨n₁,hstep,hrest⟩
    have hsteps : Steps n op n₁ := ⟨fuel,hstep⟩
    have hothers : ∀ op' ∈ rest, ∀ j, inserted? op' = some j → inserted? op ≠ some j :=
      fun op' hop' j hj heq => hdistinct.1 (List.mem_map.mpr ⟨op',hop',hj.trans heq.symm⟩)
    rcases hsteps.hasRoom hinc hnodup hop with hroom | ⟨rfl,target,inst,b,rfl⟩
    · rcases (placed_iff hinc hnodup hop).mpr hroom with ⟨n₂,hsteps₂,hlayout,hinc₂⟩
      cases hsteps.unique hsteps₂
      rcases ih hinc₂ (by rw [hlayout]; exact nodup_place hnodup hop)
        (by rw [hlayout]; exact hvalid.2) hdistinct.2
        (fun op' hop' j hj => step_point_none hstep (hothers op' hop' j hj) (hnone.2 op' hop' j hj))
        hrest with hmeets | ⟨op',hop',hbad⟩
      · refine Or.inl fun _ => ⟨hroom,?_⟩
        intro u hu
        rw [hu.unique hsteps]
        exact hmeets
      · exact Or.inr ⟨op',List.mem_cons_of_mem _ hop',hbad⟩
    · -- nothing was inserted, and no later step gives the instruction a point
      refine Or.inr ⟨_,List.mem_cons_self,inst,rfl,?_⟩
      refine stepAll_point_none hrest ?_ (hnone.1 inst rfl)
      intro op' hop' heq
      exact hothers op' hop' inst heq rfl

end

end Spiller
end Codegen
end OlaLang
