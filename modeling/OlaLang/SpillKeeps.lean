import OlaLang.SpillRun

/-! What a spill keeps: the function stays well formed, the other registers keep their live ranges,
the new ones get some, and the spilled register is gone. One turn of the loops of the spiller keeps
the function well formed, and so do the loops. -/
namespace OlaLang
namespace Codegen
namespace Spiller

open Liveness ProgramPoints

variable {f f' : State} {r v w i j k b fuel : ℕ} {inst : InstructionData} {make : VReg → InstructionData}
  {op : InstId → InstId → BasicBlockId → Op} {place : ℕ → ℕ → List ℕ → List ℕ} {user : VRegUser}
  {n : Numbering} {E newVregs : List ℕ}

/-! ### Instructions with another register -/

theorem mem_subst {l : List ℕ} :
    v ∈ l.map (fun u => if u = r then w else u) ↔ v = w ∧ r ∈ l ∨ v ≠ r ∧ v ∈ l := by
  rw [List.mem_map]
  constructor
  · rintro ⟨u,hu,rfl⟩
    by_cases h : u = r
    · subst h
      exact Or.inl ⟨if_pos rfl,hu⟩
    · rw [if_neg h]
      exact Or.inr ⟨h,hu⟩
  · rintro (⟨rfl,hr⟩ | ⟨hv,hl⟩)
    · exact ⟨r,hr,if_pos rfl⟩
    · exact ⟨v,hl,if_neg hv⟩

theorem inputVregs_replace : (inst.replaceVreg r w).inputVregs =
    inst.inputVregs.map fun u => if u = r then w else u := by
  rw [InstructionData.inputVregs,InstructionData.inputVregs,InstructionData.replaceVreg,
    List.filterMap_map,List.map_filterMap]
  apply List.filterMap_congr
  rintro ⟨data,input,output,implicit⟩ _
  cases data with
  | vreg u => by_cases h : u = r <;> cases input <;> simp [h,OperandData.asVReg?]
  | _ => cases input <;> simp [OperandData.asVReg?]

theorem outputVregs_replace : (inst.replaceVreg r w).outputVregs =
    inst.outputVregs.map fun u => if u = r then w else u := by
  rw [InstructionData.outputVregs,InstructionData.outputVregs,InstructionData.replaceVreg,
    List.filterMap_map,List.map_filterMap]
  apply List.filterMap_congr
  rintro ⟨data,input,output,implicit⟩ _
  cases data with
  | vreg u => by_cases h : u = r <;> cases output <;> simp [h,OperandData.asVReg?]
  | _ => cases output <;> simp [OperandData.asVReg?]

/-- The new instruction names its own register, with a flag, and a slot of the frame. -/
structure Made (make : VReg → InstructionData) (slots : ℕ) : Prop where
  names : Names make
  own : ∀ v, ∀ op ∈ (make v).operands, ∀ w : ℕ, op.data = .vreg w →
    w = v ∧ (op.input = true ∨ op.output = true)
  slots : ∀ v, ∀ op ∈ (make v).operands, ∀ s : ℕ, op.data = .slot s → s < slots

theorem made_store {slot slots : ℕ} (h : slot < slots) : Made (storeVregToSlot slot) slots where
  names := names_store slot
  own := by
    intro v op hop w hw
    simp only [storeVregToSlot,List.mem_cons,List.not_mem_nil,or_false] at hop
    rcases hop with rfl | rfl | rfl | rfl | rfl | rfl | rfl | rfl <;>
      simp_all [Operand.plain,Operand.asInput]
  slots := by
    intro v op hop s hs
    simp only [storeVregToSlot,List.mem_cons,List.not_mem_nil,or_false] at hop
    rcases hop with rfl | rfl | rfl | rfl | rfl | rfl | rfl | rfl <;>
      simp_all [Operand.plain,Operand.asInput]

theorem made_load {slot slots : ℕ} (h : slot < slots) : Made (loadFromSlot slot) slots where
  names := names_load slot
  own := by
    intro v op hop w hw
    simp only [loadFromSlot,List.mem_cons,List.not_mem_nil,or_false] at hop
    rcases hop with rfl | rfl | rfl | rfl | rfl | rfl | rfl | rfl <;>
      simp_all [Operand.plain,Operand.asInput,Operand.asOutput]
  slots := by
    intro v op hop s hs
    simp only [loadFromSlot,List.mem_cons,List.not_mem_nil,or_false] at hop
    rcases hop with rfl | rfl | rfl | rfl | rfl | rfl | rfl | rfl <;>
      simp_all [Operand.plain,Operand.asInput,Operand.asOutput]

/-! ### One turn -/

/-- The instruction names the register in an operand. -/
def Mentions (inst : InstructionData) (v : ℕ) : Prop := ∃ op ∈ inst.operands, op.data = .vreg v

theorem mentions_of_input (h : v ∈ inst.inputVregs) : Mentions inst v := by
  rcases List.mem_filterMap.mp h with ⟨op,hop,hv⟩
  rcases Option.ite_none_right_eq_some.mp hv with ⟨_,hdata⟩
  refine ⟨op,hop,?_⟩
  cases hd : op.data with
  | vreg u =>
    rw [hd] at hdata
    cases hdata
    rfl
  | _ =>
    rw [hd] at hdata
    cases hdata

theorem mentions_of_output (h : v ∈ inst.outputVregs) : Mentions inst v := by
  rcases List.mem_filterMap.mp h with ⟨op,hop,hv⟩
  rcases Option.ite_none_right_eq_some.mp hv with ⟨_,hdata⟩
  refine ⟨op,hop,?_⟩
  cases hd : op.data with
  | vreg u =>
    rw [hd] at hdata
    cases hdata
    rfl
  | _ =>
    rw [hd] at hdata
    cases hdata

theorem mentions_replace : Mentions (inst.replaceVreg r w) v ↔
    v = w ∧ Mentions inst r ∨ v ≠ r ∧ Mentions inst v := by
  constructor
  · rintro ⟨op',hop',hv⟩
    rcases List.mem_map.mp hop' with ⟨op,hop,rfl⟩
    by_cases hd : op.data = .vreg r
    · rw [if_pos hd] at hv
      cases hv
      exact Or.inl ⟨rfl,op,hop,hd⟩
    · rw [if_neg hd] at hv
      refine Or.inr ⟨?_,op,hop,hv⟩
      rintro rfl
      exact hd hv
  · rintro (⟨rfl,op,hop,hd⟩ | ⟨hv,op,hop,hd⟩)
    · exact ⟨_,List.mem_map_of_mem hop,by rw [if_pos hd]⟩
    · refine ⟨_,List.mem_map_of_mem hop,?_⟩
      rw [if_neg]
      · exact hd
      · rw [hd]
        exact fun heq => hv (OperandData.vreg.inj heq)

namespace WellFormed

theorem mentions_lt (h : WellFormed f) (hi : i ∈ f.numbering.layout.flatten)
    (hm : Mentions (f.insts i) v) : v < f.nextVReg := by
  rcases hm with ⟨op,hop,hv⟩
  exact h.vregs i hi op hop v hv

/-- Where the new instruction stands after its turn. -/
theorem mem_block (hop : Follows op place) (hplace : NextTo place)
    (hlayout : n.layout = (op i f.nextInst (f.parent i)).place f.numbering.layout) {l : List ℕ}
    (hb : n.layout[b]? = some l) (hj : j ∈ l) : b = f.parent i ∧ j = f.nextInst ∨
      ∃ l₀, f.numbering.layout[b]? = some l₀ ∧ j ∈ l₀ := by
  rw [hlayout,(hop _ _ _).1,List.getElem?_modify] at hb
  cases hl : f.numbering.layout[b]? with
  | none =>
    rw [hl] at hb
    cases hb
  | some l₀ =>
    rw [hl] at hb
    cases hb
    change j ∈ if f.parent i = b then place i f.nextInst l₀ else l₀ at hj
    by_cases hparent : f.parent i = b
    · rw [if_pos hparent] at hj
      rcases hplace.mem _ _ _ _ hj with hj | hj
      · exact Or.inl ⟨hparent.symm,hj⟩
      · exact Or.inr ⟨l₀,rfl,hj⟩
    · rw [if_neg hparent] at hj
      exact Or.inr ⟨l₀,rfl,hj⟩

theorem mem_layout (h : WellFormed f) (hop : Follows op place) (hplace : NextTo place)
    (hi : i ∈ f.numbering.layout.flatten)
    (hlayout : n.layout = (op i f.nextInst (f.parent i)).place f.numbering.layout) :
    j ∈ n.layout.flatten ↔ j = f.nextInst ∨ j ∈ f.numbering.layout.flatten := by
  constructor
  · intro hj
    rcases List.mem_flatten.mp hj with ⟨l,hl,hjl⟩
    rcases List.getElem?_of_mem hl with ⟨b,hb⟩
    rcases mem_block hop hplace hlayout hb hjl with ⟨_,hj⟩ | ⟨l₀,hl₀,hj⟩
    · exact Or.inl hj
    · exact Or.inr (List.mem_flatten.mpr ⟨l₀,List.mem_of_getElem? hl₀,hj⟩)
  · have hget : ∀ b l₀, f.numbering.layout[b]? = some l₀ →
        n.layout[b]? = some (if f.parent i = b then place i f.nextInst l₀ else l₀) := by
      intro b l₀ hl₀
      rw [hlayout,(hop _ _ _).1,List.getElem?_modify,hl₀]
      rfl
    rintro (rfl | hj)
    · rcases h.block hi with ⟨l₀,hl₀,hil⟩
      refine List.mem_flatten.mpr ⟨_,List.mem_of_getElem? (hget _ _ hl₀),?_⟩
      rw [if_pos rfl]
      exact hplace.new _ _ _ hil
    · rcases List.mem_flatten.mp hj with ⟨l₀,hl₀,hjl⟩
      rcases List.getElem?_of_mem hl₀ with ⟨b,hb⟩
      refine List.mem_flatten.mpr ⟨_,List.mem_of_getElem? (hget _ _ hb),?_⟩
      split
      · exact hplace.keep _ _ _ _ hjl
      · exact hjl

end WellFormed

theorem next_insts : (f.next make r i user n).insts j =
    if j = f.nextInst then make f.nextVReg
    else if j = i then (f.insts i).replaceVreg r f.nextVReg else f.insts j := by
  show Function.update (Function.update f.insts i _) f.nextInst _ j = _
  rw [Function.update_apply,Function.update_apply]

/-- What an old instruction does to a register after the turn. -/
theorem next_userOf (hj : j < f.nextInst) (hv : v ≠ f.nextVReg)
    (hvr : v ≠ r) : (f.next make r i user n).userOf v j = f.userOf v j := by
  rw [State.userOf,State.userOf,next_insts,if_neg (Nat.ne_of_lt hj)]
  by_cases hji : j = i
  · subst hji
    rw [if_pos rfl,inputVregs_replace,outputVregs_replace]
    congr 1 <;> exact decide_eq_decide.mpr (by rw [mem_subst]; tauto)
  · rw [if_neg hji]

/-- The instruction of the turn has its new register in place of the old one. -/
theorem next_userOf_self (hi : i < f.nextInst) (hnot : ¬ Mentions (f.insts i) f.nextVReg)
    : (f.next make r i user n).userOf f.nextVReg i = f.userOf r i := by
  have hin : f.nextVReg ∉ (f.insts i).inputVregs := fun h => hnot (mentions_of_input h)
  have hout : f.nextVReg ∉ (f.insts i).outputVregs := fun h => hnot (mentions_of_output h)
  rw [State.userOf,State.userOf,next_insts,if_neg (Nat.ne_of_lt hi),if_pos rfl,
    inputVregs_replace,outputVregs_replace]
  congr 1 <;> exact decide_eq_decide.mpr (by rw [mem_subst]; tauto)

/-- A register that the instruction does not name has no user in it. -/
theorem userOf_not_flagged (hnot : ¬ Mentions (f.insts i) v) :
    ¬ ((f.userOf v i).read = true ∨ (f.userOf v i).write = true) := by
  rintro (h | h)
  · exact hnot (mentions_of_input (of_decide_eq_true h))
  · exact hnot (mentions_of_output (of_decide_eq_true h))

theorem Made.not_mentions {slots : ℕ} (h : Made make slots) (hv : v ≠ w) :
    ¬ Mentions (make w) v := by
  rintro ⟨op,hop,hd⟩
  exact hv (h.own w op hop v hd).1

/-- One turn keeps the function well formed. -/
theorem WellFormed.next (hf : WellFormed f) (hr : r < f.nextVReg)
    (hmade : Made make f.slots.length) (hop : Follows op place) (hplace : NextTo place)
    (hfind : (f.users r).find? (·.inst = i) = some user) (hinc : Increasing n)
    (hlayout : n.layout = (op i f.nextInst (f.parent i)).place f.numbering.layout)
    (hnone : ∀ j, f.nextInst+1 ≤ j → n.point? j = none) :
    WellFormed (f.next make r i user n) := by
  have huser : user ∈ f.users r := List.mem_of_find?_eq_some hfind
  have hui : user.inst = i := by simpa using List.find?_some hfind
  have hin : i ∈ f.numbering.layout.flatten := hui ▸ hf.user_mem huser
  have hilt := hf.old i hin
  have hmem : ∀ j : ℕ, j ∈ (f.next make r i user n).numbering.layout.flatten ↔
      j = f.nextInst ∨ j ∈ f.numbering.layout.flatten := fun j =>
    hf.mem_layout hop hplace hin hlayout
  have huserOf : user = f.userOf r i := hui ▸ ((hf.users r user).mp huser).2.1
  have hfresh : ∀ j ∈ f.numbering.layout.flatten, ¬ Mentions (f.insts j) f.nextVReg :=
    fun j hj hm => absurd (hf.mentions_lt hj hm) (Nat.lt_irrefl _)
  have hvalid : (op i f.nextInst (f.parent i)).Valid f.numbering := by
    rw [← valid_layout,(hop _ _ _).2.1]
    rcases hf.block hin with ⟨l,hl,hil⟩
    rw [hl]
    exact ⟨hil,fun h => absurd (hf.old _ h) (Nat.lt_irrefl _)⟩
  constructor
  · exact hinc
  · show n.layout.flatten.Nodup
    rw [hlayout]
    exact nodup_place hf.nodup hvalid
  · intro b l hb j hj
    show Function.update f.parent f.nextInst (f.parent i) j = b
    rcases mem_block hop hplace hlayout hb hj with ⟨rfl,rfl⟩ | ⟨l₀,hl₀,hj⟩
    · exact Function.update_self ..
    · have hlt := hf.old j (List.mem_flatten.mpr ⟨l₀,List.mem_of_getElem? hl₀,hj⟩)
      rw [Function.update_of_ne (Nat.ne_of_lt hlt)]
      exact hf.parent b l₀ hl₀ j hj
  · intro j hj
    show j < f.nextInst+1
    rcases (hmem j).mp hj with rfl | hj
    · exact Nat.lt_succ_self _
    · exact Nat.lt_succ_of_lt (hf.old j hj)
  · exact hnone
  · intro v u
    rw [hmem,next_users hmade.names]
    by_cases hv : v = f.nextVReg
    · subst hv
      rw [if_pos rfl,hf.noUsers (le_refl _)]
      simp only [List.nil_append,List.singleton_append,List.mem_cons,List.not_mem_nil,or_false]
      constructor
      · rintro (rfl | rfl)
        · refine ⟨Or.inr (hui ▸ hin),?_,((hf.users r _).mp huser).2.2⟩
          rw [hui,next_userOf_self hilt (hfresh i hin)]
          exact huserOf
        · refine ⟨Or.inl rfl,?_,?_⟩
          · rw [State.userOf,next_insts,if_pos rfl]
          · have hname := (hmade.names f.nextVReg f.nextVReg).mpr rfl
            exact hname.imp decide_eq_true decide_eq_true
      · rintro ⟨hu | hu,heq,hflag⟩
        · right
          rw [heq,hu,State.userOf,next_insts,if_pos rfl]
        · by_cases hi : u.inst = i
          · left
            rw [heq,hi,next_userOf_self hilt (hfresh i hin)]
            exact huserOf.symm
          · exfalso
            have hlt := hf.old _ hu
            rw [heq] at hflag
            refine userOf_not_flagged ?_ hflag
            rw [next_insts,if_neg (Nat.ne_of_lt hlt),if_neg hi]
            exact hfresh _ hu
    · rw [if_neg hv]
      by_cases hvr : v = r
      · subst hvr
        rw [if_pos rfl,eraseP_eq_filter (hf.distinct v),List.mem_filter,hf.users v u]
        have hsame : ∀ j < f.nextInst, j ≠ i →
            (f.next make v i user n).userOf v j = f.userOf v j := by
          intro j hj hji
          rw [State.userOf,State.userOf,next_insts,if_neg (Nat.ne_of_lt hj),if_neg hji]
        constructor
        · rintro ⟨⟨hu,heq,hflag⟩,hne⟩
          refine ⟨Or.inr hu,?_,hflag⟩
          rw [hsame _ (hf.old _ hu) (by simpa using hne)]
          exact heq
        · rintro ⟨hu | hu,heq,hflag⟩
          · exfalso
            rw [heq] at hflag
            refine userOf_not_flagged ?_ hflag
            rw [hu,next_insts,if_pos rfl]
            exact hmade.not_mentions hv
          · by_cases hi : u.inst = i
            · exfalso
              rw [heq] at hflag
              refine userOf_not_flagged ?_ hflag
              rw [hi,next_insts,if_neg (Nat.ne_of_lt hilt),if_pos rfl,mentions_replace]
              rintro (⟨h,_⟩ | ⟨h,_⟩)
              · exact hv h
              · exact h rfl
            · rw [hsame _ (hf.old _ hu) hi] at heq
              exact ⟨⟨hu,heq,hflag⟩,by simpa using hi⟩
      · rw [if_neg hvr,hf.users v u]
        constructor
        · rintro ⟨hu,heq,hflag⟩
          refine ⟨Or.inr hu,?_,hflag⟩
          rw [next_userOf (hf.old _ hu) hv hvr]
          exact heq
        · rintro ⟨hu | hu,heq,hflag⟩
          · exfalso
            rw [heq] at hflag
            refine userOf_not_flagged ?_ hflag
            rw [hu,next_insts,if_pos rfl]
            exact hmade.not_mentions hv
          · rw [next_userOf (hf.old _ hu) hv hvr] at heq
            exact ⟨hu,heq,hflag⟩
  · intro v
    rw [next_users hmade.names]
    by_cases hv : v = f.nextVReg
    · rw [if_pos hv,hf.noUsers (Nat.le_of_eq hv.symm)]
      have hne : user.inst ≠ f.nextInst := hui ▸ Nat.ne_of_lt hilt
      simpa using hne
    · rw [if_neg hv]
      by_cases hvr : v = r
      · rw [if_pos hvr]
        exact (hf.distinct r).sublist (List.eraseP_sublist.map _)
      · rw [if_neg hvr]
        exact hf.distinct v
  · intro j hj p hp v hv
    show v < f.nextVReg+1
    have hm : Mentions ((f.next make r i user n).insts j) v := ⟨p,hp,hv⟩
    rw [next_insts] at hm
    rcases (hmem j).mp hj with rfl | hj
    · rw [if_pos rfl] at hm
      rcases hm with ⟨q,hq,hv⟩
      exact Nat.lt_succ_of_le (Nat.le_of_eq (hmade.own _ q hq v hv).1)
    · rw [if_neg (Nat.ne_of_lt (hf.old j hj))] at hm
      by_cases hji : j = i
      · rw [if_pos hji,mentions_replace] at hm
        rcases hm with ⟨rfl,_⟩ | ⟨_,hm⟩
        · exact Nat.lt_succ_self _
        · exact Nat.lt_succ_of_lt (hf.mentions_lt hin hm)
      · rw [if_neg hji] at hm
        exact Nat.lt_succ_of_lt (hf.mentions_lt hj hm)
  · intro j hj p hp s hs
    show s < f.slots.length
    rw [next_insts] at hp
    rcases (hmem j).mp hj with rfl | hj
    · rw [if_pos rfl] at hp
      exact hmade.slots _ p hp s hs
    · rw [if_neg (Nat.ne_of_lt (hf.old j hj))] at hp
      by_cases hji : j = i
      · rw [if_pos hji] at hp
        rcases List.mem_map.mp hp with ⟨q,hq,rfl⟩
        split at hs
        · cases hs
        · exact hf.slots i hin q hq s hs
      · rw [if_neg hji] at hp
        exact hf.slots j hj p hp s hs

/-! ### The loops -/

/-- Some instruction of the layout names the register. -/
def Occurs (f : State) (v : ℕ) : Prop :=
  ∃ i ∈ f.numbering.layout.flatten, Mentions (f.insts i) v

/-- The instructions that name the register read or write it. -/
def Flagged (f : State) (v : ℕ) : Prop := ∀ i ∈ f.numbering.layout.flatten,
  Mentions (f.insts i) v → v ∈ (f.insts i).inputVregs ∨ v ∈ (f.insts i).outputVregs

def Ranged (n : Numbering) (v : ℕ) : Prop := ∃ seg segs, n.ranges.lookup (.virt v) = some (seg::segs)

/-- What the rewriting of `r` keeps. -/
structure Kept (r : ℕ) (f f' : State) : Prop where
  wellFormed : WellFormed f'
  layout : ∀ i ∈ f.numbering.layout.flatten, i ∈ f'.numbering.layout.flatten
  grows : f.nextVReg ≤ f'.nextVReg
  nextInst : f.nextInst ≤ f'.nextInst
  occurs : ∀ v, Occurs f' v → Occurs f v ∨ f.nextVReg ≤ v
  remains : ∀ v, v ≠ r → Occurs f v → Occurs f' v
  flagged : ∀ v, Flagged f' v ↔ Flagged f v
  ranged : ∀ v, Ranged f.numbering v → Ranged f'.numbering v

theorem Kept.refl (h : WellFormed f) : Kept r f f :=
  ⟨h,fun _ => id,Nat.le_refl _,Nat.le_refl _,fun _ => Or.inl,fun _ _ => id,fun _ => Iff.rfl,
    fun _ => id⟩

theorem Kept.trans {g : State} (h : Kept r f f') (h' : Kept r f' g) : Kept r f g where
  wellFormed := h'.wellFormed
  layout := fun i hi => h'.layout i (h.layout i hi)
  grows := Nat.le_trans h.grows h'.grows
  nextInst := Nat.le_trans h.nextInst h'.nextInst
  occurs := fun v hv => (h'.occurs v hv).elim (h.occurs v) fun hle => Or.inr (Nat.le_trans h.grows hle)
  remains := fun v hv hocc => h'.remains v hv (h.remains v hv hocc)
  flagged := fun v => (h'.flagged v).trans (h.flagged v)
  ranged := fun v hv => h'.ranged v (h.ranged v hv)

theorem step_ranged {o : Op} {t : Numbering} (ho : inserted? o ≠ none)
    (h : step fuel o n = .ok t) (hn : Ranged n v) : Ranged t v := by
  refine step_rule (P := fun n => Ranged n v) ho ?_ (fun _ _ _ _ _ hn => hn) h hn
  rintro n start base ⟨seg,segs,hseg⟩
  have hlookup := lookup_map n.ranges (fun segs => segs.map fun seg : LiveSegment =>
    (⟨shift start base seg.start,shift start base seg.stop⟩ : LiveSegment)) (.virt v)
  rw [hseg] at hlookup
  exact ⟨_,_,hlookup⟩

theorem Kept.next (hf : WellFormed f) (hmade : Made make f.slots.length)
    (hop : Follows op place) (hplace : NextTo place) (hi : i ∈ f.numbering.layout.flatten)
    (hreads : r ∈ (f.insts i).inputVregs ∨ r ∈ (f.insts i).outputVregs)
    (hstep : step fuel (op i f.nextInst (f.parent i)) f.numbering = .ok n)
    (hlayout : n.layout = (op i f.nextInst (f.parent i)).place f.numbering.layout)
    (hnext : WellFormed (f.next make r i user n)) : Kept r f (f.next make r i user n) := by
  have hilt := hf.old i hi
  have hmem : ∀ j : ℕ, j ∈ (f.next make r i user n).numbering.layout.flatten ↔
      j = f.nextInst ∨ j ∈ f.numbering.layout.flatten := fun j =>
    hf.mem_layout hop hplace hi hlayout
  refine ⟨hnext,fun j hj => (hmem j).mpr (Or.inr hj),Nat.le_succ _,Nat.le_succ _,?_,?_,?_,?_⟩
  · rintro v ⟨j,hj,hm⟩
    rw [next_insts] at hm
    rcases (hmem j).mp hj with rfl | hj
    · rw [if_pos rfl] at hm
      rcases hm with ⟨p,hp,hv⟩
      exact Or.inr (Nat.le_of_eq (hmade.own _ p hp v hv).1.symm)
    · rw [if_neg (Nat.ne_of_lt (hf.old j hj))] at hm
      by_cases hji : j = i
      · rw [if_pos hji,mentions_replace] at hm
        rcases hm with ⟨rfl,_⟩ | ⟨_,hm⟩
        · exact Or.inr (le_refl _)
        · exact Or.inl ⟨i,hi,hm⟩
      · rw [if_neg hji] at hm
        exact Or.inl ⟨j,hj,hm⟩
  · rintro v hv ⟨j,hj,hm⟩
    refine ⟨j,(hmem j).mpr (Or.inr hj),?_⟩
    rw [next_insts,if_neg (Nat.ne_of_lt (hf.old j hj))]
    by_cases hji : j = i
    · subst hji
      rw [if_pos rfl,mentions_replace]
      exact Or.inr ⟨hv,hm⟩
    · rw [if_neg hji]
      exact hm
  · intro v
    constructor
    · intro hflag j hj hm
      have hlt : v < f.nextVReg := hf.mentions_lt hj hm
      have hflag' := hflag j ((hmem j).mpr (Or.inr hj))
      rw [next_insts,if_neg (Nat.ne_of_lt (hf.old j hj))] at hflag'
      by_cases hji : j = i
      · subst hji
        rw [if_pos rfl,inputVregs_replace,outputVregs_replace,mem_subst,mem_subst,
          mentions_replace] at hflag'
        by_cases hvr : v = r
        · rw [hvr]
          exact hreads
        · exact (hflag' (Or.inr ⟨hvr,hm⟩)).imp
            (fun h => (h.resolve_left fun h => absurd h.1 (Nat.ne_of_lt hlt)).2)
            fun h => (h.resolve_left fun h => absurd h.1 (Nat.ne_of_lt hlt)).2
      · rw [if_neg hji] at hflag'
        exact hflag' hm
    · intro hflag j hj hm
      rw [next_insts] at hm ⊢
      rcases (hmem j).mp hj with rfl | hj
      · rw [if_pos rfl] at hm ⊢
        rcases hm with ⟨p,hp,hv⟩
        exact (hmade.names _ _).mpr (hmade.own _ p hp v hv).1
      · rw [if_neg (Nat.ne_of_lt (hf.old j hj))] at hm ⊢
        by_cases hji : j = i
        · rw [if_pos hji,mentions_replace] at hm
          rw [if_pos hji,inputVregs_replace,outputVregs_replace,mem_subst,mem_subst]
          rcases hm with ⟨rfl,_⟩ | ⟨hv,hm⟩
          · exact hreads.imp (fun h => Or.inl ⟨rfl,h⟩) fun h => Or.inl ⟨rfl,h⟩
          · exact (hflag i hi hm).imp (fun h => Or.inr ⟨hv,h⟩) fun h => Or.inr ⟨hv,h⟩
        · rw [if_neg hji] at hm ⊢
          exact hflag j hj hm
  · intro v
    exact step_ranged (by rw [(hop _ _ _).2.2]; simp) hstep

/-- A loop of the spiller whose insertions have room, with the ones that come after it. -/
theorem rewriteUsers_kept (hf : WellFormed f) (hr : r < f.nextVReg)
    (hmade : Made make f.slots.length) (hop : Follows op place) (hplace : NextTo place)
    (hE : ∀ i ∈ E, i ∈ f.numbering.layout.flatten) {more : List Op}
    (hmeets : RunMeets (insertions op f.parent f.nextInst E ++ more) f.numbering)
    (hrun : rewriteUsers fuel make op r E f = .ok (newVregs,f')) :
    Kept r f f' ∧ RunMeets more f'.numbering := by
  induction E generalizing f newVregs with
  | nil =>
    cases hrun
    exact ⟨.refl hf,hmeets⟩
  | cons i rest ih =>
    rw [List.forall_mem_cons] at hE
    rcases rewriteUsers_cons.mp hrun with ⟨v,vs,g,hfirst,hrest,rfl⟩
    rcases rewriteUser_eq_ok.mp hfirst with ⟨user,n,hfind,_,hstep,rfl,rfl⟩
    have hvalid : (op i f.nextInst (f.parent i)).Valid f.numbering := by
      rw [← valid_layout,(hop _ _ _).2.1]
      rcases hf.block hE.1 with ⟨l,hl,hil⟩
      rw [hl]
      exact ⟨hil,fun h => absurd (hf.old _ h) (Nat.lt_irrefl _)⟩
    rcases hmeets hvalid with ⟨hroom,hmeets⟩
    rcases (placed_iff hf.increasing hf.nodup hvalid).mpr hroom with ⟨t,hsteps,hlayout,hinc⟩
    cases Steps.unique ⟨fuel,hstep⟩ hsteps
    have hnone : ∀ j, f.nextInst+1 ≤ j → n.point? j = none := by
      intro j hj
      refine step_point_none hstep ?_ (hf.noPoint j (Nat.le_of_succ_le hj))
      rw [(hop _ _ _).2.2]
      exact fun h => absurd (Option.some.inj h) (Nat.ne_of_lt hj)
    have hnext := hf.next hr hmade hop hplace hfind hinc hlayout hnone
    have hparent : ∀ j ∈ rest, f.parent j = (f.next make r i user n).parent j := fun j hj =>
      (Function.update_of_ne (Nat.ne_of_lt (hf.old j (hE.2 j hj))) _ _).symm
    have hmeets' := hmeets n hsteps
    rw [insertions_congr hparent] at hmeets'
    have hin : ∀ j ∈ rest, j ∈ (f.next make r i user n).numbering.layout.flatten := fun j hj =>
      (hf.mem_layout hop hplace hE.1 hlayout).mpr (Or.inr (hE.2 j hj))
    rcases ih hnext (Nat.lt_succ_of_lt hr) hmade hin hmeets' hrest with ⟨hkept,hmore⟩
    have huser := (hf.users r user).mp (List.mem_of_find?_eq_some hfind)
    have hui : user.inst = i := by simpa using List.find?_some hfind
    have hreads : r ∈ (f.insts i).inputVregs ∨ r ∈ (f.insts i).outputVregs := by
      have hflags := huser.2.2
      rw [huser.2.1,hui] at hflags
      exact hflags.imp of_decide_eq_true of_decide_eq_true
    exact ⟨(Kept.next hf hmade hop hplace hE.1 hreads hstep hlayout hnext).trans hkept,hmore⟩

/-! ### Live ranges -/

theorem lookup_filter_ne {A : Type} {l : List (LReg × A)} {key other : LReg} (h : other ≠ key) :
    (l.filter fun entry => entry.1 ≠ key).lookup other = l.lookup other := by
  induction l with
  | nil => rfl
  | cons entry rest ih =>
    rcases entry with ⟨k,a⟩
    by_cases hk : k = key
    · rw [List.filter_cons_of_neg (by simpa using hk),ih,List.lookup_cons,
        beq_eq_false_iff_ne.mpr (hk ▸ h)]
    · rw [List.filter_cons_of_pos (by simpa using hk),List.lookup_cons,List.lookup_cons,ih]

theorem lookup_setRange {key other : LReg} {segs : List LiveSegment} :
    (setRange n key segs).ranges.lookup other =
      if other = key then some segs else n.ranges.lookup other := by
  show List.lookup other ((key,segs)::n.ranges.filter fun range => range.1 ≠ key) = _
  rw [List.lookup_cons]
  by_cases h : other = key
  · rw [if_pos h,beq_iff_eq.mpr h]
  · rw [if_neg h,beq_eq_false_iff_ne.mpr h]
    exact lookup_filter_ne h

/-- The range that is found for a register replaces the one it had. -/
theorem computeLiveRanges_set {g : State} (h : computeLiveRanges f v = .ok g) :
    ∃ seg, g = { f with numbering := setRange f.numbering (.virt v) [seg] } := by
  rcases bind_eq_ok.mp h with ⟨points,_,hrest⟩
  cases hleast : least ((points.filter (·.1.write)).map (·.2)) with
  | none =>
    simp only [hleast] at hrest
    cases hrest
  | some start =>
    cases hgreatest : greatest ((points.filter fun p => !p.1.write && p.1.read).map (·.2)) with
    | none =>
      simp only [hleast,hgreatest] at hrest
      cases hrest
    | some stop =>
      simp only [hleast,hgreatest] at hrest
      cases hrest
      exact ⟨_,rfl⟩

theorem computeLiveRanges_ranged {g : State} (h : computeLiveRanges f v = .ok g) :
    Ranged g.numbering v ∧ ∀ w, Ranged f.numbering w → Ranged g.numbering w := by
  rcases computeLiveRanges_set h with ⟨seg,rfl⟩
  constructor
  · refine ⟨seg,[],?_⟩
    rw [lookup_setRange,if_pos rfl]
  · rintro w ⟨seg',segs,hw⟩
    by_cases heq : w = v
    · refine ⟨seg,[],?_⟩
      rw [lookup_setRange,if_pos (congrArg LReg.virt heq)]
    · refine ⟨seg',segs,?_⟩
      rw [lookup_setRange,if_neg (fun h => heq (LReg.virt.inj h))]
      exact hw

theorem computeAllRanges_ranged {vs : List ℕ} {g : State} (h : computeAllRanges vs f = .ok g) :
    (∀ v ∈ vs, Ranged g.numbering v) ∧ ∀ w, Ranged f.numbering w → Ranged g.numbering w := by
  induction vs generalizing f with
  | nil =>
    cases h
    exact ⟨by simp,fun _ => id⟩
  | cons v rest ih =>
    rcases bind_eq_ok.mp h with ⟨e,he,hrest⟩
    rcases computeLiveRanges_ranged he with ⟨hv,hothers⟩
    rcases ih hrest with ⟨hall,hmore⟩
    rw [List.forall_mem_cons]
    exact ⟨⟨hmore v hv,hall⟩,fun w hw => hmore w (hothers w hw)⟩

/-! ### The spill -/

theorem WellFormed.sameCode {g : State} (h : WellFormed f) (hsame : SameCode f g) :
    WellFormed g := by
  rcases hsame with ⟨ranges,rfl⟩
  exact ⟨h.increasing,h.nodup,h.parent,h.old,h.noPoint,h.users,h.distinct,h.vregs,h.slots⟩

theorem WellFormed.addSlot (h : WellFormed f) (slot : Slot) :
    WellFormed { f with slots := f.slots ++ [slot] } := by
  refine ⟨h.increasing,h.nodup,h.parent,h.old,h.noPoint,h.users,h.distinct,h.vregs,?_⟩
  intro i hi p hp s hs
  show s < (f.slots ++ [slot]).length
  rw [List.length_append]
  exact Nat.lt_add_right 1 (h.slots i hi p hp s hs)

/-- What a spill leaves of the registers. -/
structure Settled (r : ℕ) (newVregs : List ℕ) (f f' : State) : Prop where
  wellFormed : WellFormed f'
  fresh : newVregs = List.range' f.nextVReg newVregs.length
  nextVReg : f'.nextVReg = f.nextVReg+newVregs.length
  nextInst : f.nextInst ≤ f'.nextInst
  occurs : ∀ v, Occurs f' v → Occurs f v ∨ v ∈ newVregs
  remains : ∀ v, v ≠ r → Occurs f v → Occurs f' v
  flagged : ∀ v, Flagged f' v ↔ Flagged f v
  gone : Flagged f r → ¬ Occurs f' r
  ranged : ∀ v, v ≠ r → Ranged f.numbering v → Ranged f'.numbering v
  newRanged : ∀ v ∈ newVregs, Ranged f'.numbering v

theorem spill_settled (hf : WellFormed f) (hr : r < f.nextVReg)
    (h : spill fuel r f = .ok (newVregs,f')) : Settled r newVregs f f' := by
  have hspillable := (spill_spec hf hr h).1
  rcases spill_eq_ok.mp h with ⟨vs₁,f₁,vs₂,f₂,g,h₁,h₂,hg,rfl,rfl⟩
  rcases rewritten_of_runs hf hr h₁ h₂ with ⟨hboth,_,rfl,rfl,_⟩
  have hslot : f.slots.length < (f.slots ++ [f.vregs r]).length := by simp
  have hf₀ := hf.addSlot (f.vregs r)
  rw [hf.uses_of_users hboth.first.users] at h₂
  rcases rewriteUsers_kept hf₀ hr (made_store hslot) follows_after nextTo_after
    (fun i hi => (hf.mem_defs.mp hi).1) hspillable.room h₁ with ⟨hkept₁,hmeets⟩
  have hparent : ∀ i ∈ f.reloads r, f.parent i = f₁.parent i := fun i hi =>
    (hboth.first.parent i (hf.old i (hf.mem_reloads.mp hi).1)).symm
  rw [insertions_congr hparent,← hboth.nextInst,← List.append_nil (insertions _ _ _ _)] at hmeets
  have hr₁ : r < f₁.nextVReg := Nat.lt_of_lt_of_le hr hkept₁.grows
  have hslot₁ : f.slots.length < f₁.slots.length := by
    rw [hboth.first.slots]
    exact hslot
  rcases rewriteUsers_kept hkept₁.wellFormed hr₁ (made_load hslot₁) follows_before nextTo_before
    (fun i hi => hkept₁.layout i (hf.mem_reloads.mp hi).1) hmeets h₂ with ⟨hkept₂,_⟩
  have hkept := hkept₁.trans hkept₂
  rcases computeAllRanges_spec hg with ⟨hsame,_⟩
  rcases computeAllRanges_ranged hg with ⟨hnew,hothers⟩
  have hnext : f₂.nextVReg = f.nextVReg+((f.defs r).length+(f.reloads r).length) := by
    rw [hboth.second.nextVReg,hboth.nextVReg,Nat.add_assoc]
  have hwell : WellFormed (removeVreg g r) := (hkept.wellFormed.sameCode hsame).sameCode ⟨_,rfl⟩
  rw [List.range'_append_1] at hnew ⊢
  rcases hsame with ⟨ranges,rfl⟩
  have hgone : ∀ w, w ≠ r → Ranged (Numbering.mk f₂.numbering.layout f₂.numbering.instToPP ranges) w →
      Ranged (removeVreg { f₂ with numbering := ⟨f₂.numbering.layout,f₂.numbering.instToPP,ranges⟩ }
        r).numbering w := by
    rintro w hw ⟨seg,segs,hseg⟩
    exact ⟨seg,segs,(lookup_filter_ne fun heq => hw (LReg.virt.inj heq)).trans hseg⟩
  refine ⟨hwell,?_,?_,hkept.nextInst,?_,?_,hkept.flagged,?_,?_,?_⟩
  · rw [List.length_range']
  · rw [List.length_range']
    exact hnext
  · intro v hv
    refine (hkept.occurs v hv).imp id fun hle => List.mem_range'_1.mpr ⟨hle,?_⟩
    rcases hv with ⟨i,hi,hm⟩
    rw [← hnext]
    exact hkept.wellFormed.mentions_lt hi hm
  · exact hkept.remains
  · rintro hflag ⟨i,hi,hm⟩
    have hflag' := (hkept.flagged r).mpr hflag i hi hm
    have huser : f₂.userOf r i ∈ f₂.users r :=
      (hkept.wellFormed.users r _).mpr ⟨hi,rfl,hflag'.imp decide_eq_true decide_eq_true⟩
    rw [hboth.second.users,hboth.first.users,List.mem_filter,List.mem_filter,decide_eq_true_iff,
      decide_eq_true_iff] at huser
    rcases huser with ⟨⟨hu,hdef⟩,huse⟩
    rcases (hf.users r _).mp hu with ⟨hin,heq,hflags⟩
    have hsame : f₂.userOf r i = f.userOf r i := heq
    have hwrite : r ∉ (f.insts i).outputVregs := fun h => hdef (hf.mem_defs.mpr ⟨hin,h⟩)
    rw [hsame] at hflags
    rcases hflags with h | h
    · exact huse (hf.mem_reloads.mpr ⟨hin,of_decide_eq_true h,hwrite⟩)
    · exact hwrite (of_decide_eq_true h)
  · exact fun v hv hran => hgone v hv (hothers v (hkept.ranged v hran))
  · intro v hv
    have hle := (List.mem_range'_1.mp hv).1
    exact hgone v (Nat.ne_of_gt (Nat.lt_of_lt_of_le hr hle)) (hnew v hv)

/-- A register that some instruction names without a flag is left in the code. -/
theorem occurs_of_not_flagged (h : ¬ Flagged f v) : Occurs f v := by
  by_contra hnot
  exact h fun i hi hm => absurd ⟨i,hi,hm⟩ hnot

theorem Settled.mem_new (h : Settled r newVregs f f') (hv : v ∈ newVregs) :
    f.nextVReg ≤ v ∧ v < f'.nextVReg := by
  rw [h.fresh] at hv
  rw [h.nextVReg]
  exact List.mem_range'_1.mp hv

/-- Old registers and the new ones. -/
theorem Settled.append (h : Settled r newVregs f f') {l : List ℕ} (hnodup : l.Nodup)
    (hold : ∀ v ∈ l, v < f.nextVReg) :
    (l ++ newVregs).Nodup ∧ ∀ v ∈ l ++ newVregs, v < f'.nextVReg := by
  constructor
  · have hfresh : newVregs.Nodup := by
      rw [h.fresh]
      exact List.nodup_range'
    refine List.nodup_append.mpr ⟨hnodup,hfresh,?_⟩
    intro a ha b hb heq
    exact absurd (h.mem_new hb).1 (Nat.not_le.mpr (heq ▸ hold a ha))
  · intro v hv
    rcases List.mem_append.mp hv with hv | hv
    · rw [h.nextVReg]
      exact Nat.lt_add_right _ (hold v hv)
    · exact (h.mem_new hv).2

end Spiller
end Codegen
end OlaLang
