import OlaLang.SpillSpec

/-! The layout after a spill: every instruction stands where it stood, with the reload before it and
the store behind it. -/
namespace OlaLang
namespace Codegen
namespace Spiller

open Liveness ProgramPoints

variable {t base b i k : ℕ} {ex : ℕ → List ℕ} {l E : List ℕ} {layout : List (List ℕ)}
  {place : ℕ → ℕ → List ℕ → List ℕ} {op : InstId → InstId → BasicBlockId → Op}
  {parent : InstId → BasicBlockId}

/-- A way to place an instruction next to the first occurrence of another one. -/
structure NextTo (place : ℕ → ℕ → List ℕ → List ℕ) : Prop where
  skip : ∀ t s a b, t ∉ a → place t s (a ++ b) = a ++ place t s b
  stop : ∀ t s a b, t ∈ a → place t s (a ++ b) = place t s a ++ b
  mem : ∀ t s a x, x ∈ place t s a → x = s ∨ x ∈ a
  keep : ∀ t s a x, x ∈ a → x ∈ place t s a
  new : ∀ t s a, t ∈ a → s ∈ place t s a

theorem nextTo_after : NextTo placeAfter where
  skip := by
    intro t s a b h
    induction a with
    | nil => rfl
    | cons x a ih =>
      rw [List.mem_cons,not_or] at h
      rw [List.cons_append,placeAfter,if_neg (Ne.symm h.1),ih h.2]
      rfl
  stop := by
    intro t s a b h
    induction a with
    | nil => cases h
    | cons x a ih =>
      rw [List.cons_append,placeAfter,placeAfter]
      by_cases hx : x = t
      · rw [if_pos hx,if_pos hx]
        rfl
      · rw [if_neg hx,if_neg hx,ih ((List.mem_cons.mp h).resolve_left (Ne.symm hx))]
        rfl
  mem := by
    intro t s a x h
    induction a with
    | nil => cases h
    | cons y a ih =>
      rw [placeAfter] at h
      split at h
      · simpa [or_left_comm] using h
      · rcases List.mem_cons.mp h with rfl | h
        · exact Or.inr List.mem_cons_self
        · exact (ih h).imp_right (List.mem_cons_of_mem _)
  keep := by
    intro t s a x h
    induction a with
    | nil => cases h
    | cons y a ih =>
      rw [placeAfter]
      split
      · rcases List.mem_cons.mp h with rfl | h
        · simp
        · simp [h]
      · rcases List.mem_cons.mp h with rfl | h
        · exact List.mem_cons_self
        · exact List.mem_cons_of_mem _ (ih h)
  new := by
    intro t s a h
    induction a with
    | nil => cases h
    | cons y a ih =>
      rw [placeAfter]
      split
      · simp
      · rename_i hy
        exact List.mem_cons_of_mem _ (ih ((List.mem_cons.mp h).resolve_left (Ne.symm hy)))

theorem nextTo_before : NextTo placeBefore where
  skip := by
    intro t s a b h
    induction a with
    | nil => rfl
    | cons x a ih =>
      rw [List.mem_cons,not_or] at h
      rw [List.cons_append,placeBefore,if_neg (Ne.symm h.1),ih h.2]
      rfl
  stop := by
    intro t s a b h
    induction a with
    | nil => cases h
    | cons x a ih =>
      rw [List.cons_append,placeBefore,placeBefore]
      by_cases hx : x = t
      · rw [if_pos hx,if_pos hx]
        rfl
      · rw [if_neg hx,if_neg hx,ih ((List.mem_cons.mp h).resolve_left (Ne.symm hx))]
        rfl
  mem := by
    intro t s a x h
    induction a with
    | nil => cases h
    | cons y a ih =>
      rw [placeBefore] at h
      split at h
      · simpa using h
      · rcases List.mem_cons.mp h with rfl | h
        · exact Or.inr List.mem_cons_self
        · exact (ih h).imp_right (List.mem_cons_of_mem _)
  keep := by
    intro t s a x h
    induction a with
    | nil => cases h
    | cons y a ih =>
      rw [placeBefore]
      split
      · exact List.mem_cons_of_mem _ h
      · rcases List.mem_cons.mp h with rfl | h
        · exact List.mem_cons_self
        · exact List.mem_cons_of_mem _ (ih h)
  new := by
    intro t s a h
    induction a with
    | nil => cases h
    | cons y a ih =>
      rw [placeBefore]
      split
      · exact List.mem_cons_self
      · rename_i hy
        exact List.mem_cons_of_mem _ (ih ((List.mem_cons.mp h).resolve_left (Ne.symm hy)))

theorem flatMap_update (h : t ∉ l) (a : List ℕ) :
    l.flatMap (Function.update ex t a) = l.flatMap ex := by
  induction l with
  | nil => rfl
  | cons x rest ih =>
    rw [List.mem_cons,not_or] at h
    rw [List.flatMap_cons,List.flatMap_cons,Function.update_of_ne (Ne.symm h.1),ih h.2]

/-- In a block whose instructions were expanded, the instruction goes to the expansion of its
target. -/
theorem place_flatMap {s : ℕ} (hplace : NextTo place) (hnodup : l.Nodup) (ht : t ∈ l)
    (hself : t ∈ ex t) (hother : ∀ i ∈ l, i ≠ t → t ∉ ex i) :
    place t s (l.flatMap ex) = l.flatMap (Function.update ex t (place t s (ex t))) := by
  induction l with
  | nil => cases ht
  | cons x rest ih =>
    rw [List.nodup_cons] at hnodup
    rw [List.flatMap_cons,List.flatMap_cons]
    by_cases hx : x = t
    · subst hx
      rw [hplace.stop _ _ _ _ hself,Function.update_self,flatMap_update hnodup.1]
    · rw [hplace.skip _ _ _ _ (hother x List.mem_cons_self hx),Function.update_of_ne hx,
        ih hnodup.2 ((List.mem_cons.mp ht).resolve_left (Ne.symm hx))
          fun i hi => hother i (List.mem_cons_of_mem _ hi)]

/-- The expansions in which each of the instructions `E` has one more neighbour. -/
def expandAll (place : ℕ → ℕ → List ℕ → List ℕ) : ℕ → List ℕ → (ℕ → List ℕ) → ℕ → List ℕ
  | _, [], ex => ex
  | base, i::rest, ex => expandAll place (base+1) rest (Function.update ex i (place i base (ex i)))

theorem expandAll_of_not_mem (h : i ∉ E) : expandAll place base E ex i = ex i := by
  induction E generalizing base ex with
  | nil => rfl
  | cons j rest ih =>
    rw [List.mem_cons,not_or] at h
    rw [expandAll,ih h.2,Function.update_of_ne h.1]

theorem expandAll_of_getElem (hnodup : E.Nodup) (h : E[k]? = some i) :
    expandAll place base E ex i = place i (base+k) (ex i) := by
  induction E generalizing base ex k with
  | nil => cases h
  | cons j rest ih =>
    rw [List.nodup_cons] at hnodup
    cases k with
    | zero =>
      cases h
      rw [expandAll,expandAll_of_not_mem hnodup.1,Function.update_self]
      rfl
    | succ k =>
      have hne : i ≠ j := fun heq => hnodup.1 (heq ▸ List.mem_of_getElem? h)
      rw [expandAll,ih hnodup.2 h,Function.update_of_ne hne,Nat.add_assoc,Nat.add_comm 1 k]

/-- The expansion of an instruction holds the instruction and, besides, instructions that were not
there before. -/
structure Expands (limit base : ℕ) (ex : ℕ → List ℕ) : Prop where
  self : ∀ i, i ∈ ex i
  others : ∀ i, ∀ x ∈ ex i, x = i ∨ limit ≤ x ∧ x < base

theorem Expands.update {limit : ℕ} (h : Expands limit base ex) (hplace : NextTo place)
    (hlimit : limit ≤ base) (i : ℕ) :
    Expands limit (base+1) (Function.update ex i (place i base (ex i))) where
  self := by
    intro j
    rw [Function.update_apply]
    split
    · next hj => exact hplace.keep _ _ _ _ (hj ▸ h.self i)
    · exact h.self j
  others := by
    intro j x hx
    rw [Function.update_apply] at hx
    split at hx
    · next hj =>
      rcases hplace.mem _ _ _ _ hx with rfl | hx
      · exact Or.inr ⟨hlimit,Nat.lt_succ_self x⟩
      · rw [hj]
        exact (h.others i x hx).imp_right fun hb => ⟨hb.1,Nat.lt_succ_of_lt hb.2⟩
    · exact (h.others j x hx).imp_right fun hb => ⟨hb.1,Nat.lt_succ_of_lt hb.2⟩

theorem Expands.expandAll {limit : ℕ} (h : Expands limit base ex) (hplace : NextTo place)
    (hlimit : limit ≤ base) : Expands limit (base+E.length) (expandAll place base E ex) := by
  induction E generalizing base ex with
  | nil => exact h
  | cons i rest ih =>
    have hrest := ih (h.update hplace hlimit i) (Nat.le_succ_of_le hlimit)
    rw [List.length_cons,Nat.add_comm rest.length,← Nat.add_assoc]
    exact hrest

theorem modify_flatMap {limit s : ℕ} (hex : Expands limit base ex) (hplace : NextTo place)
    (hnodup : layout.flatten.Nodup) (hb : layout[b]? = some l) (ht : t ∈ l) (hlt : t < limit) :
    (layout.map (List.flatMap ex)).modify b (place t s) =
      layout.map (List.flatMap (Function.update ex t (place t s (ex t)))) := by
  have hpair := List.nodup_flatten.mp hnodup
  have hother : ∀ i, i ≠ t → t ∉ ex i := by
    intro i hne hin
    rcases hex.others i t hin with heq | hge
    · exact hne heq.symm
    · omega
  apply List.ext_getElem?
  intro c
  rw [List.getElem?_modify,List.getElem?_map,List.getElem?_map]
  cases hc : layout[c]? with
  | none => rfl
  | some insts =>
    show some (if b = c then place t s (insts.flatMap ex) else insts.flatMap ex) =
      some (insts.flatMap _)
    by_cases hbc : b = c
    · subst hbc
      rw [hb] at hc
      cases hc
      rw [if_pos rfl,place_flatMap hplace (hpair.1 l (List.mem_of_getElem? hb)) ht (hex.self t)
        fun i _ => hother i]
    · have hnot : t ∉ insts := by
        intro hin
        have hbl := (List.getElem?_eq_some_iff.mp hb)
        have hcl := (List.getElem?_eq_some_iff.mp hc)
        rcases hbl with ⟨hblt,hbeq⟩
        rcases hcl with ⟨hclt,hceq⟩
        rcases Nat.lt_or_gt_of_ne hbc with hlt' | hlt'
        · have hdis := List.pairwise_iff_getElem.mp hpair.2 b c hblt hclt hlt'
          exact hdis (hbeq ▸ ht) (hceq ▸ hin)
        · have hdis := List.pairwise_iff_getElem.mp hpair.2 c b hclt hblt hlt'
          exact hdis (hceq ▸ hin) (hbeq ▸ ht)
      rw [if_neg hbc,flatMap_update hnot]

/-- The operation places its instruction in the block it names. -/
def Follows (op : InstId → InstId → BasicBlockId → Op) (place : ℕ → ℕ → List ℕ → List ℕ) : Prop :=
  ∀ t s b, (∀ layout, (op t s b).place layout = layout.modify b (place t s)) ∧
    (∀ layout, (op t s b).Valid ⟨layout,[],[]⟩ ↔
      t ∈ (layout[b]?).getD [] ∧ s ∉ layout.flatten) ∧ inserted? (op t s b) = some s

theorem follows_after : Follows .after placeAfter := fun _ _ _ =>
  ⟨fun _ => rfl,fun _ => Iff.rfl,rfl⟩

theorem follows_before : Follows .before placeBefore := fun _ _ _ =>
  ⟨fun _ => rfl,fun _ => Iff.rfl,rfl⟩

/-- The insertions next to the instructions `E`, all of them old ones in the blocks that `parent`
names, are valid and expand the blocks. -/
theorem insertions_place {limit : ℕ} (hop : Follows op place) (hplace : NextTo place)
    (hnodup : layout.flatten.Nodup) (hold : ∀ i ∈ layout.flatten, i < limit)
    (hlimit : limit ≤ base) (hex : Expands limit base ex)
    (hE : ∀ i ∈ E, ∃ l, layout[parent i]? = some l ∧ i ∈ l) :
    AllValid (insertions op parent base E) (layout.map (List.flatMap ex)) ∧
      placeAll (insertions op parent base E) (layout.map (List.flatMap ex)) =
        layout.map (List.flatMap (expandAll place base E ex)) := by
  induction E generalizing base ex with
  | nil => exact ⟨trivial,rfl⟩
  | cons i rest ih =>
    rw [List.forall_mem_cons] at hE
    rcases hE.1 with ⟨l,hl,hi⟩
    rcases hop i base (parent i) with ⟨hplaces,hvalid,_⟩
    have hilt : i < limit := hold i (List.mem_flatten.mpr ⟨l,List.mem_of_getElem? hl,hi⟩)
    have hnext : (op i base (parent i)).place (layout.map (List.flatMap ex)) =
        layout.map (List.flatMap (Function.update ex i (place i base (ex i)))) := by
      rw [hplaces]
      exact modify_flatMap hex hplace hnodup hl hi hilt
    rcases ih (Nat.le_succ_of_le hlimit) (hex.update hplace hlimit i) hE.2 with ⟨hrest,hfinal⟩
    refine ⟨⟨(hvalid _).mpr ⟨?_,?_⟩,?_⟩,?_⟩
    · rw [List.getElem?_map,hl]
      exact List.mem_flatMap.mpr ⟨i,hi,hex.self i⟩
    · intro hin
      rcases List.mem_flatten.mp hin with ⟨insts,hinsts,hbase⟩
      rcases List.mem_map.mp hinsts with ⟨block,hblock,rfl⟩
      rcases List.mem_flatMap.mp hbase with ⟨j,hj,hjb⟩
      have hjlt := hold j (List.mem_flatten.mpr ⟨block,hblock,hj⟩)
      rcases hex.others j base hjb with heq | hlt
      · omega
      · omega
    · rw [hnext]
      exact hrest
    · rw [insertions,placeAll,hnext,hfinal]
      rfl

theorem inserted_insertions (hop : Follows op place) :
    (insertions op parent base E).map inserted? = (List.range' base E.length).map some := by
  induction E generalizing base with
  | nil => rfl
  | cons i rest ih =>
    rw [insertions,List.map_cons,ih,(hop i base (parent i)).2.2,List.length_cons,List.range'_succ]
    rfl

end Spiller
end Codegen
end OlaLang
