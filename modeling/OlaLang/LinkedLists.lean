import Mathlib.Data.List.Nodup

/-! Doubly linked lists: two link functions that agree with a list, and what has to change in them
when a member is put in or taken out. -/
namespace OlaLang
namespace LinkedLists

variable {α : Type} {prev next prev' next' : α → Option α} {l xs ys : List α} {x y : α}

/-- Every member of the list is linked to the member before it and to the one behind it. -/
def Linked (prev next : α → Option α) (l : List α) : Prop :=
  ∀ xs x ys, l = xs ++ x::ys → prev x = xs.getLast? ∧ next x = ys.head?

theorem linked_nil : Linked prev next [] := by
  intro xs x ys h
  simp at h

theorem Linked.congr (h : Linked prev next l)
    (heq : ∀ x ∈ l, prev' x = prev x ∧ next' x = next x) : Linked prev' next' l := by
  intro xs x ys hl
  have hx := heq x (by simp [hl])
  rw [hx.1,hx.2]
  exact h xs x ys hl

/-- A member of a list is the last one exactly when nothing is behind it. -/
theorem getLast?_eq_iff (h : (xs ++ y::ys).Nodup) : (xs ++ y::ys).getLast? = some y ↔ ys = [] := by
  constructor
  · intro hlast
    cases ys with
    | nil => rfl
    | cons z zs =>
      have hmem : y ∈ z::zs := by
        rw [List.getLast?_append_cons,List.getLast?_cons_cons] at hlast
        exact List.mem_of_getLast? hlast
      have hnodup := (List.nodup_append.mp h).2.1
      exact absurd hmem (List.nodup_cons.mp hnodup).1
  · rintro rfl
    exact List.getLast?_concat

theorem head?_eq_iff (h : (xs ++ y::ys).Nodup) : (xs ++ y::ys).head? = some y ↔ xs = [] := by
  constructor
  · intro hhead
    cases xs with
    | nil => rfl
    | cons z zs =>
      have hz : z = y := Option.some.inj hhead
      have hnot := (List.nodup_cons.mp h).1
      rw [hz] at hnot
      exact absurd (by simp) hnot
  · rintro rfl
    rfl

/-- A member in the middle does not matter for the last one. -/
theorem getLast?_append_cons_of_ne_nil (h : ys ≠ []) :
    (xs ++ x::ys).getLast? = (xs ++ ys).getLast? := by
  obtain ⟨y,ys,rfl⟩ := List.exists_cons_of_ne_nil h
  rw [List.getLast?_append_cons,List.getLast?_append_cons,List.getLast?_cons_cons]

/-- Where a member of a list of two parts lies. -/
theorem split_cases {zs : List α} (h : xs ++ ys = zs ++ y::l) :
    (∃ cs, xs = zs ++ y::cs ∧ l = cs ++ ys) ∨ ∃ cs, ys = cs ++ y::l ∧ zs = xs ++ cs := by
  rcases List.append_eq_append_iff.mp h with ⟨cs,hzs,hys⟩ | ⟨cs,hxs,hcs⟩
  · exact .inr ⟨cs,hys,hzs⟩
  · cases cs with
    | nil =>
      refine .inr ⟨[],?_,?_⟩
      · simpa using hcs.symm
      · simpa using hxs.symm
    | cons c cs =>
      obtain ⟨rfl,rfl⟩ := List.cons.inj hcs
      exact .inl ⟨cs,hxs,rfl⟩

/-- Following the links, at most so many times. -/
def walk (next : α → Option α) : ℕ → Option α → List α
  | _, none => []
  | 0, some _ => []
  | n+1, some x => x::walk next n (next x)

theorem Linked.walk_suffix (h : Linked prev next (xs ++ ys)) {n : ℕ} (hn : ys.length ≤ n) :
    walk next n ys.head? = ys := by
  induction ys generalizing xs n with
  | nil => cases n <;> rfl
  | cons y ys ih =>
    obtain ⟨n,rfl⟩ : ∃ m, n = m+1 := ⟨n-1,by simp only [List.length_cons] at hn; omega⟩
    rw [List.head?_cons,walk,(h xs y ys rfl).2]
    have hrest : Linked prev next ((xs ++ [y]) ++ ys) := by simpa using h
    rw [ih hrest (by simp only [List.length_cons] at hn; omega)]

/-- The links lead from the first member through the whole list. -/
theorem Linked.walk_eq (h : Linked prev next l) {n : ℕ} (hn : l.length ≤ n) :
    walk next n l.head? = l :=
  @Linked.walk_suffix _ _ _ [] l h n hn

variable [DecidableEq α]

/-- Putting `x` between two parts of the list: it gets their ends for neighbours, and they get it. -/
theorem Linked.insert (h : Linked prev next (xs ++ ys)) (hnodup : (xs ++ ys).Nodup)
    (hx : prev' x = xs.getLast? ∧ next' x = ys.head?)
    (hprev : ∀ y ∈ xs ++ ys, prev' y = if ys.head? = some y then some x else prev y)
    (hnext : ∀ y ∈ xs ++ ys, next' y = if xs.getLast? = some y then some x else next y) :
    Linked prev' next' (xs ++ x::ys) := by
  intro as y bs hsplit
  rcases split_cases hsplit with ⟨cs,rfl,rfl⟩ | ⟨cs,hcs,rfl⟩
  · -- in the first part only the link of its last member to what is behind has changed
    have hold := h as y (cs ++ ys) (by simp)
    have hmem : y ∈ (as ++ y::cs) ++ ys := by simp
    have hys : ys.head? ≠ some y := by
      intro hhead
      have hdisj := (List.nodup_append.mp hnodup).2.2
      exact hdisj y (by simp) y (List.mem_of_mem_head? hhead) rfl
    have hlast := getLast?_eq_iff (List.nodup_append.mp hnodup).1
    rw [hprev y hmem,hnext y hmem,if_neg hys]
    refine ⟨hold.1,?_⟩
    by_cases hcs : cs = []
    · rw [if_pos (hlast.mpr hcs),hcs]
      rfl
    · rw [if_neg fun heq => hcs (hlast.mp heq),hold.2]
      obtain ⟨c,cs,rfl⟩ := List.exists_cons_of_ne_nil hcs
      rfl
  · cases cs with
    | nil =>
      obtain ⟨rfl,rfl⟩ := List.cons.inj hcs
      rw [List.append_nil]
      exact hx
    | cons c cs =>
      rw [List.cons_append] at hcs
      obtain ⟨rfl,rfl⟩ := List.cons.inj hcs
      have hold := h (xs ++ cs) y bs (by simp)
      have hmem : y ∈ xs ++ (cs ++ y::bs) := by simp
      have hxs : xs.getLast? ≠ some y := by
        intro hlast
        have hdisj := (List.nodup_append.mp hnodup).2.2
        exact hdisj y (List.mem_of_getLast? hlast) y (by simp) rfl
      have hhead := head?_eq_iff (List.nodup_append.mp hnodup).2.1
      rw [hprev y hmem,hnext y hmem,if_neg hxs]
      refine ⟨?_,hold.2⟩
      by_cases hcs : cs = []
      · rw [if_pos (hhead.mpr hcs),hcs]
        simp
      · rw [if_neg fun heq => hcs (hhead.mp heq),hold.1,getLast?_append_cons_of_ne_nil hcs]

/-- Taking `x` out: its neighbours become neighbours of each other. -/
theorem Linked.remove (h : Linked prev next (xs ++ x::ys)) (hnodup : (xs ++ x::ys).Nodup)
    (hprev : ∀ y ∈ xs ++ ys, prev' y = if ys.head? = some y then xs.getLast? else prev y)
    (hnext : ∀ y ∈ xs ++ ys, next' y = if xs.getLast? = some y then ys.head? else next y) :
    Linked prev' next' (xs ++ ys) := by
  have hparts := List.nodup_append.mp hnodup
  have hys := (List.nodup_cons.mp hparts.2.1).2
  intro as y bs hsplit
  rcases split_cases hsplit with ⟨cs,rfl,rfl⟩ | ⟨cs,rfl,rfl⟩
  · have hold := h as y (cs ++ x::ys) (by simp)
    have hmem : y ∈ (as ++ y::cs) ++ ys := by simp
    have hne : ys.head? ≠ some y := fun hhead =>
      hparts.2.2 y (by simp) y (List.mem_cons_of_mem x (List.mem_of_mem_head? hhead)) rfl
    have hlast := getLast?_eq_iff hparts.1
    rw [hprev y hmem,hnext y hmem,if_neg hne]
    refine ⟨hold.1,?_⟩
    by_cases hcs : cs = []
    · rw [if_pos (hlast.mpr hcs),hcs]
      rfl
    · rw [if_neg fun heq => hcs (hlast.mp heq),hold.2]
      obtain ⟨c,cs,rfl⟩ := List.exists_cons_of_ne_nil hcs
      rfl
  · have hold := h (xs ++ x::cs) y bs (by simp)
    have hmem : y ∈ xs ++ (cs ++ y::bs) := by simp
    have hne : xs.getLast? ≠ some y := fun hlast =>
      hparts.2.2 y (List.mem_of_getLast? hlast) y (by simp) rfl
    have hhead := head?_eq_iff hys
    rw [hprev y hmem,hnext y hmem,if_neg hne]
    refine ⟨?_,hold.2⟩
    by_cases hcs : cs = []
    · rw [if_pos (hhead.mpr hcs),hcs,List.append_nil]
    · rw [if_neg fun heq => hcs (hhead.mp heq),hold.1,getLast?_append_cons_of_ne_nil hcs]

end LinkedLists
end OlaLang
