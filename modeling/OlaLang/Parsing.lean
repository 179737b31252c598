import Mathlib.Data.Finset.Card
import Mathlib.Data.List.Basic

/-! Parsers by hand: alternatives that go back in the text, loops, recursion, and a state that is not
put back. A loop has one turn more than there are characters; what uses all of them up never ends.
A run notes down the places where it may get lost, and gets lost at the ones that are not fine. -/
namespace OlaLang
namespace Parsing

abbrev Text := List Char

/-- Why there is no value: the two kinds of errors, one that is passed on with its place, a panic, or
a run that does not end. Only a watched run is `stuck`. -/
inductive Stop
  | error | failure
  | located (source : Text) (message : String)
  | panic | endless | stuck

/-- What the combinators try another alternative after. -/
def Stop.isError : Stop → Bool
  | .error => true
  | _ => false

/-- The errors of a parser that is no combinator. -/
def Stop.isErr : Stop → Bool
  | .error | .failure => true
  | _ => false

/-- A watched run stops at the first place that is not fine. Another run goes on, and its loops have
some turns more. -/
inductive Mode
  | watched | turns (extra : ℕ)

def Mode.extra : Mode → ℕ
  | .watched => 0
  | .turns extra => extra

/-- The places where a parser may get lost, and the ones at which it does not. -/
class Places (ι : Type) where
  Fine : ι → Prop
  decidable : DecidablePred Fine

/-- The state of a run, and the places that it has come to. -/
structure Trace (ι σ : Type) where
  state : σ
  places : List ι

abbrev Result (α : Type) := Except Stop (α × Text)

/-- A parser gives a value and the text behind it. What it does to the state stays, also when it
fails. -/
def Parser (ι σ α : Type) := Mode → Trace ι σ → Text → Result α × Trace ι σ

variable {ι σ α β γ : Type}

instance [Places ι] (place : ι) : Decidable (Places.Fine place) := Places.decidable place

instance : Monad (Parser ι σ) where
  pure a := fun _ s t => (.ok (a,t),s)
  bind p f := fun m s t => match p m s t with
    | (.ok (a,t'),s') => f a m s' t'
    | (.error e,s') => (.error e,s')

def fail (e : Stop) : Parser ι σ α := fun _ s _ => (.error e,s)

/-- The text that is left. -/
def source : Parser ι σ Text := fun _ s t => (.ok (t,t),s)

/-- An operation on the state. -/
def onState (f : σ → α × σ) : Parser ι σ α := fun _ s t =>
  (.ok ((f s.state).1,t),{ s with state := (f s.state).2 })

def Trace.visit (place : ι) (s : Trace ι σ) : Trace ι σ := { s with places := s.places ++ [place] }

/-- The run comes to a place and goes on with `p`. -/
def visit [Places ι] (place : ι) (p : Parser ι σ α) : Parser ι σ α := fun m s t => match m with
  | .watched =>
    if Places.Fine place then p .watched (s.visit place) t else (.error .stuck,s.visit place)
  | .turns extra => p (.turns extra) (s.visit place) t

/-- `p`, and if it fails in one of these ways, `no` from where `p` has begun. -/
def branch (catches : Stop → Bool) (p : Parser ι σ α) (yes : α → Parser ι σ β) (no : Parser ι σ β) :
    Parser ι σ β := fun m s t => match p m s t with
  | (.ok (a,t'),s') => yes a m s' t'
  | (.error e,s') => if catches e then no m s' t else (.error e,s')

/-- `if let Ok(a) = p { yes } else { no }`. -/
def ifOk (p : Parser ι σ α) (yes : α → Parser ι σ β) (no : Parser ι σ β) : Parser ι σ β :=
  branch Stop.isErr p yes no

def orElse (p q : Parser ι σ α) : Parser ι σ α := branch Stop.isError p pure q

/-- The first of the parsers that does not fail. -/
def alt : List (Parser ι σ α) → Parser ι σ α
  | [] => fail .error
  | p::ps => orElse p (alt ps)

def opt (p : Parser ι σ α) : Parser ι σ (Option α) :=
  branch Stop.isError p (fun a => pure (some a)) (pure none)

def cut (p : Parser ι σ α) : Parser ι σ α := branch Stop.isError p pure (fail .failure)

/-- A parser that only looks at the text. -/
def ofText (f : Text → Option (α × Text)) : Parser ι σ α := fun _ s t => match f t with
  | some r => (.ok r,s)
  | none => (.error .error,s)

def char (c : Char) : Parser ι σ Unit := ofText fun t => match t with
  | [] => none
  | d::t => if d = c then some ((),t) else none

def tag (word : String) : Parser ι σ Unit := ofText fun t =>
  (word.toList.isPrefixOf? t).map fun rest => ((),rest)

/-- The longest prefix of such characters. -/
def takeWhile (p : Char → Bool) : Parser ι σ Text := ofText fun t =>
  some (t.takeWhile p,t.dropWhile p)

def takeWhile1 (p : Char → Bool) : Parser ι σ Text := do
  let word ← takeWhile p
  if word = [] then fail .error else pure word

/-- What is in front of the first such character, which has to be there. -/
def takeUntil (c : Char) : Parser ι σ Text := ofText fun t =>
  if c ∈ t then some (t.takeWhile (· ≠ c),t.dropWhile (· ≠ c)) else none

/-! ### Loops and recursion -/

/-- A loop whose turns go on with a value, or leave with one. -/
def turns (turn : α → Parser ι σ (α ⊕ β)) : ℕ → α → Parser ι σ β
  | 0, _ => fail .endless
  | n+1, a => do
    match ← turn a with
    | .inl a => turns turn n a
    | .inr b => pure b

def loop (turn : α → Parser ι σ (α ⊕ β)) (a : α) : Parser ι σ β := fun m s t =>
  turns turn (t.length+1+m.extra) a m s t

/-- A turn of `many0`: a parser that takes nothing is an error. -/
def many0Turn (p : Parser ι σ α) (list : List α) : Parser ι σ (List α ⊕ List α) := do
  let before ← source
  branch Stop.isError p
    (fun a => do
      let after ← source
      if after.length = before.length then fail .error else pure (.inl (list ++ [a])))
    (pure (.inr list))

def many0 (p : Parser ι σ α) : Parser ι σ (List α) := loop (many0Turn p) []

/-- `separated_list0`. -/
def separatedList0 (sep : Parser ι σ Unit) (p : Parser ι σ α) : Parser ι σ (List α) :=
  branch Stop.isError p
    (fun a => loop (fun list => do
      let before ← source
      branch Stop.isError (do
          sep
          let after ← source
          if after.length = before.length then pure none else do
            let a ← p
            pure (some a))
        (fun a => match a with
          | some a => pure (.inl (list ++ [a]))
          | none => fail .error)
        (pure (.inr list))) [a])
    (pure [])

/-- `p` from an earlier place in the text. -/
def again (start : Text) (p : Parser ι σ α) : Parser ι σ α := fun m s _ => p m s start

/-- The end of a chain, when it has no more than so many links. -/
def follow (next : α → Option α) : ℕ → α → Option α
  | 0, a => if (next a).isNone then some a else none
  | n+1, a => match next a with
    | none => some a
    | some b => follow next n b

/-- The end of a chain with so many links. One that is longer never ends. -/
def endOf (next : α → Option α) (links : ℕ) (a : α) : Parser ι σ α := match follow next links a with
  | some b => pure b
  | none => fail .endless

/-- A list of items: with `sep` behind an item the loop goes on, with `close` it is left, and with
neither of them it begins the turn again. -/
def itemTurns [Places ι] (place : Text → ι) (sep close : Parser ι σ Unit) (item : Parser ι σ α) :
    ℕ → List α → Parser ι σ (List α)
  | 0, _ => fail .endless
  | n+1, list => do
    let start ← source
    let a ← item
    let rest ← source
    visit (place rest) <|
      ifOk sep (fun _ => itemTurns place sep close item n (list ++ [a]))
        (ifOk close (fun _ => pure (list ++ [a]))
          (again start (itemTurns place sep close item n (list ++ [a]))))

def items [Places ι] (place : Text → ι) (sep close : Parser ι σ Unit) (item : Parser ι σ α) :
    Parser ι σ (List α) := fun m s t =>
  itemTurns place sep close item (t.length+1+m.extra) [] m s t

/-- A recursion so deep. -/
def depth (F : (γ → Parser ι σ α) → γ → Parser ι σ α) : ℕ → γ → Parser ι σ α
  | 0, _ => fail .endless
  | n+1, i => F (depth F n) i

def fix (F : (γ → Parser ι σ α) → γ → Parser ι σ α) (i : γ) : Parser ι σ α := fun m s t =>
  depth F (t.length+1) i m s t

/-! ### A watched run and one that goes on -/

/-- The run does not come back. -/
inductive Lost : Stop → Prop
  | panic : Lost .panic
  | endless : Lost .endless

/-- The run comes back with an error. -/
inductive Answer : Stop → Prop
  | error : Answer .error
  | failure : Answer .failure
  | located (source : Text) (message : String) : Answer (.located source message)

section Sound

variable [Places ι]

/-- All places that the run has come to are fine. -/
def Trace.Fine (s : Trace ι σ) : Prop := ∀ place ∈ s.places, Places.Fine place

/-- The other run does the same as the watched one, which comes back and has come to fine places only;
or the watched one is stuck at a place that is not fine, and the other one does not come back. -/
inductive Follows : Result α × Trace ι σ → Result α × Trace ι σ → Prop
  | ok (a : α) (t : Text) {s : Trace ι σ} : s.Fine → Follows (.ok (a,t),s) (.ok (a,t),s)
  | err {e : Stop} {s : Trace ι σ} : s.Fine → Answer e → Follows (.error e,s) (.error e,s)
  | lost {e : Stop} {s : Trace ι σ} (s' : Trace ι σ) : ¬ s.Fine → Lost e →
    Follows (.error .stuck,s) (.error e,s')

/-- No text gets longer, and it gets shorter with the values of `E`. On texts below the bound the
watched run ends, and the others follow it. -/
structure Sound (d : ℕ) (E : α → Prop) (p : Parser ι σ α) : Prop where
  shrinks {m : Mode} {s s' : Trace ι σ} {t t' : Text} {a : α} : p m s t = (.ok (a,t'),s') →
    t'.length ≤ t.length ∧ (E a → t'.length < t.length)
  follows (k : ℕ) (s : Trace ι σ) (t : Text) : s.Fine → t.length < d →
    Follows (p .watched s t) (p (.turns k) s t)

/-- The parser takes at least one character. -/
abbrev Eats (d : ℕ) (p : Parser ι σ α) : Prop := Sound d (fun _ => True) p

abbrev Safe (d : ℕ) (p : Parser ι σ α) : Prop := Sound d (fun _ => False) p

variable {d : ℕ} {E : α → Prop} {G : β → Prop} {p : Parser ι σ α} {m : Mode} {s s' : Trace ι σ}
variable {t t' : Text}

theorem Sound.mono {E' : α → Prop} (h : Sound d E p) (hE : ∀ a, E' a → E a) : Sound d E' p :=
  ⟨fun hp => ⟨(h.shrinks hp).1,fun ha => (h.shrinks hp).2 (hE _ ha)⟩,h.follows⟩

theorem Sound.le {d' : ℕ} (h : Sound d E p) (hd : d' ≤ d) : Sound d' E p :=
  ⟨h.shrinks,fun k s t hs ht => h.follows k s t hs (Nat.lt_of_lt_of_le ht hd)⟩

theorem Eats.sound (h : Eats d p) : Sound d E p := h.mono fun _ _ => trivial

theorem Eats.safe (h : Eats d p) : Safe d p := h.sound

theorem Sound.ret {a : α} (ha : ¬ E a) : Sound d E (pure a : Parser ι σ α) where
  shrinks hp := by
    cases hp
    exact ⟨Nat.le_refl _,fun h => absurd h ha⟩
  follows _ _ t hs _ := .ok a t hs

theorem Safe.ret (a : α) : Safe d (pure a : Parser ι σ α) := Sound.ret id

theorem Sound.fail {e : Stop} (he : Answer e) : Sound d E (fail e : Parser ι σ α) where
  shrinks hp := by cases hp
  follows _ _ _ hs _ := .err hs he

theorem Sound.source : Safe d (source : Parser ι σ Text) where
  shrinks hp := by
    cases hp
    exact ⟨Nat.le_refl _,False.elim⟩
  follows _ _ t hs _ := .ok t t hs

theorem Sound.onState (f : σ → α × σ) : Safe d (onState f : Parser ι σ α) where
  shrinks hp := by
    cases hp
    exact ⟨Nat.le_refl _,False.elim⟩
  follows _ s t hs _ := .ok (f s.state).1 t hs

theorem Trace.fine_visit (place : ι) : (s.visit place).Fine ↔ s.Fine ∧ Places.Fine place := by
  simp only [Trace.Fine,Trace.visit,List.mem_append,List.mem_singleton,or_imp,forall_and,
    forall_eq]

/-- A run that comes to a place gets lost just where it is not fine. -/
theorem Sound.visit {place : ι} (hp : Places.Fine place → Sound d E p)
    (hlost : ¬ Places.Fine place → ∀ k s t, ∃ e s', p (.turns k) s t = (.error e,s') ∧ Lost e)
    (hshrinks : ∀ {m s s' t t' a}, p m s t = (.ok (a,t'),s') →
      t'.length ≤ t.length ∧ (E a → t'.length < t.length)) : Sound d E (visit place p) where
  shrinks {m s s' t t' a} h := by
    cases m with
    | watched =>
      by_cases hfine : Places.Fine place
      · rw [Parsing.visit,if_pos hfine] at h
        exact hshrinks h
      · rw [Parsing.visit,if_neg hfine] at h
        cases h
    | turns k => exact hshrinks h
  follows k s t hs ht := by
    by_cases hfine : Places.Fine place
    · rw [Parsing.visit,if_pos hfine]
      exact (hp hfine).follows k _ t ((Trace.fine_visit place).mpr ⟨hs,hfine⟩) ht
    · obtain ⟨e,s',hrun,he⟩ := hlost hfine k (s.visit place) t
      rw [Parsing.visit,if_neg hfine]
      refine Eq.subst (motive := Follows _) hrun.symm ?_
      exact .lost s' (fun h => hfine ((Trace.fine_visit place).mp h).2) he

theorem Lost.not_caught {e : Stop} {catches : Stop → Bool} (he : Lost e)
    (hc : ∀ e, catches e = true → e.isErr = true) : catches e = false := by
  refine Bool.eq_false_iff.mpr fun h => ?_
  cases he with
  | panic => exact absurd (hc _ h) (by simp [Stop.isErr])
  | endless => exact absurd (hc _ h) (by simp [Stop.isErr])

/-- Behind a value of `E` the text has become shorter; otherwise what comes next has to do it. -/
theorem Sound.branch {catches : Stop → Bool} {yes : α → Parser ι σ β} {no : Parser ι σ β}
    (hp : Sound d E p) (hc : ∀ e, catches e = true → e.isErr = true)
    (hE : ∀ a, E a → Safe (d-1) (yes a)) (hyes : ∀ a, ¬ E a → Sound d G (yes a))
    (hno : Sound d G no) : Sound d G (branch catches p yes no) where
  shrinks {m s s' t t' b} h := by
    rw [Parsing.branch] at h
    rcases hr : p m s t with ⟨e | ⟨a,t₁⟩,s₁⟩
    · rw [hr] at h
      by_cases he : catches e = true
      · simp only [he,if_true] at h
        exact hno.shrinks h
      · simp only [he] at h
        cases h
    · rw [hr] at h
      obtain ⟨hle,hlt⟩ := hp.shrinks hr
      by_cases ha : E a
      · have hle' := ((hE a ha).shrinks h).1
        exact ⟨by omega,fun _ => Nat.lt_of_le_of_lt hle' (hlt ha)⟩
      · obtain ⟨hle',hlt'⟩ := (hyes a ha).shrinks h
        exact ⟨Nat.le_trans hle' hle,fun hb => Nat.lt_of_lt_of_le (hlt' hb) hle⟩
  follows k s t hs ht := by
    rw [Parsing.branch,Parsing.branch]
    have hfollows := hp.follows k s t hs ht
    generalize hw : p .watched s t = w at hfollows ⊢
    generalize p (.turns k) s t = c at hfollows ⊢
    cases hfollows with
    | ok a t₁ hs₁ =>
      obtain ⟨hle,hlt⟩ := hp.shrinks hw
      by_cases ha : E a
      · have hlt := hlt ha
        exact (hE a ha).follows k _ t₁ hs₁ (by omega)
      · exact (hyes a ha).follows k _ t₁ hs₁ (Nat.lt_of_le_of_lt hle ht)
    | @err e s₁ hs₁ he =>
      by_cases hcatch : catches e = true
      · simp only [hcatch,if_true]
        exact hno.follows k s₁ t hs₁ ht
      · simp only [hcatch]
        exact .err hs₁ he
    | lost s' hs₁ he =>
      have hstuck : catches .stuck = false := Bool.eq_false_iff.mpr fun h =>
        absurd (hc _ h) (by simp [Stop.isErr])
      simp only [hstuck,he.not_caught hc]
      exact .lost s' hs₁ he

omit [Places ι] in
theorem bind_eq_branch (p : Parser ι σ α) (f : α → Parser ι σ β) :
    p >>= f = branch (fun _ => false) p f (fail .error) := by
  funext m s t
  have hbind : (p >>= f) m s t = match p m s t with
    | (.ok (a,t'),s') => f a m s' t'
    | (.error e,s') => (.error e,s') := rfl
  rw [hbind,branch]
  rcases p m s t with ⟨_ | ⟨a,t'⟩,s'⟩ <;> rfl

omit [Places ι] in
theorem bind_run (p : Parser ι σ α) (f : α → Parser ι σ β) (m : Mode) (s : Trace ι σ) (t : Text) :
    (p >>= f) m s t = match p m s t with
      | (.ok (a,t'),s') => f a m s' t'
      | (.error e,s') => (.error e,s') := by
  rw [bind_eq_branch,branch]
  rcases p m s t with ⟨_ | ⟨a,t'⟩,s'⟩ <;> rfl

theorem Sound.bind {f : α → Parser ι σ β} (hp : Sound d E p) (hE : ∀ a, E a → Safe (d-1) (f a))
    (hf : ∀ a, ¬ E a → Sound d G (f a)) : Sound d G (p >>= f) := by
  rw [bind_eq_branch]
  exact hp.branch (fun _ h => absurd h (by simp)) hE hf (Sound.fail .error)

theorem Eats.bind {f : α → Parser ι σ β} (hp : Eats d p) (hf : ∀ a, Safe (d-1) (f a)) :
    Eats d (p >>= f) := Sound.bind hp (fun a _ => hf a) fun _ ha => absurd trivial ha

theorem Safe.bind {f : α → Parser ι σ β} (hp : Safe d p) (hf : ∀ a, Sound d G (f a)) :
    Sound d G (p >>= f) := Sound.bind hp (fun _ ha => False.elim ha) fun a _ => hf a

theorem isErr_of_isError (e : Stop) (h : e.isError = true) : e.isErr = true := by
  cases e <;> simp_all [Stop.isError,Stop.isErr]

/-- An alternative that takes something when it does not fail. -/
theorem Eats.ifOk {yes : α → Parser ι σ β} {no : Parser ι σ β} (hp : Eats d p)
    (hyes : ∀ a, Safe (d-1) (yes a)) (hno : Sound d G no) : Sound d G (ifOk p yes no) :=
  Sound.branch hp (fun _ h => h) (fun a _ => hyes a) (fun _ ha => absurd trivial ha) hno

theorem Safe.ifOk {yes : α → Parser ι σ β} {no : Parser ι σ β} (hp : Safe d p)
    (hyes : ∀ a, Sound d G (yes a)) (hno : Sound d G no) : Sound d G (ifOk p yes no) :=
  Sound.branch hp (fun _ h => h) (fun _ ha => False.elim ha) (fun a _ => hyes a) hno

theorem Sound.orElse {q : Parser ι σ α} (hp : Sound d E p) (hq : Sound d E q) :
    Sound d E (orElse p q) :=
  Sound.branch hp isErr_of_isError (fun a _ => Safe.ret a) (fun _ ha => Sound.ret ha) hq

theorem Sound.alt_nil : Sound d E (alt [] : Parser ι σ α) := Sound.fail .error

theorem Sound.alt_cons {ps : List (Parser ι σ α)} (hp : Sound d E p) (hps : Sound d E (alt ps)) :
    Sound d E (alt (p::ps)) := Sound.orElse hp hps

theorem Sound.alt {ps : List (Parser ι σ α)} (h : ∀ p ∈ ps, Sound d E p) : Sound d E (alt ps) := by
  induction ps with
  | nil => exact Sound.alt_nil
  | cons p ps ih =>
    exact Sound.alt_cons (h p List.mem_cons_self) (ih fun q hq => h q (List.mem_cons_of_mem p hq))

theorem Safe.opt (hp : Safe d p) : Safe d (opt p) :=
  Sound.branch hp isErr_of_isError (fun _ ha => False.elim ha) (fun a _ => Safe.ret (some a))
    (Safe.ret none)

theorem Eats.opt (hp : Eats d p) : Sound d (fun a => a.isSome = true) (opt p) :=
  Sound.branch hp isErr_of_isError (fun a _ => Safe.ret (some a))
    (fun _ ha => absurd trivial ha) (Sound.ret (by simp))

theorem Sound.cut (hp : Sound d E p) : Sound d E (cut p) :=
  Sound.branch hp isErr_of_isError (fun a _ => Safe.ret a) (fun _ ha => Sound.ret ha)
    (Sound.fail .failure)

theorem Sound.ofText {f : Text → Option (α × Text)} (hf : ∀ t a t', f t = some (a,t') →
    t'.length ≤ t.length ∧ (E a → t'.length < t.length)) :
    Sound d E (ofText f : Parser ι σ α) where
  shrinks {m s s' t t' a} h := by
    rw [Parsing.ofText] at h
    cases hr : f t with
    | none =>
      rw [hr] at h
      cases h
    | some r =>
      rw [hr] at h
      cases h
      exact hf t a t' hr
  follows k s t hs _ := by
    have hrun : ∀ m, Parsing.ofText f m s t = match f t with
      | some r => (.ok r,s)
      | none => (.error .error,s) := fun _ => rfl
    rw [hrun,hrun]
    cases f t with
    | none => exact .err hs .error
    | some r => exact .ok r.1 r.2 hs

theorem Eats.char (c : Char) : Eats d (char c : Parser ι σ Unit) := by
  refine Sound.ofText fun t a t' h => ?_
  cases t with
  | nil => cases h
  | cons b t =>
    by_cases hb : b = c
    · simp only [if_pos hb] at h
      cases h
      exact ⟨Nat.le_succ _,fun _ => Nat.lt_succ_self _⟩
    · simp only [if_neg hb] at h
      cases h

theorem length_of_isPrefixOf? {word t rest : Text} (h : word.isPrefixOf? t = some rest) :
    t.length = word.length+rest.length := by
  induction word generalizing t with
  | nil =>
    cases t <;> simp_all [List.isPrefixOf?]
  | cons c word ih =>
    cases t with
    | nil => cases h
    | cons b t =>
      rw [List.isPrefixOf?] at h
      by_cases hc : (c == b) = true
      · rw [if_pos hc] at h
        rw [List.length_cons,List.length_cons,ih h]
        omega
      · rw [if_neg hc] at h
        cases h

theorem Safe.tag (word : String) : Safe d (tag word : Parser ι σ Unit) := by
  refine Sound.ofText fun t a t' h => ⟨?_,False.elim⟩
  obtain ⟨rest,hrest,heq⟩ := Option.map_eq_some_iff.mp h
  cases heq
  have hlen := length_of_isPrefixOf? hrest
  omega

theorem Eats.tag {word : String} (hword : word.toList ≠ []) :
    Eats d (tag word : Parser ι σ Unit) := by
  refine Sound.ofText fun t a t' h => ?_
  obtain ⟨rest,hrest,heq⟩ := Option.map_eq_some_iff.mp h
  cases heq
  have hlen := length_of_isPrefixOf? hrest
  have hpos := List.length_pos_iff.mpr hword
  exact ⟨by omega,fun _ => by omega⟩

/-- What is taken is behind the rest. -/
theorem length_dropWhile (p : Char → Bool) (t : Text) :
    t.length = (t.takeWhile p).length+(t.dropWhile p).length := by
  rw [← List.length_append,List.takeWhile_append_dropWhile]

theorem Sound.takeWhile (p : Char → Bool) :
    Sound d (fun word => word ≠ []) (takeWhile p : Parser ι σ Text) := by
  refine Sound.ofText fun t a t' h => ?_
  cases h
  have hlen := length_dropWhile p t
  refine ⟨by omega,fun hword => ?_⟩
  have hpos := List.length_pos_iff.mpr hword
  omega

theorem Eats.takeWhile1 (p : Char → Bool) : Eats d (takeWhile1 p : Parser ι σ Text) := by
  refine (Sound.takeWhile p).bind (fun word hword => ?_) fun word hword => ?_
  · rw [if_neg hword]
    exact Safe.ret word
  · rw [if_pos (not_not.mp hword)]
    exact Sound.fail .error

theorem Safe.takeUntil (c : Char) : Safe d (takeUntil c : Parser ι σ Text) := by
  refine Sound.ofText fun t a t' h => ⟨?_,False.elim⟩
  by_cases hc : c ∈ t
  · simp only [if_pos hc] at h
    cases h
    have hlen := length_dropWhile (fun b => b ≠ c) t
    omega
  · simp only [if_neg hc] at h
    cases h

/-! ### Loops and recursion come to an end -/

omit [Places ι] in
theorem turns_succ (turn : α → Parser ι σ (α ⊕ β)) (n : ℕ) (a : α) (m : Mode) (s : Trace ι σ) (t : Text) :
    turns turn (n+1) a m s t = match turn a m s t with
      | (.ok (.inl a,t'),s') => turns turn n a m s' t'
      | (.ok (.inr b,t'),s') => (.ok (b,t'),s')
      | (.error e,s') => (.error e,s') := by
  rw [turns,bind_eq_branch,branch]
  rcases turn a m s t with ⟨_ | ⟨_ | _,_⟩,_⟩ <;> rfl

theorem length_turns {turn : α → Parser ι σ (α ⊕ β)} {n : ℕ} {a : α} {b : β}
    (h : ∀ a, Sound d (fun r => r.isLeft = true) (turn a))
    (hrun : turns turn n a m s t = (.ok (b,t'),s')) : t'.length ≤ t.length := by
  induction n generalizing a s t with
  | zero => cases hrun
  | succ n ih =>
    rw [turns_succ] at hrun
    rcases hr : turn a m s t with ⟨_ | ⟨a' | b',t₁⟩,s₁⟩
    · rw [hr] at hrun
      cases hrun
    · rw [hr] at hrun
      exact Nat.le_trans (ih hrun) ((h a).shrinks hr).1
    · rw [hr] at hrun
      cases hrun
      exact ((h a).shrinks hr).1

/-- A loop whose turns take something as long as it goes on comes to its end. -/
theorem turns_follows {turn : α → Parser ι σ (α ⊕ β)} {n n' : ℕ} {a : α} (k : ℕ)
    (h : ∀ a, Sound d (fun r => r.isLeft = true) (turn a)) (hs : s.Fine) (hd : t.length < d)
    (hn : t.length < n) (hn' : n ≤ n') : Follows (turns turn n a .watched s t) (turns turn n' a (.turns k) s t) := by
  induction n generalizing a s t n' with
  | zero => exact absurd hn (Nat.not_lt_zero _)
  | succ n ih =>
    obtain ⟨n',rfl⟩ : ∃ l, n' = l+1 := ⟨n'-1,by omega⟩
    rw [turns_succ,turns_succ]
    have hfollows := (h a).follows k s t hs hd
    generalize hw : turn a .watched s t = w at hfollows ⊢
    generalize turn a (.turns k) s t = c at hfollows ⊢
    cases hfollows with
    | ok r t₁ hs₁ =>
      obtain ⟨hle,hlt⟩ := (h a).shrinks hw
      cases r with
      | inl a' =>
        have hlt := hlt rfl
        exact ih hs₁ (by omega) (by omega) (by omega)
      | inr b => exact .ok b t₁ hs₁
    | err hs₁ he => exact .err hs₁ he
    | lost s' hs₁ he => exact .lost s' hs₁ he

theorem Safe.loop {turn : α → Parser ι σ (α ⊕ β)}
    (h : ∀ a, Sound d (fun r => r.isLeft = true) (turn a)) (a : α) : Safe d (loop turn a) where
  shrinks hp := ⟨length_turns h hp,False.elim⟩
  follows k s t hs ht := turns_follows k h hs ht (Nat.lt_succ_self _) (by simp [Mode.extra])

omit [Places ι] in
theorem many0Turn_apply (p : Parser ι σ α) (list : List α) (m : Mode) (s : Trace ι σ) (t : Text) :
    many0Turn p list m s t = match p m s t with
      | (.ok (a,t'),s') =>
        if t'.length = t.length then (.error .error,s') else (.ok (.inl (list ++ [a]),t'),s')
      | (.error e,s') => if e.isError then (.ok (.inr list,t),s') else (.error e,s') := by
  have hturn : many0Turn p list m s t = match p m s t with
    | (.ok (a,t'),s') => (if t'.length = t.length then fail .error
        else pure (.inl (list ++ [a])) : Parser ι σ (List α ⊕ List α)) m s' t'
    | (.error e,s') => if e.isError then (.ok (.inr list,t),s') else (.error e,s') := rfl
  rw [hturn]
  rcases p m s t with ⟨e | ⟨a,t'⟩,s'⟩
  · rfl
  · simp only
    split_ifs <;> rfl

theorem Safe.many0 (hp : Safe d p) : Safe d (many0 p) := by
  refine Safe.loop (fun list => ⟨fun {m s s' t t' r} h => ?_,fun k s t hs ht => ?_⟩) []
  · rw [many0Turn_apply] at h
    rcases hr : p m s t with ⟨e | ⟨a,t₁⟩,s₁⟩
    · simp only [hr] at h
      by_cases he : e.isError = true
      · rw [if_pos he] at h
        cases h
        exact ⟨Nat.le_refl _,by simp⟩
      · rw [if_neg he] at h
        cases h
    · have hle := (hp.shrinks hr).1
      simp only [hr] at h
      by_cases hsame : t₁.length = t.length
      · rw [if_pos hsame] at h
        cases h
      · rw [if_neg hsame] at h
        cases h
        exact ⟨hle,fun _ => Nat.lt_of_le_of_ne hle hsame⟩
  · rw [many0Turn_apply,many0Turn_apply]
    have hfollows := hp.follows k s t hs ht
    generalize p .watched s t = w at hfollows ⊢
    generalize p (.turns k) s t = c at hfollows ⊢
    cases hfollows with
    | ok a t₁ hs₁ =>
      simp only
      split_ifs
      · exact .err hs₁ .error
      · exact .ok _ t₁ hs₁
    | err hs₁ he =>
      simp only
      split_ifs
      · exact .ok _ t hs₁
      · exact .err hs₁ he
    | lost s' hs₁ he =>
      have hstuck : Stop.stuck.isError = false := rfl
      simp only [hstuck,he.not_caught isErr_of_isError]
      exact .lost s' hs₁ he

theorem Safe.separatedList0 {sep : Parser ι σ Unit} (hsep : Eats d sep) (hp : Safe d p) :
    Safe d (separatedList0 sep p) := by
  have hp' : Safe (d-1) p := hp.le (Nat.sub_le d 1)
  refine Sound.branch hp isErr_of_isError (fun _ ha => False.elim ha) (fun a _ => ?_) (Safe.ret [])
  refine Safe.loop (fun list => Safe.bind Sound.source fun before => ?_) [a]
  have hnext : Eats d (do
      sep
      let after ← source
      if after.length = before.length then pure none else do
        let a ← p
        pure (some a) : Parser ι σ (Option α)) := by
    refine hsep.bind fun _ => Safe.bind Sound.source fun after => ?_
    split_ifs
    · exact Safe.ret none
    · exact hp'.bind fun a => Safe.ret (some a)
  refine Sound.branch hnext isErr_of_isError (fun a _ => ?_) (fun _ ha => absurd trivial ha)
    (Sound.ret (by simp))
  cases a with
  | none => exact Sound.fail .error
  | some a => exact Safe.ret _

/-- A recursion that takes something before each call comes to its end. -/
theorem Sound.fix {F : (γ → Parser ι σ α) → γ → Parser ι σ α}
    (h : ∀ n, (∀ i, Sound n E (depth F n i)) → ∀ i, Sound (n+1) E (F (depth F n) i)) (i : γ) :
    Sound d E (fix F i) := by
  have hdepth : ∀ n i, Sound n E (depth F n i) := by
    intro n
    induction n with
    | zero =>
      intro i
      refine ⟨?_,fun k s t _ ht => absurd ht (Nat.not_lt_zero _)⟩
      intro m s s' t t' a hp
      cases hp
    | succ n ih => exact h n ih
  exact ⟨fun hp => (hdepth _ i).shrinks hp,fun k s t hs _ =>
    (hdepth (t.length+1) i).follows k s t hs (Nat.lt_succ_self _)⟩

end Sound

/-! ### Parsers that do not look at the state -/

/-- The results leave the same text behind or are the same error, or one of them does not come
back. -/
inductive Alike (R : α → β → Prop) : Result α × Trace ι σ → Result β × Trace ι σ → Prop
  | ok {a : α} {b : β} (t : Text) (s s' : Trace ι σ) : R a b → Alike R (.ok (a,t),s) (.ok (b,t),s')
  | err (e : Stop) (s s' : Trace ι σ) : Alike R (.error e,s) (.error e,s')
  | left {e : Stop} (s : Trace ι σ) (r : Result β × Trace ι σ) : Lost e → Alike R (.error e,s) r
  | right {e : Stop} (r : Result α × Trace ι σ) (s' : Trace ι σ) : Lost e → Alike R r (.error e,s')

/-- What the parsers do with a text does not depend on the state. -/
def Oblivious (R : α → β → Prop) (p : Parser ι σ α) (q : Parser ι σ β) : Prop :=
  ∀ k s s' t, Alike R (p (.turns k) s t) (q (.turns k) s' t)

/-- For values that nothing depends on. -/
abbrev Blind (p : Parser ι σ α) (q : Parser ι σ β) : Prop := Oblivious (fun _ _ => True) p q

section Oblivious

variable {α' β' : Type} {R : α → α' → Prop} {Q : β → β' → Prop} {p : Parser ι σ α}
variable {q : Parser ι σ α'}

theorem Oblivious.ret {a : α} {a' : α'} (h : R a a') :
    Oblivious R (pure a : Parser ι σ α) (pure a') := fun _ s s' t => .ok t s s' h

theorem Oblivious.fail (e : Stop) : Oblivious R (fail e : Parser ι σ α) (fail e) :=
  fun _ s s' _ => .err e s s'

theorem Oblivious.source : Oblivious Eq (source : Parser ι σ Text) source :=
  fun _ s s' t => .ok t s s' rfl

theorem Oblivious.onState (f : σ → α × σ) (f' : σ → α' × σ) :
    Blind (onState f : Parser ι σ α) (onState f') := fun _ _ _ t => .ok t _ _ trivial

theorem Oblivious.visit [Places ι] (place place' : ι) (h : Oblivious R p q) :
    Oblivious R (visit place p) (visit place' q) := fun k s s' t =>
  h k (s.visit place) (s'.visit place') t

theorem Oblivious.ofText (f : Text → Option (α × Text)) :
    Oblivious Eq (ofText f : Parser ι σ α) (ofText f) := by
  intro k s s' t
  simp only [Parsing.ofText]
  rcases f t with _ | r
  · exact .err _ s s'
  · exact .ok r.2 s s' rfl

theorem Oblivious.mono {R' : α → α' → Prop} (h : Oblivious R p q) (hR : ∀ a a', R a a' → R' a a') :
    Oblivious R' p q := by
  intro k s s' t
  have halike := h k s s' t
  generalize p (.turns k) s t = r at halike ⊢
  generalize q (.turns k) s' t = r' at halike ⊢
  cases halike with
  | ok t s s' ha => exact .ok t s s' (hR _ _ ha)
  | err e s s' => exact .err e s s'
  | left s _ he => exact .left s _ he
  | right _ s' he => exact .right _ s' he

/-- The values need not be the same. -/
theorem Oblivious.blind (h : Oblivious R p q) : Blind p q := h.mono fun _ _ _ => trivial

theorem Blind.ofText (f : Text → Option (α × Text)) : Blind (ofText f : Parser ι σ α) (ofText f) :=
  (Oblivious.ofText f).blind

theorem Oblivious.branch {catches : Stop → Bool} {yes : α → Parser ι σ β} {yes' : α' → Parser ι σ β'}
    {no : Parser ι σ β} {no' : Parser ι σ β'} (hp : Oblivious R p q)
    (hc : ∀ e, catches e = true → e.isErr = true)
    (hyes : ∀ a a', R a a' → Oblivious Q (yes a) (yes' a')) (hno : Oblivious Q no no') :
    Oblivious Q (branch catches p yes no) (branch catches q yes' no') := by
  intro k s s' t
  have halike := hp k s s' t
  rw [Parsing.branch,Parsing.branch]
  generalize p (.turns k) s t = r at halike ⊢
  generalize q (.turns k) s' t = r' at halike ⊢
  cases halike with
  | ok t₁ s₁ s₁' ha => exact hyes _ _ ha k s₁ s₁' t₁
  | err e s₁ s₁' =>
    simp only
    by_cases he : catches e = true
    · rw [if_pos he,if_pos he]
      exact hno k s₁ s₁' t
    · rw [if_neg he,if_neg he]
      exact .err e s₁ s₁'
  | left s₁ _ he =>
    simp only [he.not_caught hc]
    exact .left s₁ _ he
  | right _ s₁' he =>
    simp only [he.not_caught hc]
    exact .right _ s₁' he

theorem Oblivious.bind {f : α → Parser ι σ β} {f' : α' → Parser ι σ β'} (hp : Oblivious R p q)
    (hf : ∀ a a', R a a' → Oblivious Q (f a) (f' a')) : Oblivious Q (p >>= f) (q >>= f') := by
  rw [bind_eq_branch,bind_eq_branch]
  exact hp.branch (fun _ h => absurd h (by simp)) hf (Oblivious.fail _)

theorem Oblivious.takeWhile1 (p : Char → Bool) :
    Oblivious Eq (takeWhile1 p : Parser ι σ Text) (takeWhile1 p) := by
  refine Oblivious.bind (Oblivious.ofText _) fun word word' hword => ?_
  subst hword
  split_ifs
  · exact Oblivious.fail _
  · exact Oblivious.ret rfl

theorem Oblivious.ifOk {yes : α → Parser ι σ β} {yes' : α' → Parser ι σ β'} {no : Parser ι σ β}
    {no' : Parser ι σ β'} (hp : Oblivious R p q)
    (hyes : ∀ a a', R a a' → Oblivious Q (yes a) (yes' a')) (hno : Oblivious Q no no') :
    Oblivious Q (ifOk p yes no) (ifOk q yes' no') := hp.branch (fun _ h => h) hyes hno

theorem Oblivious.orElse {p' : Parser ι σ α} {q' : Parser ι σ α'} (hp : Oblivious R p q)
    (hq : Oblivious R p' q') : Oblivious R (orElse p p') (orElse q q') :=
  hp.branch isErr_of_isError (fun _ _ h => Oblivious.ret h) hq

theorem Oblivious.alt {ps : List (Parser ι σ α)} {qs : List (Parser ι σ α')}
    (h : List.Forall₂ (Oblivious R) ps qs) : Oblivious R (alt ps) (alt qs) := by
  induction h with
  | nil => exact Oblivious.fail _
  | cons hp _ ih => exact Oblivious.orElse hp ih

theorem Oblivious.opt (hp : Oblivious R p q) : Blind (opt p) (opt q) :=
  hp.branch isErr_of_isError (fun _ _ _ => Oblivious.ret trivial) (Oblivious.ret trivial)

theorem Oblivious.cut (hp : Oblivious R p q) : Oblivious R (cut p) (cut q) :=
  hp.branch isErr_of_isError (fun _ _ h => Oblivious.ret h) (Oblivious.fail _)

/-- Both turns of a loop go on, or both of them leave it. -/
def SameSide (Q : β → β' → Prop) : α ⊕ β → α' ⊕ β' → Prop
  | .inl _, .inl _ => True
  | .inr b, .inr b' => Q b b'
  | _, _ => False

theorem Oblivious.goOn (a : α) (a' : α') :
    Oblivious (SameSide Q) (pure (.inl a) : Parser ι σ (α ⊕ β))
      (pure (.inl a') : Parser ι σ (α' ⊕ β')) := Oblivious.ret trivial

theorem Oblivious.leave {b : β} {b' : β'} (h : Q b b') :
    Oblivious (SameSide Q) (pure (.inr b) : Parser ι σ (α ⊕ β))
      (pure (.inr b') : Parser ι σ (α' ⊕ β')) :=
  Oblivious.ret h

theorem Oblivious.turns {turn : α → Parser ι σ (α ⊕ β)} {turn' : α' → Parser ι σ (α' ⊕ β')}
    (h : ∀ a a', Oblivious (SameSide Q) (turn a) (turn' a')) (n : ℕ) (a : α) (a' : α') :
    Oblivious Q (turns turn n a) (turns turn' n a') := by
  induction n generalizing a a' with
  | zero => exact Oblivious.fail _
  | succ n ih =>
    refine (h a a').bind fun r r' hr => ?_
    cases r with
    | inl a =>
      cases r' with
      | inl a' => exact ih a a'
      | inr b' => exact False.elim hr
    | inr b =>
      cases r' with
      | inl a' => exact False.elim hr
      | inr b' => exact Oblivious.ret hr

theorem Oblivious.loop {turn : α → Parser ι σ (α ⊕ β)} {turn' : α' → Parser ι σ (α' ⊕ β')}
    (h : ∀ a a', Oblivious (SameSide Q) (turn a) (turn' a')) (a : α) (a' : α') :
    Oblivious Q (loop turn a) (loop turn' a') :=
  fun k s s' t => Oblivious.turns h (t.length+1+k) a a' k s s' t

theorem Oblivious.many0 (hp : Oblivious R p q) : Blind (many0 p) (many0 q) := by
  refine Oblivious.loop (fun list list' => Oblivious.source.bind fun before before' hbefore => ?_) [] []
  refine hp.branch isErr_of_isError (fun a a' _ => ?_) (Oblivious.ret trivial)
  refine Oblivious.source.bind fun after after' hafter => ?_
  subst hbefore hafter
  split_ifs
  · exact Oblivious.fail _
  · exact Oblivious.ret trivial

theorem Oblivious.itemTurns [Places ι] {place : Text → ι} {sep close : Parser ι σ Unit}
    (hp : Blind p q) (hsep : Blind sep sep) (hclose : Blind close close) (n : ℕ) (list : List α)
    (list' : List α') :
    Blind (itemTurns place sep close p n list) (itemTurns place sep close q n list') := by
  induction n generalizing list list' with
  | zero => exact Oblivious.fail _
  | succ n ih =>
    refine Oblivious.source.bind fun start start' hstart => hp.bind fun _ _ _ => ?_
    refine Oblivious.source.bind fun _ _ _ => Oblivious.visit _ _ ?_
    refine hsep.ifOk (fun _ _ _ => ih _ _) (hclose.ifOk (fun _ _ _ => Oblivious.ret trivial) ?_)
    subst hstart
    exact fun k s s' t => ih _ _ k s s' start

theorem Oblivious.items [Places ι] {place : Text → ι} {sep close : Parser ι σ Unit} (hp : Blind p q)
    (hsep : Blind sep sep) (hclose : Blind close close) :
    Blind (items place sep close p) (items place sep close q) :=
  fun k s s' t => Oblivious.itemTurns hp hsep hclose (t.length+1+k) [] [] k s s' t

theorem Oblivious.depth {γ' : Type} {F : (γ → Parser ι σ α) → γ → Parser ι σ α}
    {F' : (γ' → Parser ι σ α') → γ' → Parser ι σ α'}
    (h : ∀ self self', (∀ i i', Oblivious R (self i) (self' i')) →
      ∀ i i', Oblivious R (F self i) (F' self' i')) (n : ℕ) (i : γ) (i' : γ') :
    Oblivious R (depth F n i) (depth F' n i') := by
  induction n generalizing i i' with
  | zero => exact Oblivious.fail _
  | succ n ih => exact h _ _ ih i i'

theorem Oblivious.fix {γ' : Type} {F : (γ → Parser ι σ α) → γ → Parser ι σ α}
    {F' : (γ' → Parser ι σ α') → γ' → Parser ι σ α'}
    (h : ∀ self self', (∀ i i', Oblivious R (self i) (self' i')) →
      ∀ i i', Oblivious R (F self i) (F' self' i')) (i : γ) (i' : γ') :
    Oblivious R (fix F i) (fix F' i') :=
  fun k s s' t => Oblivious.depth h (t.length+1) i i' k s s' t

end Oblivious

/-! ### Lists of items -/

/-- A parser that takes a beginning of the text, and only looks at the text. -/
def reading (f : Text → Option Text) : Parser ι σ Unit := ofText fun t => (f t).map fun rest => ((),rest)

theorem reading_some {f : Text → Option Text} {t rest : Text} (h : f t = some rest) (m : Mode)
    (s : Trace ι σ) : (reading f : Parser ι σ Unit) m s t = (.ok ((),rest),s) := by
  rw [reading,ofText,h]
  rfl

theorem reading_none {f : Text → Option Text} {t : Text} (h : f t = none) (m : Mode)
    (s : Trace ι σ) : (reading f : Parser ι σ Unit) m s t = (.error .error,s) := by
  rw [reading,ofText,h]
  rfl

section Items

variable [Places ι] {place : Text → ι} {sep close : Text → Option Text} {m : Mode}
variable {s s' : Trace ι σ} {t t' : Text} {d : ℕ} {item : Parser ι σ α}

/-- A turn of the loop: an item, and what is behind it. -/
theorem itemTurns_succ (sep close : Parser ι σ Unit) (n : ℕ) (list : List α) (m : Mode)
    (s : Trace ι σ) (t : Text) :
    itemTurns place sep close item (n+1) list m s t = match item m s t with
      | (.ok (a,t'),s') => visit (place t') (ifOk sep
          (fun _ => itemTurns place sep close item n (list ++ [a]))
          (ifOk close (fun _ => pure (list ++ [a]))
            (again t (itemTurns place sep close item n (list ++ [a]))))) m s' t'
      | (.error e,s') => (.error e,s') := by
  have hturn : itemTurns place sep close item (n+1) list m s t =
      (item >>= fun a => source >>= fun rest => visit (place rest) (ifOk sep
          (fun _ => itemTurns place sep close item n (list ++ [a]))
          (ifOk close (fun _ => pure (list ++ [a]))
            (again t (itemTurns place sep close item n (list ++ [a])))))) m s t := rfl
  rw [hturn,bind_eq_branch,branch]
  rcases item m s t with ⟨e | ⟨a,t'⟩,s'⟩ <;> rfl

omit [Places ι] in
/-- What comes behind an item. -/
theorem behindItem (next : Parser ι σ (List α)) (list : List α) (m : Mode) (s : Trace ι σ)
    (t : Text) {start : Text} :
    (ifOk (reading sep) (fun _ => next) (ifOk (reading close) (fun _ => pure list)
      (again start next)) : Parser ι σ (List α)) m s t =
      match sep t, close t with
      | some rest, _ => next m s rest
      | none, some rest => (.ok (list,rest),s)
      | none, none => next m s start := by
  rw [ifOk,branch]
  cases hsep : sep t with
  | some rest => rw [reading_some hsep]
  | none =>
    rw [reading_none hsep]
    simp only [Stop.isErr,if_true]
    rw [ifOk,branch]
    cases hclose : close t with
    | some rest =>
      rw [reading_some hclose]
      rfl
    | none =>
      rw [reading_none hclose]
      rfl

/-- An item with neither of the separators behind it. -/
def Unseparated (sep close : Text → Option Text) (item : Parser ι σ α) (k : ℕ) (t : Text) : Prop :=
  ∃ s a t' s', item (.turns k) s t = (.ok (a,t'),s') ∧ sep t' = none ∧ close t' = none

/-- The turn begins again at the same text. -/
theorem Unseparated.lost {k : ℕ} (hu : Unseparated sep close item k t) (hitem : Blind item item)
    (n : ℕ) (list : List α) (s : Trace ι σ) : ∃ e s',
      itemTurns place (reading sep) (reading close) item n list (.turns k) s t = (.error e,s') ∧
        Lost e := by
  induction n generalizing list s with
  | zero => exact ⟨_,s,rfl,.endless⟩
  | succ n ih =>
    obtain ⟨s₀,a₀,t',s₀',hrun,hsep,hclose⟩ := hu
    have halike := hitem k s₀ s t
    rw [hrun] at halike
    rw [itemTurns_succ]
    generalize item (.turns k) s t = r at halike ⊢
    cases halike with
    | ok _ _ s₃ _ =>
      simp only [visit,behindItem,hsep,hclose]
      exact ih _ _
    | right _ s' he => exact ⟨_,s',rfl,he⟩

theorem length_itemTurns {n : ℕ} {list list' : List α} (hitem : Safe d item)
    (hsep : ∀ t rest, sep t = some rest → rest.length ≤ t.length)
    (hclose : ∀ t rest, close t = some rest → rest.length ≤ t.length)
    (hrun : itemTurns place (reading sep) (reading close) item n list m s t =
      (.ok (list',t'),s')) : t'.length ≤ t.length := by
  induction n generalizing list s t with
  | zero => cases hrun
  | succ n ih =>
    rw [itemTurns_succ] at hrun
    rcases hr : item m s t with ⟨e | ⟨a,t₁⟩,s₁⟩
    · rw [hr] at hrun
      cases hrun
    have hle := (hitem.shrinks hr).1
    have hbehind : (ifOk (reading sep)
          (fun _ => itemTurns place (reading sep) (reading close) item n (list ++ [a]))
          (ifOk (reading close) (fun _ => pure (list ++ [a]))
            (again t (itemTurns place (reading sep) (reading close) item n (list ++ [a])))))
        m (s₁.visit (place t₁)) t₁ = (.ok (list',t'),s') := by
      rw [hr] at hrun
      cases m with
      | watched =>
        by_cases hfine : Places.Fine (place t₁)
        · simpa only [visit,if_pos hfine] using hrun
        · simp only [visit,if_neg hfine] at hrun
          cases hrun
      | turns k => exact hrun
    rw [behindItem] at hbehind
    cases hsep₁ : sep t₁ with
    | some rest =>
      rw [hsep₁] at hbehind
      exact (ih hbehind).trans ((hsep _ _ hsep₁).trans hle)
    | none =>
      cases hclose₁ : close t₁ with
      | some rest =>
        rw [hsep₁,hclose₁] at hbehind
        cases hbehind
        exact (hclose _ _ hclose₁).trans hle
      | none =>
        rw [hsep₁,hclose₁] at hbehind
        exact ih hbehind

theorem itemTurns_follows {n n' : ℕ} {list : List α} (k : ℕ) (hitem : Eats d item)
    (hsep : ∀ t rest, sep t = some rest → rest.length ≤ t.length) (hitem' : Blind item item)
    (hplace : ∀ t, Places.Fine (place t) ↔ sep t ≠ none ∨ close t ≠ none) (hs : s.Fine)
    (hd : t.length < d) (hn : t.length < n) (hn' : n ≤ n') :
    Follows (itemTurns place (reading sep) (reading close) item n list .watched s t)
      (itemTurns place (reading sep) (reading close) item n' list (.turns k) s t) := by
  induction n generalizing list s t n' with
  | zero => exact absurd hn (Nat.not_lt_zero _)
  | succ n ih =>
    obtain ⟨n',rfl⟩ : ∃ l, n' = l+1 := ⟨n'-1,by omega⟩
    have hfollows := hitem.follows k s t hs hd
    generalize hw : item .watched s t = w at hfollows
    generalize hc : item (.turns k) s t = c at hfollows
    cases hfollows with
    | err hs₁ he =>
      rw [itemTurns_succ,itemTurns_succ,hw,hc]
      exact .err hs₁ he
    | lost s' hs₁ he =>
      rw [itemTurns_succ,itemTurns_succ,hw,hc]
      exact .lost s' hs₁ he
    | @ok a t₁ s₁ hs₁ =>
      have hlt := (hitem.shrinks hw).2 trivial
      by_cases hfine : Places.Fine (place t₁)
      · have hs₂ := (Trace.fine_visit (place t₁)).mpr ⟨hs₁,hfine⟩
        rw [itemTurns_succ,itemTurns_succ,hw,hc]
        simp only [visit,if_pos hfine,behindItem]
        cases hsep₁ : sep t₁ with
        | some rest =>
          have hle := hsep _ _ hsep₁
          exact ih hs₂ (by omega) (by omega) (by omega)
        | none =>
          cases hclose₁ : close t₁ with
          | some rest => exact .ok _ rest hs₂
          | none => exact absurd ((hplace t₁).mp hfine) (by simp [hsep₁,hclose₁])
      · obtain ⟨hsep₁,hclose₁⟩ : sep t₁ = none ∧ close t₁ = none := by
          simpa [hplace] using hfine
        have hu : Unseparated sep close item k t := ⟨s,a,t₁,s₁,hc,hsep₁,hclose₁⟩
        obtain ⟨e,s',hrun,he⟩ : ∃ e s', itemTurns place (reading sep) (reading close) item (n'+1)
            list (.turns k) s t = (.error e,s') ∧ Lost e := hu.lost hitem' (n'+1) list s
        have hwatched : itemTurns place (reading sep) (reading close) item (n+1) list .watched s t =
            (.error .stuck,s₁.visit (place t₁)) := by
          rw [itemTurns_succ,hw]
          exact if_neg hfine
        rw [hwatched,hrun]
        exact .lost s' (fun h => hfine ((Trace.fine_visit _).mp h).2) he

theorem Safe.items (hitem : Eats d item) (hitem' : Blind item item)
    (hsep : ∀ t rest, sep t = some rest → rest.length ≤ t.length)
    (hclose : ∀ t rest, close t = some rest → rest.length ≤ t.length)
    (hplace : ∀ t, Places.Fine (place t) ↔ sep t ≠ none ∨ close t ≠ none) :
    Safe d (items place (reading sep) (reading close) item) where
  shrinks hrun := ⟨length_itemTurns hitem.safe hsep hclose hrun,False.elim⟩
  follows k _ _ hs ht := itemTurns_follows k hitem hsep hitem' hplace hs ht (Nat.lt_succ_self _)
    (by simp [Mode.extra])

end Items

/-! ### Chains -/

/-- So many steps along a chain. -/
def along (next : α → Option α) (n : ℕ) (a : α) : Option α := (fun o => o.bind next)^[n] (some a)

theorem along_add (next : α → Option α) (n l : ℕ) (a : α) :
    along next (n+l) a = (fun o => o.bind next)^[n] (along next l a) :=
  Function.iterate_add_apply _ n l _

theorem iterate_none (next : α → Option α) (n : ℕ) :
    (fun o => o.bind next)^[n] none = (none : Option α) := Function.iterate_fixed rfl n

theorem along_isSome_of_le {next : α → Option α} {n l : ℕ} {a : α} (hl : l ≤ n)
    (h : (along next n a).isSome = true) : (along next l a).isSome = true := by
  rw [← Nat.sub_add_cancel hl,along_add] at h
  cases hal : along next l a with
  | none => rw [hal,iterate_none] at h; cases h
  | some b => rfl

theorem along_none_of_le {next : α → Option α} {n l : ℕ} {a : α} (hn : n ≤ l)
    (h : along next n a = none) : along next l a = none := by
  rw [← Nat.sub_add_cancel hn,along_add,h,iterate_none]

theorem follow_eq_none_iff (next : α → Option α) (n : ℕ) (a : α) :
    follow next n a = none ↔ (along next (n+1) a).isSome = true := by
  induction n generalizing a with
  | zero =>
    rw [follow,along,Function.iterate_one,Option.bind_some]
    cases next a <;> simp
  | succ n ih =>
    rw [follow,along,Function.iterate_succ_apply,Option.bind_some]
    cases next a with
    | none => simp [iterate_none]
    | some b => exact ih b

/-- A chain with more links than there are places comes round, and never ends. -/
theorem follow_none_of_places [DecidableEq α] {next : α → Option α} {places : Finset α} {a : α}
    {n₀ : ℕ} (hplaces : ∀ a b, next a = some b → a ∈ places) (hn₀ : places.card ≤ n₀)
    (h : follow next n₀ a = none) (n : ℕ) : follow next n a = none := by
  have hsome : (along next (places.card+1) a).isSome = true :=
    along_isSome_of_le (Nat.succ_le_succ hn₀) ((follow_eq_none_iff next n₀ a).mp h)
  have hmaps : Set.MapsTo (fun l => along next l a) (Finset.range (places.card+1))
      (places.image some) := by
    intro l hl
    have hl := Finset.mem_range.mp (Finset.mem_coe.mp hl)
    obtain ⟨b,hb⟩ := Option.isSome_iff_exists.mp (along_isSome_of_le (Nat.le_of_lt hl) hsome)
    obtain ⟨c,hc⟩ := Option.isSome_iff_exists.mp (along_isSome_of_le hl hsome)
    have hlast : along next (1+l) a = some c := Nat.add_comm 1 l ▸ hc
    rw [along_add,hb] at hlast
    have hplace : some b ∈ places.image some := Finset.mem_image_of_mem some (hplaces b c hlast)
    exact Finset.mem_coe.mpr (hb.symm ▸ hplace : along next l a ∈ places.image some)
  have hcard : (places.image some).card < (Finset.range (places.card+1)).card := by
    rw [Finset.card_range]
    exact Nat.lt_succ_of_le Finset.card_image_le
  obtain ⟨i,hi,j,hj,hne,heq⟩ := Finset.exists_ne_map_eq_of_card_lt_of_maps_to hcard hmaps
  wlog hij : i < j generalizing i j
  · exact this j hj i hi hne.symm heq.symm (by omega)
  have hround : (fun o => o.bind next)^[j-i] (along next i a) = along next i a := by
    rw [← along_add,Nat.sub_add_cancel (Nat.le_of_lt hij)]
    exact heq.symm
  have hrounds : along next ((j-i)*(n+1)+i) a = along next i a := by
    rw [along_add,Function.iterate_mul]
    exact Function.iterate_fixed hround (n+1)
  have hi := Nat.le_of_lt (Finset.mem_range.mp hi)
  have hlong : n+1 ≤ (j-i)*(n+1)+i := by
    have hmul := Nat.mul_le_mul_right (n+1) (Nat.sub_pos_of_lt hij)
    omega
  refine (follow_eq_none_iff next n a).mpr (along_isSome_of_le hlong ?_)
  rw [hrounds]
  exact along_isSome_of_le hi hsome

/-- What is found stands at the end of the chain. -/
theorem follow_eq_some {next : α → Option α} {n : ℕ} {a b : α} (h : follow next n a = some b) :
    ∃ l, along next l a = some b ∧ next b = none := by
  induction n generalizing a with
  | zero =>
    rw [follow] at h
    split_ifs at h with hnone
    cases h
    exact ⟨0,rfl,Option.isNone_iff_eq_none.mp hnone⟩
  | succ n ih =>
    rw [follow] at h
    cases hnext : next a with
    | none =>
      rw [hnext] at h
      cases h
      exact ⟨0,rfl,hnext⟩
    | some c =>
      rw [hnext] at h
      obtain ⟨l,hl,hb⟩ := ih h
      refine ⟨l+1,?_,hb⟩
      rw [along,Function.iterate_succ_apply,Option.bind_some,hnext]
      exact hl

/-- One step behind the end there is nothing. -/
theorem along_succ_of_end {next : α → Option α} {n : ℕ} {a b : α} (h : along next n a = some b)
    (hb : next b = none) : along next (n+1) a = none := by
  rw [along,Function.iterate_succ_apply']
  exact (congrArg (fun o : Option α => o.bind next) h).trans hb

theorem end_unique {next : α → Option α} {n l : ℕ} {a b c : α} (h : along next n a = some b)
    (hb : next b = none) (h' : along next l a = some c) (hc : next c = none) : b = c := by
  rcases Nat.lt_trichotomy n l with hlt | rfl | hlt
  · rw [along_none_of_le hlt (along_succ_of_end h hb)] at h'
    cases h'
  · exact Option.some.inj (h.symm.trans h')
  · rw [along_none_of_le hlt (along_succ_of_end h' hc)] at h
    cases h

/-- The chain comes to an end. -/
def Ends (next : α → Option α) (a : α) : Prop := ∃ n, along next n a = none

/-- So many steps are enough where there are no more places with a link. -/
theorem ends_iff [DecidableEq α] {next : α → Option α} {places : Finset α} {n₀ : ℕ} {a : α}
    (hplaces : ∀ a b, next a = some b → a ∈ places) (hn₀ : places.card ≤ n₀) :
    Ends next a ↔ follow next n₀ a ≠ none := by
  constructor
  · rintro ⟨n,hn⟩ h
    have hlong := (follow_eq_none_iff next n a).mp (follow_none_of_places hplaces hn₀ h n)
    rw [along_none_of_le (Nat.le_succ n) hn] at hlong
    cases hlong
  · intro h
    rw [Ne,follow_eq_none_iff,Option.not_isSome_iff_eq_none] at h
    exact ⟨n₀+1,h⟩

theorem follow_of_along [DecidableEq α] {next : α → Option α} {places : Finset α} {n₀ n : ℕ}
    {a b : α} (hplaces : ∀ a b, next a = some b → a ∈ places) (hn₀ : places.card ≤ n₀)
    (h : along next n a = some b) (hb : next b = none) : follow next n₀ a = some b := by
  have hends : Ends next a := ⟨n+1,along_succ_of_end h hb⟩
  obtain ⟨c,hc⟩ := Option.ne_none_iff_exists'.mp ((ends_iff hplaces hn₀).mp hends)
  obtain ⟨l,hl,hlast⟩ := follow_eq_some hc
  rw [hc,end_unique h hb hl hlast]

/-- The end of a chain is found, or the run goes round it for ever. -/
theorem Safe.endOf {d : ℕ} [Places ι] {place : ι} {next : α → Option α} {links : ℕ} {a : α}
    (h : Places.Fine place ↔ follow next links a ≠ none) :
    Safe d (visit place (endOf next links a) : Parser ι σ α) := by
  cases hfollow : follow next links a with
  | some b =>
    have hpure : (Parsing.endOf next links a : Parser ι σ α) = pure b := by
      rw [Parsing.endOf,hfollow]
    rw [hpure]
    exact Sound.visit (fun _ => Safe.ret b) (fun hnot => absurd (h.mpr (by simp [hfollow])) hnot)
      (Safe.ret (d := d) b).shrinks
  | none =>
    have hfail : (Parsing.endOf next links a : Parser ι σ α) = fail .endless := by
      rw [Parsing.endOf,hfollow]
    rw [hfail]
    exact Sound.visit (fun hfine => absurd hfollow (h.mp hfine))
      (fun _ k s t => ⟨_,s,rfl,.endless⟩) (fun h => by cases h)

theorem Oblivious.endOf (next next' : α → Option α) (links links' : ℕ) (a a' : α) :
    Blind (endOf next links a : Parser ι σ α) (endOf next' links' a') := by
  intro k s s' t
  rw [Parsing.endOf,Parsing.endOf]
  cases follow next links a with
  | none => exact .left (e := .endless) s _ .endless
  | some b =>
    cases follow next' links' a' with
    | none => exact .right (e := .endless) _ s' .endless
    | some b' => exact .ok t s s' trivial

end Parsing
end OlaLang
