import OlaLang.OperationRuns
import Mathlib.Logic.Function.Basic
import Mathlib.Data.List.Nodup

/-! The symbol table of a function body: scopes of names, and variables with numbers of their own.
The table agrees with plain lists of the declarations in the open scopes. -/
namespace OlaLang
namespace Symtable

/-! ### The table -/

/-- A name and where it stands. -/
structure Identifier (Loc : Type) where
  name : String
  loc : Loc

/-- A variable, with what else its declaration says. -/
structure Variable (Loc Decl : Type) where
  id : Identifier Loc
  pos : ℕ
  decl : Decl

/-- The scopes stand in the order in which they were opened. -/
structure Table (Loc Decl : Type) where
  vars : ℕ → Option (Variable Loc Decl)
  names : List (String → Option ℕ)

/-- An error with a note. -/
structure Diagnostic (Loc : Type) where
  loc : Loc
  message : String
  noteLoc : Loc
  note : String

/-- The table, and the parts of the namespace it works on. -/
structure State (Loc Decl : Type) where
  table : Table Loc Decl
  nextId : ℕ
  diagnostics : List (Diagnostic Loc)

variable {Loc Decl : Type}

namespace Table

def new : Table Loc Decl := ⟨fun _ => none,[fun _ => none]⟩

/-- The scopes are searched from the outermost on. -/
def find (t : Table Loc Decl) (name : String) : Option (Variable Loc Decl) :=
  (t.names.findSome? fun scope => scope name).bind t.vars

def newScope (t : Table Loc Decl) : Table Loc Decl := { t with names := t.names ++ [fun _ => none] }

def leaveScope (t : Table Loc Decl) : Table Loc Decl := { t with names := t.names.dropLast }

def insertVar (t : Table Loc Decl) (v : Variable Loc Decl) : Table Loc Decl :=
  { t with vars := Function.update t.vars v.pos (some v) }

@[simp] theorem insertVar_vars_self (t : Table Loc Decl) (v : Variable Loc Decl) :
    (t.insertVar v).vars v.pos = some v := Function.update_self _ _ _

theorem insertVar_vars_of_ne (t : Table Loc Decl) {v : Variable Loc Decl} {pos : ℕ}
    (h : pos ≠ v.pos) : (t.insertVar v).vars pos = t.vars pos := Function.update_of_ne h _ _

/-- The name is entered in the last scope; without one, `unwrap` fails. -/
def insertName (t : Table Loc Decl) (name : String) (pos : ℕ) : Option (Table Loc Decl) :=
  t.names.getLast?.map fun scope =>
    { t with names := t.names.dropLast ++ [Function.update scope name (some pos)] }

end Table

def alreadyDeclared (id : Identifier Loc) (prev : Variable Loc Decl) : Diagnostic Loc :=
  ⟨id.loc,id.name ++ " is already declared",prev.id.loc,"location of previous declaration"⟩

def alreadyUsed (id : Identifier Loc) (var : Variable Loc Decl) : Diagnostic Loc :=
  ⟨id.loc,"variable name '" ++ id.name ++ "' already used in this scope",var.id.loc,
    "found previous declaration here"⟩

/-- A number is taken and the variable is stored, also when its name is refused. -/
def add (id : Identifier Loc) (decl : Decl) (s : State Loc Decl) :
    Option (Option ℕ × State Loc Decl) :=
  let pos := s.nextId
  let table := s.table.insertVar ⟨id,pos,decl⟩
  if id.name = "" then some (some pos,⟨table,pos+1,s.diagnostics⟩)
  else match table.find id.name with
    | some prev => some (none,⟨table,pos+1,s.diagnostics ++ [alreadyDeclared id prev]⟩)
    | none => (table.insertName id.name pos).map fun table =>
      (some pos,⟨table,pos+1,s.diagnostics⟩)

def exclusiveAdd (id : Identifier Loc) (decl : Decl) (s : State Loc Decl) :
    Option (Option ℕ × State Loc Decl) :=
  match s.table.find id.name with
  | some var => some (none,{ s with diagnostics := s.diagnostics ++ [alreadyUsed id var] })
  | none => add id decl s

/-- What the resolution of statements does to the table. Other code takes numbers in between. -/
inductive Op (Loc Decl : Type)
  | add (id : Identifier Loc) (decl : Decl)
  | exclusiveAdd (id : Identifier Loc) (decl : Decl)
  | newScope | leaveScope
  | takeIds (k : ℕ)

def step : Op Loc Decl → State Loc Decl → Option (State Loc Decl)
  | .add id decl, s => (add id decl s).map Prod.snd
  | .exclusiveAdd id decl, s => (exclusiveAdd id decl s).map Prod.snd
  | .newScope, s => some { s with table := s.table.newScope }
  | .leaveScope, s => some { s with table := s.table.leaveScope }
  | .takeIds k, s => some { s with nextId := s.nextId + k }

def start (n : ℕ) : State Loc Decl := ⟨.new,n,[]⟩

/-! ### Open scopes -/

/-- The declarations of each open scope, the innermost scope first. -/
structure Scopes (Loc Decl : Type) where
  scopes : List (List (Variable Loc Decl))
  nextId : ℕ
  diagnostics : List (Diagnostic Loc)

namespace Scopes

/-- The innermost declaration of a name. -/
def lookup (a : Scopes Loc Decl) (name : String) : Option (Variable Loc Decl) :=
  a.scopes.flatten.find? fun v => v.id.name = name

def declare (v : Variable Loc Decl) :
    List (List (Variable Loc Decl)) → List (List (Variable Loc Decl))
  | [] => []
  | scope::rest => (v::scope)::rest

/-- A declaration is refused when its name is visible. -/
def add (id : Identifier Loc) (decl : Decl) (a : Scopes Loc Decl) : Scopes Loc Decl :=
  if id.name = "" then { a with nextId := a.nextId + 1 }
  else match a.lookup id.name with
    | some prev => ⟨a.scopes,a.nextId + 1,a.diagnostics ++ [alreadyDeclared id prev]⟩
    | none => ⟨declare ⟨id,a.nextId,decl⟩ a.scopes,a.nextId + 1,a.diagnostics⟩

def step : Op Loc Decl → Scopes Loc Decl → Scopes Loc Decl
  | .add id decl, a => a.add id decl
  | .exclusiveAdd id decl, a => match a.lookup id.name with
    | some var => { a with diagnostics := a.diagnostics ++ [alreadyUsed id var] }
    | none => a.add id decl
  | .newScope, a => { a with scopes := []::a.scopes }
  | .leaveScope, a => { a with scopes := a.scopes.tail }
  | .takeIds k, a => { a with nextId := a.nextId + k }

def run (ops : List (Op Loc Decl)) (a : Scopes Loc Decl) : Scopes Loc Decl :=
  ops.foldl (fun a op => step op a) a

end Scopes

/-- The number of scopes that are open at the end, from `d` on; the scope below them stays open. -/
def depth : List (Op Loc Decl) → ℕ → Option ℕ
  | [], d => some d
  | .newScope::ops, d => depth ops (d+1)
  | .leaveScope::_, 0 => none
  | .leaveScope::ops, d+1 => depth ops d
  | .add _ _::ops, d | .exclusiveAdd _ _::ops, d | .takeIds _::ops, d => depth ops d

/-! ### Refinement -/

/-- A scope of the table has the names of its declarations. -/
def Names (f : String → Option ℕ) (scope : List (Variable Loc Decl)) : Prop :=
  ∀ name, f name = (scope.find? fun v => v.id.name = name).map Variable.pos

/-- What holds in every state: no name is declared twice in the open scopes, so the order of the
search does not matter. -/
structure Refines (s : State Loc Decl) (a : Scopes Loc Decl) : Prop where
  nextId : s.nextId = a.nextId
  diagnostics : s.diagnostics = a.diagnostics
  names : List.Forall₂ Names s.table.names.reverse a.scopes
  stored : ∀ v ∈ a.scopes.flatten, s.table.vars v.pos = some v ∧ v.pos < s.nextId
  distinct : (a.scopes.flatten.map fun v => v.id.name).Nodup

section Lookup

variable {s : State Loc Decl} {a : Scopes Loc Decl} {v : Variable Loc Decl} {name : String}

theorem lookup_eq_some (hdistinct : (a.scopes.flatten.map fun v => v.id.name).Nodup)
    (hv : v ∈ a.scopes.flatten) (hname : v.id.name = name) : a.lookup name = some v := by
  rw [Scopes.lookup]
  cases hfind : a.scopes.flatten.find? fun v => v.id.name = name with
  | none => exact absurd hname (by simpa using List.find?_eq_none.mp hfind v hv)
  | some w =>
    have hw : w.id.name = name := by simpa using List.find?_some hfind
    exact congrArg some (List.inj_on_of_nodup_map hdistinct (List.mem_of_find?_eq_some hfind) hv
      (hw.trans hname.symm))

theorem names_of_mem {names : List (String → Option ℕ)} {scopes : List (List (Variable Loc Decl))}
    (h : List.Forall₂ Names names scopes) {f : String → Option ℕ} (hf : f ∈ names) {p : ℕ}
    (hp : f name = some p) : ∃ v ∈ scopes.flatten, v.id.name = name ∧ v.pos = p := by
  induction h with
  | nil => cases hf
  | cons hscope _ ih =>
    rcases List.mem_cons.mp hf with rfl | hf
    · rw [hscope name,Option.map_eq_some_iff] at hp
      obtain ⟨v,hfind,hpos⟩ := hp
      have hname : v.id.name = name := by simpa using List.find?_some hfind
      exact ⟨v,by simp [List.mem_of_find?_eq_some hfind],hname,hpos⟩
    · obtain ⟨v,hv,hrest⟩ := ih hf
      exact ⟨v,by simp only [List.flatten_cons,List.mem_append]; exact .inr hv,hrest⟩

theorem exists_names {names : List (String → Option ℕ)} {scopes : List (List (Variable Loc Decl))}
    (h : List.Forall₂ Names names scopes) (hv : v ∈ scopes.flatten) :
    ∃ f ∈ names, (f v.id.name).isSome := by
  induction h with
  | nil => simp at hv
  | @cons f scope _ _ hscope _ ih =>
    rw [List.flatten_cons,List.mem_append] at hv
    rcases hv with hv | hv
    · refine ⟨f,by simp,?_⟩
      rw [hscope v.id.name,Option.isSome_map,List.find?_isSome]
      exact ⟨v,hv,by simp⟩
    · obtain ⟨f',hf',hsome⟩ := ih hv
      exact ⟨f',by simp [hf'],hsome⟩

/-- The search through the table finds the innermost declaration. -/
theorem Refines.find (h : Refines s a) (name : String) : s.table.find name = a.lookup name := by
  rw [Table.find]
  cases hfind : s.table.names.findSome? fun scope => scope name with
  | some p =>
    obtain ⟨f,hf,hp⟩ := List.exists_of_findSome?_eq_some hfind
    obtain ⟨v,hv,hname,rfl⟩ := names_of_mem h.names (List.mem_reverse.mpr hf) hp
    rw [lookup_eq_some h.distinct hv hname]
    exact (h.stored v hv).1
  | none =>
    rw [List.findSome?_eq_none_iff] at hfind
    symm
    rw [Scopes.lookup,Option.bind_none,List.find?_eq_none]
    intro v hv hname
    obtain ⟨f,hf,hsome⟩ := exists_names h.names hv
    have hnone := hfind f (List.mem_reverse.mp hf)
    rw [show v.id.name = name by simpa using hname,hnone] at hsome
    cases hsome

end Lookup

/-! ### Steps -/

section Steps

variable {s t : State Loc Decl} {a : Scopes Loc Decl} {id : Identifier Loc} {decl : Decl}

theorem refines_start (n : ℕ) : Refines (start n : State Loc Decl) ⟨[[]],n,[]⟩ :=
  ⟨rfl,rfl,.cons (fun _ => rfl) .nil,by simp,by simp⟩

/-- Variables under new numbers are not those of the open scopes. -/
theorem Refines.insertVar (h : Refines s a) (v : Variable Loc Decl) (hpos : v.pos = s.nextId)
    (ds : List (Diagnostic Loc)) :
    Refines ⟨s.table.insertVar v,s.nextId + 1,s.diagnostics ++ ds⟩
      ⟨a.scopes,a.nextId + 1,a.diagnostics ++ ds⟩ := by
  refine ⟨by simp [h.nextId],by simp [h.diagnostics],h.names,fun w hw => ⟨?_,?_⟩,h.distinct⟩
  · have hne : w.pos ≠ v.pos := by
      rw [hpos]
      exact Nat.ne_of_lt (h.stored w hw).2
    exact (s.table.insertVar_vars_of_ne hne).trans (h.stored w hw).1
  · exact Nat.lt_succ_of_lt (h.stored w hw).2

theorem insertName_ok {table : Table Loc Decl} {names : List (String → Option ℕ)}
    {f : String → Option ℕ} (h : table.names.reverse = f::names) (name : String) (pos : ℕ) :
    ∃ table', table.insertName name pos = some table' ∧ table'.vars = table.vars ∧
      table'.names.reverse = Function.update f name (some pos)::names := by
  have hnames : table.names = names.reverse ++ [f] := by
    rw [← List.reverse_reverse table.names,h,List.reverse_cons]
  refine ⟨⟨table.vars,names.reverse ++ [Function.update f name (some pos)]⟩,?_,rfl,by simp⟩
  simp [Table.insertName,hnames]

/-- An accepted declaration goes to the innermost scope. -/
theorem Refines.declare {table' : Table Loc Decl} {v : Variable Loc Decl} (h : Refines s a)
    (hpos : v.pos = s.nextId) (hnew : a.lookup v.id.name = none)
    {f : String → Option ℕ} {names : List (String → Option ℕ)} {scope : List (Variable Loc Decl)}
    {rest : List (List (Variable Loc Decl))} (hnames : s.table.names.reverse = f::names)
    (hscopes : a.scopes = scope::rest) (hvars : table'.vars = (s.table.insertVar v).vars)
    (hnames' : table'.names.reverse = Function.update f v.id.name (some v.pos)::names) :
    Refines ⟨table',s.nextId + 1,s.diagnostics⟩
      ⟨Scopes.declare v a.scopes,a.nextId + 1,a.diagnostics⟩ := by
  have hinserted := h.insertVar v hpos []
  have hforall := h.names
  rw [hnames,hscopes,List.forall₂_cons] at hforall
  rw [hscopes,Scopes.declare]
  refine ⟨by simp [h.nextId],h.diagnostics,?_,?_,?_⟩
  · rw [hnames']
    refine .cons (fun name => ?_) hforall.2
    rw [List.find?_cons]
    by_cases hname : v.id.name = name
    · simp [hname]
    · rw [Function.update_of_ne (Ne.symm hname),hforall.1 name]
      simp [hname]
  · intro w hw
    rw [hvars]
    rcases List.mem_cons.mp (show w ∈ v::(scope::rest).flatten from hw) with rfl | hw
    · exact ⟨s.table.insertVar_vars_self w,hpos ▸ Nat.lt_succ_self _⟩
    · exact hinserted.stored w (by rw [hscopes]; exact hw)
  · have hdistinct := h.distinct
    rw [hscopes] at hdistinct
    refine List.nodup_cons.mpr ⟨fun hmem => ?_,hdistinct⟩
    obtain ⟨w,hw,hname⟩ := List.mem_map.mp hmem
    rw [Scopes.lookup,hscopes,List.find?_eq_none] at hnew
    exact hnew w hw (by simpa using hname)

/-- A declaration is accepted, refused or without a name, in the table as in the scopes. -/
theorem Refines.add (h : Refines s a) (hopen : a.scopes ≠ []) (id : Identifier Loc) (decl : Decl) :
    ∃ r t, Symtable.add id decl s = some (r,t) ∧ Refines t (a.add id decl) := by
  have hinserted := h.insertVar ⟨id,s.nextId,decl⟩ rfl []
  rw [List.append_nil,List.append_nil] at hinserted
  by_cases hname : id.name = ""
  · exact ⟨_,_,by rw [Symtable.add,if_pos hname],by rw [Scopes.add,if_pos hname]; exact hinserted⟩
  have hfind : (s.table.insertVar ⟨id,s.nextId,decl⟩).find id.name = a.lookup id.name :=
    hinserted.find id.name
  cases hprev : a.lookup id.name with
  | some prev =>
    rw [hprev] at hfind
    refine ⟨none,⟨s.table.insertVar ⟨id,s.nextId,decl⟩,s.nextId + 1,
      s.diagnostics ++ [alreadyDeclared id prev]⟩,?_,?_⟩
    · rw [Symtable.add,if_neg hname]
      simp only [hfind]
    · rw [Scopes.add,if_neg hname,hprev]
      exact h.insertVar ⟨id,s.nextId,decl⟩ rfl [alreadyDeclared id prev]
  | none =>
    rw [hprev] at hfind
    cases hscopes : a.scopes with
    | nil => exact absurd hscopes hopen
    | cons scope rest =>
      have hforall := h.names
      rw [hscopes,List.forall₂_cons_right_iff] at hforall
      obtain ⟨f,names,-,-,hnames⟩ := hforall
      have hinsertedNames : (s.table.insertVar ⟨id,s.nextId,decl⟩).names.reverse = f::names := hnames
      obtain ⟨table',hinsert,hvars,hnames'⟩ := insertName_ok hinsertedNames id.name s.nextId
      refine ⟨some s.nextId,⟨table',s.nextId + 1,s.diagnostics⟩,?_,?_⟩
      · rw [Symtable.add,if_neg hname]
        simp only [hfind,hinsert,Option.map_some]
      · rw [Scopes.add,if_neg hname,hprev,← h.nextId]
        have hdeclared := h.declare (v := ⟨id,s.nextId,decl⟩) rfl hprev hnames hscopes hvars hnames'
        rw [← h.nextId] at hdeclared
        exact hdeclared

theorem Refines.newScope (h : Refines s a) :
    Refines { s with table := s.table.newScope } { a with scopes := []::a.scopes } := by
  refine ⟨h.nextId,h.diagnostics,?_,h.stored,h.distinct⟩
  show List.Forall₂ Names (s.table.names ++ [fun _ => none]).reverse ([]::a.scopes)
  rw [List.reverse_append]
  exact .cons (fun _ => rfl) h.names

theorem tail_flatten_sublist {α : Type} (l : List (List α)) : l.tail.flatten.Sublist l.flatten := by
  cases l with
  | nil => exact List.Sublist.refl _
  | cons x rest => exact List.sublist_append_right x rest.flatten

theorem Refines.leaveScope (h : Refines s a) :
    Refines { s with table := s.table.leaveScope } { a with scopes := a.scopes.tail } := by
  have hsub := tail_flatten_sublist a.scopes
  refine ⟨h.nextId,h.diagnostics,?_,fun v hv => h.stored v (hsub.subset hv),
    h.distinct.sublist (hsub.map _)⟩
  show List.Forall₂ Names s.table.names.dropLast.reverse a.scopes.tail
  rw [← List.tail_reverse,← List.drop_one,← List.drop_one]
  exact List.forall₂_drop 1 h.names

/-- One operation, where a scope stays open. -/
theorem Refines.step (h : Refines s a) (op : Op Loc Decl) (hopen : a.scopes ≠ []) :
    ∃ t, Symtable.step op s = some t ∧ Refines t (Scopes.step op a) := by
  cases op with
  | add id decl =>
    obtain ⟨r,t,hadd,ht⟩ := h.add hopen id decl
    exact ⟨t,by rw [Symtable.step,hadd,Option.map_some],ht⟩
  | exclusiveAdd id decl =>
    have hfind := h.find id.name
    cases hprev : a.lookup id.name with
    | some var =>
      rw [hprev] at hfind
      refine ⟨_,by rw [Symtable.step,exclusiveAdd,hfind,Option.map_some],?_⟩
      rw [Scopes.step,hprev]
      exact ⟨h.nextId,by simp [h.diagnostics],h.names,h.stored,h.distinct⟩
    | none =>
      rw [hprev] at hfind
      obtain ⟨r,t,hadd,ht⟩ := h.add hopen id decl
      refine ⟨t,by rw [Symtable.step,exclusiveAdd,hfind]; simp [hadd],?_⟩
      rw [Scopes.step,hprev]
      exact ht
  | newScope => exact ⟨_,rfl,h.newScope⟩
  | leaveScope => exact ⟨_,rfl,h.leaveScope⟩
  | takeIds k =>
    exact ⟨_,rfl,by simp [Scopes.step,h.nextId],h.diagnostics,h.names,
      fun v hv => ⟨(h.stored v hv).1,Nat.lt_of_lt_of_le (h.stored v hv).2 (Nat.le_add_right _ _)⟩,
      h.distinct⟩

end Steps

/-! ### Runs -/

section Runs

variable {s : State Loc Decl} {a : Scopes Loc Decl} {ops : List (Op Loc Decl)} {d d' : ℕ}

theorem add_scopes (id : Identifier Loc) (decl : Decl) (a : Scopes Loc Decl) :
    (a.add id decl).scopes = a.scopes ∨
      ∃ v, (a.add id decl).scopes = Scopes.declare v a.scopes := by
  by_cases hname : id.name = ""
  · exact .inl (by rw [Scopes.add,if_pos hname])
  · cases hprev : a.lookup id.name with
    | some prev => exact .inl (by rw [Scopes.add,if_neg hname,hprev])
    | none => exact .inr ⟨_,by rw [Scopes.add,if_neg hname,hprev]⟩

/-- A declaration changes the innermost scope only. -/
theorem add_inner {inner outer : List (List (Variable Loc Decl))} (hinner : inner.length = d + 1)
    (ha : a.scopes = inner ++ outer) (id : Identifier Loc) (decl : Decl) :
    ∃ inner', (a.add id decl).scopes = inner' ++ outer ∧ inner'.length = d + 1 := by
  rcases add_scopes id decl a with hsame | ⟨v,hdeclared⟩
  · exact ⟨inner,hsame.trans ha,hinner⟩
  · cases inner with
    | nil => cases hinner
    | cons scope rest =>
      refine ⟨(v::scope)::rest,?_,hinner⟩
      rw [hdeclared,ha]
      rfl

/-- An operation leaves the scopes below `inner` as they are. -/
theorem step_inner {inner outer : List (List (Variable Loc Decl))} {op : Op Loc Decl}
    (hinner : inner.length = d + 1) (ha : a.scopes = inner ++ outer)
    (hops : depth (op::ops) d = some d') : ∃ inner' e,
      (Scopes.step op a).scopes = inner' ++ outer ∧ inner'.length = e + 1 ∧
      depth ops e = some d' := by
  cases op with
  | add id decl =>
    obtain ⟨inner',hscopes,hlength⟩ := add_inner hinner ha id decl
    exact ⟨inner',d,hscopes,hlength,hops⟩
  | exclusiveAdd id decl =>
    cases hprev : a.lookup id.name with
    | some var => exact ⟨inner,d,by rw [Scopes.step,hprev]; exact ha,hinner,hops⟩
    | none =>
      obtain ⟨inner',hscopes,hlength⟩ := add_inner hinner ha id decl
      exact ⟨inner',d,by rw [Scopes.step,hprev]; exact hscopes,hlength,hops⟩
  | newScope =>
    exact ⟨[]::inner,d+1,by rw [Scopes.step,ha]; rfl,by rw [List.length_cons,hinner],hops⟩
  | leaveScope =>
    cases d with
    | zero => cases hops
    | succ e =>
      cases inner with
      | nil => cases hinner
      | cons scope rest =>
        exact ⟨rest,e,by rw [Scopes.step,ha]; rfl,Nat.succ.inj hinner,hops⟩
  | takeIds k => exact ⟨inner,d,ha,hinner,hops⟩

/-- A run that leaves no scope it has not opened succeeds, and keeps the scopes below its own. -/
theorem Refines.run {inner outer : List (List (Variable Loc Decl))} (h : Refines s a)
    (hinner : inner.length = d + 1) (ha : a.scopes = inner ++ outer)
    (hops : depth ops d = some d') : ∃ t inner',
      OperationRuns.run Symtable.step ops s = some t ∧ Refines t (Scopes.run ops a) ∧
      (Scopes.run ops a).scopes = inner' ++ outer ∧ inner'.length = d' + 1 := by
  induction ops generalizing s a inner d with
  | nil =>
    cases hops
    exact ⟨s,inner,rfl,h,ha,hinner⟩
  | cons op ops ih =>
    have hopen : a.scopes ≠ [] := by
      rw [ha]
      cases inner with
      | nil => cases hinner
      | cons scope rest => exact List.cons_ne_nil _ _
    obtain ⟨t,hstep,ht⟩ := h.step op hopen
    obtain ⟨inner',e,hscopes,hlength,hrest⟩ := step_inner hinner ha hops
    obtain ⟨u,inner'',hrun,hu,hkept⟩ := ih ht hlength hscopes hrest
    exact ⟨u,inner'',by rw [OperationRuns.run,hstep]; exact hrun,hu,hkept⟩

/-- A run from the empty table, with one scope open. -/
theorem run_start (n : ℕ) {ops : List (Op Loc Decl)} (hops : (depth ops 0).isSome) :
    ∃ s, OperationRuns.run step ops (start n) = some s ∧
      Refines s (Scopes.run ops ⟨[[]],n,[]⟩) := by
  obtain ⟨d,hd⟩ := Option.isSome_iff_exists.mp hops
  have ha : (⟨[[]],n,[]⟩ : Scopes Loc Decl).scopes = [[]] ++ [] := rfl
  obtain ⟨s,_,hrun,hs,_⟩ := (refines_start n).run rfl ha hd
  exact ⟨s,hrun,hs⟩

/-- The table and the list of open scopes give the same variable for every name, and report the same
errors, over every run that leaves only scopes it has opened. -/
theorem find_innermost (n : ℕ) (ops : List (Op Loc Decl)) (hops : (depth ops 0).isSome) :
    ∃ s, OperationRuns.run step ops (start n) = some s ∧
      s.diagnostics = (Scopes.run ops ⟨[[]],n,[]⟩).diagnostics ∧
      ∀ name, s.table.find name = (Scopes.run ops ⟨[[]],n,[]⟩).lookup name := by
  obtain ⟨s,hrun,hs⟩ := run_start n hops
  exact ⟨s,hrun,hs.diagnostics,hs.find⟩

/-- A parameter, and a block with a second variable of its name and one that is new. -/
def redeclared : List (Op ℕ Unit) :=
  [.add ⟨"x",0⟩ (),.newScope,.add ⟨"x",1⟩ (),.takeIds 2,.exclusiveAdd ⟨"y",2⟩ ()]

theorem redeclared_innermost : ∃ s, OperationRuns.run step redeclared (start 5) = some s ∧
    s.diagnostics = (Scopes.run redeclared ⟨[[]],5,[]⟩).diagnostics ∧
    ∀ name, s.table.find name = (Scopes.run redeclared ⟨[[]],5,[]⟩).lookup name :=
  find_innermost 5 redeclared (by decide)

/-- A block, entered anywhere in a function: behind it every name means what it meant in front. -/
theorem block_restores (n : ℕ) (before block : List (Op Loc Decl))
    (hbefore : (depth before 0).isSome) (hblock : depth block 0 = some 0) : ∃ s t,
      OperationRuns.run step before (start n) = some s ∧
      OperationRuns.run step (.newScope::(block ++ [.leaveScope])) s = some t ∧
      ∀ name, t.table.find name = s.table.find name := by
  obtain ⟨s,hrun,hs⟩ := run_start n hbefore
  generalize Scopes.run before ⟨[[]],n,[]⟩ = a at hs
  let opened : Scopes Loc Decl := { a with scopes := []::a.scopes }
  have hopened : opened.scopes = [[]] ++ a.scopes := rfl
  obtain ⟨u,inner,hblock,hu,hscopes,hinner⟩ := hs.newScope.run rfl hopened hblock
  have hleft : (Scopes.run block opened).scopes.tail = a.scopes := by
    cases inner with
    | nil => cases hinner
    | cons scope rest =>
      rw [List.length_eq_zero_iff.mp (Nat.succ.inj hinner)] at hscopes
      rw [hscopes]
      rfl
  refine ⟨s,{ u with table := u.table.leaveScope },hrun,?_,fun name => ?_⟩
  · rw [OperationRuns.run,Symtable.step,Option.bind_some,OperationRuns.run_append,hblock]
    rfl
  · rw [hu.leaveScope.find,hs.find,Scopes.lookup,Scopes.lookup]
    exact congrArg (fun scopes => (List.flatten scopes).find? _) hleft

theorem redeclared_restores : ∃ s t, OperationRuns.run step redeclared (start 5) = some s ∧
    OperationRuns.run step (.newScope::([.add ⟨"z",3⟩ ()] ++ [.leaveScope])) s = some t ∧
    ∀ name, t.table.find name = s.table.find name :=
  block_restores 5 redeclared [.add ⟨"z",3⟩ ()] (by decide) (by decide)

end Runs

end Symtable
end OlaLang
