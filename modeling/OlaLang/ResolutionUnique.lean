import OlaLang.Resolution

/-! Uniqueness of signatures. The table that the check for duplicates searches is filled when all
declarations of the file have been resolved, so the check never sees an earlier one. -/
namespace OlaLang
namespace Resolution

variable {ph : Phases} {ns ns' ns₁ : Namespace} {no : ℕ} {f : FunctionDefinition}

/-! ### Errors are kept -/

/-- A step never takes a reported error back. -/
def KeepsErrors {α : Type} (m : Sema α) : Prop :=
  ∀ ns a ns', m ns = .ok (a,ns') → ns'.errors = [] → ns.errors = []

theorem keepsErrors_pure {α : Type} (a : α) : KeepsErrors (pure a : Sema α) := by
  intro ns b ns' h herr
  cases h
  exact herr

theorem keepsErrors_fail {α : Type} (e : Fault) : KeepsErrors (Exec.fail e : Sema α) := by
  intro ns b ns' h
  cases h

theorem keepsErrors_bind {α β : Type} {m : Sema α} {g : α → Sema β} (hm : KeepsErrors m)
    (hg : ∀ a, KeepsErrors (g a)) : KeepsErrors (m >>= g) := by
  intro ns b ns' h herr
  rcases Exec.bind_eq_ok.mp h with ⟨a,t,ha,hb⟩
  exact hm ns a t ha (hg a t b ns' hb herr)

theorem keepsErrors_get : KeepsErrors (Exec.get : Sema Namespace) := by
  intro ns b ns' h herr
  cases h
  exact herr

theorem keepsErrors_modify {g : Namespace → Namespace} (hg : ∀ ns, (g ns).errors = ns.errors) :
    KeepsErrors (Exec.modify g : Sema Unit) := by
  intro ns b ns' h herr
  cases h
  rwa [hg] at herr

theorem report_eq_ok {messages : List String} {u : Unit} :
    (report messages ns = .ok (u,ns') ∧ ns'.errors = []) ↔
      ns.errors = [] ∧ messages = [] ∧ ns' = ns := by
  constructor
  · rintro ⟨h,herr⟩
    cases h
    rcases List.append_eq_nil_iff.mp herr with ⟨hns,hm⟩
    refine ⟨hns,hm,?_⟩
    show { ns with errors := ns.errors ++ messages } = ns
    rw [hm,List.append_nil]
  · rintro ⟨herr,rfl,rfl⟩
    refine ⟨?_,herr⟩
    show Except.ok ((),{ ns' with errors := ns'.errors ++ [] }) = _
    rw [List.append_nil]

theorem keepsErrors_report (messages : List String) : KeepsErrors (report messages) := by
  intro ns b ns' h herr
  exact (report_eq_ok.mp ⟨h,herr⟩).1

/-- A sequence that starts with a report is accepted when the report is empty. -/
theorem report_bind_accepts {α : Type} {messages : List String} {k : Unit → Sema α} {a : α}
    (hk : KeepsErrors (k ())) :
    ((report messages >>= k) ns = .ok (a,ns') ∧ ns'.errors = []) ↔
      messages = [] ∧ k () ns = .ok (a,ns') ∧ ns'.errors = [] := by
  constructor
  · rintro ⟨h,herr⟩
    rcases Exec.bind_eq_ok.mp h with ⟨_,t,hrep,hrest⟩
    rcases report_eq_ok.mp ⟨hrep,hk t a ns' hrest herr⟩ with ⟨_,hm,rfl⟩
    exact ⟨hm,hrest,herr⟩
  · rintro ⟨rfl,hrest,herr⟩
    have hns := hk ns a ns' hrest herr
    have hrep : report [] ns = .ok ((),ns) := (report_eq_ok.mpr ⟨hns,rfl,rfl⟩).1
    exact ⟨by rw [Exec.bind_ok hrep]; exact hrest,herr⟩

theorem keepsErrors_ite {α : Type} {p : Prop} [Decidable p] {m m' : Sema α} (hm : KeepsErrors m)
    (hm' : KeepsErrors m') : KeepsErrors (if p then m else m') := by
  by_cases hp : p
  · rw [if_pos hp]
    exact hm
  · rw [if_neg hp]
    exact hm'

theorem keepsErrors_addSymbol (name : String) : KeepsErrors (addSymbol ph no name) := by
  apply keepsErrors_bind keepsErrors_get
  intro ns
  apply keepsErrors_ite (keepsErrors_report _)
  cases ns.variableSymbols no name with
  | none => exact keepsErrors_modify fun _ => rfl
  | some kind => exact keepsErrors_report _

theorem keepsErrors_enterFunction (fdecl : Function) :
    KeepsErrors (enterFunction ph no fdecl) := by
  apply keepsErrors_bind keepsErrors_get
  intro ns
  refine keepsErrors_bind
    (keepsErrors_modify (g := fun ns => ns.pushFunction no fdecl) fun _ => rfl) ?_
  intro _
  exact keepsErrors_ite (keepsErrors_pure _) (keepsErrors_addSymbol _)

theorem keepsErrors_declareChecked (f : FunctionDefinition) (name : String) :
    KeepsErrors (declareChecked ph ns no f name) := by
  rw [declareChecked]
  cases signature name (resolved f.params) with
  | none => exact keepsErrors_fail _
  | some sig =>
    apply keepsErrors_ite
    · exact keepsErrors_bind (keepsErrors_report _) fun _ => keepsErrors_pure _
    · exact keepsErrors_bind (keepsErrors_enterFunction _) fun _ => keepsErrors_pure _

theorem keepsErrors_contractFunction (f : FunctionDefinition) :
    KeepsErrors (contractFunction ph no f) := by
  apply keepsErrors_bind keepsErrors_get
  intro ns
  cases f.name with
  | none => exact keepsErrors_bind (keepsErrors_report _) fun _ => keepsErrors_pure _
  | some name =>
    apply keepsErrors_ite
    · exact keepsErrors_bind (keepsErrors_report _) fun _ => keepsErrors_pure _
    · apply keepsErrors_bind (keepsErrors_report _)
      intro _
      exact keepsErrors_ite (keepsErrors_pure _) (keepsErrors_declareChecked f name)

theorem keepsErrors_declareFunctions (fs : List FunctionDefinition) :
    KeepsErrors (declareFunctions ph no fs) := by
  induction fs with
  | nil => exact keepsErrors_pure _
  | cons f rest ih =>
    apply keepsErrors_bind (keepsErrors_contractFunction f)
    intro declared
    apply keepsErrors_bind ih
    rintro ⟨bodies,noBodies⟩
    cases declared with
    | none => exact keepsErrors_pure _
    | some n => exact keepsErrors_ite (keepsErrors_pure _) (keepsErrors_pure _)

theorem keepsErrors_checkImplemented (noBodies : List ℕ) :
    KeepsErrors (checkImplemented no noBodies) := by
  apply keepsErrors_bind keepsErrors_get
  intro ns
  exact keepsErrors_ite (keepsErrors_report _) (keepsErrors_pure _)

theorem keepsErrors_resolveDeclarations (fs : List FunctionDefinition) :
    KeepsErrors (resolveDeclarations ph no fs) := by
  apply keepsErrors_bind (keepsErrors_report _)
  intro _
  apply keepsErrors_bind (keepsErrors_declareFunctions fs)
  rintro ⟨bodies,noBodies⟩
  exact keepsErrors_bind (keepsErrors_checkImplemented noBodies) fun _ => keepsErrors_pure _

theorem keepsErrors_resolveAllDeclarations (defs : List (ℕ × List FunctionDefinition)) :
    KeepsErrors (resolveAllDeclarations ph defs) := by
  induction defs with
  | nil => exact keepsErrors_pure _
  | cons d rest ih =>
    rcases d with ⟨no,fs⟩
    apply keepsErrors_bind (keepsErrors_resolveDeclarations fs)
    intro bodies
    exact keepsErrors_bind ih fun _ => keepsErrors_pure _

theorem keepsErrors_forEach {α : Type} {step : α → Sema Unit} (h : ∀ a, KeepsErrors (step a))
    (as : List α) : KeepsErrors (forEach step as) := by
  induction as with
  | nil => exact keepsErrors_pure _
  | cons a rest ih => exact keepsErrors_bind (h a) fun _ => ih

/-! ### One declaration -/

/-- The signature of a function, where it can be printed. -/
def signatureOf (f : FunctionDefinition) : Option String :=
  f.name.bind fun name => signature name (resolved f.params)

/-- A function whose declaration reports nothing, whatever is declared beside it. -/
structure CleanFunction (ph : Phases) (ns : Namespace) (no : ℕ) (f : FunctionDefinition) : Prop where
  named : ∃ name, f.name = some name ∧ name ≠ (ns.contracts no).name ∧
    ph.isReserved name = false ∧ ns.variableSymbols no name = none
  params : unresolved f.params = []
  returns : unresolved f.returns = []
  body : misplacedBody (ns.contracts no).ty f.hasBody = []
  printable : (signatureOf f).isSome

/-- What a contract is before its table of callable functions is filled. -/
structure Undispatched (ph : Phases) (ns : Namespace) (no : ℕ) : Prop where
  empty : (ns.contracts no).allFunctions = []
  symbols : ∀ name, ns.functionSymbols no name = true →
    ph.isReserved name = false ∧ ns.variableSymbols no name = none

def toFunction (no : ℕ) (f : FunctionDefinition) : Function :=
  ⟨f.name.getD "",no,(signatureOf f).getD "",f.hasBody,[]⟩

/-- The namespace with one more function. -/
def declare (ns : Namespace) (no : ℕ) (f : FunctionDefinition) : Namespace :=
  (ns.pushFunction no (toFunction no f)).enterSymbol no (f.name.getD "")

theorem enterSymbol_of_entered {name : String} (h : ns.functionSymbols no name = true) :
    ns.enterSymbol no name = ns := by
  have hsymbols : (fun c a => if c = no ∧ a = name then true else ns.functionSymbols c a) =
      ns.functionSymbols := by
    funext c a
    by_cases hca : c = no ∧ a = name
    · rw [if_pos hca,hca.1,hca.2,h]
    · rw [if_neg hca]
  rw [Namespace.enterSymbol,hsymbols]

theorem addSymbol_accepts {name : String} {u : Unit} :
    (addSymbol ph no name ns = .ok (u,ns') ∧ ns'.errors = []) ↔
      ns.errors = [] ∧ ph.isReserved name = false ∧ ns.variableSymbols no name = none ∧
        ns' = ns.enterSymbol no name := by
  rw [addSymbol,Exec.bind_ok (show (Exec.get : Sema _) ns = .ok (ns,ns) from rfl)]
  cases hres : ph.isReserved name with
  | true =>
    rw [if_pos rfl,report_eq_ok]
    simp
  | false =>
    rw [if_neg (by simp)]
    cases hvar : ns.variableSymbols no name with
    | some kind =>
      show (report _ ns = _ ∧ _) ↔ _
      rw [report_eq_ok]
      simp
    | none =>
      constructor
      · rintro ⟨h,herr⟩
        cases h
        exact ⟨herr,rfl,rfl,rfl⟩
      · rintro ⟨herr,_,_,rfl⟩
        exact ⟨rfl,herr⟩

theorem enterFunction_accepts (hns : Undispatched ph ns no) {fdecl : Function} {u : Unit} :
    (enterFunction ph no fdecl ns = .ok (u,ns') ∧ ns'.errors = []) ↔
      ns.errors = [] ∧ ph.isReserved fdecl.name = false ∧
        ns.variableSymbols no fdecl.name = none ∧
        ns' = (ns.pushFunction no fdecl).enterSymbol no fdecl.name := by
  have hrun : enterFunction ph no fdecl ns =
      (if ns.functionSymbols no fdecl.name then pure () else addSymbol ph no fdecl.name)
        (ns.pushFunction no fdecl) := rfl
  rw [hrun]
  cases hsym : ns.functionSymbols no fdecl.name with
  | true =>
    rcases hns.symbols _ hsym with ⟨hres,hvar⟩
    have hsym' : (ns.pushFunction no fdecl).functionSymbols no fdecl.name = true := hsym
    rw [enterSymbol_of_entered hsym']
    constructor
    · rintro ⟨h,herr⟩
      cases h
      exact ⟨herr,hres,hvar,rfl⟩
    · rintro ⟨herr,_,_,rfl⟩
      exact ⟨rfl,herr⟩
  | false =>
    rw [if_neg (by simp),addSymbol_accepts]
    exact Iff.rfl

theorem declareChecked_accepts (hns : Undispatched ph ns no) {name : String}
    (hname : f.name = some name) {r : Option ℕ} :
    (declareChecked ph ns no f name ns = .ok (r,ns') ∧ ns'.errors = []) ↔
      ns.errors = [] ∧ ph.isReserved name = false ∧ ns.variableSymbols no name = none ∧
        (signatureOf f).isSome ∧ r = some ns.functions.length ∧ ns' = declare ns no f := by
  have hsig : signatureOf f = signature name (resolved f.params) := by rw [signatureOf,hname]; rfl
  cases hs : signature name (resolved f.params) with
  | none =>
    rw [declareChecked,hs,hsig,hs]
    simp
  | some sig =>
    have hnew : (⟨name,no,sig,f.hasBody,[]⟩ : Function) = toFunction no f := by
      rw [toFunction,hsig,hs,hname]
      rfl
    have hrun : declareChecked ph ns no f name ns =
        (enterFunction ph no (toFunction no f) >>= fun _ => pure (some ns.functions.length)) ns := by
      rw [declareChecked,hs,hns.empty,← hnew]
      rfl
    have hfn : (toFunction no f).name = name := by rw [toFunction,hname]; rfl
    have henter : ∀ u, (enterFunction ph no (toFunction no f) ns = .ok (u,ns') ∧ ns'.errors = []) ↔
        ns.errors = [] ∧ ph.isReserved name = false ∧ ns.variableSymbols no name = none ∧
          ns' = (ns.pushFunction no (toFunction no f)).enterSymbol no name := by
      intro u
      rw [← hfn]
      exact enterFunction_accepts hns
    rw [hrun,hsig,hs,declare,hname]
    constructor
    · rintro ⟨h,herr⟩
      rcases Exec.bind_eq_ok.mp h with ⟨u,t,hent,hpure⟩
      cases hpure
      rcases (henter u).mp ⟨hent,herr⟩ with ⟨hns',hres,hvar,ht⟩
      exact ⟨hns',hres,hvar,rfl,rfl,ht⟩
    · rintro ⟨hns',hres,hvar,_,rfl,ht⟩
      rcases (henter ()).mpr ⟨hns',hres,hvar,ht⟩ with ⟨hent,herr⟩
      exact ⟨by rw [Exec.bind_ok hent]; rfl,herr⟩

/-- While the table of callable functions is empty, a declaration is accepted exactly when nothing
is wrong with the function itself. -/
theorem contractFunction_accepts (hns : Undispatched ph ns no) {r : Option ℕ} :
    (contractFunction ph no f ns = .ok (r,ns') ∧ ns'.errors = []) ↔
      ns.errors = [] ∧ CleanFunction ph ns no f ∧ r = some ns.functions.length ∧
        ns' = declare ns no f := by
  have hreport : ∀ messages : List String, messages ≠ [] →
      ¬ ((report messages >>= fun _ => (pure none : Sema (Option ℕ))) ns = .ok (r,ns') ∧
        ns'.errors = []) := by
    intro messages hm h
    exact hm ((report_bind_accepts (keepsErrors_pure none)).mp h).1
  cases hname : f.name with
  | none =>
    have hrun : contractFunction ph no f ns =
        (report ["function must have a name"] >>= fun _ => pure none) ns := by
      simp only [contractFunction,hname,Exec.bind_ok (Exec.get_apply _)]
    constructor
    · intro h
      rw [hrun] at h
      exact absurd h (hreport _ (by simp))
    · rintro ⟨_,hclean,_⟩
      rcases hclean.named with ⟨name,h,_⟩
      rw [hname] at h
      cases h
  | some name =>
    by_cases hown : name = (ns.contracts no).name
    · have hrun : contractFunction ph no f ns =
          (report ["function cannot have same name as the contract"] >>= fun _ => pure none) ns := by
        simp only [contractFunction,hname,Exec.bind_ok (Exec.get_apply _),if_pos hown]
      constructor
      · intro h
        rw [hrun] at h
        exact absurd h (hreport _ (by simp))
      · rintro ⟨_,hclean,_⟩
        rcases hclean.named with ⟨name',h,hne,_⟩
        rw [hname] at h
        cases h
        exact absurd hown hne
    · have hrun : contractFunction ph no f ns =
          (report (unresolved f.params ++ unresolved f.returns ++
              misplacedBody (ns.contracts no).ty f.hasBody) >>= fun _ =>
            if unresolved f.params ++ unresolved f.returns ++
              misplacedBody (ns.contracts no).ty f.hasBody ≠ [] then pure none
            else declareChecked ph ns no f name) ns := by
        simp only [contractFunction,hname,Exec.bind_ok (Exec.get_apply _),if_neg hown]
      rw [hrun,report_bind_accepts
        (keepsErrors_ite (keepsErrors_pure _) (keepsErrors_declareChecked f name))]
      constructor
      · rintro ⟨hm,h⟩
        rw [if_neg (not_not.mpr hm),declareChecked_accepts hns hname] at h
        rcases h with ⟨herr,hres,hvar,hsig,hrest⟩
        rcases List.append_eq_nil_iff.mp hm with ⟨hpr,hb⟩
        rcases List.append_eq_nil_iff.mp hpr with ⟨hp,hr⟩
        exact ⟨herr,⟨⟨name,hname,hown,hres,hvar⟩,hp,hr,hb,hsig⟩,hrest⟩
      · rintro ⟨herr,hclean,hrest⟩
        rcases hclean.named with ⟨name',h,_,hres,hvar⟩
        rw [hname] at h
        cases h
        have hm : unresolved f.params ++ unresolved f.returns ++
            misplacedBody (ns.contracts no).ty f.hasBody = [] := by
          rw [hclean.params,hclean.returns,hclean.body]
          rfl
        rw [if_neg (not_not.mpr hm),declareChecked_accepts hns hname]
        exact ⟨hm,herr,hres,hvar,hclean.printable,hrest⟩

/-! ### All declarations -/

/-- The namespace with the functions of a list of declarations. -/
def declareAll (ns : Namespace) : List (ℕ × FunctionDefinition) → Namespace
  | [] => ns
  | (no,f)::rest => declareAll (declare ns no f) rest

/-- The functions of a file with the numbers of their contracts, in the order of declaration. -/
def declared (defs : List (ℕ × List FunctionDefinition)) : List (ℕ × FunctionDefinition) :=
  defs.flatMap fun d => d.2.map fun f => (d.1,f)

variable {c : ℕ} {g : FunctionDefinition} {decls : List (ℕ × FunctionDefinition)}

theorem declare_contracts : (declare ns no f).contracts c = { ns.contracts c with
    functions := (ns.contracts c).functions ++ if c = no then [ns.functions.length] else [] } := by
  show Function.update ns.contracts no _ c = _
  by_cases h : c = no
  · rw [h,Function.update_self,if_pos rfl]
  · rw [Function.update_of_ne h,if_neg h,List.append_nil]

theorem cleanFunction_declare :
    CleanFunction ph (declare ns no f) c g ↔ CleanFunction ph ns c g := by
  have hname : ((declare ns no f).contracts c).name = (ns.contracts c).name := by
    rw [declare_contracts]
  have hty : ((declare ns no f).contracts c).ty = (ns.contracts c).ty := by
    rw [declare_contracts]
  have hvar : (declare ns no f).variableSymbols = ns.variableSymbols := rfl
  constructor
  · rintro ⟨hn,hp,hr,hb,hs⟩
    rw [hname,hvar] at hn
    rw [hty] at hb
    exact ⟨hn,hp,hr,hb,hs⟩
  · rintro ⟨hn,hp,hr,hb,hs⟩
    exact ⟨by rw [hname,hvar]; exact hn,hp,hr,by rw [hty]; exact hb,hs⟩

theorem Undispatched.declare (h : Undispatched ph ns c) (hclean : CleanFunction ph ns no f) :
    Undispatched ph (declare ns no f) c := by
  refine ⟨by rw [declare_contracts]; exact h.empty,?_⟩
  intro name hname
  rcases hclean.named with ⟨own,hown,_,hres,hvar⟩
  by_cases hnew : c = no ∧ name = f.name.getD ""
  · rw [hown] at hnew
    rcases hnew with ⟨rfl,rfl⟩
    exact ⟨hres,hvar⟩
  · refine h.symbols name ?_
    have hsym : (Resolution.declare ns no f).functionSymbols c name = ns.functionSymbols c name :=
      if_neg hnew
    rwa [hsym] at hname

/-- The numbers of the functions with a body, or of those without one. -/
def numbers (body : Bool) : ℕ → List FunctionDefinition → List ℕ
  | _, [] => []
  | n, f::rest => if f.hasBody = body then n::numbers body (n+1) rest else numbers body (n+1) rest

theorem declare_length : (declare ns no f).functions.length = ns.functions.length + 1 := by
  show (ns.functions ++ [toFunction no f]).length = _
  simp

theorem declareFunctions_accepts (hns : Undispatched ph ns no) {fs : List FunctionDefinition}
    {r : List ℕ × List ℕ} :
    (declareFunctions ph no fs ns = .ok (r,ns') ∧ ns'.errors = []) ↔
      ns.errors = [] ∧ (∀ f ∈ fs, CleanFunction ph ns no f) ∧
        r = (numbers true ns.functions.length fs,numbers false ns.functions.length fs) ∧
        ns' = declareAll ns (fs.map fun f => (no,f)) := by
  induction fs generalizing ns r with
  | nil =>
    constructor
    · rintro ⟨h,herr⟩
      cases h
      exact ⟨herr,by simp,rfl,rfl⟩
    · rintro ⟨herr,_,rfl,rfl⟩
      exact ⟨rfl,herr⟩
  | cons f rest ih =>
    rw [declareFunctions,List.forall_mem_cons]
    constructor
    · rintro ⟨h,herr⟩
      rcases Exec.bind_eq_ok.mp h with ⟨d,ns₁,hf,h⟩
      rcases Exec.bind_eq_ok.mp h with ⟨p,ns₂,hrest,h⟩
      have hns₂ : ns₂ = ns' := by
        cases d with
        | none => cases h; rfl
        | some n =>
          dsimp only at h
          split_ifs at h <;> cases h <;> rfl
      subst hns₂
      have herr₁ := keepsErrors_declareFunctions rest ns₁ p ns₂ hrest herr
      rcases (contractFunction_accepts hns).mp ⟨hf,herr₁⟩ with ⟨hns0,hclean,rfl,rfl⟩
      rcases (ih (hns.declare hclean)).mp ⟨hrest,herr⟩ with ⟨_,hcl,rfl,rfl⟩
      refine ⟨hns0,⟨hclean,fun g hg => cleanFunction_declare.mp (hcl g hg)⟩,?_,rfl⟩
      rw [declare_length] at h
      rw [numbers,numbers]
      cases hb : f.hasBody with
      | true =>
        simp only [hb,if_true] at h
        cases h
        rfl
      | false =>
        simp only [hb] at h
        cases h
        rfl
    · rintro ⟨hns0,⟨hclean,hcl⟩,rfl,rfl⟩
      have hf := (contractFunction_accepts hns).mpr ⟨hns0,hclean,rfl,rfl⟩
      rcases (ih (hns.declare hclean)).mpr ⟨hf.2,fun g hg => cleanFunction_declare.mpr (hcl g hg),
        rfl,rfl⟩ with ⟨hrest,herr⟩
      refine ⟨?_,herr⟩
      rw [Exec.bind_ok hf.1,Exec.bind_ok hrest,declare_length,numbers,numbers]
      cases hb : f.hasBody with
      | true => rfl
      | false => rfl

theorem declareAll_append (decls' : List (ℕ × FunctionDefinition)) :
    declareAll ns (decls ++ decls') = declareAll (declareAll ns decls) decls' := by
  induction decls generalizing ns with
  | nil => rfl
  | cons d rest ih => exact ih

theorem declareAll_length : (declareAll ns decls).functions.length =
    ns.functions.length + decls.length := by
  induction decls generalizing ns with
  | nil => rfl
  | cons d rest ih =>
    rw [declareAll,ih,declare_length,List.length_cons]
    omega

theorem declareAll_ty : ((declareAll ns decls).contracts c).ty = (ns.contracts c).ty := by
  induction decls generalizing ns with
  | nil => rfl
  | cons d rest ih => rw [declareAll,ih,declare_contracts]

theorem cleanFunction_declareAll :
    CleanFunction ph (declareAll ns decls) c g ↔ CleanFunction ph ns c g := by
  induction decls generalizing ns with
  | nil => exact Iff.rfl
  | cons d rest ih => rw [declareAll,ih,cleanFunction_declare]

theorem Undispatched.declareAll (h : Undispatched ph ns c)
    (hclean : ∀ d ∈ decls, CleanFunction ph ns d.1 d.2) :
    Undispatched ph (declareAll ns decls) c := by
  induction decls generalizing ns with
  | nil => exact h
  | cons d rest ih =>
    rw [List.forall_mem_cons] at hclean
    exact ih (h.declare hclean.1) fun d' hd' => cleanFunction_declare.mpr (hclean.2 d' hd')

theorem numbers_false_eq_nil {n : ℕ} {fs : List FunctionDefinition} :
    numbers false n fs = [] ↔ ∀ f ∈ fs, f.hasBody = true := by
  induction fs generalizing n with
  | nil => simp [numbers]
  | cons f rest ih =>
    rw [numbers,List.forall_mem_cons]
    cases hb : f.hasBody with
    | true => simpa using ih
    | false => simp

theorem numbers_append {body : Bool} {n : ℕ} {fs fs' : List FunctionDefinition} :
    numbers body n (fs ++ fs') = numbers body n fs ++ numbers body (n+fs.length) fs' := by
  induction fs generalizing n with
  | nil => rfl
  | cons f rest ih =>
    have hlen : n+1+rest.length = n+(f::rest).length := by
      rw [List.length_cons]
      omega
    rw [List.cons_append,numbers,numbers,ih,hlen]
    by_cases hb : f.hasBody = body
    · rw [if_pos hb,if_pos hb,List.cons_append]
    · rw [if_neg hb,if_neg hb]

/-- A contract of the file in which nothing is wrong but, perhaps, its signatures. -/
structure CleanContract (ph : Phases) (ns : Namespace) (no : ℕ) (fs : List FunctionDefinition) :
    Prop where
  noErrors : ph.variableErrors no = []
  functions : ∀ f ∈ fs, CleanFunction ph ns no f
  implemented : (ns.contracts no).ty = .contract → ∀ f ∈ fs, f.hasBody = true

theorem checkImplemented_accepts {noBodies : List ℕ} {u : Unit} :
    (checkImplemented no noBodies ns = .ok (u,ns') ∧ ns'.errors = []) ↔
      ns.errors = [] ∧ ((ns.contracts no).ty = .contract → noBodies = []) ∧ ns' = ns := by
  have hrun : checkImplemented no noBodies ns =
      (if (ns.contracts no).ty = .contract ∧ noBodies ≠ [] then
        report [s!"contract should be marked 'abstract contract' since it has {noBodies.length} functions with no body"]
      else pure ()) ns := rfl
  rw [hrun]
  by_cases h : (ns.contracts no).ty = .contract ∧ noBodies ≠ []
  · rw [if_pos h,report_eq_ok]
    constructor
    · rintro ⟨_,hm,_⟩
      cases hm
    · rintro ⟨_,himp,_⟩
      exact absurd (himp h.1) h.2
  · rw [if_neg h]
    constructor
    · rintro ⟨hok,herr⟩
      cases hok
      exact ⟨herr,fun hty => by_contra fun hne => h ⟨hty,hne⟩,rfl⟩
    · rintro ⟨herr,_,rfl⟩
      exact ⟨rfl,herr⟩

theorem resolveDeclarations_accepts (hns : Undispatched ph ns no) {fs : List FunctionDefinition}
    {r : List ℕ} :
    (resolveDeclarations ph no fs ns = .ok (r,ns') ∧ ns'.errors = []) ↔
      ns.errors = [] ∧ CleanContract ph ns no fs ∧ r = numbers true ns.functions.length fs ∧
        ns' = declareAll ns (fs.map fun f => (no,f)) := by
  have hrun : resolveDeclarations ph no fs = (report (ph.variableErrors no) >>= fun _ =>
      declareFunctions ph no fs >>= fun p =>
        checkImplemented no p.2 >>= fun _ => pure p.1) := rfl
  have hkeeps : KeepsErrors (declareFunctions ph no fs >>= fun p =>
      checkImplemented no p.2 >>= fun _ => pure p.1) :=
    keepsErrors_bind (keepsErrors_declareFunctions fs) fun p =>
      keepsErrors_bind (keepsErrors_checkImplemented p.2) fun _ => keepsErrors_pure _
  rw [hrun,report_bind_accepts hkeeps]
  constructor
  · rintro ⟨hvar,h,herr⟩
    rcases Exec.bind_eq_ok.mp h with ⟨p,ns₁,hdecl,h⟩
    rcases Exec.bind_eq_ok.mp h with ⟨u,ns₂,hcheck,hpure⟩
    cases hpure
    rcases checkImplemented_accepts.mp ⟨hcheck,herr⟩ with ⟨herr₁,himp,rfl⟩
    rcases (declareFunctions_accepts hns).mp ⟨hdecl,herr₁⟩ with ⟨hns0,hclean,rfl,rfl⟩
    rw [declareAll_ty] at himp
    exact ⟨hns0,⟨hvar,hclean,fun hty => numbers_false_eq_nil.mp (himp hty)⟩,rfl,rfl⟩
  · rintro ⟨hns0,hclean,rfl,rfl⟩
    have hdecl := (declareFunctions_accepts hns).mpr ⟨hns0,hclean.functions,rfl,rfl⟩
    have hcheck : checkImplemented no (numbers false ns.functions.length fs) _ = .ok ((),_) ∧ _ :=
      checkImplemented_accepts.mpr ⟨hdecl.2,
        fun hty => numbers_false_eq_nil.mpr (hclean.implemented (by rwa [declareAll_ty] at hty)),rfl⟩
    exact ⟨hclean.noErrors,by rw [Exec.bind_ok hdecl.1,Exec.bind_ok hcheck.1]; rfl,hdecl.2⟩

theorem cleanContract_declareAll {fs : List FunctionDefinition} :
    CleanContract ph (declareAll ns decls) c fs ↔ CleanContract ph ns c fs := by
  constructor
  · rintro ⟨hv,hf,hi⟩
    rw [declareAll_ty] at hi
    exact ⟨hv,fun f h => cleanFunction_declareAll.mp (hf f h),hi⟩
  · rintro ⟨hv,hf,hi⟩
    exact ⟨hv,fun f h => cleanFunction_declareAll.mpr (hf f h),by rw [declareAll_ty]; exact hi⟩

theorem resolveAllDeclarations_accepts {defs : List (ℕ × List FunctionDefinition)}
    (hns : ∀ d ∈ defs, Undispatched ph ns d.1) {r : List ℕ} :
    (resolveAllDeclarations ph defs ns = .ok (r,ns') ∧ ns'.errors = []) ↔
      ns.errors = [] ∧ (∀ d ∈ defs, CleanContract ph ns d.1 d.2) ∧
        r = numbers true ns.functions.length ((declared defs).map Prod.snd) ∧
        ns' = declareAll ns (declared defs) := by
  induction defs generalizing ns r with
  | nil =>
    constructor
    · rintro ⟨h,herr⟩
      cases h
      exact ⟨herr,by simp,rfl,rfl⟩
    · rintro ⟨herr,_,rfl,rfl⟩
      exact ⟨rfl,herr⟩
  | cons d rest ih =>
    rcases d with ⟨no,fs⟩
    rw [List.forall_mem_cons] at hns
    have hrun : resolveAllDeclarations ph ((no,fs)::rest) = (resolveDeclarations ph no fs >>=
        fun bodies => resolveAllDeclarations ph rest >>= fun others => pure (bodies ++ others)) := rfl
    have hdecls : declared ((no,fs)::rest) = (fs.map fun f => (no,f)) ++ declared rest := rfl
    have hmap : (fs.map fun f => (no,f)).map Prod.snd = fs := by
      rw [List.map_map]
      exact List.map_id fs
    have hlater : (∀ f ∈ fs, CleanFunction ph ns no f) →
        ∀ d ∈ rest, Undispatched ph (declareAll ns (fs.map fun f => (no,f))) d.1 := by
      intro hclean d hd
      apply (hns.2 d hd).declareAll
      intro e he
      rcases List.mem_map.mp he with ⟨f,hf,rfl⟩
      exact hclean f hf
    have hnumbers : numbers true ns.functions.length ((declared ((no,fs)::rest)).map Prod.snd) =
        numbers true ns.functions.length fs ++ numbers true
          (declareAll ns (fs.map fun f => (no,f))).functions.length
          ((declared rest).map Prod.snd) := by
      rw [hdecls,List.map_append,hmap,numbers_append,declareAll_length,List.length_map]
    rw [hrun,List.forall_mem_cons,hnumbers,hdecls,declareAll_append]
    constructor
    · rintro ⟨h,herr⟩
      rcases Exec.bind_eq_ok.mp h with ⟨bodies,ns₁,hfirst,h⟩
      rcases Exec.bind_eq_ok.mp h with ⟨others,ns₂,hrest,hpure⟩
      cases hpure
      have herr₁ := keepsErrors_resolveAllDeclarations rest ns₁ others ns' hrest herr
      rcases (resolveDeclarations_accepts hns.1).mp ⟨hfirst,herr₁⟩ with ⟨hns0,hclean,rfl,rfl⟩
      rcases (ih (hlater hclean.functions)).mp ⟨hrest,herr⟩ with ⟨_,hcl,rfl,rfl⟩
      exact ⟨hns0,⟨hclean,fun d hd => cleanContract_declareAll.mp (hcl d hd)⟩,rfl,rfl⟩
    · rintro ⟨hns0,⟨hclean,hcl⟩,rfl,rfl⟩
      have hfirst := (resolveDeclarations_accepts hns.1).mpr ⟨hns0,hclean,rfl,rfl⟩
      rcases (ih (hlater hclean.functions)).mpr ⟨hfirst.2,
        fun d hd => cleanContract_declareAll.mpr (hcl d hd),rfl,rfl⟩ with ⟨hrest,herr⟩
      exact ⟨by rw [Exec.bind_ok hfirst.1,Exec.bind_ok hrest]; rfl,herr⟩

/-! ### The later phases -/

theorem mem_insertAll {all l : List ℕ} {x : ℕ} : x ∈ insertAll all l ↔ x ∈ all ∨ x ∈ l := by
  induction l generalizing all with
  | nil => simp [insertAll]
  | cons y rest ih =>
    rw [insertAll,ih,List.mem_cons]
    by_cases hy : y ∈ all
    · rw [if_pos hy]
      constructor
      · rintro (h | h)
        · exact Or.inl h
        · exact Or.inr (Or.inr h)
      · rintro (h | rfl | h)
        · exact Or.inl h
        · exact Or.inl hy
        · exact Or.inr h
    · rw [if_neg hy,List.mem_append,List.mem_singleton]
      tauto

def enterAll (ns : Namespace) : List ℕ → Namespace
  | [] => ns
  | no::rest =>
    let c := ns.contracts no
    enterAll (ns.setContract no { c with allFunctions := insertAll c.allFunctions c.functions }) rest

def setInitializers (ph : Phases) (ns : Namespace) : List ℕ → Namespace
  | [] => ns
  | no::rest => setInitializers ph (ns.setInitializers no (ph.initializerCalls no)) rest

def setBodies (ph : Phases) (ns : Namespace) : List ℕ → Namespace
  | [] => ns
  | f::rest => setBodies ph (ns.setCalls f (ph.bodyCalls f)) rest

variable {nos bodies : List ℕ} {x : ℕ}

theorem forEach_addAllFunctions :
    forEach addAllFunctions nos ns = .ok ((),enterAll ns nos) := by
  induction nos generalizing ns with
  | nil => rfl
  | cons no rest ih => exact ih

theorem enterAll_eq : (enterAll ns nos).functions = ns.functions ∧
    (enterAll ns nos).errors = ns.errors ∧ (enterAll ns nos).size = ns.size := by
  induction nos generalizing ns with
  | nil => exact ⟨rfl,rfl,rfl⟩
  | cons no rest ih => exact ih

theorem mem_enterAll : x ∈ ((enterAll ns nos).contracts c).allFunctions ↔
    x ∈ (ns.contracts c).allFunctions ∨ c ∈ nos ∧ x ∈ (ns.contracts c).functions := by
  induction nos generalizing ns with
  | nil => simp [enterAll]
  | cons no rest ih =>
    rw [enterAll,ih,List.mem_cons]
    show x ∈ (Function.update ns.contracts no _ c).allFunctions ∨
      c ∈ rest ∧ x ∈ (Function.update ns.contracts no _ c).functions ↔ _
    by_cases h : c = no
    · rw [h,Function.update_self,mem_insertAll]
      tauto
    · rw [Function.update_of_ne h]
      tauto

theorem resolveInitializers_accepts {u : Unit} :
    (forEach (resolveInitializer ph) nos ns = .ok (u,ns') ∧ ns'.errors = []) ↔
      ns.errors = [] ∧ (∀ no ∈ nos, ph.initializerErrors no = []) ∧
        ns' = setInitializers ph ns nos := by
  have hset : ∀ no, KeepsErrors (Exec.modify fun ns =>
      ns.setInitializers no (ph.initializerCalls no) : Sema Unit) := fun no =>
    keepsErrors_modify fun _ => rfl
  have hkeeps : ∀ no, KeepsErrors (resolveInitializer ph no) := fun no =>
    keepsErrors_bind (keepsErrors_report _) fun _ => hset no
  induction nos generalizing ns with
  | nil =>
    constructor
    · rintro ⟨h,herr⟩
      cases h
      exact ⟨herr,by simp,rfl⟩
    · rintro ⟨herr,_,rfl⟩
      exact ⟨rfl,herr⟩
  | cons no rest ih =>
    have hrun : forEach (resolveInitializer ph) (no::rest) =
        (report (ph.initializerErrors no) >>= fun _ =>
          Exec.modify (fun ns => ns.setInitializers no (ph.initializerCalls no)) >>= fun _ =>
          forEach (resolveInitializer ph) rest) := Exec.bind_assoc _ _ _
    rw [hrun,List.forall_mem_cons,report_bind_accepts (keepsErrors_bind (hset no)
      fun _ => keepsErrors_forEach hkeeps rest),Exec.bind_ok (Exec.modify_apply _ _)]
    refine (and_congr_right fun _ => ih).trans ?_
    constructor
    · rintro ⟨hno,herr,hrest,rfl⟩
      exact ⟨herr,⟨hno,hrest⟩,rfl⟩
    · rintro ⟨herr,⟨hno,hrest⟩,rfl⟩
      exact ⟨hno,herr,hrest,rfl⟩

theorem setInitializers_eq : (setInitializers ph ns nos).functions = ns.functions ∧
    (setInitializers ph ns nos).errors = ns.errors ∧ (setInitializers ph ns nos).size = ns.size := by
  induction nos generalizing ns with
  | nil => exact ⟨rfl,rfl,rfl⟩
  | cons no rest ih => exact ih

theorem setInitializers_contracts : (setInitializers ph ns nos).contracts c =
    { ns.contracts c with initializers :=
      if c ∈ nos then ph.initializerCalls c else (ns.contracts c).initializers } := by
  induction nos generalizing ns with
  | nil => simp [setInitializers]
  | cons no rest ih =>
    have hset : (ns.setInitializers no (ph.initializerCalls no)).contracts c =
        if c = no then { ns.contracts no with initializers := ph.initializerCalls no }
        else ns.contracts c := Function.update_apply ..
    rw [setInitializers,ih,hset]
    by_cases h : c = no
    · simp [h]
    · simp [h]

theorem resolveBodies_accepts {u : Unit} :
    (forEach (resolveBody ph) bodies ns = .ok (u,ns') ∧ ns'.errors = []) ↔
      ns.errors = [] ∧ (∀ f ∈ bodies, ph.bodyErrors f = []) ∧ ns' = setBodies ph ns bodies := by
  have hset : ∀ f, KeepsErrors (Exec.modify fun ns => ns.setCalls f (ph.bodyCalls f) :
      Sema Unit) := fun f => keepsErrors_modify fun _ => rfl
  have hkeeps : ∀ f, KeepsErrors (resolveBody ph f) := fun f =>
    keepsErrors_bind (keepsErrors_report _) fun _ => hset f
  induction bodies generalizing ns with
  | nil =>
    constructor
    · rintro ⟨h,herr⟩
      cases h
      exact ⟨herr,by simp,rfl⟩
    · rintro ⟨herr,_,rfl⟩
      exact ⟨rfl,herr⟩
  | cons f rest ih =>
    have hrun : forEach (resolveBody ph) (f::rest) = (report (ph.bodyErrors f) >>= fun _ =>
        Exec.modify (fun ns => ns.setCalls f (ph.bodyCalls f)) >>= fun _ =>
        forEach (resolveBody ph) rest) := Exec.bind_assoc _ _ _
    rw [hrun,List.forall_mem_cons,report_bind_accepts (keepsErrors_bind (hset f)
      fun _ => keepsErrors_forEach hkeeps rest),Exec.bind_ok (Exec.modify_apply _ _)]
    refine (and_congr_right fun _ => ih).trans ?_
    constructor
    · rintro ⟨hf,herr,hrest,rfl⟩
      exact ⟨herr,⟨hf,hrest⟩,rfl⟩
    · rintro ⟨herr,⟨hf,hrest⟩,rfl⟩
      exact ⟨hf,herr,hrest,rfl⟩

theorem setBodies_eq : (setBodies ph ns bodies).contracts = ns.contracts ∧
    (setBodies ph ns bodies).errors = ns.errors ∧ (setBodies ph ns bodies).size = ns.size := by
  induction bodies generalizing ns with
  | nil => exact ⟨rfl,rfl,rfl⟩
  | cons f rest ih => exact ih

theorem setBodies_functions : (setBodies ph ns bodies).functions[x]? =
    (ns.functions[x]?).map fun func =>
      { func with calls := if x ∈ bodies then ph.bodyCalls x else func.calls } := by
  induction bodies generalizing ns with
  | nil => simp [setBodies]
  | cons f rest ih =>
    rw [setBodies,ih]
    have hset : (ns.setCalls f (ph.bodyCalls f)).functions[x]? = (fun a : Function =>
        if f = x then { a with calls := ph.bodyCalls f } else a) <$> ns.functions[x]? :=
      List.getElem?_modify ..
    rw [hset]
    cases hx : ns.functions[x]? with
    | none => simp
    | some func =>
      by_cases h : f = x
      · rw [h]
        simp
      · have h' : ¬ x = f := fun he => h he.symm
        simp [h,h']

/-! ### The rounds of the external functions -/

variable {functions : List Function} {all list calls : List ℕ} {fuel : ℕ} {e : Fault}

theorem callsOf_eq_ok : callsOf functions list = .ok calls ↔
    (∀ f ∈ list, f < functions.length) ∧
      calls = list.flatMap fun f => (functions[f]?).elim [] Function.calls := by
  induction list generalizing calls with
  | nil =>
    simp only [callsOf,Except.ok.injEq,List.flatMap_nil,List.not_mem_nil,false_implies,implies_true,
      true_and]
    exact eq_comm
  | cons f rest ih =>
    rw [callsOf,List.forall_mem_cons,List.flatMap_cons]
    cases hf : functions[f]? with
    | none =>
      have hle : functions.length ≤ f := List.getElem?_eq_none_iff.mp hf
      simp only [reduceCtorEq,false_iff]
      rintro ⟨⟨hlt,_⟩,_⟩
      omega
    | some func =>
      have hlt : f < functions.length := (List.getElem?_eq_some_iff.mp hf).1
      cases hrest : callsOf functions rest with
      | error e =>
        have hno : ¬ ∀ g ∈ rest, g < functions.length := by
          intro hall
          have hok := ih.mpr ⟨hall,rfl⟩
          rw [hrest] at hok
          cases hok
        simp only [Option.elim_some]
        constructor
        · intro h
          cases h
        · intro h
          exact absurd h.1.2 hno
      | ok others =>
        rcases ih.mp hrest with ⟨hall,rfl⟩
        simp only [Option.elim_some]
        constructor
        · intro h
          cases h
          exact ⟨⟨hlt,hall⟩,rfl⟩
        · rintro ⟨_,rfl⟩
          rfl

/-- The functions that a contract reaches from its table and its initializers. -/
inductive Called (functions : List Function) (c : Contract) : ℕ → Prop
  | own {f : ℕ} (h : f ∈ c.allFunctions) : Called functions c f
  | initializer {f : ℕ} (h : f ∈ c.initializers) : Called functions c f
  | call {f g : ℕ} {func : Function} (hf : Called functions c f) (h : functions[f]? = some func)
      (hg : g ∈ func.calls) : Called functions c g

/-- The numbers a round may still add. -/
def missing (n : ℕ) (all : List ℕ) : ℕ := ((List.range n).filter (· ∉ all)).length

theorem addCalled_sound {P : ℕ → Prop} {all' : List ℕ}
    (h : addCalled functions fuel all list = .ok all') (hall : ∀ x ∈ all, P x)
    (hlist : ∀ x ∈ list, P x)
    (hcall : ∀ f func, P f → functions[f]? = some func → ∀ g ∈ func.calls, P g) :
    ∀ x ∈ all', P x := by
  induction fuel generalizing all list with
  | zero => cases list with
    | nil =>
      cases h
      exact hall
    | cons f rest => cases h
  | succ fuel ih => cases list with
    | nil =>
      cases h
      exact hall
    | cons f rest =>
      rw [addCalled] at h
      cases hc : callsOf functions (f::rest) with
      | error e =>
        rw [hc] at h
        cases h
      | ok calls =>
        rw [hc] at h
        rcases callsOf_eq_ok.mp hc with ⟨_,rfl⟩
        refine ih h ?_ ?_
        · intro x hx
          rcases mem_insertAll.mp hx with hx | hx
          · exact hall x hx
          · exact hlist x hx
        · intro x hx
          rcases List.mem_flatMap.mp (List.mem_filter.mp hx).1 with ⟨g,hg,hxg⟩
          cases hfunc : functions[g]? with
          | none =>
            rw [hfunc] at hxg
            cases hxg
          | some func =>
            rw [hfunc] at hxg
            exact hcall g func (hlist g hg) hfunc x hxg

/-- The last table holds the first one and the first list, and is closed under calls. -/
theorem addCalled_closed {all' : List ℕ} (h : addCalled functions fuel all list = .ok all')
    (hclosed : ∀ f ∈ all, ∀ func, functions[f]? = some func → ∀ g ∈ func.calls,
      g ∈ all ∨ g ∈ list) :
    (∀ x ∈ all, x ∈ all') ∧ (∀ x ∈ list, x ∈ all') ∧
      ∀ f ∈ all', ∀ func, functions[f]? = some func → ∀ g ∈ func.calls, g ∈ all' := by
  induction fuel generalizing all list with
  | zero => cases list with
    | nil =>
      cases h
      exact ⟨fun _ hx => hx,by simp,fun f hf func hfunc g hg =>
        (hclosed f hf func hfunc g hg).resolve_right (by simp)⟩
    | cons f rest => cases h
  | succ fuel ih => cases list with
    | nil =>
      cases h
      exact ⟨fun _ hx => hx,by simp,fun f hf func hfunc g hg =>
        (hclosed f hf func hfunc g hg).resolve_right (by simp)⟩
    | cons f rest =>
      rw [addCalled] at h
      cases hc : callsOf functions (f::rest) with
      | error e =>
        rw [hc] at h
        cases h
      | ok calls =>
        rw [hc] at h
        rcases callsOf_eq_ok.mp hc with ⟨_,hcalls⟩
        have hnext : ∀ g, g ∈ calls → g ∈ insertAll all (f::rest) ∨
            g ∈ calls.filter (· ∉ insertAll all (f::rest)) := by
          intro g hg
          by_cases hin : g ∈ insertAll all (f::rest)
          · exact Or.inl hin
          · exact Or.inr (List.mem_filter.mpr ⟨hg,by simpa using hin⟩)
        have hrest := ih h (by
          intro x hx func hfunc g hg
          rcases mem_insertAll.mp hx with hx | hx
          · rcases hclosed x hx func hfunc g hg with hg' | hg'
            · exact Or.inl (mem_insertAll.mpr (Or.inl hg'))
            · exact Or.inl (mem_insertAll.mpr (Or.inr hg'))
          · apply hnext g
            rw [hcalls]
            exact List.mem_flatMap.mpr ⟨x,hx,by rw [hfunc]; exact hg⟩)
        exact ⟨fun x hx => hrest.1 x (mem_insertAll.mpr (Or.inl hx)),
          fun x hx => hrest.1 x (mem_insertAll.mpr (Or.inr hx)),hrest.2.2⟩

theorem missing_lt {n : ℕ} (hf : x < n) (hx : x ∉ all) {all' : List ℕ} (hmem : x ∈ all')
    (hsub : ∀ y ∈ all, y ∈ all') : missing n all' < missing n all := by
  have hsublist : ((List.range n).filter (· ∉ all')) = ((List.range n).filter (· ∉ all)).filter
      (· ∉ all') := by
    rw [List.filter_filter]
    apply List.filter_congr
    intro y _
    by_cases hy : y ∈ all'
    · simp [hy]
    · have hy' : y ∉ all := fun h => hy (hsub y h)
      simp [hy,hy']
  rw [missing,missing,hsublist]
  apply List.length_filter_lt_length_iff_exists.mpr
  exact ⟨x,List.mem_filter.mpr ⟨List.mem_range.mpr hf,by simpa using hx⟩,by simpa using hmem⟩

/-- Every round but the first adds a new function, so there are enough rounds. -/
theorem addCalled_ok (hcalls : ∀ (f : ℕ) (func : Function), functions[f]? = some func →
      ∀ g ∈ func.calls, g < functions.length) (hlist : ∀ x ∈ list, x < functions.length)
    (hnew : ∀ x ∈ list, x ∉ all) (hfuel : missing functions.length all < fuel) :
    ∃ all', addCalled functions fuel all list = .ok all' := by
  induction fuel generalizing all list with
  | zero => omega
  | succ fuel ih => cases list with
    | nil => exact ⟨all,rfl⟩
    | cons f rest =>
      have hc := callsOf_eq_ok.mpr ⟨hlist,rfl⟩
      rw [addCalled,hc]
      have hmiss : missing functions.length (insertAll all (f::rest)) <
          missing functions.length all :=
        missing_lt (hlist f List.mem_cons_self) (hnew f List.mem_cons_self)
          (mem_insertAll.mpr (Or.inr List.mem_cons_self)) fun y hy => mem_insertAll.mpr (Or.inl hy)
      show ∃ all', addCalled functions fuel (insertAll all (f::rest)) (((f::rest).flatMap fun f =>
        (functions[f]?).elim [] Function.calls).filter (· ∉ insertAll all (f::rest))) = .ok all'
      refine ih ?_ ?_ (by omega)
      · intro x hx
        rcases List.mem_flatMap.mp (List.mem_filter.mp hx).1 with ⟨g,hg,hxg⟩
        cases hfunc : functions[g]? with
        | none =>
          rw [hfunc] at hxg
          cases hxg
        | some func =>
          rw [hfunc] at hxg
          exact hcalls g func hfunc x hxg
      · intro x hx
        simpa using (List.mem_filter.mp hx).2

/-- The calls of the namespace are calls of its functions. -/
structure Numbered (functions : List Function) (c : Contract) : Prop where
  calls : ∀ (f : ℕ) (func : Function), functions[f]? = some func →
    ∀ g ∈ func.calls, g < functions.length
  table : ∀ f ∈ c.allFunctions, f < functions.length
  initializers : ∀ f ∈ c.initializers, f < functions.length

theorem externalFunctions_ok {t : Contract} (h : Numbered functions t) :
    ∃ all, externalFunctions functions t = .ok all := by
  have hc := callsOf_eq_ok.mpr ⟨h.table,rfl⟩
  rw [externalFunctions,hc]
  show ∃ all, addCalled functions (functions.length+1+1) t.allFunctions (t.initializers ++
    t.allFunctions.flatMap fun f => (functions[f]?).elim [] Function.calls) = .ok all
  have hlist : ∀ x ∈ t.initializers ++ t.allFunctions.flatMap (fun f =>
      (functions[f]?).elim [] Function.calls), x < functions.length := by
    intro x hx
    rcases List.mem_append.mp hx with hx | hx
    · exact h.initializers x hx
    · rcases List.mem_flatMap.mp hx with ⟨g,_,hxg⟩
      cases hfunc : functions[g]? with
      | none =>
        rw [hfunc] at hxg
        cases hxg
      | some func =>
        rw [hfunc] at hxg
        exact h.calls g func hfunc x hxg
  generalize t.initializers ++ t.allFunctions.flatMap (fun f =>
    (functions[f]?).elim [] Function.calls) = list at hlist
  cases list with
  | nil => exact ⟨_,rfl⟩
  | cons f rest =>
    have hc' := callsOf_eq_ok.mpr ⟨hlist,rfl⟩
    rw [addCalled,hc']
    show ∃ all', addCalled functions (functions.length+1) (insertAll t.allFunctions (f::rest))
      (((f::rest).flatMap fun f => (functions[f]?).elim [] Function.calls).filter
        (· ∉ insertAll t.allFunctions (f::rest))) = .ok all'
    refine addCalled_ok h.calls ?_ ?_ ?_
    · intro x hx
      rcases List.mem_flatMap.mp (List.mem_filter.mp hx).1 with ⟨g,_,hxg⟩
      cases hfunc : functions[g]? with
      | none =>
        rw [hfunc] at hxg
        cases hxg
      | some func =>
        rw [hfunc] at hxg
        exact h.calls g func hfunc x hxg
    · intro x hx
      simpa using (List.mem_filter.mp hx).2
    · have hle := List.length_filter_le (· ∉ insertAll t.allFunctions (f::rest))
        (List.range functions.length)
      rw [List.length_range] at hle
      exact Nat.lt_succ_of_le hle

theorem mem_externalFunctions {t : Contract} (h : externalFunctions functions t = .ok all) :
    x ∈ all ↔ Called functions t x := by
  rw [externalFunctions] at h
  cases hc : callsOf functions t.allFunctions with
  | error e =>
    rw [hc] at h
    cases h
  | ok calls =>
    rw [hc] at h
    rcases callsOf_eq_ok.mp hc with ⟨_,rfl⟩
    have hclosed := addCalled_closed h (by
      intro f hf func hfunc g hg
      refine Or.inr (List.mem_append_right _ (List.mem_flatMap.mpr ⟨f,hf,?_⟩))
      rw [hfunc]
      exact hg)
    constructor
    · refine addCalled_sound h (fun y hy => .own hy) ?_ (fun f func hf hfunc g hg =>
        .call hf hfunc hg) x
      intro y hy
      rcases List.mem_append.mp hy with hy | hy
      · exact .initializer hy
      · rcases List.mem_flatMap.mp hy with ⟨f,hf,hyf⟩
        cases hfunc : functions[f]? with
        | none =>
          rw [hfunc] at hyf
          cases hyf
        | some func =>
          rw [hfunc] at hyf
          exact .call (.own hf) hfunc hyf
    · intro hx
      induction hx with
      | own hf => exact hclosed.1 _ hf
      | initializer hf => exact hclosed.2.1 _ (List.mem_append_left _ hf)
      | call hf hfunc hg ih => exact hclosed.2.2 _ ih _ hfunc _ hg

theorem addExternalFunctions_eq_ok {u : Unit} :
    addExternalFunctions no ns = .ok (u,ns') ↔
      ∃ all, externalFunctions ns.functions (ns.contracts no) = .ok all ∧
        ns' = ns.setContract no { ns.contracts no with allFunctions := all } := by
  rw [addExternalFunctions]
  cases externalFunctions ns.functions (ns.contracts no) with
  | error e => simp
  | ok all =>
    constructor
    · intro h
      cases h
      exact ⟨all,rfl,rfl⟩
    · rintro ⟨_,⟨⟩,rfl⟩
      rfl

theorem setContract_contracts {t : Contract} : (ns.setContract no t).contracts c =
    if c = no then t else ns.contracts c := Function.update_apply ..

/-- The tables of the contracts are completed one after the other. -/
theorem addExternalFunctions_spec {u : Unit} (hnodup : nos.Nodup)
    (h : forEach addExternalFunctions nos ns = .ok (u,ns')) :
    ns'.functions = ns.functions ∧ ns'.errors = ns.errors ∧
      (∀ c, c ∉ nos → ns'.contracts c = ns.contracts c) ∧
      ∀ c ∈ nos, ∀ x, x ∈ (ns'.contracts c).allFunctions ↔
        Called ns.functions (ns.contracts c) x := by
  induction nos generalizing ns with
  | nil =>
    cases h
    exact ⟨rfl,rfl,fun _ _ => rfl,by simp⟩
  | cons no rest ih =>
    rcases Exec.bind_eq_ok.mp h with ⟨_,ns₁,hfirst,hrest⟩
    rcases addExternalFunctions_eq_ok.mp hfirst with ⟨all,hall,rfl⟩
    rw [List.nodup_cons] at hnodup
    rcases ih hnodup.2 hrest with ⟨hf,he,hother,hmem⟩
    refine ⟨hf,he,?_,?_⟩
    · intro c hc
      rw [List.mem_cons,not_or] at hc
      rw [hother c hc.2,setContract_contracts,if_neg hc.1]
    · intro c hc x
      by_cases hno : c = no
      · rw [hno,hother no hnodup.1,setContract_contracts,if_pos rfl]
        exact mem_externalFunctions hall
      · have hc' := hmem c ((List.mem_cons.mp hc).resolve_left hno) x
        rw [setContract_contracts,if_neg hno] at hc'
        exact hc'

theorem Numbered.called_lt {t : Contract} (h : Numbered functions t) (hx : Called functions t x) :
    x < functions.length := by
  induction hx with
  | own hf => exact h.table _ hf
  | initializer hf => exact h.initializers _ hf
  | call _ hfunc hg _ => exact h.calls _ _ hfunc _ hg

theorem addExternalFunctions_ok (h : ∀ c, Numbered ns.functions (ns.contracts c)) :
    ∃ ns', forEach addExternalFunctions nos ns = .ok ((),ns') := by
  induction nos generalizing ns with
  | nil => exact ⟨ns,rfl⟩
  | cons no rest ih =>
    rcases externalFunctions_ok (h no) with ⟨all,hall⟩
    have hfirst : addExternalFunctions no ns = .ok ((),_) :=
      addExternalFunctions_eq_ok.mpr ⟨all,hall,rfl⟩
    generalize hnext : ns.setContract no { ns.contracts no with allFunctions := all } = ns₁
      at hfirst
    have hnumbered : ∀ c, Numbered ns₁.functions (ns₁.contracts c) := by
      intro c
      rw [← hnext]
      show Numbered ns.functions _
      rw [setContract_contracts]
      by_cases hc : c = no
      · rw [if_pos hc]
        exact ⟨(h no).calls,fun f hf => (h no).called_lt ((mem_externalFunctions hall).mp hf),
          (h no).initializers⟩
      · rw [if_neg hc]
        exact h c
    rcases ih hnumbered with ⟨ns',hrest⟩
    exact ⟨ns',by rw [forEach,Exec.bind_ok hfirst]; exact hrest⟩

/-! ### The whole file -/

variable {defs : List (ℕ × List FunctionDefinition)}

/-- The numbers of the functions of a file that have a body. -/
def bodyNumbers (ns : Namespace) (defs : List (ℕ × List FunctionDefinition)) : List ℕ :=
  numbers true ns.functions.length ((declared defs).map Prod.snd)

/-- Nothing is reported about a file but, perhaps, its signatures. -/
structure CleanFile (ph : Phases) (ns : Namespace) (defs : List (ℕ × List FunctionDefinition)) :
    Prop where
  before : ns.errors = []
  contracts : ∀ d ∈ defs, CleanContract ph ns d.1 d.2
  initializers : ∀ no ∈ defs.map Prod.fst, ph.initializerErrors no = []
  bodies : ∀ f ∈ bodyNumbers ns defs, ph.bodyErrors f = []

/-- The namespace in which the contracts are resolved. -/
def resolvedNamespace (ph : Phases) (ns : Namespace) (defs : List (ℕ × List FunctionDefinition)) :
    Namespace :=
  setBodies ph (setInitializers ph (enterAll (declareAll ns (declared defs)) (defs.map Prod.fst))
    (defs.map Prod.fst)) (bodyNumbers ns defs)

theorem resolve_accepts (hns : ∀ d ∈ defs, Undispatched ph ns d.1) {u : Unit} :
    (resolve ph defs ns = .ok (u,ns') ∧ ns'.errors = []) ↔
      CleanFile ph ns defs ∧ ns' = resolvedNamespace ph ns defs := by
  have hrun : resolve ph defs = (resolveAllDeclarations ph defs >>= fun bodies =>
      forEach addAllFunctions (defs.map Prod.fst) >>= fun _ =>
      forEach (resolveInitializer ph) (defs.map Prod.fst) >>= fun _ =>
      forEach (resolveBody ph) bodies) := rfl
  rw [hrun]
  constructor
  · rintro ⟨h,herr⟩
    rcases Exec.bind_eq_ok.mp h with ⟨bodies,ns₁,hdecl,h⟩
    rcases Exec.bind_eq_ok.mp h with ⟨_,ns₂,henter,h⟩
    rcases Exec.bind_eq_ok.mp h with ⟨_,ns₃,hinit,hbodies⟩
    rw [forEach_addAllFunctions] at henter
    cases henter
    rcases resolveBodies_accepts.mp ⟨hbodies,herr⟩ with ⟨herr₃,hb,rfl⟩
    rcases resolveInitializers_accepts.mp ⟨hinit,herr₃⟩ with ⟨herr₂,hi,rfl⟩
    rw [enterAll_eq.2.1] at herr₂
    rcases (resolveAllDeclarations_accepts hns).mp ⟨hdecl,herr₂⟩ with ⟨hns0,hclean,rfl,rfl⟩
    exact ⟨⟨hns0,hclean,hi,hb⟩,rfl⟩
  · rintro ⟨⟨hns0,hclean,hi,hb⟩,rfl⟩
    have hdecl := (resolveAllDeclarations_accepts hns).mpr ⟨hns0,hclean,rfl,rfl⟩
    have hinit : forEach (resolveInitializer ph) (defs.map Prod.fst)
        (enterAll (declareAll ns (declared defs)) (defs.map Prod.fst)) = .ok ((),_) ∧ _ :=
      resolveInitializers_accepts.mpr ⟨by rw [enterAll_eq.2.1]; exact hdecl.2,hi,rfl⟩
    have hbodies : forEach (resolveBody ph) _ _ = .ok (u,_) ∧ _ :=
      resolveBodies_accepts.mpr ⟨hinit.2,hb,rfl⟩
    rw [Exec.bind_ok hdecl.1,Exec.bind_ok forEach_addAllFunctions,Exec.bind_ok hinit.1]
    exact hbodies

/-- The function with a number, as the source declares it. -/
def functionAt (ph : Phases) (ns : Namespace) (defs : List (ℕ × List FunctionDefinition)) (x : ℕ) :
    Option Function :=
  if x < ns.functions.length then ns.functions[x]?
  else ((declared defs)[x-ns.functions.length]?).map fun d =>
    { toFunction d.1 d.2 with calls := if d.2.hasBody then ph.bodyCalls x else [] }

/-- The functions a contract reaches: those declared in it, those its initializers call and those
called by functions it reaches. -/
inductive Reaches (ph : Phases) (ns : Namespace) (defs : List (ℕ × List FunctionDefinition))
    (c : ℕ) : ℕ → Prop
  | declared {k : ℕ} {f : FunctionDefinition} (h : (declared defs)[k]? = some (c,f)) :
      Reaches ph ns defs c (ns.functions.length+k)
  | initializer {f : ℕ} (h : f ∈ ph.initializerCalls c) : Reaches ph ns defs c f
  | call {f g : ℕ} {func : Function} (hf : Reaches ph ns defs c f)
      (h : functionAt ph ns defs f = some func) (hg : g ∈ func.calls) : Reaches ph ns defs c g

/-- The functions that a contract reaches have different signatures. -/
def Distinct (ph : Phases) (ns : Namespace) (defs : List (ℕ × List FunctionDefinition)) : Prop :=
  ∀ d ∈ defs, ∀ f g F G, Reaches ph ns defs d.1 f → Reaches ph ns defs d.1 g →
    functionAt ph ns defs f = some F → functionAt ph ns defs g = some G →
    F.signature = G.signature → f = g

/-- What the resolution of types leaves for the contracts of a file: their tables are empty, and
the other phases number the functions there are. -/
structure Fresh (ph : Phases) (ns : Namespace) (defs : List (ℕ × List FunctionDefinition)) :
    Prop where
  functions : ∀ d ∈ defs, (ns.contracts d.1).functions = []
  allFunctions : ∀ d ∈ defs, (ns.contracts d.1).allFunctions = []
  symbols : ∀ d ∈ defs, ∀ name, ns.functionSymbols d.1 name = false
  inNamespace : ∀ d ∈ defs, d.1 < ns.size
  oldCalls : ∀ (f : ℕ) (func : Function), ns.functions[f]? = some func →
    ∀ g ∈ func.calls, g < ns.functions.length + (declared defs).length
  oldTables : ∀ c, ∀ f ∈ (ns.contracts c).functions ++ (ns.contracts c).allFunctions ++
    (ns.contracts c).initializers, f < ns.functions.length
  calls : ∀ f, ∀ g ∈ ph.bodyCalls f, g < ns.functions.length + (declared defs).length
  initializerCalls : ∀ c, ∀ g ∈ ph.initializerCalls c,
    g < ns.functions.length + (declared defs).length

theorem declareAll_functions : (declareAll ns decls).functions =
    ns.functions ++ decls.map fun d => toFunction d.1 d.2 := by
  induction decls generalizing ns with
  | nil => simp [declareAll]
  | cons d rest ih =>
    have hfirst : (declare ns d.1 d.2).functions = ns.functions ++ [toFunction d.1 d.2] := rfl
    rw [declareAll,ih,hfirst,List.append_assoc]
    rfl

theorem declareAll_size : (declareAll ns decls).size = ns.size := by
  induction decls generalizing ns with
  | nil => rfl
  | cons d rest ih => exact ih

theorem declareAll_contracts : (declareAll ns decls).contracts c =
    { ns.contracts c with functions := ((declareAll ns decls).contracts c).functions } := by
  induction decls generalizing ns with
  | nil => rfl
  | cons d rest ih =>
    rw [declareAll]
    conv => lhs; rw [ih]
    rw [declare_contracts]

theorem mem_declareAll : x ∈ ((declareAll ns decls).contracts c).functions ↔
    x ∈ (ns.contracts c).functions ∨
      ∃ k f, decls[k]? = some (c,f) ∧ x = ns.functions.length+k := by
  induction decls generalizing ns with
  | nil => simp [declareAll]
  | cons d rest ih =>
    rcases d with ⟨no,f⟩
    rw [declareAll,ih,declare_contracts,declare_length]
    show x ∈ (ns.contracts c).functions ++ _ ∨ _ ↔ _
    rw [List.mem_append]
    constructor
    · rintro ((h | h) | ⟨k,g,hk,rfl⟩)
      · exact Or.inl h
      · by_cases hc : c = no
        · rw [if_pos hc,List.mem_singleton] at h
          exact Or.inr ⟨0,f,by rw [hc]; rfl,by rw [h]; rfl⟩
        · rw [if_neg hc] at h
          cases h
      · exact Or.inr ⟨k+1,g,hk,by omega⟩
    · rintro (h | ⟨k,g,hk,rfl⟩)
      · exact Or.inl (Or.inl h)
      · cases k with
        | zero =>
          cases hk
          exact Or.inl (Or.inr (by simp))
        | succ k => exact Or.inr ⟨k,g,hk,by omega⟩

theorem mem_numbers {n : ℕ} {fs : List FunctionDefinition} : x ∈ numbers true n fs ↔
    ∃ k f, fs[k]? = some f ∧ f.hasBody = true ∧ x = n+k := by
  induction fs generalizing n with
  | nil => simp [numbers]
  | cons f rest ih =>
    have htail : (∃ k g, rest[k]? = some g ∧ g.hasBody = true ∧ x = n+1+k) ↔
        ∃ k g, (f::rest)[k+1]? = some g ∧ g.hasBody = true ∧ x = n+(k+1) := by
      constructor
      · rintro ⟨k,g,hk,hb,rfl⟩
        exact ⟨k,g,hk,hb,by omega⟩
      · rintro ⟨k,g,hk,hb,rfl⟩
        exact ⟨k,g,hk,hb,by omega⟩
    rw [numbers]
    cases hb : f.hasBody with
    | true =>
      rw [if_pos rfl,List.mem_cons,ih,htail]
      constructor
      · rintro (rfl | ⟨k,g,h⟩)
        · exact ⟨0,f,rfl,hb,rfl⟩
        · exact ⟨k+1,g,h⟩
      · rintro ⟨k,g,hk,hg,rfl⟩
        cases k with
        | zero => exact Or.inl rfl
        | succ k => exact Or.inr ⟨k,g,hk,hg,rfl⟩
    | false =>
      rw [if_neg (by simp),ih,htail]
      constructor
      · rintro ⟨k,g,h⟩
        exact ⟨k+1,g,h⟩
      · rintro ⟨k,g,hk,hg,rfl⟩
        cases k with
        | zero =>
          cases hk
          rw [hb] at hg
          cases hg
        | succ k => exact ⟨k,g,hk,hg,rfl⟩

theorem resolved_functions : (resolvedNamespace ph ns defs).functions[x]? =
    functionAt ph ns defs x := by
  rw [resolvedNamespace,setBodies_functions,setInitializers_eq.1,enterAll_eq.1,
    declareAll_functions,functionAt]
  by_cases hx : x < ns.functions.length
  · have hold : x ∉ bodyNumbers ns defs := by
      intro h
      rcases mem_numbers.mp h with ⟨k,f,_,_,rfl⟩
      omega
    rw [if_pos hx,List.getElem?_append_left hx]
    cases ns.functions[x]? with
    | none => rfl
    | some func => simp [hold]
  · rw [if_neg hx,List.getElem?_append_right (by omega),List.getElem?_map]
    cases hd : (declared defs)[x-ns.functions.length]? with
    | none => rfl
    | some d =>
      have hmem : x ∈ bodyNumbers ns defs ↔ d.2.hasBody = true := by
        rw [bodyNumbers,mem_numbers]
        constructor
        · rintro ⟨k,f,hk,hb,rfl⟩
          rw [Nat.add_sub_cancel_left] at hd
          rw [List.getElem?_map,hd] at hk
          cases hk
          exact hb
        · intro hb
          exact ⟨x-ns.functions.length,d.2,by rw [List.getElem?_map,hd]; rfl,hb,by omega⟩
      simp [hmem,toFunction]

theorem resolved_length : (resolvedNamespace ph ns defs).functions.length =
    ns.functions.length + (declared defs).length := by
  have hlast : ∀ x, (resolvedNamespace ph ns defs).functions[x]? = functionAt ph ns defs x :=
    fun _ => resolved_functions
  have hbound : ∀ x, functionAt ph ns defs x = none ↔
      ns.functions.length + (declared defs).length ≤ x := by
    intro x
    rw [functionAt]
    by_cases hx : x < ns.functions.length
    · rw [if_pos hx,List.getElem?_eq_none_iff]
      omega
    · rw [if_neg hx,Option.map_eq_none_iff,List.getElem?_eq_none_iff]
      omega
  have h1 := (hbound (resolvedNamespace ph ns defs).functions.length).mp
    (by rw [← hlast,List.getElem?_eq_none_iff])
  have h2 := List.getElem?_eq_none_iff.mp ((hlast _).trans ((hbound _).mpr (le_refl _)))
  omega

theorem resolved_contracts : (resolvedNamespace ph ns defs).contracts c =
    { (enterAll (declareAll ns (declared defs)) (defs.map Prod.fst)).contracts c with
      initializers := if c ∈ defs.map Prod.fst then ph.initializerCalls c
        else ((enterAll (declareAll ns (declared defs))
          (defs.map Prod.fst)).contracts c).initializers } := by
  rw [resolvedNamespace,setBodies_eq.1,setInitializers_contracts]

theorem enterAll_initializers : ((enterAll ns nos).contracts c).initializers =
    (ns.contracts c).initializers := by
  induction nos generalizing ns with
  | nil => rfl
  | cons no rest ih =>
    rw [enterAll,ih,setContract_contracts]
    by_cases h : c = no
    · rw [if_pos h,h]
    · rw [if_neg h]

theorem mem_resolved_allFunctions : x ∈ ((resolvedNamespace ph ns defs).contracts c).allFunctions ↔
    x ∈ (ns.contracts c).allFunctions ∨ c ∈ defs.map Prod.fst ∧ (x ∈ (ns.contracts c).functions ∨
      ∃ k f, (declared defs)[k]? = some (c,f) ∧ x = ns.functions.length+k) := by
  rw [resolved_contracts]
  show x ∈ ((enterAll _ _).contracts c).allFunctions ↔ _
  rw [mem_enterAll,mem_declareAll,declareAll_contracts]

theorem numbered_resolved (hfresh : Fresh ph ns defs) (c : ℕ) :
    Numbered (resolvedNamespace ph ns defs).functions
      ((resolvedNamespace ph ns defs).contracts c) := by
  have hold := hfresh.oldTables c
  refine ⟨?_,?_,?_⟩
  · intro f func hfunc g hg
    rw [resolved_functions,functionAt] at hfunc
    rw [resolved_length]
    by_cases hf : f < ns.functions.length
    · rw [if_pos hf] at hfunc
      exact hfresh.oldCalls f func hfunc g hg
    · rw [if_neg hf] at hfunc
      rcases Option.map_eq_some_iff.mp hfunc with ⟨d,_,rfl⟩
      dsimp only at hg
      cases hb : d.2.hasBody with
      | true =>
        rw [hb,if_pos rfl] at hg
        exact hfresh.calls f g hg
      | false =>
        rw [hb] at hg
        cases hg
  · intro f hf
    rw [resolved_length]
    rcases mem_resolved_allFunctions.mp hf with hf | ⟨_,hf | ⟨k,g,hk,rfl⟩⟩
    · have := hold f (by simp [hf])
      omega
    · have := hold f (by simp [hf])
      omega
    · have := (List.getElem?_eq_some_iff.mp hk).1
      omega
  · intro f hf
    rw [resolved_length]
    rw [resolved_contracts] at hf
    dsimp only at hf
    by_cases hc : c ∈ defs.map Prod.fst
    · rw [if_pos hc] at hf
      exact hfresh.initializerCalls c f hf
    · rw [if_neg hc,enterAll_initializers,declareAll_contracts] at hf
      have := hold f (by simp [hf])
      omega

theorem called_iff (hfresh : Fresh ph ns defs) {d : ℕ × List FunctionDefinition} (hd : d ∈ defs) :
    Called (resolvedNamespace ph ns defs).functions
      ((resolvedNamespace ph ns defs).contracts d.1) x ↔ Reaches ph ns defs d.1 x := by
  have hmem : d.1 ∈ defs.map Prod.fst := List.mem_map_of_mem hd
  constructor
  · intro h
    induction h with
    | own hf =>
      rcases mem_resolved_allFunctions.mp hf with hf | ⟨_,hf | ⟨k,g,hk,rfl⟩⟩
      · rw [hfresh.allFunctions d hd] at hf
        cases hf
      · rw [hfresh.functions d hd] at hf
        cases hf
      · exact .declared hk
    | initializer hf =>
      rw [resolved_contracts] at hf
      dsimp only at hf
      rw [if_pos hmem] at hf
      exact .initializer hf
    | call _ hfunc hg ih => exact .call ih (by rw [← resolved_functions]; exact hfunc) hg
  · intro h
    induction h with
    | declared hk => exact .own (mem_resolved_allFunctions.mpr (Or.inr ⟨hmem,Or.inr ⟨_,_,hk,rfl⟩⟩))
    | initializer hf =>
      refine .initializer ?_
      rw [resolved_contracts]
      dsimp only
      rw [if_pos hmem]
      exact hf
    | call _ hfunc hg ih => exact .call ih (by rw [resolved_functions]; exact hfunc) hg

theorem Fresh.undispatched (h : Fresh ph ns defs) {d : ℕ × List FunctionDefinition}
    (hd : d ∈ defs) : Undispatched ph ns d.1 := by
  refine ⟨h.allFunctions d hd,?_⟩
  intro name hname
  rw [h.symbols d hd] at hname
  cases hname

theorem semaFile_eq {u : Unit} : semaFile ph defs ns = .ok (u,ns') ↔
    ∃ ns₁, resolve ph defs ns = .ok ((),ns₁) ∧
      (if ns₁.errors = [] then forEach addExternalFunctions (List.range ns₁.size) ns₁
        else .ok ((),ns₁)) = .ok (u,ns') := by
  rw [semaFile,Exec.bind_eq_ok]
  constructor
  · rintro ⟨_,ns₁,hresolve,h⟩
    refine ⟨ns₁,hresolve,?_⟩
    by_cases herr : ns₁.errors = []
    · rw [if_pos herr]
      rw [Exec.bind_ok (Exec.get_apply ns₁),if_pos herr] at h
      exact h
    · rw [if_neg herr]
      rw [Exec.bind_ok (Exec.get_apply ns₁),if_neg herr] at h
      exact h
  · rintro ⟨ns₁,hresolve,h⟩
    refine ⟨(),ns₁,hresolve,?_⟩
    by_cases herr : ns₁.errors = []
    · rw [if_pos herr] at h
      rw [Exec.bind_ok (Exec.get_apply ns₁),if_pos herr]
      exact h
    · rw [if_neg herr] at h
      rw [Exec.bind_ok (Exec.get_apply ns₁),if_neg herr]
      exact h

theorem resolved_size : (resolvedNamespace ph ns defs).size = ns.size := by
  rw [resolvedNamespace,setBodies_eq.2.2,setInitializers_eq.2.2,enterAll_eq.2.2,declareAll_size]

/-- In an accepted file nothing else is wrong, and its contracts can call and dispatch to the
functions they reach. -/
theorem accepts_spec (hfresh : Fresh ph ns defs) (h : Accepts ph defs ns ns') :
    CleanFile ph ns defs ∧ ns'.functions = (resolvedNamespace ph ns defs).functions ∧
      ∀ d ∈ defs, ∀ x, x ∈ (ns'.contracts d.1).allFunctions ↔ Reaches ph ns defs d.1 x := by
  rcases h with ⟨hrun,herr⟩
  rcases semaFile_eq.mp hrun with ⟨ns₁,hresolve,hrest⟩
  have herr₁ : ns₁.errors = [] := by
    by_contra hne
    rw [if_neg hne] at hrest
    cases hrest
    exact hne herr
  rw [if_pos herr₁] at hrest
  rcases (resolve_accepts fun d hd => hfresh.undispatched hd).mp ⟨hresolve,herr₁⟩ with ⟨hclean,rfl⟩
  rcases addExternalFunctions_spec List.nodup_range hrest with ⟨hfunctions,_,_,hmem⟩
  refine ⟨hclean,hfunctions,?_⟩
  intro d hd x
  rw [← called_iff hfresh hd]
  refine hmem d.1 (List.mem_range.mpr ?_) x
  rw [resolved_size]
  exact hfresh.inNamespace d hd

/-- Whatever the signatures are, a file in which nothing else is wrong is accepted. -/
theorem accepts_of_clean (hfresh : Fresh ph ns defs) (hclean : CleanFile ph ns defs) :
    ∃ ns', Accepts ph defs ns ns' := by
  have hresolve : resolve ph defs ns = .ok ((),_) ∧ _ :=
    (resolve_accepts fun d hd => hfresh.undispatched hd).mpr ⟨hclean,rfl⟩
  rcases addExternalFunctions_ok (numbered_resolved hfresh) with ⟨ns',hrest⟩
  refine ⟨ns',semaFile_eq.mpr ⟨_,hresolve.1,?_⟩,?_⟩
  · rw [if_pos hresolve.2]
    exact hrest
  · rw [(addExternalFunctions_spec List.nodup_range hrest).2.1]
    exact hresolve.2

/-! ### Signatures are unique -/

/-- Two functions of one contract have the same signature. -/
def Duplicate (defs : List (ℕ × List FunctionDefinition)) : Prop :=
  ∃ d ∈ defs, ∃ (i j : ℕ) (f g : FunctionDefinition) (sig : String), i ≠ j ∧
    d.2[i]? = some f ∧ d.2[j]? = some g ∧ signatureOf f = some sig ∧ signatureOf g = some sig

/-- Duplicates are rejected, and the functions an accepted contract can call and dispatch to have
different signatures. -/
structure Unique (ph : Phases) (ns : Namespace) (defs : List (ℕ × List FunctionDefinition)) :
    Prop where
  rejects : Duplicate defs → ∀ ns', ¬ Accepts ph defs ns ns'
  distinct : ∀ ns', Accepts ph defs ns ns' → ∀ d ∈ defs,
    ∀ f ∈ (ns'.contracts d.1).allFunctions, ∀ g ∈ (ns'.contracts d.1).allFunctions,
      ∀ F G, ns'.functions[f]? = some F → ns'.functions[g]? = some G →
        F.signature = G.signature → f = g

/-- The functions of a contract stand one after the other among those of the file. -/
theorem declared_append (before after : List (ℕ × List FunctionDefinition)) (no : ℕ)
    (fs : List FunctionDefinition) {i : ℕ} (h : fs[i]? = some f) :
    (declared (before ++ (no,fs)::after))[(declared before).length+i]? = some (no,f) := by
  have hi : i < fs.length := (List.getElem?_eq_some_iff.mp h).1
  have hsplit : declared (before ++ (no,fs)::after) =
      declared before ++ (fs.map (no,·) ++ declared after) := by
    simp [declared]
  rw [hsplit,List.getElem?_append_right (by omega),Nat.add_sub_cancel_left,
    List.getElem?_append_left (by simpa using hi),List.getElem?_map,h]
  rfl

theorem Distinct.no_duplicate (h : Distinct ph ns defs) : ¬ Duplicate defs := by
  rintro ⟨⟨no,fs⟩,hd,i,j,f,g,sig,hij,hf,hg,hsigf,hsigg⟩
  rcases List.append_of_mem hd with ⟨before,after,hdefs⟩
  have hposf := declared_append before after no fs hf
  have hposg := declared_append before after no fs hg
  rw [← hdefs] at hposf hposg
  have hat : ∀ {k : ℕ} {f : FunctionDefinition}, (declared defs)[k]? = some (no,f) →
      ∃ F, functionAt ph ns defs (ns.functions.length+k) = some F ∧
        F.signature = (signatureOf f).getD "" := by
    intro k f hk
    rw [functionAt,if_neg (by omega),Nat.add_sub_cancel_left,hk]
    exact ⟨_,rfl,rfl⟩
  rcases hat hposf with ⟨F,hF,hsF⟩
  rcases hat hposg with ⟨G,hG,hsG⟩
  have heq := h (no,fs) hd _ _ F G (.declared hposf) (.declared hposg) hF hG
    (by rw [hsF,hsG,hsigf,hsigg])
  omega

/-- Signatures are unique only where another error is reported or the source does not repeat
one: the check for duplicates reports nothing. -/
theorem signatures_unique_iff (hfresh : Fresh ph ns defs) :
    Unique ph ns defs ↔ ¬ CleanFile ph ns defs ∨ Distinct ph ns defs := by
  constructor
  · intro h
    by_cases hclean : CleanFile ph ns defs
    · right
      rcases accepts_of_clean hfresh hclean with ⟨ns',hacc⟩
      rcases accepts_spec hfresh hacc with ⟨_,hfunctions,hmem⟩
      intro d hd f g F G hf hg hF hG hsig
      refine h.distinct ns' hacc d hd f ((hmem d hd f).mpr hf) g ((hmem d hd g).mpr hg) F G ?_ ?_
        hsig
      · rw [hfunctions,resolved_functions,hF]
      · rw [hfunctions,resolved_functions,hG]
    · exact Or.inl hclean
  · rintro (hclean | hdistinct)
    · have hnone : ∀ ns', ¬ Accepts ph defs ns ns' := fun ns' hacc =>
        hclean (accepts_spec hfresh hacc).1
      exact ⟨fun _ => hnone,fun ns' hacc => absurd hacc (hnone ns')⟩
    · refine ⟨fun hdup => absurd hdup hdistinct.no_duplicate,?_⟩
      intro ns' hacc d hd f hf g hg F G hF hG hsig
      rcases accepts_spec hfresh hacc with ⟨_,hfunctions,hmem⟩
      rw [hfunctions,resolved_functions] at hF hG
      exact hdistinct d hd f g F G ((hmem d hd f).mp hf) ((hmem d hd g).mp hg) hF hG hsig

/-! ### A contract with a function twice -/

/-- Phases that report nothing, and bodies that call nothing. -/
def quiet : Phases where
  isReserved := fun _ => false
  variableErrors := fun _ => []
  initializerErrors := fun _ => []
  initializerCalls := fun _ => []
  bodyErrors := fun _ => []
  bodyCalls := fun _ => []

/-- A file with the one contract `Twice`. -/
def oneContract : Namespace where
  functions := []
  contracts := fun _ => ⟨"Twice",.contract,[],[],[]⟩
  size := 1
  functionSymbols := fun _ _ => false
  variableSymbols := fun _ _ => none
  errors := []

/-- `fn f(u32 x) { .. }` -/
def declaration (name : String) : FunctionDefinition where
  name := some name
  params := [.ok (.uint 32)]
  returns := []
  hasBody := true

theorem fresh_oneContract (fs : List FunctionDefinition) : Fresh quiet oneContract [(0,fs)] where
  functions := fun _ _ => rfl
  allFunctions := fun _ _ => rfl
  symbols := fun _ _ _ => rfl
  inNamespace := by simp [oneContract]
  oldCalls := by simp [oneContract]
  oldTables := by simp [oneContract]
  calls := by simp [quiet]
  initializerCalls := by simp [quiet]

theorem signatures_unique_iff_oneContract :
    Unique quiet oneContract [(0,[declaration "f",declaration "g"])] ↔
      ¬ CleanFile quiet oneContract [(0,[declaration "f",declaration "g"])] ∨
        Distinct quiet oneContract [(0,[declaration "f",declaration "g"])] :=
  signatures_unique_iff (fresh_oneContract _)

/-- The analysis accepts a contract that declares `f(u32)` twice, and the contract dispatches to
both. -/
theorem duplicate_accepted : ¬ ∀ (ph : Phases) (ns : Namespace)
    (defs : List (ℕ × List FunctionDefinition)), Fresh ph ns defs → Unique ph ns defs := by
  intro h
  have hdup : Duplicate [(0,[declaration "f",declaration "f"])] :=
    ⟨_,List.mem_singleton_self _,0,1,_,_,"f(u32)",by decide,rfl,rfl,by decide +kernel,
      by decide +kernel⟩
  have hclean : CleanFile quiet oneContract [(0,[declaration "f",declaration "f"])] := by
    refine ⟨rfl,?_,fun _ _ => rfl,fun _ _ => rfl⟩
    intro d hd
    rw [List.mem_singleton.mp hd]
    have hf : CleanFunction quiet oneContract 0 (declaration "f") :=
      ⟨⟨"f",rfl,by decide,rfl,rfl⟩,rfl,rfl,rfl,by decide +kernel⟩
    refine ⟨rfl,?_,?_⟩
    · simpa using hf
    · simp [declaration]
  rcases accepts_of_clean (fresh_oneContract _) hclean with ⟨ns',hacc⟩
  exact (h quiet oneContract _ (fresh_oneContract _)).rejects hdup ns' hacc

end Resolution
end OlaLang
