import Splice.Proofs.Inline.Steps

/-!
This module contains the proof that the pass that inlines puts expressions and calls together such
that they keep to the rules, wherever all is visible that was visible at their place.
-/

namespace Splice
namespace Inlining

structure Prepares (c : Context) (ss : List Stmt) (ready : Context → Prop) : Prop where
  enter : ∀ c' : Context, c'.enter ss = c'
  valid : ∀ c', c.Extends c' → Stmt.AllValid c' ss
  ready : ∀ c', c.Extends c' → ready (c'.after ss)

namespace Prepares

variable {c : Context} {ss ts : List Stmt} {P Q : Context → Prop}

theorem nil (h : ∀ c', c.Extends c' → P c') : Prepares c [] P :=
  ⟨fun _ => rfl, fun _ _ => trivial, h⟩

theorem append (h : Prepares c ss P) (henter : ∀ c' : Context, c'.enter ts = c')
    (hts : ∀ c', c.Extends c' → P c' → Stmt.AllValid c' ts ∧ Q (c'.after ts)) :
    Prepares c (ss ++ ts) Q where
  enter c' := by rw [c'.enter_append, h.enter, henter]
  valid c' hc' := by
    rw [Stmt.allValid_append]
    exact ⟨h.valid c' hc', (hts _ (hc'.behind ss) (h.ready c' hc')).1⟩
  ready c' hc' := by
    rw [c'.after_append]
    exact (hts _ (hc'.behind ss) (h.ready c' hc')).2

theorem imp (h : Prepares c ss P) (hPQ : ∀ c', c.Extends c' → P c' → Q c') : Prepares c ss Q :=
  ⟨h.enter, h.valid, fun c' hc' => hPQ _ (hc'.behind ss) (h.ready c' hc')⟩

end Prepares

/--
The expression yields the given number of values behind what has to run before it.
-/
def Fits (c : Context) (n : Nat) (r : Staged) : Prop :=
  Prepares c r.before fun c' => r.expr.Yields c' n

theorem vars_subset_after (c : Context) (ss : List Stmt) : c.vars ⊆ (c.after ss).vars :=
  ((Context.Extends.refl c).behind ss).vars

/-! ## Variables for values -/

section

variable {c : Context}

theorem moved_prepares {r : Staged} (h : Fits c 1 r) (span : Span) (x : Binder) :
    Prepares c (moved span r x) fun c' => x.name ∈ c'.vars := by
  refine Prepares.append h (fun _ => rfl) ?_
  intro c' _ hexpr
  exact ⟨⟨hexpr, trivial⟩, List.mem_cons_self⟩

theorem bindArguments_prepares {callee : String} {span : Span} {pairs : List (Binder × Staged)}
    (hpairs : ∀ pair ∈ pairs, Fits c 1 pair.2) {ss : List Stmt}
    {replacements : List (String × String)} {st st' : State}
    (h : bindArguments callee span pairs st = .ok (ss, replacements) st') :
    Prepares c ss fun c' => replacements.map Prod.snd ⊆ c'.vars := by
  induction pairs generalizing ss replacements st' with
  | nil =>
    simp only [bindArguments, pure_eq_ok, Prod.mk.injEq] at h
    obtain ⟨⟨rfl, rfl⟩, _⟩ := h
    exact .nil fun _ _ => List.nil_subset _
  | cons pair rest ih =>
    rw [List.forall_mem_cons] at hpairs
    obtain ⟨ss', replacements', st₁, x, hrest, _, rfl, rfl⟩ := bindArguments_cons h
    have hmoved := moved_prepares hpairs.1 span x
    refine (ih hpairs.2 hrest).append hmoved.enter ?_
    intro c' hc' hvars
    refine ⟨hmoved.valid c' hc', List.cons_subset.2 ⟨hmoved.ready c' hc', ?_⟩⟩
    exact List.Subset.trans hvars (vars_subset_after c' _)

theorem hoistArguments_eq_ok {dialect : Dialect} {callee : String} {earlier : Bool}
    {rs : List Staged} (hrs : ∀ r ∈ rs, Fits c 1 r) {ss : List Stmt} {es : List Expr}
    {st st' : State} (h : hoistArguments dialect callee earlier rs st = .ok (ss, es) st') :
    es.length = rs.length ∧ (Prepares c ss fun c' => Expr.AllSingle c' es) ∧
    ∃ names, st.supply.Grows st'.supply names ∧
      (Stmt.allBoundNames ss).Perm (rs.flatMap (Stmt.allBoundNames ·.before) ++ names) := by
  induction rs generalizing earlier ss es st' with
  | nil =>
    simp only [hoistArguments, pure_eq_ok, Prod.mk.injEq] at h
    obtain ⟨⟨rfl, rfl⟩, rfl⟩ := h
    exact ⟨rfl, .nil fun _ _ => trivial, [], .refl _, .refl _⟩
  | cons r rs ih =>
    rw [List.forall_mem_cons] at hrs
    obtain ⟨ss', es', st₁, hrest, hcases⟩ := hoistArguments_cons h
    obtain ⟨hlength, hprepares, names, hgrows, hperm⟩ := ih hrs.2 hrest
    rcases hcases with ⟨_, x, hgrows', rfl, rfl⟩ | ⟨_, hsupply, rfl, rfl⟩
    . have hmoved := moved_prepares hrs.1 r.expr.span x
      refine ⟨congrArg (· + 1) hlength, ?_, names ++ [x.name], hgrows.trans hgrows', ?_⟩
      . refine hprepares.append hmoved.enter ?_
        intro c' hc' hes
        refine ⟨hmoved.valid c' hc', ⟨.inl (hmoved.ready c' hc'), rfl⟩, ?_⟩
        exact Expr.AllSingle.mono ((Context.Extends.refl c').behind _) es' hes
      . rw [Stmt.allBoundNames_append, allBoundNames_moved]
        exact perm_append_argument hperm _ [x.name]
    . refine ⟨congrArg (· + 1) hlength, ?_, names, hsupply ▸ hgrows, ?_⟩
      . refine hprepares.append hrs.1.enter ?_
        intro c' hc' hes
        refine ⟨hrs.1.valid c' hc', hrs.1.ready c' hc', ?_⟩
        exact Expr.AllSingle.mono ((Context.Extends.refl c').behind _) es' hes
      . have hbehind := perm_append_argument hperm (Stmt.allBoundNames r.before) []
        rw [List.append_nil, List.append_nil] at hbehind
        rwa [Stmt.allBoundNames_append]

theorem zero_valid (span : Span) (type : Option String) :
    Literal.Valid ⟨span, .number, "0", type⟩ := by
  have hzero : Literal.number? "0" = some 0 := by decide
  unfold Literal.Valid Env.literal
  simp only [hzero]
  rfl

theorem zeros_prepares (span : Span) (xs : List Binder) :
    Prepares c (xs.map (zeroDeclaration span)) fun c' => xs.map Binder.name ⊆ c'.vars := by
  induction xs with
  | nil => exact .nil fun _ _ => List.nil_subset _
  | cons x xs ih =>
    have hfirst : Prepares c [zeroDeclaration span x] fun c' => x.name ∈ c'.vars := by
      refine ⟨fun _ => rfl, fun _ _ => ?_, fun _ _ => List.mem_cons_self⟩
      exact ⟨⟨zero_valid _ _, rfl⟩, trivial⟩
    refine hfirst.append ih.enter ?_
    intro c' hc' hx
    refine ⟨ih.valid c' hc', List.cons_subset.2 ⟨vars_subset_after c' _ hx, ?_⟩⟩
    exact ih.ready c' hc'

theorem allBoundNames_zeros (span : Span) (xs : List Binder) :
    Stmt.allBoundNames (xs.map (zeroDeclaration span)) = xs.map Binder.name := by
  induction xs with
  | nil => rfl
  | cons x xs ih =>
    rw [List.map_cons, Stmt.allBoundNames, ih]
    rfl

/-! ## The body -/

variable {p : Block}

theorem Instance.valid (hp : Place p c) {f : Function} (hf : f ∈ p.functions)
    (hbody : f.body.Valid (c.enterFunction (f.parameters ++ f.returns))) {targets : List String}
    {replacements : List (String × String)} {ρ : String → String}
    (h : Instance p f targets replacements ρ) {c' : Context} (hc' : c.Extends c')
    (htargets : targets ⊆ c'.vars) (hparameters : replacements.map Prod.snd ⊆ c'.vars) :
    (f.body.rename ρ).Valid c' := by
  apply Block.Valid.rename _ f.body h.functions hbody
  have hhost : ∀ x ∈ c.external, ρ x = x := by
    intro x hx
    apply h.other
    exact fun hmem => hp.foreign x (Block.innerNames_subset hf hmem) hx
  have hreplaced : ∀ x y,
      (x, y) ∈ ((f.returns.map Binder.name).zip targets).reverse ++ replacements →
        ρ x ∈ c'.vars := by
    intro x y hxy
    rw [h.agrees (x, y) hxy]
    rw [List.mem_append, List.mem_reverse] at hxy
    rcases hxy with hxy | hxy
    . exact htargets (List.of_mem_zip hxy).2
    . exact hparameters (List.mem_map.2 ⟨_, hxy, rfl⟩)
  -- The body sees its own parameters and return variables, and none of the variables around it.
  have hvars : ∀ x ∈ (c.enterFunction (f.parameters ++ f.returns)).vars, ρ x ∈ c'.vars := by
    intro x hx
    unfold Context.enterFunction at hx
    rw [Context.mem_vars_declare, List.map_append, List.mem_append] at hx
    rcases hx with (hx | hx) | hx
    . rw [← h.parameters] at hx
      obtain ⟨r, hr, rfl⟩ := List.mem_map.1 hx
      exact hreplaced r.1 r.2 (List.mem_append_right _ hr)
    . have hreturns : (f.returns.map Binder.name).length = targets.length := by
        rw [List.length_map, h.returns]
      rw [← List.map_fst_zip (Nat.le_of_eq hreturns)] at hx
      obtain ⟨r, hr, rfl⟩ := List.mem_map.1 hx
      exact hreplaced r.1 r.2 (List.mem_append_left _ (List.mem_reverse.2 hr))
    . contradiction
  have henter : c.enterFunction (f.parameters ++ f.returns) =
      { c with vars := (c.enterFunction (f.parameters ++ f.returns)).vars } := by
    unfold Context.enterFunction
    rw [Context.declare_eq]
  rw [henter]
  refine ⟨hc'.external, hhost, ?_, hp.stackForms, hc'.targetless, hvars, hc'.functions⟩
  intro x hx
  rw [hhost x (hp.assignable hx)]
  exact hc'.assignable hx

theorem boundNames_withSpan (span : Span) (b : Block) :
    (⟨span, b.statements⟩ : Block).boundNames = b.boundNames := by
  cases b
  rfl

theorem valid_withSpan (span : Span) (b : Block) :
    Block.Valid c ⟨span, b.statements⟩ ↔ b.Valid c := by
  cases b
  rfl

theorem expandCall_prepares (hp : Place p c) {f : Function} (hf : f ∈ p.functions)
    (hbody : f.body.Valid (c.enterFunction (f.parameters ++ f.returns))) {span : Span}
    {count : Nat} {staged : Pass (List Staged)} {targets : List String}
    (htargets : f.returns.length = targets.length) {before : List Stmt} {body : Block}
    {st st' : State}
    (hstaged : ∀ rs st₁, staged st = .ok rs st₁ → rs.length = count ∧ (∀ r ∈ rs, Fits c 1 r) ∧
      st.supply.Grows st₁.supply (rs.flatMap (Stmt.allBoundNames ·.before)))
    (h : expandCall f span count staged targets st = .ok (before, body) st') :
    st.supply.Grows st'.supply (Stmt.allBoundNames before ++ body.boundNames) ∧
    Prepares c before fun c' => ∀ c'', c'.Extends c'' → targets ⊆ c''.vars → body.Valid c'' := by
  obtain ⟨hcount, rs, st₁, replacements, st₂, ρ, hrs, hbind, rfl, hinstance, hgrows⟩ :=
    expandCall_eq_ok hp hf hbody htargets (fun rs st₁ hrs => (hstaged rs st₁ hrs).1) h
  obtain ⟨hlength, hfits, hstagedGrows⟩ := hstaged rs st₁ hrs
  obtain ⟨_, hbindGrows, hperm⟩ := bindArguments_eq_ok hbind
  constructor
  . rw [flatMap_snd_zip (hcount.trans hlength.symm) (Stmt.allBoundNames ·.before)] at hperm
    have hall := (hstagedGrows.trans hbindGrows).perm hperm.symm
    have hnames : (⟨span, (f.body.rename ρ).statements⟩ : Block).boundNames =
        f.body.boundNames.map ρ := by
      rw [boundNames_withSpan]
      exact f.body.boundNames_rename hinstance.functions hinstance.stackForms
    rw [hnames]
    exact hall.trans hgrows
  . have hpairs : ∀ pair ∈ f.parameters.zip rs, Fits c 1 pair.2 :=
      fun pair hpair => hfits pair.2 (List.of_mem_zip hpair).2
    refine (bindArguments_prepares hpairs hbind).imp ?_
    intro c' hc' hvars c'' hc'' htargets''
    rw [valid_withSpan]
    exact hinstance.valid hp hf hbody (hc'.trans hc'') htargets''
      (List.Subset.trans hvars hc''.vars)

end

end Inlining
end Splice
