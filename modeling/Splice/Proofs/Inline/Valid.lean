import Splice.Proofs.Inline.Fits

/-!
This module contains the induction over a program by which the pass that inlines keeps the rules,
and by which all that it binds anew has fresh names.
-/

namespace Splice
namespace Inlining

section

variable {s : Setting} {c : Context}

def spliced (before : List Stmt) (span : Span) (xs : List Binder) (body : Block) : List Stmt :=
  before ++ xs.map (zeroDeclaration span) ++ [.block body]

theorem spliced_prepares (span : Span) {before : List Stmt} (xs : List Binder) {body : Block}
    (h : Prepares c before fun c' =>
      ∀ c'', c'.Extends c'' → xs.map Binder.name ⊆ c''.vars → body.Valid c'') :
    Prepares c (spliced before span xs body) fun c' => xs.map Binder.name ⊆ c'.vars := by
  have hzeros : Prepares c (before ++ xs.map (zeroDeclaration span)) fun c' =>
      xs.map Binder.name ⊆ c'.vars ∧ body.Valid c' := by
    refine h.append (zeros_prepares (c := c) span xs).enter ?_
    intro c' hc' hbody
    have hxs := (zeros_prepares (c := c) span xs).ready c' hc'
    refine ⟨(zeros_prepares (c := c) span xs).valid c' hc', hxs, ?_⟩
    exact hbody _ ((Context.Extends.refl c').behind _) hxs
  refine hzeros.append (fun _ => rfl) ?_
  intro c' _ hbody
  exact ⟨⟨hbody.2, trivial⟩, hbody.1⟩

theorem allBoundNames_spliced (before : List Stmt) (span : Span) (xs : List Binder) (body : Block) :
    Stmt.allBoundNames (spliced before span xs body) =
      Stmt.allBoundNames before ++ xs.map Binder.name ++ body.boundNames := by
  unfold spliced
  rw [Stmt.allBoundNames_append, Stmt.allBoundNames_append, allBoundNames_zeros]
  simp only [Stmt.allBoundNames, Stmt.boundNames, List.append_nil]

/-! ## Expressions -/

theorem expr_call_eq_ok {span : Span} {callee : Identifier} {arguments : List Expr} {f : Function}
    (hf : s.target? callee.name = some f) {r : Staged} {st st' : State}
    (h : expr s (.call span callee arguments) st = .ok r st') :
    ∃ x st₁ before body, f.returns.length = 1 ∧
      st.supply.Grows st₁.supply ([x].map Binder.name) ∧
      expandCall f span arguments.length (exprs s arguments) ([x].map Binder.name) st₁ =
        .ok (before, body) st' ∧
      r = ⟨spliced before span [x] body, .identifier ⟨span, x.name⟩⟩ := by
  simp only [expr, hf, bind_eq_ok] at h
  obtain ⟨_, _, hcheck, xs, st₁, hslots, ⟨before, body⟩, st₂, hexpand, h⟩ := h
  obtain ⟨hone, rfl⟩ := checkReturns_eq_ok hcheck
  obtain ⟨hlength, hgrows⟩ := slots_eq_ok hslots
  rw [hone] at hlength
  obtain ⟨x, rfl⟩ := List.length_eq_one_iff.1 hlength
  simp only [pure_eq_ok] at h
  obtain ⟨rfl, rfl⟩ := h
  exact ⟨x, st₁, before, body, hone, hgrows, hexpand, rfl⟩

mutual

theorem expr_fits {s : Setting} {c : Context} (hp : Place s.program c) : (e : Expr) → {n : Nat} →
    e.Yields c n → {r : Staged} → {st st' : State} → expr s e st = .ok r st' →
    Fits c n r ∧ st.supply.Grows st'.supply (Stmt.allBoundNames r.before)
  | .literal _, _, hy, _, _, _, h => by
    simp only [expr, pure_eq_ok] at h
    obtain ⟨rfl, rfl⟩ := h
    exact ⟨.nil fun _ _ => hy, .refl _⟩
  | .identifier _, _, hy, _, _, _, h => by
    simp only [expr, pure_eq_ok] at h
    obtain ⟨rfl, rfl⟩ := h
    exact ⟨.nil fun _ hc' => ⟨hc'.readable hy.1, hy.2⟩, .refl _⟩
  | .instruction span name arguments, _, hy, _, _, _, h => by
    simp only [expr, bind_eq_ok, pure_eq_ok] at h
    obtain ⟨rs, st₁, hrs, ⟨before, es⟩, st₂, hhoist, rfl, rfl⟩ := h
    obtain ⟨hlength, hfits, hgrows⟩ := exprs_fit hp arguments hy.2 hrs
    obtain ⟨hes, hprepares, names, hgrows', hperm⟩ := hoistArguments_eq_ok hfits hhoist
    refine ⟨hprepares.imp fun c' _ hall => ⟨?_, hall⟩, (hgrows.trans hgrows').perm hperm.symm⟩
    rw [hes, hlength]
    exact hy.1
  | .call span callee arguments, n, hy, r, st, st', h => by
    cases hf : s.target? callee.name with
    | none =>
      simp only [expr, hf, bind_eq_ok, pure_eq_ok] at h
      obtain ⟨rs, st₁, hrs, ⟨before, es⟩, st₂, hhoist, rfl, rfl⟩ := h
      obtain ⟨hlength, hfits, hgrows⟩ := exprs_fit hp arguments hy.2 hrs
      obtain ⟨hes, hprepares, names, hgrows', hperm⟩ := hoistArguments_eq_ok hfits hhoist
      refine ⟨hprepares.imp fun c' hc' hall => ⟨?_, hall⟩, (hgrows.trans hgrows').perm hperm.symm⟩
      rw [hes, hlength]
      exact hc'.functions hy.1
    | some f =>
      obtain ⟨hmem, hname, _, hreturns, hbody⟩ := hp.target hy.1 hf
      obtain ⟨x, st₁, before, body, hone, hgrows, hexpand, rfl⟩ := expr_call_eq_ok hf h
      have htargets : f.returns.length = ([x].map Binder.name).length := hone
      obtain ⟨hgrows', hprepares⟩ := expandCall_prepares hp hmem hbody htargets
        (fun _ _ hrs => exprs_fit hp arguments hy.2 hrs) hexpand
      have hspliced := spliced_prepares span [x] hprepares
      refine ⟨hspliced.imp fun c' _ hx => ⟨.inl (hx List.mem_cons_self), ?_⟩, ?_⟩
      . exact hreturns.symm.trans hone
      . apply (hgrows.trans hgrows').perm
        rw [allBoundNames_spliced, ← List.append_assoc]
        exact List.perm_append_comm.append_right _

theorem exprs_fit {s : Setting} {c : Context} (hp : Place s.program c) : (es : List Expr) →
    Expr.AllSingle c es → {rs : List Staged} → {st st' : State} → exprs s es st = .ok rs st' →
    rs.length = es.length ∧ (∀ r ∈ rs, Fits c 1 r) ∧
    st.supply.Grows st'.supply (rs.flatMap (Stmt.allBoundNames ·.before))
  | [], _, _, _, _, h => by
    simp only [exprs, pure_eq_ok] at h
    obtain ⟨rfl, rfl⟩ := h
    exact ⟨rfl, List.forall_mem_nil _, .refl _⟩
  | e :: es, hy, _, _, _, h => by
    simp only [exprs, bind_eq_ok, pure_eq_ok] at h
    obtain ⟨others, st₁, hothers, first, st₂, hfirst, rfl, rfl⟩ := h
    obtain ⟨hlength, hfits, hgrows⟩ := exprs_fit hp es hy.2 hothers
    obtain ⟨hfit, hgrows'⟩ := expr_fits hp e hy.1 hfirst
    refine ⟨congrArg (· + 1) hlength, List.forall_mem_cons.2 ⟨hfit, hfits⟩, ?_⟩
    exact (hgrows.trans hgrows').perm List.perm_append_comm

end

/-! ## Calls that are all of an expression -/

theorem call?_eq_some {e : Expr} {t : Target} (h : s.call? e = some t) :
    e = .call t.span t.callee t.arguments ∧ s.target? t.callee.name = some t.f := by
  unfold Setting.call? at h
  split at h
  . next span callee arguments =>
    rw [Option.map_eq_some_iff] at h
    obtain ⟨f, hf, rfl⟩ := h
    exact ⟨rfl, hf⟩
  . contradiction

theorem call_target (hp : Place s.program c) {e : Expr} {n : Nat} (hy : e.Yields c n) {t : Target}
    (h : s.call? e = some t) :
    t.f ∈ s.program.functions ∧ t.f.returns.length = n ∧
    t.f.body.Valid (c.enterFunction (t.f.parameters ++ t.f.returns)) ∧
    Expr.AllSingle c t.arguments := by
  obtain ⟨rfl, htarget⟩ := call?_eq_some h
  obtain ⟨hmem, _, _, hreturns, hbody⟩ := hp.target hy.1 htarget
  exact ⟨hmem, hreturns, hbody, hy.2⟩

theorem expand_prepares (hp : Place s.program c) {e : Expr} {n : Nat} (hy : e.Yields c n)
    {t : Target} (hcall : s.call? e = some t) {targets : List String}
    (htargets : t.f.returns.length = targets.length) {before : List Stmt} {body : Block}
    {st st' : State} (h : expand s t targets st = .ok (before, body) st') :
    st.supply.Grows st'.supply (Stmt.allBoundNames before ++ body.boundNames) ∧
    Prepares c before fun c' => ∀ c'', c'.Extends c'' → targets ⊆ c''.vars → body.Valid c'' := by
  obtain ⟨hmem, _, hbody, harguments⟩ := call_target hp hy hcall
  exact expandCall_prepares hp hmem hbody htargets
    (fun _ _ hrs => exprs_fit hp t.arguments harguments hrs) h

/-! ## Statements -/

/--
Wherever all that is visible in `c` is visible, `ss` can stand in the place of `xs`.
-/
structure Replaces (c : Context) (xs ss : List Stmt) : Prop where
  enter : ∀ c' : Context, c'.enter ss = c'.enter xs
  valid : ∀ c', c.Extends c' → Stmt.AllValid c' ss
  after : ∀ c', c.Extends c' → (c.after xs).Extends (c'.after ss)

/--
From `st` to `st'` names came into use that are bound in addition to the given ones.
-/
def Adds (st st' : State) (names names' : List String) : Prop :=
  ∃ new, st.supply.Grows st'.supply new ∧ names'.Perm (names ++ new)

theorem Replaces.append {xs ss ys ts : List Stmt} (h : Replaces c xs ss)
    (h' : Replaces (c.after xs) ys ts) : Replaces c (xs ++ ys) (ss ++ ts) where
  enter c' := by rw [Context.enter_append, Context.enter_append, h.enter, h'.enter]
  valid c' hc' := Stmt.allValid_append.2 ⟨h.valid c' hc', h'.valid _ (h.after c' hc')⟩
  after c' hc' := by
    rw [Context.after_append, Context.after_append]
    exact h'.after _ (h.after c' hc')

theorem Replaces.of_prepares {before : List Stmt} {ready : Context → Prop}
    (h : Prepares c before ready) {x x' : Stmt}
    (henter : ∀ c' : Context, c'.announce x' = c'.announce x)
    (hx : ∀ c', c.Extends c' → ready c' → x'.Valid c' ∧
      (c.declare x.declared).Extends (c'.declare x'.declared)) :
    Replaces c [x] (before ++ [x']) where
  enter c' := by
    rw [c'.enter_append, h.enter]
    exact henter c'
  valid c' hc' :=
    Stmt.allValid_append.2 ⟨h.valid c' hc', (hx _ (hc'.behind before) (h.ready c' hc')).1, trivial⟩
  after c' hc' := by
    rw [c'.after_append]
    exact (hx _ (hc'.behind before) (h.ready c' hc')).2

theorem Replaces.of_spliced {before : List Stmt} {span : Span} {xs : List Binder} {body : Block}
    (h : Prepares c before fun c' =>
      ∀ c'', c'.Extends c'' → xs.map Binder.name ⊆ c''.vars → body.Valid c'') {x : Stmt}
    (henter : ∀ c' : Context, c'.announce x = c')
    (hx : x.declared.map Binder.name ⊆ xs.map Binder.name) :
    Replaces c [x] (spliced before span xs body) where
  enter c' := ((spliced_prepares span xs h).enter c').trans (henter c').symm
  valid := (spliced_prepares span xs h).valid
  after c' hc' := by
    have hvars := (spliced_prepares span xs h).ready c' hc'
    have hbehind := hc'.behind (spliced before span xs body)
    change (c.declare x.declared).Extends _
    rw [c.declare_eq]
    refine ⟨hbehind.external, hbehind.assignable, hbehind.stackForms, hbehind.targetless, ?_,
      hbehind.functions⟩
    intro y hy
    rw [c.mem_vars_declare] at hy
    exact hy.elim (fun hy => hvars (hx hy)) (hbehind.vars ·)

namespace Adds

variable {st st₁ st' : State} {names names' : List String}

theorem append {others others' : List String} (h : Adds st st₁ names names')
    (h' : Adds st₁ st' others others') : Adds st st' (names ++ others) (names' ++ others') := by
  obtain ⟨new, hgrows, hperm⟩ := h
  obtain ⟨new', hgrows', hperm'⟩ := h'
  refine ⟨new ++ new', hgrows.trans hgrows', ?_⟩
  rw [List.perm_iff_count] at hperm hperm' ⊢
  intro x
  have hx := hperm x
  have hx' := hperm' x
  simp only [List.count_append] at hx hx' ⊢
  omega

theorem before (hgrows : st.supply.Grows st₁.supply names)
    {others others' : List String} (h : Adds st₁ st' others others') :
    Adds st st' others (names ++ others') := by
  have hnames : Adds st st₁ [] names := ⟨names, hgrows, .refl _⟩
  exact hnames.append h

theorem refl (st : State) (names : List String) : Adds st st names names :=
  ⟨[], .refl _, by rw [List.append_nil]⟩

end Adds

end

section

variable {s : Setting} {c : Context}

def copies (span : Span) (callSpan : Span) (targets : List Identifier) (xs : List Binder) :
    List Stmt :=
  (targets.zip xs).map fun (target, x) =>
    Stmt.assignment span [target] (.identifier ⟨callSpan, x.name⟩)

theorem allBoundNames_copies (span callSpan : Span) (targets : List Identifier) (xs : List Binder) :
    Stmt.allBoundNames (copies span callSpan targets xs) = [] := by
  unfold copies
  rw [Stmt.allBoundNames_eq_flatMap, List.flatMap_map, List.flatMap_eq_nil_iff]
  exact fun _ _ => rfl

theorem enter_copies (c : Context) (span callSpan : Span) (targets : List Identifier)
    (xs : List Binder) : c.enter (copies span callSpan targets xs) = c := by
  unfold copies
  induction targets.zip xs with
  | nil => rfl
  | cons pair pairs ih => exact ih

theorem copies_valid {targets : List Identifier} {xs : List Binder} (span callSpan : Span)
    (htargets : ∀ i ∈ targets, c.Assignable i.name) (hxs : xs.map Binder.name ⊆ c.vars) :
    Stmt.AllValid c (copies span callSpan targets xs) ∧
    c.after (copies span callSpan targets xs) = c := by
  unfold copies
  induction targets generalizing xs with
  | nil => exact ⟨trivial, rfl⟩
  | cons target targets ih =>
    cases xs with
    | nil => exact ⟨trivial, rfl⟩
    | cons x xs =>
      rw [List.forall_mem_cons] at htargets
      rw [List.map_cons, List.cons_subset] at hxs
      obtain ⟨hall, hafter⟩ := ih htargets.2 hxs.2
      have hvalue : (Expr.identifier ⟨span, x.name⟩).Yields c 1 := ⟨.inl hxs.1, rfl⟩
      refine ⟨⟨⟨hvalue, ?_, ?_⟩, hall⟩, hafter⟩
      . exact List.forall_mem_singleton.2 htargets.1
      . exact fun hnil => (List.cons_ne_nil _ _ hnil).elim

theorem copies_eq_ok {span callSpan : Span} {targets : List Identifier} {xs : List Binder}
    (hne : targets ≠ []) (hlength : xs.length = targets.length) {before : List Stmt} {other : Stmt}
    {r : StagedStmt} {st st' : State}
    (h : (match (copies span callSpan targets xs).getLast? with
      | some last => pure (before ++ (copies span callSpan targets xs).dropLast, last)
      | none => pure (before, other) : Pass StagedStmt) st = .ok r st') :
    r.1 ++ [r.2] = before ++ copies span callSpan targets xs ∧ st = st' := by
  cases hlast : (copies span callSpan targets xs).getLast? with
  | none =>
    rw [List.getLast?_eq_none_iff] at hlast
    unfold copies at hlast
    rw [List.map_eq_nil_iff, List.zip_eq_nil_iff] at hlast
    rcases hlast with hnil | hnil
    . contradiction
    . rw [hnil, List.length_nil, eq_comm, List.length_eq_zero_iff] at hlength
      contradiction
  | some last =>
    simp only [hlast, pure_eq_ok] at h
    obtain ⟨rfl, rfl⟩ := h
    rw [List.append_assoc, List.dropLast_append_getLast? last hlast]
    exact ⟨rfl, rfl⟩

/-! ## The forms of statements with a value -/

theorem expressionStmt_eq_ok {e : Expr} {before : List Stmt} {x' : Stmt} {st st' : State}
    (h : expressionStmt s e st = .ok (before, x') st') :
    (∃ r, expr s e st = .ok r st' ∧ before = r.before ∧ x' = .expression r.expr) ∨
    ∃ t xs st₁ before' body, s.call? e = some t ∧ t.f.returns.length = xs.length ∧
      st.supply.Grows st₁.supply (xs.map Binder.name) ∧
      expand s t (xs.map Binder.name) st₁ = .ok (before', body) st' ∧
      before ++ [x'] = spliced before' t.span xs body := by
  unfold expressionStmt at h
  cases hcall : s.call? e with
  | none =>
    simp only [hcall, bind_eq_ok, pure_eq_ok, Prod.mk.injEq] at h
    obtain ⟨r, _, hr, ⟨rfl, rfl⟩, rfl⟩ := h
    exact .inl ⟨r, hr, rfl, rfl⟩
  | some t =>
    simp only [hcall, bind_eq_ok, pure_eq_ok, Prod.mk.injEq] at h
    obtain ⟨xs, st₁, hslots, ⟨before', body⟩, _, hexpand, ⟨rfl, rfl⟩, rfl⟩ := h
    obtain ⟨hlength, hgrows⟩ := slots_eq_ok hslots
    exact .inr ⟨t, xs, st₁, before', body, rfl, hlength.symm, hgrows, hexpand, rfl⟩

theorem declarationStmt_eq_ok {span : Span} {vars : List Binder} {value : Expr}
    {before : List Stmt} {x' : Stmt} {st st' : State}
    (h : declarationStmt s span vars value st = .ok (before, x') st') :
    (∃ r, expr s value st = .ok r st' ∧ before = r.before ∧
      x' = .declaration span vars (some r.expr)) ∨
    ∃ t before' body, s.call? value = some t ∧ t.f.returns.length = vars.length ∧
      expand s t (vars.map Binder.name) st = .ok (before', body) st' ∧
      before ++ [x'] = spliced before' span vars body := by
  unfold declarationStmt at h
  cases hcall : s.call? value with
  | none =>
    simp only [hcall, bind_eq_ok, pure_eq_ok, Prod.mk.injEq] at h
    obtain ⟨r, _, hr, ⟨rfl, rfl⟩, rfl⟩ := h
    exact .inl ⟨r, hr, rfl, rfl⟩
  | some t =>
    simp only [hcall, bind_eq_ok, pure_eq_ok, Prod.mk.injEq] at h
    obtain ⟨_, _, hcheck, ⟨before', body⟩, _, hexpand, ⟨rfl, rfl⟩, rfl⟩ := h
    obtain ⟨hreturns, rfl⟩ := checkReturns_eq_ok hcheck
    exact .inr ⟨t, before', body, rfl, hreturns, hexpand, rfl⟩

theorem assignmentStmt_eq_ok (hp : Place s.program c) {span : Span} {targets : List Identifier}
    {value : Expr} (hv : (Stmt.assignment span targets value).Valid c) {before : List Stmt}
    {x' : Stmt} {st st' : State}
    (h : assignmentStmt s span targets value st = .ok (before, x') st') :
    (∃ r, expr s value st = .ok r st' ∧ before = r.before ∧
      x' = .assignment span targets r.expr) ∨
    ∃ t xs st₁ before' body, s.call? value = some t ∧ t.f.returns.length = xs.length ∧
      xs.length = targets.length ∧ st.supply.Grows st₁.supply (xs.map Binder.name) ∧
      expand s t (xs.map Binder.name) st₁ = .ok (before', body) st' ∧
      before ++ [x'] = spliced before' t.span xs body ++ copies span t.span targets xs := by
  unfold assignmentStmt at h
  cases hcall : s.call? value with
  | none =>
    simp only [hcall, bind_eq_ok, pure_eq_ok, Prod.mk.injEq] at h
    obtain ⟨r, _, hr, ⟨rfl, rfl⟩, rfl⟩ := h
    exact .inl ⟨r, hr, rfl, rfl⟩
  | some t =>
    simp only [hcall, bind_eq_ok] at h
    obtain ⟨_, _, hcheck, xs, st₁, hslots, ⟨before', body⟩, _, hexpand, h⟩ := h
    obtain ⟨hreturns, rfl⟩ := checkReturns_eq_ok hcheck
    obtain ⟨hlength, hgrows⟩ := slots_eq_ok hslots
    have htargets := hlength.trans hreturns
    have hne : targets ≠ [] :=
      fun hnil => Bool.false_ne_true (hp.targetless.symm.trans (hv.2.2 hnil))
    obtain ⟨hcopies, rfl⟩ := copies_eq_ok hne htargets h
    exact .inr ⟨t, xs, st₁, before', body, rfl, hlength.symm, htargets, hgrows, hexpand, hcopies⟩

theorem expressionStmt_replaces (hp : Place s.program c) {e : Expr} (hy : e.Yields c 0)
    {before : List Stmt} {x' : Stmt} {st st' : State}
    (h : expressionStmt s e st = .ok (before, x') st') :
    Replaces c [.expression e] (before ++ [x']) ∧
    Adds st st' [] (Stmt.allBoundNames (before ++ [x'])) := by
  rcases expressionStmt_eq_ok h with ⟨r, hr, rfl, rfl⟩ |
    ⟨t, xs, st₁, before', body, hcall, hreturns, hgrows, hexpand, hall⟩
  . obtain ⟨hfits, hgrows⟩ := expr_fits hp e hy hr
    refine ⟨.of_prepares hfits (fun _ => rfl) fun c' hc' hvalue => ⟨hvalue, hc'⟩, ?_⟩
    rw [Stmt.allBoundNames_append]
    exact .before hgrows (.refl _ [])
  . obtain ⟨hgrows', hprepares⟩ := expand_prepares hp hy hcall (by simpa using hreturns) hexpand
    rw [hall]
    refine ⟨.of_spliced hprepares (fun _ => rfl) (List.nil_subset _), ?_⟩
    rw [allBoundNames_spliced]
    refine ⟨_, hgrows.trans hgrows', ?_⟩
    rw [List.nil_append, ← List.append_assoc]
    exact List.perm_append_comm.append_right _

theorem declarationStmt_replaces (hp : Place s.program c) {span : Span} {vars : List Binder}
    {value : Expr} (hy : value.Yields c vars.length) {before : List Stmt} {x' : Stmt}
    {st st' : State} (h : declarationStmt s span vars value st = .ok (before, x') st') :
    Replaces c [.declaration span vars (some value)] (before ++ [x']) ∧
    Adds st st' (vars.map Binder.name) (Stmt.allBoundNames (before ++ [x'])) := by
  rcases declarationStmt_eq_ok h with ⟨r, hr, rfl, rfl⟩ |
    ⟨t, before', body, hcall, hreturns, hexpand, hall⟩
  . obtain ⟨hfits, hgrows⟩ := expr_fits hp value hy hr
    refine ⟨.of_prepares hfits (fun _ => rfl) fun c' hc' hvalue => ⟨hvalue, hc'.declare vars⟩, ?_⟩
    rw [Stmt.allBoundNames_append, Stmt.allBoundNames_singleton]
    exact .before hgrows (.refl _ _)
  . obtain ⟨hgrows, hprepares⟩ := expand_prepares hp hy hcall (by simpa using hreturns) hexpand
    rw [hall]
    refine ⟨.of_spliced hprepares (fun _ => rfl) (List.Subset.refl _), ?_⟩
    rw [allBoundNames_spliced]
    refine ⟨_, hgrows, ?_⟩
    rw [← List.append_assoc]
    exact List.perm_append_comm.append_right _

theorem assignmentStmt_replaces (hp : Place s.program c) {span : Span} {targets : List Identifier}
    {value : Expr} (hv : (Stmt.assignment span targets value).Valid c) {before : List Stmt}
    {x' : Stmt} {st st' : State}
    (h : assignmentStmt s span targets value st = .ok (before, x') st') :
    Replaces c [.assignment span targets value] (before ++ [x']) ∧
    Adds st st' [] (Stmt.allBoundNames (before ++ [x'])) := by
  rcases assignmentStmt_eq_ok hp hv h with ⟨r, hr, rfl, rfl⟩ |
    ⟨t, xs, st₁, before', body, hcall, hreturns, _, hgrows, hexpand, hall⟩
  . obtain ⟨hfits, hgrows⟩ := expr_fits hp value hv.1 hr
    refine ⟨.of_prepares hfits (fun _ => rfl) fun c' hc' hvalue => ⟨?_, hc'⟩, ?_⟩
    . exact ⟨hvalue, fun i hi => hc'.assigns (hv.2.1 i hi),
        fun hnil => hc'.targetless (hv.2.2 hnil)⟩
    . rw [Stmt.allBoundNames_append, Stmt.allBoundNames_singleton]
      exact .before hgrows (.refl _ _)
  . obtain ⟨hgrows', hprepares⟩ := expand_prepares hp hv.1 hcall (by simpa using hreturns) hexpand
    rw [hall]
    constructor
    . have hspliced := spliced_prepares t.span xs hprepares
      refine ⟨?_, ?_, ?_⟩
      . intro c'
        rw [c'.enter_append, hspliced.enter, enter_copies]
        rfl
      . intro c' hc'
        have hbehind := hc'.behind (spliced before' t.span xs body)
        refine Stmt.allValid_append.2 ⟨hspliced.valid c' hc', ?_⟩
        exact (copies_valid span t.span (fun i hi => hbehind.assigns (hv.2.1 i hi))
          (hspliced.ready c' hc')).1
      . exact fun c' hc' => hc'.behind _
    . rw [Stmt.allBoundNames_append, allBoundNames_spliced, allBoundNames_copies, List.append_nil]
      refine ⟨_, hgrows.trans hgrows', ?_⟩
      rw [List.nil_append, ← List.append_assoc]
      exact List.perm_append_comm.append_right _

theorem stmts_cons_eq_ok {x : Stmt} {xs ss : List Stmt} {st st' : State}
    (h : stmts s (x :: xs) st = .ok ss st') :
    ∃ before x' st₁ others, stmt s x st = .ok (before, x') st₁ ∧
      stmts s xs st₁ = .ok others st' ∧ ss = before ++ [x'] ++ others := by
  simp only [stmts, bind_eq_ok, pure_eq_ok] at h
  obtain ⟨⟨before, x'⟩, st₁, hx, others, _, hxs, rfl, rfl⟩ := h
  exact ⟨before, x', st₁, others, hx, hxs, (List.append_assoc before [x'] others).symm⟩

theorem Replaces.block {xs ss : List Stmt} (h : Replaces (c.enter xs) xs ss) {c' : Context}
    (hc' : c.Extends c') : Stmt.AllValid (c'.enter ss) ss := by
  rw [h.enter]
  exact h.valid _ (hc'.enter xs)

end

mutual

theorem stmt_replaces {s : Setting} {c : Context} (hp : Place s.program c) : (x : Stmt) →
    x.Valid c → x.boundNames ⊆ s.program.boundNames → x.functions ⊆ s.program.functions →
    {before : List Stmt} → {x' : Stmt} → {st st' : State} →
    stmt s x st = .ok (before, x') st' →
    Replaces c [x] (before ++ [x']) ∧
    Adds st st' x.boundNames (Stmt.allBoundNames (before ++ [x']))
  | .expression _, hv, _, _, _, _, _, _, h => expressionStmt_replaces hp hv h
  | .declaration span vars none, _, _, _, _, _, _, _, h => by
    simp only [stmt, pure_eq_ok, Prod.mk.injEq] at h
    obtain ⟨⟨rfl, rfl⟩, rfl⟩ := h
    have hnothing : Prepares c [] fun _ => True := .nil fun _ _ => trivial
    refine ⟨.of_prepares hnothing (fun _ => rfl) fun _ hc' _ => ⟨trivial, hc'.declare vars⟩, ?_⟩
    rw [Stmt.allBoundNames_append, Stmt.allBoundNames_singleton]
    exact .refl _ _
  | .declaration _ _ (some _), hv, _, _, _, _, _, _, h => declarationStmt_replaces hp hv h
  | .assignment _ _ _, hv, _, _, _, _, _, _, h => assignmentStmt_replaces hp hv h
  | .conditional span condition body, hv, hn, hf, _, _, _, _, h => by
    simp only [stmt, bind_eq_ok, pure_eq_ok, Prod.mk.injEq] at h
    obtain ⟨r, _, hr, body', _, hbody, ⟨rfl, rfl⟩, rfl⟩ := h
    obtain ⟨hfits, hgrows⟩ := expr_fits hp condition hv.1 hr
    obtain ⟨hvalid, hadds⟩ := block_replaces hp body hv.2 hn hf hbody
    refine ⟨.of_prepares hfits (fun _ => rfl) fun c' hc' hy => ⟨⟨hy, hvalid c' hc'⟩, hc'⟩, ?_⟩
    rw [Stmt.allBoundNames_append, Stmt.allBoundNames_singleton]
    exact .before hgrows hadds
  | .switch span subject arms, hv, hn, hf, _, _, _, _, h => by
    simp only [stmt, bind_eq_ok, pure_eq_ok, Prod.mk.injEq] at h
    obtain ⟨r, _, hr, arms', _, harms, ⟨rfl, rfl⟩, rfl⟩ := h
    obtain ⟨hfits, hgrows⟩ := expr_fits hp subject hv.1 hr
    obtain ⟨hvalues, hvalid, hadds⟩ := cases_replace hp arms hv.2.1 hn hf harms
    refine ⟨.of_prepares hfits (fun _ => rfl) fun c' hc' hy => ⟨⟨hy, hvalid c' hc', ?_⟩, hc'⟩, ?_⟩
    . rw [hvalues]
      exact hv.2.2
    . rw [Stmt.allBoundNames_append, Stmt.allBoundNames_singleton]
      exact .before hgrows hadds
  | .loop span ⟨preSpan, pre⟩ condition post body, hv, hn, hf, _, _, _, _, h => by
    simp only [stmt, block, bind_eq_ok, pure_eq_ok, Prod.mk.injEq] at h
    obtain ⟨_, _, ⟨pre', _, hpre, rfl, rfl⟩, post', _, hpost, body', _, hbody, ⟨rfl, rfl⟩, rfl⟩ := h
    change Stmt.allBoundNames pre ++ post.boundNames ++ body.boundNames ⊆ _ at hn
    change Stmt.allFunctions pre ++ post.functions ++ body.functions ⊆ _ at hf
    rw [List.append_subset, List.append_subset] at hn hf
    have hp₁ := hp.enter hv.1 hf.1.1
    have hp₂ := hp₁.after hn.1.1
    obtain ⟨hreplaces, hadds⟩ := stmts_replace hp₁ pre hv.1 hn.1.1 hf.1.1 hpre
    obtain ⟨hvalid₁, hadds₁⟩ := block_replaces hp₂ post hv.2.2.1 hn.1.2 hf.1.2 hpost
    obtain ⟨hvalid₂, hadds₂⟩ := block_replaces hp₂ body hv.2.2.2 hn.2 hf.2 hbody
    have hnothing : Prepares c [] fun _ => True := .nil fun _ _ => trivial
    constructor
    . refine .of_prepares hnothing (fun _ => rfl) fun c' hc' _ => ⟨?_, hc'⟩
      -- The new `pre` may declare more, but all that was visible still is.
      have hin : ((c.enter pre).after pre).Extends ((c'.enter pre').after pre') := by
        rw [hreplaces.enter]
        exact hreplaces.after _ (hc'.enter pre)
      exact ⟨hreplaces.block hc', hv.2.1.mono hin, hvalid₁ _ hin, hvalid₂ _ hin⟩
    . rw [Stmt.allBoundNames_append, Stmt.allBoundNames_singleton]
      exact (hadds.append hadds₁).append hadds₂
  | .function ⟨f, body⟩, hv, hn, hf, _, _, _, _, h => by
    simp only [stmt, bind_eq_ok, pure_eq_ok, Prod.mk.injEq] at h
    obtain ⟨body', _, hbody, ⟨rfl, rfl⟩, rfl⟩ := h
    simp only [Stmt.boundNames, ← List.map_append, List.cons_append, List.cons_subset,
      List.append_subset] at hn
    -- The program is looked at as it was in front of the pass, whatever became of this function.
    have hin : Place (s.within f.name).program (c.enterFunction (f.parameters ++ f.returns)) :=
      hp.enterFunction hn.2.1
    obtain ⟨hvalid, hadds⟩ := block_replaces hin body hv hn.2.2 (List.cons_subset.1 hf).2 hbody
    have hnothing : Prepares c [] fun _ => True := .nil fun _ _ => trivial
    constructor
    . refine .of_prepares hnothing (fun _ => rfl) fun c' hc' _ => ⟨?_, hc'⟩
      exact hvalid _ (hc'.enterFunction _)
    . rw [Stmt.allBoundNames_append, Stmt.allBoundNames_singleton]
      exact (Adds.refl _ _).append hadds
  | .block b, hv, hn, hf, _, _, _, _, h => by
    simp only [stmt, bind_eq_ok, pure_eq_ok, Prod.mk.injEq] at h
    obtain ⟨b', _, hb, ⟨rfl, rfl⟩, rfl⟩ := h
    obtain ⟨hvalid, hadds⟩ := block_replaces hp b hv hn hf hb
    have hnothing : Prepares c [] fun _ => True := .nil fun _ _ => trivial
    refine ⟨.of_prepares hnothing (fun _ => rfl) fun c' hc' _ => ⟨hvalid c' hc', hc'⟩, ?_⟩
    rw [Stmt.allBoundNames_append, Stmt.allBoundNames_singleton]
    exact hadds
  | .stack form, _, _, _, _, _, _, _, h => (throw_ne_ok h).elim

theorem stmts_replace {s : Setting} {c : Context} (hp : Place s.program c) : (xs : List Stmt) →
    Stmt.AllValid c xs → Stmt.allBoundNames xs ⊆ s.program.boundNames →
    Stmt.allFunctions xs ⊆ s.program.functions → {ss : List Stmt} → {st st' : State} →
    stmts s xs st = .ok ss st' →
    Replaces c xs ss ∧ Adds st st' (Stmt.allBoundNames xs) (Stmt.allBoundNames ss)
  | [], _, _, _, _, _, _, h => by
    simp only [stmts, pure_eq_ok] at h
    obtain ⟨rfl, rfl⟩ := h
    exact ⟨⟨fun _ => rfl, fun _ _ => trivial, fun _ hc' => hc'⟩, .refl _ _⟩
  | x :: xs, hv, hn, hf, _, _, _, h => by
    obtain ⟨before, x', _, others, hx, hxs, rfl⟩ := stmts_cons_eq_ok h
    have hp₁ := hp.next hn
    unfold Stmt.allBoundNames at hn
    unfold Stmt.allFunctions at hf
    rw [List.append_subset] at hn hf
    obtain ⟨hfirst, hadds⟩ := stmt_replaces hp x hv.1 hn.1 hf.1 hx
    obtain ⟨hothers, hadds'⟩ := stmts_replace hp₁ xs hv.2 hn.2 hf.2 hxs
    rw [Stmt.allBoundNames_append _ others]
    exact ⟨hfirst.append hothers, hadds.append hadds'⟩

theorem block_replaces {s : Setting} {c : Context} (hp : Place s.program c) : (b : Block) →
    b.Valid c → b.boundNames ⊆ s.program.boundNames → b.functions ⊆ s.program.functions →
    {b' : Block} → {st st' : State} → block s b st = .ok b' st' →
    (∀ c', c.Extends c' → b'.Valid c') ∧ Adds st st' b.boundNames b'.boundNames
  | ⟨span, xs⟩, hv, hn, hf, _, _, _, h => by
    simp only [block, bind_eq_ok, pure_eq_ok] at h
    obtain ⟨ss, _, hss, rfl, rfl⟩ := h
    obtain ⟨hreplaces, hadds⟩ := stmts_replace (hp.enter hv hf) xs hv hn hf hss
    exact ⟨fun _ hc' => hreplaces.block hc', hadds⟩

theorem cases_replace {s : Setting} {c : Context} (hp : Place s.program c) : (cs : List Case) →
    Case.AllValid c cs → Case.allBoundNames cs ⊆ s.program.boundNames →
    Case.allFunctions cs ⊆ s.program.functions → {cs' : List Case} → {st st' : State} →
    cases s cs st = .ok cs' st' →
    cs'.map Case.value = cs.map Case.value ∧ (∀ c', c.Extends c' → Case.AllValid c' cs') ∧
    Adds st st' (Case.allBoundNames cs) (Case.allBoundNames cs')
  | [], _, _, _, _, _, _, h => by
    simp only [cases, pure_eq_ok] at h
    obtain ⟨rfl, rfl⟩ := h
    exact ⟨rfl, fun _ _ => trivial, .refl _ _⟩
  | ⟨span, value, body⟩ :: cs, hv, hn, hf, _, _, _, h => by
    simp only [cases, bind_eq_ok, pure_eq_ok] at h
    obtain ⟨body', _, hbody, others, _, hothers, rfl, rfl⟩ := h
    unfold Case.allBoundNames at hn
    unfold Case.allFunctions at hf
    rw [List.append_subset] at hn hf
    obtain ⟨hvalid, hadds⟩ := block_replaces hp body hv.1 hn.1 hf.1 hbody
    obtain ⟨hvalues, hvalid', hadds'⟩ := cases_replace hp cs hv.2 hn.2 hf.2 hothers
    refine ⟨congrArg (value :: ·) hvalues, ?_, hadds.append hadds'⟩
    exact fun c' hc' => ⟨hvalid c' hc', hvalid' c' hc'⟩

end

end Inlining

theorem fullInline_eq_ok {info : Info} {b b' : Block} {n : Nat}
    (h : fullInline info b = .ok (b', n)) :
    ∃ s, Inlining.block ⟨info.dialect, b, []⟩ b (.initial info b) = .ok b' s := by
  unfold fullInline Inlining.run at h
  split at h
  . next b₁ s hrun =>
    cases h
    exact ⟨s, hrun⟩
  . contradiction

end Splice
