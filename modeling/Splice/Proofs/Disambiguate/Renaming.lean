import Splice.Proofs.Disambiguate.Binding

/-!
This module contains the proof that the pass that gives every binding a name of its own succeeds on
all that keeps to the rules, up to the first stack form, and that each use of a name in the new
program refers to what it referred to in the old one.
-/

namespace Splice
namespace Disambiguation

def Unsupported (e : Failure) : Prop := ∃ form, e = .unsupported form

/--
A part of the new program whose uses refer to the same as those of the old part, all of them to
something. It binds as many names as the old part, and from `s` to `s'` the given ones were taken.
-/
structure Same (s s' : State) (links links' : List Link) (width width' : Nat)
    (names : List String) : Prop where
  links_eq : links' = links
  bound : ∀ name, Link.unbound name ∉ links
  width_eq : width' = width
  grows : Grows s s' names

namespace Same

variable {s s' s'' : State} {links links' links₁ links₁' : List Link}
  {width width' width₁ width₁' : Nat} {names names₁ : List String}

theorem nil (s : State) : Same s s [] [] 0 0 [] :=
  ⟨rfl, by simp, rfl, .refl s⟩

theorem append (h : Same s s' links links' width width' names)
    (h₁ : Same s' s'' links₁ links₁' width₁ width₁' names₁) :
    Same s s'' (links ++ links₁) (links' ++ links₁') (width + width₁) (width' + width₁')
      (names ++ names₁) where
  links_eq := by rw [h.links_eq, h₁.links_eq]
  bound name hname := (List.mem_append.1 hname).elim (h.bound name) (h₁.bound name)
  width_eq := by rw [h.width_eq, h₁.width_eq]
  grows := h.grows.trans h₁.grows

theorem perm {names' : List String} (h : Same s s' links links' width width' names)
    (hn : names.Perm names') : Same s s' links links' width width' names' :=
  ⟨h.links_eq, h.bound, h.width_eq, h.grows.perm hn⟩

theorem before (h : Same s s' links links' width width' names)
    (h₁ : Same s' s' links₁ links₁' 0 0 []) :
    Same s s' (links ++ links₁) (links' ++ links₁') width width' names := by
  have := h.append h₁
  rwa [List.append_nil] at this

theorem after (h : Same s s links links' 0 0 [])
    (h₁ : Same s s' links₁ links₁' width₁ width₁' names₁) :
    Same s s' (links ++ links₁) (links' ++ links₁') width₁ width₁' names₁ := by
  have := h.append h₁
  rwa [Nat.zero_add, Nat.zero_add, List.nil_append] at this

end Same

namespace Shows

variable {scopes : List (List Entry)} {c c' : Context}

theorem readable (h : Shows scopes c c') {e : Entry} (he : e ∈ scopes.flatten)
    (hv : e.visible = true) (ha : e.arity? = none) : e.after ∈ c'.vars := by
  apply h.vars
  refine List.mem_map.2 ⟨e, List.mem_filter.2 ⟨he, ?_⟩, rfl⟩
  rw [hv, ha]
  rfl

theorem callable (h : Shows scopes c c') {e : Entry} (he : e ∈ scopes.flatten)
    {parameters returns : Nat} (ha : e.arity? = some (parameters, returns)) :
    ⟨e.after, parameters, returns⟩ ∈ c'.functions := by
  apply h.functions
  refine List.mem_filterMap.2 ⟨e, he, ?_⟩
  unfold Entry.head?
  rw [ha]
  rfl

theorem declare {top : List Entry} {rest : List (List Entry)} (h : Shows (top :: rest) c c')
    {es : List Entry} (xs : List Binder) {xs' : List Binder} (hvars : ∀ e ∈ es, e.arity? = none)
    (hnames : es.map Entry.after = (xs'.map Binder.name).reverse) :
    Shows ((es ++ top) :: rest) (c.declare xs) (c'.declare xs') := by
  have hflatten : ((es ++ top) :: rest).flatten = es ++ (top :: rest).flatten :=
    List.append_assoc ..
  refine ⟨?_, ?_, ?_, ?_, ?_⟩
  . rw [c.declare_eq, c'.declare_eq]
    exact h.external
  . rw [c.declare_eq, c'.declare_eq]
    exact h.assignable
  . rw [c.declare_eq, c'.declare_eq]
    exact h.targetless
  . rw [hflatten]
    unfold Entry.vars
    rw [List.filter_append, List.map_append, List.append_subset]
    constructor
    . intro x hx
      obtain ⟨e, he, rfl⟩ := List.mem_map.1 hx
      have hmem := List.mem_map_of_mem (f := Entry.after) (List.mem_filter.1 he).1
      rw [hnames, List.mem_reverse] at hmem
      exact (c'.mem_vars_declare xs').2 (.inl hmem)
    . intro x hx
      exact (c'.mem_vars_declare xs').2 (.inr (h.vars hx))
  . have hnil : Entry.heads Entry.after es = [] := by
      unfold Entry.heads
      rw [List.filterMap_eq_nil_iff]
      intro e he
      unfold Entry.head?
      rw [hvars e he]
      rfl
    have hheads : Entry.heads Entry.after (es ++ (top :: rest).flatten) =
        Entry.heads Entry.after es ++ Entry.heads Entry.after (top :: rest).flatten :=
      List.filterMap_append ..
    rw [hflatten, hheads, hnil, List.nil_append, c'.declare_eq]
    exact h.functions

theorem enterFunction (h : Shows scopes c c') :
    Shows ([] :: scopes.map (List.map Entry.hide)) { c with vars := [] } { c' with vars := [] } := by
  have hflatten : ([] :: scopes.map (List.map Entry.hide)).flatten =
      scopes.flatten.map Entry.hide := by
    rw [List.flatten_cons, List.nil_append, List.map_flatten]
  refine ⟨h.external, h.assignable, h.targetless, ?_, ?_⟩
  . rw [hflatten, Entry.vars_hide]
    exact List.nil_subset _
  . rw [hflatten, Entry.heads_hide _ fun _ => rfl]
    exact h.functions

theorem enterBlock (h : Shows scopes c c') {n : Nat} (xs : List Stmt) {xs' : List Stmt}
    {es : List Entry} (hes : Announces Entry.after n xs' es) (hfun : ∀ e ∈ es, e.arity? ≠ none) :
    Shows (es.reverse :: scopes) (c.enter xs) (c'.enter xs') := by
  refine ⟨?_, ?_, ?_, ?_, ?_⟩
  . rw [c.enter_eq, c'.enter_eq]
    exact h.external
  . rw [c.enter_eq, c'.enter_eq]
    exact h.assignable
  . rw [c.enter_eq, c'.enter_eq]
    exact h.targetless
  . unfold Entry.vars
    rw [List.flatten_cons, List.filter_append, List.map_append, c'.enter_eq, List.append_subset]
    refine ⟨?_, h.vars⟩
    have hnil : (es.reverse.filter fun e => e.visible && e.arity?.isNone) = [] := by
      rw [List.filter_eq_nil_iff]
      intro e he
      have := hfun e (List.mem_reverse.1 he)
      rw [Ne, ← Option.isNone_iff_eq_none] at this
      simp [this]
    rw [hnil]
    exact List.nil_subset _
  . unfold Entry.heads
    rw [List.flatten_cons, List.filterMap_append, (hes.enter [] c').2, List.filterMap_reverse]
    exact List.append_subset.2 ⟨List.subset_append_left _ _,
      List.Subset.trans h.functions (List.subset_append_right _ _)⟩

end Shows

section

variable {external : List String} {scopes : List (List Entry)} {s : State} {c : Context}
  {sites sites' : List Site}

/-! ## Expressions -/

theorem readable_spec (h : Tied external scopes s c sites sites') {i : Identifier}
    (hi : c.Readable i.name) {failed : Failure → Prop} :
    Meets (use external i) s (fun i' s' => s = s' ∧
      Same s s [Site.link external sites i.name] [Site.link external sites' i'.name] 0 0 [] ∧
      ∀ c', Shows scopes c c' → c'.Readable i'.name) failed := by
  rcases hi with hi | hi
  . obtain ⟨e, he, hv, ha, hbefore⟩ := h.exists_var hi
    apply h.use_of_mem he hv hbefore.symm
    rw [← hbefore, h.link_before he hv, h.link_after he hv]
    exact ⟨rfl, ⟨rfl, by simp, rfl, .refl s⟩, fun c' hc' => .inl (hc'.readable he hv ha)⟩
  . have hi' : i.name ∈ external := h.host ▸ hi
    apply h.use_of_host hi'
    rw [(h.link_host hi').2.1, (h.link_host hi').2.2]
    exact ⟨rfl, ⟨rfl, by simp, rfl, .refl s⟩, fun c' hc' => .inr (hc'.external hi)⟩

theorem assignable_spec (h : Tied external scopes s c sites sites') {i : Identifier}
    (hsub : c.assignable ⊆ c.external) (hi : c.Assignable i.name) {failed : Failure → Prop} :
    Meets (use external i) s (fun i' s' => s = s' ∧
      Same s s [Site.link external sites i.name] [Site.link external sites' i'.name] 0 0 [] ∧
      ∀ c', Shows scopes c c' → c'.Assignable i'.name) failed := by
  rcases hi with hi | hi
  . obtain ⟨e, he, hv, ha, hbefore⟩ := h.exists_var hi
    apply h.use_of_mem he hv hbefore.symm
    rw [← hbefore, h.link_before he hv, h.link_after he hv]
    exact ⟨rfl, ⟨rfl, by simp, rfl, .refl s⟩, fun c' hc' => .inl (hc'.readable he hv ha)⟩
  . have hi' : i.name ∈ external := h.host ▸ hsub hi
    apply h.use_of_host hi'
    rw [(h.link_host hi').2.1, (h.link_host hi').2.2]
    exact ⟨rfl, ⟨rfl, by simp, rfl, .refl s⟩, fun c' hc' => .inr (hc'.assignable hi)⟩

theorem callable_spec (h : Tied external scopes s c sites sites') {i : Identifier}
    {parameters returns : Nat} (hi : ⟨i.name, parameters, returns⟩ ∈ c.functions)
    {failed : Failure → Prop} :
    Meets (use external i) s (fun i' s' => s = s' ∧
      Same s s [Site.link external sites i.name] [Site.link external sites' i'.name] 0 0 [] ∧
      ∀ c', Shows scopes c c' → ⟨i'.name, parameters, returns⟩ ∈ c'.functions) failed := by
  obtain ⟨e, he, hv, ha, hbefore⟩ := h.exists_function hi
  apply h.use_of_mem he hv hbefore.symm
  have hbefore' : e.before = i.name := hbefore
  rw [← hbefore', h.link_before he hv, h.link_after he hv]
  exact ⟨rfl, ⟨rfl, by simp, rfl, .refl s⟩, fun c' hc' => hc'.callable he ha⟩

mutual

theorem expr_spec (h : Tied external scopes s c sites sites') :
    (e : Expr) → {n : Nat} → e.Yields c n →
      Meets ((traversal external).expr e) s (fun e' s' => s = s' ∧
        Same s s (e.links external sites) (e'.links external sites') 0 0 [] ∧
        ∀ c', Shows scopes c c' → e'.Yields c' n) Unsupported
  | .literal l, n, hy => .pure ⟨rfl, .nil s, fun _ _ => hy⟩
  | .identifier i, n, hy => by
    unfold Traversal.expr
    apply (readable_spec h hy.1).bind
    rintro i' s' ⟨rfl, hsame, hshows⟩
    exact .pure ⟨rfl, hsame, fun c' hc' => ⟨hshows c' hc', hy.2⟩⟩
  | .call span callee arguments, n, hy => by
    unfold Traversal.expr
    apply (callable_spec h hy.1).bind
    rintro callee' s' ⟨rfl, hsame, hshows⟩
    apply (exprs_spec h arguments hy.2).bind
    rintro arguments' s' ⟨rfl, hsame', hlength, hshows'⟩
    refine .pure ⟨rfl, hsame.after hsame', ?_⟩
    intro c' hc'
    unfold Expr.Yields
    rw [hlength]
    exact ⟨hshows c' hc', hshows' c' hc'⟩
  | .instruction span name arguments, n, hy => by
    unfold Traversal.expr
    apply (exprs_spec h arguments hy.2).bind
    rintro arguments' s' ⟨rfl, hsame', hlength, hshows'⟩
    refine .pure ⟨rfl, hsame', ?_⟩
    intro c' hc'
    unfold Expr.Yields
    rw [hlength]
    exact ⟨hy.1, hshows' c' hc'⟩

theorem exprs_spec (h : Tied external scopes s c sites sites') :
    (es : List Expr) → Expr.AllSingle c es →
      Meets ((traversal external).exprs es) s (fun es' s' => s = s' ∧
        Same s s (Expr.allLinks external sites es) (Expr.allLinks external sites' es') 0 0 [] ∧
        es'.length = es.length ∧ ∀ c', Shows scopes c c' → Expr.AllSingle c' es') Unsupported
  | [], _ => .pure ⟨rfl, .nil s, rfl, fun _ _ => trivial⟩
  | e :: es, hy => by
    unfold Traversal.exprs
    apply (expr_spec h e hy.1).bind
    rintro e' s' ⟨rfl, hsame, hshows⟩
    apply (exprs_spec h es hy.2).bind
    rintro es' s' ⟨rfl, hsame', hlength, hshows'⟩
    refine .pure ⟨rfl, hsame.after hsame', congrArg Nat.succ hlength, ?_⟩
    exact fun c' hc' => ⟨hshows c' hc', hshows' c' hc'⟩

end

theorem uses_spec (h : Tied external scopes s c sites sites') (hsub : c.assignable ⊆ c.external) :
    (is : List Identifier) → (∀ i ∈ is, c.Assignable i.name) →
      Meets ((traversal external).uses is) s (fun is' s' => s = s' ∧
        Same s s (is.map fun i => Site.link external sites i.name)
          (is'.map fun i => Site.link external sites' i.name) 0 0 [] ∧
        is'.length = is.length ∧
        ∀ c', Shows scopes c c' → ∀ i ∈ is', c'.Assignable i.name) Unsupported
  | [], _ => .pure ⟨rfl, .nil s, rfl, by simp⟩
  | i :: is, ha => by
    rw [List.forall_mem_cons] at ha
    unfold Traversal.uses
    apply (assignable_spec h hsub ha.1).bind
    rintro i' s' ⟨rfl, hsame, hshows⟩
    apply (uses_spec h hsub is ha.2).bind
    rintro is' s' ⟨rfl, hsame', hlength, hshows'⟩
    refine .pure ⟨rfl, hsame.after hsame', congrArg Nat.succ hlength, ?_⟩
    exact fun c' hc' => List.forall_mem_cons.2 ⟨hshows c' hc', hshows' c' hc'⟩

theorem optionalExpr_spec (h : Tied external scopes s c sites sites') (span : Span)
    (vars : List Binder) (n : Nat) :
    (value : Option Expr) → (Stmt.declaration span vars value).Valid c →
      Meets ((traversal external).optionalExpr value) s (fun value' s' => s = s' ∧
        ∀ vars' : List Binder, vars'.length = vars.length →
          Same s s ((Stmt.declaration span vars value).links external sites n)
            ((Stmt.declaration span vars' value').links external sites' n) 0 0 [] ∧
          ∀ c', Shows scopes c c' → (Stmt.declaration span vars' value').Valid c') Unsupported
  | none, _ => .pure ⟨rfl, fun _ _ => ⟨.nil s, fun _ _ => trivial⟩⟩
  | some e, hv => by
    unfold Traversal.optionalExpr
    apply (expr_spec h e hv).bind
    rintro e' s' ⟨rfl, hsame, hshows⟩
    refine .pure ⟨rfl, ?_⟩
    intro vars' hlength
    refine ⟨hsame, ?_⟩
    unfold Stmt.Valid
    rw [hlength]
    exact hshows

end

/-! ## Statements -/

section

variable {external : List String}

theorem Grows.of_enter {s s' : State} {names : List String} (h : Grows s.enter s' names) :
    Grows s s' names :=
  ⟨h.taken, h.nodup, h.used, h.plain⟩

theorem Grows.leave {s s' : State} {names : List String} (h : Grows s s' names) :
    Grows s s'.leave names :=
  ⟨h.taken, h.nodup, h.used, h.plain⟩

theorem Tied.lookupHere {top : List Entry} {rest : List (List Entry)} {s : State} {c : Context}
    {sites sites' : List Site} (h : Tied external (top :: rest) s c sites sites') {e : Entry}
    (he : e ∈ top) (hv : e.visible = true) : s.lookupHere e.before = some e.after := by
  have hfind : (top.find? fun e' => e.before == e'.before) = some e := by
    apply find?_of_pairwise (List.pairwise_append.1 h.apart).1 he
    . exact beq_self_eq_true e.before
    . intro b hb hr
      rw [hr (beq_iff_eq.1 hb).symm] at hv
      contradiction
  unfold State.lookupHere
  rw [h.state, List.map_cons, List.head?_cons, Option.bind_some, lookup_map_entries, hfind]
  rfl

theorem enterFunction_spec {top : List Entry} {rest : List (List Entry)} {s : State} {c : Context}
    {sites sites' : List Site} (h : Tied external (top :: rest) s c sites sites') {f : Signature}
    (n : Nat) {e : Entry} (he : e ∈ top) (hv : e.visible = true) (hbefore : e.before = f.name)
    (hx : { c with vars := [] }.AllDeclarable (f.parameters ++ f.returns))
    (hu : (f.parameters ++ f.returns).map Binder.name ⊆ s.supply.used) :
    Meets (enterFunction f) s (fun f' s' => f'.name = e.after ∧
      f'.parameters.length = f.parameters.length ∧ f'.returns.length = f.returns.length ∧
      ∃ es : List Entry,
        Tied external (es :: (top :: rest).map (List.map Entry.hide)) s'
          (c.enterFunction (f.parameters ++ f.returns))
          (Site.enterFunction sites (n + 1) (f.parameters ++ f.returns))
          (Site.enterFunction sites' (n + 1) (f'.parameters ++ f'.returns)) ∧
        Grows s s' ((f'.parameters ++ f'.returns).map Binder.name) ∧
        ∀ c', Shows (top :: rest) c c' →
          Shows (es :: (top :: rest).map (List.map Entry.hide))
            (c.enterFunction (f.parameters ++ f.returns))
            (c'.enterFunction (f'.parameters ++ f'.returns))) Unsupported := by
  rw [Context.allDeclarable_append] at hx
  rw [List.map_append, List.append_subset] at hu
  -- The name is looked up in the scope of the block, before the one of the parameters is opened.
  have hname : Meets (functionName f.name) s (fun name s₁ => name = e.after ∧ s = s₁)
      Unsupported := by
    unfold functionName
    apply Meets.get_bind
    rw [← hbefore, h.lookupHere he hv]
    exact .pure ⟨rfl, rfl⟩
  unfold enterFunction
  apply hname.bind
  rintro _ _ ⟨rfl, rfl⟩
  apply Meets.modify_bind
  apply (bindAll_spec f.parameters (n + 1) h.enterFunction hx.1 hu.1 _).bind
  rintro ps' s₁ ⟨es₁, htied₁, hgrows₁, hlength₁, hvars₁, hnames₁⟩
  apply (bindAll_spec f.returns (n + 1 + f.parameters.length) htied₁ hx.2
    (List.Subset.trans hu.2 hgrows₁.used) _).bind
  rintro rs' s₂ ⟨es₂, htied₂, hgrows₂, hlength₂, hvars₂, hnames₂⟩
  refine .pure ⟨rfl, hlength₁, hlength₂, es₂ ++ (es₁ ++ []), ?_, ?_, ?_⟩
  . unfold Context.enterFunction Site.enterFunction
    rw [Context.declare_append, Site.declare_append, Site.declare_append, hlength₁]
    exact htied₂
  . rw [List.map_append]
    exact hgrows₁.of_enter.trans hgrows₂
  . intro c' hc'
    unfold Context.enterFunction
    rw [Context.declare_append, Context.declare_append]
    exact (hc'.enterFunction.declare f.parameters hvars₁ hnames₁).declare f.returns hvars₂ hnames₂

end

end Disambiguation
end Splice
