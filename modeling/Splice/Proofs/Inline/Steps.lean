import Splice.Proofs.Inline.Copy
import Splice.Proofs.Inline.Places

/-!
This module contains what the steps of the replacement of one call do: which names come into use,
and what the names of the body become.
-/

namespace Splice
namespace Inlining

theorem underscore_mem_label (label name : String) : '_' ∈ (label ++ "_" ++ name).toList := by
  rw [String.toList_append, String.toList_append]
  exact List.mem_append_left _ (List.mem_append_right _ List.mem_cons_self)

theorem fresh_eq_ok {label x : String} {st st' : State} (hlabel : '_' ∈ label.toList)
    (h : fresh label st = .ok x st') : st.supply.Grows st'.supply [x] := by
  unfold fresh at h
  rw [modifyGet_eq_ok] at h
  obtain ⟨rfl, rfl⟩ := h
  exact Supply.grows_fresh hlabel

theorem slots_eq_ok {callee : String} {span : Span} {xs ys : List Binder} {st st' : State}
    (h : slots callee span xs st = .ok ys st') :
    ys.length = xs.length ∧ st.supply.Grows st'.supply (ys.map Binder.name) := by
  induction xs generalizing st ys with
  | nil =>
    simp only [slots, pure_eq_ok] at h
    obtain ⟨rfl, rfl⟩ := h
    exact ⟨rfl, .refl _⟩
  | cons x xs ih =>
    simp only [slots, bind_eq_ok, pure_eq_ok] at h
    obtain ⟨name, _, hname, others, _, hothers, rfl, rfl⟩ := h
    obtain ⟨hlength, hgrows⟩ := ih hothers
    refine ⟨congrArg (· + 1) hlength, ?_⟩
    exact (fresh_eq_ok (underscore_mem_label callee x.name) hname).trans hgrows

theorem checkReturns_eq_ok {f : Function} {expected : Nat} {span : Span} {st st' : State} {u : Unit}
    (h : checkReturns f expected span st = .ok u st') : f.returns.length = expected ∧ st = st' := by
  unfold checkReturns at h
  rw [ite_eq_ok, pure_eq_ok] at h
  exact ⟨h.1, h.2.2⟩

theorem checkArguments_eq_ok {f : Function} {found : Nat} {span : Span} {st st' : State} {u : Unit}
    (h : checkArguments f found span st = .ok u st') :
    f.parameters.length = found ∧ st = st' := by
  unfold checkArguments at h
  rw [ite_eq_ok, pure_eq_ok] at h
  exact ⟨h.1, h.2.2⟩

def moved (span : Span) (r : Staged) (x : Binder) : List Stmt :=
  r.before ++ [.declaration span [x] (some r.expr)]

theorem allBoundNames_moved (span : Span) (r : Staged) (x : Binder) :
    Stmt.allBoundNames (moved span r x) = Stmt.allBoundNames r.before ++ [x.name] :=
  Stmt.allBoundNames_append ..

theorem perm_append_argument {names others used : List String} (h : names.Perm (others ++ used))
    (argument new : List String) :
    (names ++ (argument ++ new)).Perm (argument ++ others ++ (used ++ new)) := by
  refine (List.perm_append_comm_assoc ..).trans ?_
  simpa only [List.append_assoc] using (h.append_right new).append_left argument

theorem bindArguments_cons {callee : String} {span : Span} {parameter : Binder} {r : Staged}
    {rest : List (Binder × Staged)} {ss : List Stmt} {replacements : List (String × String)}
    {st st' : State}
    (h : bindArguments callee span ((parameter, r) :: rest) st = .ok (ss, replacements) st') :
    ∃ ss' replacements' st₁ x, bindArguments callee span rest st = .ok (ss', replacements') st₁ ∧
      st₁.supply.Grows st'.supply [x.name] ∧ ss = ss' ++ moved span r x ∧
      replacements = (parameter.name, x.name) :: replacements' := by
  simp only [bindArguments, bind_eq_ok, pure_eq_ok, Prod.mk.injEq] at h
  obtain ⟨⟨ss', replacements'⟩, st₁, hrest, name, _, hname, ⟨rfl, rfl⟩, rfl⟩ := h
  refine ⟨ss', replacements', st₁, ⟨r.expr.span, name, parameter.type⟩, hrest,
    fresh_eq_ok (underscore_mem_label callee parameter.name) hname, ?_, rfl⟩
  exact List.append_assoc ..

theorem bindArguments_eq_ok {callee : String} {span : Span} {pairs : List (Binder × Staged)}
    {ss : List Stmt} {replacements : List (String × String)} {st st' : State}
    (h : bindArguments callee span pairs st = .ok (ss, replacements) st') :
    replacements.map Prod.fst = pairs.map (Binder.name ∘ Prod.fst) ∧
    st.supply.Grows st'.supply (replacements.map Prod.snd) ∧
    (Stmt.allBoundNames ss).Perm (pairs.flatMap (fun pair => Stmt.allBoundNames pair.2.before) ++
      replacements.map Prod.snd) := by
  induction pairs generalizing ss replacements st' with
  | nil =>
    simp only [bindArguments, pure_eq_ok, Prod.mk.injEq] at h
    obtain ⟨⟨rfl, rfl⟩, rfl⟩ := h
    exact ⟨rfl, .refl _, .refl _⟩
  | cons pair rest ih =>
    obtain ⟨ss', replacements', st₁, x, hrest, hgrows, rfl, rfl⟩ := bindArguments_cons h
    obtain ⟨hkeys, hgrows', hperm⟩ := ih hrest
    refine ⟨congrArg _ hkeys, (hgrows'.trans hgrows).perm List.perm_append_comm, ?_⟩
    rw [Stmt.allBoundNames_append, allBoundNames_moved]
    refine (perm_append_argument hperm _ [x.name]).trans ?_
    exact List.perm_append_comm.append_left _

theorem hoistArguments_cons {dialect : Dialect} {callee : String} {earlier : Bool} {r : Staged}
    {rs : List Staged} {ss : List Stmt} {es : List Expr} {st st' : State}
    (h : hoistArguments dialect callee earlier (r :: rs) st = .ok (ss, es) st') :
    ∃ ss' es' st₁,
      hoistArguments dialect callee (earlier || !r.before.isEmpty) rs st = .ok (ss', es') st₁ ∧
      (((earlier && !r.expr.isMovable) = true ∧ ∃ x : Binder, st₁.supply.Grows st'.supply [x.name] ∧
          ss = ss' ++ moved r.expr.span r x ∧ es = .identifier ⟨r.expr.span, x.name⟩ :: es') ∨
        ((earlier && !r.expr.isMovable) = false ∧ st₁.supply = st'.supply ∧
          ss = ss' ++ r.before ∧ es = r.expr :: es')) := by
  simp only [hoistArguments, bind_eq_ok] at h
  obtain ⟨⟨ss', es'⟩, st₁, hrest, h⟩ := h
  refine ⟨ss', es', st₁, hrest, ?_⟩
  split at h
  . next hmove =>
    simp only [bind_eq_ok, modify_eq_ok, pure_eq_ok, Prod.mk.injEq] at h
    obtain ⟨name, _, hname, _, _, rfl, ⟨rfl, rfl⟩, rfl⟩ := h
    refine .inl ⟨hmove, ⟨r.expr.span, name, dialect.defaultType⟩, ?_, ?_, rfl⟩
    . have hlabel : '_' ∈ (callee ++ "_arg").toList := by
        rw [String.toList_append]
        exact List.mem_append_right _ List.mem_cons_self
      have hgrows := fresh_eq_ok hlabel hname
      exact hgrows
    . exact List.append_assoc ..
  . next hstay =>
    simp only [pure_eq_ok, Prod.mk.injEq] at h
    obtain ⟨⟨rfl, rfl⟩, rfl⟩ := h
    exact .inr ⟨Bool.eq_false_iff.2 hstay, rfl, rfl, rfl⟩

/-! ## The body -/

/--
What the renaming makes of the names of a function when a call of it is replaced: the return
variables become the targets, and the parameters the variables that the arguments are moved into.
-/
structure Instance (p : Block) (f : Function) (targets : List String)
    (replacements : List (String × String)) (ρ : String → String) : Prop where
  functions : f.body.functions = []
  stackForms : f.body.stackForms = []
  parameters : replacements.map Prod.fst = f.parameters.map Binder.name
  returns : f.returns.length = targets.length
  agrees : BodyCopy.Agrees ρ (((f.returns.map Binder.name).zip targets).reverse ++ replacements)
  other : ∀ x, x ∉ f.innerNames → ρ x = x

theorem copyBody_of_place {p : Block} {c : Context} (hp : Place p c) {f : Function}
    (hf : f ∈ p.functions) (hbody : f.body.Valid (c.enterFunction (f.parameters ++ f.returns)))
    {label : String} {replacements : List (String × String)}
    (hkeys : (replacements.map Prod.fst).Perm ((f.parameters ++ f.returns).map Binder.name))
    {body' : Block} {supply supply' : Supply}
    (h : copyBody label replacements f.body supply = .ok body' supply') :
    f.body.functions = [] ∧ f.body.stackForms = [] ∧ ∃ ρ : String → String,
      body' = f.body.rename ρ ∧ BodyCopy.Agrees ρ replacements ∧
      (∀ x, x ∉ f.innerNames → ρ x = x) ∧
      f.body.boundNames.map ρ = supply.freshNames (f.body.boundNames.map (label ++ ·)) ∧
      supply' = supply.afterFresh (f.body.boundNames.map (label ++ ·)) := by
  have hinner : (replacements.map Prod.fst ++ f.body.otherNames).Perm f.innerNames :=
    hkeys.append_right _
  have hxs : (f.parameters ++ f.returns).map Binder.name ⊆ p.boundNames :=
    fun x hx => Block.innerNames_subset hf (List.mem_append_left _ hx)
  have hin := hp.enterFunction hxs
  have hvars : (c.enterFunction (f.parameters ++ f.returns)).vars ⊆ replacements.map Prod.fst := by
    intro x hx
    unfold Context.enterFunction at hx
    rw [Context.mem_vars_declare] at hx
    exact hkeys.mem_iff.2 (hx.resolve_right List.not_mem_nil)
  -- All names of the program differ, so none inside of the function means anything around it.
  have hexternal : ∀ x ∈ (c.enterFunction (f.parameters ++ f.returns)).external,
      x ∉ replacements.map Prod.fst ++ f.body.otherNames := by
    intro x hx hmem
    rw [hinner.mem_iff] at hmem
    exact hin.foreign x (Block.innerNames_subset hf hmem) hx
  have hfunctions : ∀ g ∈ (c.enterFunction (f.parameters ++ f.returns)).functions,
      g.name ∉ replacements.map Prod.fst ++ f.body.otherNames := by
    intro head hhead hmem
    rw [hinner.mem_iff] at hmem
    obtain ⟨g, hg, rfl, _⟩ := hin.functions head hhead
    exact Block.name_notMem_innerNames hp.nodup hf hg hmem
  obtain ⟨hnone, hforms, ρ, hrename, hagrees, hother, hfresh⟩ :=
    copyBody_eq_ok hbody hin.assignable hvars
      (hinner.nodup_iff.2 (Block.innerNames_nodup hp.nodup hf)) hexternal hfunctions h
  refine ⟨hnone, hforms, ρ, hrename, hagrees, fun x hx => hother x fun hmem => ?_, hfresh⟩
  exact hx (hinner.mem_iff.1 hmem)

theorem instantiate_eq_ok {p : Block} {c : Context} (hp : Place p c) {f : Function}
    (hf : f ∈ p.functions) (hbody : f.body.Valid (c.enterFunction (f.parameters ++ f.returns)))
    {targets : List String} (htargets : f.returns.length = targets.length)
    {replacements : List (String × String)}
    (hparameters : replacements.map Prod.fst = f.parameters.map Binder.name) {body : Block}
    {st st' : State} (h : instantiate f replacements targets st = .ok body st') :
    ∃ ρ : String → String, body = f.body.rename ρ ∧ Instance p f targets replacements ρ ∧
      st.supply.Grows st'.supply (f.body.boundNames.map ρ) := by
  have hreturns : ((f.returns.map Binder.name).zip targets).map Prod.fst =
      f.returns.map Binder.name := by
    apply List.map_fst_zip
    rw [List.length_map]
    exact Nat.le_of_eq htargets
  have hkeys : ((((f.returns.map Binder.name).zip targets).reverse ++ replacements).map
      Prod.fst).Perm ((f.parameters ++ f.returns).map Binder.name) := by
    rw [List.map_append, List.map_reverse, hreturns, hparameters, List.map_append]
    exact ((List.reverse_perm _).append_right _).trans List.perm_append_comm
  have hmarked : ∀ label ∈ f.body.boundNames.map (f.name ++ "_" ++ ·), '_' ∈ label.toList := by
    rw [List.forall_mem_map]
    exact fun x _ => underscore_mem_label f.name x
  unfold instantiate at h
  dsimp only at h
  split at h
  . next body' supply' hcopy =>
    cases h
    obtain ⟨hnone, hforms, ρ, hrename, hagrees, hother, hfresh, rfl⟩ :=
      copyBody_of_place hp hf hbody hkeys hcopy
    refine ⟨ρ, hrename, ⟨hnone, hforms, hparameters, htargets, hagrees, hother⟩, ?_⟩
    rw [hfresh]
    exact st.supply.grows_afterFresh hmarked
  . cases h

theorem flatMap_snd_zip {α β γ : Type} {as : List α} {bs : List β} (h : as.length = bs.length)
    (g : β → List γ) : (as.zip bs).flatMap (fun pair => g pair.2) = bs.flatMap g := by
  have hzip : (as.zip bs).map Prod.snd = bs := List.map_snd_zip (Nat.le_of_eq h.symm)
  conv_rhs => rw [← hzip, List.flatMap_map]

theorem expandCall_eq_ok {p : Block} {c : Context} (hp : Place p c) {f : Function}
    (hf : f ∈ p.functions) (hbody : f.body.Valid (c.enterFunction (f.parameters ++ f.returns)))
    {span : Span} {count : Nat} {staged : Pass (List Staged)} {targets : List String}
    (htargets : f.returns.length = targets.length) {before : List Stmt} {body : Block}
    {st st' : State} (hlength : ∀ rs st₁, staged st = .ok rs st₁ → rs.length = count)
    (h : expandCall f span count staged targets st = .ok (before, body) st') :
    f.parameters.length = count ∧ ∃ rs st₁ replacements st₂ ρ, staged st = .ok rs st₁ ∧
      bindArguments f.name span (f.parameters.zip rs) st₁ = .ok (before, replacements) st₂ ∧
      body = ⟨span, (f.body.rename ρ).statements⟩ ∧ Instance p f targets replacements ρ ∧
      st₂.supply.Grows st'.supply (f.body.boundNames.map ρ) := by
  simp only [expandCall, bind_eq_ok, modify_eq_ok, pure_eq_ok, Prod.mk.injEq] at h
  obtain ⟨_, _, hcheck, rs, st₁, hrs, ⟨before', replacements⟩, st₂, hbind, body', st₃, hcopy,
    _, _, rfl, ⟨rfl, rfl⟩, rfl⟩ := h
  obtain ⟨hcount, rfl⟩ := checkArguments_eq_ok hcheck
  have hkeys : replacements.map Prod.fst = f.parameters.map Binder.name := by
    have hzip : (f.parameters.zip rs).map Prod.fst = f.parameters := by
      apply List.map_fst_zip
      rw [hlength rs st₁ hrs]
      exact Nat.le_of_eq hcount
    rw [(bindArguments_eq_ok hbind).1, ← List.map_map, hzip]
  obtain ⟨ρ, hrename, hinstance, hgrows⟩ :=
    instantiate_eq_ok hp hf hbody htargets hkeys hcopy
  exact ⟨hcount, rs, st₁, replacements, st₂, ρ, hrs, hbind, by rw [hrename], hinstance, hgrows⟩

end Inlining
end Splice
