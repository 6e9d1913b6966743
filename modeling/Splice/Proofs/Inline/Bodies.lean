import Splice.Proofs.Inline.Arguments
import Splice.Proofs.Inline.Linked
import Splice.Proofs.Inline.Valid
import Splice.Proofs.Semantics.Renamed

/-!
This module contains the proof that the copy of a body does what a call of the function does, behind
the variables for the arguments and those for the values returned.
-/

namespace Splice

open Run

variable {m : Machine} {side : Side}

/-! ## Parameters and return variables -/

section

variable {l : Embedding m} {c : Context} {μ ν : Memory m}

theorem Embedding.Sees.declareAll_held (h : l.Sees c μ ν) {xs : List Binder}
    (hxs : ∀ x ∈ xs, x.name ∉ c.external) {vs : List m.Value}
    (hvs : vs.map some = xs.map fun x => ν.locals (l.name x.name)) :
    ∃ μ₁, declareAll xs vs μ = pure ((), μ₁) ∧ l.Sees (c.declare xs) μ₁ ν := by
  induction xs generalizing vs c μ with
  | nil =>
    obtain rfl := List.map_eq_nil_iff.1 hvs
    exact ⟨μ, rfl, h⟩
  | cons x xs ih =>
    cases vs with
    | nil => cases hvs
    | cons v vs =>
      rw [List.map_cons, List.map_cons, List.cons.injEq] at hvs
      rw [List.forall_mem_cons] at hxs
      exact ih (h.declare_left hxs.1 hvs.1.symm) hxs.2 hvs.2

theorem readAll_eq (xs : List Binder) (μ : Memory m) :
    readAll xs μ = pure (xs.map fun x => μ.read x.name, μ) := by
  induction xs with
  | nil => rfl
  | cons x xs ih =>
    change (readAll xs μ >>= fun r => pure (μ.read x.name :: r.1, r.2)) = _
    rw [ih]
    rfl

theorem Embedding.Sees.map_read (h : l.Sees c μ ν) {xs : List Binder}
    (hxs : xs.map Binder.name ⊆ c.vars) :
    (xs.map fun x => μ.read x.name).map some = xs.map fun x => ν.locals (l.name x.name) := by
  rw [List.map_map]
  apply List.map_congr_left
  intro x hx
  obtain ⟨v, hv, hv'⟩ := h.vars x.name (hxs (List.mem_map.2 ⟨x, hx, rfl⟩))
  change some ((μ.locals x.name).getD _) = _
  rw [hv, hv']
  rfl

theorem frame_agree {f : Function} {inner : List String}
    (ha : l.Allows (c.enterFunction (f.parameters ++ f.returns)) inner)
    (hinner : f.innerNames ⊆ inner)
    {bound bound' : Nat} (hbound : side.Within bound bound') {calls calls' : Calls m}
    (hcalls : Related side l.host c.functions calls calls') (hf : f.body.functions = [])
    (hv : f.body.Valid (c.enterFunction (f.parameters ++ f.returns))) {vs : List m.Value}
    (hvs : vs.map some = f.parameters.map fun x => ν.locals (l.name x.name))
    (hzeros : ∀ x ∈ f.returns, ν.locals (l.name x.name) = some m.zero)
    (hempty : l.Sees { c with vars := [] } μ ν) :
    Agree side
      (fun vs μ₁ _ ν₁ => l.Sees (c.enterFunction (f.parameters ++ f.returns)) μ₁ ν₁ ∧
        vs.map some = f.returns.map fun x => ν₁.locals (l.name x.name))
      (frame f.toSignature (f.body.exec bound calls) vs) μ
      ((f.body.rename l.name).exec bound' calls') ν := by
  obtain ⟨hheads, hbody⟩ := List.append_subset.1 hinner
  rw [List.map_append, List.append_subset] at hheads
  have hforeign : ∀ x ∈ inner, x ∉ c.external := by
    intro x hx
    have hforeign := (ha.foreign x hx).1
    unfold Context.enterFunction at hforeign
    rwa [Context.declare_eq] at hforeign
  -- The other run has the variables of the call already, and only the first one declares them here.
  obtain ⟨μ₁, hparameters, h₁⟩ := hempty.declareAll_held
    (fun x hx => hforeign _ (hheads.1 (List.mem_map.2 ⟨x, hx, rfl⟩))) hvs
  have hreturns : (f.returns.map fun _ => m.zero).map some =
      f.returns.map fun x => ν.locals (l.name x.name) := by
    rw [List.map_map]
    exact List.map_congr_left fun x hx => (hzeros x hx).symm
  have hexternal : ({ c with vars := [] }.declare f.parameters).external = c.external := by
    rw [Context.declare_eq]
  obtain ⟨μ₂, hzero, h₂⟩ := h₁.declareAll_held (fun x hx hmem =>
    hforeign _ (hheads.2 (List.mem_map.2 ⟨x, hx, rfl⟩)) (hexternal ▸ hmem)) hreturns
  rw [← Context.declare_append] at h₂
  have hframe : frame f.toSignature (f.body.exec bound calls) vs μ =
      f.body.exec bound calls μ₂ >>= fun r => readAll f.returns r.2 := by
    change declareAll f.parameters vs μ >>= (fun r => declareAll f.returns _ r.2 >>= _) = _
    rw [hparameters]
    change declareAll f.returns _ μ₁ >>= _ = _
    rw [hzero]
    rfl
  have hcalls₁ : Related side l.host (c.enterFunction (f.parameters ++ f.returns)).functions calls
      calls' := by
    unfold Context.enterFunction
    rwa [Context.functions_declare]
  have hvars : f.returns.map Binder.name ⊆
      (c.enterFunction (f.parameters ++ f.returns)).vars := by
    intro x hx
    unfold Context.enterFunction
    rw [Context.mem_vars_declare, List.map_append]
    exact .inl (List.mem_append_right _ hx)
  unfold Agree
  rw [hframe, ← bind_pure ((f.body.rename l.name).exec bound' calls' ν)]
  refine Matches.bind (Block.exec_rename hbound ha hcalls₁ f.body hf hv hbody h₂) ?_
  rintro ⟨_, μ₃⟩ ⟨_, ν₃⟩ h₃
  rw [readAll_eq]
  exact .done ⟨h₃, h₃.map_read hvars⟩

theorem execAll_zeros (bound : Nat) (calls : Calls m) (span : Span) (xs : List Binder)
    (ν : Memory m) :
    ∃ ν₁, Stmt.execAll bound calls (xs.map (Inlining.zeroDeclaration span)) ν = pure ((), ν₁) ∧
      ν₁.world = ν.world ∧ (∀ x ∈ xs, ν₁.locals x.name = some m.zero) ∧
      ∀ y, y ∉ xs.map Binder.name → ν₁.locals y = ν.locals y := by
  induction xs generalizing ν with
  | nil => exact ⟨ν, rfl, rfl, List.forall_mem_nil _, fun _ _ => rfl⟩
  | cons x xs ih =>
    obtain ⟨ν₁, hexec, hworld, hzeros, hothers⟩ := ih (ν.declare x.name m.zero)
    refine ⟨ν₁, hexec, hworld, ?_, ?_⟩
    . refine List.forall_mem_cons.2 ⟨?_, hzeros⟩
      by_cases hx : x.name ∈ xs.map Binder.name
      . obtain ⟨y, hy, hname⟩ := List.mem_map.1 hx
        rw [← hname]
        exact hzeros y hy
      . rw [hothers x.name hx]
        exact if_pos rfl
    . intro y hy
      rw [List.map_cons, List.mem_cons, not_or] at hy
      exact (hothers y hy.2).trans (if_neg hy.1)

theorem call_agree {α : Type} {R : List m.Value → Memory m → α → Memory m → Prop}
    {S : List m.Value → Memory m → α → Memory m → Prop} {calls : Calls m} {f : Signature}
    {body : Run m Unit} {name : String} {vs : List m.Value} {y : Run m α}
    (hcall : calls name vs μ.world = invoke f body vs μ.world)
    (h : Agree side R (frame f body vs) ⟨fun _ => none, μ.world⟩ y ν)
    (hS : ∀ ws μ₁ b ν₁, R ws μ₁ b ν₁ → S ws { μ with world := μ₁.world } b ν₁) :
    Agree side S (Run.call calls name vs) μ y ν := by
  have hsource : Run.call calls name vs μ =
      frame f body vs ⟨fun _ => none, μ.world⟩ >>= fun r =>
        pure (r.1, { μ with world := r.2.world }) := by
    change calls name vs μ.world >>= _ = _
    rw [hcall]
    unfold invoke
    rw [bind_assoc]
    rfl
  unfold Agree
  rw [hsource, ← bind_pure (y ν)]
  exact Matches.bind h fun a b hR => .done (hS a.1 a.2 b.1 b.2 hR)

end

namespace Inlining

section

variable {p : Block} {f : Function} {targets : List String}
variable {replacements : List (String × String)} {ρ : String → String}

theorem Instance.map_parameters (h : Instance p f targets replacements ρ) :
    f.parameters.map (fun x => ρ x.name) = replacements.map Prod.snd := by
  have hnames : f.parameters.map (fun x => ρ x.name) = (f.parameters.map Binder.name).map ρ :=
    List.map_map.symm
  rw [hnames, ← h.parameters, List.map_map]
  exact List.map_congr_left fun r hr => h.agrees r (List.mem_append_right _ hr)

theorem Instance.map_returns (h : Instance p f targets replacements ρ) :
    f.returns.map (fun x => ρ x.name) = targets := by
  have hlength : (f.returns.map Binder.name).length = targets.length := by
    rw [List.length_map, h.returns]
  have hnames : f.returns.map (fun x => ρ x.name) = (f.returns.map Binder.name).map ρ :=
    List.map_map.symm
  rw [hnames]
  conv_lhs => rw [← List.map_fst_zip (Nat.le_of_eq hlength), List.map_map]
  conv_rhs => rw [← List.map_snd_zip (Nat.le_of_eq hlength.symm)]
  refine List.map_congr_left fun r hr => h.agrees r ?_
  exact List.mem_append_left _ (List.mem_reverse.2 hr)

theorem Instance.map_innerNames (h : Instance p f targets replacements ρ) :
    (f.innerNames.map ρ).Perm
      (targets ++ (replacements.map Prod.snd ++ f.body.boundNames.map ρ)) := by
  have hheads : ((f.parameters ++ f.returns).map Binder.name).map ρ =
      replacements.map Prod.snd ++ targets := by
    rw [← h.map_parameters, ← h.map_returns, List.map_append, List.map_append, List.map_map,
      List.map_map]
    rfl
  unfold Function.innerNames
  rw [List.map_append, hheads, f.body.boundNames_of_functions h.functions, List.append_assoc]
  exact List.perm_append_comm_assoc ..

def copyLink (ρ : String → String) (f : Function) (host : String → m.Value) (origin : Locals m) :
    Embedding m :=
  ⟨ρ, host, fun x => x ∉ f.innerNames.map ρ, origin⟩

theorem Instance.allows (h : Instance p f targets replacements ρ) {external : List String}
    {c : Context} (hp : Site p external c) (hf : f ∈ p.functions)
    (hnodup : (f.innerNames.map ρ).Nodup) (hforeign : ∀ x ∈ f.innerNames.map ρ, x ∉ external)
    (host : String → m.Value) (origin : Locals m) :
    (copyLink ρ f host origin).Allows (c.enterFunction (f.parameters ++ f.returns))
      f.innerNames := by
  have hxs : (f.parameters ++ f.returns).map Binder.name ⊆ p.boundNames :=
    fun x hx => Block.innerNames_subset hf (List.mem_append_left _ hx)
  have hin := hp.enterFunction hxs
  have hinner : ∀ x ∈ f.innerNames, x ∉ external :=
    fun x hx => hin.host ▸ hin.foreign x (Block.innerNames_subset hf hx)
  refine ⟨List.inj_on_of_nodup_map hnodup, ?_, ?_, ?_, ?_, hin.fixed, hin.stackForms⟩
  . intro x hx
    exact h.other x fun hmem => hinner x hmem (hin.host ▸ hx)
  . intro x hx
    rw [hin.host]
    exact ⟨hinner x hx, hforeign _ (List.mem_map.2 ⟨x, hx, rfl⟩)⟩
  . intro x hx hkept
    exact hkept (List.mem_map.2 ⟨x, hx, rfl⟩)
  . intro x hx
    unfold Context.enterFunction at hx
    rw [Context.mem_vars_declare] at hx
    exact List.mem_append_left _ (hx.resolve_right List.not_mem_nil)

end

section

variable {host : String → m.Value} {bound bound' : Nat} {calls calls' : Calls m} {p : Block}
variable {external : List String} {c : Context} {f : Function}

theorem exec_withSpan (span : Span) (b : Block) :
    (⟨span, b.statements⟩ : Block).exec bound calls = b.exec bound calls := by
  cases b
  rfl

theorem copy_simulates (hlinked : Linked side host bound p external c calls calls')
    (hbound : side.Within bound bound') (hn : p.boundNames.Nodup) (hf : f ∈ p.functions)
    (hhead : f.head ∈ c.functions) {xs : List Binder} {replacements : List (String × String)}
    {ρ : String → String}
    (hinstance : Instance p f (xs.map Binder.name) replacements ρ)
    (hnodup : (f.innerNames.map ρ).Nodup) (hforeign : ∀ x ∈ f.innerNames.map ρ, x ∉ external)
    {μ ν : Memory m} (hworld : μ.world = ν.world) (hhost : μ.world.host = host)
    (hexternal : ∀ x ∈ external, ν.locals x = none) {vs : List m.Value}
    (hvs : vs.map some = replacements.map fun r => ν.locals r.2) (span zeros : Span) :
    Agree side
      (fun ws μ₁ _ ν₁ => Keeps host (f.innerNames.map ρ) μ ν μ₁ ν₁ ∧
        ws.map some = xs.map fun x => ν₁.locals x.name)
      (Run.call calls f.name vs) μ
      (Stmt.execAll bound' calls' (xs.map (zeroDeclaration zeros) ++
        [.block ⟨span, (f.body.rename ρ).statements⟩])) ν := by
  obtain ⟨g, hg, hghead, c₁, inner, hsite, _, hbody, hinner, hcalls⟩ := hlinked.unfolds f.head hhead
  obtain rfl := Block.eq_of_name_eq hn hg hf (congrArg Head.name hghead)
  obtain ⟨ν₁, hexec, hworld₁, hzeros, hothers⟩ := execAll_zeros bound' calls' zeros xs ν
  have htargets : xs.map Binder.name ⊆ g.innerNames.map ρ := by
    intro x hx
    rw [hinstance.map_innerNames.mem_iff]
    exact List.mem_append_left _ hx
  have hparameters : vs.map some = g.parameters.map fun x => ν₁.locals (ρ x.name) := by
    have hmap : (g.parameters.map fun x => ν₁.locals (ρ x.name)) =
        (g.parameters.map fun x => ρ x.name).map ν₁.locals := List.map_map.symm
    rw [hvs, hmap, hinstance.map_parameters, List.map_map]
    apply List.map_congr_left
    intro r hr
    refine (hothers r.2 fun hmem => ?_).symm
    -- The variables of the arguments are none of those for the values returned.
    have hall := hinstance.map_innerNames.nodup_iff.1 hnodup
    rw [List.nodup_append] at hall
    have hnew : r.2 ∈ replacements.map Prod.snd := List.mem_map.2 ⟨r, hr, rfl⟩
    exact hall.2.2 r.2 hmem r.2 (List.mem_append_left _ hnew) rfl
  have hreturns : ∀ x ∈ g.returns, ν₁.locals (ρ x.name) = some m.zero := by
    intro x hx
    have hmem : ρ x.name ∈ xs.map Binder.name := by
      rw [← hinstance.map_returns]
      exact List.mem_map.2 ⟨x, hx, rfl⟩
    obtain ⟨y, hy, hname⟩ := List.mem_map.1 hmem
    rw [← hname]
    exact hzeros y hy
  have hempty : (copyLink ρ g host ν₁.locals).Sees { c₁ with vars := [] }
      ⟨fun _ => none, μ.world⟩ ν₁ := by
    refine ⟨hworld.trans hworld₁.symm, hhost, List.forall_mem_nil _, ?_, fun _ _ => rfl⟩
    intro x hx
    have hx : x ∈ external := hsite.host ▸ hx
    refine ⟨rfl, ?_⟩
    rw [hothers x fun hmem => hforeign x (htargets hmem) hx, hexternal x hx]
  have hframe := frame_agree (hinstance.allows hsite hg hnodup hforeign host ν₁.locals)
    (List.Subset.refl _) hbound hinner hinstance.functions hbody hparameters hreturns hempty
  have htarget : Stmt.execAll bound' calls' (xs.map (zeroDeclaration zeros) ++
      [.block ⟨span, (g.body.rename ρ).statements⟩]) ν =
        (g.body.rename ρ).exec bound' calls' ν₁ := by
    rw [Stmt.execAll_append, hexec]
    change (⟨span, (g.body.rename ρ).statements⟩ : Block).exec bound' calls' ν₁ >>= pure = _
    rw [bind_pure, exec_withSpan]
  rcases hcalls vs μ.world with ⟨hside, hnone⟩ | hcall
  . refine .of_missing hside ?_
    change calls g.name vs μ.world >>= _ = none
    have hnone : calls g.name vs μ.world = none := hnone
    rw [hnone]
    rfl
  . have hagree := call_agree hcall hframe (S := fun ws μ₁ _ ν₂ =>
      Keeps host (g.innerNames.map ρ) μ ν μ₁ ν₂ ∧ ws.map some = xs.map fun x => ν₂.locals x.name) ?_
    . unfold Agree at hagree ⊢
      rwa [htarget]
    . rintro ws μ₂ _ ν₂ ⟨hsees, hws⟩
      refine ⟨⟨hsees.world, hsees.host, rfl, fun y hy => ?_⟩, ?_⟩
      . rw [hsees.kept y hy]
        exact hothers y fun hmem => hy (htargets hmem)
      . have hmap : (xs.map fun x => ν₂.locals x.name) = (xs.map Binder.name).map ν₂.locals :=
          List.map_map.symm
        rw [hws, hmap, ← hinstance.map_returns, List.map_map]
        rfl

theorem expandCall_simulates (hp : Site p external c)
    (hlinked : Linked side host bound p external c calls calls') (hbound : side.Within bound bound')
    (hf : f ∈ p.functions) (hhead : f.head ∈ c.functions)
    (hbody : f.body.Valid (c.enterFunction (f.parameters ++ f.returns))) {span : Span} (zeros : Span)
    {count : Nat} {es : List Expr} {staged : Pass (List Staged)} {st st' : State}
    (hstaged : ∀ rs st₁, staged st = .ok rs st₁ → rs.length = count ∧
      List.Forall₂ (Simulates side host bound' calls calls' c) es rs ∧
      st.supply.Grows st₁.supply (rs.flatMap (Stmt.allBoundNames ·.before)))
    {xs : List Binder} (hreturns : f.returns.length = xs.length)
    (hnodup : (xs.map Binder.name).Nodup) (hused : xs.map Binder.name ⊆ st.supply.used)
    (hforeign : ∀ x ∈ xs.map Binder.name, x ∉ external) (hvisible : Visible c st)
    {before : List Stmt} {body : Block}
    (h : expandCall f span count staged (xs.map Binder.name) st = .ok (before, body) st')
    {μ ν : Memory m} (hsees : (Embedding.plain host).Sees c μ ν) :
    Agree side
      (fun vs μ₁ _ ν₁ => Keeps host (Stmt.allBoundNames (spliced before zeros xs body)) μ ν μ₁ ν₁ ∧
        vs.map some = xs.map fun x => ν₁.locals x.name)
      (do let vs ← Expr.evalAll calls es; Run.call calls f.name vs) μ
      (Stmt.execAll bound' calls' (spliced before zeros xs body)) ν := by
  have htargets : f.returns.length = (xs.map Binder.name).length := by
    rw [List.length_map, hreturns]
  obtain ⟨hcount, rs, st₁, replacements, st₂, ρ, hrs, hbind, rfl, hinstance, hgrows₂⟩ :=
    expandCall_eq_ok hp.toPlace hf hbody htargets (fun rs st₁ hrs => (hstaged rs st₁ hrs).1) h
  obtain ⟨hlength, hsim, hgrows⟩ := hstaged rs st₁ hrs
  obtain ⟨_, hgrows₁, hperm⟩ := bindArguments_eq_ok hbind
  have hlengths : f.parameters.length = rs.length := hcount.trans hlength.symm
  have hflat := flatMap_snd_zip hlengths (Stmt.allBoundNames ·.before)
  rw [← List.map_snd_zip (Nat.le_of_eq hlengths.symm)] at hsim
  have hagree := bindArguments_simulates hsim (hflat ▸ hgrows.names_subset)
    (hflat ▸ hvisible.hidden hgrows) (hvisible.grows hgrows) hbind hsees
  -- All names of the copy differ: those of the targets were in use, and all others are new.
  have hnew : ∀ x ∈ replacements.map Prod.snd ++ f.body.boundNames.map ρ, x ∉ st.supply.used :=
    fun x hx hmem => (hgrows₁.trans hgrows₂).notMem hx (hgrows.subset hmem)
  have hinner := hinstance.map_innerNames
  have hnodup' : (f.innerNames.map ρ).Nodup := by
    rw [hinner.nodup_iff, List.nodup_append]
    refine ⟨hnodup, (hgrows₁.trans hgrows₂).nodup, fun x hx y hy hxy => ?_⟩
    exact hnew y hy (hxy ▸ hused hx)
  have hforeign' : ∀ x ∈ f.innerNames.map ρ, x ∉ external := by
    intro x hx hexternal
    rcases List.mem_append.1 (hinner.mem_iff.1 hx) with hx | hx
    . exact hforeign x hx hexternal
    . exact hnew x hx (hvisible x (.inr (hp.host.symm ▸ hexternal)))
  rw [hflat] at hperm
  have hall : Stmt.allBoundNames before ++ f.innerNames.map ρ ⊆ Stmt.allBoundNames
      (spliced before zeros xs ⟨span, (f.body.rename ρ).statements⟩) := by
    rw [allBoundNames_spliced, boundNames_withSpan,
      f.body.boundNames_rename hinstance.functions hinstance.stackForms]
    intro x hx
    simp only [List.mem_append, hinner.mem_iff, hperm.mem_iff] at hx ⊢
    tauto
  unfold spliced at hall ⊢
  rw [List.append_assoc] at hall ⊢
  -- First the arguments, then the copy in place of the call.
  refine hagree.append ?_
  rintro vs μ₁ ν₁ ⟨hkeeps, hvalues⟩
  have hsees₁ : (Embedding.plain host).Sees c μ₁ ν₁ := by
    refine hkeeps.sees_plain hsees fun x hx => ?_
    rw [hperm.mem_iff, List.mem_append] at hx
    rcases hx with hx | hx
    . exact hvisible.hidden hgrows x hx
    . exact (hvisible.grows hgrows).hidden hgrows₁ x hx
  have hhost : ∀ x ∈ external, ν₁.locals x = none := by
    intro x hx
    rw [← hp.host] at hx
    exact (hsees₁.external x hx).2
  have hcopy := copy_simulates hlinked hbound hp.nodup hf hhead hinstance hnodup' hforeign'
    hkeeps.world hkeeps.host hhost hvalues span zeros
  refine hcopy.imp ?_
  rintro ws μ₂ _ ν₂ ⟨hkeeps₂, hws⟩
  exact ⟨(hkeeps.trans hkeeps₂).subset hall, hws⟩

end

end Inlining
end Splice
