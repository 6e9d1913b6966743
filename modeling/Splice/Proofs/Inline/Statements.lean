import Splice.Proofs.Inline.Expressions

/-!
This module contains the proof that the pass that inlines keeps what statements, blocks and
functions do.
-/

namespace Splice

open Run

variable {m : Machine} {side : Side}

/-! ## Runs that go on -/

theorem Agree.andThen_left {α β γ : Type} {R : α → Memory m → β → Memory m → Prop}
    {S : γ → Memory m → β → Memory m → Prop} {x : Run m α} {y : Run m β} {μ ν : Memory m}
    (h : Agree side R x μ y ν) {f : α → Run m γ}
    (hf : ∀ a μ₁ b ν₁, R a μ₁ b ν₁ → ∃ r, f a μ₁ = pure r ∧ S r.1 r.2 b ν₁) :
    Agree side S (x >>= f) μ y ν := by
  have hbind := h.bind (f := f) (g := pure) (S := S) fun a μ₁ b ν₁ hR => by
    obtain ⟨r, hr, hS⟩ := hf a μ₁ b ν₁ hR
    unfold Agree
    rw [hr]
    exact .done hS
  rwa [bind_pure] at hbind

theorem Stages.statement {α : Type} {host : String → m.Value} {bound : Nat} {calls : Calls m}
    {names : List String} {x y : Run m α} {μ ν : Memory m} {ss : List Stmt}
    (h : Stages side host bound calls names x μ ν ss y) {s : Stmt} {f g : α → Run m Unit}
    (hs : s.exec bound calls = y >>= g) {S : Unit → Memory m → Unit → Memory m → Prop}
    (hfg : ∀ a μ₁ ν₁, Keeps host names μ ν μ₁ ν₁ → Agree side S (f a) μ₁ (g a) ν₁) :
    Agree side S (x >>= f) μ (Stmt.execAll bound calls (ss ++ [s])) ν := by
  have hexec : Stmt.execAll bound calls (ss ++ [s]) ν =
      ((do Stmt.execAll bound calls ss; y) >>= g) ν := by
    rw [Stmt.execAll_append]
    change Stmt.execAll bound calls ss ν >>= (fun r => (s.exec bound calls >>= pure) r.2) =
      (Stmt.execAll bound calls ss ν >>= fun r => y r.2) >>= fun r => g r.1 r.2
    rw [hs, bind_pure, bind_assoc]
    rfl
  have hagree := h.agree.bind (f := f) (g := g) (S := S) fun a μ₁ b ν₁ hR => by
    obtain ⟨rfl, hkeeps⟩ := hR
    exact hfg a μ₁ ν₁ hkeeps
  unfold Agree at hagree ⊢
  rwa [hexec]

namespace Inlining

variable {host : String → m.Value} {bound bound' : Nat} {external : List String}
variable {p : Block} {c : Context}

def InUse (p : Block) (external : List String) (st : State) : Prop :=
  ∀ x, x ∈ p.boundNames ∨ x ∈ external → x ∈ st.supply.used

namespace InUse

variable {st st' : State}

theorem grows (h : InUse p external st) {names : List String}
    (hgrows : st.supply.Grows st'.supply names) : InUse p external st' :=
  fun x hx => hgrows.subset (h x hx)

theorem visible (h : InUse p external st) (hp : Site p external c) : Visible c st := by
  rintro x (hx | hx)
  . exact h x (.inl (hp.vars hx))
  . exact h x (.inr (hp.host ▸ hx))

theorem adds (h : InUse p external st) {names names' : List String}
    (hadds : Adds st st' names names') : InUse p external st' := by
  obtain ⟨_, hgrows, _⟩ := hadds
  exact h.grows hgrows

end InUse

theorem Site.allows (hp : Site p external c) (host : String → m.Value) :
    (Embedding.plain host).Allows c p.boundNames where
  injective _ _ _ _ h := h
  host _ _ := rfl
  foreign x hx := ⟨hp.foreign x hx, hp.foreign x hx⟩
  free _ _ := id
  vars := hp.vars
  assignable := hp.fixed
  stackForms := hp.stackForms

/-! ## Functions of a block -/

theorem closures_append (bound : Nat) (ss ts : List Stmt) :
    (Stmt.closures bound (ss ++ ts) : List (Calls.Closure m)) =
      Stmt.closures bound ss ++ Stmt.closures bound ts := by
  induction ss with
  | nil => rfl
  | cons s ss ih =>
    cases s with
    | function f =>
      obtain ⟨f, body⟩ := f
      exact congrArg (_ :: ·) ih
    | _ => exact ih

theorem closures_eq_nil {ss : List Stmt} (h : ∀ c : Context, (c.enter ss).functions = c.functions)
    (bound : Nat) : (Stmt.closures bound ss : List (Calls.Closure m)) = [] := by
  cases hclosures : (Stmt.closures bound ss : List (Calls.Closure m)) with
  | nil => rfl
  | cons F closures =>
    have hlookup : (Stmt.closures bound ss : List (Calls.Closure m)).lookup F.1 = some F.2 := by
      rw [hclosures, List.lookup_cons, beq_self_eq_true]
    obtain ⟨f, body, hmem, _⟩ := lookup_closures hlookup
    have hhead := Context.head_mem_functions_enter (c := ⟨[], [], false, false, [], [], []⟩) hmem
    rw [h] at hhead
    contradiction

theorem Replaces.closures_eq_nil {x : Stmt} {ss : List Stmt} (h : Replaces c [x] ss)
    (hx : ∀ c' : Context, c'.announce x = c') (bound : Nat) :
    (Stmt.closures bound ss : List (Calls.Closure m)) = [] := by
  refine Inlining.closures_eq_nil (fun c' => ?_) bound
  rw [h.enter]
  exact congrArg Context.functions (hx c')

theorem invoke_agree (hp : Site p external c) {f : Signature}
    (hf : (f.parameters ++ f.returns).map Binder.name ⊆ p.boundNames) {body body' : Run m Unit}
    (hbody : ∀ μ ν, (Embedding.plain host).Sees (c.enterFunction (f.parameters ++ f.returns)) μ ν →
      Agree side (fun _ μ₁ _ ν₁ =>
        (Embedding.plain host).Sees (c.enterFunction (f.parameters ++ f.returns)) μ₁ ν₁)
        body μ body' ν)
    (arguments : List m.Value) (world : World m) (hworld : world.host = host) :
    Matches side (fun a b => a = b ∧ a.2.host = host) (invoke f body arguments world)
      (invoke f body' arguments world) := by
  rw [List.map_append, List.append_subset] at hf
  have hp₀ : Site p external (c.enterFunction []) := hp.enterFunction (List.nil_subset _)
  have hempty : (Embedding.plain host).Sees (c.enterFunction []) ⟨fun _ => none, world⟩
      ⟨fun _ => none, world⟩ :=
    ⟨rfl, hworld, List.forall_mem_nil _, fun _ _ => ⟨rfl, rfl⟩, fun _ => False.elim⟩
  have hframe : Agree side
      (fun vs μ₁ vs' ν₁ => vs = vs' ∧ μ₁.world = ν₁.world ∧ μ₁.world.host = host)
      (frame f body arguments) ⟨fun _ => none, world⟩ (frame f body' arguments)
      ⟨fun _ => none, world⟩ := by
    refine (Agree.declareAll (hp₀.allows host) rfl hf.1 hempty).bind fun _ μ₁ _ ν₁ h₁ => ?_
    have hp₁ := hp₀.declare hf.1
    refine (Agree.declareAll (hp₁.allows host) rfl hf.2 h₁).bind fun _ μ₂ _ ν₂ h₂ => ?_
    have hctx : ((c.enterFunction []).declare f.parameters).declare f.returns =
        c.enterFunction (f.parameters ++ f.returns) :=
      (Context.declare_append _ _ _).symm
    rw [hctx] at h₂
    refine (hbody μ₂ ν₂ h₂).bind fun _ μ₃ _ ν₃ h₃ => ?_
    unfold Agree
    rw [readAll_eq, readAll_eq]
    refine .done ⟨?_, h₃.world, h₃.host⟩
    apply List.map_congr_left
    intro x hx
    refine h₃.read (fun _ _ => rfl) (.inl ?_)
    unfold Context.enterFunction
    rw [Context.mem_vars_declare, List.map_append]
    exact .inl (List.mem_append_right _ (List.mem_map.2 ⟨x, hx, rfl⟩))
  -- Outside of the call, only the world is left of the run.
  refine Matches.bind hframe ?_
  rintro ⟨vs, μ₁⟩ ⟨_, ν₁⟩ ⟨rfl, hworlds, hhost⟩
  exact .done ⟨congrArg (vs, ·) hworlds, hhost⟩

/-! ## Single statements -/

section

variable {s : Setting} {calls calls' : Calls m} {st st' : State} {before : List Stmt} {x' : Stmt}
variable {μ ν : Memory m}

theorem expand_simulates (hp : Site s.program external c)
    (hlinked : Linked side host bound s.program external c calls calls')
    (hbound : side.Within bound bound') {e : Expr} {n : Nat} (hy : e.Yields c n) {t : Target}
    (hcall : s.call? e = some t) {xs : List Binder} (hreturns : t.f.returns.length = xs.length)
    (hnodup : (xs.map Binder.name).Nodup) (hused : xs.map Binder.name ⊆ st.supply.used)
    (hforeign : ∀ x ∈ xs.map Binder.name, x ∉ external) (hvisible : Visible c st) {body : Block}
    (h : expand s t (xs.map Binder.name) st = .ok (before, body) st') (zeros : Span)
    (hsees : (Embedding.plain host).Sees c μ ν) :
    Agree side
      (fun vs μ₁ _ ν₁ => Keeps host (Stmt.allBoundNames (spliced before zeros xs body)) μ ν μ₁ ν₁ ∧
        vs.map some = xs.map fun x => ν₁.locals x.name)
      (e.eval calls) μ (Stmt.execAll bound' calls' (spliced before zeros xs body)) ν := by
  obtain ⟨hmem, _, hbody, harguments⟩ := call_target hp.toPlace hy hcall
  obtain ⟨rfl, htarget⟩ := call?_eq_some hcall
  obtain ⟨_, hname, _⟩ := hp.toPlace.target hy.1 htarget
  have hagree := expandCall_simulates hp hlinked hbound hmem
    (target_head hp.toPlace hy.1 htarget) hbody zeros
    (fun rs st₁ hrs =>
      have hfit := exprs_fit hp.toPlace t.arguments harguments hrs
      ⟨hfit.1, exprs_simulate hp hlinked hbound t.arguments harguments hvisible hrs, hfit.2.2⟩)
    hreturns hnodup hused hforeign hvisible h hsees
  rwa [hname] at hagree

theorem expressionStmt_simulates (hp : Site s.program external c)
    (hlinked : Linked side host bound s.program external c calls calls')
    (hbound : side.Within bound bound') {e : Expr} (hy : e.Yields c 0) (hvisible : Visible c st)
    (h : expressionStmt s e st = .ok (before, x') st')
    (hsees : (Embedding.plain host).Sees c μ ν) :
    Agree side (fun _ μ₁ _ ν₁ => (Embedding.plain host).Sees c μ₁ ν₁)
      ((Stmt.expression e).exec bound calls) μ
      (Stmt.execAll bound' calls' (before ++ [x'])) ν := by
  rcases expressionStmt_eq_ok h with ⟨r, hr, rfl, rfl⟩ |
    ⟨t, xs, st₁, before', body, hcall, hlength, hgrows, hexpand, hall⟩
  . obtain ⟨_, hgrows⟩ := expr_fits hp.toPlace e hy hr
    have hstages := expr_simulates hp hlinked hbound e hy hvisible hr μ ν hsees
    refine hstages.statement rfl fun vs μ₁ ν₁ hkeeps => ?_
    exact .nothing (hkeeps.sees_plain hsees (hvisible.hidden hgrows))
  . obtain ⟨_, hreturns, _⟩ := call_target hp.toPlace hy hcall
    obtain rfl := List.length_eq_zero_iff.1 (hlength.symm.trans hreturns)
    have hvisible₁ := hvisible.grows hgrows
    obtain ⟨hgrows', _⟩ := expand_prepares hp.toPlace hy hcall hlength hexpand
    have hagree := expand_simulates hp hlinked hbound hy hcall hlength List.nodup_nil
      (List.nil_subset _) (List.forall_mem_nil _) hvisible₁ hexpand t.span hsees
    rw [hall]
    refine hagree.andThen_left ?_
    rintro vs μ₁ _ ν₁ ⟨hkeeps, hvalues⟩
    obtain rfl := List.map_eq_nil_iff.1 hvalues
    refine ⟨((), μ₁), rfl, hkeeps.sees_plain hsees fun x hx => ?_⟩
    rw [allBoundNames_spliced, List.map_nil, List.append_nil] at hx
    exact hvisible₁.hidden hgrows' x hx

theorem names_allDeclarable {vars : List Binder} (hd : c.AllDeclarable vars) :
    (vars.map Binder.name).Nodup ∧
    ∀ x ∈ vars.map Binder.name, ¬ c.Readable x := by
  induction vars generalizing c with
  | nil => exact ⟨.nil, List.forall_mem_nil _⟩
  | cons x vars ih =>
    obtain ⟨hnodup, hhidden⟩ := ih hd.2
    refine ⟨List.nodup_cons.2 ⟨?_, hnodup⟩, List.forall_mem_cons.2 ⟨?_, ?_⟩⟩
    . exact fun hx => hhidden _ hx (.inl List.mem_cons_self)
    . rintro (hx | hx)
      . exact hd.1.1 hx
      . exact hd.1.2.2.2.1 hx
    . intro y hy hreadable
      refine hhidden y hy (hreadable.imp_left fun hmem => List.mem_cons_of_mem _ hmem)

theorem declarationStmt_simulates (hp : Site s.program external c)
    (hlinked : Linked side host bound s.program external c calls calls')
    (hbound : side.Within bound bound') {span : Span} {vars : List Binder} {value : Expr}
    (hy : value.Yields c vars.length) (hn : vars.map Binder.name ⊆ s.program.boundNames)
    (hd : c.AllDeclarable vars) (hu : InUse s.program external st)
    (h : declarationStmt s span vars value st = .ok (before, x') st')
    (hsees : (Embedding.plain host).Sees c μ ν) :
    Agree side (fun _ μ₁ _ ν₁ => (Embedding.plain host).Sees (c.declare vars) μ₁ ν₁)
      ((Stmt.declaration span vars (some value)).exec bound calls) μ
      (Stmt.execAll bound' calls' (before ++ [x'])) ν := by
  have hvisible := hu.visible hp
  rcases declarationStmt_eq_ok h with ⟨r, hr, rfl, rfl⟩ |
    ⟨t, before', body, hcall, hreturns, hexpand, hall⟩
  . obtain ⟨_, hgrows⟩ := expr_fits hp.toPlace value hy hr
    have hstages := expr_simulates hp hlinked hbound value hy hvisible hr μ ν hsees
    refine hstages.statement rfl fun vs μ₁ ν₁ hkeeps => ?_
    exact .declareAll (hp.allows host) rfl hn (hkeeps.sees_plain hsees (hvisible.hidden hgrows))
  . obtain ⟨hgrows, _⟩ :=
      expand_prepares hp.toPlace hy hcall (by simpa using hreturns) hexpand
    obtain ⟨hnodup, hhidden⟩ := names_allDeclarable hd
    have hforeign : ∀ x ∈ vars.map Binder.name, x ∉ c.external :=
      fun x hx hmem => hhidden x hx (.inr hmem)
    have hforeign' : ∀ x ∈ vars.map Binder.name, x ∉ external := by
      rwa [← hp.host]
    have hused : vars.map Binder.name ⊆ st.supply.used := fun x hx => hu x (.inl (hn hx))
    have hagree := expand_simulates hp hlinked hbound hy hcall hreturns hnodup hused hforeign'
      hvisible hexpand span hsees
    rw [hall]
    refine hagree.andThen_left ?_
    rintro vs μ₁ _ ν₁ ⟨hkeeps, hvalues⟩
    have hsees₁ : (Embedding.plain host).Sees c μ₁ ν₁ := by
      refine hkeeps.sees_plain hsees fun x hx => ?_
      rw [allBoundNames_spliced, List.append_assoc, (List.perm_append_comm_assoc ..).mem_iff,
        List.mem_append] at hx
      exact hx.elim (hhidden x) (hvisible.hidden hgrows x)
    obtain ⟨μ₂, hdeclare, hsees₂⟩ := hsees₁.declareAll_held
      (fun x hx => hforeign x.name (List.mem_map.2 ⟨x, hx, rfl⟩)) hvalues
    exact ⟨((), μ₂), hdeclare, hsees₂⟩

theorem copies_agree (ha : (Embedding.plain host).Allows c p.boundNames) {targets : List Identifier}
    {xs : List Binder} (htargets : ∀ i ∈ targets, i.name ∈ c.vars)
    (hxs : ∀ x ∈ xs.map Binder.name, ¬ c.Readable x) (hlength : xs.length = targets.length)
    (span callSpan : Span) {vs : List m.Value}
    (hvs : vs.map some = xs.map fun x => ν.locals x.name)
    (hsees : (Embedding.plain host).Sees c μ ν) :
    Agree side (fun _ μ₁ _ ν₁ => (Embedding.plain host).Sees c μ₁ ν₁) (assignAll targets vs) μ
      (Stmt.execAll bound' calls' (copies span callSpan targets xs)) ν := by
  induction targets generalizing xs vs μ ν with
  | nil =>
    obtain rfl := List.length_eq_zero_iff.1 hlength
    obtain rfl := List.map_eq_nil_iff.1 hvs
    exact .done hsees
  | cons i targets ih =>
    cases xs with
    | nil => cases hlength
    | cons x xs =>
      cases vs with
      | nil => cases hvs
      | cons v vs =>
        rw [List.map_cons, List.map_cons, List.cons.injEq] at hvs
        rw [List.forall_mem_cons] at htargets
        rw [List.map_cons, List.forall_mem_cons] at hxs
        have hread : ν.read x.name = v := by
          unfold Memory.read
          rw [← hvs.1]
          rfl
        have hnext := hsees.assign ha htargets.1 v
        -- No target is one of the variables that are still to be copied.
        have hothers : ∀ y ∈ xs, (ν.assign i.name v).locals y.name = ν.locals y.name := by
          intro y hy
          have hne : y.name ≠ i.name := by
            rintro heq
            exact hxs.2 y.name (List.mem_map.2 ⟨y, hy, rfl⟩) (.inl (heq ▸ htargets.1))
          unfold Memory.assign
          split
          . exact if_neg hne
          . rfl
        have hvalues := List.map_congr_left fun y hy => (hothers y hy).symm
        have hrest := ih htargets.2 hxs.2 (Nat.succ.inj hlength) (hvs.2.trans hvalues) hnext
        have hexec : Stmt.execAll bound' calls' (copies span callSpan (i :: targets) (x :: xs)) ν =
            Stmt.execAll bound' calls' (copies span callSpan targets xs) (ν.assign i.name v) := by
          rw [← hread]
          rfl
        unfold Agree at hrest ⊢
        rwa [hexec]

theorem assignmentStmt_simulates (hp : Site s.program external c)
    (hlinked : Linked side host bound s.program external c calls calls')
    (hbound : side.Within bound bound') {span : Span} {targets : List Identifier} {value : Expr}
    (hv : (Stmt.assignment span targets value).Valid c) (hvisible : Visible c st)
    (h : assignmentStmt s span targets value st = .ok (before, x') st')
    (hsees : (Embedding.plain host).Sees c μ ν) :
    Agree side (fun _ μ₁ _ ν₁ => (Embedding.plain host).Sees c μ₁ ν₁)
      ((Stmt.assignment span targets value).exec bound calls) μ
      (Stmt.execAll bound' calls' (before ++ [x'])) ν := by
  have htargets : ∀ i ∈ targets, i.name ∈ c.vars := by
    intro i hi
    refine (hv.2.1 i hi).resolve_right ?_
    rw [hp.fixed]
    exact List.not_mem_nil
  rcases assignmentStmt_eq_ok hp.toPlace hv h with ⟨r, hr, rfl, rfl⟩ |
    ⟨t, xs, st₁, before', body, hcall, hreturns, hlength, hgrows, hexpand, hall⟩
  . obtain ⟨_, hgrows⟩ := expr_fits hp.toPlace value hv.1 hr
    have hstages := expr_simulates hp hlinked hbound value hv.1 hvisible hr μ ν hsees
    refine hstages.statement rfl fun vs μ₁ ν₁ hkeeps => ?_
    exact .assignAll (hp.allows host) rfl htargets
      (hkeeps.sees_plain hsees (hvisible.hidden hgrows))
  -- A call that is replaced: its values go to new variables, and from there to the targets.
  . have hvisible₁ := hvisible.grows hgrows
    obtain ⟨hgrows', _⟩ :=
      expand_prepares hp.toPlace hv.1 hcall (by simpa using hreturns) hexpand
    have hhidden := hvisible.hidden hgrows
    have hforeign : ∀ x ∈ xs.map Binder.name, x ∉ external := by
      intro x hx hmem
      rw [← hp.host] at hmem
      exact hhidden x hx (.inr hmem)
    have hagree := expand_simulates hp hlinked hbound hv.1 hcall hreturns hgrows.nodup
      hgrows.names_subset hforeign hvisible₁ hexpand t.span hsees
    rw [hall]
    refine hagree.append ?_
    rintro vs μ₁ ν₁ ⟨hkeeps, hvalues⟩
    have hsees₁ : (Embedding.plain host).Sees c μ₁ ν₁ := by
      refine hkeeps.sees_plain hsees fun x hx => ?_
      rw [allBoundNames_spliced, List.append_assoc, (List.perm_append_comm_assoc ..).mem_iff,
        List.mem_append] at hx
      exact hx.elim (hhidden x) (hvisible₁.hidden hgrows' x)
    exact copies_agree (hp.allows host) htargets hhidden hlength span t.span hvalues hsees₁

end

end Inlining
end Splice
