import Splice.Proofs.Inline.Fits
import Splice.Proofs.Semantics.Movable
import Splice.Proofs.Semantics.Stages

/-!
This module contains the proof that the arguments of a call are computed in their order, wherever
they are put: in variables in front of the call, or partly so.
-/

namespace Splice
namespace Inlining

open Run

variable {m : Machine} {side : Side} {host : String → m.Value} {bound : Nat}
variable {calls calls' : Calls m} {c : Context}

def Simulates (side : Side) (host : String → m.Value) (bound : Nat) (calls calls' : Calls m)
    (c : Context) (e : Expr) (r : Staged) : Prop :=
  ∀ μ ν, (Embedding.plain host).Sees c μ ν →
    Stages side host bound calls' (Stmt.allBoundNames r.before) (e.eval calls) μ ν r.before
      (r.expr.eval calls')

/-! ## Variables for values -/

section

variable {names : List String} {μ ν : Memory m} {e : Expr} {r : Staged}

theorem evalOne_stages
    (h : Stages side host bound calls' names (e.eval calls) μ ν r.before (r.expr.eval calls')) :
    Stages side host bound calls' names (e.evalOne calls) μ ν r.before (r.expr.evalOne calls') :=
  h.bind fun _ _ _ hkeeps => .one hkeeps.world hkeeps.host

theorem declareOne (x : Binder) {vs : List m.Value} :
    Agree side (fun v μ₁ _ ν₁ => μ₁ = μ ∧ ν₁ = ν.declare x.name v) (one vs) μ
      (declareAll [x] vs) ν := by
  match vs with
  | [] => exact .stuck
  | [v] => exact Matches.done ⟨rfl, rfl⟩
  | _ :: _ :: _ => exact .stuck

theorem moved_agree
    (h : Stages side host bound calls' names (e.eval calls) μ ν r.before (r.expr.eval calls'))
    (span : Span) (x : Binder) :
    Agree side
      (fun v μ₁ _ ν₁ => Keeps host (names ++ [x.name]) μ ν μ₁ ν₁ ∧ ν₁.locals x.name = some v)
      (e.evalOne calls) μ (Stmt.execAll bound calls' (moved span r x)) ν := by
  have hexec : Stmt.execAll bound calls' (moved span r x) ν =
      (do
        let vs ← (do Stmt.execAll bound calls' r.before; r.expr.eval calls')
        declareAll [x] vs : Run m Unit) ν := by
    unfold moved
    rw [Stmt.execAll_append]
    change Stmt.execAll bound calls' r.before ν >>= (fun a =>
        (r.expr.eval calls' a.2 >>= fun b => declareAll [x] b.1 b.2) >>= pure) =
      (Stmt.execAll bound calls' r.before ν >>= fun a => r.expr.eval calls' a.2) >>= fun b =>
        declareAll [x] b.1 b.2
    simp only [bind_pure, bind_assoc]
  have hagree : Agree side
      (fun v μ₁ _ ν₁ => Keeps host (names ++ [x.name]) μ ν μ₁ ν₁ ∧ ν₁.locals x.name = some v)
      (e.evalOne calls) μ (do
        let vs ← (do Stmt.execAll bound calls' r.before; r.expr.eval calls')
        declareAll [x] vs) ν := by
    refine h.agree.bind ?_
    rintro vs μ₁ _ ν₁ ⟨rfl, hkeeps⟩
    refine (declareOne x).imp ?_
    rintro v _ _ _ ⟨rfl, rfl⟩
    refine ⟨⟨hkeeps.world, hkeeps.host, hkeeps.locals, ?_⟩, if_pos rfl⟩
    intro y hy
    rw [List.mem_append, List.mem_singleton, not_or] at hy
    exact (if_neg hy.2).trans (hkeeps.others y hy.1)
  unfold Agree at hagree ⊢
  rwa [hexec]

theorem moved_stages
    (h : Stages side host bound calls' names (e.eval calls) μ ν r.before (r.expr.eval calls'))
    (span use : Span) (x : Binder) :
    Stages side host bound calls' (names ++ [x.name]) (e.evalOne calls) μ ν (moved span r x)
      ((Expr.identifier ⟨use, x.name⟩).evalOne calls') := by
  refine Reaches.of_matches (moved_agree h span x) ?_
  rintro ⟨v, μ₁⟩ ⟨_, ν₁⟩ hv ⟨hkeeps, hx⟩
  refine ⟨hkeeps.leaves, ?_⟩
  have hread : ν₁.read x.name = v := by
    unfold Memory.read
    rw [hx]
    rfl
  unfold Agree
  rw [hv]
  exact .done ⟨hread.symm, hkeeps⟩

end

/-! ## Arguments of a call that stays -/

section

variable {names names' : List String} {μ ν : Memory m} {e e' : Expr} {es es' : List Expr}
variable {ss ts : List Stmt}

theorem cons_stages {c' : Context}
    (hes : Stages side host bound calls' names (Expr.evalAll calls es) μ ν ss
      (Expr.evalAll calls' es'))
    (hmovable : Expr.allMovable es' = true) (hsingle : Expr.AllSingle c' es')
    (hapart : ∀ x, c'.Readable x → x ∉ names')
    (he : ∀ μ₁ ν₁, Keeps host names μ ν μ₁ ν₁ →
      Stages side host bound calls' names' (e.evalOne calls) μ₁ ν₁ ts (e'.evalOne calls')) :
    Stages side host bound calls' (names ++ names') (Expr.evalAll calls (e :: es)) μ ν (ss ++ ts)
      (Expr.evalAll calls' (e' :: es')) := by
  rw [Expr.evalAll_cons]
  refine hes.append (fun ν₁ => Expr.evalAll_of_allMovable calls' ν₁ es' hmovable) ?_
  intro μ₁ ν₁ hkeeps
  have hcons := (he μ₁ ν₁ hkeeps).bind (f := fun v => pure (v :: Expr.allValues ν₁ es'))
    (g := fun v => pure (v :: Expr.allValues ν₁ es')) fun v μ₂ ν₂ hkeeps₂ =>
      .done ⟨rfl, .refl hkeeps₂.world hkeeps₂.host⟩
  refine hcons.congr fun ν₂ hleaves => ?_
  -- The statements do not change what the arguments behind them depend on.
  have hvalues : Expr.allValues ν₁ es' = Expr.allValues ν₂ es' := by
    refine Expr.allValues_congr (fun x hx => ?_) es' hsingle
    exact hleaves.read hkeeps.leaves.host (hapart x hx)
  rw [Expr.evalAll_cons]
  change _ = Expr.evalAll calls' es' ν₂ >>= _
  rw [Expr.evalAll_of_allMovable calls' ν₂ es' hmovable, hvalues]
  rfl

theorem cons_stages_nil
    (hes : Stages side host bound calls' names (Expr.evalAll calls es) μ ν ss
      (Expr.evalAll calls' es'))
    (he : ∀ μ₁ ν₁, Keeps host names μ ν μ₁ ν₁ →
      Agree side (Evaluated host [] μ₁ ν₁) (e.evalOne calls) μ₁ (e'.evalOne calls') ν₁) :
    Stages side host bound calls' names (Expr.evalAll calls (e :: es)) μ ν ss
      (Expr.evalAll calls' (e' :: es')) := by
  rw [Expr.evalAll_cons, Expr.evalAll_cons]
  refine hes.bind fun vs μ₁ ν₁ hkeeps => ?_
  refine (he μ₁ ν₁ hkeeps).evaluated_bind fun v μ₂ ν₂ hkeeps₂ => ?_
  exact .done ⟨rfl, .refl hkeeps₂.world hkeeps₂.host⟩

def Visible (c : Context) (st : State) : Prop :=
  ∀ x, c.Readable x → x ∈ st.supply.used

namespace Visible

variable {st st' : State}

theorem grows (h : Visible c st) (hgrows : st.supply.Grows st'.supply names) : Visible c st' :=
  fun x hx => hgrows.subset (h x hx)

theorem hidden (h : Visible c st) (hgrows : st.supply.Grows st'.supply names) :
    ∀ x ∈ names, ¬ c.Readable x :=
  fun x hx hreadable => hgrows.notMem hx (h x hreadable)

end Visible

theorem readable_after {x : String} (hx : (c.after ss).Readable x) :
    c.Readable x ∨ x ∈ Stmt.allBoundNames ss := by
  rw [c.after_eq] at hx
  rcases hx with hx | hx
  . rcases (c.mem_vars_after ss).1 hx with hx | hx
    . rw [(Stmt.allBoundNames_perm ss).mem_iff, List.mem_append]
      exact .inr (.inr (Stmt.allDeclared_subset ss hx))
    . exact .inl (.inl hx)
  . exact .inl (.inr hx)

/--
The arguments of a call that stays are computed in their order. Where something runs before one of
them, those behind it are movable.
-/
theorem hoistArguments_simulates {dialect : Dialect} {callee : String} {earlier : Bool}
    {rs : List Staged} (hsim : List.Forall₂ (Simulates side host bound calls calls' c) es rs)
    (hfits : ∀ r ∈ rs, Fits c 1 r) {st st' : State}
    (hnodup : (rs.flatMap (Stmt.allBoundNames ·.before)).Nodup)
    (hused : rs.flatMap (Stmt.allBoundNames ·.before) ⊆ st.supply.used)
    (hhidden : ∀ x ∈ rs.flatMap (Stmt.allBoundNames ·.before), ¬ c.Readable x)
    (hvisible : Visible c st)
    (h : hoistArguments dialect callee earlier rs st = .ok (ss, es') st') :
    (earlier = true → Expr.allMovable es' = true) ∧
    ∀ μ ν, (Embedding.plain host).Sees c μ ν → Stages side host bound calls' (Stmt.allBoundNames ss)
      (Expr.evalAll calls es) μ ν ss (Expr.evalAll calls' es') := by
  induction hsim generalizing earlier ss es' st' with
  | nil =>
    simp only [hoistArguments, pure_eq_ok, Prod.mk.injEq] at h
    obtain ⟨⟨rfl, rfl⟩, rfl⟩ := h
    refine ⟨fun _ => rfl, fun μ ν hsees => ?_⟩
    exact .nil (.done ⟨rfl, .refl hsees.world hsees.host⟩) (hsees.world ▸ hsees.host)
  | @cons e r es rs he _ ih =>
    rw [List.forall_mem_cons] at hfits
    rw [List.flatMap_cons] at hnodup hused hhidden
    rw [List.nodup_append] at hnodup
    rw [List.append_subset] at hused
    rw [List.forall_mem_append] at hhidden
    obtain ⟨ss', es₁, st₁, hrest, hcases⟩ := hoistArguments_cons h
    obtain ⟨hmovable, hstages⟩ := ih hfits.2 hnodup.2.1 hused.2 hhidden.2 hrest
    obtain ⟨_, hprepares, names, hgrows, hperm⟩ := hoistArguments_eq_ok hfits.2 hrest
    have hreadable : ∀ x, (c.after ss').Readable x → c.Readable x ∨
        x ∈ rs.flatMap (Stmt.allBoundNames ·.before) ∨ x ∈ names := by
      intro x hx
      refine (readable_after hx).imp_right fun hbound => ?_
      exact List.mem_append.1 (hperm.mem_iff.1 hbound)
    -- What the other arguments depend on is not bound by what runs before this one.
    have hapart : ∀ x, (c.after ss').Readable x → x ∉ Stmt.allBoundNames r.before := by
      intro x hx hmem
      rcases hreadable x hx with hx | hx | hx
      . exact hhidden.1 x hmem hx
      . exact hnodup.2.2 x hmem x hx rfl
      . exact hgrows.notMem hx (hused.1 hmem)
    have hvisible' : Visible (c.after ss') st₁ := by
      intro x hx
      rcases hreadable x hx with hx | hx | hx
      . exact hgrows.subset (hvisible x hx)
      . exact hgrows.subset (hused.2 hx)
      . exact hgrows.names_subset hx
    have hsingle : Expr.AllSingle (c.after ss') es₁ := hprepares.ready c (.refl c)
    have hrun : ∀ μ ν μ₁ ν₁, (Embedding.plain host).Sees c μ ν →
        Keeps host (Stmt.allBoundNames ss') μ ν μ₁ ν₁ → (Embedding.plain host).Sees c μ₁ ν₁ := by
      intro μ ν μ₁ ν₁ hsees hkeeps
      refine hkeeps.sees_plain hsees fun x hx => ?_
      rw [hperm.mem_iff, List.mem_append] at hx
      exact hx.elim (hhidden.2 x) (hvisible.hidden hgrows x)
    rcases hcases with ⟨hmove, x, hgrows', rfl, rfl⟩ | ⟨hstay, _, rfl, rfl⟩
    . rw [Bool.and_eq_true] at hmove
      have hes₁ : Expr.allMovable es₁ = true := hmovable (by rw [hmove.1]; rfl)
      refine ⟨fun _ => hes₁, fun μ ν hsees => ?_⟩
      rw [Stmt.allBoundNames_append, allBoundNames_moved]
      refine cons_stages (hstages μ ν hsees) hes₁ hsingle ?_ fun μ₁ ν₁ hkeeps => ?_
      . intro y hy hmem
        rcases List.mem_append.1 hmem with hmem | hmem
        . exact hapart y hy hmem
        . exact hgrows'.notMem hmem (hvisible' y hy)
      . exact moved_stages (he μ₁ ν₁ (hrun μ ν μ₁ ν₁ hsees hkeeps)) _ _ x
    . have hes : earlier = true → Expr.allMovable (r.expr :: es₁) = true := by
        intro hearlier
        rw [hearlier] at hstay hmovable
        unfold Expr.allMovable
        rw [hmovable rfl, Bool.and_true]
        simpa using hstay
      refine ⟨hes, fun μ ν hsees => ?_⟩
      have hfirst := fun μ₁ ν₁ hkeeps => evalOne_stages (he μ₁ ν₁ (hrun μ ν μ₁ ν₁ hsees hkeeps))
      cases hbefore : r.before with
      | nil =>
        rw [List.append_nil]
        refine cons_stages_nil (hstages μ ν hsees) fun μ₁ ν₁ hkeeps => ?_
        have hagree := (hfirst μ₁ ν₁ hkeeps).agree
        rw [hbefore] at hagree
        exact hagree
      | cons s ss =>
        have hes₁ : Expr.allMovable es₁ = true := by
          apply hmovable
          rw [hbefore]
          exact Bool.or_true earlier
        rw [← hbefore, Stmt.allBoundNames_append]
        exact cons_stages (hstages μ ν hsees) hes₁ hsingle hapart hfirst

end

/-! ## Arguments of a call that is replaced -/

theorem bindArguments_simulates {callee : String} {span : Span} {es : List Expr}
    {pairs : List (Binder × Staged)}
    (hsim : List.Forall₂ (Simulates side host bound calls calls' c) es (pairs.map Prod.snd))
    {ss : List Stmt} {replacements : List (String × String)} {st st' : State}
    (hused : pairs.flatMap (fun pair => Stmt.allBoundNames pair.2.before) ⊆ st.supply.used)
    (hhidden : ∀ x ∈ pairs.flatMap (fun pair => Stmt.allBoundNames pair.2.before), ¬ c.Readable x)
    (hvisible : Visible c st)
    (h : bindArguments callee span pairs st = .ok (ss, replacements) st') {μ ν : Memory m}
    (hsees : (Embedding.plain host).Sees c μ ν) :
    Agree side
      (fun vs μ₁ _ ν₁ => Keeps host (Stmt.allBoundNames ss) μ ν μ₁ ν₁ ∧
        vs.map some = replacements.map fun r => ν₁.locals r.2)
      (Expr.evalAll calls es) μ (Stmt.execAll bound calls' ss) ν := by
  induction pairs generalizing es ss replacements st' with
  | nil =>
    simp only [bindArguments, pure_eq_ok, Prod.mk.injEq] at h
    obtain ⟨⟨rfl, rfl⟩, rfl⟩ := h
    cases hsim
    exact .done ⟨.refl hsees.world hsees.host, rfl⟩
  | cons pair rest ih =>
    obtain ⟨ss', replacements', st₁, x, hrest, hgrows, rfl, rfl⟩ := bindArguments_cons h
    obtain ⟨_, hgrows', hperm⟩ := bindArguments_eq_ok hrest
    rw [List.flatMap_cons] at hused hhidden
    rw [List.append_subset] at hused
    rw [List.forall_mem_append] at hhidden
    obtain _ | ⟨he, hes⟩ := hsim
    rw [Expr.evalAll_cons, Stmt.allBoundNames_append, allBoundNames_moved]
    refine (ih hes hused.2 hhidden.2 hrest).append ?_
    rintro vs μ₁ ν₁ ⟨hkeeps, hvalues⟩
    have hsees₁ : (Embedding.plain host).Sees c μ₁ ν₁ := by
      refine hkeeps.sees_plain hsees fun y hy => ?_
      rw [hperm.mem_iff, List.mem_append] at hy
      exact hy.elim (hhidden.2 y) (hvisible.hidden hgrows' y)
    refine (moved_agree (he μ₁ ν₁ hsees₁) span x).map_left ?_
    rintro v μ₂ _ ν₂ ⟨hkeeps₂, hx⟩
    refine ⟨hkeeps.trans hkeeps₂, ?_⟩
    rw [List.map_cons, List.map_cons, hx, hvalues]
    -- The variables of the other arguments keep their values.
    congr 1
    apply List.map_congr_left
    intro r hr
    have hname : r.2 ∈ replacements'.map Prod.snd := List.mem_map.2 ⟨r, hr, rfl⟩
    refine (hkeeps₂.others r.2 fun hmem => ?_).symm
    rcases List.mem_append.1 hmem with hmem | hmem
    . exact hgrows'.notMem hname (hused.1 hmem)
    . exact hgrows.notMem hmem (hgrows'.names_subset hname)

end Inlining
end Splice
