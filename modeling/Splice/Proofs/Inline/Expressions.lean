import Splice.Proofs.Inline.Bodies

/-!
This module contains the proof that the pass that inlines puts expressions together such that they
compute what they computed before, behind the statements that have to run before them.
-/

namespace Splice
namespace Inlining

open Run

variable {m : Machine} {side : Side} {host : String → m.Value} {bound bound' : Nat}
variable {external : List String} {calls calls' : Calls m} {s : Setting} {c : Context}

theorem spliced_stages {ss : List Stmt} {names : List String} {x : Run m (List m.Value)}
    {y : Binder} {μ ν : Memory m}
    (h : Agree side
      (fun vs μ₁ _ ν₁ => Keeps host names μ ν μ₁ ν₁ ∧
        vs.map some = [y].map fun x => ν₁.locals x.name)
      x μ (Stmt.execAll bound' calls' ss) ν) (span : Span) :
    Stages side host bound' calls' names x μ ν ss
      ((Expr.identifier ⟨span, y.name⟩).eval calls') := by
  refine Reaches.of_matches h ?_
  rintro ⟨vs, μ₁⟩ ⟨_, ν₁⟩ hvs ⟨hkeeps, hvalue⟩
  refine ⟨hkeeps.leaves, ?_⟩
  obtain ⟨v, rfl, hv⟩ := List.map_eq_singleton_iff.1 hvalue
  have hv : some v = ν₁.locals y.name := hv
  have hread : ν₁.read y.name = v := by
    unfold Memory.read
    rw [← hv]
    rfl
  unfold Agree
  rw [hvs]
  exact .done ⟨congrArg (fun v => [v]) hread.symm, hkeeps⟩

theorem target_head (hp : Place s.program c) {callee : String} {n k : Nat}
    (hcallee : ⟨callee, n, k⟩ ∈ c.functions) {f : Function} (hf : s.target? callee = some f) :
    f.head ∈ c.functions := by
  obtain ⟨_, hname, hparameters, hreturns, _⟩ := hp.target hcallee hf
  have hhead : f.head = ⟨callee, n, k⟩ := by
    unfold Signature.head
    rw [hname, hparameters, hreturns]
  rwa [hhead]

theorem staying_simulates (hp : Place s.program c) {es : List Expr} (hy : Expr.AllSingle c es)
    {rs : List Staged} {st st₁ st' : State} (hvisible : Visible c st)
    (hrs : exprs s es st = .ok rs st₁)
    (hsim : List.Forall₂ (Simulates side host bound' calls calls' c) es rs) {callee : String}
    {before : List Stmt} {es' : List Expr}
    (hhoist : hoistArguments s.dialect callee false rs st₁ = .ok (before, es') st') {μ ν : Memory m}
    (hsees : (Embedding.plain host).Sees c μ ν) :
    Stages side host bound' calls' (Stmt.allBoundNames before) (Expr.evalAll calls es) μ ν before
      (Expr.evalAll calls' es') := by
  obtain ⟨_, hfits, hgrows⟩ := exprs_fit hp es hy hrs
  exact (hoistArguments_simulates hsim hfits hgrows.nodup hgrows.names_subset
    (hvisible.hidden hgrows) (hvisible.grows hgrows) hhoist).2 μ ν hsees

mutual

theorem expr_simulates (hp : Site s.program external c)
    (hlinked : Linked side host bound s.program external c calls calls')
    (hbound : side.Within bound bound') : (e : Expr) → {n : Nat} → e.Yields c n → {r : Staged} →
    {st st' : State} → Visible c st → expr s e st = .ok r st' →
    Simulates side host bound' calls calls' c e r
  | .literal _, _, _, _, _, _, _, h, μ, ν, hsees => by
    simp only [expr, pure_eq_ok] at h
    obtain ⟨rfl, rfl⟩ := h
    exact .nil (.done ⟨rfl, .refl hsees.world hsees.host⟩) (hsees.world ▸ hsees.host)
  | .identifier i, _, hy, _, _, _, _, h, μ, ν, hsees => by
    simp only [expr, pure_eq_ok] at h
    obtain ⟨rfl, rfl⟩ := h
    have hread : μ.read i.name = ν.read i.name := hsees.read (fun _ _ => rfl) hy.1
    refine .nil (Matches.done ⟨?_, .refl hsees.world hsees.host⟩) (hsees.world ▸ hsees.host)
    rw [hread]
  | .instruction _ name arguments, _, hy, _, _, _, hvisible, h, μ, ν, hsees => by
    simp only [expr, bind_eq_ok, pure_eq_ok] at h
    obtain ⟨rs, _, hrs, ⟨before, es⟩, _, hhoist, rfl, rfl⟩ := h
    have hsim := exprs_simulate hp hlinked hbound arguments hy.2 hvisible hrs
    refine (staying_simulates hp.toPlace hy.2 hvisible hrs hsim hhoist hsees).bind ?_
    exact fun _ _ _ hkeeps => .instruction hkeeps.world hkeeps.host
  | .call span callee arguments, n, hy, r, st, st', hvisible, h, μ, ν, hsees => by
    cases hf : s.target? callee.name with
    | none =>
      simp only [expr, hf, bind_eq_ok, pure_eq_ok] at h
      obtain ⟨rs, _, hrs, ⟨before, es⟩, _, hhoist, rfl, rfl⟩ := h
      have hsim := exprs_simulate hp hlinked hbound arguments hy.2 hvisible hrs
      refine (staying_simulates hp.toPlace hy.2 hvisible hrs hsim hhoist hsees).bind ?_
      exact fun _ _ _ hkeeps => .call hlinked.related hy.1 hkeeps.world hkeeps.host
    | some f =>
      obtain ⟨hmem, hname, _, _, hbody⟩ := hp.toPlace.target hy.1 hf
      obtain ⟨x, st₁, before, body, hone, hgrows, hexpand, rfl⟩ := expr_call_eq_ok hf h
      have hreturns : f.returns.length = [x].length := hone
      have hhead := target_head hp.toPlace hy.1 hf
      have hvisible₁ := hvisible.grows hgrows
      have hforeign : ∀ y ∈ [x].map Binder.name, y ∉ external := by
        intro y hy hmem
        rw [← hp.host] at hmem
        exact hvisible.hidden hgrows y hy (.inr hmem)
      have hfit {rs : List Staged} {st₂ : State} (hrs : exprs s arguments st₁ = .ok rs st₂) :=
        exprs_fit hp.toPlace arguments hy.2 hrs
      have hsim {rs : List Staged} {st₂ : State} (hrs : exprs s arguments st₁ = .ok rs st₂) :=
        exprs_simulate hp hlinked hbound arguments hy.2 hvisible₁ hrs
      have hstaged := fun rs st₂ (hrs : exprs s arguments st₁ = .ok rs st₂) =>
        And.intro (hfit hrs).1 (And.intro (hsim hrs) (hfit hrs).2.2)
      have hcall := expandCall_simulates hp hlinked hbound hmem hhead hbody span hstaged hreturns
        hgrows.nodup hgrows.names_subset hforeign hvisible₁ hexpand hsees
      rw [hname] at hcall
      exact spliced_stages hcall span

theorem exprs_simulate (hp : Site s.program external c)
    (hlinked : Linked side host bound s.program external c calls calls')
    (hbound : side.Within bound bound') : (es : List Expr) → Expr.AllSingle c es →
    {rs : List Staged} → {st st' : State} → Visible c st → exprs s es st = .ok rs st' →
    List.Forall₂ (Simulates side host bound' calls calls' c) es rs
  | [], _, _, _, _, _, h => by
    simp only [exprs, pure_eq_ok] at h
    obtain ⟨rfl, rfl⟩ := h
    exact .nil
  | e :: es, hy, _, _, _, hvisible, h => by
    simp only [exprs, bind_eq_ok, pure_eq_ok] at h
    obtain ⟨others, st₁, hothers, first, st₂, hfirst, rfl, rfl⟩ := h
    obtain ⟨_, _, hgrows⟩ := exprs_fit hp.toPlace es hy.2 hothers
    exact .cons (expr_simulates hp hlinked hbound e hy.1 (hvisible.grows hgrows) hfirst)
      (exprs_simulate hp hlinked hbound es hy.2 hvisible hothers)

end

end Inlining
end Splice
