import Splice.Proofs.Inline.Statements

/-!
This module contains the induction over a program by which the pass that inlines keeps what it does.
-/

namespace Splice

open Run

variable {m : Machine} {side : Side}

/-! ## Conditions of loops -/

namespace Expr

mutual

theorem rename_id : (e : Expr) → e.rename (fun x => x) = e
  | .literal _ => rfl
  | .identifier _ => rfl
  | .call span callee arguments => by
    unfold rename
    rw [allRename_id arguments]
  | .instruction span name arguments => by
    unfold rename
    rw [allRename_id arguments]

theorem allRename_id : (es : List Expr) → allRename (fun x => x) es = es
  | [] => rfl
  | e :: es => by
    unfold allRename
    rw [rename_id e, allRename_id es]

end

end Expr

namespace Inlining

variable {host : String → m.Value} {bound bound' : Nat} {external : List String}

theorem evalOne_agree {c : Context} {calls calls' : Calls m}
    (hcalls : Related side host c.functions calls calls') {e : Expr} (hy : e.Yields c 1)
    {μ ν : Memory m} (hsees : (Embedding.plain host).Sees c μ ν) :
    Agree side (Evaluated host [] μ ν) (e.evalOne calls) μ (e.evalOne calls') ν := by
  have hagree := Expr.evalOne_rename (l := Embedding.plain host) (fun _ _ => rfl) hcalls hy hsees
  have hname : (Embedding.plain host).name = fun x => x := rfl
  rwa [hname, Expr.rename_id] at hagree

theorem execAll_singleton (bound : Nat) (calls : Calls m) (x : Stmt) :
    Stmt.execAll bound calls [x] = x.exec bound calls :=
  bind_pure _

/-! ## Statements side by side -/

/--
The statements `ss` do what `xs` do at a place of the program `p`, and so do their functions.
-/
structure Follows (side : Side) (host : String → m.Value) (bound bound' : Nat) (p : Block)
    (external : List String) (c : Context) (xs ss : List Stmt) : Prop where
  answers : List.Forall₂ (Answers side host bound p external c) (Stmt.closures bound xs)
    (Stmt.closures bound' ss)
  simulates : ∀ calls calls', Linked side host bound p external c calls calls' → ∀ μ ν,
    (Embedding.plain host).Sees c μ ν →
    Agree side (fun _ μ₁ _ ν₁ => (Embedding.plain host).Sees (c.after xs) μ₁ ν₁)
      (Stmt.execAll bound calls xs) μ (Stmt.execAll bound' calls' ss) ν

def FollowsBlock (side : Side) (host : String → m.Value) (bound bound' : Nat) (p : Block)
    (external : List String) (c : Context) (b b' : Block) : Prop :=
  ∀ calls calls', Linked side host bound p external c calls calls' → ∀ μ ν,
    (Embedding.plain host).Sees c μ ν →
    Agree side (fun _ μ₁ _ ν₁ => (Embedding.plain host).Sees c μ₁ ν₁) (b.exec bound calls) μ
      (b'.exec bound' calls') ν

section

variable {p : Block} {c : Context} {xs ss ys ts : List Stmt}

namespace Follows

theorem nil : Follows side host bound bound' p external c [] [] :=
  ⟨.nil, fun _ _ _ _ _ hsees => .done hsees⟩

theorem append (h : Follows side host bound bound' p external c xs ss)
    (h' : Follows side host bound bound' p external (c.after xs) ys ts) :
    Follows side host bound bound' p external c (xs ++ ys) (ss ++ ts) where
  answers := by
    rw [closures_append, closures_append]
    refine List.rel_append h.answers (h'.answers.imp fun F F' hF => ?_)
    exact ⟨hF.1, fun calls calls' hlinked => hF.2 calls calls' (hlinked.after xs)⟩
  simulates calls calls' hlinked μ ν hsees := by
    unfold Agree
    rw [Stmt.execAll_append, Stmt.execAll_append, c.after_append]
    refine Matches.bind (h.simulates calls calls' hlinked μ ν hsees) fun a b hsees₁ => ?_
    exact h'.simulates calls calls' (hlinked.after xs) a.2 b.2 hsees₁

theorem of_replaces {x : Stmt} (h : Replaces c [x] ss) (hx : ∀ c' : Context, c'.announce x = c')
    (hnone : (Stmt.closures bound [x] : List (Calls.Closure m)) = [])
    (hsimulates : ∀ calls calls', Linked side host bound p external c calls calls' → ∀ μ ν,
      (Embedding.plain host).Sees c μ ν →
      Agree side (fun _ μ₁ _ ν₁ => (Embedding.plain host).Sees (c.declare x.declared) μ₁ ν₁)
        (x.exec bound calls) μ (Stmt.execAll bound' calls' ss) ν) :
    Follows side host bound bound' p external c [x] ss where
  answers := by
    rw [hnone, h.closures_eq_nil hx]
    exact .nil
  simulates calls calls' hlinked μ ν hsees := by
    rw [execAll_singleton]
    exact hsimulates calls calls' hlinked μ ν hsees

theorem function (hp : Site p external c) {f : Signature} {body body' : Block}
    (hf : (f.parameters ++ f.returns).map Binder.name ⊆ p.boundNames)
    (hbody : FollowsBlock side host bound bound' p external
      (c.enterFunction (f.parameters ++ f.returns)) body body') :
    Follows side host bound bound' p external c [.function ⟨f, body⟩] [.function ⟨f, body'⟩] where
  answers := by
    refine .cons ⟨rfl, fun calls calls' hlinked arguments world hworld => ?_⟩ .nil
    exact invoke_agree hp hf (hbody calls calls' (hlinked.enterFunction _)) arguments world hworld
  simulates _ _ _ _ _ hsees := .done hsees

variable (hp : Site p external c) (hv : Stmt.AllValid (c.enter xs) xs)
variable (hf : Stmt.allFunctions xs ⊆ p.functions) (hd : c.CanEnter xs)
variable (hbound : side.Exceeds bound bound')
variable (h : Follows side host bound bound' p external (c.enter xs) xs ss)

include hp hv hf hd hbound h

theorem linked {calls calls' : Calls m} (hlinked : Linked side host bound p external c calls calls') :
    Linked side host bound p external (c.enter xs)
      (Calls.define (Stmt.closures bound xs) calls bound)
      (Calls.define (Stmt.closures bound' ss) calls' bound') :=
  define_linked hp hv hf hd hlinked h.answers hbound

theorem block (span span' : Span) :
    FollowsBlock side host bound bound' p external c ⟨span, xs⟩ ⟨span', ss⟩ := by
  intro calls calls' hlinked μ ν hsees
  refine .inScope hsees ?_ (c.vars_subset_after_enter xs)
  exact h.simulates _ _ (h.linked hp hv hf hd hbound hlinked) μ ν (hsees.enter xs)

theorem loop {condition : Expr} (hy : condition.Yields ((c.enter xs).after xs) 1)
    {post post' body body' : Block}
    (hpost : FollowsBlock side host bound bound' p external ((c.enter xs).after xs) post post')
    (hbody : FollowsBlock side host bound bound' p external ((c.enter xs).after xs) body body')
    (span preSpan : Span) {calls calls' : Calls m}
    (hlinked : Linked side host bound p external c calls calls') {μ ν : Memory m}
    (hsees : (Embedding.plain host).Sees c μ ν) :
    Agree side (fun _ μ₁ _ ν₁ => (Embedding.plain host).Sees c μ₁ ν₁)
      ((Stmt.loop span ⟨preSpan, xs⟩ condition post body).exec bound calls) μ
      ((Stmt.loop span ⟨preSpan, ss⟩ condition post' body').exec bound' calls') ν := by
  have hlinked₁ := h.linked hp hv hf hd hbound hlinked
  have hlinked₂ := hlinked₁.after xs
  refine .inScope hsees ?_ (c.vars_subset_after_enter xs)
  refine (h.simulates _ _ hlinked₁ μ ν (hsees.enter xs)).bind ?_
  intro _ _ _ _ h₁
  refine .rounds ?_ ?_ hbound.within h₁
  . intro μ ν h₂
    refine (evalOne_agree hlinked₂.related hy h₂).imp ?_
    exact fun _ _ _ _ hresult => ⟨hresult.1, hresult.2.sees_nil h₂⟩
  . intro μ ν h₂
    refine (hbody _ _ hlinked₂ μ ν h₂).bind ?_
    exact fun _ _ _ _ h₃ => hpost _ _ hlinked₂ _ _ h₃

end Follows

theorem choice_agree {s : Setting} {calls calls' : Calls m} {st st₁ : State} {e : Expr} {r : Staged}
    (hp : Site s.program external c)
    (hlinked : Linked side host bound s.program external c calls calls')
    (hbound : side.Exceeds bound bound') (hy : e.Yields c 1) (hvisible : Visible c st)
    (hr : expr s e st = .ok r st₁) {μ ν : Memory m} (hsees : (Embedding.plain host).Sees c μ ν)
    {x' : Stmt} {f g : m.Value → Run m Unit}
    (hx' : x'.exec bound' calls' = r.expr.evalOne calls' >>= g)
    (hfg : ∀ v μ₁ ν₁, (Embedding.plain host).Sees c μ₁ ν₁ →
      Agree side (fun _ μ₁ _ ν₁ => (Embedding.plain host).Sees c μ₁ ν₁) (f v) μ₁ (g v) ν₁) :
    Agree side (fun _ μ₁ _ ν₁ => (Embedding.plain host).Sees c μ₁ ν₁) (e.evalOne calls >>= f) μ
      (Stmt.execAll bound' calls' (r.before ++ [x'])) ν := by
  obtain ⟨_, hgrows⟩ := expr_fits hp.toPlace e hy hr
  have hstages := evalOne_stages
    (expr_simulates hp hlinked hbound.within e hy hvisible hr μ ν hsees)
  refine hstages.statement hx' fun v μ₁ ν₁ hkeeps => ?_
  exact hfg v μ₁ ν₁ (hkeeps.sees_plain hsees (hvisible.hidden hgrows))

end

def FollowsCases (side : Side) (host : String → m.Value) (bound bound' : Nat) (p : Block)
    (external : List String) (c : Context) (cs cs' : List Case) : Prop :=
  ∀ calls calls', Linked side host bound p external c calls calls' → ∀ μ ν,
    (Embedding.plain host).Sees c μ ν → ∀ v otherwise otherwise',
    Agree side (fun _ μ₁ _ ν₁ => (Embedding.plain host).Sees c μ₁ ν₁) otherwise μ otherwise' ν →
    Agree side (fun _ μ₁ _ ν₁ => (Embedding.plain host).Sees c μ₁ ν₁)
      (Case.exec bound calls v otherwise cs) μ (Case.exec bound' calls' v otherwise' cs') ν

theorem FollowsCases.cons {p : Block} {c : Context} {body body' : Block} {cs cs' : List Case}
    (hbody : FollowsBlock side host bound bound' p external c body body')
    (hcs : FollowsCases side host bound bound' p external c cs cs') (span : Span)
    (value : Option Literal) :
    FollowsCases side host bound bound' p external c (⟨span, value, body⟩ :: cs)
      (⟨span, value, body'⟩ :: cs') := by
  intro calls calls' hlinked μ ν hsees v otherwise otherwise' hotherwise
  have hfirst := hbody calls calls' hlinked μ ν hsees
  cases value with
  | none => exact hcs calls calls' hlinked μ ν hsees v _ _ hfirst
  | some l =>
    refine .ite (fun _ => hfirst) fun _ => ?_
    exact hcs calls calls' hlinked μ ν hsees v _ _ hotherwise

/-! ## The program -/

mutual

theorem stmt_follows {s : Setting} {c : Context} (hp : Site s.program external c)
    (hbound : side.Exceeds bound bound') : (x : Stmt) → x.Valid c →
    x.boundNames ⊆ s.program.boundNames → x.functions ⊆ s.program.functions →
    x.DeclaresNew c → {before : List Stmt} → {x' : Stmt} → {st st' : State} →
    InUse s.program external st → stmt s x st = .ok (before, x') st' →
    Follows side host bound bound' s.program external c [x] (before ++ [x'])
  | .expression e, hv, hn, hf, _, _, _, _, _, hu, h => by
    refine .of_replaces (stmt_replaces hp.toPlace (.expression e) hv hn hf h).1 (fun _ => rfl) rfl ?_
    intro calls calls' hlinked μ ν hsees
    exact expressionStmt_simulates hp hlinked hbound.within hv (hu.visible hp) h hsees
  | .declaration span vars none, hv, hn, hf, _, _, _, _, _, _, h => by
    refine .of_replaces (stmt_replaces hp.toPlace (.declaration span vars none) hv hn hf h).1
      (fun _ => rfl) rfl ?_
    intro calls calls' _ μ ν hsees
    simp only [stmt, pure_eq_ok, Prod.mk.injEq] at h
    obtain ⟨⟨rfl, rfl⟩, rfl⟩ := h
    rw [List.nil_append, execAll_singleton]
    exact .declareAll (hp.allows host) rfl hn hsees
  | .declaration span vars (some value), hv, hn, hf, hd, _, _, _, _, hu, h => by
    refine .of_replaces (stmt_replaces hp.toPlace (.declaration span vars (some value)) hv hn hf h).1
      (fun _ => rfl) rfl ?_
    intro calls calls' hlinked μ ν hsees
    exact declarationStmt_simulates hp hlinked hbound.within hv hn hd hu h hsees
  | .assignment span targets value, hv, hn, hf, _, _, _, _, _, hu, h => by
    refine .of_replaces (stmt_replaces hp.toPlace (.assignment span targets value) hv hn hf h).1
      (fun _ => rfl) rfl ?_
    intro calls calls' hlinked μ ν hsees
    exact assignmentStmt_simulates hp hlinked hbound.within hv (hu.visible hp) h hsees
  | .conditional span condition body, hv, hn, hf, hd, _, _, _, _, hu, h => by
    refine .of_replaces (stmt_replaces hp.toPlace (.conditional span condition body) hv hn hf h).1
      (fun _ => rfl) rfl ?_
    simp only [stmt, bind_eq_ok, pure_eq_ok, Prod.mk.injEq] at h
    obtain ⟨r, _, hr, body', _, hbody, ⟨rfl, rfl⟩, rfl⟩ := h
    obtain ⟨_, hgrows⟩ := expr_fits hp.toPlace condition hv.1 hr
    have hfollows := block_follows hp hbound body hv.2 hn hf hd (hu.grows hgrows) hbody
    intro calls calls' hlinked μ ν hsees
    refine choice_agree hp hlinked hbound hv.1 (hu.visible hp) hr hsees rfl fun v μ₁ ν₁ hsees₁ => ?_
    exact .ite (fun _ => .done hsees₁) fun _ => hfollows calls calls' hlinked μ₁ ν₁ hsees₁
  | .switch span subject arms, hv, hn, hf, hd, _, _, _, _, hu, h => by
    refine .of_replaces (stmt_replaces hp.toPlace (.switch span subject arms) hv hn hf h).1
      (fun _ => rfl) rfl ?_
    simp only [stmt, bind_eq_ok, pure_eq_ok, Prod.mk.injEq] at h
    obtain ⟨r, _, hr, arms', _, harms, ⟨rfl, rfl⟩, rfl⟩ := h
    obtain ⟨_, hgrows⟩ := expr_fits hp.toPlace subject hv.1 hr
    have hfollows := cases_follow hp hbound arms hv.2.1 hn hf hd (hu.grows hgrows) harms
    intro calls calls' hlinked μ ν hsees
    refine choice_agree hp hlinked hbound hv.1 (hu.visible hp) hr hsees rfl fun v μ₁ ν₁ hsees₁ => ?_
    exact hfollows calls calls' hlinked μ₁ ν₁ hsees₁ v _ _ (.done hsees₁)
  | .loop span ⟨preSpan, pre⟩ condition post body, hv, hn, hf, hd, _, _, _, _, hu, h => by
    refine .of_replaces (stmt_replaces hp.toPlace (.loop span ⟨preSpan, pre⟩ condition post body)
      hv hn hf h).1 (fun _ => rfl) rfl ?_
    simp only [stmt, block, bind_eq_ok, pure_eq_ok, Prod.mk.injEq] at h
    obtain ⟨_, _, ⟨pre', _, hpre, rfl, rfl⟩, post', _, hpost, body', _, hbody, ⟨rfl, rfl⟩, rfl⟩ := h
    change Stmt.allBoundNames pre ++ post.boundNames ++ body.boundNames ⊆ _ at hn
    change Stmt.allFunctions pre ++ post.functions ++ body.functions ⊆ _ at hf
    rw [List.append_subset, List.append_subset] at hn hf
    -- What `pre` declares is in scope in the other parts, and the names it took are in use.
    have hp₁ := hp.enter hv.1 hf.1.1
    have hp₂ := hp₁.after hn.1.1
    have hu₁ := hu.adds (stmts_replace hp₁.toPlace pre hv.1 hn.1.1 hf.1.1 hpre).2
    have hu₂ := hu₁.adds (block_replaces hp₂.toPlace post hv.2.2.1 hn.1.2 hf.1.2 hpost).2
    have hfollows := stmts_follow hp₁ hbound pre hv.1 hn.1.1 hf.1.1 hd.2.1 hu hpre
    have hfollows₁ := block_follows hp₂ hbound post hv.2.2.1 hn.1.2 hf.1.2 hd.2.2.1 hu₁ hpost
    have hfollows₂ := block_follows hp₂ hbound body hv.2.2.2 hn.2 hf.2 hd.2.2.2 hu₂ hbody
    intro calls calls' hlinked μ ν hsees
    rw [List.nil_append, execAll_singleton]
    exact hfollows.loop hp hv.1 hf.1.1 hd.1 hbound hv.2.1 hfollows₁ hfollows₂ span preSpan hlinked
      hsees
  | .function ⟨f, body⟩, hv, hn, hf, hd, _, _, _, _, hu, h => by
    simp only [stmt, bind_eq_ok, pure_eq_ok, Prod.mk.injEq] at h
    obtain ⟨body', _, hbody, ⟨rfl, rfl⟩, rfl⟩ := h
    simp only [Stmt.boundNames, ← List.map_append, List.cons_append, List.cons_subset,
      List.append_subset] at hn
    -- Within its own body the function is left alone, and the program stays the one that it was.
    have hin : Site (s.within f.name).program external
        (c.enterFunction (f.parameters ++ f.returns)) := hp.enterFunction hn.2.1
    exact .function hp hn.2.1
      (block_follows hin hbound body hv hn.2.2 (List.cons_subset.1 hf).2 hd.2 hu hbody)
  | .block b, hv, hn, hf, hd, _, _, _, _, hu, h => by
    refine .of_replaces (stmt_replaces hp.toPlace (.block b) hv hn hf h).1 (fun _ => rfl) rfl ?_
    simp only [stmt, bind_eq_ok, pure_eq_ok, Prod.mk.injEq] at h
    obtain ⟨b', _, hb, ⟨rfl, rfl⟩, rfl⟩ := h
    have hfollows := block_follows hp hbound b hv hn hf hd hu hb
    intro calls calls' hlinked μ ν hsees
    rw [List.nil_append, execAll_singleton]
    exact hfollows calls calls' hlinked μ ν hsees
  | .stack _, _, _, _, _, _, _, _, _, _, h => (throw_ne_ok h).elim

theorem stmts_follow {s : Setting} {c : Context} (hp : Site s.program external c)
    (hbound : side.Exceeds bound bound') : (xs : List Stmt) → Stmt.AllValid c xs →
    Stmt.allBoundNames xs ⊆ s.program.boundNames → Stmt.allFunctions xs ⊆ s.program.functions →
    Stmt.AllDeclareNew c xs → {ss : List Stmt} → {st st' : State} →
    InUse s.program external st → stmts s xs st = .ok ss st' →
    Follows side host bound bound' s.program external c xs ss
  | [], _, _, _, _, _, _, _, _, h => by
    simp only [stmts, pure_eq_ok] at h
    obtain ⟨rfl, rfl⟩ := h
    exact .nil
  | x :: xs, hv, hn, hf, hd, _, _, _, hu, h => by
    obtain ⟨before, x', _, others, hx, hxs, rfl⟩ := stmts_cons_eq_ok h
    obtain ⟨hnx, hnxs⟩ := List.append_subset.1 hn
    obtain ⟨hfx, hfxs⟩ := List.append_subset.1 hf
    have hadds := (stmt_replaces hp.toPlace x hv.1 hnx hfx hx).2
    exact (stmt_follows hp hbound x hv.1 hnx hfx hd.1 hu hx).append
      (stmts_follow (hp.next hn) hbound xs hv.2 hnxs hfxs hd.2 (hu.adds hadds) hxs)

theorem block_follows {s : Setting} {c : Context} (hp : Site s.program external c)
    (hbound : side.Exceeds bound bound') : (b : Block) → b.Valid c →
    b.boundNames ⊆ s.program.boundNames → b.functions ⊆ s.program.functions →
    b.DeclaresNew c → {b' : Block} → {st st' : State} →
    InUse s.program external st → block s b st = .ok b' st' →
    FollowsBlock side host bound bound' s.program external c b b'
  | ⟨span, xs⟩, hv, hn, hf, hd, _, _, _, hu, h => by
    simp only [block, bind_eq_ok, pure_eq_ok] at h
    obtain ⟨ss, _, hss, rfl, rfl⟩ := h
    have hfollows := stmts_follow (hp.enter hv hf) hbound xs hv hn hf hd.2 hu hss
    exact hfollows.block hp hv hf hd.1 hbound span span

theorem cases_follow {s : Setting} {c : Context} (hp : Site s.program external c)
    (hbound : side.Exceeds bound bound') : (cs : List Case) → Case.AllValid c cs →
    Case.allBoundNames cs ⊆ s.program.boundNames → Case.allFunctions cs ⊆ s.program.functions →
    Case.AllDeclareNew c cs → {cs' : List Case} → {st st' : State} →
    InUse s.program external st → cases s cs st = .ok cs' st' →
    FollowsCases side host bound bound' s.program external c cs cs'
  | [], _, _, _, _, _, _, _, _, h => by
    simp only [cases, pure_eq_ok] at h
    obtain ⟨rfl, rfl⟩ := h
    exact fun _ _ _ _ _ _ _ _ _ hotherwise => hotherwise
  | ⟨span, value, body⟩ :: cs, hv, hn, hf, hd, _, _, _, hu, h => by
    simp only [cases, bind_eq_ok, pure_eq_ok] at h
    obtain ⟨body', _, hbody, others, _, hothers, rfl, rfl⟩ := h
    obtain ⟨hnbody, hncs⟩ := List.append_subset.1 hn
    obtain ⟨hfbody, hfcs⟩ := List.append_subset.1 hf
    have hadds := (block_replaces hp.toPlace body hv.1 hnbody hfbody hbody).2
    exact .cons (block_follows hp hbound body hv.1 hnbody hfbody hd.1 hu hbody)
      (cases_follow hp hbound cs hv.2 hncs hfcs hd.2 (hu.adds hadds) hothers) span value

end

end Inlining
end Splice
