import Splice.Proofs.Inline.Valid
import Splice.Proofs.Tree.Occurrences

/-!
This module contains what the pass that inlines makes of what occurs in a program: each call that is
replaced becomes what occurs in the body of its function, and everything else stays, once.
-/

namespace Splice

/-! ## Renaming -/

section

variable (ρ : String → String)

mutual

theorem Expr.occurrences_rename : (e : Expr) → (e.rename ρ).occurrences = e.occurrences
  | .literal _ => rfl
  | .identifier _ => rfl
  | .call _ _ arguments => congrArg (_ :: ·) (Expr.allOccurrences_rename arguments)
  | .instruction _ _ arguments => congrArg (_ :: ·) (Expr.allOccurrences_rename arguments)

theorem Expr.allOccurrences_rename :
    (es : List Expr) → Expr.allOccurrences (Expr.allRename ρ es) = Expr.allOccurrences es
  | [] => rfl
  | e :: es => by
    rw [Expr.allRename, Expr.allOccurrences, Expr.allOccurrences, e.occurrences_rename,
      Expr.allOccurrences_rename es]

end

mutual

theorem Stmt.occurrences_rename : (s : Stmt) → (s.rename ρ).occurrences = s.occurrences
  | .expression e => e.occurrences_rename ρ
  | .declaration _ _ none => rfl
  | .declaration _ _ (some value) => value.occurrences_rename ρ
  | .assignment _ _ value => value.occurrences_rename ρ
  | .conditional _ condition body => by
    rw [Stmt.rename, Stmt.occurrences, Stmt.occurrences, condition.occurrences_rename,
      body.occurrences_rename]
  | .switch _ subject arms => by
    rw [Stmt.rename, Stmt.occurrences, Stmt.occurrences, subject.occurrences_rename,
      Case.allOccurrences_rename arms]
  | .loop _ pre condition post body => by
    rw [Stmt.rename, Stmt.occurrences, Stmt.occurrences, pre.occurrences_rename,
      condition.occurrences_rename, post.occurrences_rename, body.occurrences_rename]
  | .function _ => rfl
  | .block b => b.occurrences_rename
  | .stack _ => rfl

theorem Stmt.allOccurrences_rename :
    (ss : List Stmt) → Stmt.allOccurrences (Stmt.allRename ρ ss) = Stmt.allOccurrences ss
  | [] => rfl
  | s :: ss => by
    rw [Stmt.allRename, Stmt.allOccurrences, Stmt.allOccurrences, s.occurrences_rename,
      Stmt.allOccurrences_rename ss]

theorem Block.occurrences_rename : (b : Block) → (b.rename ρ).occurrences = b.occurrences
  | ⟨_, ss⟩ => Stmt.allOccurrences_rename ss

theorem Case.allOccurrences_rename :
    (cs : List Case) → Case.allOccurrences (Case.allRename ρ cs) = Case.allOccurrences cs
  | [] => rfl
  | ⟨_, _, body⟩ :: cs => by
    rw [Case.allRename, Case.allOccurrences, Case.allOccurrences, body.occurrences_rename,
      Case.allOccurrences_rename cs]

end

end

namespace Inlining

namespace Setting

variable (s : Setting)

def expansion? (o : Occurrence) : Option Function :=
  match o.item with
  | .call callee =>
    if o.inCondition then none
    else { s with enclosing := o.enclosing ++ s.enclosing }.target? callee
  | _ => none

def after (o : Occurrence) : List Occurrence :=
  match s.expansion? o with
  | some f => f.body.occurrences.map (Occurrence.inside · o.enclosing)
  | none => [o]

theorem expansion?_ofCondition (o : Occurrence) : s.expansion? o.ofCondition = none := by
  unfold expansion? Occurrence.ofCondition
  cases o.item <;> rfl

theorem expansion?_inside (o : Occurrence) (name : String) :
    s.expansion? (o.inside [name]) = (s.within name).expansion? o := by
  unfold expansion? Occurrence.inside within
  simp only [List.append_assoc, List.singleton_append]

theorem after_ofCondition (o : Occurrence) : s.after o.ofCondition = [o.ofCondition] := by
  unfold after
  rw [expansion?_ofCondition]

theorem after_inside (o : Occurrence) (name : String) :
    s.after (o.inside [name]) = ((s.within name).after o).map (Occurrence.inside · [name]) := by
  unfold after
  rw [expansion?_inside]
  cases (s.within name).expansion? o with
  | none => rfl
  | some f =>
    rw [List.map_map]
    apply List.map_congr_left
    intro o' _
    exact (o'.inside_inside _ _).symm

theorem after_call (callee : String) :
    s.after ⟨.call callee, [], false⟩ =
      match s.target? callee with
      | some f => f.body.occurrences
      | none => [⟨.call callee, [], false⟩] := by
  change (match s.target? callee with
    | some f => f.body.occurrences.map (Occurrence.inside · [])
    | none => [_]) = _
  cases s.target? callee with
  | none => rfl
  | some f =>
    simp only [Occurrence.inside_nil, List.map_id']

end Setting

/-! ## Arguments -/

def Staged.occurrences (r : Staged) : List Occurrence :=
  Stmt.allOccurrences r.before ++ r.expr.occurrences

theorem allOccurrences_append (ss ts : List Stmt) :
    Stmt.allOccurrences (ss ++ ts) = Stmt.allOccurrences ss ++ Stmt.allOccurrences ts := by
  simp only [Stmt.allOccurrences_eq_flatMap, List.flatMap_append]

theorem allOccurrences_singleton (x : Stmt) : Stmt.allOccurrences [x] = x.occurrences :=
  List.append_nil _

theorem allOccurrences_moved (span : Span) (r : Staged) (x : Binder) :
    Stmt.allOccurrences (moved span r x) = r.occurrences := by
  unfold moved
  rw [allOccurrences_append, allOccurrences_singleton]
  rfl

theorem bindArguments_occurrences {callee : String} {span : Span}
    {pairs : List (Binder × Staged)} {ss : List Stmt} {replacements : List (String × String)}
    {st st' : State} (h : bindArguments callee span pairs st = .ok (ss, replacements) st') :
    (Stmt.allOccurrences ss).Perm (pairs.flatMap fun pair => pair.2.occurrences) := by
  induction pairs generalizing ss replacements st' with
  | nil =>
    simp only [bindArguments, pure_eq_ok, Prod.mk.injEq] at h
    obtain ⟨⟨rfl, _⟩, _⟩ := h
    exact .refl _
  | cons pair rest ih =>
    obtain ⟨ss', replacements', st₁, x, hrest, _, rfl, rfl⟩ := bindArguments_cons h
    rw [allOccurrences_append, allOccurrences_moved]
    exact List.perm_append_comm.trans ((ih hrest).append_left _)

theorem hoistArguments_occurrences {dialect : Dialect} {callee : String} {earlier : Bool}
    {rs : List Staged} {ss : List Stmt} {es : List Expr} {st st' : State}
    (h : hoistArguments dialect callee earlier rs st = .ok (ss, es) st') :
    (Stmt.allOccurrences ss ++ Expr.allOccurrences es).Perm (rs.flatMap Staged.occurrences) := by
  induction rs generalizing earlier ss es st' with
  | nil =>
    simp only [hoistArguments, pure_eq_ok, Prod.mk.injEq] at h
    obtain ⟨⟨rfl, rfl⟩, _⟩ := h
    exact .refl _
  | cons r rs ih =>
    obtain ⟨ss', es', st₁, hrest, hcases⟩ := hoistArguments_cons h
    -- The argument as a whole comes in front, whichever of its parts stay where they are.
    have hfront : (Stmt.allOccurrences ss' ++ (r.occurrences ++ Expr.allOccurrences es')).Perm
        ((r :: rs).flatMap Staged.occurrences) :=
      (List.perm_append_comm_assoc ..).trans ((ih hrest).append_left _)
    rcases hcases with ⟨_, x, _, rfl, rfl⟩ | ⟨_, _, rfl, rfl⟩
    . rw [allOccurrences_append, allOccurrences_moved, List.append_assoc]
      exact hfront
    . unfold Staged.occurrences at hfront
      rw [List.append_assoc] at hfront
      rwa [allOccurrences_append, List.append_assoc]

/-! ## Calls -/

section

variable {c : Context}

theorem occurrences_withSpan (span : Span) (b : Block) :
    (⟨span, b.statements⟩ : Block).occurrences = b.occurrences := by
  cases b
  rfl

theorem allOccurrences_zeros (span : Span) (xs : List Binder) :
    Stmt.allOccurrences (xs.map (zeroDeclaration span)) = [] := by
  rw [Stmt.allOccurrences_eq_flatMap, List.flatMap_map, List.flatMap_eq_nil_iff]
  exact fun _ _ => rfl

theorem allOccurrences_spliced (before : List Stmt) (span : Span) (xs : List Binder)
    (body : Block) : Stmt.allOccurrences (spliced before span xs body) =
      Stmt.allOccurrences before ++ body.occurrences := by
  unfold spliced
  rw [allOccurrences_append, allOccurrences_append, allOccurrences_zeros, List.append_nil,
    allOccurrences_singleton]
  rfl

theorem allOccurrences_copies (span callSpan : Span) (targets : List Identifier)
    (xs : List Binder) : Stmt.allOccurrences (copies span callSpan targets xs) = [] := by
  unfold copies
  rw [Stmt.allOccurrences_eq_flatMap, List.flatMap_map, List.flatMap_eq_nil_iff]
  exact fun _ _ => rfl

theorem expandCall_occurrences {p : Block} (hp : Place p c) {f : Function}
    (hf : f ∈ p.functions) (hbody : f.body.Valid (c.enterFunction (f.parameters ++ f.returns)))
    {span : Span} {count : Nat} {staged : Pass (List Staged)} {targets : List String}
    (htargets : f.returns.length = targets.length) {os : List Occurrence} {before : List Stmt}
    {body : Block} {st st' : State}
    (hstaged : ∀ rs st₁, staged st = .ok rs st₁ →
      rs.length = count ∧ (rs.flatMap Staged.occurrences).Perm os)
    (h : expandCall f span count staged targets st = .ok (before, body) st') :
    (Stmt.allOccurrences before ++ body.occurrences).Perm (f.body.occurrences ++ os) := by
  obtain ⟨hcount, rs, st₁, replacements, st₂, ρ, hrs, hbind, rfl, _, _⟩ :=
    expandCall_eq_ok hp hf hbody htargets (fun rs st₁ hrs => (hstaged rs st₁ hrs).1) h
  obtain ⟨hlength, hos⟩ := hstaged rs st₁ hrs
  have hbefore := bindArguments_occurrences hbind
  rw [flatMap_snd_zip (hcount.trans hlength.symm) Staged.occurrences] at hbefore
  rw [occurrences_withSpan, f.body.occurrences_rename ρ]
  exact List.perm_append_comm.trans ((hbefore.trans hos).append_left _)

end

mutual

theorem expr_occurrences {s : Setting} {c : Context} (hp : Place s.program c) : (e : Expr) →
    {n : Nat} → e.Yields c n → {r : Staged} → {st st' : State} → expr s e st = .ok r st' →
    r.occurrences.Perm (e.occurrences.flatMap s.after)
  | .literal _, _, _, _, _, _, h => by
    simp only [expr, pure_eq_ok] at h
    obtain ⟨rfl, _⟩ := h
    exact .refl _
  | .identifier _, _, _, _, _, _, h => by
    simp only [expr, pure_eq_ok] at h
    obtain ⟨rfl, _⟩ := h
    exact .refl _
  | .instruction span name arguments, _, hy, _, _, _, h => by
    simp only [expr, bind_eq_ok, pure_eq_ok] at h
    obtain ⟨rs, st₁, hrs, ⟨before, es⟩, st₂, hhoist, rfl, _⟩ := h
    have hall := (hoistArguments_occurrences hhoist).trans (exprs_occurrences hp arguments hy.2 hrs)
    exact List.perm_middle.trans (hall.cons _)
  | .call span callee arguments, _, hy, r, st, st', h => by
    rw [Expr.occurrences, List.flatMap_cons, s.after_call]
    cases hf : s.target? callee.name with
    | none =>
      simp only [expr, hf, bind_eq_ok, pure_eq_ok] at h
      obtain ⟨rs, st₁, hrs, ⟨before, es⟩, st₂, hhoist, rfl, _⟩ := h
      have hall :=
        (hoistArguments_occurrences hhoist).trans (exprs_occurrences hp arguments hy.2 hrs)
      exact List.perm_middle.trans (hall.cons _)
    | some f =>
      obtain ⟨hmem, _, _, _, hbody⟩ := hp.target hy.1 hf
      obtain ⟨x, st₁, before, body, hone, _, hexpand, rfl⟩ := expr_call_eq_ok hf h
      have htargets : f.returns.length = ([x].map Binder.name).length := hone
      have hlength {rs : List Staged} {st₂ : State} (hrs : exprs s arguments st₁ = .ok rs st₂) :=
        (exprs_fit hp arguments hy.2 hrs).1
      have hrest {rs : List Staged} {st₂ : State} (hrs : exprs s arguments st₁ = .ok rs st₂) :=
        exprs_occurrences hp arguments hy.2 hrs
      have hall := expandCall_occurrences hp hmem hbody htargets
        (fun _ _ hrs => ⟨hlength hrs, hrest hrs⟩) hexpand
      unfold Staged.occurrences
      rw [allOccurrences_spliced, Expr.occurrences, List.append_nil]
      exact hall

theorem exprs_occurrences {s : Setting} {c : Context} (hp : Place s.program c) :
    (es : List Expr) → Expr.AllSingle c es → {rs : List Staged} → {st st' : State} →
    exprs s es st = .ok rs st' →
    (rs.flatMap Staged.occurrences).Perm ((Expr.allOccurrences es).flatMap s.after)
  | [], _, _, _, _, h => by
    simp only [exprs, pure_eq_ok] at h
    obtain ⟨rfl, _⟩ := h
    exact .refl _
  | e :: es, hy, _, _, _, h => by
    simp only [exprs, bind_eq_ok, pure_eq_ok] at h
    obtain ⟨others, st₁, hothers, first, st₂, hfirst, rfl, _⟩ := h
    rw [List.flatMap_cons, Expr.allOccurrences, List.flatMap_append]
    exact (expr_occurrences hp e hy.1 hfirst).append (exprs_occurrences hp es hy.2 hothers)

end

section

variable {s : Setting} {c : Context}

theorem expand_occurrences (hp : Place s.program c) {e : Expr} {n : Nat} (hy : e.Yields c n)
    {t : Target} (hcall : s.call? e = some t) {targets : List String}
    (htargets : t.f.returns.length = targets.length) {before : List Stmt} {body : Block}
    {st st' : State} (h : expand s t targets st = .ok (before, body) st') :
    (Stmt.allOccurrences before ++ body.occurrences).Perm (e.occurrences.flatMap s.after) := by
  obtain ⟨hmem, _, hbody, harguments⟩ := call_target hp hy hcall
  obtain ⟨rfl, htarget⟩ := call?_eq_some hcall
  rw [Expr.occurrences, List.flatMap_cons, s.after_call]
  simp only [htarget]
  refine expandCall_occurrences hp hmem hbody htargets (fun rs st₁ hrs => ⟨?_, ?_⟩) h
  . exact (exprs_fit hp t.arguments harguments hrs).1
  . exact exprs_occurrences hp t.arguments harguments hrs

/-! ## Statements -/

theorem expressionStmt_occurrences (hp : Place s.program c) {e : Expr} (hy : e.Yields c 0)
    {before : List Stmt} {x' : Stmt} {st st' : State}
    (h : expressionStmt s e st = .ok (before, x') st') :
    (Stmt.allOccurrences (before ++ [x'])).Perm (e.occurrences.flatMap s.after) := by
  rcases expressionStmt_eq_ok h with ⟨r, hr, rfl, rfl⟩ |
    ⟨t, xs, st₁, before', body, hcall, hreturns, _, hexpand, hall⟩
  . rw [allOccurrences_append, allOccurrences_singleton]
    exact expr_occurrences hp e hy hr
  . rw [hall, allOccurrences_spliced]
    exact expand_occurrences hp hy hcall (by simpa using hreturns) hexpand

theorem declarationStmt_occurrences (hp : Place s.program c) {span : Span} {vars : List Binder}
    {value : Expr} (hy : value.Yields c vars.length) {before : List Stmt} {x' : Stmt}
    {st st' : State} (h : declarationStmt s span vars value st = .ok (before, x') st') :
    (Stmt.allOccurrences (before ++ [x'])).Perm (value.occurrences.flatMap s.after) := by
  rcases declarationStmt_eq_ok h with ⟨r, hr, rfl, rfl⟩ |
    ⟨t, before', body, hcall, hreturns, hexpand, hall⟩
  . rw [allOccurrences_append, allOccurrences_singleton]
    exact expr_occurrences hp value hy hr
  . rw [hall, allOccurrences_spliced]
    exact expand_occurrences hp hy hcall (by simpa using hreturns) hexpand

theorem assignmentStmt_occurrences (hp : Place s.program c) {span : Span}
    {targets : List Identifier} {value : Expr} (hv : (Stmt.assignment span targets value).Valid c)
    {before : List Stmt} {x' : Stmt} {st st' : State}
    (h : assignmentStmt s span targets value st = .ok (before, x') st') :
    (Stmt.allOccurrences (before ++ [x'])).Perm (value.occurrences.flatMap s.after) := by
  rcases assignmentStmt_eq_ok hp hv h with ⟨r, hr, rfl, rfl⟩ |
    ⟨t, xs, st₁, before', body, hcall, hreturns, _, _, hexpand, hall⟩
  . rw [allOccurrences_append, allOccurrences_singleton]
    exact expr_occurrences hp value hv.1 hr
  . rw [hall, allOccurrences_append, allOccurrences_copies, List.append_nil,
      allOccurrences_spliced]
    exact expand_occurrences hp hv.1 hcall (by simpa using hreturns) hexpand

end

mutual

theorem stmt_occurrences {s : Setting} {c : Context} (hp : Place s.program c) : (x : Stmt) →
    x.Valid c → x.boundNames ⊆ s.program.boundNames → x.functions ⊆ s.program.functions →
    {before : List Stmt} → {x' : Stmt} → {st st' : State} →
    stmt s x st = .ok (before, x') st' →
    (Stmt.allOccurrences (before ++ [x'])).Perm (x.occurrences.flatMap s.after)
  | .expression _, hv, _, _, _, _, _, _, h => expressionStmt_occurrences hp hv h
  | .declaration _ _ none, _, _, _, _, _, _, _, h => by
    simp only [stmt, pure_eq_ok, Prod.mk.injEq] at h
    obtain ⟨⟨rfl, rfl⟩, _⟩ := h
    exact .refl _
  | .declaration _ _ (some _), hv, _, _, _, _, _, _, h => declarationStmt_occurrences hp hv h
  | .assignment _ _ _, hv, _, _, _, _, _, _, h => assignmentStmt_occurrences hp hv h
  | .conditional span condition body, hv, hn, hf, _, _, _, _, h => by
    simp only [stmt, bind_eq_ok, pure_eq_ok, Prod.mk.injEq] at h
    obtain ⟨r, _, hr, body', _, hbody, ⟨rfl, rfl⟩, _⟩ := h
    rw [allOccurrences_append, allOccurrences_singleton, Stmt.occurrences, Stmt.occurrences,
      List.flatMap_append, ← List.append_assoc]
    exact (expr_occurrences hp condition hv.1 hr).append
      (block_occurrences hp body hv.2 hn hf hbody)
  | .switch span subject arms, hv, hn, hf, _, _, _, _, h => by
    simp only [stmt, bind_eq_ok, pure_eq_ok, Prod.mk.injEq] at h
    obtain ⟨r, _, hr, arms', _, harms, ⟨rfl, rfl⟩, _⟩ := h
    rw [allOccurrences_append, allOccurrences_singleton, Stmt.occurrences, Stmt.occurrences,
      List.flatMap_append, ← List.append_assoc]
    exact (expr_occurrences hp subject hv.1 hr).append
      (cases_occurrences hp arms hv.2.1 hn hf harms)
  | .loop span ⟨preSpan, pre⟩ condition post body, hv, hn, hf, _, _, _, _, h => by
    simp only [stmt, block, bind_eq_ok, pure_eq_ok, Prod.mk.injEq] at h
    obtain ⟨_, _, ⟨pre', _, hpre, rfl, rfl⟩, post', _, hpost, body', _, hbody, ⟨rfl, rfl⟩, _⟩ := h
    change Stmt.allBoundNames pre ++ post.boundNames ++ body.boundNames ⊆ _ at hn
    change Stmt.allFunctions pre ++ post.functions ++ body.functions ⊆ _ at hf
    rw [List.append_subset, List.append_subset] at hn hf
    have hp₁ := hp.enter hv.1 hf.1.1
    have hp₂ := hp₁.after hn.1.1
    have hpre' := stmts_occurrences hp₁ pre hv.1 hn.1.1 hf.1.1 hpre
    have hpost' := block_occurrences hp₂ post hv.2.2.1 hn.1.2 hf.1.2 hpost
    have hbody' := block_occurrences hp₂ body hv.2.2.2 hn.2 hf.2 hbody
    have hcondition : (condition.occurrences.map Occurrence.ofCondition).flatMap s.after =
        condition.occurrences.map Occurrence.ofCondition := by
      rw [List.flatMap_map, List.map_eq_flatMap]
      exact List.flatMap_congr fun o _ => s.after_ofCondition o
    rw [List.nil_append, allOccurrences_singleton, Stmt.occurrences, Stmt.occurrences,
      List.flatMap_append, List.flatMap_append, List.flatMap_append, hcondition]
    exact ((hpre'.append_right _).append hpost').append hbody'
  | .function ⟨f, body⟩, hv, hn, hf, _, _, _, _, h => by
    simp only [stmt, bind_eq_ok, pure_eq_ok, Prod.mk.injEq] at h
    obtain ⟨body', _, hbody, ⟨rfl, rfl⟩, _⟩ := h
    simp only [Stmt.boundNames, ← List.map_append, List.cons_append, List.cons_subset,
      List.append_subset] at hn
    have hin : Place (s.within f.name).program (c.enterFunction (f.parameters ++ f.returns)) :=
      hp.enterFunction hn.2.1
    have hbody' := block_occurrences hin body hv hn.2.2 (List.cons_subset.1 hf).2 hbody
    have hinside : (body.occurrences.map (Occurrence.inside · [f.name])).flatMap s.after =
        (body.occurrences.flatMap (s.within f.name).after).map (Occurrence.inside · [f.name]) := by
      rw [List.flatMap_map, List.map_flatMap]
      exact List.flatMap_congr fun o _ => s.after_inside o f.name
    rw [List.nil_append, allOccurrences_singleton, Stmt.occurrences, Stmt.occurrences,
      List.flatMap_cons, hinside]
    exact (hbody'.map _).cons _
  | .block b, hv, hn, hf, _, _, _, _, h => by
    simp only [stmt, bind_eq_ok, pure_eq_ok, Prod.mk.injEq] at h
    obtain ⟨b', _, hb, ⟨rfl, rfl⟩, _⟩ := h
    rw [List.nil_append, allOccurrences_singleton]
    exact block_occurrences hp b hv hn hf hb
  | .stack form, _, _, _, _, _, _, _, h => (throw_ne_ok h).elim

theorem stmts_occurrences {s : Setting} {c : Context} (hp : Place s.program c) :
    (xs : List Stmt) → Stmt.AllValid c xs → Stmt.allBoundNames xs ⊆ s.program.boundNames →
    Stmt.allFunctions xs ⊆ s.program.functions → {ss : List Stmt} → {st st' : State} →
    stmts s xs st = .ok ss st' →
    (Stmt.allOccurrences ss).Perm ((Stmt.allOccurrences xs).flatMap s.after)
  | [], _, _, _, _, _, _, h => by
    simp only [stmts, pure_eq_ok] at h
    obtain ⟨rfl, _⟩ := h
    exact .refl _
  | x :: xs, hv, hn, hf, _, _, _, h => by
    obtain ⟨before, x', _, others, hx, hxs, rfl⟩ := stmts_cons_eq_ok h
    have hp₁ := hp.next hn
    unfold Stmt.allBoundNames at hn
    unfold Stmt.allFunctions at hf
    rw [List.append_subset] at hn hf
    rw [allOccurrences_append _ others, Stmt.allOccurrences, List.flatMap_append]
    exact (stmt_occurrences hp x hv.1 hn.1 hf.1 hx).append
      (stmts_occurrences hp₁ xs hv.2 hn.2 hf.2 hxs)

theorem block_occurrences {s : Setting} {c : Context} (hp : Place s.program c) : (b : Block) →
    b.Valid c → b.boundNames ⊆ s.program.boundNames → b.functions ⊆ s.program.functions →
    {b' : Block} → {st st' : State} → block s b st = .ok b' st' →
    b'.occurrences.Perm (b.occurrences.flatMap s.after)
  | ⟨span, xs⟩, hv, hn, hf, _, _, _, h => by
    simp only [block, bind_eq_ok, pure_eq_ok] at h
    obtain ⟨ss, _, hss, rfl, _⟩ := h
    exact stmts_occurrences (hp.enter hv hf) xs hv hn hf hss

theorem cases_occurrences {s : Setting} {c : Context} (hp : Place s.program c) :
    (cs : List Case) → Case.AllValid c cs → Case.allBoundNames cs ⊆ s.program.boundNames →
    Case.allFunctions cs ⊆ s.program.functions → {cs' : List Case} → {st st' : State} →
    cases s cs st = .ok cs' st' →
    (Case.allOccurrences cs').Perm ((Case.allOccurrences cs).flatMap s.after)
  | [], _, _, _, _, _, _, h => by
    simp only [cases, pure_eq_ok] at h
    obtain ⟨rfl, _⟩ := h
    exact .refl _
  | ⟨span, value, body⟩ :: cs, hv, hn, hf, _, _, _, h => by
    simp only [cases, bind_eq_ok, pure_eq_ok] at h
    obtain ⟨body', _, hbody, others, _, hothers, rfl, _⟩ := h
    unfold Case.allBoundNames at hn
    unfold Case.allFunctions at hf
    rw [List.append_subset] at hn hf
    rw [Case.allOccurrences, Case.allOccurrences, List.flatMap_append]
    exact (block_occurrences hp body hv.1 hn.1 hf.1 hbody).append
      (cases_occurrences hp cs hv.2 hn.2 hf.2 hothers)

end

end Inlining
end Splice
