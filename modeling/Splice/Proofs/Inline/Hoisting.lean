import Splice.Proofs.Inline.Placement
import Splice.Proofs.Pass.Yields

/-!
This module contains the proof that the pass that inlines puts the arguments of a call that stays
where they belong: what is not movable is moved in front of the call if an argument further left has
statements that have to run before it.
-/

namespace Splice
namespace Inlining

abbrev Reserves {α : Type} (reserved : List String) (x : Pass α) (property : α → Prop) : Prop :=
  Yields (fun st => reserved ⊆ st.supply.used) x property

variable {reserved : List String}

/-! ## Names -/

theorem isStem_fresh_argument (supply : Supply) (callee : String) :
    IsStem (supply.fresh (callee ++ "_arg")).1 (callee ++ "_arg") := by
  have hlast : 'g' ∈ (callee ++ "_arg").toList.getLast? := by
    rw [String.toList_append, List.getLast?_append]
    rfl
  apply supply.isStem_freshName
  . intro hempty
    rw [hempty] at hlast
    contradiction
  . exact not_hasCounter hlast rfl

theorem reserves_fresh_argument (callee : String) :
    Reserves reserved (fresh (callee ++ "_arg")) fun name =>
      IsStem name (callee ++ "_arg") ∧ name ∉ reserved := by
  intro st name st' hreserved h
  unfold fresh at h
  rw [modifyGet_eq_ok] at h
  obtain ⟨rfl, rfl⟩ := h
  refine ⟨⟨isStem_fresh_argument st.supply callee, ?_⟩, ?_⟩
  . exact fun hmem => st.supply.fresh_notMem _ (hreserved hmem)
  . change reserved ⊆ (st.supply.fresh (callee ++ "_arg")).2.used
    rw [Supply.used_fresh]
    exact List.subset_cons_of_subset _ hreserved

theorem reserves_slots (callee : String) (span : Span) (xs : List Binder) :
    Reserves reserved (slots callee span xs) fun ys =>
      xs.length = (ys.map Binder.name).length := by
  intro st ys st' hreserved h
  obtain ⟨hlength, hgrows⟩ := slots_eq_ok h
  have hnames : (ys.map Binder.name).length = ys.length := List.length_map _
  exact ⟨(hnames.trans hlength).symm, List.Subset.trans hreserved hgrows.subset⟩

theorem reserves_checkReturns (f : Function) (expected : Nat) (span : Span) :
    Reserves reserved (checkReturns f expected span) fun _ => f.returns.length = expected := by
  intro st _ st' hreserved h
  obtain ⟨hlength, rfl⟩ := checkReturns_eq_ok h
  exact ⟨hlength, hreserved⟩

/-! ## Arguments of a call that stays -/

structure Hoisted (dialect : Dialect) (reserved : List String) (callee : String) (earlier : Bool)
    (ps : List Placement) : Prop where
  moved_iff : ∀ (i : Nat) (p : Placement), ps[i]? = some p → (p.moved?.isSome = true ↔
    p.rewritten.expr.isMovable = false ∧
      (earlier = true ∨ ∃ q ∈ ps.take i, q.rewritten.before ≠ []))
  declares : ∀ p ∈ ps, p.Declares dialect reserved callee

namespace Hoisted

variable {dialect : Dialect} {callee : String} {earlier : Bool} {ps : List Placement}

theorem nil : Hoisted dialect reserved callee earlier [] :=
  ⟨fun _ _ h => by simp at h, List.forall_mem_nil _⟩

theorem cons {p : Placement}
    (h : Hoisted dialect reserved callee (earlier || !p.rewritten.before.isEmpty) ps)
    (hmoved : p.moved?.isSome = (earlier && !p.rewritten.expr.isMovable))
    (hp : p.Declares dialect reserved callee) :
    Hoisted dialect reserved callee earlier (p :: ps) where
  moved_iff i q hq := by
    cases i with
    | zero =>
      obtain rfl : p = q := Option.some.inj hq
      simp [hmoved, and_comm]
    | succ i =>
      rw [h.moved_iff i q hq, List.take_succ_cons, List.exists_mem_cons_iff]
      simp [or_assoc]
  declares := List.forall_mem_cons.2 ⟨hp, h.declares⟩

theorem placed {s : Setting} {arguments : List Expr}
    (h : Hoisted s.dialect reserved callee false ps)
    (harguments : List.Forall₂ (Expr.InlinesTo reserved s) arguments
      (ps.map Placement.rewritten)) :
    Placed reserved s callee arguments ps where
  moved_iff i p hp := by
    rw [h.moved_iff i p hp]
    have hearlier : (∃ q ∈ ps.take i, q.rewritten.before ≠ []) ↔
        ∃ e ∈ arguments.take i, e.HasEligible s.enclosing := by
      rw [← Expr.InlinesTo.exists_eligible_iff (List.forall₂_take i harguments), ← List.map_take]
      simp only [List.mem_map, exists_exists_and_eq_and]
    simp only [Bool.false_eq_true, false_or, hearlier]
  declares := h.declares
  untouched i e p he hp hnone := by
    obtain ⟨hi, rfl⟩ := List.getElem?_eq_some_iff.1 he
    obtain ⟨hi', rfl⟩ := List.getElem?_eq_some_iff.1 hp
    have hrewritten := harguments.get hi (by rwa [List.length_map])
    rw [List.get_eq_getElem, List.get_eq_getElem, List.getElem_map] at hrewritten
    exact hrewritten.eq_of_not_hasEligible hnone

end Hoisted

theorem reserves_hoistArguments (dialect : Dialect) (callee : String) (earlier : Bool)
    (rs : List Staged) :
    Reserves reserved (hoistArguments dialect callee earlier rs) fun r =>
      ∃ ps, rs = ps.map Placement.rewritten ∧ Hoisted dialect reserved callee earlier ps ∧
        r = (Placement.allBefore ps, ps.map Placement.expr) := by
  induction rs generalizing earlier with
  | nil => exact .pure ⟨[], rfl, .nil, rfl⟩
  | cons r rs ih =>
    -- What is further right comes first, with the names that it takes.
    refine (ih _).bind ?_
    rintro _ ⟨ps, rfl, hps, rfl⟩
    dsimp only
    split
    . next hmove =>
      have hhoisted : Reserves reserved
          (modify fun st => { st with hoisted := st.hoisted + 1 } : Pass PUnit) fun _ => True :=
        .of_modify fun _ h => h
      refine (reserves_fresh_argument callee).bind fun name hname => ?_
      refine hhoisted.bind fun _ _ => .pure ?_
      let x : Binder := ⟨r.expr.span, name, dialect.defaultType⟩
      refine ⟨⟨r, some x⟩ :: ps, rfl, hps.cons hmove.symm ?_, ?_⟩
      . rintro _ ⟨⟩
        exact ⟨rfl, rfl, hname⟩
      . rw [Placement.allBefore_cons, List.map_cons, List.append_assoc]
        rfl
    . next hstay =>
      refine .pure ⟨⟨r, none⟩ :: ps, rfl, hps.cons (Bool.eq_false_iff.2 hstay).symm nofun, ?_⟩
      rw [Placement.allBefore_cons]
      rfl

/-! ## Calls that are replaced -/

theorem bindArguments_moves {callee : String} {span : Span} {pairs : List (Binder × Staged)}
    {ss : List Stmt} {replacements : List (String × String)} {st st' : State}
    (h : bindArguments callee span pairs st = .ok (ss, replacements) st') :
    ∃ xs : List Binder, xs.length = pairs.length ∧
      ss = ((pairs.map Prod.snd).zip xs).reverse.flatMap (fun (r, x) => moved span r x) ∧
      replacements = (pairs.map (Binder.name ∘ Prod.fst)).zip (xs.map Binder.name) := by
  induction pairs generalizing ss replacements st' with
  | nil =>
    simp only [bindArguments, pure_eq_ok, Prod.mk.injEq] at h
    obtain ⟨⟨rfl, rfl⟩, _⟩ := h
    exact ⟨[], rfl, rfl, rfl⟩
  | cons pair rest ih =>
    obtain ⟨ss', replacements', st₁, x, hrest, _, rfl, rfl⟩ := bindArguments_cons h
    obtain ⟨xs, hlength, rfl, rfl⟩ := ih hrest
    refine ⟨x :: xs, congrArg (· + 1) hlength, ?_, rfl⟩
    rw [List.map_cons, List.zip_cons_cons, List.reverse_cons, List.flatMap_append,
      List.flatMap_singleton]

section

variable {s : Setting} {c : Context}

theorem reserves_expandCall (hp : Place s.program c) {f : Function}
    (hf : f ∈ s.program.functions)
    (hbody : f.body.Valid (c.enterFunction (f.parameters ++ f.returns))) (span : Span)
    {es : List Expr} {staged : Pass (List Staged)} {R : Expr → Staged → Prop}
    (hstaged : Reserves reserved staged (List.Forall₂ R es)) {targets : List String}
    (htargets : f.returns.length = targets.length) :
    Reserves reserved (expandCall f span es.length staged targets) fun r =>
      ∃ rs, List.Forall₂ R es rs ∧ Expands s.program f span rs targets r.1 r.2 := by
  rintro st ⟨before, body⟩ st' hreserved h
  obtain ⟨hcount, rs, st₁, replacements, st₂, ρ, hrs, hbind, rfl, hinstance, hgrows⟩ :=
    expandCall_eq_ok hp hf hbody htargets
      (fun rs st₁ hrs => (hstaged st rs st₁ hreserved hrs).1.length_eq.symm) h
  obtain ⟨hall, hreserved₁⟩ := hstaged st rs st₁ hreserved hrs
  obtain ⟨xs, hlength, hbefore, rfl⟩ := bindArguments_moves hbind
  have hlengths : f.parameters.length = rs.length := hcount.trans hall.length_eq
  rw [List.map_snd_zip (Nat.le_of_eq hlengths.symm)] at hbefore
  rw [← List.map_map, List.map_fst_zip (Nat.le_of_eq hlengths)] at hinstance
  rw [List.length_zip, hlengths, Nat.min_self] at hlength
  refine ⟨⟨rs, hall, xs, ρ, hlength, hbefore, rfl, hinstance⟩, ?_⟩
  have hbinds := (bindArguments_eq_ok hbind).2.1
  exact List.Subset.trans hreserved₁ (hbinds.trans hgrows).subset

end

/-! ## Expressions -/

mutual

theorem expr_inlines {s : Setting} {c : Context} (hp : Place s.program c) : (e : Expr) →
    {n : Nat} → e.Yields c n → Reserves reserved (expr s e) (e.InlinesTo reserved s)
  | .literal l, _, _ => .pure (.literal l)
  | .identifier i, _, _ => .pure (.identifier i)
  | .instruction span name arguments, _, hy => by
    unfold expr
    refine (exprs_inline hp arguments hy.2).bind fun rs hrs => ?_
    refine (reserves_hoistArguments s.dialect name false rs).bind ?_
    rintro _ ⟨ps, rfl, hps, rfl⟩
    exact .pure (.instruction hrs (hps.placed hrs))
  | .call span callee arguments, _, hy => by
    unfold expr
    -- The call stays if the function is one of those around it.
    cases htarget : s.target? callee.name with
    | none =>
      refine (exprs_inline hp arguments hy.2).bind fun rs hrs => ?_
      refine (reserves_hoistArguments s.dialect callee.name false rs).bind ?_
      rintro _ ⟨ps, rfl, hps, rfl⟩
      exact .pure (.stays (hp.mem_enclosing hy.1 htarget) hrs (hps.placed hrs))
    | some f =>
      obtain ⟨hf, hname, _, _, hbody⟩ := hp.target hy.1 htarget
      refine (reserves_checkReturns f 1 span).bind fun _ hone => ?_
      refine (reserves_slots f.name span f.returns).bind fun xs hxs => ?_
      have hlength : xs.length = 1 := by rw [← hone, hxs, List.length_map]
      obtain ⟨x, rfl⟩ := List.length_eq_one_iff.1 hlength
      refine (reserves_expandCall hp hf hbody span (exprs_inline hp arguments hy.2) hxs).bind ?_
      rintro ⟨before, body⟩ ⟨rs, hrs, hexpands⟩
      exact .pure (.replaced (.call (Setting.target?_eq_some htarget).1 hf hname hrs hexpands))

theorem exprs_inline {s : Setting} {c : Context} (hp : Place s.program c) : (es : List Expr) →
    Expr.AllSingle c es →
    Reserves reserved (exprs s es) (List.Forall₂ (Expr.InlinesTo reserved s) es)
  | [], _ => .pure .nil
  | e :: es, hy => by
    unfold exprs
    refine (exprs_inline hp es hy.2).bind fun others hothers => ?_
    exact (expr_inlines hp e hy.1).bind fun first hfirst => .pure (.cons hfirst hothers)

end

/-! ## Statements -/

section

variable {s : Setting} {c : Context}

theorem reserves_expand (hp : Place s.program c) {e : Expr} {n : Nat} (hy : e.Yields c n)
    {t : Target} (hcall : s.call? e = some t) {targets : List String}
    (htargets : t.f.returns.length = targets.length) :
    Reserves reserved (expand s t targets) fun r => e.ExpandsTo reserved s targets r.1 r.2 := by
  obtain ⟨hf, _, hbody, harguments⟩ := call_target hp hy hcall
  obtain ⟨rfl, htarget⟩ := call?_eq_some hcall
  obtain ⟨_, hname, _⟩ := hp.target hy.1 htarget
  refine (reserves_expandCall hp hf hbody t.span (exprs_inline hp t.arguments harguments)
    htargets).imp ?_
  rintro ⟨before, body⟩ ⟨rs, hrs, hexpands⟩
  exact .call (Setting.target?_eq_some htarget).1 hf hname hrs hexpands

theorem expressionStmt_inlines (hp : Place s.program c) {e : Expr} (hy : e.Yields c 0) :
    Reserves reserved (expressionStmt s e) fun r =>
      (Stmt.expression e).InlinesTo reserved s (r.1 ++ [r.2]) := by
  unfold expressionStmt
  cases hcall : s.call? e with
  | none => exact (expr_inlines hp e hy).bind fun r hr => .pure (.expression hcall hr)
  | some t =>
    refine (reserves_slots t.f.name t.span t.f.returns).bind fun xs hxs => ?_
    refine (reserves_expand hp hy hcall hxs).bind ?_
    rintro ⟨before, body⟩ h
    obtain ⟨rfl, _⟩ := call?_eq_some hcall
    exact .pure (.expressionCall h)

theorem declarationStmt_inlines (hp : Place s.program c) (span : Span) {vars : List Binder}
    {value : Expr} (hy : value.Yields c vars.length) :
    Reserves reserved (declarationStmt s span vars value) fun r =>
      (Stmt.declaration span vars (some value)).InlinesTo reserved s (r.1 ++ [r.2]) := by
  unfold declarationStmt
  cases hcall : s.call? value with
  | none => exact (expr_inlines hp value hy).bind fun r hr => .pure (.declaration hcall hr)
  | some t =>
    refine (reserves_checkReturns t.f vars.length t.span).bind fun _ hreturns => ?_
    have htargets : t.f.returns.length = (vars.map Binder.name).length := by
      rw [List.length_map, hreturns]
    refine (reserves_expand hp hy hcall htargets).bind ?_
    rintro ⟨before, body⟩ h
    obtain ⟨rfl, _⟩ := call?_eq_some hcall
    exact .pure (.declarationCall h)

theorem assignmentStmt_inlines (hp : Place s.program c) {span : Span} {targets : List Identifier}
    {value : Expr} (hv : (Stmt.assignment span targets value).Valid c) :
    Reserves reserved (assignmentStmt s span targets value) fun r =>
      (Stmt.assignment span targets value).InlinesTo reserved s (r.1 ++ [r.2]) := by
  unfold assignmentStmt
  cases hcall : s.call? value with
  | none => exact (expr_inlines hp value hv.1).bind fun r hr => .pure (.assignment hcall hr)
  | some t =>
    refine (reserves_checkReturns t.f targets.length t.span).bind fun _ hreturns => ?_
    refine (reserves_slots t.f.name t.span t.f.returns).bind fun xs hxs => ?_
    refine (reserves_expand hp hv.1 hcall hxs).bind ?_
    rintro ⟨before, body⟩ hexpands st r st' hreserved h
    rw [List.length_map] at hxs
    -- The last copy stands in the place of the assignment, and without targets there would be none.
    have hne : targets ≠ [] :=
      fun hnil => Bool.false_ne_true (hp.targetless.symm.trans (hv.2.2 hnil))
    obtain ⟨hcopies, rfl⟩ := copies_eq_ok hne (hxs.symm.trans hreturns) h
    obtain ⟨rfl, _⟩ := call?_eq_some hcall
    refine ⟨?_, hreserved⟩
    change Stmt.InlinesTo _ _ _ (r.1 ++ [r.2])
    rw [hcopies]
    exact .assignmentCall hexpands

end

mutual

theorem stmt_inlines {s : Setting} {c : Context} (hp : Place s.program c) : (x : Stmt) →
    x.Valid c → x.boundNames ⊆ s.program.boundNames → x.functions ⊆ s.program.functions →
    Reserves reserved (stmt s x) fun r => x.InlinesTo reserved s (r.1 ++ [r.2])
  | .expression _, hv, _, _ => expressionStmt_inlines hp hv
  | .declaration span vars none, _, _, _ => .pure (.bareDeclaration span vars)
  | .declaration span _ (some _), hv, _, _ => declarationStmt_inlines hp span hv
  | .assignment _ _ _, hv, _, _ => assignmentStmt_inlines hp hv
  | .conditional _ condition body, hv, hn, hf => by
    unfold stmt
    refine (expr_inlines hp condition hv.1).bind fun r hr => ?_
    exact (block_inlines hp body hv.2 hn hf).bind fun _ hbody => .pure (.conditional hr hbody)
  | .switch _ subject arms, hv, hn, hf => by
    unfold stmt
    refine (expr_inlines hp subject hv.1).bind fun r hr => ?_
    exact (cases_inline hp arms hv.2.1 hn hf).bind fun _ harms => .pure (.switch hr harms)
  | .loop _ ⟨preSpan, pre⟩ _ post body, hv, hn, hf => by
    change Stmt.allBoundNames pre ++ post.boundNames ++ body.boundNames ⊆ _ at hn
    change Stmt.allFunctions pre ++ post.functions ++ body.functions ⊆ _ at hf
    rw [List.append_subset, List.append_subset] at hn hf
    have hp₂ := (hp.enter hv.1 hf.1.1).after hn.1.1
    unfold stmt
    refine (block_inlines hp ⟨preSpan, pre⟩ hv.1 hn.1.1 hf.1.1).bind fun _ hpre => ?_
    refine (block_inlines hp₂ post hv.2.2.1 hn.1.2 hf.1.2).bind fun _ hpost => ?_
    refine (block_inlines hp₂ body hv.2.2.2 hn.2 hf.2).bind fun _ hbody => ?_
    exact .pure (.loop hpre hpost hbody)
  | .function ⟨f, body⟩, hv, hn, hf => by
    simp only [Stmt.boundNames, ← List.map_append, List.cons_append, List.cons_subset,
      List.append_subset] at hn
    have hin : Place (s.within f.name).program (c.enterFunction (f.parameters ++ f.returns)) :=
      hp.enterFunction hn.2.1
    unfold stmt
    refine (block_inlines hin body hv hn.2.2 (List.cons_subset.1 hf).2).bind fun _ hbody => ?_
    exact .pure (.function hbody)
  | .block b, hv, hn, hf => by
    unfold stmt
    exact (block_inlines hp b hv hn hf).bind fun _ hb => .pure (.block hb)
  | .stack _, _, _, _ => .throw

theorem stmts_inline {s : Setting} {c : Context} (hp : Place s.program c) : (xs : List Stmt) →
    Stmt.AllValid c xs → Stmt.allBoundNames xs ⊆ s.program.boundNames →
    Stmt.allFunctions xs ⊆ s.program.functions →
    Reserves reserved (stmts s xs) (Stmt.AllInlineTo reserved s xs)
  | [], _, _, _ => .pure .nil
  | x :: xs, hv, hn, hf => by
    have hp₁ := hp.next hn
    unfold Stmt.allBoundNames at hn
    unfold Stmt.allFunctions at hf
    rw [List.append_subset] at hn hf
    unfold stmts
    refine (stmt_inlines hp x hv.1 hn.1 hf.1).bind ?_
    rintro ⟨before, x'⟩ hx
    refine (stmts_inline hp₁ xs hv.2 hn.2 hf.2).bind fun others hxs => .pure ?_
    have hall := Stmt.AllInlineTo.cons hx hxs
    rwa [List.append_assoc] at hall

theorem block_inlines {s : Setting} {c : Context} (hp : Place s.program c) : (b : Block) →
    b.Valid c → b.boundNames ⊆ s.program.boundNames → b.functions ⊆ s.program.functions →
    Reserves reserved (block s b) (b.InlinesTo reserved s)
  | ⟨_, xs⟩, hv, hn, hf => by
    unfold block
    exact (stmts_inline (hp.enter hv hf) xs hv hn hf).bind fun _ hxs => .pure (.mk hxs)

theorem cases_inline {s : Setting} {c : Context} (hp : Place s.program c) : (cs : List Case) →
    Case.AllValid c cs → Case.allBoundNames cs ⊆ s.program.boundNames →
    Case.allFunctions cs ⊆ s.program.functions →
    Reserves reserved (cases s cs) (Case.AllInlineTo reserved s cs)
  | [], _, _, _ => .pure .nil
  | ⟨_, _, body⟩ :: cs, hv, hn, hf => by
    unfold Case.allBoundNames at hn
    unfold Case.allFunctions at hf
    rw [List.append_subset] at hn hf
    unfold cases
    refine (block_inlines hp body hv.1 hn.1 hf.1).bind fun _ hbody => ?_
    exact (cases_inline hp cs hv.2 hn.2 hf.2).bind fun _ hcs => .pure (.cons hbody hcs)

end

end Inlining
end Splice
