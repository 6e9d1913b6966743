import Splice.Proofs.Inline.Valid
import Splice.Proofs.Pass.Yields

/-!
This module contains the proof that inlining keeps a program legible. What the pass adds are
declarations of fresh variables, copied bodies and uses of those variables, and all of their names
can be bound.
-/

namespace Splice

/-! ## Copied bodies -/

namespace BodyCopy

def AllBindable (s : State) : Prop :=
  ∀ r ∈ s.replacements, Bindable r.2

theorem allBindable_cons {s : State} (hs : AllBindable s) {before after : String}
    (h : Bindable after) {supply : Supply} :
    AllBindable ⟨supply, (before, after) :: s.replacements⟩ :=
  List.forall_mem_cons.2 ⟨h, hs⟩

theorem yields_use (i : Identifier) :
    Yields AllBindable (use i) fun j => j.name = i.name ∨ Bindable j.name := by
  intro s j s' hs hrun
  unfold use at hrun
  simp only [bind_eq_ok, get_eq_ok, pure_eq_ok] at hrun
  obtain ⟨_, _, ⟨rfl, rfl⟩, rfl, rfl⟩ := hrun
  refine ⟨?_, hs⟩
  cases hlookup : s.replacements.lookup i.name with
  | none => exact .inl rfl
  | some name => exact .inr (snd_of_lookup hs hlookup)

theorem yields_declare {d : Dialect} {name : String} (hname : Lexer.isIdentifier name.toList = true)
    (xs : List Binder) (hxs : ∀ x ∈ xs, x.Legible d) :
    Yields AllBindable (declare (name ++ "_") xs) fun ys =>
      ys.length = xs.length ∧ ∀ y ∈ ys, y.Legible d := by
  induction xs with
  | nil => exact .pure ⟨rfl, List.forall_mem_nil _⟩
  | cons x xs ih =>
    rw [List.forall_mem_cons] at hxs
    intro s ys s' hs hrun
    simp only [declare, bind_eq_ok, get_eq_ok, set_eq_ok, pure_eq_ok] at hrun
    obtain ⟨_, _, ⟨rfl, rfl⟩, _, _, rfl, others, mid, hothers, rfl, rfl⟩ := hrun
    have hfresh := s.supply.bindable_fresh_append hname hxs.1.1.isIdentifier
    obtain ⟨⟨hlength, hlegible⟩, hmid⟩ := ih hxs.2 _ others mid (allBindable_cons hs hfresh) hothers
    refine ⟨⟨congrArg (· + 1) hlength, ?_⟩, hmid⟩
    rw [List.forall_mem_cons]
    exact ⟨⟨hfresh, hxs.1.2⟩, hlegible⟩

theorem keepsLegible (d : Dialect) {name : String}
    (hname : Lexer.isIdentifier name.toList = true) :
    (traversal (name ++ "_")).KeepsLegible d AllBindable where
  use := yields_use
  vars := yields_declare hname
  enterFunction _ _ := .throw
  leaveFunction := .pure trivial
  enterBlock _ _ := .pure trivial
  leaveBlock := .pure trivial
  stackForm _ _ := .throw

end BodyCopy

theorem Block.Legible.copyBody {d : Dialect} {name : String}
    (hname : Lexer.isIdentifier name.toList = true) {replacements : List (String × String)}
    (hreplacements : ∀ r ∈ replacements, Bindable r.2) {body body' : Block} (hbody : body.Legible d)
    {supply supply' : Supply}
    (h : Splice.copyBody (name ++ "_") replacements body supply = .ok body' supply') :
    body'.Legible d := by
  unfold Splice.copyBody at h
  split at h
  . next b s hrun =>
    cases h
    exact ((BodyCopy.keepsLegible d hname).block body hbody ⟨supply, replacements⟩ _ s hreplacements
      hrun).1
  . cases h

/-! ## Functions -/

variable {d : Dialect}

mutual

theorem Stmt.Legible.functions : {s : Stmt} → s.Legible d →
    ∀ f ∈ s.functions, f.toSignature.Legible d ∧ f.body.Legible d
  | .expression _, _ => List.forall_mem_nil _
  | .declaration .., _ => List.forall_mem_nil _
  | .assignment .., _ => List.forall_mem_nil _
  | .conditional .., h => Block.Legible.functions h.2
  | .switch .., h => Case.AllLegible.functions h.2.1
  | .loop .., h =>
    List.forall_mem_append.2 ⟨List.forall_mem_append.2 ⟨Block.Legible.functions h.1,
      Block.Legible.functions h.2.2.1⟩, Block.Legible.functions h.2.2.2⟩
  | .function ⟨_, _⟩, h => List.forall_mem_cons.2 ⟨h, Block.Legible.functions h.2⟩
  | .block _, h => Block.Legible.functions h
  | .stack _, _ => List.forall_mem_nil _

theorem Stmt.AllLegible.functions : {ss : List Stmt} → Stmt.AllLegible d ss →
    ∀ f ∈ Stmt.allFunctions ss, f.toSignature.Legible d ∧ f.body.Legible d
  | [], _ => List.forall_mem_nil _
  | _ :: _, h => List.forall_mem_append.2 ⟨Stmt.Legible.functions h.1, Stmt.AllLegible.functions h.2⟩

theorem Block.Legible.functions : {b : Block} → b.Legible d →
    ∀ f ∈ b.functions, f.toSignature.Legible d ∧ f.body.Legible d
  | ⟨_, _⟩, h => Stmt.AllLegible.functions h

theorem Case.AllLegible.functions : {cs : List Case} → Case.AllLegible d cs →
    ∀ f ∈ Case.allFunctions cs, f.toSignature.Legible d ∧ f.body.Legible d
  | [], _ => List.forall_mem_nil _
  | ⟨_, _, _⟩ :: _, h =>
    List.forall_mem_append.2 ⟨Block.Legible.functions h.2.1, Case.AllLegible.functions h.2.2⟩

end

theorem Dialect.typeLegible_defaultType (d : Dialect) : d.TypeLegible d.defaultType := by
  intro t ht
  cases d <;> cases ht
  exact ⟨rfl, ⟨by decide, by decide⟩, by decide⟩

theorem Identifier.AllTargets.singleton {targets : List Identifier}
    (h : Identifier.AllTargets d targets) : ∀ i ∈ targets, Identifier.AllTargets d [i] := by
  cases targets with
  | nil => contradiction
  | cons first others =>
    rw [List.forall_mem_cons]
    refine ⟨⟨h.1, h.2.1, List.forall_mem_nil _⟩, fun i hi => ?_⟩
    exact Identifier.allTargets_of_bindable (List.cons_ne_nil _ _)
      (List.forall_mem_singleton.2 (h.2.2 i hi))

/-! ## Calls -/

namespace Inlining

def Staged.Legible (d : Dialect) (r : Staged) : Prop :=
  Stmt.AllLegible d r.before ∧ r.expr.Legible d

abbrev Gives {α : Type} (x : Pass α) (property : α → Prop) : Prop :=
  Yields (fun _ => True) x property

theorem gives_fresh {a b : String} (ha : Lexer.isIdentifier a.toList = true)
    (hb : Lexer.isIdentifier b.toList = true) : Gives (fresh (a ++ "_" ++ b)) Bindable := by
  intro st x st' _ h
  unfold fresh at h
  rw [modifyGet_eq_ok] at h
  rw [← h.1]
  exact ⟨st.supply.bindable_fresh_append ha hb, trivial⟩

theorem gives_modify {f : State → State} : Gives (modify f) fun _ => True :=
  .of_modify fun _ h => h

theorem gives_checkReturns {f : Function} {expected : Nat} {span : Span} :
    Gives (checkReturns f expected span) fun _ => True := by
  unfold checkReturns
  split
  . exact .pure trivial
  . exact .throw

theorem gives_checkArguments {f : Function} {found : Nat} {span : Span} :
    Gives (checkArguments f found span) fun _ => True := by
  unfold checkArguments
  split
  . exact .pure trivial
  . exact .throw

theorem allLegible_zeros (span : Span) {xs : List Binder} (hxs : ∀ x ∈ xs, x.Legible d) :
    Stmt.AllLegible d (xs.map (zeroDeclaration span)) := by
  rw [Stmt.allLegible_iff, List.forall_mem_map]
  intro x hx
  have hzero : Lexer.isNumber "0".toList = true := by decide
  refine ⟨List.cons_ne_nil _ _, List.forall_mem_singleton.2 (hxs x hx), fun e he => ?_⟩
  cases he
  exact ⟨hzero, nofun, (hxs x hx).2⟩

theorem allLegible_moved (span : Span) {r : Staged} (hr : r.Legible d) {x : Binder} (hx : x.Legible d) :
    Stmt.AllLegible d (r.before ++ [.declaration span [x] (some r.expr)]) := by
  rw [Stmt.allLegible_append]
  refine ⟨hr.1, ⟨List.cons_ne_nil _ _, List.forall_mem_singleton.2 hx, fun e he => ?_⟩, trivial⟩
  cases he
  exact hr.2

section

variable {callee : String} (hcallee : Lexer.isIdentifier callee.toList = true) (span : Span)

include hcallee

theorem gives_slots (xs : List Binder) (hxs : ∀ x ∈ xs, x.Legible d) :
    Gives (slots callee span xs) fun ys => ∀ y ∈ ys, y.Legible d := by
  induction xs with
  | nil => exact .pure (List.forall_mem_nil _)
  | cons x xs ih =>
    rw [List.forall_mem_cons] at hxs
    refine (gives_fresh hcallee hxs.1.1.isIdentifier).bind fun name hname => ?_
    refine (ih hxs.2).bind fun others hothers => .pure ?_
    exact List.forall_mem_cons.2 ⟨⟨hname, hxs.1.2⟩, hothers⟩

theorem gives_bindArguments (pairs : List (Binder × Staged))
    (hpairs : ∀ pair ∈ pairs, pair.1.Legible d ∧ pair.2.Legible d) :
    Gives (bindArguments callee span pairs) fun r =>
      Stmt.AllLegible d r.1 ∧ ∀ pair ∈ r.2, Bindable pair.2 := by
  induction pairs with
  | nil => exact .pure ⟨trivial, List.forall_mem_nil _⟩
  | cons pair pairs ih =>
    obtain ⟨parameter, argument⟩ := pair
    rw [List.forall_mem_cons] at hpairs
    obtain ⟨⟨hparameter, hargument⟩, hpairs⟩ := hpairs
    refine (ih hpairs).bind fun r hr => ?_
    refine (gives_fresh hcallee hparameter.1.isIdentifier).bind fun name hname => .pure ?_
    rw [List.append_assoc, Stmt.allLegible_append]
    refine ⟨⟨hr.1, allLegible_moved span hargument ?_⟩, List.forall_mem_cons.2 ⟨hname, hr.2⟩⟩
    exact ⟨hname, hparameter.2⟩

theorem gives_hoistArguments (rs : List Staged) (hrs : ∀ r ∈ rs, r.Legible d) (earlier : Bool) :
    Gives (hoistArguments d callee earlier rs) fun r =>
      Stmt.AllLegible d r.1 ∧ Expr.AllLegible d r.2 := by
  induction rs generalizing earlier with
  | nil => exact .pure ⟨trivial, trivial⟩
  | cons r rs ih =>
    rw [List.forall_mem_cons] at hrs
    refine (ih hrs.2 _).bind ?_
    rintro ⟨statements, es⟩ hothers
    dsimp only
    split
    . have hlabel : callee ++ "_arg" = callee ++ "_" ++ "arg" := by
        rw [String.append_assoc]
        rfl
      have hfresh := gives_fresh (b := "arg") hcallee (by decide)
      rw [hlabel]
      refine hfresh.bind fun name hname => gives_modify.bind fun _ _ => .pure ?_
      rw [List.append_assoc, Stmt.allLegible_append]
      exact ⟨⟨hothers.1, allLegible_moved _ hrs.1 ⟨hname, d.typeLegible_defaultType⟩⟩,
        hname.toUsable, hothers.2⟩
    . refine .pure ⟨?_, hrs.1.2, hothers.2⟩
      rw [Stmt.allLegible_append]
      exact ⟨hothers.1, hrs.1.1⟩

end

theorem gives_instantiate {f : Function} (hf : f.toSignature.Legible d) (hbody : f.body.Legible d)
    {replacements : List (String × String)} (hreplacements : ∀ r ∈ replacements, Bindable r.2)
    {targets : List String} (htargets : ∀ x ∈ targets, Bindable x) :
    Gives (instantiate f replacements targets) (Block.Legible d) := by
  intro st body st' _ h
  unfold instantiate at h
  dsimp only at h
  split at h
  . next b supply hcopy =>
    cases h
    refine ⟨hbody.copyBody hf.name.isIdentifier ?_ hcopy, trivial⟩
    rw [List.forall_mem_append]
    refine ⟨fun r hr => htargets _ (List.of_mem_zip (List.mem_reverse.1 hr)).2, hreplacements⟩
  . cases h

theorem gives_expandCall {f : Function} (hf : f.toSignature.Legible d) (hbody : f.body.Legible d)
    (span : Span) (count : Nat) {staged : Pass (List Staged)}
    (hstaged : Gives staged fun rs => ∀ r ∈ rs, r.Legible d) {targets : List String}
    (htargets : ∀ x ∈ targets, Bindable x) :
    Gives (expandCall f span count staged targets) fun r =>
      Stmt.AllLegible d r.1 ∧ r.2.Legible d := by
  unfold expandCall
  refine gives_checkArguments.bind fun _ _ => hstaged.bind fun rs hrs => ?_
  have hpairs : ∀ pair ∈ f.parameters.zip rs, pair.1.Legible d ∧ pair.2.Legible d := by
    intro pair hpair
    have hmem := List.of_mem_zip hpair
    exact ⟨hf.parameters _ hmem.1, hrs _ hmem.2⟩
  refine (gives_bindArguments hf.name.isIdentifier span _ hpairs).bind ?_
  rintro ⟨before, replacements⟩ ⟨hbefore, hreplacements⟩
  refine (gives_instantiate hf hbody hreplacements htargets).bind ?_
  rintro ⟨_, ss⟩ hss
  exact gives_modify.bind fun _ _ => .pure ⟨hbefore, hss⟩

/-! ## Expressions -/

variable {s : Setting}

theorem target?_legible (hs : s.program.Legible s.dialect) {name : String} {f : Function}
    (h : s.target? name = some f) :
    f.toSignature.Legible s.dialect ∧ f.body.Legible s.dialect :=
  hs.functions f (Setting.target?_eq_some h).2.1

theorem names_bindable {xs : List Binder} (hxs : ∀ x ∈ xs, x.Legible d) :
    ∀ x ∈ xs.map Binder.name, Bindable x := by
  rw [List.forall_mem_map]
  exact fun x hx => (hxs x hx).1

theorem allLegible_spliced {before : List Stmt} (hbefore : Stmt.AllLegible d before) (span : Span)
    {xs : List Binder} (hxs : ∀ x ∈ xs, x.Legible d) :
    Stmt.AllLegible d (before ++ xs.map (zeroDeclaration span)) := by
  rw [Stmt.allLegible_append]
  exact ⟨hbefore, allLegible_zeros span hxs⟩

mutual

theorem gives_expr (hs : s.program.Legible s.dialect) : (e : Expr) → e.Legible s.dialect →
    Gives (expr s e) fun r =>
      r.Legible s.dialect ∧ (e.Leads s.dialect → r.expr.Leads s.dialect)
  | .literal _, he => .pure ⟨⟨trivial, he⟩, id⟩
  | .identifier _, he => .pure ⟨⟨trivial, he⟩, id⟩
  | .instruction span name arguments, he => by
    unfold expr
    refine (gives_exprs hs arguments he.2).bind fun rs hrs => ?_
    refine (gives_hoistArguments (Instruction.usable he.1).isIdentifier rs hrs false).bind ?_
    rintro ⟨before, es⟩ ⟨hbefore, hes⟩
    exact .pure ⟨⟨hbefore, he.1, hes⟩, id⟩
  | .call span callee arguments, he => by
    unfold expr
    split
    . refine (gives_exprs hs arguments he.2).bind fun rs hrs => ?_
      refine (gives_hoistArguments he.1.isIdentifier rs hrs false).bind ?_
      rintro ⟨before, es⟩ ⟨hbefore, hes⟩
      exact .pure ⟨⟨hbefore, he.1, hes⟩, id⟩
    . next f htarget =>
      obtain ⟨hf, hbody⟩ := target?_legible hs htarget
      refine gives_checkReturns.bind fun _ _ => ?_
      refine (gives_slots hf.name.isIdentifier span _ hf.returns).bind fun xs hxs => ?_
      refine (gives_expandCall hf hbody span _ (gives_exprs hs arguments he.2)
        (names_bindable hxs)).bind ?_
      rintro ⟨before, body⟩ ⟨hbefore, hbody⟩
      have hspliced : Stmt.AllLegible s.dialect
          (before ++ xs.map (zeroDeclaration span) ++ [.block body]) := by
        rw [Stmt.allLegible_append]
        exact ⟨allLegible_spliced hbefore span hxs, hbody, trivial⟩
      dsimp only
      split
      . have hx := (hxs _ List.mem_cons_self).1
        exact .pure ⟨⟨hspliced, hx.toUsable⟩, fun _ => hx.leads⟩
      . exact .pure ⟨⟨hspliced, he.1, trivial⟩, id⟩

theorem gives_exprs (hs : s.program.Legible s.dialect) :
    (es : List Expr) → Expr.AllLegible s.dialect es →
    Gives (exprs s es) fun rs => ∀ r ∈ rs, r.Legible s.dialect
  | [], _ => .pure (List.forall_mem_nil _)
  | e :: es, hes => by
    unfold exprs
    refine (gives_exprs hs es hes.2).bind fun others hothers => ?_
    exact (gives_expr hs e hes.1).bind fun first hfirst =>
      .pure (List.forall_mem_cons.2 ⟨hfirst.1, hothers⟩)

end

/-! ## Statements -/

def StagedStmt.Legible (d : Dialect) (r : StagedStmt) : Prop :=
  Stmt.AllLegible d r.1 ∧ r.2.Legible d

theorem gives_expand (hs : s.program.Legible s.dialect) {e : Expr} (he : e.Legible s.dialect)
    {c : Target} (hcall : s.call? e = some c) {targets : List String}
    (htargets : ∀ x ∈ targets, Bindable x) :
    Gives (expand s c targets) fun r =>
      Stmt.AllLegible s.dialect r.1 ∧ r.2.Legible s.dialect := by
  obtain ⟨rfl, htarget⟩ := call?_eq_some hcall
  obtain ⟨hf, hbody⟩ := target?_legible hs htarget
  exact gives_expandCall hf hbody c.span _ (gives_exprs hs c.arguments he.2) htargets

theorem call?_legible (hs : s.program.Legible s.dialect) {e : Expr} {c : Target}
    (hcall : s.call? e = some c) : c.f.toSignature.Legible s.dialect :=
  (target?_legible hs (call?_eq_some hcall).2).1

theorem gives_expressionStmt (hs : s.program.Legible s.dialect) {e : Expr} (he : e.Legible s.dialect)
    (hleads : e.Leads s.dialect) : Gives (expressionStmt s e) (StagedStmt.Legible s.dialect) := by
  unfold expressionStmt
  cases hcall : s.call? e with
  | none =>
    refine (gives_expr hs e he).bind fun r hr => .pure ?_
    exact ⟨hr.1.1, hr.1.2, hr.2 hleads⟩
  | some c =>
    have hf := call?_legible hs hcall
    refine (gives_slots hf.name.isIdentifier c.span _ hf.returns).bind fun xs hxs => ?_
    refine (gives_expand hs he hcall (names_bindable hxs)).bind ?_
    rintro ⟨before, body⟩ ⟨hbefore, hbody⟩
    exact .pure ⟨allLegible_spliced hbefore c.span hxs, hbody⟩

theorem gives_declarationStmt (hs : s.program.Legible s.dialect) (span : Span) {vars : List Binder}
    (hne : vars ≠ []) (hvars : ∀ x ∈ vars, x.Legible s.dialect) {value : Expr}
    (hvalue : value.Legible s.dialect) :
    Gives (declarationStmt s span vars value) (StagedStmt.Legible s.dialect) := by
  unfold declarationStmt
  cases hcall : s.call? value with
  | none =>
    refine (gives_expr hs value hvalue).bind fun r hr => .pure ⟨hr.1.1, hne, hvars, fun e he => ?_⟩
    cases he
    exact hr.1.2
  | some c =>
    refine gives_checkReturns.bind fun _ _ => ?_
    refine (gives_expand hs hvalue hcall (names_bindable hvars)).bind ?_
    rintro ⟨before, body⟩ ⟨hbefore, hbody⟩
    exact .pure ⟨allLegible_spliced hbefore span hvars, hbody⟩

theorem gives_assignmentStmt (hs : s.program.Legible s.dialect) (span : Span)
    {targets : List Identifier} (htargets : Identifier.AllTargets s.dialect targets) {value : Expr}
    (hvalue : value.Legible s.dialect) :
    Gives (assignmentStmt s span targets value) (StagedStmt.Legible s.dialect) := by
  unfold assignmentStmt
  cases hcall : s.call? value with
  | none =>
    exact (gives_expr hs value hvalue).bind fun r hr => .pure ⟨hr.1.1, htargets, hr.1.2⟩
  | some c =>
    have hf := call?_legible hs hcall
    refine gives_checkReturns.bind fun _ _ => ?_
    refine (gives_slots hf.name.isIdentifier c.span _ hf.returns).bind fun xs hxs => ?_
    refine (gives_expand hs hvalue hcall (names_bindable hxs)).bind ?_
    rintro ⟨before, body⟩ ⟨hbefore, hbody⟩
    have hcopies : ∀ x ∈ (targets.zip xs).map fun pair =>
        Stmt.assignment span [pair.1] (.identifier ⟨c.span, pair.2.name⟩),
        x.Legible s.dialect := by
      rw [List.forall_mem_map]
      rintro ⟨target, x⟩ hpair
      have hmem := List.of_mem_zip hpair
      exact ⟨htargets.singleton target hmem.1, (hxs x hmem.2).1.toUsable⟩
    have hspliced := allLegible_spliced hbefore c.span hxs
    dsimp only
    split
    . next last hlast =>
      refine .pure ⟨?_, hcopies last (List.mem_of_getLast? hlast)⟩
      rw [Stmt.allLegible_append, Stmt.allLegible_append, Stmt.allLegible_iff _ (List.dropLast _)]
      exact ⟨⟨hspliced, hbody, trivial⟩, fun x hx => hcopies x ((List.dropLast_sublist _).subset hx)⟩
    . refine .pure ⟨?_, htargets, ?_⟩
      . rw [Stmt.allLegible_append]
        exact ⟨hspliced, hbody, trivial⟩
      . obtain ⟨rfl, _⟩ := call?_eq_some hcall
        exact ⟨hvalue.1, trivial⟩

mutual

theorem gives_stmt {s : Setting} (hs : s.program.Legible s.dialect) : (x : Stmt) → x.Legible s.dialect →
    Gives (stmt s x) (StagedStmt.Legible s.dialect)
  | .expression _, hx => gives_expressionStmt hs hx.1 hx.2
  | .declaration _ _ none, hx => .pure ⟨trivial, hx⟩
  | .declaration span _ (some value), hx =>
    gives_declarationStmt hs span hx.1 hx.2.1 (hx.2.2 value rfl)
  | .assignment span _ _, hx => gives_assignmentStmt hs span hx.1 hx.2
  | .conditional _ condition body, hx => by
    unfold stmt
    refine (gives_expr hs condition hx.1).bind fun r hr => ?_
    exact (gives_block hs body hx.2).bind fun _ hbody => .pure ⟨hr.1.1, hr.1.2, hbody⟩
  | .switch _ subject arms, hx => by
    unfold stmt
    refine (gives_expr hs subject hx.1).bind fun r hr => ?_
    refine (gives_cases hs arms hx.2.1).bind fun arms' harms => .pure ?_
    exact ⟨hr.1.1, hr.1.2, harms.1, harms.2 ▸ hx.2.2⟩
  | .loop _ pre condition post body, hx => by
    unfold stmt
    refine (gives_block hs pre hx.1).bind fun _ hpre => ?_
    refine (gives_block hs post hx.2.2.1).bind fun _ hpost => ?_
    refine (gives_block hs body hx.2.2.2).bind fun _ hbody => .pure ?_
    exact ⟨trivial, hpre, hx.2.1, hpost, hbody⟩
  | .function ⟨f, body⟩, hx => by
    unfold stmt
    exact (gives_block (s := s.within f.name) hs body hx.2).bind fun _ hbody =>
      .pure ⟨trivial, hx.1, hbody⟩
  | .block b, hx => by
    unfold stmt
    exact (gives_block hs b hx).bind fun _ hb => .pure ⟨trivial, hb⟩
  | .stack _, _ => .throw

theorem gives_stmts {s : Setting} (hs : s.program.Legible s.dialect) :
    (ss : List Stmt) → Stmt.AllLegible s.dialect ss →
    Gives (stmts s ss) (Stmt.AllLegible s.dialect)
  | [], _ => .pure trivial
  | x :: xs, hss => by
    unfold stmts
    refine (gives_stmt hs x hss.1).bind ?_
    rintro ⟨before, first⟩ ⟨hbefore, hfirst⟩
    refine (gives_stmts hs xs hss.2).bind fun others hothers => .pure ?_
    rw [Stmt.allLegible_append]
    exact ⟨hbefore, hfirst, hothers⟩

theorem gives_block {s : Setting} (hs : s.program.Legible s.dialect) :
    (b : Block) → b.Legible s.dialect →
    Gives (block s b) (Block.Legible s.dialect)
  | ⟨_, ss⟩, hb => by
    unfold block
    exact (gives_stmts hs ss hb).bind fun _ hss => .pure hss

theorem gives_cases {s : Setting} (hs : s.program.Legible s.dialect) :
    (cs : List Case) → Case.AllLegible s.dialect cs →
    Gives (cases s cs) fun cs' =>
      Case.AllLegible s.dialect cs' ∧ cs'.map Case.value = cs.map Case.value
  | [], _ => .pure ⟨trivial, rfl⟩
  | ⟨_, value, body⟩ :: cs, hcs => by
    unfold cases
    refine (gives_block hs body hcs.2.1).bind fun _ hbody => ?_
    refine (gives_cases hs cs hcs.2.2).bind fun cs' hcs' => .pure ?_
    exact ⟨⟨hcs.1, hbody, hcs'.1⟩, List.cons_eq_cons.2 ⟨rfl, hcs'.2⟩⟩

end

end Inlining

theorem Block.Legible.fullInline {info : Info} {b b' : Block} {n : Nat} (hb : b.Legible info.dialect)
    (h : Splice.fullInline info b = .ok (b', n)) : b'.Legible info.dialect := by
  obtain ⟨s, hrun⟩ := fullInline_eq_ok h
  exact (Inlining.gives_block (s := ⟨info.dialect, b, []⟩) hb b hb _ b' s trivial hrun).1

end Splice
