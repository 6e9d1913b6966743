import Splice.Proofs.Disambiguate.Binding

/-!
This module contains the proof that the pass that gives every binding a name of its own leaves a
program alone in which that is so already.
-/

namespace Splice
namespace Disambiguation

/--
Every binding kept its name so far: `bound` are the names that were bound, `visible` those of the
scopes at the current place.
-/
structure Settled (external : List String) (visible : List (List String)) (bound : List String)
    (s : State) : Prop where
  scopes : s.scopes = visible.map (List.map fun x => (x, x))
  taken : (bound ++ external).Perm s.taken
  bindings : s.bindings = bound.length
  renamed : s.renamed = []

/--
If `x` returns then it returns `a`, and the `names` that it binds keep what they are called. They
differ from each other and from all that was bound before.
-/
def Settles {α : Type} (external : List String) (visible visible' : List (List String))
    (names : List String) (x : Pass α) (a : α) : Prop :=
  ∀ bound s, Settled external visible bound s → (names ++ (bound ++ external)).Nodup →
    Meets x s (fun a' s' => a' = a ∧ Settled external visible' (names ++ bound) s') fun _ => True

theorem Settled.perm {external : List String} {visible : List (List String)}
    {bound bound' : List String} {s : State} (h : Settled external visible bound s)
    (hp : bound.Perm bound') : Settled external visible bound' s :=
  ⟨h.scopes, (hp.symm.append_right _).trans h.taken, h.bindings.trans hp.length_eq, h.renamed⟩

namespace Settles

variable {α β : Type} {external : List String} {visible visible' visible'' : List (List String)}
  {names names' : List String} {x : Pass α} {f : α → Pass β} {a : α} {b : β}

theorem pure (a : α) : Settles external visible visible [] (pure a) a :=
  fun _ _ hs _ => Meets.pure ⟨rfl, hs⟩

theorem bind (hx : Settles external visible visible' names x a)
    (hf : Settles external visible' visible'' names' (f a) b) :
    Settles external visible visible'' (names ++ names') (x >>= f) b := by
  intro bound s hs hnodup
  have hswap : (names ++ names' ++ (bound ++ external)).Perm
      (names' ++ (names ++ bound ++ external)) := by
    rw [← List.append_assoc, ← List.append_assoc, ← List.append_assoc]
    exact (List.perm_append_comm.append_right bound).append_right external
  rw [hswap.nodup_iff] at hnodup
  have hfirst : (names ++ (bound ++ external)).Nodup := by
    rw [← List.append_assoc]
    exact (List.nodup_append.1 hnodup).2.1
  apply (hx bound s hs hfirst).bind
  rintro _ s' ⟨rfl, hs'⟩
  apply (hf _ s' hs' hnodup).imp _ fun _ => id
  rintro _ s'' ⟨rfl, hs''⟩
  refine ⟨rfl, hs''.perm ?_⟩
  rw [← List.append_assoc]
  exact List.perm_append_comm.append_right bound

theorem after (hx : Settles external visible visible' [] x a)
    (hf : Settles external visible' visible'' names (f a) b) :
    Settles external visible visible'' names (x >>= f) b :=
  hx.bind hf

theorem before (hx : Settles external visible visible' names x a)
    (hf : Settles external visible' visible'' [] (f a) b) :
    Settles external visible visible'' names (x >>= f) b := by
  have := hx.bind hf
  rwa [List.append_nil] at this

theorem perm (hx : Settles external visible visible' names x a) (hp : names.Perm names') :
    Settles external visible visible' names' x a := by
  intro bound s hs hnodup
  rw [← (hp.append_right _).nodup_iff] at hnodup
  apply (hx bound s hs hnodup).imp _ fun _ => id
  exact fun _ _ h => ⟨h.1, h.2.perm (hp.append_right _)⟩

end Settles

/-! ## Names -/

section

variable {external : List String} {top : List String} {visible rest : List (List String)}

theorem settles_enter : Settles external visible ([] :: visible) [] (modify State.enter) ⟨⟩ := by
  intro bound s hs _
  refine ⟨rfl, ?_, hs.taken, hs.bindings, hs.renamed⟩
  change [] :: s.scopes = _
  rw [hs.scopes]
  rfl

theorem settles_leave :
    Settles external (top :: visible) visible [] (modify State.leave) ⟨⟩ := by
  intro bound s hs _
  refine ⟨rfl, ?_, hs.taken, hs.bindings, hs.renamed⟩
  change s.scopes.tail = _
  rw [hs.scopes]
  rfl

theorem settles_bind (x : String) :
    Settles external (top :: rest) ((x :: top) :: rest) [x] (bind x) x := by
  intro bound s hs hnodup
  have hfree : x ∉ s.taken := fun hmem =>
    (List.nodup_cons.1 hnodup).1 (hs.taken.mem_iff.2 hmem)
  have hbind : s.bind x =
      (x, { s with bindings := s.bindings + 1, taken := x :: s.taken }.record x x) :=
    if_neg hfree
  change (s.bind x).1 = x ∧ Settled external ((x :: top) :: rest) (x :: bound) (s.bind x).2
  rw [hbind]
  refine ⟨rfl, ?_⟩
  unfold State.record
  simp only [hs.scopes, List.map_cons]
  exact ⟨rfl, hs.taken.cons x, congrArg (· + 1) hs.bindings, hs.renamed⟩

theorem settles_bindAll (xs : List Binder) (top : List String) :
    Settles external (top :: rest) (((xs.map Binder.name).reverse ++ top) :: rest)
      (xs.map Binder.name) (bindAll xs) xs := by
  induction xs generalizing top with
  | nil => exact .pure []
  | cons x xs ih =>
    rw [List.map_cons, List.reverse_cons, List.append_assoc]
    exact (settles_bind x.name).bind ((ih (x.name :: top)).before (.pure _))

theorem settles_use (i : Identifier) : Settles external visible visible [] (use external i) i := by
  intro bound s hs _
  unfold use
  apply Meets.get_bind
  split
  . next name hlookup =>
    obtain ⟨scope, hscope, hname⟩ := List.exists_of_findSome?_eq_some hlookup
    rw [hs.scopes] at hscope
    obtain ⟨xs, _, rfl⟩ := List.mem_map.1 hscope
    obtain ⟨l₁, l₂, hxs, _⟩ := List.lookup_eq_some_iff.1 hname
    have hmem : (i.name, name) ∈ xs.map fun x => (x, x) := by
      rw [hxs]
      exact List.mem_append_right _ List.mem_cons_self
    obtain ⟨x, _, hx⟩ := List.mem_map.1 hmem
    obtain ⟨rfl, rfl⟩ := Prod.mk.inj hx
    exact .pure ⟨rfl, hs⟩
  . split
    . exact .pure ⟨rfl, hs⟩
    . exact .throw trivial

theorem settles_functionName {x : String} (hx : x ∈ top) :
    Settles external (top :: rest) (top :: rest) [] (functionName x) x := by
  intro bound s hs _
  have hlookup : s.lookupHere x = some x := by
    unfold State.lookupHere
    rw [hs.scopes]
    exact List.lookup_graph id hx
  unfold functionName
  apply Meets.get_bind
  rw [hlookup]
  exact .pure ⟨rfl, hs⟩

theorem settles_enterFunction {f : Signature} (hf : f.name ∈ top) :
    Settles external (top :: rest)
      (((f.returns.map Binder.name).reverse ++ ((f.parameters.map Binder.name).reverse ++ [])) ::
        top :: rest)
      (f.parameters.map Binder.name ++ f.returns.map Binder.name) (enterFunction f) f := by
  unfold enterFunction
  refine (settles_functionName hf).after (settles_enter.after ?_)
  exact (settles_bindAll f.parameters []).bind ((settles_bindAll f.returns _).before (.pure _))

theorem settles_bindFunctions (ss : List Stmt) (hforms : Stmt.allStackForms ss = [])
    (top : List String) :
    Settles external (top :: rest) (((ss.flatMap Stmt.announced).reverse ++ top) :: rest)
      (ss.flatMap Stmt.announced) (bindFunctions ss) ⟨⟩ := by
  induction ss generalizing top with
  | nil => exact .pure ()
  | cons s ss ih =>
    obtain ⟨hform, hrest⟩ := List.append_eq_nil_iff.1 hforms
    rw [List.flatMap_cons, List.reverse_append, List.append_assoc]
    cases s with
    | function f =>
      obtain ⟨f, body⟩ := f
      exact (settles_bind f.name).bind (ih hrest _)
    | stack form => contradiction
    | _ => exact ih hrest top

theorem settles_enterBlock (ss : List Stmt) (hforms : Stmt.allStackForms ss = []) :
    Settles external visible (((ss.flatMap Stmt.announced).reverse ++ []) :: visible)
      (ss.flatMap Stmt.announced) ((traversal external).enterBlock ss) ⟨⟩ :=
  settles_enter.after (settles_bindFunctions ss hforms [])

end

/-! ## Trees -/

mutual

theorem settles_expr (external : List String) (visible : List (List String)) : (e : Expr) →
    Settles external visible visible [] ((traversal external).expr e) e
  | .literal _ => .pure _
  | .identifier i => (settles_use i).after (.pure _)
  | .call _ callee arguments =>
    (settles_use callee).after ((settles_exprs external visible arguments).after (.pure _))
  | .instruction _ _ arguments => (settles_exprs external visible arguments).after (.pure _)

theorem settles_exprs (external : List String) (visible : List (List String)) : (es : List Expr) →
    Settles external visible visible [] ((traversal external).exprs es) es
  | [] => .pure _
  | e :: es =>
    (settles_expr external visible e).after ((settles_exprs external visible es).after (.pure _))

end

theorem settles_optionalExpr (external : List String) (visible : List (List String))
    (value : Option Expr) :
    Settles external visible visible [] ((traversal external).optionalExpr value) value := by
  cases value with
  | none => exact .pure _
  | some e => exact (settles_expr external visible e).after (.pure _)

theorem settles_uses (external : List String) (visible : List (List String))
    (is : List Identifier) :
    Settles external visible visible [] ((traversal external).uses is) is := by
  induction is with
  | nil => exact .pure _
  | cons i is ih => exact (settles_use i).after (ih.after (.pure _))

mutual

theorem settles_stmt (external : List String) (rest : List (List String)) (top : List String) :
    (x : Stmt) → x.stackForms = [] → x.announced ⊆ top →
    Settles external (top :: rest) (((x.declared.map Binder.name).reverse ++ top) :: rest)
      x.innerNames ((traversal external).stmt x) x
  | .expression e, _, _ => (settles_expr external _ e).after (.pure _)
  | .declaration _ vars value, _, _ =>
    (settles_optionalExpr external _ value).after ((settles_bindAll vars top).before (.pure _))
  | .assignment _ targets value, _, _ =>
    (settles_uses external _ targets).after ((settles_expr external _ value).after (.pure _))
  | .conditional _ condition body, hforms, _ =>
    (settles_expr external _ condition).after
      ((settles_block external _ body hforms).before (.pure _))
  | .switch _ subject arms, hforms, _ =>
    (settles_expr external _ subject).after
      ((settles_cases external _ arms hforms).before (.pure _))
  | .loop _ ⟨_, pre⟩ condition post body, hforms, _ => by
    obtain ⟨hforms, hbody⟩ := List.append_eq_nil_iff.1 hforms
    obtain ⟨hpre, hpost⟩ := List.append_eq_nil_iff.1 hforms
    have hnames : (pre.flatMap Stmt.announced ++ (pre.flatMap Stmt.innerNames ++
        (post.boundNames ++ body.boundNames))).Perm
        (Stmt.allBoundNames pre ++ post.boundNames ++ body.boundNames) := by
      rw [← List.append_assoc, ← List.append_assoc]
      exact ((Stmt.allBoundNames_perm pre).symm.append_right _).append_right _
    refine Settles.perm ?_ hnames
    refine (settles_enterBlock pre hpre).bind ?_
    refine (settles_stmts external _ _ pre hpre ?_).bind ?_
    . rw [List.append_nil]
      exact (List.reverse_perm _).symm.subset
    . refine (settles_expr external _ condition).after ?_
      refine (settles_block external _ post hpost).bind ?_
      exact (settles_block external _ body hbody).before (settles_leave.after (.pure _))
  | .function ⟨f, body⟩, hforms, hannounced =>
    (settles_enterFunction (hannounced List.mem_cons_self)).bind
      ((settles_block external _ body hforms).before (settles_leave.after (.pure _)))
  | .block b, hforms, _ => (settles_block external _ b hforms).before (.pure _)

theorem settles_stmts (external : List String) (rest : List (List String)) (top : List String) :
    (xs : List Stmt) → Stmt.allStackForms xs = [] → xs.flatMap Stmt.announced ⊆ top →
    Settles external (top :: rest)
      ((((xs.flatMap Stmt.declared).map Binder.name).reverse ++ top) :: rest)
      (xs.flatMap Stmt.innerNames) ((traversal external).stmts xs) xs
  | [], _, _ => .pure _
  | x :: xs, hforms, hannounced => by
    obtain ⟨hform, hforms⟩ := List.append_eq_nil_iff.1 hforms
    rw [List.flatMap_cons, List.append_subset] at hannounced
    rw [List.flatMap_cons, List.flatMap_cons, List.map_append, List.reverse_append,
      List.append_assoc]
    refine (settles_stmt external rest top x hform hannounced.1).bind ?_
    refine (settles_stmts external rest _ xs hforms ?_).before (.pure _)
    exact List.Subset.trans hannounced.2 (List.subset_append_right _ _)

theorem settles_block (external : List String) (visible : List (List String)) : (b : Block) →
    b.stackForms = [] →
    Settles external visible visible b.boundNames ((traversal external).block b) b
  | ⟨_, ss⟩, hforms => by
    refine Settles.perm ?_ (Stmt.allBoundNames_perm ss).symm
    refine (settles_enterBlock ss hforms).bind ?_
    refine (settles_stmts external visible _ ss hforms ?_).before (settles_leave.after (.pure _))
    rw [List.append_nil]
    exact (List.reverse_perm _).symm.subset

theorem settles_cases (external : List String) (visible : List (List String)) :
    (cs : List Case) → Case.allStackForms cs = [] →
    Settles external visible visible (Case.allBoundNames cs) ((traversal external).cases cs) cs
  | [], _ => .pure _
  | ⟨_, _, body⟩ :: cs, hforms => by
    obtain ⟨hbody, hforms⟩ := List.append_eq_nil_iff.1 hforms
    exact (settles_block external visible body hbody).bind
      ((settles_cases external visible cs hforms).before (.pure _))

end

end Disambiguation
end Splice
