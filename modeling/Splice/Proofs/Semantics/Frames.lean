import Splice.Proofs.Analysis.Definitions
import Splice.Proofs.Semantics.Meaning

/-!
This module contains what a run leaves as it was. An expression does not change the variables of the
call that it is computed in, and a variable of the host changes only where it may be assigned.
-/

namespace Splice

open Run

variable {m : Machine} {α β : Type}

theorem Result.exists_of_bind {x : Result m α} {f : α → Result m β} {b : β}
    (h : (x >>= f) = some (.ok b)) : ∃ a, x = some (.ok a) ∧ f a = some (.ok b) := by
  match x with
  | none => cases h
  | some (.error _) => cases h
  | some (.ok a) => exact ⟨a, rfl, h⟩

def Ensures (run : Run m α) (μ : Memory m) (post : α → Memory m → Prop) : Prop :=
  ∀ a μ', run μ = some (.ok (a, μ')) → post a μ'

namespace Ensures

variable {run : Run m α} {f : α → Run m β} {μ : Memory m} {post : α → Memory m → Prop}
  {post' : β → Memory m → Prop}

theorem pure {a : α} (h : post a μ) : Ensures (pure a) μ post := by
  intro _ _ hrun
  cases hrun
  exact h

theorem stuck : Ensures stuck μ post := fun _ _ hrun => by contradiction

theorem bind (h : Ensures run μ post) (hf : ∀ a μ₁, post a μ₁ → Ensures (f a) μ₁ post') :
    Ensures (run >>= f) μ post' := by
  intro b μ₂ hrun
  obtain ⟨⟨a, μ₁⟩, hfirst, hrest⟩ := Result.exists_of_bind hrun
  exact hf a μ₁ (h a μ₁ hfirst) b μ₂ hrest

theorem imp {post' : α → Memory m → Prop} (h : Ensures run μ post)
    (hp : ∀ a μ₁, post a μ₁ → post' a μ₁) : Ensures run μ post' :=
  fun a μ₁ hrun => hp a μ₁ (h a μ₁ hrun)

end Ensures

/-! ## Expressions -/

def Spares (x : String) (run : List m.Value → World m → Result m (List m.Value × World m)) : Prop :=
  ∀ vs world vs' world', run vs world = some (.ok (vs', world')) → world'.host x = world.host x

structure Untouched (x : String) (μ μ' : Memory m) : Prop where
  locals : μ'.locals = μ.locals
  host : μ'.world.host x = μ.world.host x

namespace Untouched

variable {x : String} {μ μ₁ μ₂ : Memory m}

theorem refl (x : String) (μ : Memory m) : Untouched x μ μ := ⟨rfl, rfl⟩

theorem trans (h : Untouched x μ μ₁) (h' : Untouched x μ₁ μ₂) : Untouched x μ μ₂ :=
  ⟨h'.locals.trans h.locals, h'.host.trans h.host⟩

theorem read_eq (h : Untouched x μ μ₁) : μ₁.read x = μ.read x := by
  unfold Memory.read
  rw [h.locals, h.host]

end Untouched

theorem ensures_one (x : String) (vs : List m.Value) (μ : Memory m) :
    Ensures (one vs) μ fun _ μ' => Untouched x μ μ' := by
  unfold one
  split
  . exact .pure (.refl x μ)
  . exact .stuck

theorem ensures_instruction (x name : String) (vs : List m.Value) (μ : Memory m) :
    Ensures (instruction name vs) μ fun _ μ' => Untouched x μ μ' := by
  intro vs' μ' hrun
  unfold instruction at hrun
  split at hrun
  . cases hrun
    exact .refl x μ
  . dsimp only at hrun
    split at hrun
    . cases hrun
      exact ⟨rfl, rfl⟩
    . cases hrun

theorem ensures_call {calls : Calls m} {x : String} (hcalls : ∀ name, Spares x (calls name))
    (name : String) (vs : List m.Value) (μ : Memory m) :
    Ensures (call calls name vs) μ fun _ μ' => Untouched x μ μ' := by
  intro vs' μ' hrun
  obtain ⟨_, hcall, hrest⟩ := Result.exists_of_bind hrun
  cases hrest
  exact ⟨rfl, hcalls name vs μ.world _ _ hcall⟩

mutual

theorem Expr.ensures_eval {calls : Calls m} {x : String}
    (hcalls : ∀ name, Spares x (calls name)) : (e : Expr) → (μ : Memory m) →
    Ensures (e.eval calls) μ fun _ μ' => Untouched x μ μ'
  | .literal _, μ => .pure (.refl x μ)
  | .identifier _, μ => fun _ _ hrun => by
    cases hrun
    exact .refl x μ
  | .call _ callee arguments, μ =>
    (Expr.ensures_evalAll hcalls arguments μ).bind fun vs μ₁ h =>
      (ensures_call hcalls callee.name vs μ₁).imp fun _ _ h' => h.trans h'
  | .instruction _ name arguments, μ =>
    (Expr.ensures_evalAll hcalls arguments μ).bind fun vs μ₁ h =>
      (ensures_instruction x name vs μ₁).imp fun _ _ h' => h.trans h'

theorem Expr.ensures_evalAll {calls : Calls m} {x : String}
    (hcalls : ∀ name, Spares x (calls name)) : (es : List Expr) → (μ : Memory m) →
    Ensures (Expr.evalAll calls es) μ fun _ μ' => Untouched x μ μ'
  | [], μ => .pure (.refl x μ)
  | e :: es, μ =>
    (Expr.ensures_evalAll hcalls es μ).bind fun _ μ₁ h =>
      (Expr.ensures_eval hcalls e μ₁).bind fun vs μ₂ h' =>
        (ensures_one x vs μ₂).bind fun _ _ h'' => .pure ((h.trans h').trans h'')

end

theorem Expr.ensures_evalOne {calls : Calls m} {x : String}
    (hcalls : ∀ name, Spares x (calls name)) (e : Expr) (μ : Memory m) :
    Ensures (e.evalOne calls) μ fun _ μ' => Untouched x μ μ' :=
  (Expr.ensures_eval hcalls e μ).bind fun vs μ₁ h =>
    (ensures_one x vs μ₁).imp fun _ _ h' => h.trans h'

theorem ensures_readAll (xs : List Binder) (μ : Memory m) :
    Ensures (readAll xs) μ fun _ μ' => μ' = μ := by
  induction xs with
  | nil => exact .pure rfl
  | cons x xs ih =>
    intro _ μ' hrun
    obtain ⟨_, hrest, hpure⟩ := Result.exists_of_bind hrun
    cases hpure
    exact ih _ _ hrest

/-! ## Variables -/

structure Guards (x : String) (v : m.Value) (c : Context) (μ : Memory m) : Prop where
  vars : ∀ y ∈ c.vars, (μ.locals y).isSome = true
  host : μ.world.host x = v

namespace Guards

variable {x : String} {v : m.Value} {c c' : Context} {μ μ' : Memory m}

theorem of_untouched (h : Guards x v c μ) (hu : Untouched x μ μ') : Guards x v c μ' :=
  ⟨hu.locals ▸ h.vars, hu.host.trans h.host⟩

theorem congr (h : Guards x v c μ) (hvars : c'.vars ⊆ c.vars) : Guards x v c' μ :=
  ⟨fun y hy => h.vars y (hvars hy), h.host⟩

theorem declare (h : Guards x v c μ) (y : String) (w : m.Value) :
    Guards x v (c.addVariable y) (μ.declare y w) := by
  refine ⟨fun z hz => ?_, h.host⟩
  change (if z = y then some w else μ.locals z).isSome = true
  split
  . rfl
  . next hne => exact h.vars z ((List.mem_cons.1 hz).resolve_left hne)

theorem assign (h : Guards x v c μ) {y : String} (hy : y ∈ c.vars ∨ y ≠ x) (w : m.Value) :
    Guards x v c (μ.assign y w) := by
  unfold Memory.assign
  split
  . exact (h.declare y w).congr (List.subset_cons_self _ _)
  . next hundeclared =>
    have hne : x ≠ y := by
      rintro rfl
      exact hy.elim (fun hmem => hundeclared (h.vars x hmem)) fun hne => hne rfl
    exact ⟨h.vars, (if_neg hne).trans h.host⟩

theorem leave (h : Guards x v c μ) (h' : Guards x v c' μ') (hvars : c.vars ⊆ c'.vars) :
    Guards x v c (μ'.leave μ.locals) := by
  refine ⟨fun y hy => ?_, h'.host⟩
  change (if (μ.locals y).isSome then μ'.locals y else none).isSome = true
  rw [if_pos (h.vars y hy)]
  exact h'.vars y (hvars hy)

theorem ensures_declareAll (h : Guards x v c μ) (xs : List Binder) (vs : List m.Value) :
    Ensures (declareAll xs vs) μ fun _ μ' => Guards x v (c.declare xs) μ' := by
  induction xs generalizing c μ vs with
  | nil =>
    cases vs with
    | nil => exact .pure h
    | cons w vs => exact .stuck
  | cons y ys ih =>
    cases vs with
    | nil => exact .stuck
    | cons w vs =>
      intro _ μ' hrun
      exact ih (h.declare y.name w) vs _ μ' hrun

theorem ensures_assignAll (h : Guards x v c μ) (is : List Identifier) (vs : List m.Value)
    (his : ∀ i ∈ is, i.name ∈ c.vars ∨ i.name ≠ x) :
    Ensures (assignAll is vs) μ fun _ μ' => Guards x v c μ' := by
  induction is generalizing μ vs with
  | nil =>
    cases vs with
    | nil => exact .pure h
    | cons w vs => exact .stuck
  | cons i is ih =>
    rw [List.forall_mem_cons] at his
    cases vs with
    | nil => exact .stuck
    | cons w vs =>
      intro _ μ' hrun
      exact ih (h.assign his.1 w) vs his.2 _ μ' hrun

theorem ensures_nothing (h : Guards x v c μ) (vs : List m.Value) :
    Ensures (nothing vs) μ fun _ μ' => Guards x v c μ' := by
  unfold nothing
  split
  . exact .pure h
  . exact .stuck

theorem ensures_inScope (h : Guards x v c μ) (hvars : c.vars ⊆ c'.vars) {body : Run m Unit}
    (hbody : Ensures body μ fun _ μ' => Guards x v c' μ') :
    Ensures (inScope body) μ fun _ μ' => Guards x v c μ' := by
  intro _ μ' hrun
  obtain ⟨⟨_, μ₁⟩, hfirst, hrest⟩ := Result.exists_of_bind hrun
  cases hrest
  exact h.leave (hbody _ μ₁ hfirst) hvars

theorem ensures_rounds (h : Guards x v c μ) {condition : Run m m.Value} {step : Run m Unit}
    (hcondition : ∀ μ, Guards x v c μ → Ensures condition μ fun _ μ' => Guards x v c μ')
    (hstep : ∀ μ, Guards x v c μ → Ensures step μ fun _ μ' => Guards x v c μ') (n : Nat) :
    Ensures (rounds condition step n) μ fun _ μ' => Guards x v c μ' := by
  induction n generalizing μ with
  | zero => exact .stuck
  | succ n ih =>
    refine (hcondition μ h).bind fun w μ₁ h₁ => ?_
    split
    . exact .pure h₁
    . exact (hstep μ₁ h₁).bind fun _ μ₂ h₂ => ih h₂

end Guards

/-! ## Statements -/

def Unassigned (x : String) (assignments : List (List Identifier)) : Prop :=
  ∀ targets ∈ assignments, x ∉ targets.map Identifier.name

theorem unassigned_append {x : String} {a b : List (List Identifier)} :
    Unassigned x (a ++ b) ↔ Unassigned x a ∧ Unassigned x b :=
  List.forall_mem_append

/--
The body of the function keeps to the rules, and does not assign to `x` where that could mean a
variable of the host.
-/
def Function.Spares (x : String) (f : Function) : Prop :=
  ∃ c : Context, f.body.Valid (c.enterFunction (f.parameters ++ f.returns)) ∧
    (x ∈ c.assignable → Unassigned x f.body.assignments)

theorem Calls.spares_define {closures : List (Calls.Closure m)} {outer : Calls m} {x : String}
    (hclosures : ∀ F ∈ closures, ∀ calls : Calls m, (∀ name, Splice.Spares x (calls name)) →
      Splice.Spares x (F.2 calls))
    (houter : ∀ name, Splice.Spares x (outer name)) (n : Nat) :
    ∀ name, Splice.Spares x (Calls.define closures outer n name) := by
  -- The bodies of the functions call each other, each time one level less deep.
  induction n with
  | zero =>
    intro name
    cases hlookup : closures.lookup name with
    | none =>
      rw [define_of_lookup hlookup]
      exact houter name
    | some F =>
      rw [define_zero_of_lookup hlookup]
      exact fun _ _ _ _ hrun => by contradiction
  | succ n ih =>
    intro name
    cases hlookup : closures.lookup name with
    | none =>
      rw [define_of_lookup hlookup]
      exact houter name
    | some F =>
      rw [define_succ_of_lookup hlookup]
      obtain ⟨l₁, l₂, rfl, _⟩ := List.lookup_eq_some_iff.1 hlookup
      exact hclosures (name, F) (List.mem_append_right _ List.mem_cons_self) _ ih

theorem spares_invoke {x : String} {c : Context} {f : Signature} {body : Run m Unit}
    (hbody : ∀ μ v, Guards x v (c.enterFunction (f.parameters ++ f.returns)) μ →
      Ensures body μ fun _ μ' => μ'.world.host x = v) : Spares x (invoke f body) := by
  intro vs world vs' world' hrun
  obtain ⟨_, hframe, hrest⟩ := Result.exists_of_bind hrun
  cases hrest
  have hempty : Guards x (world.host x) { c with vars := [] } ⟨fun _ => none, world⟩ :=
    ⟨List.forall_mem_nil _, rfl⟩
  have hspec : Ensures (frame f body vs) ⟨fun _ => none, world⟩
      fun _ μ' => μ'.world.host x = world.host x := by
    refine (hempty.ensures_declareAll f.parameters vs).bind fun _ μ₂ h₂ => ?_
    refine (h₂.ensures_declareAll f.returns _).bind fun _ μ₃ h₃ => ?_
    rw [← Context.declare_append] at h₃
    refine (hbody μ₃ _ h₃).bind fun _ μ₄ h₄ => ?_
    exact (ensures_readAll f.returns μ₄).imp fun _ μ' heq => heq ▸ h₄
  exact hspec _ _ hframe

theorem Stmt.assignments_subset {ss : List Stmt} {f : Signature} {body : Block}
    (hf : .function ⟨f, body⟩ ∈ ss) : body.assignments ⊆ Stmt.allAssignments ss := by
  induction ss with
  | nil => contradiction
  | cons s ss ih =>
    unfold Stmt.allAssignments
    rcases List.mem_cons.1 hf with rfl | hf
    . exact List.subset_append_left _ _
    . exact List.Subset.trans (ih hf) (List.subset_append_right _ _)

theorem Stmt.spares_of_allValid {x : String} {c : Context} {ss : List Stmt}
    (hv : Stmt.AllValid c ss) (hx : x ∈ c.assignable → Unassigned x (Stmt.allAssignments ss))
    {f : Signature} {body : Block} (hf : .function ⟨f, body⟩ ∈ ss) :
    Function.Spares x ⟨f, body⟩ :=
  ⟨c, body_valid_of_allValid hv hf,
    fun hmem targets htargets => hx hmem targets (Stmt.assignments_subset hf htargets)⟩

mutual

theorem Stmt.ensures_exec {calls : Calls m} {x : String} {v : m.Value} {c : Context} {μ : Memory m}
    (bound : Nat) (hcalls : ∀ name, Spares x (calls name)) (h : Guards x v c μ) :
    (s : Stmt) → s.Valid c → (x ∈ c.assignable → Unassigned x s.assignments) →
      Ensures (s.exec bound calls) μ fun _ μ' => Guards x v (c.declare s.declared) μ'
  | .expression e, _, _ =>
    (Expr.ensures_eval hcalls e μ).bind fun vs _ hu => (h.of_untouched hu).ensures_nothing vs
  | .declaration _ xs none, _, _ => h.ensures_declareAll xs _
  | .declaration _ xs (some e), _, _ =>
    (Expr.ensures_eval hcalls e μ).bind fun vs _ hu => (h.of_untouched hu).ensures_declareAll xs vs
  | .assignment _ is e, hv, hx => by
    refine (Expr.ensures_eval hcalls e μ).bind fun vs _ hu =>
      (h.of_untouched hu).ensures_assignAll is vs fun i hi => ?_
    -- A target is a variable that is declared here, or one of the host and then not `x`.
    rcases hv.2.1 i hi with hvar | hassignable
    . exact .inl hvar
    . refine .inr ?_
      rintro rfl
      exact hx hassignable is (List.mem_singleton.2 rfl) (List.mem_map.2 ⟨i, hi, rfl⟩)
  | .conditional _ e b, hv, hx => by
    refine (Expr.ensures_evalOne hcalls e μ).bind fun w _ hu => ?_
    split
    . exact .pure (h.of_untouched hu)
    . exact Block.ensures_exec bound hcalls (h.of_untouched hu) b hv.2 hx
  | .switch _ e arms, hv, hx =>
    (Expr.ensures_evalOne hcalls e μ).bind fun w _ hu =>
      Case.ensures_exec bound hcalls (h.of_untouched hu) w (.pure (h.of_untouched hu)) arms hv.2.1
        hx
  | .loop _ ⟨_, pre⟩ e post body, hv, hx => by
    have hinside : ((c.enter pre).after pre).assignable = c.assignable :=
      (Context.assignable_after _ _).trans (c.assignable_enter pre)
    have hx : x ∈ c.assignable → (Unassigned x (Stmt.allAssignments pre) ∧
        Unassigned x post.assignments) ∧ Unassigned x body.assignments := by
      intro hmem
      rw [← unassigned_append, ← unassigned_append]
      exact hx hmem
    have hpre : x ∈ (c.enter pre).assignable → Unassigned x (Stmt.allAssignments pre) :=
      fun hmem => (hx (c.assignable_enter pre ▸ hmem)).1.1
    have hinner := Calls.spares_define
      (Stmt.spares_closures bound pre fun _ _ => Stmt.spares_of_allValid hv.1 hpre) hcalls bound
    have henter : Guards x v (c.enter pre) μ := h.congr (by rw [c.enter_eq]; exact fun _ hy => hy)
    refine h.ensures_inScope (c.vars_subset_after_enter pre) ?_
    refine (Stmt.ensures_execAll bound hinner henter pre hv.1 hpre).bind fun _ _ h₁ => ?_
    refine h₁.ensures_rounds ?_ ?_ bound
    . exact fun μ' h' => (Expr.ensures_evalOne hinner e μ').imp fun _ _ hu => h'.of_untouched hu
    . intro μ' h'
      refine (Block.ensures_exec bound hinner h' body hv.2.2.2 ?_).bind fun _ _ h₂ => ?_
      . exact fun hmem => (hx (hinside ▸ hmem)).2
      . exact Block.ensures_exec bound hinner h₂ post hv.2.2.1 fun hmem => (hx (hinside ▸ hmem)).1.2
  | .function _, _, _ => .pure h
  | .block b, hv, hx => Block.ensures_exec bound hcalls h b hv hx
  | .stack _, _, _ => .stuck

theorem Stmt.ensures_execAll {calls : Calls m} {x : String} {v : m.Value} {c : Context}
    {μ : Memory m} (bound : Nat) (hcalls : ∀ name, Spares x (calls name)) (h : Guards x v c μ) :
    (ss : List Stmt) → Stmt.AllValid c ss →
      (x ∈ c.assignable → Unassigned x (Stmt.allAssignments ss)) →
      Ensures (Stmt.execAll bound calls ss) μ fun _ μ' => Guards x v (c.after ss) μ'
  | [], _, _ => .pure h
  | s :: ss, hv, hx =>
    (Stmt.ensures_exec bound hcalls h s hv.1 fun hmem => (unassigned_append.1 (hx hmem)).1).bind
      fun _ _ h₁ => Stmt.ensures_execAll bound hcalls h₁ ss hv.2 fun hmem =>
        (unassigned_append.1 (hx (c.assignable_declare s.declared ▸ hmem))).2

theorem Stmt.spares_closures {x : String} (bound : Nat) : (ss : List Stmt) →
    (∀ f body, .function ⟨f, body⟩ ∈ ss → Function.Spares x ⟨f, body⟩) →
    ∀ F ∈ (Stmt.closures bound ss : List (Calls.Closure m)), ∀ calls : Calls m,
      (∀ name, Spares x (calls name)) → Spares x (F.2 calls)
  | [], _, _, hF, _, _ => by contradiction
  | s :: ss, hspares, F, hF, calls, hcalls => by
    have hrest := Stmt.spares_closures bound ss
      (fun f body hf => hspares f body (List.mem_cons_of_mem s hf)) F
    cases s with
    | function f =>
      obtain ⟨f, body⟩ := f
      unfold Stmt.closures at hF
      rcases List.mem_cons.1 hF with rfl | hF
      . obtain ⟨c, hvalid, hx⟩ := hspares f body List.mem_cons_self
        refine spares_invoke (c := c) fun μ v h => ?_
        refine (Block.ensures_exec bound hcalls h body hvalid fun hmem => ?_).imp
          fun _ _ h' => h'.host
        rw [Context.assignable_enterFunction] at hmem
        exact hx hmem
      . exact hrest hF calls hcalls
    | _ => exact hrest hF calls hcalls

theorem Block.ensures_exec {calls : Calls m} {x : String} {v : m.Value} {c : Context} {μ : Memory m}
    (bound : Nat) (hcalls : ∀ name, Spares x (calls name)) (h : Guards x v c μ) :
    (b : Block) → b.Valid c → (x ∈ c.assignable → Unassigned x b.assignments) →
      Ensures (b.exec bound calls) μ fun _ μ' => Guards x v c μ'
  | ⟨_, ss⟩, hv, hx => by
    have hss : x ∈ (c.enter ss).assignable → Unassigned x (Stmt.allAssignments ss) :=
      fun hmem => hx (c.assignable_enter ss ▸ hmem)
    have hinner := Calls.spares_define
      (Stmt.spares_closures bound ss fun _ _ => Stmt.spares_of_allValid hv hss) hcalls bound
    have henter : Guards x v (c.enter ss) μ := h.congr (by rw [c.enter_eq]; exact fun _ hy => hy)
    exact h.ensures_inScope (c.vars_subset_after_enter ss)
      (Stmt.ensures_execAll bound hinner henter ss hv hss)

theorem Case.ensures_exec {calls : Calls m} {x : String} {v : m.Value} {c : Context} {μ : Memory m}
    (bound : Nat) (hcalls : ∀ name, Spares x (calls name)) (h : Guards x v c μ) (w : m.Value)
    {otherwise : Run m Unit} (hotherwise : Ensures otherwise μ fun _ μ' => Guards x v c μ') :
    (cs : List Case) → Case.AllValid c cs →
      (x ∈ c.assignable → Unassigned x (Case.allAssignments cs)) →
      Ensures (Case.exec bound calls w otherwise cs) μ fun _ μ' => Guards x v c μ'
  | [], _, _ => hotherwise
  | ⟨_, none, body⟩ :: cs, hv, hx =>
    Case.ensures_exec bound hcalls h w (Block.ensures_exec bound hcalls h body hv.1 fun hmem =>
      (unassigned_append.1 (hx hmem)).1) cs hv.2 fun hmem => (unassigned_append.1 (hx hmem)).2
  | ⟨_, some l, body⟩ :: cs, hv, hx => by
    unfold Case.exec
    split
    . exact Block.ensures_exec bound hcalls h body hv.1 fun hmem =>
        (unassigned_append.1 (hx hmem)).1
    . exact Case.ensures_exec bound hcalls h w hotherwise cs hv.2 fun hmem =>
        (unassigned_append.1 (hx hmem)).2

end

end Splice
