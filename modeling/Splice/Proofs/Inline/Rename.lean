import Splice.Proofs.Analysis.Contexts
import Splice.Proofs.Tree.Functions

/-!
This module contains the renaming of the variables of a block without functions, and what of the
rules it keeps.
-/

namespace Splice

variable (ρ : String → String)

def Binder.rename (x : Binder) : Binder := { x with name := ρ x.name }

def Identifier.rename (i : Identifier) : Identifier := { i with name := ρ i.name }

mutual

def Expr.rename : Expr → Expr
  | .literal l => .literal l
  | .identifier i => .identifier (i.rename ρ)
  | .call span callee arguments => .call span callee (Expr.allRename arguments)
  | .instruction span name arguments => .instruction span name (Expr.allRename arguments)

def Expr.allRename : List Expr → List Expr
  | [] => []
  | e :: es => e.rename :: Expr.allRename es

end

mutual

def Stmt.rename : Stmt → Stmt
  | .expression e => .expression (e.rename ρ)
  | .declaration span vars value =>
    .declaration span (vars.map (Binder.rename ρ)) (value.map (Expr.rename ρ))
  | .assignment span targets value =>
    .assignment span (targets.map (Identifier.rename ρ)) (value.rename ρ)
  | .conditional span condition body => .conditional span (condition.rename ρ) body.rename
  | .switch span subject arms => .switch span (subject.rename ρ) (Case.allRename arms)
  | .loop span pre condition post body =>
    .loop span pre.rename (condition.rename ρ) post.rename body.rename
  | .function f => .function f
  | .block b => .block b.rename
  | .stack form => .stack form

def Stmt.allRename : List Stmt → List Stmt
  | [] => []
  | s :: ss => s.rename :: Stmt.allRename ss

def Block.rename : Block → Block
  | ⟨span, ss⟩ => ⟨span, Stmt.allRename ss⟩

def Case.allRename : List Case → List Case
  | [] => []
  | ⟨span, value, body⟩ :: cs => ⟨span, value, body.rename⟩ :: Case.allRename cs

end

/-! ## What is visible -/

variable {ρ}

theorem Stmt.functions_eq_nil {s : Stmt} {ss : List Stmt} (h : Stmt.allFunctions (s :: ss) = []) :
    s.functions = [] ∧ Stmt.allFunctions ss = [] :=
  List.append_eq_nil_iff.1 h

namespace Context

theorem functions_enter (c : Context) {ss : List Stmt} (h : Stmt.allFunctions ss = []) :
    (c.enter ss).functions = c.functions := by
  induction ss generalizing c with
  | nil => rfl
  | cons s ss ih =>
    obtain ⟨hs, hss⟩ := Stmt.functions_eq_nil h
    unfold enter
    rw [ih _ hss]
    unfold announce
    split
    . exact (List.cons_ne_nil _ _ hs).elim
    . rfl
    . rfl

variable (ρ)

structure Renames (c c' : Context) : Prop where
  external : c.external ⊆ c'.external
  host : ∀ x ∈ c.external, ρ x = x
  assignable : ∀ x ∈ c.assignable, ρ x ∈ c'.assignable
  stackForms : c.stackForms = false
  targetless : c.targetless = true → c'.targetless = true
  vars : ∀ x ∈ c.vars, ρ x ∈ c'.vars
  functions : c.functions ⊆ c'.functions

namespace Renames

variable {ρ} {c c' : Context}

theorem readable (h : c.Renames ρ c') {x : String} (hx : c.Readable x) : c'.Readable (ρ x) := by
  rcases hx with hx | hx
  . exact .inl (h.vars x hx)
  . rw [h.host x hx]
    exact .inr (h.external hx)

theorem assigns (h : c.Renames ρ c') {x : String} (hx : c.Assignable x) : c'.Assignable (ρ x) :=
  hx.imp (h.vars x) (h.assignable x)

theorem declare (h : c.Renames ρ c') (xs : List Binder) :
    (c.declare xs).Renames ρ (c'.declare (xs.map (Binder.rename ρ))) := by
  induction xs generalizing c c' with
  | nil => exact h
  | cons x xs ih =>
    refine ih ⟨h.external, h.host, h.assignable, h.stackForms, h.targetless, ?_, h.functions⟩
    refine List.forall_mem_cons.2 ⟨List.mem_cons_self, ?_⟩
    exact fun y hy => List.mem_cons_of_mem _ (h.vars y hy)

theorem announce (h : c.Renames ρ c') {s : Stmt} (hs : s.functions = []) :
    (c.announce s).Renames ρ (c'.announce (s.rename ρ)) := by
  cases s with
  | function f =>
    obtain ⟨f, body⟩ := f
    exact (List.cons_ne_nil _ _ hs).elim
  | stack form =>
    cases form with
    | label span name =>
      exact ⟨h.external, h.host, h.assignable, h.stackForms, h.targetless, h.vars, h.functions⟩
    | _ => exact h
  | _ => exact h

theorem enter (h : c.Renames ρ c') {ss : List Stmt} (hss : Stmt.allFunctions ss = []) :
    (c.enter ss).Renames ρ (c'.enter (Stmt.allRename ρ ss)) := by
  induction ss generalizing c c' with
  | nil => exact h
  | cons s ss ih =>
    obtain ⟨hs, hss⟩ := Stmt.functions_eq_nil hss
    exact ih (h.announce hs) hss

theorem after (h : c.Renames ρ c') (ss : List Stmt) :
    (c.after ss).Renames ρ (c'.after (Stmt.allRename ρ ss)) := by
  induction ss generalizing c c' with
  | nil => exact h
  | cons s ss ih =>
    have hdeclared : (s.rename ρ).declared = s.declared.map (Binder.rename ρ) := by
      cases s <;> rfl
    unfold Stmt.allRename Context.after
    rw [hdeclared]
    exact ih (h.declare s.declared)

end Renames
end Context

/-! ## Uses -/

theorem Expr.allRename_eq_map (es : List Expr) : Expr.allRename ρ es = es.map (Expr.rename ρ) := by
  induction es with
  | nil => rfl
  | cons e es ih => rw [Expr.allRename, ih, List.map_cons]

mutual

theorem Expr.Yields.rename {c c' : Context} (h : c.Renames ρ c') :
    (e : Expr) → {n : Nat} → e.Yields c n → (e.rename ρ).Yields c' n
  | .literal _, _, hy => hy
  | .identifier _, _, hy => ⟨h.readable hy.1, hy.2⟩
  | .call _ _ arguments, _, hy => by
    refine ⟨?_, Expr.AllSingle.rename h arguments hy.2⟩
    rw [Expr.allRename_eq_map, List.length_map]
    exact h.functions hy.1
  | .instruction _ _ arguments, _, hy => by
    refine ⟨?_, Expr.AllSingle.rename h arguments hy.2⟩
    rw [Expr.allRename_eq_map, List.length_map]
    exact hy.1

theorem Expr.AllSingle.rename {c c' : Context} (h : c.Renames ρ c') :
    (es : List Expr) → Expr.AllSingle c es → Expr.AllSingle c' (Expr.allRename ρ es)
  | [], _ => trivial
  | e :: es, hy => ⟨Expr.Yields.rename h e hy.1, Expr.AllSingle.rename h es hy.2⟩

end

theorem Case.map_value_allRename (cs : List Case) :
    (Case.allRename ρ cs).map Case.value = cs.map Case.value := by
  induction cs with
  | nil => rfl
  | cons a cs ih =>
    obtain ⟨_, value, _⟩ := a
    rw [Case.allRename, List.map_cons, ih, List.map_cons]

mutual

theorem Stmt.Valid.rename {c c' : Context} (h : c.Renames ρ c') :
    (s : Stmt) → s.functions = [] → s.Valid c → (s.rename ρ).Valid c'
  | .expression e, _, hv => Expr.Yields.rename h e hv
  | .declaration _ _ none, _, _ => trivial
  | .declaration _ vars (some value), _, hv => by
    change (value.rename ρ).Yields c' (vars.map (Binder.rename ρ)).length
    rw [List.length_map]
    exact Expr.Yields.rename h value hv
  | .assignment _ targets value, _, hv => by
    unfold Stmt.rename Stmt.Valid
    rw [List.length_map]
    refine ⟨Expr.Yields.rename h value hv.1, ?_, ?_⟩
    . rw [List.forall_mem_map]
      exact fun i hi => h.assigns (hv.2.1 i hi)
    . rw [List.map_eq_nil_iff]
      exact fun hnil => h.targetless (hv.2.2 hnil)
  | .conditional _ condition body, hf, hv =>
    ⟨Expr.Yields.rename h condition hv.1, Block.Valid.rename h body hf hv.2⟩
  | .switch _ subject arms, hf, hv => by
    refine ⟨Expr.Yields.rename h subject hv.1, Case.AllValid.rename h arms hf hv.2.1, ?_⟩
    rw [Case.map_value_allRename]
    exact hv.2.2
  | .loop _ ⟨_, pre⟩ condition post body, hf, hv => by
    unfold Stmt.functions at hf
    rw [List.append_eq_nil_iff, List.append_eq_nil_iff] at hf
    have hin := (h.enter hf.1.1).after pre
    exact ⟨Stmt.AllValid.rename (h.enter hf.1.1) pre hf.1.1 hv.1,
      Expr.Yields.rename hin condition hv.2.1, Block.Valid.rename hin post hf.1.2 hv.2.2.1,
      Block.Valid.rename hin body hf.2 hv.2.2.2⟩
  | .function ⟨_, _⟩, hf, _ => (List.cons_ne_nil _ _ hf).elim
  | .block b, hf, hv => Block.Valid.rename h b hf hv
  | .stack _, _, hv => (Bool.false_ne_true (h.stackForms.symm.trans hv.1)).elim

theorem Stmt.AllValid.rename {c c' : Context} (h : c.Renames ρ c') :
    (ss : List Stmt) → Stmt.allFunctions ss = [] → Stmt.AllValid c ss →
      Stmt.AllValid c' (Stmt.allRename ρ ss)
  | [], _, _ => trivial
  | s :: ss, hf, hv => by
    obtain ⟨hs, hss⟩ := Stmt.functions_eq_nil hf
    have hnext : (c.declare s.declared).Renames ρ (c'.declare (s.rename ρ).declared) := h.after [s]
    exact ⟨Stmt.Valid.rename h s hs hv.1, Stmt.AllValid.rename hnext ss hss hv.2⟩

theorem Block.Valid.rename {c c' : Context} (h : c.Renames ρ c') :
    (b : Block) → b.functions = [] → b.Valid c → (b.rename ρ).Valid c'
  | ⟨_, ss⟩, hf, hv => Stmt.AllValid.rename (h.enter hf) ss hf hv

theorem Case.AllValid.rename {c c' : Context} (h : c.Renames ρ c') :
    (cs : List Case) → Case.allFunctions cs = [] → Case.AllValid c cs →
      Case.AllValid c' (Case.allRename ρ cs)
  | [], _, _ => trivial
  | ⟨_, _, body⟩ :: cs, hf, hv => by
    obtain ⟨hbody, hcs⟩ := List.append_eq_nil_iff.1 hf
    exact ⟨Block.Valid.rename h body hbody hv.1, Case.AllValid.rename h cs hcs hv.2⟩

end

/-! ## Names -/

mutual

theorem Stmt.boundNames_rename : (s : Stmt) → s.functions = [] → s.stackForms = [] →
    (s.rename ρ).boundNames = s.boundNames.map ρ
  | .expression _, _, _ => rfl
  | .declaration _ vars _, _, _ => by
    unfold Stmt.rename Stmt.boundNames
    rw [List.map_map, List.map_map]
    rfl
  | .assignment .., _, _ => rfl
  | .conditional _ _ body, hf, hs => body.boundNames_rename hf hs
  | .switch _ _ arms, hf, hs => Case.allBoundNames_rename arms hf hs
  | .loop _ pre _ post body, hf, hs => by
    unfold Stmt.functions at hf
    unfold Stmt.stackForms at hs
    rw [List.append_eq_nil_iff, List.append_eq_nil_iff] at hf hs
    unfold Stmt.rename Stmt.boundNames
    rw [pre.boundNames_rename hf.1.1 hs.1.1, post.boundNames_rename hf.1.2 hs.1.2,
      body.boundNames_rename hf.2 hs.2, List.map_append, List.map_append]
  | .function ⟨_, _⟩, hf, _ => (List.cons_ne_nil _ _ hf).elim
  | .block b, hf, hs => b.boundNames_rename hf hs

theorem Stmt.allBoundNames_rename : (ss : List Stmt) → Stmt.allFunctions ss = [] →
    Stmt.allStackForms ss = [] →
    Stmt.allBoundNames (Stmt.allRename ρ ss) = (Stmt.allBoundNames ss).map ρ
  | [], _, _ => rfl
  | s :: ss, hf, hs => by
    obtain ⟨hf, hfs⟩ := Stmt.functions_eq_nil hf
    obtain ⟨hs, hss⟩ := List.append_eq_nil_iff.1 hs
    unfold Stmt.allRename Stmt.allBoundNames
    rw [s.boundNames_rename hf hs, Stmt.allBoundNames_rename ss hfs hss, List.map_append]

theorem Block.boundNames_rename : (b : Block) → b.functions = [] → b.stackForms = [] →
    (b.rename ρ).boundNames = b.boundNames.map ρ
  | ⟨_, ss⟩, hf, hs => Stmt.allBoundNames_rename ss hf hs

theorem Case.allBoundNames_rename : (cs : List Case) → Case.allFunctions cs = [] →
    Case.allStackForms cs = [] →
    Case.allBoundNames (Case.allRename ρ cs) = (Case.allBoundNames cs).map ρ
  | [], _, _ => rfl
  | ⟨_, _, body⟩ :: cs, hf, hs => by
    obtain ⟨hf, hfs⟩ := List.append_eq_nil_iff.1 hf
    obtain ⟨hs, hss⟩ := List.append_eq_nil_iff.1 hs
    unfold Case.allRename Case.allBoundNames
    rw [body.boundNames_rename hf hs, Case.allBoundNames_rename cs hfs hss, List.map_append]

end

end Splice
