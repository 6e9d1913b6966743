import Splice.Proofs.Analysis.Definitions
import Splice.Proofs.Tree.Occurrences

/-!
This module contains what the rules say of what occurs in a block: each call is one of a function
that is defined in the block or visible around it, and stack forms are where they are allowed.
-/

namespace Splice

theorem Context.names_subset_enter {c : Context} {ss : List Stmt} {names : List String}
    (hc : c.functions.map Head.name ⊆ names)
    (hss : Function.names (Stmt.allFunctions ss) ⊆ names) :
    (c.enter ss).functions.map Head.name ⊆ names := by
  intro x hx
  obtain ⟨h, hh, rfl⟩ := List.mem_map.1 hx
  rcases Context.mem_functions_enter hh with hh | ⟨f, body, hf, rfl⟩
  . exact hc (List.mem_map.2 ⟨h, hh, rfl⟩)
  . exact hss (List.mem_map.2 ⟨⟨f, body⟩, Stmt.mem_allFunctions hf, rfl⟩)

mutual

theorem Expr.Yields.called {c : Context} {names : List String}
    (hc : c.functions.map Head.name ⊆ names) {o : Occurrence} {x : String}
    (hx : o.item = .call x) :
    (e : Expr) → {n : Nat} → e.Yields c n → o ∈ e.occurrences → x ∈ names
  | .call _ callee arguments, n, hy, ho => by
    rcases List.mem_cons.1 ho with rfl | ho
    . injection hx with hx
      exact hc (List.mem_map.2 ⟨_, hy.1, hx⟩)
    . exact Expr.AllSingle.called hc hx arguments hy.2 ho
  | .instruction _ _ arguments, _, hy, ho => by
    rcases List.mem_cons.1 ho with rfl | ho
    . contradiction
    . exact Expr.AllSingle.called hc hx arguments hy.2 ho

theorem Expr.AllSingle.called {c : Context} {names : List String}
    (hc : c.functions.map Head.name ⊆ names) {o : Occurrence} {x : String}
    (hx : o.item = .call x) :
    (es : List Expr) → Expr.AllSingle c es → o ∈ Expr.allOccurrences es → x ∈ names
  | e :: es, hy, ho => by
    rcases List.mem_append.1 ho with ho | ho
    . exact Expr.Yields.called hc hx e hy.1 ho
    . exact Expr.AllSingle.called hc hx es hy.2 ho

end

mutual

theorem Stmt.Valid.called {c : Context} {names : List String}
    (hc : c.functions.map Head.name ⊆ names) {o : Occurrence} {x : String}
    (hx : o.item = .call x) : (s : Stmt) → s.Valid c → Function.names s.functions ⊆ names →
    o ∈ s.occurrences → x ∈ names
  | .expression e, hv, _, ho => Expr.Yields.called hc hx e hv ho
  | .declaration _ _ (some value), hv, _, ho => Expr.Yields.called hc hx value hv ho
  | .assignment _ _ value, hv, _, ho => Expr.Yields.called hc hx value hv.1 ho
  | .conditional _ condition body, hv, hf, ho => by
    rcases List.mem_append.1 ho with ho | ho
    . exact Expr.Yields.called hc hx condition hv.1 ho
    . exact Block.Valid.called hc hx body hv.2 hf ho
  | .switch _ subject arms, hv, hf, ho => by
    rcases List.mem_append.1 ho with ho | ho
    . exact Expr.Yields.called hc hx subject hv.1 ho
    . exact Case.AllValid.called hc hx arms hv.2.1 hf ho
  | .loop _ ⟨_, pre⟩ condition post body, hv, hf, ho => by
    simp only [Stmt.occurrences, Block.occurrences, List.mem_append] at ho
    simp only [Function.names, Stmt.functions, Block.functions, List.map_append,
      List.append_subset] at hf
    have hc₁ := Context.names_subset_enter hc hf.1.1
    have hc₂ : ((c.enter pre).after pre).functions.map Head.name ⊆ names := by
      rwa [Context.functions_after]
    rcases ho with ((ho | ho) | ho) | ho
    . exact Stmt.AllValid.called hc₁ hx pre hv.1 hf.1.1 ho
    . obtain ⟨o', ho', rfl⟩ := List.mem_map.1 ho
      exact Expr.Yields.called (o := o') hc₂ hx condition hv.2.1 ho'
    . exact Block.Valid.called hc₂ hx post hv.2.2.1 hf.1.2 ho
    . exact Block.Valid.called hc₂ hx body hv.2.2.2 hf.2 ho
  | .function ⟨f, body⟩, hv, hf, ho => by
    rcases List.mem_cons.1 ho with rfl | ho
    . contradiction
    . obtain ⟨o', ho', rfl⟩ := List.mem_map.1 ho
      have hc' : (c.enterFunction (f.parameters ++ f.returns)).functions.map Head.name ⊆ names := by
        unfold Context.enterFunction
        rwa [Context.functions_declare]
      exact Block.Valid.called (o := o') hc' hx body hv (List.cons_subset.1 hf).2 ho'
  | .block b, hv, hf, ho => Block.Valid.called hc hx b hv hf ho
  | .stack (.instruction ..), _, _, ho => by
    rw [List.mem_singleton.1 ho] at hx
    contradiction

theorem Stmt.AllValid.called {c : Context} {names : List String}
    (hc : c.functions.map Head.name ⊆ names) {o : Occurrence} {x : String}
    (hx : o.item = .call x) : (ss : List Stmt) → Stmt.AllValid c ss →
    Function.names (Stmt.allFunctions ss) ⊆ names → o ∈ Stmt.allOccurrences ss → x ∈ names
  | s :: ss, hv, hf, ho => by
    simp only [Function.names, Stmt.allFunctions, List.map_append, List.append_subset] at hf
    rcases List.mem_append.1 ho with ho | ho
    . exact Stmt.Valid.called hc hx s hv.1 hf.1 ho
    . have hc' : (c.declare s.declared).functions.map Head.name ⊆ names := by
        rwa [Context.functions_declare]
      exact Stmt.AllValid.called hc' hx ss hv.2 hf.2 ho

theorem Block.Valid.called {c : Context} {names : List String}
    (hc : c.functions.map Head.name ⊆ names) {o : Occurrence} {x : String}
    (hx : o.item = .call x) : (b : Block) → b.Valid c → Function.names b.functions ⊆ names →
    o ∈ b.occurrences → x ∈ names
  | ⟨_, ss⟩, hv, hf, ho =>
    Stmt.AllValid.called (Context.names_subset_enter hc hf) hx ss hv hf ho

theorem Case.AllValid.called {c : Context} {names : List String}
    (hc : c.functions.map Head.name ⊆ names) {o : Occurrence} {x : String}
    (hx : o.item = .call x) : (cs : List Case) → Case.AllValid c cs →
    Function.names (Case.allFunctions cs) ⊆ names → o ∈ Case.allOccurrences cs → x ∈ names
  | ⟨_, _, body⟩ :: cs, hv, hf, ho => by
    simp only [Function.names, Case.allFunctions, List.map_append, List.append_subset] at hf
    rcases List.mem_append.1 ho with ho | ho
    . exact Block.Valid.called hc hx body hv.1 hf.1 ho
    . exact Case.AllValid.called hc hx cs hv.2 hf.2 ho

end

mutual

theorem Stmt.Valid.stackForms {c : Context} (hc : c.stackForms = false) :
    (s : Stmt) → s.Valid c → s.stackForms = []
  | .expression _, _ => rfl
  | .declaration .., _ => rfl
  | .assignment .., _ => rfl
  | .conditional _ _ body, hv => Block.Valid.stackForms hc body hv.2
  | .switch _ _ arms, hv => Case.AllValid.stackForms hc arms hv.2.1
  | .loop _ ⟨_, pre⟩ _ post body, hv => by
    have hc₁ : (c.enter pre).stackForms = false := by rwa [Context.enter_eq]
    have hc₂ : ((c.enter pre).after pre).stackForms = false := by rwa [Context.after_eq]
    have hpre := Stmt.AllValid.stackForms hc₁ pre hv.1
    have hpost := Block.Valid.stackForms hc₂ post hv.2.2.1
    have hbody := Block.Valid.stackForms hc₂ body hv.2.2.2
    change Stmt.allStackForms pre ++ post.stackForms ++ body.stackForms = []
    rw [hpre, hpost, hbody]
    rfl
  | .function ⟨f, body⟩, hv => by
    have hc' : (c.enterFunction (f.parameters ++ f.returns)).stackForms = false := by
      unfold Context.enterFunction
      rwa [Context.declare_eq]
    exact Block.Valid.stackForms hc' body hv
  | .block b, hv => Block.Valid.stackForms hc b hv
  | .stack _, hv => (Bool.false_ne_true (hc.symm.trans hv.1)).elim

theorem Stmt.AllValid.stackForms {c : Context} (hc : c.stackForms = false) :
    (ss : List Stmt) → Stmt.AllValid c ss → Stmt.allStackForms ss = []
  | [], _ => rfl
  | s :: ss, hv => by
    have hc' : (c.declare s.declared).stackForms = false := by rwa [Context.declare_eq]
    rw [Stmt.allStackForms, Stmt.Valid.stackForms hc s hv.1, Stmt.AllValid.stackForms hc' ss hv.2]
    rfl

theorem Block.Valid.stackForms {c : Context} (hc : c.stackForms = false) :
    (b : Block) → b.Valid c → b.stackForms = []
  | ⟨_, ss⟩, hv => by
    have hc' : (c.enter ss).stackForms = false := by rwa [Context.enter_eq]
    exact Stmt.AllValid.stackForms hc' ss hv

theorem Case.AllValid.stackForms {c : Context} (hc : c.stackForms = false) :
    (cs : List Case) → Case.AllValid c cs → Case.allStackForms cs = []
  | [], _ => rfl
  | ⟨_, _, body⟩ :: cs, hv => by
    rw [Case.allStackForms, Block.Valid.stackForms hc body hv.1,
      Case.AllValid.stackForms hc cs hv.2]
    rfl

end

end Splice
