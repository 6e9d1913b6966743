import Splice.Proofs.Inline.Copy
import Splice.Proofs.Semantics.Embedding

/-!
This module contains the proof that code without functions does the same when its variables are
renamed, wherever the functions do the same that it calls.
-/

namespace Splice

open Run

variable {m : Machine} {side : Side}

/-! ## Expressions -/

mutual

theorem Expr.eval_rename {l : Embedding m} {c : Context} (hhost : ∀ x ∈ c.external, l.name x = x)
    {calls calls' : Calls m} (hcalls : Related side l.host c.functions calls calls') :
    (e : Expr) → {n : Nat} → e.Yields c n → {μ ν : Memory m} → l.Sees c μ ν →
    Agree side (Evaluated l.host [] μ ν) (e.eval calls) μ ((e.rename l.name).eval calls') ν
  | .literal _, _, _, _, _, h => .done ⟨rfl, .refl h.world h.host⟩
  | .identifier i, _, hy, μ, ν, h => by
    have heval : ((Expr.identifier i).rename l.name).eval calls' ν = pure ([μ.read i.name], ν) := by
      rw [h.read hhost hy.1]
      rfl
    unfold Agree
    rw [heval]
    exact .done ⟨rfl, .refl h.world h.host⟩
  | .call _ _ arguments, _, hy, _, _, h => by
    refine (Expr.evalAll_rename hhost hcalls arguments hy.2 h).evaluated_bind ?_
    exact fun vs μ₁ ν₁ hkeeps => Agree.call hcalls hy.1 hkeeps.world hkeeps.host
  | .instruction _ _ arguments, _, hy, _, _, h => by
    refine (Expr.evalAll_rename hhost hcalls arguments hy.2 h).evaluated_bind ?_
    exact fun vs μ₁ ν₁ hkeeps => Agree.instruction hkeeps.world hkeeps.host

theorem Expr.evalAll_rename {l : Embedding m} {c : Context} (hhost : ∀ x ∈ c.external, l.name x = x)
    {calls calls' : Calls m} (hcalls : Related side l.host c.functions calls calls') :
    (es : List Expr) → Expr.AllSingle c es → {μ ν : Memory m} → l.Sees c μ ν →
    Agree side (Evaluated l.host [] μ ν) (Expr.evalAll calls es) μ
      (Expr.evalAll calls' (Expr.allRename l.name es)) ν
  | [], _, _, _, h => .done ⟨rfl, .refl h.world h.host⟩
  | e :: es, hy, _, _, h => by
    refine (Expr.evalAll_rename hhost hcalls es hy.2 h).evaluated_bind fun vs μ₁ ν₁ hkeeps => ?_
    refine (Expr.eval_rename hhost hcalls e hy.1 (hkeeps.sees_nil h)).evaluated_bind ?_
    intro ws μ₂ ν₂ hkeeps₂
    refine (Agree.one hkeeps₂.world hkeeps₂.host).evaluated_bind fun v μ₃ ν₃ hkeeps₃ => ?_
    exact .done ⟨rfl, .refl hkeeps₃.world hkeeps₃.host⟩

end

theorem Expr.evalOne_rename {l : Embedding m} {c : Context} (hhost : ∀ x ∈ c.external, l.name x = x)
    {calls calls' : Calls m} (hcalls : Related side l.host c.functions calls calls') {e : Expr}
    (hy : e.Yields c 1) {μ ν : Memory m} (h : l.Sees c μ ν) :
    Agree side (Evaluated l.host [] μ ν) (e.evalOne calls) μ
      ((e.rename l.name).evalOne calls') ν := by
  refine (Expr.eval_rename hhost hcalls e hy h).evaluated_bind fun vs μ₁ ν₁ hkeeps => ?_
  exact .one hkeeps.world hkeeps.host

/-! ## Statements -/

theorem Stmt.closures_eq_nil {ss : List Stmt} (h : Stmt.allFunctions ss = []) (bound : Nat) :
    (Stmt.closures bound ss : List (Calls.Closure m)) = [] := by
  induction ss with
  | nil => rfl
  | cons s ss ih =>
    obtain ⟨hs, hss⟩ := Stmt.functions_eq_nil h
    cases s with
    | function f =>
      obtain ⟨f, body⟩ := f
      exact (List.cons_ne_nil _ _ hs).elim
    | _ => exact ih hss

theorem Stmt.closures_allRename {ρ : String → String} {ss : List Stmt}
    (h : Stmt.allFunctions ss = []) (bound : Nat) :
    (Stmt.closures bound (Stmt.allRename ρ ss) : List (Calls.Closure m)) = [] := by
  induction ss with
  | nil => rfl
  | cons s ss ih =>
    obtain ⟨hs, hss⟩ := Stmt.functions_eq_nil h
    cases s with
    | function f =>
      obtain ⟨f, body⟩ := f
      exact (List.cons_ne_nil _ _ hs).elim
    | _ => exact ih hss

theorem Calls.define_nil (outer : Calls m) (n : Nat) : Calls.define [] outer n = outer := by
  cases n <;> rfl

section

variable {l : Embedding m} {c : Context} {inner : List String}

theorem Embedding.Allows.declared (ha : l.Allows c inner) {x : Stmt} (hx : x.otherNames ⊆ inner) :
    l.Allows (c.declare x.declared) inner :=
  ha.declare (List.Subset.trans (BodyCopy.declared_subset_otherNames x) hx)

theorem Embedding.Allows.after (ha : l.Allows c inner) {xs : List Stmt}
    (hxs : Stmt.allOtherNames xs ⊆ inner) : l.Allows (c.after xs) inner := by
  induction xs generalizing c with
  | nil => exact ha
  | cons x xs ih =>
    obtain ⟨hx, hxs⟩ := List.append_subset.1 hxs
    exact ih (ha.declared hx) hxs

theorem Embedding.Sees.enter {μ ν : Memory m} (h : l.Sees c μ ν) (xs : List Stmt) :
    l.Sees (c.enter xs) μ ν := by
  rw [c.enter_eq]
  exact h.congr (List.Subset.refl _) rfl

theorem map_name_rename (ρ : String → String) (xs : List Binder) :
    (xs.map (Binder.rename ρ)).map Binder.name = xs.map fun x => ρ x.name :=
  List.map_map

theorem map_name_renameUses (ρ : String → String) (is : List Identifier) :
    (is.map (Identifier.rename ρ)).map Identifier.name = is.map fun i => ρ i.name :=
  List.map_map

end

mutual

theorem Stmt.exec_rename {l : Embedding m} {inner : List String} {bound bound' : Nat}
    (hbound : side.Within bound bound') {c : Context} (ha : l.Allows c inner)
    {calls calls' : Calls m}
    (hcalls : Related side l.host c.functions calls calls') :
    (x : Stmt) → x.functions = [] → x.Valid c → x.otherNames ⊆ inner → {μ ν : Memory m} →
    l.Sees c μ ν → Agree side (fun _ μ₁ _ ν₁ => l.Sees (c.declare x.declared) μ₁ ν₁)
      (x.exec bound calls) μ ((x.rename l.name).exec bound' calls') ν
  | .expression e, _, hv, _, _, _, h => by
    refine (Expr.eval_rename ha.host hcalls e hv h).bind ?_
    rintro vs μ₁ _ ν₁ ⟨rfl, hkeeps⟩
    exact .nothing (hkeeps.sees_nil h)
  | .declaration _ vars none, _, _, hn, _, _, h => by
    have hzeros : ((vars.map (Binder.rename l.name)).map fun _ => m.zero) =
        vars.map fun _ => m.zero := List.map_map
    change Agree side _ (declareZeros vars) _ (declareZeros (vars.map (Binder.rename l.name))) _
    unfold declareZeros
    rw [hzeros]
    exact .declareAll ha (map_name_rename l.name vars) hn h
  | .declaration _ vars (some value), _, hv, hn, _, _, h => by
    refine (Expr.eval_rename ha.host hcalls value hv h).bind ?_
    rintro vs μ₁ _ ν₁ ⟨rfl, hkeeps⟩
    exact .declareAll ha (map_name_rename l.name vars) hn (hkeeps.sees_nil h)
  | .assignment _ targets value, _, hv, _, _, _, h => by
    refine (Expr.eval_rename ha.host hcalls value hv.1 h).bind ?_
    rintro vs μ₁ _ ν₁ ⟨rfl, hkeeps⟩
    have htargets : ∀ i ∈ targets, i.name ∈ c.vars := by
      intro i hi
      refine (hv.2.1 i hi).resolve_right ?_
      rw [ha.assignable]
      exact List.not_mem_nil
    exact .assignAll ha (map_name_renameUses l.name targets) htargets (hkeeps.sees_nil h)
  | .conditional _ condition body, hf, hv, hn, _, _, h => by
    refine (Expr.evalOne_rename ha.host hcalls hv.1 h).bind ?_
    rintro v μ₁ _ ν₁ ⟨rfl, hkeeps⟩
    have h₁ := hkeeps.sees_nil h
    refine .ite (fun _ => .done h₁) fun _ => ?_
    exact Block.exec_rename hbound ha hcalls body hf hv.2 hn h₁
  | .switch _ subject arms, hf, hv, hn, _, _, h => by
    refine (Expr.evalOne_rename ha.host hcalls hv.1 h).bind ?_
    rintro v μ₁ _ ν₁ ⟨rfl, hkeeps⟩
    have h₁ := hkeeps.sees_nil h
    exact Case.exec_rename hbound ha hcalls arms hf hv.2.1 hn h₁ (.done h₁)
  | .loop span ⟨preSpan, pre⟩ condition post body, hf, hv, hn, _, _, h => by
    unfold Stmt.functions at hf
    unfold Stmt.otherNames at hn
    rw [List.append_eq_nil_iff, List.append_eq_nil_iff] at hf
    rw [List.append_subset, List.append_subset] at hn
    have ha₁ := ha.enter pre
    have ha₂ := ha₁.after hn.1.1
    have hcalls₁ : Related side l.host (c.enter pre).functions calls calls' := by
      rwa [c.functions_enter hf.1.1]
    have hcalls₂ : Related side l.host ((c.enter pre).after pre).functions calls calls' := by
      rwa [Context.functions_after]
    have hrename : (Stmt.loop span ⟨preSpan, pre⟩ condition post body).rename l.name =
        .loop span ⟨preSpan, Stmt.allRename l.name pre⟩ (condition.rename l.name)
          (post.rename l.name) (body.rename l.name) := rfl
    rw [hrename]
    unfold Stmt.exec
    -- Without functions in `pre`, its scope has the functions around it.
    rw [Stmt.closures_eq_nil hf.1.1, Stmt.closures_allRename hf.1.1, Calls.define_nil,
      Calls.define_nil]
    refine .inScope h ?_ (c.vars_subset_after_enter pre)
    refine (Stmt.execAll_rename hbound ha₁ hcalls₁ pre hf.1.1 hv.1 hn.1.1 (h.enter pre)).bind ?_
    intro _ _ _ _ h₁
    refine .rounds ?_ ?_ hbound h₁
    . intro μ ν h₂
      refine (Expr.evalOne_rename ha₂.host hcalls₂ hv.2.1 h₂).imp ?_
      exact fun _ _ _ _ hresult => ⟨hresult.1, hresult.2.sees_nil h₂⟩
    . intro μ ν h₂
      refine (Block.exec_rename hbound ha₂ hcalls₂ body hf.2 hv.2.2.2 hn.2 h₂).bind ?_
      intro _ _ _ _ h₃
      exact Block.exec_rename hbound ha₂ hcalls₂ post hf.1.2 hv.2.2.1 hn.1.2 h₃
  | .function ⟨_, _⟩, hf, _, _, _, _, _ => (List.cons_ne_nil _ _ hf).elim
  | .block b, hf, hv, hn, _, _, h => Block.exec_rename hbound ha hcalls b hf hv hn h
  | .stack _, _, hv, _, _, _, _ => (Bool.false_ne_true (ha.stackForms.symm.trans hv.1)).elim

theorem Stmt.execAll_rename {l : Embedding m} {inner : List String} {bound bound' : Nat}
    (hbound : side.Within bound bound') {c : Context} (ha : l.Allows c inner)
    {calls calls' : Calls m}
    (hcalls : Related side l.host c.functions calls calls') :
    (xs : List Stmt) → Stmt.allFunctions xs = [] → Stmt.AllValid c xs →
    Stmt.allOtherNames xs ⊆ inner → {μ ν : Memory m} → l.Sees c μ ν →
    Agree side (fun _ μ₁ _ ν₁ => l.Sees (c.after xs) μ₁ ν₁) (Stmt.execAll bound calls xs) μ
      (Stmt.execAll bound' calls' (Stmt.allRename l.name xs)) ν
  | [], _, _, _, _, _, h => .done h
  | x :: xs, hf, hv, hn, _, _, h => by
    obtain ⟨hfx, hfxs⟩ := Stmt.functions_eq_nil hf
    obtain ⟨hnx, hnxs⟩ := List.append_subset.1 hn
    refine (Stmt.exec_rename hbound ha hcalls x hfx hv.1 hnx h).bind fun _ _ _ _ h₁ => ?_
    have hcalls₁ : Related side l.host (c.declare x.declared).functions calls calls' := by
      rwa [Context.functions_declare]
    exact Stmt.execAll_rename hbound (ha.declared hnx) hcalls₁ xs hfxs hv.2 hnxs h₁

theorem Block.exec_rename {l : Embedding m} {inner : List String} {bound bound' : Nat}
    (hbound : side.Within bound bound') {c : Context} (ha : l.Allows c inner)
    {calls calls' : Calls m}
    (hcalls : Related side l.host c.functions calls calls') :
    (b : Block) → b.functions = [] → b.Valid c → b.otherNames ⊆ inner → {μ ν : Memory m} →
    l.Sees c μ ν → Agree side (fun _ μ₁ _ ν₁ => l.Sees c μ₁ ν₁) (b.exec bound calls) μ
      ((b.rename l.name).exec bound' calls') ν
  | ⟨_, xs⟩, hf, hv, hn, _, _, h => by
    have hcalls₁ : Related side l.host (c.enter xs).functions calls calls' := by
      rwa [c.functions_enter hf]
    unfold Block.rename Block.exec
    rw [Stmt.closures_eq_nil hf, Stmt.closures_allRename hf, Calls.define_nil, Calls.define_nil]
    have h₁ : l.Sees (c.enter xs) _ _ := h.enter xs
    refine .inScope h (Stmt.execAll_rename hbound (ha.enter xs) hcalls₁ xs hf hv hn h₁) ?_
    exact c.vars_subset_after_enter xs

theorem Case.exec_rename {l : Embedding m} {inner : List String} {bound bound' : Nat}
    (hbound : side.Within bound bound') {c : Context} (ha : l.Allows c inner)
    {calls calls' : Calls m}
    (hcalls : Related side l.host c.functions calls calls') :
    (cs : List Case) → Case.allFunctions cs = [] → Case.AllValid c cs →
    Case.allOtherNames cs ⊆ inner → {μ ν : Memory m} → {v : m.Value} →
    {otherwise otherwise' : Run m Unit} → l.Sees c μ ν →
    Agree side (fun _ μ₁ _ ν₁ => l.Sees c μ₁ ν₁) otherwise μ otherwise' ν →
    Agree side (fun _ μ₁ _ ν₁ => l.Sees c μ₁ ν₁) (Case.exec bound calls v otherwise cs) μ
      (Case.exec bound' calls' v otherwise' (Case.allRename l.name cs)) ν
  | [], _, _, _, _, _, _, _, _, _, hotherwise => hotherwise
  | ⟨_, none, body⟩ :: cs, hf, hv, hn, _, _, _, _, _, h, _ => by
    obtain ⟨hfbody, hfcs⟩ := List.append_eq_nil_iff.1 hf
    obtain ⟨hnbody, hncs⟩ := List.append_subset.1 hn
    exact Case.exec_rename hbound ha hcalls cs hfcs hv.2 hncs h
      (Block.exec_rename hbound ha hcalls body hfbody hv.1 hnbody h)
  | ⟨_, some _, body⟩ :: cs, hf, hv, hn, _, _, _, _, _, h, hotherwise => by
    obtain ⟨hfbody, hfcs⟩ := List.append_eq_nil_iff.1 hf
    obtain ⟨hnbody, hncs⟩ := List.append_subset.1 hn
    refine .ite (fun _ => ?_) fun _ => ?_
    . exact Block.exec_rename hbound ha hcalls body hfbody hv.1 hnbody h
    . exact Case.exec_rename hbound ha hcalls cs hfcs hv.2 hncs h hotherwise

end
end Splice
