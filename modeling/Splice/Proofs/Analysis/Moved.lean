import Splice.Proofs.Analysis.Acceptance
import Splice.Proofs.Analysis.Counts
import Splice.Proofs.Analysis.Definitions
import Splice.Proofs.Analysis.Foreign
import Splice.Proofs.Tree.Rearranged

/-!
This module contains the proof that the analysis does not depend on where in its block a function
stands. A function is visible in all of its block, and it sees no variable around it, declared in
front of it or not.
-/

namespace Splice

namespace Context

/-! ## The same is visible -/

structure Similar (c c' : Context) : Prop where
  forth : c.Extends c'
  back : c'.Extends c
  -- Where a function starts, variables have no meaning.
  names : ∀ x, { c with vars := [] }.Declarable x ↔ { c' with vars := [] }.Declarable x

theorem declarable_iff (c : Context) (x : String) :
    c.Declarable x ↔ x ∉ c.vars ∧ { c with vars := [] }.Declarable x := by
  unfold Declarable
  simp

theorem enter_without_vars (c : Context) (ss : List Stmt) :
    { c.enter ss with vars := [] } = { c with vars := [] }.enter ss := by
  have hannounce (c : Context) (s : Stmt) :
      { c.announce s with vars := [] } = { c with vars := [] }.announce s := by
    unfold announce
    split <;> rfl
  induction ss generalizing c with
  | nil => rfl
  | cons s ss ih =>
    unfold enter
    rw [ih, hannounce]

theorem declare_without_vars (c : Context) (xs : List Binder) :
    { c.declare xs with vars := [] } = { c with vars := [] } := by
  rw [declare_eq]

theorem canEnter_iff {c : Context} {ss : List Stmt} :
    c.CanEnter ss ↔
      (∀ x ∈ ss.flatMap Stmt.announced, c.Declarable x) ∧ (ss.flatMap Stmt.announced).Nodup :=
  ⟨fun h => ⟨h.declarable, h.nodup⟩, fun h => c.canEnter_of_nodup h.1 h.2⟩

namespace Similar

variable {c c' : Context}

theorem declarable (h : c.Similar c') (x : String) : c.Declarable x ↔ c'.Declarable x := by
  rw [declarable_iff, declarable_iff c', h.names]
  exact and_congr_left' (not_congr ⟨fun hx => h.forth.vars hx, fun hx => h.back.vars hx⟩)

theorem declare (h : c.Similar c') (xs : List Binder) : (c.declare xs).Similar (c'.declare xs) where
  forth := h.forth.declare xs
  back := h.back.declare xs
  names x := by
    rw [declare_without_vars, declare_without_vars]
    exact h.names x

theorem withoutVars (h : c.Similar c') : { c with vars := [] }.Similar { c' with vars := [] } where
  forth := h.forth.enterFunction []
  back := h.back.enterFunction []
  names := h.names

theorem enterFunction (h : c.Similar c') (xs : List Binder) :
    (c.enterFunction xs).Similar (c'.enterFunction xs) :=
  h.withoutVars.declare xs

theorem enter (h : c.Similar c') (ss : List Stmt) : (c.enter ss).Similar (c'.enter ss) where
  forth := h.forth.enter ss
  back := h.back.enter ss
  names x := by
    rw [enter_without_vars, enter_without_vars, declarable_enter, declarable_enter, h.names]

theorem after (h : c.Similar c') (ss : List Stmt) : (c.after ss).Similar (c'.after ss) := by
  rw [after_eq_declare, after_eq_declare]
  exact h.declare _

theorem allDeclarable (h : c.Similar c') (xs : List Binder) :
    c.AllDeclarable xs ↔ c'.AllDeclarable xs := by
  induction xs generalizing c c' with
  | nil => rfl
  | cons x xs ih => exact and_congr (h.declarable x.name) (ih (h.declare [x]))

theorem canEnter (h : c.Similar c') (ss : List Stmt) : c.CanEnter ss ↔ c'.CanEnter ss := by
  rw [canEnter_iff, canEnter_iff]
  exact and_congr_left' (forall₂_congr fun x _ => h.declarable x)

theorem yields (h : c.Similar c') (e : Expr) (n : Nat) : e.Yields c n ↔ e.Yields c' n :=
  ⟨Expr.Yields.mono h.forth e, Expr.Yields.mono h.back e⟩

theorem allValid (h : c.Similar c') (ss : List Stmt) : Stmt.AllValid c ss ↔ Stmt.AllValid c' ss :=
  ⟨Stmt.AllValid.mono h.forth ss, Stmt.AllValid.mono h.back ss⟩

theorem valid (h : c.Similar c') (b : Block) : b.Valid c ↔ b.Valid c' :=
  ⟨Block.Valid.mono h.forth b, Block.Valid.mono h.back b⟩

end Similar
end Context

mutual

theorem Stmt.declaresNew_congr {c c' : Context} (h : c.Similar c') :
    (s : Stmt) → (s.DeclaresNew c ↔ s.DeclaresNew c')
  | .expression _ => Iff.rfl
  | .declaration _ vars _ => h.allDeclarable vars
  | .assignment .. => Iff.rfl
  | .conditional _ _ body => Block.declaresNew_congr h body
  | .switch _ _ arms => Case.allDeclareNew_congr h arms
  | .loop _ ⟨_, pre⟩ _ post body =>
    have hafter := (h.enter pre).after pre
    and_congr (h.canEnter pre) (and_congr (Stmt.allDeclareNew_congr (h.enter pre) pre)
      (and_congr (Block.declaresNew_congr hafter post) (Block.declaresNew_congr hafter body)))
  | .function ⟨_, body⟩ =>
    and_congr (h.withoutVars.allDeclarable _) (Block.declaresNew_congr (h.enterFunction _) body)
  | .block b => Block.declaresNew_congr h b
  | .stack _ => Iff.rfl

theorem Stmt.allDeclareNew_congr {c c' : Context} (h : c.Similar c') :
    (ss : List Stmt) → (Stmt.AllDeclareNew c ss ↔ Stmt.AllDeclareNew c' ss)
  | [] => Iff.rfl
  | s :: ss => and_congr (Stmt.declaresNew_congr h s) (Stmt.allDeclareNew_congr (h.declare _) ss)

theorem Block.declaresNew_congr {c c' : Context} (h : c.Similar c') :
    (b : Block) → (b.DeclaresNew c ↔ b.DeclaresNew c')
  | ⟨_, ss⟩ => and_congr (h.canEnter ss) (Stmt.allDeclareNew_congr (h.enter ss) ss)

theorem Case.allDeclareNew_congr {c c' : Context} (h : c.Similar c') :
    (cs : List Case) → (Case.AllDeclareNew c cs ↔ Case.AllDeclareNew c' cs)
  | [] => Iff.rfl
  | ⟨_, _, body⟩ :: cs =>
    and_congr (Block.declaresNew_congr h body) (Case.allDeclareNew_congr h cs)

end

/-! ## Functions at other places of one block -/

namespace Stmt

variable {c : Context} {ss ts : List Stmt}

theorem valid_declare_of_isFunction {s : Stmt} (h : s.isFunction = true) (xs : List Binder) :
    s.Valid (c.declare xs) ↔ s.Valid c := by
  cases s with
  | function f =>
    obtain ⟨f, body⟩ := f
    unfold Valid
    rw [c.enterFunction_declare]
  | _ => contradiction

theorem declaresNew_declare_of_isFunction {s : Stmt} (h : s.isFunction = true)
    (xs : List Binder) : s.DeclaresNew (c.declare xs) ↔ s.DeclaresNew c := by
  cases s with
  | function f =>
    obtain ⟨f, body⟩ := f
    unfold DeclaresNew
    rw [c.enterFunction_declare, c.declare_without_vars]
  | _ => contradiction

section

-- A rule `P` for each of several statements, where those in front are declared.
variable {P : Context → Stmt → Prop} {All : Context → List Stmt → Prop}
  (hcons : ∀ c s ss, All c (s :: ss) ↔ P c s ∧ All (c.declare s.declared) ss)
  (hfunction : ∀ {c : Context} {s : Stmt}, s.isFunction = true →
    ∀ xs, P (c.declare xs) s ↔ P c s)

include hcons hfunction

theorem all_iff (c : Context) (ss : List Stmt) :
    All c ss ↔ (∀ s ∈ ss, s.isFunction = true → P c s) ∧ All c (others ss) := by
  induction ss generalizing c with
  | nil => exact ⟨fun h => ⟨List.forall_mem_nil _, h⟩, And.right⟩
  | cons s ss ih =>
    rw [List.forall_mem_cons, hcons]
    cases h : s.isFunction with
    | true =>
      rw [others_cons_of_isFunction h, declared_of_isFunction h, Context.declare, ih c]
      simp [and_assoc]
    | false =>
      have hfunctions : (∀ t ∈ ss, t.isFunction = true → P (c.declare s.declared) t) ↔
          ∀ t ∈ ss, t.isFunction = true → P c t :=
        forall₃_congr fun t _ ht => hfunction ht _
      rw [others_cons_of_not_isFunction h, hcons, ih, hfunctions]
      simp [and_left_comm]

theorem Moved.all_iff (h : Moved ss ts) : All c ss ↔ All c ts := by
  rw [Stmt.all_iff hcons hfunction c ss, Stmt.all_iff hcons hfunction c ts, h.2]
  exact and_congr_left' (forall_congr' fun s => imp_congr_left h.1.mem_iff)

end

namespace Moved

theorem symm (h : Moved ss ts) : Moved ts ss :=
  ⟨h.1.symm, h.2.symm⟩

theorem allValid (h : Moved ss ts) : AllValid c ss ↔ AllValid c ts :=
  all_iff (fun _ _ _ => Iff.rfl) valid_declare_of_isFunction h

theorem allDeclareNew (h : Moved ss ts) : AllDeclareNew c ss ↔ AllDeclareNew c ts :=
  all_iff (fun _ _ _ => Iff.rfl) declaresNew_declare_of_isFunction h

theorem after_eq (h : Moved ss ts) : c.after ss = c.after ts := by
  rw [c.after_eq_declare, c.after_eq_declare, ← flatMap_declared_others, h.2,
    flatMap_declared_others]

theorem announced_perm (h : Moved ss ts) :
    (ss.flatMap announced).Perm (ts.flatMap announced) :=
  h.1.flatMap_right _

theorem canEnter (h : Moved ss ts) : c.CanEnter ss ↔ c.CanEnter ts := by
  rw [Context.canEnter_iff, Context.canEnter_iff, h.announced_perm.nodup_iff]
  exact and_congr_left' (forall_congr' fun x => imp_congr_left h.announced_perm.mem_iff)

theorem extends_enter (h : Moved ss ts) : (c.enter ss).Extends (c.enter ts) := by
  have hfunctions : (c.enter ss).functions ⊆ (c.enter ts).functions := by
    intro head hhead
    rcases Context.mem_functions_enter hhead with hhead | ⟨f, body, hf, rfl⟩
    . exact Context.functions_subset_enter c ts hhead
    . exact Context.head_mem_functions_enter (h.1.mem_iff.1 hf)
  rw [c.enter_eq ss, c.enter_eq ts]
  exact ⟨List.Subset.refl _, List.Subset.refl _, id, id, List.Subset.refl _, hfunctions⟩

theorem similar_enter (h : Moved ss ts) : (c.enter ss).Similar (c.enter ts) where
  forth := h.extends_enter
  back := h.symm.extends_enter
  names x := by
    rw [c.enter_without_vars, c.enter_without_vars, Context.declarable_enter,
      Context.declarable_enter, h.announced_perm.mem_iff]

end Moved
end Stmt

/-! ## Functions at other places of the tree -/

namespace Stmt.AllRearranged

variable {c : Context} {ss ts : List Stmt}

theorem forall₂ (h : Stmt.AllRearranged ss ts) : List.Forall₂ Stmt.Rearranged ss ts := by
  induction ss generalizing ts with
  | nil =>
    cases h
    exact .nil
  | cons s ss ih =>
    cases h with
    | cons h hs => exact .cons h (ih hs)

theorem enter_eq (h : Stmt.AllRearranged ss ts) : c.enter ss = c.enter ts := by
  replace h := h.forall₂
  induction h generalizing c with
  | nil => rfl
  | @cons s t ss ts h _ ih =>
    have hannounce : c.announce s = c.announce t := by
      cases h <;> rfl
    unfold Context.enter
    rw [hannounce, ih]

theorem after_eq (h : Stmt.AllRearranged ss ts) : c.after ss = c.after ts := by
  replace h := h.forall₂
  induction h generalizing c with
  | nil => rfl
  | cons h _ ih =>
    unfold Context.after
    rw [h.declared_eq, ih]

theorem announced_eq (h : Stmt.AllRearranged ss ts) :
    ss.flatMap Stmt.announced = ts.flatMap Stmt.announced := by
  replace h := h.forall₂
  induction h with
  | nil => rfl
  | cons h _ ih => rw [List.flatMap_cons, List.flatMap_cons, h.announced_eq, ih]

theorem canEnter (h : Stmt.AllRearranged ss ts) : c.CanEnter ss ↔ c.CanEnter ts := by
  rw [Context.canEnter_iff, Context.canEnter_iff, h.announced_eq]

end Stmt.AllRearranged

theorem Block.Rearranged.similar_after {c : Context} {span span' : Span} {ss ts : List Stmt}
    (h : Block.Rearranged ⟨span, ss⟩ ⟨span', ts⟩) :
    ((c.enter ss).after ss).Similar ((c.enter ts).after ts) := by
  cases h with
  | mk _ hinner hmoved =>
    rw [hinner.enter_eq, hinner.after_eq, hmoved.after_eq]
    exact hmoved.similar_enter.after ts

mutual

theorem Stmt.Rearranged.valid_iff {c : Context} :
    {s t : Stmt} → s.Rearranged t → (s.Valid c ↔ t.Valid c)
  | _, _, .same _ => Iff.rfl
  | _, _, .conditional _ _ hbody => and_congr_right' hbody.valid_iff
  | _, _, .switch _ _ harms => by
    unfold Stmt.Valid
    rw [harms.valid_iff, harms.map_value]
  | .loop _ ⟨_, _⟩ condition _ _, .loop _ ⟨_, _⟩ _ post' body', .loop _ _ hpre hpost hbody => by
    have hafter := hpre.similar_after (c := c)
    refine and_congr hpre.valid_iff (and_congr (hafter.yields condition 1) (and_congr ?_ ?_))
    . exact hpost.valid_iff.trans (hafter.valid post')
    . exact hbody.valid_iff.trans (hafter.valid body')
  | _, _, .function _ hbody => hbody.valid_iff
  | _, _, .block h => h.valid_iff

theorem Stmt.AllRearranged.valid_iff {c : Context} :
    {ss ts : List Stmt} → Stmt.AllRearranged ss ts → (Stmt.AllValid c ss ↔ Stmt.AllValid c ts)
  | _, _, .nil => Iff.rfl
  | _, _, .cons h hs => by
    unfold Stmt.AllValid
    rw [h.declared_eq, h.valid_iff, hs.valid_iff]

theorem Block.Rearranged.valid_iff {c : Context} :
    {b b' : Block} → b.Rearranged b' → (b.Valid c ↔ b'.Valid c)
  | _, _, @Block.Rearranged.mk _ _ ms ts hinner hmoved => by
    unfold Block.Valid
    rw [hinner.enter_eq, hinner.valid_iff, hmoved.allValid]
    exact hmoved.similar_enter.allValid ts

theorem Case.AllRearranged.valid_iff {c : Context} :
    {cs cs' : List Case} → Case.AllRearranged cs cs' → (Case.AllValid c cs ↔ Case.AllValid c cs')
  | _, _, .nil => Iff.rfl
  | _, _, .cons _ _ hbody hs => and_congr hbody.valid_iff hs.valid_iff

end

mutual

theorem Stmt.Rearranged.declaresNew_iff {c : Context} :
    {s t : Stmt} → s.Rearranged t → (s.DeclaresNew c ↔ t.DeclaresNew c)
  | _, _, .same _ => Iff.rfl
  | _, _, .conditional _ _ hbody => hbody.declaresNew_iff
  | _, _, .switch _ _ harms => harms.declaresNew_iff
  | .loop _ ⟨_, _⟩ _ _ _, .loop _ ⟨_, _⟩ _ post' body', .loop _ _ hpre hpost hbody => by
    have hafter := hpre.similar_after (c := c)
    unfold Stmt.DeclaresNew
    simp only [← and_assoc]
    refine and_congr (and_congr hpre.declaresNew_iff ?_) ?_
    . exact hpost.declaresNew_iff.trans (Block.declaresNew_congr hafter post')
    . exact hbody.declaresNew_iff.trans (Block.declaresNew_congr hafter body')
  | _, _, .function _ hbody => and_congr_right' hbody.declaresNew_iff
  | _, _, .block h => h.declaresNew_iff

theorem Stmt.AllRearranged.declaresNew_iff {c : Context} : {ss ts : List Stmt} →
    Stmt.AllRearranged ss ts → (Stmt.AllDeclareNew c ss ↔ Stmt.AllDeclareNew c ts)
  | _, _, .nil => Iff.rfl
  | _, _, .cons h hs => by
    unfold Stmt.AllDeclareNew
    rw [h.declared_eq, h.declaresNew_iff, hs.declaresNew_iff]

theorem Block.Rearranged.declaresNew_iff {c : Context} :
    {b b' : Block} → b.Rearranged b' → (b.DeclaresNew c ↔ b'.DeclaresNew c)
  | _, _, @Block.Rearranged.mk _ _ ms ts hinner hmoved => by
    unfold Block.DeclaresNew
    rw [hinner.enter_eq, hinner.declaresNew_iff, hinner.canEnter, hmoved.canEnter,
      hmoved.allDeclareNew]
    exact and_congr_right' (Stmt.allDeclareNew_congr hmoved.similar_enter ts)

theorem Case.AllRearranged.declaresNew_iff {c : Context} : {cs cs' : List Case} →
    Case.AllRearranged cs cs' → (Case.AllDeclareNew c cs ↔ Case.AllDeclareNew c cs')
  | _, _, .nil => Iff.rfl
  | _, _, .cons _ _ hbody hs => and_congr hbody.declaresNew_iff hs.declaresNew_iff

end

/-! ## The analysis -/

theorem analyze_eq_ok {d : Dialect} {external : List String} {b : Block} {info : Info} :
    analyze d external b = .ok info ↔
      b.Valid (.root d external) ∧ b.DeclaresNew (.root d external) ∧
      info = ⟨d, Text.ordered external, b.boundNames.length⟩ := by
  have hcounts := Env.counts_block ⟨d, Text.ordered external, []⟩ b
  rw [b.bindings_perm.length_eq] at hcounts
  rw [← and_assoc, ← Env.block_spec (Env.agrees_root d external) b]
  unfold analyze
  dsimp only
  split
  . next h =>
    have hclean : (Env.block ⟨d, Text.ordered external, []⟩ b).Clean := List.isEmpty_iff.1 h
    rw [hcounts hclean, Except.ok.injEq, eq_comm]
    exact (and_iff_right hclean).symm
  . next h =>
    refine iff_of_false nofun fun hok => h (List.isEmpty_iff.2 hok.1)

/--
Where the functions stand in their blocks does not matter: the analysis accepts a program exactly if
it accepts the program with functions at other places, and then knows the same of both.
-/
theorem analyze_rearranged {b b' : Block} (h : b.Rearranged b') (d : Dialect)
    (external : List String) (info : Info) :
    analyze d external b = .ok info ↔ analyze d external b' = .ok info := by
  rw [analyze_eq_ok, analyze_eq_ok, h.valid_iff, h.declaresNew_iff, h.boundNames_perm.length_eq]

/--
A function with the parameter `x` goes to the front of a variable `x`, and another one with the
return variable `i` to the front of the `i` of a loop: these are hidden at first, and then missing.
-/
theorem analyze_rearranged_hidden : ∃ (x i f g : Stmt) (loop : List Stmt → Stmt),
    x.declared.map Binder.name = ["x"] ∧ f.boundNames = ["f", "x", "y"] ∧
    i.declared.map Binder.name = ["i"] ∧ g.boundNames = ["g", "i"] ∧
    Block.Rearranged ⟨.none, [x, loop [i, g], f]⟩ ⟨.none, [f, x, loop [g, i]]⟩ ∧
    analyze .loose ["h"] ⟨.none, [x, loop [i, g], f]⟩ = .ok ⟨.loose, ["h"], 7⟩ ∧
    analyze .loose ["h"] ⟨.none, [f, x, loop [g, i]]⟩ = .ok ⟨.loose, ["h"], 7⟩ := by
  let binder (name : String) : Binder := ⟨.none, name, none⟩
  let identifier (name : String) : Identifier := ⟨.none, name⟩
  let call (name argument : String) : Expr :=
    .call .none (identifier name) [.identifier (identifier argument)]
  let x : Stmt := .declaration .none [binder "x"] (some (call "f" "h"))
  let i : Stmt := .declaration .none [binder "i"] none
  let f : Stmt := .function ⟨⟨.none, "f", [binder "x"], [binder "y"]⟩,
    ⟨.none, [.assignment .none [identifier "y"] (.identifier (identifier "x"))]⟩⟩
  let g : Stmt := .function ⟨⟨.none, "g", [], [binder "i"]⟩,
    ⟨.none, [.assignment .none [identifier "i"] (call "f" "i")]⟩⟩
  let loop (pre : List Stmt) : Stmt := .loop .none ⟨.none, pre⟩
    (.instruction .none "lt" [.identifier (identifier "i"), .call .none (identifier "g") []])
    ⟨.none, []⟩ ⟨.none, []⟩
  have hpre : Block.Rearranged ⟨.none, [i, g]⟩ ⟨.none, [g, i]⟩ :=
    .mk .none (.refl _) ⟨.swap g i [], rfl⟩
  have hfront : ([x, loop [g, i]] ++ [f]).Perm ([f] ++ [x, loop [g, i]]) := List.perm_append_comm
  have hloop : Stmt.Rearranged (loop [i, g]) (loop [g, i]) :=
    .loop .none _ hpre (.refl _) (.refl _)
  have hstatements : Stmt.AllRearranged [x, loop [i, g], f] [x, loop [g, i], f] :=
    .cons (.same x) (.cons hloop (.refl [f]))
  have hroot : Block.Rearranged ⟨.none, [x, loop [i, g], f]⟩ ⟨.none, [f, x, loop [g, i]]⟩ :=
    .mk .none hstatements ⟨hfront, rfl⟩
  have hanalyze : analyze .loose ["h"] ⟨.none, [x, loop [i, g], f]⟩ = .ok ⟨.loose, ["h"], 7⟩ := by
    decide +kernel
  exact ⟨x, i, f, g, loop, rfl, rfl, rfl, rfl, hroot, hanalyze,
    (analyze_rearranged hroot .loose ["h"] _).1 hanalyze⟩

end Splice
