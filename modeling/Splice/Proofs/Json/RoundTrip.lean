import Splice.Proofs.Json.Nodes

/-!
This module contains the proof that the text that a tree is dumped as is read back as the tree.
-/

namespace Splice

open Json

/-! ## Statements -/

theorem Signature.ofJson?_of_fields {fields : List (String × Json)} {f : Signature}
    (hspan : (Json.object fields).field? "span" = some f.span.toJson)
    (hname : (Json.object fields).field? "name" = some (.string f.name))
    (hparameters : (Json.object fields).field? "parameters" =
      some (.list (f.parameters.map Binder.toJson)))
    (hreturns : (Json.object fields).field? "return_variables" =
      some (.list (f.returns.map Binder.toJson)))
    (hspans : ∀ s ∈ f.spans, s.Bounded) : Signature.ofJson? (.object fields) = some f := by
  have hbounded : ∀ x ∈ f.parameters ++ f.returns, x.span.Bounded := by
    intro x hx
    apply hspans
    simp only [spans, List.mem_append, List.mem_cons, List.mem_map] at hx ⊢
    rcases hx with hx | hx
    . exact .inl (.inr ⟨x, hx, rfl⟩)
    . exact .inr ⟨x, hx, rfl⟩
  rw [List.forall_mem_append] at hbounded
  have hparameters := all?_map hparameters (f := Binder.ofJson?) fun x hx =>
    Binder.ofJson?_toJson (hbounded.1 x hx)
  have hreturns := all?_map hreturns (f := Binder.ofJson?) fun x hx =>
    Binder.ofJson?_toJson (hbounded.2 x hx)
  have hspan := span?_of_field hspan (hspans f.span List.mem_cons_self)
  unfold ofJson?
  simp only [hspan, text?_of_field hname, hparameters, hreturns, Option.bind_eq_bind,
    Option.bind_some, Option.pure_def]

def Stmt.toJson (s : Stmt) : Json :=
  .object s.fields

theorem Stmt.toJsons_eq_map (ss : List Stmt) : Stmt.toJsons ss = ss.map Stmt.toJson := by
  induction ss with
  | nil => rfl
  | cons s ss ih => rw [toJsons, ih, List.map_cons, toJson]

theorem Block.ofJsonWith?_fields (extra : List (String × Json)) {stmt? : Json → Option Stmt}
    {b : Block} (hspan : b.span.Bounded)
    (h : ∀ s ∈ b.statements, stmt? s.toJson = some s) :
    Block.ofJsonWith? stmt? (.object (extra ++ b.fields)) = some b := by
  obtain ⟨span, ss⟩ := b
  have hspan := span?_of_field (j := .object (extra ++ Block.fields ⟨span, ss⟩))
    (field?_append rfl) hspan
  have hss : (Json.object (extra ++ Block.fields ⟨span, ss⟩)).all? "statements" stmt? =
      some ss := by
    refine all?_map ?_ h
    rw [← Stmt.toJsons_eq_map]
    exact field?_append rfl
  unfold ofJsonWith?
  simp only [record?_object, hspan, hss, Option.bind_eq_bind, Option.bind_some, Option.pure_def]

def Case.toJson (c : Case) : Json :=
  .object [("span", c.span.toJson), ("value", c.value.elim .null Literal.toJson),
    ("body", .object c.body.fields)]

theorem Case.toJsons_eq_map (cs : List Case) : Case.toJsons cs = cs.map Case.toJson := by
  induction cs with
  | nil => rfl
  | cons c cs ih =>
    obtain ⟨span, value, body⟩ := c
    rw [toJsons, ih, List.map_cons, toJson]

theorem Case.ofJsonWith?_toJson {block? : Json → Option Block} {c : Case}
    (h : ∀ s ∈ c.spans, s.Bounded) {n : Nat} (hn : c.toJson.depth ≤ n)
    (hbody : (∀ s ∈ c.body.spans, s.Bounded) → maxFieldDepth c.body.fields < n →
      block? (.object c.body.fields) = some c.body) :
    Case.ofJsonWith? block? c.toJson = some c := by
  obtain ⟨span, value, body⟩ := c
  simp only [spans, List.forall_mem_append, List.forall_mem_cons] at h
  obtain ⟨⟨hspan, hvalue⟩, hspans⟩ := h
  have hspan := span?_of_field (j := toJson ⟨span, value, body⟩) rfl hspan
  have hvalue : (toJson ⟨span, value, body⟩).optional? "value" Literal.ofJson? = some value := by
    refine optional?_elim rfl fun l hl => Literal.ofJson?_fields [] ?_
    obtain rfl := Option.mem_def.1 hl
    exact hvalue l.span List.mem_cons_self
  have hfield : (toJson ⟨span, value, body⟩).field? "body" = some (.object body.fields) := rfl
  have hbody : block? (.object body.fields) = some body := by
    refine hbody hspans ?_
    have hmem : ("body", Json.object body.fields) ∈ [("span", span.toJson),
        ("value", value.elim .null Literal.toJson), ("body", Json.object body.fields)] := by
      simp
    have hdepth := depth_le_of_mem_fields _ _ hmem
    rw [depth] at hdepth
    rw [toJson, depth] at hn
    change maxFieldDepth body.fields < n
    exact Nat.lt_of_lt_of_le hdepth (Nat.le_of_succ_le hn)
  have hrecord : (toJson ⟨span, value, body⟩).record? ["span", "value", "body"] =
    some (toJson ⟨span, value, body⟩) := rfl
  unfold ofJsonWith?
  simp only [hrecord, hspan, hvalue, hfield, hbody, Option.bind_eq_bind, Option.bind_some,
    Option.pure_def]

namespace Stmt

theorem tagged?_toJson {s : Stmt} {tag : Json} (h : s.toJson.field? "statement" = some tag) :
    s.toJson.tagged? "statement" = some (tag, s.toJson) :=
  tagged?_of_field h

theorem record?_toJson (s : Stmt) (names : List String) :
    s.toJson.record? names = some s.toJson := rfl

/-! ### One kind of statement after the other -/

section Kinds

variable {n : Nat} (numbered : Bool) {span : Span}

-- Makes the equations of the reader once, in front of all the lemmas that rewrite with them.
attribute [local simp] ofJsonWithin?

theorem ofJsonWithin?_expression {e : Expr} (h : ∀ s ∈ e.spans, s.Bounded) :
    ofJsonWithin? (n + 1) numbered (toJson (.expression e)) = some (.expression e) := by
  have htag : (toJson (.expression e)).field? "statement" = some (.string "Expression") := by
    rw [toJson, fields]
    cases e <;> rfl
  have he : Expr.ofJson? (toJson (.expression e)) = some e :=
    Expr.ofJson?_fields [("statement", .string "Expression")] h
  rw [ofJsonWithin?, tagged?_toJson htag]
  simp only [kind?, he, Option.bind_eq_bind, Option.bind_some, Option.pure_def]

theorem ofJsonWithin?_declaration {vars : List Binder} {value : Option Expr}
    (h : ∀ s ∈ (declaration span vars value).spans, s.Bounded) :
    ofJsonWithin? (n + 1) numbered (toJson (.declaration span vars value)) =
      some (.declaration span vars value) := by
  simp only [spans, List.forall_mem_append, List.forall_mem_cons, List.forall_mem_map] at h
  have hspan := span?_of_field (j := toJson (.declaration span vars value)) rfl h.1.1
  have hvars : (toJson (.declaration span vars value)).all? "variables" Binder.ofJson? =
      some vars :=
    all?_map rfl fun x hx => Binder.ofJson?_toJson (h.1.2 x hx)
  have hvalue : (toJson (.declaration span vars value)).optional? "value" Expr.ofJson? =
      some value := by
    refine optional?_elim rfl fun e he => Expr.ofJson?_fields [] ?_
    obtain rfl := Option.mem_def.1 he
    exact h.2
  rw [ofJsonWithin?, tagged?_toJson rfl]
  simp only [kind?, record?_toJson, hspan, hvars, hvalue, Option.bind_eq_bind, Option.bind_some,
    Option.pure_def]

theorem ofJsonWithin?_assignment {targets : List Identifier} {value : Expr}
    (h : ∀ s ∈ (assignment span targets value).spans, s.Bounded) :
    ofJsonWithin? (n + 1) numbered (toJson (.assignment span targets value)) =
      some (.assignment span targets value) := by
  simp only [spans, List.forall_mem_append, List.forall_mem_cons, List.forall_mem_map] at h
  have hspan := span?_of_field (j := toJson (.assignment span targets value)) rfl h.1.1
  have htargets : (toJson (.assignment span targets value)).all? "variable_names"
      Identifier.ofJson? = some targets :=
    all?_map rfl fun i hi => Identifier.ofJson?_toJson (h.1.2 i hi)
  have hfield : (toJson (.assignment span targets value)).field? "value" = some value.toJson := rfl
  have hvalue : Expr.ofJson? value.toJson = some value := Expr.ofJson?_fields [] h.2
  rw [ofJsonWithin?, tagged?_toJson rfl]
  simp only [kind?, record?_toJson, hspan, htargets, hfield, hvalue, Option.bind_eq_bind,
    Option.bind_some, Option.pure_def]

theorem ofJsonWithin?_stack {form : StackForm} (h : ∀ s ∈ form.spans, s.Bounded) :
    ofJsonWithin? (n + 1) numbered (toJson (.stack form)) = some (.stack form) := by
  rw [ofJsonWithin?]
  cases form with
  | label span name =>
    have hname : Identifier.ofJson? (toJson (.stack (.label span name))) = some ⟨span, name⟩ :=
      Identifier.ofJson?_of_fields rfl rfl (h span List.mem_cons_self)
    rw [tagged?_toJson rfl]
    simp only [kind?, hname, Option.bind_eq_bind, Option.bind_some, Option.pure_def]
  | assignment span target =>
    have hspan := span?_of_field (j := toJson (.stack (.assignment span target))) rfl
      (h span List.mem_cons_self)
    have hfield : (toJson (.stack (.assignment span target))).field? "variable_name" =
      some target.toJson := rfl
    have htarget := Identifier.ofJson?_toJson
      (h target.span (List.mem_cons_of_mem _ List.mem_cons_self))
    rw [tagged?_toJson rfl]
    simp only [kind?, record?_toJson, hspan, hfield, htarget, Option.bind_eq_bind,
      Option.bind_some, Option.pure_def]
  | instruction span name =>
    have hspan := span?_of_field (j := toJson (.stack (.instruction span name))) rfl
      (h span List.mem_cons_self)
    have hname : (toJson (.stack (.instruction span name))).text? "instruction" = some name :=
      text?_of_field rfl
    rw [tagged?_toJson rfl]
    simp only [kind?, record?_toJson, hspan, hname, Option.bind_eq_bind, Option.bind_some,
      Option.pure_def]

/-! The statements with blocks in them, which are read if the blocks are. -/

abbrev block? (n : Nat) : Json → Option Block :=
  Block.ofJsonWith? (ofJsonWithin? n true)

theorem ofJsonWithin?_conditional {condition : Expr} {body : Block}
    (h : ∀ s ∈ (conditional span condition body).spans, s.Bounded)
    (hbody : block? n (.object body.fields) = some body) :
    ofJsonWithin? (n + 1) numbered (toJson (.conditional span condition body)) =
      some (.conditional span condition body) := by
  simp only [spans, List.forall_mem_append, List.forall_mem_cons] at h
  have hspan := span?_of_field (j := toJson (.conditional span condition body)) rfl h.1.1
  have hfield : (toJson (.conditional span condition body)).field? "condition" =
    some condition.toJson := rfl
  have hcondition : Expr.ofJson? condition.toJson = some condition := Expr.ofJson?_fields [] h.1.2
  have hblock : (toJson (.conditional span condition body)).field? "body" =
    some (.object body.fields) := rfl
  rw [ofJsonWithin?, tagged?_toJson rfl]
  simp only [kind?, record?_toJson, hspan, hfield, hcondition, hblock, hbody, Option.bind_eq_bind,
    Option.bind_some, Option.pure_def]

theorem ofJsonWithin?_switch {subject : Expr} {arms : List Case}
    (h : ∀ s ∈ (switch span subject arms).spans, s.Bounded)
    (harms : ∀ arm ∈ arms, Case.ofJsonWith? (block? n) arm.toJson = some arm) :
    ofJsonWithin? (n + 1) numbered (toJson (.switch span subject arms)) =
      some (.switch span subject arms) := by
  simp only [spans, List.forall_mem_append, List.forall_mem_cons] at h
  have hspan := span?_of_field (j := toJson (.switch span subject arms)) rfl h.1.1
  have hfield : (toJson (.switch span subject arms)).field? "expression" =
    some subject.toJson := rfl
  have hsubject : Expr.ofJson? subject.toJson = some subject := Expr.ofJson?_fields [] h.1.2
  have harms : (toJson (.switch span subject arms)).all? "cases" (Case.ofJsonWith? (block? n)) =
      some arms := by
    refine all?_map ?_ harms
    rw [← Case.toJsons_eq_map]
    rfl
  rw [ofJsonWithin?, tagged?_toJson rfl]
  simp only [kind?, record?_toJson, hspan, hfield, hsubject, harms, Option.bind_eq_bind,
    Option.bind_some, Option.pure_def]

theorem ofJsonWithin?_loop {pre : Block} {condition : Expr} {post body : Block}
    (h : ∀ s ∈ (loop span pre condition post body).spans, s.Bounded)
    (hpre : block? n (.object pre.fields) = some pre)
    (hpost : block? n (.object post.fields) = some post)
    (hbody : block? n (.object body.fields) = some body) :
    ofJsonWithin? (n + 1) numbered (toJson (.loop span pre condition post body)) =
      some (.loop span pre condition post body) := by
  simp only [spans, List.forall_mem_append, List.forall_mem_cons] at h
  obtain ⟨⟨⟨⟨hspan, -⟩, hcondition⟩, -⟩, -⟩ := h
  have hspan := span?_of_field (j := toJson (.loop span pre condition post body)) rfl hspan
  have hcondition : Expr.ofJson? condition.toJson = some condition :=
    Expr.ofJson?_fields [] hcondition
  have hfields : (toJson (.loop span pre condition post body)).field? "pre" =
      some (.object pre.fields) ∧
    (toJson (.loop span pre condition post body)).field? "condition" = some condition.toJson ∧
    (toJson (.loop span pre condition post body)).field? "post" = some (.object post.fields) ∧
    (toJson (.loop span pre condition post body)).field? "body" = some (.object body.fields) :=
    ⟨rfl, rfl, rfl, rfl⟩
  rw [ofJsonWithin?, tagged?_toJson rfl]
  simp only [kind?, record?_toJson, hspan, hfields, hpre, hcondition, hpost, hbody,
    Option.bind_eq_bind, Option.bind_some, Option.pure_def]

theorem ofJsonWithin?_function {f : Signature} {body : Block}
    (h : ∀ s ∈ (function ⟨f, body⟩).spans, s.Bounded)
    (hbody : block? n (.object body.fields) = some body) :
    ofJsonWithin? (n + 1) numbered (toJson (.function ⟨f, body⟩)) =
      some (.function ⟨f, body⟩) := by
  simp only [spans, List.forall_mem_append] at h
  have hf : Signature.ofJson? (toJson (.function ⟨f, body⟩)) = some f :=
    Signature.ofJson?_of_fields rfl rfl rfl rfl h.1
  have hblock : (toJson (.function ⟨f, body⟩)).field? "body" = some (.object body.fields) := rfl
  rw [ofJsonWithin?, tagged?_toJson rfl]
  simp only [kind?, record?_toJson, hf, hblock, hbody, Option.bind_eq_bind, Option.bind_some,
    Option.pure_def]

theorem ofJsonWithin?_block {b : Block}
    (hb : block? n (toJson (.block b)) = some b) :
    ofJsonWithin? (n + 1) numbered (toJson (.block b)) = some (.block b) := by
  have htag : (toJson (.block b)).field? "statement" = some (.string "Block") := by
    cases b
    rfl
  rw [ofJsonWithin?, tagged?_toJson htag]
  simp only [kind?, hb, Option.bind_eq_bind, Option.bind_some, Option.pure_def]

end Kinds

theorem ofJsonWithin?_toJson {s : Stmt} (hspans : ∀ span ∈ s.spans, span.Bounded) {n : Nat}
    (numbered : Bool) (hn : s.toJson.depth ≤ n) :
    ofJsonWithin? n numbered s.toJson = some s := by
  induction n generalizing s numbered with
  | zero => contradiction
  | succ n ih =>
    rw [toJson, depth] at hn
    have hblock : ∀ (b : Block) (extra : List (String × Json)), (∀ s ∈ b.spans, s.Bounded) →
        maxFieldDepth b.fields ≤ n + 1 → block? n (.object (extra ++ b.fields)) = some b := by
      rintro ⟨span, ss⟩ extra hspans hn
      refine Block.ofJsonWith?_fields extra (hspans span List.mem_cons_self) fun s hs => ?_
      have hdepth : s.toJson.depth ≤ n := by
        refine depth_of_mem_list "statements" (toJsons ss) ?_ ?_ hn
        . simp [Block.fields]
        . rw [toJsons_eq_map]
          exact List.mem_map_of_mem hs
      exact ih (fun span hspan => hspans span
        (List.mem_cons_of_mem _ (spans_subset_allSpans hs hspan))) true hdepth
    have hbody : ∀ (name : String) (b : Block), (name, Json.object b.fields) ∈ s.fields →
        (∀ s ∈ b.spans, s.Bounded) → block? n (.object b.fields) = some b := by
      intro name b hfield hspans
      have hdepth := depth_le_of_mem_fields name _ hfield
      rw [depth] at hdepth
      exact hblock b [] hspans (by omega)
    cases s with
    | expression e => exact ofJsonWithin?_expression numbered hspans
    | declaration span vars value => exact ofJsonWithin?_declaration numbered hspans
    | assignment span targets value => exact ofJsonWithin?_assignment numbered hspans
    | conditional span condition body =>
      refine ofJsonWithin?_conditional numbered hspans (hbody "body" body ?_ ?_)
      . simp [fields]
      . exact fun s hs => hspans s (by simp [spans, hs])
    | switch span subject arms =>
      refine ofJsonWithin?_switch numbered hspans fun arm harm => ?_
      have hspans : ∀ s ∈ arm.spans, s.Bounded := fun s hs => hspans s (by
        simp only [spans, List.mem_append]
        exact .inr (Case.spans_subset_allSpans harm hs))
      have hdepth : arm.toJson.depth ≤ n := by
        refine depth_of_mem_list "cases" (Case.toJsons arms) ?_ ?_
          (Nat.le_trans (Nat.le_of_succ_le_succ hn) (Nat.le_succ n))
        . simp [fields]
        . rw [Case.toJsons_eq_map]
          exact List.mem_map_of_mem harm
      exact Case.ofJsonWith?_toJson hspans hdepth fun hspans hn => hblock arm.body [] hspans (by omega)
    | loop span pre condition post body =>
      refine ofJsonWithin?_loop numbered hspans (hbody "pre" pre ?_ ?_) (hbody "post" post ?_ ?_)
        (hbody "body" body ?_ ?_)
      . simp [fields]
      . exact fun s hs => hspans s (by simp [spans, hs])
      . simp [fields]
      . exact fun s hs => hspans s (by simp [spans, hs])
      . simp [fields]
      . exact fun s hs => hspans s (by simp [spans, hs])
    | function f =>
      obtain ⟨f, body⟩ := f
      refine ofJsonWithin?_function numbered hspans (hbody "body" body ?_ ?_)
      . simp [fields]
      . exact fun s hs => hspans s (by simp [spans, hs])
    | block b =>
      refine ofJsonWithin?_block numbered (hblock b [("statement", .string "Block")] hspans ?_)
      rw [fields, maxFieldDepth] at hn
      omega
    | stack form => exact ofJsonWithin?_stack numbered hspans

end Stmt

/-! ## Numbers -/

theorem Position.natural_toJson (p : Position) : p.toJson.Natural :=
  ⟨⟨p.line, rfl⟩, ⟨p.column, rfl⟩, trivial⟩

theorem Span.natural_toJson (s : Span) : s.toJson.Natural :=
  ⟨s.start.natural_toJson, s.stop.natural_toJson, trivial⟩

theorem Json.natural_ofOption (text? : Option String) : (Json.ofOption text?).Natural := by
  cases text? <;> trivial

theorem Json.allNatural_map {α : Type} {g : α → Json} (h : ∀ x, (g x).Natural) (xs : List α) :
    AllNatural (xs.map g) := by
  induction xs with
  | nil => trivial
  | cons x xs ih => exact ⟨h x, ih⟩

theorem Binder.natural_toJson (x : Binder) : x.toJson.Natural :=
  ⟨x.span.natural_toJson, trivial, natural_ofOption x.type, trivial⟩

theorem Identifier.natural_toJson (i : Identifier) : i.toJson.Natural :=
  ⟨i.span.natural_toJson, trivial, trivial⟩

theorem Literal.natural_toJson (l : Literal) : l.toJson.Natural :=
  ⟨l.span.natural_toJson, trivial, trivial, natural_ofOption l.type, trivial⟩

mutual

theorem Expr.natural_fields : (e : Expr) → FieldsNatural e.fields
  | .literal l => ⟨trivial, l.natural_toJson⟩
  | .identifier i => ⟨trivial, i.natural_toJson⟩
  | .call span callee arguments =>
    ⟨trivial, span.natural_toJson, callee.natural_toJson, Expr.allNatural_toJsons arguments, trivial⟩
  | .instruction span _ arguments =>
    ⟨trivial, span.natural_toJson, trivial, Expr.allNatural_toJsons arguments, trivial⟩

theorem Expr.allNatural_toJsons : (es : List Expr) → AllNatural (Expr.toJsons es)
  | [] => trivial
  | e :: es => ⟨e.natural_fields, Expr.allNatural_toJsons es⟩

end

theorem Json.natural_elim {α : Type} {g : α → Json} (h : ∀ x, (g x).Natural) (x? : Option α) :
    (x?.elim .null g).Natural := by
  cases x? with
  | none => trivial
  | some x => exact h x

mutual

theorem Stmt.natural_fields : (s : Stmt) → FieldsNatural s.fields
  | .expression e => ⟨trivial, e.natural_fields⟩
  | .declaration span vars value =>
    ⟨trivial, span.natural_toJson, allNatural_map Binder.natural_toJson vars,
      natural_elim Expr.natural_fields value, trivial⟩
  | .assignment span targets value =>
    ⟨trivial, span.natural_toJson, allNatural_map Identifier.natural_toJson targets,
      value.natural_fields, trivial⟩
  | .conditional span condition body =>
    ⟨trivial, span.natural_toJson, condition.natural_fields, body.natural_fields, trivial⟩
  | .switch span subject arms =>
    ⟨trivial, span.natural_toJson, subject.natural_fields, Case.allNatural_toJsons arms, trivial⟩
  | .loop span pre condition post body =>
    ⟨trivial, span.natural_toJson, pre.natural_fields, condition.natural_fields,
      post.natural_fields, body.natural_fields, trivial⟩
  | .function ⟨f, body⟩ =>
    ⟨trivial, f.span.natural_toJson, trivial, allNatural_map Binder.natural_toJson f.parameters,
      allNatural_map Binder.natural_toJson f.returns, body.natural_fields, trivial⟩
  | .block b => ⟨trivial, b.natural_fields⟩
  | .stack (.label span _) => ⟨trivial, span.natural_toJson, trivial, trivial⟩
  | .stack (.assignment span target) =>
    ⟨trivial, span.natural_toJson, target.natural_toJson, trivial⟩
  | .stack (.instruction span _) => ⟨trivial, span.natural_toJson, trivial, trivial⟩

theorem Stmt.allNatural_toJsons : (ss : List Stmt) → AllNatural (Stmt.toJsons ss)
  | [] => trivial
  | s :: ss => ⟨s.natural_fields, Stmt.allNatural_toJsons ss⟩

theorem Block.natural_fields : (b : Block) → FieldsNatural b.fields
  | ⟨span, ss⟩ => ⟨span.natural_toJson, Stmt.allNatural_toJsons ss, trivial⟩

theorem Case.allNatural_toJsons : (cs : List Case) → AllNatural (Case.toJsons cs)
  | [] => trivial
  | ⟨span, value, body⟩ :: cs =>
    ⟨⟨span.natural_toJson, natural_elim Literal.natural_toJson value, body.natural_fields, trivial⟩,
      Case.allNatural_toJsons cs⟩

end

/-! ## Texts -/

namespace Block

theorem ofJson?_toJson {b : Block} (h : ∀ s ∈ b.spans, s.Bounded) :
    Block.ofJson? b.toJson = some b := by
  obtain ⟨span, ss⟩ := b
  refine ofJsonWith?_fields [] (b := ⟨span, ss⟩) (h span List.mem_cons_self) fun s hs => ?_
  have hdepth : s.toJson.depth ≤ (toJson ⟨span, ss⟩).depth := by
    refine depth_of_mem_list "statements" (Stmt.toJsons ss) ?_ ?_
      (Nat.le_trans (Nat.le_succ _) (Nat.le_succ _))
    . simp [fields]
    . rw [Stmt.toJsons_eq_map]
      exact List.mem_map_of_mem hs
  refine Stmt.ofJsonWithin?_toJson (fun s' hs' => ?_) false hdepth
  exact h s' (List.mem_cons_of_mem _ (Stmt.spans_subset_allSpans hs hs'))

/--
A tree is read back from the text that it is dumped as.
-/
theorem ofDump?_dump {b : Block} (h : ∀ s ∈ b.spans, s.Bounded) :
    Block.ofDump? b.dump = some b := by
  unfold ofDump? dump
  rw [read?_pretty (j := b.toJson) b.natural_fields]
  exact ofJson?_toJson h

/--
The end of the span is as far away as it may be, and the text of the literal has to be escaped.
-/
theorem ofDump?_dump_default :
    let span : Span := ⟨⟨1, 1⟩, ⟨1, 0xffffffffffffffff⟩⟩
    let b : Block := ⟨span, [.switch span (.literal ⟨span, .string, "\"\x1f", some "u8"⟩)
      [⟨span, none, ⟨span, [.declaration span [⟨span, "x", none⟩] none]⟩⟩]]⟩
    (∀ s ∈ b.spans, s.Bounded) ∧ ofDump? b.dump = some b := by
  intro span b
  have h : ∀ s ∈ b.spans, s.Bounded := by decide
  exact ⟨h, ofDump?_dump h⟩

end Block
end Splice
