import Splice.Json.Tree
import Splice.Proofs.Json.Text
import Splice.Proofs.Tree.Spans

/-!
This module contains the proof that the JSON form of an expression, and of the other nodes that have
no statements in them, is read as the node. Fields may stand in front of those of the node: the tags
of an expression and of a statement that is one stand in one object.
-/

namespace Splice

namespace Json

variable {extra fields : List (String × Json)} {name : String}

/-! ## Fields -/

theorem field?_append {v : Json} (h : (Json.object fields).field? name = some v) :
    (Json.object (extra ++ fields)).field? name = some v := by
  unfold field? at h ⊢
  simp only at h ⊢
  rw [List.reverse_append, List.lookup_append, h]
  rfl

theorem tagged?_of_field {tag : Json} (h : (Json.object fields).field? name = some tag) :
    (Json.object fields).tagged? name = some (tag, .object fields) := by
  unfold tagged?
  simp only [h, Option.map_some]

theorem record?_object (names : List String) :
    (Json.object fields).record? names = some (.object fields) := rfl

theorem text?_of_field {j : Json} {text : String} (h : j.field? name = some (.string text)) :
    j.text? name = some text := by
  unfold text?
  rw [h]
  rfl

theorem mapM_map {α : Type} {f : Json → Option α} {g : α → Json} {xs : List α}
    (h : ∀ x ∈ xs, f (g x) = some x) : (xs.map g).mapM f = some xs := by
  induction xs with
  | nil => rfl
  | cons x xs ih =>
    rw [List.map_cons, List.mapM_cons, h x List.mem_cons_self,
      ih fun y hy => h y (List.mem_cons_of_mem x hy)]
    rfl

theorem all?_map {α : Type} {f : Json → Option α} {g : α → Json} {j : Json} {xs : List α}
    (hfield : j.field? name = some (.list (xs.map g))) (h : ∀ x ∈ xs, f (g x) = some x) :
    j.all? name f = some xs := by
  unfold all?
  rw [hfield]
  exact mapM_map h

theorem optional?_elim {α : Type} {f : Json → Option α} {g : α → List (String × Json)} {j : Json}
    {x? : Option α} (hfield : j.field? name = some (x?.elim .null fun x => .object (g x)))
    (h : ∀ x ∈ x?, f (.object (g x)) = some x) : j.optional? name f = some x? := by
  unfold optional?
  rw [hfield]
  cases x? with
  | none => rfl
  | some x =>
    simp only [Option.elim_some, h x rfl, Option.map_some]

theorem optional?_ofOption {j : Json} {text? : Option String}
    (hfield : j.field? name = some (ofOption text?)) : j.optional? name string? = some text? := by
  unfold optional?
  rw [hfield]
  cases text? <;> rfl

/-! ## The depth of a value -/

theorem depth_le_of_mem_items {item : Json} {items : List Json} (h : item ∈ items) :
    item.depth ≤ maxDepth items := by
  induction items with
  | nil => contradiction
  | cons first items ih =>
    rw [maxDepth]
    rcases List.mem_cons.1 h with rfl | h
    . exact Nat.le_max_left _ _
    . exact Nat.le_trans (ih h) (Nat.le_max_right _ _)

theorem depth_le_of_mem_fields (name : String) (v : Json) (h : (name, v) ∈ fields) :
    v.depth ≤ maxFieldDepth fields := by
  induction fields with
  | nil => contradiction
  | cons first fields ih =>
    rw [maxFieldDepth]
    rcases List.mem_cons.1 h with rfl | h
    . exact Nat.le_max_left _ _
    . exact Nat.le_trans (ih h) (Nat.le_max_right _ _)

theorem depth_of_mem_list (name : String) (items : List Json) {item : Json} {n : Nat}
    (hfield : (name, .list items) ∈ fields) (hitem : item ∈ items)
    (hn : maxFieldDepth fields ≤ n + 1) : item.depth ≤ n := by
  have hlist := depth_le_of_mem_fields _ _ hfield
  have hdepth := depth_le_of_mem_items hitem
  rw [depth] at hlist
  omega

theorem maxFieldDepth_append (extra fields : List (String × Json)) :
    maxFieldDepth (extra ++ fields) = max (maxFieldDepth extra) (maxFieldDepth fields) := by
  induction extra with
  | nil => exact (Nat.zero_max _).symm
  | cons field extra ih =>
    obtain ⟨name, v⟩ := field
    rw [List.cons_append, maxFieldDepth, maxFieldDepth, ih, Nat.max_assoc]

end Json

/-! ## Positions -/

open Json

theorem Position.coordinate?_ofNat {n : Nat} (h : n < Nat.pow 2 64) :
    Position.coordinate? (.ofNat n) = some n := by
  have hnat : (Json.ofNat n).nat? = some n := decimal?_toString n
  unfold coordinate?
  rw [hnat]
  exact if_pos (Nat.le_sub_one_of_lt h)

theorem Position.ofJson?_toJson {p : Position} (h : p.Bounded) :
    Position.ofJson? p.toJson = some p := by
  have hline : p.toJson.field? "line" = some (.ofNat p.line) := rfl
  have hcolumn : p.toJson.field? "column" = some (.ofNat p.column) := rfl
  have hrecord : p.toJson.record? ["line", "column"] = some p.toJson := rfl
  unfold ofJson?
  simp only [hrecord, hline, hcolumn, Option.bind_eq_bind, Option.bind_some,
    coordinate?_ofNat h.1, coordinate?_ofNat h.2, Option.pure_def]

theorem Span.ofJson?_toJson {s : Span} (h : s.Bounded) : Span.ofJson? s.toJson = some s := by
  have hstart : s.toJson.field? "start" = some s.start.toJson := rfl
  have hstop : s.toJson.field? "end" = some s.stop.toJson := rfl
  have hrecord : s.toJson.record? ["start", "end"] = some s.toJson := rfl
  unfold ofJson?
  simp only [hrecord, hstart, hstop, Option.bind_eq_bind, Option.bind_some,
    Position.ofJson?_toJson h.1, Position.ofJson?_toJson h.2, Option.pure_def]

theorem Json.span?_of_field {j : Json} {s : Span} (hfield : j.field? "span" = some s.toJson)
    (h : s.Bounded) : j.span? = some s := by
  unfold span?
  rw [hfield]
  exact Span.ofJson?_toJson h

/-! ## Names and literals -/

theorem Binder.ofJson?_toJson {x : Binder} (h : x.span.Bounded) :
    Binder.ofJson? x.toJson = some x := by
  have hrecord : x.toJson.record? ["span", "name", "ty"] = some x.toJson := rfl
  have hspan : x.toJson.span? = some x.span := span?_of_field rfl h
  have hname : x.toJson.text? "name" = some x.name := text?_of_field rfl
  have htype : x.toJson.optional? "ty" Json.string? = some x.type := optional?_ofOption rfl
  unfold ofJson?
  simp only [hrecord, hspan, hname, htype, Option.bind_eq_bind, Option.bind_some, Option.pure_def]

theorem Identifier.ofJson?_of_fields {fields : List (String × Json)} {i : Identifier}
    (hspan : (Json.object fields).field? "span" = some i.span.toJson)
    (hname : (Json.object fields).field? "name" = some (.string i.name)) (h : i.span.Bounded) :
    Identifier.ofJson? (.object fields) = some i := by
  unfold ofJson?
  simp only [record?_object, span?_of_field hspan h, text?_of_field hname, Option.bind_eq_bind,
    Option.bind_some, Option.pure_def]

theorem Identifier.ofJson?_toJson {i : Identifier} (h : i.span.Bounded) :
    Identifier.ofJson? i.toJson = some i :=
  ofJson?_of_fields rfl rfl h

theorem Literal.ofJson?_fields (extra : List (String × Json)) {l : Literal}
    (h : l.span.Bounded) : Literal.ofJson? (.object (extra ++ l.fields)) = some l := by
  have hspan : (Json.object (extra ++ l.fields)).span? = some l.span :=
    span?_of_field (field?_append rfl) h
  have hkind : (Json.object (extra ++ l.fields)).field? "kind" = some (.string l.kind.label) :=
    field?_append rfl
  have htext : (Json.object (extra ++ l.fields)).text? "value" = some l.text :=
    text?_of_field (field?_append rfl)
  have htype : (Json.object (extra ++ l.fields)).optional? "ty" Json.string? = some l.type :=
    optional?_ofOption (field?_append rfl)
  unfold ofJson?
  simp only [record?_object, hspan, hkind, htext, htype, LiteralKind.ofJson?,
    LiteralKind.ofLabel?_label, Option.bind_eq_bind, Option.bind_some, Option.pure_def]

/-! ## Expressions -/

namespace Expr

theorem toJsons_eq_map (es : List Expr) : toJsons es = es.map toJson := by
  induction es with
  | nil => rfl
  | cons e es ih => rw [toJsons, ih, List.map_cons, toJson]

section Kinds

variable {n : Nat} (extra : List (String × Json)) {span : Span}

abbrev toJsonBehind (e : Expr) : Json :=
  .object (extra ++ e.fields)

theorem tagged?_toJsonBehind {e : Expr} {tag : Json}
    (h : (e.toJsonBehind extra).field? "expression" = some tag) :
    (e.toJsonBehind extra).tagged? "expression" = some (tag, e.toJsonBehind extra) :=
  tagged?_of_field h

theorem ofJsonWithin?_literal {l : Literal} (h : l.span.Bounded) :
    ofJsonWithin? (n + 1) (toJsonBehind extra (.literal l)) = some (.literal l) := by
  have hl : Literal.ofJson? (toJsonBehind extra (.literal l)) = some l := by
    have hl := Literal.ofJson?_fields (extra ++ [("expression", .string "Literal")]) h
    rwa [List.append_assoc] at hl
  rw [ofJsonWithin?, tagged?_toJsonBehind extra (field?_append rfl)]
  simp only [kind?, hl, Option.bind_eq_bind, Option.bind_some, Option.pure_def]

theorem ofJsonWithin?_identifier {i : Identifier} (h : i.span.Bounded) :
    ofJsonWithin? (n + 1) (toJsonBehind extra (.identifier i)) = some (.identifier i) := by
  have hi : Identifier.ofJson? (toJsonBehind extra (.identifier i)) = some i :=
    Identifier.ofJson?_of_fields (field?_append rfl) (field?_append rfl) h
  rw [ofJsonWithin?, tagged?_toJsonBehind extra (field?_append rfl)]
  simp only [kind?, hi, Option.bind_eq_bind, Option.bind_some, Option.pure_def]

/-! The calls, which are read if their arguments are. -/

variable {arguments : List Expr}

theorem ofJsonWithin?_call {callee : Identifier} (hspan : span.Bounded)
    (hcallee : callee.span.Bounded)
    (harguments : ∀ e ∈ arguments, ofJsonWithin? n e.toJson = some e) :
    ofJsonWithin? (n + 1) (toJsonBehind extra (.call span callee arguments)) =
      some (.call span callee arguments) := by
  have hspan := span?_of_field (j := toJsonBehind extra (.call span callee arguments))
    (field?_append rfl) hspan
  have hfield : (toJsonBehind extra (.call span callee arguments)).field? "function_name" =
    some callee.toJson := field?_append rfl
  have harguments : (toJsonBehind extra (.call span callee arguments)).all? "arguments"
      (ofJsonWithin? n) = some arguments := by
    refine all?_map ?_ harguments
    rw [← toJsons_eq_map]
    exact field?_append rfl
  rw [ofJsonWithin?, tagged?_toJsonBehind extra (field?_append rfl)]
  simp only [kind?, record?_object, hspan, hfield, Identifier.ofJson?_toJson hcallee, harguments,
    Option.bind_eq_bind, Option.bind_some, Option.pure_def]

theorem ofJsonWithin?_instruction {name : String} (hspan : span.Bounded)
    (harguments : ∀ e ∈ arguments, ofJsonWithin? n e.toJson = some e) :
    ofJsonWithin? (n + 1) (toJsonBehind extra (.instruction span name arguments)) =
      some (.instruction span name arguments) := by
  have hspan := span?_of_field (j := toJsonBehind extra (.instruction span name arguments))
    (field?_append rfl) hspan
  have hname : (toJsonBehind extra (.instruction span name arguments)).text? "instruction" =
    some name := text?_of_field (field?_append rfl)
  have harguments : (toJsonBehind extra (.instruction span name arguments)).all? "arguments"
      (ofJsonWithin? n) = some arguments := by
    refine all?_map ?_ harguments
    rw [← toJsons_eq_map]
    exact field?_append rfl
  rw [ofJsonWithin?, tagged?_toJsonBehind extra (field?_append rfl)]
  simp only [kind?, record?_object, hspan, hname, harguments, Option.bind_eq_bind,
    Option.bind_some, Option.pure_def]

end Kinds

theorem ofJsonWithin?_fields (extra : List (String × Json)) {e : Expr}
    (hspans : ∀ s ∈ e.spans, s.Bounded) {n : Nat} (hn : maxFieldDepth e.fields < n) :
    ofJsonWithin? n (e.toJsonBehind extra) = some e := by
  induction n generalizing e extra with
  | zero => contradiction
  | succ n ih =>
    have harguments : ∀ es, (∀ s ∈ allSpans es, s.Bounded) →
        ("arguments", Json.list (toJsons es)) ∈ e.fields →
        ∀ arg ∈ es, ofJsonWithin? n arg.toJson = some arg := by
      intro es hes hfield arg harg
      have hmem : arg.toJson ∈ toJsons es := by
        rw [toJsons_eq_map]
        exact List.mem_map_of_mem harg
      have hdepth := depth_of_mem_list _ _ hfield hmem (n := n) (by omega)
      exact ih [] (fun s hs => hes s (spans_subset_allSpans harg hs)) hdepth
    cases e with
    | literal l => exact ofJsonWithin?_literal extra (hspans l.span List.mem_cons_self)
    | identifier i => exact ofJsonWithin?_identifier extra (hspans i.span List.mem_cons_self)
    | call span callee arguments =>
      simp only [spans, List.forall_mem_cons] at hspans
      obtain ⟨hspan, hcallee, hspans⟩ := hspans
      refine ofJsonWithin?_call extra hspan hcallee (harguments arguments hspans ?_)
      simp [fields]
    | instruction span name arguments =>
      simp only [spans, List.forall_mem_cons] at hspans
      refine ofJsonWithin?_instruction extra hspans.1 (harguments arguments hspans.2 ?_)
      simp [fields]

theorem ofJson?_fields (extra : List (String × Json)) {e : Expr}
    (hspans : ∀ s ∈ e.spans, s.Bounded) : Expr.ofJson? (.object (extra ++ e.fields)) = some e := by
  refine ofJsonWithin?_fields extra hspans ?_
  rw [Json.depth, maxFieldDepth_append]
  omega

end Expr
end Splice
