import Splice.Proofs.Tree.Anonymous
import Splice.Proofs.Tree.Functions

/-!
This module contains the calls, instructions and definitions of functions of a tree, with where they
stand: in which functions, and whether in the condition of a loop.
-/

namespace Splice

inductive Item where
  | call (callee : String)
  | instruction (name : String)
  | definition (f : Signature)
deriving DecidableEq, Repr

structure Occurrence where
  item : Item
  enclosing : List String
  inCondition : Bool
deriving DecidableEq, Repr

namespace Occurrence

def inside (o : Occurrence) (names : List String) : Occurrence :=
  { o with enclosing := o.enclosing ++ names }

def ofCondition (o : Occurrence) : Occurrence := { o with inCondition := true }

def definition? (o : Occurrence) : Option Signature :=
  match o.item with
  | .definition f => some f
  | _ => none

theorem inside_nil (o : Occurrence) : o.inside [] = o := by
  unfold inside
  rw [List.append_nil]

theorem inside_inside (o : Occurrence) (names names' : List String) :
    (o.inside names).inside names' = o.inside (names ++ names') := by
  unfold inside
  rw [List.append_assoc]

end Occurrence

mutual

def Expr.occurrences : Expr → List Occurrence
  | .literal _ => []
  | .identifier _ => []
  | .call _ callee arguments => ⟨.call callee.name, [], false⟩ :: Expr.allOccurrences arguments
  | .instruction _ name arguments => ⟨.instruction name, [], false⟩ :: Expr.allOccurrences arguments

def Expr.allOccurrences : List Expr → List Occurrence
  | [] => []
  | e :: es => e.occurrences ++ Expr.allOccurrences es

end

mutual

def Stmt.occurrences : Stmt → List Occurrence
  | .expression e => e.occurrences
  | .declaration _ _ none => []
  | .declaration _ _ (some value) => value.occurrences
  | .assignment _ _ value => value.occurrences
  | .conditional _ condition body => condition.occurrences ++ body.occurrences
  | .switch _ subject arms => subject.occurrences ++ Case.allOccurrences arms
  | .loop _ pre condition post body =>
    pre.occurrences ++ condition.occurrences.map Occurrence.ofCondition ++ post.occurrences ++
      body.occurrences
  | .function ⟨f, body⟩ =>
    ⟨.definition f, [], false⟩ :: body.occurrences.map (Occurrence.inside · [f.name])
  | .block b => b.occurrences
  | .stack (.instruction _ name) => [⟨.instruction name, [], false⟩]
  | .stack _ => []

def Stmt.allOccurrences : List Stmt → List Occurrence
  | [] => []
  | s :: ss => s.occurrences ++ Stmt.allOccurrences ss

def Block.occurrences : Block → List Occurrence
  | ⟨_, ss⟩ => Stmt.allOccurrences ss

def Case.allOccurrences : List Case → List Occurrence
  | [] => []
  | ⟨_, _, body⟩ :: cs => body.occurrences ++ Case.allOccurrences cs

end

theorem Expr.allOccurrences_eq_flatMap (es : List Expr) :
    Expr.allOccurrences es = es.flatMap Expr.occurrences := by
  induction es with
  | nil => rfl
  | cons e es ih => rw [Expr.allOccurrences, ih, List.flatMap_cons]

theorem Stmt.allOccurrences_eq_flatMap (ss : List Stmt) :
    Stmt.allOccurrences ss = ss.flatMap Stmt.occurrences := by
  induction ss with
  | nil => rfl
  | cons s ss ih => rw [Stmt.allOccurrences, ih, List.flatMap_cons]

/-! ## Functions -/

mutual

theorem Expr.filterMap_definition? :
    (e : Expr) → e.occurrences.filterMap Occurrence.definition? = []
  | .literal _ => rfl
  | .identifier _ => rfl
  | .call _ _ arguments => Expr.all_filterMap_definition? arguments
  | .instruction _ _ arguments => Expr.all_filterMap_definition? arguments

theorem Expr.all_filterMap_definition? :
    (es : List Expr) → (Expr.allOccurrences es).filterMap Occurrence.definition? = []
  | [] => rfl
  | e :: es => by
    rw [Expr.allOccurrences, List.filterMap_append, e.filterMap_definition?,
      Expr.all_filterMap_definition? es, List.append_nil]

end

mutual

theorem Stmt.filterMap_definition? : (s : Stmt) →
    s.occurrences.filterMap Occurrence.definition? = s.functions.map Function.toSignature
  | .expression e => e.filterMap_definition?
  | .declaration _ _ none => rfl
  | .declaration _ _ (some value) => value.filterMap_definition?
  | .assignment _ _ value => value.filterMap_definition?
  | .conditional _ condition body => by
    rw [Stmt.occurrences, List.filterMap_append, condition.filterMap_definition?,
      body.filterMap_definition?]
    rfl
  | .switch _ subject arms => by
    rw [Stmt.occurrences, List.filterMap_append, subject.filterMap_definition?,
      Case.all_filterMap_definition? arms]
    rfl
  | .loop _ pre condition post body => by
    have hcondition : (condition.occurrences.map Occurrence.ofCondition).filterMap
        Occurrence.definition? = [] := by
      rw [List.filterMap_map]
      exact condition.filterMap_definition?
    simp only [Stmt.occurrences, Stmt.functions, List.filterMap_append, List.map_append, hcondition,
      pre.filterMap_definition?, post.filterMap_definition?, body.filterMap_definition?,
      List.append_nil]
  | .function ⟨f, body⟩ => by
    have hbody : (body.occurrences.map (Occurrence.inside · [f.name])).filterMap
        Occurrence.definition? = body.functions.map Function.toSignature := by
      rw [List.filterMap_map]
      exact body.filterMap_definition?
    exact congrArg (f :: ·) hbody
  | .block b => b.filterMap_definition?
  | .stack (.label ..) => rfl
  | .stack (.assignment ..) => rfl
  | .stack (.instruction ..) => rfl

theorem Stmt.all_filterMap_definition? : (ss : List Stmt) →
    (Stmt.allOccurrences ss).filterMap Occurrence.definition? =
      (Stmt.allFunctions ss).map Function.toSignature
  | [] => rfl
  | s :: ss => by
    rw [Stmt.allOccurrences, Stmt.allFunctions, List.filterMap_append, List.map_append,
      s.filterMap_definition?, Stmt.all_filterMap_definition? ss]

theorem Block.filterMap_definition? : (b : Block) →
    b.occurrences.filterMap Occurrence.definition? = b.functions.map Function.toSignature
  | ⟨_, ss⟩ => Stmt.all_filterMap_definition? ss

theorem Case.all_filterMap_definition? : (cs : List Case) →
    (Case.allOccurrences cs).filterMap Occurrence.definition? =
      (Case.allFunctions cs).map Function.toSignature
  | [] => rfl
  | ⟨_, _, body⟩ :: cs => by
    rw [Case.allOccurrences, Case.allFunctions, List.filterMap_append, List.map_append,
      body.filterMap_definition?, Case.all_filterMap_definition? cs]

end

mutual

theorem Expr.enclosing_eq_nil {o : Occurrence} :
    (e : Expr) → o ∈ e.occurrences → o.enclosing = []
  | .call _ _ arguments, ho => by
    rcases List.mem_cons.1 ho with rfl | ho
    . rfl
    . exact Expr.all_enclosing_eq_nil arguments ho
  | .instruction _ _ arguments, ho => by
    rcases List.mem_cons.1 ho with rfl | ho
    . rfl
    . exact Expr.all_enclosing_eq_nil arguments ho

theorem Expr.all_enclosing_eq_nil {o : Occurrence} :
    (es : List Expr) → o ∈ Expr.allOccurrences es → o.enclosing = []
  | e :: es, ho => by
    rcases List.mem_append.1 ho with ho | ho
    . exact e.enclosing_eq_nil ho
    . exact Expr.all_enclosing_eq_nil es ho

end

theorem Expr.enclosing_ne {e : Expr} {o : Occurrence} (ho : o ∈ e.occurrences)
    (inner : List String) (x : String) (outer : List String) :
    o.enclosing ≠ inner ++ x :: outer := by
  rw [e.enclosing_eq_nil ho]
  exact fun h => List.cons_ne_nil _ _ (List.append_eq_nil_iff.1 h.symm).2

mutual

theorem Stmt.exists_of_enclosing {o : Occurrence} {inner : List String} {x : String}
    {outer : List String} (hx : o.enclosing = inner ++ x :: outer) : (s : Stmt) →
    o ∈ s.occurrences → ∃ f, ⟨.definition f, outer, false⟩ ∈ s.occurrences ∧ f.name = x
  | .expression _, ho => (Expr.enclosing_ne ho _ _ _ hx).elim
  | .declaration _ _ (some _), ho => (Expr.enclosing_ne ho _ _ _ hx).elim
  | .assignment _ _ _, ho => (Expr.enclosing_ne ho _ _ _ hx).elim
  | .conditional _ _ body, ho => by
    rcases List.mem_append.1 ho with ho | ho
    . exact (Expr.enclosing_ne ho _ _ _ hx).elim
    . obtain ⟨f, hf, hname⟩ := body.exists_of_enclosing hx ho
      exact ⟨f, List.mem_append_right _ hf, hname⟩
  | .switch _ _ arms, ho => by
    rcases List.mem_append.1 ho with ho | ho
    . exact (Expr.enclosing_ne ho _ _ _ hx).elim
    . obtain ⟨f, hf, hname⟩ := Case.exists_of_enclosing hx arms ho
      exact ⟨f, List.mem_append_right _ hf, hname⟩
  | .loop _ pre _ post body, ho => by
    simp only [Stmt.occurrences, List.mem_append] at ho ⊢
    rcases ho with ((ho | ho) | ho) | ho
    . obtain ⟨f, hf, hname⟩ := pre.exists_of_enclosing hx ho
      exact ⟨f, .inl (.inl (.inl hf)), hname⟩
    . obtain ⟨o', ho', rfl⟩ := List.mem_map.1 ho
      exact (Expr.enclosing_ne ho' _ _ _ hx).elim
    . obtain ⟨f, hf, hname⟩ := post.exists_of_enclosing hx ho
      exact ⟨f, .inl (.inr hf), hname⟩
    . obtain ⟨f, hf, hname⟩ := body.exists_of_enclosing hx ho
      exact ⟨f, .inr hf, hname⟩
  | .function ⟨g, body⟩, ho => by
    rcases List.mem_cons.1 ho with rfl | ho
    . exact (List.cons_ne_nil _ _ (List.append_eq_nil_iff.1 hx.symm).2).elim
    . obtain ⟨o', ho', rfl⟩ := List.mem_map.1 ho
      have hx : o'.enclosing ++ [g.name] = inner ++ x :: outer := hx
      -- This function is the outermost one, and it is `x` if nothing is further out.
      rcases outer.eq_nil_or_concat with rfl | ⟨outer, y, rfl⟩
      . obtain ⟨_, hname⟩ := List.append_inj' hx rfl
        injection hname with hname
        exact ⟨g, List.mem_cons_self, hname⟩
      . rw [List.concat_eq_append, ← List.cons_append, ← List.append_assoc] at hx
        obtain ⟨hinner, hname⟩ := List.append_inj' hx rfl
        obtain ⟨f, hf, hfname⟩ := body.exists_of_enclosing hinner ho'
        refine ⟨f, List.mem_cons_of_mem _ (List.mem_map.2 ⟨_, hf, ?_⟩), hfname⟩
        rw [List.concat_eq_append, ← hname]
        rfl
  | .block b, ho => b.exists_of_enclosing hx ho
  | .stack (.instruction ..), ho => by
    rw [List.mem_singleton.1 ho] at hx
    exact (List.cons_ne_nil _ _ (List.append_eq_nil_iff.1 hx.symm).2).elim

theorem Stmt.all_exists_of_enclosing {o : Occurrence} {inner : List String} {x : String}
    {outer : List String} (hx : o.enclosing = inner ++ x :: outer) : (ss : List Stmt) →
    o ∈ Stmt.allOccurrences ss →
    ∃ f, ⟨.definition f, outer, false⟩ ∈ Stmt.allOccurrences ss ∧ f.name = x
  | s :: ss, ho => by
    rcases List.mem_append.1 ho with ho | ho
    . obtain ⟨f, hf, hname⟩ := s.exists_of_enclosing hx ho
      exact ⟨f, List.mem_append_left _ hf, hname⟩
    . obtain ⟨f, hf, hname⟩ := Stmt.all_exists_of_enclosing hx ss ho
      exact ⟨f, List.mem_append_right _ hf, hname⟩

theorem Block.exists_of_enclosing {o : Occurrence} {inner : List String} {x : String}
    {outer : List String} (hx : o.enclosing = inner ++ x :: outer) : (b : Block) →
    o ∈ b.occurrences → ∃ f, ⟨.definition f, outer, false⟩ ∈ b.occurrences ∧ f.name = x
  | ⟨_, ss⟩, ho => Stmt.all_exists_of_enclosing hx ss ho

theorem Case.exists_of_enclosing {o : Occurrence} {inner : List String} {x : String}
    {outer : List String} (hx : o.enclosing = inner ++ x :: outer) : (cs : List Case) →
    o ∈ Case.allOccurrences cs →
    ∃ f, ⟨.definition f, outer, false⟩ ∈ Case.allOccurrences cs ∧ f.name = x
  | ⟨_, _, body⟩ :: cs, ho => by
    rcases List.mem_append.1 ho with ho | ho
    . obtain ⟨f, hf, hname⟩ := body.exists_of_enclosing hx ho
      exact ⟨f, List.mem_append_left _ hf, hname⟩
    . obtain ⟨f, hf, hname⟩ := Case.exists_of_enclosing hx cs ho
      exact ⟨f, List.mem_append_right _ hf, hname⟩

end

mutual

theorem Stmt.occurrences_of_mem {f : Function} {o : Occurrence} (ho : o ∈ f.body.occurrences) :
    (s : Stmt) → f ∈ s.functions → ∃ outer, o.inside (f.name :: outer) ∈ s.occurrences
  | .conditional _ _ body, hf => by
    obtain ⟨outer, hmem⟩ := body.occurrences_of_mem ho hf
    exact ⟨outer, List.mem_append_right _ hmem⟩
  | .switch _ _ arms, hf => by
    obtain ⟨outer, hmem⟩ := Case.occurrences_of_mem ho arms hf
    exact ⟨outer, List.mem_append_right _ hmem⟩
  | .loop _ pre _ post body, hf => by
    simp only [Stmt.functions, List.mem_append] at hf
    simp only [Stmt.occurrences, List.mem_append]
    rcases hf with (hf | hf) | hf
    . obtain ⟨outer, hmem⟩ := pre.occurrences_of_mem ho hf
      exact ⟨outer, .inl (.inl (.inl hmem))⟩
    . obtain ⟨outer, hmem⟩ := post.occurrences_of_mem ho hf
      exact ⟨outer, .inl (.inr hmem)⟩
    . obtain ⟨outer, hmem⟩ := body.occurrences_of_mem ho hf
      exact ⟨outer, .inr hmem⟩
  | .function ⟨g, body⟩, hf => by
    rcases List.mem_cons.1 hf with rfl | hf
    . exact ⟨[], List.mem_cons_of_mem _ (List.mem_map.2 ⟨o, ho, rfl⟩)⟩
    . obtain ⟨outer, hmem⟩ := body.occurrences_of_mem ho hf
      refine ⟨outer ++ [g.name], List.mem_cons_of_mem _ (List.mem_map.2 ⟨_, hmem, ?_⟩)⟩
      exact o.inside_inside _ _
  | .block b, hf => b.occurrences_of_mem ho hf

theorem Stmt.all_occurrences_of_mem {f : Function} {o : Occurrence}
    (ho : o ∈ f.body.occurrences) : (ss : List Stmt) → f ∈ Stmt.allFunctions ss →
    ∃ outer, o.inside (f.name :: outer) ∈ Stmt.allOccurrences ss
  | s :: ss, hf => by
    rcases List.mem_append.1 hf with hf | hf
    . obtain ⟨outer, hmem⟩ := s.occurrences_of_mem ho hf
      exact ⟨outer, List.mem_append_left _ hmem⟩
    . obtain ⟨outer, hmem⟩ := Stmt.all_occurrences_of_mem ho ss hf
      exact ⟨outer, List.mem_append_right _ hmem⟩

theorem Block.occurrences_of_mem {f : Function} {o : Occurrence} (ho : o ∈ f.body.occurrences) :
    (b : Block) → f ∈ b.functions → ∃ outer, o.inside (f.name :: outer) ∈ b.occurrences
  | ⟨_, ss⟩, hf => Stmt.all_occurrences_of_mem ho ss hf

theorem Case.occurrences_of_mem {f : Function} {o : Occurrence} (ho : o ∈ f.body.occurrences) :
    (cs : List Case) → f ∈ Case.allFunctions cs →
    ∃ outer, o.inside (f.name :: outer) ∈ Case.allOccurrences cs
  | ⟨_, _, body⟩ :: cs, hf => by
    rcases List.mem_append.1 hf with hf | hf
    . obtain ⟨outer, hmem⟩ := body.occurrences_of_mem ho hf
      exact ⟨outer, List.mem_append_left _ hmem⟩
    . obtain ⟨outer, hmem⟩ := Case.occurrences_of_mem ho cs hf
      exact ⟨outer, List.mem_append_right _ hmem⟩

end

namespace Block

variable {b : Block}

theorem exists_definition {f : Function} (hf : f ∈ b.functions) :
    ∃ o ∈ b.occurrences, o.item = .definition f.toSignature := by
  have hmem : f.toSignature ∈ b.occurrences.filterMap Occurrence.definition? := by
    rw [b.filterMap_definition?]
    exact List.mem_map.2 ⟨f, hf, rfl⟩
  obtain ⟨o, ho, hdefinition⟩ := List.mem_filterMap.1 hmem
  refine ⟨o, ho, ?_⟩
  unfold Occurrence.definition? at hdefinition
  split at hdefinition
  . next g hitem =>
    injection hdefinition with hdefinition
    rw [hitem, hdefinition]
  . contradiction

end Block

/-! ## Names -/

def Item.anonymous : Item → Item
  | .call _ => .call ""
  | .instruction name => .instruction name
  | .definition f => .definition f.anonymous

def Occurrence.anonymous (o : Occurrence) : Occurrence :=
  ⟨o.item.anonymous, o.enclosing.map fun _ => "", o.inCondition⟩

mutual

theorem Expr.occurrences_anonymous :
    (e : Expr) → e.anonymous.occurrences = e.occurrences.map Occurrence.anonymous
  | .literal _ => rfl
  | .identifier _ => rfl
  | .call _ _ arguments => congrArg (_ :: ·) (Expr.allOccurrences_anonymous arguments)
  | .instruction _ _ arguments => congrArg (_ :: ·) (Expr.allOccurrences_anonymous arguments)

theorem Expr.allOccurrences_anonymous : (es : List Expr) →
    Expr.allOccurrences (Expr.allAnonymous es) =
      (Expr.allOccurrences es).map Occurrence.anonymous
  | [] => rfl
  | e :: es => by
    rw [Expr.allAnonymous, Expr.allOccurrences, Expr.allOccurrences, List.map_append,
      e.occurrences_anonymous, Expr.allOccurrences_anonymous es]

end

mutual

theorem Stmt.occurrences_anonymous :
    (s : Stmt) → s.anonymous.occurrences = s.occurrences.map Occurrence.anonymous
  | .expression e => e.occurrences_anonymous
  | .declaration _ _ none => rfl
  | .declaration _ _ (some value) => value.occurrences_anonymous
  | .assignment _ _ value => value.occurrences_anonymous
  | .conditional _ condition body => by
    rw [Stmt.anonymous, Stmt.occurrences, Stmt.occurrences, List.map_append,
      condition.occurrences_anonymous, body.occurrences_anonymous]
  | .switch _ subject arms => by
    rw [Stmt.anonymous, Stmt.occurrences, Stmt.occurrences, List.map_append,
      subject.occurrences_anonymous, Case.allOccurrences_anonymous arms]
  | .loop _ pre condition post body => by
    have hcondition : (condition.occurrences.map Occurrence.anonymous).map Occurrence.ofCondition =
        (condition.occurrences.map Occurrence.ofCondition).map Occurrence.anonymous := by
      rw [List.map_map, List.map_map]
      rfl
    simp only [Stmt.anonymous, Stmt.occurrences, List.map_append, pre.occurrences_anonymous,
      condition.occurrences_anonymous, hcondition, post.occurrences_anonymous,
      body.occurrences_anonymous]
  | .function ⟨f, body⟩ => by
    have hbody : (body.occurrences.map Occurrence.anonymous).map (Occurrence.inside · [""]) =
        (body.occurrences.map (Occurrence.inside · [f.name])).map Occurrence.anonymous := by
      rw [List.map_map, List.map_map]
      apply List.map_congr_left
      intro o _
      simp only [Function.comp_apply, Occurrence.anonymous, Occurrence.inside, List.map_append,
        List.map_cons, List.map_nil]
    change _ :: body.anonymous.occurrences.map (Occurrence.inside · [""]) = _ :: _
    rw [body.occurrences_anonymous, hbody]
    rfl
  | .block b => b.occurrences_anonymous
  | .stack (.label ..) => rfl
  | .stack (.assignment ..) => rfl
  | .stack (.instruction ..) => rfl

theorem Stmt.allOccurrences_anonymous : (ss : List Stmt) →
    Stmt.allOccurrences (Stmt.allAnonymous ss) =
      (Stmt.allOccurrences ss).map Occurrence.anonymous
  | [] => rfl
  | s :: ss => by
    rw [Stmt.allAnonymous, Stmt.allOccurrences, Stmt.allOccurrences, List.map_append,
      s.occurrences_anonymous, Stmt.allOccurrences_anonymous ss]

theorem Block.occurrences_anonymous :
    (b : Block) → b.anonymous.occurrences = b.occurrences.map Occurrence.anonymous
  | ⟨_, ss⟩ => Stmt.allOccurrences_anonymous ss

theorem Case.allOccurrences_anonymous : (cs : List Case) →
    Case.allOccurrences (Case.allAnonymous cs) =
      (Case.allOccurrences cs).map Occurrence.anonymous
  | [] => rfl
  | ⟨_, _, body⟩ :: cs => by
    rw [Case.allAnonymous, Case.allOccurrences, Case.allOccurrences, List.map_append,
      body.occurrences_anonymous, Case.allOccurrences_anonymous cs]

end

end Splice
