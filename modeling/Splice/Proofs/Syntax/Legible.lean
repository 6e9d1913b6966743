import Mathlib.Logic.Basic
import Splice.Proofs.Syntax.Lexeme
import Splice.Syntax.Parser

/-!
This module contains the trees that a source text of a dialect can be read as, and how deep they are
nested. What a pass puts together has to be such a tree for its text to be one that can be read.
-/

namespace Splice

structure Usable (x : String) : Prop where
  isIdentifier : Lexer.isIdentifier x.toList = true
  not_keyword : x ∉ keywords

structure Bindable (x : String) : Prop extends Usable x where
  not_instruction : Instruction.isName x = false

theorem Instruction.usable_of_mem :
    ∀ i ∈ all, Lexer.isIdentifier i.name.toList = true ∧ i.name ∉ keywords := by
  decide +kernel

theorem Instruction.usable {name : String} (h : isName name = true) : Usable name := by
  obtain ⟨i, hi⟩ := Option.isSome_iff_exists.1 h
  have hname : i.name = name := by simpa using List.find?_some hi
  obtain ⟨hidentifier, hkeyword⟩ := usable_of_mem i (List.mem_of_find?_eq_some hi)
  rw [hname] at hidentifier hkeyword
  exact ⟨hidentifier, hkeyword⟩

/-! ## Legible trees -/

variable (d : Dialect)

def Dialect.TypeLegible (type : Option String) : Prop :=
  ∀ t ∈ type, d.types = true ∧ Bindable t

def Binder.Legible (x : Binder) : Prop :=
  Bindable x.name ∧ d.TypeLegible x.type

def Literal.Legible (l : Literal) : Prop :=
  Word.Lexed (l.kind.tokenKind, l.text) ∧ (l.kind = .boolean → l.text = "true" ∨ l.text = "false") ∧
  d.TypeLegible l.type

mutual

def Expr.Legible : Expr → Prop
  | .literal l => l.Legible d
  | .identifier i => Usable i.name
  | .call _ callee arguments => Bindable callee.name ∧ Expr.AllLegible arguments
  | .instruction _ name arguments => Instruction.isName name = true ∧ Expr.AllLegible arguments

def Expr.AllLegible : List Expr → Prop
  | [] => True
  | e :: es => e.Legible ∧ Expr.AllLegible es

end

/--
A statement can start with the expression. A name of an instruction alone would be a bare
instruction where there are any.
-/
def Expr.Leads : Expr → Prop
  | .identifier i => d.stackForms = true → Instruction.isName i.name = false
  | _ => True

/--
The names can stand in front of `:=`. The first of them is read as an expression.
-/
def Identifier.AllTargets : List Identifier → Prop
  | [] => False
  | first :: others =>
    Usable first.name ∧ (Expr.identifier first).Leads d ∧ ∀ i ∈ others, Bindable i.name

def Case.Ordered (heads : List (Option Literal)) : Prop :=
  heads ≠ [] ∧ none ∉ heads.dropLast

def StackForm.Legible : StackForm → Prop
  | .label _ name => Bindable name
  | .assignment _ target => Bindable target.name
  | .instruction _ name => Instruction.isName name = true

structure Signature.Legible (f : Signature) : Prop where
  name : Bindable f.name
  parameters : ∀ x ∈ f.parameters, x.Legible d
  returns : ∀ x ∈ f.returns, x.Legible d

mutual

def Stmt.Legible : Stmt → Prop
  | .expression e => e.Legible d ∧ e.Leads d
  | .declaration _ vars value =>
    vars ≠ [] ∧ (∀ x ∈ vars, x.Legible d) ∧ ∀ e ∈ value, e.Legible d
  | .assignment _ targets value => Identifier.AllTargets d targets ∧ value.Legible d
  | .conditional _ condition body => condition.Legible d ∧ body.Legible
  | .switch _ subject arms =>
    subject.Legible d ∧ Case.AllLegible arms ∧ Case.Ordered (arms.map Case.value)
  | .loop _ pre condition post body =>
    pre.Legible ∧ condition.Legible d ∧ post.Legible ∧ body.Legible
  | .function ⟨f, body⟩ => f.Legible d ∧ body.Legible
  | .block b => b.Legible
  | .stack form => d.stackForms = true ∧ form.Legible

def Stmt.AllLegible : List Stmt → Prop
  | [] => True
  | s :: ss => s.Legible ∧ Stmt.AllLegible ss

/--
The tree is one that a source text can be read as, except that it may be nested too deep.
-/
def Block.Legible : Block → Prop
  | ⟨_, ss⟩ => Stmt.AllLegible ss

def Case.AllLegible : List Case → Prop
  | [] => True
  | ⟨_, value, body⟩ :: cs =>
    (∀ l ∈ value, l.Legible d) ∧ body.Legible ∧ Case.AllLegible cs

end

theorem Expr.allLegible_iff (es : List Expr) : Expr.AllLegible d es ↔ ∀ e ∈ es, e.Legible d := by
  induction es with
  | nil => simp [AllLegible]
  | cons e es ih => rw [AllLegible, ih, List.forall_mem_cons]

theorem Stmt.allLegible_iff (ss : List Stmt) : Stmt.AllLegible d ss ↔ ∀ s ∈ ss, s.Legible d := by
  induction ss with
  | nil => simp [AllLegible]
  | cons s ss ih => rw [AllLegible, ih, List.forall_mem_cons]

theorem Stmt.allLegible_append (ss us : List Stmt) :
    Stmt.AllLegible d (ss ++ us) ↔ Stmt.AllLegible d ss ∧ Stmt.AllLegible d us := by
  rw [allLegible_iff, allLegible_iff, allLegible_iff, List.forall_mem_append]

theorem Case.allLegible_iff (cs : List Case) :
    Case.AllLegible d cs ↔ ∀ c ∈ cs, (∀ l ∈ c.value, l.Legible d) ∧ c.body.Legible d := by
  induction cs with
  | nil => simp [AllLegible]
  | cons c cs ih =>
    obtain ⟨_, value, body⟩ := c
    rw [AllLegible, ih, List.forall_mem_cons, and_assoc]

theorem Case.allLegible_append (as bs : List Case) :
    Case.AllLegible d (as ++ bs) ↔ Case.AllLegible d as ∧ Case.AllLegible d bs := by
  rw [allLegible_iff, allLegible_iff, allLegible_iff, List.forall_mem_append]

variable {d}

theorem Bindable.leads {i : Identifier} (h : Bindable i.name) : (Expr.identifier i).Leads d :=
  fun _ => h.not_instruction

theorem Identifier.allTargets_of_bindable {targets : List Identifier} (hne : targets ≠ [])
    (h : ∀ i ∈ targets, Bindable i.name) : Identifier.AllTargets d targets := by
  cases targets with
  | nil => contradiction
  | cons first others =>
    rw [List.forall_mem_cons] at h
    exact ⟨h.1.toUsable, h.1.leads, h.2⟩

/-! ## The words of legible trees -/

namespace Word

theorem lexed_keyword {x : String} (h : x ∈ keywords) : (ofName x).Lexed := by
  have hall : ∀ x ∈ keywords, Lexer.isIdentifier x.toList = true := by decide
  exact hall x h

theorem lexed_separated {items : List (List Word)} (h : ∀ ws ∈ items, ∀ w ∈ ws, w.Lexed) :
    ∀ w ∈ separated items, w.Lexed := by
  cases items with
  | nil => simp [separated]
  | cons item items =>
    intro w hw
    simp only [separated, List.mem_append, List.mem_flatMap, List.mem_cons] at hw
    rcases hw with hw | ⟨ws, hws, rfl | hw⟩
    . exact h item List.mem_cons_self w hw
    . rfl
    . exact h ws (List.mem_cons_of_mem _ hws) w hw

theorem lexed_parenthesised {ws : List Word} (h : ∀ w ∈ ws, w.Lexed) :
    ∀ w ∈ parenthesised ws, w.Lexed := by
  intro w hw
  simp only [parenthesised, List.mem_cons, List.mem_append, List.cons_append, List.not_mem_nil,
    or_false] at hw
  rcases hw with rfl | hw | rfl
  . rfl
  . exact h w hw
  . rfl

theorem lexed_typeSuffix {type : Option String} (h : d.TypeLegible type) :
    ∀ w ∈ typeSuffix type, w.Lexed := by
  cases type with
  | none => simp [typeSuffix]
  | some t =>
    exact List.forall_mem_cons.2 ⟨rfl, List.forall_mem_singleton.2 (h t rfl).2.isIdentifier⟩

end Word

open Word

theorem Binder.Legible.lexed {x : Binder} (h : x.Legible d) : ∀ w ∈ x.words, w.Lexed :=
  List.forall_mem_cons.2 ⟨h.1.isIdentifier, lexed_typeSuffix h.2⟩

theorem Binder.lexed_separated {xs : List Binder} (h : ∀ x ∈ xs, x.Legible d) :
    ∀ w ∈ separated (xs.map Binder.words), w.Lexed := by
  apply Word.lexed_separated
  rw [List.forall_mem_map]
  exact fun x hx => (h x hx).lexed

theorem Literal.Legible.lexed {l : Literal} (h : l.Legible d) : ∀ w ∈ l.words, w.Lexed :=
  List.forall_mem_cons.2 ⟨h.1, lexed_typeSuffix h.2.2⟩

mutual

theorem Expr.Legible.lexed : {e : Expr} → e.Legible d → ∀ w ∈ e.words, w.Lexed
  | .literal _, h => Literal.Legible.lexed h
  | .identifier _, h => List.forall_mem_singleton.2 h.isIdentifier
  | .call .., h =>
    List.forall_mem_cons.2
      ⟨h.1.isIdentifier, lexed_parenthesised (Word.lexed_separated (Expr.AllLegible.lexed h.2))⟩
  | .instruction .., h =>
    List.forall_mem_cons.2
      ⟨(Instruction.usable h.1).isIdentifier,
        lexed_parenthesised (Word.lexed_separated (Expr.AllLegible.lexed h.2))⟩

theorem Expr.AllLegible.lexed :
    {es : List Expr} → Expr.AllLegible d es → ∀ ws ∈ Expr.allWords es, ∀ w ∈ ws, w.Lexed
  | [], _ => List.forall_mem_nil _
  | _ :: _, h => List.forall_mem_cons.2 ⟨Expr.Legible.lexed h.1, Expr.AllLegible.lexed h.2⟩

end

theorem Signature.Legible.lexed {f : Signature} (h : f.Legible d) : ∀ w ∈ f.words, w.Lexed := by
  unfold Signature.words
  simp only [List.cons_append, List.forall_mem_cons, List.forall_mem_append]
  refine ⟨lexed_keyword (by decide), h.name.isIdentifier,
    lexed_parenthesised (Binder.lexed_separated h.parameters), ?_⟩
  split
  . exact List.forall_mem_nil _
  . exact List.forall_mem_cons.2 ⟨rfl, Binder.lexed_separated h.returns⟩

theorem StackForm.Legible.lexed {form : StackForm} (h : form.Legible) :
    ∀ w ∈ form.words, w.Lexed := by
  cases form with
  | label _ name => exact List.forall_mem_cons.2 ⟨h.isIdentifier, List.forall_mem_singleton.2 rfl⟩
  | assignment _ target =>
    exact List.forall_mem_cons.2 ⟨rfl, List.forall_mem_singleton.2 h.isIdentifier⟩
  | instruction _ name => exact List.forall_mem_singleton.2 (Instruction.usable h).isIdentifier

theorem Identifier.AllTargets.lexed {targets : List Identifier} (h : Identifier.AllTargets d targets) :
    ∀ w ∈ separated (targets.map fun i => [ofName i.name]), w.Lexed := by
  apply Word.lexed_separated
  rw [List.forall_mem_map]
  cases targets with
  | nil => contradiction
  | cons first others =>
    rw [List.forall_mem_cons]
    exact ⟨List.forall_mem_singleton.2 h.1.isIdentifier,
      fun i hi => List.forall_mem_singleton.2 (h.2.2 i hi).isIdentifier⟩

mutual

theorem Stmt.Legible.lexed : {s : Stmt} → s.Legible d → ∀ w ∈ s.words, w.Lexed
  | .expression _, h => Expr.Legible.lexed h.1
  | .declaration _ _ none, h =>
    List.forall_mem_cons.2 ⟨lexed_keyword (by decide), Binder.lexed_separated h.2.1⟩
  | .declaration _ _ (some _), h =>
    List.forall_mem_append.2 ⟨List.forall_mem_cons.2
      ⟨lexed_keyword (by decide), Binder.lexed_separated h.2.1⟩,
      List.forall_mem_cons.2 ⟨rfl, Expr.Legible.lexed (h.2.2 _ rfl)⟩⟩
  | .assignment .., h =>
    List.forall_mem_append.2 ⟨Identifier.AllTargets.lexed h.1,
      List.forall_mem_cons.2 ⟨rfl, Expr.Legible.lexed h.2⟩⟩
  | .conditional .., h =>
    List.forall_mem_append.2 ⟨List.forall_mem_cons.2
      ⟨lexed_keyword (by decide), Expr.Legible.lexed h.1⟩, Block.Legible.lexed h.2⟩
  | .switch .., h =>
    List.forall_mem_append.2 ⟨List.forall_mem_cons.2
      ⟨lexed_keyword (by decide), Expr.Legible.lexed h.1⟩, Case.AllLegible.lexed h.2.1⟩
  | .loop .., h =>
    List.forall_mem_append.2 ⟨List.forall_mem_append.2 ⟨List.forall_mem_append.2
      ⟨List.forall_mem_cons.2 ⟨lexed_keyword (by decide), Block.Legible.lexed h.1⟩,
      Expr.Legible.lexed h.2.1⟩, Block.Legible.lexed h.2.2.1⟩, Block.Legible.lexed h.2.2.2⟩
  | .function ⟨_, _⟩, h =>
    List.forall_mem_append.2 ⟨Signature.Legible.lexed h.1, Block.Legible.lexed h.2⟩
  | .block _, h => Block.Legible.lexed h
  | .stack _, h => StackForm.Legible.lexed h.2

theorem Stmt.AllLegible.lexed :
    {ss : List Stmt} → Stmt.AllLegible d ss → ∀ w ∈ Stmt.allWords ss, w.Lexed
  | [], _ => List.forall_mem_nil _
  | _ :: _, h => List.forall_mem_append.2 ⟨Stmt.Legible.lexed h.1, Stmt.AllLegible.lexed h.2⟩

theorem Block.Legible.lexed : {b : Block} → b.Legible d → ∀ w ∈ b.words, w.Lexed
  | ⟨_, _⟩, h =>
    List.forall_mem_append.2 ⟨List.forall_mem_cons.2 ⟨rfl, Stmt.AllLegible.lexed h⟩,
      List.forall_mem_singleton.2 rfl⟩

theorem Case.AllLegible.lexed :
    {cs : List Case} → Case.AllLegible d cs → ∀ w ∈ Case.allWords cs, w.Lexed
  | [], _ => List.forall_mem_nil _
  | ⟨_, none, _⟩ :: _, h =>
    List.forall_mem_append.2 ⟨List.forall_mem_cons.2
      ⟨lexed_keyword (by decide), Block.Legible.lexed h.2.1⟩, Case.AllLegible.lexed h.2.2⟩
  | ⟨_, some _, _⟩ :: _, h =>
    List.forall_mem_append.2 ⟨List.forall_mem_append.2 ⟨List.forall_mem_cons.2
      ⟨lexed_keyword (by decide), Literal.Legible.lexed (h.1 _ rfl)⟩, Block.Legible.lexed h.2.1⟩,
      Case.AllLegible.lexed h.2.2⟩

end

/-! ## Nesting -/

mutual

def Expr.nesting : Expr → Nat
  | .literal _ => 1
  | .identifier _ => 1
  | .call _ _ arguments => Expr.maxNesting arguments + 1
  | .instruction _ _ arguments => Expr.maxNesting arguments + 1

def Expr.maxNesting : List Expr → Nat
  | [] => 0
  | e :: es => max e.nesting (Expr.maxNesting es)

end

mutual

def Stmt.nesting : Stmt → Nat
  | .expression e => e.nesting
  | .declaration _ _ none => 0
  | .declaration _ _ (some value) => value.nesting
  | .assignment _ _ value => value.nesting
  | .conditional _ condition body => max condition.nesting body.nesting
  | .switch _ subject arms => max subject.nesting (Case.maxNesting arms)
  | .loop _ pre condition post body =>
    max (max pre.nesting condition.nesting) (max post.nesting body.nesting)
  | .function ⟨_, body⟩ => body.nesting
  | .block b => b.nesting
  | .stack _ => 0

def Stmt.maxNesting : List Stmt → Nat
  | [] => 0
  | s :: ss => max s.nesting (Stmt.maxNesting ss)

def Block.nesting : Block → Nat
  | ⟨_, ss⟩ => Stmt.maxNesting ss + 1

def Case.maxNesting : List Case → Nat
  | [] => 0
  | ⟨_, _, body⟩ :: cs => max body.nesting (Case.maxNesting cs)

end

theorem Expr.maxNesting_le (es : List Expr) (n : Nat) :
    Expr.maxNesting es ≤ n ↔ ∀ e ∈ es, e.nesting ≤ n := by
  induction es with
  | nil => simp [maxNesting]
  | cons e es ih => rw [maxNesting, Nat.max_le, ih, List.forall_mem_cons]

theorem Stmt.maxNesting_le (ss : List Stmt) (n : Nat) :
    Stmt.maxNesting ss ≤ n ↔ ∀ s ∈ ss, s.nesting ≤ n := by
  induction ss with
  | nil => simp [maxNesting]
  | cons s ss ih => rw [maxNesting, Nat.max_le, ih, List.forall_mem_cons]

theorem Case.maxNesting_le (cs : List Case) (n : Nat) :
    Case.maxNesting cs ≤ n ↔ ∀ c ∈ cs, c.body.nesting ≤ n := by
  induction cs with
  | nil => simp [maxNesting]
  | cons c cs ih =>
    obtain ⟨_, _, body⟩ := c
    rw [maxNesting, Nat.max_le, ih, List.forall_mem_cons]

theorem Expr.nesting_pos (e : Expr) : 0 < e.nesting := by
  cases e <;> simp [nesting]

theorem Block.nesting_pos (b : Block) : 0 < b.nesting := by
  obtain ⟨_, ss⟩ := b
  simp [nesting]

mutual

theorem Expr.nesting_bare : (e : Expr) → e.bare.nesting = e.nesting
  | .literal _ => rfl
  | .identifier _ => rfl
  | .call _ _ arguments => congrArg (· + 1) (Expr.maxNesting_allBare arguments)
  | .instruction _ _ arguments => congrArg (· + 1) (Expr.maxNesting_allBare arguments)

theorem Expr.maxNesting_allBare :
    (es : List Expr) → Expr.maxNesting (Expr.allBare es) = Expr.maxNesting es
  | [] => rfl
  | e :: es => congrArg₂ max (Expr.nesting_bare e) (Expr.maxNesting_allBare es)

end

mutual

theorem Stmt.nesting_bare : (s : Stmt) → s.bare.nesting = s.nesting
  | .expression e => e.nesting_bare
  | .declaration _ _ none => rfl
  | .declaration _ _ (some value) => value.nesting_bare
  | .assignment _ _ value => value.nesting_bare
  | .conditional _ condition body => congrArg₂ max condition.nesting_bare (Block.nesting_bare body)
  | .switch _ subject arms => congrArg₂ max subject.nesting_bare (Case.maxNesting_allBare arms)
  | .loop _ pre condition post body =>
    congrArg₂ max (congrArg₂ max (Block.nesting_bare pre) condition.nesting_bare)
      (congrArg₂ max (Block.nesting_bare post) (Block.nesting_bare body))
  | .function ⟨_, body⟩ => Block.nesting_bare body
  | .block b => Block.nesting_bare b
  | .stack _ => rfl

theorem Stmt.maxNesting_allBare :
    (ss : List Stmt) → Stmt.maxNesting (Stmt.allBare ss) = Stmt.maxNesting ss
  | [] => rfl
  | s :: ss => congrArg₂ max (Stmt.nesting_bare s) (Stmt.maxNesting_allBare ss)

theorem Block.nesting_bare : (b : Block) → b.bare.nesting = b.nesting
  | ⟨_, ss⟩ => congrArg (· + 1) (Stmt.maxNesting_allBare ss)

theorem Case.maxNesting_allBare :
    (cs : List Case) → Case.maxNesting (Case.allBare cs) = Case.maxNesting cs
  | [] => rfl
  | ⟨_, _, body⟩ :: cs => congrArg₂ max (Block.nesting_bare body) (Case.maxNesting_allBare cs)

end

end Splice
