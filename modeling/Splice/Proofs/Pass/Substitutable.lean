import Splice.Pass.Substitutable
import Splice.Proofs.Pass.Success
import Splice.Proofs.Text.Order
import Splice.Proofs.Tree.Functions
import Splice.Syntax.Parser

/-!
This module contains the proof that the search for the functions whose calls can be replaced by an
expression finds exactly these, unless there is a stack form.
-/

namespace Splice

mutual

def Expr.usedNames : Expr → List String
  | .literal _ => []
  | .identifier i => [i.name]
  | .call _ callee arguments => callee.name :: Expr.allUsedNames arguments
  | .instruction _ _ arguments => Expr.allUsedNames arguments

def Expr.allUsedNames : List Expr → List String
  | [] => []
  | e :: es => e.usedNames ++ Expr.allUsedNames es

end

/--
The function returns one variable, and all that it does is to assign to it a value that uses neither
that variable nor the function.
-/
def Function.Substitutable (f : Function) : Prop :=
  ∃ x span target value, f.returns = [x] ∧ f.body.statements = [.assignment span [target] value] ∧
    target.name = x.name ∧ x.name ∉ value.usedNames ∧ f.name ∉ value.usedNames

mutual

theorem Expr.mentions_iff (names : List String) :
    (e : Expr) → (e.mentions names = true ↔ ∃ x ∈ names, x ∈ e.usedNames)
  | .literal _ => by simp [Expr.mentions, Expr.usedNames]
  | .identifier i => by simp [Expr.mentions, Expr.usedNames]
  | .call _ callee arguments => by
    simp only [Expr.mentions, Expr.usedNames, Bool.or_eq_true, List.contains_iff_mem,
      Expr.anyMentions_iff names arguments, List.mem_cons]
    grind
  | .instruction _ _ arguments => Expr.anyMentions_iff names arguments

theorem Expr.anyMentions_iff (names : List String) :
    (es : List Expr) → (Expr.anyMentions names es = true ↔ ∃ x ∈ names, x ∈ Expr.allUsedNames es)
  | [] => by simp [Expr.anyMentions, Expr.allUsedNames]
  | e :: es => by
    simp only [Expr.anyMentions, Expr.allUsedNames, Bool.or_eq_true, Expr.mentions_iff names e,
      Expr.anyMentions_iff names es, List.mem_append]
    grind

end

theorem Function.isSubstitutable_iff (f : Function) :
    f.isSubstitutable = true ↔ f.Substitutable := by
  unfold isSubstitutable Substitutable
  split
  . next x span target value hreturns hbody =>
    have hmentions := value.mentions_iff [f.name, x.name]
    rw [Bool.and_eq_true, Bool.not_eq_true', ← Bool.not_eq_true, hmentions, decide_eq_true_eq]
    rw [hreturns, hbody]
    grind
  . next hother =>
    apply iff_of_false Bool.false_ne_true
    rintro ⟨x, span, target, value, hreturns, hbody, -⟩
    exact hother x span target value hreturns hbody

/-! ## The search -/

namespace Function

def searched (forms : List StackForm) (fs : List Function) : Except Failure (List Function) :=
  match forms with
  | [] => .ok (fs.filter isSubstitutable)
  | form :: _ => .error (.unsupported form)

theorem searched_append (forms forms' : List StackForm) (fs fs' : List Function) :
    searched (forms ++ forms') (fs ++ fs') = do
      let first ← searched forms fs
      let others ← searched forms' fs'
      return first ++ others := by
  cases forms with
  | cons form forms => rfl
  | nil =>
    cases forms' with
    | cons form forms' => rfl
    | nil => exact congrArg Except.ok (List.filter_append fs fs')

theorem searched_cons (forms : List StackForm) (f : Function) (fs : List Function) :
    searched forms (f :: fs) = do
      let inner ← searched forms fs
      return if f.isSubstitutable then f :: inner else inner := by
  cases forms with
  | cons form forms => rfl
  | nil => exact congrArg Except.ok List.filter_cons

end Function

mutual

theorem Stmt.substitutable_eq : (s : Stmt) →
    s.substitutable = Function.searched s.stackForms s.functions
  | .expression _ => rfl
  | .declaration .. => rfl
  | .assignment .. => rfl
  | .conditional _ _ body => body.substitutable_eq
  | .switch _ _ arms => Case.allSubstitutable_eq arms
  | .loop _ pre _ post body => by
    unfold Stmt.substitutable Stmt.stackForms Stmt.functions
    rw [List.append_assoc, List.append_assoc, Function.searched_append, Function.searched_append,
      pre.substitutable_eq, post.substitutable_eq, body.substitutable_eq]
    simp only [bind_assoc, pure_bind, List.append_assoc]
  | .function ⟨f, body⟩ => by
    unfold Stmt.substitutable Stmt.stackForms Stmt.functions
    rw [Function.searched_cons, body.substitutable_eq]
  | .block b => b.substitutable_eq
  | .stack _ => rfl

theorem Stmt.allSubstitutable_eq : (ss : List Stmt) →
    Stmt.allSubstitutable ss = Function.searched (Stmt.allStackForms ss) (Stmt.allFunctions ss)
  | [] => rfl
  | s :: ss => by
    unfold Stmt.allSubstitutable Stmt.allStackForms Stmt.allFunctions
    rw [Function.searched_append, s.substitutable_eq, Stmt.allSubstitutable_eq ss]

theorem Block.substitutable_eq : (b : Block) →
    b.substitutable = Function.searched b.stackForms b.functions
  | ⟨_, ss⟩ => Stmt.allSubstitutable_eq ss

theorem Case.allSubstitutable_eq : (cs : List Case) →
    Case.allSubstitutable cs = Function.searched (Case.allStackForms cs) (Case.allFunctions cs)
  | [] => rfl
  | ⟨_, _, body⟩ :: cs => by
    unfold Case.allSubstitutable Case.allStackForms Case.allFunctions
    rw [Function.searched_append, body.substitutable_eq, Case.allSubstitutable_eq cs]

end

/--
The search finds exactly the functions whose calls can be replaced by an expression: where the names
of the functions differ it fails at the first stack form, and if there is none it gives the
functions of the program at every depth that are substitutable, each found under its name.
-/
theorem substitutableFunctions_exact {b : Block} (h : (Function.names b.functions).Nodup) :
    match b.stackForms with
    | form :: _ => substitutableFunctions b = .error (.unsupported form)
    | [] => ∃ fs, substitutableFunctions b = .ok fs ∧
        (∀ f, f ∈ fs ↔ f ∈ b.functions ∧ f.Substitutable) ∧
        fs.Pairwise (fun f g => f.name < g.name) ∧
        ∀ f ∈ fs, (fs.find? fun g => g.name = f.name) = some f := by
  unfold substitutableFunctions
  rw [b.substitutable_eq]
  cases b.stackForms with
  | cons form forms => rfl
  | nil =>
    have hkeys : ((b.functions.filter Function.isSubstitutable).map fun f => f.name).Nodup :=
      h.sublist (List.filter_sublist.map _)
    refine ⟨_, rfl, ?_, Text.pairwise_orderBy _, ?_⟩
    . intro f
      rw [Text.mem_orderBy_of_nodup hkeys, List.mem_filter, f.isSubstitutable_iff]
    . intro f hf
      exact (Text.find?_key_of_nodup (Text.nodup_keys_orderBy _)).2 hf

theorem substitutableFunctions_exact_nested : ∃ b fs,
    parse .loose
      ("\x7b for \x7b \x7d 1 \x7b function f(a) -> r \x7b r := add(a, g(a)) \x7d \x7d \x7b \x7d " ++
        "function g(b) -> t \x7b function c() -> u \x7b u := 2 \x7d t := g(b) \x7d " ++
        "function e(x) -> y \x7b y := add(x, y) \x7d \x7d") = .ok b ∧
    (Function.names b.functions).Nodup ∧ b.stackForms = [] ∧
    substitutableFunctions b = .ok fs ∧ Function.names fs = ["c", "f"] ∧
    (∀ f, f ∈ fs ↔ f ∈ b.functions ∧ f.Substitutable) ∧
    fs.Pairwise (fun f g => f.name < g.name) ∧
    ∀ f ∈ fs, (fs.find? fun g => g.name = f.name) = some f := by
  have hruns : (parse .loose
      ("\x7b for \x7b \x7d 1 \x7b function f(a) -> r \x7b r := add(a, g(a)) \x7d \x7d \x7b \x7d " ++
        "function g(b) -> t \x7b function c() -> u \x7b u := 2 \x7d t := g(b) \x7d " ++
        "function e(x) -> y \x7b y := add(x, y) \x7d \x7d")).toOption.any (fun b =>
      (substitutableFunctions b).toOption.any fun fs =>
        decide ((Function.names b.functions).Nodup ∧ b.stackForms = [] ∧
          Function.names fs = ["c", "f"])) = true := by
    decide +kernel
  obtain ⟨b, hb, hruns⟩ := exists_of_any hruns
  obtain ⟨fs, hfs, hruns⟩ := exists_of_any hruns
  obtain ⟨hnodup, hforms, hnames⟩ := of_decide_eq_true hruns
  have hexact := substitutableFunctions_exact hnodup
  rw [hforms] at hexact
  obtain ⟨fs', hfs', hmem, hsorted, hfind⟩ := hexact
  obtain rfl : fs' = fs := Except.ok.inj (hfs'.symm.trans hfs)
  exact ⟨b, fs', hb, hnodup, hforms, hfs, hnames, hmem, hsorted, hfind⟩

end Splice
