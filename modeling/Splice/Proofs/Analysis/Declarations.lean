import Splice.Proofs.Analysis.Moved
import Splice.Proofs.Analysis.Occurrences
import Splice.Proofs.Pass.Success
import Splice.Syntax.Parser

/-!
This module contains the number of declarations that the analysis knows of an accepted program: it
is that of its variables, parameters, return variables and functions, and of its labels.
-/

namespace Splice

/--
A place that binds a name for uses to refer to. No use refers to a label.
-/
inductive BindingSite where
  | variable (x : Binder)
  | parameter (x : Binder)
  | returnVariable (x : Binder)
  | function (f : Signature)
deriving DecidableEq, Repr

mutual

def Stmt.bindingSites : Stmt → List BindingSite
  | .expression _ => []
  | .declaration _ vars _ => vars.map .variable
  | .assignment .. => []
  | .conditional _ _ body => body.bindingSites
  | .switch _ _ arms => Case.allBindingSites arms
  | .loop _ pre _ post body => pre.bindingSites ++ post.bindingSites ++ body.bindingSites
  | .function ⟨f, body⟩ =>
    .function f :: f.parameters.map .parameter ++ f.returns.map .returnVariable
      ++ body.bindingSites
  | .block b => b.bindingSites
  | .stack _ => []

def Stmt.allBindingSites : List Stmt → List BindingSite
  | [] => []
  | s :: ss => s.bindingSites ++ Stmt.allBindingSites ss

def Block.bindingSites : Block → List BindingSite
  | ⟨_, ss⟩ => Stmt.allBindingSites ss

def Case.allBindingSites : List Case → List BindingSite
  | [] => []
  | ⟨_, _, body⟩ :: cs => body.bindingSites ++ Case.allBindingSites cs

end

def StackForm.labels (forms : List StackForm) : List String :=
  forms.filterMap fun
    | .label _ name => some name
    | _ => none

@[simp]
theorem StackForm.labels_append (forms forms' : List StackForm) :
    labels (forms ++ forms') = labels forms ++ labels forms' :=
  List.filterMap_append

mutual

theorem Stmt.length_boundNames : (s : Stmt) →
    s.boundNames.length = s.bindingSites.length + (StackForm.labels s.stackForms).length
  | .expression _ => rfl
  | .declaration .. => by
    simp [Stmt.boundNames, Stmt.bindingSites, Stmt.stackForms, StackForm.labels]
  | .assignment .. => rfl
  | .conditional _ _ body => body.length_boundNames
  | .switch _ _ arms => Case.length_allBoundNames arms
  | .loop _ pre _ post body => by
    have hpre := pre.length_boundNames
    have hpost := post.length_boundNames
    have hbody := body.length_boundNames
    simp only [Stmt.boundNames, Stmt.bindingSites, Stmt.stackForms, StackForm.labels_append,
      List.length_append]
    omega
  | .function ⟨f, body⟩ => by
    have hbody := body.length_boundNames
    simp only [Stmt.boundNames, Stmt.bindingSites, Stmt.stackForms, List.length_append,
      List.length_cons, List.length_map]
    omega
  | .block b => b.length_boundNames
  | .stack (.label ..) => rfl
  | .stack (.assignment ..) => rfl
  | .stack (.instruction ..) => rfl

theorem Stmt.length_allBoundNames : (ss : List Stmt) → (Stmt.allBoundNames ss).length =
    (Stmt.allBindingSites ss).length + (StackForm.labels (Stmt.allStackForms ss)).length
  | [] => rfl
  | s :: ss => by
    have hs := s.length_boundNames
    have hss := Stmt.length_allBoundNames ss
    simp only [Stmt.allBoundNames, Stmt.allBindingSites, Stmt.allStackForms,
      StackForm.labels_append, List.length_append]
    omega

theorem Block.length_boundNames : (b : Block) →
    b.boundNames.length = b.bindingSites.length + (StackForm.labels b.stackForms).length
  | ⟨_, ss⟩ => Stmt.length_allBoundNames ss

theorem Case.length_allBoundNames : (cs : List Case) → (Case.allBoundNames cs).length =
    (Case.allBindingSites cs).length + (StackForm.labels (Case.allStackForms cs)).length
  | [] => rfl
  | ⟨_, _, body⟩ :: cs => by
    have hbody := body.length_boundNames
    have hcs := Case.length_allBoundNames cs
    simp only [Case.allBoundNames, Case.allBindingSites, Case.allStackForms,
      StackForm.labels_append, List.length_append]
    omega

end

/--
The declarations of an accepted program are its binding sites and its labels, each counted once. So
their number is that of the binding sites exactly if there is no label, as in a program of a dialect
without stack forms.
-/
theorem analyze_counts {d : Dialect} {external : List String} {b : Block} {info : Info}
    (h : analyze d external b = .ok info) :
    info.declarations = b.bindingSites.length + (StackForm.labels b.stackForms).length ∧
    (info.declarations = b.bindingSites.length ↔ StackForm.labels b.stackForms = []) ∧
    (d.stackForms = false → StackForm.labels b.stackForms = []) := by
  obtain ⟨hvalid, -, rfl⟩ := analyze_eq_ok.1 h
  have hlength := b.length_boundNames
  refine ⟨hlength, ?_, ?_⟩
  . rw [← List.length_eq_zero_iff]
    dsimp only
    omega
  . intro hd
    rw [Block.Valid.stackForms hd b hvalid]
    rfl

theorem analyze_counts_label : ∃ b info,
    parseAndAnalyze .loose ["h"] ("\x7b l: for \x7b let i := h \x7d 1 \x7b \x7d \x7b m: \x7d " ++
      "function f(a, b) -> c \x7b let d, e := g() function g() -> x, y \x7b \x7d \x7d \x7d") =
      .ok (b, info) ∧
    b.bindingSites.length = 10 ∧ StackForm.labels b.stackForms = ["l", "m"] ∧
    info.declarations = b.bindingSites.length + (StackForm.labels b.stackForms).length ∧
    (info.declarations = b.bindingSites.length ↔ StackForm.labels b.stackForms = []) ∧
    (Dialect.loose.stackForms = false → StackForm.labels b.stackForms = []) := by
  have hruns : (parseAndAnalyze .loose ["h"]
      ("\x7b l: for \x7b let i := h \x7d 1 \x7b \x7d \x7b m: \x7d " ++
        "function f(a, b) -> c \x7b let d, e := g() function g() -> x, y \x7b \x7d \x7d \x7d")
      ).toOption.any (fun r => decide (r.1.bindingSites.length = 10 ∧
        StackForm.labels r.1.stackForms = ["l", "m"])) = true := by
    decide +kernel
  obtain ⟨⟨b, info⟩, h, hruns⟩ := exists_of_any hruns
  obtain ⟨hsites, hlabels⟩ := of_decide_eq_true hruns
  exact ⟨b, info, h, hsites, hlabels, analyze_counts (parseAndAnalyze_eq_ok.1 h).2⟩

/--
A label is counted, although it is no binding site.
-/
theorem analyze_counts_more : ¬∀ (d : Dialect) (external : List String) (source : String)
    (b : Block) (info : Info), parseAndAnalyze d external source = .ok (b, info) →
    info.declarations = b.bindingSites.length := by
  intro hall
  have hruns : (parseAndAnalyze .loose [] "\x7b l: \x7d").toOption.any (fun r =>
      decide (r.2.declarations = 1 ∧ r.1.bindingSites.length = 0)) = true := by
    decide +kernel
  obtain ⟨⟨b, info⟩, h, hruns⟩ := exists_of_any hruns
  obtain ⟨hdeclarations, hsites⟩ : info.declarations = 1 ∧ b.bindingSites.length = 0 :=
    of_decide_eq_true hruns
  have := hall _ _ _ b info h
  omega

end Splice
