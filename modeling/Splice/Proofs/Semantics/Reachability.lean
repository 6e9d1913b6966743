import Mathlib.Logic.Relation
import Splice.Proofs.Semantics.Frames
import Splice.Proofs.Tree.Functions

/-!
This module contains the places that a run of a program comes to: the part of the program that is
run there, the functions that are visible, and the memory.
-/

namespace Splice

open Relation (ReflTransGen)

variable {m : Machine}

/-! ## Visible functions -/

/--
The statements of the blocks around a part of a program, the innermost first. With each block comes
how deep the calls of its functions may still go.
-/
abbrev Around := List (Nat × List Stmt)

def Stmt.functionHere? (name : String) : List Stmt → Option Function
  | [] => none
  | .function f :: ss => if f.name = name then some f else Stmt.functionHere? name ss
  | _ :: ss => Stmt.functionHere? name ss

namespace Around

def calls (bound : Nat) : Around → Calls m
  | [] => Calls.empty
  | (n, ss) :: outer => Calls.define (Stmt.closures bound ss) (calls bound outer) n

def find? (name : String) : Around → Option (Function × Around)
  | [] => none
  | (n, ss) :: outer =>
    match Stmt.functionHere? name ss with
    | none => find? name outer
    | some f => match n with
      | 0 => none
      | n + 1 => some (f, (n, ss) :: outer)

end Around

theorem Stmt.mem_of_functionHere? {name : String} {ss : List Stmt} {f : Function}
    (h : Stmt.functionHere? name ss = some f) : .function f ∈ ss := by
  induction ss with
  | nil => contradiction
  | cons s ss ih =>
    cases s with
    | function g =>
      unfold Stmt.functionHere? at h
      split at h
      . cases h
        exact List.mem_cons_self
      . exact List.mem_cons_of_mem _ (ih h)
    | _ => exact List.mem_cons_of_mem _ (ih h)

/-! ## Places -/

inductive Code where
  | expr (e : Expr)
  | arguments (es : List Expr)
  | stmt (s : Stmt)
  | stmts (ss : List Stmt)
  | rounds (n : Nat) (condition : Expr) (post body : Block)
  | block (b : Block)

structure Place (m : Machine) where
  around : Around
  code : Code
  memory : Memory m

def Case.chosen? (v : m.Value) (otherwise : Option Block) : List Case → Option Block
  | [] => otherwise
  | ⟨_, none, body⟩ :: cs => Case.chosen? v (some body) cs
  | ⟨_, some l, body⟩ :: cs =>
    if v = m.literal l.kind l.text then some body else Case.chosen? v otherwise cs

/--
A run of the first place starts with one of the second, or comes to it once the parts in front are
done.
-/
inductive Starts (bound : Nat) : Place m → Place m → Prop where
  | callArguments {Γ span callee es μ} :
    Starts bound ⟨Γ, .expr (.call span callee es), μ⟩ ⟨Γ, .arguments es, μ⟩
  | instructionArguments {Γ span name es μ} :
    Starts bound ⟨Γ, .expr (.instruction span name es), μ⟩ ⟨Γ, .arguments es, μ⟩
  /--
  The body of a function, with its parameters and return variables declared and nothing else.
  -/
  | callee {Γ Γ' : Around} {span callee es μ vs μ₁ f ν}
    (harguments : Expr.evalAll (Γ.calls bound) es μ = some (.ok (vs, μ₁)))
    (hcallee : Γ.find? callee.name = some (f, Γ'))
    (hframe : (do Run.declareAll f.parameters vs; Run.declareZeros f.returns)
      ⟨fun _ => none, μ₁.world⟩ = some (.ok ((), ν))) :
    Starts bound ⟨Γ, .expr (.call span callee es), μ⟩ ⟨Γ', .block f.body, ν⟩
  | laterArguments {Γ e es μ} : Starts bound ⟨Γ, .arguments (e :: es), μ⟩ ⟨Γ, .arguments es, μ⟩
  | argument {Γ : Around} {e es μ vs μ₁}
    (hlater : Expr.evalAll (Γ.calls bound) es μ = some (.ok (vs, μ₁))) :
    Starts bound ⟨Γ, .arguments (e :: es), μ⟩ ⟨Γ, .expr e, μ₁⟩
  | expression {Γ e μ} : Starts bound ⟨Γ, .stmt (.expression e), μ⟩ ⟨Γ, .expr e, μ⟩
  | declaration {Γ span xs e μ} :
    Starts bound ⟨Γ, .stmt (.declaration span xs (some e)), μ⟩ ⟨Γ, .expr e, μ⟩
  | assignment {Γ span is e μ} :
    Starts bound ⟨Γ, .stmt (.assignment span is e), μ⟩ ⟨Γ, .expr e, μ⟩
  | condition {Γ span e b μ} :
    Starts bound ⟨Γ, .stmt (.conditional span e b), μ⟩ ⟨Γ, .expr e, μ⟩
  | conditional {Γ : Around} {span e b μ v μ₁}
    (hcondition : e.evalOne (Γ.calls bound) μ = some (.ok (v, μ₁))) (hv : v ≠ m.zero) :
    Starts bound ⟨Γ, .stmt (.conditional span e b), μ⟩ ⟨Γ, .block b, μ₁⟩
  | subject {Γ span e arms μ} :
    Starts bound ⟨Γ, .stmt (.switch span e arms), μ⟩ ⟨Γ, .expr e, μ⟩
  | arm {Γ : Around} {span e arms μ v μ₁ b}
    (hsubject : e.evalOne (Γ.calls bound) μ = some (.ok (v, μ₁)))
    (harm : Case.chosen? v none arms = some b) :
    Starts bound ⟨Γ, .stmt (.switch span e arms), μ⟩ ⟨Γ, .block b, μ₁⟩
  | pre {Γ span preSpan pre e post body μ} :
    Starts bound ⟨Γ, .stmt (.loop span ⟨preSpan, pre⟩ e post body), μ⟩
      ⟨(bound, pre) :: Γ, .stmts pre, μ⟩
  | loop {Γ span preSpan pre e post body μ μ₁}
    (hpre : Stmt.execAll bound (Around.calls bound ((bound, pre) :: Γ)) pre μ =
      some (.ok ((), μ₁))) :
    Starts bound ⟨Γ, .stmt (.loop span ⟨preSpan, pre⟩ e post body), μ⟩
      ⟨(bound, pre) :: Γ, .rounds bound e post body, μ₁⟩
  | roundCondition {Γ n e post body μ} :
    Starts bound ⟨Γ, .rounds (n + 1) e post body, μ⟩ ⟨Γ, .expr e, μ⟩
  | roundBody {Γ : Around} {n e post body μ v μ₁}
    (hcondition : e.evalOne (Γ.calls bound) μ = some (.ok (v, μ₁))) (hv : v ≠ m.zero) :
    Starts bound ⟨Γ, .rounds (n + 1) e post body, μ⟩ ⟨Γ, .block body, μ₁⟩
  | roundPost {Γ : Around} {n e post body μ v μ₁ μ₂}
    (hcondition : e.evalOne (Γ.calls bound) μ = some (.ok (v, μ₁))) (hv : v ≠ m.zero)
    (hbody : body.exec bound (Γ.calls bound) μ₁ = some (.ok ((), μ₂))) :
    Starts bound ⟨Γ, .rounds (n + 1) e post body, μ⟩ ⟨Γ, .block post, μ₂⟩
  | nextRound {Γ : Around} {n e post body μ v μ₁ μ₂ μ₃}
    (hcondition : e.evalOne (Γ.calls bound) μ = some (.ok (v, μ₁))) (hv : v ≠ m.zero)
    (hbody : body.exec bound (Γ.calls bound) μ₁ = some (.ok ((), μ₂)))
    (hpost : post.exec bound (Γ.calls bound) μ₂ = some (.ok ((), μ₃))) :
    Starts bound ⟨Γ, .rounds (n + 1) e post body, μ⟩ ⟨Γ, .rounds n e post body, μ₃⟩
  | block {Γ b μ} : Starts bound ⟨Γ, .stmt (.block b), μ⟩ ⟨Γ, .block b, μ⟩
  | statement {Γ s ss μ} : Starts bound ⟨Γ, .stmts (s :: ss), μ⟩ ⟨Γ, .stmt s, μ⟩
  | laterStatements {Γ : Around} {s ss μ μ₁}
    (hfirst : s.exec bound (Γ.calls bound) μ = some (.ok ((), μ₁))) :
    Starts bound ⟨Γ, .stmts (s :: ss), μ⟩ ⟨Γ, .stmts ss, μ₁⟩
  | statements {Γ span ss μ} :
    Starts bound ⟨Γ, .block ⟨span, ss⟩, μ⟩ ⟨(bound, ss) :: Γ, .stmts ss, μ⟩

namespace Block

def entry (b : Block) (start : World m) : Place m :=
  ⟨[], .block b, ⟨fun _ => none, start⟩⟩

/--
A run of the program comes to a call or an instruction with the arguments `es`.
-/
def ComesTo (b : Block) (bound : Nat) (start : World m) (around : Around) (es : List Expr)
    (μ : Memory m) : Prop :=
  ∃ e, ReflTransGen (Starts bound) (b.entry start) ⟨around, .expr e, μ⟩ ∧
    Starts bound ⟨around, .expr e, μ⟩ ⟨around, .arguments es, μ⟩

/--
A run of the program comes to a call or an instruction with the arguments `first` and `second`, one
of them somewhere in front of the other. It has computed some of the last arguments then, or none,
and has the memory `μ`.
-/
def ComesToBoth (b : Block) (bound : Nat) (start : World m) (around : Around)
    (first second : Expr) (μ : Memory m) : Prop :=
  ∃ es ν, b.ComesTo bound start around es ν ∧
    (∃ i j : Nat, i ≠ j ∧ es[i]? = some first ∧ es[j]? = some second) ∧
    ∃ computed vs, computed <:+ es ∧
      Expr.evalAll (around.calls bound) computed ν = some (.ok (vs, μ))

end Block

/-! ## Functions of a place -/

namespace Code

def functions : Code → List Function
  | .expr _ => []
  | .arguments _ => []
  | .stmt s => s.functions
  | .stmts ss => Stmt.allFunctions ss
  | .rounds _ _ post body => post.functions ++ body.functions
  | .block b => b.functions

end Code

structure Place.Within (functions : List Function) (p : Place m) : Prop where
  around : ∀ layer ∈ p.around, Stmt.allFunctions layer.2 ⊆ functions
  code : p.code.functions ⊆ functions

theorem Case.functions_subset_of_chosen? {v : m.Value} {otherwise : Option Block} {b : Block}
    {cs : List Case} (h : Case.chosen? v otherwise cs = some b) :
    otherwise = some b ∨ b.functions ⊆ Case.allFunctions cs := by
  induction cs generalizing otherwise with
  | nil => exact .inl h
  | cons c cs ih =>
    obtain ⟨_, value, body⟩ := c
    have hrest : Case.allFunctions cs ⊆ body.functions ++ Case.allFunctions cs :=
      List.subset_append_right _ _
    unfold Case.allFunctions
    cases value with
    | none =>
      rcases ih h with heq | hsub
      . cases heq
        exact .inr (List.subset_append_left _ _)
      . exact .inr (List.Subset.trans hsub hrest)
    | some l =>
      unfold Case.chosen? at h
      split at h
      . cases h
        exact .inr (List.subset_append_left _ _)
      . exact (ih h).imp_right fun hsub => List.Subset.trans hsub hrest

theorem Around.subset_of_find? {name : String} {around around' : Around} {f : Function}
    {functions : List Function} (h : around.find? name = some (f, around'))
    (hsub : ∀ layer ∈ around, Stmt.allFunctions layer.2 ⊆ functions) :
    f ∈ functions ∧ ∀ layer ∈ around', Stmt.allFunctions layer.2 ⊆ functions := by
  induction around with
  | nil => contradiction
  | cons layer outer ih =>
    obtain ⟨n, ss⟩ := layer
    rw [List.forall_mem_cons] at hsub
    unfold find? at h
    split at h
    . exact ih h hsub.2
    . next g hhere =>
      split at h
      . contradiction
      . obtain ⟨g, body⟩ := g
        cases h
        have hmem := Stmt.mem_allFunctions (Stmt.mem_of_functionHere? hhere)
        exact ⟨hsub.1 hmem, List.forall_mem_cons.2 hsub⟩

theorem Starts.within {b : Block} {bound : Nat} {p q : Place m} (h : Starts bound p q)
    (hp : p.Within b.functions) : q.Within b.functions := by
  obtain ⟨haround, hcode⟩ := hp
  cases h with
  | callee _ hcallee _ =>
    obtain ⟨hf, haround'⟩ := Around.subset_of_find? hcallee haround
    exact ⟨haround', Block.functions_subset b hf⟩
  | callArguments => exact ⟨haround, hcode⟩
  | instructionArguments => exact ⟨haround, hcode⟩
  | laterArguments => exact ⟨haround, hcode⟩
  | argument _ => exact ⟨haround, hcode⟩
  | expression => exact ⟨haround, hcode⟩
  | declaration => exact ⟨haround, hcode⟩
  | assignment => exact ⟨haround, hcode⟩
  | condition => exact ⟨haround, List.nil_subset _⟩
  | conditional _ _ => exact ⟨haround, hcode⟩
  | subject => exact ⟨haround, List.nil_subset _⟩
  | arm _ harm =>
    rcases Case.functions_subset_of_chosen? harm with hnone | hsub
    . contradiction
    . exact ⟨haround, List.Subset.trans hsub hcode⟩
  | pre =>
    have hpre := (List.append_subset.1 (List.append_subset.1 hcode).1).1
    exact ⟨List.forall_mem_cons.2 ⟨hpre, haround⟩, hpre⟩
  | loop _ =>
    obtain ⟨hcode, hbody⟩ := List.append_subset.1 hcode
    obtain ⟨hpre, hpost⟩ := List.append_subset.1 hcode
    exact ⟨List.forall_mem_cons.2 ⟨hpre, haround⟩, List.append_subset.2 ⟨hpost, hbody⟩⟩
  | roundCondition => exact ⟨haround, List.nil_subset _⟩
  | roundBody _ _ => exact ⟨haround, (List.append_subset.1 hcode).2⟩
  | roundPost _ _ _ => exact ⟨haround, (List.append_subset.1 hcode).1⟩
  | nextRound _ _ _ _ => exact ⟨haround, hcode⟩
  | block => exact ⟨haround, hcode⟩
  | statement => exact ⟨haround, (List.append_subset.1 hcode).1⟩
  | laterStatements _ => exact ⟨haround, (List.append_subset.1 hcode).2⟩
  | statements => exact ⟨List.forall_mem_cons.2 ⟨hcode, haround⟩, hcode⟩

theorem Place.within_of_reaches {b : Block} {bound : Nat} {start : World m} {p : Place m}
    (h : ReflTransGen (Starts bound) (b.entry start) p) : p.Within b.functions := by
  induction h with
  | refl => exact ⟨List.forall_mem_nil _, List.Subset.refl _⟩
  | tail _ hstep ih => exact hstep.within ih

end Splice
