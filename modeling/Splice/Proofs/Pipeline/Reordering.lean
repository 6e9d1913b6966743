import Splice.Proofs.Analysis.Acceptance
import Splice.Proofs.Pass.Success
import Splice.Proofs.Semantics.Frames
import Splice.Proofs.Semantics.Movable
import Splice.Proofs.Semantics.Reachability
import Splice.Proofs.Text.Order
import Splice.Tree.Equality

/-!
This module contains what it means that an argument is movable: whether it is computed before
another argument or after it makes no difference, unless a function assigns to a variable of the
host that the argument reads.
-/

namespace Splice

open Relation (ReflTransGen)

variable {m : Machine}

namespace Expr

/-! ## Variables of an expression -/

mutual

def reads : Expr → List String
  | .literal _ => []
  | .identifier i => [i.name]
  | .call _ _ arguments => allReads arguments
  | .instruction _ _ arguments => allReads arguments

def allReads : List Expr → List String
  | [] => []
  | e :: es => e.reads ++ allReads es

end

mutual

theorem value_eq_of_reads {μ ν : Memory m} : (e : Expr) →
    (∀ x ∈ e.reads, μ.read x = ν.read x) → e.value μ = e.value ν
  | .literal _, _ => rfl
  | .identifier i, h => h i.name (List.mem_singleton.2 rfl)
  | .call .., _ => rfl
  | .instruction _ _ arguments, h => congrArg _ (allValues_eq_of_reads arguments h)

theorem allValues_eq_of_reads {μ ν : Memory m} : (es : List Expr) →
    (∀ x ∈ allReads es, μ.read x = ν.read x) → allValues μ es = allValues ν es
  | [], _ => rfl
  | e :: es, h => by
    unfold allReads at h
    rw [List.forall_mem_append] at h
    unfold allValues
    rw [value_eq_of_reads e h.1, allValues_eq_of_reads es h.2]

end

def evalBoth (calls : Calls m) (first second : Expr) : Run m (List m.Value × List m.Value) := do
  let vs ← first.eval calls
  let ws ← second.eval calls
  return (vs, ws)

section

variable {calls : Calls m} {a b : Expr} {μ μ' : Memory m} {ws : List m.Value}

theorem evalBoth_of_movable_first (ha : a.isMovable = true)
    (hb : b.eval calls μ = some (.ok (ws, μ'))) :
    evalBoth calls a b μ = some (.ok (([a.value μ], ws), μ')) := by
  change (a.eval calls μ >>= fun r => b.eval calls r.2 >>= fun q => pure ((r.1, q.1), q.2)) = _
  rw [eval_of_isMovable calls μ a ha, pure_bind, hb]
  rfl

theorem evalBoth_of_movable_second (ha : a.isMovable = true)
    (hb : b.eval calls μ = some (.ok (ws, μ'))) :
    evalBoth calls b a μ = some (.ok ((ws, [a.value μ']), μ')) := by
  change (b.eval calls μ >>= fun q => a.eval calls q.2 >>= fun r => pure ((q.1, r.1), r.2)) = _
  rw [hb]
  change (a.eval calls μ' >>= fun r => pure ((ws, r.1), r.2)) = _
  rw [eval_of_isMovable calls μ' a ha]
  rfl

end

end Expr

/-! ## Functions of a program -/

theorem Around.spares_calls {x : String} {bound : Nat} {around : Around}
    (h : ∀ layer ∈ around, ∀ f ∈ Stmt.allFunctions layer.2, f.Spares x) :
    ∀ name, Spares x ((around.calls bound : Calls m) name) := by
  induction around with
  | nil => exact fun _ _ _ _ _ hrun => by contradiction
  | cons layer outer ih =>
    rw [List.forall_mem_cons] at h
    refine Calls.spares_define (Stmt.spares_closures bound layer.2 fun f body hf => ?_) (ih h.2)
      layer.1
    exact h.1 ⟨f, body⟩ (Stmt.mem_allFunctions hf)

theorem Block.Valid.spares {d : Dialect} {external : List String} {b : Block} {x : String}
    (hv : b.Valid (.root d external))
    (hx : x ∈ external → ∀ f ∈ b.functions, ¬ f.body.Assigns x) :
    ∀ f ∈ b.functions, f.Spares x := by
  intro f hf
  obtain ⟨c, hassignable, hbody⟩ := Block.Valid.exists_body b hv hf
  refine ⟨c, hbody, fun hmem targets htargets hname => ?_⟩
  rw [hassignable] at hmem
  exact hx (Text.mem_ordered.1 hmem) f hf ⟨targets, htargets, hname⟩

/-! ## Reordering -/

variable {d : Dialect} {external : List String} {source : String} {b₀ : Block} {info : Info}

/--
Where a run of an accepted program comes to a call or an instruction, a movable argument `a` and
another argument `b` that is computed without a halt can be computed in either order. The value of
`b` and all that changes are the same in both orders, and `a` has a value in both. It is the same
value, unless `a` reads a variable of the host that is assigned in a function.
-/
theorem evalBoth_comm_of_isMovable (h : parseAndAnalyze d external source = .ok (b₀, info))
    {start : World m} {bound : Nat} {around : Around} {a b : Expr} {μ μ' : Memory m}
    {ws : List m.Value} (hcomes : b₀.ComesToBoth bound start around a b μ)
    (ha : a.isMovable = true) (hb : b.eval (around.calls bound) μ = some (.ok (ws, μ'))) :
    ∃ v v', Expr.evalBoth (around.calls bound) a b μ = some (.ok (([v], ws), μ')) ∧
      Expr.evalBoth (around.calls bound) b a μ = some (.ok ((ws, [v']), μ')) ∧
      ((∀ x ∈ a.reads, x ∈ external → ∀ f ∈ b₀.functions, ¬ f.body.Assigns x) → v = v') := by
  refine ⟨a.value μ, a.value μ', Expr.evalBoth_of_movable_first ha hb,
    Expr.evalBoth_of_movable_second ha hb, fun hassigns => ?_⟩
  have hvalid := (isOk_analyze.1 (congrArg Except.isOk (parseAndAnalyze_eq_ok.1 h).2)).1
  obtain ⟨es, ν, ⟨e, hreaches, _⟩, _⟩ := hcomes
  have hwithin := Place.within_of_reaches hreaches
  -- The variables of the call that runs are out of reach of the functions that `b` calls, so `a`
  -- can only see a difference in a variable of the host.
  apply Expr.value_eq_of_reads
  intro x hx
  have hspares := Block.Valid.spares hvalid (hassigns x hx)
  have hcalls : ∀ name, Spares x ((around.calls bound : Calls m) name) :=
    Around.spares_calls fun layer hlayer f hf => hspares f (hwithin.around layer hlayer hf)
  exact (Expr.ensures_eval hcalls b μ ws μ' hb).read_eq.symm

def Machine.texts : Machine where
  Value := List String
  State := Unit
  literal _ text := [text]
  compute name vs := name :: vs.flatten
  execute _ _ _ := .returns [] ()

/--
An instruction in the body of a recursive function, with an argument that reads the parameter and a
name of the host. The call beside it assigns to another name of the host.
-/
theorem evalBoth_comm_of_isMovable_recursive : ∃ (b₀ : Block) (info : Info)
    (start : World Machine.texts) (around : Around) (a b : Expr) (μ μ' : Memory Machine.texts)
    (v : Machine.texts.Value) (ws : List Machine.texts.Value),
    parseAndAnalyze .loose ["g", "h"]
      ("\x7b function f(x) -> r \x7b g := x if x \x7b r := add(f(0), mul(x, h)) \x7d \x7d " ++
        "let y := f(2) \x7d") = .ok (b₀, info) ∧
    b₀.ComesToBoth 2 start around a b μ ∧ a.isMovable = true ∧
    b.eval (around.calls 2) μ = some (.ok (ws, μ')) ∧
    Expr.evalBoth (around.calls 2) a b μ = some (.ok (([v], ws), μ')) ∧
    Expr.evalBoth (around.calls 2) b a μ = some (.ok ((ws, [v]), μ')) := by
  let program : Block := ⟨⟨⟨1, 1⟩, ⟨1, 82⟩⟩, [
        .function ⟨⟨⟨⟨1, 3⟩, ⟨1, 66⟩⟩, "f", [⟨⟨⟨1, 14⟩, ⟨1, 14⟩⟩, "x", none⟩],
          [⟨⟨⟨1, 20⟩, ⟨1, 20⟩⟩, "r", none⟩]⟩, ⟨⟨⟨1, 22⟩, ⟨1, 66⟩⟩, [
          .assignment ⟨⟨1, 24⟩, ⟨1, 29⟩⟩ [⟨⟨⟨1, 24⟩, ⟨1, 24⟩⟩, "g"⟩]
            (.identifier ⟨⟨⟨1, 29⟩, ⟨1, 29⟩⟩, "x"⟩),
          .conditional ⟨⟨1, 31⟩, ⟨1, 64⟩⟩ (.identifier ⟨⟨⟨1, 34⟩, ⟨1, 34⟩⟩, "x"⟩)
            ⟨⟨⟨1, 36⟩, ⟨1, 64⟩⟩, [
            .assignment ⟨⟨1, 38⟩, ⟨1, 62⟩⟩ [⟨⟨⟨1, 38⟩, ⟨1, 38⟩⟩, "r"⟩]
              (.instruction ⟨⟨1, 43⟩, ⟨1, 62⟩⟩ "add" [
                .call ⟨⟨1, 47⟩, ⟨1, 50⟩⟩ ⟨⟨⟨1, 47⟩, ⟨1, 47⟩⟩, "f"⟩
                  [.literal ⟨⟨⟨1, 49⟩, ⟨1, 49⟩⟩, .number, "0", none⟩],
                .instruction ⟨⟨1, 53⟩, ⟨1, 61⟩⟩ "mul" [
                  .identifier ⟨⟨⟨1, 57⟩, ⟨1, 57⟩⟩, "x"⟩,
                  .identifier ⟨⟨⟨1, 60⟩, ⟨1, 60⟩⟩, "h"⟩]])]⟩]⟩⟩,
        .declaration ⟨⟨1, 68⟩, ⟨1, 80⟩⟩ [⟨⟨⟨1, 72⟩, ⟨1, 72⟩⟩, "y", none⟩]
          (some (.call ⟨⟨1, 77⟩, ⟨1, 80⟩⟩ ⟨⟨⟨1, 77⟩, ⟨1, 77⟩⟩, "f"⟩
            [.literal ⟨⟨⟨1, 79⟩, ⟨1, 79⟩⟩, .number, "2", none⟩]))]⟩
  have hruns : (parseAndAnalyze .loose ["g", "h"]
      ("\x7b function f(x) -> r \x7b g := x if x \x7b r := add(f(0), mul(x, h)) \x7d \x7d " ++
        "let y := f(2) \x7d")).toOption.any (fun r => r.1.same program) = true := by
    decide +kernel
  let start : World Machine.texts := ⟨(), fun _ => ["0"], []⟩
  let μ : Memory Machine.texts :=
    ⟨fun y => if y = "r" then some ["0"] else if y = "x" then some ["2"] else none,
      ⟨(), fun y => if y = "g" then ["2"] else ["0"], []⟩⟩
  let μ' : Memory Machine.texts :=
    { μ with world := ⟨(), fun y => if y = "g" then ["0"] else μ.world.host y, []⟩ }
  obtain ⟨b₀, info, around, a, b, h, hcomes, ha, hb, hassigns⟩ :
      ∃ b₀ info around a b, parseAndAnalyze .loose ["g", "h"]
        ("\x7b function f(x) -> r \x7b g := x if x \x7b r := add(f(0), mul(x, h)) \x7d \x7d " ++
          "let y := f(2) \x7d") = .ok (b₀, info) ∧
      b₀.ComesToBoth 2 start around a b μ ∧ a.isMovable = true ∧
      b.eval (around.calls 2) μ = some (.ok ([["0"]], μ')) ∧
      ∀ x ∈ a.reads, x ∈ ["g", "h"] → ∀ f ∈ b₀.functions, ¬ f.body.Assigns x := by
    obtain ⟨⟨b₀, info⟩, h, hruns⟩ := exists_of_any hruns
    obtain rfl : b₀ = program := (Block.same_iff _ _).1 hruns
    have htwo : (["2"] : List String) ≠ ["0"] := by decide
    have hentry : ReflTransGen (Starts 2) (program.entry start) _ := .single .statements
    -- To the call in the second statement,
    have hcall := ((hentry.tail (.laterStatements rfl)).tail .statement).tail .declaration
    -- into the body of the function, behind its assignment to the name of the host,
    have hbody := ((hcall.tail (.callee rfl rfl rfl)).tail .statements).tail (.laterStatements rfl)
    -- and into the branch to the sum.
    have hbranch := (hbody.tail .statement).tail (.conditional rfl htwo)
    have hsum := ((hbranch.tail .statements).tail .statement).tail .assignment
    have hcomes : Block.ComesTo program 2 start _ _ μ := ⟨_, hsum, .instructionArguments⟩
    have hboth : Block.ComesToBoth program 2 start _ _ _ μ :=
      ⟨_, _, hcomes, ⟨1, 0, by decide, rfl, rfl⟩, [], [], List.nil_suffix, rfl⟩
    refine ⟨_, _, _, _, _, h, hboth, rfl, rfl, ?_⟩
    intro x hx hexternal f hf
    obtain rfl := List.mem_singleton.1 hf
    have hx : x = "x" ∨ x = "h" := List.mem_pair.1 hx
    have hexternal : x = "g" ∨ x = "h" := List.mem_pair.1 hexternal
    obtain rfl : x = "h" := by grind
    rintro ⟨targets, htargets, hname⟩
    rcases List.mem_pair.1 htargets with rfl | rfl
    . exact absurd (List.mem_singleton.1 hname) (show "h" ≠ "g" by decide)
    . exact absurd (List.mem_singleton.1 hname) (show "h" ≠ "r" by decide)
  obtain ⟨v, v', hfirst, hsecond, heq⟩ := evalBoth_comm_of_isMovable h hcomes ha hb
  obtain rfl := heq hassigns
  exact ⟨b₀, info, start, around, a, b, μ, μ', v, [["0"]], h, hcomes, ha, hb, hfirst, hsecond⟩

/--
A function that assigns to the name of the host that is the argument beside its call.
-/
theorem evalBoth_comm_of_isMovable_assigned : ∃ (b₀ : Block) (info : Info)
    (start : World Machine.texts) (around : Around) (a b : Expr) (μ μ' : Memory Machine.texts)
    (v v' w : Machine.texts.Value),
    parseAndAnalyze .loose ["h"] "\x7b function f() -> r \x7b h := 1 \x7d sstore(f(), h) \x7d" =
      .ok (b₀, info) ∧
    b₀.ComesToBoth 1 start around a b μ ∧ a.isMovable = true ∧
    b.eval (around.calls 1) μ = some (.ok ([w], μ')) ∧
    Expr.evalBoth (around.calls 1) a b μ = some (.ok (([v], [w]), μ')) ∧
    Expr.evalBoth (around.calls 1) b a μ = some (.ok (([w], [v']), μ')) ∧ v ≠ v' := by
  let program : Block := ⟨⟨⟨1, 1⟩, ⟨1, 47⟩⟩, [
      .function ⟨⟨⟨⟨1, 3⟩, ⟨1, 30⟩⟩, "f", [], [⟨⟨⟨1, 19⟩, ⟨1, 19⟩⟩, "r", none⟩]⟩,
        ⟨⟨⟨1, 21⟩, ⟨1, 30⟩⟩, [.assignment ⟨⟨1, 23⟩, ⟨1, 28⟩⟩ [⟨⟨⟨1, 23⟩, ⟨1, 23⟩⟩, "h"⟩]
          (.literal ⟨⟨⟨1, 28⟩, ⟨1, 28⟩⟩, .number, "1", none⟩)]⟩⟩,
      .expression (.instruction ⟨⟨1, 32⟩, ⟨1, 45⟩⟩ "sstore" [
        .call ⟨⟨1, 39⟩, ⟨1, 41⟩⟩ ⟨⟨⟨1, 39⟩, ⟨1, 39⟩⟩, "f"⟩ [],
        .identifier ⟨⟨⟨1, 44⟩, ⟨1, 44⟩⟩, "h"⟩])]⟩
  have hruns : (parseAndAnalyze .loose ["h"]
      "\x7b function f() -> r \x7b h := 1 \x7d sstore(f(), h) \x7d").toOption.any
      (fun r => r.1.same program) = true := by
    decide +kernel
  obtain ⟨⟨b₀, info⟩, h, hruns⟩ := exists_of_any hruns
  obtain rfl : b₀ = program := (Block.same_iff _ _).1 hruns
  let start : World Machine.texts := ⟨(), fun _ => ["0"], []⟩
  let after : World Machine.texts := ⟨(), fun y => if y = "h" then ["1"] else ["0"], []⟩
  -- The only instruction is the second statement of the program.
  have hentry : ReflTransGen (Starts 1) (program.entry start) _ := .single .statements
  have hcall := ((hentry.tail (.laterStatements rfl)).tail .statement).tail .expression
  have hcomes : Block.ComesTo program 1 start _ _ _ := ⟨_, hcall, .instructionArguments⟩
  have hboth : Block.ComesToBoth program 1 start _ _ _ ⟨fun _ => none, start⟩ :=
    ⟨_, _, hcomes, ⟨1, 0, by decide, rfl, rfl⟩, [], [], List.nil_suffix, rfl⟩
  refine ⟨_, _, start, _, _, _, ⟨fun _ => none, start⟩, ⟨fun _ => none, after⟩, ["0"], ["1"],
    ["0"], h, hboth, rfl, ?_, ?_, ?_, ?_⟩
  . rfl
  . rfl
  . rfl
  . change ["0"] ≠ ["1"]
    decide

end Splice
