import Splice.Pass.Movable
import Splice.Proofs.Analysis.Rules
import Splice.Proofs.Semantics.Meaning

/-!
This module contains the values of movable expressions. To compute one has no effect, and depends on
nothing but the variables that are visible.
-/

namespace Splice

variable {m : Machine}

namespace Expr

mutual

def value (μ : Memory m) : Expr → m.Value
  | .literal l => m.literal l.kind l.text
  | .identifier i => μ.read i.name
  | .call .. => m.zero
  | .instruction _ name arguments => m.compute name (allValues μ arguments)

def allValues (μ : Memory m) : List Expr → List m.Value
  | [] => []
  | e :: es => e.value μ :: allValues μ es

end

mutual

theorem eval_of_isMovable (calls : Calls m) (μ : Memory m) :
    (e : Expr) → e.isMovable = true → e.eval calls μ = pure ([e.value μ], μ)
  | .literal _, _ => rfl
  | .identifier _, _ => rfl
  | .call .., h => (Bool.false_ne_true h).elim
  | .instruction span name arguments, h => by
    unfold isMovable at h
    rw [Bool.and_eq_true] at h
    have heval : (instruction span name arguments).eval calls μ =
        evalAll calls arguments μ >>= fun r => Run.instruction name r.1 r.2 := rfl
    rw [heval, evalAll_of_allMovable calls μ arguments h.2, pure_bind]
    unfold Run.instruction
    rw [if_pos h.1]
    rfl

theorem evalAll_of_allMovable (calls : Calls m) (μ : Memory m) :
    (es : List Expr) → allMovable es = true → evalAll calls es μ = pure (allValues μ es, μ)
  | [], _ => rfl
  | e :: es, h => by
    unfold allMovable at h
    rw [Bool.and_eq_true] at h
    have heval : evalAll calls (e :: es) μ = evalAll calls es μ >>= fun r =>
        e.eval calls r.2 >>= fun q => Run.one q.1 q.2 >>= fun v => pure (v.1 :: r.1, v.2) := rfl
    rw [heval, evalAll_of_allMovable calls μ es h.2, pure_bind, eval_of_isMovable calls μ e h.1]
    rfl

end

mutual

theorem value_congr {c : Context} {μ ν : Memory m} (h : ∀ x, c.Readable x → μ.read x = ν.read x) :
    (e : Expr) → {n : Nat} → e.Yields c n → e.value μ = e.value ν
  | .literal _, _, _ => rfl
  | .identifier i, _, hy => h i.name hy.1
  | .call .., _, _ => rfl
  | .instruction _ _ arguments, _, hy => congrArg _ (allValues_congr h arguments hy.2)

theorem allValues_congr {c : Context} {μ ν : Memory m}
    (h : ∀ x, c.Readable x → μ.read x = ν.read x) :
    (es : List Expr) → AllSingle c es → allValues μ es = allValues ν es
  | [], _ => rfl
  | e :: es, hy => by
    unfold allValues
    rw [value_congr h e hy.1, allValues_congr h es hy.2]

end

end Expr
end Splice
