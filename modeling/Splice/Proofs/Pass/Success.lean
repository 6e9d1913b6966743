import Splice.Pass.Failure

/-!
This module contains what is known of a computation that may fail, and of the parts of one that
changes a state as well, where it did not fail.
-/

namespace Splice

variable {ε σ α β : Type} {s s' : σ}

/-! ## Results -/

theorem exists_of_isOk {x : Except ε α} (h : x.isOk = true) : ∃ a, x = .ok a := by
  cases x with
  | error e => contradiction
  | ok a => exact ⟨a, rfl⟩

theorem exists_of_any {x : Except ε α} {p : α → Bool} (h : x.toOption.any p = true) :
    ∃ a, x = .ok a ∧ p a = true := by
  cases x with
  | error e => contradiction
  | ok a => exact ⟨a, rfl, h⟩

/-! ## Parts of a computation -/

theorem bind_eq_ok {x : EStateM ε σ α} {f : α → EStateM ε σ β} {b : β} :
    (x >>= f) s = .ok b s' ↔ ∃ a mid, x s = .ok a mid ∧ f a mid = .ok b s' := by
  change EStateM.bind x f s = _ ↔ _
  unfold EStateM.bind
  cases hx : x s with
  | ok a mid =>
    constructor
    . exact fun h => ⟨a, mid, rfl, h⟩
    . rintro ⟨_, _, heq, h⟩
      cases heq
      exact h
  | error e mid => simp

theorem pure_eq_ok {a b : α} : (pure a : EStateM ε σ α) s = .ok b s' ↔ a = b ∧ s = s' := by
  change EStateM.Result.ok a s = _ ↔ _
  rw [EStateM.Result.ok.injEq]

theorem throw_ne_ok {e : ε} {a : α} : (throw e : EStateM ε σ α) s ≠ .ok a s' := by
  intro h
  cases h

theorem get_eq_ok {a : σ} : (get : EStateM ε σ σ) s = .ok a s' ↔ s = a ∧ s = s' := by
  change EStateM.Result.ok s s = _ ↔ _
  rw [EStateM.Result.ok.injEq]

theorem set_eq_ok {t : σ} {a : PUnit} : (set t : EStateM ε σ PUnit) s = .ok a s' ↔ t = s' := by
  change EStateM.Result.ok PUnit.unit t = _ ↔ _
  rw [EStateM.Result.ok.injEq]
  exact and_iff_right rfl

theorem modify_eq_ok {f : σ → σ} {a : PUnit} :
    (modify f : EStateM ε σ PUnit) s = .ok a s' ↔ f s = s' := by
  change EStateM.Result.ok PUnit.unit (f s) = _ ↔ _
  rw [EStateM.Result.ok.injEq]
  exact and_iff_right rfl

theorem modifyGet_eq_ok {f : σ → α × σ} {a : α} :
    (modifyGet f : EStateM ε σ α) s = .ok a s' ↔ (f s).1 = a ∧ (f s).2 = s' := by
  change EStateM.Result.ok (f s).1 (f s).2 = _ ↔ _
  rw [EStateM.Result.ok.injEq]

theorem ite_eq_ok {c : Prop} [Decidable c] {x : EStateM ε σ α} {e : ε} {a : α} :
    (if c then x else throw e) s = .ok a s' ↔ c ∧ x s = .ok a s' := by
  split
  . next h => exact ⟨fun hx => ⟨h, hx⟩, And.right⟩
  . next h => exact ⟨fun hx => (throw_ne_ok hx).elim, fun hx => (h hx.1).elim⟩

end Splice
