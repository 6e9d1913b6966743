import Splice.Proofs.Semantics.Meaning

/-!
This module contains how two runs are compared. The comparison goes in one direction at a time: the
run that it starts from may be without an outcome, the other one may not. For each way of putting
runs together, there is a theorem that compares them by their parts.
-/

namespace Splice

inductive Side where
  | forward
  | backward

variable {m : Machine} {side : Side} {α β γ δ : Type}

/--
Unless the run that the comparison starts from has no outcome, both end in the same way, and if they
go on, `R` holds of what they come to.
-/
inductive Matches (side : Side) (R : α → β → Prop) : Result m α → Result m β → Prop where
  | missing {y : Result m β} (h : side = .forward) : Matches side R none y
  | missed {x : Result m α} (h : side = .backward) : Matches side R x none
  | halted (world : World m) : Matches side R (some (.error world)) (some (.error world))
  | done {a : α} {b : β} (h : R a b) : Matches side R (some (.ok a)) (some (.ok b))

namespace Matches

variable {R : α → β → Prop} {S : γ → δ → Prop} {x : Result m α} {y : Result m β}

theorem bind (h : Matches side R x y) {f : α → Result m γ} {g : β → Result m δ}
    (hfg : ∀ a b, R a b → Matches side S (f a) (g b)) : Matches side S (x >>= f) (y >>= g) := by
  cases h with
  | missing h => exact .missing h
  | missed h => exact .missed h
  | halted world => exact .halted world
  | done h => exact hfg _ _ h

theorem imp (h : Matches side R x y) {R' : α → β → Prop} (hR : ∀ a b, R a b → R' a b) :
    Matches side R' x y := by
  cases h with
  | missing h => exact .missing h
  | missed h => exact .missed h
  | halted world => exact .halted world
  | done h => exact .done (hR _ _ h)

end Matches

/--
Unless the run `x` has no outcome or the second one ends in the same way, `P` holds of what the
second run comes to. So far, it may have done any part of what `x` does.
-/
inductive Reaches (side : Side) (x : Result m α) (P : β → Prop) : Result m β → Prop where
  | missing {y : Result m β} (h : side = .forward) (hx : x = none) : Reaches side x P y
  | missed (h : side = .backward) : Reaches side x P none
  | halted {world : World m} (hx : x = some (.error world)) :
    Reaches side x P (some (.error world))
  | done {b : β} (h : P b) : Reaches side x P (some (.ok b))

namespace Reaches

variable {x : Result m α} {y : Result m β} {P : β → Prop} {Q : γ → Prop}

theorem imp (h : Reaches side x P y) {P' : β → Prop} (hP : ∀ b, P b → P' b) :
    Reaches side x P' y := by
  cases h with
  | missing h hx => exact .missing h hx
  | missed h => exact .missed h
  | halted hx => exact .halted hx
  | done h => exact .done (hP _ h)

theorem andThen (h : Reaches side x P y) {f : β → Result m γ}
    (hf : ∀ b, P b → Reaches side x Q (f b)) : Reaches side x Q (y >>= f) := by
  cases h with
  | missing h hx => exact .missing h hx
  | missed h => exact .missed h
  | halted hx => exact .halted hx
  | done h => exact hf _ h

theorem bind_left (h : Reaches side x P y) (f : α → Result m γ) : Reaches side (x >>= f) P y := by
  cases h with
  | missing h hx => exact .missing h (by rw [hx]; rfl)
  | missed h => exact .missed h
  | halted hx => exact .halted (by rw [hx]; rfl)
  | done h => exact .done h

theorem of_matches {R : α → β → Prop} (h : Matches side R x y)
    (hP : ∀ a b, x = some (.ok a) → R a b → P b) : Reaches side x P y := by
  cases h with
  | missing h => exact .missing h rfl
  | missed h => exact .missed h
  | halted world => exact .halted rfl
  | done h => exact .done (hP _ _ rfl h)

theorem matches_bind {R : α → γ → Prop} {f : β → Result m γ}
    (h : Reaches side x (fun b => Matches side R x (f b)) y) : Matches side R x (y >>= f) := by
  cases h with
  | missing h hx =>
    rw [hx]
    exact .missing h
  | missed h => exact .missed h
  | halted hx =>
    rw [hx]
    exact .halted _
  | done h => exact h

end Reaches

def Agree (side : Side) (R : α → Memory m → β → Memory m → Prop) (x : Run m α) (μ : Memory m)
    (y : Run m β) (ν : Memory m) : Prop :=
  Matches side (fun a b => R a.1 a.2 b.1 b.2) (x μ) (y ν)

namespace Agree

variable {R : α → Memory m → β → Memory m → Prop} {S : γ → Memory m → δ → Memory m → Prop}
variable {x : Run m α} {y : Run m β} {μ ν : Memory m}

theorem bind (h : Agree side R x μ y ν) {f : α → Run m γ} {g : β → Run m δ}
    (hfg : ∀ a μ₁ b ν₁, R a μ₁ b ν₁ → Agree side S (f a) μ₁ (g b) ν₁) :
    Agree side S (x >>= f) μ (y >>= g) ν :=
  Matches.bind h fun a b => hfg a.1 a.2 b.1 b.2

theorem done {a : α} {b : β} (h : R a μ b ν) : Agree side R (pure a) μ (pure b) ν :=
  Matches.done h

theorem imp (h : Agree side R x μ y ν) {R' : α → Memory m → β → Memory m → Prop}
    (hR : ∀ a μ₁ b ν₁, R a μ₁ b ν₁ → R' a μ₁ b ν₁) : Agree side R' x μ y ν :=
  Matches.imp h fun a b => hR a.1 a.2 b.1 b.2

theorem of_missing (hside : side = .forward) (hx : x μ = none) : Agree side R x μ y ν := by
  unfold Agree
  rw [hx]
  exact .missing hside

theorem map_left (h : Agree side R x μ y ν) {f : α → γ} {S : γ → Memory m → β → Memory m → Prop}
    (hS : ∀ a μ₁ b ν₁, R a μ₁ b ν₁ → S (f a) μ₁ b ν₁) :
    Agree side S (x >>= fun a => pure (f a)) μ y ν := by
  have hbind := h.bind (f := fun a => pure (f a)) (g := pure) (S := S)
    fun a μ₁ b ν₁ hR => .done (hS a μ₁ b ν₁ hR)
  rwa [bind_pure] at hbind

theorem stuck : Agree side R Run.stuck μ Run.stuck ν := by
  cases side with
  | forward => exact .missing rfl
  | backward => exact .missed rfl

theorem ite {p : Prop} [Decidable p] {x' : Run m α} {y' : Run m β}
    (h : p → Agree side R x μ y ν) (h' : ¬ p → Agree side R x' μ y' ν) :
    Agree side R (if p then x else x') μ (if p then y else y') ν := by
  split
  . exact h ‹p›
  . exact h' ‹¬ p›

end Agree

/-! ## Bounds -/

namespace Side

/--
The first bound goes with the second one: the run that the comparison starts from goes on no longer
than the other one.
-/
def Within : Side → Nat → Nat → Prop
  | .forward, n, n' => n ≤ n'
  | .backward, n, n' => n' ≤ n

/--
The depth of calls that a run in front of the pass needs for one behind it, where a call that was
replaced is not one any more. A level behind the pass may stand for two levels in front of it: the
call of a function, and a call from the body that replaced a call in that function.
-/
def Covers : Side → Nat → Nat → Prop
  | .forward, n, n' => n ≤ n'
  | .backward, n, n' => 2 * n' ≤ n

/--
The same with a level left for a call that was replaced.
-/
def Exceeds : Side → Nat → Nat → Prop
  | .forward, n, n' => n ≤ n'
  | .backward, n, n' => 2 * n' + 1 ≤ n

theorem Exceeds.covers {n n' : Nat} (h : side.Exceeds n n') : side.Covers n n' := by
  cases side with
  | forward => exact h
  | backward => exact Nat.le_of_succ_le h

theorem Exceeds.within {n n' : Nat} (h : side.Exceeds n n') : side.Within n n' := by
  cases side with
  | forward => exact h
  | backward =>
    change 2 * n' + 1 ≤ n at h
    change n' ≤ n
    omega

theorem Exceeds.unfold {n n' : Nat} (h : side.Exceeds (n + 1) n') : side.Covers n n' := by
  cases side with
  | forward => exact Nat.le_of_succ_le h
  | backward => exact Nat.le_of_succ_le_succ h

theorem Covers.call {n n' : Nat} (h : side.Covers (n + 1) (n' + 1)) : side.Exceeds n n' := by
  cases side with
  | forward => exact Nat.le_of_succ_le_succ h
  | backward =>
    change 2 * (n' + 1) ≤ n + 1 at h
    change 2 * n' + 1 ≤ n
    omega

end Side

theorem Agree.rounds {R : Memory m → Memory m → Prop} {condition condition' : Run m m.Value}
    {step step' : Run m Unit}
    (hcondition : ∀ μ ν, R μ ν →
      Agree side (fun v μ₁ v' ν₁ => v = v' ∧ R μ₁ ν₁) condition μ condition' ν)
    (hstep : ∀ μ ν, R μ ν → Agree side (fun _ μ₁ _ ν₁ => R μ₁ ν₁) step μ step' ν) {n n' : Nat}
    (hn : side.Within n n') {μ ν : Memory m} (h : R μ ν) :
    Agree side (fun _ μ₁ _ ν₁ => R μ₁ ν₁) (Run.rounds condition step n) μ
      (Run.rounds condition' step' n') ν := by
  -- On the rounds of the first run. The run that the comparison starts from has no more rounds than
  -- the other one.
  induction n generalizing n' μ ν with
  | zero =>
    cases side with
    | forward => exact .missing rfl
    | backward =>
      obtain rfl := Nat.le_zero.1 hn
      exact .missed rfl
  | succ n ih =>
    cases n' with
    | zero =>
      cases side with
      | forward => exact (Nat.not_succ_le_zero n hn).elim
      | backward => exact .missed rfl
    | succ n' =>
      have hn' : side.Within n n' := by
        cases side <;> exact Nat.le_of_succ_le_succ hn
      refine (hcondition μ ν h).bind ?_
      rintro v μ₁ _ ν₁ ⟨rfl, h₁⟩
      refine .ite (fun _ => .done h₁) fun _ => ?_
      exact (hstep μ₁ ν₁ h₁).bind fun _ _ _ _ h₂ => ih hn' h₂

end Splice
