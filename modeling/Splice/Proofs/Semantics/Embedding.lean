import Splice.Proofs.Analysis.Contexts
import Splice.Proofs.Semantics.Matching

/-!
This module contains how the memories of two runs go together, and what of this the steps of the
runs keep: the variables that are visible in the one run have other names in the other one, which
may have further variables.
-/

namespace Splice

variable {m : Machine} {side : Side}

/--
Where the variables of one run are found in another one. The host is the same for both and stays as
it is.
-/
structure Embedding (m : Machine) where
  name : String → String
  host : String → m.Value
  /--
  The variables of the other run that are none of those of the first one, and what they are.
  -/
  kept : String → Prop
  origin : Locals m

namespace Embedding

def plain (host : String → m.Value) : Embedding m := ⟨fun x => x, host, fun _ => False, fun _ => none⟩

/--
What is visible in the first run goes by its name in the other one, and has the same value there.
-/
structure Sees (l : Embedding m) (c : Context) (μ ν : Memory m) : Prop where
  world : μ.world = ν.world
  host : μ.world.host = l.host
  vars : ∀ x ∈ c.vars, ∃ v, μ.locals x = some v ∧ ν.locals (l.name x) = some v
  external : ∀ x ∈ c.external, μ.locals x = none ∧ ν.locals x = none
  kept : ∀ x, l.kept x → ν.locals x = l.origin x

/--
The names `inner` can be declared without a clash, the host cannot be changed, and there are no
stack forms.
-/
structure Allows (l : Embedding m) (c : Context) (inner : List String) : Prop where
  injective : ∀ x ∈ inner, ∀ y ∈ inner, l.name x = l.name y → x = y
  host : ∀ x ∈ c.external, l.name x = x
  foreign : ∀ x ∈ inner, x ∉ c.external ∧ l.name x ∉ c.external
  free : ∀ x ∈ inner, ¬ l.kept (l.name x)
  vars : c.vars ⊆ inner
  assignable : c.assignable = []
  stackForms : c.stackForms = false

namespace Allows

variable {l : Embedding m} {c : Context} {inner : List String}

theorem declare (h : l.Allows c inner) {xs : List Binder} (hxs : xs.map Binder.name ⊆ inner) :
    l.Allows (c.declare xs) inner := by
  have hvars : (c.declare xs).vars ⊆ inner := by
    intro x hx
    rw [c.mem_vars_declare] at hx
    exact hx.elim (hxs ·) (h.vars ·)
  rw [c.declare_eq] at hvars ⊢
  exact ⟨h.injective, h.host, h.foreign, h.free, hvars, h.assignable, h.stackForms⟩

theorem enter (h : l.Allows c inner) (ss : List Stmt) : l.Allows (c.enter ss) inner := by
  rw [c.enter_eq]
  exact ⟨h.injective, h.host, h.foreign, h.free, h.vars, h.assignable, h.stackForms⟩

end Allows

namespace Sees

variable {l : Embedding m} {c c' : Context} {inner : List String} {μ ν : Memory m}

theorem congr (h : l.Sees c μ ν) (hvars : c'.vars ⊆ c.vars) (hexternal : c'.external = c.external) :
    l.Sees c' μ ν :=
  ⟨h.world, h.host, fun x hx => h.vars x (hvars hx), hexternal ▸ h.external, h.kept⟩

theorem read (h : l.Sees c μ ν) (hhost : ∀ x ∈ c.external, l.name x = x) {x : String}
    (hx : c.Readable x) : μ.read x = ν.read (l.name x) := by
  unfold Memory.read
  rcases hx with hx | hx
  . obtain ⟨v, hv, hv'⟩ := h.vars x hx
    rw [hv, hv']
    rfl
  . obtain ⟨hv, hv'⟩ := h.external x hx
    rw [hhost x hx, hv, hv', h.world]

theorem declare (h : l.Sees c μ ν) (ha : l.Allows c inner) {x : String} (hx : x ∈ inner)
    (v : m.Value) : l.Sees (c.addVariable x) (μ.declare x v) (ν.declare (l.name x) v) := by
  refine ⟨h.world, h.host, ?_, ?_, ?_⟩
  . intro y hy
    by_cases hxy : y = x
    . exact ⟨v, if_pos hxy, if_pos (congrArg l.name hxy)⟩
    . have hy := (List.mem_cons.1 hy).resolve_left hxy
      obtain ⟨w, hw, hw'⟩ := h.vars y hy
      refine ⟨w, (if_neg hxy).trans hw, (if_neg ?_).trans hw'⟩
      exact fun heq => hxy (ha.injective y (ha.vars hy) x hx heq)
  . intro y hy
    obtain ⟨hw, hw'⟩ := h.external y hy
    refine ⟨(if_neg ?_).trans hw, (if_neg ?_).trans hw'⟩
    . rintro rfl
      exact (ha.foreign y hx).1 hy
    . rintro rfl
      exact (ha.foreign x hx).2 hy
  . intro y hy
    refine (if_neg ?_).trans (h.kept y hy)
    rintro rfl
    exact ha.free x hx hy

theorem declare_left (h : l.Sees c μ ν) {x : String} (hx : x ∉ c.external) {v : m.Value}
    (hv : ν.locals (l.name x) = some v) : l.Sees (c.addVariable x) (μ.declare x v) ν := by
  refine ⟨h.world, h.host, ?_, ?_, h.kept⟩
  . intro y hy
    by_cases hxy : y = x
    . refine ⟨v, if_pos hxy, ?_⟩
      rw [hxy, hv]
    . obtain ⟨w, hw, hw'⟩ := h.vars y ((List.mem_cons.1 hy).resolve_left hxy)
      exact ⟨w, (if_neg hxy).trans hw, hw'⟩
  . intro y hy
    obtain ⟨hw, hw'⟩ := h.external y hy
    refine ⟨(if_neg ?_).trans hw, hw'⟩
    rintro rfl
    exact hx hy

theorem assign (h : l.Sees c μ ν) (ha : l.Allows c inner) {x : String} (hx : x ∈ c.vars)
    (v : m.Value) : l.Sees c (μ.assign x v) (ν.assign (l.name x) v) := by
  obtain ⟨w, hw, hw'⟩ := h.vars x hx
  have hdeclared := h.declare ha (ha.vars hx) v
  unfold Memory.assign
  rw [hw, hw']
  exact hdeclared.congr (List.subset_cons_self x c.vars) rfl

theorem leave (h : l.Sees c μ ν) {μ₁ ν₁ : Memory m} (h₁ : l.Sees c' μ₁ ν₁)
    (hvars : c.vars ⊆ c'.vars) : l.Sees c (μ₁.leave μ.locals) (ν₁.leave ν.locals) := by
  refine ⟨h₁.world, h₁.host, ?_, ?_, ?_⟩
  . intro x hx
    obtain ⟨v, hv, hv'⟩ := h.vars x hx
    obtain ⟨w, hw, hw'⟩ := h₁.vars x (hvars hx)
    refine ⟨w, (if_pos ?_).trans hw, (if_pos ?_).trans hw'⟩
    . rw [hv]
      rfl
    . rw [hv']
      rfl
  . intro x hx
    obtain ⟨hv, hv'⟩ := h.external x hx
    refine ⟨if_neg ?_, if_neg ?_⟩
    . rw [hv]
      exact Bool.false_ne_true
    . rw [hv']
      exact Bool.false_ne_true
  . intro x hx
    change (if (ν.locals x).isSome then ν₁.locals x else none) = l.origin x
    rw [h₁.kept x hx, ← h.kept x hx]
    cases ν.locals x <;> rfl

end Sees
end Embedding

/-! ## Expressions -/

/--
The variables of the first run have not changed. In the other one, at most those of the given names
have. The host is the same for both, and stays as it is.
-/
structure Keeps (host : String → m.Value) (names : List String) (μ ν μ₁ ν₁ : Memory m) : Prop where
  world : μ₁.world = ν₁.world
  host : μ₁.world.host = host
  locals : μ₁.locals = μ.locals
  others : ∀ x, x ∉ names → ν₁.locals x = ν.locals x

namespace Keeps

variable {host : String → m.Value} {names names' : List String} {μ ν μ₁ ν₁ μ₂ ν₂ : Memory m}

theorem refl (hworld : μ.world = ν.world) (hhost : μ.world.host = host) :
    Keeps host [] μ ν μ ν :=
  ⟨hworld, hhost, rfl, fun _ _ => rfl⟩

theorem trans (h : Keeps host names μ ν μ₁ ν₁) (h' : Keeps host names' μ₁ ν₁ μ₂ ν₂) :
    Keeps host (names ++ names') μ ν μ₂ ν₂ where
  world := h'.world
  host := h'.host
  locals := h'.locals.trans h.locals
  others x hx := by
    rw [List.mem_append, not_or] at hx
    exact (h'.others x hx.2).trans (h.others x hx.1)

theorem subset (h : Keeps host names μ ν μ₁ ν₁) (hsub : names ⊆ names') :
    Keeps host names' μ ν μ₁ ν₁ :=
  ⟨h.world, h.host, h.locals, fun x hx => h.others x fun hmem => hx (hsub hmem)⟩

theorem sees {l : Embedding m} {c : Context} (h : Keeps l.host names μ ν μ₁ ν₁) (hsees : l.Sees c μ ν)
    (hvars : ∀ x ∈ c.vars, l.name x ∉ names) (hexternal : ∀ x ∈ c.external, x ∉ names)
    (hkept : ∀ x, l.kept x → x ∉ names) : l.Sees c μ₁ ν₁ := by
  refine ⟨h.world, h.host, ?_, ?_, ?_⟩
  . intro x hx
    rw [h.locals, h.others _ (hvars x hx)]
    exact hsees.vars x hx
  . intro x hx
    rw [h.locals, h.others x (hexternal x hx)]
    exact hsees.external x hx
  . intro x hx
    rw [h.others x (hkept x hx)]
    exact hsees.kept x hx

theorem sees_nil {l : Embedding m} {c : Context} (h : Keeps l.host [] μ ν μ₁ ν₁)
    (hsees : l.Sees c μ ν) : l.Sees c μ₁ ν₁ :=
  h.sees hsees (fun _ _ => List.not_mem_nil) (fun _ _ => List.not_mem_nil)
    fun _ _ => List.not_mem_nil

theorem sees_plain {c : Context} (h : Keeps host names μ ν μ₁ ν₁)
    (hsees : (Embedding.plain host).Sees c μ ν) (hnew : ∀ x ∈ names, ¬ c.Readable x) :
    (Embedding.plain host).Sees c μ₁ ν₁ :=
  Keeps.sees h hsees (fun x hx hmem => hnew x hmem (.inl hx))
    (fun x hx hmem => hnew x hmem (.inr hx)) fun _ => False.elim

end Keeps

def Evaluated {α : Type} (host : String → m.Value) (names : List String) (μ ν : Memory m) (a : α)
    (μ₁ : Memory m) (b : α) (ν₁ : Memory m) : Prop :=
  a = b ∧ Keeps host names μ ν μ₁ ν₁

theorem Agree.evaluated_bind {α β : Type} {host : String → m.Value} {names names' : List String}
    {x y : Run m α} {f g : α → Run m β} {μ₀ ν₀ μ ν : Memory m}
    (h : Agree side (Evaluated host names μ₀ ν₀) x μ y ν)
    (hfg : ∀ a μ₁ ν₁, Keeps host names μ₀ ν₀ μ₁ ν₁ →
      Agree side (Evaluated host names' μ₁ ν₁) (f a) μ₁ (g a) ν₁) :
    Agree side (Evaluated host (names ++ names') μ₀ ν₀) (x >>= f) μ (y >>= g) ν := by
  refine h.bind ?_
  rintro a μ₁ _ ν₁ ⟨rfl, hkeeps⟩
  exact (hfg a μ₁ ν₁ hkeeps).imp fun _ _ _ _ hresult => ⟨hresult.1, hkeeps.trans hresult.2⟩

def Related (side : Side) (host : String → m.Value) (heads : List Head)
    (calls calls' : Calls m) : Prop :=
  ∀ f ∈ heads, ∀ arguments world, world.host = host →
    Matches side (fun a b => a = b ∧ a.2.host = host) (calls f.name arguments world)
      (calls' f.name arguments world)

namespace Agree

variable {host : String → m.Value} {μ ν : Memory m}

theorem one {vs : List m.Value} (hworld : μ.world = ν.world) (hhost : μ.world.host = host) :
    Agree side (Evaluated host [] μ ν) (Run.one vs) μ (Run.one vs) ν := by
  match vs with
  | [] => exact .stuck
  | [v] => exact .done ⟨rfl, .refl hworld hhost⟩
  | _ :: _ :: _ => exact .stuck

theorem instruction {name : String} {arguments : List m.Value} (hworld : μ.world = ν.world)
    (hhost : μ.world.host = host) :
    Agree side (Evaluated host [] μ ν) (Run.instruction name arguments) μ
      (Run.instruction name arguments) ν := by
  unfold Agree Run.instruction
  rw [hworld] at hhost ⊢
  split
  . exact .done ⟨rfl, .refl hworld (hworld ▸ hhost)⟩
  . dsimp only
    split
    . exact .done ⟨rfl, rfl, hhost, rfl, fun _ _ => rfl⟩
    . exact .halted _

theorem call {heads : List Head} {calls calls' : Calls m} (h : Related side host heads calls calls')
    {f : Head} (hf : f ∈ heads) {arguments : List m.Value} (hworld : μ.world = ν.world)
    (hhost : μ.world.host = host) :
    Agree side (Evaluated host [] μ ν) (Run.call calls f.name arguments) μ
      (Run.call calls' f.name arguments) ν := by
  unfold Agree Run.call
  rw [hworld] at hhost ⊢
  refine (h f hf arguments ν.world hhost).bind ?_
  rintro ⟨vs, world⟩ _ ⟨rfl, hhost⟩
  exact .done ⟨rfl, rfl, hhost, rfl, fun _ _ => rfl⟩

end Agree

/-! ## Statements -/

namespace Agree

variable {l : Embedding m} {c : Context} {inner : List String} {μ ν : Memory m}

theorem declareAll (ha : l.Allows c inner) {xs xs' : List Binder}
    (hxs' : xs'.map Binder.name = xs.map fun x => l.name x.name)
    (hxs : xs.map Binder.name ⊆ inner) {vs : List m.Value} (h : l.Sees c μ ν) :
    Agree side (fun _ μ₁ _ ν₁ => l.Sees (c.declare xs) μ₁ ν₁) (Run.declareAll xs vs) μ
      (Run.declareAll xs' vs) ν := by
  induction xs generalizing xs' vs c μ ν with
  | nil =>
    obtain rfl := List.map_eq_nil_iff.1 hxs'
    cases vs with
    | nil => exact .done h
    | cons v vs => exact .stuck
  | cons x xs ih =>
    cases xs' with
    | nil => cases hxs'
    | cons x' xs' =>
      rw [List.map_cons, List.map_cons, List.cons.injEq] at hxs'
      rw [List.map_cons, List.cons_subset] at hxs
      cases vs with
      | nil => exact .stuck
      | cons v vs =>
        have hnext := h.declare ha hxs.1 v
        rw [← hxs'.1] at hnext
        have hfirst : [x].map Binder.name ⊆ inner :=
          List.cons_subset.2 ⟨hxs.1, List.nil_subset _⟩
        exact ih (ha.declare hfirst) hxs'.2 hxs.2 hnext

theorem assignAll (ha : l.Allows c inner) {is is' : List Identifier}
    (his' : is'.map Identifier.name = is.map fun i => l.name i.name)
    (his : ∀ i ∈ is, i.name ∈ c.vars) {vs : List m.Value} (h : l.Sees c μ ν) :
    Agree side (fun _ μ₁ _ ν₁ => l.Sees c μ₁ ν₁) (Run.assignAll is vs) μ
      (Run.assignAll is' vs) ν := by
  induction is generalizing is' vs μ ν with
  | nil =>
    obtain rfl := List.map_eq_nil_iff.1 his'
    cases vs with
    | nil => exact .done h
    | cons v vs => exact .stuck
  | cons i is ih =>
    cases is' with
    | nil => cases his'
    | cons i' is' =>
      rw [List.map_cons, List.map_cons, List.cons.injEq] at his'
      rw [List.forall_mem_cons] at his
      cases vs with
      | nil => exact .stuck
      | cons v vs =>
        have hnext := h.assign ha his.1 v
        rw [← his'.1] at hnext
        exact ih his'.2 his.2 hnext

theorem nothing {vs : List m.Value} (h : l.Sees c μ ν) :
    Agree side (fun _ μ₁ _ ν₁ => l.Sees c μ₁ ν₁) (Run.nothing vs) μ (Run.nothing vs) ν := by
  cases vs with
  | nil => exact .done h
  | cons v vs => exact .stuck

theorem inScope {c' : Context} {body body' : Run m Unit} (h : l.Sees c μ ν)
    (hbody : Agree side (fun _ μ₁ _ ν₁ => l.Sees c' μ₁ ν₁) body μ body' ν)
    (hvars : c.vars ⊆ c'.vars) :
    Agree side (fun _ μ₁ _ ν₁ => l.Sees c μ₁ ν₁) (Run.inScope body) μ (Run.inScope body') ν := by
  change Matches side _ (body μ >>= fun a => pure ((), a.2.leave μ.locals))
    (body' ν >>= fun b => pure ((), b.2.leave ν.locals))
  exact Matches.bind hbody fun _ _ h₁ => .done (h.leave h₁ hvars)

end Agree
end Splice
