import Splice.Proofs.Semantics.Embedding

/-!
This module contains how the computation of values is compared with one that was taken apart:
statements that do part of it, and a run that does the rest behind them.
-/

namespace Splice

variable {m : Machine} {side : Side}

theorem Stmt.execAll_append (bound : Nat) (calls : Calls m) (ss ts : List Stmt) (μ : Memory m) :
    Stmt.execAll bound calls (ss ++ ts) μ =
      Stmt.execAll bound calls ss μ >>= fun r => Stmt.execAll bound calls ts r.2 := by
  induction ss generalizing μ with
  | nil => rfl
  | cons s ss ih =>
    change (s.exec bound calls μ >>= fun r => Stmt.execAll bound calls (ss ++ ts) r.2) =
      (s.exec bound calls μ >>= fun r => Stmt.execAll bound calls ss r.2) >>= _
    simp only [ih, bind_assoc]

theorem Agree.append {α β : Type} {bound : Nat} {calls : Calls m} {ss ts : List Stmt}
    {R : α → Memory m → Unit → Memory m → Prop} {S : β → Memory m → Unit → Memory m → Prop}
    {x : Run m α} {μ ν : Memory m} (h : Agree side R x μ (Stmt.execAll bound calls ss) ν)
    {f : α → Run m β} (hf : ∀ a μ₁ ν₁, R a μ₁ () ν₁ →
      Agree side S (f a) μ₁ (Stmt.execAll bound calls ts) ν₁) :
    Agree side S (x >>= f) μ (Stmt.execAll bound calls (ss ++ ts)) ν := by
  unfold Agree
  rw [Stmt.execAll_append]
  exact Matches.bind h fun a b hR => hf a.1 a.2 b.2 hR

theorem Expr.evalAll_cons (calls : Calls m) (e : Expr) (es : List Expr) :
    Expr.evalAll calls (e :: es) = do
      let vs ← Expr.evalAll calls es
      let v ← e.evalOne calls
      return v :: vs := by
  unfold Expr.evalOne
  simp only [bind_assoc]
  rfl

structure Leaves (host : String → m.Value) (names : List String) (ν ν₁ : Memory m) : Prop where
  host : ν₁.world.host = host
  others : ∀ x, x ∉ names → ν₁.locals x = ν.locals x

namespace Leaves

variable {host : String → m.Value} {names names' : List String} {ν ν₁ ν₂ : Memory m}

theorem trans (h : Leaves host names ν ν₁) (h' : Leaves host names' ν₁ ν₂) :
    Leaves host (names ++ names') ν ν₂ where
  host := h'.host
  others x hx := by
    rw [List.mem_append, not_or] at hx
    exact (h'.others x hx.2).trans (h.others x hx.1)

theorem read (h : Leaves host names ν ν₁) (hhost : ν.world.host = host) {x : String}
    (hx : x ∉ names) : ν.read x = ν₁.read x := by
  unfold Memory.read
  rw [h.others x hx, h.host, hhost]

end Leaves

theorem Keeps.leaves {host : String → m.Value} {names : List String} {μ ν μ₁ ν₁ : Memory m}
    (h : Keeps host names μ ν μ₁ ν₁) : Leaves host names ν ν₁ :=
  ⟨h.world ▸ h.host, h.others⟩

/--
What `x` computes is computed by `y` behind the statements. On the way, at most the variables of the
given names change.
-/
def Stages {α : Type} (side : Side) (host : String → m.Value) (bound : Nat) (calls : Calls m)
    (names : List String) (x : Run m α) (μ ν : Memory m) (ss : List Stmt) (y : Run m α) : Prop :=
  Reaches side (x μ)
    (fun r => Leaves host names ν r.2 ∧ Agree side (Evaluated host names μ ν) x μ y r.2)
    (Stmt.execAll bound calls ss ν)

namespace Stages

variable {α β : Type} {host : String → m.Value} {bound : Nat} {calls : Calls m}
variable {names names' : List String} {x y : Run m α} {μ ν : Memory m} {ss ts : List Stmt}

theorem nil (h : Agree side (Evaluated host [] μ ν) x μ y ν) (hhost : ν.world.host = host) :
    Stages side host bound calls [] x μ ν [] y :=
  .done ⟨⟨hhost, fun _ _ => rfl⟩, h⟩

theorem agree (h : Stages side host bound calls names x μ ν ss y) :
    Agree side (Evaluated host names μ ν) x μ (do Stmt.execAll bound calls ss; y) ν :=
  Reaches.matches_bind (h.imp fun _ => And.right)

theorem congr (h : Stages side host bound calls names x μ ν ss y) {z : Run m α}
    (hz : ∀ ν₁, Leaves host names ν ν₁ → y ν₁ = z ν₁) :
    Stages side host bound calls names x μ ν ss z := by
  refine Reaches.imp h ?_
  rintro r ⟨hleaves, hagree⟩
  refine ⟨hleaves, ?_⟩
  unfold Agree at hagree ⊢
  rwa [← hz r.2 hleaves]

theorem bind (h : Stages side host bound calls names x μ ν ss y) {f g : α → Run m β}
    (hfg : ∀ a μ₁ ν₁, Keeps host names μ ν μ₁ ν₁ →
      Agree side (Evaluated host [] μ₁ ν₁) (f a) μ₁ (g a) ν₁) :
    Stages side host bound calls names (x >>= f) μ ν ss (y >>= g) := by
  refine (Reaches.bind_left h _).imp ?_
  rintro r ⟨hleaves, hagree⟩
  have hbind := hagree.evaluated_bind hfg
  rw [List.append_nil] at hbind
  exact ⟨hleaves, hbind⟩

/--
What `y` computes can as well be read from the memory behind the statements, so that further
statements may come before it.
-/
theorem append (h : Stages side host bound calls names x μ ν ss y) {value : Memory m → α}
    (hy : ∀ ν₁, y ν₁ = pure (value ν₁, ν₁)) {f : α → Run m β} {z : Run m β}
    (hf : ∀ μ₁ ν₁, Keeps host names μ ν μ₁ ν₁ →
      Stages side host bound calls names' (f (value ν₁)) μ₁ ν₁ ts z) :
    Stages side host bound calls (names ++ names') (x >>= f) μ ν (ss ++ ts) z := by
  unfold Stages
  rw [Stmt.execAll_append]
  refine (Reaches.bind_left h _).andThen ?_
  rintro ⟨_, ν₁⟩ ⟨hleaves, hagree⟩
  unfold Agree at hagree
  rw [hy] at hagree
  change Matches side _ (x μ) (some (.ok (value ν₁, ν₁))) at hagree
  -- The statements came to their end, so `x` has the value that is read behind them, or no outcome.
  generalize hx : x μ = r at hagree
  cases hagree with
  | missing h =>
    exact .missing h rfl
  | @done a _ heval =>
    obtain ⟨a, μ₁⟩ := a
    obtain ⟨rfl, hkeeps⟩ := heval
    have hbind : (x >>= f) μ = f (value ν₁) μ₁ := by
      change x μ >>= _ = _
      rw [hx]
      rfl
    unfold Agree
    rw [hbind]
    refine (hf μ₁ ν₁ hkeeps).imp ?_
    rintro r ⟨hleaves', hagree'⟩
    exact ⟨hleaves.trans hleaves', hagree'.imp fun _ _ _ _ h => ⟨h.1, hkeeps.trans h.2⟩⟩

end Stages
end Splice
