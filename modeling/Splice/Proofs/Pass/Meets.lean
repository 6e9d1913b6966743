import Splice.Pass.Failure

/-!
This module contains the specifications of computations that change a state and may fail, as the
passes are.
-/

namespace Splice

variable {ε σ α β : Type}

def Meets (x : EStateM ε σ α) (s : σ) (post : α → σ → Prop) (failed : ε → Prop) : Prop :=
  match x s with
  | .ok a s' => post a s'
  | .error e _ => failed e

namespace Meets

variable {x : EStateM ε σ α} {s : σ} {post : α → σ → Prop} {failed : ε → Prop}

theorem ok {a : α} {s' : σ} (h : Meets x s post failed) (hx : x s = .ok a s') : post a s' := by
  unfold Meets at h
  rwa [hx] at h

theorem error {e : ε} {s' : σ} (h : Meets x s post failed) (hx : x s = .error e s') :
    failed e := by
  unfold Meets at h
  rwa [hx] at h

theorem pure {a : α} (h : post a s) : Meets (Pure.pure a) s post failed := h

theorem throw {e : ε} (h : failed e) : Meets (throw e : EStateM ε σ α) s post failed := h

theorem bind {f : α → EStateM ε σ β} {post' : β → σ → Prop} (hx : Meets x s post failed)
    (hf : ∀ a s', post a s' → Meets (f a) s' post' failed) : Meets (x >>= f) s post' failed := by
  unfold Meets at hx ⊢
  change match EStateM.bind x f s with
    | .ok a s' => post' a s'
    | .error e _ => failed e
  unfold EStateM.bind
  split at hx
  . next a s' h =>
    rw [h]
    exact hf a s' hx
  . next e s' h =>
    rw [h]
    exact hx

theorem imp {post' : α → σ → Prop} {failed' : ε → Prop} (h : Meets x s post failed)
    (hp : ∀ a s', post a s' → post' a s') (hf : ∀ e, failed e → failed' e) :
    Meets x s post' failed' := by
  unfold Meets at h ⊢
  split at h
  . exact hp _ _ h
  . exact hf _ h

theorem throw_bind {e : ε} {f : α → EStateM ε σ β} {post : β → σ → Prop} (h : failed e) :
    Meets (MonadExcept.throw e >>= f) s post failed := h

theorem modify_bind {f : σ → σ} {g : PUnit → EStateM ε σ α} (h : Meets (g ⟨⟩) (f s) post failed) :
    Meets (modify f >>= g) s post failed := h

theorem modifyGet_bind {f : σ → β × σ} {g : β → EStateM ε σ α}
    (h : Meets (g (f s).1) (f s).2 post failed) : Meets (modifyGet f >>= g) s post failed := h

theorem get_bind {g : σ → EStateM ε σ α} (h : Meets (g s) s post failed) :
    Meets (get >>= g) s post failed := h

end Meets
end Splice
