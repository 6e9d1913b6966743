import Splice.Proofs.Disambiguate.Main
import Splice.Proofs.Pass.Yields

/-!
This module contains the proof that disambiguation keeps a program legible.
-/

namespace Splice

namespace Disambiguation

def AllBindable (s : State) : Prop :=
  ∀ scope ∈ s.scopes, ∀ r ∈ scope, Bindable r.2

theorem allBindable_record {s : State} (hs : AllBindable s) (before : String) {after : String}
    (h : Bindable after) : AllBindable (s.record before after) := by
  unfold State.record
  split
  . exact hs
  . next scope outer heq =>
    rw [AllBindable, heq, List.forall_mem_cons] at hs
    exact List.forall_mem_cons.2 ⟨List.forall_mem_cons.2 ⟨h, hs.1⟩, hs.2⟩

theorem yields_bind {name : String} (h : Bindable name) :
    Yields AllBindable (bind name) Bindable := by
  intro s x s' hs hrun
  unfold bind State.bind at hrun
  rw [modifyGet_eq_ok] at hrun
  obtain ⟨rfl, rfl⟩ := hrun
  dsimp only
  split
  . have hfresh := s.supply.bindable_fresh h.isIdentifier (.inl h)
    refine ⟨hfresh, allBindable_record ?_ name hfresh⟩
    exact hs
  . refine ⟨h, allBindable_record ?_ name h⟩
    exact hs

theorem yields_bindAll {d : Dialect} (xs : List Binder) (hxs : ∀ x ∈ xs, x.Legible d) :
    Yields AllBindable (bindAll xs) fun ys =>
      ys.length = xs.length ∧ ∀ y ∈ ys, y.Legible d := by
  induction xs with
  | nil => exact .pure ⟨rfl, List.forall_mem_nil _⟩
  | cons x xs ih =>
    rw [List.forall_mem_cons] at hxs
    refine (yields_bind hxs.1.1).bind fun name hname => (ih hxs.2).bind fun ys hys => .pure ?_
    exact ⟨congrArg (· + 1) hys.1, List.forall_mem_cons.2 ⟨⟨hname, hxs.1.2⟩, hys.2⟩⟩

theorem yields_use (external : List String) (i : Identifier) :
    Yields AllBindable (use external i) fun j => j.name = i.name ∨ Bindable j.name := by
  intro s j s' hs hrun
  unfold use at hrun
  simp only [bind_eq_ok, get_eq_ok] at hrun
  obtain ⟨_, _, ⟨rfl, rfl⟩, hrun⟩ := hrun
  cases hlookup : s.lookup i.name with
  | some name =>
    rw [hlookup, pure_eq_ok] at hrun
    obtain ⟨rfl, rfl⟩ := hrun
    obtain ⟨scope, hscope, hname⟩ := List.exists_of_findSome?_eq_some hlookup
    exact ⟨.inr (snd_of_lookup (hs scope hscope) hname), hs⟩
  | none =>
    rw [hlookup, ite_eq_ok, pure_eq_ok] at hrun
    obtain ⟨_, rfl, rfl⟩ := hrun
    exact ⟨.inl rfl, hs⟩

theorem yields_bindFunctions {d : Dialect} (ss : List Stmt) (hss : Stmt.AllLegible d ss) :
    Yields AllBindable (bindFunctions ss) fun _ => True := by
  induction ss with
  | nil => exact .pure trivial
  | cons s ss ih =>
    cases s with
    | function f =>
      obtain ⟨f, body⟩ := f
      exact (yields_bind hss.1.1.name).bind fun _ _ => ih hss.2
    | _ => exact ih hss.2

theorem yields_functionName {name : String} (h : Bindable name) :
    Yields AllBindable (functionName name) Bindable := by
  intro s x s' hs hrun
  unfold functionName at hrun
  simp only [bind_eq_ok, get_eq_ok] at hrun
  obtain ⟨_, _, ⟨rfl, rfl⟩, hrun⟩ := hrun
  cases hlookup : s.lookupHere name with
  | some name' =>
    rw [hlookup, pure_eq_ok] at hrun
    obtain ⟨rfl, rfl⟩ := hrun
    obtain ⟨scope, hscope, hname⟩ := Option.bind_eq_some_iff.1 hlookup
    exact ⟨snd_of_lookup (hs scope (List.mem_of_head? hscope)) hname, hs⟩
  | none =>
    rw [hlookup] at hrun
    exact yields_bind h s x s' hs hrun

theorem yields_enter : Yields AllBindable (modify State.enter : Pass PUnit) fun _ => True :=
  .of_modify fun _ hs => List.forall_mem_cons.2 ⟨List.forall_mem_nil _, hs⟩

theorem yields_leave : Yields AllBindable (modify State.leave : Pass PUnit) fun _ => True :=
  .of_modify fun _ hs scope hscope => hs scope (List.mem_of_mem_tail hscope)

theorem yields_enterFunction {d : Dialect} (f : Signature) (hf : f.Legible d) :
    Yields AllBindable (enterFunction f) (Signature.Legible d) := by
  unfold enterFunction
  refine (yields_functionName hf.name).bind fun name hname => yields_enter.bind fun _ _ => ?_
  refine (yields_bindAll _ hf.parameters).bind fun parameters hparameters => ?_
  refine (yields_bindAll _ hf.returns).bind fun returns hreturns => .pure ?_
  exact ⟨hname, hparameters.2, hreturns.2⟩

theorem keepsLegible (d : Dialect) (external : List String) :
    (traversal external).KeepsLegible d AllBindable where
  use := yields_use external
  vars := yields_bindAll
  enterFunction := yields_enterFunction
  leaveFunction := yields_leave
  enterBlock ss hss := yields_enter.bind fun _ _ => yields_bindFunctions ss hss
  leaveBlock := yields_leave
  stackForm _ _ := .throw

end Disambiguation

theorem Block.Legible.disambiguate {d : Dialect} {info : Info} {b b' : Block} (hb : b.Legible d)
    (h : Splice.disambiguate info b = .ok b') : b'.Legible d := by
  obtain ⟨s, hrun⟩ := disambiguate_eq_ok h
  have hinitial : Disambiguation.AllBindable (.initial info b) := List.forall_mem_nil _
  exact ((Disambiguation.keepsLegible d info.external).block b hb _ b' s hinitial hrun).1

end Splice
