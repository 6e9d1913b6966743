import Splice.Proofs.Inline.Places
import Splice.Proofs.Semantics.Embedding

/-!
This module contains what is known of the functions that are visible at a place, in front of the
pass that inlines and behind it: they do the same, and a call of one can be replaced by its body.
-/

namespace Splice
namespace Inlining

open Run

variable {m : Machine} {side : Side} {host : String → m.Value} {bound : Nat}

structure Site (p : Block) (external : List String) (c : Context) : Prop extends Place p c where
  host : c.external = external
  fixed : c.assignable = []

namespace Site

variable {p : Block} {external : List String} {c : Context}

theorem declare (h : Site p external c) {xs : List Binder}
    (hxs : xs.map Binder.name ⊆ p.boundNames) : Site p external (c.declare xs) := by
  refine ⟨h.toPlace.declare hxs, ?_, ?_⟩
  . rw [c.declare_eq]
    exact h.host
  . rw [c.declare_eq]
    exact h.fixed

theorem after (h : Site p external c) {ss : List Stmt}
    (hss : Stmt.allBoundNames ss ⊆ p.boundNames) : Site p external (c.after ss) := by
  refine ⟨h.toPlace.after hss, ?_, ?_⟩
  . rw [c.after_eq]
    exact h.host
  . rw [c.after_eq]
    exact h.fixed

theorem next (h : Site p external c) {x : Stmt} {xs : List Stmt}
    (hxs : Stmt.allBoundNames (x :: xs) ⊆ p.boundNames) : Site p external (c.after [x]) := by
  apply h.after
  rw [Stmt.allBoundNames_singleton]
  exact (List.append_subset.1 hxs).1

theorem enter (h : Site p external c) {ss : List Stmt} (hv : Stmt.AllValid (c.enter ss) ss)
    (hss : Stmt.allFunctions ss ⊆ p.functions) : Site p external (c.enter ss) := by
  refine ⟨h.toPlace.enter hv hss, ?_, ?_⟩
  . rw [c.enter_eq]
    exact h.host
  . rw [c.enter_eq]
    exact h.fixed

theorem enterFunction (h : Site p external c) {xs : List Binder}
    (hxs : xs.map Binder.name ⊆ p.boundNames) : Site p external (c.enterFunction xs) := by
  refine ⟨h.toPlace.enterFunction hxs, ?_, ?_⟩
  . unfold Context.enterFunction
    rw [Context.declare_eq]
    exact h.host
  . unfold Context.enterFunction
    rw [Context.declare_eq]
    exact h.fixed

end Site

/--
The functions that are visible do the same, and a call in front of the pass comes to what the body
of the function does with functions that are related as well.
-/
structure Linked (side : Side) (host : String → m.Value) (bound : Nat) (p : Block)
    (external : List String) (c : Context) (calls calls' : Calls m) : Prop where
  related : Related side host c.functions calls calls'
  unfolds : ∀ h ∈ c.functions, ∃ g ∈ p.functions, g.head = h ∧ ∃ c₁ inner,
    Site p external c₁ ∧ c₁.functions ⊆ c.functions ∧
    g.body.Valid (c₁.enterFunction (g.parameters ++ g.returns)) ∧
    Related side host c₁.functions inner calls' ∧
    ∀ arguments world, (side = .forward ∧ calls h.name arguments world = none) ∨
      calls h.name arguments world =
        invoke g.toSignature (g.body.exec bound inner) arguments world

namespace Linked

variable {p : Block} {external : List String} {c c' : Context} {calls calls' : Calls m}

theorem congr (h : Linked side host bound p external c calls calls')
    (hf : c'.functions = c.functions) : Linked side host bound p external c' calls calls' := by
  refine ⟨hf ▸ h.related, ?_⟩
  rw [hf]
  exact h.unfolds

theorem after (h : Linked side host bound p external c calls calls') (ss : List Stmt) :
    Linked side host bound p external (c.after ss) calls calls' :=
  h.congr (c.functions_after ss)

theorem enterFunction (h : Linked side host bound p external c calls calls') (xs : List Binder) :
    Linked side host bound p external (c.enterFunction xs) calls calls' :=
  h.congr (Context.functions_declare _ xs)

end Linked

/-! ## Blocks -/

def Answers (side : Side) (host : String → m.Value) (bound : Nat) (p : Block)
    (external : List String) (c : Context) : Calls.Closure m → Calls.Closure m → Prop := fun F F' =>
  F.1 = F'.1 ∧ ∀ calls calls', Linked side host bound p external c calls calls' →
    ∀ arguments world, world.host = host →
      Matches side (fun a b => a = b ∧ a.2.host = host) (F.2 calls arguments world)
        (F'.2 calls' arguments world)

section

variable {p : Block} {external : List String} {c : Context} {calls calls' : Calls m}
variable {ss : List Stmt} {closures' : List (Calls.Closure m)}

theorem lookup_closures {name : String} {F}
    (h : (Stmt.closures bound ss : List (Calls.Closure m)).lookup name = some F) :
    ∃ f body, .function ⟨f, body⟩ ∈ ss ∧ f.name = name ∧
      F = fun calls => invoke f (body.exec bound calls) := by
  induction ss with
  | nil => cases h
  | cons s ss ih =>
    have hrest : (Stmt.closures bound ss : List (Calls.Closure m)).lookup name = some F →
        ∃ f body, .function ⟨f, body⟩ ∈ s :: ss ∧ f.name = name ∧
          F = fun calls => invoke f (body.exec bound calls) := by
      intro h
      obtain ⟨f, body, hmem, hresult⟩ := ih h
      exact ⟨f, body, List.mem_cons_of_mem s hmem, hresult⟩
    cases s with
    | function f =>
      obtain ⟨f, body⟩ := f
      unfold Stmt.closures at h
      rw [List.lookup_cons] at h
      split at h
      . next heq =>
        cases h
        exact ⟨f, body, List.mem_cons_self, (beq_iff_eq.1 heq).symm, rfl⟩
      . exact hrest h
    | _ => exact hrest h

theorem lookup_closures_ne_none {f : Signature} {body : Block} (h : .function ⟨f, body⟩ ∈ ss) :
    (Stmt.closures bound ss : List (Calls.Closure m)).lookup f.name ≠ none := by
  induction ss with
  | nil => contradiction
  | cons s ss ih =>
    cases s with
    | function g =>
      obtain ⟨g, body'⟩ := g
      unfold Stmt.closures
      rw [List.lookup_cons]
      split
      . exact Option.some_ne_none _
      . next hne =>
        rcases List.mem_cons.1 h with heq | hmem
        . cases heq
          exact (Bool.false_ne_true (hne.symm.trans (beq_self_eq_true _))).elim
        . exact ih hmem
    | _ => exact ih ((List.mem_cons.1 h).resolve_left Stmt.noConfusion)

theorem lookup_of_mem_functions (h : c.CanEnter ss) {f : Head} (hf : f ∈ c.functions) :
    (Stmt.closures bound ss : List (Calls.Closure m)).lookup f.name = none := by
  cases hlookup : (Stmt.closures bound ss : List (Calls.Closure m)).lookup f.name with
  | none => rfl
  | some F =>
    obtain ⟨g, body, hg, hname, _⟩ := lookup_closures hlookup
    refine (Context.notMem_functions_of_canEnter h hg ?_).elim
    rw [hname]
    exact List.mem_map.2 ⟨f, hf, rfl⟩

theorem lookup_answers {closures : List (Calls.Closure m)}
    (h : List.Forall₂ (Answers side host bound p external c) closures closures') (name : String) :
    (closures.lookup name = none ∧ closures'.lookup name = none) ∨
    ∃ F F', closures.lookup name = some F ∧ closures'.lookup name = some F' ∧
      Answers side host bound p external c (name, F) (name, F') := by
  induction h with
  | nil => exact .inl ⟨rfl, rfl⟩
  | @cons F F' closures closures' hF _ ih =>
    rw [List.lookup_cons, List.lookup_cons, ← hF.1]
    split
    . exact .inr ⟨F.2, F'.2, rfl, rfl, rfl, hF.2⟩
    . exact ih

theorem lookup_function (hn : p.boundNames.Nodup) (hf : Stmt.allFunctions ss ⊆ p.functions)
    {f : Signature} {body : Block} (hmem : .function ⟨f, body⟩ ∈ ss) :
    (Stmt.closures bound ss : List (Calls.Closure m)).lookup f.name =
      some fun calls => invoke f (body.exec bound calls) := by
  cases hlookup : (Stmt.closures bound ss : List (Calls.Closure m)).lookup f.name with
  | none => exact (lookup_closures_ne_none hmem hlookup).elim
  | some F =>
    obtain ⟨g, body', hg, hname, rfl⟩ := lookup_closures hlookup
    have heq : (⟨g, body'⟩ : Function) = ⟨f, body⟩ :=
      Block.eq_of_name_eq hn (hf (Stmt.mem_allFunctions hg)) (hf (Stmt.mem_allFunctions hmem)) hname
    cases heq
    rfl

variable (hp : Site p external c) (hv : Stmt.AllValid (c.enter ss) ss)
variable (hf : Stmt.allFunctions ss ⊆ p.functions) (hd : c.CanEnter ss)
variable (hlinked : Linked side host bound p external c calls calls')
variable (hclosures : List.Forall₂ (Answers side host bound p external (c.enter ss))
  (Stmt.closures bound ss) closures')

include hp hv hf hd hlinked hclosures

theorem define_linked_of_related {n' : Nat}
    (hrelated : ∀ n, side.Covers n n' → Related side host (c.enter ss).functions
      (Calls.define (Stmt.closures bound ss) calls n) (Calls.define closures' calls' n')) {n : Nat}
    (hn : side.Exceeds n n') :
    Linked side host bound p external (c.enter ss) (Calls.define (Stmt.closures bound ss) calls n)
      (Calls.define closures' calls' n') := by
  have hsite := hp.enter hv hf
  refine ⟨hrelated n hn.covers, fun h hh => ?_⟩
  -- A function is visible around the block, where nothing changed, or it is one of the block.
  rcases Context.mem_functions_enter hh with hh | ⟨f, body, hmem, rfl⟩
  . obtain ⟨g, hg, hhead, c₁, inner, hsite₁, hsub, hbody, hinner, hcalls⟩ := hlinked.unfolds h hh
    refine ⟨g, hg, hhead, c₁, inner, hsite₁, ?_, hbody, ?_, ?_⟩
    . exact List.Subset.trans hsub (c.functions_subset_enter ss)
    . intro h₁ hh₁ arguments world hworld
      have hnone : (Stmt.closures bound ss : List (Calls.Closure m)).lookup h₁.name = none :=
        lookup_of_mem_functions hd (hsub hh₁)
      rcases lookup_answers hclosures h₁.name with ⟨_, hnone'⟩ | ⟨F, _, hF, _⟩
      . rw [Calls.define_of_lookup hnone']
        exact hinner h₁ hh₁ arguments world hworld
      . rw [hnone] at hF
        cases hF
    . rw [Calls.define_of_lookup (lookup_of_mem_functions hd hh)]
      exact hcalls
  . obtain ⟨g, hg, hhead, hbody⟩ := hsite.functions f.head hh
    have heq : g = ⟨f, body⟩ :=
      Block.eq_of_name_eq hp.nodup hg (hf (Stmt.mem_allFunctions hmem)) (congrArg Head.name hhead)
    cases heq
    have hlookup : (Stmt.closures bound ss : List (Calls.Closure m)).lookup f.name = _ :=
      lookup_function hp.nodup hf hmem
    cases n with
    | zero =>
      cases side with
      | backward => exact (Nat.not_succ_le_zero _ hn).elim
      | forward =>
        refine ⟨⟨f, body⟩, hg, rfl, c.enter ss, Calls.define (Stmt.closures bound ss) calls 0,
          hsite, List.Subset.refl _, hbody, hrelated 0 hn, fun _ _ => .inl ⟨rfl, ?_⟩⟩
        change Calls.define _ calls 0 f.name _ _ = none
        rw [Calls.define_zero_of_lookup hlookup]
    | succ n =>
      refine ⟨⟨f, body⟩, hg, rfl, c.enter ss, Calls.define (Stmt.closures bound ss) calls n,
        hsite, List.Subset.refl _, hbody, hrelated n hn.unfold, fun _ _ => .inr ?_⟩
      change Calls.define _ calls (n + 1) f.name _ _ = _
      rw [Calls.define_succ_of_lookup hlookup]

/--
The functions of the block are related, if in front of the pass calls go deep enough. The induction
is on the depth behind the pass.
-/
theorem define_related {n' : Nat} : ∀ n, side.Covers n n' →
    Related side host (c.enter ss).functions (Calls.define (Stmt.closures bound ss) calls n)
      (Calls.define closures' calls' n') := by
  have houter : ∀ h ∈ (c.enter ss).functions,
      (Stmt.closures bound ss : List (Calls.Closure m)).lookup h.name = none →
      h ∈ c.functions := by
    intro h hh hnone
    rcases Context.mem_functions_enter hh with hh | ⟨f, body, hmem, rfl⟩
    . exact hh
    . exact (lookup_closures_ne_none hmem hnone).elim
  induction n' with
  | zero =>
    intro n hn h hh arguments world hworld
    rcases lookup_answers hclosures h.name with ⟨hnone, hnone'⟩ | ⟨F, F', hF, hF', _⟩
    . rw [Calls.define_of_lookup hnone, Calls.define_of_lookup hnone']
      exact hlinked.related h (houter h hh hnone) arguments world hworld
    . -- Without a level left, a call of a function of the block has no outcome.
      cases side with
      | forward =>
        obtain rfl := Nat.le_zero.1 hn
        rw [Calls.define_zero_of_lookup hF]
        exact .missing rfl
      | backward =>
        rw [Calls.define_zero_of_lookup hF']
        exact .missed rfl
  | succ n' ih =>
    intro n hn h hh arguments world hworld
    rcases lookup_answers hclosures h.name with ⟨hnone, hnone'⟩ | ⟨F, F', hF, hF', hanswers⟩
    . rw [Calls.define_of_lookup hnone, Calls.define_of_lookup hnone']
      exact hlinked.related h (houter h hh hnone) arguments world hworld
    . cases n with
      | zero =>
        cases side with
        | forward =>
          rw [Calls.define_zero_of_lookup hF]
          exact .missing rfl
        | backward => exact (Nat.not_succ_le_zero _ hn).elim
      -- Each side spends a level on this call.
      | succ n =>
        rw [Calls.define_succ_of_lookup hF, Calls.define_succ_of_lookup hF']
        apply hanswers.2 _ _ _ arguments world hworld
        exact define_linked_of_related hp hv hf hd hlinked hclosures ih hn.call

theorem define_linked {n n' : Nat} (hn : side.Exceeds n n') :
    Linked side host bound p external (c.enter ss)
      (Calls.define (Stmt.closures bound ss) calls n) (Calls.define closures' calls' n') :=
  define_linked_of_related hp hv hf hd hlinked hclosures
    (define_related hp hv hf hd hlinked hclosures) hn

end

end Inlining
end Splice
