import Splice.Proofs.Safety.Interpreter

/-!
This module contains what the single steps of the interpreter do to the variables that are bound,
and that none of them is stuck if the names it uses are bound and the numbers of values fit.
-/

namespace Splice
namespace Safety

variable {m : Interpretation} {α β : Type}

def Safe (x : Run m α) (μ : Memory m) (post : α → Memory m → Prop) : Prop :=
  match x μ with
  | .ok (a, μ') => post a μ'
  | .error (.stuck _) => False
  | .error _ => True

namespace Safe

variable {x : Run m α} {f : α → Run m β} {μ : Memory m} {P : α → Memory m → Prop}
variable {Q : β → Memory m → Prop}

theorem bind (h : Safe x μ P) (hf : ∀ a μ', P a μ' → Safe (f a) μ' Q) : Safe (x >>= f) μ Q := by
  unfold Safe at h
  have hbind : (x >>= f) μ = x μ >>= fun p => f p.1 p.2 := rfl
  unfold Safe
  rw [hbind]
  cases hx : x μ with
  | ok p =>
    rw [hx] at h
    exact hf p.1 p.2 h
  | error stop =>
    rw [hx] at h
    cases stop <;> exact h

theorem pure {a : α} (h : P a μ) : Safe (pure a) μ P := h

theorem imp {P' : α → Memory m → Prop} (h : Safe x μ P) (himp : ∀ a μ', P a μ' → P' a μ') :
    Safe x μ P' := by
  unfold Safe at *
  split <;> simp_all

theorem exhausted : Safe (throw .exhausted : Run m α) μ P := trivial

theorem halted {world : World m} : Safe (throw (.halted world) : Run m α) μ P := trivial

theorem get_bind {g : Memory m → Run m β} (h : Safe (g μ) μ Q) : Safe (get >>= g) μ Q := h

theorem modify {g : Memory m → Memory m} {P : Unit → Memory m → Prop} (h : P () (g μ)) :
    Safe (modify g) μ P := h

theorem set {μ' : Memory m} {P : PUnit → Memory m → Prop} (h : P () μ') : Safe (set μ') μ P := h

end Safe

/-! ## Names -/

namespace Locals

def names (locals : Locals m) : List (List String) :=
  locals.map fun scope => scope.map Prod.fst

theorem isSome_lookup {x : String} {scope : List (String × m.Value)} :
    (scope.lookup x).isSome ↔ x ∈ scope.map Prod.fst := by
  induction scope with
  | nil => simp
  | cons entry scope ih =>
    rw [List.lookup_cons]
    split
    . next heq => simp [beq_iff_eq.1 heq]
    . next hne => simp [ih, beq_eq_false_iff_ne.1 hne]

theorem isSome_read? {x : String} {locals : Locals m} (h : x ∈ locals.names.flatten) :
    (locals.read? x).isSome := by
  obtain ⟨xs, hxs, hx⟩ := List.mem_flatten.1 h
  obtain ⟨scope, hscope, rfl⟩ := List.mem_map.1 hxs
  exact List.findSome?_isSome_iff.2 ⟨scope, hscope, isSome_lookup.2 hx⟩

theorem names_of_assign? {x : String} {v : m.Value} {locals locals' : Locals m}
    (h : locals.assign? x v = some locals') : locals'.names = locals.names := by
  induction locals generalizing locals' with
  | nil => cases h
  | cons scope outer ih =>
    unfold assign? at h
    split at h
    . cases h
      unfold names
      rw [List.map_cons, List.map_cons, List.map_map]
      congr 2
      funext ⟨y, w⟩
      by_cases hy : y = x <;> simp [hy]
    . obtain ⟨outer', houter, rfl⟩ := Option.map_eq_some_iff.1 h
      exact congrArg (scope.map Prod.fst :: ·) (ih houter)

theorem assign?_ne_none {x : String} {v : m.Value} {locals : Locals m}
    (h : x ∈ locals.names.flatten) : locals.assign? x v ≠ none := by
  induction locals with
  | nil => contradiction
  | cons scope outer ih =>
    unfold assign?
    split
    . exact Option.some_ne_none _
    . next hnone =>
      have hx : x ∉ scope.map Prod.fst := by
        rw [← isSome_lookup, hnone]
        exact Bool.false_ne_true
      have houter := ih ((List.mem_append.1 h).resolve_left hx)
      simpa using houter

end Locals

def bindName (x : String) : List (List String) → List (List String)
  | [] => [[x]]
  | scope :: outer => (x :: scope) :: outer

def bindNames (xs : List Binder) (names : List (List String)) : List (List String) :=
  xs.foldl (fun names x => bindName x.name names) names

theorem Locals.names_declare (x : String) (v : m.Value) (locals : Locals m) :
    (locals.declare x v).names = bindName x locals.names := by
  cases locals <;> rfl

theorem bindNames_append (xs ys : List Binder) (names : List (List String)) :
    bindNames (xs ++ ys) names = bindNames ys (bindNames xs names) :=
  List.foldl_append

theorem tail_bindNames (xs : List Binder) (scope : List String) (outer : List (List String)) :
    (bindNames xs (scope :: outer)).tail = outer := by
  induction xs generalizing scope with
  | nil => rfl
  | cons x xs ih => exact ih (x.name :: scope)

/-! ## Steps -/

structure Became (xs : List Binder) (μ μ' : Memory m) : Prop where
  names : μ'.locals.names = bindNames xs μ.locals.names
  host : ∀ x, (μ.world.host x).isSome = true → (μ'.world.host x).isSome = true

namespace Became

variable {xs ys : List Binder} {μ μ' μ'' : Memory m}

theorem refl (μ : Memory m) : Became [] μ μ := ⟨rfl, fun _ => id⟩

theorem append (h : Became xs μ μ') (h' : Became ys μ' μ'') : Became (xs ++ ys) μ μ'' where
  names := by rw [bindNames_append, ← h.names, h'.names]
  host x hx := h'.host x (h.host x hx)

theorem trans (h : Became [] μ μ') (h' : Became xs μ' μ'') : Became xs μ μ'' :=
  h.append h'

end Became

namespace Run

variable {μ : Memory m}

theorem safe_one {vs : List m.Value} (h : vs.length = 1) :
    Safe (one vs) μ fun _ μ' => μ' = μ := by
  obtain ⟨v, rfl⟩ := List.length_eq_one_iff.1 h
  exact Safe.pure rfl

theorem safe_nothing {vs : List m.Value} (h : vs.length = 0) :
    Safe (nothing vs) μ fun _ μ' => μ' = μ := by
  obtain rfl := List.length_eq_zero_iff.1 h
  exact Safe.pure rfl

theorem safe_read {x : String}
    (h : x ∈ μ.locals.names.flatten ∨ (μ.world.host x).isSome = true) :
    Safe (read x) μ fun _ μ' => μ' = μ := by
  refine Safe.get_bind ?_
  split
  . exact Safe.pure rfl
  . next hnone =>
    rw [Option.or_eq_none_iff] at hnone
    rcases h with h | h
    . have hsome := Locals.isSome_read? h
      rw [hnone.1] at hsome
      contradiction
    . rw [hnone.2] at h
      contradiction

theorem safe_readAll {xs : List Binder} (h : ∀ x ∈ xs, x.name ∈ μ.locals.names.flatten) :
    Safe (readAll xs) μ fun vs μ' => vs.length = xs.length ∧ μ' = μ := by
  induction xs with
  | nil => exact Safe.pure ⟨rfl, rfl⟩
  | cons x xs ih =>
    refine (safe_read (.inl (h x List.mem_cons_self))).bind ?_
    rintro v μ' rfl
    refine (ih fun y hy => h y (List.mem_cons_of_mem x hy)).bind ?_
    rintro vs μ' ⟨hlength, rfl⟩
    exact Safe.pure ⟨congrArg (· + 1) hlength, rfl⟩

theorem safe_declare (x : Binder) (v : m.Value) :
    Safe (declare x.name v) μ fun _ μ' => Became [x] μ μ' :=
  Safe.modify ⟨Locals.names_declare x.name v μ.locals, fun _ => id⟩

theorem safe_declareAll {fault : Fault} {xs : List Binder} {vs : List m.Value}
    (h : vs.length = xs.length) :
    Safe (declareAll fault xs vs) μ fun _ μ' => Became xs μ μ' := by
  induction xs generalizing vs μ with
  | nil =>
    obtain rfl := List.length_eq_zero_iff.1 h
    exact Safe.pure (.refl μ)
  | cons x xs ih =>
    obtain ⟨v, vs, rfl⟩ := List.exists_cons_of_length_eq_add_one h
    refine (safe_declare x v).bind fun _ μ' hμ' => ?_
    exact (ih (Nat.succ.inj h)).imp fun _ _ hμ'' => hμ'.append hμ''

theorem safe_declareZeros (xs : List Binder) :
    Safe (declareZeros xs) μ fun _ μ' => Became xs μ μ' := by
  induction xs generalizing μ with
  | nil => exact Safe.pure (.refl μ)
  | cons x xs ih =>
    refine (safe_declare x m.zero).bind fun _ μ' hμ' => ?_
    exact ih.imp fun _ _ hμ'' => hμ'.append hμ''

theorem safe_assign {x : String} {v : m.Value}
    (h : x ∈ μ.locals.names.flatten ∨ (μ.world.host x).isSome = true) :
    Safe (assign x v) μ fun _ μ' => Became [] μ μ' := by
  refine Safe.get_bind ?_
  split
  . next locals _ heq => exact Safe.set ⟨Locals.names_of_assign? heq, fun _ => id⟩
  . refine Safe.set ⟨rfl, fun y hy => ?_⟩
    change (if y = x then some v else μ.world.host y).isSome = true
    split
    . rfl
    . exact hy
  . next hlocals hhost =>
    rcases h with h | h
    . exact (Locals.assign?_ne_none h hlocals).elim
    . rw [hhost] at h
      contradiction

theorem safe_assignAll {is : List Identifier} {vs : List m.Value} (hlength : vs.length = is.length)
    (h : ∀ i ∈ is, i.name ∈ μ.locals.names.flatten ∨ (μ.world.host i.name).isSome = true) :
    Safe (assignAll is vs) μ fun _ μ' => Became [] μ μ' := by
  induction is generalizing vs μ with
  | nil =>
    obtain rfl := List.length_eq_zero_iff.1 hlength
    exact Safe.pure (.refl μ)
  | cons i is ih =>
    obtain ⟨v, vs, rfl⟩ := List.exists_cons_of_length_eq_add_one hlength
    refine (safe_assign (h i List.mem_cons_self)).bind fun _ μ' hμ' => ?_
    refine (ih (Nat.succ.inj hlength) fun j hj => ?_).imp fun _ _ hμ'' => hμ'.trans hμ''
    have hj := h j (List.mem_cons_of_mem i hj)
    rw [hμ'.names]
    exact hj.imp_right (hμ'.host j.name)

theorem safe_inScope {body : Run m Unit} (xs : List Binder)
    (h : Safe body { μ with locals := [] :: μ.locals }
      fun _ μ' => Became xs { μ with locals := [] :: μ.locals } μ') :
    Safe (inScope body) μ fun _ μ' => Became [] μ μ' := by
  unfold inScope
  refine Safe.bind (Safe.modify (P := fun _ μ' => μ' = _) rfl) ?_
  rintro _ μ' rfl
  refine h.bind fun _ μ' hμ' => Safe.modify ⟨?_, hμ'.host⟩
  have hnames : Locals.names μ'.locals.tail = μ'.locals.names.tail := List.map_tail
  rw [hnames, hμ'.names]
  exact tail_bindNames xs [] μ.locals.names

theorem safe_inFrame {body : Run m α} {P : α → Prop} (xs : List Binder)
    (h : Safe body { μ with locals := [[]] }
      fun a μ' => P a ∧ Became xs { μ with locals := [[]] } μ') :
    Safe (inFrame body) μ fun a μ' => P a ∧ Became [] μ μ' := by
  unfold inFrame
  refine Safe.get_bind (Safe.bind (Safe.modify (P := fun _ μ' => μ' = _) rfl) ?_)
  rintro _ μ' rfl
  refine h.bind fun a μ' ⟨ha, hμ'⟩ => ?_
  refine Safe.bind (Safe.modify (P := fun _ μ'' => μ'' = _) rfl) ?_
  rintro _ μ'' rfl
  exact Safe.pure ⟨ha, rfl, hμ'.host⟩

theorem safe_instruction (hm : m.Fits) {i : Instruction} {name : String}
    (hi : Instruction.find? name = some i) {vs : List m.Value} (hvs : vs.length = i.arguments) :
    Safe (instruction name vs) μ fun vs' μ' => vs'.length = i.returns ∧ Became [] μ μ' := by
  have hfits := hm name i vs μ.world.state hi hvs
  unfold instruction
  rw [hi]
  dsimp only
  rw [if_pos hvs]
  refine Safe.get_bind ?_
  split
  . next vs' state heq =>
    rw [heq] at hfits
    refine Safe.bind (Safe.set (P := fun _ μ' => μ' = _) rfl) ?_
    rintro _ μ' rfl
    exact Safe.pure ⟨hfits, rfl, fun _ => id⟩
  . exact Safe.halted

end Run
end Safety
end Splice
