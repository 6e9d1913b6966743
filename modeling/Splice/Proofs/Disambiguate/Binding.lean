import Splice.Proofs.Disambiguate.Entries

/-!
This module contains how the invariant of the pass is kept where names are bound and where scopes
are entered and left.
-/

namespace Splice
namespace Disambiguation

structure Grows (s s' : State) (names : List String) : Prop where
  taken : (names ++ s.taken).Perm s'.taken
  nodup : s.taken.Nodup → s'.taken.Nodup
  used : s.supply.used ⊆ s'.supply.used
  plain : ∀ x ∈ names, Instruction.isName x = false

namespace Grows

variable {s s' s'' : State} {names names' : List String}

theorem refl (s : State) : Grows s s [] :=
  ⟨.refl _, id, List.Subset.refl _, by simp⟩

theorem trans (h : Grows s s' names) (h' : Grows s' s'' names') :
    Grows s s'' (names ++ names') where
  taken := by
    have hswap : (names ++ names' ++ s.taken).Perm (names' ++ (names ++ s.taken)) := by
      rw [← List.append_assoc]
      exact List.perm_append_comm.append_right _
    exact hswap.trans ((h.taken.append_left names').trans h'.taken)
  nodup := h'.nodup ∘ h.nodup
  used := List.Subset.trans h.used h'.used
  plain x hx := (List.mem_append.1 hx).elim (h.plain x) (h'.plain x)

theorem perm (h : Grows s s' names) (hn : names.Perm names') : Grows s s' names' where
  taken := (hn.symm.append_right _).trans h.taken
  nodup := h.nodup
  used := h.used
  plain x hx := h.plain x (hn.mem_iff.2 hx)

theorem taken_subset (h : Grows s s' names) : s.taken ⊆ s'.taken :=
  fun _ hx => h.taken.mem_iff.1 (List.mem_append_right _ hx)

end Grows

theorem State.bind_spec {s : State} {x : String} {scope : Renames} {outer : List Renames}
    (hs : s.scopes = scope :: outer) (hx : x ∈ s.supply.used) (hu : s.taken ⊆ s.supply.used)
    (hi : Instruction.isName x = false) :
    (s.bind x).1 ∉ s.taken ∧ (s.bind x).2.scopes = ((x, (s.bind x).1) :: scope) :: outer ∧
    (s.bind x).2.taken ⊆ (s.bind x).2.supply.used ∧ Grows s (s.bind x).2 [(s.bind x).1] := by
  unfold bind
  dsimp only
  split
  -- The name is taken, and a fresh one is given out.
  . next hmem =>
    unfold record
    dsimp only
    rw [hs]
    have hused := s.supply.used_fresh x
    have hnew := s.supply.fresh_notMem x
    have hfree : (s.supply.fresh x).1 ∉ s.taken := fun ht => hnew (hu ht)
    refine ⟨hfree, rfl, ?_, .refl _, fun hn => List.nodup_cons.2 ⟨hfree, hn⟩, ?_, ?_⟩
    . dsimp only
      rw [hused]
      exact List.cons_subset_cons _ hu
    . dsimp only
      rw [hused]
      exact List.subset_cons_self _ _
    . intro y hy
      rw [List.mem_singleton.1 hy]
      exact Instruction.isName_of_underscore (Supply.underscore_mem_fresh (.inl hx))
  . next hmem =>
    unfold record
    dsimp only
    rw [hs]
    refine ⟨hmem, rfl, List.cons_subset.2 ⟨hx, hu⟩, .refl _,
      fun hn => List.nodup_cons.2 ⟨hmem, hn⟩, List.Subset.refl _, ?_⟩
    intro y hy
    rwa [List.mem_singleton.1 hy]

namespace Tied

variable {external : List String} {top : List Entry} {rest : List (List Entry)} {s : State}
  {c : Context} {sites sites' : List Site}

theorem not_visible_of_declarable {scopes : List (List Entry)}
    (h : Tied external scopes s c sites sites') {x : String} (hx : c.Declarable x) :
    ∀ e ∈ scopes.flatten, x = e.before → e.visible = false := by
  intro e he hxe
  rw [Bool.eq_false_iff]
  intro hv
  cases harity : e.arity? with
  | none =>
    apply hx.1
    rw [h.vars]
    refine List.mem_map.2 ⟨e, List.mem_filter.2 ⟨he, ?_⟩, hxe.symm⟩
    rw [hv, harity]
    rfl
  | some arity =>
    apply hx.2.1
    rw [h.functions]
    refine List.mem_map.2 ⟨⟨e.before, arity.1, arity.2⟩, List.mem_filterMap.2 ⟨e, he, ?_⟩, hxe.symm⟩
    unfold Entry.head?
    rw [harity]
    rfl

theorem push (h : Tied external (top :: rest) s c sites sites') {e : Entry} {s₁ : State}
    {c₁ : Context} (hv : e.visible = true) (hx : c.Declarable e.before) (hnew : e.after ∉ s.taken)
    (hstate : s₁.scopes = ((e.before, e.after) :: top.map fun e => (e.before, e.after)) ::
      rest.map (List.map fun e => (e.before, e.after)))
    (hgrows : Grows s s₁ [e.after]) (hused : s₁.taken ⊆ s₁.supply.used)
    (hhost : c₁.external = c.external)
    (hvars : c₁.vars = Entry.vars Entry.before [e] ++ c.vars)
    (hfunctions : c₁.functions = Entry.heads Entry.before [e] ++ c.functions) :
    Tied external ((e :: top) :: rest) s₁ c₁ (e.site Entry.before :: sites)
      (e.site Entry.after :: sites') where
  state := hstate
  host := hhost.trans h.host
  vars := by
    rw [hvars, h.vars]
    unfold Entry.vars
    rw [← List.map_append, ← List.filter_append]
    rfl
  functions := by
    rw [hfunctions, h.functions]
    unfold Entry.heads
    rw [← List.filterMap_append]
    rfl
  sites := by
    rw [h.sites]
    unfold Entry.sites
    have hflatten : ((e :: top) :: rest).flatten = e :: (top :: rest).flatten := rfl
    rw [hflatten, List.filter_cons_of_pos hv]
    rfl
  sites' := by
    rw [h.sites']
    unfold Entry.sites
    have hflatten : ((e :: top) :: rest).flatten = e :: (top :: rest).flatten := rfl
    rw [hflatten, List.filter_cons_of_pos hv]
    rfl
  callable := List.forall_mem_cons.2 ⟨fun _ => hv, h.callable⟩
  apart := List.pairwise_cons.2 ⟨h.not_visible_of_declarable hx, h.apart⟩
  distinct := by
    refine List.nodup_cons.2 ⟨?_, h.distinct⟩
    -- All names that were given out are taken, and the new one is not.
    intro hmem
    obtain ⟨e', he', hafter⟩ := List.mem_map.1 hmem
    exact hnew (hafter ▸ h.taken e' he')
  foreign := by
    refine List.forall_mem_cons.2 ⟨⟨?_, fun he => hnew (h.hostTaken he)⟩, h.foreign⟩
    rw [← h.host]
    exact hx.2.2.2.1
  taken := by
    refine List.forall_mem_cons.2 ⟨?_, fun e' he' => hgrows.taken_subset (h.taken e' he')⟩
    exact hgrows.taken.mem_iff.1 (List.mem_append_left _ (List.mem_singleton.2 rfl))
  hostTaken := List.Subset.trans h.hostTaken hgrows.taken_subset
  used := hused

theorem bind_variable (h : Tied external (top :: rest) s c sites sites') {x : String} (n : Nat)
    (hx : c.Declarable x) (hu : x ∈ s.supply.used) :
    Tied external ((⟨x, (s.bind x).1, n, none, true⟩ :: top) :: rest) (s.bind x).2 (c.addVariable x)
      (⟨x, n, true⟩ :: sites) (⟨(s.bind x).1, n, true⟩ :: sites') ∧
    Grows s (s.bind x).2 [(s.bind x).1] := by
  obtain ⟨hnew, hstate, hused, hgrows⟩ := State.bind_spec h.state hu h.used hx.2.2.2.2
  exact ⟨h.push rfl hx hnew hstate hgrows hused rfl rfl rfl, hgrows⟩

theorem bind_function (h : Tied external (top :: rest) s c sites sites') {f : Head} (n : Nat)
    (hx : c.Declarable f.name) (hu : f.name ∈ s.supply.used) :
    Tied external
      ((⟨f.name, (s.bind f.name).1, n, some (f.parameters, f.returns), true⟩ :: top) :: rest)
      (s.bind f.name).2 (c.addFunction f) (⟨f.name, n, false⟩ :: sites)
      (⟨(s.bind f.name).1, n, false⟩ :: sites') ∧
    Grows s (s.bind f.name).2 [(s.bind f.name).1] := by
  obtain ⟨hnew, hstate, hused, hgrows⟩ := State.bind_spec h.state hu h.used hx.2.2.2.2
  exact ⟨h.push rfl hx hnew hstate hgrows hused rfl rfl rfl, hgrows⟩

/-! ## Scopes -/

theorem congr {scopes : List (List Entry)} (h : Tied external scopes s c sites sites')
    {c₁ : Context} (hhost : c₁.external = c.external) (hvars : c₁.vars = c.vars)
    (hfunctions : c₁.functions = c.functions) : Tied external scopes s c₁ sites sites' :=
  { h with
    host := hhost.trans h.host
    vars := hvars.trans h.vars
    functions := hfunctions.trans h.functions }

theorem enter {scopes : List (List Entry)} (h : Tied external scopes s c sites sites') :
    Tied external ([] :: scopes) s.enter c sites sites' := by
  have hstate : s.enter.scopes = [] :: s.scopes := rfl
  exact { h with state := hstate.trans (congrArg _ h.state) }

theorem leave {scopes : List (List Entry)} (h : Tied external scopes s c sites sites')
    {s₁ : State} {names : List String} (hstate : s₁.scopes = s.scopes) (hgrows : Grows s s₁ names)
    (hused : s₁.taken ⊆ s₁.supply.used) : Tied external scopes s₁ c sites sites' :=
  { h with
    state := hstate.trans h.state
    taken := fun e he => hgrows.taken_subset (h.taken e he)
    hostTaken := List.Subset.trans h.hostTaken hgrows.taken_subset
    used := hused }

theorem enterFunction {scopes : List (List Entry)} (h : Tied external scopes s c sites sites') :
    Tied external ([] :: scopes.map (List.map Entry.hide)) s.enter { c with vars := [] }
      (sites.filter fun site => !site.isVariable)
      (sites'.filter fun site => !site.isVariable) := by
  have hflatten : ([] :: scopes.map (List.map Entry.hide)).flatten = scopes.flatten.map Entry.hide := by
    rw [List.flatten_cons, List.nil_append, List.map_flatten]
  -- What does not depend on what is visible is kept entry by entry.
  have hmem : ∀ {p : Entry → Prop}, (∀ e ∈ scopes.flatten, p e.hide) →
      ∀ e ∈ ([] :: scopes.map (List.map Entry.hide)).flatten, p e := by
    intro p hp e he
    rw [hflatten] at he
    obtain ⟨e', he', rfl⟩ := List.mem_map.1 he
    exact hp e' he'
  refine {
    state := ?_
    host := h.host
    vars := ?_
    functions := ?_
    sites := ?_
    sites' := ?_
    callable := hmem fun e he => ?_
    apart := ?_
    distinct := ?_
    foreign := hmem h.foreign
    taken := hmem h.taken
    hostTaken := h.hostTaken
    used := h.used }
  . unfold State.enter
    rw [h.state]
    simp only [List.map_cons, List.map_nil, List.map_map, Function.comp_def]
    rfl
  . rw [hflatten, Entry.vars_hide]
  . rw [hflatten, Entry.heads_hide _ fun _ => rfl]
    exact h.functions
  . rw [hflatten, Entry.sites_hide _ fun _ => rfl, h.sites]
  . rw [hflatten, Entry.sites_hide _ fun _ => rfl, h.sites']
  . have hcallable := h.callable e he
    unfold Entry.hide
    intro harity
    rw [Bool.and_eq_true]
    exact ⟨hcallable harity, harity⟩
  . rw [hflatten, List.pairwise_map]
    apply h.apart.imp
    intro a b hab hbefore
    unfold Entry.hide at *
    simp [hab hbefore]
  . rw [hflatten, List.map_map]
    exact h.distinct

end Tied

/-! ## Binders -/

theorem bindAll_spec {external : List String} {rest : List (List Entry)} (xs : List Binder)
    {top : List Entry} {s : State} {c : Context} {sites sites' : List Site} (n : Nat)
    (h : Tied external (top :: rest) s c sites sites') (hx : c.AllDeclarable xs)
    (hu : xs.map Binder.name ⊆ s.supply.used) (failed : Failure → Prop) :
    Meets (bindAll xs) s (fun xs' s' => ∃ es : List Entry,
      Tied external ((es ++ top) :: rest) s' (c.declare xs) (Site.declare sites n xs)
        (Site.declare sites' n xs') ∧
      Grows s s' (xs'.map Binder.name) ∧ xs'.length = xs.length ∧
      (∀ e ∈ es, e.arity? = none) ∧ es.map Entry.after = (xs'.map Binder.name).reverse) failed := by
  induction xs generalizing top s c sites sites' n with
  | nil => exact .pure ⟨[], h, .refl s, rfl, by simp, rfl⟩
  | cons x xs ih =>
    rw [List.map_cons, List.cons_subset] at hu
    obtain ⟨htied, hgrows⟩ := h.bind_variable n hx.1 hu.1
    unfold bindAll
    apply Meets.modifyGet_bind
    apply (ih (n + 1) htied hx.2 (List.Subset.trans hu.2 hgrows.used)).bind
    rintro xs' s' ⟨es, htied', hgrows', hlength, hvars, hnames⟩
    refine .pure ⟨es ++ [⟨x.name, (s.bind x.name).1, n, none, true⟩], ?_, ?_, ?_, ?_, ?_⟩
    . rw [List.append_assoc]
      exact htied'
    . exact hgrows.trans hgrows'
    . rw [List.length_cons, List.length_cons, hlength]
    . intro e he
      rcases List.mem_append.1 he with he | he
      . exact hvars e he
      . rw [List.mem_singleton.1 he]
    . rw [List.map_append, hnames]
      simp

/-! ## Functions -/

def AnnouncesOne (key : Entry → String) (n : Nat) : Stmt → List Entry → Prop
  | .function ⟨f, _⟩, es => ∃ e, es = [e] ∧ key e = f.name ∧ e.number = n ∧
    e.arity? = some (f.parameters.length, f.returns.length) ∧ e.visible = true
  | _, es => es = []

def Announces (key : Entry → String) (n : Nat) : List Stmt → List Entry → Prop
  | [], es => es = []
  | x :: xs, es => ∃ first others, es = first ++ others ∧ AnnouncesOne key n x first ∧
    Announces key (n + x.boundNames.length) xs others

theorem AnnouncesOne.announce {key : Entry → String} {n : Nat} {x : Stmt} {es : List Entry}
    (h : AnnouncesOne key n x es) (sites : List Site) (c : Context) :
    Site.announce sites n x = (es.map (Entry.site key)).reverse ++ sites ∧
    (c.announce x).functions = (Entry.heads key es).reverse ++ c.functions := by
  unfold AnnouncesOne at h
  split at h
  . next f body es =>
    obtain ⟨e, rfl, hkey, rfl, harity, _⟩ := h
    simp [Site.announce, Context.announce, Context.addFunction, Signature.head, Entry.site,
      Entry.heads, Entry.head?, hkey, harity]
  . next hf =>
    rw [h]
    constructor
    . unfold Site.announce
      split
      . next f body => exact (hf f body rfl).elim
      . rfl
    . unfold Context.announce
      split
      . next f body => exact (hf f body rfl).elim
      . rfl
      . rfl

theorem Announces.enter {key : Entry → String} {n : Nat} {xs : List Stmt} {es : List Entry}
    (h : Announces key n xs es) (sites : List Site) (c : Context) :
    Site.enter sites n xs = (es.map (Entry.site key)).reverse ++ sites ∧
    (c.enter xs).functions = (Entry.heads key es).reverse ++ c.functions := by
  induction xs generalizing n es sites c with
  | nil =>
    rw [h]
    exact ⟨rfl, rfl⟩
  | cons x xs ih =>
    obtain ⟨first, others, rfl, hone, hothers⟩ := h
    obtain ⟨hsites, hfunctions⟩ := hone.announce sites c
    obtain ⟨hsites', hfunctions'⟩ := ih hothers (Site.announce sites n x) (c.announce x)
    unfold Site.enter Context.enter
    rw [hsites', hsites, hfunctions', hfunctions]
    unfold Entry.heads
    constructor
    . rw [List.map_append, List.reverse_append, List.append_assoc]
    . rw [List.filterMap_append, List.reverse_append, List.append_assoc]

theorem bindFunctions_cons {x : Stmt} (h : ∀ f body, x ≠ .function ⟨f, body⟩) (xs : List Stmt) :
    bindFunctions (x :: xs) = bindFunctions xs := by
  cases x with
  | function f =>
    obtain ⟨f, body⟩ := f
    exact (h f body rfl).elim
  | _ => rfl

theorem AnnouncesOne.of_ne_function (key : Entry → String) (n : Nat) {x : Stmt}
    (h : ∀ f body, x ≠ .function ⟨f, body⟩) : AnnouncesOne key n x [] := by
  cases x with
  | function f =>
    obtain ⟨f, body⟩ := f
    exact (h f body rfl).elim
  | _ => rfl

theorem bindFunctions_spec {external : List String} {rest : List (List Entry)} (xs : List Stmt)
    {top : List Entry} {s : State} {c : Context} {sites sites' : List Site} (n : Nat)
    (h : Tied external (top :: rest) s c sites sites') (hx : c.CanEnter xs)
    (hu : xs.flatMap Stmt.announced ⊆ s.supply.used) (failed : Failure → Prop) :
    Meets (bindFunctions xs) s (fun _ s' => ∃ es : List Entry,
      Announces Entry.before n xs es ∧
      Tied external ((es.reverse ++ top) :: rest) s' (c.enter xs) (Site.enter sites n xs)
        ((es.map (Entry.site Entry.after)).reverse ++ sites') ∧
      Grows s s' (es.map Entry.after)) failed := by
  induction xs generalizing top s c sites sites' n with
  | nil => exact .pure ⟨[], rfl, h, .refl s⟩
  | cons x xs ih =>
    rw [List.flatMap_cons, List.append_subset] at hu
    -- Of the statements, only functions are bound ahead.
    by_cases hf : ∃ f body, x = .function ⟨f, body⟩
    . obtain ⟨f, body, rfl⟩ := hf
      have hmem : f.head.name ∈ s.supply.used := hu.1 (List.mem_singleton.2 rfl)
      have hnew : c.Declarable f.head.name := hx.1
      obtain ⟨htied, hgrows⟩ := h.bind_function n hnew hmem
      apply Meets.modifyGet_bind
      let n' := n + (Stmt.function ⟨f, body⟩).boundNames.length
      apply (ih n' htied hx.2 (List.Subset.trans hu.2 hgrows.used)).imp _ fun _ => id
      rintro _ s' ⟨es, hes, htied', hgrows'⟩
      let e : Entry :=
        ⟨f.name, (s.bind f.name).1, n, some (f.parameters.length, f.returns.length), true⟩
      refine ⟨e :: es, ⟨[e], es, rfl, ⟨e, rfl, rfl, rfl, rfl, rfl⟩, hes⟩, ?_, hgrows.trans hgrows'⟩
      simp only [List.map_cons, List.reverse_cons, List.append_assoc]
      exact htied'
    . have hf : ∀ f body, x ≠ .function ⟨f, body⟩ := fun f body hx => hf ⟨f, body, hx⟩
      have hone := AnnouncesOne.of_ne_function Entry.before n hf
      have htied : Tied external (top :: rest) s (c.announce x) sites sites' := by
        apply h.congr
        . rw [Context.announce_eq]
        . rw [Context.announce_eq]
        . exact (hone.announce sites c).2
      rw [bindFunctions_cons hf]
      apply (ih (n + x.boundNames.length) htied hx.2 hu.2).imp _ fun _ => id
      rintro _ s' ⟨es, hes, htied', hgrows'⟩
      refine ⟨es, ⟨[], es, rfl, hone, hes⟩, ?_, hgrows'⟩
      have hsites := (hone.announce sites c).1
      unfold Site.enter Context.enter
      rw [hsites]
      exact htied'

end Disambiguation
end Splice
