import Splice.Pass.Disambiguate
import Splice.Proofs.Analysis.Contexts
import Splice.Proofs.Disambiguate.Links
import Splice.Proofs.Names.Supply
import Splice.Proofs.Pass.Meets

/-!
This module contains the invariant that ties together, at each place of a program, the scopes of the
pass that gives every binding a name of its own, the rules of the language, and the places that the
visible names are bound at in the old and in the new program.
-/

namespace Splice
namespace Disambiguation

structure Entry where
  before : String
  after : String
  number : Nat
  arity? : Option (Nat × Nat)
  /--
  It is not a variable around a function that the current place is in.
  -/
  visible : Bool

namespace Entry

def site (key : Entry → String) (e : Entry) : Site :=
  ⟨key e, e.number, e.arity?.isNone⟩

def head? (key : Entry → String) (e : Entry) : Option Head :=
  e.arity?.map fun arity => ⟨key e, arity.1, arity.2⟩

def hide (e : Entry) : Entry :=
  { e with visible := e.visible && e.arity?.isSome }

def sites (key : Entry → String) (es : List Entry) : List Site :=
  (es.filter visible).map (site key)

def vars (key : Entry → String) (es : List Entry) : List String :=
  (es.filter fun e => e.visible && e.arity?.isNone).map key

def heads (key : Entry → String) (es : List Entry) : List Head :=
  es.filterMap (head? key)

theorem sites_hide (key : Entry → String) (hkey : ∀ e, key e.hide = key e) (es : List Entry) :
    sites key (es.map hide) = (sites key es).filter fun site => !site.isVariable := by
  unfold sites
  induction es with
  | nil => rfl
  | cons e es ih =>
    obtain ⟨before, after, number, arity?, visible⟩ := e
    have hk := hkey ⟨before, after, number, arity?, visible⟩
    cases visible <;> cases arity? <;> simp_all [hide, site]

theorem vars_hide (key : Entry → String) (es : List Entry) : vars key (es.map hide) = [] := by
  unfold vars
  rw [List.map_eq_nil_iff, List.filter_eq_nil_iff]
  intro e he
  obtain ⟨e', _, rfl⟩ := List.mem_map.1 he
  unfold hide
  cases e'.arity? <;> simp

theorem heads_hide (key : Entry → String) (hkey : ∀ e, key e.hide = key e) (es : List Entry) :
    heads key (es.map hide) = heads key es := by
  unfold heads
  rw [List.filterMap_map]
  congr 1
  funext e
  have hk := hkey e
  unfold hide at hk
  simp [head?, hide, hk]

end Entry

/--
The state of the pass, the context of the rules and the visible places of the old and of the new
program are what the entries say.
-/
structure Tied (external : List String) (scopes : List (List Entry)) (s : State) (c : Context)
    (sites sites' : List Site) : Prop where
  state : s.scopes = scopes.map (List.map fun e => (e.before, e.after))
  host : c.external = external
  vars : c.vars = Entry.vars Entry.before scopes.flatten
  functions : c.functions = Entry.heads Entry.before scopes.flatten
  sites : sites = Entry.sites Entry.before scopes.flatten
  sites' : sites' = Entry.sites Entry.after scopes.flatten
  -- A function is visible in all functions of its block.
  callable : ∀ e ∈ scopes.flatten, e.arity?.isSome = true → e.visible = true
  -- Only what is hidden can have the name of something further in.
  apart : scopes.flatten.Pairwise fun a b => a.before = b.before → b.visible = false
  distinct : (scopes.flatten.map Entry.after).Nodup
  foreign : ∀ e ∈ scopes.flatten, e.before ∉ external ∧ e.after ∉ external
  taken : ∀ e ∈ scopes.flatten, e.after ∈ s.taken
  hostTaken : external ⊆ s.taken
  used : s.taken ⊆ s.supply.used

structure Shows (scopes : List (List Entry)) (c c' : Context) : Prop where
  external : c.external ⊆ c'.external
  assignable : c.assignable ⊆ c'.assignable
  targetless : c.targetless = true → c'.targetless = true
  vars : Entry.vars Entry.after scopes.flatten ⊆ c'.vars
  functions : Entry.heads Entry.after scopes.flatten ⊆ c'.functions

/-! ## Uses -/

theorem find?_of_pairwise {α : Type} {l : List α} {r : α → α → Prop} {p : α → Bool} {a : α}
    (h : l.Pairwise r) (ha : a ∈ l) (hp : p a = true) (hr : ∀ b, p b = true → ¬r b a) :
    l.find? p = some a := by
  induction l with
  | nil => contradiction
  | cons b l ih =>
    rw [List.pairwise_cons] at h
    rcases List.mem_cons.1 ha with rfl | ha
    . exact List.find?_cons_of_pos hp
    . have hb : ¬p b = true := fun hb => hr b hb (h.1 a ha)
      rw [List.find?_cons_of_neg hb]
      exact ih h.2 ha

theorem lookup_map_entries (x : String) (es : List Entry) :
    (es.map fun e => (e.before, e.after)).lookup x =
      (es.find? fun e => x == e.before).map Entry.after := by
  induction es with
  | nil => rfl
  | cons e es ih =>
    rw [List.map_cons, List.lookup_cons, List.find?_cons]
    cases x == e.before with
    | true => rfl
    | false => exact ih

theorem findSome?_lookup (x : String) (scopes : List (List Entry)) :
    (scopes.map (List.map fun e => (e.before, e.after))).findSome? (List.lookup x) =
      (scopes.flatten.find? fun e => x == e.before).map Entry.after := by
  induction scopes with
  | nil => rfl
  | cons es scopes ih =>
    rw [List.map_cons, List.findSome?_cons, lookup_map_entries, List.flatten_cons,
      List.find?_append, ih]
    cases es.find? fun e => x == e.before <;> rfl

namespace Tied

variable {external : List String} {scopes : List (List Entry)} {s : State} {c : Context}
  {sites sites' : List Site}

theorem lookup_eq (h : Tied external scopes s c sites sites') (x : String) :
    s.lookup x = (scopes.flatten.find? fun e => x == e.before).map Entry.after := by
  unfold State.lookup
  rw [h.state, findSome?_lookup]

theorem find?_before (h : Tied external scopes s c sites sites') {e : Entry}
    (he : e ∈ scopes.flatten) (hv : e.visible = true) :
    (scopes.flatten.find? fun e' => e.before == e'.before) = some e := by
  apply find?_of_pairwise h.apart he
  . exact beq_self_eq_true e.before
  . intro b hb hr
    rw [hr (beq_iff_eq.1 hb).symm] at hv
    contradiction

theorem link_before (h : Tied external scopes s c sites sites') {e : Entry}
    (he : e ∈ scopes.flatten) (hv : e.visible = true) :
    Site.link external sites e.before = .site e.number := by
  have hsites : (sites.find? fun site => site.name = e.before) = some (e.site Entry.before) := by
    rw [h.sites]
    unfold Entry.sites
    rw [List.find?_map, Option.map_eq_some_iff]
    refine ⟨e, ?_, rfl⟩
    apply find?_of_pairwise (h.apart.filter _) (List.mem_filter.2 ⟨he, hv⟩)
    . simp [Entry.site]
    . intro b hb hr
      have hbefore : b.before = e.before := of_decide_eq_true hb
      rw [hr hbefore] at hv
      contradiction
  unfold Site.link
  rw [hsites]
  rfl

theorem link_after (h : Tied external scopes s c sites sites') {e : Entry}
    (he : e ∈ scopes.flatten) (hv : e.visible = true) :
    Site.link external sites' e.after = .site e.number := by
  have hsites : (sites'.find? fun site => site.name = e.after) = some (e.site Entry.after) := by
    rw [h.sites']
    unfold Entry.sites
    rw [List.find?_map, Option.map_eq_some_iff]
    refine ⟨e, ?_, rfl⟩
    have hdistinct := List.pairwise_map.1 h.distinct
    apply find?_of_pairwise (hdistinct.filter _) (List.mem_filter.2 ⟨he, hv⟩)
    . simp [Entry.site]
    . intro b hb hr
      exact hr (of_decide_eq_true hb)
  unfold Site.link
  rw [hsites]
  rfl

theorem link_host (h : Tied external scopes s c sites sites') {x : String} (hx : x ∈ external) :
    s.lookup x = none ∧ Site.link external sites x = .host x ∧
    Site.link external sites' x = .host x := by
  refine ⟨?_, ?_, ?_⟩
  . rw [h.lookup_eq, Option.map_eq_none_iff, List.find?_eq_none]
    intro e he hxe
    exact (h.foreign e he).1 (beq_iff_eq.1 hxe ▸ hx)
  . have hnone : (sites.find? fun site => site.name = x) = none := by
      rw [h.sites, List.find?_eq_none]
      intro site hsite hxs
      obtain ⟨e, he, rfl⟩ := List.mem_map.1 hsite
      have hname : e.before = x := of_decide_eq_true hxs
      exact (h.foreign e (List.mem_filter.1 he).1).1 (hname ▸ hx)
    unfold Site.link
    rw [hnone, if_pos hx]
  . have hnone : (sites'.find? fun site => site.name = x) = none := by
      rw [h.sites', List.find?_eq_none]
      intro site hsite hxs
      obtain ⟨e, he, rfl⟩ := List.mem_map.1 hsite
      have hname : e.after = x := of_decide_eq_true hxs
      exact (h.foreign e (List.mem_filter.1 he).1).2 (hname ▸ hx)
    unfold Site.link
    rw [hnone, if_pos hx]

theorem exists_var (h : Tied external scopes s c sites sites') {x : String} (hx : x ∈ c.vars) :
    ∃ e ∈ scopes.flatten, e.visible = true ∧ e.arity? = none ∧ e.before = x := by
  rw [h.vars] at hx
  obtain ⟨e, he, rfl⟩ := List.mem_map.1 hx
  rw [List.mem_filter, Bool.and_eq_true, Option.isNone_iff_eq_none] at he
  exact ⟨e, he.1, he.2.1, he.2.2, rfl⟩

theorem exists_function (h : Tied external scopes s c sites sites') {f : Head}
    (hf : f ∈ c.functions) :
    ∃ e ∈ scopes.flatten, e.visible = true ∧ e.arity? = some (f.parameters, f.returns) ∧
      e.before = f.name := by
  rw [h.functions] at hf
  obtain ⟨e, he, hhead⟩ := List.mem_filterMap.1 hf
  obtain ⟨arity, harity, rfl⟩ := Option.map_eq_some_iff.1 hhead
  exact ⟨e, he, h.callable e he (by rw [harity]; rfl), harity, rfl⟩

theorem use_of_mem (h : Tied external scopes s c sites sites') {i : Identifier} {e : Entry}
    (he : e ∈ scopes.flatten) (hv : e.visible = true) (hi : i.name = e.before)
    {post : Identifier → State → Prop} {failed : Failure → Prop}
    (hpost : post { i with name := e.after } s) : Meets (use external i) s post failed := by
  unfold use
  apply Meets.get_bind
  rw [h.lookup_eq, hi, h.find?_before he hv]
  exact .pure hpost

theorem use_of_host (h : Tied external scopes s c sites sites') {i : Identifier}
    (hi : i.name ∈ external) {post : Identifier → State → Prop} {failed : Failure → Prop}
    (hpost : post i s) : Meets (use external i) s post failed := by
  unfold use
  apply Meets.get_bind
  rw [(h.link_host hi).1]
  simp only
  rw [if_pos (List.contains_iff_mem.2 hi)]
  exact .pure hpost

end Tied
end Disambiguation
end Splice
