import Splice.Proofs.Disambiguate.Calls

/-!
This module contains the proof that the calls of a program are resolved to the places that bind
their names.
-/

namespace Splice

/-! ## The places of names -/

def Site.StandAt (names : List String) (n : Nat) (xs : List String) : Prop := xs <+: names.drop n

def Site.Numbered (names : List String) (sites : List Site) : Prop :=
  ∀ site ∈ sites, names[site.number]? = some site.name

namespace Site

variable {names : List String} {n : Nat} {sites : List Site}

theorem StandAt.append {xs ys : List String} (h : StandAt names n (xs ++ ys)) :
    StandAt names n xs ∧ StandAt names (n + xs.length) ys := by
  obtain ⟨rest, hrest⟩ := h
  constructor
  . exact ⟨ys ++ rest, by rw [← hrest, List.append_assoc]⟩
  . refine ⟨rest, ?_⟩
    rw [← List.drop_drop, ← hrest, List.append_assoc, List.drop_left]

theorem StandAt.cons {x : String} {xs : List String} (h : StandAt names n (x :: xs)) :
    names[n]? = some x ∧ StandAt names (n + 1) xs := by
  have hxs : StandAt names n ([x] ++ xs) := h
  refine ⟨?_, hxs.append.2⟩
  obtain ⟨rest, hrest⟩ := h
  have hdrop : (names.drop n)[0]? = some x := by rw [← hrest]; rfl
  rwa [List.getElem?_drop] at hdrop

theorem Numbered.cons (h : Numbered names sites) {site : Site}
    (hsite : names[site.number]? = some site.name) : Numbered names (site :: sites) :=
  List.forall_mem_cons.2 ⟨hsite, h⟩

theorem Numbered.declare (h : Numbered names sites) {xs : List Binder}
    (hxs : StandAt names n (xs.map Binder.name)) : Numbered names (Site.declare sites n xs) := by
  induction xs generalizing sites n with
  | nil => exact h
  | cons x xs ih =>
    obtain ⟨hx, hxs⟩ := hxs.cons
    exact ih (h.cons hx) hxs

theorem Numbered.announce (h : Numbered names sites) {s : Stmt}
    (hs : StandAt names n s.boundNames) : Numbered names (Site.announce sites n s) := by
  unfold Site.announce
  split
  . exact h.cons hs.cons.1
  . exact h

theorem Numbered.enter (h : Numbered names sites) {ss : List Stmt}
    (hss : StandAt names n (Stmt.allBoundNames ss)) : Numbered names (Site.enter sites n ss) := by
  induction ss generalizing sites n with
  | nil => exact h
  | cons s ss ih =>
    obtain ⟨hs, hss⟩ := StandAt.append hss
    exact ih (h.announce hs) hss

theorem Numbered.declared (h : Numbered names sites) {s : Stmt}
    (hs : StandAt names n s.boundNames) : Numbered names (Site.declare sites n s.declared) := by
  unfold Stmt.declared
  split
  . exact h.declare hs
  . exact h

theorem Numbered.after (h : Numbered names sites) {ss : List Stmt}
    (hss : StandAt names n (Stmt.allBoundNames ss)) : Numbered names (Site.after sites n ss) := by
  induction ss generalizing sites n with
  | nil => exact h
  | cons s ss ih =>
    obtain ⟨hs, hss⟩ := StandAt.append hss
    exact ih (h.declared hs) hss

theorem Numbered.enterFunction (h : Numbered names sites) {xs : List Binder}
    (hxs : StandAt names n (xs.map Binder.name)) :
    Numbered names (Site.enterFunction sites n xs) := by
  apply Numbered.declare _ hxs
  exact fun site hsite => h site (List.mem_filter.1 hsite).1

theorem Numbered.link (h : Numbered names sites) {external : List String} {y : String}
    (hexternal : y ∉ external) (hbound : Site.link external sites y ≠ .unbound y) :
    ∃ j, Site.link external sites y = .site j ∧ names[j]? = some y := by
  unfold Site.link at hbound ⊢
  split
  . next site hsite =>
    have hfound := List.find?_some hsite
    have hname : site.name = y := of_decide_eq_true hfound
    exact ⟨site.number, rfl, hname ▸ h site (List.mem_of_find?_eq_some hsite)⟩
  . next hnone =>
    rw [hnone] at hbound
    exact (hbound (if_neg hexternal)).elim

end Site

/-! ## The uses of a block -/

/--
The number of the innermost function around something, where `caller` is that of the innermost one
around all that is looked at.
-/
def Innermost (names : List String) (caller : Option Nat) : List String → Option Nat → Prop
  | [], number => number = caller
  | x :: _, number => ∃ i, number = some i ∧ names[i]? = some x

def Lists (external names : List String) (caller : Option Nat) (o : Occurrence) (y : String)
    (us : List Use) : Prop :=
  ∃ sites number, Site.Numbered names sites ∧ Innermost names caller o.enclosing number ∧
    ⟨number, true, Site.link external sites y⟩ ∈ us

section

variable {external names : List String} {caller : Option Nat} {o : Occurrence} {y : String}

theorem Lists.subset {us us' : List Use} (h : Lists external names caller o y us) (hus : us ⊆ us') :
    Lists external names caller o y us' := by
  obtain ⟨sites, number, hsites, hnumber, hmem⟩ := h
  exact ⟨sites, number, hsites, hnumber, hus hmem⟩

theorem Lists.inside {n : Nat} {us : List Use} (h : Lists external names (some n) o y us)
    {x : String} (hx : names[n]? = some x) : Lists external names caller (o.inside [x]) y us := by
  obtain ⟨sites, number, hsites, hnumber, hmem⟩ := h
  refine ⟨sites, number, hsites, ?_, hmem⟩
  unfold Occurrence.inside
  cases henclosing : o.enclosing with
  | nil =>
    rw [henclosing] at hnumber
    exact ⟨n, hnumber, hx⟩
  | cons z outer =>
    rw [henclosing] at hnumber
    exact hnumber

end

section

variable {external names : List String} {y : String}

mutual

theorem Expr.listed {o : Occurrence} (hy : o.item = .call y) {caller : Option Nat}
    {sites : List Site} (hsites : Site.Numbered names sites) : (e : Expr) → o ∈ e.occurrences →
    Lists external names caller o y (e.uses external caller sites)
  | .call _ callee arguments, ho => by
    rcases List.mem_cons.1 ho with rfl | ho
    . injection hy with hy
      exact ⟨sites, caller, hsites, rfl, hy ▸ List.mem_cons_self⟩
    . exact (Expr.all_listed hy hsites arguments ho).subset (List.subset_cons_self _ _)
  | .instruction _ _ arguments, ho => by
    rcases List.mem_cons.1 ho with rfl | ho
    . contradiction
    . exact Expr.all_listed hy hsites arguments ho

theorem Expr.all_listed {o : Occurrence} (hy : o.item = .call y) {caller : Option Nat}
    {sites : List Site} (hsites : Site.Numbered names sites) : (es : List Expr) →
    o ∈ Expr.allOccurrences es →
    Lists external names caller o y (Expr.allUses external caller sites es)
  | e :: es, ho => by
    rcases List.mem_append.1 ho with ho | ho
    . exact (e.listed hy hsites ho).subset (List.subset_append_left _ _)
    . exact (Expr.all_listed hy hsites es ho).subset (List.subset_append_right _ _)

end

mutual

theorem Stmt.listed {o : Occurrence} (hy : o.item = .call y) {caller : Option Nat}
    {sites : List Site} (hsites : Site.Numbered names sites) {n : Nat} : (s : Stmt) →
    Site.StandAt names n s.boundNames → o ∈ s.occurrences →
    Lists external names caller o y (s.uses external caller sites n)
  | .expression e, _, ho => e.listed hy hsites ho
  | .declaration _ _ (some value), _, ho => value.listed hy hsites ho
  | .assignment _ _ value, _, ho =>
    (value.listed hy hsites ho).subset (List.subset_append_right _ _)
  | .conditional _ condition body, hn, ho => by
    rcases List.mem_append.1 ho with ho | ho
    . exact (condition.listed hy hsites ho).subset (List.subset_append_left _ _)
    . exact (body.listed hy hsites hn ho).subset (List.subset_append_right _ _)
  | .switch _ subject arms, hn, ho => by
    rcases List.mem_append.1 ho with ho | ho
    . exact (subject.listed hy hsites ho).subset (List.subset_append_left _ _)
    . exact (Case.all_listed hy hsites arms hn ho).subset (List.subset_append_right _ _)
  | .loop _ ⟨_, pre⟩ condition post body, hn, ho => by
    obtain ⟨hn, hbody⟩ := Site.StandAt.append hn
    obtain ⟨hpre, hpost⟩ := Site.StandAt.append hn
    rw [List.length_append, ← Nat.add_assoc] at hbody
    -- The sites of `pre` stand in front of the condition, the post block and the body.
    have hstart := hsites.enter hpre
    have hrest := hstart.after hpre
    simp only [Stmt.occurrences, Block.occurrences, List.mem_append] at ho
    rcases ho with ((ho | ho) | ho) | ho
    . refine (Stmt.all_listed hy hstart pre hpre ho).subset ?_
      exact fun _ hu => List.mem_append_left _ (List.mem_append_left _ (List.mem_append_left _ hu))
    . obtain ⟨o', ho', rfl⟩ := List.mem_map.1 ho
      have hlisted : Lists external names caller o'.ofCondition y
          (condition.uses external caller (Site.after (Site.enter sites n pre) n pre)) :=
        Expr.listed (o := o') hy hrest condition ho'
      refine hlisted.subset ?_
      exact fun _ hu => List.mem_append_left _ (List.mem_append_left _ (List.mem_append_right _ hu))
    . refine (post.listed hy hrest hpost ho).subset ?_
      exact fun _ hu => List.mem_append_left _ (List.mem_append_right _ hu)
    . refine (body.listed hy hrest hbody ho).subset ?_
      exact fun _ hu => List.mem_append_right _ hu
  | .function ⟨f, body⟩, hn, ho => by
    rcases List.mem_cons.1 ho with rfl | ho
    . contradiction
    . obtain ⟨o', ho', rfl⟩ := List.mem_map.1 ho
      obtain ⟨hhead, hbody⟩ := Site.StandAt.append hn
      rw [List.cons_append, ← List.map_append] at hhead hbody
      rw [List.length_cons, List.length_map, Nat.add_comm _ 1, ← Nat.add_assoc] at hbody
      -- The function itself has the first number, its variables have the next ones.
      obtain ⟨hname, hxs⟩ := hhead.cons
      exact (Block.listed (o := o') hy (hsites.enterFunction hxs) body hbody ho').inside hname
  | .block b, hn, ho => b.listed hy hsites hn ho
  | .stack (.instruction ..), _, ho => by
    rw [List.mem_singleton.1 ho] at hy
    contradiction

theorem Stmt.all_listed {o : Occurrence} (hy : o.item = .call y) {caller : Option Nat}
    {sites : List Site} (hsites : Site.Numbered names sites) {n : Nat} : (ss : List Stmt) →
    Site.StandAt names n (Stmt.allBoundNames ss) → o ∈ Stmt.allOccurrences ss →
    Lists external names caller o y (Stmt.allUses external caller sites n ss)
  | s :: ss, hn, ho => by
    obtain ⟨hs, hss⟩ := Site.StandAt.append hn
    rcases List.mem_append.1 ho with ho | ho
    . exact (s.listed hy hsites hs ho).subset (List.subset_append_left _ _)
    . exact (Stmt.all_listed hy (hsites.declared hs) ss hss ho).subset
        (List.subset_append_right _ _)

theorem Block.listed {o : Occurrence} (hy : o.item = .call y) {caller : Option Nat}
    {sites : List Site} (hsites : Site.Numbered names sites) {n : Nat} : (b : Block) →
    Site.StandAt names n b.boundNames → o ∈ b.occurrences →
    Lists external names caller o y (b.uses external caller sites n)
  | ⟨_, ss⟩, hn, ho => Stmt.all_listed hy (hsites.enter hn) ss hn ho

theorem Case.all_listed {o : Occurrence} (hy : o.item = .call y) {caller : Option Nat}
    {sites : List Site} (hsites : Site.Numbered names sites) {n : Nat} : (cs : List Case) →
    Site.StandAt names n (Case.allBoundNames cs) → o ∈ Case.allOccurrences cs →
    Lists external names caller o y (Case.allUses external caller sites n cs)
  | ⟨_, _, body⟩ :: cs, hn, ho => by
    obtain ⟨hbody, hcs⟩ := Site.StandAt.append hn
    rcases List.mem_append.1 ho with ho | ho
    . exact (body.listed hy hsites hbody ho).subset (List.subset_append_left _ _)
    . exact (Case.all_listed hy hsites cs hcs ho).subset (List.subset_append_right _ _)

end

end

end Splice
