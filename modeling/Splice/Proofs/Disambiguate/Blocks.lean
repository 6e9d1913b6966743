import Splice.Proofs.Disambiguate.Renaming

/-!
This module contains the induction over statements and blocks by which the invariant of the pass is
kept through a whole program.
-/

namespace Splice
namespace Disambiguation

structure Kept (external : List String) (scopes : List (List Entry)) (s s' : State) (c : Context)
    (sites sites' : List Site) (links links' : List Link) (width width' : Nat)
    (names : List String) (valid : Context → Prop) : Prop where
  tied : Tied external scopes s' c sites sites'
  same : Same s s' links links' width width' names
  valid : ∀ c', Shows scopes c c' → valid c'

/--
What the pass makes of a statement `x`: what it declares is visible behind it in both programs, and
`first` is what it announces.
-/
def Copied (external : List String) (top : List Entry) (rest : List (List Entry)) (s : State)
    (c : Context) (sites sites' : List Site) (n : Nat) (x : Stmt) (first : List Entry) (x' : Stmt)
    (s' : State) : Prop :=
  ∃ es : List Entry,
    Tied external ((es ++ top) :: rest) s' (c.declare x.declared) (Site.declare sites n x.declared)
      (Site.declare sites' n x'.declared) ∧
    Same s s' (x.links external sites n) (x'.links external sites' n) x.boundNames.length
      x'.boundNames.length x'.innerNames ∧
    AnnouncesOne Entry.after n x' first ∧ x'.announced = first.map Entry.after ∧
    ∀ c', Shows (top :: rest) c c' → x'.Valid c' ∧
      Shows ((es ++ top) :: rest) (c.declare x.declared) (c'.declare x'.declared)

def AllCopied (external : List String) (top : List Entry) (rest : List (List Entry)) (s : State)
    (c : Context) (sites sites' : List Site) (n : Nat) (xs : List Stmt) (funs : List Entry)
    (xs' : List Stmt) (s' : State) : Prop :=
  ∃ es : List Entry,
    Tied external ((es ++ top) :: rest) s' (c.after xs) (Site.after sites n xs)
      (Site.after sites' n xs') ∧
    Same s s' (Stmt.allLinks external sites n xs) (Stmt.allLinks external sites' n xs')
      (Stmt.allBoundNames xs).length (Stmt.allBoundNames xs').length
      (xs'.flatMap Stmt.innerNames) ∧
    Announces Entry.after n xs' funs ∧ xs'.flatMap Stmt.announced = funs.map Entry.after ∧
    ∀ c', Shows (top :: rest) c c' → Stmt.AllValid c' xs' ∧
      Shows ((es ++ top) :: rest) (c.after xs) (c'.after xs')

abbrev KeptStmt (external : List String) (scopes : List (List Entry)) (s : State) (c : Context)
    (sites sites' : List Site) (n : Nat) (x x' : Stmt) (s' : State) : Prop :=
  Kept external scopes s s' c sites sites' (x.links external sites n) (x'.links external sites' n)
    x.boundNames.length x'.boundNames.length x'.innerNames (Stmt.Valid · x')

abbrev KeptBlock (external : List String) (scopes : List (List Entry)) (s : State) (c : Context)
    (sites sites' : List Site) (n : Nat) (b b' : Block) (s' : State) : Prop :=
  Kept external scopes s s' c sites sites' (b.links external sites n) (b'.links external sites' n)
    b.boundNames.length b'.boundNames.length b'.boundNames (Block.Valid · b')

abbrev KeptCases (external : List String) (scopes : List (List Entry)) (s : State) (c : Context)
    (sites sites' : List Site) (n : Nat) (cs cs' : List Case) (s' : State) : Prop :=
  Kept external scopes s s' c sites sites' (Case.allLinks external sites n cs)
    (Case.allLinks external sites' n cs') (Case.allBoundNames cs).length
    (Case.allBoundNames cs').length (Case.allBoundNames cs') (Case.AllValid · cs')

/--
What the pass makes of the statements of a block, as long as it has not left the block. The entries
are those of the block.
-/
structure Inside (external : List String) (es : List Entry) (scopes : List (List Entry)) (s : State)
    (c : Context) (sites sites' : List Site) (n : Nat) (xs xs' : List Stmt) (s' : State) :
    Prop where
  tied : Tied external (es :: scopes) s' ((c.enter xs).after xs)
    (Site.after (Site.enter sites n xs) n xs) (Site.after (Site.enter sites' n xs') n xs')
  same : Same s s' (Stmt.allLinks external (Site.enter sites n xs) n xs)
    (Stmt.allLinks external (Site.enter sites' n xs') n xs') (Stmt.allBoundNames xs).length
    (Stmt.allBoundNames xs').length (Stmt.allBoundNames xs')
  shows : ∀ c', Shows scopes c c' → Stmt.AllValid (c'.enter xs') xs' ∧
    Shows (es :: scopes) ((c.enter xs).after xs) ((c'.enter xs').after xs')

section

variable {external : List String} {top : List Entry} {rest : List (List Entry)} {s s' : State}
  {c : Context} {sites sites' : List Site} {n : Nat}

def Silent (x : Stmt) : Prop := x.declared = [] ∧ x.announced = []

theorem Silent.announcesOne_iff {x : Stmt} (h : Silent x) (key : Entry → String) (n : Nat)
    (first : List Entry) : AnnouncesOne key n x first ↔ first = [] := by
  cases x with
  | function f =>
    obtain ⟨f, body⟩ := f
    cases h.2
  | _ => exact Iff.rfl

theorem Copied.of_kept {x x' : Stmt} {first : List Entry}
    (h : KeptStmt external (top :: rest) s c sites sites' n x x' s') (hx : Silent x)
    (hx' : Silent x') (hfirst : AnnouncesOne Entry.before n x first) :
    Copied external top rest s c sites sites' n x first x' s' := by
  obtain rfl := (hx.announcesOne_iff _ n first).1 hfirst
  refine ⟨[], ?_, h.same, (hx'.announcesOne_iff _ n []).2 rfl, hx'.2, ?_⟩
  . rw [hx.1, hx'.1]
    exact h.tied
  . intro c' hc'
    rw [hx.1, hx'.1]
    exact ⟨h.valid c' hc', hc'⟩

theorem assignable_enter_subset (hsub : c.assignable ⊆ c.external) (xs : List Stmt) :
    (c.enter xs).assignable ⊆ (c.enter xs).external := by
  rw [c.enter_eq]
  exact hsub

theorem assignable_declare_subset (hsub : c.assignable ⊆ c.external) (xs : List Binder) :
    (c.declare xs).assignable ⊆ (c.declare xs).external := by
  rw [c.declare_eq]
  exact hsub

theorem assignable_after_subset (hsub : c.assignable ⊆ c.external) (xs : List Stmt) :
    (c.after xs).assignable ⊆ (c.after xs).external := by
  rw [c.after_eq]
  exact hsub

theorem Announces.arity_ne_none {key : Entry → String} {n : Nat} {xs : List Stmt} {es : List Entry}
    (h : Announces key n xs es) : ∀ e ∈ es, e.arity? ≠ none := by
  induction xs generalizing n es with
  | nil =>
    rw [h]
    simp
  | cons x xs ih =>
    obtain ⟨first, others, rfl, hone, hothers⟩ := h
    rw [List.forall_mem_append]
    refine ⟨?_, ih hothers⟩
    unfold AnnouncesOne at hone
    split at hone
    . obtain ⟨e, rfl, _, _, harity, _⟩ := hone
      simp [harity]
    . simp [hone]

theorem enterBlock_spec {scopes : List (List Entry)} (h : Tied external scopes s c sites sites')
    (n : Nat) (xs : List Stmt) (hd : c.CanEnter xs)
    (hu : xs.flatMap Stmt.announced ⊆ s.supply.used) :
    Meets ((traversal external).enterBlock xs) s (fun _ s' => ∃ funs : List Entry,
      Announces Entry.before n xs funs ∧
      Tied external (funs.reverse :: scopes) s' (c.enter xs) (Site.enter sites n xs)
        ((funs.map (Entry.site Entry.after)).reverse ++ sites') ∧
      Grows s s' (funs.map Entry.after)) Unsupported := by
  apply Meets.modify_bind
  apply (bindFunctions_spec xs n h.enter hd hu _).imp _ fun _ => id
  rintro _ _ ⟨funs, hfuns, htied, hgrows⟩
  rw [List.append_nil] at htied
  exact ⟨funs, hfuns, htied, hgrows.of_enter⟩

theorem leaveBlock_spec {scopes : List (List Entry)} {es : List Entry} {s₂ : State}
    {c₂ : Context} {sites₂ sites₂' : List Site} {names : List String}
    (h : Tied external scopes s c sites sites') (hgrows : Grows s s₂ names)
    (h₂ : Tied external (es :: scopes) s₂ c₂ sites₂ sites₂') :
    Tied external scopes s₂.leave c sites sites' := by
  apply h.leave _ hgrows.leave h₂.used
  unfold State.leave
  rw [h₂.state, h.state]
  rfl

theorem Same.block {s₁ : State} {funs : List Entry} {xs' : List Stmt} {links links' : List Link}
    {width width' : Nat} (hgrows : Grows s s₁ (funs.map Entry.after))
    (h : Same s₁ s' links links' width width' (xs'.flatMap Stmt.innerNames))
    (hfuns : xs'.flatMap Stmt.announced = funs.map Entry.after) :
    Same s s' links links' width width' (Stmt.allBoundNames xs') := by
  have henter : Same s s₁ [] [] 0 0 (funs.map Entry.after) := ⟨rfl, by simp, rfl, hgrows⟩
  have hall := henter.append h
  rw [Nat.zero_add, Nat.zero_add, ← hfuns] at hall
  exact hall.perm (Stmt.allBoundNames_perm xs').symm

theorem used_subset {xs : List Stmt} {used : List String} (h : Stmt.allBoundNames xs ⊆ used) :
    xs.flatMap Stmt.announced ⊆ used ∧ xs.flatMap Stmt.innerNames ⊆ used :=
  List.append_subset.1 (List.Subset.trans (Stmt.allBoundNames_perm xs).symm.subset h)

theorem exists_inside {scopes : List (List Entry)} {s₁ : State} {funs : List Entry}
    {xs xs' : List Stmt} (hgrows : Grows s s₁ (funs.map Entry.after))
    (h : AllCopied external funs.reverse scopes s₁ (c.enter xs) (Site.enter sites n xs)
      ((funs.map (Entry.site Entry.after)).reverse ++ sites') n xs funs xs' s') :
    ∃ es, Inside external es scopes s c sites sites' n xs xs' s' := by
  obtain ⟨es, htied, hsame, hann, hannounced, hshows⟩ := h
  rw [← (hann.enter sites' c).1] at htied hsame
  refine ⟨es ++ funs.reverse, htied, .block hgrows hsame hannounced, fun c' hc' => ?_⟩
  exact hshows _ (hc'.enterBlock xs hann hann.arity_ne_none)

theorem Inside.kept {es : List Entry} {scopes : List (List Entry)} {xs xs' : List Stmt}
    (h : Inside external es scopes s c sites sites' n xs xs' s')
    (hscopes : Tied external scopes s c sites sites') (span : Span) :
    KeptBlock external scopes s c sites sites' n ⟨span, xs⟩ ⟨span, xs'⟩ s'.leave where
  tied := leaveBlock_spec hscopes h.same.grows h.tied
  same := ⟨h.same.links_eq, h.same.bound, h.same.width_eq, h.same.grows.leave⟩
  valid c' hc' := (h.shows c' hc').1

/-! ### Statements with parts -/

theorem Copied.declaration (span : Span) {vars vars' : List Binder} {value value' : Option Expr}
    {first es : List Entry}
    (htied : Tied external ((es ++ top) :: rest) s' (c.declare vars) (Site.declare sites n vars)
      (Site.declare sites' n vars'))
    (hvars : ∀ e ∈ es, e.arity? = none)
    (hnames : es.map Entry.after = (vars'.map Binder.name).reverse)
    (hlength : vars'.length = vars.length) (hgrows : Grows s s' (vars'.map Binder.name))
    (hsame : Same s s ((Stmt.declaration span vars value).links external sites n)
      ((Stmt.declaration span vars' value').links external sites' n) 0 0 [])
    (hvalid : ∀ c', Shows (top :: rest) c c' → (Stmt.declaration span vars' value').Valid c')
    (hfirst : AnnouncesOne Entry.before n (.declaration span vars value) first) :
    Copied external top rest s c sites sites' n (.declaration span vars value) first
      (.declaration span vars' value') s' := by
  obtain rfl : first = [] := hfirst
  refine ⟨es, htied, ⟨hsame.links_eq, hsame.bound, ?_, hgrows⟩, rfl, rfl, fun c' hc' => ?_⟩
  . simp only [Stmt.boundNames, List.length_map, hlength]
  . exact ⟨hvalid c' hc', hc'.declare vars hvars hnames⟩

theorem Copied.assignment (span : Span) {targets targets' : List Identifier} {value value' : Expr}
    {first : List Entry} (h : Tied external (top :: rest) s c sites sites')
    (htargets : Same s s (targets.map fun i => Site.link external sites i.name)
      (targets'.map fun i => Site.link external sites' i.name) 0 0 [])
    (hlength : targets'.length = targets.length)
    (hassignable : ∀ c', Shows (top :: rest) c c' → ∀ i ∈ targets', c'.Assignable i.name)
    (hvalue : Same s s (value.links external sites) (value'.links external sites') 0 0 [])
    (hyields : ∀ c', Shows (top :: rest) c c' → value'.Yields c' targets.length)
    (htargetless : targets = [] → c.targetless = true)
    (hfirst : AnnouncesOne Entry.before n (.assignment span targets value) first) :
    Copied external top rest s c sites sites' n (.assignment span targets value) first
      (.assignment span targets' value') s := by
  refine .of_kept ⟨h, htargets.after hvalue, fun c' hc' => ?_⟩ ⟨rfl, rfl⟩ ⟨rfl, rfl⟩ hfirst
  have hvalid := hyields c' hc'
  rw [← hlength] at hvalid
  refine ⟨hvalid, hassignable c' hc', fun hnil => ?_⟩
  rw [hnil, List.length_nil, eq_comm, List.length_eq_zero_iff] at hlength
  exact hc'.targetless (htargetless hlength)

theorem Copied.conditional (span : Span) {condition condition' : Expr} {body body' : Block}
    {first : List Entry}
    (hcondition : Same s s (condition.links external sites) (condition'.links external sites')
      0 0 [])
    (hyields : ∀ c', Shows (top :: rest) c c' → condition'.Yields c' 1)
    (hbody : KeptBlock external (top :: rest) s c sites sites' n body body' s')
    (hfirst : AnnouncesOne Entry.before n (.conditional span condition body) first) :
    Copied external top rest s c sites sites' n (.conditional span condition body) first
      (.conditional span condition' body') s' := by
  refine .of_kept ⟨hbody.tied, hcondition.after hbody.same, fun c' hc' => ?_⟩ ⟨rfl, rfl⟩ ⟨rfl, rfl⟩
    hfirst
  exact ⟨hyields c' hc', hbody.valid c' hc'⟩

theorem Copied.switch (span : Span) {subject subject' : Expr} {arms arms' : List Case}
    {first : List Entry}
    (hsubject : Same s s (subject.links external sites) (subject'.links external sites') 0 0 [])
    (hyields : ∀ c', Shows (top :: rest) c c' → subject'.Yields c' 1)
    (harms : KeptCases external (top :: rest) s c sites sites' n arms arms' s')
    (hheads : Case.HeadsValid (arms'.map Case.value))
    (hfirst : AnnouncesOne Entry.before n (.switch span subject arms) first) :
    Copied external top rest s c sites sites' n (.switch span subject arms) first
      (.switch span subject' arms') s' := by
  refine .of_kept ⟨harms.tied, hsubject.after harms.same, fun c' hc' => ?_⟩ ⟨rfl, rfl⟩ ⟨rfl, rfl⟩
    hfirst
  exact ⟨hyields c' hc', harms.valid c' hc', hheads⟩

theorem Copied.loop {es : List Entry} {pre pre' : List Stmt} {condition condition' : Expr}
    {post post' body body' : Block} {s₁ s₂ s₃ : State} {first : List Entry} (span preSpan : Span)
    (h : Tied external (top :: rest) s c sites sites')
    (hpre : Inside external es (top :: rest) s c sites sites' n pre pre' s₁)
    (hcondition : Same s₁ s₁
      (condition.links external (Site.after (Site.enter sites n pre) n pre))
      (condition'.links external (Site.after (Site.enter sites' n pre') n pre')) 0 0 [])
    (hyields : ∀ c', Shows (es :: top :: rest) ((c.enter pre).after pre) c' →
      condition'.Yields c' 1)
    (hpost : KeptBlock external (es :: top :: rest) s₁ ((c.enter pre).after pre)
      (Site.after (Site.enter sites n pre) n pre) (Site.after (Site.enter sites' n pre') n pre')
      (n + (Stmt.allBoundNames pre).length) post post' s₂)
    (hbody : KeptBlock external (es :: top :: rest) s₂ ((c.enter pre).after pre)
      (Site.after (Site.enter sites n pre) n pre) (Site.after (Site.enter sites' n pre') n pre')
      (n + (Stmt.allBoundNames pre).length + post.boundNames.length) body body' s₃)
    (hfirst : AnnouncesOne Entry.before n (.loop span ⟨preSpan, pre⟩ condition post body) first) :
    Copied external top rest s c sites sites' n (.loop span ⟨preSpan, pre⟩ condition post body)
      first (.loop span ⟨preSpan, pre'⟩ condition' post' body') s₃.leave := by
  have hsame := ((hpre.same.before hcondition).append hpost.same).append hbody.same
  have hleave := leaveBlock_spec h hsame.grows hbody.tied
  refine .of_kept ⟨hleave, ⟨?_, hsame.bound, ?_, hsame.grows.leave⟩, fun c' hc' => ?_⟩ ⟨rfl, rfl⟩
    ⟨rfl, rfl⟩ hfirst
  . simp only [Stmt.links, hpre.same.width_eq, hpost.same.width_eq]
    exact hsame.links_eq
  . simp only [Stmt.boundNames, List.length_append]
    exact hsame.width_eq
  . obtain ⟨hvalid, hafter⟩ := hpre.shows c' hc'
    exact ⟨hvalid, hyields _ hafter, hpost.valid _ hafter, hbody.valid _ hafter⟩

theorem Copied.function {f f' : Signature} {body body' : Block} {e : Entry} {es : List Entry}
    {s₁ s₂ : State} (h : Tied external (top :: rest) s c sites sites') (hname : f'.name = e.after)
    (hparameters : f'.parameters.length = f.parameters.length)
    (hreturns : f'.returns.length = f.returns.length)
    (hgrows : Grows s s₁ ((f'.parameters ++ f'.returns).map Binder.name))
    (hshows : ∀ c', Shows (top :: rest) c c' →
      Shows (es :: (top :: rest).map (List.map Entry.hide))
        (c.enterFunction (f.parameters ++ f.returns))
        (c'.enterFunction (f'.parameters ++ f'.returns)))
    (hbody : KeptBlock external (es :: (top :: rest).map (List.map Entry.hide)) s₁
      (c.enterFunction (f.parameters ++ f.returns))
      (Site.enterFunction sites (n + 1) (f.parameters ++ f.returns))
      (Site.enterFunction sites' (n + 1) (f'.parameters ++ f'.returns))
      (n + 1 + (f.parameters ++ f.returns).length) body body' s₂)
    (hfirst : AnnouncesOne Entry.before n (.function ⟨f, body⟩) [e]) :
    Copied external top rest s c sites sites' n (.function ⟨f, body⟩) [e] (.function ⟨f', body'⟩)
      s₂.leave := by
  have hsame := hgrows.trans hbody.same.grows
  have hwidth : (f'.parameters ++ f'.returns).length = (f.parameters ++ f.returns).length := by
    rw [List.length_append, List.length_append, hparameters, hreturns]
  refine ⟨[], ?_, ⟨?_, hbody.same.bound, ?_, ?_⟩, ?_, ?_, ?_⟩
  . apply h.leave _ hsame.leave hbody.tied.used
    unfold State.leave
    rw [hbody.tied.state, h.state, List.map_cons, List.tail_cons, List.map_map]
    apply List.map_congr_left
    intro es' _
    exact List.map_map ..
  . simp only [Stmt.links, hwidth]
    exact hbody.same.links_eq
  . simp only [Stmt.boundNames, List.length_append, List.length_cons, List.length_map,
      hparameters, hreturns, hbody.same.width_eq]
  . simp only [Stmt.innerNames, ← List.map_append]
    exact hsame.leave
  . obtain ⟨_, heq, _, hnumber, harity, hvisible⟩ := hfirst
    obtain rfl := List.singleton_inj.1 heq
    exact ⟨e, rfl, hname.symm, hnumber, by rw [harity, hparameters, hreturns], hvisible⟩
  . simp only [Stmt.announced, hname]
    rfl
  . exact fun c' hc' => ⟨hbody.valid _ (hshows c' hc'), hc'⟩

end

mutual

theorem stmt_spec {external : List String} {top : List Entry} {rest : List (List Entry)} {s : State}
    {c : Context} {sites sites' : List Site} (h : Tied external (top :: rest) s c sites sites')
    (hsub : c.assignable ⊆ c.external) (n : Nat) {first : List Entry} (hmem : first ⊆ top) :
    (x : Stmt) → x.Valid c → x.DeclaresNew c → x.innerNames ⊆ s.supply.used →
      AnnouncesOne Entry.before n x first →
      Meets ((traversal external).stmt x) s (Copied external top rest s c sites sites' n x first)
        Unsupported
  | .expression e, hv, _, _, hfirst => by
    unfold Traversal.stmt
    apply (expr_spec h e hv).bind
    rintro e' s' ⟨rfl, hsame, hshows⟩
    exact .pure (.of_kept ⟨h, hsame, hshows⟩ ⟨rfl, rfl⟩ ⟨rfl, rfl⟩ hfirst)
  | .declaration span vars value, hv, hd, hu, hfirst => by
    unfold Traversal.stmt
    apply (optionalExpr_spec h span vars n value hv).bind
    rintro value' s' ⟨rfl, hvalue⟩
    apply (bindAll_spec vars n h hd hu _).bind
    rintro vars' s₁ ⟨es, htied, hgrows, hlength, hvars, hnames⟩
    obtain ⟨hsame, hvalid⟩ := hvalue vars' hlength
    exact .pure (.declaration span htied hvars hnames hlength hgrows hsame hvalid hfirst)
  | .assignment span targets value, hv, _, _, hfirst => by
    unfold Traversal.stmt
    apply (uses_spec h hsub targets hv.2.1).bind
    rintro targets' s' ⟨rfl, hsame, hlength, hshows⟩
    apply (expr_spec h value hv.1).bind
    rintro value' s' ⟨rfl, hsame', hshows'⟩
    exact .pure (.assignment span h hsame hlength hshows hsame' hshows' hv.2.2 hfirst)
  | .conditional span condition body, hv, hd, hu, hfirst => by
    unfold Traversal.stmt
    apply (expr_spec h condition hv.1).bind
    rintro condition' s' ⟨rfl, hsame, hshows⟩
    apply (block_spec h hsub n body hv.2 hd hu).bind
    rintro body' s₁ hbody
    exact .pure (.conditional span hsame hshows hbody hfirst)
  | .switch span subject arms, hv, hd, hu, hfirst => by
    unfold Traversal.stmt
    apply (expr_spec h subject hv.1).bind
    rintro subject' s' ⟨rfl, hsame, hshows⟩
    apply (cases_spec h hsub n arms hv.2.1 hd hu).bind
    rintro arms' s₁ ⟨harms, hheads⟩
    exact .pure (.switch span hsame hshows harms (hheads ▸ hv.2.2) hfirst)
  | .loop span ⟨preSpan, pre⟩ condition post body, hv, hd, hu, hfirst => by
    change Stmt.allBoundNames pre ++ post.boundNames ++ body.boundNames ⊆ _ at hu
    rw [List.append_subset, List.append_subset] at hu
    obtain ⟨huenter, huinner⟩ := used_subset hu.1.1
    unfold Traversal.stmt
    apply (enterBlock_spec h n pre hd.1 huenter).bind
    rintro _ s₁ ⟨funs, hfuns, htied₁, hgrows₁⟩
    have hsub₁ := assignable_enter_subset hsub pre
    apply (stmts_spec htied₁ hsub₁ n (List.reverse_perm funs).symm.subset pre
      hv.1 hd.2.1 (List.Subset.trans huinner hgrows₁.used) hfuns).bind
    rintro pre' s₂ hcopied
    -- The block of `pre` is left behind the loop only, so the other parts are inside of it.
    obtain ⟨es, hpre⟩ := exists_inside hgrows₁ hcopied
    have hsub₂ := assignable_after_subset hsub₁ pre
    apply (expr_spec hpre.tied condition hv.2.1).bind
    rintro condition' _ ⟨rfl, hcondition, hyields⟩
    have hupost := List.Subset.trans hu.1.2 hpre.same.grows.used
    apply (block_spec hpre.tied hsub₂ _ post hv.2.2.1 hd.2.2.1 hupost).bind
    rintro post' s₃ hpost
    have hubody := List.Subset.trans hu.2 (hpre.same.grows.trans hpost.same.grows).used
    apply (block_spec hpost.tied hsub₂ _ body hv.2.2.2 hd.2.2.2 hubody).bind
    rintro body' s₄ hbody
    apply Meets.modify_bind
    exact .pure (.loop span preSpan h hpre hcondition hyields hpost hbody hfirst)
  | .function ⟨f, body⟩, hv, hd, hu, hfirst => by
    obtain ⟨e, rfl, hbefore, _, _, hvisible⟩ := id hfirst
    have he : e ∈ top := hmem (List.mem_singleton.2 rfl)
    simp only [Stmt.innerNames, ← List.map_append] at hu
    rw [List.append_subset] at hu
    unfold Traversal.stmt
    apply (enterFunction_spec h n he hvisible hbefore hd.1 hu.1).bind
    rintro f' s₁ ⟨hname, hparameters, hreturns, es, htied₁, hgrows₁, hshows₁⟩
    have hsub₁ : (c.enterFunction (f.parameters ++ f.returns)).assignable ⊆
        (c.enterFunction (f.parameters ++ f.returns)).external :=
      assignable_declare_subset (c := { c with vars := [] }) hsub _
    apply (block_spec htied₁ hsub₁ _ body hv hd.2 (List.Subset.trans hu.2 hgrows₁.used)).bind
    rintro body' s₂ hbody
    apply Meets.modify_bind
    exact .pure (.function h hname hparameters hreturns hgrows₁ hshows₁ hbody hfirst)
  | .block b, hv, hd, hu, hfirst => by
    unfold Traversal.stmt
    apply (block_spec h hsub n b hv hd hu).bind
    rintro b' s₁ hb
    exact .pure (.of_kept ⟨hb.tied, hb.same, hb.valid⟩ ⟨rfl, rfl⟩ ⟨rfl, rfl⟩ hfirst)
  | .stack form, _, _, _, _ => by
    unfold Traversal.stmt
    exact Meets.throw_bind ⟨form, rfl⟩

theorem stmts_spec {external : List String} {top : List Entry} {rest : List (List Entry)}
    {s : State} {c : Context} {sites sites' : List Site}
    (h : Tied external (top :: rest) s c sites sites') (hsub : c.assignable ⊆ c.external) (n : Nat)
    {funs : List Entry} (hmem : funs ⊆ top) :
    (xs : List Stmt) → Stmt.AllValid c xs → Stmt.AllDeclareNew c xs →
      xs.flatMap Stmt.innerNames ⊆ s.supply.used → Announces Entry.before n xs funs →
      Meets ((traversal external).stmts xs) s
        (AllCopied external top rest s c sites sites' n xs funs) Unsupported
  | [], _, _, _, hfuns => by
    cases hfuns
    exact .pure ⟨[], h, .nil s, rfl, rfl, fun c' hc' => ⟨trivial, hc'⟩⟩
  | x :: xs, hv, hd, hu, hfuns => by
    obtain ⟨first, others, rfl, hone, hothers⟩ := hfuns
    rw [List.append_subset] at hmem
    rw [List.flatMap_cons, List.append_subset] at hu
    unfold Traversal.stmts
    apply (stmt_spec h hsub n hmem.1 x hv.1 hd.1 hu.1 hone).bind
    rintro x' s₁ ⟨es, htied, hsame, hone', hannounced, hshows⟩
    have hsub₁ := assignable_declare_subset hsub x.declared
    have hmem₁ : others ⊆ es ++ top := List.Subset.trans hmem.2 (List.subset_append_right es top)
    have hu₁ : xs.flatMap Stmt.innerNames ⊆ s₁.supply.used :=
      List.Subset.trans hu.2 hsame.grows.used
    have hxs := stmts_spec htied hsub₁ (n + x.boundNames.length) hmem₁ xs hv.2 hd.2 hu₁ hothers
    apply hxs.bind
    rintro xs' s₂ ⟨es', htied', hsame', hothers', hannounced', hshows'⟩
    have hwidth := hsame.width_eq
    refine .pure ⟨es' ++ es, ?_, ?_, ⟨first, others, rfl, hone', hwidth ▸ hothers'⟩, ?_, ?_⟩
    . unfold Context.after Site.after
      rw [List.append_assoc, hwidth]
      exact htied'
    . have hall := hsame.append hsame'
      simp only [Stmt.allLinks, Stmt.allBoundNames, List.length_append, List.flatMap_cons]
      rw [hwidth] at hall ⊢
      exact hall
    . rw [List.flatMap_cons, List.map_append, hannounced, hannounced']
    . intro c' hc'
      obtain ⟨hvalid, hnext⟩ := hshows c' hc'
      obtain ⟨hvalid', hlast⟩ := hshows' _ hnext
      unfold Context.after
      rw [List.append_assoc]
      exact ⟨⟨hvalid, hvalid'⟩, hlast⟩

theorem block_spec {external : List String} {scopes : List (List Entry)} {s : State} {c : Context}
    {sites sites' : List Site} (h : Tied external scopes s c sites sites')
    (hsub : c.assignable ⊆ c.external) (n : Nat) :
    (b : Block) → b.Valid c → b.DeclaresNew c → b.boundNames ⊆ s.supply.used →
      Meets ((traversal external).block b) s (KeptBlock external scopes s c sites sites' n b)
        Unsupported
  | ⟨span, xs⟩, hv, hd, hu => by
    obtain ⟨huenter, huinner⟩ := used_subset hu
    unfold Traversal.block
    apply (enterBlock_spec h n xs hd.1 huenter).bind
    rintro _ s₁ ⟨funs, hfuns, htied₁, hgrows₁⟩
    apply (stmts_spec htied₁ (assignable_enter_subset hsub xs) n
      (List.reverse_perm funs).symm.subset xs hv hd.2 (List.Subset.trans huinner hgrows₁.used)
      hfuns).bind
    rintro xs' s₂ hcopied
    obtain ⟨es, hinside⟩ := exists_inside hgrows₁ hcopied
    apply Meets.modify_bind
    exact .pure (hinside.kept h span)

theorem cases_spec {external : List String} {scopes : List (List Entry)} {s : State} {c : Context}
    {sites sites' : List Site} (h : Tied external scopes s c sites sites')
    (hsub : c.assignable ⊆ c.external) (n : Nat) :
    (cs : List Case) → Case.AllValid c cs → Case.AllDeclareNew c cs →
      Case.allBoundNames cs ⊆ s.supply.used →
      Meets ((traversal external).cases cs) s (fun cs' s' =>
        KeptCases external scopes s c sites sites' n cs cs' s' ∧
        cs'.map Case.value = cs.map Case.value) Unsupported
  | [], _, _, _ => .pure ⟨⟨h, .nil s, fun _ _ => trivial⟩, rfl⟩
  | ⟨span, value, body⟩ :: cs, hv, hd, hu => by
    unfold Case.allBoundNames at hu
    rw [List.append_subset] at hu
    unfold Traversal.cases
    apply (block_spec h hsub n body hv.1 hd.1 hu.1).bind
    rintro body' s₁ hbody
    apply (cases_spec hbody.tied hsub (n + body.boundNames.length) cs hv.2 hd.2
      (List.Subset.trans hu.2 hbody.same.grows.used)).bind
    rintro cs' s₂ ⟨hcs, hheads⟩
    refine .pure ⟨⟨hcs.tied, ?_, fun c' hc' => ⟨hbody.valid c' hc', hcs.valid c' hc'⟩⟩, ?_⟩
    . have hall := hbody.same.append hcs.same
      simp only [Case.allLinks, Case.allBoundNames, List.length_append]
      rw [hbody.same.width_eq] at hall ⊢
      exact hall
    . rw [List.map_cons, List.map_cons, hheads]

end

end Disambiguation
end Splice
