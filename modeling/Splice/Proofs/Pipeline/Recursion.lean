import Mathlib.Data.List.Perm.Subperm
import Mathlib.Logic.Relation
import Splice.Proofs.Disambiguate.Numbers
import Splice.Proofs.Inline.Failures
import Splice.Proofs.Pipeline.Preservation

/-!
This module contains the proof that inlining again and again removes all calls but those of
recursive functions.
-/

namespace Splice

open Relation

/-! ## Cycles -/

def OnlyLoops {α : Type} (r : α → α → Prop) : Prop :=
  ∀ x y, TransGen r x y → TransGen r y x → x = y

theorem OnlyLoops.self {α : Type} {r : α → α → Prop} (h : OnlyLoops r) {x : α}
    (hx : TransGen r x x) : r x x := by
  obtain ⟨y, hxy, hyx⟩ := TransGen.head'_iff.1 hx
  rcases reflTransGen_iff_eq_or_transGen.1 hyx with rfl | hyx
  . exact hxy
  . rwa [← h x y (.single hxy) hyx] at hxy

theorem OnlyLoops.of_le {r : Nat → Nat → Prop} (h : ∀ i j, r i j → j ≤ i) : OnlyLoops r := by
  have hle : ∀ i j, TransGen r i j → j ≤ i := by
    intro i j hij
    induction hij with
    | single hij => exact h _ _ hij
    | tail _ hjk ih => exact Nat.le_trans (h _ _ hjk) ih
  exact fun i j hij hji => Nat.le_antisymm (hle j i hji) (hle i j hij)

/-! ## Calls -/

def Occurrence.isFlat (o : Occurrence) : Bool :=
  match o.item with
  | .call _ => !o.inCondition
  | .instruction _ => true
  | .definition _ => o.enclosing.isEmpty

namespace Block

def HasCall (b : Block) (y : String) : Prop := ∃ o ∈ b.occurrences, o.item = .call y

def Calls (b : Block) (x y : String) : Prop :=
  ∃ o ∈ b.occurrences, o.item = .call y ∧ x ∈ o.enclosing

/--
No function is defined in another one, and no function is called in the condition of a loop.
-/
structure Flat (b : Block) : Prop where
  definitions : ∀ o ∈ b.occurrences, ∀ f, o.item = .definition f → o.enclosing = []
  conditions : ∀ o ∈ b.occurrences, ∀ x, o.item = .call x → o.inCondition = false

variable {b : Block}

theorem flat_iff : b.Flat ↔ b.occurrences.all Occurrence.isFlat = true := by
  rw [List.all_eq_true]
  unfold Occurrence.isFlat
  constructor
  . intro h o ho
    split
    . next x hitem => rw [h.conditions o ho x hitem]; rfl
    . rfl
    . next f hitem => rw [h.definitions o ho f hitem]; rfl
  . intro h
    constructor
    . intro o ho f hitem
      have hall := h o ho
      rw [hitem] at hall
      exact List.isEmpty_iff.1 hall
    . intro o ho x hitem
      have hall := h o ho
      rw [hitem] at hall
      exact Bool.not_eq_true' _ ▸ hall

theorem Calls.hasCall {x y : String} (h : b.Calls x y) : b.HasCall y := by
  obtain ⟨o, ho, hitem, _⟩ := h
  exact ⟨o, ho, hitem⟩

theorem calls_of_mem {f : Function} (hf : f ∈ b.functions) {o : Occurrence} {y : String}
    (ho : o ∈ f.body.occurrences) (hitem : o.item = .call y) : b.Calls f.name y := by
  obtain ⟨outer, hmem⟩ := b.occurrences_of_mem ho hf
  exact ⟨_, hmem, hitem, List.mem_append_right _ List.mem_cons_self⟩

theorem Flat.functions_eq_nil (h : b.Flat) {f : Function} (hf : f ∈ b.functions) :
    f.body.functions = [] := by
  rw [List.eq_nil_iff_forall_not_mem]
  intro g hg
  obtain ⟨o, ho, hitem⟩ := exists_definition hg
  obtain ⟨outer, hmem⟩ := b.occurrences_of_mem ho hf
  have hnil : o.enclosing ++ f.name :: outer = [] := h.definitions _ hmem _ hitem
  exact List.cons_ne_nil _ _ (List.append_eq_nil_iff.1 hnil).2

theorem Flat.enclosing_eq_nil (h : b.Flat) {f : Function} (hf : f ∈ b.functions) {o : Occurrence}
    (ho : o ∈ f.body.occurrences) : o.enclosing = [] := by
  cases hx : o.enclosing with
  | nil => rfl
  | cons x outer =>
    have hx : o.enclosing = [] ++ x :: outer := hx
    obtain ⟨g, hg, _⟩ := f.body.exists_of_enclosing hx ho
    have hmem : g ∈ f.body.occurrences.filterMap Occurrence.definition? :=
      List.mem_filterMap.2 ⟨_, hg, rfl⟩
    rw [f.body.filterMap_definition?, h.functions_eq_nil hf] at hmem
    contradiction

end Block

namespace Inlining.Setting

variable {s : Setting} {o : Occurrence}

theorem expansion?_eq_some {f : Function} (h : s.expansion? o = some f) :
    f ∈ s.program.functions ∧ o.item = .call f.name ∧ f.name ∉ o.enclosing := by
  unfold expansion? at h
  split at h
  . next callee hitem =>
    split at h
    . contradiction
    . obtain ⟨hnot, hmem, rfl⟩ := target?_eq_some h
      exact ⟨hmem, hitem, fun henclosing => hnot (List.mem_append_left _ henclosing)⟩
  . contradiction

theorem mem_enclosing_of_expansion? {y : String} (h : s.expansion? o = none)
    (hitem : o.item = .call y) (hcondition : o.inCondition = false)
    (hy : y ∈ Function.names s.program.functions) : y ∈ o.enclosing ++ s.enclosing := by
  unfold expansion? at h
  rw [hitem, hcondition] at h
  simp only [Bool.false_eq_true, if_false] at h
  exact mem_enclosing_of_target? h hy

end Inlining.Setting

section

variable {d : Dialect} {external assignable : List String} {b b' : Block} {info : Info}

/-! ## One run -/

theorem Block.Prepared.name_mem (hb : b.Prepared d external assignable) {y : String}
    (h : b.HasCall y) : y ∈ Function.names b.functions := by
  obtain ⟨o, ho, hitem⟩ := h
  exact Block.Valid.called (List.nil_subset _) hitem b hb.valid (List.Subset.refl _) ho

theorem exists_fullInline (hsub : assignable ⊆ Text.ordered external)
    (hb : b.Prepared d external assignable) (hflat : b.Flat) :
    ∃ b' n, fullInline info b = .ok (b', n) := by
  have hspec := Inlining.block_failsWith (s := ⟨info.dialect, b, []⟩) (hb.place hsub) b hb.valid
    (List.Subset.refl _) (List.Subset.refl _)
  have hnone : b.occurrences.flatMap (Inlining.Setting.refusals ⟨info.dialect, b, []⟩) = [] := by
    rw [List.flatMap_eq_nil_iff]
    intro o _
    unfold Inlining.Setting.refusals
    split
    . next f hf =>
      rw [hflat.functions_eq_nil (Inlining.Setting.expansion?_eq_some hf).1]
      rfl
    . rfl
  rw [hnone] at hspec
  obtain ⟨b', s, hrun⟩ := hspec.exists_eq_ok (.initial info b)
  refine ⟨b', s.inlined.length, ?_⟩
  unfold fullInline Inlining.run
  rw [hrun]

theorem exists_of_fullInline (hsub : assignable ⊆ Text.ordered external)
    (hb : b.Prepared d external assignable) {n : Nat} (h : fullInline info b = .ok (b', n))
    {o' : Occurrence} (ho' : o' ∈ b'.occurrences) :
    ∃ o ∈ b.occurrences, o' ∈ Inlining.Setting.after ⟨info.dialect, b, []⟩ o := by
  obtain ⟨s, hrun⟩ := fullInline_eq_ok h
  have hperm := Inlining.block_occurrences (hb.place hsub) b hb.valid (List.Subset.refl _)
    (List.Subset.refl _) hrun
  exact List.mem_flatMap.1 (hperm.mem_iff.1 ho')

theorem cases_of_fullInline (hsub : assignable ⊆ Text.ordered external)
    (hb : b.Prepared d external assignable) (hflat : b.Flat) {n : Nat}
    (h : fullInline info b = .ok (b', n)) {o' : Occurrence} (ho' : o' ∈ b'.occurrences) :
    (o' ∈ b.occurrences ∧ ∀ y, o'.item = .call y → y ∈ o'.enclosing) ∨
    ∃ f ∈ b.functions, ∃ o ∈ b.occurrences, o.item = .call f.name ∧ f.name ∉ o.enclosing ∧
      ∃ v ∈ f.body.occurrences, o' = { v with enclosing := o.enclosing } := by
  obtain ⟨o, ho, hafter⟩ := exists_of_fullInline hsub hb h ho'
  unfold Inlining.Setting.after at hafter
  split at hafter
  . next f hf =>
    obtain ⟨hmem, hitem, hnot⟩ := Inlining.Setting.expansion?_eq_some hf
    obtain ⟨v, hv, rfl⟩ := List.mem_map.1 hafter
    refine .inr ⟨f, hmem, o, ho, hitem, hnot, v, hv, ?_⟩
    unfold Occurrence.inside
    rw [hflat.enclosing_eq_nil hmem hv, List.nil_append]
  . next hnone =>
    obtain rfl := List.mem_singleton.1 hafter
    refine .inl ⟨ho, fun y hitem => ?_⟩
    have hy := hb.name_mem ⟨o', ho, hitem⟩
    have hmem := Inlining.Setting.mem_enclosing_of_expansion? hnone hitem
      (hflat.conditions o' ho y hitem) hy
    rwa [List.append_nil] at hmem

theorem flat_of_fullInline (hsub : assignable ⊆ Text.ordered external)
    (hb : b.Prepared d external assignable) (hflat : b.Flat) {n : Nat}
    (h : fullInline info b = .ok (b', n)) : b'.Flat := by
  constructor
  . intro o' ho' g hitem
    rcases cases_of_fullInline hsub hb hflat h ho' with ⟨ho, _⟩ | ⟨f, hf, o, _, _, _, v, hv, rfl⟩
    . exact hflat.definitions o' ho g hitem
    . obtain ⟨outer, hmem⟩ := b.occurrences_of_mem hv hf
      have hnil : v.enclosing ++ f.name :: outer = [] := hflat.definitions _ hmem g hitem
      exact (List.cons_ne_nil _ _ (List.append_eq_nil_iff.1 hnil).2).elim
  . intro o' ho' x hitem
    rcases cases_of_fullInline hsub hb hflat h ho' with ⟨ho, _⟩ | ⟨f, hf, o, _, _, _, v, hv, rfl⟩
    . exact hflat.conditions o' ho x hitem
    . obtain ⟨outer, hmem⟩ := b.occurrences_of_mem hv hf
      exact hflat.conditions (v.inside (f.name :: outer)) hmem x hitem

theorem hasCall_of_fullInline (hsub : assignable ⊆ Text.ordered external)
    (hb : b.Prepared d external assignable) (hflat : b.Flat) {n : Nat}
    (h : fullInline info b = .ok (b', n)) {y : String} (hy : b'.HasCall y) :
    b.Calls y y ∨ ∃ f, b.HasCall f ∧ b.Calls f y := by
  obtain ⟨o', ho', hitem⟩ := hy
  rcases cases_of_fullInline hsub hb hflat h ho' with
    ⟨ho, hself⟩ | ⟨f, hf, o, ho, hcall, _, v, hv, rfl⟩
  . exact .inl ⟨o', ho, hitem, hself y hitem⟩
  . exact .inr ⟨f.name, ⟨o, ho, hcall⟩, Block.calls_of_mem hf hv hitem⟩

theorem calls_of_fullInline (hsub : assignable ⊆ Text.ordered external)
    (hb : b.Prepared d external assignable) (hflat : b.Flat) {n : Nat}
    (h : fullInline info b = .ok (b', n)) {x y : String} (hxy : b'.Calls x y) :
    (b.Calls x y ∧ b.Calls y y) ∨ ∃ f, b.Calls x f ∧ f ≠ x ∧ b.Calls f y := by
  obtain ⟨o', ho', hitem, hx⟩ := hxy
  rcases cases_of_fullInline hsub hb hflat h ho' with
    ⟨ho, hself⟩ | ⟨f, hf, o, ho, hcall, hne, v, hv, rfl⟩
  . exact .inl ⟨⟨o', ho, hitem, hx⟩, o', ho, hitem, hself y hitem⟩
  . refine .inr ⟨f.name, ⟨o, ho, hcall, hx⟩, ?_, Block.calls_of_mem hf hv hitem⟩
    rintro rfl
    exact hne hx

/-! ## All runs -/

theorem inlineTimes_succ_last {n : Nat} (h : inlineTimes info (n + 1) b = .ok b') :
    ∃ b₁ count, inlineTimes info n b = .ok b₁ ∧ fullInline info b₁ = .ok (b', count) := by
  induction n generalizing b with
  | zero =>
    obtain ⟨b₁, count, hstep, hrest⟩ := inlineTimes_succ_eq_ok.1 h
    cases hrest
    exact ⟨b, count, rfl, hstep⟩
  | succ n ih =>
    obtain ⟨b₁, count, hstep, hrest⟩ := inlineTimes_succ_eq_ok.1 h
    obtain ⟨b₂, count', hinner, hlast⟩ := ih hrest
    exact ⟨b₂, count', inlineTimes_succ_eq_ok.2 ⟨b₁, count, hstep, hinner⟩, hlast⟩

theorem flat_of_inlineTimes (hinfo : info.external = Text.ordered external)
    (hsub : assignable ⊆ Text.ordered external) (hb : b.Prepared d external assignable)
    (hflat : b.Flat) {n : Nat} (h : inlineTimes info n b = .ok b') : b'.Flat := by
  induction n generalizing b with
  | zero =>
    cases h
    exact hflat
  | succ n ih =>
    obtain ⟨b₁, count, hstep, hrest⟩ := inlineTimes_succ_eq_ok.1 h
    exact ih (prepared_of_fullInline hinfo hsub hb hstep) (flat_of_fullInline hsub hb hflat hstep)
      hrest

theorem exists_inlineTimes (hinfo : info.external = Text.ordered external)
    (hsub : assignable ⊆ Text.ordered external) (hb : b.Prepared d external assignable)
    (hflat : b.Flat) (n : Nat) : ∃ b', inlineTimes info n b = .ok b' := by
  induction n generalizing b with
  | zero => exact ⟨b, rfl⟩
  | succ n ih =>
    have hrun : ∃ b₁ count, fullInline info b = .ok (b₁, count) := exists_fullInline hsub hb hflat
    obtain ⟨b₁, count, hstep⟩ := hrun
    obtain ⟨b', hrest⟩ :=
      ih (prepared_of_fullInline hinfo hsub hb hstep) (flat_of_fullInline hsub hb hflat hstep)
    exact ⟨b', inlineTimes_succ_eq_ok.2 ⟨b₁, count, hstep, hrest⟩⟩

theorem reaches_of_inlineTimes (hinfo : info.external = Text.ordered external)
    (hsub : assignable ⊆ Text.ordered external) (hb : b.Prepared d external assignable)
    (hflat : b.Flat) {n : Nat} (h : inlineTimes info n b = .ok b') {x y : String}
    (hxy : b'.Calls x y) : TransGen b.Calls x y := by
  induction n generalizing b' x y with
  | zero =>
    cases h
    exact .single hxy
  | succ n ih =>
    obtain ⟨b₁, count, hinner, hlast⟩ := inlineTimes_succ_last h
    have hb₁ := prepared_of_inlineTimes hinfo hsub hb hinner
    have hflat₁ := flat_of_inlineTimes hinfo hsub hb hflat hinner
    rcases calls_of_fullInline hsub hb₁ hflat₁ hlast hxy with ⟨hcalls, _⟩ | ⟨f, hxf, _, hfy⟩
    . exact ih hinner hcalls
    . exact (ih hinner hxf).trans (ih hinner hfy)

theorem hasCall_of_inlineTimes (hinfo : info.external = Text.ordered external)
    (hsub : assignable ⊆ Text.ordered external) (hb : b.Prepared d external assignable)
    (hflat : b.Flat) {n : Nat} (h : inlineTimes info n b = .ok b') {y : String}
    (hy : b'.HasCall y) : b.HasCall y := by
  induction n generalizing b' y with
  | zero =>
    cases h
    exact hy
  | succ n ih =>
    obtain ⟨b₁, count, hinner, hlast⟩ := inlineTimes_succ_last h
    have hb₁ := prepared_of_inlineTimes hinfo hsub hb hinner
    have hflat₁ := flat_of_inlineTimes hinfo hsub hb hflat hinner
    rcases hasCall_of_fullInline hsub hb₁ hflat₁ hlast hy with hcalls | ⟨f, _, hfy⟩
    . exact ih hinner hcalls.hasCall
    . exact ih hinner hfy.hasCall

/-! ## What is left -/

/--
Where a function that does not call itself is still called in the body of `x` after `n` runs, there
are `n + 1` functions that `x` reaches, all different from it and from each other.
-/
theorem exists_chain_of_calls (hinfo : info.external = Text.ordered external)
    (hsub : assignable ⊆ Text.ordered external) (hb : b.Prepared d external assignable)
    (hflat : b.Flat) (hloops : OnlyLoops b.Calls) {n : Nat}
    (h : inlineTimes info n b = .ok b') {x y : String} (hxy : b'.Calls x y) (hy : ¬ b.Calls y y) :
    ∃ zs : List String, zs.length = n + 1 ∧ zs.Nodup ∧
      ∀ z ∈ zs, TransGen b.Calls x z ∧ z ≠ x := by
  induction n generalizing b' x y with
  | zero =>
    cases h
    refine ⟨[y], rfl, List.nodup_singleton y, List.forall_mem_singleton.2 ⟨.single hxy, ?_⟩⟩
    rintro rfl
    exact hy hxy
  | succ n ih =>
    obtain ⟨b₁, count, hinner, hlast⟩ := inlineTimes_succ_last h
    have hb₁ := prepared_of_inlineTimes hinfo hsub hb hinner
    have hflat₁ := flat_of_inlineTimes hinfo hsub hb hflat hinner
    rcases calls_of_fullInline hsub hb₁ hflat₁ hlast hxy with ⟨_, hself⟩ | ⟨f, hxf, hne, hfy⟩
    . exact (hy (hloops.self (reaches_of_inlineTimes hinfo hsub hb hflat hinner hself))).elim
    . have hreach := reaches_of_inlineTimes hinfo hsub hb hflat hinner hxf
      obtain ⟨zs, hlength, hnodup, hzs⟩ := ih hinner hfy hy
      refine ⟨f :: zs, congrArg (· + 1) hlength, ?_, List.forall_mem_cons.2 ⟨⟨hreach, hne⟩, ?_⟩⟩
      . exact List.nodup_cons.2 ⟨fun hf => (hzs f hf).2 rfl, hnodup⟩
      . intro z hz
        refine ⟨hreach.trans (hzs z hz).1, ?_⟩
        rintro rfl
        exact hne (hloops f z (hzs z hz).1 hreach)

theorem exists_chain_of_hasCall (hinfo : info.external = Text.ordered external)
    (hsub : assignable ⊆ Text.ordered external) (hb : b.Prepared d external assignable)
    (hflat : b.Flat) (hloops : OnlyLoops b.Calls) {n : Nat}
    (h : inlineTimes info n b = .ok b') {y : String} (hy : b'.HasCall y) (hself : ¬ b.Calls y y) :
    ∃ zs : List String, zs.length = n + 1 ∧ zs.Nodup ∧ ∀ z ∈ zs, b.HasCall z := by
  cases n with
  | zero =>
    cases h
    exact ⟨[y], rfl, List.nodup_singleton y, List.forall_mem_singleton.2 hy⟩
  | succ n =>
    obtain ⟨b₁, count, hinner, hlast⟩ := inlineTimes_succ_last h
    have hb₁ := prepared_of_inlineTimes hinfo hsub hb hinner
    have hflat₁ := flat_of_inlineTimes hinfo hsub hb hflat hinner
    rcases hasCall_of_fullInline hsub hb₁ hflat₁ hlast hy with hcalls | ⟨f, hf, hfy⟩
    . exact (hself (hloops.self (reaches_of_inlineTimes hinfo hsub hb hflat hinner hcalls))).elim
    . obtain ⟨zs, hlength, hnodup, hzs⟩ :=
        exists_chain_of_calls hinfo hsub hb hflat hloops hinner hfy hself
      refine ⟨f :: zs, congrArg (· + 1) hlength, ?_, List.forall_mem_cons.2 ⟨?_, ?_⟩⟩
      . exact List.nodup_cons.2 ⟨fun hf => (hzs f hf).2 rfl, hnodup⟩
      . exact hasCall_of_inlineTimes hinfo hsub hb hflat hinner hf
      . intro z hz
        obtain ⟨_, _, hcalls⟩ := TransGen.tail'_iff.1 (hzs z hz).1
        exact hcalls.hasCall

theorem calls_self_of_inlineTimes (hinfo : info.external = Text.ordered external)
    (hsub : assignable ⊆ Text.ordered external) (hb : b.Prepared d external assignable)
    (hflat : b.Flat) (hloops : OnlyLoops b.Calls) {n : Nat} (hn : b.functions.length ≤ n)
    (h : inlineTimes info n b = .ok b') {y : String} (hy : b'.HasCall y) : b.Calls y y := by
  by_contra hself
  obtain ⟨zs, hlength, hnodup, hzs⟩ :=
    exists_chain_of_hasCall hinfo hsub hb hflat hloops h hy hself
  have hsubperm := List.subperm_of_subset hnodup fun z hz => hb.name_mem (hzs z hz)
  have hle := hsubperm.length_le
  unfold Function.names at hle
  rw [hlength, List.length_map] at hle
  omega

/-! ## The original program -/

theorem Block.Flat.enclosing_eq_singleton (h : b.Flat) {o : Occurrence} (ho : o ∈ b.occurrences)
    {x : String} (hx : x ∈ o.enclosing) : o.enclosing = [x] := by
  have houter : ∀ inner y outer, o.enclosing = inner ++ y :: outer → outer = [] := by
    intro inner y outer henclosing
    obtain ⟨f, hf, _⟩ := b.exists_of_enclosing henclosing ho
    exact h.definitions _ hf f rfl
  cases henclosing : o.enclosing with
  | nil =>
    rw [henclosing] at hx
    contradiction
  | cons y outer =>
    rw [henclosing, houter [] y outer henclosing] at hx
    rw [houter [] y outer henclosing, List.mem_singleton.1 hx]

theorem Block.Flat.of_anonymous (hflat : b.Flat) (h : b'.anonymous = b.anonymous) : b'.Flat := by
  have hoccurrences := congrArg Block.occurrences h
  rw [b'.occurrences_anonymous, b.occurrences_anonymous] at hoccurrences
  -- The same occurs in both programs, with other names for functions.
  have hsame : ∀ o' ∈ b'.occurrences, ∃ o ∈ b.occurrences, o.anonymous = o'.anonymous := by
    intro o' ho'
    have hmem : o'.anonymous ∈ b'.occurrences.map Occurrence.anonymous :=
      List.mem_map.2 ⟨o', ho', rfl⟩
    rw [hoccurrences] at hmem
    exact List.mem_map.1 hmem
  constructor
  . intro o' ho' f hitem
    obtain ⟨o, ho, heq⟩ := hsame o' ho'
    injection heq with hitems henclosing _
    rw [hitem] at hitems
    cases hcase : o.item with
    | definition g =>
      rw [hflat.definitions o ho g hcase, eq_comm, List.map_nil, List.map_eq_nil_iff] at henclosing
      exact henclosing
    | call callee =>
      rw [hcase] at hitems
      contradiction
    | instruction name =>
      rw [hcase] at hitems
      contradiction
  . intro o' ho' x hitem
    obtain ⟨o, ho, heq⟩ := hsame o' ho'
    injection heq with hitems _ hcondition
    rw [hitem] at hitems
    cases hcase : o.item with
    | call callee => rw [← hcondition, hflat.conditions o ho callee hcase]
    | definition g =>
      rw [hcase] at hitems
      contradiction
    | instruction name =>
      rw [hcase] at hitems
      contradiction

theorem Block.length_functions_anonymous (b : Block) :
    b.anonymous.functions.length = b.functions.length := by
  have hdefinitions : ∀ os : List Occurrence,
      ((os.map Occurrence.anonymous).filterMap Occurrence.definition?).length =
        (os.filterMap Occurrence.definition?).length := by
    intro os
    have hdefinition : Occurrence.definition? ∘ Occurrence.anonymous =
        fun o => o.definition?.map Signature.anonymous := by
      funext o
      obtain ⟨item, _, _⟩ := o
      cases item <;> rfl
    rw [List.filterMap_map, hdefinition, ← List.map_filterMap, List.length_map]
  have h := hdefinitions b.occurrences
  rwa [← b.occurrences_anonymous, filterMap_definition?, filterMap_definition?, List.length_map,
    List.length_map] at h

theorem Block.Prepared.invokes (hinfo : info.external = Text.ordered external)
    (hb : b.Prepared d external assignable) (hflat : b.Flat)
    (hbound : ∀ name, Link.unbound name ∉ b.links info.external [] 0) {x y : String}
    (h : b.Calls x y) : ∃ i j, b.boundNames[i]? = some x ∧ b.boundNames[j]? = some y ∧
      b.Invokes info.external i j := by
  obtain ⟨o, ho, hitem, hx⟩ := h
  have hnumbered : Site.Numbered b.boundNames [] := List.forall_mem_nil _
  have hall : Site.StandAt b.boundNames 0 b.boundNames := List.prefix_refl _
  have hlisted : Lists info.external b.boundNames none o y (b.uses info.external none [] 0) :=
    b.listed hitem hnumbered hall ho
  obtain ⟨sites, number, hsites, hnumber, hmem⟩ := hlisted
  rw [hflat.enclosing_eq_singleton ho hx] at hnumber
  obtain ⟨i, rfl, hi⟩ := hnumber
  have hy : y ∉ info.external := by
    obtain ⟨f, hf, rfl⟩ := List.mem_map.1 (hb.name_mem ⟨o, ho, hitem⟩)
    rw [hinfo, Text.mem_ordered]
    exact hb.distinct.foreign _ (Block.name_mem_boundNames hf)
  have hlink : Site.link info.external sites y ≠ .unbound y := by
    intro hlink
    apply hbound y
    rw [← b.map_link_uses info.external none [] 0]
    exact List.mem_map.2 ⟨_, hmem, hlink⟩
  obtain ⟨j, hlink, hj⟩ := hsites.link hy hlink
  rw [hlink] at hmem
  exact ⟨i, j, hi, hj, hmem⟩

theorem Block.Prepared.number_eq (hb : b.Prepared d external assignable) {i j : Nat} {x : String}
    (hi : b.boundNames[i]? = some x) (hj : b.boundNames[j]? = some x) : i = j := by
  obtain ⟨hlt, _⟩ := List.getElem?_eq_some_iff.1 hi
  exact (List.getElem?_inj hlt hb.distinct.nodup).1 (hi.trans hj.symm)

theorem onlyLoops_calls (hinfo : info.external = Text.ordered external)
    (hb : b.Prepared d external assignable) (hflat : b.Flat)
    (hbound : ∀ name, Link.unbound name ∉ b.links info.external [] 0)
    (hloops : OnlyLoops (b.Invokes info.external)) : OnlyLoops b.Calls := by
  have hreach : ∀ x y, TransGen b.Calls x y → ∃ i j, b.boundNames[i]? = some x ∧
      b.boundNames[j]? = some y ∧ TransGen (b.Invokes info.external) i j := by
    intro x y hxy
    induction hxy with
    | single hxy =>
      obtain ⟨i, j, hi, hj, hij⟩ := hb.invokes hinfo hflat hbound hxy
      exact ⟨i, j, hi, hj, .single hij⟩
    | tail _ hyz ih =>
      obtain ⟨i, j, hi, hj, hij⟩ := ih
      obtain ⟨j', k, hj', hk, hjk⟩ := hb.invokes hinfo hflat hbound hyz
      rw [hb.number_eq hj' hj] at hjk
      exact ⟨i, k, hi, hk, hij.tail hjk⟩
  intro x y hxy hyx
  obtain ⟨i, j, hi, hj, hij⟩ := hreach x y hxy
  obtain ⟨j', i', hj', hi', hji⟩ := hreach y x hyx
  rw [hb.number_eq hj' hj, hb.number_eq hi' hi] at hji
  rw [hloops i j hij hji] at hi
  exact Option.some.inj (hi.symm.trans hj)

/--
Inlining again and again removes all calls but those of recursive functions. Take an accepted
program without stack forms, in which no function is defined in another one, no function is called
in the condition of a loop, and all cycles of calls are functions that call themselves. After as
many runs as it has functions, or more, none of which fails, each call that is left is one of a
function that called itself in the original program. So none is left if no function did.
-/
theorem inlineTimes_leaves_recursive {source : String} {b₀ : Block}
    (h : parseAndAnalyze d external source = .ok (b₀, info)) (hforms : b₀.stackForms = [])
    (hflat : b₀.Flat) (hloops : OnlyLoops (b₀.Invokes info.external)) :
    ∃ b₁, disambiguate info b₀ = .ok b₁ ∧ ∀ n, b₀.functions.length ≤ n →
      ∃ b, inlineTimes info n b₁ = .ok b ∧
        (∀ y, b.HasCall y → ∃ j, b₁.boundNames[j]? = some y ∧ b₀.Invokes info.external j j) ∧
        ((∀ j, ¬ b₀.Invokes info.external j j) → ∀ y, ¬ b.HasCall y) := by
  obtain ⟨_, hanalyze⟩ := parseAndAnalyze_eq_ok.1 h
  obtain ⟨_, hinfo⟩ := info_of_analyze hanalyze
  obtain ⟨hv, hd⟩ := isOk_analyze.1 (congrArg Except.isOk hanalyze)
  obtain ⟨b₁, hb₁, hshape, hlinks, hbound⟩ := exists_disambiguate (c := .root d external)
    hinfo.symm rfl rfl (List.Subset.refl _) hv hd hforms
  have hsub : Text.ordered external ⊆ Text.ordered external := List.Subset.refl _
  have hprepared := prepared_of_passes (n := 0) h hb₁ rfl
  have hflat₁ := hflat.of_anonymous hshape
  rw [← hlinks] at hbound
  -- The calls are the same in front of the names being made unique and behind it. There, a call by
  -- name is a call of the function that is bound to it.
  have huses := Block.uses_eq info.external hshape hlinks
  have hloops₁ : OnlyLoops b₁.Calls := by
    apply onlyLoops_calls hinfo hprepared hflat₁ hbound
    unfold Block.Invokes
    rwa [huses]
  have hlength : b₁.functions.length = b₀.functions.length := by
    rw [← b₁.length_functions_anonymous, hshape, b₀.length_functions_anonymous]
  refine ⟨b₁, hb₁, fun n hn => ?_⟩
  obtain ⟨b, hb⟩ := exists_inlineTimes hinfo hsub hprepared hflat₁ n
  have hleft : ∀ y, b.HasCall y →
      ∃ j, b₁.boundNames[j]? = some y ∧ b₀.Invokes info.external j j := by
    intro y hy
    have hself := calls_self_of_inlineTimes hinfo hsub hprepared hflat₁ hloops₁ (hlength ▸ hn) hb hy
    obtain ⟨i, j, hi, hj, hij⟩ := hprepared.invokes hinfo hflat₁ hbound hself
    rw [hprepared.number_eq hi hj] at hij
    unfold Block.Invokes at hij ⊢
    exact ⟨j, hj, huses ▸ hij⟩
  refine ⟨b, hb, hleft, fun hnone y hy => ?_⟩
  obtain ⟨j, _, hself⟩ := hleft y hy
  exact hnone j hself

theorem inlineTimes_leaves_recursive_nested : ∃ b₀ info,
    parseAndAnalyze .typed []
      ("\x7b function f(a) -> r \x7b r := add(a, 1) \x7d " ++
        "function g(a) -> r \x7b r := f(f(a)) \x7d " ++
        "function h(a) -> r \x7b if a \x7b r := h(g(a)) \x7d \x7d sstore(0, h(g(2))) \x7d") =
      .ok (b₀, info) ∧
    b₀.stackForms = [] ∧ b₀.Flat ∧ OnlyLoops (b₀.Invokes info.external) ∧
    ∃ b₁, disambiguate info b₀ = .ok b₁ ∧ ∀ n, b₀.functions.length ≤ n →
      ∃ b, inlineTimes info n b₁ = .ok b ∧
        (∀ y, b.HasCall y → ∃ j, b₁.boundNames[j]? = some y ∧ b₀.Invokes info.external j j) ∧
        ((∀ j, ¬ b₀.Invokes info.external j j) → ∀ y, ¬ b.HasCall y) := by
  have hruns : (parseAndAnalyze .typed []
      ("\x7b function f(a) -> r \x7b r := add(a, 1) \x7d " ++
        "function g(a) -> r \x7b r := f(f(a)) \x7d " ++
        "function h(a) -> r \x7b if a \x7b r := h(g(a)) \x7d \x7d sstore(0, h(g(2))) \x7d")
      ).toOption.any (fun r => r.1.stackForms.isEmpty && r.1.occurrences.all Occurrence.isFlat &&
        (r.1.uses r.2.external none [] 0).filter Use.isCall =
          [⟨some 3, true, .site 0⟩, ⟨some 3, true, .site 0⟩, ⟨some 6, true, .site 6⟩,
            ⟨some 6, true, .site 3⟩, ⟨none, true, .site 6⟩, ⟨none, true, .site 3⟩]) = true := by
    decide +kernel
  obtain ⟨⟨b₀, info⟩, h, hruns⟩ := exists_of_any hruns
  rw [Bool.and_eq_true, Bool.and_eq_true] at hruns
  obtain ⟨⟨hforms, hflat⟩, huses⟩ := hruns
  have hforms : b₀.stackForms = [] := List.isEmpty_iff.1 hforms
  have hflat : b₀.Flat := Block.flat_iff.2 hflat
  have hloops : OnlyLoops (b₀.Invokes info.external) := by
    apply OnlyLoops.of_le
    intro i j hij
    have hmem : ⟨some i, true, .site j⟩ ∈
        (b₀.uses info.external none [] 0).filter Use.isCall := List.mem_filter.2 ⟨hij, rfl⟩
    rw [of_decide_eq_true huses] at hmem
    simp only [List.mem_cons, List.not_mem_nil, Use.mk.injEq, Option.some.injEq,
      Link.site.injEq, reduceCtorEq, true_and, false_and, or_false] at hmem
    omega
  exact ⟨b₀, info, h, hforms, hflat, hloops, inlineTimes_leaves_recursive h hforms hflat hloops⟩

end

end Splice
