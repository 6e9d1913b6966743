import Mathlib.Data.List.Nodup
import Splice.Proofs.Tree.Parts

/-!
This module contains what is known of the functions of a tree in which all names differ: each is the
only one of its name, and no name that is bound in it is the name of a function.
-/

namespace Splice

mutual

def Stmt.otherNames : Stmt → List String
  | .expression _ => []
  | .declaration _ vars _ => vars.map Binder.name
  | .assignment .. => []
  | .conditional _ _ body => body.otherNames
  | .switch _ _ arms => Case.allOtherNames arms
  | .loop _ pre _ post body => pre.otherNames ++ post.otherNames ++ body.otherNames
  | .function ⟨f, body⟩ => (f.parameters ++ f.returns).map Binder.name ++ body.otherNames
  | .block b => b.otherNames
  | .stack (.label _ name) => [name]
  | .stack _ => []

def Stmt.allOtherNames : List Stmt → List String
  | [] => []
  | s :: ss => s.otherNames ++ Stmt.allOtherNames ss

def Block.otherNames : Block → List String
  | ⟨_, ss⟩ => Stmt.allOtherNames ss

def Case.allOtherNames : List Case → List String
  | [] => []
  | ⟨_, _, body⟩ :: cs => body.otherNames ++ Case.allOtherNames cs

end

def Function.names (fs : List Function) : List String :=
  fs.map fun f => f.name

mutual

theorem Stmt.count_boundNames (x : String) : (s : Stmt) →
    s.boundNames.count x = (Function.names s.functions).count x + s.otherNames.count x
  | .expression _ => rfl
  | .declaration .. => (Nat.zero_add _).symm
  | .assignment .. => rfl
  | .conditional _ _ body => body.count_boundNames x
  | .switch _ _ arms => Case.count_allBoundNames x arms
  | .loop _ pre _ post body => by
    have hpre := pre.count_boundNames x
    have hpost := post.count_boundNames x
    have hbody := body.count_boundNames x
    unfold Function.names at *
    simp only [Stmt.boundNames, Stmt.functions, Stmt.otherNames, List.map_append,
      List.count_append]
    omega
  | .function ⟨f, body⟩ => by
    have hbody := body.count_boundNames x
    unfold Function.names at *
    simp only [Stmt.boundNames, Stmt.functions, Stmt.otherNames, List.map_append,
      List.map_cons, List.count_append, List.count_cons]
    omega
  | .block b => b.count_boundNames x
  | .stack (.label ..) => (Nat.zero_add _).symm
  | .stack (.assignment ..) => rfl
  | .stack (.instruction ..) => rfl

theorem Stmt.count_allBoundNames (x : String) : (ss : List Stmt) →
    (Stmt.allBoundNames ss).count x =
      (Function.names (Stmt.allFunctions ss)).count x + (Stmt.allOtherNames ss).count x
  | [] => rfl
  | s :: ss => by
    have hs := s.count_boundNames x
    have hss := Stmt.count_allBoundNames x ss
    unfold Function.names at *
    simp only [Stmt.allBoundNames, Stmt.allFunctions, Stmt.allOtherNames, List.map_append,
      List.count_append]
    omega

theorem Block.count_boundNames (x : String) : (b : Block) →
    b.boundNames.count x = (Function.names b.functions).count x + b.otherNames.count x
  | ⟨_, ss⟩ => Stmt.count_allBoundNames x ss

theorem Case.count_allBoundNames (x : String) : (cs : List Case) →
    (Case.allBoundNames cs).count x =
      (Function.names (Case.allFunctions cs)).count x + (Case.allOtherNames cs).count x
  | [] => rfl
  | ⟨_, _, body⟩ :: cs => by
    have hbody := body.count_boundNames x
    have hcs := Case.count_allBoundNames x cs
    unfold Function.names at *
    simp only [Case.allBoundNames, Case.allFunctions, Case.allOtherNames, List.map_append,
      List.count_append]
    omega

end

theorem Block.boundNames_perm (b : Block) :
    b.boundNames.Perm (Function.names b.functions ++ b.otherNames) := by
  rw [List.perm_iff_count]
  intro x
  rw [List.count_append, b.count_boundNames]

mutual

theorem Stmt.boundNames_of_functions :
    (s : Stmt) → s.functions = [] → s.boundNames = s.otherNames
  | .expression _, _ => rfl
  | .declaration .., _ => rfl
  | .assignment .., _ => rfl
  | .conditional _ _ body, h => body.boundNames_of_functions h
  | .switch _ _ arms, h => Case.allBoundNames_of_functions arms h
  | .loop _ pre _ post body, h => by
    unfold Stmt.functions at h
    rw [List.append_eq_nil_iff, List.append_eq_nil_iff] at h
    unfold Stmt.boundNames Stmt.otherNames
    rw [pre.boundNames_of_functions h.1.1, post.boundNames_of_functions h.1.2,
      body.boundNames_of_functions h.2]
  | .function ⟨_, _⟩, h => (List.cons_ne_nil _ _ h).elim
  | .block b, h => b.boundNames_of_functions h
  | .stack (.label ..), _ => rfl
  | .stack (.assignment ..), _ => rfl
  | .stack (.instruction ..), _ => rfl

theorem Stmt.allBoundNames_of_functions :
    (ss : List Stmt) → Stmt.allFunctions ss = [] → Stmt.allBoundNames ss = Stmt.allOtherNames ss
  | [], _ => rfl
  | s :: ss, h => by
    obtain ⟨hs, hss⟩ := List.append_eq_nil_iff.1 h
    unfold Stmt.allBoundNames Stmt.allOtherNames
    rw [s.boundNames_of_functions hs, Stmt.allBoundNames_of_functions ss hss]

theorem Block.boundNames_of_functions :
    (b : Block) → b.functions = [] → b.boundNames = b.otherNames
  | ⟨_, ss⟩, h => Stmt.allBoundNames_of_functions ss h

theorem Case.allBoundNames_of_functions :
    (cs : List Case) → Case.allFunctions cs = [] → Case.allBoundNames cs = Case.allOtherNames cs
  | [], _ => rfl
  | ⟨_, _, body⟩ :: cs, h => by
    obtain ⟨hbody, hcs⟩ := List.append_eq_nil_iff.1 h
    unfold Case.allBoundNames Case.allOtherNames
    rw [body.boundNames_of_functions hbody, Case.allBoundNames_of_functions cs hcs]

end

def Function.innerNames (f : Function) : List String :=
  (f.parameters ++ f.returns).map Binder.name ++ f.body.otherNames

mutual

theorem Stmt.innerNames_sublist {f : Function} :
    (s : Stmt) → f ∈ s.functions → f.innerNames.Sublist s.otherNames
  | .conditional _ _ body, hf => body.innerNames_sublist hf
  | .switch _ _ arms, hf => Case.innerNames_sublist arms hf
  | .loop _ pre _ post body, hf => by
    unfold Stmt.functions at hf
    rw [List.mem_append, List.mem_append] at hf
    unfold Stmt.otherNames
    rcases hf with (hf | hf) | hf
    . exact (pre.innerNames_sublist hf).trans <|
        (List.sublist_append_left _ _).trans (List.sublist_append_left _ _)
    . exact (post.innerNames_sublist hf).trans <|
        (List.sublist_append_right _ _).trans (List.sublist_append_left _ _)
    . exact (body.innerNames_sublist hf).trans (List.sublist_append_right _ _)
  | .function ⟨g, body⟩, hf => by
    unfold Stmt.functions at hf
    unfold Stmt.otherNames
    rcases List.mem_cons.1 hf with rfl | hf
    . exact List.Sublist.refl _
    . exact (body.innerNames_sublist hf).trans (List.sublist_append_right _ _)
  | .block b, hf => b.innerNames_sublist hf

theorem Stmt.allInnerNames_sublist {f : Function} :
    (ss : List Stmt) → f ∈ Stmt.allFunctions ss → f.innerNames.Sublist (Stmt.allOtherNames ss)
  | s :: ss, hf => by
    unfold Stmt.allFunctions at hf
    unfold Stmt.allOtherNames
    rcases List.mem_append.1 hf with hf | hf
    . exact (s.innerNames_sublist hf).trans (List.sublist_append_left _ _)
    . exact (Stmt.allInnerNames_sublist ss hf).trans (List.sublist_append_right _ _)

theorem Block.innerNames_sublist {f : Function} :
    (b : Block) → f ∈ b.functions → f.innerNames.Sublist b.otherNames
  | ⟨_, ss⟩, hf => Stmt.allInnerNames_sublist ss hf

theorem Case.innerNames_sublist {f : Function} :
    (cs : List Case) → f ∈ Case.allFunctions cs → f.innerNames.Sublist (Case.allOtherNames cs)
  | ⟨_, _, body⟩ :: cs, hf => by
    unfold Case.allFunctions at hf
    unfold Case.allOtherNames
    rcases List.mem_append.1 hf with hf | hf
    . exact (body.innerNames_sublist hf).trans (List.sublist_append_left _ _)
    . exact (Case.innerNames_sublist cs hf).trans (List.sublist_append_right _ _)

end

/-! ## Functions in functions -/

mutual

theorem Stmt.functions_subset {f : Function} :
    (s : Stmt) → f ∈ s.functions → f.body.functions ⊆ s.functions
  | .conditional _ _ body, hf => body.functions_subset hf
  | .switch _ _ arms, hf => Case.allFunctions_subset arms hf
  | .loop _ pre _ post body, hf => by
    unfold Stmt.functions at hf ⊢
    rcases List.mem_append.1 hf with hf | hf
    . apply List.Subset.trans _ (List.subset_append_left _ _)
      rcases List.mem_append.1 hf with hf | hf
      . exact List.Subset.trans (pre.functions_subset hf) (List.subset_append_left _ _)
      . exact List.Subset.trans (post.functions_subset hf) (List.subset_append_right _ _)
    . exact List.Subset.trans (body.functions_subset hf) (List.subset_append_right _ _)
  | .function ⟨_, body⟩, hf => by
    unfold Stmt.functions at hf ⊢
    rcases List.mem_cons.1 hf with rfl | hf
    . exact List.subset_cons_self _ _
    . exact List.Subset.trans (body.functions_subset hf) (List.subset_cons_self _ _)
  | .block b, hf => b.functions_subset hf

theorem Stmt.allFunctions_subset {f : Function} :
    (ss : List Stmt) → f ∈ Stmt.allFunctions ss → f.body.functions ⊆ Stmt.allFunctions ss
  | s :: ss, hf => by
    unfold Stmt.allFunctions at hf ⊢
    rcases List.mem_append.1 hf with hf | hf
    . exact List.Subset.trans (s.functions_subset hf) (List.subset_append_left _ _)
    . exact List.Subset.trans (Stmt.allFunctions_subset ss hf) (List.subset_append_right _ _)

theorem Block.functions_subset {f : Function} :
    (b : Block) → f ∈ b.functions → f.body.functions ⊆ b.functions
  | ⟨_, ss⟩, hf => Stmt.allFunctions_subset ss hf

theorem Case.allFunctions_subset {f : Function} :
    (cs : List Case) → f ∈ Case.allFunctions cs → f.body.functions ⊆ Case.allFunctions cs
  | ⟨_, _, body⟩ :: cs, hf => by
    unfold Case.allFunctions at hf ⊢
    rcases List.mem_append.1 hf with hf | hf
    . exact List.Subset.trans (body.functions_subset hf) (List.subset_append_left _ _)
    . exact List.Subset.trans (Case.allFunctions_subset cs hf) (List.subset_append_right _ _)

end

theorem Stmt.mem_allFunctions {ss : List Stmt} {f : Signature} {body : Block}
    (hf : .function ⟨f, body⟩ ∈ ss) : ⟨f, body⟩ ∈ Stmt.allFunctions ss := by
  induction ss with
  | nil => contradiction
  | cons s ss ih =>
    unfold Stmt.allFunctions
    rcases List.mem_cons.1 hf with rfl | hf
    . exact List.mem_append_left _ List.mem_cons_self
    . exact List.mem_append_right _ (ih hf)

namespace Block

variable {p : Block} {f g : Function}

theorem innerNames_nodup (hn : p.boundNames.Nodup) (hf : f ∈ p.functions) :
    f.innerNames.Nodup := by
  rw [p.boundNames_perm.nodup_iff, List.nodup_append] at hn
  exact hn.2.1.sublist (p.innerNames_sublist hf)

theorem name_notMem_innerNames (hn : p.boundNames.Nodup) (hf : f ∈ p.functions)
    (hg : g ∈ p.functions) : g.name ∉ f.innerNames := by
  intro hmem
  rw [p.boundNames_perm.nodup_iff, List.nodup_append] at hn
  have hname : g.name ∈ Function.names p.functions := List.mem_map.2 ⟨g, hg, rfl⟩
  exact hn.2.2 _ hname _ ((p.innerNames_sublist hf).subset hmem) rfl

theorem innerNames_subset (hf : f ∈ p.functions) : f.innerNames ⊆ p.boundNames := by
  intro x hx
  rw [p.boundNames_perm.mem_iff, List.mem_append]
  exact .inr ((p.innerNames_sublist hf).subset hx)

theorem name_mem_boundNames (hf : f ∈ p.functions) : f.name ∈ p.boundNames := by
  rw [p.boundNames_perm.mem_iff, List.mem_append]
  exact .inl (List.mem_map.2 ⟨f, hf, rfl⟩)

theorem eq_of_name_eq (hn : p.boundNames.Nodup) (hf : f ∈ p.functions) (hg : g ∈ p.functions)
    (h : f.name = g.name) : f = g := by
  rw [p.boundNames_perm.nodup_iff, List.nodup_append] at hn
  exact List.inj_on_of_nodup_map hn.1 hf hg h

theorem function?_eq_some {name : String} (h : p.function? name = some f) :
    f ∈ p.functions ∧ f.name = name := by
  unfold function? at h
  have hmem := List.mem_of_find?_eq_some h
  have hname := List.find?_some h
  rw [List.mem_reverse] at hmem
  exact ⟨hmem, of_decide_eq_true hname⟩

end Block
end Splice
