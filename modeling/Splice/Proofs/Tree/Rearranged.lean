import Splice.Proofs.Tree.Parts

/-!
This module contains the rearrangements of a tree in which functions go to other places of their
blocks. All other statements of a block stay in their order.
-/

namespace Splice

namespace Stmt

def isFunction : Stmt → Bool
  | .function _ => true
  | _ => false

def others (ss : List Stmt) : List Stmt :=
  ss.filter fun s => !s.isFunction

/--
The statements `ts` are the statements `ss` with functions at other places.
-/
def Moved (ss ts : List Stmt) : Prop :=
  ss.Perm ts ∧ others ss = others ts

theorem others_cons_of_isFunction {s : Stmt} (h : s.isFunction = true) (ss : List Stmt) :
    others (s :: ss) = others ss := by
  unfold others
  rw [List.filter_cons_of_neg (by simp [h])]

theorem others_cons_of_not_isFunction {s : Stmt} (h : s.isFunction = false) (ss : List Stmt) :
    others (s :: ss) = s :: others ss := by
  unfold others
  rw [List.filter_cons_of_pos (by simp [h])]

theorem declared_of_isFunction {s : Stmt} (h : s.isFunction = true) : s.declared = [] := by
  cases s with
  | function _ => rfl
  | _ => contradiction

theorem flatMap_declared_others (ss : List Stmt) :
    (others ss).flatMap declared = ss.flatMap declared := by
  induction ss with
  | nil => rfl
  | cons s ss ih =>
    cases h : s.isFunction with
    | true => rw [others_cons_of_isFunction h, ih, List.flatMap_cons, declared_of_isFunction h,
        List.nil_append]
    | false => rw [others_cons_of_not_isFunction h, List.flatMap_cons, ih, List.flatMap_cons]

end Stmt

mutual

inductive Stmt.Rearranged : Stmt → Stmt → Prop
  | same (s : Stmt) : Stmt.Rearranged s s
  | conditional (span : Span) (condition : Expr) {body body' : Block}
    (hbody : Block.Rearranged body body') :
    Stmt.Rearranged (.conditional span condition body) (.conditional span condition body')
  | switch (span : Span) (subject : Expr) {arms arms' : List Case}
    (harms : Case.AllRearranged arms arms') :
    Stmt.Rearranged (.switch span subject arms) (.switch span subject arms')
  | loop (span : Span) (condition : Expr) {pre pre' post post' body body' : Block}
    (hpre : Block.Rearranged pre pre') (hpost : Block.Rearranged post post')
    (hbody : Block.Rearranged body body') :
    Stmt.Rearranged (.loop span pre condition post body) (.loop span pre' condition post' body')
  | function (f : Signature) {body body' : Block} (hbody : Block.Rearranged body body') :
    Stmt.Rearranged (.function ⟨f, body⟩) (.function ⟨f, body'⟩)
  | block {b b' : Block} (h : Block.Rearranged b b') : Stmt.Rearranged (.block b) (.block b')

inductive Stmt.AllRearranged : List Stmt → List Stmt → Prop
  | nil : Stmt.AllRearranged [] []
  | cons {s t : Stmt} {ss ts : List Stmt} (h : Stmt.Rearranged s t)
    (hs : Stmt.AllRearranged ss ts) : Stmt.AllRearranged (s :: ss) (t :: ts)

/--
The second block is the first one with functions moved within it and within the blocks in it. None
of them leaves its block.
-/
inductive Block.Rearranged : Block → Block → Prop
  | mk (span : Span) {ss ms ts : List Stmt} (hinner : Stmt.AllRearranged ss ms)
    (hmoved : Stmt.Moved ms ts) : Block.Rearranged ⟨span, ss⟩ ⟨span, ts⟩

inductive Case.AllRearranged : List Case → List Case → Prop
  | nil : Case.AllRearranged [] []
  | cons (span : Span) (value : Option Literal) {body body' : Block} {cs cs' : List Case}
    (hbody : Block.Rearranged body body') (hs : Case.AllRearranged cs cs') :
    Case.AllRearranged (⟨span, value, body⟩ :: cs) (⟨span, value, body'⟩ :: cs')

end

theorem Stmt.AllRearranged.refl (ss : List Stmt) : Stmt.AllRearranged ss ss := by
  induction ss with
  | nil => exact .nil
  | cons s ss ih => exact .cons (.same s) ih

theorem Block.Rearranged.refl (b : Block) : b.Rearranged b := by
  obtain ⟨span, ss⟩ := b
  exact .mk span (.refl ss) ⟨.refl ss, rfl⟩

/-! ## What stays -/

namespace Stmt.Rearranged

variable {s t : Stmt}

theorem announced_eq (h : s.Rearranged t) : s.announced = t.announced := by
  cases h <;> rfl

theorem declared_eq (h : s.Rearranged t) : s.declared = t.declared := by
  cases h <;> rfl

end Stmt.Rearranged

theorem Case.AllRearranged.map_value : {cs cs' : List Case} → Case.AllRearranged cs cs' →
    cs.map Case.value = cs'.map Case.value
  | _, _, .nil => rfl
  | _, _, .cons _ value _ hs => congrArg (value :: ·) hs.map_value

mutual

theorem Stmt.Rearranged.boundNames_perm :
    {s t : Stmt} → s.Rearranged t → s.boundNames.Perm t.boundNames
  | _, _, .same _ => .refl _
  | _, _, .conditional _ _ hbody => hbody.boundNames_perm
  | _, _, .switch _ _ harms => harms.boundNames_perm
  | _, _, .loop _ _ hpre hpost hbody =>
    (hpre.boundNames_perm.append hpost.boundNames_perm).append hbody.boundNames_perm
  | _, _, .function _ hbody => hbody.boundNames_perm.append_left _
  | _, _, .block h => h.boundNames_perm

theorem Stmt.AllRearranged.boundNames_perm : {ss ts : List Stmt} → Stmt.AllRearranged ss ts →
    (Stmt.allBoundNames ss).Perm (Stmt.allBoundNames ts)
  | _, _, .nil => .refl _
  | _, _, .cons h hs => h.boundNames_perm.append hs.boundNames_perm

theorem Block.Rearranged.boundNames_perm :
    {b b' : Block} → b.Rearranged b' → b.boundNames.Perm b'.boundNames
  | _, _, @Block.Rearranged.mk _ _ ms ts hinner hmoved => by
    have hmoved : (Stmt.allBoundNames ms).Perm (Stmt.allBoundNames ts) := by
      rw [Stmt.allBoundNames_eq_flatMap, Stmt.allBoundNames_eq_flatMap]
      exact hmoved.1.flatMap_right _
    exact hinner.boundNames_perm.trans hmoved

theorem Case.AllRearranged.boundNames_perm : {cs cs' : List Case} → Case.AllRearranged cs cs' →
    (Case.allBoundNames cs).Perm (Case.allBoundNames cs')
  | _, _, .nil => .refl _
  | _, _, .cons _ _ hbody hs => hbody.boundNames_perm.append hs.boundNames_perm

end

end Splice
