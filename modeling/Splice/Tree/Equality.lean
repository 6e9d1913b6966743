import Splice.Tree.Basic

/-!
This module contains the decision procedure for the equality of trees. Two trees are equal if they
agree in everything, their spans included.
-/

namespace Splice

namespace Expr

mutual

def same : Expr → Expr → Bool
  | .literal l, .literal m => l = m
  | .identifier i, .identifier j => i = j
  | .call s f as, .call t g bs => s = t && f = g && sameAll as bs
  | .instruction s m as, .instruction t n bs => s = t && m = n && sameAll as bs
  | _, _ => false

def sameAll : List Expr → List Expr → Bool
  | [], [] => true
  | a :: as, b :: bs => a.same b && sameAll as bs
  | _, _ => false

end

mutual

theorem same_iff (a b : Expr) : a.same b = true ↔ a = b := by
  cases a <;> cases b <;> simp [same, and_assoc]
  all_goals exact fun _ _ => sameAll_iff _ _

theorem sameAll_iff (as bs : List Expr) : sameAll as bs = true ↔ as = bs := by
  cases as with
  | nil => cases bs <;> simp [sameAll]
  | cons a as =>
    cases bs with
    | nil => simp [sameAll]
    | cons b bs => simp [sameAll, same_iff a b, sameAll_iff as bs]

end

instance : DecidableEq Expr := fun a b => decidable_of_iff _ (same_iff a b)

end Expr

mutual

def Stmt.same : Stmt → Stmt → Bool
  | .expression a, .expression b => a = b
  | .declaration s xs v, .declaration t ys w => s = t && xs = ys && v = w
  | .assignment s xs v, .assignment t ys w => s = t && xs = ys && v = w
  | .conditional s c p, .conditional t d q => s = t && c = d && p.same q
  | .switch s c as, .switch t d bs => s = t && c = d && Case.sameAll as bs
  | .loop s p₁ c p₂ p₃, .loop t q₁ d q₂ q₃ =>
    s = t && p₁.same q₁ && c = d && p₂.same q₂ && p₃.same q₃
  | .function f, .function g => f.same g
  | .block p, .block q => p.same q
  | .stack f, .stack g => f = g
  | _, _ => false

def Stmt.sameAll : List Stmt → List Stmt → Bool
  | [], [] => true
  | a :: as, b :: bs => a.same b && Stmt.sameAll as bs
  | _, _ => false

def Block.same : Block → Block → Bool
  | ⟨s, as⟩, ⟨t, bs⟩ => s = t && Stmt.sameAll as bs

def Case.same : Case → Case → Bool
  | ⟨s, v, p⟩, ⟨t, w, q⟩ => s = t && v = w && p.same q

def Case.sameAll : List Case → List Case → Bool
  | [], [] => true
  | c :: cs, d :: ds => c.same d && Case.sameAll cs ds
  | _, _ => false

def Function.same : Function → Function → Bool
  | ⟨f, p⟩, ⟨g, q⟩ => f = g && p.same q

end

mutual

theorem Stmt.same_iff : (a b : Stmt) → (a.same b = true ↔ a = b)
  | .expression _, b => by cases b <;> simp [Stmt.same]
  | .declaration .., b => by cases b <;> simp [Stmt.same, and_assoc]
  | .assignment .., b => by cases b <;> simp [Stmt.same, and_assoc]
  | .conditional _ _ p, b => by cases b <;> simp [Stmt.same, and_assoc, Block.same_iff p]
  | .switch _ _ cs, b => by cases b <;> simp [Stmt.same, and_assoc, Case.sameAll_iff cs]
  | .loop _ p₁ _ p₂ p₃, b => by
    cases b <;> simp [Stmt.same, and_assoc, Block.same_iff p₁, Block.same_iff p₂, Block.same_iff p₃]
  | .function f, b => by cases b <;> simp [Stmt.same, Function.same_iff f]
  | .block p, b => by cases b <;> simp [Stmt.same, Block.same_iff p]
  | .stack _, b => by cases b <;> simp [Stmt.same]

theorem Stmt.sameAll_iff : (as bs : List Stmt) → (Stmt.sameAll as bs = true ↔ as = bs)
  | [], bs => by cases bs <;> simp [Stmt.sameAll]
  | _ :: _, [] => by simp [Stmt.sameAll]
  | a :: as, b :: bs => by simp [Stmt.sameAll, Stmt.same_iff a b, Stmt.sameAll_iff as bs]

theorem Block.same_iff : (p q : Block) → (p.same q = true ↔ p = q)
  | ⟨_, as⟩, ⟨_, bs⟩ => by simp [Block.same, Stmt.sameAll_iff as bs]

theorem Case.same_iff : (c d : Case) → (c.same d = true ↔ c = d)
  | ⟨_, _, p⟩, ⟨_, _, q⟩ => by simp [Case.same, and_assoc, Block.same_iff p q]

theorem Case.sameAll_iff : (cs ds : List Case) → (Case.sameAll cs ds = true ↔ cs = ds)
  | [], ds => by cases ds <;> simp [Case.sameAll]
  | _ :: _, [] => by simp [Case.sameAll]
  | c :: cs, d :: ds => by simp [Case.sameAll, Case.same_iff c d, Case.sameAll_iff cs ds]

theorem Function.same_iff : (f g : Function) → (f.same g = true ↔ f = g)
  | ⟨_, p⟩, ⟨_, q⟩ => by simp [Function.same, Block.same_iff p q]

end

instance : DecidableEq Stmt := fun a b => decidable_of_iff _ (Stmt.same_iff a b)

instance : DecidableEq Block := fun p q => decidable_of_iff _ (Block.same_iff p q)

instance : DecidableEq Function := fun f g => decidable_of_iff _ (Function.same_iff f g)

end Splice
