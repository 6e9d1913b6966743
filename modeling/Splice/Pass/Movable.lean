import Splice.Dialect
import Splice.Tree.Basic

/-!
This module contains the test whether an expression can be computed before or after the expressions
beside it without a difference.
-/

namespace Splice
namespace Expr

mutual

/--
Literals and names are movable, and so are calls of movable instructions with movable arguments. A
call of a function never is, since nothing is known of what it does.
-/
def isMovable : Expr → Bool
  | .literal _ => true
  | .identifier _ => true
  | .call .. => false
  | .instruction _ name arguments =>
    (Instruction.find? name).any Instruction.movable && allMovable arguments

def allMovable : List Expr → Bool
  | [] => true
  | e :: es => e.isMovable && allMovable es

end

end Expr
end Splice
