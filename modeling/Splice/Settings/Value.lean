/-!
This module contains the values of settings. Of the kinds of values that a settings document can
hold, these are the ones that a setting can have.
-/

namespace Splice

inductive Value where
  | string (text : String)
  | boolean (b : Bool)
  | list (items : List Value)
  | table (entries : List (String × Value))
deriving Inhabited

end Splice
