import Mathlib.Tactic.Common

/-!
# Results that may be missing
-/

namespace Fugue.Lib

universe u

theorem some_bind {α β : Type u} (a : α) (f : α → Option β) : (some a >>= f) = f a := rfl

theorem lt_of_getElem? {α : Type u} {xs : List α} {i : Nat} {a : α} (found : xs[i]? = some a) :
    i < xs.length :=
  (List.getElem?_eq_some_iff.mp found).1

end Fugue.Lib
