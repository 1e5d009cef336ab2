import RationalLisp.Value

/-! # Hashes of values

The hash of a list is made of the hashes of its items and of what ends it. The items are gathered in
a loop, so only lists in lists take recursion. -/

namespace RationalLisp

/-- What hashing is made of: the hashes of values that are no cells, and what the hashes of the
heads of a chain and of the value that ends it come to. -/
structure Hashing (H : Type) where
  leaf : Value → H
  chain : List H → H → H

namespace Value

variable {H : Type}

/-- The hash of a value, given what it comes to if the value is a cell. -/
def hashBy (hashing : Hashing H) (loop : H) : Value → H
  | .cell _ _ => loop
  | leaf => hashing.leaf leaf

/-- The loop over a chain of cells, with the hashes of the heads that it has passed. -/
def walkHash (hashing : Hashing H) : Value → List H → H
  | .cell head tail, seen =>
    walkHash hashing tail (seen ++ [hashBy hashing (walkHash hashing head []) head])
  | last, seen => hashing.chain seen (hashing.leaf last)

/-- The hash of a value. -/
def hashWith (hashing : Hashing H) (v : Value) : H := hashBy hashing (walkHash hashing v []) v

end Value

end RationalLisp
