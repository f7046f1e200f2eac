/-
A pattern and the root it is relative to, brought into the form a walk starts
from.

Four things happen, in this order. A pattern that ends with a separator means
everything below, so `**` is written after it. The dots in front of the pattern
are handed to the root. The root is cleaned. And a root is closed with a
separator exactly when the pattern does not bring one of its own, so that
writing one after the other names the path that is meant.

While the dots are handed over, the root is only text: an empty root stays
empty (a separator in front would make it rooted), a root that is closed takes
no second separator, and one that ends in a colon is joined as it stands.
-/
import PathGlob.Lexical.Clean
import PathGlob.Lexical.Dots

set_option autoImplicit false

namespace PathGlob

/-- A pattern with the root it is relative to. -/
structure Anchored where
  pattern : Text
  root : Text
  deriving DecidableEq, Repr

namespace Anchored

/-- Everything below is meant by a closing separator. -/
def withEverythingBelow (pattern : Text) : Text :=
  if Text.closed pattern then pattern ++ ['*', '*'] else pattern

/-- A root with the dots of a pattern written after it, not yet cleaned. -/
def extendRoot (root dots : Text) : Text :=
  if Text.opened dots then
    root ++ (if Text.closed root then dots.drop 1 else dots)
  else if root.isEmpty || root.getLast? == some ':' || Text.closed root then root ++ dots
  else root ++ ['/'] ++ dots

/-- The root as it stands in front of a pattern. -/
def closeRoot (pattern root : Text) : Text :=
  if pattern.isEmpty || Text.opened pattern || Text.closed root then root else root ++ ['/']

/-- The form of a pattern and its root from which a walk starts. -/
def of (pattern root : Text) : Anchored :=
  let pattern := withEverythingBelow pattern
  let dots := Lexical.dotPart pattern
  let root := Lexical.clean (if dots.isEmpty then root else extendRoot root dots)
  let pattern := Lexical.withoutDots pattern
  ⟨pattern, closeRoot pattern root⟩

end Anchored

end PathGlob
