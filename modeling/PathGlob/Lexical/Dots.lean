/-
The run of dots and separators in front of a path.

Such a run says where a path starts from and names nothing, so a pattern hands
it to the root it is relative to and a lookup in a tree of names ignores it.
What is handed over ends before a separator: the separator stays with what
follows, because it is what joins the two. Only a path that is dots to the very
end, with no separator to stop at, goes as a whole.

A dot in front of a name is part of the name. The run may reach into it
(`../..a`), but the last separator of the run is before it, and that is where
the cut is made.
-/
import PathGlob.Text

set_option autoImplicit false

namespace PathGlob

namespace Lexical

/-- A character that can stand in the run. -/
def isDotOrSeparator (c : Char) : Bool := c == '.' || c == '/'

/-- The part of a path that only says where to start from. -/
def dotPart (path : Text) : Text :=
  let run := path.takeWhile isDotOrSeparator
  if run.length == path.length && !Text.closed path then path else Text.parent run

/-- The rest of the path, which begins with a separator unless the whole path
was cut off or nothing was. -/
def withoutDots (path : Text) : Text := path.drop (dotPart path).length

end Lexical

end PathGlob
