/-
A place in a walk has two spellings at once: the path as it is asked of the
tree, which begins with the root, and the path as it is told to the listener,
relative to the root. A walk goes down by names, and both spellings grow by the
same rule, so that the first stays the root joined with the second.

Joining puts a separator between two parts only where neither brings one. The
rule looks at the end of the first part alone when a name is joined on, since a
name has no separator in front. When a longer path is joined on, a separator in
front of it takes the place of the one to be written.
-/
import PathGlob.Text

set_option autoImplicit false

namespace PathGlob

/-- A path with one more name. -/
def Text.joinName (base name : Text) : Text :=
  if base.isEmpty || Text.closed base then base ++ name else base ++ ['/'] ++ name

/-- A directory joined with a path below it, which may begin with a separator
of its own. -/
def Text.joinPath (dir path : Text) : Text :=
  if path.isEmpty then dir
  else if Text.opened path then dir ++ (if Text.closed dir then path.drop 1 else path)
  else Text.joinName dir path

/-- Where a walk is. -/
structure Place where
  /-- The path as the tree is asked for it. -/
  dir : Text
  /-- The path relative to the root. -/
  path : Text
  deriving DecidableEq, Repr

namespace Place

/-- The place reached by a name. -/
def child (place : Place) (name : Text) : Place :=
  ⟨Text.joinName place.dir name, Text.joinName place.path name⟩

/-- The place at a path that goes on from this one. -/
def descend (place : Place) (path : Text) : Place :=
  ⟨Text.joinPath place.dir (path.drop place.path.length), path⟩

/-- A root joined with a path relative to it. -/
def fullPath (root path : Text) : Text := Text.joinPath root path

/-- Whether the place is the root, which is never told to a listener. -/
def isRoot (place : Place) : Bool := place.path == [] || place.path == ['/']

end Place

end PathGlob
