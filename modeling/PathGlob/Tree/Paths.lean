/-
The tree that a list of paths describes.

Every path names an entry and, with it, all entries above. What is kept is the
set of entries, each as the list of its names from the root down, in increasing
order and without repetition. In this order an entry comes before everything
below it and siblings stand by name, so the names inside a directory are read
off in order, and two lists of paths that describe the same entries give equal
trees.

A path may be spelled in several ways, both when the tree is built and when it
is asked: the dots in front are cut off (see `Lexical.withoutDots`), and so are
separators at both ends. Building also skips empty components inside a path.
Asking does not: there, a doubled separator inside a path spells a name that no
entry has.
-/
import PathGlob.Lexical.Dots
import PathGlob.Tree.Basic

set_option autoImplicit false

namespace PathGlob

/-- The entries below the root, each by its names from the root down. -/
structure PathTree where
  entries : List (List Text)
  deriving DecidableEq, Repr

namespace PathTree

/-! ## Spellings -/

/-- The text without the separators at its front. -/
def dropSeparators (t : Text) : Text := t.dropWhile (· == '/')

/-- A path without what only says where it starts, and without separators at
either end. -/
def spelled (path : Text) : Text :=
  (dropSeparators (dropSeparators (Lexical.withoutDots path)).reverse).reverse

/-- The entry a path asks for. The root is the entry with no names. -/
def key (path : Text) : List Text :=
  if spelled path == [] then [] else Text.components (spelled path)

/-! ## Building -/

/-- The entry a path describes when a tree is built from it. -/
def entryOf (path : Text) : List Text :=
  (Text.components (spelled path)).filter (!·.isEmpty)

/-- An entry below the root and everything above it, the topmost first. -/
def lineage : List Text → List (List Text)
  | [] => []
  | name :: rest => [name] :: (lineage rest).map (name :: ·)

/-- Put an entry at its place in the order, unless it is there. -/
def insert (entry : List Text) : List (List Text) → List (List Text)
  | [] => [entry]
  | e :: rest =>
    if entry < e then entry :: e :: rest
    else if entry = e then e :: rest
    else e :: insert entry rest

/-- The tree of some paths. -/
def ofPaths (paths : List Text) : PathTree :=
  ⟨(paths.flatMap fun path => lineage (entryOf path)).foldl (fun es e => insert e es) []⟩

/-! ## Asking -/

/-- The name of an entry directly inside a directory. -/
def childName : List Text → List Text → Option Text
  | [], [name] => some name
  | d :: dir, e :: entry => if d = e then childName dir entry else none
  | _, _ => none

/-- The names inside a directory, in order. -/
def namesIn (tree : PathTree) (dir : List Text) : List Text :=
  tree.entries.filterMap (childName dir)

/-- Whether there is such an entry. The root is always there. -/
def has (tree : PathTree) (entry : List Text) : Bool :=
  entry.isEmpty || tree.entries.contains entry

/-- The number of names in the longest entry. -/
def height (tree : PathTree) : Nat :=
  (tree.entries.map List.length).foldl max 0

/-- The entries as a tree that can be asked about paths. Below the longest
entry there is one more listing, which is empty. -/
def tree (t : PathTree) : Tree where
  list path := .ok (t.namesIn (key path))
  probe path := .ok (t.has (key path))
  depth := t.height + 1

end PathTree

end PathGlob
