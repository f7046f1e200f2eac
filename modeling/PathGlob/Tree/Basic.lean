/-
What a walk asks of a tree, and the two ways in which a tree is altered for it.

A tree answers two questions about a path: which names are directly inside it,
and whether it is there at all. Either can fail, with a fault that has a kind
and a wording of its own. A path that is not there, or that is no directory,
has no names inside, and this is not a fault.

Nothing in the interface says that a tree is finite, and a walk goes down as
long as there are names. `depth` is therefore part of it: how many listings, one
below the other, are enough to reach every end. A walk that would need more
says so instead of an answer.
-/
import PathGlob.Text

set_option autoImplicit false

namespace PathGlob

/-! ## Faults of a tree -/

/-- What kind of thing went wrong while a tree was read. -/
inductive IoKind where
  | notFound
  | permissionDenied
  | notADirectory
  | filesystemLoop
  | invalidFilename
  | invalidInput
  | other
  deriving DecidableEq, Repr

/-- A fault met while a tree was read, with the wording it came with. -/
structure IoFault where
  kind : IoKind
  message : String
  deriving DecidableEq, Repr

/-! ## The interface -/

/-- A tree that can be asked about paths. -/
structure Tree where
  /-- The names directly inside a path. -/
  list : Text → Except IoFault (List Text)
  /-- Whether there is anything at a path. -/
  probe : Text → Except IoFault Bool
  /-- How many listings one below the other reach every end. -/
  depth : Nat

/-! ## A tree given by a table -/

/-- Listings written down path by path, with the paths that are there. Paths
are compared as they are spelled, and a path without a listing has no names
inside. -/
structure ListingTable where
  listings : List (Text × List Text)
  present : List Text

/-- A table as a tree. Going down by a name makes a longer spelling, unless the
name is empty, so a chain of listings that hold names is no longer than the
table. -/
def ListingTable.tree (table : ListingTable) : Tree where
  list path := .ok ((table.listings.lookup path).getD [])
  probe path := .ok (table.present.contains path)
  depth := table.listings.length + 1

/-! ## A tree with faults put in -/

/-- Makes questions about some paths fail. -/
structure FaultRule where
  onList : Bool
  onProbe : Bool
  /-- The end of the paths concerned; every path ends in the empty text. -/
  suffix : Text
  fault : IoFault

/-- The fault of the first rule that concerns a question about a path. -/
def FaultRule.find (rules : List FaultRule) (concerns : FaultRule → Bool) (path : Text) :
    Option IoFault :=
  (rules.find? fun rule => concerns rule && rule.suffix.isSuffixOf path).map (·.fault)

/-- The tree in which the questions that the rules concern fail and all others
are answered as before. -/
def Tree.withFaults (tree : Tree) (rules : List FaultRule) : Tree where
  list path :=
    match FaultRule.find rules (·.onList) path with
    | some fault => .error fault
    | none => tree.list path
  probe path :=
    match FaultRule.find rules (·.onProbe) path with
    | some fault => .error fault
    | none => tree.probe path
  depth := tree.depth

end PathGlob
