/-
A file system as a table of nodes.

Every node is kept under its location, the names that lead to it from the top
with no dots and no links among them. The top itself is always a directory and
is in no table. Locations are what path resolution ends at; how a path, which
may hold dots and lead through links, comes to a location is the matter of
`FileSystem.Resolve`.
-/
import PathGlob.Tree.Basic

set_option autoImplicit false

namespace PathGlob

/-- What can be at a location. -/
inductive Node where
  | dir
  | file (size : Nat)
  /-- A symbolic link, with the text it holds. -/
  | link (target : Text)
  deriving DecidableEq, Repr

/-- The names from the top down. -/
abbrev Location := List Text

/-- The nodes below the top. -/
structure FileSystem where
  nodes : List (Location × Node)
  deriving Repr

namespace FileSystem

/-- The node at a location. -/
def node? (fs : FileSystem) (location : Location) : Option Node :=
  if location.isEmpty then some .dir else fs.nodes.lookup location

/-- Put a node at a location, in place of any other. -/
def put (fs : FileSystem) (location : Location) (node : Node) : FileSystem :=
  ⟨(location, node) :: fs.nodes.filter (·.1 != location)⟩

/-- The name of a location directly inside another. -/
def nameInside : Location → Location → Option Text
  | [], [name] => some name
  | d :: dir, l :: location => if d = l then nameInside dir location else none
  | _, _ => none

/-- The names directly inside a location, in increasing order. -/
def namesAt (fs : FileSystem) (dir : Location) : List Text :=
  (fs.nodes.filterMap fun (location, _) => nameInside dir location).mergeSort Text.notAfter

/-! ## Faults -/

/-- Nothing is there. -/
def notFound : IoFault := ⟨.notFound, "No such file or directory (os error 2)"⟩

/-- Something is there, but nothing can be inside it. -/
def notADirectory : IoFault := ⟨.notADirectory, "Not a directory (os error 20)"⟩

/-- A name or a whole path is too long. -/
def nameTooLong : IoFault := ⟨.invalidFilename, "File name too long (os error 36)"⟩

/-- More links on the way than are followed. -/
def tooManyLinks : IoFault :=
  ⟨.filesystemLoop, "Too many levels of symbolic links (os error 40)"⟩

/-- A path that cannot be handed to the system. -/
def nulInPath : IoFault := ⟨.invalidInput, "file name contained an unexpected NUL byte"⟩

/-- Faults that mean no more than that a path is absent. A path below a file is
as absent as one that was never made. -/
def isAbsence (fault : IoFault) : Bool :=
  fault.kind == .notFound || fault.kind == .notADirectory

/-! ## Limits -/

/-- A path of this many bytes is too long. -/
def pathLimit : Nat := 4096

/-- The longest name, in bytes. -/
def nameLimit : Nat := 255

/-- How many links are followed while one path is resolved. -/
def linkLimit : Nat := 40

end FileSystem

end PathGlob
