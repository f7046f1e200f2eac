/-
From a path to a location.

A path is taken component by component from the top, if it begins with a
separator, or else from the working directory. Whatever is still to be taken,
also an empty component or a dot, can only be taken at a directory; that is why
a path with a separator behind a file leads nowhere. A link on the way is
replaced by the components of its text. A link at the very end is replaced too
when the path is to be followed to the end, and is itself the result otherwise.

Links can lead in a circle. The number of links followed is bounded, and with it
the whole resolution: between two links the components left to take grow fewer.
-/
import PathGlob.FileSystem.Node

set_option autoImplicit false

namespace PathGlob

namespace FileSystem

/-- Take the components of a path from a location on. `links` is the number of
links that may still be followed, and `follow` says whether one at the very end
is. -/
def locate (fs : FileSystem) (follow : Bool) (links : Nat) (here : Location) :
    List Text → Except IoFault Location
  | [] => .ok here
  | name :: rest =>
    if fs.node? here != some .dir then .error notADirectory
    else if name == [] || name == ['.'] then locate fs follow links here rest
    else if name == ['.', '.'] then locate fs follow links here.dropLast rest
    else if Text.byteSize name > nameLimit then .error nameTooLong
    else
      match fs.node? (here ++ [name]) with
      | none => .error notFound
      | some (.link target) =>
        if rest.isEmpty && !follow then .ok (here ++ [name])
        else
          match links with
          | 0 => .error tooManyLinks
          | links + 1 =>
            locate fs follow links (if Text.opened target then [] else here)
              (Text.components target ++ rest)
      | some _ => locate fs follow links (here ++ [name]) rest
termination_by rest => (links, rest.length)

/-- The location a path leads to from a working directory. -/
def resolve (fs : FileSystem) (follow : Bool) (cwd : Location) (path : Text) :
    Except IoFault Location :=
  if path.contains '\x00' then .error nulInPath
  else if path.isEmpty then .error notFound
  else if Text.byteSize path ≥ pathLimit then .error nameTooLong
  else locate fs follow linkLimit (if Text.opened path then [] else cwd) (Text.components path)

/-- What is at a path, not following a link at its end. -/
def describe (fs : FileSystem) (cwd : Location) (path : Text) : Except IoFault Node := do
  let location ← fs.resolve false cwd path
  match fs.node? location with
  | some node => return node
  | none => throw notFound

/-! ## As a tree -/

/-- The names inside a path. Links are followed, so a link to a directory has
the names of that directory. -/
def listAt (fs : FileSystem) (cwd : Location) (path : Text) : Except IoFault (List Text) :=
  match fs.resolve true cwd path with
  | .ok location =>
    if fs.node? location == some .dir then .ok (fs.namesAt location) else .ok []
  | .error fault => if isAbsence fault then .ok [] else .error fault

/-- Whether there is anything at a path. A link counts, wherever it leads. -/
def probeAt (fs : FileSystem) (cwd : Location) (path : Text) : Except IoFault Bool :=
  match fs.resolve false cwd path with
  | .ok _ => .ok true
  | .error fault => if isAbsence fault then .ok false else .error fault

/-- The file system as seen from a working directory. A path grows with every
step down, and one that has grown too long can no longer be listed; so no walk
goes down further than a path has bytes. -/
def tree (fs : FileSystem) (cwd : Location) : Tree where
  list := fs.listAt cwd
  probe := fs.probeAt cwd
  depth := pathLimit + 1

end FileSystem

end PathGlob
