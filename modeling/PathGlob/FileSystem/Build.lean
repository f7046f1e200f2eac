/-
Filling a file system from a description.

A description is a list of things to make, each with its path below some
directory. Directories above it are made where they are missing, and a link on
the way is followed, so a thing can be put inside a directory under another
name. Things are made in the order given; a link does not replace anything, and
a file written through a link is the file the link leads to.
-/
import PathGlob.FileSystem.Resolve

set_option autoImplicit false

namespace PathGlob

namespace FileSystem

/-- Something to make, with its path. -/
inductive Entry where
  | dir (path : Text)
  | file (path : Text) (size : Nat)
  | link (path target : Text)
  deriving DecidableEq, Repr

/-- The path of the thing to make. -/
def Entry.path : Entry → Text
  | .dir path => path
  | .file path _ => path
  | .link path _ => path

/-- Go down by names from a location and make the directories that are missing.
The location reached comes back with the file system. -/
def makeDirs (fs : FileSystem) (location : Location) : List Text → FileSystem × Location
  | [] => (fs, location)
  | name :: rest =>
    if name == [] || name == ['.'] then makeDirs fs location rest
    else if name == ['.', '.'] then makeDirs fs location.dropLast rest
    else
      match fs.node? (location ++ [name]) with
      | none => makeDirs (fs.put (location ++ [name]) .dir) (location ++ [name]) rest
      | some _ =>
        match fs.locate true linkLimit location [name] with
        | .ok target => makeDirs fs target rest
        | .error _ => (fs, location)

/-- Write a file under a name in a directory. Where the name is that of a link,
the file it leads to is written, which need not be there before; `links` is the
number of links that may be followed. -/
def writeFile (fs : FileSystem) (size : Nat) : Nat → Location → Text → FileSystem
  | 0, _, _ => fs
  | links + 1, dir, name =>
    match fs.node? (dir ++ [name]) with
    | some (.link target) =>
      let names := Text.components target
      match fs.locate true linkLimit (if Text.opened target then [] else dir) names.dropLast,
          names.getLast? with
      | .ok parent, some last => writeFile fs size links parent last
      | _, _ => fs
    | _ => fs.put (dir ++ [name]) (.file size)

/-- Make a link under a name in a directory, unless the name is taken. -/
def makeLink (fs : FileSystem) (target : Text) (dir : Location) (name : Text) : FileSystem :=
  if (fs.node? (dir ++ [name])).isNone then fs.put (dir ++ [name]) (.link target) else fs

/-- Make one thing below a directory. -/
def make (fs : FileSystem) (base : Location) (entry : Entry) : FileSystem :=
  let names := Text.components entry.path
  match entry with
  | .dir _ => (fs.makeDirs base names).1
  | .file _ size =>
    let (fs, dir) := fs.makeDirs base names.dropLast
    fs.writeFile size (linkLimit + 1) dir (names.getLast?.getD [])
  | .link _ target =>
    let (fs, dir) := fs.makeDirs base names.dropLast
    fs.makeLink target dir (names.getLast?.getD [])

/-! ## A world to start from -/

/-- The working directory of a new world, two levels below the top. -/
def workDir : Location := ["tmp".toList, "work".toList]

/-- A world with an empty working directory and the null device. -/
def empty : FileSystem :=
  ⟨[(["dev".toList], .dir), (["dev".toList, "null".toList], .file 0),
    (["tmp".toList], .dir), (workDir, .dir)]⟩

/-- A world made by a description, with the location of a directory below the
working directory, which is made too. -/
def world (entries : List Entry) (cwd : Text) : FileSystem × Location :=
  (entries.foldl (fun fs entry => fs.make workDir entry) empty).makeDirs workDir
    (Text.components cwd)

end FileSystem

end PathGlob
