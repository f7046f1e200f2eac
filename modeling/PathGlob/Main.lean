/-
The program on real directories.

This is the only module that does anything: it reads directories and prints
lines. What to ask, what to print, when to stop and with which status to end is
decided elsewhere (`Walk.glob`, `GlobOptions.listener`, `GlobOptions.lineOf`,
`GlobOptions.finish`), and `perform` answers the requests of a walk as
`Walk.run` does.
-/
import PathGlob.Console.Transcript
import PathGlob.FileSystem.Resolve

set_option autoImplicit false

namespace PathGlob

namespace Console

/-! ## Reading directories -/

/-- A fault by the number the system gives it. The number may come negated. -/
def faultOfCode (code : UInt32) (otherwise : IoFault) : IoFault :=
  match (if code.toNat < 2147483648 then code.toNat else 4294967296 - code.toNat) with
  | 2 => FileSystem.notFound
  | 13 => ⟨.permissionDenied, "Permission denied (os error 13)"⟩
  | 20 => FileSystem.notADirectory
  | 22 => FileSystem.nulInPath
  | 36 => FileSystem.nameTooLong
  | 40 => FileSystem.tooManyLinks
  | _ => otherwise

/-- A fault met while a directory was read. -/
def faultOf (e : IO.Error) : IoFault :=
  let otherwise : IoFault := ⟨.other, toString e⟩
  match e with
  | .noFileOrDirectory _ code _ => faultOfCode code otherwise
  | .permissionDenied _ code _ => faultOfCode code otherwise
  | .inappropriateType _ code _ => faultOfCode code otherwise
  | .invalidArgument _ code _ => faultOfCode code otherwise
  | .otherError code _ => faultOfCode code otherwise
  | _ => otherwise

/-- Do something with a path, and take an absence for an answer. -/
def unlessAbsent {α : Type} (absent : α) (act : IO α) : IO (Except IoFault α) := do
  match ← act.toBaseIO with
  | .ok answer => return .ok answer
  | .error e =>
    let fault := faultOf e
    return if FileSystem.isAbsence fault then .ok absent else .error fault

/-- The names inside a directory, in increasing order. -/
def listDirectory (path : Text) : IO (Except IoFault (List Text)) :=
  unlessAbsent [] do
    let file := System.mkFilePath [String.ofList path]
    if (← file.metadata).type == .dir then
      let names := (← file.readDir).toList.map fun entry => entry.fileName.toList
      return names.mergeSort Text.notAfter
    else return []

/-- Whether there is anything at a path. -/
def probePath (path : Text) : IO (Except IoFault Bool) :=
  unlessAbsent false do
    let _ ← (System.mkFilePath [String.ofList path]).symlinkMetadata
    return true

/-! ## Printing -/

/-- Print a line where it belongs. -/
def printLine : Line → IO Unit
  | .out text => do (← IO.getStdout).putStrLn text
  | .err text => do (← IO.getStderr).putStrLn text

/-- Print a transcript and give its status. -/
def printTranscript (t : Transcript) : IO UInt32 := do
  t.lines.forM printLine
  (← IO.getStdout).flush
  return t.exit.toUInt32

/-! ## Running a walk -/

/-- Run a walk over real directories, printing as it goes. What was heard in the
end comes back with the ending. -/
def perform {α : Type} (options : GlobOptions) :
    Walk α → List Notice → IO (Ending α × List Notice)
  | .done value, heard => return (.finished value, heard)
  | .malformed e, heard => return (.malformed e, heard)
  | .stopped e, heard => return (.stopped e, heard)
  | .tooDeep, heard => return (.tooDeep, heard)
  | .ask (.list place) next, heard => do
    let answer ← listDirectory place.dir
    perform options (next answer) heard
  | .ask (.probe place) next, heard => do
    let answer ← probePath place.dir
    perform options (next answer) heard
  | .ask (.tell notice) next, heard => do
    (options.lineOf (heardRoot heard) notice).toList.forM printLine
    perform options (next (options.listener heard notice)) (notice :: heard)
  | .ask (.tellOnce notice) next, heard => do
    if notice ∈ heard then perform options (next none) heard
    else
      (options.lineOf (heardRoot heard) notice).toList.forM printLine
      perform options (next (options.listener heard notice)) (notice :: heard)

/-- Print what a pattern matches in real directories. -/
def performGlob (options : GlobOptions) : IO UInt32 := do
  let walk := Walk.glob (FileSystem.pathLimit + 1) options.pattern options.root
  let (ending, heard) ← perform options walk []
  printTranscript (options.finish (heard.any Notice.isFound) ending.error?)

/-- Do what some arguments ask for. -/
def runProgram (arguments : List Text) : IO UInt32 :=
  match Command.read arguments with
  | .error e => printTranscript e.transcript
  | .ok (.glob options) => performGlob options
  | .ok command => printTranscript (command.transcript (ListingTable.mk [] []).tree)

end Console

end PathGlob

/-- The program, with its arguments. -/
def main (arguments : List String) : IO UInt32 :=
  PathGlob.Console.runProgram (arguments.map String.toList)
