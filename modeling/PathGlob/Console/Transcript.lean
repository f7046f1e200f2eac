/-
What the program prints, and with which status it ends.

Everything it prints is a line, on the output or on the error output. The status
says whether anything matched: 0 if so, 1 if not, and 2 after an error, with the
lines printed before it kept. Wrong arguments end with 1 and print nothing on
the output.

An expansion is printed as it goes. What each notice prints, and which notices
end it, depends on the options alone; so the same two functions serve an
expansion over a tree in memory, all at once, and one over real directories,
line by line.
-/
import PathGlob.Console.Help
import PathGlob.Pattern.Matching
import PathGlob.Walk.Run

set_option autoImplicit false

namespace PathGlob

namespace Console

/-- A line to print. -/
inductive Line where
  | out (text : String)
  | err (text : String)
  deriving DecidableEq, Repr

/-- The lines of one run of the program and its status. -/
structure Transcript where
  lines : List Line
  exit : Nat
  deriving Repr

namespace Transcript

/-- All lines on the output, as one text. -/
def out (t : Transcript) : String :=
  String.join (t.lines.map fun
    | .out text => text ++ "\n"
    | .err _ => "")

/-- All lines on the error output, as one text. -/
def err (t : Transcript) : String :=
  String.join (t.lines.map fun
    | .out _ => ""
    | .err text => text ++ "\n")

/-- The transcript with one more line before it. -/
def after (line : Line) (t : Transcript) : Transcript := ⟨line :: t.lines, t.exit⟩

end Transcript

/-- The version of the program. -/
def programVersion : String := "0.1.0"

/-- The status when something matched and when nothing did. -/
def statusOf (matched : Bool) : Nat := if matched then 0 else 1

/-- An error, on one line, with its status. -/
def failure (message : String) : Transcript := ⟨[.err ("Error: " ++ message)], 2⟩

/-! ## Matching names -/

/-- Print the names that match, up to the first one without an answer. A name
that cannot be cut has no wording, only a status of its own. -/
def matchNames (pattern : Pattern) (matched : Bool) : List Text → Transcript
  | [] => ⟨[], statusOf matched⟩
  | name :: rest =>
    match pattern.accepts name with
    | .ok true => (matchNames pattern true rest).after (.out (String.ofList name))
    | .ok false => matchNames pattern matched rest
    | .error (.malformed e) => failure e.message
    | .error .badCut => ⟨[], 101⟩

/-! ## Segments -/

/-- One segment as a line. -/
def segmentLine : Segment → Line
  | .literal text width =>
    .out ("literal  " ++ toString width ++ "  " ++ String.ofList text)
  | .wild text =>
    .out ("any-dirs  " ++ String.ofList text ++ "  leading=" ++ toString (Text.opened text) ++
      " trailing=" ++ toString (Text.closed text))

/-- Print the segments of a pattern. -/
def printSegments (pattern : Text) : Transcript :=
  match Segment.read pattern with
  | .error e => failure e.message
  | .ok segments => ⟨segments.map segmentLine, statusOf (!segments.isEmpty)⟩

/-! ## Expansion -/

/-- The root among the notices heard. -/
def heardRoot (heard : List Notice) : Text :=
  (heard.findSome? fun
    | .root root => some root
    | _ => none).getD []

/-- A fault with the full name of the path it is about. -/
def faultMessage (root path : Text) (fault : IoFault) : String :=
  String.ofList (Place.fullPath root path) ++ ": " ++ fault.message

/-- Without the option to keep going, the first fault ends the expansion. -/
def GlobOptions.listener (options : GlobOptions) : Listener
  | heard, .failed path fault =>
    if options.keepGoing then none
    else some (.refused (faultMessage (heardRoot heard) path fault))
  | _, _ => none

/-- What a notice prints, under the root that was told before it. -/
def GlobOptions.lineOf (options : GlobOptions) (root : Text) : Notice → Option Line
  | .root _ => none
  | .found path =>
    some (.out (String.ofList (if options.full then Place.fullPath root path else path)))
  | .failed path fault =>
    if options.keepGoing then some (.err ("warning: " ++ faultMessage root path fault)) else none

/-- The end of an expansion: its error on a line, or whether anything matched. -/
def GlobOptions.finish (options : GlobOptions) (matched : Bool) (error : Option GlobError) :
    Transcript :=
  match error with
  | some e => failure ("failed to expand '" ++ String.ofList options.pattern ++ "': " ++ e.message)
  | none => ⟨[], statusOf matched⟩

/-- Print what a pattern matches in a tree. -/
def GlobOptions.transcript (options : GlobOptions) (tree : Tree) : Transcript :=
  let run := tree.glob options.listener options.pattern options.root
  let ending := options.finish (!run.found.isEmpty) run.error?
  ⟨run.notices.filterMap (options.lineOf (run.root?.getD [])) ++ ending.lines, ending.exit⟩

/-! ## Wrong arguments -/

/-- The wording of a usage error. -/
def UsageError.message : UsageError → String
  | .missingCommand => "expected a command: " ++ ", ".intercalate (Verb.all.map Verb.name)
  | .unknownOption argument => "unexpected option: " ++ String.ofList argument
  | .repeatedOption name => "option given twice: " ++ String.ofList name
  | .missingValue name => "option without its value: " ++ String.ofList name
  | .missingPattern => "expected a pattern"
  | .unexpectedWord word => "unexpected argument: " ++ String.ofList word

/-! ## The whole program -/

/-- What a command prints, with a tree to expand patterns in. -/
def Command.transcript (tree : Tree) : Command → Transcript
  | .filter pattern names =>
    match Pattern.read pattern with
    | .error e => failure e.message
    | .ok pattern => matchNames pattern false names
  | .glob options => options.transcript tree
  | .segments pattern => printSegments pattern
  | .version => ⟨[.out (programName ++ " " ++ programVersion)], 0⟩
  | .versionNumber => ⟨(spacedBlocks [["Version: " ++ programVersion]]).map .out, 0⟩
  | .help verb => ⟨((verb.map Verb.page).getD programPage).lines.map .out, 0⟩

/-- What wrong arguments print. -/
def UsageError.transcript (e : UsageError) : Transcript := ⟨[.err e.message], 1⟩

/-- What some arguments print, with a tree to expand patterns in. -/
def transcript (tree : Tree) (arguments : List Text) : Transcript :=
  match Command.read arguments with
  | .ok command => command.transcript tree
  | .error e => e.transcript

end Console

end PathGlob
