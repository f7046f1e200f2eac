/-
The pages that tell how the program is used.

There is one page for the program and one for each command. A page is made of
blocks: what the thing does, how it is called, and a section for each kind of
thing that can be given, in the order positional items, options, commands. Every
block ends with an empty line, the last one as well.

A section lists terms with their meanings, and the meanings of all sections of
a page begin in one column, two places after the widest term. A long option
leaves room for the letter that it does not have.
-/
import PathGlob.Console.Arguments

set_option autoImplicit false

namespace PathGlob

namespace Console

/-- The name of the program. -/
def programName : String := "globstar"

/-! ## Pages -/

/-- A term and what it means. -/
structure HelpEntry where
  term : String
  meaning : String
  deriving DecidableEq, Repr

/-- Terms of one kind. -/
structure HelpSection where
  title : String
  entries : List HelpEntry
  deriving DecidableEq, Repr

/-- A page of help. -/
structure HelpPage where
  summary : String
  /-- The call, the name of the program first. -/
  call : String
  sections : List HelpSection
  deriving DecidableEq, Repr

/-! ## Layout -/

/-- The width of the widest term of a page. -/
def HelpPage.termWidth (page : HelpPage) : Nat :=
  (page.sections.flatMap fun part => part.entries).foldl
    (fun width entry => max width entry.term.length) 0

/-- A term and its meaning on a line, with the terms of a given width. -/
def HelpEntry.line (width : Nat) (entry : HelpEntry) : String :=
  "    " ++ entry.term.pushn ' ' (width - entry.term.length) ++ "  " ++ entry.meaning

/-- The lines of a section. -/
def HelpSection.lines (width : Nat) (part : HelpSection) : List String :=
  part.title :: part.entries.map (HelpEntry.line width)

/-- Blocks of lines, each with an empty line after it. -/
def spacedBlocks (blocks : List (List String)) : List String :=
  blocks.flatMap fun block => block ++ [""]

/-- The lines of a page. -/
def HelpPage.lines (page : HelpPage) : List String :=
  spacedBlocks
    ([page.summary] :: ["Usage: " ++ page.call] ::
      page.sections.map (HelpSection.lines page.termWidth))

/-! ## The pages of the program -/

/-- What a command does. -/
def Verb.summary : Verb → String
  | .filter => "Print the names that match a pattern"
  | .glob => "Print the file system entries that match a pattern"
  | .segments => "Show how a pattern splits into literal and any-directories segments"
  | .version => "Print version information"

/-- What follows the name of a command in a call. -/
def Verb.arguments : Verb → String
  | .filter => "PATTERN [NAME]..."
  | .glob => "[--root=DIR] [--full] [--keep-going] PATTERN"
  | .segments => "PATTERN"
  | .version => ""

/-- The option that asks for help. -/
def helpEntry : HelpEntry := ⟨"-h, --help", "Prints help information"⟩

/-- The option that asks for the version number. -/
def versionEntry : HelpEntry := ⟨"-V, --version", "Prints version information"⟩

/-- The words of a command that are explained. -/
def Verb.wordSections : Verb → List HelpSection
  | .filter =>
    [⟨"Available positional items:",
      [⟨"PATTERN", "Pattern to test against"⟩,
        ⟨"NAME", "Names to test; those that match are printed"⟩]⟩]
  | _ => []

/-- The options of a command, without the one that asks for help. -/
def Verb.optionEntries : Verb → List HelpEntry
  | .glob =>
    [⟨"    --root=DIR",
        "Directory the pattern is relative to; defaults to the current directory"⟩,
      ⟨"    --full", "Print the root joined with each match instead of the relative path"⟩,
      ⟨"    --keep-going", "Report unreadable directories and keep going instead of stopping"⟩]
  | _ => []

/-- The section of options. -/
def optionSection (entries : List HelpEntry) : HelpSection := ⟨"Available options:", entries⟩

/-- The page of a command. -/
def Verb.page (verb : Verb) : HelpPage :=
  ⟨verb.summary, programName ++ " " ++ verb.name ++ " " ++ verb.arguments,
    verb.wordSections ++ [optionSection (verb.optionEntries ++ [helpEntry])]⟩

/-- The page of the program. -/
def programPage : HelpPage :=
  ⟨"Match paths against glob patterns with `**` support", programName ++ " COMMAND ...",
    [optionSection [helpEntry, versionEntry],
      ⟨"Available commands:",
        Verb.all.map fun verb => ⟨verb.name, verb.summary⟩⟩]⟩

end Console

end PathGlob
