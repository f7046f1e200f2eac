/-
Reading the arguments of the command line.

The first argument names the command, and what follows belongs to it. Options
and words may come in any order, and the mark `--` ends the options: after it
every argument is a word, dashes or not, and none can be the value of an option.

In front of the mark the dashes decide. Two dashes begin a long option, with a
value in the same argument if an equals sign follows its name. One dash begins
an option of one letter, with a value if an equals sign comes later, or several
options in a row; but a row that holds a letter that is no option is a word. So
`-V` and `-Vh` are options, `-x` and `-xy=z` are options that no command knows,
and `-xV` and `-12` are words. All other arguments are words, a lone dash as
well.

A command takes the options it knows, each given once, with a value exactly when
the option has one. A value that is not in the same argument is the next
argument, which then has to be a word. Help can be asked for anywhere, the
version number only in place of a command.
-/
import PathGlob.Text

set_option autoImplicit false

namespace PathGlob

namespace Console

/-- How a pattern is expanded and what is printed of it. -/
structure GlobOptions where
  pattern : Text
  /-- The directory the pattern is relative to. -/
  root : Text
  /-- Print the root joined with each match. -/
  full : Bool
  /-- Report what cannot be read and go on. -/
  keepGoing : Bool
  deriving DecidableEq, Repr

/-- The commands, without their arguments. -/
inductive Verb where
  | filter
  | glob
  | segments
  | version
  deriving DecidableEq, Repr

/-- What the command line asks for. -/
inductive Command where
  /-- Print the names that match a pattern. -/
  | filter (pattern : Text) (names : List Text)
  /-- Print the entries that match a pattern. -/
  | glob (options : GlobOptions)
  /-- Print the segments of a pattern. -/
  | segments (pattern : Text)
  /-- Print the name and version of the program. -/
  | version
  /-- Print the version alone. -/
  | versionNumber
  /-- Print how a command is used, or the whole program. -/
  | help (verb : Option Verb)
  deriving DecidableEq, Repr

/-- Arguments that ask for nothing the program can do. -/
inductive UsageError where
  | missingCommand
  | unknownOption (argument : Text)
  | repeatedOption (name : Text)
  | missingValue (name : Text)
  | missingPattern
  | unexpectedWord (word : Text)
  deriving DecidableEq, Repr

/-! ## Tokens -/

/-- An argument by its form. -/
inductive Token where
  /-- A word in front of the mark, which may be the value of an option. -/
  | word (text : Text)
  /-- A word after the mark. -/
  | literal (text : Text)
  /-- An option, with the value written in the same argument. -/
  | option (name : Text) (value : Option Text)
  deriving DecidableEq, Repr

/-- An option split at its first equals sign. -/
def splitValue (argument : Text) : Text × Option Text :=
  match argument.dropWhile (· != '=') with
  | [] => (argument, none)
  | _ :: value => (argument.takeWhile (· != '='), some value)

/-- The letters that are options: help and the version number. -/
def optionLetters : List Char := ['h', 'V']

/-- The forms of a dash, a first letter and what follows it. A letter alone is
an option, known or not. Where an equals sign follows, the letter is one with a
value, which may begin before the sign; such a letter is ASCII. Anything else is
a row of known letters or a word. -/
def Token.ofLetters (letter : Char) (rest : Text) : List Token :=
  if rest.isEmpty then [.option ['-', letter] none]
  else if rest.contains '=' then
    if letter.utf8Size == 1 then
      [.option ['-', letter] (some (if rest.head? == some '=' then rest.tail else rest))]
    else [.word ('-' :: letter :: rest)]
  else if (letter :: rest).all optionLetters.contains then
    (letter :: rest).map fun known => .option ['-', known] none
  else [.word ('-' :: letter :: rest)]

/-- The forms of one argument in front of the mark. -/
def Token.ofArgument : Text → List Token
  | '-' :: '-' :: rest =>
    [.option (splitValue ('-' :: '-' :: rest)).1 (splitValue ('-' :: '-' :: rest)).2]
  | '-' :: letter :: rest => Token.ofLetters letter rest
  | argument => [.word argument]

/-- The forms of some arguments. The first mark is dropped. -/
def Token.ofArguments : List Text → List Token
  | [] => []
  | argument :: rest =>
    if argument == ['-', '-'] then rest.map .literal
    else Token.ofArgument argument ++ Token.ofArguments rest

/-- Whether an option of one of some names is among some tokens. -/
def Token.asksFor (names : List Text) (tokens : List Token) : Bool :=
  tokens.any fun
    | .option name _ => names.contains name
    | _ => false

/-- The names of the option that asks for help. -/
def helpNames : List Text := ["--help".toList, "-h".toList]

/-- The names of the option that asks for the version number. -/
def versionNames : List Text := ["--version".toList, "-V".toList]

/-! ## Commands -/

/-- The words among some tokens, for a command that knows no options. -/
def wordsOnly : List Token → Except UsageError (List Text)
  | [] => .ok []
  | .word text :: rest => return text :: (← wordsOnly rest)
  | .literal text :: rest => return text :: (← wordsOnly rest)
  | .option name _ :: _ => .error (.unknownOption name)

/-- What has been read of the arguments of an expansion. -/
structure GlobDraft where
  words : List Text
  root : Option Text
  full : Bool
  keepGoing : Bool

/-- Read the arguments of an expansion, adding to what has been read. -/
def readGlob (draft : GlobDraft) : List Token → Except UsageError GlobDraft
  | [] => .ok draft
  | .word text :: rest => readGlob { draft with words := draft.words ++ [text] } rest
  | .literal text :: rest => readGlob { draft with words := draft.words ++ [text] } rest
  | .option name value :: rest =>
    if name == "--root".toList then
      if draft.root.isSome then .error (.repeatedOption name)
      else
        match value, rest with
        | some dir, rest => readGlob { draft with root := some dir } rest
        | none, .word dir :: rest => readGlob { draft with root := some dir } rest
        | none, _ => .error (.missingValue name)
    else if value.isSome then .error (.unknownOption name)
    else if name == "--full".toList then
      if draft.full then .error (.repeatedOption name)
      else readGlob { draft with full := true } rest
    else if name == "--keep-going".toList then
      if draft.keepGoing then .error (.repeatedOption name)
      else readGlob { draft with keepGoing := true } rest
    else .error (.unknownOption name)

/-- The only word there is. -/
def onlyWord : List Text → Except UsageError Text
  | [] => .error .missingPattern
  | [word] => .ok word
  | _ :: word :: _ => .error (.unexpectedWord word)

/-- All commands. -/
def Verb.all : List Verb := [.filter, .glob, .segments, .version]

/-- The name of a command. -/
def Verb.name : Verb → String
  | .filter => "match"
  | .glob => "glob"
  | .segments => "segments"
  | .version => "version"

/-- The command of a name. -/
def Verb.ofName? (name : Text) : Option Verb :=
  Verb.all.find? fun verb => verb.name.toList == name

/-- The command that some tokens begin with, and the tokens after its name. -/
def Verb.ofTokens? : List Token → Option (Verb × List Token)
  | .word name :: rest => (Verb.ofName? name).map fun verb => (verb, rest)
  | _ => none

/-- A command with its arguments. -/
def Verb.read (tokens : List Token) : Verb → Except UsageError Command
  | .filter => do
    match ← wordsOnly tokens with
    | [] => throw .missingPattern
    | pattern :: names => return .filter pattern names
  | .glob => do
    let draft ← readGlob ⟨[], none, false, false⟩ tokens
    let pattern ← onlyWord draft.words
    return .glob ⟨pattern, draft.root.getD [], draft.full, draft.keepGoing⟩
  | .segments => do
    return .segments (← onlyWord (← wordsOnly tokens))
  | .version => do
    match ← wordsOnly tokens with
    | [] => return .version
    | word :: _ => throw (.unexpectedWord word)

/-- What some arguments ask for. Without any, and wherever help is asked for,
the answer is the usage of the command, if there is one, or of the program. The
version number is the answer where there is no command. -/
def Command.read (arguments : List Text) : Except UsageError Command :=
  let tokens := Token.ofArguments arguments
  let named := Verb.ofTokens? tokens
  if tokens.isEmpty || Token.asksFor helpNames tokens then .ok (.help (named.map Prod.fst))
  else
    match named with
    | some (verb, rest) => verb.read rest
    | none =>
      if Token.asksFor versionNames tokens then .ok .versionNumber
      else .error .missingCommand

end Console

end PathGlob
