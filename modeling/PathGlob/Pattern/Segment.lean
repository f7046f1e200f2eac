/-
Segments: a pattern cut into what is matched component by component and what
may span any number of components.

A component of two or more stars and nothing else is a wildcard; everything
else is literal, also when it holds stars or classes of its own. A segment is a
longest run of one kind, so the two kinds alternate, and the segments written
one after another are the pattern. Each component carries the separator that
closes it, which decides where the separators go: to the component before.

One separator has no component before it: the one that opens a pattern, or the
second of two in a row. It is a piece of its own. Standing in front of a
wildcard, with the start of the pattern or another wildcard before it, it
belongs to the wildcard, which then demands a separator at its front. Anywhere
else it is literal.

The number of components of a literal is the number of its pieces, except that
the piece which only opens the pattern counts for none, and that a literal
which is one bare separator spans none.
-/
import PathGlob.Mask.Grammar

set_option autoImplicit false

namespace PathGlob

/-- A maximal run of one kind in a pattern. -/
inductive Segment where
  /-- Text matched component by component, and how many components it spans. -/
  | literal (text : Text) (width : Nat)
  /-- A wildcard for any number of components, with the separators around it. -/
  | wild (text : Text)
  deriving DecidableEq, Repr

namespace Segment

/-- The part of the pattern the segment covers. -/
def text : Segment → Text
  | .literal text _ => text
  | .wild text => text

/-- Whether the segment spans any number of components. -/
def isWild : Segment → Bool
  | .literal _ _ => false
  | .wild _ => true

/-! ## Pieces -/

/-- Every piece but the last gets the separator that follows it. A last piece
with nothing in it is no piece. -/
def withClosings : List Text → List Text
  | [] => []
  | [last] => if last.isEmpty then [] else [last]
  | piece :: rest => (piece ++ ['/']) :: withClosings rest

/-- The components of a pattern, each with the separator that closes it. -/
def pieces (pattern : Text) : List Text := withClosings (Text.components pattern)

/-- A piece of two or more stars, closed or not. -/
def isStars (piece : Text) : Bool :=
  let body := Text.dropClosing piece
  body.length ≥ 2 && body.all (· == '*')

/-- Which pieces belong to wildcards, from left to right. `before` says that a
wildcard, or the start of the pattern, comes just before: there a bare
separator in front of stars is the front of their wildcard. -/
def markWild (before : Bool) : List Text → List (Bool × Text)
  | [] => []
  | piece :: rest =>
    let mark := isStars piece || before && piece == ['/'] && rest.head?.any isStars
    (mark, piece) :: markWild mark rest

/-- Neighbours of one kind come together. -/
def runs : List (Bool × Text) → List (Bool × List Text)
  | [] => []
  | (mark, piece) :: rest =>
    match runs rest with
    | [] => [(mark, [piece])]
    | (kind, run) :: more =>
      if mark == kind then (kind, piece :: run) :: more
      else (mark, [piece]) :: (kind, run) :: more

/-! ## Segments of a pattern -/

/-- The components a literal run spans. `opening` says that the run begins the
pattern, where a bare separator closes no component. -/
def span (opening : Bool) (run : List Text) : Nat :=
  if run == [['/']] then 0
  else if opening && run.head? == some ['/'] then run.length - 1
  else run.length

/-- The segment made of a run of pieces. -/
def ofRun (opening : Bool) : Bool × List Text → Segment
  | (true, run) => .wild run.flatten
  | (false, run) => .literal run.flatten (span opening run)

/-- The segments of a pattern, whatever its literals hold. -/
def ofPattern (pattern : Text) : List Segment :=
  match runs (markWild true (pieces pattern)) with
  | [] => []
  | run :: rest => ofRun true run :: rest.map (ofRun false)

/-- The first literal that is no mask, with its fault. -/
def check : List Segment → Except MalformedMask Unit
  | [] => .ok ()
  | .wild _ :: rest => check rest
  | .literal text _ :: rest =>
    match Mask.parse text with
    | .ok _ => check rest
    | .error fault => .error ⟨text, fault⟩

/-- The segments of a pattern, if all its literals are masks. -/
def read (pattern : Text) : Except MalformedMask (List Segment) :=
  let segments := ofPattern pattern
  (check segments).map fun _ => segments

end Segment

end PathGlob
