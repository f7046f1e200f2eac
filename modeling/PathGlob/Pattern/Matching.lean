/-
Matching a name against a pattern without looking at any tree.

A pattern of one segment is one comparison. With more, the head is held against
the start of the name, and from there each literal is searched for by sliding a
window of its number of components to the right. The first window that fits is
taken and never given back: what an earlier window leaves over, a wildcard can
still pass by. A last wildcard then looks at what is left of the name and asks
only whether it begins and ends as the wildcard's own separators say; a last
literal asks that nothing is left.

Names are cut at byte positions here, and every cut is one that can fail
(`Text.slice`). All of them lie on separators except one. When the last
wildcard finds the cursor at the end of the name it steps back one byte, so
that it sees the closing separator instead of nothing. If the name ends in a
character of several bytes that step lands inside it, and the match has no
answer. `MatchFault` keeps this apart from a text that is no mask, which can
still turn up here: a literal that drops its closing separator to match the end
of a name is read again, and an escaped separator leaves its backslash behind.
-/
import PathGlob.Mask.Matching
import PathGlob.Pattern.Segment
import PathGlob.Window

set_option autoImplicit false

namespace PathGlob

/-- Why a match has no answer. -/
inductive MatchFault where
  /-- A text that is no mask. -/
  | malformed (e : MalformedMask)
  /-- A cut of a text at a position where it cannot be cut. -/
  | badCut
  deriving DecidableEq, Repr

/-- A pattern that has been read once and is matched many times. -/
structure Pattern where
  text : Text
  segments : List Segment
  deriving DecidableEq, Repr

/-- Read a pattern. -/
def Pattern.read (text : Text) : Except MalformedMask Pattern :=
  (Segment.read text).map fun segments => ⟨text, segments⟩

namespace Segment

/-! ## The rule at the ends of a wildcard -/

/-- What a wildcard allows to be left over. Without separators of its own it
allows anything. Otherwise something has to be left, beginning with a separator
if the wildcard does (`opened`), and ending with one if it does (`closed`). -/
def allowsRest (opened closed : Bool) (rest : Text) : Bool :=
  !opened && !closed ||
    !rest.isEmpty && (!opened || Text.opened rest) && (!closed || Text.closed rest)

/-! ## Cuts that can fail -/

/-- The part of a name between two byte positions. -/
def cutOut (name : Text) (lo hi : Nat) : Except MatchFault Text :=
  match Text.slice name lo hi with
  | some part => .ok part
  | none => .error .badCut

/-- The position one byte back. -/
def stepBack : Nat → Except MatchFault Nat
  | 0 => .error .badCut
  | pos + 1 => .ok pos

/-- The text without its last byte. -/
def dropLastByte (text : Text) : Except MatchFault Text := do
  let stop ← stepBack (Text.byteSize text)
  cutOut text 0 stop

/-! ## Windows against literals -/

/-- Only a wildcard that closes with no separator is left. -/
def endsOpen : List Segment → Bool
  | [.wild text] => !Text.closed text
  | _ => false

/-- The text to hold against a window. When the window runs to the end of the
name and only an open wildcard is left, the separator that closes the literal
is not asked of the name. -/
def windowText (text : Text) (rest : List Segment) : Closing → Except MatchFault Text
  | .separator => .ok text
  | .finish => if endsOpen rest then dropLastByte text else .ok text

/-- Whether the literal fits the name between the ends of a window. -/
def fitsWindow (name text : Text) (rest : List Segment) (w : Window) :
    Except MatchFault Bool := do
  let mask ← windowText text rest w.closing
  let part ← cutOut name w.lo w.hi
  (Mask.fits mask part).mapError .malformed

/-- The end of the first window that the literal fits. -/
def searchWindows (name text : Text) (rest : List Segment) :
    List Window → Except MatchFault (Option Nat)
  | [] => .ok none
  | w :: ws => do
    if ← fitsWindow name text rest w then return some w.hi
    searchWindows name text rest ws

/-! ## A whole name -/

/-- The last wildcard against what is left of the name from a byte on. At the
end of the name it looks one byte back. -/
def matchTail (name wildcard : Text) (cursor : Nat) : Except MatchFault Bool := do
  let size := Text.byteSize name
  let cursor ← if cursor ≥ size then stepBack cursor else pure cursor
  let rest ← cutOut name cursor size
  return allowsRest (Text.opened wildcard) (Text.closed wildcard) rest

/-- Match the segments from a wildcard on, with the cursor at a byte of the
name. Two segments are used at a time, a wildcard and the literal to search
for. -/
def matchFrom (name : Text) (cursor : Nat) : List Segment → Except MatchFault Bool
  | [.wild wildcard] => matchTail name wildcard cursor
  | .wild _ :: .literal text width :: rest => do
    match ← searchWindows name text rest (Window.all name cursor width) with
    | none => return false
    | some cursor =>
      if rest.isEmpty then return decide (cursor ≥ Text.byteSize name)
      else matchFrom name cursor rest
  | _ => .ok false

/-- Match two or more segments. A literal head has to agree with the name on
whether there is a separator in front, and takes as many components as it
spans; a wildcard head only asks for the separator if it has one. -/
def matchMany (name : Text) : List Segment → Except MatchFault Bool
  | .wild text :: rest =>
    if Text.opened text && !Text.opened name then .ok false
    else matchFrom name (if Text.opened name then 1 else 0) (.wild text :: rest)
  | .literal text width :: rest =>
    if Text.opened text != Text.opened name then .ok false
    else
      match Window.first (Text.byteMarks name) 0 width with
      | none => .ok false
      | some w => do
        if ← fitsWindow name text rest w then matchFrom name w.hi rest else return false
  | [] => .ok false

end Segment

/-- Whether the pattern matches the whole name. -/
def Pattern.accepts (pattern : Pattern) (name : Text) : Except MatchFault Bool :=
  match pattern.segments with
  | [] => (Mask.fits [] name).mapError .malformed
  | [.literal text _] => (Mask.fits text name).mapError .malformed
  | [.wild text] => .ok (Segment.allowsRest (Text.opened text) (Text.closed text) name)
  | segments => if name.isEmpty then .ok false else Segment.matchMany name segments

/-- Read a pattern and match one name. -/
def Pattern.test (pattern name : Text) : Except MatchFault Bool := do
  let pattern ← (Pattern.read pattern).mapError .malformed
  pattern.accepts name

end PathGlob
