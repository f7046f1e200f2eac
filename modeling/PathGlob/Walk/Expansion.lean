/-
Expanding a pattern: the walk that finds everything the pattern matches.

The segments of the pattern are used from left to right. A literal at the start
is followed along its route. A wildcard at the end reports the ends below the
current place, which are the paths with no names inside. A wildcard with a
literal after it is a sweep: every path below is visited once, depth first, and
on the way down the last components of the path are kept as a window as wide as
the literal. Where the literal fits the window, the walk goes on behind it with
the segments that are left; then, match or not, the sweep itself goes on below.
So no match hides another one further down.

With one wildcard there is one way to split a path over the segments. With
several there can be more, and then a match is told the first time only.

Going down is bounded by the depth of the tree, counted again for every sweep
and every search for ends, since each starts anew from its place.
-/
import PathGlob.Lexical.Anchor
import PathGlob.Pattern.Segment
import PathGlob.Walk.Route

set_option autoImplicit false

namespace PathGlob

namespace Expansion

/-- Tell a match, every time or the first time only. -/
def report (once : Bool) (path : Text) : Walk Unit :=
  if once then Walk.tellOnce (.found path) else Walk.tell (.found path)

/-! ## Ends -/

/-- Report every path below a place that has no names inside. The place itself
counts, unless it is the root. -/
def ends (once : Bool) : Nat → Place → Walk Unit
  | 0, _ => .tooDeep
  | depth + 1, place => do
    match ← Walk.list place with
    | none => return ()
    | some [] => if place.isRoot then return () else report once place.path
    | some names => Walk.each (fun name => ends once depth (place.child name)) names

/-! ## Sweeps -/

/-- The window one component on: everything up to and with the first separator
goes, not counting one that opens the window. With no such separator nothing
stays. -/
def slide (window : Text) : Text := ((window.drop 1).dropWhile (· != '/')).drop 1

/-- Visit everything below a place. `window` is the path as far as it is held
against the literal, of which `filled` components are there; `hit` goes on from
a place whose window fits. -/
def sweep (literal : Text) (wanted : Nat) (hit : Place → Walk Unit) :
    Nat → Place → Text → Nat → Walk Unit
  | 0, _, _, _ => .tooDeep
  | depth + 1, place, window, filled => do
    match ← Walk.list place with
    | none => return ()
    | some names =>
      Walk.each (fun name => do
        let child := place.child name
        let window := window ++ child.path.drop place.path.length
        if filled + 1 < wanted then sweep literal wanted hit depth child window (filled + 1)
        else
          if ← Walk.fits literal (Text.trimmed window) then hit child
          sweep literal wanted hit depth child (slide window) filled) names

/-! ## Segments -/

/-- Go on from a place with the segments that are left. -/
def advance (once : Bool) (depth : Nat) : List Segment → Place → Walk Unit
  | [], _ => .done ()
  | [.literal text _], place => do
    let _ ← (Route.ofText text).follow (fun path => do report once path; return []) place
  | .literal text _ :: rest, place => do
    let paths ← (Route.ofText (Text.trimmed text)).follow (fun path => return [path]) place
    Walk.each (fun path => advance once depth rest (place.descend path)) paths
  | [.wild _], place => ends once depth place
  | .wild _ :: .literal text width :: rest, place =>
    let hit (child : Place) : Walk Unit :=
      if rest.isEmpty then report once child.path else advance once depth rest child
    sweep (Text.trimmed text) width hit depth place [] 0
  | .wild _ :: rest, place => advance once depth rest place

/-- Whether a path can be reached in two ways. -/
def repeats (segments : List Segment) : Bool := segments.countP (·.isWild) > 1

/-- Where the first segment starts from. A separator in front of the pattern is
in front of every path found. -/
def start (root : Text) (segments : List Segment) : Place :=
  ⟨root, if segments.head?.any (Text.opened ·.text) then ['/'] else []⟩

end Expansion

/-- The walk that finds what a pattern matches below a root, in a tree of some
depth. The listener hears the root first, also when the pattern turns out to be
malformed. -/
def Walk.glob (depth : Nat) (pattern root : Text) : Walk Unit := do
  let anchored := Anchored.of pattern root
  Walk.tell (.root anchored.root)
  match Segment.read anchored.pattern with
  | .error e => .malformed e
  | .ok segments =>
    Expansion.advance (Expansion.repeats segments) depth segments
      (Expansion.start anchored.root segments)

end PathGlob
