/-
The shortest spelling of a path, found without looking at any tree.

A path is read component by component into a growing text. Empty components and
single dots add nothing. A double dot takes the last component back out, as long
as there is one to take: at the root of a rooted path there is nothing above and
the double dot goes, and at the front of a relative path it has to stay.

What has to stay must not be taken back by a later double dot. The state
therefore keeps, beside the text written so far, the length below which nothing
may be removed: the root separator at first, and everything up to the last
double dot that stayed. This is the only state there is. No list of components
is kept; where the last one begins is found again in the text each time.
-/
import PathGlob.Text

set_option autoImplicit false

namespace PathGlob

namespace Lexical

/-- A path being written: the text so far, and how much of it is fixed. -/
structure Draft where
  out : Text
  fixed : Nat
  deriving DecidableEq, Repr

namespace Draft

/-- The start of a path: its root separator, if it has one, is fixed. -/
def start (rooted : Bool) : Draft :=
  if rooted then ⟨['/'], 1⟩ else ⟨[], 0⟩

/-- Whether a component written next needs a separator before it. The root
separator serves as one. -/
def needsSeparator (rooted : Bool) (d : Draft) : Bool :=
  if rooted then d.out.length != 1 else !d.out.isEmpty

/-- Write one more component. -/
def push (rooted : Bool) (d : Draft) (piece : Text) : Draft :=
  ⟨(if needsSeparator rooted d then d.out ++ ['/'] else d.out) ++ piece, d.fixed⟩

/-- Take the last component out of the part that is not fixed, with the
separator before it. -/
def pop (d : Draft) : Draft :=
  ⟨d.out.take d.fixed ++ Text.parent (d.out.drop d.fixed), d.fixed⟩

/-- Write a double dot that has to stay, and fix everything up to its end. -/
def pushUp (d : Draft) : Draft :=
  let out := (if d.out.isEmpty then [] else d.out ++ ['/']) ++ ['.', '.']
  ⟨out, out.length⟩

/-- Take in one component of the path. -/
def step (rooted : Bool) (d : Draft) (piece : Text) : Draft :=
  if piece == [] || piece == ['.'] then d
  else if piece == ['.', '.'] then
    if d.out.length > d.fixed then d.pop
    else if rooted then d
    else d.pushUp
  else d.push rooted piece

end Draft

/-- The cleaned path. One with nothing left of it is the current directory. -/
def clean (path : Text) : Text :=
  let rooted := Text.opened path
  let out := ((Text.components path).foldl (Draft.step rooted) (Draft.start rooted)).out
  if out.isEmpty then ['.'] else out

end Lexical

end PathGlob
