/-
Matching a name by positions.

A mask can be matched without being read first. This matcher keeps a position in the bytes
of the pattern and one in the bytes of the name. It reads an item when it comes to it, as
often as it comes to it, and what it keeps for its return to the last star is the two
positions it had behind the star.

It is meant for patterns that were checked, and nothing is checked on the way. A pattern
that ends in the middle of an item is read all the same. Where a character is missing, a
backslash is read in its place, and a class that is not closed takes nothing. From a
position inside a character a class would be read without end. The readings say which of
this happened, so that it can be said of the matcher that it never does.
-/
import PathGlob.Mask.Matching

set_option autoImplicit false

namespace PathGlob

open Text (byteSize charAt hasByte)

namespace Mask

/-! ## Reading an item where it stands -/

/-- What was read at a position. -/
structure Reading (α : Type) where
  value : α
  /-- The position behind it. -/
  stop : Nat
  /-- A character was missing, and a backslash was read for it. -/
  missing : Bool
  deriving DecidableEq, Repr

/-- One character, resolving an escape. -/
def readChar (t : Text) (pos : Nat) : Reading Char :=
  let start := if hasByte t pos '\\' then pos + 1 else pos
  match charAt t start with
  | some c => ⟨c, start + c.utf8Size, false⟩
  | none => ⟨'\\', start, true⟩

/-- One range of a class, which has a second endpoint if a `-` follows the first. -/
def readRange (t : Text) (pos : Nat) : Reading CharRange :=
  let lo := readChar t pos
  if hasByte t lo.stop '-' then
    let hi := readChar t (lo.stop + 1)
    ⟨⟨lo.value, hi.value⟩, hi.stop, lo.missing || hi.missing⟩
  else ⟨⟨lo.value, lo.value⟩, lo.stop, lo.missing⟩

/-- What comes of reading a class. -/
inductive ClassReading where
  /-- All its ranges, up to and with the closing bracket. -/
  | closed (ranges : Reading (List CharRange))
  /-- The text ended in the class. -/
  | exhausted
  /-- A range was read that takes up nothing, and would be read again for ever. -/
  | endless
  deriving DecidableEq, Repr

/-- The ranges of a class from a position on. A bracket closes the class, unless no range
was read yet. -/
def readRanges (t : Text) (pos : Nat) (first : Bool) : ClassReading :=
  if byteSize t ≤ pos then .exhausted
  else if hasByte t pos ']' && !first then .closed ⟨[], pos + 1, false⟩
  else if (readRange t pos).stop ≤ pos then .endless
  else
    match readRanges t (readRange t pos).stop false with
    | .closed more =>
      .closed ⟨(readRange t pos).value :: more.value, more.stop,
        (readRange t pos).missing || more.missing⟩
    | stuck => stuck
termination_by byteSize t - pos

/-- What comes of reading an item. -/
inductive ItemReading where
  /-- No character begins at the position. -/
  | finished
  | item (reading : Reading MaskItem)
  | exhausted
  | endless
  deriving DecidableEq, Repr

/-- The item at a position. -/
def readItem (t : Text) (pos : Nat) : ItemReading :=
  match charAt t pos with
  | none => .finished
  | some '*' => .item ⟨.star, pos + 1, false⟩
  | some '?' => .item ⟨.any, pos + 1, false⟩
  | some '[' =>
    let negated := hasByte t (pos + 1) '^'
    match readRanges t (if negated then pos + 2 else pos + 1) true with
    | .closed ranges => .item ⟨.oneOf negated ranges.value, ranges.stop, ranges.missing⟩
    | .exhausted => .exhausted
    | .endless => .endless
  | some _ =>
    let c := readChar t pos
    .item ⟨.char c.value, c.stop, c.missing⟩

/-! ## Going through the name -/

/-- A position in the pattern and one in the name. -/
structure Spot where
  pattern : Nat
  name : Nat
  deriving DecidableEq, Repr

/-- Where the matcher is, and the spot behind the last star, with what the star has taken
so far in front of it. -/
structure Cursor where
  spot : Spot
  star : Option Spot
  deriving DecidableEq, Repr

/-- What one turn of the matcher leads to. -/
inductive Turn where
  | done (matched : Bool)
  | next (cursor : Cursor)
  | endless
  deriving DecidableEq, Repr

/-- The last star takes one character more, if it can. -/
def backtrack (name : Text) : Option Spot → Turn
  | none => .done false
  | some star =>
    match charAt name star.name with
    | none => .done false
    | some c =>
      if c == '/' then .done false
      else
        let wider : Spot := ⟨star.pattern, star.name + c.utf8Size⟩
        .next ⟨wider, some wider⟩

/-- One turn. A star is noted and takes nothing; any other item takes a character, or the
matcher goes back to the last star. -/
def turn (pattern name : Text) (m : Cursor) : Turn :=
  if byteSize pattern ≤ m.spot.pattern ∧ byteSize name ≤ m.spot.name then .done true
  else
    match readItem pattern m.spot.pattern with
    | .item ⟨.star, stop, _⟩ => .next ⟨⟨stop, m.spot.name⟩, some ⟨stop, m.spot.name⟩⟩
    | reading =>
      match charAt name m.spot.name with
      | none => backtrack name m.star
      | some c =>
        match reading with
        | .item ⟨item, stop, _⟩ =>
          if item.takes c then .next ⟨⟨stop, m.spot.name + c.utf8Size⟩, m.star⟩
          else backtrack name m.star
        | .endless => .endless
        | _ => backtrack name m.star

/-- The matcher comes to this cursor, from the start of the pattern and the name. -/
inductive Reached (pattern name : Text) : Cursor → Prop
  | start : Reached pattern name ⟨⟨0, 0⟩, none⟩
  | next {m m' : Cursor} :
    Reached pattern name m → turn pattern name m = .next m' → Reached pattern name m'

end Mask

end PathGlob
