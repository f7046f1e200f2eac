/-
Text as this library handles it: a list of characters, cut into components at
`/`, with positions counted in UTF-8 bytes.

Two views of one text are needed and both are here. Patterns and names are
read character by character, so the carrier is a list of characters and every
function on it is a list recursion. Positions handed out by the window scanner
are byte positions, so a text also has a size in bytes, a byte layout
(`byteMarks`, one entry per byte that says whether the byte is a separator) and
a part between two byte positions (`slice`). There the two views can disagree:
a position inside a character, or past the end, is no place to cut. A slice is
therefore an `Option`, and everything that cuts at positions goes through it.
-/

set_option autoImplicit false

namespace PathGlob

/-- A pattern, a name or a path, as its characters. -/
abbrev Text := List Char

namespace Text

/-! ## Order -/

/-- The order by code points, in which listings are given. -/
def notAfter (a b : Text) : Bool := !decide (b < a)

/-! ## Components -/

/-- The text begins with a separator. -/
def opened (t : Text) : Bool := t.head? == some '/'

/-- The text ends with a separator. -/
def closed (t : Text) : Bool := t.getLast? == some '/'

/-- The pieces between separators. Empty pieces are kept, so that joining them
gives the text back; the empty text is one empty piece. -/
def components (t : Text) : List Text := t.splitOn '/'

/-- The inverse of `components` on lists of pieces without separators. -/
def join (pieces : List Text) : Text := ['/'].intercalate pieces

/-- No piece is lost by splitting. -/
theorem join_components (t : Text) : join (components t) = t :=
  List.intercalate_splitOn '/'

/-- Everything before the last separator; nothing when there is none. -/
def parent (t : Text) : Text := join (components t).dropLast

/-- One separator fewer at the front, if there is one. -/
def dropOpening : Text → Text
  | '/' :: rest => rest
  | t => t

/-- One separator fewer at the end, if there is one. -/
def dropClosing (t : Text) : Text := if closed t then t.dropLast else t

/-- The text without the separators that bound it: one at the front, and one
at the end unless nothing else is left. -/
def trimmed (t : Text) : Text :=
  let body := dropOpening t
  if body.length > 1 then dropClosing body else body

/-! ## Bytes -/

/-- The size of the text in UTF-8 bytes. -/
def byteSize : Text → Nat
  | [] => 0
  | c :: rest => c.utf8Size + byteSize rest

/-- For every byte, whether it is a separator. The separator takes one byte and
no other character contains that byte, so a character of `n` bytes is `n`
equal marks. -/
def byteMarks (t : Text) : List Bool :=
  t.flatMap fun c => List.replicate c.utf8Size (c == '/')

theorem length_byteMarks (t : Text) : (byteMarks t).length = byteSize t := by
  induction t with
  | nil => rfl
  | cons c rest ih =>
    rw [byteMarks] at ih ⊢
    rw [List.flatMap_cons, List.length_append, List.length_replicate, ih, byteSize]

/-- The text from a byte position on, when it lies between two characters. -/
def dropBytes : Text → Nat → Option Text
  | t, 0 => some t
  | [], _ + 1 => none
  | c :: rest, n + 1 =>
    if c.utf8Size ≤ n + 1 then dropBytes rest (n + 1 - c.utf8Size) else none

/-- The character that begins at a byte position. -/
def charAt (t : Text) (pos : Nat) : Option Char := (dropBytes t pos).bind List.head?

/-- The text up to a byte position, when it lies between two characters. -/
def takeBytes : Text → Nat → Option Text
  | _, 0 => some []
  | [], _ + 1 => none
  | c :: rest, n + 1 =>
    if c.utf8Size ≤ n + 1 then (takeBytes rest (n + 1 - c.utf8Size)).map (c :: ·) else none

/-- The text between two byte positions. There is none when the positions are
in the wrong order, when one lies past the end, or when one lies inside a
character. -/
def slice (t : Text) (lo hi : Nat) : Option Text :=
  if lo ≤ hi then (dropBytes t lo).bind (takeBytes · (hi - lo)) else none

/-- The bytes of a text in UTF-8. -/
def utf8 (t : Text) : List UInt8 := t.flatMap String.utf8EncodeChar

/-- Whether the byte at a position is this character, one of those that take up a single
byte. No other character has such a byte in it, so this can be asked of any position. -/
def hasByte (t : Text) (pos : Nat) (c : Char) : Bool := (utf8 t)[pos]? == some c.toUInt8

theorem byteSize_append (a b : Text) : byteSize (a ++ b) = byteSize a + byteSize b := by
  induction a with
  | nil => exact (Nat.zero_add _).symm
  | cons c a ih =>
    rw [List.cons_append, byteSize, byteSize, ih]
    omega

/-- The size of a text that begins with `c`, as a successor. -/
theorem byteSize_cons (c : Char) (t : Text) :
    byteSize (c :: t) = c.utf8Size - 1 + byteSize t + 1 := by
  have hpos := c.utf8Size_pos
  rw [byteSize]
  omega

/-- A text with something in it takes up bytes. -/
theorem byteSize_pos {t : Text} (ht : t ≠ []) : 0 < byteSize t := by
  obtain ⟨c, rest, rfl⟩ := List.exists_cons_of_ne_nil ht
  rw [byteSize_cons]
  omega

/-- Dropping the bytes of a first part leaves the second. -/
theorem dropBytes_append (a b : Text) : dropBytes (a ++ b) (byteSize a) = some b := by
  induction a with
  | nil => cases b <;> rfl
  | cons c a ih =>
    have hpos := c.utf8Size_pos
    rw [byteSize_cons, List.cons_append, dropBytes, if_pos (by omega)]
    rw [show c.utf8Size - 1 + byteSize a + 1 - c.utf8Size = byteSize a by omega]
    exact ih

/-- Taking the bytes of a first part gives it. -/
theorem takeBytes_append (a b : Text) : takeBytes (a ++ b) (byteSize a) = some a := by
  induction a with
  | nil => cases b <;> rfl
  | cons c a ih =>
    have hpos := c.utf8Size_pos
    rw [byteSize_cons, List.cons_append, takeBytes, if_pos (by omega)]
    rw [show c.utf8Size - 1 + byteSize a + 1 - c.utf8Size = byteSize a by omega, ih]
    rfl

/-- Between characters nothing goes wrong: the slice of a middle part is that
part. -/
theorem slice_append (a b c : Text) :
    slice (a ++ b ++ c) (byteSize a) (byteSize (a ++ b)) = some b := by
  rw [slice, if_pos (by rw [byteSize_append]; omega), List.append_assoc, dropBytes_append,
    byteSize_append, Nat.add_sub_cancel_left]
  exact takeBytes_append b c

end Text

end PathGlob
