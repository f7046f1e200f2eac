/-
Checking a mask byte by byte.

A mask can be checked without keeping what is read. The checker goes through the bytes of
the text with a position and knows only where the next thing to look at begins. It steps
over two bytes for an escape, wherever the escaped character ends, over a whole class, and
over one byte for anything else. So it can stand inside a character, and goes on from there
byte by byte.

Inside a class it steps over whole characters, since an endpoint is one. As in `endpoint`,
a class must go on behind each of its endpoints.
-/
import PathGlob.Mask.Grammar

set_option autoImplicit false

namespace PathGlob

open Text (byteSize charAt hasByte)

namespace Mask

/-! ## Over a class -/

/-- The position behind the character at a position in a class, or behind one byte where
no character begins. The class must go on there. -/
def characterEnd (t : Text) (pos : Nat) : Except MaskFault Nat :=
  let stop := pos + (charAt t pos).elim 1 Char.utf8Size
  if byteSize t ≤ stop then .error .unclosedClass else .ok stop

/-- The position behind a class endpoint. -/
def endpointEnd (t : Text) (pos : Nat) : Except MaskFault Nat :=
  if byteSize t ≤ pos then .error .unclosedClass
  else if hasByte t pos '-' || hasByte t pos ']' then .error .invalidClass
  else if hasByte t pos '\\' then
    if byteSize t ≤ pos + 1 then .error .danglingEscape else characterEnd t (pos + 1)
  else characterEnd t pos

/-- The position behind a range. -/
def rangeEnd (t : Text) (pos : Nat) : Except MaskFault Nat :=
  match endpointEnd t pos with
  | .error e => .error e
  | .ok stop => if hasByte t stop '-' then endpointEnd t (stop + 1) else .ok stop

theorem lt_of_characterEnd {t : Text} {pos stop : Nat} (h : characterEnd t pos = .ok stop) :
    pos < stop := by
  have hsize : 0 < (charAt t pos).elim 1 Char.utf8Size := by
    cases charAt t pos with
    | none => exact Nat.one_pos
    | some c => exact c.utf8Size_pos
  rw [characterEnd] at h
  split at h
  · cases h
  · cases h
    omega

theorem lt_of_endpointEnd {t : Text} {pos stop : Nat} (h : endpointEnd t pos = .ok stop) :
    pos < stop := by
  unfold endpointEnd at h
  split at h
  · cases h
  · split at h
    · cases h
    · split at h
      · split at h
        · cases h
        · have hlt := lt_of_characterEnd h
          omega
      · exact lt_of_characterEnd h

theorem lt_of_rangeEnd {t : Text} {pos stop : Nat} (h : rangeEnd t pos = .ok stop) :
    pos < stop := by
  unfold rangeEnd at h
  split at h
  · cases h
  · rename_i mid hmid
    have hlt := lt_of_endpointEnd hmid
    split at h
    · have hlt' := lt_of_endpointEnd h
      omega
    · cases h
      exact hlt

/-- The position behind the bracket that closes a class, from the start of a range or from
the bracket. Only the first range cannot be missing. -/
def rangesEnd (t : Text) (pos : Nat) (first : Bool) : Except MaskFault Nat :=
  if byteSize t ≤ pos then .error .unclosedClass
  else if hasByte t pos ']' && !first then .ok (pos + 1)
  else
    match _h : rangeEnd t pos with
    | .error e => .error e
    | .ok stop => rangesEnd t stop false
termination_by byteSize t - pos
decreasing_by
  have := lt_of_rangeEnd ‹_›
  omega

theorem lt_of_rangesEnd {t : Text} {pos stop : Nat} {first : Bool}
    (h : rangesEnd t pos first = .ok stop) : pos < stop := by
  fun_induction rangesEnd t pos first with
  | case1 => cases h
  | case2 =>
    cases h
    omega
  | case3 => cases h
  | case4 _ _ _ _ _ hmid ih =>
    have hlt := lt_of_rangeEnd hmid
    have hlt' := ih h
    omega

/-- The position behind a class, from the one behind its opening bracket. -/
def classEnd (t : Text) (pos : Nat) : Except MaskFault Nat :=
  rangesEnd t (if hasByte t pos '^' then pos + 1 else pos) true

theorem lt_of_classEnd {t : Text} {pos stop : Nat} (h : classEnd t pos = .ok stop) :
    pos < stop := by
  have hlt := lt_of_rangesEnd h
  split at hlt
  · omega
  · exact hlt

/-! ## Over a mask -/

/-- Whether the text is a mask from a position on, and the leftmost fault if it is not. -/
def check (t : Text) (pos : Nat) : Except MaskFault Unit :=
  if byteSize t ≤ pos then .ok ()
  else if hasByte t pos '\\' then
    if byteSize t ≤ pos + 1 then .error .danglingEscape else check t (pos + 2)
  else if hasByte t pos '[' then
    match _h : classEnd t (pos + 1) with
    | .error e => .error e
    | .ok stop => check t stop
  else check t (pos + 1)
termination_by byteSize t - pos
decreasing_by
  · omega
  · have := lt_of_classEnd ‹_›
    omega
  · omega

end Mask

end PathGlob
