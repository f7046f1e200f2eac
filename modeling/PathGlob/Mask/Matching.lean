/-
Matching a whole name against a mask with one point of return.

The matcher goes through items and characters in step. On a star it notes where
it is, lets the star take nothing and goes on. On a mismatch it returns to the
last star noted, lets that star take one more character, and tries again from
there. Only the last star is ever widened: whatever an earlier star could give
up by taking more, the last one can take as well. The star never takes a
separator, so a mismatch past a separator that the last star would have to
swallow is final.

The run is bounded without fuel. Widening moves the return point towards the
end of the name, and between two widenings items are used up, so the pair of
the farther of the two name rests and the number of items left falls at every
step (`reach`).
-/
import PathGlob.Mask.Grammar

set_option autoImplicit false

namespace PathGlob

namespace Mask

/-- The last star met: the items after it, and the part of the name it has not
taken. -/
abbrev Return := Option (Mask × Text)

/-- How far a run can still go: the length of the longer rest of the name among
the current one and the one to return to. Before the first star there is one
more step, the star itself. -/
def reach (name : Text) : Return → Nat
  | none => name.length + 1
  | some (_, left) => max left.length name.length

/-- The star noted last, after it has taken one more character. Nothing is left
to try when there is no star, no character, or only a separator to take. -/
def widened : Return → Return
  | some (items, c :: left) => if c == '/' then none else some (items, left)
  | _ => none

theorem reach_widened {ret : Return} {items : Mask} {left name : Text}
    (h : widened ret = some (items, left)) :
    reach left (some (items, left)) < reach name ret := by
  unfold widened at h
  split at h
  · split at h
    · simp at h
    · simp only [Option.some.injEq, Prod.mk.injEq] at h
      rw [h.2]
      simp only [reach, List.length_cons]
      omega
  · simp at h

/-- Noting a star where the run stands does not let it go further. -/
theorem reach_restart (items : Mask) (name : Text) (ret : Return) :
    reach name (some (items, name)) ≤ reach name ret := by
  cases ret with
  | none =>
    simp only [reach]
    omega
  | some noted =>
    simp only [reach]
    omega

/-- Nor does taking a character. -/
theorem reach_tail (c : Char) (name : Text) (ret : Return) :
    reach name ret ≤ reach (c :: name) ret := by
  cases ret with
  | none =>
    simp only [reach, List.length_cons]
    omega
  | some noted =>
    simp only [reach, List.length_cons]
    omega

/-- The second number may decide as soon as the first does not grow. -/
theorem lex_of_le {a b m n : Nat} (hab : a ≤ b) (hmn : m < n) :
    Prod.Lex (· < ·) (· < ·) (a, m) (b, n) := by
  rcases Nat.lt_or_eq_of_le hab with hlt | heq
  · exact Prod.Lex.left _ _ hlt
  · rw [heq]
    exact Prod.Lex.right _ hmn

/-- Whether the items take the whole name, or the name as it was at the last
star with that star wider. -/
def run (items : Mask) (name : Text) (ret : Return) : Bool :=
  match items, name with
  | [], [] => true
  | .star :: rest, name => run rest name (some (rest, name))
  | item :: rest, c :: left =>
    if item.takes c then run rest left ret
    else
      match _h : widened ret with
      | none => false
      | some (items, left) => run items left (some (items, left))
  | _, _ =>
    match _h : widened ret with
    | none => false
    | some (items, left) => run items left (some (items, left))
termination_by (reach name ret, items.length)
decreasing_by
  · exact lex_of_le (reach_restart rest name ret) (Nat.lt_succ_self _)
  · exact lex_of_le (reach_tail c left ret) (Nat.lt_succ_self _)
  · exact Prod.Lex.left _ _ (reach_widened ‹_›)
  · exact Prod.Lex.left _ _ (reach_widened ‹_›)

/-- Whether the mask takes the whole name. -/
def accepts (mask : Mask) (name : Text) : Bool := run mask name none

/-- Whether a text, read as a mask, takes the whole name. The text is read to
its end first, so a fault in it is reported for every name. -/
def fits (text name : Text) : Except MalformedMask Bool :=
  match parse text with
  | .ok mask => .ok (accepts mask name)
  | .error fault => .error ⟨text, fault⟩

end Mask

end PathGlob
