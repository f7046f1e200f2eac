/-
The grammar of a mask: what a pattern without `**` is made of.

A mask is a sequence of items. `*` and `?` are the two wildcards, `[...]` is a
class of characters given by ranges, a backslash makes the character after it
an ordinary one, and every other character stands for itself. Outside a class
`]`, `-` and `^` are ordinary.

Reading is one pass from left to right, and the first fault met is the one
reported. That fixes which of two faults wins without a rule of its own: the
reader stops at the leftmost. Three faults exist, one for each way in which a
text can end or continue wrongly, and each of them is raised at a single place
below (`endpoint` has all three, because a class endpoint can be cut short, be
a bare `-` or `]`, or be a backslash with nothing after it).

A class must be closed after an endpoint, so an endpoint at the very end of the
text is already a fault. That is why `endpoint` looks one character ahead, and
why `ranges` never meets an exhausted text except at its start.
-/
import PathGlob.Text

set_option autoImplicit false

namespace PathGlob

/-! ## Faults -/

/-- The ways in which a text fails to be a mask. -/
inductive MaskFault where
  /-- A class with no closing bracket. -/
  | unclosedClass
  /-- An empty class, or a bare `-` or `]` where a class endpoint is due. -/
  | invalidClass
  /-- A backslash at the very end. -/
  | danglingEscape
  deriving DecidableEq, Repr

/-- The wording of a fault. -/
def MaskFault.message : MaskFault → String
  | .unclosedClass => "unclosed character class"
  | .invalidClass => "invalid character class"
  | .danglingEscape => "dangling escape '\\' at end of pattern"

/-- A fault together with the text it was found in, which is the part of a
pattern being read and not always the pattern as written. -/
structure MalformedMask where
  text : Text
  fault : MaskFault
  deriving DecidableEq, Repr

/-- The wording names the text in quotes and then the fault. -/
def MalformedMask.message (e : MalformedMask) : String :=
  "malformed pattern '" ++ String.ofList e.text ++ "': " ++ e.fault.message

/-! ## Items -/

/-- The characters from `lo` to `hi`, both included, by code point. A range
whose ends are in the wrong order has no members and is no fault. -/
structure CharRange where
  lo : Char
  hi : Char
  deriving DecidableEq, Repr

/-- Membership in a range. -/
def CharRange.contains (r : CharRange) (c : Char) : Bool := r.lo ≤ c && c ≤ r.hi

/-- One step of a mask. -/
inductive MaskItem where
  /-- Any run of characters other than the separator. -/
  | star
  /-- One character other than the separator. -/
  | any
  /-- This character. -/
  | char (c : Char)
  /-- One character inside some range, or outside all of them. -/
  | oneOf (negated : Bool) (ranges : List CharRange)
  deriving DecidableEq, Repr

/-- The items of a mask in order. -/
abbrev Mask := List MaskItem

/-- Whether an item takes this one character. The star takes none here: it is
the matcher that lets it grow. A class is not barred from the separator. -/
def MaskItem.takes : MaskItem → Char → Bool
  | .star, _ => false
  | .any, c => c != '/'
  | .char d, c => c == d
  | .oneOf negated ranges, c => ranges.any (·.contains c) != negated

namespace Mask

/-! ## Reading a class -/

/-- An endpoint has been read; the class must go on after it. -/
def continued (c : Char) : Text → Except MaskFault (Char × Text)
  | [] => .error .unclosedClass
  | rest => .ok (c, rest)

/-- One class endpoint, resolving an escape. -/
def endpoint : Text → Except MaskFault (Char × Text)
  | [] => .error .unclosedClass
  | '-' :: _ => .error .invalidClass
  | ']' :: _ => .error .invalidClass
  | ['\\'] => .error .danglingEscape
  | '\\' :: c :: rest => continued c rest
  | c :: rest => continued c rest

/-- One range: an endpoint, and a second one after a `-`. -/
def range (t : Text) : Except MaskFault (CharRange × Text) := do
  let (lo, rest) ← endpoint t
  match rest with
  | '-' :: rest =>
    let (hi, rest) ← endpoint rest
    return (⟨lo, hi⟩, rest)
  | rest => return (⟨lo, lo⟩, rest)

theorem length_of_continued {c d : Char} {t rest : Text}
    (h : continued c t = .ok (d, rest)) : rest.length = t.length := by
  cases t with
  | nil => simp [continued] at h
  | cons x xs => simp only [continued, Except.ok.injEq, Prod.mk.injEq] at h; rw [h.2]

theorem length_of_endpoint {t rest : Text} {c : Char}
    (h : endpoint t = .ok (c, rest)) : rest.length < t.length := by
  unfold endpoint at h
  split at h
  · simp at h
  · simp at h
  · simp at h
  · simp at h
  · rw [length_of_continued h]
    simp only [List.length_cons]
    omega
  · rw [length_of_continued h]
    simp

theorem length_of_range {t rest : Text} {r : CharRange}
    (h : range t = .ok (r, rest)) : rest.length < t.length := by
  unfold range at h
  cases he : endpoint t with
  | error e => rw [he] at h; simp [bind, Except.bind] at h
  | ok found =>
    obtain ⟨lo, rest'⟩ := found
    have hlo := length_of_endpoint he
    rw [he] at h
    simp only [bind, Except.bind] at h
    split at h
    · rename_i tail
      cases hh : endpoint tail with
      | error e => rw [hh] at h; simp at h
      | ok found' =>
        obtain ⟨hi, rest''⟩ := found'
        have := length_of_endpoint hh
        rw [hh] at h
        simp only [pure, Except.pure, Except.ok.injEq, Prod.mk.injEq] at h
        rw [← h.2]
        simp only [List.length_cons] at hlo
        omega
    · simp only [pure, Except.pure, Except.ok.injEq, Prod.mk.injEq] at h
      rw [← h.2]
      exact hlo

/-- One or more ranges and the closing bracket. The bracket closes the class
only after a range, so `[]` is an endpoint fault and not an empty class. -/
def ranges (t : Text) : Except MaskFault (List CharRange × Text) :=
  match _h : range t with
  | .error e => .error e
  | .ok (r, ']' :: rest) => .ok ([r], rest)
  | .ok (r, rest) =>
    match ranges rest with
    | .error e => .error e
    | .ok (rs, rest) => .ok (r :: rs, rest)
termination_by t.length
decreasing_by exact length_of_range ‹_›

theorem length_of_ranges {t rest : Text} {rs : List CharRange}
    (h : ranges t = .ok (rs, rest)) : rest.length < t.length := by
  fun_induction ranges t generalizing rs rest with
  | case1 => simp at h
  | case2 t r rest' hr =>
    have := length_of_range hr
    simp only [Except.ok.injEq, Prod.mk.injEq] at h
    rw [← h.2]
    simp only [List.length_cons] at this
    omega
  | case3 => simp at h
  | case4 t r rest' _ hr rs' rest'' hrs ih =>
    have := length_of_range hr
    have := ih hrs
    simp only [Except.ok.injEq, Prod.mk.injEq] at h
    rw [← h.2]
    omega

/-- The text after `[` is negated by a `^` in front, and by nothing else. -/
def negation : Text → Bool × Text
  | '^' :: rest => (true, rest)
  | t => (false, t)

theorem length_negation (t : Text) : (negation t).2.length ≤ t.length := by
  unfold negation
  split <;> simp

/-! ## Reading a mask -/

/-- The items of a text, or the leftmost fault in it. -/
def parse : Text → Except MaskFault Mask
  | [] => .ok []
  | ['\\'] => .error .danglingEscape
  | '\\' :: c :: rest => (parse rest).map (.char c :: ·)
  | '*' :: rest => (parse rest).map (.star :: ·)
  | '?' :: rest => (parse rest).map (.any :: ·)
  | '[' :: body =>
    match _h : ranges (negation body).2 with
    | .error e => .error e
    | .ok (rs, rest) => (parse rest).map (.oneOf (negation body).1 rs :: ·)
  | c :: rest => (parse rest).map (.char c :: ·)
termination_by t => t.length
decreasing_by
  · simp only [List.length_cons]
    omega
  · simp
  · simp
  · have := length_of_ranges ‹_›
    have := length_negation body
    simp only [List.length_cons]
    omega
  · simp

/-- Whether a text holds none of the characters that make it more than a plain
name. An escaped one counts as well. -/
def isPlain (t : Text) : Bool := t.all fun c => c != '*' && c != '?' && c != '['

end Mask

end PathGlob
