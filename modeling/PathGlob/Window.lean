/-
Windows: runs of a fixed number of components inside a name, found by counting
separators, and slid along one component at a time.

A scan counts the components it crosses by the separators that close them. The
byte it starts on opens the window and closes nothing, so a window may begin on
the separator in front of its first component. The last component of a name
need not be closed: running into the limit closes it as well, and the scan says
which of the two it was, because a pattern that ends in a closing separator
must not be held against a name that simply stops there.

Sliding moves both ends on by one component, each by a scan of its own up to the
end of the name.
The far end moves by at least one byte each time, which is why the list of
windows is finite and needs no fuel.
-/
import PathGlob.Text

set_option autoImplicit false

namespace PathGlob

/-- What closed the last component of a scan. -/
inductive Closing where
  /-- A separator; the scan stops just after it. -/
  | separator
  /-- The limit of the scan, with no separator before it. -/
  | finish
  deriving DecidableEq, Repr

/-! ## Scanning -/

/-- Cross the components of the bytes ahead. `pos` is the position of the first
of them and `count` the number of components still to be closed, where none and
one mean the same. -/
def crossMarks (pos count : Nat) : List Bool → Option (Nat × Closing)
  | [] => if count ≤ 1 then some (pos, .finish) else none
  | false :: rest => crossMarks (pos + 1) count rest
  | true :: rest =>
    if count ≤ 1 then some (pos + 1, .separator) else crossMarks (pos + 1) (count - 1) rest

/-- Cross `count` components of the bytes from `start` on. Nothing is found when
fewer are there. -/
def cross (start count : Nat) : List Bool → Option (Nat × Closing)
  | [] => none
  | _ :: rest => crossMarks (start + 1) count rest

/-- Cross `count` components of a name from the byte `start`, looking at no
byte from `limit` on. -/
def scan (name : Text) (start limit count : Nat) : Option (Nat × Closing) :=
  cross start count (((Text.byteMarks name).take limit).drop start)

theorem crossMarks_bounds {marks : List Bool} {pos count stop : Nat} {b : Closing}
    (h : crossMarks pos count marks = some (stop, b)) :
    pos ≤ stop ∧ stop ≤ pos + marks.length := by
  induction marks generalizing pos count with
  | nil =>
    simp only [crossMarks] at h
    split at h <;> simp_all
  | cons mark rest ih =>
    cases mark with
    | false =>
      have := ih (show crossMarks (pos + 1) count rest = _ from h)
      simp only [List.length_cons]
      omega
    | true =>
      simp only [crossMarks] at h
      split at h
      · simp only [Option.some.injEq, Prod.mk.injEq] at h
        simp only [List.length_cons]
        omega
      · have := ih h
        simp only [List.length_cons]
        omega

/-- Crossing ends after its start and inside the bytes there are. -/
theorem cross_bounds {marks : List Bool} {start count stop : Nat} {b : Closing}
    (h : cross start count marks = some (stop, b)) :
    start < stop ∧ stop ≤ start + marks.length := by
  cases marks with
  | nil => simp [cross] at h
  | cons mark rest =>
    have := crossMarks_bounds h
    simp only [List.length_cons]
    omega

/-! ## Sliding -/

/-- A run of components of a name, from the byte `lo` up to the byte `hi`. -/
structure Window where
  lo : Nat
  hi : Nat
  closing : Closing
  deriving DecidableEq, Repr

namespace Window

/-- The window of `count` components that begins at a byte. -/
def first (marks : List Bool) (start count : Nat) : Option Window :=
  (cross start count (marks.drop start)).map fun (hi, closing) => ⟨start, hi, closing⟩

/-- The window one component on. There is none when no component is left for
the far end. -/
def next (marks : List Bool) (w : Window) : Option Window :=
  (cross w.hi 1 (marks.drop w.hi)).map fun (hi, closing) =>
    let lo := (cross w.lo 1 (marks.drop w.lo)).elim w.lo (·.1)
    ⟨lo, hi, closing⟩

theorem hi_of_next {marks : List Bool} {w w' : Window} (h : next marks w = some w') :
    w.hi < w'.hi ∧ w'.hi ≤ marks.length := by
  simp only [next, Option.map_eq_some_iff] at h
  obtain ⟨⟨hi, closing⟩, hcross, rfl⟩ := h
  obtain ⟨hlt, hle⟩ := cross_bounds hcross
  refine ⟨hlt, ?_⟩
  rw [List.length_drop] at hle
  change hi ≤ marks.length
  omega

/-- A window and those after it. -/
def slides (marks : List Bool) (w : Window) : List Window :=
  match _h : next marks w with
  | none => [w]
  | some w' => w :: slides marks w'
termination_by marks.length - w.hi
decreasing_by
  have := hi_of_next ‹_›
  omega

/-- The windows of `count` components of a name from a byte on, left to right. -/
def all (name : Text) (start count : Nat) : List Window :=
  let marks := Text.byteMarks name
  (first marks start count).elim [] (slides marks)

end Window

end PathGlob
