/-
Where windows begin and end in a text of any kind.

A scan stops just behind a separator or at the end of the text, wherever it
started. A separator is one byte, and no other character contains it, so a scan
always stops between two characters (`between_cross`). Nor do the ends of a window
cross while it slides: of two scans over one component, the one that starts later
stops later (`cross_mono`). So every window met lies between characters, with its
ends in order, whatever separators the text has and however long its characters
are (`sits_of_mem_all`).
-/
import Mathlib.Data.List.Basic
import PathGlob.Window

set_option autoImplicit false

namespace PathGlob

namespace Text

/-- The byte position lies between two characters of the text, or at one of its
ends. -/
def Between (t : Text) (pos : Nat) : Prop :=
  ∃ before after, t = before ++ after ∧ byteSize before = pos

theorem between_zero (t : Text) : Between t 0 := ⟨[], t, rfl, rfl⟩

theorem between_byteSize (t : Text) : Between t (byteSize t) := ⟨t, [], by simp, rfl⟩

theorem Between.le {t : Text} {pos : Nat} (h : Between t pos) : pos ≤ byteSize t := by
  obtain ⟨before, after, rfl, rfl⟩ := h
  rw [byteSize_append]
  omega

/-- Behind one character more. -/
theorem Between.cons {t : Text} {pos : Nat} (h : Between t pos) (c : Char) :
    Between (c :: t) (c.utf8Size + pos) := by
  obtain ⟨before, after, rfl, rfl⟩ := h
  exact ⟨c :: before, after, rfl, rfl⟩

/-- A byte that is a separator is a whole character. -/
theorem between_of_mark {t : Text} {i : Nat} (h : (byteMarks t)[i]? = some true) :
    Between t (i + 1) := by
  induction t generalizing i with
  | nil => simp [byteMarks] at h
  | cons c t ih =>
    have hmarks : byteMarks (c :: t) = List.replicate c.utf8Size (c == '/') ++ byteMarks t := rfl
    rw [hmarks] at h
    by_cases hi : i < c.utf8Size
    · -- The byte is one of `c`, which is then the separator itself.
      rw [List.getElem?_append_left (by simpa using hi), List.getElem?_replicate, if_pos hi,
        Option.some.injEq, beq_iff_eq] at h
      subst h
      have hsize : Char.utf8Size '/' = 1 := rfl
      obtain rfl : i = 0 := by omega
      exact (between_zero t).cons '/'
    · rw [List.getElem?_append_right (by simpa using hi), List.length_replicate] at h
      have hrest := (ih h).cons c
      have hpos : c.utf8Size + (i - c.utf8Size + 1) = i + 1 := by omega
      rwa [hpos] at hrest

end Text

open Text (Between byteSize byteMarks)

/-! ## Scans -/

/-- A scan stops behind a separator, or where the bytes end. -/
theorem crossMarks_stop {marks : List Bool} {pos count stop : Nat} {b : Closing}
    (h : crossMarks pos count marks = some (stop, b)) :
    stop = pos + marks.length ∨ ∃ i, marks[i]? = some true ∧ stop = pos + i + 1 := by
  induction marks generalizing pos count with
  | nil =>
    unfold crossMarks at h
    split at h
    · left
      simp only [Option.some.injEq, Prod.mk.injEq] at h
      rw [← h.1]
      rfl
    · cases h
  | cons mark rest ih =>
    have hrest : ∀ count', crossMarks (pos + 1) count' rest = some (stop, b) →
        stop = pos + (mark :: rest).length ∨
          ∃ i, (mark :: rest)[i]? = some true ∧ stop = pos + i + 1 := by
      intro count' hcross
      rcases ih hcross with hend | ⟨i, hi, hstop⟩
      · left
        rw [hend, List.length_cons]
        omega
      · right
        refine ⟨i + 1, ?_, by omega⟩
        rwa [List.getElem?_cons_succ]
    cases mark with
    | false => exact hrest count h
    | true =>
      unfold crossMarks at h
      split at h
      · right
        simp only [Option.some.injEq, Prod.mk.injEq] at h
        exact ⟨0, rfl, by omega⟩
      · exact hrest (count - 1) h

/-- **A scan stops between characters.** -/
theorem between_cross {name : Text} {start count stop : Nat} {b : Closing}
    (h : cross start count ((byteMarks name).drop start) = some (stop, b)) : Between name stop := by
  cases hmarks : (byteMarks name).drop start with
  | nil =>
    rw [hmarks] at h
    cases h
  | cons mark rest =>
    have hlen := congrArg List.length hmarks
    rw [List.length_drop, List.length_cons, Text.length_byteMarks] at hlen
    rw [hmarks] at h
    rcases crossMarks_stop h with hend | ⟨i, hi, hstop⟩
    · have hsize : stop = byteSize name := by omega
      rw [hsize]
      exact Text.between_byteSize name
    · have hmark : (byteMarks name)[start + (i + 1)]? = some true := by
        rw [← List.getElem?_drop, hmarks, List.getElem?_cons_succ]
        exact hi
      have hpos : stop = start + (i + 1) + 1 := by omega
      rw [hpos]
      exact Text.between_of_mark hmark

/-- A scan over one component always stops. -/
theorem exists_crossMarks_one (pos : Nat) (marks : List Bool) :
    ∃ stop b, crossMarks pos 1 marks = some (stop, b) := by
  induction marks generalizing pos with
  | nil => exact ⟨pos, .finish, rfl⟩
  | cons mark rest ih =>
    cases mark with
    | false => exact ih (pos + 1)
    | true => exact ⟨pos + 1, .separator, rfl⟩

/-- Having more bytes in front, it does not stop later. -/
theorem crossMarks_one_le {front back : List Bool} {pos p q : Nat} {b b' : Closing}
    (h : crossMarks pos 1 (front ++ back) = some (p, b))
    (h' : crossMarks (pos + front.length) 1 back = some (q, b')) : p ≤ q := by
  induction front generalizing pos with
  | nil =>
    rw [List.nil_append] at h
    rw [List.length_nil, Nat.add_zero, h] at h'
    simp only [Option.some.injEq, Prod.mk.injEq] at h'
    omega
  | cons mark front ih =>
    cases mark with
    | false =>
      rw [List.length_cons, ← Nat.add_assoc, Nat.add_right_comm] at h'
      exact ih h h'
    | true =>
      have hstop : pos + 1 = p := by
        rw [List.cons_append] at h
        unfold crossMarks at h
        rw [if_pos (Nat.le_refl 1)] at h
        simp only [Option.some.injEq, Prod.mk.injEq] at h
        exact h.1
      have hle := (crossMarks_bounds h').1
      rw [List.length_cons] at hle
      omega

/-- **Of two scans over one component** the one that starts later stops later. -/
theorem cross_mono {marks : List Bool} {lo hi q : Nat} {b : Closing} (hle : lo ≤ hi)
    (h : cross hi 1 (marks.drop hi) = some (q, b)) :
    ∃ p b', cross lo 1 (marks.drop lo) = some (p, b') ∧ p ≤ q := by
  obtain ⟨n, rfl⟩ := Nat.exists_eq_add_of_le hle
  cases hhi : marks.drop (lo + n) with
  | nil =>
    rw [hhi] at h
    cases h
  | cons mark rest =>
    cases hlo : marks.drop lo with
    | nil =>
      rw [← List.drop_drop, hlo, List.drop_nil] at hhi
      cases hhi
    | cons first others =>
      rw [hhi] at h
      obtain ⟨p, b', hp⟩ := exists_crossMarks_one (lo + 1) others
      refine ⟨p, b', hp, ?_⟩
      -- What the earlier scan has in front are the bytes up to the later start.
      have hothers : others = others.take n ++ rest := by
        have hdrop : others.drop n = rest := by
          have htail := congrArg (List.drop 1) hhi
          rw [List.drop_drop, Nat.add_assoc, ← List.drop_drop, hlo, Nat.add_comm n 1,
            ← List.drop_drop] at htail
          exact htail
        rw [← hdrop, List.take_append_drop]
      have hlen : (others.take n).length = n := by
        rw [List.length_take, Nat.min_eq_left]
        have hcount := congrArg List.length hhi
        rw [← List.drop_drop, hlo, List.length_drop, List.length_cons, List.length_cons] at hcount
        omega
      have hback : crossMarks (lo + 1 + (others.take n).length) 1 rest = some (q, b) := by
        rw [hlen, Nat.add_right_comm]
        exact h
      rw [hothers] at hp
      exact crossMarks_one_le hp hback

/-! ## Windows -/

namespace Window

/-- The ends of the window lie between characters, in order. -/
structure Sits (name : Text) (w : Window) : Prop where
  lo : Between name w.lo
  hi : Between name w.hi
  le : w.lo ≤ w.hi

variable {name : Text} {start count : Nat} {w w' : Window}

theorem sits_first (hstart : Between name start) (h : first (byteMarks name) start count = some w) :
    Sits name w := by
  unfold first at h
  obtain ⟨⟨stop, b⟩, hcross, rfl⟩ := Option.map_eq_some_iff.1 h
  exact ⟨hstart, between_cross hcross, Nat.le_of_lt (cross_bounds hcross).1⟩

/-- Sliding keeps both ends between characters. -/
theorem Sits.next (hw : Sits name w) (h : next (byteMarks name) w = some w') : Sits name w' := by
  unfold Window.next at h
  obtain ⟨⟨hi, b⟩, hcross, rfl⟩ := Option.map_eq_some_iff.1 h
  obtain ⟨lo, b', hlo, hle⟩ := cross_mono hw.le hcross
  dsimp only
  rw [hlo]
  exact ⟨between_cross hlo, between_cross hcross, hle⟩

theorem Sits.of_mem_slides (hw : Sits name w) (h : w' ∈ slides (byteMarks name) w) :
    Sits name w' := by
  fun_induction slides (byteMarks name) w with
  | case1 w hnext =>
    rw [List.mem_singleton.1 h]
    exact hw
  | case2 w next hnext ih =>
    rcases List.mem_cons.1 h with rfl | h
    · exact hw
    · exact ih (hw.next hnext) h

/-- **Every window met** lies between characters. -/
theorem sits_of_mem_all (hstart : Between name start) (h : w ∈ all name start count) :
    Sits name w := by
  unfold all at h
  cases hfirst : first (byteMarks name) start count with
  | none =>
    dsimp only at h
    rw [hfirst] at h
    simp at h
  | some front =>
    dsimp only at h
    rw [hfirst] at h
    exact (sits_first hstart hfirst).of_mem_slides h

end Window

end PathGlob
