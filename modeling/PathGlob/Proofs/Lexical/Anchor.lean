/-
Where a walk over a tree of paths starts, when no root is given.

The root comes from the pattern alone then: it is made of the dots in front of
it, so it has no character but dots and separators (`isBase_of`). The pattern
keeps the rest. It ends with no separator, for one at its end has become a
wildcard, and its first name is more than dots.
-/
import PathGlob.Lexical.Anchor
import PathGlob.Proofs.Lexical.Course

set_option autoImplicit false

namespace PathGlob

namespace Lexical

/-- A root that names nothing. -/
structure IsBase (root : Text) : Prop where
  ne_nil : root ≠ []
  all : ∀ d ∈ root, isDotOrSeparator d = true

/-! ## Cleaning -/

theorem mem_of_mem_components {t piece : Text} {c : Char} (hpiece : piece ∈ Text.components t)
    (hc : c ∈ piece) : c ∈ t := by
  induction t generalizing piece with
  | nil =>
    obtain rfl : piece = [] := by simpa [Text.components] using hpiece
    exact absurd hc (by simp)
  | cons d t ih =>
    rw [Text.components, List.splitOn_cons_eq_if_modifyHead] at hpiece
    by_cases hd : d = '/'
    · rw [if_pos (by simpa using hd), List.mem_cons] at hpiece
      rcases hpiece with rfl | hpiece
      · exact absurd hc (by simp)
      · exact List.mem_cons_of_mem _ (ih hpiece hc)
    · obtain ⟨first, rest, hsplit⟩ := List.exists_cons_of_ne_nil (List.splitOn_ne_nil '/' t)
      have hcomponents : Text.components t = first :: rest := hsplit
      rw [if_neg (by simpa using hd), hsplit, List.modifyHead_cons, List.mem_cons] at hpiece
      rcases hpiece with rfl | hpiece
      · rcases List.mem_cons.1 hc with rfl | hc
        · exact List.mem_cons_self
        · exact List.mem_cons_of_mem _ (ih (by rw [hcomponents]; simp) hc)
      · exact List.mem_cons_of_mem _ (ih (by rw [hcomponents]; simp [hpiece]) hc)

/-- A character of a written text separates the parts or belongs to one. -/
theorem mem_spell {closed : Bool} {parts : List Text} {c : Char} (h : c ∈ spell '/' closed parts) :
    c = '/' ∨ ∃ part ∈ parts, c ∈ part := by
  induction parts with
  | nil => exact absurd h (by simp)
  | cons part rest ih =>
    rw [spell, List.mem_append, List.mem_append] at h
    rcases h with h | h | h
    · exact .inr ⟨part, List.mem_cons_self, h⟩
    · split at h
      · exact .inl (List.mem_singleton.1 h)
      · exact absurd h (by simp)
    · rcases ih h with hsep | ⟨other, hother, hc⟩
      · exact .inl hsep
      · exact .inr ⟨other, List.mem_cons_of_mem _ hother, hc⟩

theorem isBase_clean {path : Text} (h : ∀ c ∈ path, isDotOrSeparator c = true) :
    IsBase (clean path) := by
  refine ⟨clean_ne_nil path, fun c hc => ?_⟩
  rw [clean_eq, Course.text] at hc
  split at hc
  · rw [List.mem_singleton.1 hc]
    decide
  · rw [Course.spelled, Text.written, List.mem_append] at hc
    rcases hc with hc | hc
    · split at hc
      · rw [List.mem_singleton.1 hc]
        decide
      · exact absurd hc (by simp)
    · -- A part is a climb or a piece of the path.
      rcases mem_spell hc with rfl | ⟨part, hpart, hc⟩
      · decide
      · rcases List.mem_append.1 hpart with hclimb | hname
        · rw [List.eq_of_mem_replicate hclimb] at hc
          rw [show c = '.' by simpa [up] using hc]
          decide
        · exact h c (mem_of_mem_components (Course.mem_components_of_mem_names hname) hc)

end Lexical

namespace Anchored

open Lexical (IsBase IsDots isDotOrSeparator)

/-! ## The anchored pattern -/

/-- The wildcard at the end changes nothing about the dots in front. -/
theorem dotPart_withEverythingBelow (pattern : Text) :
    Lexical.dotPart (withEverythingBelow pattern) = Lexical.dotPart pattern := by
  rw [withEverythingBelow]
  split
  · rename_i hclosed
    have htake : (pattern ++ ['*', '*']).takeWhile isDotOrSeparator =
        pattern.takeWhile isDotOrSeparator := by
      rw [List.takeWhile_append]
      split
      · rename_i hlength
        rw [(List.takeWhile_prefix (l := pattern) isDotOrSeparator).eq_of_length hlength]
        exact List.append_nil pattern
      · rfl
    have hshort : (pattern.takeWhile isDotOrSeparator).length ≠ (pattern ++ ['*', '*']).length := by
      have hle := (List.takeWhile_prefix (l := pattern) isDotOrSeparator).length_le
      rw [List.length_append]
      simp only [List.length_cons, List.length_nil]
      omega
    -- Neither path goes as a whole: the one is closed, the other has the wildcard.
    rw [Lexical.dotPart, Lexical.dotPart, htake, hclosed, beq_eq_false_iff_ne.2 hshort,
      Bool.false_and, Bool.not_true, Bool.and_false]
    rfl
  · rfl

/-- Dots are written after no root as they stand. -/
theorem extendRoot_nil (dots : Text) : extendRoot [] dots = dots := by
  rw [extendRoot]
  cases Text.opened dots <;> simp [Text.closed]

theorem isBase_closeRoot {pattern root : Text} (h : IsBase root) :
    IsBase (closeRoot pattern root) := by
  rw [closeRoot]
  split
  · exact h
  · refine ⟨by simp, fun c hc => ?_⟩
    rcases List.mem_append.1 hc with hc | hc
    · exact h.all c hc
    · rw [List.mem_singleton.1 hc]
      decide

/-- **The root** of a pattern without one names nothing. -/
theorem isBase_of (pattern : Text) : IsBase (Anchored.of pattern []).root := by
  have hdots := Lexical.all_dotPart (withEverythingBelow pattern)
  rw [Anchored.of]
  refine isBase_closeRoot (Lexical.isBase_clean ?_)
  split
  · simp
  · rw [extendRoot_nil]
    exact hdots

/-- No root is the empty text. -/
theorem root_ne_nil (pattern root : Text) : (Anchored.of pattern root).root ≠ [] := by
  have hclose : ∀ {front base : Text}, base ≠ [] → closeRoot front base ≠ [] := by
    intro front base hbase
    rw [closeRoot]
    split
    · exact hbase
    · simp
  exact hclose (Lexical.clean_ne_nil _)

/-- The pattern ends with no separator. -/
theorem open_of (pattern root : Text) : Text.closed (Anchored.of pattern root).pattern = false := by
  have hopen : Text.closed (withEverythingBelow pattern) = false := by
    rw [withEverythingBelow]
    split
    · rw [Text.closed_append (by simp)]
      decide
    · rename_i h
      exact Bool.eq_false_iff.2 h
  -- The dots go from the front, so the end is the same or nothing is left.
  have hdrop : ∀ (t : Text) (n : Nat), Text.closed t = false → Text.closed (t.drop n) = false := by
    intro t n ht
    by_cases hnil : t.drop n = []
    · rw [hnil]
      rfl
    · rw [← List.take_append_drop n t, Text.closed_append hnil] at ht
      exact ht
  exact hdrop _ _ hopen

/-- Its first name is more than dots. -/
theorem grounded_of (pattern root : Text) :
    ∀ name ∈ (Text.names (Anchored.of pattern root).pattern).head?, ¬ IsDots name := by
  intro name hname
  change name ∈ (Text.names (Lexical.withoutDots (withEverythingBelow pattern))).head? at hname
  rcases Lexical.withoutDots_cases (withEverythingBelow pattern) with h | h | h
  · rw [h, show Text.names [] = [] by cbv] at hname
    simp at hname
  · rw [h, show Text.names ['/'] = [] by cbv] at hname
    simp at hname
  · obtain ⟨first, more, hnames, hdots⟩ := h.exists_name
    rw [hnames] at hname
    obtain rfl : first = name := by simpa using hname
    exact hdots

/-- Behind a separator in front there is no other. -/
theorem opened_of (pattern root : Text) :
    Text.opened (Text.dropOpening (Anchored.of pattern root).pattern) = false := by
  show Text.opened (Text.dropOpening (Lexical.withoutDots (withEverythingBelow pattern))) = false
  rcases Lexical.withoutDots_cases (withEverythingBelow pattern) with h | h | h
  · rw [h]
    rfl
  · rw [h]
    rfl
  · obtain ⟨lead, dots, c, rest, heq, hdots, -, hsep⟩ := h
    have hopened := Text.opened_append (Lexical.isName_dots hdots hsep) rest
    rw [List.append_assoc, List.singleton_append] at hopened
    rw [heq]
    cases lead with
    | true => exact hopened
    | false =>
      rw [if_neg Bool.false_ne_true, List.nil_append, Text.dropOpening_eq_self hopened]
      exact hopened

end Anchored

end PathGlob
