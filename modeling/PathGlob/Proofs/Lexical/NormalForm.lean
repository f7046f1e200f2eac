/-
The form in which a pattern and its root are left.

Anchoring comes to its end in one step: the pattern is not closed and has no dots left
to hand over, the root is clean but for the separator that joins the two, and anchoring
them again changes nothing (`of_normal`). All of it rests on one fact about dots, that
what is left of a path without them has none (`dotPart_withoutDots`), and on one about
roots, that the joining separator is cleaned away (`clean_closeRoot`).

The empty root is the current directory, and so is a dot. The two come to the same as
long as the dots of the pattern are written behind them alike. With a separator before
the dots they are not: behind no root that separator makes a path that is rooted, and
behind a dot it does not (`of_nil_iff`).
-/
import PathGlob.Proofs.Lexical.Denotation

set_option autoImplicit false

namespace PathGlob

namespace Lexical

/-! ## No dots are left -/

/-- **Dots are handed over once.** -/
theorem dotPart_withoutDots (path : Text) : dotPart (withoutDots path) = [] := by
  rcases withoutDots_cases path with hnil | hsep | hgrounded
  · rw [hnil]
    decide
  · rw [hsep]
    decide
  · -- Nothing goes a second time, so what would go is empty.
    have happend := dotPart_append (withoutDots path)
    rw [withoutDots_eq_self hgrounded] at happend
    exact List.append_left_eq_self.1 happend

/-! ## Roots -/

/-- The only clean path that is closed is the root of the tree. -/
theorem clean_of_closed {path : Text} (h : Text.closed (clean path) = true) : clean path = ['/'] := by
  have hnamed := Course.named_of path
  rw [clean_eq, Course.text] at h ⊢
  split
  · rename_i hempty
    rw [if_pos hempty] at h
    exact absurd h (by decide)
  · rename_i hempty
    rw [if_neg hempty] at h
    rw [Course.spelled] at h hempty ⊢
    by_cases hparts : (Course.of path).climbs (Text.opened path) ++ (Course.of path).names = []
    · rw [hparts] at hempty ⊢
      generalize Text.opened path = rooted at hempty ⊢
      cases rooted with
      | true => rfl
      | false => exact absurd rfl hempty
    · rw [Text.closed_written hparts (hnamed.isName_parts _)] at h
      exact absurd h Bool.false_ne_true

/-! ## Dots behind a separator -/

/-- A path hands over dots behind a separator when it begins with them. -/
theorem dots_behind_iff {path : Text} : Text.opened (dotPart path) = true ↔
    ∃ dots rest, path = '/' :: (dots ++ rest) ∧ IsDots dots ∧
      (Text.opened rest = true ∨ rest = [] ∧ dots ≠ []) := by
  constructor
  · intro hopened
    obtain ⟨run, hrun⟩ := Text.exists_of_opened hopened
    have hall := all_dotPart path
    rw [hrun] at hall
    obtain ⟨dots, more, rfl, hdots, hends⟩ := exists_dots (List.forall_mem_cons.1 hall).2
    have hpath : path = '/' :: (dots ++ (more ++ withoutDots path)) := by
      rw [← List.append_assoc, ← List.cons_append, ← hrun, dotPart_append]
    refine ⟨dots, _, hpath, hdots, ?_⟩
    rcases hends with rfl | hsep
    · rcases (dotPart_cut path).resolve_left (by simp [hrun]) with hcut | ⟨hnil, hclosed⟩
      · exact .inl hcut
      · refine .inr ⟨hnil, ?_⟩
        rintro rfl
        rw [hpath, hnil] at hclosed
        exact absurd hclosed (by decide)
    · obtain ⟨rest, rfl⟩ := Text.exists_of_opened hsep
      exact .inl rfl
  · rintro ⟨dots, rest, rfl, hdots, hends⟩
    have hsome : dotPart ('/' :: (dots ++ rest)) ≠ [] := by
      refine dotPart_ne_nil_iff.2 ⟨'/' :: dots, rest, rfl, List.cons_ne_nil _ _,
        List.forall_mem_cons.2 ⟨rfl, hdots.all_run⟩, hends.imp_right fun ⟨hnil, hne⟩ => ⟨hnil, ?_⟩⟩
      rw [hnil, List.append_nil, ← List.singleton_append, Text.closed_append hne]
      exact Text.closed_name ⟨hne, hdots.notMem⟩
    have hopened := opened_append_of_ne_nil hsome (withoutDots ('/' :: (dots ++ rest)))
    rw [dotPart_append] at hopened
    exact hopened.symm

end Lexical

namespace Anchored

open Lexical (IsDots clean dotPart withoutDots)

/-! ## The normal form -/

/-- The separator that joins a root to its pattern is cleaned away. -/
theorem clean_closeRoot (pattern path : Text) : clean (closeRoot pattern (clean path)) = clean path := by
  rw [closeRoot]
  split
  · exact Lexical.clean_clean path
  · have hclose : clean (clean path ++ '/' :: []) = clean (clean path) := by
      rw [Lexical.clean_eq_clean_iff, Lexical.opened_append_of_ne_nil (Lexical.clean_ne_nil path),
        Lexical.Course.of_close]
      exact ⟨rfl, rfl⟩
    rw [hclose, Lexical.clean_clean]

/-- A pattern that is not closed and has no dots to hand over is kept, and its root is
cleaned. -/
theorem of_kept {pattern : Text} (hopen : Text.closed pattern = false)
    (hdots : dotPart pattern = []) (root : Text) :
    of pattern root = ⟨pattern, closeRoot pattern (clean root)⟩ := by
  have hbelow : withEverythingBelow pattern = pattern := by
    rw [withEverythingBelow, hopen, if_neg Bool.false_ne_true]
  rw [of, hbelow, hdots, withoutDots, hdots]
  rfl

/-- **Anchoring leaves a normal form.** The pattern is not closed and has no dots to hand
over, its root is clean, with a separator behind it where the pattern brings none, and
anchoring the two again changes nothing. -/
theorem of_normal (pattern root : Text) :
    Text.closed (of pattern root).pattern = false ∧
    dotPart (of pattern root).pattern = [] ∧
    (of pattern root).root =
      (if (of pattern root).pattern = [] ∨ Text.opened (of pattern root).pattern = true ∨
          Text.closed (clean (of pattern root).root) = true
        then clean (of pattern root).root else clean (of pattern root).root ++ ['/']) ∧
    of (of pattern root).pattern (of pattern root).root = of pattern root := by
  obtain ⟨path, hroot⟩ : ∃ path, (of pattern root).root =
      closeRoot (of pattern root).pattern (clean path) := ⟨_, rfl⟩
  have hopen := open_of pattern root
  have hdots : dotPart (of pattern root).pattern = [] :=
    Lexical.dotPart_withoutDots (withEverythingBelow pattern)
  have hclean : clean (of pattern root).root = clean path := by
    rw [hroot, clean_closeRoot]
  -- The root is the same clean path each time, and it is joined to the same pattern.
  refine ⟨hopen, hdots, ?_, ?_⟩
  · rw [hclean, hroot, closeRoot]
    simp only [Bool.or_eq_true, List.isEmpty_iff, or_assoc]
  · rw [of_kept hopen hdots, hclean, ← hroot]

/-! ## No root -/

/-- Behind no root dots lead to where they lead behind a dot, unless a separator comes
before them. -/
theorem clean_dots_iff (dots : Text) :
    clean (extendRoot [] dots) = clean (extendRoot ['.'] dots) ↔ Text.opened dots = false := by
  rw [extendRoot_nil, Lexical.clean_eq_clean_iff]
  cases hopened : Text.opened dots with
  | true =>
    have hextend : extendRoot ['.'] dots = '.' :: dots := by
      rw [extendRoot, hopened]
      rfl
    rw [hextend]
    exact iff_of_false (fun h => absurd h.1 (by simp [Text.opened])) (by decide)
  | false =>
    -- The dot in front is a piece that leads nowhere.
    have hextend : extendRoot ['.'] dots = ['.'] ++ '/' :: dots := by
      rw [extendRoot, hopened]
      rfl
    have hhere : Lexical.Course.of ['.'] = Lexical.Course.here := by cbv
    rw [hextend, Lexical.Course.of_append, hhere, Lexical.Course.here_append]
    exact iff_of_true ⟨rfl, rfl⟩ rfl

/-- **No root** is the current directory, but for a pattern that begins with a separator
and dots behind it, or with two separators. -/
theorem of_nil_iff (pattern : Text) : of pattern [] = of pattern ['.'] ↔
    ¬ ∃ dots rest, pattern = '/' :: (dots ++ rest) ∧ IsDots dots ∧
      (Text.opened rest = true ∨ rest = [] ∧ dots ≠ []) := by
  have hdots := dotPart_withEverythingBelow pattern
  rw [← Lexical.dots_behind_iff, Bool.not_eq_true, of, of, mk.injEq, eq_self, true_and, ← hdots]
  by_cases hnone : dotPart (withEverythingBelow pattern) = []
  · have hdot : clean [] = clean ['.'] := by cbv
    rw [hnone, List.isEmpty_nil, if_pos rfl, if_pos rfl, hdot]
    exact iff_of_true rfl rfl
  · -- Where dots are handed over, the root is left as it was cleaned.
    have hkept : ∀ path, closeRoot (withoutDots (withEverythingBelow pattern)) path = path := by
      intro path
      rcases (Lexical.dotPart_cut _).resolve_left hnone with hopened | ⟨hnil, -⟩
      · rw [closeRoot, hopened, Bool.or_true, Bool.true_or, if_pos rfl]
      · rw [closeRoot, hnil]
        rfl
    rw [List.isEmpty_eq_false_iff.2 hnone, if_neg Bool.false_ne_true, if_neg Bool.false_ne_true,
      hkept, hkept, clean_dots_iff]

/-- Behind two separators no root is the root of the tree. -/
theorem of_nil_separators : of "//abc".toList [] ≠ of "//abc".toList ['.'] := by
  decide +kernel

end Anchored

end PathGlob
