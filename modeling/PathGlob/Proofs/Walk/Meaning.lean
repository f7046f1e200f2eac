/-
What expanding a pattern finds in a tree of paths.

The walk starts below a root of nothing but dots, with a pattern that does not
end with a separator and whose first name is more than dots, so all it asks the
tree for are entries. What it tells are then the entries that the components of
the pattern select, whichever listener takes them, as long as it refuses nothing
(`glob_found`).
-/
import PathGlob.Proofs.Pattern.Reading
import PathGlob.Proofs.Walk.Advance

set_option autoImplicit false

namespace PathGlob

open Segment (FromWild Laid isStars)

/-! ## The start -/

/-- The first segment has the separator in front, if there is one. -/
theorem Segment.Laid.opened_head {closed front : Bool} {segments : List Segment}
    {parts : List Text} (h : Laid closed front segments parts)
    (hparts : ∀ part ∈ parts, Text.IsName part) :
    segments.head?.any (Text.opened ·.text) = front := by
  cases h with
  | literal hplain => exact Text.opened_written hparts
  | head hplain h => exact Text.opened_written (List.forall_mem_append.1 hparts).1
  | tail h =>
    cases h with
    | wild hstars => exact Text.opened_written hparts
    | literal hstars hplain => exact Text.opened_written (List.forall_mem_append.1 hparts).1
    | more hstars hplain h => exact Text.opened_written (List.forall_mem_append.1 hparts).1

/-- The walk starts at the root. -/
theorem Expansion.start_eq {closed front : Bool} {segments : List Segment} {parts : List Text}
    (h : Laid closed front segments parts) (hparts : ∀ part ∈ parts, Text.IsName part)
    (root : Text) : Expansion.start root segments = Place.below root front [] := by
  rw [Expansion.start, h.opened_head hparts, Place.below, Text.written]
  cases front <;> rfl

/-- A backslash in a component is one in the pattern. -/
theorem Text.notMem_names {text : Text} {c : Char} (h : c ∉ text) :
    ∀ name ∈ Text.names text, c ∉ name :=
  fun _ hname hc => h (Lexical.mem_of_mem_components (List.mem_filter.1 hname).1 hc)

/-- With no components there is only the root, which is not an entry. -/
theorem PathTree.not_selects_nil {t : PathTree} (hsound : t.Sound) (entry : List Text) :
    ¬ t.Selects [] [] entry := by
  rintro ⟨hmem, hsplits, -⟩
  obtain rfl := Splits.nil_iff.1 hsplits
  exact hsound.ne_nil _ hmem rfl

/-! ## The whole walk -/

section Glob

variable {t : PathTree} {pattern text : Text} {segments : List Segment} (hsound : t.Sound)
  (htext : (Anchored.of pattern []).pattern = text) (hread : Segment.read text = .ok segments)
  (hescape : '\\' ∉ text) (hdouble : Text.Undoubled text) (hstand : Mask.SeparatorsStand text)

include hsound htext hread hescape hdouble hstand

/-- **What a walk tells:** the entries that the components of the pattern
select. -/
theorem reports_glob :
    Walk.Reports t.tree (Walk.glob t.tree.depth pattern []) (fun _ => True) fun m =>
      ∃ entry, t.Selects (Text.names text) [] entry ∧
        m = Text.written (Text.opened text) false entry := by
  have hopen : Text.closed text = false := by
    rw [← htext]
    exact Anchored.open_of pattern []
  have hadvance : Walk.Reports t.tree
      (Expansion.advance (Expansion.repeats segments) (t.height + 1) segments
        (Expansion.start (Anchored.of pattern []).root segments)) (fun _ => True) fun m =>
      ∃ entry, t.Selects (Text.names text) [] entry ∧
        m = Text.written (Text.opened text) false entry := by
    by_cases hne : Text.names text = []
    · -- Without names the pattern is empty, and there are no segments.
      obtain rfl := Text.eq_nil_of_names hdouble hopen hne
      obtain rfl := Segment.read_nil hread
      refine (Walk.reports_done trivial).of_iff (fun _ h => h) fun m => ?_
      rw [hne]
      exact iff_of_false not_false fun ⟨entry, h, _⟩ => PathTree.not_selects_nil hsound entry h
    · have hparts := @Segment.isName_of_names text
      have hlaid := Segment.laid_of_read hread hdouble hne
      have hreadable := Segment.readable_of_read hread hdouble hstand
      have hfirst := Anchored.grounded_of pattern []
      rw [Expansion.start_eq hlaid hparts]
      rw [htext] at hfirst
      rw [hopen] at hlaid
      exact Expansion.reports_advance hlaid hsound (Anchored.isBase_of pattern) hreadable hparts
        (Text.notMem_names hescape) hfirst _
  -- The walk tells its root first, and that is not a path found.
  have hroot : ∀ m, Notice.found m ≠ .root (Anchored.of pattern []).root := by simp
  have hwalk : Walk.glob t.tree.depth pattern [] =
      (Walk.tell (.root (Anchored.of pattern []).root)).bind fun _ =>
        Expansion.advance (Expansion.repeats segments) (t.height + 1) segments
          (Expansion.start (Anchored.of pattern []).root segments) := by
    rw [Walk.glob, htext, hread]
    rfl
  rw [hwalk]
  refine ((Walk.reports_tell _).of_iff (fun _ h => h) fun m => ?_).andThen fun _ _ => hadvance
  exact iff_false_intro (hroot m)

/-- What a run hands over, to a listener that refuses nothing. -/
theorem glob_found {listener : Listener} (hwilling : listener.Willing) :
    (t.tree.glob listener pattern []).error? = none ∧
      ∀ m, m ∈ (t.tree.glob listener pattern []).found ↔
        ∃ entry, t.Selects (Text.names text) [] entry ∧
          m = Text.written (Text.opened text) false entry := by
  obtain ⟨value, hending, -, hnotices⟩ :=
    reports_glob hsound htext hread hescape hdouble hstand listener hwilling []
  rw [Tree.glob]
  constructor
  · rw [Run.error?, hending]
    rfl
  · intro m
    have hm := hnotices m
    simp only [List.not_mem_nil, or_false] at hm
    rw [← hm, Run.found, List.mem_filterMap]
    constructor
    · rintro ⟨notice, hnotice, hpath⟩
      cases notice with
      | found path =>
        obtain rfl := Option.some.inj hpath
        exact hnotice
      | root _ => simp at hpath
      | failed _ _ => simp at hpath
    · intro h
      exact ⟨_, h, rfl⟩

end Glob

/-- **The meaning of a walk.** Below an empty root, a listener that refuses
nothing is handed the entries of the tree whose names can be split over the
components of the pattern, and behind a last component of stars only those with
nothing inside. -/
theorem glob_ofPaths (paths : List Text) {pattern text : Text} {segments : List Segment}
    (htext : (Anchored.of pattern []).pattern = text) (hread : Segment.read text = .ok segments)
    (hescape : '\\' ∉ text) (hdouble : Text.Undoubled text) (hstand : Mask.SeparatorsStand text)
    {listener : Listener} (hwilling : listener.Willing) :
    ((PathTree.ofPaths paths).tree.glob listener pattern []).error? = none ∧
      ∀ m, m ∈ ((PathTree.ofPaths paths).tree.glob listener pattern []).found ↔
        ∃ entry ∈ (PathTree.ofPaths paths).entries,
          Splits (Text.names text) entry ∧
          ((Text.names text).getLast?.any isStars = true → (PathTree.ofPaths paths).IsEnd entry) ∧
          m = Text.written (Text.opened text) false entry := by
  obtain ⟨herror, hfound⟩ :=
    glob_found (PathTree.sound_ofPaths paths) htext hread hescape hdouble hstand hwilling
  refine ⟨herror, fun m => (hfound m).trans (exists_congr fun entry => ?_)⟩
  rw [PathTree.Selects, List.nil_append, and_assoc, and_assoc]

theorem glob_ofPaths_spanned :
    ((PathTree.ofPaths ["a/x/b".toList, "a/d".toList]).tree.glob (fun _ _ => none)
        "a/**/[bc]".toList []).error? = none ∧
      ∀ m, m ∈ ((PathTree.ofPaths ["a/x/b".toList, "a/d".toList]).tree.glob (fun _ _ => none)
          "a/**/[bc]".toList []).found ↔
        ∃ entry ∈ (PathTree.ofPaths ["a/x/b".toList, "a/d".toList]).entries,
          Splits (Text.names "a/**/[bc]".toList) entry ∧
          ((Text.names "a/**/[bc]".toList).getLast?.any isStars = true →
            (PathTree.ofPaths ["a/x/b".toList, "a/d".toList]).IsEnd entry) ∧
          m = Text.written (Text.opened "a/**/[bc]".toList) false entry := by
  have hread : Segment.read "a/**/[bc]".toList = .ok
      [.literal "a/".toList 1, .wild "**/".toList, .literal "[bc]".toList 1] := by decide +kernel
  exact glob_ofPaths _ (by cbv) hread (by decide) (by decide) (by decide +kernel) fun _ _ => rfl

end PathGlob
