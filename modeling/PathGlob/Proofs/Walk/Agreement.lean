/-
Where the walk and the match agree.

What a pattern stands for in a tree can be found out in two ways, by a walk, or
by matching the path of every entry. The walk finds what the components of the
pattern say, so the two differ exactly where a match does not: where its search
stops early, and where a lone literal overruns the components it has.
-/
import PathGlob.Proofs.Pattern.Exceptions
import PathGlob.Proofs.Walk.Meaning

set_option autoImplicit false

namespace PathGlob

open Segment (isStars isWild)

/-- Behind a last segment that is a literal anything may be inside. -/
theorem Segment.last_plain_of_literal {text : Text} {segments : List Segment} {last : Text}
    {width : Nat} (hread : Segment.read text = .ok segments) (hdouble : Text.Undoubled text)
    (hlast : segments.getLast? = some (.literal last width)) :
    (Text.names text).getLast?.any isStars = false := by
  by_cases hne : Text.names text = []
  · rw [hne]
    rfl
  · rw [(Segment.laid_of_read hread hdouble hne).last_isStars, hlast]
    rfl

/-- **Where the walk and the match agree.** Every path a walk finds is matched,
and every entry that is matched, and has nothing inside if the pattern ends in a
wildcard, is found by the walk, exactly when no entry is one of the exceptions. -/
theorem glob_agrees_iff (paths : List Text) {pattern text : Text} {segments : List Segment}
    (htext : (Anchored.of pattern []).pattern = text) (hread : Segment.read text = .ok segments)
    (hescape : '\\' ∉ text) (hdouble : Text.Undoubled text) (hstand : Mask.SeparatorsStand text)
    (hbytes : ∀ entry ∈ (PathTree.ofPaths paths).entries, ∀ name ∈ entry, ∀ c ∈ name.getLast?,
      c.utf8Size = 1)
    {listener : Listener} (hwilling : listener.Willing) :
    ((∀ m ∈ ((PathTree.ofPaths paths).tree.glob listener pattern []).found,
        Pattern.test text m = .ok true) ∧
      ∀ entry ∈ (PathTree.ofPaths paths).entries,
        Pattern.test text (Text.written (Text.opened text) false entry) = .ok true →
        (∃ last width, segments.getLast? = some (.literal last width)) ∨
          (PathTree.ofPaths paths).IsEnd entry →
        Text.written (Text.opened text) false entry ∈
          ((PathTree.ofPaths paths).tree.glob listener pattern []).found) ↔
    ∀ entry ∈ (PathTree.ofPaths paths).entries,
      ¬ (Splits (Text.names text) entry ∧
        Segment.StopsSearch segments (Text.names text) entry) ∧
      ¬ Segment.Overruns segments (Text.opened text) entry := by
  have hsound := PathTree.sound_ofPaths paths
  have hopen : Text.closed text = false := by
    rw [← htext]
    exact Anchored.open_of pattern []
  obtain ⟨-, hfound⟩ := glob_found hsound htext hread hescape hdouble hstand hwilling
  have htest := fun entry hentry =>
    Pattern.test_iff hread hopen hdouble hstand (hsound.ne_nil entry hentry)
      (hsound.isName entry hentry) (hbytes entry hentry)
  generalize (PathTree.ofPaths paths) = t at *
  constructor
  · rintro ⟨hmatched, hreached⟩ entry hentry
    constructor
    · -- The walk finds what the search gives up.
      rintro ⟨hsplits, hstops⟩
      obtain ⟨hmany, last, width, hlast, -⟩ := id hstops
      have hplain := Segment.last_plain_of_literal hread hdouble hlast
      have hselects : t.Selects (Text.names text) [] entry :=
        ⟨hentry, hsplits, fun hstars => absurd hstars (by simp [hplain])⟩
      have hhit := hmatched _ ((hfound _).2 ⟨entry, hselects, rfl⟩)
      rcases (htest entry hentry).1 hhit with ⟨-, hnot⟩ | ⟨_, _, rfl, -⟩
      · exact hnot hstops
      · simp at hmany
    · -- The mask takes what the walk, going name by name, does not come to.
      intro hover
      obtain ⟨literal, width, hsingle, -⟩ := id hover
      have hhit := hreached entry hentry ((htest entry hentry).2 (.inr hover))
        (.inl ⟨literal, width, by rw [hsingle]; rfl⟩)
      obtain ⟨other, ⟨hother, hsplits, -⟩, hsame⟩ := (hfound _).1 hhit
      have hnames := congrArg Text.names hsame
      rw [Text.names_written (hsound.isName entry hentry),
        Text.names_written (hsound.isName other hother)] at hnames
      rw [← hnames] at hsplits
      exact Pattern.not_splits_of_overruns hread hopen hdouble hover hsplits
  · intro hnone
    constructor
    · intro m hm
      obtain ⟨entry, ⟨hentry, hsplits, -⟩, rfl⟩ := (hfound m).1 hm
      exact (htest entry hentry).2
        (.inl ⟨hsplits, fun hstops => (hnone entry hentry).1 ⟨hsplits, hstops⟩⟩)
    · intro entry hentry hhit hlast
      have hsplits : Splits (Text.names text) entry := by
        rcases (htest entry hentry).1 hhit with ⟨hsplits, -⟩ | hover
        · exact hsplits
        · exact absurd hover (hnone entry hentry).2
      refine (hfound _).2 ⟨entry, ⟨hentry, hsplits, fun hstars => ?_⟩, rfl⟩
      rcases hlast with ⟨last, width, hlast⟩ | hend
      · exact absurd hstars (by simp [Segment.last_plain_of_literal hread hdouble hlast])
      · exact hend

theorem glob_agrees_iff_class :
    ((∀ m ∈ ((PathTree.ofPaths ["b/bx".toList]).tree.glob (fun _ _ => none)
        "**/b[^c]".toList []).found, Pattern.test "**/b[^c]".toList m = .ok true) ∧
      ∀ entry ∈ (PathTree.ofPaths ["b/bx".toList]).entries,
        Pattern.test "**/b[^c]".toList
          (Text.written (Text.opened "**/b[^c]".toList) false entry) = .ok true →
        (∃ last width, [Segment.wild "**/".toList, .literal "b[^c]".toList 1].getLast? =
          some (.literal last width)) ∨ (PathTree.ofPaths ["b/bx".toList]).IsEnd entry →
        Text.written (Text.opened "**/b[^c]".toList) false entry ∈
          ((PathTree.ofPaths ["b/bx".toList]).tree.glob (fun _ _ => none)
            "**/b[^c]".toList []).found) ↔
    ∀ entry ∈ (PathTree.ofPaths ["b/bx".toList]).entries,
      ¬ (Splits (Text.names "**/b[^c]".toList) entry ∧
        Segment.StopsSearch [.wild "**/".toList, .literal "b[^c]".toList 1]
          (Text.names "**/b[^c]".toList) entry) ∧
      ¬ Segment.Overruns [.wild "**/".toList, .literal "b[^c]".toList 1]
        (Text.opened "**/b[^c]".toList) entry := by
  have hread : Segment.read "**/b[^c]".toList =
      .ok [.wild "**/".toList, .literal "b[^c]".toList 1] := by decide +kernel
  have hentries : (PathTree.ofPaths ["b/bx".toList]).entries =
      [["b".toList], ["b".toList, "bx".toList]] := by decide +kernel
  have hbytes : ∀ entry ∈ (PathTree.ofPaths ["b/bx".toList]).entries, ∀ name ∈ entry,
      ∀ c ∈ name.getLast?, c.utf8Size = 1 := by
    rw [hentries]
    simp [Char.utf8Size]
  exact glob_agrees_iff _ (by cbv) hread (by decide) (by decide) (by decide +kernel) hbytes
    fun _ _ => rfl

/-- The class takes the separator behind the first name, the search stops there,
and the name found by the walk is not matched. -/
theorem glob_disagrees_class :
    "b/bx".toList ∈ ((PathTree.ofPaths ["b/bx".toList]).tree.glob (fun _ _ => none)
        "**/b[^c]".toList []).found ∧
      Pattern.test "**/b[^c]".toList "b/bx".toList ≠ .ok true := by
  have hread : Segment.read "**/b[^c]".toList =
      .ok [.wild "**/".toList, .literal "b[^c]".toList 1] := by decide +kernel
  have hparse : Mask.parse "b[^c]".toList = .ok [.char 'b', .oneOf true [⟨'c', 'c'⟩]] := by
    decide +kernel
  have hfits : ∀ name, Mask.accepts [.char 'b', .oneOf true [⟨'c', 'c'⟩]] name = true →
      Mask.Fits "b[^c]".toList name := by
    intro name haccepts
    rw [Mask.Fits, Mask.fits_of_parse hparse, haccepts]
  have hnames : Text.names "**/b[^c]".toList = ["**".toList, "b[^c]".toList] := by decide
  have hstars : isStars "**".toList = true := by decide
  have hwritten : Text.written (Text.opened "**/b[^c]".toList) false ["b".toList, "bx".toList] =
      "b/bx".toList := by decide
  constructor
  · obtain ⟨-, hfound⟩ := @glob_found _ _ _ _ (PathTree.sound_ofPaths ["b/bx".toList])
      (by cbv : (Anchored.of "**/b[^c]".toList []).pattern = "**/b[^c]".toList) hread (by decide)
      (by decide) (by decide +kernel) (fun _ _ => none) fun _ _ => rfl
    refine (hfound _).2 ⟨["b".toList, "bx".toList], ⟨by decide +kernel, ?_, ?_⟩, hwritten.symm⟩
    · rw [hnames]
      exact .span hstars (.skip hstars (.one (by decide) (hfits _ (by cbv)) .done))
    · rw [hnames]
      exact fun hlast => absurd hlast (by decide)
  · have hstops : Segment.StopsSearch [.wild "**/".toList, .literal "b[^c]".toList 1]
        (Text.names "**/b[^c]".toList) ["b".toList, "bx".toList] := by
      rw [hnames]
      exact ⟨by decide, "b[^c]".toList, 1, rfl, [], _, rfl, .skip hstars .done, ["b".toList],
        ["bx".toList], rfl, by decide, rfl, hfits _ (by cbv)⟩
    have hbytes : ∀ name ∈ ["b".toList, "bx".toList], ∀ c ∈ name.getLast?, c.utf8Size = 1 := by
      simp [Char.utf8Size]
    have htest := @Pattern.test_iff _ _ ["b".toList, "bx".toList] hread (by decide) (by decide)
      (by decide +kernel) (by decide) (by decide) hbytes
    rw [hwritten] at htest
    rw [ne_eq, htest]
    rintro (⟨-, hnot⟩ | ⟨_, _, hsingle, -⟩)
    · exact hnot hstops
    · simp at hsingle

end PathGlob
