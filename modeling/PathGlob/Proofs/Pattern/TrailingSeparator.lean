/-
A separator written after the name alone, under a pattern that ends in an open
wildcard.

The wildcard takes whatever is left, so the separator should change nothing. It
does in one situation (`test_trailing_iff`): the names are one too few for the
last literal in front of the wildcard, and the separator lets the search count
an empty one behind it (`Segment.Overreads`).
-/
import PathGlob.Proofs.Pattern.ClosedName

set_option autoImplicit false

namespace PathGlob

namespace Segment

variable {closed front : Bool} {segments : List Segment} {parts : List Text} {stars : Text}

/-- A wildcard at the end is closed where the pattern is. -/
theorem FromWild.closed_lastWild (h : FromWild closed front segments parts)
    (hparts : ∀ part ∈ parts, Text.IsName part) (hlast : segments.getLast? = some (.wild stars)) :
    Text.closed stars = closed := by
  induction h with
  | wild hstars =>
    obtain rfl := Segment.wild.inj (Option.some.inj hlast)
    exact Text.closed_written hstars.1 hparts
  | literal hstars hplain => simp at hlast
  | more hstars hplain h ih =>
    rw [List.getLast?_cons_cons, List.getLast?_cons_of_ne_nil h.ne_nil] at hlast
    exact ih (List.forall_mem_append.1 (List.forall_mem_append.1 hparts).2).2 hlast

theorem Laid.closed_lastWild (h : Laid closed front segments parts)
    (hparts : ∀ part ∈ parts, Text.IsName part) (hlast : segments.getLast? = some (.wild stars)) :
    Text.closed stars = closed := by
  cases h with
  | literal hplain => simp at hlast
  | head hplain h =>
    rw [List.getLast?_cons_of_ne_nil h.ne_nil] at hlast
    exact h.closed_lastWild (List.forall_mem_append.1 hparts).2 hlast
  | tail h => exact h.closed_lastWild hparts hlast

end Segment

open Segment (FrontAgrees Overreads)

namespace Pattern

variable {text name stars : Text} {pattern : Pattern}

/-- Two answers of which one is yes in more cases. -/
theorem ok_eq_ok_iff_not {ε : Type} {b b' : Bool} {p q r : Prop} (hb : b = true ↔ p ∧ q)
    (hb' : b' = true ↔ p ∧ (q ∨ r)) (hqr : q → ¬ r) :
    ((.ok b' : Except ε Bool) = .ok b) ↔ ¬ (p ∧ r) := by
  rw [Except.ok.injEq, Bool.eq_iff_iff, hb, hb']
  constructor
  · rintro hsame ⟨hp, hr⟩
    exact hqr (hsame.1 ⟨hp, .inr hr⟩).2 hr
  · intro hnot
    constructor
    · rintro ⟨hp, hq | hr⟩
      · exact ⟨hp, hq⟩
      · exact absurd ⟨hp, hr⟩ hnot
    · rintro ⟨hp, hq⟩
      exact ⟨hp, .inl hq⟩

/-- **A separator after the name.** A pattern that ends in an open wildcard gives
the same answer for a name with and without a separator after it, unless the
name is one too few for the last literal and the empty text is taken for it. -/
theorem test_trailing_iff (hread : read text = .ok pattern) (hmany : 2 ≤ pattern.segments.length)
    (hlast : pattern.segments.getLast? = some (.wild stars)) (hopen : Text.closed stars = false)
    (hdouble : Text.Undoubled text) (hstand : Mask.SeparatorsStand text) (hname : name ≠ [])
    (hnameOpen : Text.closed name = false) (hnameDouble : Text.Undoubled name)
    (hbyte : ∀ c ∈ name.getLast?, c.utf8Size = 1) :
    test text (name ++ ['/']) = test text name ↔
      ¬ (FrontAgrees pattern.segments (Text.opened text) (Text.opened name) ∧
        Overreads (Text.names text) (Text.names name)) := by
  have hparts := @Segment.isName_of_names text
  have hnames := @Segment.isName_of_names name
  have hlaid := laid_of_many hread hdouble hmany
  have hreadable := Segment.readable_of_read (segments_of_read hread) hdouble hstand
  have hclosed : Text.closed text = false := by
    rw [← hlaid.closed_lastWild hparts hlast, hopen]
  rw [hclosed] at hlaid
  have hwild : pattern.segments.getLast?.any Segment.isWild = true := by rw [hlast]; rfl
  have hne : Text.names name ≠ [] := by
    intro hnil
    exact hname (Text.eq_nil_of_names hnameDouble hnameOpen hnil)
  have hwritten : name = Text.written (Text.opened name) false (Text.names name) := by
    rw [← hnameOpen, Text.written_names hnameDouble]
  have hwrittenClosed : name ++ ['/'] = Text.written (Text.opened name) true (Text.names name) := by
    rw [Text.written_true hne, ← hwritten]
  -- The open name: its last character is one byte, so the wildcard never looks
  -- inside it.
  obtain ⟨b, hb, hiff⟩ : Segment.Answers (Segment.matchMany name pattern.segments)
      (FrontAgrees pattern.segments (Text.opened text) (Text.opened name) ∧
        Splits (Text.names text) (Text.names name)) := by
    rcases hlaid.matchMany_toWild hmany hwild hreadable hparts hne hnames hwritten with
      h | ⟨-, c, hc, hbytes⟩
    · exact h.of_iff (and_congr_right fun _ => and_iff_right rfl)
    · rw [hbyte c hc] at hbytes
      exact absurd hbytes (by simp)
  obtain ⟨b', hb', hiff'⟩ := @Segment.Laid.matchMany_closedName _ (Text.opened name) _ _ _ hlaid hmany
    hwild hreadable hparts hne hnames
  rw [← hwrittenClosed] at hb'
  rw [test_eq_accepts hread, test_eq_accepts hread, accepts_of_many hmany (by simp),
    accepts_of_many hmany hname, hb, hb']
  refine ok_eq_ok_iff_not hiff hiff' ?_
  intro hsplits hover
  obtain ⟨before, last, stars', hsplit, hends, hplain, hstars⟩ := hlaid.exists_lastPlain hmany hwild
  rw [hsplit] at hsplits hover
  rw [Segment.overreads_iff hends hplain hstars] at hover
  exact hover.not_leavesWindow ((Segment.leavesWindow_iff hplain hstars).2 hsplits)

theorem test_trailing_iff_star :
    test "a/*/**".toList ("a".toList ++ ['/']) = test "a/*/**".toList "a".toList ↔
      ¬ (FrontAgrees [.literal "a/*/".toList 2, .wild "**".toList] (Text.opened "a/*/**".toList)
          (Text.opened "a".toList) ∧
        Overreads (Text.names "a/*/**".toList) (Text.names "a".toList)) := by
  have hread : read "a/*/**".toList =
      .ok ⟨"a/*/**".toList, [.literal "a/*/".toList 2, .wild "**".toList]⟩ := by decide +kernel
  have hbyte : ∀ c ∈ "a".toList.getLast?, c.utf8Size = 1 := by simp [Char.utf8Size]
  exact test_trailing_iff hread (by decide) rfl (by decide) (by decide) (by decide +kernel)
    (by decide) (by decide) (by decide) hbyte

/-- The star takes the empty text behind the separator, and without it there is
nothing to take. -/
theorem test_trailing_star :
    test "a/*/**".toList "a".toList = .ok false ∧ test "a/*/**".toList "a/".toList = .ok true := by
  have hread : read "a/*/**".toList =
      .ok ⟨"a/*/**".toList, [.literal "a/*/".toList 2, .wild "**".toList]⟩ := by decide +kernel
  -- The window runs to the end, over the empty component behind the separator.
  have hfirst : Window.first (Text.byteMarks "a/".toList) 0 2 = some ⟨0, 2, .finish⟩ := by
    decide +kernel
  have hparse : Mask.parse "a/*".toList = .ok [.char 'a', .char '/', .star] := by decide +kernel
  have haccepts : Mask.accepts [.char 'a', .char '/', .star] "a/".toList = true := by cbv
  obtain ⟨b, hanswer, hfits⟩ := @Segment.answers_of_cut "a/".toList "a/*/".toList "a/".toList _
    [.wild "**".toList] ⟨0, 2, .finish⟩ _ (by decide +kernel) hparse (by decide +kernel)
  rw [Mask.Fits, Mask.fits_of_parse hparse, haccepts] at hfits
  obtain rfl := hfits.2 rfl
  constructor
  · decide +kernel
  · rw [test_eq_accepts hread, accepts_of_many (by decide) (by decide),
      Segment.matchMany_literal_eq (by decide) hfirst hanswer, if_pos rfl]
    decide +kernel

end Pattern

end PathGlob
