/-
One window of a name against one literal.

The cuts made for a window never fail: a window of names begins and ends between
characters (`cutOut_between`), and the separator a literal may drop is its last
byte (`dropLastByte_close`). What is left is whether the masks fit the names.

There are two kinds of literal. A literal with a wildcard behind it is closed by
a separator, so it fits a window component by component, and a window that is
not closed only when the wildcard lets it drop the separator
(`fits_closed_literal`). The last literal of a pattern drops nothing, and is held
against the window as it is (`fits_last_literal`).
-/
import PathGlob.Pattern.Matching
import PathGlob.Proofs.Pattern.Layout
import PathGlob.Proofs.Window.Sliding

set_option autoImplicit false

namespace PathGlob

namespace Segment

open Text (byteSize IsName)
open Window (closingOf)

/-- The match has an answer, and it is yes exactly when `p` holds. -/
def Answers (result : Except MatchFault Bool) (p : Prop) : Prop :=
  ∃ b, result = .ok b ∧ (b = true ↔ p)

theorem Answers.of_iff {result : Except MatchFault Bool} {p q : Prop} (h : Answers result p)
    (hiff : p ↔ q) : Answers result q := by
  obtain ⟨b, hb, hp⟩ := h
  exact ⟨b, hb, hp.trans hiff⟩

theorem Answers.eq_true_iff {result : Except MatchFault Bool} {p : Prop} (h : Answers result p) :
    result = .ok true ↔ p := by
  obtain ⟨b, rfl, hp⟩ := h
  rw [Except.ok.injEq, hp]

theorem answers_false {p : Prop} (h : ¬ p) : Answers (.ok false) p := ⟨false, rfl, by simp [h]⟩

theorem mapError_eq_ok {ε ε' α : Type} {result : Except ε α} {f : ε → ε'} {a : α} :
    result.mapError f = .ok a ↔ result = .ok a := by
  cases result <;> simp [Except.mapError]

/-- Each of these components is a mask. -/
def Readable (parts : List Text) : Prop := ∀ part ∈ parts, ∃ mask, Mask.parse part = .ok mask

theorem Readable.readAs {parts : List Text} (h : Readable parts) : ∃ masks, Mask.ReadAs parts masks := by
  induction parts with
  | nil => exact ⟨[], .nil⟩
  | cons part rest ih =>
    obtain ⟨mask, hmask⟩ := h part (by simp)
    obtain ⟨masks, hmasks⟩ := ih fun p hp => h p (List.mem_cons_of_mem _ hp)
    exact ⟨mask :: masks, .cons hmask hmasks⟩

theorem Readable.of_readAs {parts : List Text} {masks : List Mask} (h : Mask.ReadAs parts masks) :
    Readable parts := by
  induction h with
  | nil => simp [Readable]
  | @cons part mask parts masks hpart hparts ih =>
    rintro other hother
    rcases List.mem_cons.1 hother with rfl | hother
    · exact ⟨mask, hpart⟩
    · exact ih other hother

theorem Readable.left {front back : List Text} (h : Readable (front ++ back)) : Readable front :=
  fun part hpart => h part (List.mem_append_left _ hpart)

theorem Readable.right {front back : List Text} (h : Readable (front ++ back)) : Readable back :=
  fun part hpart => h part (List.mem_append_right _ hpart)

/-! ## Cuts -/

theorem cutOut_between (a part c : Text) :
    cutOut (a ++ part ++ c) (byteSize a) (byteSize (a ++ part)) = .ok part := by
  rw [cutOut, Text.slice_append]

/-- A separator is the last byte of a text that it closes. -/
theorem dropLastByte_close (text : Text) : dropLastByte (text ++ ['/']) = .ok text := by
  have hsize : byteSize (text ++ ['/']) = byteSize text + 1 := by
    rw [Text.byteSize_append]
    rfl
  have hcut := cutOut_between [] text ['/']
  rw [List.nil_append] at hcut
  rw [dropLastByte, hsize]
  exact hcut

/-! ## Windows -/

/-- Unless an open wildcard ends the pattern, all of the literal is asked for. -/
theorem windowText_whole {rest : List Segment} (hopen : endsOpen rest = false) (text : Text)
    (closing : Closing) : windowText text rest closing = .ok text := by
  rw [windowText.eq_def]
  cases closing <;> simp [hopen]

/-- If one does, a window that ends the name is asked for no closing separator. -/
theorem windowText_dropped {rest : List Segment} (hopen : endsOpen rest = true) (text : Text) :
    windowText (text ++ ['/']) rest .finish = .ok text := by
  rw [← dropLastByte_close, windowText.eq_def]
  simp [hopen]

/-- A window is decided by what it is compared with and the part of the name it
covers. -/
theorem fitsWindow_of_cut {name text part mask : Text} {rest : List Segment} {w : Window}
    (hmask : windowText text rest w.closing = .ok mask) (hcut : cutOut name w.lo w.hi = .ok part) :
    fitsWindow name text rest w = (Mask.fits mask part).mapError .malformed := by
  rw [fitsWindow, hmask]
  change (cutOut name w.lo w.hi).bind _ = _
  rw [hcut]
  rfl

theorem answers_of_cut {name text part mask : Text} {rest : List Segment} {w : Window}
    {items : Mask} (hmask : windowText text rest w.closing = .ok mask)
    (hparse : Mask.parse mask = .ok items) (hcut : cutOut name w.lo w.hi = .ok part) :
    Answers (fitsWindow name text rest w) (Mask.Fits mask part) := by
  rw [fitsWindow_of_cut hmask hcut, Mask.Fits, Mask.fits_of_parse hparse]
  exact ⟨Mask.accepts items part, rfl, by rw [Except.ok.injEq]⟩

/-- **A literal with a wildcard behind it** fits a window component by component.
If no separator closes the window, the wildcard has to be an open one at the end
of the pattern. -/
theorem fits_closed_literal {name : Text} {rest : List Segment} {w : Window} {front closed : Bool}
    {plain words : List Text} (hread : Readable plain) (hplain : plain ≠ [])
    (hsep : ∀ part ∈ plain, '/' ∉ part) (hwords : ∀ word ∈ words, '/' ∉ word)
    (hlen : plain.length = words.length)
    (hcut : cutOut name w.lo w.hi = .ok (Text.written front closed words))
    (hclosing : w.closing = closingOf closed) :
    Answers (fitsWindow name (Text.written front true plain) rest w)
      (List.Forall₂ Mask.Fits plain words ∧ (closed = true ∨ endsOpen rest = true)) := by
  obtain ⟨masks, hmasks⟩ := hread.readAs
  have hwordsNe : words ≠ [] := by
    intro hnil
    rw [hnil] at hlen
    exact hplain (List.length_eq_zero_iff.1 hlen)
  cases closed with
  | true =>
    have hmask : windowText (Text.written front true plain) rest w.closing =
        .ok (Text.written front true plain) := by
      rw [hclosing]
      rfl
    refine (answers_of_cut hmask (Mask.parse_written hmasks) hcut).of_iff ?_
    rw [Mask.fits_written hmasks hsep hwords hlen]
    simp
  | false =>
    cases hopen : endsOpen rest with
    | true =>
      -- The separator is dropped, and mask and window are both open.
      have hmask : windowText (Text.written front true plain) rest w.closing =
          .ok (Text.written front false plain) := by
        rw [hclosing, Text.written_true hplain]
        exact windowText_dropped hopen _
      refine (answers_of_cut hmask (Mask.parse_written hmasks) hcut).of_iff ?_
      rw [Mask.fits_written hmasks hsep hwords hlen]
      simp
    | false =>
      -- The separator is asked for, and the window has none for it.
      have hmask := windowText_whole hopen (Text.written front true plain) w.closing
      have hnot : ¬ Mask.Fits (Text.written front true plain) (Text.written front false words) := by
        refine Mask.not_fits_of_count_lt hmasks hplain hsep ?_
        have htext := @Mask.count_written front true plain hplain hsep
        have hname := @Mask.count_written front false words hwordsNe hwords
        rw [if_pos rfl] at htext
        rw [if_neg (by simp : ¬ false = true)] at hname
        omega
      refine (answers_of_cut hmask (Mask.parse_written hmasks) hcut).of_iff ?_
      simp [hnot]

/-- **The last literal** is held against a window as it is. -/
theorem fits_last_literal {name text part : Text} {w : Window} {mask : Mask}
    (hread : Mask.parse text = .ok mask) (hcut : cutOut name w.lo w.hi = .ok part) :
    Answers (fitsWindow name text [] w) (Mask.Fits text part) :=
  answers_of_cut (windowText_whole rfl text w.closing) hread hcut

/-- A literal that spells out more separators than a window has does not fit
it. -/
theorem not_fits_closed {name : Text} {rest : List Segment} {w : Window} {front : Bool}
    {plain words : List Text} (hread : Readable plain) (hplain : plain ≠ [])
    (hsep : ∀ part ∈ plain, '/' ∉ part) (hwords : ∀ word ∈ words, '/' ∉ word)
    (hwordsNe : words ≠ []) (hlen : words.length < plain.length) (hopen : endsOpen rest = false)
    (hcut : cutOut name w.lo w.hi = .ok (Text.written front true words)) :
    fitsWindow name (Text.written front true plain) rest w = .ok false := by
  obtain ⟨masks, hmasks⟩ := hread.readAs
  have hmask := windowText_whole hopen (Text.written front true plain) w.closing
  obtain ⟨b, hb, hfits⟩ := answers_of_cut hmask (Mask.parse_written hmasks) hcut
  have hnot : ¬ Mask.Fits (Text.written front true plain) (Text.written front true words) := by
    refine Mask.not_fits_of_count_lt hmasks hplain hsep ?_
    have htext := @Mask.count_written front true plain hplain hsep
    have hname := @Mask.count_written front true words hwordsNe hwords
    omega
  rw [hb, Bool.eq_false_iff.2 (mt hfits.1 hnot)]

end Segment

end PathGlob
