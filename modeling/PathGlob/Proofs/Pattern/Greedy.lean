/-
The match from a wildcard on.

Taking the first window that fits is right wherever a wildcard comes next. A
split that uses a later window leaves fewer names to the wildcard behind it, and
a wildcard that can take those can take more (`Splits.prepend`). So the split
with the leftmost window works if any does (`FirstFit.greedy`).

Behind the last literal there is no wildcard to take what is left. There the
first window that fits has to be the last one of the name, and a match that is
there can be missed. `StopsEarly` says when: the literal fits a window that a
separator closes and other names follow. A literal that ends with a separator
does so wherever it comes more than once. One that does not needs a class for
the separator of the window.
-/
import PathGlob.Proofs.Pattern.Search

set_option autoImplicit false

namespace PathGlob

/-- Names put in front are taken by a first component of stars. -/
theorem Splits.prepend {stars parts names : List Text} (hstars : IsWild stars)
    (h : Splits (stars ++ parts) names) (taken : List Text) :
    Splits (stars ++ parts) (taken ++ names) := by
  obtain ⟨first, more, rfl, hmore⟩ := (Splits.wild_append_iff hstars).1 h
  exact (Splits.wild_append_iff hstars).2 ⟨taken ++ first, more, by simp, hmore⟩

namespace Segment

open Text (byteSize IsName)
open Window (windowAt)

/-- The names can be split over some components with a rest for which `tail`
holds. -/
def Leads (before : List Text) (tail : List Text → Prop) (names : List Text) : Prop :=
  ∃ front back, names = front ++ back ∧ Splits before front ∧ tail back

/-- Behind the names for the components before it, the last literal fits all that
is left. -/
def EndsWith (before : List Text) (text : Text) (width : Nat) (closed : Bool) :
    List Text → Prop :=
  Leads before fun back => back.length = width ∧ Mask.Fits text (spell '/' closed back)

/-- Behind the names for the components before it, the last literal fits a window
that is followed by other names. -/
def StopsEarly (before : List Text) (text : Text) (width : Nat) : List Text → Prop :=
  Leads before fun back => ∃ window after, back = window ++ after ∧ after ≠ [] ∧
    window.length = width ∧ Mask.Fits text (spell '/' true window)

/-- The segments from a wildcard up to a last literal, with the names before the
literal and those of the literal. -/
inductive ToLiteral (closed : Bool) : Bool → List Segment → List Text → List Text → Prop
  | last {front : Bool} {stars plain : List Text} : IsWild stars → IsPlain plain →
    ToLiteral closed front
      [.wild (Text.written front true stars), .literal (spell '/' closed plain) plain.length]
      stars plain
  | more {front : Bool} {stars plain before last : List Text} {segments : List Segment} :
    IsWild stars → IsPlain plain → ToLiteral closed false segments before last →
    ToLiteral closed front
      (.wild (Text.written front true stars) :: .literal (spell '/' true plain) plain.length ::
        segments)
      (stars ++ (plain ++ before)) last

/-! ## What the segments are -/

section Shape

variable {closed front : Bool} {segments : List Segment} {names before last : List Text}

theorem ToLiteral.ne_nil (h : ToLiteral closed front segments before last) : segments ≠ [] := by
  cases h <;> simp

theorem ToLiteral.exists_wild (h : ToLiteral closed front segments before last) :
    ∃ stars parts, IsWild stars ∧ before = stars ++ parts := by
  cases h with
  | last hstars hplain => exact ⟨_, [], hstars, (List.append_nil _).symm⟩
  | more hstars hplain h => exact ⟨_, _, hstars, rfl⟩

theorem ToLiteral.isPlain (h : ToLiteral closed front segments before last) : IsPlain last := by
  induction h with
  | last hstars hplain => exact hplain
  | more hstars hplain h ih => exact ih

theorem ToLiteral.endsOpen (h : ToLiteral closed front segments before last) :
    endsOpen segments = false := by
  cases h <;> rfl

theorem ToLiteral.getLast? (h : ToLiteral closed front segments before last) :
    segments.getLast? = some (.literal (spell '/' closed last) last.length) := by
  induction h with
  | last hstars hplain => rfl
  | more hstars hplain h ih =>
    rw [List.getLast?_cons_cons, List.getLast?_cons_of_ne_nil h.ne_nil]
    exact ih

/-- When the last segment is a literal, there are segments up to it. -/
theorem FromWild.toLiteral {text : Text} {width : Nat} (h : FromWild closed front segments names)
    (hlast : segments.getLast? = some (.literal text width)) :
    ∃ before last, names = before ++ last ∧ ToLiteral closed front segments before last := by
  induction h with
  | wild hstars => simp at hlast
  | literal hstars hplain => exact ⟨_, _, rfl, .last hstars hplain⟩
  | more hstars hplain h ih =>
    rw [List.getLast?_cons_cons, List.getLast?_cons_of_ne_nil h.ne_nil] at hlast
    obtain ⟨before, last, rfl, hto⟩ := ih hlast
    exact ⟨_, last, by simp only [List.append_assoc], .more hstars hplain hto⟩

/-- A rest that takes no names at all is one open wildcard. -/
theorem FromWild.endsOpen_of_splits (h : FromWild false false segments names)
    (hnames : ∀ name ∈ names, IsName name) (hsplits : Splits names []) :
    endsOpen segments = true := by
  cases h with
  | wild hstars =>
    rw [Segment.endsOpen, Text.closed_written hstars.1 hnames]
    rfl
  -- A literal takes at least one name.
  | literal hstars hplain =>
    obtain ⟨taken, more, hnil, hmore⟩ := (Splits.wild_append_iff hstars).1 hsplits
    obtain ⟨-, rfl⟩ := List.append_eq_nil_iff.1 hnil.symm
    have hfits := (Splits.forall₂_iff hplain.2).1 hmore
    exact absurd (List.forall₂_nil_right_iff.1 hfits) hplain.1
  | more hstars hplain h =>
    obtain ⟨taken, more, hnil, hmore⟩ := (Splits.wild_append_iff hstars).1 hsplits
    obtain ⟨-, rfl⟩ := List.append_eq_nil_iff.1 hnil.symm
    obtain ⟨window, rest, hnil', hfits, -⟩ := (Splits.plain_append_iff hplain).1 hmore
    obtain ⟨rfl, -⟩ := List.append_eq_nil_iff.1 hnil'.symm
    exact absurd (List.forall₂_nil_right_iff.1 hfits) hplain.1

end Shape

/-! ## The leftmost window loses nothing -/

section Leads

variable {stars plain before names : List Text} {tail : List Text → Prop}

theorem leads_nil : Leads before (· = []) names ↔ Splits before names := by
  constructor
  · rintro ⟨front, back, rfl, hsplits, rfl⟩
    rwa [List.append_nil]
  · intro h
    exact ⟨names, [], (List.append_nil names).symm, h, rfl⟩

theorem leads_wild (hstars : IsWild stars) :
    Leads stars tail names ↔ ∃ front back, names = front ++ back ∧ tail back := by
  constructor
  · rintro ⟨front, back, hnames, -, h⟩
    exact ⟨front, back, hnames, h⟩
  · rintro ⟨front, back, hnames, h⟩
    exact ⟨front, back, hnames, .of_isWild hstars front, h⟩

/-- A literal in the middle takes a window, and what comes behind it the rest. -/
theorem leads_middle (hstars : IsWild stars) (hplain : IsPlain plain) :
    Leads (stars ++ (plain ++ before)) tail names ↔
      ∃ taken window more, names = taken ++ (window ++ more) ∧
        List.Forall₂ Mask.Fits plain window ∧ Leads before tail more := by
  constructor
  · rintro ⟨front, back, rfl, hsplits, h⟩
    obtain ⟨taken, more, rfl, hmore⟩ := (Splits.wild_append_iff hstars).1 hsplits
    obtain ⟨window, rest, rfl, hfits, hrest⟩ := (Splits.plain_append_iff hplain).1 hmore
    exact ⟨taken, window, rest ++ back, by simp, hfits, rest, back, rfl, hrest, h⟩
  · rintro ⟨taken, window, _, rfl, hfits, rest, back, rfl, hrest, h⟩
    refine ⟨taken ++ (window ++ rest), back, by simp, ?_, h⟩
    exact (Splits.wild_append_iff hstars).2 ⟨taken, window ++ rest, rfl,
      (Splits.plain_append_iff hplain).2 ⟨window, rest, rfl, hfits, hrest⟩⟩

theorem splits_middle (hstars : IsWild stars) (hplain : IsPlain plain) :
    Splits (stars ++ (plain ++ before)) names ↔
      ∃ taken window more, names = taken ++ (window ++ more) ∧
        List.Forall₂ Mask.Fits plain window ∧ Splits before more := by
  have h := @leads_middle stars plain before names (· = []) hstars hplain
  simpa only [leads_nil] using h

theorem Leads.prepend (hstars : IsWild stars) (h : Leads (stars ++ before) tail names)
    (taken : List Text) : Leads (stars ++ before) tail (taken ++ names) := by
  obtain ⟨front, back, rfl, hsplits, h⟩ := h
  exact ⟨taken ++ front, back, by simp, hsplits.prepend hstars taken, h⟩

end Leads

section Greedy

variable {closed : Bool} {rest : List Segment} {plain names : List Text}

/-- What windows a literal with segments behind it takes. -/
def takesMiddle (closed : Bool) (plain : List Text) (rest : List Segment)
    (window after : List Text) : Prop :=
  List.Forall₂ Mask.Fits plain window ∧
    ((closed || !after.isEmpty) = true ∨ endsOpen rest = true)

/-- What windows a last literal takes. -/
def takesLast (closed : Bool) (text : Text) (window after : List Text) : Prop :=
  Mask.Fits text (spell '/' (closed || !after.isEmpty) window)

theorem takesMiddle_of_fits {window after : List Text}
    (hfits : List.Forall₂ Mask.Fits plain window)
    (hend : after = [] → closed = true ∨ endsOpen rest = true) :
    takesMiddle closed plain rest window after := by
  refine ⟨hfits, ?_⟩
  by_cases hafter : after = []
  · rcases hend hafter with h | h
    · exact .inl (by rw [h, Bool.true_or])
    · exact .inr h
  · exact .inl (by simp [hafter])

variable {tail : List Text → Prop}

/-- **The greedy choice.** When more names in front do not hurt what comes
behind, a split with any window gives one with the leftmost window. -/
theorem FirstFit.greedy {before window after : List Text}
    (h : FirstFit (takesMiddle closed plain rest) plain.length names before window after)
    (hprepend : ∀ taken more : List Text, tail more → tail (taken ++ more))
    (hend : tail [] → closed = true ∨ endsOpen rest = true) :
    (∃ taken window' more, names = taken ++ (window' ++ more) ∧
      List.Forall₂ Mask.Fits plain window' ∧ tail more) ↔ tail after := by
  constructor
  · -- The window of the split is no further left than the leftmost one.
    rintro ⟨taken, window', more, hnames, hfits, htail⟩
    have htakes : takesMiddle closed plain rest window' more := by
      refine takesMiddle_of_fits hfits ?_
      rintro rfl
      exact hend htail
    have hlen := hfits.length_eq
    have hle := h.first taken window' more hnames hlen.symm htakes
    have hmore : more <:+ names := ⟨taken ++ window', by rw [hnames, List.append_assoc]⟩
    have hafter : after <:+ names := ⟨before ++ window, by rw [h.split, List.append_assoc]⟩
    -- The names behind the later window are the last of those behind the leftmost.
    have hcount := congrArg List.length (h.split.symm.trans hnames)
    have hwidth := h.length
    simp only [List.length_append] at hcount
    obtain ⟨skipped, rfl⟩ := List.suffix_of_suffix_length_le hmore hafter (by omega)
    exact hprepend skipped more htail
  · intro htail
    exact ⟨before, window, after, h.split, h.fits.1, htail⟩

theorem NoFit.greedy (h : NoFit (takesMiddle closed plain rest) plain.length names)
    (hend : tail [] → closed = true ∨ endsOpen rest = true) :
    ¬ ∃ taken window more, names = taken ++ (window ++ more) ∧
      List.Forall₂ Mask.Fits plain window ∧ tail more := by
  rintro ⟨taken, window, more, hnames, hfits, htail⟩
  refine h taken window more hnames hfits.length_eq.symm (takesMiddle_of_fits hfits ?_)
  rintro rfl
  exact hend htail

end Greedy

/-! ## One literal of a match -/

section Literal

variable {name pre text wildcard : Text} {rest : List Segment} {closed : Bool}
  {plain names : List Text}

theorem cut_windowAt {front back : List Text}
    (hname : name = pre ++ spell '/' closed (front ++ back)) :
    cutOut name (windowAt pre closed front back).lo (windowAt pre closed front back).hi =
      .ok (spell '/' (closed || !back.isEmpty) front) := by
  rw [hname, spell_append, ← List.append_assoc]
  exact cutOut_between ..

theorem decides_middle (hread : Readable plain) (hplain : plain ≠ [])
    (hsep : ∀ part ∈ plain, '/' ∉ part) :
    Decides name (spell '/' true plain) rest closed plain.length
      (takesMiddle closed plain rest) := by
  intro pre front back hname hlen hfront
  have hwords : ∀ word ∈ front, '/' ∉ word := fun word hword => (hfront word hword).2
  exact @fits_closed_literal _ _ _ false _ _ _ hread hplain hsep hwords hlen.symm
    (cut_windowAt hname) rfl

theorem decides_last {width : Nat} {mask : Mask} (hread : Mask.parse text = .ok mask) :
    Decides name text [] closed width (takesLast closed text) := by
  intro pre front back hname hlen hfront
  exact fits_last_literal hread (cut_windowAt hname)

/-- The window behind a closing separator does not fit a closed literal. -/
theorem beyond_not_fits (hread : Readable plain) (hsep : ∀ part ∈ plain, '/' ∉ part)
    (hopen : endsOpen rest = false) (hname : name = pre ++ spell '/' true names)
    (hnames : ∀ n ∈ names, IsName n) (hne : names ≠ []) (hlen : names.length + 1 = plain.length) :
    fitsWindow name (spell '/' true plain) rest ⟨byteSize pre, byteSize name, .finish⟩ =
      .ok false := by
  have hcut := cutOut_between pre (spell '/' true names) []
  rw [List.append_nil, ← hname] at hcut
  have hplain : plain ≠ [] := by
    rintro rfl
    simp at hlen
  exact @not_fits_closed _ _ _ false _ _ hread hplain hsep (fun n hn => (hnames n hn).2) hne
    (by omega) hopen hcut

theorem matchFrom_of_none {cursor width : Nat}
    (h : searchWindows name text rest (Window.all name cursor width) = .ok none) :
    matchFrom name cursor (.wild wildcard :: .literal text width :: rest) = .ok false := by
  rw [matchFrom, h]
  rfl

theorem matchFrom_of_some {cursor width stop : Nat} (hrest : rest ≠ [])
    (h : searchWindows name text rest (Window.all name cursor width) = .ok (some stop)) :
    matchFrom name cursor (.wild wildcard :: .literal text width :: rest) =
      matchFrom name stop rest := by
  rw [matchFrom, h]
  change (if rest.isEmpty then _ else _) = _
  rw [if_neg (by simpa using hrest)]

theorem matchFrom_of_last {cursor width stop : Nat}
    (h : searchWindows name text [] (Window.all name cursor width) = .ok (some stop)) :
    matchFrom name cursor [.wild wildcard, .literal text width] =
      .ok (decide (stop ≥ byteSize name)) := by
  rw [matchFrom, h]
  rfl

/-- A literal with segments behind it: the match goes on behind the leftmost
window. -/
theorem matchFrom_middle (hread : Readable plain) (hplain : IsPlain plain)
    (hsep : ∀ part ∈ plain, '/' ∉ part) (hrest : rest ≠ [])
    (hopen : closed = true → endsOpen rest = false) (hname : name = pre ++ spell '/' closed names)
    (hnames : ∀ n ∈ names, IsName n) :
    (NoFit (takesMiddle closed plain rest) plain.length names ∧
      matchFrom name (byteSize pre)
        (.wild wildcard :: .literal (spell '/' true plain) plain.length :: rest) = .ok false) ∨
    ∃ before window after pre',
      FirstFit (takesMiddle closed plain rest) plain.length names before window after ∧
      pre' = pre ++ spell '/' (closed || !after.isEmpty) (before ++ window) ∧
      name = pre' ++ spell '/' closed after ∧
      matchFrom name (byteSize pre)
        (.wild wildcard :: .literal (spell '/' true plain) plain.length :: rest) =
        matchFrom name (byteSize pre') rest := by
  have hwidth : 0 < plain.length := List.length_pos_iff.2 hplain.1
  have hbeyond : closed = true → names ≠ [] → names.length + 1 = plain.length →
      fitsWindow name (spell '/' true plain) rest ⟨byteSize pre, byteSize name, .finish⟩ =
        .ok false := by
    rintro rfl hne hlen
    exact beyond_not_fits hread hsep (hopen rfl) hname hnames hne hlen
  rcases search_all (decides_middle hread hplain.1 hsep) hwidth hname hnames hbeyond with
    ⟨hno, hanswer⟩ | ⟨before, window, after, hfit, hanswer⟩
  · exact .inl ⟨hno, matchFrom_of_none hanswer⟩
  · refine .inr ⟨before, window, after, _, hfit, rfl, ?_, matchFrom_of_some hrest hanswer⟩
    rw [hname, hfit.split, ← List.append_assoc, spell_append, List.append_assoc]

end Literal

end Segment

end PathGlob
