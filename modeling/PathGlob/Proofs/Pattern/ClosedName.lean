/-
A closed name against a pattern that ends in an open wildcard.

A window of names is the same in a name with a closing separator and without
one. But behind that separator the scan counts one component more, which is
empty. When exactly one name is missing for the last literal in front of the
wildcard, its window runs over that component, the literal drops its own
separator because the window ran to the end, and a component such as `*` takes
the empty text. The name then matches although its names are too few
(`TakesEmpty`).

The literals before the last one keep their separators and are not taken in, and
the search goes on greedily as ever. So all that matters is how few names it can
leave behind for the last literal (`ToOpen.matchFrom`, `Laid.matchMany_closedName`).
-/
import PathGlob.Proofs.Pattern.Acceptance

set_option autoImplicit false

namespace PathGlob

namespace Segment

open Text (byteSize IsName)
open Window (closingOf)

/-! ## One name too few -/

/-- Every way to split names over the components in front leaves the last
literal too few of them, and some way leaves it all but one, with the empty text
taken for the missing one. -/
def TakesEmpty (before last names : List Text) : Prop :=
  Leads before (fun back => back ≠ [] ∧ List.Forall₂ Mask.Fits last (back ++ [[]])) names ∧
    ¬ Leads before (fun back => last.length ≤ back.length) names

/-- The names can be split over the components in front of the last literal and
over those of the literal, and the wildcard takes the rest. -/
def LeavesWindow (before last : List Text) : List Text → Prop :=
  Leads before fun back => ∃ window more, back = window ++ more ∧ List.Forall₂ Mask.Fits last window

section Parts

variable {before last stars names : List Text}

theorem leavesWindow_iff (hplain : IsPlain last) (hstars : IsWild stars) :
    LeavesWindow before last names ↔ Splits (before ++ (last ++ stars)) names := by
  rw [Splits.append_iff]
  refine exists_congr fun front => exists_congr fun back => ?_
  refine and_congr_right fun _ => and_congr_right fun _ => ?_
  rw [Splits.plain_append_iff hplain]
  constructor
  · rintro ⟨window, more, hback, hfits⟩
    exact ⟨window, more, hback, hfits, .of_isWild hstars more⟩
  · rintro ⟨window, more, hback, hfits, -⟩
    exact ⟨window, more, hback, hfits⟩

/-- With enough names left there is no missing one. -/
theorem TakesEmpty.not_leavesWindow (h : TakesEmpty before last names) :
    ¬ LeavesWindow before last names := by
  rintro ⟨front, _, hnames, hsplits, window, more, rfl, hfits⟩
  apply h.2
  refine ⟨front, window ++ more, hnames, hsplits, ?_⟩
  show last.length ≤ (window ++ more).length
  rw [List.length_append, ← hfits.length_eq]
  omega

/-- Behind stars alone any number of names can be left. -/
theorem takesEmpty_wild (hstars : IsWild stars) :
    TakesEmpty stars last names ↔ names ≠ [] ∧ List.Forall₂ Mask.Fits last (names ++ [[]]) := by
  rw [TakesEmpty, leads_wild hstars, leads_wild hstars]
  constructor
  · rintro ⟨⟨front, back, rfl, hback, hfits⟩, hfew⟩
    have hlen := hfits.length_eq
    rw [List.length_append, List.length_singleton] at hlen
    -- Any name in front could be left over as well, and then there are enough.
    have hfront : front = [] := by
      by_contra hne
      have hpos := List.length_pos_iff.2 hne
      apply hfew
      refine ⟨[], front ++ back, rfl, ?_⟩
      rw [List.length_append]
      omega
    subst hfront
    exact ⟨hback, hfits⟩
  · rintro ⟨hne, hfits⟩
    have hlen := hfits.length_eq
    rw [List.length_append, List.length_singleton] at hlen
    refine ⟨⟨[], names, rfl, hne, hfits⟩, ?_⟩
    rintro ⟨front, back, rfl, hle⟩
    rw [List.length_append] at hlen
    omega

end Parts

/-! ## The last wildcard -/

/-- An open wildcard lets anything be left, and in a closed name the byte it may
look back on is a separator. -/
theorem matchTail_closed {name pre rest stars : Text} (hopened : Text.opened stars = false)
    (hclosed : Text.closed stars = false) (hname : name = pre ++ rest)
    (hend : Text.closed name = true) : matchTail name stars (byteSize pre) = .ok true := by
  have hallows : ∀ t, allowsRest (Text.opened stars) (Text.closed stars) t = true := by
    intro t
    rw [allowsRest, hopened, hclosed]
    rfl
  by_cases hrest : rest = []
  · obtain ⟨init, rfl⟩ := Text.exists_of_closed hend
    rw [hrest, List.append_nil] at hname
    have hsize : byteSize (init ++ ['/']) = byteSize init + 1 := by
      rw [Text.byteSize_append]
      rfl
    have hcut := cutOut_end init ['/']
    rw [hsize] at hcut
    rw [matchTail, ← hname]
    dsimp only
    rw [if_pos (Nat.le_refl _), hsize]
    change (cutOut _ (byteSize init) _).bind _ = _
    rw [hcut]
    change Except.ok _ = _
    rw [hallows]
  · have hpos := Text.byteSize_pos hrest
    have hsize := Text.byteSize_append pre rest
    rw [matchTail, hname]
    dsimp only
    rw [if_neg (by omega)]
    change (cutOut _ _ _).bind _ = _
    rw [cutOut_end]
    change Except.ok _ = _
    rw [hallows]

/-! ## The last literal -/

section LastLiteral

variable {name pre wildcard : Text} {names plain stars : List Text}

/-- The names with the empty one behind the closing separator. -/
theorem spell_empty (hne : names ≠ []) : spell '/' true names = spell '/' false (names ++ [[]]) := by
  rw [spell_append, spell_singleton, spell_true hne]
  simp [spell_true hne]

/-- What the search leaves is passed by the wildcard. -/
theorem matchFrom_open {cursor stop : Nat} {rest pre' : Text} {width : Nat} {text : Text}
    (hstars : IsWild stars) (hparts : ∀ part ∈ stars, IsName part)
    (hsearch : searchWindows name text [.wild (Text.written false false stars)]
      (Window.all name cursor width) = .ok (some stop))
    (hstop : stop = byteSize pre') (hname : name = pre' ++ rest) (hend : Text.closed name = true) :
    matchFrom name cursor
      [.wild wildcard, .literal text width, .wild (Text.written false false stars)] = .ok true := by
  rw [matchFrom_of_some (by simp) hsearch, hstop]
  exact matchTail_closed (Text.opened_written hparts) (Text.closed_written hstars.1 hparts) hname hend

/-- A literal in front of an open wildcard, against a window that runs over all
names and the empty one behind them. -/
theorem fits_empty {front : Bool} {w : Window} (hplain : IsPlain plain) (hread : Readable plain)
    (hsep : ∀ part ∈ plain, '/' ∉ part) (hstars : IsWild stars)
    (hparts : ∀ part ∈ stars, IsName part) (hnames : ∀ n ∈ names, IsName n)
    (hlen : names.length + 1 = plain.length)
    (hcut : cutOut name w.lo w.hi = .ok (Text.written front false (names ++ [[]])))
    (hclosing : w.closing = .finish) :
    Answers
      (fitsWindow name (Text.written front true plain) [.wild (Text.written false false stars)] w)
      (List.Forall₂ Mask.Fits plain (names ++ [[]])) := by
  have hwords : ∀ word ∈ names ++ [[]], '/' ∉ word := by
    intro word hword
    rcases List.mem_append.1 hword with hword | hword
    · exact (hnames word hword).2
    · simp [List.mem_singleton.1 hword]
  have hopen : endsOpen [.wild (Text.written false false stars)] = true := by
    rw [endsOpen, Text.closed_written hstars.1 hparts]
    rfl
  have hcount : plain.length = (names ++ [[]]).length := by simp [← hlen]
  refine (fits_closed_literal hread hplain.1 hsep hwords hcount hcut hclosing).of_iff ?_
  exact and_iff_left (.inr hopen)

/-- The window over all names and the empty one behind them. -/
theorem matchFrom_empty (hplain : IsPlain plain) (hread : Readable plain)
    (hsep : ∀ part ∈ plain, '/' ∉ part) (hstars : IsWild stars)
    (hparts : ∀ part ∈ stars, IsName part) (hname : name = pre ++ spell '/' true names)
    (hnames : ∀ n ∈ names, IsName n) (hne : names ≠ []) (hlen : names.length + 1 = plain.length) :
    Answers
      (matchFrom name (byteSize pre) [.wild wildcard, .literal (spell '/' true plain) plain.length,
        .wild (Text.written false false stars)])
      (List.Forall₂ Mask.Fits plain (names ++ [[]])) := by
  have hend : Text.closed name = true := by
    rw [hname, Text.closed_append (Text.spell_ne_nil hne hnames), Text.closed_spell hne hnames]
  have hall := @Window.all_spell_beyond true names hne hnames pre 0
  rw [← hname, Nat.zero_add, hlen] at hall
  have hcut : cutOut name (byteSize pre) (byteSize name) =
      .ok (Text.written false false (names ++ [[]])) := by
    have hrest := cutOut_end pre (spell '/' true names)
    rwa [← hname, spell_empty hne] at hrest
  obtain ⟨b, hb, hfits⟩ := @fits_empty name names plain stars false
    ⟨byteSize pre, byteSize name, .finish⟩ hplain hread hsep hstars hparts hnames hlen hcut rfl
  have hsearch := searchWindows_cons ⟨byteSize pre, byteSize name, .finish⟩ [] hb
  refine ⟨b, ?_, hfits⟩
  cases b with
  | true =>
    rw [if_pos rfl] at hsearch
    exact @matchFrom_open name wildcard stars _ _ [] name _ _ hstars hparts (by rw [hall]; exact hsearch)
      rfl (List.append_nil name).symm hend
  | false =>
    rw [if_neg (by simp)] at hsearch
    exact matchFrom_of_none (by rw [hall]; exact hsearch)

/-- The windows over names alone. -/
theorem matchFrom_window (hplain : IsPlain plain) (hread : Readable plain)
    (hsep : ∀ part ∈ plain, '/' ∉ part) (hstars : IsWild stars)
    (hparts : ∀ part ∈ stars, IsName part) (hname : name = pre ++ spell '/' true names)
    (hnames : ∀ n ∈ names, IsName n) (hend : Text.closed name = true)
    (hlen : ¬ (names ≠ [] ∧ names.length + 1 = plain.length)) :
    Answers
      (matchFrom name (byteSize pre) [.wild wildcard, .literal (spell '/' true plain) plain.length,
        .wild (Text.written false false stars)])
      (∃ taken window more, names = taken ++ (window ++ more) ∧
        List.Forall₂ Mask.Fits plain window) := by
  have hwidth : 0 < plain.length := List.length_pos_iff.2 hplain.1
  rcases search_all (decides_middle hread hplain.1 hsep) hwidth hname hnames
    (fun _ hne hcount => absurd ⟨hne, hcount⟩ hlen) with
    ⟨hno, hanswer⟩ | ⟨taken, window, more, hfit, hanswer⟩
  · rw [matchFrom_of_none hanswer]
    refine answers_false ?_
    rintro ⟨taken, window, more, hsplit, hfits⟩
    exact hno taken window more hsplit hfits.length_eq.symm ⟨hfits, .inl rfl⟩
  · have hcut : name = pre ++ spell '/' (true || !more.isEmpty) (taken ++ window) ++
        spell '/' true more := by
      rw [hname, hfit.split, ← List.append_assoc, spell_append, List.append_assoc]
    refine ⟨true, matchFrom_open hstars hparts hanswer rfl hcut hend, ?_⟩
    exact iff_of_true rfl ⟨taken, window, more, hfit.split, hfit.fits.1⟩

/-- **The last literal** in front of an open wildcard, in a closed name. -/
theorem matchFrom_lastOpen (hplain : IsPlain plain) (hread : Readable plain)
    (hsep : ∀ part ∈ plain, '/' ∉ part) (hstars : IsWild stars)
    (hparts : ∀ part ∈ stars, IsName part) (hname : name = pre ++ spell '/' true names)
    (hnames : ∀ n ∈ names, IsName n) (hend : Text.closed name = true) {front : List Text}
    (hfront : IsWild front) :
    Answers
      (matchFrom name (byteSize pre) [.wild wildcard, .literal (spell '/' true plain) plain.length,
        .wild (Text.written false false stars)])
      (LeavesWindow front plain names ∨ TakesEmpty front plain names) := by
  rw [LeavesWindow, leads_wild hfront, takesEmpty_wild hfront]
  by_cases hlen : names ≠ [] ∧ names.length + 1 = plain.length
  · refine (matchFrom_empty hplain hread hsep hstars hparts hname hnames hlen.1 hlen.2).of_iff ?_
    constructor
    · intro hfits
      exact .inr ⟨hlen.1, hfits⟩
    · rintro (⟨taken, _, rfl, window, more, rfl, hfits⟩ | ⟨-, hfits⟩)
      · -- A window has as many names as the literal, and there are fewer.
        have hcount := hfits.length_eq
        have hfew := hlen.2
        simp only [List.length_append] at hfew
        omega
      · exact hfits
  · refine (matchFrom_window hplain hread hsep hstars hparts hname hnames hend hlen).of_iff ?_
    constructor
    · rintro ⟨taken, window, more, hsplit, hfits⟩
      exact .inl ⟨taken, window ++ more, hsplit, window, more, rfl, hfits⟩
    · rintro (⟨taken, _, hsplit, window, more, rfl, hfits⟩ | ⟨hne, hfits⟩)
      · exact ⟨taken, window, more, hsplit, hfits⟩
      · have hcount := hfits.length_eq
        rw [List.length_append, List.length_singleton] at hcount
        exact absurd ⟨hne, hcount.symm⟩ hlen

end LastLiteral

/-! ## From a wildcard on -/

/-- The segments from a wildcard up to an open wildcard at the end, with the
names before the last literal, those of the literal, and the stars behind it. -/
inductive ToOpen : Bool → List Segment → List Text → List Text → List Text → Prop
  | last {front : Bool} {stars plain stars' : List Text} : IsWild stars → IsPlain plain →
    IsWild stars' →
    ToOpen front
      [.wild (Text.written front true stars), .literal (spell '/' true plain) plain.length,
        .wild (Text.written false false stars')]
      stars plain stars'
  | more {front : Bool} {stars plain before last stars' : List Text} {segments : List Segment} :
    IsWild stars → IsPlain plain → ToOpen false segments before last stars' →
    ToOpen front
      (.wild (Text.written front true stars) :: .literal (spell '/' true plain) plain.length ::
        segments)
      (stars ++ (plain ++ before)) last stars'

section ToOpen

variable {front : Bool} {segments : List Segment} {names before last stars : List Text}

theorem ToOpen.ne_nil (h : ToOpen front segments before last stars) : segments ≠ [] := by
  cases h <;> simp

theorem ToOpen.endsOpen (h : ToOpen front segments before last stars) :
    endsOpen segments = false := by
  cases h <;> rfl

theorem ToOpen.exists_wild (h : ToOpen front segments before last stars) :
    ∃ first parts, IsWild first ∧ before = first ++ parts := by
  cases h with
  | last hfirst hplain hstars => exact ⟨_, [], hfirst, (List.append_nil _).symm⟩
  | more hfirst hplain h => exact ⟨_, _, hfirst, rfl⟩

theorem ToOpen.isPlain (h : ToOpen front segments before last stars) : IsPlain last := by
  induction h with
  | last hfirst hplain hstars => exact hplain
  | more hfirst hplain h ih => exact ih

theorem ToOpen.isWild (h : ToOpen front segments before last stars) : IsWild stars := by
  induction h with
  | last hfirst hplain hstars => exact hstars
  | more hfirst hplain h ih => exact ih

/-- Between two wildcards, one at each end, there is a last literal. -/
theorem FromWild.toOpen (h : FromWild false front segments names)
    (hmany : 2 ≤ segments.length) (hlast : segments.getLast?.any Segment.isWild = true) :
    ∃ before last stars, names = before ++ (last ++ stars) ∧
      ToOpen front segments before last stars := by
  induction h with
  | wild hstars => simp at hmany
  | literal hstars hplain => simp [Segment.isWild] at hlast
  | @more front stars plain names segments hstars hplain h ih =>
    rw [List.getLast?_cons_cons, List.getLast?_cons_of_ne_nil h.ne_nil] at hlast
    by_cases hfew : 2 ≤ segments.length
    · obtain ⟨before, last, stars', rfl, hto⟩ := ih hfew hlast
      exact ⟨_, last, stars', by simp only [List.append_assoc], .more hstars hplain hto⟩
    · cases h with
      | wild hstars' => exact ⟨_, _, _, rfl, .last hstars hplain hstars'⟩
      | literal hstars' hplain' => simp at hfew
      | more hstars' hplain' h => simp at hfew

/-- **From a wildcard on,** in a closed name. -/
theorem ToOpen.matchFrom (h : ToOpen front segments before last stars)
    (hread : Readable (before ++ last)) (hparts : ∀ part ∈ before ++ (last ++ stars), IsName part)
    {name pre : Text} (hname : name = pre ++ spell '/' true names)
    (hnames : ∀ n ∈ names, IsName n) (hend : Text.closed name = true) :
    Answers (Segment.matchFrom name (byteSize pre) segments)
      (LeavesWindow before last names ∨ TakesEmpty before last names) := by
  -- By induction on the segments. Each literal leaves the names behind its
  -- leftmost window, and what can be left of those can be left of all.
  induction h generalizing pre names with
  | @last front first plain stars hfirst hplain hstars =>
    obtain ⟨-, hpartsBehind⟩ := List.forall_mem_append.1 hparts
    obtain ⟨hpartsPlain, hpartsStars⟩ := List.forall_mem_append.1 hpartsBehind
    exact matchFrom_lastOpen hplain hread.right (fun part hpart => (hpartsPlain part hpart).2) hstars
      hpartsStars hname hnames hend hfirst
  | @more front first plain before last stars segments hfirst hplain hto ih =>
    simp only [List.append_assoc] at hread hparts
    obtain ⟨-, hpartsBehind⟩ := List.forall_mem_append.1 hparts
    obtain ⟨hpartsPlain, hpartsRest⟩ := List.forall_mem_append.1 hpartsBehind
    obtain ⟨first', parts, hfirst', rfl⟩ := hto.exists_wild
    have hmiddle : ∀ tail : List Text → Prop, Leads (first ++ (plain ++ (first' ++ parts))) tail names ↔ _ :=
      fun tail => leads_middle hfirst hplain
    have hwidth : 0 < last.length := List.length_pos_iff.2 hto.isPlain.1
    rcases matchFrom_middle hread.right.left hplain (fun part hpart => (hpartsPlain part hpart).2)
      hto.ne_nil (fun _ => hto.endsOpen) hname hnames with
      ⟨hno, hanswer⟩ | ⟨taken, window, after, pre', hfit, -, hname', hanswer⟩
    · rw [hanswer]
      have hnone : ∀ tail, ¬ Leads (first ++ (plain ++ (first' ++ parts))) tail names :=
        fun tail hleads => hno.greedy (fun _ => .inl rfl) ((hmiddle tail).1 hleads)
      exact answers_false fun h => h.elim (hnone _) fun h => hnone _ h.1
    · rw [hanswer]
      have hafter : ∀ n ∈ after, IsName n := fun n hn => hnames n (hfit.mem_after hn)
      have hgreedy : ∀ tail, Leads (first' ++ parts) tail after ↔
          Leads (first ++ (plain ++ (first' ++ parts))) tail names := by
        intro tail
        refine ((hmiddle tail).trans (hfit.greedy ?_ fun _ => .inl rfl)).symm
        exact fun skipped more hmore => hmore.prepend hfirst' skipped
      refine (ih hread.right.right hpartsRest hname' hafter).of_iff ?_
      rw [LeavesWindow, LeavesWindow, TakesEmpty, TakesEmpty, hgreedy, hgreedy, hgreedy]

end ToOpen

/-! ## A whole name -/

section Head

variable {lead : Bool} {segments : List Segment} {names plain before last stars : List Text}

theorem leads_none {tail : List Text → Prop} : Leads [] tail names ↔ tail names := by
  constructor
  · rintro ⟨front, back, rfl, hsplits, h⟩
    obtain rfl := Splits.nil_iff.1 hsplits
    exact h
  · intro h
    exact ⟨[], names, rfl, .done, h⟩

/-- A literal head with one name missing, against all names and the empty one
behind them. -/
theorem matchMany_empty (hplain : IsPlain plain) (hread : Readable plain)
    (hparts : ∀ part ∈ plain, IsName part) (hstars : IsWild stars)
    (hpartsStars : ∀ part ∈ stars, IsName part) (hne : names ≠ [])
    (hnames : ∀ n ∈ names, IsName n) (hlen : names.length + 1 = plain.length) :
    Answers
      (matchMany (Text.written lead true names)
        [.literal (Text.written lead true plain) plain.length,
          .wild (Text.written false false stars)])
      (List.Forall₂ Mask.Fits plain (names ++ [[]])) := by
  have hfront : Text.opened (Text.written lead true plain) = Text.opened (Text.written lead true names) := by
    rw [Text.opened_written hparts, Text.opened_written hnames]
  have hend : Text.closed (Text.written lead true names) = true := Text.closed_written hne hnames
  have hfirst := @first_written_beyond names true lead hne hnames 0
  rw [Nat.zero_add, hlen] at hfirst
  have hempty : Text.written lead true names = Text.written lead false (names ++ [[]]) := by
    rw [Text.written, Text.written, spell_empty hne]
  have hcut := cutOut_end [] (Text.written lead true names)
  rw [List.nil_append] at hcut
  nth_rewrite 3 [hempty] at hcut
  obtain ⟨b, hb, hfits⟩ := @fits_empty (Text.written lead true names) names plain stars lead
    ⟨0, byteSize (Text.written lead true names), .finish⟩ hplain hread
    (fun part hpart => (hparts part hpart).2) hstars hpartsStars hnames hlen hcut rfl
  refine ⟨b, ?_, hfits⟩
  rw [matchMany_literal_eq hfront hfirst hb]
  cases b with
  | true =>
    exact @matchTail_closed _ (Text.written lead true names) [] _ (Text.opened_written hpartsStars)
      (Text.closed_written hstars.1 hpartsStars) (List.append_nil _).symm hend
  | false => rfl

/-- **A literal head** in front of an open wildcard, in a closed name. -/
theorem matchMany_headOpen (hplain : IsPlain plain) (hread : Readable plain)
    (hparts : ∀ part ∈ plain, IsName part) (hstars : IsWild stars)
    (hpartsStars : ∀ part ∈ stars, IsName part) (hne : names ≠ [])
    (hnames : ∀ n ∈ names, IsName n) :
    Answers
      (matchMany (Text.written lead true names)
        [.literal (Text.written lead true plain) plain.length,
          .wild (Text.written false false stars)])
      (LeavesWindow [] plain names ∨ TakesEmpty [] plain names) := by
  have hend : Text.closed (Text.written lead true names) = true := Text.closed_written hne hnames
  rw [LeavesWindow, TakesEmpty, leads_none, leads_none, leads_none]
  by_cases hlen : names.length + 1 = plain.length
  · refine (matchMany_empty hplain hread hparts hstars hpartsStars hne hnames hlen).of_iff ?_
    constructor
    · intro hfits
      exact .inr ⟨⟨hne, hfits⟩, by omega⟩
    · rintro (⟨window, more, rfl, hfits⟩ | ⟨⟨-, hfits⟩, -⟩)
      · have hcount := hfits.length_eq
        rw [List.length_append] at hlen
        omega
      · exact hfits
  · have hnone : ¬ ((names ≠ [] ∧ List.Forall₂ Mask.Fits plain (names ++ [[]])) ∧
        ¬ plain.length ≤ names.length) := by
      rintro ⟨⟨-, hfits⟩, -⟩
      have hcount := hfits.length_eq
      rw [List.length_append, List.length_singleton] at hcount
      exact hlen hcount.symm
    rw [or_iff_left hnone]
    by_cases hle : plain.length ≤ names.length
    · obtain ⟨window, more, rfl, hwindow⟩ : ∃ window more, names = window ++ more ∧
          window.length = plain.length :=
        ⟨_, _, (List.take_append_drop plain.length names).symm, List.length_take_of_le hle⟩
      obtain ⟨htaken, hrefused⟩ := @matchMany_first _ [.wild (Text.written false false stars)] true lead
        plain window more hread hplain.1 hparts hnames hwindow rfl
      by_cases hfits : List.Forall₂ Mask.Fits plain window
      · rw [htaken ⟨hfits, .inl rfl⟩]
        refine ⟨true, ?_, iff_of_true rfl ⟨window, more, rfl, hfits⟩⟩
        exact matchTail_closed (Text.opened_written hpartsStars)
          (Text.closed_written hstars.1 hpartsStars) (Text.written_append ..) hend
      · rw [hrefused fun htakes => hfits htakes.1]
        refine answers_false ?_
        -- No other window begins where the name does.
        rintro ⟨window', more', hsplit, hfits'⟩
        obtain ⟨rfl, rfl⟩ := front_unique hsplit hwindow hfits'.length_eq.symm
        exact hfits hfits'
    · obtain ⟨extra, hextra⟩ : ∃ extra, plain.length = names.length + (extra + 1 + 1) :=
        ⟨plain.length - names.length - 2, by omega⟩
      have hfirst := @first_written_beyond names true lead hne hnames (extra + 1)
      rw [← hextra] at hfirst
      rw [matchMany_literal_none (by rw [Text.opened_written hparts, Text.opened_written hnames]) hfirst]
      refine answers_false ?_
      rintro ⟨window, more, rfl, hfits⟩
      have hcount := hfits.length_eq
      rw [List.length_append] at hle
      omega

/-- A literal head with more literals behind it. -/
theorem ToOpen.matchMany_head (hto : ToOpen false segments before last stars)
    (hplain : IsPlain plain) (hread : Readable (plain ++ (before ++ last)))
    (hparts : ∀ part ∈ plain ++ (before ++ (last ++ stars)), IsName part) (hne : names ≠ [])
    (hnames : ∀ n ∈ names, IsName n) :
    Answers
      (matchMany (Text.written lead true names)
        (.literal (Text.written lead true plain) plain.length :: segments))
      (LeavesWindow (plain ++ before) last names ∨ TakesEmpty (plain ++ before) last names) := by
  obtain ⟨hpartsPlain, hpartsRest⟩ := List.forall_mem_append.1 hparts
  have hend : Text.closed (Text.written lead true names) = true := Text.closed_written hne hnames
  have hcases := @Segment.matchMany_head (Text.written lead true names) names segments true lead
    plain hread.left hplain hpartsPlain (fun _ => hto.endsOpen) hne hnames rfl
  rcases hcases with ⟨hno, hanswer⟩ | ⟨window, more, pre, rfl, htakes, -, hname, hanswer⟩
  · rw [hanswer]
    have hnone : ∀ tail, ¬ Leads (plain ++ before) tail names :=
      fun tail => not_leads_head hplain hno fun _ => .inl rfl
    exact answers_false fun h => h.elim (hnone _) fun h => hnone _ h.1
  · rw [hanswer]
    have hmore := (List.forall_mem_append.1 hnames).2
    refine (hto.matchFrom hread.right hpartsRest hname hmore hend).of_iff ?_
    rw [LeavesWindow, LeavesWindow, TakesEmpty, TakesEmpty, leads_head hplain htakes.1,
      leads_head hplain htakes.1, leads_head hplain htakes.1]

end Head

/-! ## Where the last literal stands -/

/-- The components of the last literal in front of the stars at the end. -/
def lastPlain (parts : List Text) : List Text :=
  (parts.rdropWhile isStars).rtakeWhile (!isStars ·)

/-- The components in front of those. -/
def beforeLastPlain (parts : List Text) : List Text :=
  (parts.rdropWhile isStars).rdropWhile (!isStars ·)

/-- The name is matched with one name too few, the empty text taken for it. -/
def Overreads (parts names : List Text) : Prop :=
  TakesEmpty (beforeLastPlain parts) (lastPlain parts) names

/-- A run at the end of a list, cut off. -/
theorem cut_last_run {p : Text → Bool} {front run : List Text} (hrun : ∀ part ∈ run, p part = true)
    (hfront : front.getLast?.any p = false) :
    (front ++ run).rdropWhile p = front ∧ (front ++ run).rtakeWhile p = run := by
  induction run using List.reverseRecOn with
  | nil =>
    have hlast : ∀ hne : front ≠ [], ¬ p (front.getLast hne) = true := by
      intro hne
      rw [List.getLast?_eq_some_getLast hne, Option.any_some] at hfront
      simp [hfront]
    rw [List.append_nil]
    exact ⟨List.rdropWhile_eq_self_iff.2 hlast, List.rtakeWhile_eq_nil_iff.2 hlast⟩
  | append_singleton run part ih =>
    rw [List.forall_mem_append] at hrun
    have hpart := hrun.2 part (by simp)
    obtain ⟨hdrop, htake⟩ := ih hrun.1
    rw [← List.append_assoc, List.rdropWhile_concat_pos _ _ _ hpart,
      List.rtakeWhile_concat_pos _ _ _ hpart, hdrop, htake]
    exact ⟨rfl, rfl⟩

theorem overreads_iff {before last stars names : List Text} (hbefore : before.getLast?.all isStars = true)
    (hplain : IsPlain last) (hstars : IsWild stars) :
    Overreads (before ++ (last ++ stars)) names ↔ TakesEmpty before last names := by
  have hlast := hplain.last_isStars before
  have hruns := cut_last_run hstars.2 hlast
  have hplainRun : ∀ part ∈ last, (!isStars part) = true := fun part hpart => by simp [hplain.2 part hpart]
  have hfront : before.getLast?.any (!isStars ·) = false := by
    cases hb : before.getLast? with
    | none => rfl
    | some part => simpa [hb] using hbefore
  obtain ⟨hdrop, htake⟩ := cut_last_run hplainRun hfront
  rw [Overreads, beforeLastPlain, lastPlain, ← List.append_assoc, hruns.1, hdrop, htake]

theorem ToOpen.before_ne_nil {front : Bool} {segments : List Segment}
    {before last stars : List Text} (h : ToOpen front segments before last stars) : before ≠ [] := by
  obtain ⟨first, parts, hfirst, rfl⟩ := h.exists_wild
  simp [hfirst.1]

theorem ToOpen.before_ends {front : Bool} {segments : List Segment} {before last stars : List Text}
    (h : ToOpen front segments before last stars) : before.getLast?.all isStars = true := by
  induction h with
  | @last front first plain stars hfirst hplain hstars =>
    rw [List.getLast?_eq_some_getLast hfirst.1, Option.all_some]
    exact hfirst.2 _ (List.getLast_mem hfirst.1)
  | more hfirst hplain hto ih =>
    rwa [← List.append_assoc, List.getLast?_append_of_ne_nil _ hto.before_ne_nil]

/-- The last literal of two segments or more that end in a wildcard. -/
theorem Laid.exists_lastPlain {front : Bool} {segments : List Segment} {parts : List Text}
    (h : Laid false front segments parts) (hmany : 2 ≤ segments.length)
    (hlast : segments.getLast?.any isWild = true) :
    ∃ before last stars, parts = before ++ (last ++ stars) ∧
      before.getLast?.all isStars = true ∧ IsPlain last ∧ IsWild stars := by
  cases h with
  | literal hplain => simp at hmany
  | @head plain parts segments hplain h =>
    rw [List.getLast?_cons_of_ne_nil h.ne_nil] at hlast
    by_cases hfew : 2 ≤ segments.length
    · obtain ⟨before, last, stars, rfl, hto⟩ := h.toOpen hfew hlast
      refine ⟨plain ++ before, last, stars, (List.append_assoc ..).symm, ?_, hto.isPlain, hto.isWild⟩
      rw [List.getLast?_append_of_ne_nil _ hto.before_ne_nil]
      exact hto.before_ends
    · cases h with
      | wild hstars => exact ⟨[], plain, _, rfl, rfl, hplain, hstars⟩
      | literal hstars hplain' => simp at hfew
      | more hstars hplain' h => simp at hfew
  | tail h =>
    obtain ⟨before, last, stars, rfl, hto⟩ := h.toOpen hmany hlast
    exact ⟨before, last, stars, rfl, hto.before_ends, hto.isPlain, hto.isWild⟩

/-- **A closed name** against a pattern that ends in an open wildcard. -/
theorem Laid.matchMany_closedName {front lead : Bool} {segments : List Segment}
    {parts names : List Text} (h : Laid false front segments parts) (hmany : 2 ≤ segments.length)
    (hlast : segments.getLast?.any isWild = true) (hread : Readable parts)
    (hparts : ∀ part ∈ parts, IsName part) (hne : names ≠ []) (hnames : ∀ n ∈ names, IsName n) :
    Answers (matchMany (Text.written lead true names) segments)
      (FrontAgrees segments front lead ∧ (Splits parts names ∨ Overreads parts names)) := by
  have hopened : Text.opened (Text.written lead true names) = lead := Text.opened_written hnames
  cases h with
  | literal hplain => simp at hmany
  | @head plain parts segments hplain h =>
    rw [List.getLast?_cons_of_ne_nil h.ne_nil] at hlast
    rw [frontAgrees_literal]
    by_cases hagree : front = lead
    · subst hagree
      rw [and_iff_right rfl]
      by_cases hfew : 2 ≤ segments.length
      · obtain ⟨before, last, stars, rfl, hto⟩ := h.toOpen hfew hlast
        have hassoc : plain ++ (before ++ (last ++ stars)) = (plain ++ before) ++ (last ++ stars) :=
          (List.append_assoc ..).symm
        have hends : (plain ++ before).getLast?.all isStars = true := by
          rw [List.getLast?_append_of_ne_nil _ hto.before_ne_nil]
          exact hto.before_ends
        rw [hassoc, overreads_iff hends hto.isPlain hto.isWild,
          ← leavesWindow_iff hto.isPlain hto.isWild]
        refine hto.matchMany_head hplain ?_ hparts hne hnames
        rw [hassoc, ← List.append_assoc] at hread
        simpa only [List.append_assoc] using hread.left
      · cases h with
        | @wild _ stars hstars =>
          obtain ⟨hpartsPlain, hpartsStars⟩ := List.forall_mem_append.1 hparts
          have hcut := @leavesWindow_iff [] plain parts names hplain hstars
          have hover := @overreads_iff [] plain parts names rfl hplain hstars
          rw [List.nil_append] at hcut hover
          rw [← hcut, hover]
          exact matchMany_headOpen hplain hread.left hpartsPlain hstars hpartsStars hne hnames
        | literal hstars hplain' => simp at hfew
        | more hstars hplain' h => simp at hfew
    · rw [matchMany_literal_differs]
      · exact answers_false fun hboth => hagree hboth.1
      · rwa [Text.opened_written (List.forall_mem_append.1 hparts).1, hopened]
  | tail h =>
    obtain ⟨text, rest, hsegments, htext⟩ := h.exists_head hmany hparts
    obtain ⟨before, last, stars, rfl, hto⟩ := h.toOpen hmany hlast
    have hend : Text.closed (Text.written lead true names) = true := Text.closed_written hne hnames
    have hreadFront : Readable (before ++ last) := by
      rw [← List.append_assoc] at hread
      exact hread.left
    have hmatch := @ToOpen.matchFrom _ _ names _ _ _ hto hreadFront hparts _
      (if lead then ['/'] else []) rfl hnames hend
    rw [overreads_iff hto.before_ends hto.isPlain hto.isWild,
      ← leavesWindow_iff hto.isPlain hto.isWild]
    rw [hsegments] at hmatch ⊢
    rw [matchMany_wild htext hnames rfl, frontAgrees_wild]
    by_cases hagree : (front && !lead) = true
    · rw [if_pos hagree]
      exact answers_false fun hboth => hboth.1 hagree
    · rw [if_neg hagree]
      exact hmatch.of_iff (and_iff_right hagree).symm

end Segment

end PathGlob
