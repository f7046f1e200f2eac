/-
Where a match answers differently than the components of its pattern say.

A pattern is split over the names of a path component by component, but it is not
matched that way. The last literal of several segments is searched for, and the
search ends at the first window it fits, which need not be the last one
(`StopsSearch`). And a pattern that is one literal is one mask for the whole
path, where a class that takes a separator can take one for which the mask has
none (`Overruns`). Apart from these the match says what the components say
(`test_iff`), and where no class takes a separator there are none of them
(`not_stopsSearch_of_bars`, `not_overruns_of_bars`).
-/
import PathGlob.Proofs.Pattern.Acceptance

set_option autoImplicit false

namespace PathGlob

open Segment (FromWild Laid Readable StopsEarly isStars isWild)

namespace Segment

/-- The last of several segments is a literal that fits a window of the names
before the last one. -/
def StopsSearch (segments : List Segment) (parts names : List Text) : Prop :=
  2 ≤ segments.length ∧ ∃ last width, segments.getLast? = some (.literal last width) ∧
    StopsEarly (parts.rdrop width) last width names

/-- The only segment is a literal that fits the names written as one text, but
has not as many components. -/
def Overruns (segments : List Segment) (front : Bool) (names : List Text) : Prop :=
  ∃ text width, segments = [.literal text width] ∧
    Mask.Fits text (Text.written front false names) ∧ names.length ≠ width

section Shape

variable {closed front : Bool} {segments : List Segment} {parts names : List Text}

theorem FromWild.last_isStars (h : FromWild closed front segments parts) :
    parts.getLast?.any isStars = segments.getLast?.any isWild := by
  induction h with
  | wild hstars => exact hstars.last_isStars
  | literal hstars hplain => exact hplain.last_isStars _
  | @more front stars plain parts segments hstars hplain h ih =>
    rw [← List.append_assoc, List.getLast?_append_of_ne_nil _ h.names_ne_nil,
      List.getLast?_cons_cons, List.getLast?_cons_of_ne_nil h.ne_nil, ih]

/-- The last component is one of stars where the last segment is a wildcard. -/
theorem Laid.last_isStars (h : Laid closed front segments parts) :
    parts.getLast?.any isStars = segments.getLast?.any isWild := by
  cases h with
  | literal hplain =>
    have hlast := hplain.last_isStars []
    rwa [List.nil_append] at hlast
  | head hplain h =>
    rw [List.getLast?_append_of_ne_nil _ h.names_ne_nil,
      List.getLast?_cons_of_ne_nil h.ne_nil, h.last_isStars]
  | tail h => exact h.last_isStars

end Shape

end Segment

namespace Pattern

section Test

variable {text : Text} {segments : List Segment} {names : List Text}

/-- A name written from names ends as the last of them does. -/
theorem exists_name_of_last {front : Bool} {c : Char} (hne : names ≠ [])
    (hnames : ∀ n ∈ names, Text.IsName n)
    (h : (Text.written front false names).getLast? = some c) :
    ∃ n ∈ names, c ∈ n.getLast? := by
  obtain ⟨init, last, rfl⟩ := (List.eq_nil_or_concat' names).resolve_left hne
  have hlast : Text.IsName last := hnames last (by simp)
  rw [Text.written_append, spell_singleton, if_neg Bool.false_ne_true, List.append_nil,
    List.getLast?_append_of_ne_nil _ hlast.1] at h
  exact ⟨last, by simp, h⟩

/-- A mask that is a whole pattern. -/
theorem accepts_literal {literal name : Text} {width : Nat} :
    accepts ⟨text, [.literal literal width]⟩ name = .ok true ↔ Mask.Fits literal name := by
  change Except.mapError _ (Mask.fits literal name) = _ ↔ _
  rw [Mask.Fits, Segment.mapError_eq_ok]

/-- The empty pattern takes nothing but the empty name. -/
theorem not_accepts_nil {name : Text} (hname : name ≠ []) : accepts ⟨[], []⟩ name ≠ .ok true := by
  have hparse : Mask.parse [] = .ok [] := by cbv
  change Except.mapError _ (Mask.fits [] name) ≠ _
  rw [ne_eq, Segment.mapError_eq_ok, Mask.fits_of_parse hparse, Except.ok.injEq]
  intro haccepts
  exact hname (Mask.Derives.nil_iff.1 (Mask.derives_of_accepts haccepts))

section Laid

variable {front : Bool} {parts : List Text} (hlaid : Laid false front segments parts)
  (hread : Readable parts) (hparts : ∀ part ∈ parts, Text.IsName part) (hne : names ≠ [])
  (hnames : ∀ n ∈ names, Text.IsName n)

include hlaid hread hparts hne hnames

/-- One segment. -/
theorem accepts_single (hfew : ¬ 2 ≤ segments.length) :
    accepts ⟨text, segments⟩ (Text.written front false names) = .ok true ↔
      Splits parts names ∨ Segment.Overruns segments front names := by
  cases hlaid with
  | literal hplain =>
    have hsep : ∀ part ∈ parts, '/' ∉ part := fun part hpart => (hparts part hpart).2
    rw [accepts_literal, Splits.forall₂_iff hplain.2]
    -- The mask of the whole literal is the masks of its components only between
    -- as many names.
    by_cases hlen : names.length = parts.length
    · have hover : ¬ Segment.Overruns [.literal (Text.written front false parts) parts.length] front
          names := by
        rintro ⟨_, _, hsame, -, hdiffer⟩
        obtain ⟨-, rfl⟩ := Segment.literal.inj (List.cons.inj hsame).1
        exact hdiffer hlen
      obtain ⟨masks, hmasks⟩ := hread.readAs
      rw [or_iff_left hover]
      exact Mask.fits_written hmasks hsep (fun n hn => (hnames n hn).2) hlen.symm
    · rw [or_iff_right fun hfits => hlen hfits.length_eq.symm]
      constructor
      · intro hfits
        exact ⟨_, _, rfl, hfits, hlen⟩
      · rintro ⟨_, _, hsame, hfits, -⟩
        obtain ⟨rfl, -⟩ := Segment.literal.inj (List.cons.inj hsame).1
        exact hfits
  | head hplain h =>
    have hpos := List.length_pos_iff.2 h.ne_nil
    rw [List.length_cons] at hfew
    omega
  | tail h =>
    cases h with
    | wild hstars =>
      have hnonempty := @written_ne_nil front false names hne hnames
      have hallows : accepts ⟨text, [.wild (Text.written front false parts)]⟩
          (Text.written front false names) = .ok true := by
        change Except.ok (Segment.allowsRest _ _ _) = _
        rw [Text.opened_written hparts, Text.closed_written hstars.1 hparts, Segment.allowsRest,
          Text.opened_written hnames, List.isEmpty_eq_false_iff.2 hnonempty]
        cases front <;> rfl
      exact iff_of_true hallows (.inl (.of_isWild hstars names))
    | literal hstars hplain => simp at hfew
    | more hstars hplain h => simp at hfew

/-- Two segments or more. -/
theorem accepts_many (hmany : 2 ≤ segments.length)
    (hbytes : ∀ n ∈ names, ∀ c ∈ n.getLast?, c.utf8Size = 1) :
    accepts ⟨text, segments⟩ (Text.written front false names) = .ok true ↔
      Splits parts names ∧ ¬ Segment.StopsSearch segments parts names := by
  have hnonempty := @written_ne_nil front false names hne hnames
  have hfront : Segment.FrontAgrees segments front front := by
    rw [Segment.FrontAgrees]
    split
    · exact id
    · rfl
  rw [@accepts_of_many _ ⟨_, _⟩ hmany hnonempty]
  cases hlast : segments.getLast? with
  | none =>
    rw [List.getLast?_eq_none_iff] at hlast
    simp [hlast] at hmany
  | some segment =>
    cases segment with
    | wild stars =>
      have hwild : segments.getLast?.any isWild = true := by rw [hlast]; rfl
      have hstops : ¬ Segment.StopsSearch segments parts names := by
        rintro ⟨-, _, _, hliteral, -⟩
        rw [hlast] at hliteral
        simp at hliteral
      rw [and_iff_left hstops]
      rcases hlaid.matchMany_toWild hmany hwild hread hparts hne hnames rfl with h | ⟨-, c, hc, hlong⟩
      · rw [h.eq_true_iff, and_iff_right hfront, and_iff_right rfl]
      · -- Looking into the last character takes one of several bytes.
        obtain ⟨n, hn, hend⟩ := exists_name_of_last hne hnames hc
        have hone := hbytes n hn c hend
        omega
    | literal last width =>
      obtain ⟨before, lastParts, rfl, hplain, rfl, rfl⟩ := hlaid.exists_last hmany hlast
      have hsepLast : ∀ part ∈ lastParts, '/' ∉ part :=
        fun part hpart => (hparts part (List.mem_append_right _ hpart)).2
      -- The last segment is known, so the search can stop early only on it.
      have hstops : Segment.StopsSearch segments (before ++ lastParts) names ↔
          StopsEarly before (spell '/' false lastParts) lastParts.length names := by
        constructor
        · rintro ⟨-, _, _, hliteral, hearly⟩
          obtain ⟨rfl, rfl⟩ := Segment.literal.inj (Option.some.inj (hlast.symm.trans hliteral))
          rwa [Segment.rdrop_last] at hearly
        · intro hearly
          exact ⟨hmany, _, _, hlast, by rwa [Segment.rdrop_last]⟩
      have hmatch := @Segment.Laid.matchMany_toLiteral (Text.written front false names) _ _ false
        front front false before lastParts hlaid hmany hlast hread hparts id hne hnames rfl
      rw [hmatch.eq_true_iff, and_iff_right hfront, hstops,
        Segment.endsWith_iff_splits hplain hread.right hsepLast fun n hn => (hnames n hn).2]

end Laid

/-- **When a match is found.** A pattern that does not end with a separator
matches a name with the same separator in front when the names can be split over
its components, but for the two exceptions. -/
theorem test_iff (hread : Segment.read text = .ok segments) (hopen : Text.closed text = false)
    (hdouble : Text.Undoubled text) (hstand : Mask.SeparatorsStand text) (hne : names ≠ [])
    (hnames : ∀ n ∈ names, Text.IsName n)
    (hbytes : ∀ n ∈ names, ∀ c ∈ n.getLast?, c.utf8Size = 1) :
    test text (Text.written (Text.opened text) false names) = .ok true ↔
      (Splits (Text.names text) names ∧
        ¬ Segment.StopsSearch segments (Text.names text) names) ∨
      Segment.Overruns segments (Text.opened text) names := by
  have hnonempty := @written_ne_nil (Text.opened text) false names hne hnames
  rw [test_of_read hread]
  by_cases hpartsNe : Text.names text = []
  · -- Without names the pattern is empty, and matches only an empty name.
    obtain rfl := Text.eq_nil_of_names hdouble hopen hpartsNe
    obtain rfl := Segment.read_nil hread
    refine iff_of_false (not_accepts_nil hnonempty) ?_
    rintro (⟨hsplits, -⟩ | ⟨_, _, hsingle, -⟩)
    · rw [hpartsNe] at hsplits
      exact hne (Splits.nil_iff.1 hsplits)
    · simp at hsingle
  · have hparts := @Segment.isName_of_names text
    have hlaid := Segment.laid_of_read hread hdouble hpartsNe
    have hreadable := Segment.readable_of_read hread hdouble hstand
    rw [hopen] at hlaid
    by_cases hmany : 2 ≤ segments.length
    · have hover : ¬ Segment.Overruns segments (Text.opened text) names := by
        rintro ⟨_, _, rfl, -⟩
        simp at hmany
      rw [or_iff_left hover]
      exact accepts_many hlaid hreadable hparts hne hnames hmany hbytes
    · have hstops : ¬ Segment.StopsSearch segments (Text.names text) names := fun h => hmany h.1
      rw [and_iff_left hstops]
      exact accepts_single hlaid hreadable hparts hne hnames hmany

/-- What a literal overruns cannot be split over its components. -/
theorem not_splits_of_overruns {front : Bool} (hread : Segment.read text = .ok segments)
    (hopen : Text.closed text = false) (hdouble : Text.Undoubled text)
    (h : Segment.Overruns segments front names) : ¬ Splits (Text.names text) names := by
  obtain ⟨literal, width, rfl, -, hdiffer⟩ := h
  intro hsplits
  have hpartsNe := names_ne_nil_of_open hread hdouble hopen (by simp)
  obtain ⟨hsingle, hplain⟩ := (Segment.laid_of_read hread hdouble hpartsNe).eq_single (by simp) rfl
  obtain ⟨-, rfl⟩ := Segment.literal.inj (List.cons.inj hsingle).1
  exact hdiffer ((Splits.forall₂_iff hplain.2).1 hsplits).length_eq.symm

end Test

/-! ## Where no class takes a separator -/

section Bars

variable {text : Text} {segments : List Segment} {names : List Text}
  (hread : Segment.read text = .ok segments) (hopen : Text.closed text = false)
  (hdouble : Text.Undoubled text) (hstand : Mask.SeparatorsStand text)
  (hbars : ∀ mask, Mask.parse text = .ok mask → Mask.BarsSeparator mask)
  (hnames : ∀ n ∈ names, Text.IsName n)

include hread hopen hdouble hstand hbars hnames

theorem not_stopsSearch_of_bars : ¬ Segment.StopsSearch segments (Text.names text) names := by
  rintro ⟨hmany, last, width, hlast, hearly⟩
  have hparts := @Segment.isName_of_names text
  have hpartsNe := @names_ne_nil text ⟨text, segments⟩ hread hdouble hmany
  have hlaid := Segment.laid_of_read hread hdouble hpartsNe
  have hreadable := Segment.readable_of_read hread hdouble hstand
  rw [hopen] at hlaid
  obtain ⟨before, lastParts, hsplit, hplain, rfl, rfl⟩ := hlaid.exists_last hmany hlast
  rw [hsplit, Segment.rdrop_last] at hearly
  rw [hsplit] at hreadable hparts
  have hbarsLast := @Segment.bars_of_written before lastParts false (Text.opened text) hreadable
    (by rwa [← hsplit, ← hopen, Text.written_names hdouble])
  have hsepLast : ∀ part ∈ lastParts, '/' ∉ part :=
    fun part hpart => (hparts part (List.mem_append_right _ hpart)).2
  exact Segment.not_stopsEarly_of_bars hplain hreadable.right hsepLast
    (fun n hn => (hnames n hn).2) hbarsLast hearly

theorem not_overruns_of_bars (hne : names ≠ []) :
    ¬ Segment.Overruns segments (Text.opened text) names := by
  rintro ⟨literal, width, rfl, hfits, hdiffer⟩
  have hparts := @Segment.isName_of_names text
  have hwritten := Text.written_names hdouble
  rw [hopen] at hwritten
  have hpartsNe := names_ne_nil_of_open hread hdouble hopen (by simp)
  have hlaid := Segment.laid_of_read hread hdouble hpartsNe
  obtain ⟨hsingle, -⟩ := hlaid.eq_single (by simp) rfl
  rw [Text.written_names hdouble] at hsingle
  obtain ⟨rfl, rfl⟩ := Segment.literal.inj (List.cons.inj hsingle).1
  rw [← hwritten, Text.opened_written hparts] at hfits
  have hcount := Segment.length_eq_of_fits_written (Segment.readable_of_read hread hdouble hstand)
    (fun part hpart => (hparts part hpart).2) hpartsNe (fun n hn => (hnames n hn).2) hne
    (by rwa [hwritten]) hfits
  omega

end Bars

end Pattern

end PathGlob
