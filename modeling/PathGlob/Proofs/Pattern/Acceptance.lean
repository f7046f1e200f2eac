/-
When a pattern matches a name, said of their components.

The statements are about patterns that double no separator and hold none inside
a class or behind a backslash, so that the text between separators is what a
component is. Of the name it is asked that it doubles no separator either.

With two segments or more a match means that the names can be split over the
components of the pattern (`accepts_iff_splits`). No class may take a separator,
since a class that does makes a last literal fit windows with more separators
than the literal spells out.
-/
import PathGlob.Proofs.Pattern.Closing
import PathGlob.Proofs.Pattern.Whole

set_option autoImplicit false

namespace PathGlob

namespace Segment

open Text (IsName)

/-! ## The last literal -/

section LastLiteral

variable {before last names : List Text} {closed : Bool}

/-- With the bounding separators of the literal, ending as it asks is splitting
over its components as well. -/
theorem endsWith_iff_splits (hlast : IsPlain last) (hread : Readable last)
    (hsep : ∀ part ∈ last, '/' ∉ part) (hnames : ∀ n ∈ names, '/' ∉ n) :
    EndsWith before (spell '/' closed last) last.length closed names ↔
      Splits (before ++ last) names := by
  obtain ⟨masks, hmasks⟩ := hread.readAs
  rw [Splits.append_iff]
  have hfits : ∀ back : List Text, (∀ n ∈ back, '/' ∉ n) →
      (back.length = last.length ∧ Mask.Fits (spell '/' closed last) (spell '/' closed back) ↔
        Splits last back) := by
    intro back hback
    rw [Splits.forall₂_iff hlast.2]
    constructor
    · rintro ⟨hlen, h⟩
      exact (@Mask.fits_written false closed _ _ _ hmasks hsep hback hlen.symm).1 h
    · intro h
      have hlen := h.length_eq
      exact ⟨hlen.symm, (@Mask.fits_written false closed _ _ _ hmasks hsep hback hlen).2 h⟩
  constructor
  · rintro ⟨front, back, rfl, hsplits, h⟩
    exact ⟨front, back, rfl, hsplits,
      (hfits back fun n hn => hnames n (List.mem_append_right _ hn)).1 h⟩
  · rintro ⟨front, back, rfl, hsplits, h⟩
    exact ⟨front, back, rfl, hsplits,
      (hfits back fun n hn => hnames n (List.mem_append_right _ hn)).2 h⟩

/-- A literal that ends with a separator finds none at the end of an open
name. -/
theorem not_endsWith_open (hlast : IsPlain last) (hread : Readable last)
    (hsep : ∀ part ∈ last, '/' ∉ part) (hnames : ∀ n ∈ names, '/' ∉ n) :
    ¬ EndsWith before (spell '/' true last) last.length false names := by
  rintro ⟨front, back, rfl, -, hlen, hfits⟩
  obtain ⟨masks, hmasks⟩ := hread.readAs
  have hback : back ≠ [] := by
    rintro rfl
    exact hlast.1 (List.length_eq_zero_iff.1 hlen.symm)
  have htext := @count_spell _ '/' true _ last hlast.1 hsep
  have hname := @count_spell _ '/' false _ back hback
    fun n hn => hnames n (List.mem_append_right _ hn)
  rw [if_pos rfl] at htext
  rw [if_neg (by simp)] at hname
  refine @Mask.not_fits_of_count_lt false true _ _ hmasks hlast.1 hsep _ ?_ hfits
  rw [Text.written_false]
  omega

/-- When no class takes a separator, an open literal does not fit a window that a
separator closes. -/
theorem not_stopsEarly_of_bars (hlast : IsPlain last) (hread : Readable last)
    (hsep : ∀ part ∈ last, '/' ∉ part) (hnames : ∀ n ∈ names, '/' ∉ n)
    (hbars : ∀ mask, Mask.parse (spell '/' false last) = .ok mask → Mask.BarsSeparator mask) :
    ¬ StopsEarly before (spell '/' false last) last.length names := by
  rintro ⟨front, _, rfl, -, window, after, rfl, -, hlen, hfits⟩
  obtain ⟨masks, hmasks⟩ := hread.readAs
  have hparse := @Mask.parse_spell false _ _ hmasks
  have hwindow : window ≠ [] := by
    rintro rfl
    exact hlast.1 (List.length_eq_zero_iff.1 hlen.symm)
  have hmask := @Mask.count_mask_written false false _ _ hmasks hlast.1 hsep
  have htext := @count_spell _ '/' false _ last hlast.1 hsep
  have hname := @count_spell _ '/' true _ window hwindow
    fun n hn => hnames n (List.mem_append_right _ (List.mem_append_left _ hn))
  rw [if_neg (by simp), List.nil_append, Text.written_false] at hmask
  rw [Mask.Fits, Mask.fits_of_parse hparse, Except.ok.injEq,
    Mask.accepts_iff_derives_of_barsSeparator (hbars _ hparse)] at hfits
  -- The window has a separator more than the literal spells out.
  have hcount := hfits.count_eq
  rw [if_neg (by simp)] at htext
  rw [if_pos rfl] at hname
  omega

/-- What a text bars, its end does. -/
theorem bars_of_written {front : Bool} (hread : Readable (before ++ last))
    (hbars : ∀ mask, Mask.parse (Text.written front closed (before ++ last)) = .ok mask →
      Mask.BarsSeparator mask) :
    ∀ mask, Mask.parse (spell '/' closed last) = .ok mask → Mask.BarsSeparator mask := by
  intro mask hmask item hitem
  obtain ⟨masks, hmasks⟩ := hread.left.readAs
  have hfront := @Mask.parse_written front (closed || !last.isEmpty) _ _ hmasks
  have hall := Mask.parse_append_ok hfront hmask
  rw [← Text.written_append] at hall
  exact hbars _ hall item (List.mem_append_right _ hitem)

end LastLiteral

/-! ## One literal -/

/-- A mask that no class opens takes as many separators as it spells out. -/
theorem length_eq_of_fits_written {front lead : Bool} {parts names : List Text}
    (hread : Readable parts) (hparts : ∀ part ∈ parts, '/' ∉ part) (hne : parts ≠ [])
    (hnames : ∀ n ∈ names, '/' ∉ n) (hnamesNe : names ≠ [])
    (hbars : ∀ mask, Mask.parse (Text.written front false parts) = .ok mask → Mask.BarsSeparator mask)
    (hfits : Mask.Fits (Text.written front false parts) (Text.written lead false names)) :
    (if lead then 1 else 0) + names.length = (if front then 1 else 0) + parts.length := by
  obtain ⟨masks, hmasks⟩ := hread.readAs
  have hparse := @Mask.parse_written front false _ _ hmasks
  rw [Mask.Fits, Mask.fits_of_parse hparse, Except.ok.injEq,
    Mask.accepts_iff_derives_of_barsSeparator (hbars _ hparse)] at hfits
  have hcount := hfits.count_eq
  rw [Mask.count_mask_written hmasks hne hparts] at hcount
  have htext := @Mask.count_written front false parts hne hparts
  have hname := @Mask.count_written lead false names hnamesNe hnames
  simp only [Bool.false_eq_true, if_false, Nat.add_zero] at htext hname
  omega

end Segment

open Segment (StopsEarly FrontAgrees EndsWith Answers AnswersOrCuts Readable)

namespace Pattern

variable {text name : Text} {pattern : Pattern}

/-! ## From a pattern to its segments -/

theorem segments_of_read (h : read text = .ok pattern) : Segment.read text = .ok pattern.segments := by
  rw [read] at h
  cases hsegments : Segment.read text with
  | error e => rw [hsegments] at h; simp [Except.map] at h
  | ok segments =>
    rw [hsegments, Except.map, Except.ok.injEq] at h
    rw [← h]

theorem test_of_read {segments : List Segment} (h : Segment.read text = .ok segments) (name : Text) :
    test text name = accepts ⟨text, segments⟩ name := by
  rw [test, read, h]
  rfl

theorem test_eq_accepts (h : read text = .ok pattern) (name : Text) :
    test text name = pattern.accepts name := by
  rw [test, h]
  rfl

theorem accepts_of_many (hmany : 2 ≤ pattern.segments.length) (hname : name ≠ []) :
    pattern.accepts name = Segment.matchMany name pattern.segments := by
  obtain ⟨text, segments⟩ := pattern
  match segments, hmany with
  | first :: second :: rest, _ =>
    have hnonempty : ¬ name.isEmpty = true := by simpa using hname
    cases first <;> exact if_neg hnonempty

theorem accepts_of_literal {literal : Text} {width : Nat} {mask : Mask}
    (h : Mask.parse literal = .ok mask) (name : Text) :
    accepts ⟨text, [.literal literal width]⟩ name = .ok (Mask.accepts mask name) := by
  change Except.mapError _ (Mask.fits literal name) = _
  rw [Mask.fits_of_parse h]
  rfl

/-- A pattern of two segments or more has names. -/
theorem names_ne_nil (h : Segment.read text = .ok pattern.segments)
    (hdouble : Text.Undoubled text) (hmany : 2 ≤ pattern.segments.length) :
    Text.names text ≠ [] := by
  intro hnil
  rw [(Segment.read_eq_ok.1 h).1] at hmany
  rcases (Text.names_eq_nil hdouble).1 hnil with rfl | rfl
  · have hsegments : Segment.ofPattern [] = [] := by decide
    simp [hsegments] at hmany
  · have hsegments : Segment.ofPattern ['/'] = [.literal ['/'] 0] := by decide
    simp [hsegments] at hmany

/-- So has an open pattern of any segments. -/
theorem names_ne_nil_of_open {segments : List Segment} (h : Segment.read text = .ok segments)
    (hdouble : Text.Undoubled text) (hopen : Text.closed text = false) (hne : segments ≠ []) :
    Text.names text ≠ [] := by
  intro hnil
  obtain rfl := Text.eq_nil_of_names hdouble hopen hnil
  exact hne (Segment.read_nil h)

theorem written_ne_nil {lead closed : Bool} {names : List Text} (hne : names ≠ [])
    (hnames : ∀ n ∈ names, Text.IsName n) : Text.written lead closed names ≠ [] := by
  have hspell := @Text.spell_ne_nil closed names hne hnames
  simp [Text.written, hspell]

/-- What a pattern with two segments or more is read as. -/
theorem laid_of_many (hread : read text = .ok pattern) (hdouble : Text.Undoubled text)
    (hmany : 2 ≤ pattern.segments.length) :
    Segment.Laid (Text.closed text) (Text.opened text) pattern.segments (Text.names text) :=
  Segment.laid_of_read (segments_of_read hread) hdouble
    (names_ne_nil (segments_of_read hread) hdouble hmany)

/-! ## Two segments or more -/

/-- A pattern that ends in a literal always has an answer. -/
theorem answers_of_literal {last : Text} {width : Nat} (hread : read text = .ok pattern)
    (hmany : 2 ≤ pattern.segments.length)
    (hlast : pattern.segments.getLast? = some (.literal last width))
    (hdouble : Text.Undoubled text) (hstand : Mask.SeparatorsStand text)
    (hbars : ∀ mask, Mask.parse text = .ok mask → Mask.BarsSeparator mask)
    (lead : Bool) (names : List Text) (hne : names ≠ []) (hnames : ∀ n ∈ names, Text.IsName n) :
    Answers (test text (Text.written lead false names))
      (Text.closed text = false ∧ FrontAgrees pattern.segments (Text.opened text) lead ∧
        Splits (Text.names text) names) := by
  have hlaid := laid_of_many hread hdouble hmany
  have hreadable := Segment.readable_of_read (segments_of_read hread) hdouble hstand
  have hparts := @Segment.isName_of_names text
  have hsepNames : ∀ n ∈ names, '/' ∉ n := fun n hn => (hnames n hn).2
  rw [test_eq_accepts hread, accepts_of_many hmany (written_ne_nil hne hnames)]
  obtain ⟨before, lastParts, hsplit, hplain, rfl, rfl⟩ := hlaid.exists_last hmany hlast
  rw [hsplit] at hlaid hreadable hparts ⊢
  have hsepLast : ∀ part ∈ lastParts, '/' ∉ part :=
    fun part hpart => (hparts part (List.mem_append_right _ hpart)).2
  refine (hlaid.matchMany_toLiteral hmany hlast hreadable hparts (by simp) hne hnames rfl).of_iff ?_
  cases hclosed : Text.closed text with
  | true =>
    -- The last literal asks for a separator that an open name has not.
    have hnot := @Segment.not_endsWith_open before lastParts names hplain hreadable.right
      hsepLast hsepNames
    simp [hnot]
  | false =>
    have hends := @Segment.endsWith_iff_splits before lastParts names false hplain
      hreadable.right hsepLast hsepNames
    have hbarsLast := @Segment.bars_of_written before lastParts false (Text.opened text)
      hreadable (by rwa [← hsplit, ← hclosed, Text.written_names hdouble])
    have hearly := @Segment.not_stopsEarly_of_bars before lastParts names hplain
      hreadable.right hsepLast hsepNames hbarsLast
    rw [hends]
    simp [hearly]

/-- **Matching by components.** A pattern with two segments or more matches a
name that does not end with a separator exactly when it does not end with one
itself, the separators in front agree, and the names can be split over its
components. -/
theorem accepts_iff_splits (hread : read text = .ok pattern) (hmany : 2 ≤ pattern.segments.length)
    (hdouble : Text.Undoubled text) (hstand : Mask.SeparatorsStand text)
    (hbars : ∀ mask, Mask.parse text = .ok mask → Mask.BarsSeparator mask)
    (lead : Bool) (names : List Text) (hne : names ≠ []) (hnames : ∀ n ∈ names, Text.IsName n)
    (hcut : test text (Text.written lead false names) ≠ .error .badCut) :
    ∃ b, test text (Text.written lead false names) = .ok b ∧
      (b = true ↔ Text.closed text = false ∧
        FrontAgrees pattern.segments (Text.opened text) lead ∧
        Splits (Text.names text) names) := by
  cases hlast : pattern.segments.getLast? with
  | none =>
    rw [List.getLast?_eq_none_iff] at hlast
    simp [hlast] at hmany
  | some segment =>
    cases segment with
    | literal last width =>
      exact answers_of_literal hread hmany hlast hdouble hstand hbars lead names hne hnames
    | wild stars =>
      have hwild : pattern.segments.getLast?.any Segment.isWild = true := by rw [hlast]; rfl
      have hlaid := laid_of_many hread hdouble hmany
      have hreadable := Segment.readable_of_read (segments_of_read hread) hdouble hstand
      rw [test_eq_accepts hread, accepts_of_many hmany (written_ne_nil hne hnames)] at hcut ⊢
      rcases hlaid.matchMany_toWild hmany hwild hreadable Segment.isName_of_names hne hnames rfl with
        h | ⟨h, -⟩
      · exact h.of_iff ⟨fun ⟨hfront, hopen, hsplits⟩ => ⟨hopen, hfront, hsplits⟩,
          fun ⟨hopen, hfront, hsplits⟩ => ⟨hfront, hopen, hsplits⟩⟩
      · exact absurd h hcut

theorem accepts_iff_splits_spanned :
    ∃ b, test "a/**/b*".toList (Text.written false false ["a".toList, "x".toList, "b1".toList]) =
        .ok b ∧
      (b = true ↔ Text.closed "a/**/b*".toList = false ∧
        FrontAgrees [.literal "a/".toList 1, .wild "**/".toList, .literal "b*".toList 1]
          (Text.opened "a/**/b*".toList) false ∧
        Splits (Text.names "a/**/b*".toList) ["a".toList, "x".toList, "b1".toList]) := by
  have hread : read "a/**/b*".toList = .ok ⟨"a/**/b*".toList,
      [.literal "a/".toList 1, .wild "**/".toList, .literal "b*".toList 1]⟩ := by cbv
  have hparse : Mask.parse "a/**/b*".toList =
      .ok [.char 'a', .char '/', .star, .star, .char '/', .char 'b', .star] := by cbv
  have hbars := Mask.barsSeparator_of_parse hparse (by decide)
  have hnames : ∀ n ∈ ["a".toList, "x".toList, "b1".toList], Text.IsName n := by decide
  have hcut : test "a/**/b*".toList
      (Text.written false false ["a".toList, "x".toList, "b1".toList]) ≠ .error .badCut := by
    obtain ⟨b, hb, -⟩ := answers_of_literal hread (by decide) rfl (by decide) (by decide +kernel)
      hbars false _ (by simp) hnames
    rw [hb]
    simp
  exact accepts_iff_splits hread (by decide) (by decide) (by decide +kernel) hbars false _
    (by simp) hnames hcut

end Pattern

end PathGlob
