/-
A separator written after the pattern and after the name.

Where the pattern ends in a literal one expects nothing to change. It does
change, in one situation (`test_close_iff`). Without the separator the last
literal fits only windows at the end of the name, because there alone no
separator follows. With the separator every window looks the same to it, the
search stops at the first, and when that is not the last one the name is left
over.
-/
import PathGlob.Proofs.Pattern.Acceptance

set_option autoImplicit false

namespace PathGlob

open Segment (StopsEarly FrontAgrees EndsWith Readable Laid)

namespace Pattern

variable {text name last : Text} {pattern : Pattern} {width : Nat}

/-! ## One literal -/

/-- A name that fits has no more components than the mask. -/
theorem single_not_stopsEarly {front lead : Bool} {parts names : List Text} (hread : Readable parts)
    (hne : parts ≠ []) (hparts : ∀ part ∈ parts, Text.IsName part)
    (hnames : ∀ n ∈ names, Text.IsName n)
    (hbars : ∀ mask, Mask.parse (Text.written front false parts) = .ok mask → Mask.BarsSeparator mask)
    (hfits : Mask.Fits (Text.written front false parts) (Text.written lead false names)) :
    ¬ StopsEarly [] last parts.length names := by
  rintro ⟨taken, back, rfl, htaken, window, after, rfl, hafter, hlen, -⟩
  obtain rfl := Splits.nil_iff.1 htaken
  rw [List.nil_append] at hnames hfits
  have hsep : ∀ part ∈ parts, '/' ∉ part := fun part hpart => (hparts part hpart).2
  have hcount := Segment.length_eq_of_fits_written hread hsep hne (fun n hn => (hnames n hn).2)
    (by simp [hafter]) hbars hfits
  have hpos := List.length_pos_iff.2 hafter
  rw [List.length_append] at hcount
  cases front with
  | false =>
    simp only [Bool.false_eq_true, if_false] at hcount
    omega
  | true =>
    -- The mask begins with a separator, and so does the name.
    obtain ⟨masks, hmasks⟩ := hread.readAs
    have hparse := @Mask.parse_written true false _ _ hmasks
    rw [Mask.Fits, Mask.fits_of_parse hparse, Except.ok.injEq] at hfits
    obtain ⟨c, more, hc, htakes, -, -⟩ :=
      (Mask.Derives.item_iff (by simp)).1 (Mask.derives_of_accepts hfits)
    obtain rfl : c = '/' := by simpa [MaskItem.takes] using htakes
    have hlead := @Text.opened_written lead false _ hnames
    rw [hc] at hlead
    obtain rfl : lead = true := hlead.symm
    rw [if_pos rfl] at hcount
    omega

/-! ## Two segments or more -/

theorem closed_of_last {parts before lastParts : List Text} (hsplit : parts = before ++ lastParts)
    (hplain : IsPlain lastParts) (hparts : ∀ part ∈ parts, Text.IsName part) {closed : Bool} :
    Text.closed (spell '/' closed lastParts) = closed :=
  Text.closed_spell hplain.1 fun part hpart =>
    hparts part (by rw [hsplit]; exact List.mem_append_right _ hpart)

/-- The match of the open pattern with the open name, and of the closed pattern
with the closed name. -/
theorem test_close_many {before lastParts names : List Text} {front lead : Bool}
    {segments : List Segment} (hlaid : Laid false front segments (before ++ lastParts))
    (hmany : 2 ≤ segments.length) (hplain : IsPlain lastParts)
    (hlast : segments.getLast? = some (.literal (spell '/' false lastParts) lastParts.length))
    (hread : Readable (before ++ lastParts)) (hparts : ∀ part ∈ before ++ lastParts, Text.IsName part)
    (hbars : ∀ mask, Mask.parse (spell '/' false lastParts) = .ok mask → Mask.BarsSeparator mask)
    (hne : names ≠ []) (hnames : ∀ n ∈ names, Text.IsName n) :
    ∃ b b', Segment.matchMany (Text.written lead false names) segments = .ok b ∧
      Segment.matchMany (Text.written lead true names) (Segment.closeLast segments) = .ok b' ∧
      (b' = true ↔ b = true ∧
        ¬ StopsEarly before (spell '/' true lastParts) lastParts.length names) := by
  have hsepNames : ∀ n ∈ names, '/' ∉ n := fun n hn => (hnames n hn).2
  have hsepLast : ∀ part ∈ lastParts, '/' ∉ part :=
    fun part hpart => (hparts part (List.mem_append_right _ hpart)).2
  have hlastClosed : (Segment.closeLast segments).getLast? =
      some (.literal (spell '/' true lastParts) lastParts.length) := by
    rw [Segment.getLast?_closeLast, hlast, Option.map_some, Segment.close, spell_true hplain.1]
  obtain ⟨b, hb, hmatch⟩ :=
    hlaid.matchMany_toLiteral hmany hlast hread hparts (fun h : false = true => h) hne hnames rfl
  obtain ⟨b', hb', hmatch'⟩ := hlaid.close.matchMany_toLiteral
    (by rwa [Segment.length_closeLast]) hlastClosed hread hparts (fun _ => rfl) hne hnames rfl
  refine ⟨b, b', hb, hb', ?_⟩
  have hearly := @Segment.not_stopsEarly_of_bars before _ _ hplain hread.right hsepLast hsepNames hbars
  have hfront : FrontAgrees (Segment.closeLast segments) front lead ↔
      FrontAgrees segments front lead := by
    rw [FrontAgrees, FrontAgrees, Segment.head_closeLast]
  rw [hmatch', hmatch, hfront,
    Segment.endsWith_iff_splits hplain hread.right hsepLast hsepNames,
    Segment.endsWith_iff_splits hplain hread.right hsepLast hsepNames]
  simp only [hearly, not_false_eq_true, and_true, and_assoc]

theorem ok_eq_ok_iff {ε : Type} {b b' : Bool} {p : Prop} (h : b' = true ↔ b = true ∧ ¬ p) :
    ((.ok b' : Except ε Bool) = .ok b) ↔ ¬ ((.ok b : Except ε Bool) = .ok true ∧ p) := by
  rw [Except.ok.injEq, Except.ok.injEq]
  by_cases hp : p
  · cases b <;> cases b' <;> simp_all
  · cases b <;> cases b' <;> simp_all

section Close

variable (hread : read text = .ok pattern)
  (hlast : pattern.segments.getLast? = some (.literal last width))
  (hopen : Text.closed last = false) (hdouble : Text.Undoubled text)

include hread hlast hopen hdouble

/-- A bare separator ends with one, so where the last segment does not there is
a component. -/
theorem names_ne_nil_of_last : Text.names text ≠ [] := by
  intro hnil
  rw [(Segment.read_eq_ok.1 (segments_of_read hread)).1] at hlast
  rcases (Text.names_eq_nil hdouble).1 hnil with rfl | rfl
  · have hempty : Segment.ofPattern [] = [] := by decide
    simp [hempty] at hlast
  · have hbare : Segment.ofPattern ['/'] = [.literal ['/'] 0] := by decide
    obtain ⟨rfl, -⟩ : ['/'] = last ∧ 0 = width := by simpa [hbare] using hlast
    simp [Text.closed] at hopen

variable (hstand : Mask.SeparatorsStand text)
  (hbars : ∀ mask, Mask.parse text = .ok mask → Mask.BarsSeparator mask)

include hstand hbars

/-- One mask takes the separator of the name with the separator of its own, and it
never stops early. -/
theorem test_close_single (hfew : ¬ 2 ≤ pattern.segments.length) {lead : Bool}
    {names : List Text} (hnames : ∀ n ∈ names, Text.IsName n)
    (hname : name = Text.written lead false names) :
    test (text ++ ['/']) (name ++ ['/']) = test text name ∧
      ¬ (test text name = .ok true ∧
        StopsEarly ((Text.names text).rdrop width) (last ++ ['/']) width names) := by
  have hsegments := segments_of_read hread
  have hpartsNe := names_ne_nil_of_last hread hlast hopen hdouble
  have hlaid := Segment.laid_of_read hsegments hdouble hpartsNe
  obtain ⟨hsingle, -⟩ := hlaid.eq_single hfew hlast
  have hwritten := Text.written_names hdouble
  rw [hwritten] at hsingle
  rw [hsingle, List.getLast?_singleton, Option.some.injEq, Segment.literal.injEq] at hlast
  obtain ⟨rfl, rfl⟩ := hlast
  rw [hopen] at hwritten
  obtain ⟨mask, hmask⟩ := Segment.exists_parse_of_read hsegments hdouble hpartsNe
  have htest : test text name = .ok (Mask.accepts mask name) := by
    rw [hsingle] at hsegments
    rw [test_of_read hsegments, accepts_of_literal hmask]
  have hreadClose := Segment.read_close hsegments hdouble hpartsNe hopen
  rw [hsingle] at hreadClose
  have htestClose : test (text ++ ['/']) (name ++ ['/']) = .ok (Mask.accepts mask name) := by
    have hanswer := @accepts_of_literal (text ++ ['/']) _ (Text.names text).length _
      (Mask.parse_close hmask) (name ++ ['/'])
    rw [test_of_read hreadClose, ← Mask.accepts_close (hbars mask hmask)]
    exact hanswer
  rw [htest, htestClose]
  refine ⟨rfl, ?_⟩
  rintro ⟨haccepts, hearly⟩
  rw [Except.ok.injEq] at haccepts
  have hnil := Segment.rdrop_last [] (Text.names text)
  rw [List.nil_append] at hnil
  rw [hnil] at hearly
  refine @single_not_stopsEarly (text ++ ['/']) (Text.opened text) lead _ _
    (Segment.readable_of_read hsegments hdouble hstand) hpartsNe Segment.isName_of_names hnames
    (by rwa [hwritten]) ?_ hearly
  rw [hwritten, ← hname, Mask.Fits, Mask.fits_of_parse hmask, haccepts]

/-- With two segments or more the closed match is the open one, less the names it
stops early in. -/
theorem test_close_of_many (hmany : 2 ≤ pattern.segments.length) {lead : Bool}
    {names : List Text} (hne : names ≠ []) (hnames : ∀ n ∈ names, Text.IsName n)
    (hname : name = Text.written lead false names) :
    ∃ b b', test text name = .ok b ∧ test (text ++ ['/']) (name ++ ['/']) = .ok b' ∧
      (b' = true ↔ b = true ∧
        ¬ StopsEarly ((Text.names text).rdrop width) (last ++ ['/']) width names) := by
  have hsegments := segments_of_read hread
  have hpartsNe := names_ne_nil_of_last hread hlast hopen hdouble
  have hparts := @Segment.isName_of_names text
  have hreadable := Segment.readable_of_read hsegments hdouble hstand
  have hlaid := Segment.laid_of_read hsegments hdouble hpartsNe
  obtain ⟨before, lastParts, hsplit, hplain, rfl, rfl⟩ := hlaid.exists_last hmany hlast
  have hclosed : Text.closed text = false := by
    rwa [closed_of_last hsplit hplain hparts] at hopen
  have hreadClose := Segment.read_close hsegments hdouble hpartsNe hclosed
  have hdrop : (Text.names text).rdrop lastParts.length = before := by
    rw [hsplit, Segment.rdrop_last]
  rw [hclosed] at hlaid hlast ⊢
  rw [hdrop, ← spell_true hplain.1]
  rw [hsplit] at hlaid hreadable hparts
  have hbarsLast := @Segment.bars_of_written before lastParts false (Text.opened text) hreadable
    (by rwa [← hsplit, ← hclosed, Text.written_names hdouble])
  obtain ⟨b, b', hb, hb', hiff⟩ := @test_close_many before lastParts _ _ lead _ hlaid hmany hplain
    hlast hreadable hparts hbarsLast hne hnames
  have hmanyClose : 2 ≤ (Segment.closeLast pattern.segments).length := by
    rwa [Segment.length_closeLast]
  refine ⟨b, b', ?_, ?_, hiff⟩
  · rw [test_eq_accepts hread, hname, accepts_of_many hmany (written_ne_nil hne hnames), hb]
  · rw [test_of_read hreadClose, @accepts_of_many _ ⟨_, _⟩ hmanyClose (by simp), hname,
      ← Text.written_true hne, hb']

end Close

/-- **A separator after both.** A pattern that ends in a literal and a name give
the same answer with a separator after each of them, unless they match and the
literal, closed by the separator, fits a window before the end of the name. -/
theorem test_close_iff (hread : read text = .ok pattern)
    (hlast : pattern.segments.getLast? = some (.literal last width))
    (hopen : Text.closed last = false) (hdouble : Text.Undoubled text)
    (hstand : Mask.SeparatorsStand text)
    (hbars : ∀ mask, Mask.parse text = .ok mask → Mask.BarsSeparator mask)
    (hname : name ≠ []) (hnameOpen : Text.closed name = false) (hnameDouble : Text.Undoubled name) :
    test (text ++ ['/']) (name ++ ['/']) = test text name ↔
      ¬ (test text name = .ok true ∧
        StopsEarly ((Text.names text).rdrop width) (last ++ ['/']) width (Text.names name)) := by
  have hnames := @Segment.isName_of_names name
  have hwritten : name = Text.written (Text.opened name) false (Text.names name) := by
    rw [← hnameOpen, Text.written_names hnameDouble]
  by_cases hmany : 2 ≤ pattern.segments.length
  · have hne : Text.names name ≠ [] := by
      intro hnil
      exact hname (Text.eq_nil_of_names hnameDouble hnameOpen hnil)
    obtain ⟨b, b', hb, hb', hiff⟩ :=
      test_close_of_many hread hlast hopen hdouble hstand hbars hmany hne hnames hwritten
    rw [hb, hb']
    exact ok_eq_ok_iff hiff
  · obtain ⟨heq, hnot⟩ :=
      test_close_single hread hlast hopen hdouble hstand hbars hmany hnames hwritten
    exact iff_of_true heq hnot

theorem test_close_iff_twice :
    test ("**/a".toList ++ ['/']) ("a/a".toList ++ ['/']) = test "**/a".toList "a/a".toList ↔
      ¬ (test "**/a".toList "a/a".toList = .ok true ∧
        StopsEarly ((Text.names "**/a".toList).rdrop 1) ("a".toList ++ ['/']) 1
          (Text.names "a/a".toList)) := by
  have hread : read "**/a".toList =
      .ok ⟨"**/a".toList, [.wild "**/".toList, .literal "a".toList 1]⟩ := by cbv
  have hparse : Mask.parse "**/a".toList = .ok [.star, .star, .char '/', .char 'a'] := by cbv
  have hbars := Mask.barsSeparator_of_parse hparse (by decide)
  exact test_close_iff hread rfl (by decide) (by decide) (by decide +kernel) hbars (by decide)
    (by decide) (by decide)

/-- The search stops at the first of two equal components. -/
theorem test_close_stops :
    test "**/a".toList "a/a".toList = .ok true ∧ test "**/a/".toList "a/a/".toList = .ok false := by
  have hread : read "**/a".toList =
      .ok ⟨"**/a".toList, [.wild "**/".toList, .literal "a".toList 1]⟩ := by cbv
  have hreadClose : Segment.read "**/a/".toList =
      .ok [.wild "**/".toList, .literal "a/".toList 1] := by cbv
  have hparse : Mask.parse "**/a".toList = .ok [.star, .star, .char '/', .char 'a'] := by cbv
  have hparseLast : Mask.parse "a".toList = .ok [.char 'a'] := by cbv
  have hbars := Mask.barsSeparator_of_parse hparse (by decide)
  have hbarsLast := Mask.barsSeparator_of_parse hparseLast (by decide)
  have hfits : Mask.Fits "a".toList "a".toList := by
    rw [Mask.Fits, Mask.fits_of_parse hparseLast]
    cbv
  have hstars : IsWild ["**".toList] := ⟨by simp, by decide⟩
  have hplain : IsPlain ["a".toList] := ⟨by simp, by decide⟩
  have hnames : ∀ n ∈ ["a".toList, "a".toList], Text.IsName n := by decide
  have hparts : ∀ part ∈ ["**".toList] ++ ["a".toList], Text.IsName part := by decide
  have hreadable : Readable (["**".toList] ++ ["a".toList]) :=
    Segment.readable_of_read (segments_of_read hread) (by decide) (by decide +kernel)
  constructor
  · obtain ⟨b, hb, hiff⟩ := answers_of_literal hread (by decide) rfl (by decide) (by decide +kernel)
      hbars false ["a".toList, "a".toList] (by simp) hnames
    have hsplits : Splits (Text.names "**/a".toList) ["a".toList, "a".toList] :=
      .span (by decide) (.skip (by decide) (.one (by decide) hfits .done))
    have hhit := hiff.2 ⟨by decide, Segment.frontAgrees_wild.2 (by decide), hsplits⟩
    rw [hhit] at hb
    exact hb
  · obtain ⟨b, b', -, hb', hiff⟩ := @test_close_many ["**".toList] ["a".toList]
      ["a".toList, "a".toList] false false _ (.tail (.literal hstars hplain)) (by decide) hplain rfl
      hreadable hparts hbarsLast (by simp) hnames
    have hstops : StopsEarly ["**".toList] (spell '/' true ["a".toList]) 1
        ["a".toList, "a".toList] := by
      have hparseClose : Mask.parse "a/".toList = .ok [.char 'a', .char '/'] := by cbv
      refine ⟨[], _, rfl, .skip (by decide) .done, ["a".toList], ["a".toList], rfl, by simp, rfl, ?_⟩
      change Mask.Fits "a/".toList "a/".toList
      rw [Mask.Fits, Mask.fits_of_parse hparseClose]
      cbv
    obtain rfl : b' = false := by
      rw [← Bool.not_eq_true, hiff]
      exact fun h => h.2 hstops
    rw [test_of_read hreadClose, @accepts_of_many _ ⟨_, _⟩ (by decide) (by decide)]
    exact hb'

end Pattern

end PathGlob
