/-
The match from a wildcard on, for the two kinds of pattern.

A pattern that ends in a literal is matched exactly when the names end as the
last literal asks and the search did not stop at a window before
(`ToLiteral.matchFrom`). A pattern that ends in a wildcard is matched exactly
when the names can be split over its components, as long as the wildcard is an
open one (`FromWild.matchFrom`). There is one fault it can end with. When
nothing is left for the last wildcard it looks one byte back, and that byte can
lie inside a character.
-/
import PathGlob.Proofs.Pattern.Greedy

set_option autoImplicit false

namespace PathGlob

namespace Segment

open Text (byteSize IsName)

variable {name : Text} {names : List Text} {front closed : Bool} {segments : List Segment}

/-! ## Up to a last literal -/

section ToLiteral

variable {before last : List Text} {cp : Bool}

theorem not_endsWith_nil {text : Text} {width : Nat} (hwidth : 0 < width) :
    ¬ EndsWith before text width closed [] := by
  rintro ⟨taken, back, hnil, -, hlen, -⟩
  rw [(List.append_eq_nil_iff.1 hnil.symm).2, List.length_nil] at hlen
  omega

theorem not_stopsEarly_nil {text : Text} {width : Nat} : ¬ StopsEarly before text width [] := by
  rintro ⟨taken, back, hnil, -, window, after, hback, hafter, -⟩
  rw [(List.append_eq_nil_iff.1 hnil.symm).2] at hback
  exact hafter (List.append_eq_nil_iff.1 hback.symm).2

/-- Behind the last literal nothing can be left. The leftmost window is at the
end of the name exactly when there is a window there and none before. -/
theorem FirstFit.at_end {stars before window after : List Text} {text : Text} {width : Nat}
    (hstars : IsWild stars)
    (h : FirstFit (takesLast closed text) width names before window after) :
    after = [] ↔ EndsWith stars text width closed names ∧ ¬ StopsEarly stars text width names := by
  constructor
  · rintro rfl
    refine ⟨(leads_wild hstars).2 ⟨before, window, by rw [h.split, List.append_nil], h.length, ?_⟩,
      ?_⟩
    · have hfits := h.fits
      rwa [takesLast, List.isEmpty_nil, Bool.not_true, Bool.or_false] at hfits
    · intro hearly
      obtain ⟨front, _, hnames, window', after', rfl, hafter, hlen, hfits⟩ :=
        (leads_wild hstars).1 hearly
      have htakes : takesLast closed text window' after' := by
        rwa [takesLast, List.isEmpty_eq_false_iff.2 hafter, Bool.not_false, Bool.or_true]
      -- A window with names behind it would be further left.
      have hle := h.first front window' after' hnames hlen htakes
      have hcount := congrArg List.length (h.split.symm.trans hnames)
      have hwidth := h.length
      have hpos := List.length_pos_iff.2 hafter
      simp only [List.length_append, List.length_nil] at hcount
      omega
  · rintro ⟨-, hearly⟩
    by_contra hafter
    refine hearly ((leads_wild hstars).2 ⟨before, window ++ after, h.split, window, after, rfl,
      hafter, h.length, ?_⟩)
    have hfits := h.fits
    rwa [takesLast, List.isEmpty_eq_false_iff.2 hafter, Bool.not_false, Bool.or_true] at hfits

/-- Without a window the names do not end with one. -/
theorem NoFit.at_end {stars : List Text} {text : Text} {width : Nat}
    (h : NoFit (takesLast closed text) width names) : ¬ EndsWith stars text width closed names := by
  rintro ⟨taken, back, rfl, -, hlen, hfits⟩
  refine h taken back [] (by rw [List.append_nil]) hlen ?_
  rwa [takesLast, List.isEmpty_nil, Bool.not_true, Bool.or_false]

/-- A wildcard and a last literal, whatever the literal is. -/
theorem matchFrom_parsed {wildcard pre text : Text} {width : Nat} {mask : Mask}
    {stars : List Text} (hstars : IsWild stars) (hparse : Mask.parse text = .ok mask)
    (hwidth : 0 < width) (hname : name = pre ++ spell '/' closed names)
    (hnames : ∀ n ∈ names, IsName n)
    (hbeyond : closed = true → names ≠ [] → names.length + 1 = width →
      fitsWindow name text [] ⟨byteSize pre, byteSize name, .finish⟩ = .ok false) :
    Answers (matchFrom name (byteSize pre) [.wild wildcard, .literal text width])
      (EndsWith stars text width closed names ∧ ¬ StopsEarly stars text width names) := by
  rcases search_all (decides_last hparse) hwidth hname hnames hbeyond with
    ⟨hno, hanswer⟩ | ⟨before, window, after, hfit, hanswer⟩
  · rw [matchFrom_of_none hanswer]
    exact answers_false fun h => hno.at_end h.1
  · rw [matchFrom_of_last hanswer]
    refine ⟨_, rfl, ?_⟩
    have hcut : name = pre ++ spell '/' (closed || !after.isEmpty) (before ++ window) ++
        spell '/' closed after := by
      rw [hname, hfit.split, ← List.append_assoc, spell_append, List.append_assoc]
    -- The window ends where the name does unless something stands behind it.
    have hsize := congrArg byteSize hcut
    rw [Text.byteSize_append _ (spell '/' closed after)] at hsize
    rw [← hfit.at_end hstars, decide_eq_true_iff, hsize]
    constructor
    · intro hle
      by_contra hafter
      have hnonempty := @Text.spell_ne_nil closed after hafter fun n hn => hnames n (hfit.mem_after hn)
      have := Text.byteSize_pos hnonempty
      omega
    · rintro rfl
      simp [byteSize]

theorem matchFrom_last {wildcard pre : Text} {stars plain : List Text} (hstars : IsWild stars)
    (hplain : IsPlain plain) (hread : Readable plain) (hsep : ∀ part ∈ plain, '/' ∉ part)
    (hclosed : closed = true → cp = true) (hname : name = pre ++ spell '/' closed names)
    (hnames : ∀ n ∈ names, IsName n) :
    Answers
      (matchFrom name (byteSize pre)
        [.wild wildcard, .literal (spell '/' cp plain) plain.length])
      (EndsWith stars (spell '/' cp plain) plain.length closed names ∧
        ¬ StopsEarly stars (spell '/' cp plain) plain.length names) := by
  obtain ⟨masks, hmasks⟩ := hread.readAs
  have hwidth : 0 < plain.length := List.length_pos_iff.2 hplain.1
  refine matchFrom_parsed hstars (Mask.parse_spell hmasks) hwidth hname hnames ?_
  rintro rfl hne hlen
  rw [hclosed rfl]
  exact beyond_not_fits hread hsep rfl hname hnames hne hlen

/-- **Up to a last literal.** -/
theorem ToLiteral.matchFrom (h : ToLiteral cp front segments before last)
    (hread : Readable (before ++ last)) (hsep : ∀ part ∈ before ++ last, '/' ∉ part)
    (hclosed : closed = true → cp = true) {pre : Text}
    (hname : name = pre ++ spell '/' closed names) (hnames : ∀ n ∈ names, IsName n) :
    Answers (Segment.matchFrom name (byteSize pre) segments)
      (EndsWith before (spell '/' cp last) last.length closed names ∧
        ¬ StopsEarly before (spell '/' cp last) last.length names) := by
  -- By induction on the segments. Each literal leaves the names behind its
  -- leftmost window, and both conditions are handed on to them.
  induction h generalizing pre names with
  | @last front stars plain hstars hplain =>
    refine matchFrom_last hstars hplain hread.right ?_ hclosed hname hnames
    exact fun part hpart => hsep part (List.mem_append_right _ hpart)
  | @more front stars plain before last segments hstars hplain hto ih =>
    simp only [List.append_assoc] at hread hsep
    have hsepPlain : ∀ part ∈ plain, '/' ∉ part := by
      intro part hpart
      exact hsep part (List.mem_append_right _ (List.mem_append_left _ hpart))
    have hsepRest : ∀ part ∈ before ++ last, '/' ∉ part := by
      intro part hpart
      exact hsep part (List.mem_append_right _ (List.mem_append_right _ hpart))
    have hwidth : 0 < last.length := List.length_pos_iff.2 hto.isPlain.1
    obtain ⟨stars', parts, hstars', rfl⟩ := hto.exists_wild
    -- What is asked for and what gets in its way are of one form.
    have hends := @leads_middle stars plain (stars' ++ parts) names
      (fun back => back.length = last.length ∧ Mask.Fits (spell '/' cp last) (spell '/' closed back))
      hstars hplain
    have hearly := @leads_middle stars plain (stars' ++ parts) names
      (fun back => ∃ window after, back = window ++ after ∧ after ≠ [] ∧
        window.length = last.length ∧ Mask.Fits (spell '/' cp last) (spell '/' true window))
      hstars hplain
    rcases matchFrom_middle hread.right.left hplain hsepPlain hto.ne_nil (fun _ => hto.endsOpen)
      hname hnames with ⟨hno, hanswer⟩ | ⟨taken, window, after, pre', hfit, -, hname', hanswer⟩
    · rw [hanswer]
      refine answers_false fun hboth => ?_
      refine hno.greedy ?_ (hends.1 hboth.1)
      exact fun hnil => absurd hnil (not_endsWith_nil hwidth)
    · rw [hanswer]
      have hafter : ∀ n ∈ after, IsName n := fun n hn => hnames n (hfit.mem_after hn)
      refine (ih hread.right.right hsepRest hname' hafter).of_iff ?_
      refine and_congr ?_ (not_congr ?_)
      · refine (hends.trans (hfit.greedy ?_ ?_)).symm
        · exact fun skipped more hmore => hmore.prepend hstars' skipped
        · exact fun hnil => absurd hnil (not_endsWith_nil hwidth)
      · refine (hearly.trans (hfit.greedy ?_ ?_)).symm
        · exact fun skipped more hmore => hmore.prepend hstars' skipped
        · exact fun hnil => absurd hnil not_stopsEarly_nil

end ToLiteral

/-! ## Up to a last wildcard -/

/-- The match has an answer, and it is yes exactly when `p` holds, or it looked
into the last character of the name. -/
def AnswersOrCuts (name : Text) (result : Except MatchFault Bool) (p : Prop) : Prop :=
  Answers result p ∨ (result = .error .badCut ∧ ∃ c, name.getLast? = some c ∧ 1 < c.utf8Size)

theorem AnswersOrCuts.of_iff {result : Except MatchFault Bool} {p q : Prop}
    (h : AnswersOrCuts name result p) (hiff : p ↔ q) : AnswersOrCuts name result q :=
  h.imp (·.of_iff hiff) id

theorem cutOut_end (pre : Text) (rest : Text) :
    cutOut (pre ++ rest) (byteSize pre) (byteSize (pre ++ rest)) = .ok rest := by
  have hcut := cutOut_between pre rest []
  rwa [List.append_nil] at hcut

/-- Inside a character of several bytes there is no cut. -/
theorem dropBytes_inside {c : Char} (pre : Text) {n : Nat} (hlo : byteSize pre < n)
    (hhi : n < byteSize pre + c.utf8Size) : Text.dropBytes (pre ++ [c]) n = none := by
  obtain ⟨m, rfl⟩ : ∃ m, n = m + 1 := ⟨n - 1, by omega⟩
  induction pre generalizing m with
  | nil =>
    rw [byteSize, Nat.zero_add] at hhi
    rw [List.nil_append, Text.dropBytes, if_neg (by omega)]
  | cons d pre ih =>
    rw [byteSize] at hlo hhi
    rw [List.cons_append, Text.dropBytes, if_pos (by omega)]
    obtain ⟨k, hk⟩ : ∃ k, m + 1 - d.utf8Size = k + 1 := ⟨m - d.utf8Size, by omega⟩
    rw [hk]
    exact ih k (by omega) (by omega)

/-- The cut one byte before the end. -/
theorem cutOut_last (pre : Text) (c : Char) :
    cutOut (pre ++ [c]) (byteSize (pre ++ [c]) - 1) (byteSize (pre ++ [c])) =
      if c.utf8Size = 1 then .ok [c] else .error .badCut := by
  have hsize : byteSize (pre ++ [c]) = byteSize pre + c.utf8Size := by
    rw [Text.byteSize_append, byteSize, byteSize, Nat.add_zero]
  have hpos := c.utf8Size_pos
  by_cases hone : c.utf8Size = 1
  · have hcut := cutOut_end pre [c]
    rw [if_pos hone, ← hcut, hsize, hone, Nat.add_sub_cancel]
  · rw [if_neg hone, cutOut, Text.slice, if_pos (by omega),
      dropBytes_inside pre (by omega) (by omega)]
    rfl

/-- What ends in a name ends in no separator. -/
theorem open_end (hne : names ≠ []) (hnames : ∀ n ∈ names, IsName n) (pre : Text) :
    pre ++ spell '/' false names ≠ [] ∧ Text.closed (pre ++ spell '/' false names) = false := by
  have hspell := @Text.spell_ne_nil false names hne hnames
  rw [Text.closed_append hspell, Text.closed_spell hne hnames]
  exact ⟨by simp [hspell], rfl⟩

/-- Behind a window that leaves nothing the name ends in the last name of the
window. -/
theorem FirstFit.open_end {takes : List Text → List Text → Prop} {width : Nat}
    {before window after : List Text} (h : FirstFit takes width names before window after)
    (hwidth : 0 < width) (hnames : ∀ n ∈ names, IsName n) (pre : Text) (hafter : after = []) :
    pre ++ spell '/' (!after.isEmpty) (before ++ window) ≠ [] ∧
      Text.closed (pre ++ spell '/' (!after.isEmpty) (before ++ window)) = false := by
  subst hafter
  have hsplit : names = before ++ window := by rw [h.split, List.append_nil]
  have hne : before ++ window ≠ [] := by
    have hlen := h.length
    rw [← List.length_pos_iff, List.length_append]
    omega
  exact Segment.open_end hne (by rwa [hsplit] at hnames) pre

/-- With nothing left the last wildcard looks at the last byte of the name. -/
theorem matchTail_last (init : Text) (c : Char) (stars : Text) :
    matchTail (init ++ [c]) stars (byteSize (init ++ [c])) =
      if c.utf8Size = 1 then .ok (allowsRest (Text.opened stars) (Text.closed stars) [c])
      else .error .badCut := by
  have hback : stepBack (byteSize (init ++ [c])) = .ok (byteSize (init ++ [c]) - 1) := by
    have hpos : 0 < byteSize (init ++ [c]) := Text.byteSize_pos (by simp)
    obtain ⟨n, hn⟩ : ∃ n, byteSize (init ++ [c]) = n + 1 := ⟨byteSize (init ++ [c]) - 1, by omega⟩
    rw [hn]
    rfl
  rw [matchTail]
  dsimp only
  rw [if_pos (Nat.le_refl _), hback]
  change (cutOut _ _ _).bind _ = _
  rw [cutOut_last]
  by_cases hone : c.utf8Size = 1
  · rw [if_pos hone, if_pos hone]
    rfl
  · rw [if_neg hone, if_neg hone]
    rfl

theorem matchTail_end {pre stars : Text} (hstars : Text.opened stars = false) (hne : pre ≠ [])
    (hopen : Text.closed pre = false) :
    AnswersOrCuts pre (matchTail pre stars (byteSize pre)) (Text.closed stars = false) := by
  obtain ⟨init, c, rfl⟩ := (List.eq_nil_or_concat' pre).resolve_left hne
  rw [matchTail_last]
  by_cases hone : c.utf8Size = 1
  · -- The byte is a character of a name, so no separator closes what is left.
    rw [if_pos hone]
    refine .inl ⟨_, rfl, ?_⟩
    rw [Text.closed_append (by simp)] at hopen
    rw [allowsRest, hstars, hopen]
    cases Text.closed stars <;> simp
  · rw [if_neg hone]
    refine .inr ⟨rfl, c, by simp, ?_⟩
    have hpos := c.utf8Size_pos
    omega

/-- With names left it looks at all of them. -/
theorem matchTail_names {pre stars : Text} (hstars : Text.opened stars = false) (hne : names ≠ [])
    (hnames : ∀ n ∈ names, IsName n) :
    Answers (matchTail (pre ++ spell '/' false names) stars (byteSize pre))
      (Text.closed stars = false) := by
  have hrest := @Text.spell_ne_nil false names hne hnames
  have hpos := Text.byteSize_pos hrest
  have hsize := Text.byteSize_append pre (spell '/' false names)
  rw [matchTail]
  dsimp only
  rw [if_neg (by omega)]
  change Answers ((cutOut _ _ _).bind _) _
  rw [cutOut_end]
  refine ⟨_, rfl, ?_⟩
  rw [allowsRest, hstars, Text.closed_spell hne hnames]
  cases Text.closed stars <;> simp

/-- The last wildcard over what is left. -/
theorem matchTail_eq {pre stars : Text} (hstars : Text.opened stars = false)
    (hname : name = pre ++ spell '/' false names) (hnames : ∀ n ∈ names, IsName n)
    (hpre : names = [] → pre ≠ [] ∧ Text.closed pre = false) :
    AnswersOrCuts name (matchTail name stars (byteSize pre)) (Text.closed stars = false) := by
  by_cases hne : names = []
  · rw [hne, spell_nil, List.append_nil] at hname
    rw [hname]
    exact matchTail_end hstars (hpre hne).1 (hpre hne).2
  · rw [hname]
    exact .inl (matchTail_names hstars hne hnames)

/-- **Up to a last wildcard.** A wildcard at the front must not be the only
segment if it brings a separator of its own. -/
theorem FromWild.matchFrom {parts : List Text} (h : FromWild closed front segments parts)
    (hlast : segments.getLast?.any isWild = true) (hfront : front = true → 2 ≤ segments.length)
    (hread : Readable parts) (hparts : ∀ part ∈ parts, IsName part) {pre : Text}
    (hname : name = pre ++ spell '/' false names) (hnames : ∀ n ∈ names, IsName n)
    (hpre : names = [] → pre ≠ [] ∧ Text.closed pre = false) :
    AnswersOrCuts name (Segment.matchFrom name (byteSize pre) segments)
      (closed = false ∧ Splits parts names) := by
  induction h generalizing pre names with
  | @wild front stars hstars =>
    obtain rfl : front = false := by
      cases front with
      | false => rfl
      | true => simpa using hfront rfl
    have hopened : Text.opened (Text.written false closed stars) = false := Text.opened_written hparts
    have hclosed : Text.closed (Text.written false closed stars) = closed :=
      Text.closed_written hstars.1 hparts
    refine (matchTail_eq hopened hname hnames hpre).of_iff ?_
    rw [hclosed]
    exact (and_iff_left (.of_isWild hstars names)).symm
  | literal hstars hplain => simp [isWild] at hlast
  | @more front stars plain parts segments hstars hplain hfrom ih =>
    have hlastRest : segments.getLast?.any isWild = true := by
      rwa [List.getLast?_cons_cons, List.getLast?_cons_of_ne_nil hfrom.ne_nil] at hlast
    have hpartsPlain := (List.forall_mem_append.1 (List.forall_mem_append.1 hparts).2).1
    have hpartsRest := (List.forall_mem_append.1 (List.forall_mem_append.1 hparts).2).2
    have hsplits := @splits_middle stars plain parts names hstars hplain
    have hend : closed = false → Splits parts [] → false = true ∨ endsOpen segments = true := by
      rintro rfl hnil
      exact .inr (hfrom.endsOpen_of_splits hpartsRest hnil)
    obtain ⟨stars', parts', hstars', hparts'⟩ := hfrom.exists_wild
    rcases matchFrom_middle hread.right.left hplain (fun part hpart => (hpartsPlain part hpart).2)
      hfrom.ne_nil (by simp) hname hnames with
      ⟨hno, hanswer⟩ | ⟨taken, window, after, pre', hfit, hpre', hname', hanswer⟩
    · rw [hanswer]
      refine .inl (answers_false ?_)
      rintro ⟨hclosed, h⟩
      exact hno.greedy (hend hclosed) (hsplits.1 h)
    · rw [hanswer]
      have hafter : ∀ n ∈ after, IsName n := fun n hn => hnames n (hfit.mem_after hn)
      have hends : after = [] → pre' ≠ [] ∧ Text.closed pre' = false := by
        rw [hpre', Bool.false_or]
        exact hfit.open_end (List.length_pos_iff.2 hplain.1) hnames pre
      refine (ih hlastRest (by simp) hread.right.right hpartsRest hname' hafter hends).of_iff ?_
      refine and_congr_right fun hclosed => ?_
      refine (hsplits.trans (hfit.greedy ?_ (hend hclosed))).symm
      intro skipped more hmore
      rw [hparts'] at hmore ⊢
      exact hmore.prepend hstars' skipped

end Segment

end PathGlob
