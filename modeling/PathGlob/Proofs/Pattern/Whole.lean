/-
A whole name against two segments or more.

The head is held against the start of the name, where separators in front have
to agree (`FrontAgrees`). A literal head takes the names of its first window and
nothing else, a wildcard head takes nothing yet. From there on it is the match
from a wildcard on.
-/
import Mathlib.Data.List.DropRight
import PathGlob.Proofs.Pattern.FromWild

set_option autoImplicit false

namespace PathGlob

namespace Segment

open Text (byteSize IsName)
open Window (closingOf)

/-- What the separators in front of a pattern (`front`) and of a name (`lead`)
have to do with each other. A literal head asks for agreement, a wildcard head
asks for a separator only if it has one. -/
def FrontAgrees (segments : List Segment) (front lead : Bool) : Prop :=
  if segments.head?.any isWild then front = true → lead = true else front = lead

variable {name : Text} {names : List Text} {segments : List Segment} {closed front lead cp : Bool}

/-! ## The first window -/

/-- The first window of a name may begin on the separator in front of it. -/
theorem first_written {window more : List Text} (hne : window ≠ [])
    (hwindow : ∀ n ∈ window, IsName n) :
    Window.first (Text.byteMarks (Text.written lead closed (window ++ more))) 0 window.length =
      some ⟨0, byteSize (Text.written lead (closed || !more.isEmpty) window),
        closingOf (closed || !more.isEmpty)⟩ := by
  rw [Window.first, List.drop_zero]
  cases lead with
  | false =>
    rw [Text.written_false, Text.written_false, Window.cross_spell hne hwindow, Option.map_some,
      Nat.zero_add]
  | true =>
    have hcross := @Window.crossMarks_spell closed window more hne
      (fun n hn => (hwindow n hn).2) 1
    rw [Text.written, if_pos rfl, List.singleton_append, Window.byteMarks_separator]
    change Option.map _ (crossMarks 1 _ _) = _
    rw [hcross, Option.map_some, Text.written, if_pos rfl, Text.byteSize_append]
    rfl

/-- When names are missing there is no first window, unless just one is and the
name is closed. -/
theorem first_written_beyond (hne : names ≠ []) (hnames : ∀ n ∈ names, IsName n) (extra : Nat) :
    Window.first (Text.byteMarks (Text.written lead closed names)) 0 (names.length + (extra + 1)) =
      if closed && extra == 0 then some ⟨0, byteSize (Text.written lead closed names), .finish⟩
      else none := by
  rw [Window.first, List.drop_zero]
  cases lead with
  | false =>
    rw [Text.written_false, Window.cross_spell_beyond hne hnames, Nat.zero_add]
    cases closed && extra == 0 <;> rfl
  | true =>
    have hcross := @Window.crossMarks_spell_beyond closed names hne
      (fun n hn => (hnames n hn).2) 1 extra
    rw [Text.written, if_pos rfl, List.singleton_append, Window.byteMarks_separator]
    change Option.map _ (crossMarks 1 _ _) = _
    rw [hcross]
    cases closed && extra == 0 <;> rfl

/-! ## A literal head -/

theorem matchMany_literal_eq {text : Text} {width : Nat} {w : Window} {b : Bool}
    (hfront : Text.opened text = Text.opened name)
    (hfirst : Window.first (Text.byteMarks name) 0 width = some w)
    (hfits : fitsWindow name text segments w = .ok b) :
    matchMany name (.literal text width :: segments) =
      if b then matchFrom name w.hi segments else .ok false := by
  rw [matchMany, hfront, bne_self_eq_false, if_neg (by simp), hfirst]
  change (fitsWindow _ _ _ _).bind _ = _
  rw [hfits]
  cases b <;> rfl

theorem matchMany_literal_differs {text : Text} {width : Nat}
    (hfront : Text.opened text ≠ Text.opened name) :
    matchMany name (.literal text width :: segments) = .ok false := by
  rw [matchMany, if_pos (bne_iff_ne.2 hfront)]

theorem matchMany_literal_none {text : Text} {width : Nat}
    (hfront : Text.opened text = Text.opened name)
    (hfirst : Window.first (Text.byteMarks name) 0 width = none) :
    matchMany name (.literal text width :: segments) = .ok false := by
  rw [matchMany, hfront, bne_self_eq_false, if_neg (by simp), hfirst]

/-- A literal head with more components than the name does not match. -/
theorem matchMany_beyond {plain : List Text} (hread : Readable plain) (hplain : plain ≠ [])
    (hparts : ∀ part ∈ plain, IsName part) (hopen : closed = true → endsOpen segments = false)
    (hne : names ≠ []) (hnames : ∀ n ∈ names, IsName n)
    (hname : name = Text.written lead closed names) (hlt : names.length < plain.length) :
    matchMany name (.literal (Text.written lead true plain) plain.length :: segments) =
      .ok false := by
  have hfront : Text.opened (Text.written lead true plain) = Text.opened name := by
    rw [hname, Text.opened_written hparts, Text.opened_written hnames]
  obtain ⟨extra, hextra⟩ : ∃ extra, plain.length = names.length + (extra + 1) :=
    ⟨plain.length - names.length - 1, by omega⟩
  have hfirst := @first_written_beyond names closed lead hne hnames extra
  rw [← hextra, ← hname] at hfirst
  by_cases hphantom : (closed && extra == 0) = true
  · -- The window behind the closing separator is one separator short.
    rw [if_pos hphantom] at hfirst
    rw [Bool.and_eq_true] at hphantom
    obtain ⟨rfl, -⟩ := hphantom
    have hcut := cutOut_end [] name
    rw [List.nil_append] at hcut
    have hcut' : cutOut name 0 (byteSize name) = .ok (Text.written lead true names) := by
      rw [← hname]
      exact hcut
    have hfits := @not_fits_closed name segments ⟨0, byteSize name, .finish⟩ lead _ _ hread
      hplain (fun part hpart => (hparts part hpart).2) (fun n hn => (hnames n hn).2) hne hlt
      (hopen rfl) hcut'
    rw [matchMany_literal_eq hfront hfirst hfits, if_neg (by simp)]
  · rw [if_neg hphantom] at hfirst
    exact matchMany_literal_none hfront hfirst

/-- A literal head against the names of the first window: the match goes on
behind them if they are taken, and is over if not. -/
theorem matchMany_first {plain window more : List Text} (hread : Readable plain)
    (hplain : plain ≠ []) (hparts : ∀ part ∈ plain, IsName part)
    (hnames : ∀ n ∈ window ++ more, IsName n) (hlen : window.length = plain.length)
    (hname : name = Text.written lead closed (window ++ more)) :
    (takesMiddle closed plain segments window more →
      matchMany name (.literal (Text.written lead true plain) plain.length :: segments) =
        matchFrom name (byteSize (Text.written lead (closed || !more.isEmpty) window)) segments) ∧
    (¬ takesMiddle closed plain segments window more →
      matchMany name (.literal (Text.written lead true plain) plain.length :: segments) =
        .ok false) := by
  have hfront : Text.opened (Text.written lead true plain) = Text.opened name := by
    rw [hname, Text.opened_written hparts, Text.opened_written hnames]
  have hwindow := (List.forall_mem_append.1 hnames).1
  have hne : window ≠ [] := by
    rw [← List.length_pos_iff, hlen]
    exact List.length_pos_iff.2 hplain
  have hfirst := @first_written closed lead window more hne hwindow
  have hcut := cutOut_between [] (Text.written lead (closed || !more.isEmpty) window)
    (spell '/' closed more)
  rw [List.nil_append, ← Text.written_append, ← hname] at hcut
  rw [hlen, ← hname] at hfirst
  obtain ⟨b, hb, htakes⟩ := @fits_closed_literal name segments
    ⟨0, byteSize (Text.written lead (closed || !more.isEmpty) window),
      closingOf (closed || !more.isEmpty)⟩
    _ _ _ _ hread hplain (fun part hpart => (hparts part hpart).2) (fun n hn => (hwindow n hn).2)
    hlen.symm hcut rfl
  rw [matchMany_literal_eq hfront hfirst hb]
  constructor
  · intro h
    rw [htakes.2 h, if_pos rfl]
  · intro h
    rw [Bool.eq_false_iff.2 (mt htakes.1 h), if_neg Bool.false_ne_true]

/-- A literal head with segments behind it: the match goes on behind the first
window. -/
theorem matchMany_head {plain : List Text} (hread : Readable plain) (hplain : IsPlain plain)
    (hparts : ∀ part ∈ plain, IsName part) (hopen : closed = true → endsOpen segments = false)
    (hne : names ≠ []) (hnames : ∀ n ∈ names, IsName n)
    (hname : name = Text.written lead closed names) :
    ((∀ window more, names = window ++ more → ¬ takesMiddle closed plain segments window more) ∧
      matchMany name (.literal (Text.written lead true plain) plain.length :: segments) =
        .ok false) ∨
    ∃ window more pre, names = window ++ more ∧ takesMiddle closed plain segments window more ∧
      pre = Text.written lead (closed || !more.isEmpty) window ∧
      name = pre ++ spell '/' closed more ∧
      matchMany name (.literal (Text.written lead true plain) plain.length :: segments) =
        matchFrom name (byteSize pre) segments := by
  by_cases hle : plain.length ≤ names.length
  · obtain ⟨window, more, rfl, hlen⟩ : ∃ window more, names = window ++ more ∧
        window.length = plain.length :=
      ⟨_, _, (List.take_append_drop plain.length names).symm, List.length_take_of_le hle⟩
    obtain ⟨htaken, hrefused⟩ := @matchMany_first name segments closed lead plain window more hread
      hplain.1 hparts hnames hlen hname
    by_cases htakes : takesMiddle closed plain segments window more
    · exact .inr ⟨window, more, _, rfl, htakes, rfl, by rw [hname, Text.written_append],
        htaken htakes⟩
    · refine .inl ⟨?_, hrefused htakes⟩
      -- No other window begins where the name does.
      intro window' more' hsplit htakes'
      obtain ⟨rfl, rfl⟩ := front_unique hsplit hlen htakes'.1.length_eq.symm
      exact htakes htakes'
  · refine .inl ⟨?_, matchMany_beyond hread hplain.1 hparts hopen hne hnames hname (by omega)⟩
    intro window more hsplit htakes
    have hlen := htakes.1.length_eq
    rw [hsplit, List.length_append] at hle
    omega

/-- What the names in front of a literal head's window are is settled by their
number. -/
theorem leads_head {plain before window more : List Text} {tail : List Text → Prop}
    (hplain : IsPlain plain) (hfits : List.Forall₂ Mask.Fits plain window) :
    Leads (plain ++ before) tail (window ++ more) ↔ Leads before tail more := by
  constructor
  · rintro ⟨first, back, hnames, hsplits, h⟩
    obtain ⟨window', rest, rfl, hfits', hrest⟩ := (Splits.plain_append_iff hplain).1 hsplits
    rw [List.append_assoc] at hnames
    obtain ⟨rfl, rfl⟩ := front_unique hnames hfits.length_eq.symm hfits'.length_eq.symm
    exact ⟨rest, back, rfl, hrest, h⟩
  · rintro ⟨rest, back, rfl, hrest, h⟩
    exact ⟨window ++ rest, back, by simp,
      (Splits.plain_append_iff hplain).2 ⟨window, rest, rfl, hfits, hrest⟩, h⟩

/-- Without a window for the head there is no split. -/
theorem not_leads_head {plain before : List Text} {tail : List Text → Prop}
    (hplain : IsPlain plain)
    (hno : ∀ window more, names = window ++ more → ¬ takesMiddle closed plain segments window more)
    (hend : Leads before tail [] → closed = true ∨ endsOpen segments = true) :
    ¬ Leads (plain ++ before) tail names := by
  rintro ⟨first, back, rfl, hsplits, h⟩
  obtain ⟨window, rest, rfl, hfits, hrest⟩ := (Splits.plain_append_iff hplain).1 hsplits
  refine hno window (rest ++ back) (by simp) (takesMiddle_of_fits hfits ?_)
  intro hnil
  exact hend ⟨rest, back, hnil.symm, hrest, h⟩

/-! ## A wildcard head -/

theorem matchMany_wild {text : Text} (htext : Text.opened text = front)
    (hnames : ∀ n ∈ names, IsName n) (hname : name = Text.written lead closed names) :
    matchMany name (.wild text :: segments) =
      if front && !lead then .ok false
      else matchFrom name (byteSize (if lead then ['/'] else [])) (.wild text :: segments) := by
  have hlead : Text.opened name = lead := by rw [hname, Text.opened_written hnames]
  rw [matchMany, htext, hlead]
  cases lead <;> rfl

/-! ## Both kinds of pattern -/

theorem frontAgrees_wild {text : Text} :
    FrontAgrees (.wild text :: segments) front lead ↔ ¬ (front && !lead) = true := by
  cases front <;> cases lead <;> simp [FrontAgrees, isWild]

theorem frontAgrees_literal {text : Text} {width : Nat} :
    FrontAgrees (.literal text width :: segments) front lead ↔ front = lead := by
  simp [FrontAgrees, isWild]

/-- A separator in front belongs to the first segment. -/
theorem FromWild.exists_head {parts : List Text} (h : FromWild cp front segments parts)
    (hmany : 2 ≤ segments.length) (hparts : ∀ part ∈ parts, IsName part) :
    ∃ text rest, segments = .wild text :: rest ∧ Text.opened text = front := by
  cases h with
  | wild hstars => simp at hmany
  | literal hstars hplain =>
    exact ⟨_, _, rfl, Text.opened_written (List.forall_mem_append.1 hparts).1⟩
  | more hstars hplain h =>
    exact ⟨_, _, rfl, Text.opened_written (List.forall_mem_append.1 hparts).1⟩

/-- What comes before the last components. -/
theorem rdrop_last (before last : List Text) : (before ++ last).rdrop last.length = before := by
  simp [List.rdrop]

/-- The last literal of two segments or more. -/
theorem Laid.exists_last {parts : List Text} {text : Text} {width : Nat}
    (h : Laid cp front segments parts) (hmany : 2 ≤ segments.length)
    (hlast : segments.getLast? = some (.literal text width)) :
    ∃ before last, parts = before ++ last ∧ IsPlain last ∧ text = spell '/' cp last ∧
      width = last.length := by
  cases h with
  | literal hplain => simp at hmany
  | @head plain _ segments hplain h =>
    rw [List.getLast?_cons_of_ne_nil h.ne_nil] at hlast
    obtain ⟨before, last, rfl, hto⟩ := h.toLiteral hlast
    obtain ⟨rfl, rfl⟩ := Segment.literal.inj (Option.some.inj (hlast.symm.trans hto.getLast?))
    exact ⟨plain ++ before, last, by simp, hto.isPlain, rfl, rfl⟩
  | tail h =>
    obtain ⟨before, last, rfl, hto⟩ := h.toLiteral hlast
    obtain ⟨rfl, rfl⟩ := Segment.literal.inj (Option.some.inj (hlast.symm.trans hto.getLast?))
    exact ⟨before, last, rfl, hto.isPlain, rfl, rfl⟩

/-- A pattern that is one literal. -/
theorem Laid.eq_single {parts : List Text} {text : Text} {width : Nat}
    (h : Laid cp front segments parts) (hfew : ¬ 2 ≤ segments.length)
    (hlast : segments.getLast? = some (.literal text width)) :
    segments = [.literal (Text.written front cp parts) parts.length] ∧ IsPlain parts := by
  cases h with
  | literal hplain => exact ⟨rfl, hplain⟩
  | head hplain h =>
    have hpos := List.length_pos_iff.2 h.ne_nil
    rw [List.length_cons] at hfew
    omega
  | tail h =>
    cases h with
    | wild hstars => simp at hlast
    | literal hstars hplain => simp at hfew
    | more hstars hplain h => simp at hfew

/-- Behind a literal head the last literal is searched for in what the head leaves,
and both conditions are about the whole name again. -/
theorem ToLiteral.matchMany_head {plain before last : List Text}
    (hto : ToLiteral cp false segments before last) (hplain : IsPlain plain)
    (hread : Readable (plain ++ (before ++ last)))
    (hparts : ∀ part ∈ plain ++ (before ++ last), IsName part)
    (hclosed : closed = true → cp = true) (hne : names ≠ []) (hnames : ∀ n ∈ names, IsName n)
    (hname : name = Text.written lead closed names) :
    Answers (matchMany name (.literal (Text.written lead true plain) plain.length :: segments))
      (EndsWith (plain ++ before) (spell '/' cp last) last.length closed names ∧
        ¬ StopsEarly (plain ++ before) (spell '/' cp last) last.length names) := by
  obtain ⟨hpartsPlain, hpartsRest⟩ := List.forall_mem_append.1 hparts
  have hwidth : 0 < last.length := List.length_pos_iff.2 hto.isPlain.1
  rcases Segment.matchMany_head hread.left hplain hpartsPlain (fun _ => hto.endsOpen) hne hnames
    hname with ⟨hno, hanswer⟩ | ⟨window, more, pre, rfl, htakes, -, hname', hanswer⟩
  · rw [hanswer]
    refine answers_false ?_
    rintro ⟨hends, -⟩
    exact not_leads_head hplain hno (fun hnil => absurd hnil (not_endsWith_nil hwidth)) hends
  · rw [hanswer]
    have hmore : ∀ n ∈ more, IsName n := fun n hn => hnames n (List.mem_append_right _ hn)
    refine (hto.matchFrom hread.right (fun part hpart => (hpartsRest part hpart).2) hclosed hname'
      hmore).of_iff ?_
    exact and_congr (leads_head hplain htakes.1).symm (not_congr (leads_head hplain htakes.1).symm)

/-- **A pattern that ends in a literal**, and what its first segment has to do
with the start of the name. -/
theorem Laid.matchMany_toLiteral {before last : List Text}
    (h : Laid cp front segments (before ++ last)) (hmany : 2 ≤ segments.length)
    (hlast : segments.getLast? = some (.literal (spell '/' cp last) last.length))
    (hread : Readable (before ++ last)) (hparts : ∀ part ∈ before ++ last, IsName part)
    (hclosed : closed = true → cp = true) (hne : names ≠ []) (hnames : ∀ n ∈ names, IsName n)
    (hname : name = Text.written lead closed names) :
    Answers (matchMany name segments)
      (FrontAgrees segments front lead ∧
        EndsWith before (spell '/' cp last) last.length closed names ∧
        ¬ StopsEarly before (spell '/' cp last) last.length names) := by
  have hopened : Text.opened name = lead := by rw [hname, Text.opened_written hnames]
  -- The case split needs a variable for the components. What they are made of is
  -- settled by the last literal.
  generalize hall : before ++ last = parts at h hread hparts
  cases h with
  | literal hplain => simp at hmany
  | @head plain parts segments hplain h =>
    rw [List.getLast?_cons_of_ne_nil h.ne_nil] at hlast
    obtain ⟨before', last', rfl, hto⟩ := h.toLiteral hlast
    obtain ⟨-, hlen⟩ := Segment.literal.inj (Option.some.inj (hlast.symm.trans hto.getLast?))
    rw [← List.append_assoc] at hall
    obtain ⟨rfl, rfl⟩ := List.append_inj' hall hlen
    rw [frontAgrees_literal]
    by_cases hagree : front = lead
    · subst hagree
      refine (hto.matchMany_head hplain hread hparts hclosed hne hnames hname).of_iff ?_
      rw [and_iff_right rfl]
    · rw [matchMany_literal_differs]
      · exact answers_false fun hboth => hagree hboth.1
      · rwa [Text.opened_written (List.forall_mem_append.1 hparts).1, hopened]
  | tail h =>
    obtain ⟨text, rest, hsegments, hopened⟩ := h.exists_head hmany hparts
    obtain ⟨before', last', rfl, hto⟩ := h.toLiteral hlast
    obtain ⟨-, hlen⟩ := Segment.literal.inj (Option.some.inj (hlast.symm.trans hto.getLast?))
    obtain ⟨rfl, rfl⟩ := List.append_inj' hall hlen
    have hmatch := hto.matchFrom hread (fun part hpart => (hparts part hpart).2) hclosed hname hnames
    rw [hsegments] at hmatch ⊢
    rw [matchMany_wild hopened hnames hname, frontAgrees_wild]
    by_cases hagree : (front && !lead) = true
    · rw [if_pos hagree]
      exact answers_false fun hboth => hboth.1 hagree
    · rw [if_neg hagree]
      exact hmatch.of_iff (and_iff_right hagree).symm

/-- Behind a literal head the names it leaves are split over the rest. -/
theorem FromWild.matchMany_head {plain parts : List Text}
    (h : FromWild cp false segments parts) (hlast : segments.getLast?.any isWild = true)
    (hplain : IsPlain plain) (hread : Readable (plain ++ parts))
    (hparts : ∀ part ∈ plain ++ parts, IsName part) (hne : names ≠ [])
    (hnames : ∀ n ∈ names, IsName n) (hname : name = Text.written lead false names) :
    AnswersOrCuts name
      (matchMany name (.literal (Text.written lead true plain) plain.length :: segments))
      (cp = false ∧ Splits (plain ++ parts) names) := by
  obtain ⟨hpartsPlain, hpartsRest⟩ := List.forall_mem_append.1 hparts
  have hopen : false = true → endsOpen segments = false := fun hfalse => by cases hfalse
  rw [← leads_nil]
  rcases Segment.matchMany_head hread.left hplain hpartsPlain hopen hne hnames hname with
    ⟨hno, hanswer⟩ | ⟨window, more, pre, rfl, htakes, hpre, hname', hanswer⟩
  · rw [hanswer]
    refine .inl (answers_false ?_)
    rintro ⟨rfl, hleads⟩
    refine not_leads_head hplain hno (fun hnil => .inr ?_) hleads
    exact h.endsOpen_of_splits hpartsRest (leads_nil.1 hnil)
  · rw [hanswer]
    obtain ⟨hwindow, hmore⟩ := List.forall_mem_append.1 hnames
    have hwindowNe : window ≠ [] := by
      rintro rfl
      exact hplain.1 (List.forall₂_nil_right_iff.1 htakes.1)
    have hend : more = [] → pre ≠ [] ∧ Text.closed pre = false := by
      rintro rfl
      rw [List.isEmpty_nil, Bool.not_true, Bool.or_false] at hpre
      rw [hpre]
      exact open_end hwindowNe hwindow _
    refine (h.matchFrom hlast (by simp) hread.right hpartsRest hname' hmore hend).of_iff ?_
    rw [leads_head hplain htakes.1, leads_nil]

/-- **A pattern that ends in a wildcard.** -/
theorem Laid.matchMany_toWild {parts : List Text} (h : Laid cp front segments parts)
    (hmany : 2 ≤ segments.length) (hlast : segments.getLast?.any isWild = true)
    (hread : Readable parts) (hparts : ∀ part ∈ parts, IsName part) (hne : names ≠ [])
    (hnames : ∀ n ∈ names, IsName n) (hname : name = Text.written lead false names) :
    AnswersOrCuts name (matchMany name segments)
      (FrontAgrees segments front lead ∧ cp = false ∧ Splits parts names) := by
  have hopened : Text.opened name = lead := by rw [hname, Text.opened_written hnames]
  cases h with
  | literal hplain => simp at hmany
  | @head plain parts segments hplain h =>
    rw [List.getLast?_cons_of_ne_nil h.ne_nil] at hlast
    rw [frontAgrees_literal]
    by_cases hagree : front = lead
    · subst hagree
      refine (h.matchMany_head hlast hplain hread hparts hne hnames hname).of_iff ?_
      rw [and_iff_right rfl]
    · rw [matchMany_literal_differs]
      · exact .inl (answers_false fun hboth => hagree hboth.1)
      · rwa [Text.opened_written (List.forall_mem_append.1 hparts).1, hopened]
  | tail h =>
    obtain ⟨text, rest, hsegments, hopened⟩ := h.exists_head hmany hparts
    have hmatch := h.matchFrom hlast (fun _ => hmany) hread hparts hname hnames
      fun hnil => absurd hnil hne
    rw [hsegments] at hmatch ⊢
    rw [matchMany_wild hopened hnames hname, frontAgrees_wild]
    by_cases hagree : (front && !lead) = true
    · rw [if_pos hagree]
      exact .inl (answers_false fun hboth => hboth.1 hagree)
    · rw [if_neg hagree]
      exact hmatch.of_iff (and_iff_right hagree).symm

end Segment

end PathGlob
