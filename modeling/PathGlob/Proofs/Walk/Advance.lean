/-
What the walk of a whole pattern finds.

From a place on, the segments from a wildcard on select the entries below whose
further names can be split over their components (`reports_fromWild`).
The induction follows the segments. A sweep comes to every way in which the next
literal can be placed, so unlike the search in a name it leaves nothing to a
choice. A literal head leads to its places by a route, and there the wildcards
begin (`reports_advance`).
-/
import PathGlob.Proofs.Pattern.Layout
import PathGlob.Proofs.Walk.Sweep

set_option autoImplicit false

namespace PathGlob

open Lexical (IsBase IsDots)
open Segment (Readable FromWild Laid isStars)

/-- The entry below another is selected by some components: its further names can
be split over them, and if the last component is one of stars there is nothing
inside. -/
def PathTree.Selects (t : PathTree) (parts entry more : List Text) : Prop :=
  entry ++ more ∈ t.entries ∧ Splits parts more ∧
    (parts.getLast?.any isStars = true → t.IsEnd (entry ++ more))

namespace Expansion

variable {t : PathTree} {root : Text} {lead : Bool} {entry : List Text}

/-! ## From a wildcard on -/

section Selects

variable {stars plain parts more : List Text}

theorem selects_wild (hstars : IsWild stars) :
    t.Selects stars entry more ↔ entry ++ more ∈ t.entries ∧ t.IsEnd (entry ++ more) := by
  rw [PathTree.Selects, hstars.last_isStars]
  constructor
  · rintro ⟨hmem, -, hend⟩
    exact ⟨hmem, hend rfl⟩
  · rintro ⟨hmem, hend⟩
    exact ⟨hmem, .of_isWild hstars more, fun _ => hend⟩

/-- A last literal takes the last names. -/
theorem selects_literal (hstars : IsWild stars) (hplain : IsPlain plain)
    {q : List Text → Prop} :
    Ahead t plain [] entry q ↔ ∃ more, t.Selects (stars ++ plain) entry more ∧ q (entry ++ more) := by
  constructor
  · rintro ⟨more, front, window, hmem, hsplit, hfits, hq⟩
    refine ⟨more, ⟨hmem, ?_, ?_⟩, hq⟩
    · exact (Splits.wild_append_iff hstars).2 ⟨front, window, hsplit,
        (Splits.forall₂_iff hplain.2).2 hfits⟩
    · rw [hplain.last_isStars]
      simp
  · rintro ⟨more, ⟨hmem, hsplits, -⟩, hq⟩
    obtain ⟨front, window, hsplit, hwindow⟩ := (Splits.wild_append_iff hstars).1 hsplits
    exact ⟨more, front, window, hmem, hsplit, (Splits.forall₂_iff hplain.2).1 hwindow, hq⟩

/-- A literal in the middle takes names in the middle, and the rest is selected
from there. -/
theorem selects_more (hsound : t.Sound) (hstars : IsWild stars) (hplain : IsPlain plain)
    (hparts : parts ≠ []) {q : List Text → Prop} :
    (Ahead t plain [] entry fun target => ∃ more, t.Selects parts target more ∧ q (target ++ more)) ↔
      ∃ more, t.Selects (stars ++ (plain ++ parts)) entry more ∧ q (entry ++ more) := by
  have hlast : (stars ++ (plain ++ parts)).getLast? = parts.getLast? := by
    rw [List.getLast?_append_of_ne_nil _ (by simp [hparts]), List.getLast?_append_of_ne_nil _ hparts]
  constructor
  · rintro ⟨first, front, window, -, hsplit, hfits, more, ⟨hmem, hsplits, hend⟩, hq⟩
    rw [List.nil_append] at hsplit
    rw [List.append_assoc] at hmem hq hend
    refine ⟨first ++ more, ⟨hmem, ?_, ?_⟩, hq⟩
    · rw [hsplit, List.append_assoc]
      exact (Splits.wild_append_iff hstars).2 ⟨front, window ++ more, rfl,
        (Splits.plain_append_iff hplain).2 ⟨window, more, rfl, hfits, hsplits⟩⟩
    · rwa [hlast]
  · rintro ⟨_, ⟨hmem, hsplits, hend⟩, hq⟩
    obtain ⟨front, back, rfl, hback⟩ := (Splits.wild_append_iff hstars).1 hsplits
    obtain ⟨window, more, rfl, hfits, hmore⟩ := (Splits.plain_append_iff hplain).1 hback
    have hwindow : window ≠ [] := by
      rintro rfl
      exact hplain.1 (List.forall₂_nil_right_iff.1 hfits)
    have hassoc : entry ++ (front ++ (window ++ more)) = entry ++ (front ++ window) ++ more := by
      simp only [List.append_assoc]
    rw [hassoc] at hmem hend hq
    refine ⟨front ++ window, front, window, ?_, by simp, hfits, more, ⟨hmem, hmore, ?_⟩, hq⟩
    · exact hsound.upward _ more (by simp [hwindow]) hmem
    · rwa [hlast] at hend

end Selects

/-- **From a wildcard on** the entries below are told that the components
select. -/
theorem reports_fromWild {front : Bool} {segments : List Segment} {parts : List Text}
    (h : FromWild false front segments parts) (hsound : t.Sound) (hroot : IsBase root)
    (hread : Readable parts) (hparts : ∀ part ∈ parts, Text.IsName part) (once : Bool)
    (hpresent : t.Present entry) :
    Walk.Reports t.tree (advance once (t.height + 1) segments (Place.below root lead entry))
      (fun _ => True) fun m =>
        ∃ more, t.Selects parts entry more ∧ m = Text.written lead false (entry ++ more) := by
  -- Every sweep starts with the whole depth again, wherever it starts.
  have hdepth : t.height + 1 ≤ t.height + 1 + entry.length := Nat.le_add_right _ _
  induction h generalizing entry with
  | @wild front stars hstars =>
    rw [advance]
    refine (reports_ends hsound hroot once _ hpresent hdepth).of_iff (fun _ h => h) fun m => ?_
    simp only [EndBelow, selects_wild hstars, and_assoc]
  | @literal front stars plain hstars hplain =>
    have hpartsPlain := (List.forall_mem_append.1 hparts).2
    have htrim := @trimmed_written false false plain hplain.1 hpartsPlain
    rw [Text.written_false] at htrim
    have hhit : ∀ target ∈ t.entries, Walk.Reports t.tree
        (report once (Place.below root lead target).path) (fun _ => True)
        fun m => m = Text.written lead false target :=
      fun target _ => reports_report once _
    rw [advance, htrim]
    have hsweep := @reports_sweep t root lead entry hsound hroot plain hread.right
      (fun part hpart => (hpartsPlain part hpart).2) (fun child => report once child.path) _ hhit _
      [] [] hpresent (by simp) (.inl ⟨rfl, rfl⟩) (by simp) (List.length_pos_iff.2 hplain.1) hdepth
    refine hsweep.of_iff (fun _ h => h) fun m => ?_
    exact @selects_literal t entry stars plain hstars hplain fun target =>
      m = Text.written lead false target
  | @more front stars plain parts segments hstars hplain h ih =>
    obtain ⟨-, hpartsBehind⟩ := List.forall_mem_append.1 hparts
    obtain ⟨hpartsPlain, hpartsRest⟩ := List.forall_mem_append.1 hpartsBehind
    have htrim := @trimmed_written false true plain hplain.1 hpartsPlain
    rw [Text.written_false] at htrim
    have hrest : segments.isEmpty = false := List.isEmpty_eq_false_iff.2 h.ne_nil
    rw [advance, htrim, hrest]
    have hsweep := @reports_sweep t root lead entry hsound hroot plain hread.right.left
      (fun part hpart => (hpartsPlain part hpart).2) _
      (fun target m =>
        ∃ more, t.Selects parts target more ∧ m = Text.written lead false (target ++ more))
      (fun target hmem => ih hread.right.right hpartsRest (.inr hmem) (Nat.le_add_right _ _)) _ [] []
      hpresent (by simp) (.inl ⟨rfl, rfl⟩) (by simp) (List.length_pos_iff.2 hplain.1) hdepth
    refine hsweep.of_iff (fun _ h => h) fun m => ?_
    exact @selects_more t entry stars plain parts hsound hstars hplain h.names_ne_nil fun target =>
      m = Text.written lead false target

/-! ## From a literal head on -/

/-- Behind a literal that is not the last segment the walk goes on from every
place its route leads to. -/
theorem advance_literal {once : Bool} {depth width : Nat} {text : Text} {segments : List Segment}
    {place : Place} (hne : segments ≠ []) :
    advance once depth (.literal text width :: segments) place =
      ((Route.ofText (Text.trimmed text)).follow (fun path => .done [path]) place).bind
        (Walk.each fun path => advance once depth segments (place.descend path)) := by
  obtain ⟨segment, rest, rfl⟩ := List.exists_cons_of_ne_nil hne
  rfl

theorem ofText_written {front closed : Bool} {names : List Text} (hne : names ≠ [])
    (hnames : ∀ n ∈ names, Text.IsName n) :
    Route.ofText (Text.trimmed (Text.written front closed names)) = Route.gather [] names := by
  have hdrop := @dropOpening_written false false names hnames
  rw [Text.written_false] at hdrop
  rw [trimmed_written hne hnames, Route.ofText, hdrop, Text.components_spell hne hnames]

theorem ofText_open {front : Bool} {names : List Text} (hne : names ≠ [])
    (hnames : ∀ n ∈ names, Text.IsName n) :
    Route.ofText (Text.written front false names) = Route.gather [] names := by
  rw [Route.ofText, dropOpening_written hnames, Text.components_spell hne hnames]

/-- A literal that is the whole pattern selects the entries its route leads
to. -/
theorem selects_whole {plain : List Text} (hplain : IsPlain plain)
    {q : List Text → Prop} :
    Route.Leads t [] plain q ↔ ∃ more, t.Selects plain [] more ∧ q more := by
  have hlast := hplain.last_isStars []
  rw [List.nil_append] at hlast
  refine exists_congr fun words => ?_
  rw [PathTree.Selects, hlast, List.nil_append, Splits.forall₂_iff hplain.2]
  constructor
  · rintro ⟨hfits, hpresent, hq⟩
    have hne : words ≠ [] := by
      rintro rfl
      exact hplain.1 (List.forall₂_nil_right_iff.1 hfits)
    exact ⟨⟨hpresent.resolve_left hne, hfits, by simp⟩, hq⟩
  · rintro ⟨⟨hmem, hfits, -⟩, hq⟩
    exact ⟨hfits, .inr hmem, hq⟩

/-- A literal head takes the first names, and the rest is selected from there. -/
theorem selects_head (hsound : t.Sound) {plain parts : List Text} (hplain : IsPlain plain)
    (hparts : parts ≠ []) {q : List Text → Prop} :
    (Route.Leads t [] plain fun target => ∃ more, t.Selects parts target more ∧ q (target ++ more)) ↔
      ∃ more, t.Selects (plain ++ parts) [] more ∧ q more := by
  have hlast : (plain ++ parts).getLast? = parts.getLast? :=
    List.getLast?_append_of_ne_nil _ hparts
  constructor
  · rintro ⟨words, hfits, -, more, ⟨hmem, hsplits, hend⟩, hq⟩
    refine ⟨words ++ more, ⟨hmem, ?_, ?_⟩, hq⟩
    · exact (Splits.plain_append_iff hplain).2 ⟨words, more, rfl, hfits, hsplits⟩
    · rwa [hlast]
  · rintro ⟨_, ⟨hmem, hsplits, hend⟩, hq⟩
    obtain ⟨words, more, rfl, hfits, hmore⟩ := (Splits.plain_append_iff hplain).1 hsplits
    rw [List.nil_append] at hmem hend
    refine ⟨words, hfits, hsound.present_above (.inr hmem), more, ⟨hmem, hmore, ?_⟩, hq⟩
    rwa [hlast] at hend

/-- From a place that a route leads to, named by its path alone, the walk goes on
below the entry with this path. -/
theorem reports_descend {segments : List Segment} {parts target : List Text}
    (h : FromWild false false segments parts) (hsound : t.Sound) (hroot : IsBase root)
    (hread : Readable parts) (hparts : ∀ part ∈ parts, Text.IsName part) (once : Bool)
    (hpresent : t.Present target) :
    Walk.Reports t.tree
      (advance once (t.height + 1) segments
        ((Place.below root lead []).descend (Place.below root lead target).path))
      (fun _ => True) fun m => ∃ other, t.Present other ∧
        (Place.below root lead target).path = (Place.below root lead other).path ∧
          ∃ more, t.Selects parts other more ∧ m = Text.written lead false (other ++ more) := by
  have hname := hsound.isName_of_present hpresent
  have hplace := @Place.descend_below root lead [] target (by simp) hname
  rw [List.nil_append] at hplace
  rw [hplace]
  refine (reports_fromWild h hsound hroot hread hparts once hpresent).of_iff
    (fun _ h => h) fun m => ?_
  constructor
  · intro h
    exact ⟨target, hpresent, rfl, h⟩
  · rintro ⟨other, hother, hpath, h⟩
    obtain rfl := Place.path_injective hname (hsound.isName_of_present hother) hpath
    exact h

section Head

variable {plain : List Text} (hsound : t.Sound) (hroot : IsBase root)
  (hread : Readable plain) (hplain : IsPlain plain) (hnames : ∀ n ∈ plain, Text.IsName n)
  (hescape : ∀ part ∈ plain, '\\' ∉ part) (hfirst : ∀ part ∈ plain.head?, ¬ IsDots part)

include hsound hroot hread hplain hnames hescape hfirst

/-- One literal, told where its route leads. -/
theorem reports_single {front : Bool} {width : Nat} (once : Bool) (depth : Nat) :
    Walk.Reports t.tree
      (advance once depth [.literal (Text.written front false plain) width]
        (Place.below root lead []))
      (fun _ => True) fun m =>
        ∃ more, t.Selects plain [] more ∧ m = Text.written lead false more := by
  have hreach : ∀ target, t.Present target → Route.Brings t
      ((report once (Place.below root lead target).path).bind fun _ => .done [])
      (fun _ => False) (· = (Place.below root lead target).path) := by
    intro target _
    refine ((reports_report once _).bind fun _ _ => Walk.reports_done (by simp)).of_iff
      (fun _ h => h) fun m => Iff.of_eq (or_false _)
  have hfollow := @Route.follow_gather t root lead [] []
    (fun path => (report once path).bind fun _ => .done []) hsound hroot plain (fun _ _ => False)
    (fun target m => m = (Place.below root lead target).path) hreach hread hnames hescape (.inl rfl)
    ⟨by simp, by simp⟩ fun _ => hfirst
  rw [advance, ofText_open hplain.1 hnames]
  refine (hfollow.bind fun _ _ => Walk.reports_done trivial).of_iff (fun _ h => h) fun m => ?_
  rw [or_false]
  exact @selects_whole t plain hplain fun target => m = Text.written lead false target

/-- A literal head, and the walk from where its route leads. -/
theorem reports_head {front : Bool} {width : Nat} {segments : List Segment} {parts : List Text}
    (hfrom : FromWild false false segments parts) (hreadParts : Readable parts)
    (hnamesParts : ∀ n ∈ parts, Text.IsName n) (once : Bool) :
    Walk.Reports t.tree
      (advance once (t.height + 1) (.literal (Text.written front true plain) width :: segments)
        (Place.below root lead []))
      (fun _ => True) fun m =>
        ∃ more, t.Selects (plain ++ parts) [] more ∧ m = Text.written lead false more := by
  have hreach : ∀ target, t.Present target → Route.Brings t
      (.done [(Place.below root lead target).path]) (· = (Place.below root lead target).path)
      fun _ => False := by
    intro target _
    exact Walk.reports_done fun path => List.mem_singleton
  have hfollow := @Route.follow_gather t root lead [] [] (fun path => .done [path]) hsound hroot plain
    (fun target path => path = (Place.below root lead target).path) (fun _ _ => False) hreach hread
    hnames hescape (.inl rfl) ⟨by simp, by simp⟩ fun _ => hfirst
  -- The route only brings back paths, all that is told comes behind it.
  have hquiet : Route.Brings t _ _ fun _ => False := hfollow.of_iff (fun _ => Iff.rfl) fun m => by
    simp [Route.Leads]
  rw [advance_literal hfrom.ne_nil, ofText_written hplain.1 hnames]
  refine Walk.Reports.andThen hquiet fun paths hpaths => ?_
  have hon : ∀ path ∈ paths, Walk.Reports t.tree
      (advance once (t.height + 1) segments ((Place.below root lead []).descend path))
      (fun _ => True) fun m => ∃ target, t.Present target ∧
        path = (Place.below root lead target).path ∧
          ∃ more, t.Selects parts target more ∧ m = Text.written lead false (target ++ more) := by
    intro path hpath
    obtain ⟨target, -, hpresent, rfl⟩ := (hpaths path).1 hpath
    exact reports_descend hfrom hsound hroot hreadParts hnamesParts once hpresent
  refine (Walk.reports_each hon).of_iff (fun _ h => h) fun m => ?_
  rw [← @selects_head t hsound plain parts hplain hfrom.names_ne_nil fun target =>
    m = Text.written lead false target]
  constructor
  · rintro ⟨path, hpath, target, htarget, hsame, h⟩
    obtain ⟨words, hfits, hpresent, hwords⟩ := (hpaths path).1 hpath
    obtain rfl := Place.path_injective (hsound.isName_of_present htarget)
      (hsound.isName_of_present hpresent) (hsame.symm.trans hwords)
    exact ⟨target, hfits, hpresent, h⟩
  · rintro ⟨words, hfits, hpresent, h⟩
    exact ⟨_, (hpaths _).2 ⟨words, hfits, hpresent, rfl⟩, words, hpresent, rfl, h⟩

end Head

/-- **The segments of a pattern** are told the entries that its components
select. -/
theorem reports_advance {front : Bool} {segments : List Segment} {parts : List Text}
    (h : Laid false front segments parts) (hsound : t.Sound) (hroot : IsBase root)
    (hread : Readable parts) (hparts : ∀ part ∈ parts, Text.IsName part)
    (hescape : ∀ part ∈ parts, '\\' ∉ part) (hfirst : ∀ part ∈ parts.head?, ¬ IsDots part)
    (once : Bool) :
    Walk.Reports t.tree (advance once (t.height + 1) segments (Place.below root lead []))
      (fun _ => True) fun m =>
        ∃ more, t.Selects parts [] more ∧ m = Text.written lead false more := by
  cases h with
  | literal hplain =>
    exact reports_single hsound hroot hread hplain hparts hescape hfirst once _
  | @head plain names segments hplain hfrom =>
    obtain ⟨hpartsPlain, hpartsRest⟩ := List.forall_mem_append.1 hparts
    have hescapePlain := (List.forall_mem_append.1 hescape).1
    rw [List.head?_append_of_ne_nil _ hplain.1] at hfirst
    exact reports_head hsound hroot hread.left hplain hpartsPlain hescapePlain hfirst hfrom
      hread.right hpartsRest once
  | tail hfrom =>
    refine (reports_fromWild hfrom hsound hroot hread hparts once (.inl rfl)).of_iff
      (fun _ h => h) fun m => ?_
    simp only [List.nil_append]

end Expansion

end PathGlob
