/-
Following a literal down a tree of paths.

A route leads to every place whose names, behind those of the place it starts
from, the components fit one by one (`follow_gather`). Runs of plain components
are asked for as one path, so nothing is known of the places in between; that
there is an entry at the end says enough, since what is above an entry is one.
-/
import PathGlob.Proofs.Pattern.Window
import PathGlob.Proofs.Walk.Place
import PathGlob.Proofs.Walk.Reports
import PathGlob.Walk.Route

set_option autoImplicit false

namespace PathGlob

open Lexical (IsBase IsDots)
open Segment (Readable)

namespace PathTree

variable {t : PathTree} {entry : List Text}

/-- The root or an entry. -/
def Present (t : PathTree) (entry : List Text) : Prop := entry = [] ∨ entry ∈ t.entries

/-- Names that a tree can be asked for below a root. -/
structure Askable (entry : List Text) : Prop where
  isName : ∀ name ∈ entry, Text.IsName name
  grounded : ∀ name ∈ entry.head?, ¬ IsDots name

theorem Askable.append {more : List Text} (h : Askable entry) (hne : entry ≠ [])
    (hmore : ∀ name ∈ more, Text.IsName name) : Askable (entry ++ more) where
  isName := List.forall_mem_append.2 ⟨h.isName, hmore⟩
  grounded := by
    rw [List.head?_append_of_ne_nil _ hne]
    exact h.grounded

theorem Askable.left {front back : List Text} (h : Askable (front ++ back)) : Askable front where
  isName name hname := h.isName name (List.mem_append_left _ hname)
  grounded name hname := h.grounded name (by rw [List.head?_append, Option.mem_def.1 hname]; rfl)

theorem Sound.askable (hsound : t.Sound) (h : t.Present entry) : Askable entry := by
  rcases h with rfl | h
  · exact ⟨by simp, by simp⟩
  · refine ⟨hsound.isName entry h, fun name hname => ?_⟩
    cases entry with
    | nil => simp at hname
    | cons first rest =>
      obtain rfl : first = name := by simpa using hname
      exact hsound.grounded first rest h

theorem Sound.isName_of_present (hsound : t.Sound) (h : t.Present entry) :
    ∀ name ∈ entry, Text.IsName name := (hsound.askable h).isName

/-- Something below is there only if what is above is. -/
theorem Sound.present_above (hsound : t.Sound) {more : List Text} (h : t.Present (entry ++ more)) :
    t.Present entry := by
  by_cases hne : entry = []
  · exact .inl hne
  · rcases h with hnil | h
    · exact absurd (List.append_eq_nil_iff.1 hnil).1 hne
    · exact .inr (hsound.upward entry more hne h)

theorem present_concat {name : Text} : t.Present (entry ++ [name]) ↔ entry ++ [name] ∈ t.entries := by
  rw [Present, or_iff_right (by simp)]

end PathTree

namespace Walk

variable {t : PathTree} {root : Text} {lead : Bool} {entry : List Text}

theorem reports_list_below (hroot : IsBase root) (h : PathTree.Askable entry) :
    Reports t.tree (list (Place.below root lead entry)) (· = some (t.namesIn entry))
      fun _ => False := by
  have hkey := @Place.key_below_dir root lead entry hroot h.isName h.grounded
  refine reports_list ?_
  change Except.ok (t.namesIn (PathTree.key _)) = _
  rw [hkey]

theorem reports_probe_below (hroot : IsBase root) (h : PathTree.Askable entry) :
    Reports t.tree (probe (Place.below root lead entry)) (· = t.has entry) fun _ => False := by
  have hkey := @Place.key_below_dir root lead entry hroot h.isName h.grounded
  refine reports_probe ?_
  change Except.ok (t.has (PathTree.key _)) = _
  rw [hkey]

end Walk

namespace Route

variable {t : PathTree} {root : Text} {lead : Bool} {entry plain : List Text}
  {reach : Text → Walk (List Text)}

/-- What is brought back by a walk that brings back paths, and what is told on
the way. -/
def Brings (t : PathTree) (w : Walk (List Text)) (member found : Text → Prop) : Prop :=
  Walk.Reports t.tree w (fun paths => ∀ path, path ∈ paths ↔ member path) found

theorem brings_nil {member found : Text → Prop} (hmember : ∀ path, ¬ member path)
    (hfound : ∀ m, ¬ found m) : Brings t (.done []) member found := by
  refine (Walk.reports_done ?_).of_iff (fun _ h => h) fun m => (iff_false_intro (hfound m)).symm
  intro path
  exact iff_of_false (by simp) (hmember path)

theorem Brings.of_iff {w : Walk (List Text)} {member member' found found' : Text → Prop}
    (h : Brings t w member found) (hmember : ∀ path, member path ↔ member' path)
    (hfound : ∀ m, found m ↔ found' m) : Brings t w member' found' :=
  Walk.Reports.of_iff h (fun _ hpaths path => (hpaths path).trans (hmember path)) hfound

/-- What is in front of a route after some plain components: nothing new, nothing
to ask for, or a path to ask for. -/
theorem closeRun_cases (plain : List Text) (next : Route) :
    closeRun plain next = next ∨ closeRun plain next = .nowhere ∨
      (plain ≠ [] ∧ Text.join plain ≠ []) ∧ closeRun plain next = .probe (Text.join plain) next := by
  rw [closeRun]
  split
  · exact .inl rfl
  · rename_i hplain
    dsimp only
    split
    · exact .inr (.inl rfl)
    · rename_i hjoin
      exact .inr (.inr ⟨⟨by simpa using hplain, by simpa using hjoin⟩, rfl⟩)

theorem closeRun_eq {plain : List Text} (hjoin : Text.join plain ≠ []) (next : Route) :
    closeRun plain next = .probe (Text.join plain) next := by
  have hplain : plain ≠ [] := by
    rintro rfl
    exact hjoin rfl
  rw [closeRun, if_neg (by simpa using hplain)]
  exact if_neg (by simpa using hjoin)

/-- A run of plain components in front of a route. -/
theorem follow_closeRun (hroot : IsBase root) (hname : ∀ n ∈ entry, Text.IsName n)
    (hask : PathTree.Askable (entry ++ plain)) (hpresent : t.Present entry) {next : Route}
    {member found : Text → Prop}
    (h : t.Present (entry ++ plain) →
      Brings t (follow reach next (Place.below root lead (entry ++ plain))) member found) :
    Brings t (follow reach (closeRun plain next) (Place.below root lead entry))
      (fun path => t.Present (entry ++ plain) ∧ member path)
      fun m => t.Present (entry ++ plain) ∧ found m := by
  by_cases hne : plain = []
  · subst hne
    rw [List.append_nil] at h ⊢
    refine (h hpresent).of_iff (fun _ => (and_iff_right hpresent).symm)
      fun _ => (and_iff_right hpresent).symm
  · have hjoin : Text.join plain ≠ [] := by
      rw [Text.join_eq_spell]
      exact Text.spell_ne_nil hne fun n hn => hask.isName n (List.mem_append_right _ hn)
    rw [closeRun_eq hjoin, follow, Place.child_below hname hne]
    refine (Walk.reports_probe_below hroot hask).andThen ?_
    rintro _ rfl
    by_cases hthere : t.has (entry ++ plain) = true
    · have hhere : t.Present (entry ++ plain) := PathTree.has_iff.1 hthere
      rw [if_pos hthere]
      exact (h hhere).of_iff (fun _ => (and_iff_right hhere).symm)
        fun _ => (and_iff_right hhere).symm
    · have hgone : ¬ t.Present (entry ++ plain) := fun h => hthere (PathTree.has_iff.2 h)
      rw [if_neg hthere]
      exact brings_nil (fun _ h => hgone h.1) fun _ h => hgone h.1

/-- A component with a mask: on from every name that fits. -/
theorem follow_choose (hsound : t.Sound) (hroot : IsBase root) (hpresent : t.Present entry)
    {mask : Text} {items : Mask} (hread : Mask.parse mask = .ok items) {next : Route}
    {member found : Text → Text → Prop}
    (h : ∀ name, entry ++ [name] ∈ t.entries → Mask.Fits mask name →
      Brings t (follow reach next (Place.below root lead (entry ++ [name]))) (member name)
        (found name)) :
    Brings t (follow reach (.choose mask next) (Place.below root lead entry))
      (fun path => ∃ name, entry ++ [name] ∈ t.entries ∧ Mask.Fits mask name ∧ member name path)
      fun m => ∃ name, entry ++ [name] ∈ t.entries ∧ Mask.Fits mask name ∧ found name m := by
  have hask := hsound.askable hpresent
  rw [follow]
  refine (Walk.reports_list_below hroot hask).andThen ?_
  rintro _ rfl
  have hnames : ∀ name ∈ t.namesIn entry, Walk.Reports t.tree
      ((Walk.fits mask name).bind fun answer =>
        if answer = true then follow reach next ((Place.below root lead entry).child name)
        else pure [])
      (fun paths => ∀ path, path ∈ paths ↔ Mask.Fits mask name ∧ member name path)
      fun m => Mask.Fits mask name ∧ found name m := by
    intro name hname
    have hmem := PathTree.mem_namesIn.1 hname
    have hfits := Mask.fits_of_parse hread name
    refine (Walk.reports_fits hfits).andThen ?_
    rintro _ rfl
    rw [Place.child_name hask.isName]
    by_cases haccepts : Mask.accepts items name = true
    · have hfit : Mask.Fits mask name := by rw [Mask.Fits, hfits, haccepts]
      rw [if_pos haccepts]
      exact Brings.of_iff (h name hmem hfit) (fun _ => (and_iff_right hfit).symm)
        fun _ => (and_iff_right hfit).symm
    · have hfit : ¬ Mask.Fits mask name := by
        rw [Mask.Fits, hfits, Except.ok.injEq]
        exact haccepts
      rw [if_neg haccepts]
      exact brings_nil (fun _ h => hfit h.1) fun _ h => hfit h.1
  refine Brings.of_iff (Walk.reports_collect hnames) (fun path => ?_) fun m => ?_
  · exact exists_congr fun name => and_congr_left' PathTree.mem_namesIn
  · exact exists_congr fun name => and_congr_left' PathTree.mem_namesIn

/-- There is an entry whose names behind those of `entry` the parts fit, and `q`
holds of it. -/
def Leads (t : PathTree) (entry parts : List Text) (q : List Text → Prop) : Prop :=
  ∃ words, List.Forall₂ Mask.Fits parts words ∧ t.Present (entry ++ words) ∧ q (entry ++ words)

variable {q : List Text → Prop} {part : Text} {rest : List Text}

theorem leads_nil : Leads t entry [] q ↔ t.Present entry ∧ q entry := by
  constructor
  · rintro ⟨words, hfits, h⟩
    obtain rfl := List.forall₂_nil_left_iff.1 hfits
    rwa [List.append_nil] at h
  · intro h
    exact ⟨[], .nil, by rwa [List.append_nil]⟩

/-- A plain component stands for itself. -/
theorem leads_plain (hplain : Mask.isPlain part = true) (hescape : '\\' ∉ part) :
    Leads t (entry ++ [part]) rest q ↔ Leads t entry (part :: rest) q := by
  constructor
  · rintro ⟨words, hfits, h⟩
    rw [List.append_assoc, List.singleton_append] at h
    exact ⟨part :: words, .cons ((Mask.fits_plain hplain hescape).2 rfl) hfits, h⟩
  · rintro ⟨_, hfits, h⟩
    obtain ⟨word, words, hword, hwords, rfl⟩ := List.forall₂_cons_left_iff.1 hfits
    obtain rfl := (Mask.fits_plain hplain hescape).1 hword
    refine ⟨words, hwords, ?_⟩
    rwa [List.append_assoc, List.singleton_append]

/-- Any component stands for the names that fit it. -/
theorem leads_cons (hsound : t.Sound) :
    (t.Present entry ∧ ∃ name, entry ++ [name] ∈ t.entries ∧ Mask.Fits part name ∧
      Leads t (entry ++ [name]) rest q) ↔ Leads t entry (part :: rest) q := by
  constructor
  · rintro ⟨-, name, -, hname, words, hfits, h⟩
    rw [List.append_assoc, List.singleton_append] at h
    exact ⟨name :: words, .cons hname hfits, h⟩
  · rintro ⟨_, hfits, hpresent, hq⟩
    obtain ⟨name, words, hname, hwords, rfl⟩ := List.forall₂_cons_left_iff.1 hfits
    rw [← List.singleton_append, ← List.append_assoc] at hpresent hq
    have habove := hsound.present_above hpresent
    exact ⟨hsound.present_above habove, name, PathTree.present_concat.1 habove, hname, words, hwords,
      hpresent, hq⟩

/-- **Following a route.** It leads from an entry to every entry whose further
names the components fit. -/
theorem follow_gather (hsound : t.Sound) (hroot : IsBase root) {parts : List Text}
    {member found : List Text → Text → Prop}
    (hreach : ∀ target, t.Present target →
      Brings t (reach (Place.below root lead target).path) (member target) (found target))
    (hread : Readable parts) (hparts : ∀ part ∈ parts, Text.IsName part)
    (hescape : ∀ part ∈ parts, '\\' ∉ part) (hpresent : t.Present entry)
    (hask : PathTree.Askable (entry ++ plain))
    (hfirst : entry ++ plain = [] → ∀ part ∈ parts.head?, ¬ IsDots part) :
    Brings t (follow reach (gather plain parts) (Place.below root lead entry))
      (fun path => Leads t (entry ++ plain) parts (member · path))
      fun m => Leads t (entry ++ plain) parts (found · m) := by
  have hname := hsound.isName_of_present hpresent
  -- By induction on the components. Plain ones are put off in `plain`, and asked
  -- for together when a mask or the end comes.
  induction parts generalizing plain entry with
  | nil =>
    have hhere : t.Present (entry ++ plain) →
        Brings t (follow reach .here (Place.below root lead (entry ++ plain)))
          (member (entry ++ plain)) (found (entry ++ plain)) := by
      intro hpresent
      rw [follow]
      exact hreach _ hpresent
    refine (follow_closeRun hroot hname hask hpresent hhere).of_iff (fun path => ?_) fun m => ?_
    · exact (@leads_nil t (entry ++ plain) (member · path)).symm
    · exact (@leads_nil t (entry ++ plain) (found · m)).symm
  | cons part rest ih =>
    obtain ⟨⟨items, hitems⟩, hread⟩ := List.forall_mem_cons.1 hread
    obtain ⟨hpart, hparts⟩ := List.forall_mem_cons.1 hparts
    obtain ⟨hescapePart, hescape⟩ := List.forall_mem_cons.1 hescape
    rw [gather]
    by_cases hplain : Mask.isPlain part = true
    · have hmore : PathTree.Askable (entry ++ (plain ++ [part])) := by
        rw [← List.append_assoc]
        by_cases hne : entry ++ plain = []
        · rw [hne]
          exact ⟨by simpa using hpart, by simpa using hfirst hne part rfl⟩
        · exact hask.append hne (by simpa using hpart)
      rw [if_pos hplain]
      refine (ih hread hparts hescape hpresent hmore (by simp) hname).of_iff (fun _ => ?_) fun _ => ?_
      · rw [← List.append_assoc]
        exact leads_plain hplain hescapePart
      · rw [← List.append_assoc]
        exact leads_plain hplain hescapePart
    · have hchoose : t.Present (entry ++ plain) → _ := fun hhere =>
        follow_choose hsound hroot hhere hitems fun name hmem _ =>
          @ih (entry ++ plain ++ [name]) [] hread hparts hescape (.inr hmem)
            (by rw [List.append_nil]; exact hsound.askable (.inr hmem)) (by simp)
            (hsound.isName_of_present (.inr hmem))
      rw [if_neg hplain]
      refine (follow_closeRun hroot hname hask hpresent hchoose).of_iff (fun _ => ?_) fun _ => ?_
      · simp only [List.append_nil]
        exact leads_cons hsound
      · simp only [List.append_nil]
        exact leads_cons hsound

end Route

end PathGlob
