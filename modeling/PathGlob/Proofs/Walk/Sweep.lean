/-
The two walks below a place that visit everything there.

Looking for ends tells of each path below with nothing inside (`reports_ends`).
A sweep goes on from each path below whose last names fit the literal
(`reports_sweep`). It keeps the last names as a text, with a separator in front
or without, and all that matters of this text is which names it is written from
(`Holds`).

Both are bounded by the depth of the tree. What is left of the depth and what
has been gone down together exceed the longest entry, so the bound is never met.
-/
import PathGlob.Proofs.Walk.Route
import PathGlob.Walk.Expansion

set_option autoImplicit false

namespace PathGlob

open Lexical (IsBase)
open Segment (Readable)

namespace Expansion

variable {t : PathTree} {root : Text} {lead : Bool} {entry : List Text}

/-- Going down by a name keeps within the depth. -/
theorem depth_pos (hpresent : t.Present entry) {depth : Nat}
    (hdepth : t.height + 1 ≤ depth + entry.length) : 0 < depth := by
  rcases hpresent with rfl | h
  · rw [List.length_nil] at hdepth
    omega
  · have := PathTree.length_le_height h
    omega

/-! ## Ends -/

/-- An entry below one is below a name inside it, unless it is the same. -/
theorem exists_name_below (hsound : t.Sound) {more : List Text} (hne : more ≠ [])
    (h : entry ++ more ∈ t.entries) :
    ∃ name rest, more = name :: rest ∧ entry ++ [name] ∈ t.entries := by
  obtain ⟨name, rest, rfl⟩ := List.exists_cons_of_ne_nil hne
  refine ⟨name, rest, rfl, hsound.upward (entry ++ [name]) rest (by simp) ?_⟩
  rwa [List.append_assoc, List.singleton_append]

theorem isEnd_iff (hsound : t.Sound) :
    t.IsEnd entry ↔ ∀ more, entry ++ more ∈ t.entries → more = [] := by
  constructor
  · intro hend more h
    by_contra hne
    obtain ⟨name, rest, -, hname⟩ := exists_name_below hsound hne h
    exact hend name hname
  · intro h name hname
    exact absurd (h [name] hname) (by simp)

/-- The ends below an entry, as they are told. -/
def EndBelow (t : PathTree) (lead : Bool) (entry : List Text) (m : Text) : Prop :=
  ∃ more, entry ++ more ∈ t.entries ∧ t.IsEnd (entry ++ more) ∧
    m = Text.written lead false (entry ++ more)

/-- Below an end there is the end itself. The root is not told, even with nothing
inside. -/
theorem endBelow_of_isEnd (hsound : t.Sound) (hpresent : t.Present entry) (hend : t.IsEnd entry)
    {m : Text} :
    EndBelow t lead entry m ↔ entry ≠ [] ∧ m = Text.written lead false entry := by
  constructor
  · rintro ⟨more, hmem, -, rfl⟩
    obtain rfl := (isEnd_iff hsound).1 hend more hmem
    rw [List.append_nil] at hmem ⊢
    exact ⟨hsound.ne_nil entry hmem, rfl⟩
  · rintro ⟨hne, rfl⟩
    refine ⟨[], ?_⟩
    rw [List.append_nil]
    exact ⟨hpresent.resolve_left hne, hend, rfl⟩

/-- Where something is inside, an end is further down. -/
theorem endBelow_of_not_isEnd (hsound : t.Sound) (hinside : ¬ t.IsEnd entry) {m : Text} :
    EndBelow t lead entry m ↔ ∃ name ∈ t.namesIn entry, EndBelow t lead (entry ++ [name]) m := by
  have hassoc : ∀ (name : Text) (rest : List Text),
      entry ++ [name] ++ rest = entry ++ (name :: rest) := by
    intro name rest
    rw [List.append_assoc, List.singleton_append]
  constructor
  · rintro ⟨more, hmem, hend, hm⟩
    have hne : more ≠ [] := by
      rintro rfl
      rw [List.append_nil] at hend
      exact hinside hend
    obtain ⟨name, rest, rfl, hname⟩ := exists_name_below hsound hne hmem
    refine ⟨name, PathTree.mem_namesIn.2 hname, rest, ?_⟩
    rw [hassoc]
    exact ⟨hmem, hend, hm⟩
  · rintro ⟨name, -, rest, h⟩
    rw [hassoc] at h
    exact ⟨name :: rest, h⟩

/-- **Looking for ends** tells of every path below with nothing inside. -/
theorem reports_ends (hsound : t.Sound) (hroot : IsBase root) (once : Bool) (depth : Nat)
    (hpresent : t.Present entry) (hdepth : t.height + 1 ≤ depth + entry.length) :
    Walk.Reports t.tree (ends once depth (Place.below root lead entry)) (fun _ => True)
      (EndBelow t lead entry) := by
  induction depth generalizing entry with
  | zero => exact absurd (depth_pos hpresent hdepth) (by simp)
  | succ depth ih =>
    have hask := hsound.askable hpresent
    rw [ends]
    refine (Walk.reports_list_below hroot hask).andThen ?_
    rintro _ rfl
    cases hnames : t.namesIn entry with
    | nil =>
      have hend := PathTree.namesIn_eq_nil.1 hnames
      change Walk.Reports t.tree (if (Place.below root lead entry).isRoot = true then _ else _) _ _
      rw [Place.isRoot_below hask.isName]
      by_cases hentry : entry = []
      · rw [if_pos (List.isEmpty_iff.2 hentry)]
        refine (Walk.reports_done trivial).of_iff (fun _ h => h) fun m => ?_
        rw [endBelow_of_isEnd hsound hpresent hend]
        exact iff_of_false not_false fun h => h.1 hentry
      · rw [List.isEmpty_eq_false_iff.2 hentry, if_neg (by simp)]
        refine (reports_report once _).of_iff (fun _ h => h) fun m => ?_
        rw [endBelow_of_isEnd hsound hpresent hend, and_iff_right hentry]
        rfl
    | cons first others =>
      have hinside : ¬ t.IsEnd entry := by
        intro hend
        rw [PathTree.namesIn_eq_nil.2 hend] at hnames
        cases hnames
      change Walk.Reports t.tree (Walk.each _ (first :: others)) _ _
      rw [← hnames]
      refine (Walk.reports_each fun name hname => ?_).of_iff (fun _ h => h) fun m =>
        (endBelow_of_not_isEnd hsound hinside).symm
      rw [Place.child_name hask.isName]
      refine ih (.inr (PathTree.mem_namesIn.1 hname)) ?_
      rw [List.length_append, List.length_singleton]
      omega

/-! ## Windows -/

/-- The text a sweep keeps, and the names it is written from. -/
def Holds (window : Text) (names : List Text) : Prop :=
  (names = [] ∧ window = []) ∨ ∃ front, names ≠ [] ∧ window = Text.written front false names

/-- One name more. -/
theorem Holds.snoc {window : Text} {names : List Text} {name : Text} (h : Holds window names)
    (hname : ∀ n ∈ entry, Text.IsName n) (hbelow : names.length ≤ entry.length) :
    ∃ front, window ++ (Place.below root lead (entry ++ [name])).path.drop
      (Place.below root lead entry).path.length = Text.written front false (names ++ [name]) := by
  rw [Place.drop_path hname, List.isEmpty_cons, if_neg (by simp)]
  rcases h with ⟨rfl, rfl⟩ | ⟨front, hne, rfl⟩
  · exact ⟨!entry.isEmpty, rfl⟩
  · have hentry : entry ≠ [] := by
      rintro rfl
      exact hne (List.length_eq_zero_iff.1 (Nat.le_zero.1 hbelow))
    have hlead : (!entry.isEmpty) = true := by simp [hentry]
    refine ⟨front, ?_⟩
    rw [Place.written_open_append hne (by simp), hlead]
    rfl

theorem dropOpening_written {front closed : Bool} {names : List Text}
    (hnames : ∀ n ∈ names, Text.IsName n) :
    Text.dropOpening (Text.written front closed names) = spell '/' closed names := by
  have hopened := @Text.opened_spell closed names hnames
  cases front with
  | true => rfl
  | false =>
    rw [Text.written_false]
    exact Text.dropOpening_eq_self hopened

/-- Without separators at its ends a written text is written from the same
names. -/
theorem trimmed_written {front closed : Bool} {names : List Text} (hne : names ≠ [])
    (hnames : ∀ n ∈ names, Text.IsName n) :
    Text.trimmed (Text.written front closed names) = spell '/' false names := by
  have hclosed := @Text.closed_spell closed names hne hnames
  rw [Text.trimmed, dropOpening_written hnames]
  cases closed with
  | false =>
    rw [Text.dropClosing, hclosed]
    simp
  | true =>
    have hspell := @Text.spell_ne_nil false _ hne hnames
    have hpos := List.length_pos_iff.2 hspell
    rw [Text.dropClosing, hclosed, if_pos rfl, spell_true hne, List.dropLast_concat,
      if_pos (by rw [List.length_append, List.length_singleton]; omega)]

/-- Sliding drops the first name and the separator behind it. -/
theorem slide_written {front : Bool} {name : Text} {rest : List Text} (hname : Text.IsName name) :
    slide (Text.written front false (name :: rest)) = spell '/' false rest := by
  have hskip : ∀ chars : Text, '/' ∉ chars →
      ((chars ++ ((if false || !rest.isEmpty then ['/'] else []) ++ spell '/' false rest)).dropWhile
        (· != '/')).drop 1 = spell '/' false rest := by
    intro chars hchars
    have hall : ∀ c ∈ chars, (c != '/') = true := by
      intro c hc
      rw [bne_iff_ne]
      rintro rfl
      exact hchars hc
    rw [List.dropWhile_append_of_pos hall]
    cases rest with
    | nil => rfl
    | cons next rest => rfl
  rw [slide, Text.written]
  cases front with
  | true => exact hskip name hname.2
  | false =>
    obtain ⟨c, chars, rfl⟩ := List.exists_cons_of_ne_nil hname.1
    exact hskip chars fun h => hname.2 (List.mem_cons_of_mem _ h)

theorem Holds.of_slide {front : Bool} {name : Text} {rest : List Text} (hname : Text.IsName name) :
    Holds (slide (Text.written front false (name :: rest))) rest := by
  rw [slide_written hname]
  by_cases hrest : rest = []
  · subst hrest
    exact .inl ⟨rfl, rfl⟩
  · exact .inr ⟨false, hrest, rfl⟩

/-! ## Sweeps -/

/-- Below the entry, with the names already held before those further down, some
last names fit the literal, and `q` holds of the entry they lead to. -/
def Ahead (t : PathTree) (plain held entry : List Text) (q : List Text → Prop) : Prop :=
  ∃ more front window, entry ++ more ∈ t.entries ∧ held ++ more = front ++ window ∧
    List.Forall₂ Mask.Fits plain window ∧ q (entry ++ more)

section Ahead

variable {plain held : List Text} {q : List Text → Prop}

/-- While names are missing nothing fits yet. -/
theorem ahead_fill (hsound : t.Sound) (hlt : held.length < plain.length) :
    Ahead t plain held entry q ↔ ∃ name, entry ++ [name] ∈ t.entries ∧
      Ahead t plain (held ++ [name]) (entry ++ [name]) q := by
  constructor
  · rintro ⟨more, front, window, hmem, hsplit, hfits, hq⟩
    have hne : more ≠ [] := by
      rintro rfl
      have hcount := congrArg List.length hsplit
      have hlen := hfits.length_eq
      simp only [List.length_append, List.length_nil] at hcount
      omega
    obtain ⟨name, rest, rfl, hname⟩ := exists_name_below hsound hne hmem
    refine ⟨name, hname, rest, front, window, ?_, ?_, hfits, ?_⟩
    · rwa [List.append_assoc, List.singleton_append]
    · rwa [List.append_assoc, List.singleton_append]
    · rwa [List.append_assoc, List.singleton_append]
  · rintro ⟨name, -, more, front, window, hmem, hsplit, hfits, hq⟩
    rw [List.append_assoc, List.singleton_append] at hmem hsplit hq
    exact ⟨name :: more, front, window, hmem, hsplit, hfits, hq⟩

/-- With as many names as the literal has the window fits here, or it is one name
further on. -/
theorem ahead_slide {first : Text} {rest : List Text}
    (hlen : (first :: rest).length = plain.length) (hmem : entry ∈ t.entries) :
    Ahead t plain (first :: rest) entry q ↔
      (List.Forall₂ Mask.Fits plain (first :: rest) ∧ q entry) ∨ Ahead t plain rest entry q := by
  constructor
  · rintro ⟨more, front, window, hmore, hsplit, hfits, hq⟩
    cases front with
    | nil =>
      -- The window has as many names as are held, so there are no others.
      have hcount := congrArg List.length hsplit
      have hwidth := hfits.length_eq
      simp only [List.length_append, List.length_nil] at hcount
      obtain rfl : more = [] := List.length_eq_zero_iff.1 (by omega)
      rw [List.append_nil] at hsplit hq
      rw [List.nil_append] at hsplit
      subst hsplit
      exact .inl ⟨hfits, hq⟩
    | cons other front =>
      rw [List.cons_append, List.cons_append, List.cons.injEq] at hsplit
      exact .inr ⟨more, front, window, hmore, hsplit.2, hfits, hq⟩
  · rintro (⟨hfits, hq⟩ | ⟨more, front, window, hmore, hsplit, hfits, hq⟩)
    · exact ⟨[], [], first :: rest, by rwa [List.append_nil], by simp, hfits, by rwa [List.append_nil]⟩
    · exact ⟨more, first :: front, window, hmore, by rw [List.cons_append, hsplit, List.cons_append],
        hfits, hq⟩

end Ahead

/-- One window of a sweep. -/
theorem reports_window {plain held : List Text} {front : Bool} (hread : Readable plain)
    (hsep : ∀ part ∈ plain, '/' ∉ part) (hne : held ≠ []) (hheld : ∀ n ∈ held, Text.IsName n)
    (hlen : plain.length = held.length) :
    ∃ answer, Mask.fits (spell '/' false plain) (Text.trimmed (Text.written front false held)) =
        .ok answer ∧ (answer = true ↔ List.Forall₂ Mask.Fits plain held) := by
  obtain ⟨masks, hmasks⟩ := hread.readAs
  have hparse := @Mask.parse_spell false _ _ hmasks
  have hfits := @Mask.fits_written false false _ _ _ hmasks hsep (fun n hn => (hheld n hn).2) hlen
  rw [trimmed_written hne hheld, Mask.fits_of_parse hparse]
  refine ⟨_, rfl, ?_⟩
  rw [← hfits, Mask.Fits, Text.written_false, Mask.fits_of_parse hparse, Except.ok.injEq]
  rfl

/-- As many names as the literal has: perhaps a hit, and then one name further
on. -/
theorem reports_full {plain rest : List Text} {first : Text} {front : Bool}
    (hread : Readable plain) (hsep : ∀ part ∈ plain, '/' ∉ part)
    (hheld : ∀ n ∈ first :: rest, Text.IsName n) (hlen : plain.length = (first :: rest).length)
    (hmem : entry ∈ t.entries) {hit next : Walk Unit} {found : List Text → Text → Prop}
    (hhit : Walk.Reports t.tree hit (fun _ => True) (found entry))
    (hnext : Walk.Reports t.tree next (fun _ => True) fun m => Ahead t plain rest entry (found · m)) :
    Walk.Reports t.tree
      ((Walk.fits (spell '/' false plain)
        (Text.trimmed (Text.written front false (first :: rest)))).bind fun answer =>
          if answer = true then hit.bind fun _ => next else next)
      (fun _ => True) fun m => Ahead t plain (first :: rest) entry (found · m) := by
  obtain ⟨answer, hanswer, hfits⟩ := @reports_window _ _ front hread hsep (by simp) hheld hlen
  have hslide : ∀ m, Ahead t plain (first :: rest) entry (found · m) ↔
      (List.Forall₂ Mask.Fits plain (first :: rest) ∧ found entry m) ∨
        Ahead t plain rest entry (found · m) := by
    intro m
    exact @ahead_slide t entry plain (found · m) first rest hlen.symm hmem
  refine (Walk.reports_fits hanswer).andThen ?_
  rintro answer rfl
  by_cases hhere : answer = true
  · rw [if_pos hhere]
    refine (hhit.bind fun _ _ => hnext).of_iff (fun _ h => h) fun m => ?_
    rw [hslide, and_iff_right (hfits.1 hhere)]
  · rw [if_neg hhere]
    refine hnext.of_iff (fun _ h => h) fun m => ?_
    rw [hslide, or_iff_right fun h => hhere (hfits.2 h.1)]

/-- **A sweep** goes on from every path below whose last names fit. -/
theorem reports_sweep (hsound : t.Sound) (hroot : IsBase root) {plain : List Text}
    (hread : Readable plain) (hsep : ∀ part ∈ plain, '/' ∉ part)
    {hit : Place → Walk Unit} {found : List Text → Text → Prop}
    (hhit : ∀ target ∈ t.entries, Walk.Reports t.tree (hit (Place.below root lead target))
      (fun _ => True) (found target))
    (depth : Nat) {window : Text} {held : List Text} (hpresent : t.Present entry)
    (hheld : ∀ n ∈ held, Text.IsName n) (hwindow : Holds window held)
    (hbelow : held.length ≤ entry.length) (hlt : held.length < plain.length)
    (hdepth : t.height + 1 ≤ depth + entry.length) :
    Walk.Reports t.tree
      (sweep (spell '/' false plain) plain.length hit depth (Place.below root lead entry) window
        held.length)
      (fun _ => True) fun m => Ahead t plain held entry (found · m) := by
  induction depth generalizing entry window held with
  | zero => exact absurd (depth_pos hpresent hdepth) (by simp)
  | succ depth ih =>
    have hask := hsound.askable hpresent
    rw [sweep]
    refine (Walk.reports_list_below hroot hask).andThen ?_
    rintro _ rfl
    have hfill : ∀ m, (∃ name ∈ t.namesIn entry,
        Ahead t plain (held ++ [name]) (entry ++ [name]) (found · m)) ↔
        Ahead t plain held entry (found · m) := by
      intro m
      rw [ahead_fill hsound hlt]
      exact exists_congr fun name => and_congr_left' PathTree.mem_namesIn
    refine (Walk.reports_each ?_).of_iff (fun _ h => h) hfill
    intro name hname
    have hmem := PathTree.mem_namesIn.1 hname
    have hheldMore : ∀ n ∈ held ++ [name], Text.IsName n :=
      List.forall_mem_append.2 ⟨hheld, (List.forall_mem_append.1 (hsound.isName _ hmem)).2⟩
    have hdepthMore : t.height + 1 ≤ depth + (entry ++ [name]).length := by
      rw [List.length_append, List.length_singleton]
      omega
    have hcount : (held ++ [name]).length = held.length + 1 := by
      rw [List.length_append, List.length_singleton]
    have hcountEntry : (entry ++ [name]).length = entry.length + 1 := by
      rw [List.length_append, List.length_singleton]
    -- What is kept has one name more now, and is perhaps long enough to be held
    -- against the literal.
    obtain ⟨front, hfront⟩ := @Holds.snoc root lead entry window held name hwindow hask.isName hbelow
    rw [Place.child_name hask.isName]
    dsimp only
    rw [hfront]
    by_cases hfew : held.length + 1 < plain.length
    · rw [if_pos hfew, ← hcount]
      exact ih (.inr hmem) hheldMore (.inr ⟨front, by simp, rfl⟩) (by omega) (by omega) hdepthMore
    · rw [if_neg hfew]
      obtain ⟨first, rest, hfirst⟩ := List.exists_cons_of_ne_nil (by simp : held ++ [name] ≠ [])
      rw [hfirst] at hheldMore hcount ⊢
      have hrest : rest.length = held.length := by simpa using hcount
      have hnext := ih (.inr hmem) (List.forall_mem_cons.1 hheldMore).2
        (@Holds.of_slide front first rest (hheldMore first (by simp))) (by omega) (by omega) hdepthMore
      rw [hrest] at hnext
      exact reports_full hread hsep hheldMore (by omega) hmem (hhit _ hmem) hnext

end Expansion

end PathGlob
