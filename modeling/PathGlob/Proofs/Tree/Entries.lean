/-
The entries of a tree of paths.

`Sound` is what holds of every tree built from paths, and all that a walk relies
on: entries are made of names, whatever is above an entry is an entry, and the
topmost name is more than dots. The last is what makes asking exact. A path
below a root of dots and separators asks for the names it spells, and none of
them is taken for a part of the root (`key_below`).
-/
import PathGlob.Proofs.Lexical.Dots
import PathGlob.Tree.Paths
import Mathlib.Data.List.Nodup

set_option autoImplicit false

namespace PathGlob

namespace PathTree

open Lexical (IsDots Grounded isDotOrSeparator)

/-! ## Soundness -/

/-- What holds of the entries of a tree of paths. -/
structure Sound (t : PathTree) : Prop where
  ne_nil : ∀ entry ∈ t.entries, entry ≠ []
  isName : ∀ entry ∈ t.entries, ∀ name ∈ entry, Text.IsName name
  /-- What is above an entry is an entry. -/
  upward : ∀ front back : List Text, front ≠ [] → front ++ back ∈ t.entries → front ∈ t.entries
  /-- The topmost name is more than dots. -/
  grounded : ∀ (name : Text) (rest : List Text), name :: rest ∈ t.entries → ¬ IsDots name

/-- There is nothing inside the entry. -/
def IsEnd (t : PathTree) (entry : List Text) : Prop := ∀ name, entry ++ [name] ∉ t.entries

theorem mem_insert {entry e : List Text} {entries : List (List Text)} :
    e ∈ insert entry entries ↔ e = entry ∨ e ∈ entries := by
  induction entries with
  | nil => simp [insert]
  | cons first rest ih =>
    rw [insert]
    by_cases hlt : entry < first
    · rw [if_pos hlt, List.mem_cons]
    · rw [if_neg hlt]
      by_cases heq : entry = first
      · rw [if_pos heq, heq, List.mem_cons]
        simp
      · rw [if_neg heq, List.mem_cons, ih, List.mem_cons]
        exact or_left_comm

theorem mem_foldl_insert {e : List Text} {given entries : List (List Text)} :
    e ∈ given.foldl (fun es e => insert e es) entries ↔ e ∈ given ∨ e ∈ entries := by
  induction given generalizing entries with
  | nil => simp
  | cons first rest ih =>
    rw [List.foldl_cons, ih, mem_insert, List.mem_cons]
    exact or_left_comm.trans or_assoc.symm

/-- The lineage of an entry: what it begins with. -/
theorem mem_lineage {entry e : List Text} : e ∈ lineage entry ↔ e ≠ [] ∧ e <+: entry := by
  induction entry generalizing e with
  | nil =>
    rw [lineage, List.prefix_nil]
    simp
  | cons name rest ih =>
    rw [lineage, List.mem_cons, List.mem_map]
    constructor
    · rintro (rfl | ⟨e', he', rfl⟩)
      · exact ⟨by simp, ⟨rest, rfl⟩⟩
      · exact ⟨by simp, List.cons_prefix_cons.2 ⟨rfl, (ih.1 he').2⟩⟩
    · rintro ⟨hne, hbegins⟩
      obtain ⟨first, e', rfl⟩ := List.exists_cons_of_ne_nil hne
      obtain ⟨rfl, hbelow⟩ := List.cons_prefix_cons.1 hbegins
      by_cases hnil : e' = []
      · exact .inl (by rw [hnil])
      · exact .inr ⟨e', ih.2 ⟨hnil, hbelow⟩, rfl⟩

/-- **The entries** of a tree of paths: what the paths describe and everything
above. -/
theorem mem_ofPaths {paths : List Text} {e : List Text} :
    e ∈ (ofPaths paths).entries ↔ e ≠ [] ∧ ∃ path ∈ paths, e <+: entryOf path := by
  rw [ofPaths, mem_foldl_insert, List.mem_flatMap]
  simp only [mem_lineage, List.not_mem_nil, or_false]
  constructor
  · rintro ⟨path, hpath, hne, hbegins⟩
    exact ⟨hne, path, hpath, hbegins⟩
  · rintro ⟨hne, path, hpath, hbegins⟩
    exact ⟨path, hpath, hne, hbegins⟩

/-! ## Order -/

/-- The order is kept when an entry is put at its place. -/
theorem pairwise_insert {entry : List Text} {entries : List (List Text)}
    (h : entries.Pairwise (· < ·)) : (insert entry entries).Pairwise (· < ·) := by
  induction entries with
  | nil => exact List.pairwise_singleton _ entry
  | cons first rest ih =>
    obtain ⟨hfirst, hrest⟩ := List.pairwise_cons.1 h
    rw [insert]
    by_cases hlt : entry < first
    · rw [if_pos hlt, List.pairwise_cons]
      refine ⟨List.forall_mem_cons.2 ⟨hlt, fun e he => ?_⟩, h⟩
      exact List.lt_trans hlt (hfirst e he)
    · rw [if_neg hlt]
      by_cases heq : entry = first
      · rwa [if_pos heq]
      · rw [if_neg heq, List.pairwise_cons]
        refine ⟨fun e he => ?_, ih hrest⟩
        rcases mem_insert.1 he with rfl | he
        · by_contra hge
          exact heq (Std.Trichotomous.trichotomous (r := (· < ·)) e first hlt hge)
        · exact hfirst e he

/-- The entries are in order, and none is there twice. -/
theorem pairwise_ofPaths (paths : List Text) : (ofPaths paths).entries.Pairwise (· < ·) := by
  have hfold : ∀ (given entries : List (List Text)), entries.Pairwise (· < ·) →
      (given.foldl (fun es e => insert e es) entries).Pairwise (· < ·) := by
    intro given
    induction given with
    | nil => exact fun _ h => h
    | cons first rest ih => exact fun entries h => ih _ (pairwise_insert h)
  exact hfold _ [] .nil

theorem nodup_ofPaths (paths : List Text) : (ofPaths paths).entries.Nodup := by
  refine (pairwise_ofPaths paths).imp ?_
  rintro e _ hlt rfl
  exact List.lt_irrefl e hlt

/-! ## Spellings -/

theorem dropSeparators_append {c : Char} (hc : c ≠ '/') (a b : Text) :
    dropSeparators (a ++ c :: b) = dropSeparators a ++ c :: b := by
  rw [dropSeparators, dropSeparators, List.dropWhile_append]
  by_cases hempty : (a.dropWhile (· == '/')).isEmpty = true
  · rw [if_pos hempty, List.isEmpty_iff.1 hempty, List.nil_append]
    simp [hc]
  · rw [if_neg hempty]

theorem dropSeparators_of_notMem {a : Text} (ha : '/' ∉ a) : dropSeparators a = a := by
  cases a with
  | nil => rfl
  | cons c a =>
    rw [List.mem_cons, not_or] at ha
    simp [dropSeparators, Ne.symm ha.1]

/-- Without the separators at its ends a text begins as before. -/
theorem grounded_spelled {path : Text} (h : Grounded (Lexical.withoutDots path)) :
    Grounded (spelled path) := by
  obtain ⟨lead, dots, c, rest, hwithout, hdots, hdot, hsep⟩ := h
  have hfront : dropSeparators (Lexical.withoutDots path) = dots ++ c :: rest := by
    rw [hwithout, ← List.append_assoc, dropSeparators_append hsep]
    cases lead with
    | false => rw [if_neg (by simp), List.nil_append, dropSeparators_of_notMem hdots.notMem]
    | true =>
      have hdrop := dropSeparators_of_notMem hdots.notMem
      rw [dropSeparators] at hdrop ⊢
      rw [if_pos rfl, List.singleton_append, List.dropWhile_cons, if_pos (by simp), hdrop]
  have hreverse : (dots ++ c :: rest).reverse = rest.reverse ++ c :: dots.reverse := by simp
  -- From the other end nothing is dropped beyond the character behind the dots.
  refine ⟨false, dots, c, (dropSeparators rest.reverse).reverse, ?_, hdots, hdot, hsep⟩
  rw [spelled, hfront, hreverse, dropSeparators_append hsep]
  simp

/-- A separator at the end is not asked for. -/
theorem spelled_close (path : Text) : spelled (path ++ ['/']) = spelled path := by
  have hsplit := (List.takeWhile_append_dropWhile (p := isDotOrSeparator) (l := path)).symm
  have hrun : ∀ d ∈ path.takeWhile isDotOrSeparator, isDotOrSeparator d = true :=
    fun d hd => List.mem_takeWhile_imp hd
  have htail := List.head?_dropWhile_not isDotOrSeparator path
  generalize path.takeWhile isDotOrSeparator = run at hsplit hrun
  generalize path.dropWhile isDotOrSeparator = tail at hsplit htail
  subst hsplit
  cases tail with
  | nil =>
    -- Of dots and separators alone a separator is left at most, and that is dropped.
    have hclose : ∀ d ∈ run ++ ['/'], isDotOrSeparator d = true :=
      List.forall_mem_append.2 ⟨hrun, List.forall_mem_singleton.2 rfl⟩
    rw [List.append_nil, spelled, spelled, Lexical.withoutDots_all hrun,
      Lexical.withoutDots_all hclose]
    split <;> split <;> rfl
  | cons c rest =>
    have hc : isDotOrSeparator c = false := by simpa using htail
    have hsep : c ≠ '/' := by
      rintro rfl
      exact absurd hc (by decide)
    have hdrop : ∀ t, dropSeparators ('/' :: t) = dropSeparators t := fun t => by
      simp [dropSeparators]
    obtain ⟨_, front, -, hcut⟩ := Lexical.exists_dotPart run
    rw [spelled, spelled, List.append_assoc, List.cons_append, (hcut _ hc).2, (hcut _ hc).2,
      dropSeparators_append hsep, dropSeparators_append hsep, ← List.cons_append,
      ← List.append_assoc, List.reverse_append, List.reverse_singleton, List.singleton_append, hdrop]

theorem exists_body {name : Text} (hname : Text.IsName name) (hdots : ¬ IsDots name) :
    ∃ dots c rest, name = dots ++ c :: rest ∧ IsDots dots ∧ c ≠ '.' ∧ c ≠ '/' := by
  have hsplit := (List.takeWhile_append_dropWhile (p := (· == '.')) (l := name)).symm
  have hfront : IsDots (name.takeWhile (· == '.')) :=
    fun d hd => by simpa using List.mem_takeWhile_imp hd
  have hback := List.head?_dropWhile_not (· == '.') name
  generalize name.takeWhile (· == '.') = dots at hsplit hfront
  generalize name.dropWhile (· == '.') = back at hsplit hback
  cases back with
  | nil =>
    rw [List.append_nil] at hsplit
    exact absurd (hsplit ▸ hfront) hdots
  | cons c rest =>
    refine ⟨dots, c, rest, hsplit, hfront, by simpa using hback, ?_⟩
    rintro rfl
    exact hname.2 (by rw [hsplit]; simp)

theorem names_dropSeparators (t : Text) : Text.names (dropSeparators t) = Text.names t := by
  induction t with
  | nil => rfl
  | cons c t ih =>
    by_cases hc : c = '/'
    · subst hc
      rw [Text.names_separator, ← ih]
      simp [dropSeparators]
    · simp [dropSeparators, hc]

theorem names_dropSeparators_reverse (t : Text) :
    Text.names (dropSeparators t.reverse).reverse = Text.names t := by
  induction t using List.reverseRecOn with
  | nil => rfl
  | append_singleton t c ih =>
    rw [List.reverse_concat]
    by_cases hc : c = '/'
    · subst hc
      rw [Text.names_close, ← ih]
      simp [dropSeparators]
    · simp [dropSeparators, hc]

/-- **The entry of a path** has the names that stand behind the dots. -/
theorem entryOf_eq (path : Text) : entryOf path = Text.names (Lexical.withoutDots path) := by
  show Text.names (spelled path) = _
  rw [spelled, names_dropSeparators_reverse, names_dropSeparators]

/-- Names that begin with more than dots are the entry of the path they are joined to. -/
theorem entryOf_join {entry : List Text} (hnames : ∀ name ∈ entry, Text.IsName name)
    (hdots : ∀ name ∈ entry.head?, ¬ IsDots name) : entryOf (Text.join entry) = entry := by
  rw [entryOf_eq, Text.join_eq_spell]
  cases entry with
  | nil => rfl
  | cons name rest =>
    obtain ⟨dots, c, body, hname, hall, hdot, hsep⟩ := exists_body (hnames name (by simp)) (hdots name rfl)
    have hgrounded : Grounded (spell '/' false (name :: rest)) := by
      rw [spell, hname, List.append_assoc, List.cons_append]
      exact ⟨false, dots, c, _, rfl, hall, hdot, hsep⟩
    rw [Lexical.withoutDots_eq_self hgrounded, Text.names_spell hnames]

/-- The entry of a path begins with more than dots. -/
theorem entryOf_cases (path : Text) :
    entryOf path = [] ∨ ∃ name more, entryOf path = name :: more ∧ ¬ IsDots name := by
  rcases Lexical.withoutDots_cases path with h | h | h
  · left
    rw [entryOf, spelled, h]
    cbv
  · left
    rw [entryOf, spelled, h]
    cbv
  · exact .inr (grounded_spelled h).exists_name

/-- **Soundness** of a tree of paths. -/
theorem sound_ofPaths (paths : List Text) : (ofPaths paths).Sound where
  ne_nil entry hentry := (mem_ofPaths.1 hentry).1
  isName entry hentry name hname := by
    obtain ⟨-, path, -, hbegins⟩ := mem_ofPaths.1 hentry
    exact Text.isName_of_mem_names (t := spelled path) (hbegins.subset hname)
  upward front back hfront hmem := by
    obtain ⟨-, path, hpath, hbegins⟩ := mem_ofPaths.1 hmem
    exact mem_ofPaths.2 ⟨hfront, path, hpath, (List.prefix_append front back).trans hbegins⟩
  grounded name rest hmem := by
    obtain ⟨-, path, -, hbegins⟩ := mem_ofPaths.1 hmem
    rcases entryOf_cases path with hnil | ⟨first, more, hfirst, hdots⟩
    · rw [hnil, List.prefix_nil] at hbegins
      simp at hbegins
    · rw [hfirst] at hbegins
      obtain ⟨rfl, -⟩ := List.cons_prefix_cons.1 hbegins
      exact hdots

/-! ## Answers -/

theorem childName_eq_some {dir entry : List Text} {name : Text} :
    childName dir entry = some name ↔ entry = dir ++ [name] := by
  fun_induction childName dir entry with
  | case1 first => simp [eq_comm]
  | case2 dir d entry ih => simp [ih]
  | case3 d dir e entry hne => simp [Ne.symm hne]
  | case4 dir entry hnil hcons =>
    constructor
    · intro h
      simp at h
    · rintro rfl
      cases dir with
      | nil => exact absurd rfl (hnil name rfl)
      | cons d dir => exact absurd rfl (hcons d dir d (dir ++ [name]) rfl)

theorem mem_namesIn {t : PathTree} {dir : List Text} {name : Text} :
    name ∈ t.namesIn dir ↔ dir ++ [name] ∈ t.entries := by
  rw [namesIn, List.mem_filterMap]
  constructor
  · rintro ⟨entry, hentry, hname⟩
    rwa [childName_eq_some.1 hname] at hentry
  · intro h
    exact ⟨_, h, childName_eq_some.2 rfl⟩

/-- No name is listed twice. -/
theorem nodup_namesIn (paths : List Text) (dir : List Text) : ((ofPaths paths).namesIn dir).Nodup := by
  refine List.Nodup.filterMap (fun e e' name hname hname' => ?_) (nodup_ofPaths paths)
  rw [childName_eq_some.1 hname, childName_eq_some.1 hname']

theorem namesIn_eq_nil {t : PathTree} {dir : List Text} : t.namesIn dir = [] ↔ t.IsEnd dir := by
  rw [List.eq_nil_iff_forall_not_mem]
  exact forall_congr' fun name => not_congr mem_namesIn

theorem has_iff {t : PathTree} {entry : List Text} :
    t.has entry = true ↔ entry = [] ∨ entry ∈ t.entries := by
  rw [has, Bool.or_eq_true, List.isEmpty_iff, List.contains_iff_mem]

/-- Nothing is listed where nothing is. -/
theorem Sound.namesIn_of_not_has {t : PathTree} (ht : t.Sound) {entry : List Text}
    (hne : entry ≠ []) (hhas : t.has entry = false) : t.namesIn entry = [] := by
  rw [List.eq_nil_iff_forall_not_mem]
  intro name hname
  have hmem := ht.upward entry [name] hne (mem_namesIn.1 hname)
  rw [has_iff.2 (.inr hmem)] at hhas
  exact absurd hhas (by decide)

theorem le_foldl_max (lengths : List Nat) (start : Nat) :
    start ≤ lengths.foldl max start ∧ ∀ n ∈ lengths, n ≤ lengths.foldl max start := by
  induction lengths generalizing start with
  | nil => simp
  | cons first rest ih =>
    obtain ⟨hstart, hrest⟩ := ih (max start first)
    rw [List.foldl_cons, List.forall_mem_cons]
    exact ⟨by omega, by omega, hrest⟩

theorem length_le_height {t : PathTree} {entry : List Text} (h : entry ∈ t.entries) :
    entry.length ≤ t.height :=
  (le_foldl_max _ 0).2 _ (List.mem_map_of_mem h)

/-! ## Asking below a root -/

/-- What a path spells behind a root of dots and separators begins with its first
name, dots included. -/
theorem spelled_below {root dots tail : Text} {c : Char}
    (hroot : ∀ d ∈ root, isDotOrSeparator d = true) (hdots : IsDots dots) (hdot : c ≠ '.')
    (hsep : c ≠ '/') (hopen : Text.closed (dots ++ c :: tail) = false) :
    spelled (root ++ '/' :: (dots ++ c :: tail)) = dots ++ c :: tail := by
  have hrun : ∀ d ∈ root ++ '/' :: dots, isDotOrSeparator d = true := by
    rw [List.forall_mem_append, List.forall_mem_cons]
    refine ⟨hroot, by decide, fun d hd => ?_⟩
    rw [hdots d hd]
    decide
  have hc : isDotOrSeparator c = false := by simp [isDotOrSeparator, hdot, hsep]
  have hwithout : Lexical.withoutDots (root ++ '/' :: (dots ++ c :: tail)) =
      '/' :: (dots ++ c :: tail) := by
    have h := @Lexical.withoutDots_reach root dots tail c hrun hdots.notMem hc
    rwa [List.append_assoc, List.cons_append] at h
  have hfront : dropSeparators ('/' :: (dots ++ c :: tail)) = dots ++ c :: tail := by
    have h := dropSeparators_append hsep dots tail
    rw [dropSeparators_of_notMem hdots.notMem] at h
    rw [dropSeparators] at h ⊢
    rw [List.dropWhile_cons, if_pos (by simp), h]
  -- The last name has no separator for the other end to drop.
  have hback : dropSeparators (dots ++ c :: tail).reverse = (dots ++ c :: tail).reverse := by
    rw [Text.closed, ← List.head?_reverse] at hopen
    cases hrev : (dots ++ c :: tail).reverse with
    | nil => rfl
    | cons d others =>
      rw [hrev] at hopen
      have hd : d ≠ '/' := by simpa using hopen
      simp [dropSeparators, hd]
  rw [spelled, hwithout, hfront, hback, List.reverse_reverse]

/-- **Asking below a root.** A path that goes on with names behind dots and a
separator asks for those names, when the first of them is more than dots. -/
theorem key_below {root name : Text} {rest : List Text}
    (hroot : ∀ d ∈ root, isDotOrSeparator d = true)
    (hnames : ∀ n ∈ name :: rest, Text.IsName n) (hdots : ¬ IsDots name) :
    key (root ++ '/' :: spell '/' false (name :: rest)) = name :: rest := by
  have hspell := @Text.spell_ne_nil false _ (by simp) hnames
  have hopen := @Text.closed_spell false _ (by simp) hnames
  have hspelled : spelled (root ++ '/' :: spell '/' false (name :: rest)) =
      spell '/' false (name :: rest) := by
    obtain ⟨dots, c, body, rfl, hdotsAll, hdot, hsep⟩ := exists_body (hnames name (by simp)) hdots
    rw [spell, List.append_assoc, List.cons_append] at hopen ⊢
    exact spelled_below hroot hdotsAll hdot hsep hopen
  rw [key, hspelled, if_neg (by simpa using hspell), Text.components_spell (by simp) hnames]

/-- The root itself. -/
theorem key_root {root : Text} (hroot : ∀ d ∈ root, isDotOrSeparator d = true) : key root = [] := by
  have hspelled : spelled root = [] := by
    rw [spelled, Lexical.withoutDots_all hroot]
    cases Text.closed root <;> rfl
  rw [key, hspelled]
  rfl

end PathTree

end PathGlob
