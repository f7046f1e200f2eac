/-
How deep a tree of paths is, however it is asked.

A walk goes down by joining names to the path it asks about. The entry asked for below
a directory should be the entry of the directory with the name at its end, whatever is
written in front: dots, separators, names made of dots. It is, with one exception. A
separator at the end of the directory joins the name, and one more is an empty name
between the two that no entry has (`Crowded`). Below such a directory the tree has
nothing, though the entry may have.

In both cases the way down ends: either the entry asked for has one name more, and no
entry has more names than the tree is high, or there is no such entry (`tree_finite`).
-/
import PathGlob.Proofs.Walk.Place
import PathGlob.Proofs.Walk.Visits

set_option autoImplicit false

namespace PathGlob

/-- The text ends with two separators. -/
def Text.ClosedTwice (t : Text) : Prop := ['/', '/'] <:+ t

theorem Text.ClosedTwice.closed {t : Text} (h : ClosedTwice t) : Text.closed t = true := by
  obtain ⟨front, rfl⟩ := h
  rw [Text.closed_append (by simp)]
  rfl

theorem Text.closedTwice_close {t : Text} : ClosedTwice (t ++ ['/']) ↔ Text.closed t = true := by
  constructor
  · rintro ⟨front, hfront⟩
    have ht : front ++ ['/'] = t :=
      (List.append_left_inj ['/']).1 (by rw [List.append_assoc]; exact hfront)
    rw [← ht, Text.closed_append (by simp)]
    rfl
  · intro h
    obtain ⟨front, rfl⟩ := Text.exists_of_closed h
    exact ⟨front, by rw [List.append_assoc]; rfl⟩

namespace PathTree

open Lexical (IsDots isDotOrSeparator)
open Text (IsName ClosedTwice)

/-! ## Separators at the end -/

/-- Something in the path is no dot and no separator. -/
def Speaks (path : Text) : Prop := ∃ c ∈ path, isDotOrSeparator c = false

/-- The path names something and ends with two separators. -/
structure Crowded (path : Text) : Prop where
  speaks : Speaks path
  ends : ClosedTwice path

theorem Speaks.append {path : Text} (h : Speaks path) (rest : Text) : Speaks (path ++ rest) := by
  obtain ⟨c, hmem, hc⟩ := h
  exact ⟨c, List.mem_append_left _ hmem, hc⟩

theorem exists_separators (path : Text) :
    ∃ front n, path = front ++ List.replicate n '/' ∧ Text.closed front = false := by
  induction path using List.reverseRecOn with
  | nil => exact ⟨[], 0, rfl, rfl⟩
  | append_singleton path c ih =>
    by_cases hc : c = '/'
    · subst hc
      obtain ⟨front, n, rfl, hopen⟩ := ih
      refine ⟨front, n + 1, ?_, hopen⟩
      rw [List.replicate_succ', List.append_assoc]
    · refine ⟨path ++ [c], 0, (List.append_nil _).symm, ?_⟩
      rw [Text.closed_append (by simp)]
      simpa [Text.closed] using hc

theorem spelled_separators (front : Text) (n : Nat) :
    spelled (front ++ List.replicate n '/') = spelled front := by
  induction n with
  | zero => rw [List.replicate_zero, List.append_nil]
  | succ n ih => rw [List.replicate_succ', ← List.append_assoc, spelled_close, ih]

theorem dropSeparators_open {t : Text} (h : Text.closed t = false) :
    (dropSeparators t.reverse).reverse = t := by
  rw [Text.closed, ← List.head?_reverse] at h
  rw [List.reverse_eq_iff]
  cases hreverse : t.reverse with
  | nil => rfl
  | cons c rest =>
    rw [hreverse] at h
    have hc : c ≠ '/' := by simpa using h
    simp [dropSeparators, hc]

/-- Up to its first character that is no dot and no separator a path is spelled alike,
whatever follows. -/
theorem Speaks.exists_front {path : Text} (h : Speaks path) :
    ∃ before c after front, path = before ++ c :: after ∧ c ≠ '/' ∧ ∀ rest,
      spelled (before ++ c :: rest) = front ++ c :: (dropSeparators rest.reverse).reverse := by
  obtain ⟨c, hmem, hc⟩ := h
  obtain ⟨before, after, rfl⟩ := List.append_of_mem hmem
  have hsep : c ≠ '/' := by
    rintro rfl
    exact absurd hc (by decide)
  obtain ⟨_, front, -, hcut⟩ := Lexical.exists_dotPart before
  refine ⟨before, c, after, dropSeparators front, rfl, hsep, fun rest => ?_⟩
  have hreverse : (dropSeparators front ++ c :: rest).reverse =
      rest.reverse ++ c :: (dropSeparators front).reverse := by simp
  rw [spelled, (hcut rest hc).2, dropSeparators_append hsep, hreverse, dropSeparators_append hsep]
  simp

theorem Speaks.spelled_ne_nil {path : Text} (h : Speaks path) : spelled path ≠ [] := by
  obtain ⟨before, c, after, front, rfl, -, hspelled⟩ := h.exists_front
  rw [hspelled]
  simp

theorem Speaks.key_eq {path : Text} (h : Speaks path) : key path = Text.components (spelled path) := by
  rw [key, if_neg (by simpa using h.spelled_ne_nil)]

/-- What is written behind a path that names something is asked for as it stands. -/
theorem Speaks.spelled_append {path rest : Text} (h : Speaks path) (hopen : Text.closed path = false)
    (hrest : Text.closed (path ++ rest) = false) : spelled (path ++ rest) = spelled path ++ rest := by
  obtain ⟨before, c, after, front, rfl, hsep, hspelled⟩ := h.exists_front
  have hafter : ∀ {t : Text}, Text.closed (before ++ c :: t) = false → Text.closed t = false := by
    intro t ht
    by_cases hnil : t = []
    · rw [hnil]
      rfl
    · rwa [← List.singleton_append, ← List.append_assoc, Text.closed_append hnil] at ht
  rw [List.append_assoc, List.cons_append] at hrest ⊢
  rw [hspelled, hspelled, dropSeparators_open (hafter hrest), dropSeparators_open (hafter hopen),
    List.append_assoc, List.cons_append]

theorem components_separators (n : Nat) {name : Text} (hname : '/' ∉ name) :
    Text.components (List.replicate n '/' ++ name) = List.replicate n [] ++ [name] := by
  induction n with
  | zero => exact List.splitOn_eq_singleton hname
  | succ n ih =>
    have hsplit : List.replicate (n + 1) '/' ++ name = [] ++ '/' :: (List.replicate n '/' ++ name) := rfl
    rw [hsplit, Text.components, List.splitOn_append_cons_self]
    rw [Text.components] at ih
    rw [ih]
    rfl

/-! ## Below a directory -/

/-- **Below a directory that names something** a name is asked for behind an empty one
for each separator too many. -/
theorem key_joinName {front name : Text} (h : Speaks front) (hopen : Text.closed front = false)
    (n : Nat) (hname : IsName name) :
    key (Text.joinName (front ++ List.replicate n '/') name) =
      key (front ++ List.replicate n '/') ++ (List.replicate (n - 1) [] ++ [name]) := by
  -- The first separator divides the name from the directory, the others come before it.
  have hjoin : Text.joinName (front ++ List.replicate n '/') name =
      front ++ '/' :: (List.replicate (n - 1) '/' ++ name) := by
    cases n with
    | zero =>
      have hne : front ≠ [] := List.ne_nil_of_mem h.choose_spec.1
      rw [List.replicate_zero, List.append_nil, Text.joinName_open hne hopen]
      rfl
    | succ n =>
      have hclosed : Text.closed (front ++ List.replicate (n + 1) '/') = true := by
        rw [List.replicate_succ', ← List.append_assoc, Text.closed_append (by simp)]
        rfl
      rw [Text.joinName, hclosed, Bool.or_true, if_pos rfl, List.append_assoc]
      rfl
  have hend : Text.closed (front ++ '/' :: (List.replicate (n - 1) '/' ++ name)) = false := by
    rw [← List.cons_append, ← List.append_assoc, Text.closed_append hname.1]
    exact Text.closed_name hname
  rw [hjoin, (h.append _).key_eq, (h.append _).key_eq, h.spelled_append hopen hend,
    spelled_separators, Text.components, List.splitOn_append_cons_self]
  congr 1
  exact components_separators (n - 1) hname.2

theorem closedTwice_iff {front : Text} (hopen : Text.closed front = false) (n : Nat) :
    ClosedTwice (front ++ List.replicate n '/') ↔ 1 < n := by
  cases n with
  | zero =>
    rw [List.replicate_zero, List.append_nil]
    refine iff_of_false (fun h => ?_) (by omega)
    rw [h.closed] at hopen
    exact absurd hopen (by decide)
  | succ n =>
    rw [List.replicate_succ', ← List.append_assoc, Text.closedTwice_close]
    cases n with
    | zero =>
      rw [List.replicate_zero, List.append_nil, hopen]
      exact iff_of_false Bool.false_ne_true (by omega)
    | succ n =>
      rw [List.replicate_succ', ← List.append_assoc, Text.closed_append (by simp)]
      exact iff_of_true rfl (by omega)

/-- In a crowded directory, and only there, empty names come before the name. -/
theorem Speaks.exists_key {dir name : Text} (h : Speaks dir) (hname : IsName name) :
    ∃ n, key (Text.joinName dir name) = key dir ++ (List.replicate n [] ++ [name]) ∧
      (n = 0 ↔ ¬ Crowded dir) := by
  obtain ⟨front, n, rfl, hopen⟩ := exists_separators dir
  have hfront : Speaks front := by
    obtain ⟨c, hmem, hc⟩ := h
    rcases List.mem_append.1 hmem with hmem | hmem
    · exact ⟨c, hmem, hc⟩
    · rw [List.eq_of_mem_replicate hmem] at hc
      exact absurd hc (by decide)
  refine ⟨n - 1, key_joinName hfront hopen n hname, ?_⟩
  have hcrowded : Crowded (front ++ List.replicate n '/') ↔ 1 < n :=
    ⟨fun hc => (closedTwice_iff hopen n).1 hc.ends, fun hn => ⟨h, (closedTwice_iff hopen n).2 hn⟩⟩
  rw [hcrowded]
  omega

theorem all_of_not_speaks {base : Text} (h : ¬ Speaks base) :
    ∀ d ∈ base, isDotOrSeparator d = true := by
  intro d hd
  by_contra hnot
  exact h ⟨d, hd, by simpa using hnot⟩

/-- Below a path that names nothing a name is asked for alone. -/
theorem key_joinName_base {base name : Text} (h : ¬ Speaks base) (hname : IsName name)
    (hdots : ¬ IsDots name) : key (Text.joinName base name) = key base ++ [name] := by
  have hall := all_of_not_speaks h
  rw [key_root hall, List.nil_append]
  by_cases hne : base = []
  · -- There is no separator in front that the dots of the name could be cut off at.
    subst hne
    obtain ⟨dots, c, rest, rfl, hfront, hdot, hsep⟩ := exists_body hname hdots
    have hc : isDotOrSeparator c = false := by simp [isDotOrSeparator, hdot, hsep]
    have hspeaks : Speaks (dots ++ c :: rest) := ⟨c, by simp, hc⟩
    have hspelled : spelled (dots ++ c :: rest) = dots ++ c :: rest := by
      rw [spelled, Lexical.withoutDots_name hfront.all_run hfront.notMem hc,
        dropSeparators_of_notMem hname.2, dropSeparators_open (Text.closed_name hname)]
    show key (dots ++ c :: rest) = _
    rw [hspeaks.key_eq, hspelled]
    exact List.splitOn_eq_singleton hname.2
  · have hbelow := @Place.key_below_dir base false [name] ⟨hne, hall⟩ (by simpa using hname)
      (by simpa using hdots)
    rwa [Place.below_dir (by simp), spell_singleton, if_neg Bool.false_ne_true,
      List.append_nil] at hbelow

/-! ## The tree -/

section Sound

variable {t : PathTree} (hsound : t.Sound)

include hsound

theorem Sound.tree_named : t.tree.Named := fun _ name hname =>
  hsound.isName _ (mem_namesIn.1 hname) name (by simp)

/-- What is listed below a directory is below an entry, or the root. -/
theorem Sound.has_of_inside {dir name : Text} (hname : name ∈ t.tree.inside dir) :
    t.has (key dir) = true := by
  by_cases hne : key dir = []
  · exact has_iff.2 (.inl hne)
  · exact has_iff.2 (.inr (hsound.upward _ [name] hne (mem_namesIn.1 hname)))

/-- **Below a directory that is not crowded** the entry asked for has one name more. -/
theorem Sound.key_child {dir name : Text} (hname : name ∈ t.tree.inside dir) (h : ¬ Crowded dir) :
    key (Text.joinName dir name) = key dir ++ [name] := by
  have hisName := hsound.tree_named dir name hname
  by_cases hspeaks : Speaks dir
  · obtain ⟨n, hkey, hn⟩ := hspeaks.exists_key hisName
    rw [hkey, hn.2 h]
    rfl
  · refine key_joinName_base hspeaks hisName (hsound.grounded name [] ?_)
    have hentry := mem_namesIn.1 hname
    rwa [key_root (all_of_not_speaks hspeaks)] at hentry

/-- **Below a crowded directory** there is no entry. -/
theorem Sound.not_has_of_crowded {dir name : Text} (hname : name ∈ t.tree.inside dir)
    (h : Crowded dir) : t.has (key (Text.joinName dir name)) = false := by
  obtain ⟨n, hkey, hn⟩ := h.speaks.exists_key (hsound.tree_named dir name hname)
  have hempty : [] ∈ List.replicate n ([] : Text) :=
    List.mem_replicate.2 ⟨fun hzero => hn.1 hzero h, rfl⟩
  rw [Bool.eq_false_iff, hkey]
  intro hhas
  rcases has_iff.1 hhas with hnil | hentry
  · simp at hnil
  · exact (hsound.isName _ hentry [] (by simp [hempty])).1 rfl

/-- So many listings are enough as there can be names below the entry, and one more. -/
theorem Sound.endsWithin {depth : Nat} {dir : Text} (hpos : 0 < depth)
    (h : t.has (key dir) = true → t.height - (key dir).length < depth) :
    t.tree.EndsWithin depth dir := by
  induction depth generalizing dir with
  | zero => exact absurd hpos (Nat.lt_irrefl 0)
  | succ depth ih =>
    intro name hname
    have hlength := length_le_height (mem_namesIn.1 hname)
    have hleft := h (hsound.has_of_inside hname)
    rw [List.length_append, List.length_singleton] at hlength
    refine ih (by omega) fun hchild => ?_
    -- A listing uses up one name, or there is no entry to go on from.
    by_cases hcrowded : Crowded dir
    · rw [hsound.not_has_of_crowded hname hcrowded] at hchild
      exact absurd hchild Bool.false_ne_true
    · rw [hsound.key_child hname hcrowded, List.length_append, List.length_singleton]
      omega

/-- **A tree of paths is no deeper than it says.** -/
theorem Sound.tree_finite : t.tree.Finite := fun _ =>
  hsound.endsWithin (Nat.succ_pos _) fun _ => Nat.lt_succ_of_le (Nat.sub_le _ _)

end Sound

end PathTree

end PathGlob
