/-
Finding a path by its own name.

A path of a tree with its special characters escaped is one literal, and every one of
its components is asked for or held against names as a whole. A component with `*`, `?`
or `[` is read as a mask, and this mask takes the one name that was escaped. A component
without is not read: the walk asks for it as it is written, with its backslashes doubled
(`Text.asked`). So for every component there is one name that leads on (`Route.Picks`), a
route of such components comes to one place or to none (`Route.reached_gather`), and the
path is found exactly when no name of it has a backslash and nothing else to escape.
-/
import PathGlob.Proofs.Lexical.PlainRoot
import PathGlob.Proofs.Pattern.Escaped
import PathGlob.Proofs.Walk.Moved
import PathGlob.Proofs.Walk.Told

set_option autoImplicit false

namespace PathGlob

open Lexical (IsBase IsDots)
open Text (IsName escaped)

/-! ## What is asked for -/

/-- The name that the walk looks for where a pattern has the name escaped. -/
def Text.asked (name : Text) : Text := if Mask.isPlain name then escaped name else name

namespace Text

variable {name : Text}

theorem isName_asked (h : IsName name) : IsName name.asked := by
  rw [asked]
  split
  · exact isName_escaped h
  · exact h

theorem not_isDots_asked (h : ¬ IsDots name) : ¬ IsDots name.asked := by
  rw [asked]
  split
  · exact not_isDots_escaped h
  · exact h

/-- The walk looks for the name itself, unless there is a backslash in it and nothing
that makes it a mask. -/
theorem asked_eq_self : name.asked = name ↔ ('\\' ∈ name → Mask.isPlain name = false) := by
  rw [asked]
  cases hplain : Mask.isPlain name with
  | false => exact iff_of_true rfl fun _ => rfl
  | true =>
    rw [if_pos rfl]
    constructor
    · intro heq hescape
      have hlt := length_lt_escaped hescape
      rw [heq] at hlt
      exact absurd hlt (Nat.lt_irrefl _)
    · exact fun h => escaped_eq_self hplain fun hescape => absurd (h hescape) (by decide)

end Text

theorem PathTree.Askable.asked {entry : List Text} (h : PathTree.Askable entry) :
    PathTree.Askable (entry.map Text.asked) := by
  constructor
  · intro name hname
    obtain ⟨name, hmem, rfl⟩ := List.mem_map.1 hname
    exact Text.isName_asked (h.isName name hmem)
  · intro name hname
    rw [List.head?_map, Option.mem_def, Option.map_eq_some_iff] at hname
    obtain ⟨name, hfirst, rfl⟩ := hname
    exact Text.not_isDots_asked (h.grounded name hfirst)

/-! ## Routes to one place -/

/-- Of the elements of a list without repetition one is picked, if it is there. -/
theorem flatMap_pick {elements : List Text} (hnodup : elements.Nodup) (picked : Text)
    (f : Text → List Text) :
    (elements.flatMap fun a => if a = picked then f a else []) =
      if picked ∈ elements then f picked else [] := by
  induction elements with
  | nil => rfl
  | cons a rest ih =>
    obtain ⟨hfirst, hrest⟩ := List.nodup_cons.1 hnodup
    rw [List.flatMap_cons, ih hrest]
    by_cases ha : a = picked
    · subst ha
      rw [if_pos rfl, if_neg hfirst, if_pos List.mem_cons_self, List.append_nil]
    · rw [if_neg ha, List.nil_append]
      exact if_congr (by simp [Ne.symm ha]) rfl rfl

namespace Route

/-- There is one name that leads past the component. -/
inductive Picks : Text → Text → Prop where
  | plain {part : Text} : Mask.isPlain part = true → Picks part part
  | mask {part word : Text} : Mask.isPlain part = false →
      (∀ name, Mask.Fits part name ↔ name = word) → Picks part word

theorem picks_escaped (name : Text) : Picks (escaped name) name.asked := by
  rw [Text.asked]
  cases hplain : Mask.isPlain name with
  | true => exact .plain (by rwa [Text.isPlain_escaped])
  | false =>
    exact .mask (by rwa [Text.isPlain_escaped]) fun _ => Mask.fits_chars (Mask.parse_escaped name)

variable {t : PathTree} {root : Text} {lead : Bool} {entry plain : List Text}

section Reached

variable (hroot : IsBase root) (hpresent : t.Present entry)

include hroot hpresent

/-- A run of plain components leads to what they name, if it is there. -/
theorem reached_closeRun (hask : PathTree.Askable (entry ++ plain)) (next : Route) :
    (closeRun plain next).reached t.tree (Place.below root lead entry) =
      if t.has (entry ++ plain) then
        next.reached t.tree (Place.below root lead (entry ++ plain))
      else [] := by
  by_cases hne : plain = []
  · subst hne
    rw [List.append_nil, if_pos (PathTree.has_iff.2 hpresent)]
    rfl
  · have hjoin : Text.join plain ≠ [] := by
      rw [Text.join_eq_spell]
      exact Text.spell_ne_nil hne fun n hn => hask.isName n (List.mem_append_right _ hn)
    have hkey := @Place.key_below_dir root lead _ hroot hask.isName hask.grounded
    rw [closeRun_eq hjoin, reached, Place.child_below hask.left.isName hne]
    have hprobe : t.tree.probe (Place.below root lead (entry ++ plain)).dir =
        .ok (t.has (entry ++ plain)) := congrArg (fun key => Except.ok (t.has key)) hkey
    rw [hprobe]
    rfl

omit hpresent in
/-- A mask that takes one name leads to this name. -/
theorem reached_choose (hask : PathTree.Askable entry) (hnodup : (t.namesIn entry).Nodup)
    {mask word : Text} (hmask : ∀ name, Mask.Fits mask name ↔ name = word) (next : Route) :
    (choose mask next).reached t.tree (Place.below root lead entry) =
      if entry ++ [word] ∈ t.entries then
        next.reached t.tree (Place.below root lead (entry ++ [word]))
      else [] := by
  have hkey := @Place.key_below_dir root lead _ hroot hask.isName hask.grounded
  have hinside : t.tree.inside (Place.below root lead entry).dir = t.namesIn entry :=
    congrArg t.namesIn hkey
  rw [reached, hinside]
  simp only [hmask, Place.child_name hask.isName]
  rw [flatMap_pick hnodup word fun name => next.reached t.tree (Place.below root lead (entry ++ [name]))]
  exact if_congr PathTree.mem_namesIn rfl rfl

/-- **A route whose components all ask for one name** leads to the entry with these
names, if there is one. -/
theorem reached_gather (hsound : t.Sound) (hnodup : ∀ dir, (t.namesIn dir).Nodup)
    {parts words : List Text} (h : List.Forall₂ Picks parts words)
    (hask : PathTree.Askable (entry ++ plain ++ words)) :
    (gather plain parts).reached t.tree (Place.below root lead entry) =
      if t.has (entry ++ plain ++ words) then
        [(Place.below root lead (entry ++ plain ++ words)).path]
      else [] := by
  -- By induction on the components, with the plain ones put off as the route does.
  induction h generalizing entry plain with
  | nil =>
    rw [List.append_nil] at hask ⊢
    exact reached_closeRun hroot hpresent hask .here
  | @cons part word parts words hpart hrest ih =>
    rw [gather]
    cases hpart with
    | plain hplain =>
      have hmore : entry ++ (plain ++ [part]) ++ words = entry ++ plain ++ part :: words := by simp
      rw [if_pos hplain, ih hpresent (hmore ▸ hask), hmore]
    | mask hplain hmask =>
      have hmore : entry ++ plain ++ [word] ++ [] ++ words = entry ++ plain ++ word :: words := by
        simp
      have hmoreAsk := hmore ▸ hask
      rw [if_neg (by simp [hplain]), reached_closeRun hroot hpresent hask.left,
        reached_choose hroot hask.left (hnodup _) hmask]
      by_cases hthere : entry ++ plain ++ [word] ∈ t.entries
      · have habove := hsound.present_above (.inr hthere)
        rw [if_pos (PathTree.has_iff.2 habove), if_pos hthere, ih (.inr hthere) hmoreAsk, hmore]
      · -- What is not there has nothing below it.
        have hgone : ¬ t.Present (entry ++ plain ++ word :: words) := by
          intro hbelow
          rw [← List.singleton_append, ← List.append_assoc] at hbelow
          exact hthere (PathTree.present_concat.1 (hsound.present_above hbelow))
        rw [if_neg hthere, ite_self, if_neg fun hhas => hgone (PathTree.has_iff.1 hhas)]

end Reached

end Route

/-! ## The whole walk -/

section Entry

variable {entry : List Text} (hne : entry ≠ []) (hask : PathTree.Askable entry)

include hne hask

/-- An escaped path begins with a name, so it is looked for from the current directory. -/
theorem Anchored.of_escaped :
    Anchored.of (escaped (Text.join entry)) [] = ⟨escaped (Text.join entry), ['.', '/']⟩ := by
  have hspell : escaped (Text.join entry) = spell '/' false (entry.map escaped) := by
    rw [Text.join_eq_spell, Text.escaped_spell]
  have hnames := Text.isName_of_escaped hask.isName
  have hescaped : entry.map escaped ≠ [] := by simpa using hne
  have hclosed : Text.closed (escaped (Text.join entry)) = false := by
    rw [hspell]
    exact Text.closed_spell hescaped hnames
  have hdots : Lexical.dotPart (escaped (Text.join entry)) = [] := by
    obtain ⟨name, rest, rfl⟩ := List.exists_cons_of_ne_nil hne
    obtain ⟨dots, c, body, heq, hdots, hdot, hsep⟩ := PathTree.exists_body
      (hnames _ List.mem_cons_self) (Text.not_isDots_escaped (hask.grounded name rfl))
    rw [hspell, List.map_cons, spell, heq, List.append_assoc, List.cons_append]
    exact Lexical.dotPart_name hdots hdot hsep
  rw [of_here (hspell ▸ Text.spell_ne_nil hescaped hnames) (Text.opened_escaped hask.isName) hdots,
    withEverythingBelow, hclosed, if_neg Bool.false_ne_true]

/-- **The walk that looks for an escaped path** tells the path that is asked for, if it is
there. -/
theorem recites_escaped {t : PathTree} (hsound : t.Sound)
    (hnodup : ∀ dir, (t.namesIn dir).Nodup) : ∃ failed,
    Walk.Recites t.tree false True (Walk.glob t.tree.depth (escaped (Text.join entry)) []) ()
      (if t.has (entry.map Text.asked) then [Text.join (entry.map Text.asked)] else []) failed := by
  obtain ⟨width, hread⟩ := Segment.read_escaped hask.isName hne
  have hroute : Route.ofText (escaped (Text.join entry)) = Route.gather [] (entry.map escaped) := by
    rw [Text.join_eq_spell, Text.escaped_spell]
    exact @Expansion.ofText_open false _ (by simpa using hne) (Text.isName_of_escaped hask.isName)
  have hreadable : (Route.ofText (escaped (Text.join entry))).Readable := by
    rw [hroute]
    refine Route.readable_gather (fun part hpart => ?_) []
    obtain ⟨name, -, rfl⟩ := List.mem_map.1 hpart
    exact ⟨_, Mask.parse_escaped name⟩
  have hbase : IsBase ['.', '/'] := ⟨by simp, by simp [Lexical.isDotOrSeparator]⟩
  have hpicks : List.Forall₂ Route.Picks (entry.map escaped) (entry.map Text.asked) := by
    rw [List.forall₂_map_left_iff, List.forall₂_map_right_iff, List.forall₂_same]
    exact fun name _ => Route.picks_escaped name
  have hreached := @Route.reached_gather t ['.', '/'] false [] [] hbase (.inl rfl) hsound hnodup _ _
    hpicks hask.asked
  have hpath : (Place.below ['.', '/'] false (entry.map Text.asked)).path =
      Text.join (entry.map Text.asked) := (Text.join_eq_spell _).symm
  rw [List.nil_append, List.nil_append, hpath, ← hroute] at hreached
  rw [Walk.glob_eq t.tree.depth (Anchored.of_escaped hne hask) (Text.opened_escaped hask.isName) hread,
    ← hreached]
  exact ⟨_, (Walk.recites_root _).andThen
    (Expansion.recites_literal _ _ width _ fun _ => hreadable)⟩

end Entry

/-- In the tree of some paths a run finds the path that is asked for and comes to its end. -/
theorem glob_escaped (paths : List Text) {entry : List Text}
    (hentry : entry ∈ (PathTree.ofPaths paths).entries) {listener : Listener}
    (hwilling : listener.Willing) :
    ((PathTree.ofPaths paths).tree.glob listener (escaped (Text.join entry)) []).ending =
        .finished () ∧
      ((PathTree.ofPaths paths).tree.glob listener (escaped (Text.join entry)) []).found =
        if (PathTree.ofPaths paths).has (entry.map Text.asked) then
          [Text.join (entry.map Text.asked)]
        else [] := by
  have hsound := PathTree.sound_ofPaths paths
  obtain ⟨failed, hrecites⟩ := recites_escaped (hsound.ne_nil entry hentry)
    (hsound.askable (.inr hentry)) hsound (PathTree.nodup_namesIn paths)
  rcases hrecites listener hwilling [] with ⟨hending, hfound, -⟩ | ⟨hnot, -⟩
  · exact ⟨hending, hfound⟩
  · exact absurd trivial hnot

/-- **A path of a tree with its special characters escaped** matches this path and nothing
else, and the walk finds just this path exactly when every name of it with a backslash in
it also has a character that makes it a mask. -/
theorem glob_escaped_iff (paths : List Text) {entry : List Text}
    (hentry : entry ∈ (PathTree.ofPaths paths).entries) {listener : Listener}
    (hwilling : listener.Willing) :
    (∀ name, Pattern.test (escaped (Text.join entry)) name =
        .ok (decide (name = Text.join entry))) ∧
      ((PathTree.ofPaths paths).tree.glob listener (escaped (Text.join entry)) []).error? = none ∧
      (((PathTree.ofPaths paths).tree.glob listener (escaped (Text.join entry)) []).found =
          [Text.join entry] ↔
        ∀ name ∈ entry, '\\' ∈ name → Mask.isPlain name = false) := by
  have hsound := PathTree.sound_ofPaths paths
  have hne := hsound.ne_nil entry hentry
  have hask := hsound.askable (.inr hentry)
  obtain ⟨hending, hfound⟩ := glob_escaped paths hentry hwilling
  refine ⟨Pattern.test_escaped hask.isName hne, ?_, ?_⟩
  · rw [Run.error?, hending]
    rfl
  have hself : entry.map Text.asked = entry ↔
      ∀ name ∈ entry, '\\' ∈ name → Mask.isPlain name = false := by
    have hmap := @List.map_inj_left _ _ entry Text.asked id
    rw [List.map_id] at hmap
    exact hmap.trans (forall₂_congr fun name _ => Text.asked_eq_self)
  rw [hfound, ← hself]
  constructor
  · intro h
    split at h
    · -- Paths that are written alike have the same names.
      have hjoin := List.singleton_inj.1 h
      rw [Text.join_eq_spell, Text.join_eq_spell] at hjoin
      have hnames := congrArg Text.names hjoin
      rwa [Text.names_spell hask.asked.isName, Text.names_spell hask.isName] at hnames
    · cases h
  · intro h
    rw [h, if_pos (PathTree.has_iff.2 (.inr hentry))]

/-- A star in the name keeps the backslash from being asked for. -/
theorem glob_escaped_iff_star :
    ["a*\\b".toList] ∈ (PathTree.ofPaths ["a*\\b".toList, "axb".toList]).entries ∧
      Listener.Willing (fun _ _ => none) ∧
      Pattern.test (escaped "a*\\b".toList) "a*\\b".toList = .ok true ∧
      ((PathTree.ofPaths ["a*\\b".toList, "axb".toList]).tree.glob (fun _ _ => none)
        (escaped "a*\\b".toList) []).found = ["a*\\b".toList] := by
  have hentry : ["a*\\b".toList] ∈ (PathTree.ofPaths ["a*\\b".toList, "axb".toList]).entries := by
    decide +kernel
  have hwilling : Listener.Willing fun _ _ => none := fun _ _ => rfl
  obtain ⟨htest, -, hfound⟩ := glob_escaped_iff _ hentry hwilling
  exact ⟨hentry, hwilling, htest _, hfound.2 (by decide)⟩

/-- A backslash alone is asked for twice. -/
theorem glob_escaped_loses :
    ["a\\b".toList] ∈ (PathTree.ofPaths ["a\\b".toList]).entries ∧
      escaped "a\\b".toList = "a\\\\b".toList ∧
      ((PathTree.ofPaths ["a\\b".toList]).tree.glob (fun _ _ => none) "a\\\\b".toList []).found =
        [] := by
  have hentry : ["a\\b".toList] ∈ (PathTree.ofPaths ["a\\b".toList]).entries := by decide +kernel
  have hescaped : escaped "a\\b".toList = "a\\\\b".toList := by decide
  obtain ⟨-, hfound⟩ := glob_escaped _ hentry (fun _ _ => rfl : Listener.Willing fun _ _ => none)
  have hgone : (PathTree.ofPaths ["a\\b".toList]).has (["a\\b".toList].map Text.asked) = false := by
    decide +kernel
  rw [hgone, if_neg Bool.false_ne_true] at hfound
  refine ⟨hentry, hescaped, ?_⟩
  rw [← hescaped]
  exact hfound

end PathGlob
