/-
How the calls of a walk go down a tree of paths.

A call that makes another gives something up. It goes on at its place with less of the
pattern to come, or what is left of the literal it follows gets shorter, or it goes down
by a name: it lists its place and makes the next call at the entry with that name at the
end (`Descends`). What is given up comes to an end, so no call can make another for ever
(`wellFounded_makes`).

The last of the three fails at a place that ends with two separators. A literal with
three separators at its end leads to such a place, and below it the tree is asked about
entries that it does not have, whatever the entry holds (`Stumbles`). The walk ends there
all the same, only sooner.
-/
import PathGlob.Proofs.Lexical.NormalForm
import PathGlob.Proofs.Tree.Depth
import PathGlob.Proofs.Walk.Calls
import PathGlob.Proofs.Walk.Halting

set_option autoImplicit false

namespace PathGlob

open Segment (Alternating)
open PathTree (key Crowded)
open Text (ClosedTwice)

/-- What is left of a literal to follow, with a separator before each step. -/
def Route.left : Route → Text
  | .here => []
  | .nowhere => []
  | .probe path next => '/' :: path ++ next.left
  | .choose mask next => '/' :: mask ++ next.left

namespace Call

/-- What is left of the literal that the call follows. -/
def literal : Call → Text
  | .follow _ _ route _ => route.left
  | _ => []

/-- The call asks for the names inside its place. -/
def Lists : Call → Prop
  | .follow _ _ (.choose _ _) _ => True
  | .sweep _ _ => True
  | .ends _ => True
  | _ => False

/-- What a call gives up to make another. -/
inductive Descends (t : PathTree) (call next : Call) : Prop
  /-- It goes on at its place, of which it does not ask for the names. -/
  | stays (hplace : next.place = call.place) (hlists : ¬ call.Lists)
  /-- It goes on with less of its literal. -/
  | shortens (hliteral : next.literal.length < call.literal.length)
  /-- It goes down to an entry with one name more. -/
  | below (name : Text) (hkey : key next.place.dir = key call.place.dir ++ [name])
      (hthere : t.has (key next.place.dir) = true)

/-- It goes down by the names of a place below which the tree has no entries. -/
def Stumbles : Call → Prop
  | .sweep _ place => Crowded place.dir
  | .ends place => Crowded place.dir
  | _ => False

/-! ## One call more -/

section Steps

variable {t : PathTree} (hsound : t.Sound) {call next : Call}

include hsound

theorem descends_child_iff {place : Place} {name : Text} (hname : name ∈ t.tree.inside place.dir)
    (hplace : call.place = place) (hnext : next.place = place.child name)
    (hlists : call.Lists) (hliteral : call.literal = []) :
    Descends t call next ↔ ¬ Crowded place.dir := by
  have hdir : next.place.dir = Text.joinName place.dir name := by rw [hnext]; rfl
  constructor
  · intro hdescends hcrowded
    cases hdescends with
    | stays _ hnot => exact hnot hlists
    | shortens hshort =>
      rw [hliteral] at hshort
      exact absurd hshort (Nat.not_lt_zero _)
    | below _ _ hthere =>
      rw [hdir, hsound.not_has_of_crowded hname hcrowded] at hthere
      exact absurd hthere Bool.false_ne_true
  · intro hcrowded
    have hkey := hsound.key_child hname hcrowded
    refine .below name (by rw [hdir, hkey, hplace]) ?_
    rw [hdir, hkey]
    exact PathTree.has_iff.2 (.inr (PathTree.mem_namesIn.1 hname))

/-- **A call that makes another** gives something up, unless it stumbles. -/
theorem descends_iff {root lead : Text} {segments : List Segment}
    (hcall : call.Sound root lead segments) (hmakes : Makes t.tree call next) :
    Descends t call next ↔ ¬ call.Stumbles := by
  cases hmakes with
  | whole => exact iff_of_true (.stays rfl id) id
  | head hne => exact iff_of_true (.stays rfl id) id
  | probe => exact iff_of_true (.shortens (by simp [literal, Route.left])) id
  | choose hname => exact iff_of_true (.shortens (by simp [literal, Route.left])) id
  | @behind origin place rest hne =>
    have hplace : Place.Stands root lead True place := hcall.stands
    obtain ⟨rfl, -⟩ := hcall
    exact iff_of_true (.stays hplace.descend_start id) id
  | ends => exact iff_of_true (.stays rfl id) id
  | below hname => exact descends_child_iff hsound hname rfl rfl trivial rfl
  | sweep => exact iff_of_true (.stays rfl id) id
  | down hname => exact descends_child_iff hsound hname rfl rfl trivial rfl
  | hit hname hne => exact descends_child_iff hsound hname rfl rfl trivial rfl
  | skip => exact iff_of_true (.stays rfl id) id

end Steps

/-! ## No call for ever -/

/-- How much of the pattern is still to come, the search in hand counted in. -/
def pending : Call → Nat
  | .advance segments _ => 2 * segments.length
  | .follow _ rest _ _ => 2 * rest.length + 1
  | .sweep rest _ => 2 * rest.length + 1
  | .ends _ => 1

/-- How far down the tree can go on below a place. -/
def room (t : PathTree) (dir : Text) : Nat :=
  if t.has (key dir) then t.height + 1 - (key dir).length else 0

theorem room_lt {t : PathTree} (hsound : t.Sound) {dir name : Text}
    (hname : name ∈ t.tree.inside dir) : room t (Text.joinName dir name) < room t dir := by
  have hlength := PathTree.length_le_height (PathTree.mem_namesIn.1 hname)
  rw [List.length_append, List.length_singleton] at hlength
  -- Below a crowded directory all room is used up at once.
  rw [room, room, hsound.has_of_inside hname, if_pos rfl]
  by_cases hcrowded : Crowded dir
  · rw [hsound.not_has_of_crowded hname hcrowded, if_neg Bool.false_ne_true]
    omega
  · rw [hsound.key_child hname hcrowded, List.length_append, List.length_singleton]
    split <;> omega

/-- What a call has left to give up: of the pattern, of its literal, and of the tree. -/
def rank (t : PathTree) (call : Call) : Nat × Nat × Nat :=
  (call.pending, call.literal.length, room t call.place.dir)

section Ranks

variable {t : PathTree} (hsound : t.Sound) {call next : Call}

include hsound

/-- The pattern comes first, then the literal, then the tree. -/
theorem rank_lt (hmakes : Makes t.tree call next) :
    Prod.Lex (· < ·) (Prod.Lex (· < ·) (· < ·)) (rank t next) (rank t call) := by
  have hpattern : next.pending < call.pending →
      Prod.Lex (· < ·) (Prod.Lex (· < ·) (· < ·)) (rank t next) (rank t call) := .left _ _
  -- Along a route only the literal counts, and within a search only the tree.
  cases hmakes with
  | whole => exact hpattern (by simp [pending])
  | head hne => exact hpattern (by simp [pending]; omega)
  | probe => exact .right _ (.left _ _ (by simp [literal, Route.left]))
  | choose hname => exact .right _ (.left _ _ (by simp [literal, Route.left]))
  | behind hne => exact hpattern (by simp [pending])
  | ends => exact hpattern (by simp [pending])
  | below hname => exact .right _ (.right _ (room_lt hsound hname))
  | sweep => exact hpattern (by simp [pending]; omega)
  | down hname => exact .right _ (.right _ (room_lt hsound hname))
  | hit hname hne => exact hpattern (by simp [pending])
  | skip => exact hpattern (by simp [pending])

/-- **No call can make another for ever.** -/
theorem wellFounded_makes : WellFounded fun next call => Makes t.tree call next :=
  Subrelation.wf (fun hmakes => rank_lt hsound hmakes)
    (InvImage.wf (rank t) (wellFounded_lt.prod_lex (wellFounded_lt.prod_lex wellFounded_lt)))

end Ranks

end Call

/-! ## Literals that do not stumble -/

namespace Text

/-- Behind a directory a path ends with two separators only if it does so by itself, the
separator between the two counted in. -/
theorem ClosedTwice.of_joinName {dir path : Text} (hne : path ≠ [])
    (h : ClosedTwice (joinName dir path)) : ClosedTwice ('/' :: path) := by
  have hsuffix : '/' :: path <:+ joinName dir path ∨ path = joinName dir path := by
    rw [joinName]
    split
    · rename_i hjoined
      rw [Bool.or_eq_true, List.isEmpty_iff] at hjoined
      rcases hjoined with rfl | hclosed
      · exact .inr rfl
      · obtain ⟨front, rfl⟩ := exists_of_closed hclosed
        exact .inl ⟨front, by simp⟩
    · exact .inl ⟨dir, by simp⟩
  rcases hsuffix with hsuffix | hsame
  · refine List.suffix_of_suffix_length_le h hsuffix ?_
    have hpos := List.length_pos_iff.2 hne
    simp only [List.length_cons, List.length_nil]
    omega
  · rw [← hsame] at h
    exact h.trans (List.suffix_cons _ _)

theorem dropOpening_suffix (t : Text) : dropOpening t <:+ t := by
  cases hopened : opened t with
  | true =>
    obtain ⟨rest, rfl⟩ := exists_of_opened hopened
    exact List.suffix_cons _ _
  | false => rw [dropOpening_eq_self hopened]

/-- A literal that is trimmed loses one separator at its end. -/
theorem ClosedTwice.of_trimmed {text : Text} (h : ClosedTwice (trimmed text)) :
    ['/', '/', '/'] <:+ text := by
  refine List.IsSuffix.trans ?_ (dropOpening_suffix text)
  rw [trimmed] at h
  split at h
  · rw [dropClosing] at h
    split at h
    · rename_i hclosed
      obtain ⟨front, hfront⟩ := exists_of_closed hclosed
      rw [hfront, List.dropLast_concat] at h
      obtain ⟨rest, rfl⟩ := h
      exact ⟨rest, by rw [hfront, List.append_assoc]; rfl⟩
    · rename_i hopen
      exact absurd h.closed hopen
  · rename_i hshort
    exact absurd h.length_le hshort

theorem not_closedTwice_name {name : Text} (hname : IsName name) (dir : Text) :
    ¬ ClosedTwice (joinName dir name) := by
  intro h
  have hclosed := h.closed
  rw [closed_joinName dir hname.1, closed_name hname] at hclosed
  exact absurd hclosed Bool.false_ne_true

end Text

namespace Route

/-- The last place of the route does not end with two separators. -/
def Tidy : Route → Prop
  | .here => True
  | .nowhere => True
  | .probe path next => (next = .here → ¬ ClosedTwice ('/' :: path)) ∧ next.Tidy
  | .choose _ next => next.Tidy

theorem tidy_closeRun {plain : List Text} {next : Route} (h : next.Tidy)
    (hlast : next = .here → ¬ ClosedTwice ('/' :: Text.join plain)) : (closeRun plain next).Tidy := by
  rcases closeRun_cases plain next with hrun | hrun | ⟨-, hrun⟩ <;> rw [hrun]
  · exact h
  · trivial
  · exact ⟨hlast, h⟩

theorem tidy_gather {plain parts : List Text}
    (h : ¬ ClosedTwice ('/' :: Text.join (plain ++ parts))) : (gather plain parts).Tidy := by
  induction parts generalizing plain with
  | nil =>
    rw [List.append_nil] at h
    exact tidy_closeRun trivial fun _ => h
  | cons part rest ih =>
    rw [gather]
    split
    · exact ih (by rwa [List.append_assoc])
    · refine tidy_closeRun (ih fun hlast => h ?_) (by simp)
      -- The rest stands behind a separator at the end of the whole.
      have hrest : rest ≠ [] := by
        rintro rfl
        exact absurd hlast.length_le (by decide)
      have hsplit : plain ++ part :: rest = plain ++ [part] ++ rest := by simp
      rw [hsplit, Text.join_eq_spell, Place.spell_open_append (by simp) hrest]
      rw [List.nil_append, Text.join_eq_spell] at hlast
      exact hlast.trans ⟨'/' :: spell '/' false (plain ++ [part]), rfl⟩

/-- A literal with no three separators at its end leads to a tidy place. -/
theorem tidy_trimmed {text : Text} (hopened : Text.opened (Text.dropOpening text) = false)
    (h : ¬ ['/', '/', '/'] <:+ text) : (ofText (Text.trimmed text)).Tidy := by
  have htrimmed := Text.opened_trimmed hopened
  refine tidy_gather fun hlast => ?_
  rw [List.nil_append, Text.join_components, Text.dropOpening_eq_self htrimmed] at hlast
  rcases List.suffix_cons_iff.1 hlast with hwhole | htwice
  · rw [← (List.cons.inj hwhole).2] at htrimmed
    exact absurd htrimmed (by decide)
  · exact h (Text.ClosedTwice.of_trimmed htwice)

end Route

namespace Call

variable {t : PathTree} {root lead : Text} {segments : List Segment} {call next : Call}

/-- No place of the call ends with two separators, nor does the one that the literal in
front leads to. -/
def Tidy : Call → Prop
  | .advance segments place => ¬ ClosedTwice place.dir ∧ ∀ text width rest,
      segments = .literal text width :: rest → rest ≠ [] →
        (Route.ofText (Text.trimmed text)).Tidy
  | .follow _ rest route place =>
      rest ≠ [] → route.Tidy ∧ (route = .here → ¬ ClosedTwice place.dir)
  | .sweep _ place => ¬ ClosedTwice place.dir
  | .ends place => ¬ ClosedTwice place.dir

theorem Tidy.not_stumbles (h : call.Tidy) : ¬ call.Stumbles := by
  cases call with
  | advance segments place => exact id
  | follow origin rest route place => exact id
  | sweep rest place => exact fun hcrowded => h hcrowded.ends
  | ends place => exact fun hcrowded => h hcrowded.ends

/-- What goes on behind a wildcard has no literal in front. -/
theorem tidy_advance {rest : List Segment} (hrest : Alternating rest) {place : Place}
    (h : ¬ ClosedTwice place.dir) : (Call.advance rest place).Tidy := by
  refine ⟨h, fun text width more heq => ?_⟩
  rw [heq] at hrest
  cases hrest

/-- **One call more** and the places are still tidy. -/
theorem Tidy.makes (hsound : t.Sound) (hcall : call.Sound root lead segments) (h : call.Tidy)
    (hmakes : Makes t.tree call next) : next.Tidy := by
  have hchild : ∀ {dir name : Text}, name ∈ t.tree.inside dir →
      ¬ ClosedTwice (Text.joinName dir name) :=
    fun hname => Text.not_closedTwice_name (hsound.tree_named _ _ hname) _
  cases hmakes with
  | whole => exact fun hne => absurd rfl hne
  | head hne => exact fun _ => ⟨h.2 _ _ _ rfl hne, fun _ => h.1⟩
  | probe =>
    -- At the end of the route the path that was asked for is the last of the place.
    intro hne
    obtain ⟨hlast, hnext⟩ := (h hne).1
    exact ⟨hnext, fun hhere htwice => hlast hhere (htwice.of_joinName hcall.2.2.1.1)⟩
  | choose hname => exact fun hne => ⟨(h hne).1, fun _ => hchild hname⟩
  | @behind origin place rest hne =>
    have hplace : Place.Stands root lead True place := hcall.stands
    obtain ⟨rfl, hrest, -⟩ := hcall
    rw [hplace.descend_start]
    exact tidy_advance (hrest.resolve_left hne) ((h hne).2 rfl)
  | ends => exact h.1
  | below hname => exact hchild hname
  | sweep => exact h.1
  | down hname => exact hchild hname
  | hit hname hne => exact tidy_advance (hcall.1.resolve_left hne) (hchild hname)
  | skip => exact ⟨h.1, by simp⟩

end Call

/-! ## The whole walk -/

namespace Anchored

/-- A root does not end with two separators. -/
theorem not_closedTwice_root (pattern root : Text) : ¬ ClosedTwice (of pattern root).root := by
  have hclose : ∀ front path, ¬ ClosedTwice (closeRoot front (Lexical.clean path)) := by
    intro front path h
    rw [closeRoot] at h
    split at h
    · rw [Lexical.clean_of_closed h.closed] at h
      exact absurd h.length_le (by decide)
    · rename_i hjoined
      rw [Text.closedTwice_close] at h
      rw [h, Bool.or_true] at hjoined
      exact hjoined rfl
  exact hclose _ _

end Anchored

theorem Tree.Named.bare {tree : Tree} (hnamed : tree.Named) (dir : Text) :
    ∀ name ∈ tree.inside dir, name ≠ [] ∧ Text.opened name = false :=
  fun name hname => ⟨(hnamed dir name hname).1, Text.opened_name (hnamed dir name hname)⟩

namespace Call

/-- **All calls of a walk** are tidy where the pattern has no three separators in a row. -/
theorem tidy_of_comes {t : PathTree} (hsound : t.Sound) {pattern root : Text}
    (hpattern : ¬ ['/', '/', '/'] <:+: (Anchored.of pattern root).pattern) {call : Call}
    (hcall : Comes t.tree (first pattern root) call) : call.Tidy := by
  obtain ⟨lead, segments, -, hcalls⟩ := exists_sound hsound.tree_named.bare pattern root
  induction hcall with
  | refl =>
    refine ⟨Anchored.not_closedTwice_root pattern root, fun text width rest hfront hne => ?_⟩
    obtain ⟨more, hsplit⟩ := Segment.exists_append_of_head hfront
    have hopened := Anchored.opened_of pattern root
    rw [hsplit] at hopened hpattern
    refine Route.tidy_trimmed (Text.opened_dropOpening_left hopened) fun hthree => hpattern ?_
    exact hthree.isInfix.trans (List.prefix_append text more).isInfix
  | tail hcomes hmakes ih => exact ih.makes hsound (hcalls _ hcomes) hmakes

end Call

open Call (Comes Makes Descends)

/-- **A walk in a tree of paths comes to an end**, whatever the paths, the pattern and the
root are: no run goes down further than the tree said, and no call makes another for
ever. Each call that makes another goes on with less of the pattern or of its literal, or
goes down to an entry with one name more, unless it stumbles; and for a pattern without
three separators in a row no call does. -/
theorem descends_ofPaths (paths : List Text) (pattern root : Text) :
    (∀ listener, ((PathTree.ofPaths paths).tree.glob listener pattern root).ending ≠ .tooDeep) ∧
    (WellFounded fun next call => Makes (PathTree.ofPaths paths).tree call next) ∧
    (∀ call next, Comes (PathTree.ofPaths paths).tree (Call.first pattern root) call →
      Makes (PathTree.ofPaths paths).tree call next →
        (Descends (PathTree.ofPaths paths) call next ↔ ¬ call.Stumbles)) ∧
    (¬ ['/', '/', '/'] <:+: (Anchored.of pattern root).pattern → ∀ call,
      Comes (PathTree.ofPaths paths).tree (Call.first pattern root) call → ¬ call.Stumbles) := by
  have hsound := PathTree.sound_ofPaths paths
  obtain ⟨lead, segments, -, hcalls⟩ := Call.exists_sound hsound.tree_named.bare pattern root
  refine ⟨fun listener => Tree.glob_halts hsound.tree_finite listener pattern root,
    Call.wellFounded_makes hsound, fun call next hcall hmakes => ?_, fun hpattern call hcall => ?_⟩
  · exact Call.descends_iff hsound (hcalls call hcall) hmakes
  · exact (Call.tidy_of_comes hsound hpattern hcall).not_stumbles

/-- A search for ends goes down to an entry with one name more. -/
theorem descends_ofPaths_ends :
    Makes (PathTree.ofPaths ["a/b".toList]).tree (.ends ⟨"./".toList, []⟩)
      (.ends ⟨"./a".toList, "a".toList⟩) ∧
    Descends (PathTree.ofPaths ["a/b".toList]) (.ends ⟨"./".toList, []⟩)
      (.ends ⟨"./a".toList, "a".toList⟩) := by
  have hcomes : Comes (PathTree.ofPaths ["a/b".toList]).tree (Call.first "**".toList [])
      (.ends ⟨"./".toList, []⟩) := .tail .refl (@Makes.ends _ "**".toList _)
  have hmakes : Makes (PathTree.ofPaths ["a/b".toList]).tree (.ends ⟨"./".toList, []⟩)
      (.ends ⟨"./a".toList, "a".toList⟩) := @Makes.below _ "a".toList _ (by decide +kernel)
  obtain ⟨-, -, hdescends, hpattern⟩ := descends_ofPaths ["a/b".toList] "**".toList []
  exact ⟨hmakes, (hdescends _ _ hcomes hmakes).2 (hpattern (by decide +kernel) _ hcomes)⟩

/-- Behind three separators the walk lists a directory below which it finds nothing. -/
theorem not_descends_ofPaths :
    Comes (PathTree.ofPaths ["a/b/c".toList]).tree (Call.first "a///**".toList [])
      (.ends ⟨"./a//".toList, "a//".toList⟩) ∧
    Makes (PathTree.ofPaths ["a/b/c".toList]).tree (.ends ⟨"./a//".toList, "a//".toList⟩)
      (.ends ⟨"./a//b".toList, "a//b".toList⟩) ∧
    ¬ Descends (PathTree.ofPaths ["a/b/c".toList]) (.ends ⟨"./a//".toList, "a//".toList⟩)
      (.ends ⟨"./a//b".toList, "a//b".toList⟩) := by
  have hanchored : Anchored.of "a///**".toList [] = ⟨"a///**".toList, "./".toList⟩ := by
    decide +kernel
  have hsegments : Segment.ofPattern "a///**".toList =
      [.literal "a///".toList 3, .wild "**".toList] := by decide +kernel
  have hroute : Route.ofText (Text.trimmed "a///".toList) = .probe "a//".toList .here := by
    decide +kernel
  refine ⟨?_, @Makes.below _ "b".toList _ (by decide +kernel), ?_⟩
  · generalize (PathTree.ofPaths _).tree = tree
    have hhead : Makes tree
        (.advance [.literal "a///".toList 3, .wild "**".toList] ⟨"./".toList, []⟩)
        (.follow ⟨"./".toList, []⟩ [.wild "**".toList] (.probe "a//".toList .here)
          ⟨"./".toList, []⟩) := hroute ▸ .head (by simp)
    have hprobe : Makes tree
        (.follow ⟨"./".toList, []⟩ [.wild "**".toList] (.probe "a//".toList .here)
          ⟨"./".toList, []⟩)
        (.follow ⟨"./".toList, []⟩ [.wild "**".toList] .here ⟨"./a//".toList, "a//".toList⟩) :=
      .probe
    have hbehind : Makes tree
        (.follow ⟨"./".toList, []⟩ [.wild "**".toList] .here ⟨"./a//".toList, "a//".toList⟩)
        (.advance [.wild "**".toList] ⟨"./a//".toList, "a//".toList⟩) := .behind (by simp)
    rw [Call.first, hanchored, hsegments]
    exact .tail (.tail (.tail (.tail .refl hhead) hprobe) hbehind) .ends
  · rintro (⟨-, hlists⟩ | hshort | ⟨name, -, hthere⟩)
    · exact hlists trivial
    · exact absurd hshort (by decide)
    · exact absurd hthere (by decide +kernel)

end PathGlob
