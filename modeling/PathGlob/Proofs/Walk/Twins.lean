/-
Two walks below the same start, of which one tells more in front of every path.

What is in front may be part of the paths told by the one walk and of the root of the
other, or there may be just a separator in front of all that the first tells. A path then
belongs to a place of either walk, and going down by a name leads from the places of one
path to those of another. A tree of paths answers the same at both, since their spellings
differ only in what a tree ignores. That is all it takes (`Place.Twins`): what is done
below echoes, following a route, looking for ends, sweeping, and all that comes from a
wildcard on.

Two things need not be the same at the start, where the path is empty. There the inner
walk is at its root, which is never told, and the outer walk may not be; then ends echo
only if something is inside. And a name may be joined to the outer path with a separator
in front, which the window of a sweep shows until it slides (`Expansion.Keep`).

The names in front of a pattern, or given as its root, are such twins
(`Place.twins_names`).
-/
import PathGlob.Proofs.Pattern.PlainFront
import PathGlob.Proofs.Walk.Asked
import PathGlob.Proofs.Walk.Echo

set_option autoImplicit false

namespace PathGlob

open Text (SolidNames)
open Lexical (IsDots)

/-! ## Places -/

/-- Behind a front that is closed a path grows as it does alone. -/
theorem Text.joinName_front {front path : Text} (hclosed : closed front = true) (next : Text) :
    joinName (front ++ path) next = front ++ joinName path next := by
  have hfront : front ≠ [] := by
    rintro rfl
    exact absurd hclosed (by decide)
  have hempty : (front ++ path).isEmpty = false := by simp [hfront]
  rw [joinName, joinName, hempty, Bool.false_or]
  by_cases hpath : path = []
  · subst hpath
    rw [List.append_nil, hclosed, if_pos rfl, List.isEmpty_nil, Bool.true_or, if_pos rfl]
    rfl
  · rw [Text.closed_append hpath, List.isEmpty_eq_false_iff.2 hpath, Bool.false_or]
    split <;> simp

/-- A path goes on behind what it is joined to. -/
theorem Text.opened_joinName {path next : Text} (hpath : opened path = false)
    (hnext : path = [] → opened next = false) : opened (joinName path next) = false := by
  cases path with
  | nil => exact hnext rfl
  | cons c rest =>
    rw [joinName]
    split <;> exact hpath

namespace Place

/-- Two places for every path. The outer ones are told with something in front, the inner
ones without. -/
structure Twins (front : Text) (outer inner : Text → Place) : Prop where
  front_ne_nil : front ≠ []
  child_outer : ∀ {path next : Text}, next ≠ [] →
    (outer path).child next = outer (Text.joinName path next)
  child_inner : ∀ path next : Text, (inner path).child next = inner (Text.joinName path next)
  key : ∀ path, PathTree.key (outer path).dir = PathTree.key (inner path).dir
  outer_path : ∀ {path : Text}, path ≠ [] → (outer path).path = front ++ path
  inner_path : ∀ path, (inner path).path = path
  /-- At the start a separator in front may still have to be joined on. -/
  start : (outer []).path = front ∨ (outer []).path ++ ['/'] = front

namespace Twins

variable {front path : Text} {outer inner : Text → Place}

/-- The inner place is a root where the path is empty. -/
theorem isRoot_inner (h : Twins front outer inner) (hpath : Text.opened path = false) :
    (inner path).isRoot = path.isEmpty := by
  have hsep : (path == ['/']) = false := by
    rw [beq_eq_false_iff_ne]
    rintro rfl
    exact absurd hpath (by decide)
  rw [isRoot, h.inner_path, hsep, Bool.or_false]
  cases path <;> rfl

/-- The outer one is a root there at most. -/
theorem isRoot_outer (h : Twins front outer inner) (hpath : path ≠ []) :
    (outer path).isRoot = false := by
  obtain ⟨c, front, rfl⟩ := List.exists_cons_of_ne_nil h.front_ne_nil
  rw [isRoot, h.outer_path hpath]
  simp [hpath]

/-- What is listed at both places. -/
theorem list (h : Twins front outer inner) (t : PathTree) (path : Text) :
    t.tree.list (outer path).dir = .ok (t.namesIn (PathTree.key (inner path).dir)) := by
  rw [← h.key]
  rfl

/-- What is answered to a probe at both places. -/
theorem probe (h : Twins front outer inner) (t : PathTree) (path : Text) :
    t.tree.probe (outer path).dir = .ok (t.has (PathTree.key (inner path).dir)) := by
  rw [← h.key]
  rfl

end Twins

end Place

/-- Nothing is listed that is no name. -/
theorem PathTree.Sound.isName_of_mem_namesIn {t : PathTree} (ht : t.Sound) {entry : List Text}
    {name : Text} (hname : name ∈ t.namesIn entry) : Text.IsName name :=
  ht.isName _ (mem_namesIn.1 hname) name (List.mem_append_right _ List.mem_cons_self)

/-! ## Walks -/

/-- What the two sweeps keep of their paths: nothing before the first name, and then the
same, but for a separator in front of the outer one. -/
def Expansion.Keep (path window window' : Text) : Prop :=
  path = [] ∧ window = [] ∧ window' = [] ∨
    path ≠ [] ∧ (window = window' ∨
      window = '/' :: window' ∧ window' ≠ [] ∧ Text.opened window' = false)

section Walks

open Segment (Alternating)
open Walk (Echoes)

variable {t : PathTree} {front path : Text} {outer inner : Text → Place} (ht : t.Sound)
  (h : Place.Twins front outer inner)

include ht h

/-- **A route** is followed alike from the two places. At the names themselves it has to
begin with something to ask for that is joined to them. -/
theorem Route.echoes_follow {rel : Text → Text → Prop} {reach reach' : Text → Walk (List Text)}
    (hreach : ∀ path, path ≠ [] → Text.opened path = false →
      Echoes t.tree (front ++ ·) (List.Forall₂ rel)
        (reach (front ++ path)) (reach' path))
    {route : Route} (hroute : route.Proper) (hpath : Text.opened path = false)
    (hfirst : path = [] → route.Begins ∧ route ≠ .here) :
    Echoes t.tree (front ++ ·) (List.Forall₂ rel)
      (route.follow reach (outer path)) (route.follow reach' (inner path)) := by
  induction route generalizing path with
  | here =>
    have hne : path ≠ [] := fun hnil => (hfirst hnil).2 rfl
    rw [follow, follow, h.outer_path hne, h.inner_path]
    exact hreach path hne hpath
  | nowhere => exact .done .nil
  | probe asked next ih =>
    obtain ⟨hasked, hnext⟩ := hroute
    have hopened := Text.opened_joinName hpath fun hnil => (hfirst hnil).1
    unfold follow
    rw [h.child_outer hasked, h.child_inner]
    refine (Walk.echoes_probe (h.probe t _) rfl).bind ?_
    rintro _ _ ⟨rfl, rfl⟩
    split
    · exact ih hnext hopened fun hnil => absurd hnil (Text.joinName_ne_nil path hasked)
    · exact .done .nil
  | choose mask next ih =>
    unfold follow
    refine (Walk.echoes_list (h.list t path) rfl).bind ?_
    rintro _ _ ⟨rfl, rfl⟩
    refine Walk.echoes_collect fun name hname => ?_
    have hisName := ht.isName_of_mem_namesIn hname
    rw [h.child_outer hisName.1, h.child_inner]
    refine (Walk.echoes_fits mask name).bind ?_
    rintro answer _ rfl
    split
    · exact ih hroute (Text.opened_joinName hpath fun _ => Text.opened_name hisName) fun hnil =>
        absurd hnil (Text.joinName_ne_nil path hisName.1)
    · exact .done .nil

namespace Expansion

/-- **Ends** are looked for alike, but at the start only if there is something inside or
both places are roots. -/
theorem echoes_ends (once : Bool) (depth : Nat) (hpath : Text.opened path = false)
    (hinside : path = [] → (outer []).isRoot = true ∨
      t.namesIn (PathTree.key (inner []).dir) ≠ []) :
    Echoes t.tree (front ++ ·) (fun _ _ => True)
      (ends once depth (outer path)) (ends once depth (inner path)) := by
  induction depth generalizing path with
  | zero => exact .tooDeep
  | succ depth ih =>
    unfold ends
    refine (Walk.echoes_list (h.list t path) rfl).bind ?_
    rintro _ _ ⟨rfl, rfl⟩
    generalize hlist : t.namesIn (PathTree.key (inner path).dir) = listing
    cases listing with
    | nil =>
      dsimp only
      by_cases hnil : path = []
      · subst hnil
        have hroot := (hinside rfl).resolve_right (not_not_intro hlist)
        rw [hroot, h.isRoot_inner hpath, List.isEmpty_nil, if_pos rfl, if_pos rfl]
        exact .done trivial
      · have hroot : (inner path).isRoot = false := by
          rw [h.isRoot_inner hpath]
          exact List.isEmpty_eq_false_iff.2 hnil
        rw [h.isRoot_outer hnil, hroot, if_neg Bool.false_ne_true, if_neg Bool.false_ne_true,
          h.outer_path hnil, h.inner_path]
        exact Walk.echoes_report once path
    | cons first rest =>
      refine Walk.echoes_each (List.forall₂_same.2 fun name hname => ?_)
      have hisName := ht.isName_of_mem_namesIn (hlist ▸ hname)
      rw [h.child_outer hisName.1, h.child_inner]
      exact ih (Text.opened_joinName hpath fun _ => Text.opened_name hisName) fun hnil =>
        absurd hnil (Text.joinName_ne_nil path hisName.1)

omit ht in
/-- One name further down. -/
theorem Keep.child {window window' name : Text} (hkeep : Keep path window window')
    (hname : Text.IsName name) : Keep (Text.joinName path name)
      (window ++ (outer (Text.joinName path name)).path.drop (outer path).path.length)
      (window' ++ (inner (Text.joinName path name)).path.drop (inner path).path.length) := by
  have hne := Text.joinName_ne_nil path hname.1
  rw [h.outer_path hne, h.inner_path, h.inner_path]
  rcases hkeep with ⟨rfl, rfl, rfl⟩ | ⟨hpath, hsame⟩
  · have hjoin : Text.joinName [] name = name := rfl
    rw [hjoin, List.nil_append, List.nil_append, List.length_nil, List.drop_zero]
    refine .inr ⟨hname.1, ?_⟩
    rcases h.start with hfront | hfront <;> rw [← hfront]
    · exact .inl List.drop_left
    · right
      rw [List.append_assoc, List.drop_left]
      exact ⟨rfl, hname.1, Text.opened_name hname⟩
  · have hdrop : (front ++ Text.joinName path name).drop (front ++ path).length =
        (Text.joinName path name).drop path.length := by
      rw [List.length_append, List.drop_length_add_append]
    rw [h.outer_path hpath, hdrop]
    refine .inr ⟨hne, hsame.imp (congrArg (· ++ _)) ?_⟩
    rintro ⟨rfl, hwindow, hopened⟩
    obtain ⟨c, rest, rfl⟩ := List.exists_cons_of_ne_nil hwindow
    exact ⟨rfl, List.cons_ne_nil _ _, hopened⟩

omit ht h in
/-- The separator in front is not held against a literal, and it goes when the window
slides. -/
theorem Keep.same {window window' : Text} (hkeep : Keep path window window') (hpath : path ≠ []) :
    Text.trimmed window = Text.trimmed window' ∧ slide window = slide window' := by
  rcases hkeep with ⟨hnil, -⟩ | ⟨-, rfl | ⟨rfl, hwindow, hopened⟩⟩
  · exact absurd hnil hpath
  · exact ⟨rfl, rfl⟩
  · have hdrop : Text.dropOpening ('/' :: window') = Text.dropOpening window' :=
      (Text.dropOpening_eq_self hopened).symm
    obtain ⟨c, rest, rfl⟩ := List.exists_cons_of_ne_nil hwindow
    have hc : c ≠ '/' := by simpa [Text.opened] using hopened
    refine ⟨?_, ?_⟩
    · rw [Text.trimmed, Text.trimmed, hdrop]
    · show List.drop 1 (List.dropWhile (· != '/') (c :: rest)) = _
      rw [List.dropWhile_cons, if_pos (by simpa using hc)]
      rfl

/-- **A sweep** goes alike from the two places. -/
theorem echoes_sweep {literal : Text} {wanted : Nat} {hit hit' : Place → Walk Unit}
    (hhit : ∀ path, path ≠ [] → Text.opened path = false →
      Echoes t.tree (front ++ ·) (fun _ _ => True) (hit (outer path))
        (hit' (inner path)))
    (depth : Nat) (hpath : Text.opened path = false) {window window' : Text}
    (hkeep : Keep path window window') (filled : Nat) :
    Echoes t.tree (front ++ ·) (fun _ _ => True)
      (sweep literal wanted hit depth (outer path) window filled)
      (sweep literal wanted hit' depth (inner path) window' filled) := by
  induction depth generalizing path window window' filled with
  | zero => exact .tooDeep
  | succ depth ih =>
    unfold sweep
    refine (Walk.echoes_list (h.list t path) rfl).bind ?_
    rintro _ _ ⟨rfl, rfl⟩
    refine Walk.echoes_each (List.forall₂_same.2 fun name hname => ?_)
    have hisName := ht.isName_of_mem_namesIn hname
    have hne := Text.joinName_ne_nil path hisName.1
    have hopened := Text.opened_joinName hpath fun _ => Text.opened_name hisName
    have hchild := Keep.child h hkeep hisName
    dsimp only
    rw [h.child_outer hisName.1, h.child_inner]
    split
    · exact ih hopened hchild (filled + 1)
    · obtain ⟨htrimmed, hslide⟩ := hchild.same hne
      rw [htrimmed, hslide]
      refine (Walk.echoes_fits literal _).bind ?_
      rintro answer _ rfl
      split
      · exact (hhit _ hne hopened).bind fun _ _ _ => ih hopened (.inr ⟨hne, .inl rfl⟩) filled
      · exact ih hopened (.inr ⟨hne, .inl rfl⟩) filled

/-- A wildcard with a literal behind it, if what comes behind both goes alike. -/
theorem echoes_literal (once : Bool) (depth : Nat) {stars text : Text} {width : Nat}
    {rest : List Segment}
    (hhit : ∀ path, path ≠ [] → Text.opened path = false →
      Echoes t.tree (front ++ ·) (fun _ _ => True)
        (if rest.isEmpty then report once (outer path).path
          else advance once depth rest (outer path))
        (if rest.isEmpty then report once (inner path).path
          else advance once depth rest (inner path)))
    (hpath : Text.opened path = false) :
    Echoes t.tree (front ++ ·) (fun _ _ => True)
      (advance once depth (.wild stars :: .literal text width :: rest) (outer path))
      (advance once depth (.wild stars :: .literal text width :: rest) (inner path)) := by
  rw [advance, advance]
  refine echoes_sweep ht h hhit depth hpath ?_ 0
  by_cases hnil : path = []
  · exact .inl ⟨hnil, rfl, rfl⟩
  · exact .inr ⟨hnil, .inl rfl⟩

/-- **From a wildcard on** everything goes alike. A wildcard alone looks for ends, and the
start may be one. -/
theorem echoes_advance (once : Bool) (depth : Nat) {segments : List Segment}
    (hsegments : Alternating segments) (hpath : Text.opened path = false)
    (hinside : path = [] → (∃ stars, segments = [.wild stars]) →
      (outer []).isRoot = true ∨ t.namesIn (PathTree.key (inner []).dir) ≠ []) :
    Echoes t.tree (front ++ ·) (fun _ _ => True)
      (advance once depth segments (outer path))
      (advance once depth segments (inner path)) := by
  induction hsegments generalizing path with
  | wild stars =>
    rw [advance, advance]
    exact echoes_ends ht h once depth hpath fun hnil => hinside hnil ⟨stars, rfl⟩
  | literal stars text width =>
    refine echoes_literal ht h once depth (fun path hne _ => ?_) hpath
    rw [h.outer_path hne, h.inner_path]
    exact Walk.echoes_report once path
  | more stars text width hrest ih =>
    refine echoes_literal ht h once depth (fun path hne hopened => ?_) hpath
    have hsome : ¬ List.isEmpty _ = true := fun hempty => hrest.ne_nil (List.isEmpty_iff.1 hempty)
    rw [if_neg hsome, if_neg hsome]
    exact ih hopened fun hnil => absurd hnil hne

end Expansion

end Walks

/-! ## Names in front, or as the root -/

namespace Place

/-- Where a path below the names is if they belong to what is told. -/
def outer (names : List Text) (path : Text) : Place :=
  let told := if path.isEmpty then spell '/' false names else spell '/' true names ++ path
  ⟨'.' :: '/' :: told, told⟩

/-- Where it is if they belong to the root. -/
def inner (names : List Text) (path : Text) : Place := ⟨spell '/' true names ++ path, path⟩

variable {names : List Text} {path next : Text}

theorem outer_nil : outer names [] =
    ⟨'.' :: '/' :: spell '/' false names, spell '/' false names⟩ := rfl

theorem outer_of_ne_nil (hpath : path ≠ []) : outer names path =
    ⟨'.' :: '/' :: (spell '/' true names ++ path), spell '/' true names ++ path⟩ := by
  rw [outer, if_neg (by simpa using hpath)]

theorem child_inner (h : SolidNames names) (path next : Text) :
    (inner names path).child next = inner names (Text.joinName path next) := by
  have hclosed : Text.closed (spell '/' true names) = true := Text.closed_spell h.ne_nil h.isName
  rw [child, inner, inner, Text.joinName_front hclosed]

theorem child_outer (h : SolidNames names) (hnext : next ≠ []) :
    (outer names path).child next = outer names (Text.joinName path next) := by
  rw [outer_of_ne_nil (Text.joinName_ne_nil path hnext)]
  by_cases hpath : path = []
  · subst hpath
    have hne := h.spell_ne_nil false
    have hopen : Text.closed (spell '/' false names) = false := Text.closed_spell h.ne_nil h.isName
    have hdot : Text.closed ('.' :: '/' :: spell '/' false names) = false := by
      rw [show '.' :: '/' :: spell '/' false names = ['.', '/'] ++ spell '/' false names from rfl,
        Text.closed_append hne, hopen]
    have hjoin : Text.joinName [] next = next := rfl
    rw [outer_nil, child]
    dsimp only
    rw [Text.joinName_open (List.cons_ne_nil _ _) hdot, Text.joinName_open hne hopen, hjoin,
      spell_true h.ne_nil]
    simp
  · have hclosed : Text.closed (spell '/' true names) = true := Text.closed_spell h.ne_nil h.isName
    have hdot : Text.closed ('.' :: '/' :: spell '/' true names) = true := by
      rw [show '.' :: '/' :: spell '/' true names = ['.', '/'] ++ spell '/' true names from rfl,
        Text.closed_append (h.spell_ne_nil true), hclosed]
    have hdir := @Text.joinName_front _ path hdot next
    rw [outer_of_ne_nil hpath, child]
    dsimp only
    rw [Text.joinName_front hclosed]
    exact congrArg (Place.mk · _) hdir

end Place

namespace PathTree

variable {dots body : Text} {c : Char}

/-- A text that begins with a name is asked for alike from the current directory. -/
theorem spelled_here (hdots : IsDots dots) (hdot : c ≠ '.') (hsep : c ≠ '/') :
    spelled ('.' :: '/' :: (dots ++ c :: body)) = spelled (dots ++ c :: body) := by
  have hnotMem := hdots.notMem
  have hall := hdots.all_run
  have hc : Lexical.isDotOrSeparator c = false := by simp [Lexical.isDotOrSeparator, hdot, hsep]
  have hrun : ∀ d ∈ ['.'] ++ '/' :: dots, Lexical.isDotOrSeparator d = true :=
    List.forall_mem_append.2 ⟨Lexical.IsDots.all_run (show IsDots ['.'] by decide),
      List.forall_mem_cons.2 ⟨by decide, hall⟩⟩
  have hreach : Lexical.withoutDots ('.' :: '/' :: (dots ++ c :: body)) =
      '/' :: (dots ++ c :: body) := by
    have h := @Lexical.withoutDots_reach ['.'] dots body c hrun hnotMem hc
    rwa [List.append_assoc, List.cons_append] at h
  have hdrop : ∀ t, dropSeparators ('/' :: t) = dropSeparators t := fun t => by
    simp [dropSeparators]
  rw [spelled, spelled, hreach, hdrop, Lexical.withoutDots_name hall hnotMem hc]

variable {names : List Text} {path : Text}

/-- **The same is asked** at both places of a path. -/
theorem key_outer (h : SolidNames names) (path : Text) :
    key (Place.outer names path).dir = key (Place.inner names path).dir := by
  have hspelled : spelled (Place.outer names path).dir = spelled (Place.inner names path).dir := by
    by_cases hpath : path = []
    · subst hpath
      obtain ⟨dots, c, body, heq, hdots, hdot, hsep⟩ := h.exists_body false []
      rw [List.append_nil] at heq
      show spelled ('.' :: '/' :: spell '/' false names) = spelled (spell '/' true names ++ [])
      rw [List.append_nil, spell_true h.ne_nil, spelled_close, heq, spelled_here hdots hdot hsep]
    · obtain ⟨dots, c, body, heq, hdots, hdot, hsep⟩ := h.exists_body true path
      rw [Place.outer_of_ne_nil hpath, Place.inner]
      dsimp only
      rw [heq, spelled_here hdots hdot hsep]
  rw [key, key, hspelled]

/-- At the names themselves it is the entry with these names. -/
theorem key_outer_nil (h : SolidNames names) : key (Place.outer names []).dir = names := by
  obtain ⟨name, rest, rfl⟩ := List.exists_cons_of_ne_nil h.ne_nil
  have hroot := Lexical.IsDots.all_run (show IsDots ['.'] by decide)
  exact @key_below ['.'] name rest hroot h.isName (h.solid name List.mem_cons_self).grounded

end PathTree

/-- **The names are twins** in front of the paths told and in front of the root. -/
theorem Place.twins_names {names : List Text} (h : SolidNames names) :
    Twins (spell '/' true names) (outer names) (inner names) where
  front_ne_nil := h.spell_ne_nil true
  child_outer := child_outer h
  child_inner := child_inner h
  key := PathTree.key_outer h
  outer_path hpath := congrArg Place.path (outer_of_ne_nil hpath)
  inner_path _ := rfl
  start := .inr (spell_true h.ne_nil).symm

end PathGlob
