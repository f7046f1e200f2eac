/-
What a walk tells in any tree, as a list.

`told` follows the segments as the walk does, but only collects paths: those a
route reaches, those below a place with nothing inside, and those below a place
whose last names fit a literal. No depth is counted down and no window is kept;
the names that lead to a place say which window it has (`fitsLast`). `failed`
collects the paths about which the tree has no answer, as often as it is asked.

The walk recites these lists (`recites_advance`). It ends before the end of them only
where it has to read a text as a mask that is none, or goes deeper than the tree
says. In the first case nothing is told at all (`told_eq_nil`), since every path
told has passed all masks.
-/
import PathGlob.Proofs.Walk.Advance
import PathGlob.Proofs.Walk.Recital
import PathGlob.Proofs.Walk.Visits

set_option autoImplicit false

namespace PathGlob

open Text (IsName)

/-- A text that takes a name is a mask. -/
theorem Mask.Fits.exists_parse {text name : Text} (h : Mask.Fits text name) :
    ∃ mask, Mask.parse text = .ok mask := by
  cases hparse : Mask.parse text with
  | ok mask => exact ⟨mask, rfl⟩
  | error e => simp [Mask.Fits, Mask.fits, hparse] at h

/-! ## Routes -/

namespace Route

/-- All masks on the route are masks. -/
def Readable : Route → Prop
  | .here => True
  | .nowhere => True
  | .probe _ next => Readable next
  | .choose mask next => (∃ items, Mask.parse mask = .ok items) ∧ Readable next

/-- The paths that the route reaches from a place. -/
def reached (tree : Tree) : Route → Place → List Text
  | .here, place => [place.path]
  | .nowhere, _ => []
  | .probe path next, place =>
    if (tree.probe (place.child path).dir).toOption.getD false then
      reached tree next (place.child path)
    else []
  | .choose mask next, place => (tree.inside place.dir).flatMap fun name =>
    if Mask.Fits mask name then reached tree next (place.child name) else []

/-- The paths that fail on the route from a place. -/
def failed (tree : Tree) : Route → Place → List Text
  | .here, _ => []
  | .nowhere, _ => []
  | .probe path next, place =>
    (place.child path).failure (tree.probe (place.child path).dir) ++
      if (tree.probe (place.child path).dir).toOption.getD false then
        failed tree next (place.child path)
      else []
  | .choose mask next, place =>
    place.failure (tree.list place.dir) ++ (tree.inside place.dir).flatMap fun name =>
      if Mask.Fits mask name then failed tree next (place.child name) else []

variable {tree : Tree} {once : Bool} {sure : Prop}

/-- A route is followed to the paths it reaches. -/
theorem recites_follow {reach : Text → Walk (List Text)} {brought told : Text → List Text}
    (hreach : ∀ path, Walk.Recites tree once sure (reach path) (brought path) (told path) [])
    (route : Route) (hsure : sure → route.Readable) (place : Place) :
    Walk.Recites tree once sure (follow reach route place)
      ((route.reached tree place).flatMap brought) ((route.reached tree place).flatMap told)
      (route.failed tree place) := by
  induction route generalizing place with
  | here =>
    rw [reached, List.flatMap_singleton, List.flatMap_singleton]
    exact hreach place.path
  | nowhere => exact Walk.recites_done []
  | probe path next ih =>
    rw [follow, reached, failed]
    refine (Walk.recites_probe (place.child path)).ask ?_
    split
    · exact ih hsure (place.child path)
    · exact Walk.recites_done []
  | choose mask next ih =>
    rw [follow, reached, failed, Tree.inside]
    refine (Walk.recites_list place).ask ?_
    cases (tree.list place.dir).toOption with
    | none => exact Walk.recites_done []
    | some names =>
      rw [Option.getD_some, List.flatMap_assoc, List.flatMap_assoc]
      refine Walk.recites_collect fun name _ => ?_
      refine (Walk.recites_fits fun h => (hsure h).1).andThen ?_
      by_cases hfits : Mask.Fits mask name
      · rw [if_pos (by simpa using hfits), if_pos hfits, if_pos hfits]
        exact ih (fun h => (hsure h).2) (place.child name)
      · rw [if_neg (by simpa using hfits), if_neg hfits, if_neg hfits]
        exact Walk.recites_done []

theorem readable_closeRun {plain : List Text} {next : Route} (h : next.Readable) :
    (closeRun plain next).Readable := by
  rcases closeRun_cases plain next with hrun | hrun | ⟨-, hrun⟩ <;> rw [hrun]
  · exact h
  · trivial
  · exact h

/-- Where all components are masks so are those on their route. -/
theorem readable_gather {parts : List Text} (h : Segment.Readable parts) (plain : List Text) :
    (gather plain parts).Readable := by
  induction parts generalizing plain with
  | nil => exact readable_closeRun trivial
  | cons part rest ih =>
    obtain ⟨hpart, hrest⟩ := List.forall_mem_cons.1 h
    rw [gather]
    split
    · exact ih hrest (plain ++ [part])
    · exact readable_closeRun ⟨hpart, ih hrest []⟩

/-- A route with a text that is no mask reaches nothing. -/
theorem reached_eq_nil {route : Route} (h : ¬ route.Readable) (place : Place) :
    route.reached tree place = [] := by
  induction route generalizing place with
  | here => exact absurd trivial h
  | nowhere => exact absurd trivial h
  | probe path next ih =>
    rw [reached, ih h, ite_self]
  | choose mask next ih =>
    rw [reached, List.flatMap_eq_nil_iff]
    intro name _
    by_cases hfits : Mask.Fits mask name
    · rw [if_pos hfits]
      exact ih (fun hnext => h ⟨hfits.exists_parse, hnext⟩) (place.child name)
    · rw [if_neg hfits]

end Route

namespace Expansion

variable {tree : Tree} {once : Bool} {sure : Prop}

/-! ## Ends -/

/-- The path of a place with nothing inside, unless it is the root. -/
def endAt (tree : Tree) (place : Place) : List Text :=
  match tree.list place.dir with
  | .ok [] => if place.isRoot then [] else [place.path]
  | _ => []

/-- The path of a place whose listing fails. -/
def failedAt (tree : Tree) (place : Place) : List Text := place.failure (tree.list place.dir)

/-- Looking for ends tells those that are visited, the place itself included. -/
theorem recites_ends (depth : Nat) (place : Place) (hsure : sure → tree.EndsWithin depth place.dir) :
    Walk.Recites tree once sure (ends once depth place) ()
      (([] :: tree.visitsWithin depth place).flatMap fun names => endAt tree (place.down names))
      (([] :: tree.visitsWithin depth place).flatMap fun names =>
        failedAt tree (place.down names)) := by
  induction depth generalizing place with
  | zero => exact Walk.recites_cut hsure _ _ _ (.inl rfl)
  | succ depth ih =>
    rw [ends, List.flatMap_cons, List.flatMap_cons, Tree.flatMap_visitsWithin,
      Tree.flatMap_visitsWithin, Tree.inside]
    refine (Walk.recites_list place).ask ?_
    show Walk.Recites tree once sure _ () (endAt tree place ++ _) _
    rw [endAt]
    cases hlist : tree.list place.dir with
    | error fault => exact Walk.recites_done ()
    | ok names =>
      cases names with
      | nil =>
        show Walk.Recites tree once sure (if place.isRoot = true then Walk.done () else _) ()
          ((if place.isRoot = true then [] else [place.path]) ++ []) []
        rw [List.append_nil]
        split
        · exact Walk.recites_done ()
        · exact Walk.recites_report place.path
      | cons first rest =>
        refine Walk.recites_each fun name hname => ih (place.child name) fun h => hsure h name ?_
        rw [Tree.inside, hlist]
        exact hname

/-! ## Sweeps -/

/-- The last names, as many as asked for, written as one text fit the literal. -/
def FitsLast (literal : Text) (width : Nat) (names : List Text) : Prop :=
  width ≤ names.length ∧ Mask.Fits literal (spell '/' false (names.drop (names.length - width)))

instance (literal : Text) (width : Nat) (names : List Text) :
    Decidable (FitsLast literal width names) := inferInstanceAs (Decidable (_ ∧ _))

/-- With enough names behind it the first does not matter. -/
theorem fitsLast_cons {literal first : Text} {width : Nat} {names : List Text}
    (h : width ≤ names.length) :
    FitsLast literal width (first :: names) ↔ FitsLast literal width names := by
  have hdrop : (first :: names).length - width = names.length - width + 1 := by
    rw [List.length_cons]
    omega
  rw [FitsLast, FitsLast, hdrop, List.drop_succ_cons]
  exact and_congr_left' (iff_of_true (h.trans (Nat.le_succ _)) h)

/-- With just as many names all of them are held against the literal. -/
theorem fitsLast_exact {literal : Text} {names : List Text} :
    FitsLast literal names.length names ↔ Mask.Fits literal (spell '/' false names) := by
  rw [FitsLast, Nat.sub_self, List.drop_zero]
  exact and_iff_right le_rfl

/-- What a name adds to the text that a sweep keeps. -/
theorem Holds.child {window : Text} {held : List Text} {place : Place} {name : Text}
    (h : Holds window held) (hended : held ≠ [] → Text.Ended place.path) :
    ∃ front, window ++ (place.child name).path.drop place.path.length =
      Text.written front false (held ++ [name]) := by
  have hdrop : (place.child name).path.drop place.path.length =
      (if place.path.isEmpty || Text.closed place.path then [] else ['/']) ++ name := by
    show (Text.joinName place.path name).drop place.path.length = _
    rw [Text.joinName]
    split <;> simp
  rw [hdrop]
  rcases h with ⟨rfl, rfl⟩ | ⟨front, hne, rfl⟩
  · split
    · exact ⟨false, by simp [Text.written, spell]⟩
    · exact ⟨true, by simp [Text.written, spell]⟩
  · obtain ⟨hnil, hopen⟩ := hended hne
    refine ⟨front, ?_⟩
    rw [if_neg (by simp [hnil, hopen]), Text.written_append, Text.written, Text.written,
      List.isEmpty_cons, Bool.not_false, Bool.or_true, spell_true hne, spell_singleton]
    simp

section Sweep

variable {literal : Text} {wanted : Nat} {hit : Place → Walk Unit}
  {told failed : Place → List Text}

/-- What comes from the places below a place, after some names held: something from
where the last names fit the literal, and something from everywhere. -/
def swept (tree : Tree) (literal : Text) (width : Nat) (atHit atVisit : Place → List Text)
    (held : List Text) (depth : Nat) (place : Place) : List Text :=
  (tree.visitsWithin depth place).flatMap fun names =>
    (if FitsLast literal width (held ++ names) then atHit (place.down names) else []) ++
      atVisit (place.down names)

theorem swept_succ {width : Nat} {atHit atVisit : Place → List Text} (held : List Text)
    (depth : Nat) (place : Place) :
    swept tree literal width atHit atVisit held (depth + 1) place =
      (tree.inside place.dir).flatMap fun name =>
        (if FitsLast literal width (held ++ [name]) then atHit (place.child name) else []) ++
          (atVisit (place.child name) ++
            swept tree literal width atHit atVisit (held ++ [name]) depth (place.child name)) := by
  rw [swept, Tree.flatMap_visitsWithin]
  refine List.flatMap_congr fun name _ => ?_
  rw [List.append_assoc, swept]
  simp only [List.append_assoc, List.singleton_append]
  rfl

/-- With enough names behind it the first that is held does not matter. -/
theorem swept_cons {width : Nat} {atHit atVisit : Place → List Text} {first : Text}
    {held : List Text} (h : width ≤ held.length + 1) (depth : Nat) (place : Place) :
    swept tree literal width atHit atVisit (first :: held) depth place =
      swept tree literal width atHit atVisit held depth place := by
  refine List.flatMap_congr fun names hnames => ?_
  have hpos := List.length_pos_iff.2 (Tree.ne_nil_of_mem_visitsWithin hnames)
  have henough : width ≤ (held ++ names).length := by
    rw [List.length_append]
    omega
  simp only [List.cons_append, fitsLast_cons henough]

/-- One name of a listing: perhaps a hit, then what is below. -/
theorem recites_child {place : Place} {window : Text} {held : List Text} {next : Walk Unit}
    {more failing : List Text}
    (hhit : Walk.Recites tree once sure (hit place) () (told place) (failed place))
    (hmask : sure → ∃ mask, Mask.parse literal = .ok mask) (hheld : ∀ name ∈ held, IsName name)
    (hne : held ≠ []) (hwindow : ∃ front, window = Text.written front false held)
    (hnext : Walk.Recites tree once sure next () more failing) :
    Walk.Recites tree once sure
      ((Walk.fits literal (Text.trimmed window)).bind fun answer =>
        if answer = true then (hit place).bind fun _ => next else next) ()
      ((if FitsLast literal held.length held then told place else []) ++ more)
      ((if FitsLast literal held.length held then failed place else []) ++ failing) := by
  obtain ⟨front, rfl⟩ := hwindow
  have htrimmed := @trimmed_written front false held hne hheld
  rw [htrimmed]
  refine (Walk.recites_fits hmask).andThen ?_
  by_cases hfits : FitsLast literal held.length held
  · rw [if_pos hfits, if_pos hfits, if_pos (by simpa using fitsLast_exact.1 hfits)]
    exact hhit.bind hnext
  · rw [if_neg hfits, if_neg hfits, if_neg (by simpa using fun h => hfits (fitsLast_exact.2 h))]
    exact hnext

/-- A sweep tells what is told from the places below whose last names fit. What
fails there fails, and so does every place below that cannot be listed. -/
theorem recites_sweep (hnamed : tree.Named)
    (hmask : sure → ∃ mask, Mask.parse literal = .ok mask) (depth : Nat) (place : Place)
    (hhit : ∀ names, Walk.Recites tree once sure (hit (place.down names)) ()
      (told (place.down names)) (failed (place.down names)))
    (hsure : sure → tree.EndsWithin depth place.dir) {window : Text} {held : List Text}
    (hheld : ∀ name ∈ held, IsName name) (hwindow : Holds window held)
    (hended : held ≠ [] → Text.Ended place.path) (hlt : held.length < max wanted 1) :
    Walk.Recites tree once sure (sweep literal wanted hit depth place window held.length) ()
      (swept tree literal (max wanted 1) told (fun _ => []) held depth place)
      (failedAt tree place ++
        swept tree literal (max wanted 1) failed (failedAt tree) held depth place) := by
  -- By induction on the depth. What is held are the last names, fewer than the
  -- literal is wide, so that the next one may fill the window.
  induction depth generalizing place window held with
  | zero => exact Walk.recites_cut hsure _ _ _ (.inl rfl)
  | succ depth ih =>
    rw [sweep, swept_succ, swept_succ]
    refine (Walk.recites_list place).ask ?_
    rw [Tree.inside]
    cases hlist : tree.list place.dir with
    | error fault => exact Walk.recites_done ()
    | ok names =>
      refine Walk.recites_each fun name hmem => ?_
      have hinside : name ∈ tree.inside place.dir := by
        rw [Tree.inside, hlist]
        exact hmem
      have hname := hnamed place.dir name hinside
      have hends : sure → tree.EndsWithin depth (place.child name).dir := fun h => hsure h name hinside
      have hchild : Text.Ended (place.child name).path := Text.ended_joinName place.path hname
      have hnames : ∀ other ∈ held ++ [name], IsName other := by
        rw [List.forall_mem_append]
        exact ⟨hheld, by simpa using hname⟩
      obtain ⟨front, hnew⟩ := @Holds.child _ _ _ name hwindow hended
      have hlen : (held ++ [name]).length = held.length + 1 := by simp
      dsimp only
      rw [hnew]
      by_cases hfill : held.length + 1 < wanted
      · have hshort : ¬ FitsLast literal (max wanted 1) (held ++ [name]) := by
          intro h
          have := h.1
          omega
        rw [if_pos hfill, if_neg hshort, if_neg hshort, ← hlen]
        exact ih (place.child name) (fun rest => hhit (name :: rest)) hends hnames
          (.inr ⟨front, by simp, rfl⟩) (fun _ => hchild) (by omega)
      · rw [if_neg hfill]
        have hwidth : max wanted 1 = (held ++ [name]).length := by omega
        obtain ⟨first, rest, hcons⟩ := List.exists_cons_of_ne_nil (show held ++ [name] ≠ [] by simp)
        have hrest : rest.length = held.length := by
          rw [hcons, List.length_cons] at hlen
          omega
        -- One name goes when the window slides, and it does not matter further down.
        have henough : max wanted 1 ≤ rest.length + 1 := by omega
        have hslid : ∀ atHit atVisit : Place → List Text,
            swept tree literal (max wanted 1) atHit atVisit (held ++ [name]) depth
                (place.child name) =
              swept tree literal (max wanted 1) atHit atVisit rest depth (place.child name) := by
          intro atHit atVisit
          rw [hcons]
          exact swept_cons henough depth (place.child name)
        rw [hslid, hslid, hwidth]
        refine recites_child (hhit [name]) hmask hnames (by simp) ⟨front, rfl⟩ ?_
        rw [← hwidth, ← hrest, hcons]
        rw [hcons, List.forall_mem_cons] at hnames
        exact ih (place.child name) (fun more => hhit (name :: more)) hends hnames.2
          (.of_slide hnames.1) (fun _ => hchild) (by omega)

end Sweep

/-! ## Segments -/

/-- What is told below a place with the segments that are left. -/
def told (tree : Tree) : List Segment → Place → List Text
  | [], _ => []
  | [.literal text _], place => (Route.ofText text).reached tree place
  | .literal text _ :: rest, place =>
    ((Route.ofText (Text.trimmed text)).reached tree place).flatMap fun path =>
      told tree rest (place.descend path)
  | [.wild _], place => ([] :: tree.visits place).flatMap fun names => endAt tree (place.down names)
  | .wild _ :: .literal text width :: rest, place => (tree.visits place).flatMap fun names =>
    if FitsLast (Text.trimmed text) (max width 1) names then
      if rest.isEmpty then [(place.down names).path] else told tree rest (place.down names)
    else []
  | .wild _ :: rest, place => told tree rest place

/-- What is told from a place where a literal fits: the place itself, if the
literal was the last segment. -/
def after (tree : Tree) (rest : List Segment) (place : Place) : List Text :=
  if rest.isEmpty then [place.path] else told tree rest place

theorem told_literal (tree : Tree) (stars text : Text) (width : Nat) (rest : List Segment)
    (place : Place) : told tree (.wild stars :: .literal text width :: rest) place =
      (tree.visits place).flatMap fun names =>
        if FitsLast (Text.trimmed text) (max width 1) names then after tree rest (place.down names)
        else [] := by
  rw [told]
  rfl

theorem told_swept (tree : Tree) (stars text : Text) (width : Nat) (rest : List Segment)
    (place : Place) : told tree (.wild stars :: .literal text width :: rest) place =
      swept tree (Text.trimmed text) (max width 1) (after tree rest) (fun _ => []) [] tree.depth
        place := by
  rw [told_literal, swept]
  simp only [List.append_nil, List.nil_append]
  rfl

theorem told_head {text : Text} {width : Nat} {rest : List Segment} (hne : rest ≠ [])
    (place : Place) : told tree (.literal text width :: rest) place =
      ((Route.ofText (Text.trimmed text)).reached tree place).flatMap fun path =>
        told tree rest (place.descend path) := by
  rw [told]
  exact hne

/-- The paths that fail below a place with the segments that are left. -/
def failed (tree : Tree) : List Segment → Place → List Text
  | [], _ => []
  | [.literal text _], place => (Route.ofText text).failed tree place
  | .literal text _ :: rest, place =>
    (Route.ofText (Text.trimmed text)).failed tree place ++
      ((Route.ofText (Text.trimmed text)).reached tree place).flatMap fun path =>
        failed tree rest (place.descend path)
  | [.wild _], place => ([] :: tree.visits place).flatMap fun names => failedAt tree (place.down names)
  | .wild _ :: .literal text width :: rest, place =>
    failedAt tree place ++
      swept tree (Text.trimmed text) (max width 1) (failed tree rest) (failedAt tree) [] tree.depth
        place
  | .wild _ :: rest, place => failed tree rest place

theorem failed_head {text : Text} {width : Nat} {rest : List Segment} (hne : rest ≠ [])
    (place : Place) : failed tree (.literal text width :: rest) place =
      (Route.ofText (Text.trimmed text)).failed tree place ++
        ((Route.ofText (Text.trimmed text)).reached tree place).flatMap fun path =>
          failed tree rest (place.descend path) := by
  rw [failed]
  exact hne

/-- All texts that the walk reads as masks are masks. -/
def Walkable : List Segment → Prop
  | [] => True
  | [.literal text _] => (Route.ofText text).Readable
  | .literal text _ :: rest => (Route.ofText (Text.trimmed text)).Readable ∧ Walkable rest
  | [.wild _] => True
  | .wild _ :: .literal text _ :: rest => (∃ mask, Mask.parse (Text.trimmed text) = .ok mask) ∧ Walkable rest
  | .wild _ :: rest => Walkable rest

/-- A literal that is the whole pattern tells what its route reaches. -/
theorem recites_literal (depth : Nat) (text : Text) (width : Nat) (place : Place)
    (hsure : sure → (Route.ofText text).Readable) :
    Walk.Recites tree once sure (advance once depth [.literal text width] place) ()
      ((Route.ofText text).reached tree place) ((Route.ofText text).failed tree place) := by
  have hreach : ∀ path, Walk.Recites tree once sure
      ((report once path).bind fun _ => Walk.done []) ([] : List Text) [path] [] := fun path =>
    (Walk.recites_report path).bind (f := fun _ => Walk.done ([] : List Text))
      (Walk.recites_done [])
  have hfollow := Route.recites_follow hreach (Route.ofText text) hsure place
  rw [List.flatMap_singleton'] at hfollow
  have hwhole := hfollow.bind (f := fun _ => Walk.done ()) (Walk.recites_done ())
  rwa [List.append_nil, List.append_nil] at hwhole

/-- **What the segments tell.** The walk recites the lists, and all of them where the
tree is not deeper than it says and all masks are masks. -/
theorem recites_advance (hnamed : tree.Named) (segments : List Segment) (place : Place)
    (hsure : sure → tree.Finite ∧ Walkable segments) :
    Walk.Recites tree once sure (advance once tree.depth segments place) ()
      (told tree segments place) (failed tree segments place) := by
  fun_induction told tree segments place with
  | case1 place => exact Walk.recites_done ()
  | case2 text width place =>
    rw [failed]
    exact recites_literal tree.depth text width place fun h => (hsure h).2
  | case3 text width rest place hne ih =>
    have hreach : ∀ path : Text, Walk.Recites tree once sure (Walk.done [path]) [path] [] [] :=
      fun path => Walk.recites_done [path]
    have hparts : sure → (Route.ofText (Text.trimmed text)).Readable ∧ Walkable rest := by
      intro h
      have hwalkable := (hsure h).2
      rwa [Walkable] at hwalkable
      exact hne
    have hfollow := Route.recites_follow hreach (Route.ofText (Text.trimmed text))
      (fun h => (hparts h).1) place
    rw [List.flatMap_singleton', List.flatMap_eq_nil_iff.2 fun _ _ => rfl] at hfollow
    rw [advance_literal hne, failed_head hne]
    refine hfollow.ask (Walk.recites_each fun path _ => ih path fun h => ?_)
    exact ⟨(hsure h).1, (hparts h).2⟩
  | case4 stars place =>
    rw [advance, failed]
    exact recites_ends _ place fun h => (hsure h).1 place.dir
  | case5 stars text width rest place ih =>
    have hhit : ∀ names, Walk.Recites tree once sure
        (if rest.isEmpty = true then report once (place.down names).path
          else advance once tree.depth rest (place.down names)) ()
        (after tree rest (place.down names)) (failed tree rest (place.down names)) := by
      intro names
      rw [after]
      split
      · rename_i hempty
        rw [List.isEmpty_iff.1 hempty, failed]
        exact Walk.recites_report (place.down names).path
      · exact ih names fun h => ⟨(hsure h).1, (hsure h).2.2⟩
    have hlist := told_swept tree stars text width rest place
    rw [told] at hlist
    rw [hlist, advance, failed]
    exact @recites_sweep tree once sure (Text.trimmed text) width
      (fun target => if rest.isEmpty = true then report once target.path
        else advance once tree.depth rest target)
      (after tree rest) (failed tree rest) hnamed (fun h => (hsure h).2.1) tree.depth place hhit
      (fun h => (hsure h).1 place.dir) [] [] (by simp) (.inl ⟨rfl, rfl⟩) (by simp)
      (show 0 < max width 1 by omega)
  | case6 stars rest place hne hliteral ih =>
    rw [advance, failed]
    · refine ih fun h => ⟨(hsure h).1, ?_⟩
      have hwalkable := (hsure h).2
      rwa [Walkable] at hwalkable
      all_goals assumption
    all_goals assumption

/-- Where some text is no mask nothing is told. -/
theorem told_eq_nil {segments : List Segment} (h : ¬ Walkable segments) (place : Place) :
    told tree segments place = [] := by
  fun_induction told tree segments place with
  | case1 place => exact absurd trivial h
  | case2 text width place => exact Route.reached_eq_nil h place
  | case3 text width rest place hne ih =>
    rw [Walkable] at h
    · by_cases hroute : (Route.ofText (Text.trimmed text)).Readable
      · exact List.flatMap_eq_nil_iff.2 fun path _ => ih path fun hrest => h ⟨hroute, hrest⟩
      · rw [Route.reached_eq_nil hroute]
        rfl
    · exact hne
  | case4 stars place => exact absurd trivial h
  | case5 stars text width rest place ih =>
    rw [List.flatMap_eq_nil_iff]
    intro names _
    split
    · rename_i hfits
      have hrest : ¬ Walkable rest := fun hrest => h ⟨hfits.2.exists_parse, hrest⟩
      split
      · rename_i hempty
        rw [List.isEmpty_iff.1 hempty] at hrest
        exact absurd trivial hrest
      · exact ih names hrest
    · rfl
  | case6 stars rest place hne hliteral ih =>
    refine ih fun hrest => h ?_
    rwa [Walkable]
    all_goals assumption

end Expansion

/-! ## The whole walk -/

section Glob

variable {tree : Tree} {listener : Listener} {pattern root : Text}

open Expansion (repeats start told failed)

/-- A pattern that cannot be read tells only the root. -/
theorem recites_of_error {e : MalformedMask}
    (hread : Segment.read (Anchored.of pattern root).pattern = .error e) :
    Walk.Recites tree false False (Walk.glob tree.depth pattern root) () [] [] := by
  rw [Walk.glob, hread]
  exact (Walk.recites_root _).andThen (Walk.recites_cut id _ _ _ (.inr ⟨e, rfl⟩))

/-- Otherwise the walk tells what the segments do. -/
theorem recites_of_read {segments : List Segment} (hnamed : tree.Named) (hfinite : tree.Finite)
    (hread : Segment.read (Anchored.of pattern root).pattern = .ok segments) :
    Walk.Recites tree (repeats segments) (Expansion.Walkable segments)
      (Walk.glob tree.depth pattern root) ()
      (told tree segments (start (Anchored.of pattern root).root segments))
      (failed tree segments (start (Anchored.of pattern root).root segments)) := by
  rw [Walk.glob, hread]
  refine (Walk.recites_root _).andThen ?_
  exact Expansion.recites_advance hnamed segments _ fun h => ⟨hfinite, h⟩

/-- Nothing is handed over of a pattern that cannot be read. -/
theorem found_of_error {e : MalformedMask} (hwilling : listener.Willing)
    (hread : Segment.read (Anchored.of pattern root).pattern = .error e) :
    (tree.glob listener pattern root).found = [] := by
  rw [Tree.glob]
  rcases recites_of_error hread listener hwilling [] with ⟨-, hfound, -⟩ | ⟨-, -, hfound, -⟩
  · exact hfound
  · exact List.prefix_nil.1 hfound

/-- **What a run hands over:** what the segments tell, where there are several
wildcards each path once. -/
theorem found_of_read {segments : List Segment} (hnamed : tree.Named) (hfinite : tree.Finite)
    (hwilling : listener.Willing)
    (hread : Segment.read (Anchored.of pattern root).pattern = .ok segments) :
    (tree.glob listener pattern root).found = handed (repeats segments) []
      (told tree segments (start (Anchored.of pattern root).root segments)) := by
  have hwalk := recites_of_read hnamed hfinite hread
  rw [Tree.glob]
  rcases hwalk listener hwilling [] with ⟨-, hfound, -⟩ | ⟨hnot, -, hfound, -⟩
  · exact hfound
  · rw [Expansion.told_eq_nil hnot] at hfound ⊢
    have hnone : handed (repeats segments) (pathsIn []) [] = [] := by
      cases repeats segments <;> rfl
    rw [hnone] at hfound
    rw [List.prefix_nil.1 hfound]
    exact hnone.symm

end Glob

end PathGlob
