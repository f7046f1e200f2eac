/-
A walk comes to an end.

A walk is a finite value that says so where it would have to go further down than the
tree said it would. `Walk.Halts` says of a walk in a tree that it never comes to that,
whatever a listener says to the notices. The rules follow the
ways to put walks together, as far as they ask the tree for names. Where the names are
asked for, a walk may rely on those that the tree gives: going down by them is what
uses up the depth (`halts_ends`, `halts_sweep`).

Nothing more is needed of a tree than that it is not deeper than it says
(`glob_halts`). Masks may be malformed and names may be anything.
-/
import PathGlob.Proofs.Walk.Candid
import PathGlob.Proofs.Walk.Visits

set_option autoImplicit false

namespace PathGlob

namespace Walk

variable {α β : Type} {tree : Tree}

/-- In the tree the walk never finds more below than the tree said. -/
def Halts (tree : Tree) : Walk α → Prop
  | .done _ => True
  | .malformed _ => True
  | .stopped _ => True
  | .tooDeep => False
  | .ask (.list place) next => Halts tree (next (tree.list place.dir))
  | .ask (.probe place) next => Halts tree (next (tree.probe place.dir))
  | .ask (.tell _) next => ∀ answer, Halts tree (next answer)
  | .ask (.tellOnce _) next => ∀ answer, Halts tree (next answer)

theorem halts_done (value : α) : Halts tree (.done value) := trivial

/-- One walk after another. -/
theorem Halts.bind {w : Walk α} {f : α → Walk β} (hw : Halts tree w)
    (hf : ∀ value, Halts tree (f value)) : Halts tree (w.bind f) := by
  induction w with
  | done value => exact hf value
  | malformed e => trivial
  | stopped e => trivial
  | tooDeep => exact hw
  | ask request next ih =>
    cases request with
    | list place => exact ih _ hw
    | probe place => exact ih _ hw
    | tell notice => exact fun answer => ih answer (hw answer)
    | tellOnce notice => exact fun answer => ih answer (hw answer)

theorem halts_heeding (answer : Option GlobError) : Halts tree (heeding answer) := by
  cases answer <;> trivial

theorem halts_tell (notice : Notice) : Halts tree (tell notice) := halts_heeding

theorem halts_tellOnce (notice : Notice) : Halts tree (tellOnce notice) := halts_heeding

/-- What follows a listing has the names of the tree, or none. -/
theorem halts_list {place : Place} {f : Option (List Text) → Walk α} (hnone : Halts tree (f none))
    (hsome : ∀ names, (∀ name ∈ names, name ∈ tree.inside place.dir) →
      Halts tree (f (some names))) : Halts tree ((list place).bind f) := by
  simp only [list, bind, Halts]
  cases hlist : tree.list place.dir with
  | ok names =>
    refine hsome names fun name hname => ?_
    rwa [Tree.inside, hlist]
  | error fault =>
    show Halts tree (((tell (.failed place.path fault)).bind fun _ => .done none).bind f)
    rw [bind_assoc]
    exact (halts_tell (.failed place.path fault)).bind fun _ => hnone

theorem halts_probe (place : Place) : Halts tree (probe place) := by
  rw [probe, Halts]
  cases tree.probe place.dir with
  | ok answer => trivial
  | error fault => exact (halts_tell (.failed place.path fault)).bind fun _ => halts_done false

theorem halts_fits (text name : Text) : Halts tree (fits text name) := by
  rw [fits]
  split <;> trivial

theorem halts_each {step : α → Walk Unit} {elements : List α}
    (h : ∀ a ∈ elements, Halts tree (step a)) : Halts tree (each step elements) := by
  induction elements with
  | nil => trivial
  | cons a rest ih =>
    rw [List.forall_mem_cons] at h
    exact h.1.bind fun _ => ih h.2

theorem halts_collect {step : α → Walk (List β)} {elements : List α}
    (h : ∀ a ∈ elements, Halts tree (step a)) : Halts tree (collect step elements) := by
  induction elements with
  | nil => trivial
  | cons a rest ih =>
    rw [List.forall_mem_cons] at h
    exact h.1.bind fun _ => (ih h.2).bind fun _ => trivial

/-- **Every run** of the walk ends as if the tree were as deep as it said. -/
theorem Halts.run {w : Walk α} (h : Halts tree w) (listener : Listener) (heard : List Notice) :
    (w.run tree listener heard).ending ≠ .tooDeep := by
  induction w generalizing heard with
  | done value => simp [Walk.run]
  | malformed e => simp [Walk.run]
  | stopped e => simp [Walk.run]
  | tooDeep => exact absurd h id
  | ask request next ih =>
    cases request with
    | list place => exact ih _ h heard
    | probe place => exact ih _ h heard
    | tell notice => exact ih _ (h _) (notice :: heard)
    | tellOnce notice =>
      simp only [Walk.run]
      -- What has been told before is not told again, and the run goes on.
      split
      · exact ih none (h none) heard
      · exact ih _ (h _) (notice :: heard)

end Walk

open Walk (Halts)

section Places

variable {tree : Tree}

/-- A route has an end of its own, however deep the tree. -/
theorem Route.halts_follow {reach : Text → Walk (List Text)} (hreach : ∀ path, Halts tree (reach path))
    (route : Route) (place : Place) : Halts tree (route.follow reach place) := by
  induction route generalizing place with
  | here => exact hreach place.path
  | nowhere => trivial
  | probe path next ih =>
    unfold follow
    refine (Walk.halts_probe _).bind fun there => ?_
    split
    · exact ih _
    · trivial
  | choose mask next ih =>
    unfold follow
    refine Walk.halts_list trivial fun names _ => Walk.halts_collect fun name _ => ?_
    refine (Walk.halts_fits mask name).bind fun fits => ?_
    split
    · exact ih _
    · trivial

namespace Expansion

theorem halts_report (once : Bool) (path : Text) : Halts tree (report once path) := by
  unfold report
  split
  · exact Walk.halts_tellOnce (.found path)
  · exact Walk.halts_tell (.found path)

/-- Looking for ends goes as far down as there are names. -/
theorem halts_ends (once : Bool) {depth : Nat} {place : Place}
    (hends : tree.EndsWithin depth place.dir) : Halts tree (ends once depth place) := by
  induction depth generalizing place with
  | zero => exact hends
  | succ depth ih =>
    unfold ends
    refine Walk.halts_list trivial fun names hnames => ?_
    split
    · trivial
    · split
      · trivial
      · exact halts_report once place.path
    · rename_i names _ heq
      obtain rfl := Option.some.inj heq
      exact Walk.halts_each fun name hname => ih (hends name (hnames name hname))

/-- So does a sweep, and from every hit the walk goes on. -/
theorem halts_sweep {literal : Text} {wanted : Nat} {hit : Place → Walk Unit}
    (hhit : ∀ place, Halts tree (hit place)) {depth : Nat} {place : Place}
    (hends : tree.EndsWithin depth place.dir) (window : Text) (filled : Nat) :
    Halts tree (sweep literal wanted hit depth place window filled) := by
  induction depth generalizing place window filled with
  | zero => exact hends
  | succ depth ih =>
    unfold sweep
    refine Walk.halts_list trivial fun names hnames => Walk.halts_each fun name hname => ?_
    have hbelow := hends name (hnames name hname)
    dsimp only
    split
    · exact ih hbelow _ _
    · refine (Walk.halts_fits _ _).bind fun fits => ?_
      split
      · exact (hhit _).bind fun _ => ih hbelow _ _
      · exact ih hbelow _ _

/-- **Going on with segments** comes to an end, for each search starts with the depth of
the whole tree. -/
theorem halts_advance (hfinite : tree.Finite) (once : Bool) (segments : List Segment) (place : Place) :
    Halts tree (advance once tree.depth segments place) := by
  fun_induction advance once tree.depth segments place with
  | case1 place => trivial
  | case2 text width place =>
    refine (Route.halts_follow (fun path => ?_) _ place).bind fun _ => trivial
    exact (halts_report once path).bind fun _ => trivial
  | case3 text width rest place hne ih =>
    refine (Route.halts_follow (fun path => Walk.halts_done [path]) _ place).bind fun paths => ?_
    exact Walk.halts_each fun path _ => ih path
  | case4 stars place => exact halts_ends once (hfinite place.dir)
  | case5 stars text width rest place hit ih =>
    refine halts_sweep (fun child => ?_) (hfinite place.dir) [] 0
    show Halts tree (if rest.isEmpty = true then report once child.path
      else advance once tree.depth rest child)
    split
    · exact halts_report once child.path
    · exact ih child
  | case6 stars rest place hne hliteral ih => exact ih

end Expansion

end Places

/-- **A walk in a tree that is as deep as it says** is never told otherwise. -/
theorem Tree.glob_halts {tree : Tree} (hfinite : tree.Finite) (listener : Listener)
    (pattern root : Text) : (tree.glob listener pattern root).ending ≠ .tooDeep := by
  have hwalk : Halts tree (Walk.glob tree.depth pattern root) := by
    rw [Walk.glob]
    refine (Walk.halts_tell (.root (Anchored.of pattern root).root)).bind fun _ => ?_
    split
    · trivial
    · exact Expansion.halts_advance hfinite _ _ _
  exact hwalk.run listener []

end PathGlob
