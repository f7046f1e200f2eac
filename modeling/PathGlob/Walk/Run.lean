/-
Running a walk against a tree and a listener.

A run answers the requests of a walk one after another: questions from the
tree, notices by handing them to the listener. The listener may refuse a
notice, and the walk is given the refusal as the answer. What the listener says
may depend on all it has been told, so it is a function of what it has heard,
latest first.

The result of a run is how it ended, and its trace: every question with the
answer it got and every notice that was handed over, in order. A notice that is
held back because it was told before is not in the trace, for nobody saw it.
-/
import PathGlob.Walk.Expansion

set_option autoImplicit false

namespace PathGlob

/-- Takes notices, given those it has heard before with the latest first, and
may refuse one with an error. -/
abbrev Listener := List Notice → Notice → Option GlobError

/-- One step of a run that could be seen from outside. -/
inductive Event where
  | list (place : Place) (answer : Except IoFault (List Text))
  | probe (place : Place) (answer : Except IoFault Bool)
  | tell (notice : Notice)

/-- How a run ended. -/
inductive Ending (α : Type) where
  | finished (value : α)
  /-- A text was no mask. -/
  | malformed (e : MalformedMask)
  /-- The listener refused a notice. -/
  | stopped (e : GlobError)
  /-- The tree is deeper than it said. -/
  | tooDeep

/-- The error of an ending that is one. -/
def Ending.error? {α : Type} : Ending α → Option GlobError
  | .finished _ => none
  | .malformed e => some (.malformed e)
  | .stopped e => some e
  | .tooDeep => some .tooDeep

/-- What happened in a run and how it ended. -/
structure Run (α : Type) where
  trace : List Event
  ending : Ending α

namespace Run

/-- The run with one more event before it. -/
def after {α : Type} (e : Event) (r : Run α) : Run α := ⟨e :: r.trace, r.ending⟩

/-- The notices of a run, in order. -/
def notices {α : Type} (r : Run α) : List Notice :=
  r.trace.filterMap fun
    | .tell notice => some notice
    | _ => none

/-- Two runs, the second from where the first finished. -/
def andThen {α β : Type} (r : Run α) (next : α → Run β) : Run β :=
  match r.ending with
  | .finished value => ⟨r.trace ++ (next value).trace, (next value).ending⟩
  | .malformed e => ⟨r.trace, .malformed e⟩
  | .stopped e => ⟨r.trace, .stopped e⟩
  | .tooDeep => ⟨r.trace, .tooDeep⟩

theorem after_andThen {α β : Type} (e : Event) (r : Run α) (next : α → Run β) :
    (r.after e).andThen next = (r.andThen next).after e := by
  obtain ⟨trace, ending⟩ := r
  cases ending <;> rfl

theorem notices_after_list {α : Type} (place : Place) (answer : Except IoFault (List Text))
    (r : Run α) : (r.after (.list place answer)).notices = r.notices := rfl

theorem notices_after_probe {α : Type} (place : Place) (answer : Except IoFault Bool)
    (r : Run α) : (r.after (.probe place answer)).notices = r.notices := rfl

theorem notices_after_tell {α : Type} (notice : Notice) (r : Run α) :
    (r.after (.tell notice)).notices = notice :: r.notices := rfl

/-- The matches that were handed over, in order. -/
def found {α : Type} (r : Run α) : List Text :=
  r.notices.filterMap fun
    | .found path => some path
    | _ => none

/-- The root that was handed over. -/
def root? {α : Type} (r : Run α) : Option Text :=
  r.notices.findSome? fun
    | .root path => some path
    | _ => none

/-- The error the run ended with, if it did. -/
def error? {α : Type} (r : Run α) : Option GlobError := r.ending.error?

end Run

/-- Run a walk. `heard` is what the listener has heard so far, latest first. A match that
was told before is not told again, so there is nothing to refuse. -/
def Walk.run {α : Type} (tree : Tree) (listener : Listener) : Walk α → List Notice → Run α
  | .done value, _ => ⟨[], .finished value⟩
  | .malformed e, _ => ⟨[], .malformed e⟩
  | .stopped e, _ => ⟨[], .stopped e⟩
  | .tooDeep, _ => ⟨[], .tooDeep⟩
  | .ask (.list place) next, heard =>
    let answer := tree.list place.dir
    ((next answer).run tree listener heard).after (.list place answer)
  | .ask (.probe place) next, heard =>
    let answer := tree.probe place.dir
    ((next answer).run tree listener heard).after (.probe place answer)
  | .ask (.tell notice) next, heard =>
    let answer := listener heard notice
    ((next answer).run tree listener (notice :: heard)).after (.tell notice)
  | .ask (.tellOnce notice) next, heard =>
    if notice ∈ heard then (next none).run tree listener heard
    else
      let answer := listener heard notice
      ((next answer).run tree listener (notice :: heard)).after (.tell notice)

/-- What is to come after a notice comes only if the notice is taken. -/
theorem Walk.run_tell {α : Type} (tree : Tree) (listener : Listener) (notice : Notice)
    (f : Unit → Walk α) (heard : List Notice) :
    ((Walk.tell notice).bind f).run tree listener heard =
      match listener heard notice with
      | none => ((f ()).run tree listener (notice :: heard)).after (.tell notice)
      | some e => ⟨[.tell notice], .stopped e⟩ := by
  rw [Walk.tell, Walk.bind, Walk.run]
  cases listener heard notice with
  | none => rfl
  | some e => rfl

/-- Running one walk after another is running the second after the first has
finished, before a listener that has heard the first. When the first ends in any
other way, that is the end of both. -/
theorem Walk.run_bind {α β : Type} (tree : Tree) (listener : Listener) (w : Walk α)
    (f : α → Walk β) (heard : List Notice) :
    (w.bind f).run tree listener heard =
      (w.run tree listener heard).andThen fun value =>
        (f value).run tree listener ((w.run tree listener heard).notices.reverse ++ heard) := by
  induction w generalizing heard with
  | done value => simp [Walk.bind, Walk.run, Run.andThen, Run.notices]
  | malformed e => simp [Walk.bind, Walk.run, Run.andThen]
  | stopped e => simp [Walk.bind, Walk.run, Run.andThen]
  | tooDeep => simp [Walk.bind, Walk.run, Run.andThen]
  | ask request next ih =>
    cases request with
    | list place =>
      simp only [Walk.bind, Walk.run, ih, Run.after_andThen, Run.notices_after_list]
    | probe place =>
      simp only [Walk.bind, Walk.run, ih, Run.after_andThen, Run.notices_after_probe]
    | tell notice =>
      simp [Walk.bind, Walk.run, ih, Run.after_andThen, Run.notices_after_tell]
    | tellOnce notice =>
      simp only [Walk.bind, Walk.run]
      by_cases hheard : notice ∈ heard
      · rw [if_pos hheard, if_pos hheard]
        exact ih none heard
      · rw [if_neg hheard, if_neg hheard]
        simp [ih, Run.after_andThen, Run.notices_after_tell]

/-! ## One request -/

section Requests

variable {tree : Tree} {listener : Listener} {heard : List Notice} {notice : Notice} {place : Place}

theorem Walk.run_tell_taken (htaken : listener heard notice = none) :
    (Walk.tell notice).run tree listener heard = ⟨[.tell notice], .finished ()⟩ := by
  rw [← Walk.bind_done (Walk.tell notice), Walk.run_tell, htaken]
  rfl

theorem Walk.run_tellOnce_taken (hnew : notice ∉ heard) (htaken : listener heard notice = none) :
    (Walk.tellOnce notice).run tree listener heard = ⟨[.tell notice], .finished ()⟩ := by
  rw [Walk.tellOnce, Walk.run, if_neg hnew, htaken]
  rfl

/-- The listener is not even asked. -/
theorem Walk.run_tellOnce_heard (hheard : notice ∈ heard) :
    (Walk.tellOnce notice).run tree listener heard = ⟨[], .finished ()⟩ := by
  rw [Walk.tellOnce, Walk.run, if_pos hheard]
  rfl

theorem Walk.run_list_ok {names : List Text} (hlist : tree.list place.dir = .ok names) :
    (Walk.list place).run tree listener heard =
      ⟨[.list place (.ok names)], .finished (some names)⟩ := by
  rw [Walk.list, Walk.run, hlist]
  rfl

/-- A fault that the listener takes has been told, and the walk goes on. -/
theorem Walk.run_list_error {fault : IoFault} (hlist : tree.list place.dir = .error fault)
    (htaken : listener heard (.failed place.path fault) = none) :
    (Walk.list place).run tree listener heard =
      ⟨[.list place (.error fault), .tell (.failed place.path fault)], .finished none⟩ := by
  rw [Walk.list, Walk.run, hlist]
  show (((Walk.tell _).bind _).run tree listener heard).after _ = _
  rw [Walk.run_tell, htaken]
  rfl

theorem Walk.run_probe_ok {there : Bool} (hprobe : tree.probe place.dir = .ok there) :
    (Walk.probe place).run tree listener heard =
      ⟨[.probe place (.ok there)], .finished there⟩ := by
  rw [Walk.probe, Walk.run, hprobe]
  rfl

/-- The same for the other question. -/
theorem Walk.run_probe_error {fault : IoFault} (hprobe : tree.probe place.dir = .error fault)
    (htaken : listener heard (.failed place.path fault) = none) :
    (Walk.probe place).run tree listener heard =
      ⟨[.probe place (.error fault), .tell (.failed place.path fault)], .finished false⟩ := by
  rw [Walk.probe, Walk.run, hprobe]
  show (((Walk.tell _).bind _).run tree listener heard).after _ = _
  rw [Walk.run_tell, htaken]
  rfl

end Requests

/-- Expand a pattern below a root of a tree. -/
def Tree.glob (tree : Tree) (listener : Listener) (pattern root : Text) : Run Unit :=
  (Walk.glob tree.depth pattern root).run tree listener []

end PathGlob
