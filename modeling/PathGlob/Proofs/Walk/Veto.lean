/-
What a listener changes about a run by refusing a notice.

A refusal is an answer like any other, and a walk could go on after it
(`exists_not_obeys`). The walks of an expansion do not: each of its functions ends with the
error that the listener gave, when it told the refused notice itself as well as when a
function it called has ended so (`Walk.Yields`, from the requests to `yields_glob`).

A run before a listener that refuses nothing shows everything that a walk asks and tells in
a tree. If the walk yields, any other listener cuts this run short and does nothing else to
it: the run goes as far as the first notice that the listener refuses, given what it has
heard until then, and ends there with the listener's reason. Nothing is asked and nothing is
told after that. A listener that would refuse nothing along the way sees the same run to the
same end (`Walk.Yields.obeys`). How often a match is told does not disturb it: up to the
first refusal both listeners have heard the same.
-/
import PathGlob.Walk.Run

set_option autoImplicit false

namespace PathGlob

/-- Refuses nothing. -/
def Listener.lenient : Listener := fun _ _ => none

/-- The notice that an event tells, if it tells one. -/
def Event.notice? : Event → Option Notice
  | .list _ _ => none
  | .probe _ _ => none
  | .tell notice => some notice

/-- What a listener has heard in some events, latest first. -/
def heardIn (events : List Event) : List Notice := (events.filterMap Event.notice?).reverse

theorem heardIn_cons (event : Event) (events : List Event) :
    heardIn (event :: events) = heardIn events ++ heardIn [event] := by
  unfold heardIn
  rw [← List.singleton_append, List.filterMap_append, List.reverse_append]

namespace Listener

/-- The events end with a notice that the listener refuses, having heard those in
front of it after some others. -/
def Refuses (listener : Listener) (heard : List Notice) (seen : List Event) (e : GlobError) : Prop :=
  ∃ before notice, seen = before ++ [.tell notice] ∧
    listener (heardIn before ++ heard) notice = some e

/-- The shortest first part of the events that ends with a refusal. -/
structure Stops (listener : Listener) (heard : List Notice) (trace seen : List Event)
    (e : GlobError) : Prop where
  upTo : seen <+: trace
  refused : listener.Refuses heard seen e
  first : ∀ other e', other <+: trace → listener.Refuses heard other e' → seen <+: other

/-- Some notice along the events would be refused. -/
def Objects (listener : Listener) (heard : List Notice) (trace : List Event) : Prop :=
  ∃ seen e, seen <+: trace ∧ listener.Refuses heard seen e

variable {α : Type} {listener : Listener} {heard : List Notice} {event : Event}
  {trace seen : List Event} {e : GlobError}

/-! ## One event more in front -/

theorem not_refuses_nil : ¬ listener.Refuses heard [] e := by
  rintro ⟨before, notice, hnil, -⟩
  exact List.append_ne_nil_of_right_ne_nil before (List.cons_ne_nil _ []) hnil.symm

/-- A first event that is not refused has only been heard. -/
theorem refuses_cons (hpass : ∀ notice, event = .tell notice → listener heard notice = none) :
    listener.Refuses heard (event :: seen) e ↔
      listener.Refuses (heardIn [event] ++ heard) seen e := by
  constructor
  · rintro ⟨before, notice, hseen, hrefused⟩
    cases before with
    | nil =>
      obtain ⟨rfl, -⟩ := List.cons.inj hseen
      have htaken := hpass notice rfl
      rw [show heardIn [] ++ heard = heard from rfl, htaken] at hrefused
      exact absurd hrefused (Option.some_ne_none e).symm
    | cons first before =>
      obtain ⟨rfl, hrest⟩ := List.cons.inj hseen
      rw [heardIn_cons, List.append_assoc] at hrefused
      exact ⟨before, notice, hrest, hrefused⟩
  · rintro ⟨before, notice, hseen, hrefused⟩
    refine ⟨event :: before, notice, ?_, ?_⟩
    · rw [hseen, List.cons_append]
    · rw [heardIn_cons, List.append_assoc]
      exact hrefused

/-- A refusal behind the first event is one of the events behind it. -/
theorem exists_of_refuses (hpass : ∀ notice, event = .tell notice → listener heard notice = none)
    (hseen : seen <+: event :: trace) (h : listener.Refuses heard seen e) :
    ∃ rest, seen = event :: rest ∧ rest <+: trace ∧
      listener.Refuses (heardIn [event] ++ heard) rest e := by
  rcases List.prefix_cons_iff.1 hseen with rfl | ⟨rest, rfl, hrest⟩
  · exact absurd h not_refuses_nil
  · exact ⟨rest, rfl, hrest, (refuses_cons hpass).1 h⟩

theorem Stops.cons (hpass : ∀ notice, event = .tell notice → listener heard notice = none)
    (h : listener.Stops (heardIn [event] ++ heard) trace seen e) :
    listener.Stops heard (event :: trace) (event :: seen) e where
  upTo := List.cons_prefix_cons.2 ⟨rfl, h.upTo⟩
  refused := (refuses_cons hpass).2 h.refused
  first := by
    intro other e' hother hrefused
    obtain ⟨rest, rfl, hrest, hlater⟩ := exists_of_refuses hpass hother hrefused
    exact List.cons_prefix_cons.2 ⟨rfl, h.first rest e' hrest hlater⟩

/-- A refusal of the first notice is the first refusal. -/
theorem stops_first {notice : Notice} (hrefused : listener heard notice = some e) :
    listener.Stops heard (.tell notice :: trace) [.tell notice] e where
  upTo := List.prefix_append [.tell notice] trace
  refused := ⟨[], notice, rfl, hrefused⟩
  first := by
    intro other e' hother hlater
    rcases List.prefix_cons_iff.1 hother with rfl | ⟨rest, rfl, -⟩
    · exact absurd hlater not_refuses_nil
    · exact List.prefix_append [.tell notice] rest

/-- How a run before the listener comes from the run before one that refuses
nothing: cut behind the first refusal, or the same. -/
def Obeys (listener : Listener) (heard : List Notice) (full run : Run α) : Prop :=
  (∃ seen e, listener.Stops heard full.trace seen e ∧ run = ⟨seen, .stopped e⟩) ∨
    ¬ listener.Objects heard full.trace ∧ run = full

theorem obeys_end (ending : Ending α) : listener.Obeys heard ⟨[], ending⟩ ⟨[], ending⟩ := by
  refine .inr ⟨?_, rfl⟩
  rintro ⟨seen, e, hseen, hrefused⟩
  rw [List.prefix_nil.1 hseen] at hrefused
  exact not_refuses_nil hrefused

theorem Obeys.after {full run : Run α}
    (hpass : ∀ notice, event = .tell notice → listener heard notice = none)
    (h : listener.Obeys (heardIn [event] ++ heard) full run) :
    listener.Obeys heard (full.after event) (run.after event) := by
  rcases h with ⟨seen, e, hstops, rfl⟩ | ⟨hnone, rfl⟩
  · exact .inl ⟨event :: seen, e, hstops.cons hpass, rfl⟩
  · refine .inr ⟨?_, rfl⟩
    rintro ⟨seen, e, hseen, hrefused⟩
    obtain ⟨rest, rfl, hrest, hlater⟩ := exists_of_refuses hpass hseen hrefused
    exact hnone ⟨rest, e, hrest, hlater⟩

/-- A notice goes to both listeners; the one may refuse it. -/
theorem obeys_tell {notice : Notice} {full run : Run α}
    (h : listener.Obeys (notice :: heard) full run) :
    listener.Obeys heard (full.after (.tell notice))
      (match listener heard notice with
        | some e => ⟨[.tell notice], .stopped e⟩
        | none => run.after (.tell notice)) := by
  cases hanswer : listener heard notice with
  | some e => exact .inl ⟨_, e, stops_first hanswer, rfl⟩
  | none =>
    apply Obeys.after ?_ h
    intro other hother
    obtain rfl := Event.tell.inj hother
    exact hanswer

end Listener

/-! ## Walks that yield -/

namespace Walk

variable {α β : Type}

/-- When the listener refuses a notice the walk ends at once with the error that it refuses
with. It never ends in this way otherwise. -/
inductive Yields : Walk α → Prop
  | done (value : α) : Yields (.done value)
  | malformed (e : MalformedMask) : Yields (.malformed e)
  | tooDeep : Yields .tooDeep
  | list {place : Place} {next : (Request.list place).Answer → Walk α}
      (h : ∀ answer, Yields (next answer)) : Yields (.ask (.list place) next)
  | probe {place : Place} {next : (Request.probe place).Answer → Walk α}
      (h : ∀ answer, Yields (next answer)) : Yields (.ask (.probe place) next)
  | tell {notice : Notice} {next : (Request.tell notice).Answer → Walk α}
      (htaken : Yields (next none)) (hrefused : ∀ e, next (some e) = .stopped e) :
      Yields (.ask (.tell notice) next)
  | tellOnce {notice : Notice} {next : (Request.tellOnce notice).Answer → Walk α}
      (htaken : Yields (next none)) (hrefused : ∀ e, next (some e) = .stopped e) :
      Yields (.ask (.tellOnce notice) next)

/-- A refusal in the first of two walks is the end of both. -/
theorem Yields.bind {w : Walk α} {f : α → Walk β} (hw : Yields w)
    (hf : ∀ value, Yields (f value)) : Yields (w.bind f) := by
  induction hw with
  | done value => exact hf value
  | malformed e => exact .malformed e
  | tooDeep => exact .tooDeep
  | list _ ih => exact .list ih
  | probe _ ih => exact .probe ih
  | tell _ hrefused ih => exact .tell ih fun e => congrArg (Walk.bind · f) (hrefused e)
  | tellOnce _ hrefused ih => exact .tellOnce ih fun e => congrArg (Walk.bind · f) (hrefused e)

theorem yields_tell (notice : Notice) : Yields (tell notice) := .tell (.done ()) fun _ => rfl

theorem yields_tellOnce (notice : Notice) : Yields (tellOnce notice) :=
  .tellOnce (.done ()) fun _ => rfl

/-- The fault of a listing may be refused. -/
theorem yields_list (place : Place) : Yields (list place) := by
  refine .list fun answer => ?_
  cases answer with
  | ok names => exact .done (some names)
  | error fault => exact (yields_tell (.failed place.path fault)).bind fun _ => .done none

/-- So may the fault of a probe. -/
theorem yields_probe (place : Place) : Yields (probe place) := by
  refine .probe fun answer => ?_
  cases answer with
  | ok there => exact .done there
  | error fault => exact (yields_tell (.failed place.path fault)).bind fun _ => .done false

theorem yields_fits (text name : Text) : Yields (fits text name) := by
  rw [fits]
  cases Mask.fits text name with
  | ok answer => exact .done answer
  | error e => exact .malformed e

/-- A refusal on behalf of one element ends the walk for all. -/
theorem yields_each {step : α → Walk Unit} (h : ∀ a, Yields (step a)) (elements : List α) :
    Yields (each step elements) := by
  induction elements with
  | nil => exact .done ()
  | cons a rest ih => exact (h a).bind fun _ => ih

theorem yields_collect {step : α → Walk (List β)} (h : ∀ a, Yields (step a))
    (elements : List α) : Yields (collect step elements) := by
  induction elements with
  | nil => exact .done []
  | cons a rest ih => exact (h a).bind fun _ => ih.bind fun _ => .done _

end Walk

/-! ## Expansion -/

open Walk (Yields)

/-- A route yields on the way, and at its end if what is done there does. -/
theorem Route.yields_follow {reach : Text → Walk (List Text)} (hreach : ∀ path, Yields (reach path))
    (route : Route) (place : Place) : Yields (route.follow reach place) := by
  induction route generalizing place with
  | here => exact hreach place.path
  | nowhere => exact .done []
  | probe path next ih =>
    unfold follow
    refine (Walk.yields_probe (place.child path)).bind fun there => ?_
    split
    · exact ih (place.child path)
    · exact .done []
  | choose mask next ih =>
    unfold follow
    refine (Walk.yields_list place).bind fun names? => ?_
    cases names? with
    | none => exact .done []
    | some names =>
      refine Walk.yields_collect (fun name => ?_) names
      refine (Walk.yields_fits mask name).bind fun answer => ?_
      split
      · exact ih (place.child name)
      · exact .done []

namespace Expansion

theorem yields_report (once : Bool) (path : Text) : Yields (report once path) := by
  unfold report
  split
  · exact Walk.yields_tellOnce (.found path)
  · exact Walk.yields_tell (.found path)

theorem yields_ends (once : Bool) (depth : Nat) (place : Place) :
    Yields (ends once depth place) := by
  induction depth generalizing place with
  | zero => exact .tooDeep
  | succ depth ih =>
    unfold ends
    refine (Walk.yields_list place).bind fun names? => ?_
    split
    · exact .done ()
    · split
      · exact .done ()
      · exact yields_report once place.path
    · exact Walk.yields_each (fun name => ih (place.child name)) _

/-- A sweep does not go on below a place where it was refused something, nor beside it. -/
theorem yields_sweep {literal : Text} {wanted : Nat} {hit : Place → Walk Unit}
    (hhit : ∀ place, Yields (hit place)) (depth : Nat) (place : Place) (window : Text)
    (filled : Nat) : Yields (sweep literal wanted hit depth place window filled) := by
  induction depth generalizing place window filled with
  | zero => exact .tooDeep
  | succ depth ih =>
    unfold sweep
    refine (Walk.yields_list place).bind fun names? => ?_
    cases names? with
    | none => exact .done ()
    | some names =>
      refine Walk.yields_each (fun name => ?_) names
      dsimp only
      split
      · exact ih _ _ _
      · refine (Walk.yields_fits _ _).bind fun answer => ?_
        split
        · exact (hhit _).bind fun _ => ih _ _ _
        · exact ih _ _ _

/-- **Every walk of an expansion** yields, whatever its segments are. -/
theorem yields_advance (once : Bool) (depth : Nat) (segments : List Segment) (place : Place) :
    Yields (advance once depth segments place) := by
  fun_induction advance once depth segments place with
  | case1 place => exact .done ()
  | case2 text width place =>
    have hreach : ∀ path, Yields ((report once path).bind fun _ => Walk.done ([] : List Text)) :=
      fun path => (yields_report once path).bind fun _ => .done []
    exact (Route.yields_follow hreach (Route.ofText text) place).bind fun _ => .done ()
  | case3 text width rest place hne ih =>
    have hreach : ∀ path : Text, Yields (Walk.done [path]) := fun path => .done [path]
    refine (Route.yields_follow hreach (Route.ofText (Text.trimmed text)) place).bind fun paths => ?_
    exact Walk.yields_each ih paths
  | case4 stars place => exact yields_ends once depth place
  | case5 stars text width rest place hit ih =>
    refine yields_sweep (fun child => ?_) depth place [] 0
    show Yields (if rest.isEmpty = true then report once child.path
      else advance once depth rest child)
    split
    · exact yields_report once child.path
    · exact ih child
  | case6 stars rest place hne hliteral ih => exact ih

end Expansion

/-- **The whole walk yields**, at the root and behind it. -/
theorem Walk.yields_glob (depth : Nat) (pattern root : Text) :
    Yields (Walk.glob depth pattern root) := by
  refine (yields_tell (.root (Anchored.of pattern root).root)).bind fun _ => ?_
  split
  · exact .malformed _
  · exact Expansion.yields_advance _ _ _ _

/-! ## Runs -/

section Runs

variable {α : Type} (tree : Tree) (listener : Listener)

/-- What a yielding walk would do after a notice it does if the notice is taken. -/
theorem Walk.run_yielding {notice : Notice} {next : (Request.tell notice).Answer → Walk α}
    (hrefused : ∀ e, next (some e) = .stopped e) (heard : List Notice) :
    ((next (listener heard notice)).run tree listener (notice :: heard)).after (.tell notice) =
      match listener heard notice with
      | some e => ⟨[.tell notice], .stopped e⟩
      | none => ((next none).run tree listener (notice :: heard)).after (.tell notice) := by
  cases listener heard notice with
  | some e =>
    rw [hrefused]
    rfl
  | none => rfl

/-- **Refusing only cuts.** Before any listener a yielding walk runs as before one that
refuses nothing, up to the first refusal. -/
theorem Walk.Yields.obeys {w : Walk α} (h : Yields w) (heard : List Notice) :
    listener.Obeys heard (w.run tree .lenient heard) (w.run tree listener heard) := by
  induction h generalizing heard with
  | done value => exact Listener.obeys_end _
  | malformed e => exact Listener.obeys_end _
  | tooDeep => exact Listener.obeys_end _
  | @list place next _ ih =>
    apply Listener.Obeys.after ?_ (ih (tree.list place.dir) heard)
    intro notice h
    cases h
  | @probe place next _ ih =>
    apply Listener.Obeys.after ?_ (ih (tree.probe place.dir) heard)
    intro notice h
    cases h
  | @tell notice next _ hrefused ih =>
    simp only [run]
    rw [run_yielding tree listener hrefused]
    exact Listener.obeys_tell (ih (notice :: heard))
  | @tellOnce notice next _ hrefused ih =>
    simp only [run]
    by_cases hheard : notice ∈ heard
    · -- What has been told before is not told to either.
      rw [if_pos hheard, if_pos hheard]
      exact ih heard
    · rw [if_neg hheard, if_neg hheard, run_yielding tree listener hrefused]
      exact Listener.obeys_tell (ih (notice :: heard))

/-- A walk that does not look at the answer goes on when it is refused something. -/
theorem exists_not_obeys : ∃ (w : Walk Unit) (listener : Listener),
    ¬ listener.Obeys [] (w.run tree .lenient []) (w.run tree listener []) := by
  refine ⟨.ask (.tell (.root [])) fun _ => .done (), fun _ _ => some .tooDeep, ?_⟩
  rintro (⟨seen, e, -, hrun⟩ | ⟨hnone, -⟩)
  · cases congrArg Run.ending hrun
  · exact hnone ⟨_, .tooDeep, List.prefix_rfl, [], .root [], rfl, rfl⟩

end Runs

/-- **A veto stops the run at once.** If the listener refuses some notice along
the run that is made before a listener that refuses nothing, then its own run is
the shortest first part that ends with a refused notice, and it ends with the
reason given. If it refuses none, its run is that run. -/
theorem glob_veto (tree : Tree) (listener : Listener) (pattern root : Text) :
    (listener.Objects [] (tree.glob .lenient pattern root).trace →
      ∃ seen e, listener.Stops [] (tree.glob .lenient pattern root).trace seen e ∧
        tree.glob listener pattern root = ⟨seen, .stopped e⟩) ∧
    (¬ listener.Objects [] (tree.glob .lenient pattern root).trace →
      tree.glob listener pattern root = tree.glob .lenient pattern root) := by
  have hobeys := (Walk.yields_glob tree.depth pattern root).obeys tree listener []
  constructor
  · intro hobjects
    exact hobeys.resolve_right fun hnone => hnone.1 hobjects
  · intro hnone
    rcases hobeys with ⟨seen, e, hstops, -⟩ | ⟨-, hsame⟩
    · exact absurd ⟨seen, e, hstops.upTo, hstops.refused⟩ hnone
    · exact hsame

end PathGlob
