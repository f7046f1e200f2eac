/-
Every fault of a tree is told, at once and once, and nothing else is told as one.

Which notice a question calls for depends on its answer alone: where the answer is
a fault, it is the fault at the place of the question (`Event.fault?`). A walk is
candid when it tells this notice before it does anything else, and tells nothing
but matches otherwise. The notice that is due is carried along (`Walk.Candid`),
so one walk after another is candid if both are, and so are all the walks that an
expansion is put together from.

A run of a candid walk shows this in its trace, before any listener, also one
that refuses the notice of a fault: whatever the walk does then, the notice has been
told (`Walk.settled_run`). The root is told once and in front of everything,
outside of all this.
-/
import PathGlob.Proofs.Walk.Veto

set_option autoImplicit false

namespace PathGlob

/-- The notice that an answer calls for. -/
def Event.fault? : Event → Option Notice
  | .list place (.error fault) => some (.failed place.path fault)
  | .probe place (.error fault) => some (.failed place.path fault)
  | _ => none

/-! ## Walks -/

namespace Walk

variable {α β : Type}

/-- The walk tells the notice that is due, if one is, and after each question the
notice that the answer calls for. Besides it tells matches. -/
def Candid : Option Notice → Walk α → Prop
  | none, .done _ => True
  | none, .malformed _ => True
  | none, .stopped _ => True
  | none, .tooDeep => True
  | none, .ask (.list place) next =>
    ∀ answer, Candid (Event.list place answer).fault? (next answer)
  | none, .ask (.probe place) next =>
    ∀ answer, Candid (Event.probe place answer).fault? (next answer)
  | none, .ask (.tell notice) next =>
    notice.isFound = true ∧ ∀ answer, Candid none (next answer)
  | none, .ask (.tellOnce notice) next =>
    notice.isFound = true ∧ ∀ answer, Candid none (next answer)
  | some notice, .ask (.tell other) next => other = notice ∧ ∀ answer, Candid none (next answer)
  | some _, _ => False

theorem candid_done (value : α) : Candid none (done value) := trivial

/-- One candid walk after another. -/
theorem Candid.bind {due : Option Notice} {w : Walk α} {f : α → Walk β} (hw : Candid due w)
    (hf : ∀ value, Candid none (f value)) : Candid due (w.bind f) := by
  induction w generalizing due with
  | done value =>
    cases due with
    | none => exact hf value
    | some notice => exact absurd hw id
  | malformed e =>
    cases due with
    | none => trivial
    | some notice => exact absurd hw id
  | stopped e =>
    cases due with
    | none => trivial
    | some notice => exact absurd hw id
  | tooDeep =>
    cases due with
    | none => trivial
    | some notice => exact absurd hw id
  | ask request next ih =>
    cases due with
    | none =>
      cases request with
      | list place => exact fun answer => ih answer (hw answer)
      | probe place => exact fun answer => ih answer (hw answer)
      | tell notice => exact ⟨hw.1, fun answer => ih answer (hw.2 answer)⟩
      | tellOnce notice => exact ⟨hw.1, fun answer => ih answer (hw.2 answer)⟩
    | some notice =>
      cases request with
      | tell other => exact ⟨hw.1, fun answer => ih answer (hw.2 answer)⟩
      | list place => exact absurd hw id
      | probe place => exact absurd hw id
      | tellOnce other => exact absurd hw id

theorem candid_each {step : α → Walk Unit} (h : ∀ a, Candid none (step a)) (elements : List α) :
    Candid none (each step elements) := by
  induction elements with
  | nil => trivial
  | cons a rest ih => exact (h a).bind fun _ => ih

theorem candid_collect {step : α → Walk (List β)} (h : ∀ a, Candid none (step a))
    (elements : List α) : Candid none (collect step elements) := by
  induction elements with
  | nil => trivial
  | cons a rest ih => exact (h a).bind fun _ => ih.bind fun _ => trivial

theorem candid_heeding (answer : Option GlobError) : Candid none (heeding answer) := by
  cases answer <;> trivial

/-- The notice that is due may be told. -/
theorem candid_tell (notice : Notice) : Candid (some notice) (tell notice) :=
  ⟨rfl, candid_heeding⟩

/-- A listing tells its fault. -/
theorem candid_list (place : Place) : Candid none (list place) := by
  intro answer
  cases answer with
  | ok names => trivial
  | error fault => exact (candid_tell (.failed place.path fault)).bind fun _ => candid_done none

/-- So does a probe. -/
theorem candid_probe (place : Place) : Candid none (probe place) := by
  intro answer
  cases answer with
  | ok there => trivial
  | error fault => exact (candid_tell (.failed place.path fault)).bind fun _ => candid_done false

theorem candid_fits (text name : Text) : Candid none (fits text name) := by
  unfold fits
  cases Mask.fits text name with
  | ok answer => trivial
  | error e => trivial

end Walk

/-! ## Expansion -/

open Walk (Candid)

/-- A route is followed with its faults told, if what is done at its end is candid. -/
theorem Route.candid_follow {reach : Text → Walk (List Text)}
    (hreach : ∀ path, Candid none (reach path)) (route : Route) (place : Place) :
    Candid none (route.follow reach place) := by
  induction route generalizing place with
  | here => exact hreach place.path
  | nowhere => trivial
  | probe path next ih =>
    unfold follow
    apply (Walk.candid_probe (place.child path)).bind
    intro there
    split
    · exact ih (place.child path)
    · trivial
  | choose mask next ih =>
    unfold follow
    apply (Walk.candid_list place).bind
    intro names?
    cases names? with
    | none => trivial
    | some names =>
      apply Walk.candid_collect
      intro name
      apply (Walk.candid_fits mask name).bind
      intro answer
      split
      · exact ih (place.child name)
      · trivial

namespace Expansion

theorem candid_report (once : Bool) (path : Text) : Candid none (report once path) := by
  unfold report
  split <;> exact ⟨rfl, Walk.candid_heeding⟩

theorem candid_ends (once : Bool) (depth : Nat) (place : Place) :
    Candid none (ends once depth place) := by
  induction depth generalizing place with
  | zero => trivial
  | succ depth ih =>
    unfold ends
    apply (Walk.candid_list place).bind
    intro names?
    split
    · trivial
    · split
      · trivial
      · exact candid_report once place.path
    · exact Walk.candid_each (fun name => ih (place.child name)) _

theorem candid_sweep {literal : Text} {wanted : Nat} {hit : Place → Walk Unit}
    (hhit : ∀ place, Candid none (hit place)) (depth : Nat) (place : Place) (window : Text)
    (filled : Nat) : Candid none (sweep literal wanted hit depth place window filled) := by
  induction depth generalizing place window filled with
  | zero => trivial
  | succ depth ih =>
    unfold sweep
    apply (Walk.candid_list place).bind
    intro names?
    cases names? with
    | none => trivial
    | some names =>
      apply Walk.candid_each
      intro name
      dsimp only
      split
      · exact ih _ _ _
      · apply (Walk.candid_fits _ _).bind
        intro answer
        split
        · exact (hhit _).bind fun _ => ih _ _ _
        · exact ih _ _ _

/-- **Every walk of an expansion** is candid, whatever its segments are. -/
theorem candid_advance (once : Bool) (depth : Nat) (segments : List Segment) (place : Place) :
    Candid none (advance once depth segments place) := by
  fun_induction advance once depth segments place with
  | case1 place => trivial
  | case2 text width place =>
    have hreach : ∀ path, Candid none ((report once path).bind fun _ => Walk.done ([] : List Text)) :=
      fun path => (candid_report once path).bind fun _ => Walk.candid_done []
    exact (Route.candid_follow hreach (Route.ofText text) place).bind fun _ => Walk.candid_done ()
  | case3 text width rest place hne ih =>
    have hreach : ∀ path : Text, Candid none (Walk.done [path]) := fun path => Walk.candid_done [path]
    apply (Route.candid_follow hreach (Route.ofText (Text.trimmed text)) place).bind
    intro paths
    exact Walk.candid_each ih paths
  | case4 stars place => exact candid_ends once depth place
  | case5 stars text width rest place hit ih =>
    apply candid_sweep
    intro child
    show Candid none (if rest.isEmpty = true then report once child.path
      else advance once depth rest child)
    split
    · exact candid_report once child.path
    · exact ih child
  | case6 stars rest place hne hliteral ih => exact ih

end Expansion

/-! ## Traces -/

/-- The events begin with the notice that is due, if one is, and each question is
followed by the notice that its answer calls for. Besides only matches are told. -/
def Settled : Option Notice → List Event → Prop
  | none, [] => True
  | some _, [] => False
  | some notice, event :: rest => event = .tell notice ∧ Settled none rest
  | none, event :: rest =>
    (∀ notice, event = .tell notice → notice.isFound = true) ∧ Settled event.fault? rest

section Run

variable {α : Type} (tree : Tree) (listener : Listener)

/-- A match may be told whenever nothing is due. -/
theorem settled_found {notice : Notice} {rest : List Event} (hfound : notice.isFound = true)
    (h : Settled none rest) : Settled none (.tell notice :: rest) := by
  refine ⟨?_, h⟩
  intro other hother
  obtain rfl := Event.tell.inj hother
  exact hfound

/-- **A candid walk is candid before every listener**, also before one that refuses. -/
theorem Walk.settled_run {due : Option Notice} {w : Walk α} (h : Candid due w)
    (heard : List Notice) :
    Settled due (w.run tree listener heard).trace := by
  induction w generalizing due heard with
  | done value =>
    cases due with
    | none => trivial
    | some notice => exact absurd h id
  | malformed e =>
    cases due with
    | none => trivial
    | some notice => exact absurd h id
  | stopped e =>
    cases due with
    | none => trivial
    | some notice => exact absurd h id
  | tooDeep =>
    cases due with
    | none => trivial
    | some notice => exact absurd h id
  | ask request next ih =>
    cases due with
    | none =>
      cases request with
      | list place =>
        refine ⟨?_, ih _ (h _) heard⟩
        intro notice hnotice
        cases hnotice
      | probe place =>
        refine ⟨?_, ih _ (h _) heard⟩
        intro notice hnotice
        cases hnotice
      | tell notice => exact settled_found h.1 (ih _ (h.2 _) (notice :: heard))
      | tellOnce notice =>
        simp only [run]
        by_cases hheard : notice ∈ heard
        · rw [if_pos hheard]
          exact ih none (h.2 none) heard
        · rw [if_neg hheard]
          exact settled_found h.1 (ih _ (h.2 _) (notice :: heard))
    | some notice =>
      cases request with
      | tell other =>
        obtain ⟨rfl, hnext⟩ := h
        exact ⟨rfl, ih _ (hnext _) (other :: heard)⟩
      | list place => exact absurd h id
      | probe place => exact absurd h id
      | tellOnce other => exact absurd h id

end Run

/-- What is due behind some events: the notice that the last of them calls for. -/
theorem settled_behind {due : Option Notice} {before rest : List Event}
    (h : Settled due (before ++ rest)) :
    (before = [] ∧ Settled due rest) ∨
      ∃ front question, before = front ++ [question] ∧ Settled question.fault? rest := by
  induction before generalizing due with
  | nil => exact .inl ⟨rfl, h⟩
  | cons event before ih =>
    right
    have hstep : Settled event.fault? (before ++ rest) := by
      cases due with
      | none => exact h.2
      | some notice =>
        rw [h.1]
        exact h.2
    rcases ih hstep with ⟨rfl, hrest⟩ | ⟨front, question, rfl, hrest⟩
    · exact ⟨[], event, rfl, hrest⟩
    · exact ⟨event :: front, question, rfl, hrest⟩

/-- What an answer calls for is the notice of a fault. -/
theorem exists_of_fault {question : Event} {notice : Notice}
    (h : question.fault? = some notice) : ∃ path fault, notice = .failed path fault := by
  unfold Event.fault? at h
  split at h
  · exact ⟨_, _, (Option.some.inj h).symm⟩
  · exact ⟨_, _, (Option.some.inj h).symm⟩
  · exact absurd h (by simp)

/-- A notice that is no match is told behind the question that calls for it. -/
theorem exists_question {before after : List Event} {notice : Notice}
    (h : Settled none (before ++ .tell notice :: after)) (hnot : notice.isFound = false) :
    ∃ front question, before = front ++ [question] ∧ question.fault? = some notice := by
  have hfree : ¬ Settled none (.tell notice :: after) := by
    intro hsettled
    rw [hsettled.1 notice rfl] at hnot
    exact Bool.noConfusion hnot
  rcases settled_behind h with ⟨-, hrest⟩ | ⟨front, question, hfront, hrest⟩
  · exact absurd hrest hfree
  · refine ⟨front, question, hfront, ?_⟩
    cases hfault : question.fault? with
    | none =>
      rw [hfault] at hrest
      exact absurd hrest hfree
    | some other =>
      rw [hfault] at hrest
      rw [Event.tell.inj hrest.1]

/-- Each question that failed is followed at once by the notice of its fault, and
there is no notice of a fault anywhere else. -/
structure TellsFaults (events : List Event) : Prop where
  told : ∀ before question notice after, events = before ++ question :: after →
    question.fault? = some notice → ∃ more, after = .tell notice :: more
  only : ∀ before path fault after, events = before ++ .tell (.failed path fault) :: after →
    ∃ front question, before = front ++ [question] ∧ question.fault? = some (.failed path fault)

theorem tellsFaults_of_settled {events : List Event} (h : Settled none events) :
    TellsFaults events where
  told := by
    rintro before question notice after rfl hfault
    rw [List.append_cons] at h
    rcases settled_behind h with ⟨hnil, -⟩ | ⟨front, last, hlast, hrest⟩
    · exact absurd hnil (List.append_ne_nil_of_right_ne_nil before (List.cons_ne_nil _ []))
    · obtain rfl := List.singleton_inj.1 (List.append_inj_right' hlast rfl)
      rw [hfault] at hrest
      cases after with
      | nil => exact absurd hrest id
      | cons event more => exact ⟨more, by rw [hrest.1]⟩
  only := by
    rintro before path fault after rfl
    exact exists_question h rfl

/-- The root is told in front only. -/
theorem root_notMem_of_settled {events : List Event} (h : Settled none events) (root : Text) :
    .tell (.root root) ∉ events := by
  intro hmem
  obtain ⟨before, after, rfl⟩ := List.append_of_mem hmem
  obtain ⟨front, question, -, hfault⟩ := exists_question h rfl
  obtain ⟨path, fault, hnotice⟩ := exists_of_fault hfault
  cases hnotice

/-! ## The whole walk -/

/-- Behind the root there is a candid walk, and nothing more if the pattern cannot
be read. -/
theorem Walk.glob_eq_tell (depth : Nat) (pattern root : Text) :
    ∃ rest : Walk Unit, Walk.glob depth pattern root =
        ((Walk.tell (.root (Anchored.of pattern root).root)).bind fun _ => rest) ∧
      Candid none rest ∧
      ∀ e, Segment.read (Anchored.of pattern root).pattern = .error e → rest = .malformed e := by
  refine ⟨_, rfl, ?_, ?_⟩
  · split
    · trivial
    · exact Expansion.candid_advance _ _ _ _
  · intro e hread
    rw [hread]

/-- The root is told first, and from then on the run is settled. Nothing comes after the
root if it is refused or if the pattern cannot be read. -/
theorem Tree.exists_settled (tree : Tree) (listener : Listener) (pattern root : Text) :
    ∃ events, (tree.glob listener pattern root).trace =
        .tell (.root (Anchored.of pattern root).root) :: events ∧
      Settled none events ∧
      ((∃ e, listener [] (.root (Anchored.of pattern root).root) = some e) ∨
        (∃ e, Segment.read (Anchored.of pattern root).pattern = .error e) → events = []) := by
  obtain ⟨rest, hwalk, hcandid, hmalformed⟩ := Walk.glob_eq_tell tree.depth pattern root
  rw [glob, hwalk, Walk.run_tell]
  cases listener [] (.root (Anchored.of pattern root).root) with
  | some e => exact ⟨[], rfl, trivial, fun _ => rfl⟩
  | none =>
    refine ⟨_, rfl, Walk.settled_run tree listener hcandid _, ?_⟩
    rintro (⟨e, hrefused⟩ | ⟨e, hread⟩)
    · cases hrefused
    · rw [hmalformed e hread]
      rfl

/-- **What a listener hears first, and what it hears of faults.** The root is told
first and not again. Nothing comes after it if it is refused or if the pattern
cannot be read. From then on each question that fails is followed at once by the
notice of its fault, and no fault is told anywhere else. -/
theorem glob_tells_faults (tree : Tree) (listener : Listener) (pattern root : Text) :
    ∃ events, (tree.glob listener pattern root).trace =
        .tell (.root (Anchored.of pattern root).root) :: events ∧
      (∀ other, .tell (.root other) ∉ events) ∧
      ((∃ e, listener [] (.root (Anchored.of pattern root).root) = some e) ∨
        (∃ e, Segment.read (Anchored.of pattern root).pattern = .error e) → events = []) ∧
      TellsFaults events := by
  obtain ⟨events, htrace, hsettled, hempty⟩ := tree.exists_settled listener pattern root
  exact ⟨events, htrace, root_notMem_of_settled hsettled, hempty, tellsFaults_of_settled hsettled⟩

end PathGlob
