/-
What a walk reports, part by part.

`Walk.Reports` is said of a walk before any listener that refuses nothing and
after anything that was told before: the walk finishes, what it brings back is
as said, and the paths told are as said. Telling a path only once makes no
difference to which paths have been told in the end, so it is a matter of sets
here, and the rules follow the walk: one after another, for each of a list, and
one for every request.
-/
import PathGlob.Walk.Expansion
import PathGlob.Walk.Run

set_option autoImplicit false

namespace PathGlob

/-- The listener refuses nothing. -/
def Listener.Willing (listener : Listener) : Prop := ∀ heard notice, listener heard notice = none

namespace Walk

variable {α β : Type} {tree : Tree}

/-- Before a listener that refuses nothing the walk finishes with a value for
which `post` holds, and then the paths told, together with those told before,
are those for which `found` holds, together with those told before. -/
def Reports (tree : Tree) (w : Walk α) (post : α → Prop) (found : Text → Prop) : Prop :=
  ∀ listener : Listener, listener.Willing → ∀ heard : List Notice,
    ∃ value, (w.run tree listener heard).ending = .finished value ∧ post value ∧
      ∀ m, Notice.found m ∈ (w.run tree listener heard).notices ∨ Notice.found m ∈ heard ↔
        found m ∨ Notice.found m ∈ heard

theorem Reports.of_iff {w : Walk α} {post post' : α → Prop} {found found' : Text → Prop}
    (h : Reports tree w post found) (hpost : ∀ value, post value → post' value)
    (hfound : ∀ m, found m ↔ found' m) : Reports tree w post' found' := by
  intro listener hwilling heard
  obtain ⟨value, hending, hvalue, hnotices⟩ := h listener hwilling heard
  exact ⟨value, hending, hpost value hvalue, fun m => (hnotices m).trans (or_congr_left (hfound m))⟩

theorem reports_done {post : α → Prop} {value : α} (h : post value) :
    Reports tree (.done value) post fun _ => False := by
  intro listener hwilling heard
  refine ⟨value, rfl, h, fun m => ?_⟩
  simp [run, Run.notices]

/-- One walk after another. -/
theorem Reports.bind {w : Walk α} {f : α → Walk β} {post : α → Prop} {post' : β → Prop}
    {found found' : Text → Prop} (hw : Reports tree w post found)
    (hf : ∀ value, post value → Reports tree (f value) post' found') :
    Reports tree (w.bind f) post' fun m => found m ∨ found' m := by
  intro listener hwilling heard
  obtain ⟨value, hending, hvalue, hnotices⟩ := hw listener hwilling heard
  rw [run_bind]
  generalize w.run tree listener heard = first at hending hnotices
  obtain ⟨value', hending', hvalue', hnotices'⟩ :=
    hf value hvalue listener hwilling (first.notices.reverse ++ heard)
  have hrun : (first.andThen fun value =>
      (f value).run tree listener (first.notices.reverse ++ heard)) =
      ⟨first.trace ++ ((f value).run tree listener (first.notices.reverse ++ heard)).trace,
        ((f value).run tree listener (first.notices.reverse ++ heard)).ending⟩ := by
    rw [Run.andThen, hending]
  rw [hrun]
  refine ⟨value', hending', hvalue', fun m => ?_⟩
  have hm := hnotices m
  have hm' := hnotices' m
  rw [List.mem_append, List.mem_reverse, hm] at hm'
  rw [Run.notices, List.filterMap_append, List.mem_append]
  -- What the first walk told has been told before the second.
  rw [or_comm (b := Notice.found m ∈ List.filterMap _ (Run.trace _)), or_assoc]
  refine (or_congr_right hm).trans (hm'.trans ?_)
  rw [← or_assoc, or_comm (a := found' m)]

/-- A walk that tells nothing, and one after it. -/
theorem Reports.andThen {w : Walk α} {f : α → Walk β} {post : α → Prop} {post' : β → Prop}
    {found : Text → Prop} (hw : Reports tree w post fun _ => False)
    (hf : ∀ value, post value → Reports tree (f value) post' found) :
    Reports tree (w.bind f) post' found :=
  (hw.bind hf).of_iff (fun _ h => h) fun _ => Iff.of_eq (false_or _)

/-! ## Requests -/

theorem reports_list {place : Place} {names : List Text} (h : tree.list place.dir = .ok names) :
    Reports tree (list place) (· = some names) fun _ => False := by
  intro listener hwilling heard
  rw [run_list_ok h]
  exact ⟨_, rfl, rfl, fun m => by simp [Run.notices]⟩

theorem reports_probe {place : Place} {there : Bool} (h : tree.probe place.dir = .ok there) :
    Reports tree (probe place) (· = there) fun _ => False := by
  intro listener hwilling heard
  rw [run_probe_ok h]
  exact ⟨_, rfl, rfl, fun m => by simp [Run.notices]⟩

theorem reports_fits {text name : Text} {answer : Bool} (h : Mask.fits text name = .ok answer) :
    Reports tree (fits text name) (· = answer) fun _ => False := by
  rw [fits, h]
  exact reports_done rfl

theorem reports_tell (notice : Notice) :
    Reports tree (tell notice) (fun _ => True) fun m => .found m = notice := by
  intro listener hwilling heard
  rw [run_tell_taken (hwilling heard notice)]
  exact ⟨(), rfl, trivial, fun m => by simp [Run.notices]⟩

theorem reports_tellOnce (notice : Notice) :
    Reports tree (tellOnce notice) (fun _ => True) fun m => .found m = notice := by
  intro listener hwilling heard
  by_cases hheard : notice ∈ heard
  · rw [run_tellOnce_heard hheard]
    refine ⟨(), rfl, trivial, fun m => ?_⟩
    constructor
    · rintro (h | h)
      · simp [Run.notices] at h
      · exact .inr h
    · rintro (rfl | h)
      · exact .inr hheard
      · exact .inr h
  · rw [run_tellOnce_taken hheard (hwilling heard notice)]
    exact ⟨(), rfl, trivial, fun m => by simp [Run.notices]⟩

/-! ## For each of a list -/

theorem reports_each {step : α → Walk Unit} {elements : List α} {found : α → Text → Prop}
    (h : ∀ a ∈ elements, Reports tree (step a) (fun _ => True) (found a)) :
    Reports tree (each step elements) (fun _ => True) fun m => ∃ a ∈ elements, found a m := by
  induction elements with
  | nil => exact (reports_done trivial).of_iff (fun _ h => h) fun m => by simp
  | cons a rest ih =>
    rw [List.forall_mem_cons] at h
    refine (h.1.bind fun _ _ => ih h.2).of_iff (fun _ h => h) fun m => ?_
    simp

theorem reports_collect {step : α → Walk (List β)} {elements : List α} {found : α → Text → Prop}
    {mem : α → β → Prop}
    (h : ∀ a ∈ elements, Reports tree (step a) (fun values => ∀ b, b ∈ values ↔ mem a b) (found a)) :
    Reports tree (collect step elements) (fun values => ∀ b, b ∈ values ↔ ∃ a ∈ elements, mem a b)
      fun m => ∃ a ∈ elements, found a m := by
  induction elements with
  | nil => exact (reports_done (by simp)).of_iff (fun _ h => h) fun m => by simp
  | cons a rest ih =>
    rw [List.forall_mem_cons] at h
    have hstep : Reports tree (collect step (a :: rest))
        (fun values => ∀ b, b ∈ values ↔ ∃ other ∈ a :: rest, mem other b)
        fun m => found a m ∨ ∃ other ∈ rest, found other m := by
      refine h.1.bind fun first hfirst => ?_
      refine ((ih h.2).bind fun more hmore => reports_done ?_).of_iff (fun _ h => h) fun m => Iff.of_eq (or_false _)
      intro b
      rw [List.mem_append, hfirst, hmore]
      simp
    exact hstep.of_iff (fun _ h => h) fun m => by simp

end Walk

/-- A match is told, whether every time or only once. -/
theorem Expansion.reports_report {tree : Tree} (once : Bool) (path : Text) :
    Walk.Reports tree (Expansion.report once path) (fun _ => True) (· = path) := by
  have hfound : ∀ m, Notice.found m = Notice.found path ↔ m = path := fun m =>
    ⟨Notice.found.inj, fun h => by rw [h]⟩
  rw [Expansion.report]
  cases once with
  | true => exact (Walk.reports_tellOnce _).of_iff (fun _ h => h) hfound
  | false => exact (Walk.reports_tell _).of_iff (fun _ h => h) hfound

end PathGlob
