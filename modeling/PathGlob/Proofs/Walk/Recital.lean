/-
What a walk hands over, in order, part by part.

`Walk.Recites` is said of a walk before any listener that refuses nothing and
after anything that was told before: the walk comes to a value, the paths handed
over are those of a given list, each time or the first time only, and the paths
told to have failed are those of another, each time. A walk can also end early, at
a text that is no mask or below the depth it was given. Then it has told a first
part of each list. `sure` is what rules this out, so one statement about a walk
says both what it tells at most and what it tells when nothing goes wrong.

Handing over a path only once depends on what was handed over before, and this
is where it is dealt with (`handed_append`): the rules for the parts of a walk
are about the lists alone.
-/
import PathGlob.Proofs.Mask.Components
import PathGlob.Proofs.Walk.Reports

set_option autoImplicit false

namespace PathGlob

/-- The path of a match. -/
def Notice.path? : Notice → Option Text
  | .found path => some path
  | _ => none

/-- The matches among some notices. -/
def pathsIn (notices : List Notice) : List Text := notices.filterMap Notice.path?

/-- The path of a failure. -/
def Notice.failedPath? : Notice → Option Text
  | .failed path _ => some path
  | _ => none

/-- The paths that were told to have failed, in order. -/
def Run.failed {α : Type} (r : Run α) : List Text := r.notices.filterMap Notice.failedPath?

/-- The path of a place, if a question about it was answered with a fault. -/
def Place.failure {α : Type} (place : Place) : Except IoFault α → List Text
  | .ok _ => []
  | .error _ => [place.path]

theorem Place.mem_failure {α : Type} {place : Place} {answer : Except IoFault α} {path : Text} :
    path ∈ place.failure answer ↔ path = place.path ∧ ∃ fault, answer = .error fault := by
  cases answer with
  | ok a => simp [failure]
  | error fault => simp [failure]

/-- What is handed over of the paths told, after others: each one, or each one
that is new. -/
def handed (once : Bool) (before told : List Text) : List Text :=
  if once then (told.filter (· ∉ before)).eraseDups else told

section Handed

variable {once : Bool} {before told more : List Text}

theorem mem_handed {m : Text} :
    m ∈ handed once before told ↔ m ∈ told ∧ (once = true → m ∉ before) := by
  cases once with
  | false => simp [handed]
  | true => simp [handed, List.mem_eraseDups]

/-- It makes no difference when the paths to leave out are left out. -/
theorem eraseDups_filter (p : Text → Bool) (told : List Text) :
    (told.filter p).eraseDups = told.eraseDups.filter p := by
  match told with
  | [] => rfl
  | m :: rest =>
    have hrest := eraseDups_filter p (rest.filter fun other => !other == m)
    rw [List.eraseDups_cons, List.filter_cons, List.filter_cons, ← hrest, List.filter_filter]
    split
    · rw [List.eraseDups_cons, List.filter_filter]
      simp only [Bool.and_comm]
    · rename_i hm
      congr 1
      apply List.filter_congr
      intro other _
      by_cases hsame : other = m
      · subst hsame
        simp [hm]
      · simp [hsame]
termination_by told.length
decreasing_by exact Nat.lt_succ_of_le (List.length_filter_le _ _)

/-- After others it is the same without these. -/
theorem handed_filter : handed once before told =
    (handed once [] told).filter fun m => !(once && before.contains m) := by
  cases once with
  | false => simp [handed]
  | true =>
    rw [handed, handed, if_pos rfl, if_pos rfl, eraseDups_filter, eraseDups_filter]
    simp

theorem handed_sublist : (handed once before told).Sublist (handed once [] told) := by
  rw [handed_filter]
  exact List.filter_sublist

/-- Paths told after others are handed over after these. -/
theorem handed_append : handed once before (told ++ more) =
    handed once before told ++ handed once ((handed once before told).reverse ++ before) more := by
  cases once with
  | false => rfl
  | true =>
    simp only [handed, if_true, List.filter_append, List.eraseDups_append, List.removeAll,
      List.filter_filter]
    congr 2
    apply List.filter_congr
    intro m _
    by_cases hbefore : m ∈ before <;> simp [hbefore]

end Handed

namespace Walk

variable {α β : Type} {tree : Tree} {once : Bool} {sure : Prop}

/-- Before a listener that refuses nothing the walk comes to the value, hands over
the paths told and tells the failed ones. If this is not sure, it may do so with
some first ones of them and come to no value. -/
def Recites (tree : Tree) (once : Bool) (sure : Prop) (w : Walk α) (value : α)
    (told failed : List Text) : Prop :=
  ∀ listener : Listener, listener.Willing → ∀ heard : List Notice,
    ((w.run tree listener heard).ending = .finished value ∧
      (w.run tree listener heard).found = handed once (pathsIn heard) told ∧
      (w.run tree listener heard).failed = failed) ∨
    (¬ sure ∧ (∀ other, (w.run tree listener heard).ending ≠ .finished other) ∧
      (w.run tree listener heard).found <+: handed once (pathsIn heard) told ∧
      (w.run tree listener heard).failed <+: failed)

theorem found_eq (r : Run α) : r.found = pathsIn r.notices := rfl

theorem pathsIn_append (earlier later : List Notice) :
    pathsIn (later.reverse ++ earlier) = (pathsIn later).reverse ++ pathsIn earlier := by
  rw [pathsIn, List.filterMap_append, List.filterMap_reverse]
  rfl

theorem recites_done (value : α) : Recites tree once sure (.done value) value [] [] := by
  intro listener hwilling heard
  refine .inl ⟨rfl, ?_, rfl⟩
  cases once <;> rfl

/-- Where the walk ends early, nothing has to be told. -/
theorem recites_cut {w : Walk α} (hsure : ¬ sure) (value : α) (told failed : List Text)
    (hcut : w = .tooDeep ∨ ∃ e, w = .malformed e) :
    Recites tree once sure w value told failed := by
  intro listener hwilling heard
  right
  rcases hcut with rfl | ⟨e, rfl⟩
  · exact ⟨hsure, by simp [run], List.nil_prefix, List.nil_prefix⟩
  · exact ⟨hsure, by simp [run], List.nil_prefix, List.nil_prefix⟩

/-- What two runs tell, the second after the first has finished. -/
theorem notices_andThen {first : Run α} {value : α} (h : first.ending = .finished value)
    (next : α → Run β) :
    (first.andThen next).notices = first.notices ++ (next value).notices ∧
      (first.andThen next).ending = (next value).ending := by
  rw [Run.andThen, h]
  exact ⟨List.filterMap_append, rfl⟩

/-- A run that did not finish and one after it. -/
theorem notices_andThen_cut {first : Run α} (h : ∀ value, first.ending ≠ .finished value)
    (next : α → Run β) :
    (first.andThen next).notices = first.notices ∧
      ∀ value, (first.andThen next).ending ≠ .finished value := by
  obtain ⟨trace, ending⟩ := first
  cases ending with
  | finished value => exact absurd rfl (h value)
  | malformed e => exact ⟨rfl, by simp [Run.andThen]⟩
  | stopped e => exact ⟨rfl, by simp [Run.andThen]⟩
  | tooDeep => exact ⟨rfl, by simp [Run.andThen]⟩

/-- One walk after another. -/
theorem Recites.bind {w : Walk α} {f : α → Walk β} {value : α} {value' : β}
    {told more failed failed' : List Text} (hw : Recites tree once sure w value told failed)
    (hf : Recites tree once sure (f value) value' more failed') :
    Recites tree once sure (w.bind f) value' (told ++ more) (failed ++ failed') := by
  intro listener hwilling heard
  rw [run_bind, handed_append, found_eq, Run.failed]
  rcases hw listener hwilling heard with ⟨hending, hfound, hfailed⟩ |
    ⟨hsure, hending, hfound, hfailed⟩
  · obtain ⟨hboth, hlast⟩ := notices_andThen hending fun value =>
      (f value).run tree listener ((w.run tree listener heard).notices.reverse ++ heard)
    -- What the first walk handed over has been handed over before the second.
    have hheard : pathsIn ((w.run tree listener heard).notices.reverse ++ heard) =
        (handed once (pathsIn heard) told).reverse ++ pathsIn heard := by
      rw [pathsIn_append, ← found_eq, hfound]
    rw [hboth, hlast, pathsIn, List.filterMap_append, List.filterMap_append, ← pathsIn, ← pathsIn,
      ← found_eq, ← found_eq, ← Run.failed, ← Run.failed, hfound, hfailed, ← hheard]
    refine (hf listener hwilling _).imp (fun h => ⟨h.1, ?_, ?_⟩) fun h => ⟨h.1, h.2.1, ?_, ?_⟩
    · rw [h.2.1]
    · rw [h.2.2]
    · exact (List.prefix_append_right_inj _).2 h.2.2.1
    · exact (List.prefix_append_right_inj _).2 h.2.2.2
  · obtain ⟨hboth, hlast⟩ := notices_andThen_cut hending fun value =>
      (f value).run tree listener ((w.run tree listener heard).notices.reverse ++ heard)
    rw [hboth, ← found_eq, ← Run.failed]
    exact .inr ⟨hsure, hlast, hfound.trans (List.prefix_append _ _),
      hfailed.trans (List.prefix_append _ _)⟩

/-- A walk that hands over nothing, and one after it. -/
theorem Recites.ask {w : Walk α} {f : α → Walk β} {value : α} {value' : β}
    {told failed failed' : List Text} (hw : Recites tree once sure w value [] failed)
    (hf : Recites tree once sure (f value) value' told failed') :
    Recites tree once sure (w.bind f) value' told (failed ++ failed') := hw.bind hf

/-- A walk that tells nothing, and one after it. -/
theorem Recites.andThen {w : Walk α} {f : α → Walk β} {value : α} {value' : β}
    {told failed : List Text} (hw : Recites tree once sure w value [] [])
    (hf : Recites tree once sure (f value) value' told failed) :
    Recites tree once sure (w.bind f) value' told failed := hw.bind hf

/-! ## Requests -/

theorem recites_list (place : Place) :
    Recites tree once sure (list place) (tree.list place.dir).toOption []
      (place.failure (tree.list place.dir)) := by
  intro listener hwilling heard
  left
  cases hlist : tree.list place.dir with
  | ok names =>
    rw [run_list_ok hlist]
    cases once <;> exact ⟨rfl, rfl, rfl⟩
  | error fault =>
    rw [run_list_error hlist (hwilling heard _)]
    cases once <;> exact ⟨rfl, rfl, rfl⟩

/-- A place about which the tree has no answer is passed by. -/
theorem recites_probe (place : Place) :
    Recites tree once sure (probe place) ((tree.probe place.dir).toOption.getD false) []
      (place.failure (tree.probe place.dir)) := by
  intro listener hwilling heard
  left
  cases hprobe : tree.probe place.dir with
  | ok answer =>
    rw [run_probe_ok hprobe]
    cases once <;> exact ⟨rfl, rfl, rfl⟩
  | error fault =>
    rw [run_probe_error hprobe (hwilling heard _)]
    cases once <;> exact ⟨rfl, rfl, rfl⟩

theorem recites_fits {text name : Text} (hsure : sure → ∃ mask, Mask.parse text = .ok mask) :
    Recites tree once sure (fits text name) (decide (Mask.Fits text name)) [] [] := by
  rw [fits]
  cases hfits : Mask.fits text name with
  | ok answer =>
    have hanswer : decide (Mask.Fits text name) = answer := by simp [Mask.Fits, hfits]
    rw [hanswer]
    exact recites_done answer
  | error e =>
    refine recites_cut (fun h => ?_) _ _ _ (.inr ⟨e, rfl⟩)
    obtain ⟨mask, hmask⟩ := hsure h
    rw [Mask.fits_of_parse hmask] at hfits
    cases hfits

/-- The root that is told first is no match. -/
theorem recites_root (root : Text) : Recites tree once sure (tell (.root root)) () [] [] := by
  intro listener hwilling heard
  rw [run_tell_taken (hwilling heard _)]
  left
  cases once <;> exact ⟨rfl, rfl, rfl⟩

theorem mem_pathsIn {heard : List Notice} {path : Text} :
    path ∈ pathsIn heard ↔ Notice.found path ∈ heard := by
  rw [pathsIn, List.mem_filterMap]
  constructor
  · rintro ⟨notice, hnotice, hpath⟩
    cases notice with
    | found other =>
      obtain rfl := Option.some.inj hpath
      exact hnotice
    | root _ => cases hpath
    | failed _ _ => cases hpath
  · intro h
    exact ⟨_, h, rfl⟩

/-- A match is handed over, if it has to be. -/
theorem recites_report (path : Text) :
    Recites tree once sure (Expansion.report once path) () [path] [] := by
  intro listener hwilling heard
  left
  cases once with
  | false =>
    rw [show Expansion.report false path = tell (.found path) from rfl,
      run_tell_taken (hwilling heard _)]
    exact ⟨rfl, rfl, rfl⟩
  | true =>
    rw [show Expansion.report true path = tellOnce (.found path) from rfl]
    by_cases hheard : Notice.found path ∈ heard
    · have hnone : handed true (pathsIn heard) [path] = [] := by
        simp [handed, mem_pathsIn, hheard]
      rw [run_tellOnce_heard hheard, hnone]
      exact ⟨rfl, rfl, rfl⟩
    · have hone : handed true (pathsIn heard) [path] = [path] := by
        simp [handed, mem_pathsIn, hheard, List.eraseDups_cons]
      rw [run_tellOnce_taken hheard (hwilling heard _), hone]
      exact ⟨rfl, rfl, rfl⟩

/-! ## For each of a list -/

theorem recites_each {step : α → Walk Unit} {elements : List α} {told failed : α → List Text}
    (h : ∀ a ∈ elements, Recites tree once sure (step a) () (told a) (failed a)) :
    Recites tree once sure (each step elements) () (elements.flatMap told)
      (elements.flatMap failed) := by
  induction elements with
  | nil => exact recites_done ()
  | cons a rest ih =>
    rw [List.forall_mem_cons] at h
    exact h.1.bind (ih h.2)

theorem recites_collect {step : α → Walk (List β)} {elements : List α} {values : α → List β}
    {told failed : α → List Text}
    (h : ∀ a ∈ elements, Recites tree once sure (step a) (values a) (told a) (failed a)) :
    Recites tree once sure (collect step elements) (elements.flatMap values)
      (elements.flatMap told) (elements.flatMap failed) := by
  induction elements with
  | nil => exact recites_done []
  | cons a rest ih =>
    rw [List.forall_mem_cons] at h
    have hrest := (ih h.2).bind (f := fun more => Walk.done (values a ++ more)) (recites_done _)
    rw [List.append_nil, List.append_nil] at hrest
    exact h.1.bind hrest

end Walk

end PathGlob
