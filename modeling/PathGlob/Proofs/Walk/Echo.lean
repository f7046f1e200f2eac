/-
Two walks in one tree, of which the first tells what the second tells, spelled in
another way.

The walks need not ask the same. Either may ask more than the other, in other places
and at other times, so no two questions are held against each other: each is answered
by the tree, and the walks are compared in what they do then. What they tell has to
match notice by notice, as this is all that a listener can see (`Walk.Echoes`).

The rules are those of a relational logic for programs. What the two walks come to is
in some relation, on which the walks after them may rely. Telling a path only the first
time does not disturb the relation where different paths are spelled differently.

Walks that tell faults echo nothing. The relation is meant for trees that have an answer
to everything.
-/
import Mathlib.Data.List.Forall2
import PathGlob.Walk.Run

set_option autoImplicit false

namespace PathGlob

/-- What a listener has heard when it was told a root and then some paths, the latest
first. -/
def Listener.after (root : Text) (paths : List Text) : List Notice :=
  paths.map .found ++ [.root root]

/-- Having been told another root and the same paths in another spelling, the listener
answers the same to the next path, and to the root itself. -/
structure Listener.Follows (listener other : Listener) (root otherRoot : Text)
    (spelt : Text → Text) : Prop where
  first : listener [] (.root root) = other [] (.root otherRoot)
  next : ∀ paths path, listener (after root (paths.map spelt)) (.found (spelt path)) =
    other (after otherRoot paths) (.found path)

/-- The two end in the same way. -/
def Ending.Alike {α β : Type} (rel : α → β → Prop) : Ending α → Ending β → Prop
  | .finished a, .finished b => rel a b
  | .malformed e, .malformed e' => e = e'
  | .stopped e, .stopped e' => e = e'
  | .tooDeep, .tooDeep => True
  | _, _ => False

/-- Where there is one value to come to, this is equality. -/
theorem Ending.Alike.eq {ending ending' : Ending Unit}
    (h : ending.Alike (fun _ _ => True) ending') : ending = ending' := by
  cases ending <;> cases ending' <;> first | rfl | exact congrArg _ h | exact h.elim

namespace Walk

variable {α β γ δ : Type} {tree : Tree} {spelt : Text → Text}

/-- In the tree the first walk tells what the second tells, in another spelling, and the
two come to values in a relation or end early in the same way. -/
inductive Echoes (tree : Tree) (spelt : Text → Text) (rel : α → β → Prop) :
    Walk α → Walk β → Prop
  | done {a : α} {b : β} (h : rel a b) : Echoes tree spelt rel (.done a) (.done b)
  | malformed (e : MalformedMask) : Echoes tree spelt rel (.malformed e) (.malformed e)
  | stopped (e : GlobError) : Echoes tree spelt rel (.stopped e) (.stopped e)
  | tooDeep : Echoes tree spelt rel .tooDeep .tooDeep
  | list {place : Place} {next : (Request.list place).Answer → Walk α} {w' : Walk β}
      (h : Echoes tree spelt rel (next (tree.list place.dir)) w') :
      Echoes tree spelt rel (.ask (.list place) next) w'
  | probe {place : Place} {next : (Request.probe place).Answer → Walk α} {w' : Walk β}
      (h : Echoes tree spelt rel (next (tree.probe place.dir)) w') :
      Echoes tree spelt rel (.ask (.probe place) next) w'
  | list' {w : Walk α} {place : Place} {next : (Request.list place).Answer → Walk β}
      (h : Echoes tree spelt rel w (next (tree.list place.dir))) :
      Echoes tree spelt rel w (.ask (.list place) next)
  | probe' {w : Walk α} {place : Place} {next : (Request.probe place).Answer → Walk β}
      (h : Echoes tree spelt rel w (next (tree.probe place.dir))) :
      Echoes tree spelt rel w (.ask (.probe place) next)
  | tell {path : Text} {next : (Request.tell (.found (spelt path))).Answer → Walk α}
      {next' : (Request.tell (.found path)).Answer → Walk β}
      (h : ∀ answer, Echoes tree spelt rel (next answer) (next' answer)) :
      Echoes tree spelt rel (.ask (.tell (.found (spelt path))) next)
        (.ask (.tell (.found path)) next')
  | tellOnce {path : Text} {next : (Request.tellOnce (.found (spelt path))).Answer → Walk α}
      {next' : (Request.tellOnce (.found path)).Answer → Walk β}
      (h : ∀ answer, Echoes tree spelt rel (next answer) (next' answer)) :
      Echoes tree spelt rel (.ask (.tellOnce (.found (spelt path))) next)
        (.ask (.tellOnce (.found path)) next')

/-! ## Rules -/

section Rules

variable {rel : α → β → Prop} {rel' : γ → δ → Prop}

/-- One walk after another. -/
theorem Echoes.bind {w : Walk α} {w' : Walk β} {f : α → Walk γ} {f' : β → Walk δ}
    (h : Echoes tree spelt rel w w')
    (hf : ∀ a b, rel a b → Echoes tree spelt rel' (f a) (f' b)) :
    Echoes tree spelt rel' (w.bind f) (w'.bind f') := by
  induction h with
  | done h => exact hf _ _ h
  | malformed e => exact .malformed e
  | stopped e => exact .stopped e
  | tooDeep => exact .tooDeep
  | list _ ih => exact .list ih
  | probe _ ih => exact .probe ih
  | list' _ ih => exact .list' ih
  | probe' _ ih => exact .probe' ih
  | tell _ ih => exact .tell ih
  | tellOnce _ ih => exact .tellOnce ih

/-- Listings that the tree answers alike come to the same names. -/
theorem echoes_list {place place' : Place} {names : List Text}
    (h : tree.list place.dir = .ok names) (h' : tree.list place'.dir = .ok names) :
    Echoes tree spelt (fun names? names?' => names? = some names ∧ names?' = some names)
      (list place) (list place') := by
  refine .list (.list' ?_)
  rw [h, h']
  exact .done ⟨rfl, rfl⟩

theorem echoes_probe {place place' : Place} {there : Bool}
    (h : tree.probe place.dir = .ok there) (h' : tree.probe place'.dir = .ok there) :
    Echoes tree spelt (fun answer answer' => answer = there ∧ answer' = there)
      (probe place) (probe place') := by
  refine .probe (.probe' ?_)
  rw [h, h']
  exact .done ⟨rfl, rfl⟩

/-- One of the walks may ask alone. -/
theorem echoes_list' {w : Walk α} {place : Place} {names : List Text}
    {f : Option (List Text) → Walk β} (h : tree.list place.dir = .ok names)
    (hf : Echoes tree spelt rel w (f (some names))) :
    Echoes tree spelt rel w ((list place).bind f) := by
  refine .list' ?_
  rw [h]
  exact hf

theorem echoes_probe' {w' : Walk β} {place : Place} {there : Bool} {f : Bool → Walk α}
    (h : tree.probe place.dir = .ok there) (hf : Echoes tree spelt rel (f there) w') :
    Echoes tree spelt rel ((probe place).bind f) w' := by
  refine .probe ?_
  rw [h]
  exact hf

/-- One text is read and held against one name. -/
theorem echoes_fits (text name : Text) :
    Echoes tree spelt (· = ·) (fits text name) (fits text name) := by
  rw [fits]
  cases Mask.fits text name with
  | ok answer => exact .done rfl
  | error e => exact .malformed e

/-- The same notice is heeded in the same way. -/
theorem echoes_heeding (answer : Option GlobError) :
    Echoes tree spelt (fun _ _ => True) (heeding answer) (heeding answer) := by
  cases answer with
  | none => exact .done trivial
  | some e => exact .stopped e

theorem echoes_report (once : Bool) (path : Text) :
    Echoes tree spelt (fun _ _ => True) (Expansion.report once (spelt path))
      (Expansion.report once path) := by
  unfold Expansion.report
  cases once with
  | true => exact .tellOnce echoes_heeding
  | false => exact .tell echoes_heeding

/-- Walks for the elements of two lists that correspond. -/
theorem echoes_each {elements : List α} {elements' : List β} {step : α → Walk Unit}
    {step' : β → Walk Unit}
    (h : List.Forall₂ (fun a b => Echoes tree spelt (fun _ _ => True) (step a) (step' b))
      elements elements') :
    Echoes tree spelt (fun _ _ => True) (each step elements) (each step' elements') := by
  induction h with
  | nil => exact .done trivial
  | cons hfirst _ ih => exact hfirst.bind fun _ _ _ => ih

theorem echoes_collect {elements : List γ} {step : γ → Walk (List α)} {step' : γ → Walk (List β)}
    (h : ∀ a ∈ elements, Echoes tree spelt (List.Forall₂ rel) (step a) (step' a)) :
    Echoes tree spelt (List.Forall₂ rel) (collect step elements) (collect step' elements) := by
  induction elements with
  | nil => exact .done .nil
  | cons a rest ih =>
    rw [List.forall_mem_cons] at h
    refine h.1.bind fun first first' hfirst => (ih h.2).bind fun more more' hmore => ?_
    exact .done (List.rel_append hfirst hmore)

end Rules

/-! ## Runs -/

section Runs

variable {rel : α → β → Prop} {root root' : Text} {listener listener' : Listener}

theorem mem_after_iff (hspelt : Function.Injective spelt) (path : Text) (paths : List Text) :
    .found (spelt path) ∈ Listener.after root (paths.map spelt) ↔
      .found path ∈ Listener.after root' paths := by
  simp [Listener.after, hspelt.eq_iff]

/-- The matches of the one run are those of the other in another spelling, and the two
end alike. -/
def EchoesRun (spelt : Text → Text) (rel : α → β → Prop) (run : Run α) (run' : Run β) : Prop :=
  Ending.Alike rel run.ending run'.ending ∧ run.found = run'.found.map spelt

/-- A path is told to both listeners, and the runs go on. -/
theorem EchoesRun.tell (path : Text) {run : Run α} {run' : Run β} (h : EchoesRun spelt rel run run') :
    EchoesRun spelt rel (run.after (.tell (.found (spelt path)))) (run'.after (.tell (.found path))) :=
  ⟨h.1, congrArg (spelt path :: ·) h.2⟩

/-- **What is heard of two walks** before listeners that answer alike. -/
theorem Echoes.run {w : Walk α} {w' : Walk β} (h : Echoes tree spelt rel w w')
    (hspelt : Function.Injective spelt)
    (hfollows : listener.Follows listener' root root' spelt) (paths : List Text) :
    EchoesRun spelt rel (w.run tree listener (Listener.after root (paths.map spelt)))
      (w'.run tree listener' (Listener.after root' paths)) := by
  induction h generalizing paths with
  | done h => exact ⟨h, rfl⟩
  | malformed e => exact ⟨rfl, rfl⟩
  | stopped e => exact ⟨rfl, rfl⟩
  | tooDeep => exact ⟨trivial, rfl⟩
  | list _ ih => exact ih paths
  | probe _ ih => exact ih paths
  | list' _ ih => exact ih paths
  | probe' _ ih => exact ih paths
  | @tell path next next' _ ih =>
    simp only [Walk.run]
    rw [hfollows.next]
    exact (ih _ (path :: paths)).tell path
  | @tellOnce path next next' _ ih =>
    -- What the one listener has been told the other has been told, spelled its way.
    have hmem := @mem_after_iff spelt root root' hspelt path paths
    simp only [Walk.run]
    by_cases hheard : .found path ∈ Listener.after root' paths
    · rw [if_pos hheard, if_pos (hmem.2 hheard)]
      exact ih none paths
    · rw [if_neg hheard, if_neg (mt hmem.1 hheard), hfollows.next]
      exact (ih _ (path :: paths)).tell path

/-- The same behind the roots, which both listeners are told first. -/
theorem Echoes.run_root {w : Walk α} {w' : Walk β} (h : Echoes tree spelt rel w w')
    (hspelt : Function.Injective spelt)
    (hfollows : listener.Follows listener' root root' spelt) :
    EchoesRun spelt rel (((Walk.tell (.root root)).bind fun _ => w).run tree listener [])
      (((Walk.tell (.root root')).bind fun _ => w').run tree listener' []) := by
  simp only [Walk.tell, Walk.bind, Walk.run]
  rw [hfollows.first]
  cases listener' [] (.root root') with
  | some e => exact ⟨rfl, rfl⟩
  | none => exact h.run hspelt hfollows []

end Runs

end Walk

end PathGlob
