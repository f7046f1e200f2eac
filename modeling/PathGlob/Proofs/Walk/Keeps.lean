/-
What a walk keeps to, whoever listens.

Many facts about walks are of one kind: no request is made that is not allowed, no
text turns out to be no mask unless that may happen, and what the walk brings back
has some property. `Walk.Keeps` says all three at once of a walk in a tree. The tree
gives its answers, and a listener may give any: what is allowed has to be so whether
a notice is refused or not.

The rules follow the requests and the ways to put walks together. What is brought
back by one walk is what the next may rely on. Following a route, looking for ends
and sweeping go from place to place, and each has a rule with an invariant of its
places.
-/
import PathGlob.Proofs.Walk.Veto
import PathGlob.Proofs.Walk.Visits

set_option autoImplicit false

namespace PathGlob

namespace Walk

variable {α β : Type} {tree : Tree} {may : Request → Prop} {bad : Prop}

/-- In the tree the walk makes only requests that it may make, meets a text that is
no mask only if it may, and comes to a value of some kind. Telling something once is
telling it. -/
def Keeps (tree : Tree) (may : Request → Prop) (bad : Prop) (kind : α → Prop) : Walk α → Prop
  | .done value => kind value
  | .malformed _ => bad
  | .stopped _ => True
  | .tooDeep => True
  | .ask (.list place) next =>
    may (.list place) ∧ Keeps tree may bad kind (next (tree.list place.dir))
  | .ask (.probe place) next =>
    may (.probe place) ∧ Keeps tree may bad kind (next (tree.probe place.dir))
  | .ask (.tell notice) next =>
    may (.tell notice) ∧ ∀ answer, Keeps tree may bad kind (next answer)
  | .ask (.tellOnce notice) next =>
    may (.tell notice) ∧ ∀ answer, Keeps tree may bad kind (next answer)

theorem keeps_done {kind : α → Prop} {value : α} (h : kind value) :
    Keeps tree may bad kind (.done value) := h

/-- One walk after another. -/
theorem Keeps.bind {kind : α → Prop} {kind' : β → Prop} {w : Walk α} {f : α → Walk β}
    (hw : Keeps tree may bad kind w)
    (hf : ∀ value, kind value → Keeps tree may bad kind' (f value)) :
    Keeps tree may bad kind' (w.bind f) := by
  induction w with
  | done value => exact hf value hw
  | malformed e => exact hw
  | stopped e => trivial
  | tooDeep => trivial
  | ask request next ih =>
    cases request with
    | list place => exact ⟨hw.1, ih _ hw.2⟩
    | probe place => exact ⟨hw.1, ih _ hw.2⟩
    | tell notice => exact ⟨hw.1, fun answer => ih answer (hw.2 answer)⟩
    | tellOnce notice => exact ⟨hw.1, fun answer => ih answer (hw.2 answer)⟩

/-! ## Requests -/

theorem keeps_heeding (answer : Option GlobError) :
    Keeps tree may bad (fun _ => True) (heeding answer) := by
  cases answer <;> trivial

theorem keeps_tell {notice : Notice} (h : may (.tell notice)) :
    Keeps tree may bad (fun _ => True) (tell notice) := ⟨h, keeps_heeding⟩

theorem keeps_tellOnce {notice : Notice} (h : may (.tell notice)) :
    Keeps tree may bad (fun _ => True) (tellOnce notice) := ⟨h, keeps_heeding⟩

/-- A listing brings back the names that the tree gives, if it gives any. -/
theorem keeps_list {place : Place} (hlist : may (.list place))
    (hfailed : ∀ fault, may (.tell (.failed place.path fault))) :
    Keeps tree may bad
      (fun names? => ∀ names, names? = some names → tree.list place.dir = .ok names)
      (list place) := by
  refine ⟨hlist, ?_⟩
  cases tree.list place.dir with
  | ok names =>
    rintro other hother
    rw [Option.some.inj hother]
  | error fault =>
    exact (keeps_tell (hfailed fault)).bind fun _ _ => keeps_done fun names hnames => by cases hnames

theorem keeps_probe {place : Place} (hprobe : may (.probe place))
    (hfailed : ∀ fault, may (.tell (.failed place.path fault))) :
    Keeps tree may bad (fun _ => True) (probe place) := by
  refine ⟨hprobe, ?_⟩
  cases tree.probe place.dir with
  | ok answer => trivial
  | error fault => exact (keeps_tell (hfailed fault)).bind fun _ _ => keeps_done trivial

/-- A text that is read to take a name is a mask. -/
theorem keeps_fits {text : Text} (hbad : bad ∨ ∃ mask, Mask.parse text = .ok mask) (name : Text) :
    Keeps tree may bad (fun _ => ∃ mask, Mask.parse text = .ok mask) (fits text name) := by
  rw [fits, Mask.fits]
  cases hparse : Mask.parse text with
  | ok mask => exact ⟨mask, rfl⟩
  | error fault =>
    refine hbad.resolve_right ?_
    rintro ⟨mask, hmask⟩
    rw [hparse] at hmask
    cases hmask

/-! ## For each of a list -/

theorem keeps_each {step : α → Walk Unit} {elements : List α}
    (h : ∀ a ∈ elements, Keeps tree may bad (fun _ => True) (step a)) :
    Keeps tree may bad (fun _ => True) (each step elements) := by
  induction elements with
  | nil => trivial
  | cons a rest ih =>
    rw [List.forall_mem_cons] at h
    exact h.1.bind fun _ _ => ih h.2

/-- What is brought back together has the property that each part has. -/
theorem keeps_collect {good : β → Prop} {step : α → Walk (List β)} {elements : List α}
    (h : ∀ a ∈ elements, Keeps tree may bad (fun values => ∀ b ∈ values, good b) (step a)) :
    Keeps tree may bad (fun values => ∀ b ∈ values, good b) (collect step elements) := by
  induction elements with
  | nil => exact keeps_done (by simp)
  | cons a rest ih =>
    rw [List.forall_mem_cons] at h
    refine h.1.bind fun first hfirst => (ih h.2).bind fun more hmore => ?_
    exact List.forall_mem_append.2 ⟨hfirst, hmore⟩

end Walk

/-! ## From place to place -/

section Places

variable {tree : Tree} {may : Request → Prop} {bad : Prop}

theorem Tree.mem_inside {dir name : Text} {names : List Text} (h : tree.list dir = .ok names) :
    name ∈ tree.inside dir ↔ name ∈ names := by
  rw [inside, h]
  rfl

/-- A place may be asked about, and a fault there may be told. -/
def Place.MayList (may : Request → Prop) (place : Place) : Prop :=
  may (.list place) ∧ ∀ fault, may (.tell (.failed place.path fault))

/-- The same for the other question. -/
def Place.MayProbe (may : Request → Prop) (place : Place) : Prop :=
  may (.probe place) ∧ ∀ fault, may (.tell (.failed place.path fault))

open Walk (Keeps)

/-- A route is followed along an invariant of what is left of it and the place. -/
theorem Route.keeps_follow (inv : Route → Place → Prop) {reach : Text → Walk (List Text)}
    {good : Text → Prop}
    (hhere : ∀ place, inv .here place →
      Keeps tree may bad (fun paths => ∀ path ∈ paths, good path) (reach place.path))
    (hprobe : ∀ path next place, inv (.probe path next) place →
      (place.child path).MayProbe may ∧ inv next (place.child path))
    (hchoose : ∀ mask next place, inv (.choose mask next) place → place.MayList may ∧
      (bad ∨ ∃ items, Mask.parse mask = .ok items) ∧
        ((∃ items, Mask.parse mask = .ok items) →
          ∀ name ∈ tree.inside place.dir, inv next (place.child name)))
    {route : Route} {place : Place} (h : inv route place) :
    Keeps tree may bad (fun paths => ∀ path ∈ paths, good path) (route.follow reach place) := by
  have hnone : Keeps tree may bad (fun paths => ∀ path ∈ paths, good path) (.done []) :=
    Walk.keeps_done (by simp)
  induction route generalizing place with
  | here => exact hhere place h
  | nowhere => exact hnone
  | probe path next ih =>
    obtain ⟨hmay, hnext⟩ := hprobe path next place h
    unfold follow
    refine (Walk.keeps_probe hmay.1 hmay.2).bind fun there _ => ?_
    split
    · exact ih hnext
    · exact hnone
  | choose mask next ih =>
    obtain ⟨hmay, hbad, hnext⟩ := hchoose mask next place h
    unfold follow
    refine (Walk.keeps_list hmay.1 hmay.2).bind fun names? hnames => ?_
    cases names? with
    | none => exact hnone
    | some names =>
      refine Walk.keeps_collect fun name hname => ?_
      refine (Walk.keeps_fits hbad name).bind fun fits hmask => ?_
      split
      · exact ih (hnext hmask name ((Tree.mem_inside (hnames names rfl)).2 hname))
      · exact hnone

namespace Expansion

theorem keeps_report (once : Bool) {path : Text} (h : may (.tell (.found path))) :
    Keeps tree may bad (fun _ => True) (report once path) := by
  unfold report
  split
  · exact Walk.keeps_tellOnce h
  · exact Walk.keeps_tell h

/-- Ends are looked for along an invariant of the place. -/
theorem keeps_ends (inv : Place → Prop) (once : Bool)
    (hinv : ∀ place, inv place → place.MayList may ∧ may (.tell (.found place.path)) ∧
      ∀ name ∈ tree.inside place.dir, inv (place.child name)) (depth : Nat) {place : Place}
    (h : inv place) : Keeps tree may bad (fun _ => True) (ends once depth place) := by
  induction depth generalizing place with
  | zero => trivial
  | succ depth ih =>
    obtain ⟨hmay, hfound, hchildren⟩ := hinv place h
    unfold ends
    refine (Walk.keeps_list hmay.1 hmay.2).bind fun names? hnames => ?_
    split
    · trivial
    · split
      · trivial
      · exact keeps_report once hfound
    · rename_i names _
      refine Walk.keeps_each fun name hname => ih (hchildren name ?_)
      exact (Tree.mem_inside (hnames names rfl)).2 hname

/-- So is what lies below a place swept. -/
theorem keeps_sweep (inv : Place → Prop) {literal : Text} {wanted : Nat} {hit : Place → Walk Unit}
    (hbad : bad ∨ ∃ mask, Mask.parse literal = .ok mask)
    (hinv : ∀ place, inv place → place.MayList may ∧ ∀ name ∈ tree.inside place.dir,
      inv (place.child name) ∧ ((∃ mask, Mask.parse literal = .ok mask) →
        Keeps tree may bad (fun _ => True) (hit (place.child name))))
    (depth : Nat) {place : Place} (h : inv place) (window : Text) (filled : Nat) :
    Keeps tree may bad (fun _ => True) (sweep literal wanted hit depth place window filled) := by
  induction depth generalizing place window filled with
  | zero => trivial
  | succ depth ih =>
    obtain ⟨hmay, hchildren⟩ := hinv place h
    unfold sweep
    refine (Walk.keeps_list hmay.1 hmay.2).bind fun names? hnames => ?_
    cases names? with
    | none => trivial
    | some names =>
      refine Walk.keeps_each fun name hname => ?_
      obtain ⟨hchild, hhit⟩ := hchildren name ((Tree.mem_inside (hnames names rfl)).2 hname)
      dsimp only
      split
      · exact ih hchild _ _
      · refine (Walk.keeps_fits hbad _).bind fun fits hmask => ?_
        split
        · exact (hhit hmask).bind fun _ _ => ih hchild _ _
        · exact ih hchild _ _

end Expansion

end Places

/-! ## Runs -/

namespace Walk

variable {α : Type} {tree : Tree} {may : Request → Prop} {bad : Prop}

/-- The request behind an event. -/
def request : Event → Request
  | .list place _ => .list place
  | .probe place _ => .probe place
  | .tell notice => .tell notice

/-- **Every run** of a walk shows only requests it may make, and ends at a text that
is no mask only if that may be. -/
theorem Keeps.run {kind : α → Prop} {w : Walk α} (h : Keeps tree may bad kind w)
    (listener : Listener) (heard : List Notice) :
    (∀ event ∈ (w.run tree listener heard).trace, may (request event)) ∧
      ∀ e, (w.run tree listener heard).ending = .malformed e → bad := by
  induction w generalizing heard with
  | done value => exact ⟨by simp [Walk.run], by simp [Walk.run]⟩
  | malformed e => exact ⟨by simp [Walk.run], fun _ _ => h⟩
  | stopped e => exact ⟨by simp [Walk.run], by simp [Walk.run]⟩
  | tooDeep => exact ⟨by simp [Walk.run], by simp [Walk.run]⟩
  | ask request next ih =>
    cases request with
    | list place =>
      obtain ⟨htrace, hending⟩ := ih _ h.2 heard
      exact ⟨List.forall_mem_cons.2 ⟨h.1, htrace⟩, hending⟩
    | probe place =>
      obtain ⟨htrace, hending⟩ := ih _ h.2 heard
      exact ⟨List.forall_mem_cons.2 ⟨h.1, htrace⟩, hending⟩
    | tell notice =>
      obtain ⟨htrace, hending⟩ := ih _ (h.2 _) (notice :: heard)
      exact ⟨List.forall_mem_cons.2 ⟨h.1, htrace⟩, hending⟩
    | tellOnce notice =>
      simp only [Walk.run]
      split
      · exact ih none (h.2 none) heard
      · obtain ⟨htrace, hending⟩ := ih _ (h.2 _) (notice :: heard)
        exact ⟨List.forall_mem_cons.2 ⟨h.1, htrace⟩, hending⟩

end Walk

end PathGlob
