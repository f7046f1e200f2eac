/-
How the places of a walk are spelled when a tree is asked about them.

A place is asked about by the root joined with the path told of it. The walk does
not build it so: it joins what it goes down by to what it has, once for the tree
and once for the listener. The two stay in step as long as no text asked for at
once begins with a separator right at the start, where one would be swallowed by
the root (`Route.Begins`). A pattern never asks for such a text, since the dots
in front of it have taken the separators with them.

Whatever a walk tells is under the places it came through, so each of them is
asked about as the path told, a path above it, or the root (`Stands.along`).
There is one more spelling. Where a pattern has two separators in a row, the text
asked for at once can end with one, and the directory there is asked about with
this separator at its end.
-/
import PathGlob.Proofs.Walk.Scope

set_option autoImplicit false

namespace PathGlob

open Text (IsName Under Undoubled)

/-! ## Above a path -/

namespace Text

/-- What stands before one of the separators of a path. -/
def Above (above path : Text) : Prop := above ≠ [] ∧ ∃ rest, path = above ++ '/' :: rest

/-- Above a name behind another there is only the other. -/
theorem eq_of_above {above name last : Text} (hname : '/' ∉ name) (hlast : '/' ∉ last)
    (h : Above above (name ++ '/' :: last)) : above = name := by
  obtain ⟨-, rest, heq⟩ := h
  rcases List.append_eq_append_iff.1 heq with ⟨more, rfl, hmore⟩ | ⟨more, rfl, hmore⟩
  · cases more with
    | nil => simp
    | cons c more =>
      rw [(List.cons.inj hmore).2] at hlast
      exact absurd (by simp) hlast
  · cases more with
    | nil => simp
    | cons c more =>
      rw [← (List.cons.inj hmore).1] at hname
      exact absurd (by simp) hname

/-- The first part of a text begins as the text does, also behind a separator. -/
theorem opened_dropOpening_left {a b : Text} (h : opened (dropOpening (a ++ b)) = false) :
    opened (dropOpening a) = false := by
  cases hopened : opened a with
  | false => rwa [dropOpening_eq_self hopened]
  | true =>
    obtain ⟨rest, rfl⟩ := exists_of_opened hopened
    exact opened_left h

theorem opened_trimmed {text : Text} (h : opened (dropOpening text) = false) :
    opened (trimmed text) = false := by
  rw [trimmed]
  split
  · rw [dropClosing]
    split
    · obtain ⟨last, hlast⟩ := List.dropLast_prefix (dropOpening text)
      rw [← hlast] at h
      exact opened_left h
    · exact h
  · exact h

end Text

/-- The root, the full path of a path below it, and those of the paths above. -/
def Place.Along (root path asked : Text) : Prop :=
  asked = root ∨ asked = fullPath root path ∨
    ∃ above, Text.Above above path ∧ asked = fullPath root above

/-- The paths a tree is asked about on the way to a path told. Where separators
are doubled in the pattern, a path above may be asked about with one at its
end. -/
def Anchored.Concerns (anchored : Anchored) (path asked : Text) : Prop :=
  Place.Along anchored.root path asked ∨
    ¬ Undoubled anchored.pattern ∧
      ∃ above, Text.Above above path ∧ asked = Place.fullPath anchored.root (above ++ ['/'])

/-! ## Places below a start -/

/-- A path as it is joined to the start of a walk. `loose` says whether it may end
with a separator. -/
structure Text.Joined (loose : Prop) (path : Text) : Prop where
  ne_nil : path ≠ []
  opened : Text.opened path = false
  closed : Text.closed path = true → loose

theorem Text.Joined.joinName {loose : Prop} {path next : Text} (h : Joined loose path)
    (hne : next ≠ []) (hclosed : Text.closed next = true → loose) :
    Joined loose (Text.joinName path next) where
  ne_nil := joinName_ne_nil path hne
  opened := by
    obtain ⟨c, rest, rfl⟩ := List.exists_cons_of_ne_nil h.ne_nil
    have hopened := h.opened
    rw [Text.joinName]
    split <;> exact hopened
  closed := by
    rw [closed_joinName path hne]
    exact hclosed

theorem Text.IsName.joined {loose : Prop} {name : Text} (h : IsName name) : Joined loose name where
  ne_nil := h.1
  opened := opened_name h
  closed := by
    rw [closed_name h]
    exact fun hfalse => absurd hfalse Bool.false_ne_true

namespace Place

/-- The place that a path leads to from the start of a walk. -/
def spot (root lead path : Text) : Place := ⟨Text.joinName root path, lead ++ path⟩

/-- A place that a path leads to from the start. -/
def Spotted (root lead : Text) (loose : Prop) (place : Place) : Prop :=
  ∃ path, Text.Joined loose path ∧ place = spot root lead path

/-- The start of a walk, or such a place. -/
def Stands (root lead : Text) (loose : Prop) (place : Place) : Prop :=
  place = ⟨root, lead⟩ ∨ Spotted root lead loose place

variable {root lead : Text} {loose : Prop} {place : Place}

theorem child_start (hlead : lead = [] ∨ lead = ['/']) (path : Text) :
    (⟨root, lead⟩ : Place).child path = spot root lead path := by
  rcases hlead with rfl | rfl <;> rfl

theorem child_spot {path : Text} (hne : path ≠ []) (next : Text) :
    (spot root lead path).child next = spot root lead (Text.joinName path next) := by
  have hpath : lead ++ path ≠ [] := by simp [hne]
  have hdir := Text.joinName_ne_nil root hne
  have hclosedDir := @Text.closed_joinName root _ hne
  have hclosedPath : Text.closed (lead ++ path) = Text.closed path := Text.closed_append hne
  rw [child, spot, spot]
  dsimp only
  cases hclosed : Text.closed path with
  | false =>
    rw [hclosed] at hclosedDir hclosedPath
    rw [Text.joinName_open hdir hclosedDir, Text.joinName_open hpath hclosedPath,
      Text.joinName_open hne hclosed, Text.joinName_append, List.append_assoc]
  | true =>
    rw [hclosed] at hclosedDir hclosedPath
    rw [Text.joinName.eq_1 (Text.joinName root path), Text.joinName.eq_1 (lead ++ path),
      Text.joinName.eq_1 path, hclosedDir, hclosedPath, hclosed, Bool.or_true, Bool.or_true,
      Bool.or_true, if_pos rfl, if_pos rfl, if_pos rfl, Text.joinName_append, List.append_assoc]

/-- **A place is asked about** by the root joined with its path. -/
theorem dir_spot (hroot : root ≠ []) (hlead : lead = [] ∨ lead = ['/']) {path : Text}
    (h : Text.Joined loose path) : (spot root lead path).dir = fullPath root (lead ++ path) := by
  show Text.joinName root path = Text.joinPath root (lead ++ path)
  rcases hlead with rfl | rfl
  · rw [List.nil_append, Text.joinPath, if_neg (by simpa using h.ne_nil), h.opened,
      if_neg Bool.false_ne_true]
  · have hopened : Text.opened (['/'] ++ path) = true := rfl
    rw [Text.joinPath, if_neg (by simp), hopened, if_pos rfl, Text.joinName]
    cases Text.closed root <;> simp [hroot]

/-- Going on from the path of a place leads to the place. -/
theorem Stands.descend_start (h : Stands root lead loose place) :
    (⟨root, lead⟩ : Place).descend place.path = place := by
  rcases h with rfl | ⟨path, hpath, rfl⟩
  · rw [descend, List.drop_length]
    rfl
  · rw [descend]
    show (⟨Text.joinPath root ((lead ++ path).drop lead.length), _⟩ : Place) = _
    rw [List.drop_left, Text.joinPath, if_neg (by simpa using hpath.ne_nil), hpath.opened,
      if_neg Bool.false_ne_true]
    rfl

theorem spotted_start (hlead : lead = [] ∨ lead = ['/']) {next : Text}
    (hnext : Text.Joined loose next) : Spotted root lead loose ((⟨root, lead⟩ : Place).child next) := by
  rw [child_start hlead]
  exact ⟨next, hnext, rfl⟩

theorem Spotted.child (h : Spotted root lead loose place) {next : Text} (hne : next ≠ [])
    (hclosed : Text.closed next = true → loose) : Spotted root lead loose (place.child next) := by
  obtain ⟨path, hpath, rfl⟩ := h
  rw [child_spot hpath.ne_nil]
  exact ⟨_, hpath.joinName hne hclosed, rfl⟩

theorem Stands.child (hlead : lead = [] ∨ lead = ['/']) (h : Stands root lead loose place)
    {next : Text} (hnext : Text.Joined loose next) : Spotted root lead loose (place.child next) := by
  rcases h with rfl | h
  · exact spotted_start hlead hnext
  · exact h.child hnext.ne_nil hnext.closed

theorem Stands.down (hlead : lead = [] ∨ lead = ['/']) {names : List Text}
    (hnames : ∀ name ∈ names, IsName name) (h : Stands root lead loose place) :
    Stands root lead loose (place.down names) := by
  induction names generalizing place with
  | nil => exact h
  | cons name rest ih =>
    rw [List.forall_mem_cons] at hnames
    exact ih hnames.2 (.inr (h.child hlead hnames.1.joined))

/-- A place that something told is under is asked about as the root, as the path
told, or as a path above it, perhaps with a separator at the end. -/
theorem Stands.along (hroot : root ≠ []) (hlead : lead = [] ∨ lead = ['/'])
    (h : Stands root lead loose place) {m : Text} (hunder : Under place.path m) :
    Along root m place.dir ∨
      loose ∧ ∃ above, Text.Above above m ∧ place.dir = fullPath root (above ++ ['/']) := by
  rcases h with rfl | ⟨path, hpath, rfl⟩
  · exact .inl (.inl rfl)
  · rw [dir_spot hroot hlead hpath]
    have hne : lead ++ path ≠ [] := by simp [hpath.ne_nil]
    have hclosedPath : Text.closed (lead ++ path) = Text.closed path := Text.closed_append hpath.ne_nil
    rcases hunder with rfl | ⟨rest, -, rfl⟩
    · exact .inl (.inr (.inl rfl))
    · change Along root (Text.joinName (lead ++ path) rest) _ ∨
        loose ∧ ∃ above, Text.Above above (Text.joinName (lead ++ path) rest) ∧ _
      cases hclosed : Text.closed path with
      | false =>
        rw [hclosed] at hclosedPath
        rw [Text.joinName_open hne hclosedPath]
        exact .inl (.inr (.inr ⟨lead ++ path, ⟨hne, rest, rfl⟩, rfl⟩))
      | true =>
        obtain ⟨front, rfl⟩ := Text.exists_of_closed hclosed
        have hfront : front ≠ [] := by
          rintro rfl
          exact absurd hpath.opened (by decide)
        rw [Text.joinName, hclosedPath, hclosed, Bool.or_true, if_pos rfl]
        refine .inr ⟨hpath.closed hclosed, lead ++ front, ⟨by simp [hfront], rest, by simp⟩, ?_⟩
        rw [List.append_assoc]

end Place

/-- A walk starts at the root, with a separator to tell or none. -/
theorem Expansion.exists_lead (root : Text) (segments : List Segment) :
    ∃ lead, (lead = [] ∨ lead = ['/']) ∧ start root segments = ⟨root, lead⟩ := by
  refine ⟨_, ?_, rfl⟩
  split
  · exact .inr rfl
  · exact .inl rfl

/-! ## What a route asks for -/

namespace Route

/-- What is asked for at once is something. It ends with a separator only where
`loose` allows it. -/
def Asks (loose : Prop) : Route → Prop
  | .here => True
  | .nowhere => True
  | .probe path next => (path ≠ [] ∧ (Text.closed path = true → loose)) ∧ Asks loose next
  | .choose _ next => Asks loose next

/-- What is asked for first does not begin with a separator. -/
def Begins : Route → Prop
  | .probe path _ => Text.opened path = false
  | _ => True

variable {loose : Prop}

theorem Asks.proper {route : Route} (h : route.Asks loose) : route.Proper := by
  induction route with
  | here => trivial
  | nowhere => trivial
  | probe path next ih => exact ⟨h.1.1, ih h.2⟩
  | choose mask next ih => exact ih h

theorem Proper.asks (hloose : loose) {route : Route} (h : route.Proper) : route.Asks loose := by
  induction route with
  | here => trivial
  | nowhere => trivial
  | probe path next ih => exact ⟨⟨h.1, fun _ => hloose⟩, ih h.2⟩
  | choose mask next ih => exact ih h

theorem asks_closeRun {plain : List Text} (hplain : ∀ part ∈ plain, IsName part) {next : Route}
    (h : next.Asks loose) : (closeRun plain next).Asks loose := by
  rcases closeRun_cases plain next with hrun | hrun | ⟨⟨hne, hjoin⟩, hrun⟩ <;> rw [hrun]
  · exact h
  · trivial
  · refine ⟨⟨hjoin, fun hclosed => ?_⟩, h⟩
    rw [Text.join_eq_spell, Text.closed_spell hne hplain] at hclosed
    exact absurd hclosed Bool.false_ne_true

/-- Names are asked for with separators between them only. -/
theorem asks_gather {plain parts : List Text} (hplain : ∀ part ∈ plain, IsName part)
    (hparts : ∀ part ∈ parts, IsName part) : (gather plain parts).Asks loose := by
  induction parts generalizing plain with
  | nil => exact asks_closeRun hplain trivial
  | cons part rest ih =>
    obtain ⟨hpart, hrest⟩ := List.forall_mem_cons.1 hparts
    rw [gather]
    split
    · exact ih (List.forall_mem_append.2 ⟨hplain, by simpa using hpart⟩) hrest
    · exact asks_closeRun hplain (ih (by simp) hrest)

theorem begins_closeRun {plain : List Text} (hplain : Text.opened (Text.join plain) = false)
    {next : Route} (h : next.Begins) : (closeRun plain next).Begins := by
  rcases closeRun_cases plain next with hrun | hrun | ⟨-, hrun⟩ <;> rw [hrun]
  · exact h
  · trivial
  · exact hplain

/-- What the first pieces begin with the whole text begins with. -/
theorem opened_join_left {plain more : List Text}
    (h : Text.opened (Text.join (plain ++ more)) = false) :
    Text.opened (Text.join plain) = false := by
  by_cases hplain : plain = []
  · subst hplain
    rfl
  · by_cases hmore : more = []
    · rwa [hmore, List.append_nil] at h
    · rw [Text.join_eq_spell] at h ⊢
      rw [spell_append, List.isEmpty_eq_false_iff.2 hmore, Bool.not_false, Bool.or_true,
        spell_true hplain] at h
      exact Text.opened_left (Text.opened_left h)

theorem begins_gather {plain parts : List Text}
    (h : Text.opened (Text.join (plain ++ parts)) = false) : (gather plain parts).Begins := by
  induction parts generalizing plain with
  | nil => exact begins_closeRun (opened_join_left h) trivial
  | cons part rest ih =>
    rw [gather]
    split
    · exact ih (by rwa [List.append_assoc])
    · exact begins_closeRun (opened_join_left h) trivial

theorem begins_ofText {text : Text} (h : Text.opened (Text.dropOpening text) = false) :
    (ofText text).Begins := by
  apply begins_gather
  rwa [List.nil_append, Text.join_components]

theorem begins_trimmed {text : Text} (h : Text.opened (Text.dropOpening text) = false) :
    (ofText (Text.trimmed text)).Begins := by
  have htrimmed := Text.opened_trimmed h
  apply begins_ofText
  rwa [Text.dropOpening_eq_self htrimmed]

/-- A text with no separator at its end is asked for without one at the end. -/
theorem asks_ofText {text : Text} (hopen : Text.closed text = false)
    (hloose : ¬ loose → Undoubled text) : (ofText text).Asks loose := by
  by_cases h : loose
  · exact (proper_ofText text).asks h
  · obtain ⟨front, back, names, hnames, rfl⟩ := Text.exists_written (hloose h)
    by_cases hne : names = []
    · subst hne
      cases front <;> trivial
    · rw [Text.closed_written hne hnames] at hopen
      subst hopen
      rw [Expansion.ofText_open hne hnames]
      exact asks_gather (by simp) hnames

/-- Nor is any text once it is trimmed. -/
theorem asks_trimmed {text : Text} (hloose : ¬ loose → Undoubled text) :
    (ofText (Text.trimmed text)).Asks loose := by
  by_cases h : loose
  · exact (proper_ofText _).asks h
  · obtain ⟨front, back, names, hnames, rfl⟩ := Text.exists_written (hloose h)
    by_cases hne : names = []
    · subst hne
      cases front <;> trivial
    · rw [Expansion.ofText_written hne hnames]
      exact asks_gather (by simp) hnames

end Route

end PathGlob
