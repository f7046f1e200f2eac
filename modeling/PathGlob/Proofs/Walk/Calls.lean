/-
The tree and the listener are told of the same entries.

A walk carries two texts from place to place, the one it asks the tree about and the
one it tells, and joins the same parts to both. That the first is always the root
joined with the second is an invariant of its calls: going on with the segments that
are left, following a route, sweeping and looking for ends (`Call`). `Call.Makes` is
one step from a call to the calls it makes. It leaves the masks and the answers to
probes aside, so it has all calls that any run makes, and more. One step keeps the
invariant (`Call.Sound.makes`), so all calls have it.

A run shows nothing but what its calls do: each lists its own place or probes the
place of the call it makes, and tells its own path (`Expansion.keeps_advance`).

No more is asked of the tree than that its names are not empty and do not begin with a
separator. A name may hold separators further on. It would be joined like a longer
path to both texts.
-/
import Mathlib
import PathGlob.Proofs.Walk.Asked
import PathGlob.Proofs.Walk.Candid
import PathGlob.Proofs.Walk.Faults
import PathGlob.Proofs.Walk.Keeps

set_option autoImplicit false

namespace PathGlob

open Segment (Alternating)
open Place (Stands Spotted)

/-- The place is asked about by the root joined with its path, the root itself by the
root as it is. -/
def Place.Named (root : Text) (place : Place) : Prop :=
  place.dir = if place.isRoot then root else fullPath root place.path

/-- What a walk is about to do, and where. -/
inductive Call where
  /-- Go on with these segments. -/
  | advance (segments : List Segment) (place : Place)
  /-- Follow what is left of a route, to go on with the rest of the segments from
  where the route began. -/
  | follow (origin : Place) (rest : List Segment) (route : Route) (place : Place)
  /-- Visit everything below, to go on with the rest of the segments from a hit. -/
  | sweep (rest : List Segment) (place : Place)
  /-- Look for ends below. -/
  | ends (place : Place)

namespace Call

/-- Where the call is made. -/
def place : Call → Place
  | .advance _ place => place
  | .follow _ _ _ place => place
  | .sweep _ place => place
  | .ends place => place

variable {tree : Tree}

/-- One call can make another in a tree. -/
inductive Makes (tree : Tree) : Call → Call → Prop
  | whole {text : Text} {width : Nat} {place : Place} :
      Makes tree (.advance [.literal text width] place) (.follow place [] (Route.ofText text) place)
  | head {text : Text} {width : Nat} {rest : List Segment} {place : Place} (hne : rest ≠ []) :
      Makes tree (.advance (.literal text width :: rest) place)
        (.follow place rest (Route.ofText (Text.trimmed text)) place)
  | probe {origin place : Place} {rest : List Segment} {path : Text} {next : Route} :
      Makes tree (.follow origin rest (.probe path next) place)
        (.follow origin rest next (place.child path))
  | choose {origin place : Place} {rest : List Segment} {mask name : Text} {next : Route}
      (hname : name ∈ tree.inside place.dir) :
      Makes tree (.follow origin rest (.choose mask next) place)
        (.follow origin rest next (place.child name))
  | behind {origin place : Place} {rest : List Segment} (hne : rest ≠ []) :
      Makes tree (.follow origin rest .here place) (.advance rest (origin.descend place.path))
  | ends {stars : Text} {place : Place} : Makes tree (.advance [.wild stars] place) (.ends place)
  | below {name : Text} {place : Place} (hname : name ∈ tree.inside place.dir) :
      Makes tree (.ends place) (.ends (place.child name))
  | sweep {stars text : Text} {width : Nat} {rest : List Segment} {place : Place} :
      Makes tree (.advance (.wild stars :: .literal text width :: rest) place) (.sweep rest place)
  | down {name : Text} {rest : List Segment} {place : Place}
      (hname : name ∈ tree.inside place.dir) :
      Makes tree (.sweep rest place) (.sweep rest (place.child name))
  | hit {name : Text} {rest : List Segment} {place : Place}
      (hname : name ∈ tree.inside place.dir) (hne : rest ≠ []) :
      Makes tree (.sweep rest place) (.advance rest (place.child name))
  | skip {stars stars' : Text} {rest : List Segment} {place : Place} :
      Makes tree (.advance (.wild stars :: .wild stars' :: rest) place)
        (.advance (.wild stars' :: rest) place)

/-- The calls that come of one. -/
def Comes (tree : Tree) : Call → Call → Prop := Relation.ReflTransGen (Makes tree)

/-- The call that a walk begins with. -/
def first (pattern root : Text) : Call :=
  let anchored := Anchored.of pattern root
  let segments := Segment.ofPattern anchored.pattern
  .advance segments (Expansion.start anchored.root segments)

/-! ## The invariant -/

/-- The segments of a pattern, of which a literal in front begins with one separator
at most. -/
structure Fronted (segments : List Segment) : Prop where
  wild : ∀ stars rest, segments = .wild stars :: rest → Alternating segments
  literal : ∀ text width rest, segments = .literal text width :: rest →
    (rest = [] ∨ Alternating rest) ∧ Text.opened (Text.dropOpening text) = false

theorem fronted_ofPattern {pattern : Text}
    (hopened : Text.opened (Text.dropOpening pattern) = false) :
    Fronted (Segment.ofPattern pattern) := by
  rcases Segment.ofPattern_cases pattern with h | h | ⟨text, width, rest, h, hrest⟩
  · rw [h]
    exact ⟨by simp, by simp⟩
  · refine ⟨fun _ _ _ => h, fun text width rest hliteral => ?_⟩
    rw [hliteral] at h
    cases h
  · obtain ⟨more, rfl⟩ := Segment.exists_append_of_head h
    rw [h]
    refine ⟨by simp, fun text' width' rest' heq => ?_⟩
    obtain ⟨hliteral, rfl⟩ := List.cons.inj heq
    obtain ⟨rfl, -⟩ := Segment.literal.inj hliteral
    exact ⟨hrest, Text.opened_dropOpening_left hopened⟩

/-- The two texts of each place are in step, and where a literal is followed from the
start the text asked for first does not begin with a separator. -/
def Sound (root lead : Text) (segments : List Segment) : Call → Prop
  | .advance left place =>
    left = segments ∧ place = ⟨root, lead⟩ ∨ Alternating left ∧ Stands root lead True place
  | .follow origin rest route place =>
    origin = ⟨root, lead⟩ ∧ (rest = [] ∨ Alternating rest) ∧ route.Proper ∧
      (place = ⟨root, lead⟩ ∧ route.Begins ∨ Spotted root lead True place)
  | .sweep rest place => (rest = [] ∨ Alternating rest) ∧ Stands root lead True place
  | .ends place => Stands root lead True place

variable {root lead : Text} {segments : List Segment} {call next : Call}

theorem Sound.stands (h : call.Sound root lead segments) : Stands root lead True call.place := by
  cases call with
  | advance left place =>
    rcases h with ⟨-, rfl⟩ | ⟨-, h⟩
    · exact .inl rfl
    · exact h
  | follow origin rest route place => exact h.2.2.2.imp_left And.left
  | sweep rest place => exact h.2
  | ends place => exact h

section Steps

variable {left rest : List Segment} {place origin : Place}

/-- Only what a walk begins with can have a literal in front. -/
theorem Sound.of_literal (hfronted : Fronted segments) {text : Text} {width : Nat}
    (h : (Call.advance (.literal text width :: rest) place).Sound root lead segments) :
    place = ⟨root, lead⟩ ∧ (rest = [] ∨ Alternating rest) ∧
      Text.opened (Text.dropOpening text) = false := by
  rcases h with ⟨hsegments, hplace⟩ | ⟨h, -⟩
  · exact ⟨hplace, hfronted.literal _ _ _ hsegments.symm⟩
  · cases h

theorem Sound.of_wild (hfronted : Fronted segments) {stars : Text}
    (h : (Call.advance (.wild stars :: rest) place).Sound root lead segments) :
    Alternating (.wild stars :: rest) ∧ Stands root lead True place := by
  rcases h with ⟨rfl, hplace⟩ | h
  · exact ⟨hfronted.wild _ _ rfl, .inl hplace⟩
  · exact h

/-- What is probed is never the start. -/
theorem Sound.spotted (hlead : lead = [] ∨ lead = ['/']) {path : Text} {route : Route}
    (h : (Call.follow origin rest (.probe path route) place).Sound root lead segments) :
    Spotted root lead True (place.child path) := by
  obtain ⟨-, -, ⟨hne, -⟩, ⟨rfl, hbegins⟩ | hplace⟩ := h
  · exact Place.spotted_start hlead ⟨hne, hbegins, fun _ => trivial⟩
  · exact hplace.child hne fun _ => trivial

end Steps

section Names

variable (hnames : ∀ dir, ∀ name ∈ tree.inside dir, name ≠ [] ∧ Text.opened name = false)
  (hlead : lead = [] ∨ lead = ['/']) (hfronted : Fronted segments)

include hnames in
theorem joined_of_mem {dir name : Text} (hname : name ∈ tree.inside dir) :
    Text.Joined True name :=
  ⟨(hnames dir name hname).1, (hnames dir name hname).2, fun _ => trivial⟩

include hnames hlead hfronted in
/-- **One call more** and the two texts are still in step. -/
theorem Sound.makes (h : call.Sound root lead segments) (hmakes : Makes tree call next) :
    next.Sound root lead segments := by
  cases hmakes with
  | whole =>
    obtain ⟨hplace, hrest, hopened⟩ := h.of_literal hfronted
    exact ⟨hplace, hrest, Route.proper_ofText _, .inl ⟨hplace, Route.begins_ofText hopened⟩⟩
  | head hne =>
    obtain ⟨hplace, hrest, hopened⟩ := h.of_literal hfronted
    exact ⟨hplace, hrest, Route.proper_ofText _, .inl ⟨hplace, Route.begins_trimmed hopened⟩⟩
  | probe => exact ⟨h.1, h.2.1, h.2.2.1.2, .inr (h.spotted hlead)⟩
  | choose hname =>
    exact ⟨h.1, h.2.1, h.2.2.1, .inr (Stands.child hlead h.stands (joined_of_mem hnames hname))⟩
  | @behind origin place rest hne =>
    -- The path alone leads back to the place, so nothing is lost by going on from it.
    have hplace : Stands root lead True place := h.stands
    obtain ⟨rfl, hrest, -⟩ := h
    rw [hplace.descend_start]
    exact .inr ⟨hrest.resolve_left hne, hplace⟩
  | ends => exact (h.of_wild hfronted).2
  | below hname => exact .inr (Stands.child hlead h (joined_of_mem hnames hname))
  | sweep =>
    obtain ⟨hsegments, hplace⟩ := h.of_wild hfronted
    refine ⟨?_, hplace⟩
    cases hsegments with
    | literal => exact .inl rfl
    | more _ _ _ hrest => exact .inr hrest
  | down hname => exact ⟨h.1, .inr (Stands.child hlead h.2 (joined_of_mem hnames hname))⟩
  | hit hname hne =>
    exact .inr ⟨h.1.resolve_left hne, .inr (Stands.child hlead h.2 (joined_of_mem hnames hname))⟩
  | skip => cases (h.of_wild hfronted).1

end Names

/-! ## What a call does -/

/-- A call lists its place, probes the place of the call it makes, and tells the path
of its place as a match. Which faults are told is another matter. -/
def Does (call : Call) : Request → Prop
  | .list asked => asked = call.place
  | .probe asked => ∃ origin rest path next place,
      call = .follow origin rest (.probe path next) place ∧ asked = place.child path
  | .tell (.found path) => path = call.place.path
  | .tell _ => True
  | .tellOnce _ => False

/-- Some call that comes of another does it. -/
def Causes (tree : Tree) (call : Call) (request : Request) : Prop :=
  ∃ other, Comes tree call other ∧ other.Does request

theorem Comes.mayList (h : Comes tree call next) : next.place.MayList (Causes tree call) :=
  ⟨⟨next, h, rfl⟩, fun _ => ⟨next, h, trivial⟩⟩

theorem Comes.mayProbe {origin place : Place} {rest : List Segment} {path : Text} {route : Route}
    (h : Comes tree call (.follow origin rest (.probe path route) place)) :
    (place.child path).MayProbe (Causes tree call) :=
  ⟨⟨_, h, _, _, _, _, _, rfl, rfl⟩, fun _ => ⟨_, h, trivial⟩⟩

theorem Comes.mayTell (h : Comes tree call next) :
    Causes tree call (.tell (.found next.place.path)) := ⟨next, h, rfl⟩

end Call

open Walk (Keeps)
open Call (Comes Causes)

section Does

variable {tree : Tree} {call : Call}

/-- A route is followed by calls, and from its end the rest goes on. -/
theorem Route.causes_follow {reach : Text → Walk (List Text)} {good : Text → Prop} {origin : Place}
    {rest : List Segment}
    (hreach : ∀ place, Comes tree call (.follow origin rest .here place) →
      Keeps tree (Causes tree call) True (fun paths => ∀ path ∈ paths, good path)
        (reach place.path))
    {route : Route} {place : Place} (h : Comes tree call (.follow origin rest route place)) :
    Keeps tree (Causes tree call) True (fun paths => ∀ path ∈ paths, good path)
      (route.follow reach place) := by
  refine keeps_follow (fun route place => Comes tree call (.follow origin rest route place))
    hreach ?_ ?_ h
  · exact fun path next place h => ⟨h.mayProbe, h.tail .probe⟩
  · exact fun mask next place h =>
      ⟨h.mayList, .inl trivial, fun _ name hname => h.tail (.choose hname)⟩

namespace Expansion

/-- **A walk does what its calls do** and nothing else. -/
theorem keeps_advance (once : Bool) (depth : Nat) (segments : List Segment) (place : Place)
    (h : Comes tree call (.advance segments place)) :
    Keeps tree (Causes tree call) True (fun _ => True) (advance once depth segments place) := by
  fun_induction advance once depth segments place with
  | case1 place => trivial
  | case2 text width place =>
    have hreach : ∀ target, Comes tree call (.follow place [] .here target) →
        Keeps tree (Causes tree call) True (fun paths : List Text => ∀ path ∈ paths, True)
          ((report once target.path).bind fun _ => .done []) := by
      intro target htarget
      exact (keeps_report once htarget.mayTell).bind fun _ _ => Walk.keeps_done (by simp)
    exact (Route.causes_follow hreach (h.tail .whole)).bind fun _ _ => Walk.keeps_done trivial
  | case3 text width rest place hne ih =>
    have hreach : ∀ target, Comes tree call (.follow place rest .here target) →
        Keeps tree (Causes tree call) True
          (fun paths => ∀ path ∈ paths, Comes tree call (.advance rest (place.descend path)))
          (.done [target.path]) := by
      intro target htarget
      exact Walk.keeps_done (List.forall_mem_singleton.2 (htarget.tail (.behind hne)))
    refine (Route.causes_follow hreach (h.tail (.head hne))).bind fun paths hpaths => ?_
    exact Walk.keeps_each fun path hpath => ih path (hpaths path hpath)
  | case4 stars place =>
    refine keeps_ends (fun place => Comes tree call (.ends place)) once ?_ depth (h.tail .ends)
    exact fun place hplace =>
      ⟨hplace.mayList, hplace.mayTell, fun name hname => hplace.tail (.below hname)⟩
  | case5 stars text width rest place hit ih =>
    refine keeps_sweep (fun place => Comes tree call (.sweep rest place)) (.inl trivial) ?_ depth
      (h.tail .sweep) [] 0
    intro place hplace
    refine ⟨hplace.mayList, fun name hname => ⟨hplace.tail (.down hname), fun _ => ?_⟩⟩
    show Keeps _ _ _ _ (if rest.isEmpty = true then report once (place.child name).path
      else advance once depth rest (place.child name))
    split
    · exact keeps_report once (Comes.mayTell (hplace.tail (.down hname)))
    · rename_i hrest
      exact ih _ (hplace.tail (.hit hname (by simpa using hrest)))
  | case6 stars rest place hne hliteral ih =>
    cases rest with
    | nil => exact absurd rfl hne
    | cons segment more =>
      cases segment with
      | literal text width => exact absurd rfl (hliteral text width more)
      | wild stars' => exact ih (h.tail .skip)

end Expansion

end Does

/-! ## The whole walk -/

namespace Place

variable {root lead : Text} {place : Place}

/-- A place below the start is not taken for the root. -/
theorem Spotted.isRoot (hlead : lead = [] ∨ lead = ['/']) (h : Spotted root lead True place) :
    place.isRoot = false := by
  obtain ⟨path, hpath, rfl⟩ := h
  have hne := hpath.ne_nil
  have hopened := hpath.opened
  rw [Place.isRoot, spot]
  rcases hlead with rfl | rfl
  · have hsep : path ≠ ['/'] := by
      rintro rfl
      exact absurd hopened (by decide)
    simp [hne, hsep]
  · simp [hne]

theorem Spotted.dir_eq (hroot : root ≠ []) (hlead : lead = [] ∨ lead = ['/'])
    (h : Spotted root lead True place) : place.dir = fullPath root place.path := by
  obtain ⟨path, hpath, rfl⟩ := h
  exact dir_spot hroot hlead hpath

theorem Stands.named (hroot : root ≠ []) (hlead : lead = [] ∨ lead = ['/'])
    (h : Stands root lead True place) : place.Named root := by
  rcases h with rfl | h
  · rcases hlead with rfl | rfl <;> rfl
  · rw [Named, h.isRoot hlead, if_neg Bool.false_ne_true]
    exact h.dir_eq hroot hlead

end Place

namespace Call

variable {tree : Tree}

/-- **All calls of a walk** are sound. -/
theorem exists_sound
    (hnames : ∀ dir, ∀ name ∈ tree.inside dir, name ≠ [] ∧ Text.opened name = false)
    (pattern root : Text) : ∃ lead segments, (lead = [] ∨ lead = ['/']) ∧
      ∀ call, Comes tree (first pattern root) call →
        call.Sound (Anchored.of pattern root).root lead segments := by
  obtain ⟨lead, hlead, hstart⟩ := Expansion.exists_lead (Anchored.of pattern root).root
    (Segment.ofPattern (Anchored.of pattern root).pattern)
  have hfronted := fronted_ofPattern (Anchored.opened_of pattern root)
  refine ⟨lead, Segment.ofPattern (Anchored.of pattern root).pattern, hlead, fun call hcall => ?_⟩
  induction hcall with
  | refl => exact .inl ⟨rfl, hstart⟩
  | tail _ hmakes ih => exact ih.makes hnames hlead hfronted hmakes

/-- What some events show is done by the calls of the walk of a pattern below a root.
A probe is never about the root, and a fault is told right behind a question at the
place with the path that is told. -/
structure Accounts (tree : Tree) (pattern root : Text) (events : List Event) : Prop where
  listed : ∀ place answer, .list place answer ∈ events →
    place.Named (Anchored.of pattern root).root ∧
      ∃ call, Comes tree (first pattern root) call ∧ place = call.place
  probed : ∀ place answer, .probe place answer ∈ events →
    place.dir = Place.fullPath (Anchored.of pattern root).root place.path ∧
      ∃ call, Comes tree (first pattern root) call ∧ place = call.place
  found : ∀ path, .tell (.found path) ∈ events →
    ∃ call, Comes tree (first pattern root) call ∧ path = call.place.path
  failed : ∀ before path fault after, events = before ++ .tell (.failed path fault) :: after →
    ∃ front question, before = front ++ [question] ∧ question.fault? = some (.failed path fault)

end Call

/-- Whatever is requested is caused by a call of the walk. -/
theorem Walk.causes_glob (tree : Tree) (pattern root : Text) :
    Keeps tree (Causes tree (Call.first pattern root)) True (fun _ => True)
      (Walk.glob tree.depth pattern root) := by
  refine (Walk.keeps_tell ⟨_, .refl, trivial⟩).bind fun _ _ => ?_
  cases hread : Segment.read (Anchored.of pattern root).pattern with
  | error e => trivial
  | ok segments =>
    obtain ⟨rfl, -⟩ := Segment.read_eq_ok.1 hread
    exact Expansion.keeps_advance _ _ _ _ .refl

/-- **The tree and the listener are told of the same entries.** Let the names in the
listings not be empty nor begin with a separator. Then each call of a walk is made at a
place that is asked about by the root joined with its path, and the run asks about and
tells of the places of its calls alone. -/
theorem glob_named_alike {tree : Tree}
    (hnames : ∀ dir, ∀ name ∈ tree.inside dir, name ≠ [] ∧ Text.opened name = false)
    (listener : Listener) (pattern root : Text) :
    (∀ call, Comes tree (Call.first pattern root) call →
        call.place.Named (Anchored.of pattern root).root) ∧
      Call.Accounts tree pattern root (tree.glob listener pattern root).trace := by
  have hroot := Anchored.root_ne_nil pattern root
  obtain ⟨lead, segments, hlead, hsound⟩ := Call.exists_sound hnames pattern root
  have hcauses := ((Walk.causes_glob tree pattern root).run listener []).1
  have hnamed : ∀ call, Comes tree (Call.first pattern root) call →
      call.place.Named (Anchored.of pattern root).root :=
    fun call hcall => (hsound call hcall).stands.named hroot hlead
  refine ⟨hnamed, ?_, ?_, ?_, ?_⟩
  · intro place answer hmem
    obtain ⟨call, hcall, hplace⟩ := hcauses _ hmem
    exact ⟨hplace ▸ hnamed call hcall, call, hcall, hplace⟩
  · intro place answer hmem
    obtain ⟨call, hcall, origin, rest, path, next, above, rfl, hplace⟩ := hcauses _ hmem
    have hspotted : Spotted _ lead True place := hplace ▸ (hsound _ hcall).spotted hlead
    exact ⟨hspotted.dir_eq hroot hlead, _, hcall.tail .probe, hplace⟩
  · intro path hmem
    obtain ⟨call, hcall, hdoes⟩ := hcauses _ hmem
    exact ⟨call, hcall, hdoes⟩
  · intro before path fault after heq
    obtain ⟨events, htrace, hsettled, -⟩ := tree.exists_settled listener pattern root
    rw [htrace] at heq
    cases before with
    | nil => cases heq
    | cons event before =>
      obtain ⟨rfl, htail⟩ := List.cons.inj heq
      obtain ⟨front, question, rfl, hfault⟩ :=
        (tellsFaults_of_settled hsettled).only before path fault after htail
      exact ⟨_ :: front, question, rfl, hfault⟩

/-- A name may hold a separator further on, and what is probed can end with one where
the pattern has two in a row. -/
theorem glob_named_alike_doubled :
    (∀ dir, ∀ name ∈ (ListingTable.tree ⟨[("./".toList, ["a".toList]),
          ("./a/".toList, ["b/c".toList])], ["./a/".toList]⟩).inside dir,
        name ≠ [] ∧ Text.opened name = false) ∧
      ((∀ call, Comes (ListingTable.tree ⟨[("./".toList, ["a".toList]),
            ("./a/".toList, ["b/c".toList])], ["./a/".toList]⟩)
          (Call.first "a//**".toList []) call →
            call.place.Named (Anchored.of "a//**".toList []).root) ∧
        Call.Accounts (ListingTable.tree ⟨[("./".toList, ["a".toList]),
            ("./a/".toList, ["b/c".toList])], ["./a/".toList]⟩) "a//**".toList []
          ((ListingTable.tree ⟨[("./".toList, ["a".toList]), ("./a/".toList, ["b/c".toList])],
            ["./a/".toList]⟩).glob .lenient "a//**".toList []).trace) ∧
      ((ListingTable.tree ⟨[("./".toList, ["a".toList]), ("./a/".toList, ["b/c".toList])],
          ["./a/".toList]⟩).glob .lenient "a//**".toList []).found = ["a/b/c".toList] := by
  have hnames : ∀ dir, ∀ name ∈ (ListingTable.tree ⟨[("./".toList, ["a".toList]),
      ("./a/".toList, ["b/c".toList])], ["./a/".toList]⟩).inside dir,
        name ≠ [] ∧ Text.opened name = false := ListingTable.forall_inside (by decide)
  exact ⟨hnames, glob_named_alike hnames _ _ _, by cbv⟩

end PathGlob
