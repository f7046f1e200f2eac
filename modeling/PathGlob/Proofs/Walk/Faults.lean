/-
What a walk still tells when some questions about the tree fail.

A fault takes away what is below the place where it is met, and nothing else. Two
things have to be shown for that. Less is told, in the same order: this is
`Expansion.thins_ofPattern`. And a path is still told if no question fails that
is asked about it, about a path above it or about the root: on the way to it
nothing else is asked.

The second is proved along what is told, place by place. `Clear` says that no
listing fails on the way down from a place to a path; it goes on holding further
down (`Clear.down`), so the names that led to the path still lead there
(`Clear.reaches`). For a literal in front of the wildcards there are questions of
the other kind as well (`Route.keeps_reached`).
-/
import PathGlob.Proofs.Walk.Asked
import PathGlob.Proofs.Walk.Thinning
import PathGlob.Proofs.Tree.Listings

set_option autoImplicit false

namespace PathGlob

open Text (IsName Under Undoubled)
open Segment (Alternating)

variable {tree : Tree} {listFault probeFault : Text → Option IoFault} {m : Text}

namespace Expansion

/-! ## From a wildcard on -/

/-- No listing fails at the places on the way down from a place to a path. -/
def Clear (tree : Tree) (listFault : Text → Option IoFault) (place : Place) (path : Text) : Prop :=
  ∀ names, tree.Reaches place names → Under (place.down names).path path →
    listFault (place.down names).dir = none

variable {place : Place} {names : List Text}

theorem Clear.down (h : Clear tree listFault place m) (hreach : tree.Reaches place names) :
    Clear tree listFault (place.down names) m := by
  intro more hmore hunder
  rw [← Place.down_append] at hunder ⊢
  exact h (names ++ more) (Tree.reaches_append.2 ⟨hreach, hmore⟩) hunder

/-- The names still lead to the place that the path is under. -/
theorem Clear.reaches (hnamed : tree.Named) (h : Clear tree listFault place m)
    (hreach : tree.Reaches place names) (hunder : Under (place.down names).path m) :
    (tree.failing listFault probeFault).Reaches place names := by
  induction names generalizing place with
  | nil => trivial
  | cons name rest ih =>
    have hhere : listFault place.dir = none :=
      h [] trivial ((under_place hnamed hreach).trans hunder)
    have hfirst : tree.Reaches place [name] := ⟨hreach.1, trivial⟩
    refine ⟨?_, ih (h.down hfirst) hreach.2 hunder⟩
    rw [Tree.inside, Tree.failing_list hhere]
    exact hreach.1

/-- An end is still one if the listing there does not fail. -/
theorem keeps_endAt (hm : m ∈ endAt tree place) (hhere : listFault place.dir = none) :
    m ∈ endAt (tree.failing listFault probeFault) place := by
  unfold endAt
  rw [Tree.failing_list hhere]
  exact hm

theorem keeps_literal (hnamed : tree.Named) (hfinite : tree.Finite) {stars text : Text} {width : Nat}
    {rest : List Segment} (hrest : rest = [] ∨ Alternating rest)
    (h : ∀ target, m ∈ after tree rest target → Clear tree listFault target m →
      m ∈ after (tree.failing listFault probeFault) rest target)
    (hm : m ∈ told tree (.wild stars :: .literal text width :: rest) place)
    (hclear : Clear tree listFault place m) :
    m ∈ told (tree.failing listFault probeFault) (.wild stars :: .literal text width :: rest)
      place := by
  obtain ⟨names, hnames, hfits, hafter⟩ := mem_told_literal.1 hm
  obtain ⟨hne, hreach⟩ := hfinite.mem_visits.1 hnames
  have hunder := under_after hnamed hrest (place.down names) m hafter
  apply mem_told_literal.2
  refine ⟨names, ?_, hfits, h _ hafter (hclear.down hreach)⟩
  exact hfinite.failing.mem_visits.2 ⟨hne, hclear.reaches hnamed hreach hunder⟩

/-- **A path with a clear way to it** is still told. -/
theorem keeps_told (hnamed : tree.Named) (hfinite : tree.Finite) {segments : List Segment}
    (h : Alternating segments) (hm : m ∈ told tree segments place)
    (hclear : Clear tree listFault place m) :
    m ∈ told (tree.failing listFault probeFault) segments place := by
  induction h generalizing place with
  | wild stars =>
    obtain ⟨names, hnames, hend⟩ := mem_told_wild.1 hm
    have hunder : Under (place.down names).path m := by
      rw [(mem_endAt hend).2]
      exact .refl _
    apply mem_told_wild.2
    rcases List.mem_cons.1 hnames with rfl | hnames
    · exact ⟨[], List.mem_cons_self, keeps_endAt hend (hclear [] trivial hunder)⟩
    · obtain ⟨hne, hreach⟩ := hfinite.mem_visits.1 hnames
      refine ⟨names, List.mem_cons_of_mem _ ?_, keeps_endAt hend (hclear names hreach hunder)⟩
      exact hfinite.failing.mem_visits.2 ⟨hne, hclear.reaches hnamed hreach hunder⟩
  | literal stars text width =>
    exact keeps_literal hnamed hfinite (.inl rfl) (fun _ hafter _ => hafter) hm hclear
  | more stars text width hrest ih =>
    refine keeps_literal hnamed hfinite (.inr hrest) (fun target hafter hclear => ?_) hm hclear
    rw [after_alternating hrest] at hafter ⊢
    exact ih hafter hclear

end Expansion

/-! ## Along a literal in front -/

section Head

variable {root lead : Text} {loose : Prop} {place : Place} (hnamed : tree.Named)
  (hlead : lead = [] ∨ lead = ['/'])
  (hkept : ∀ place, Place.Stands root lead loose place → Under place.path m →
    listFault place.dir = none ∧ probeFault place.dir = none)

include hnamed hlead hkept

/-- A path that a route reaches is still reached if nothing fails at the places
it is under. It is the path of a place that the walk may go on from. -/
theorem Route.keeps_reached {route : Route} (hroute : route.Asks loose)
    (hplace : (place = ⟨root, lead⟩ ∧ route.Begins) ∨ Place.Spotted root lead loose place)
    {path : Text} (hpath : path ∈ route.reached tree place) (hunder : Under path m) :
    path ∈ route.reached (tree.failing listFault probeFault) place ∧
      ∃ target, Place.Stands root lead loose target ∧ target.path = path := by
  induction route generalizing place with
  | here =>
    obtain rfl := List.mem_singleton.1 hpath
    exact ⟨hpath, place, hplace.imp_left And.left, rfl⟩
  | nowhere => simp [reached] at hpath
  | probe asked next ih =>
    obtain ⟨⟨hne, hclosed⟩, hnext⟩ := hroute
    have hchild : Place.Spotted root lead loose (place.child asked) := by
      rcases hplace with ⟨rfl, hbegins⟩ | hplace
      · exact Place.spotted_start hlead ⟨hne, hbegins, hclosed⟩
      · exact hplace.child hne hclosed
    rw [reached] at hpath ⊢
    split at hpath
    · rename_i hthere
      have habove := under_reached hnamed hnext.proper (place.child asked) path hpath
      rw [Tree.failing_probe (hkept _ (.inr hchild) (habove.trans hunder)).2, if_pos hthere]
      exact ih hnext (.inr hchild) hpath
    · simp at hpath
  | choose mask next ih =>
    have hhere : Place.Stands root lead loose place := hplace.imp_left And.left
    have habove := @under_reached tree hnamed (.choose mask next) hroute.proper place path hpath
    have hsame : (tree.failing listFault probeFault).inside place.dir = tree.inside place.dir := by
      unfold Tree.inside
      rw [Tree.failing_list (hkept place hhere (habove.trans hunder)).1]
    rw [reached, List.mem_flatMap] at hpath ⊢
    obtain ⟨name, hname, hpath⟩ := hpath
    have hchild := hhere.child hlead (hnamed place.dir name hname).joined
    rw [hsame]
    split at hpath
    · rename_i hfits
      obtain ⟨hkeeps, htarget⟩ := ih hroute (.inr hchild) hpath
      refine ⟨⟨name, hname, ?_⟩, htarget⟩
      rwa [if_pos hfits]
    · simp at hpath

/-- The way to a path is clear where nothing fails at the places it is under. -/
theorem Expansion.clear_of_kept (hplace : Place.Stands root lead loose place) :
    Clear tree listFault place m := by
  intro names hreach hunder
  exact (hkept _ (hplace.down hlead (hnamed.of_reaches hreach)) hunder).1

/-- A literal in front of a wildcard leads on to the same places. -/
theorem Expansion.keeps_head (hfinite : tree.Finite) {text : Text} {width : Nat}
    {rest : List Segment} (hrest : Alternating rest)
    (hloose : ¬ loose → Undoubled text) (hopened : Text.opened (Text.dropOpening text) = false)
    (hm : m ∈ told tree (.literal text width :: rest) ⟨root, lead⟩) :
    m ∈ told (tree.failing listFault probeFault) (.literal text width :: rest) ⟨root, lead⟩ := by
  rw [told_head hrest.ne_nil, List.mem_flatMap] at hm ⊢
  obtain ⟨path, hpath, hm⟩ := hm
  have hunder : Under path m := under_told hnamed hrest _ m hm
  obtain ⟨hkeeps, target, htarget, rfl⟩ := Route.keeps_reached hnamed hlead hkept
    (Route.asks_trimmed hloose) (.inl ⟨rfl, Route.begins_trimmed hopened⟩) hpath hunder
  refine ⟨target.path, hkeeps, ?_⟩
  rw [htarget.descend_start] at hm ⊢
  exact keeps_told hnamed hfinite hrest hm (clear_of_kept hnamed hlead hkept htarget)

end Head

/-- A literal in front is a part of the pattern. -/
theorem Segment.exists_append_of_head {pattern text : Text} {width : Nat} {rest : List Segment}
    (h : ofPattern pattern = .literal text width :: rest) : ∃ more, pattern = text ++ more := by
  refine ⟨rest.flatMap Segment.text, ?_⟩
  rw [← flat_ofPattern pattern, h]
  rfl

namespace Expansion

/-- **A path is still told** if nothing fails at it, above it or at the root. -/
theorem keeps_ofPattern (hnamed : tree.Named) (hfinite : tree.Finite) {anchored : Anchored}
    (hroot : anchored.root ≠ []) (hopen : Text.closed anchored.pattern = false)
    (hopened : Text.opened (Text.dropOpening anchored.pattern) = false)
    (hclear : ∀ asked, anchored.Concerns m asked → listFault asked = none ∧ probeFault asked = none)
    (hm : m ∈ told tree (Segment.ofPattern anchored.pattern)
      (start anchored.root (Segment.ofPattern anchored.pattern))) :
    m ∈ told (tree.failing listFault probeFault) (Segment.ofPattern anchored.pattern)
      (start anchored.root (Segment.ofPattern anchored.pattern)) := by
  obtain ⟨lead, hlead, hstart⟩ := exists_lead anchored.root (Segment.ofPattern anchored.pattern)
  have hkept : ∀ place, Place.Stands anchored.root lead (¬ Undoubled anchored.pattern) place →
      Under place.path m → listFault place.dir = none ∧ probeFault place.dir = none :=
    fun place hplace hunder => hclear _ (hplace.along hroot hlead hunder)
  rw [hstart] at hm ⊢
  rcases Segment.ofPattern_cases anchored.pattern with h | h | ⟨text, width, rest, h, hrest⟩
  · rw [h] at hm
    simp [told] at hm
  · exact keeps_told hnamed hfinite h hm (clear_of_kept hnamed hlead hkept (.inl rfl))
  · -- What is asked for first is a part of the pattern.
    obtain ⟨more, hmore⟩ := Segment.exists_append_of_head h
    have hloose : ¬ ¬ Undoubled anchored.pattern → Undoubled text := by
      intro hpattern hdouble
      rw [not_not, hmore] at hpattern
      exact hpattern (hdouble.trans (List.prefix_append text more).isInfix)
    have hbegins : Text.opened (Text.dropOpening text) = false := by
      rw [hmore] at hopened
      exact Text.opened_dropOpening_left hopened
    rw [h] at hm ⊢
    rcases hrest with rfl | hrest
    · have hwhole : text = anchored.pattern := by
        rw [← Segment.flat_ofPattern anchored.pattern, h]
        simp [Segment.text]
      rw [told] at hm ⊢
      have hasks := Route.asks_ofText (hwhole ▸ hopen) hloose
      exact (Route.keeps_reached hnamed hlead hkept hasks
        (.inl ⟨rfl, Route.begins_ofText hbegins⟩) hm (.refl m)).1
    · exact keeps_head hnamed hlead hkept hfinite hrest hloose hbegins hm

end Expansion

/-! ## The whole walk -/

/-- **Faults take away what they concern.** In a tree of finite depth with
listings of names, and before a listener that refuses nothing, the paths handed
over with faults are some of those handed over without, in the same order. Every
path is among them for which no question fails at the root, at the path, or above
it, also as it is spelled where the pattern has two separators in a row. -/
theorem glob_failing {listener : Listener} (hnamed : tree.Named) (hfinite : tree.Finite)
    (hwilling : listener.Willing) (listFault probeFault : Text → Option IoFault)
    (pattern root : Text) :
    ((tree.failing listFault probeFault).glob listener pattern root).found.Sublist
        (tree.glob listener pattern root).found ∧
      ∀ m ∈ (tree.glob listener pattern root).found,
        (∀ asked, (Anchored.of pattern root).Concerns m asked →
          listFault asked = none ∧ probeFault asked = none) →
        m ∈ ((tree.failing listFault probeFault).glob listener pattern root).found := by
  cases hread : Segment.read (Anchored.of pattern root).pattern with
  | error e =>
    rw [found_of_error hwilling hread, found_of_error hwilling hread]
    exact ⟨.refl [], fun m hm => absurd hm (by simp)⟩
  | ok segments =>
    rw [found_of_read hnamed hfinite hwilling hread,
      found_of_read hnamed.failing hfinite.failing hwilling hread]
    obtain ⟨rfl, -⟩ := Segment.read_eq_ok.1 hread
    refine ⟨Expansion.thins_ofPattern hnamed hfinite _ _, fun m hm hclear => ?_⟩
    rw [mem_handed] at hm ⊢
    refine ⟨?_, by simp⟩
    exact Expansion.keeps_ofPattern hnamed hfinite (Anchored.root_ne_nil pattern root)
      (Anchored.open_of pattern root) (Anchored.opened_of pattern root) hclear hm.1

theorem glob_failing_sibling :
    (((ListingTable.tree ⟨[("./".toList, ["a".toList, "b".toList]), ("./a".toList, ["x".toList])],
        []⟩).failing (fun path => if path = "./a".toList then some ⟨.other, "broken"⟩ else none)
        fun _ => none).glob (fun _ _ => none) "**".toList []).found.Sublist
      ((ListingTable.tree ⟨[("./".toList, ["a".toList, "b".toList]), ("./a".toList, ["x".toList])],
        []⟩).glob (fun _ _ => none) "**".toList []).found ∧
      "b".toList ∈ (((ListingTable.tree ⟨[("./".toList, ["a".toList, "b".toList]),
        ("./a".toList, ["x".toList])], []⟩).failing
        (fun path => if path = "./a".toList then some ⟨.other, "broken"⟩ else none)
        fun _ => none).glob (fun _ _ => none) "**".toList []).found := by
  have hnamed : (ListingTable.tree ⟨[("./".toList, ["a".toList, "b".toList]),
      ("./a".toList, ["x".toList])], []⟩).Named := ListingTable.tree_named (by decide)
  have hroot : (Anchored.of "**".toList []).root = "./".toList := by decide +kernel
  have hpattern : Undoubled (Anchored.of "**".toList []).pattern := by decide +kernel
  obtain ⟨hsublist, hkeeps⟩ := glob_failing hnamed (ListingTable.tree_finite hnamed)
    (fun _ _ => rfl : Listener.Willing fun _ _ => none)
    (fun path => if path = "./a".toList then some ⟨.other, "broken"⟩ else none) (fun _ => none)
    "**".toList []
  refine ⟨hsublist, hkeeps _ (by decide +kernel) fun asked hasked => ⟨if_neg ?_, rfl⟩⟩
  rintro rfl
  rcases hasked with (h | h | ⟨_, ⟨-, rest, h⟩, -⟩) | ⟨h, -⟩
  · rw [hroot] at h
    exact absurd h (by decide)
  · rw [hroot] at h
    exact absurd h (by decide)
  · have hsep : '/' ∈ "b".toList := by simp [h]
    exact absurd hsep (by decide)
  · exact h hpattern

/-- Without the last spelling the way to a path is not clear: behind two
separators `a` is listed as `./a/`, which is neither the full path of `a/b` nor
that of `a`. -/
theorem glob_failing_doubled :
    ¬ ∀ (tree : Tree) (listener : Listener), tree.Named → tree.Finite → listener.Willing →
      ∀ (listFault probeFault : Text → Option IoFault) (pattern root : Text),
        ((tree.failing listFault probeFault).glob listener pattern root).found.Sublist
            (tree.glob listener pattern root).found ∧
          ∀ m ∈ (tree.glob listener pattern root).found,
            (∀ asked, Place.Along (Anchored.of pattern root).root m asked →
              listFault asked = none ∧ probeFault asked = none) →
            m ∈ ((tree.failing listFault probeFault).glob listener pattern root).found := by
  intro h
  have hnamed : (ListingTable.tree ⟨[("./".toList, ["a".toList]), ("./a".toList, ["b".toList]),
      ("./a/".toList, ["b".toList])], ["./a".toList, "./a/".toList, "./a/b".toList]⟩).Named :=
    ListingTable.tree_named (by decide)
  have hroot : (Anchored.of "a//**".toList []).root = "./".toList := by decide +kernel
  obtain ⟨-, hkeeps⟩ := h _ (fun _ _ => none) hnamed (ListingTable.tree_finite hnamed)
    (fun _ _ => rfl) (fun path => if path = "./a/".toList then some ⟨.other, "broken"⟩ else none)
    (fun _ => none) "a//**".toList []
  refine absurd (hkeeps "a/b".toList (by decide +kernel) fun asked hasked => ⟨if_neg ?_, rfl⟩)
    (by decide +kernel)
  rintro rfl
  rw [hroot] at hasked
  rcases hasked with h | h | ⟨above, habove, h⟩
  · exact absurd h (by decide)
  · exact absurd h (by decide)
  · obtain rfl := @Text.eq_of_above above "a".toList "b".toList (by decide) (by decide) habove
    exact absurd h (by decide)

end PathGlob
