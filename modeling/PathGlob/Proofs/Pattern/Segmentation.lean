/-
The law of segmentation, for any pattern that can be read.

Runs of one mark become segments, one for one, so a place in the pattern is a
place in exactly one segment. `Segmented` is what the marks come to then, said
of texts alone: the segments written one after another are the pattern, the
wildcards hold all components of stars and nothing but these and separators, and
separators stand where matching and walking expect them.
-/
import PathGlob.Proofs.Pattern.Pieces

set_option autoImplicit false

namespace PathGlob

namespace Segment

/-- What is known of the segments of a pattern. -/
structure Segmented (pattern : Text) (segments : List Segment) : Prop where
  /-- Written one after another they are the pattern. -/
  texts : segments.flatMap text = pattern
  /-- Literals and wildcards alternate. -/
  alternate : segments.IsChain fun segment next => segment.isWild ≠ next.isWild
  /-- A component of stars lies inside a wildcard. -/
  stars_wild : ∀ {before part after : Text}, pattern = before ++ part ++ after →
    Text.Bounded before part after → Stars part →
    ∃ pre wild post front back, segments = pre ++ .wild wild :: post ∧
      before = pre.flatMap text ++ front ∧ wild = front ++ part ++ back ∧
        after = back ++ post.flatMap text
  /-- A wildcard holds nothing but components of stars and separators. -/
  wild_stars : ∀ {pre post : List Segment} {wild front part back : Text},
    segments = pre ++ .wild wild :: post → wild = front ++ part ++ back →
    Text.Bounded front part back → part ≠ [] →
    Stars part ∧ Text.Bounded (pre.flatMap text ++ front) part (back ++ post.flatMap text)
  /-- A wildcard holds some component of stars. -/
  exists_stars : ∀ {pre post : List Segment} {wild : Text}, segments = pre ++ .wild wild :: post →
    ∃ front part back, wild = front ++ part ++ back ∧ Text.Bounded front part back ∧ Stars part
  /-- A literal in front of a wildcard ends with a separator. -/
  literal_closed : ∀ {pre post : List Segment} {literal wild : Text} {width : Nat},
    segments = pre ++ .literal literal width :: .wild wild :: post → Text.closed literal = true
  /-- Only the first segment can be a wildcard that begins with a separator. -/
  wild_opened : ∀ {pre post : List Segment} {wild : Text}, segments = pre ++ .wild wild :: post →
    Text.opened wild = true → pre = []
  /-- Every wildcard but the last segment ends with a separator. -/
  wild_closed : ∀ {pre post : List Segment} {wild : Text} {next : Segment},
    segments = pre ++ .wild wild :: next :: post → Text.closed wild = true
  /-- No components are counted for one bare separator, and for no other literal. -/
  width : ∀ {literal : Text} {width : Nat}, .literal literal width ∈ segments →
    (width = 0 ↔ literal = ['/'])

/-! ## The runs of a pattern -/

/-- The runs a pattern is made of. -/
def groups (pattern : Text) : List (Bool × List Text) := runs (markWild true (pieces pattern))

/-- The texts of some runs. -/
def flat (groups : List (Bool × List Text)) : Text := groups.flatMap fun group => group.2.flatten

theorem flat_eq_flatten (groups : List (Bool × List Text)) :
    flat groups = ((unrun groups).map Prod.snd).flatten := by
  induction groups with
  | nil => rfl
  | cons group more ih =>
    obtain ⟨kind, run⟩ := group
    rw [unrun_cons, List.map_append, map_snd_marked, List.flatten_append, ← ih]
    rfl

section Groups

variable {pattern : Text} {front back : List (Bool × List Text)} {kind : Bool} {run : List Text}

theorem unrun_groups (pattern : Text) : unrun (groups pattern) = markWild true (pieces pattern) :=
  unrun_runs _

theorem flat_groups (pattern : Text) : flat (groups pattern) = pattern := by
  rw [flat_eq_flatten, unrun_groups, map_snd_markWild, flatten_pieces]

theorem marks_eq (h : groups pattern = front ++ (kind, run) :: back) :
    markWild true (pieces pattern) = unrun front ++ (run.map (kind, ·) ++ unrun back) := by
  rw [← unrun_groups, h, unrun_append, unrun_cons]

theorem pieces_eq (h : groups pattern = front ++ (kind, run) :: back) :
    pieces pattern =
      (unrun front).map Prod.snd ++ (run ++ (unrun back).map Prod.snd) := by
  rw [← map_snd_markWild true (pieces pattern), marks_eq h, List.map_append, List.map_append,
    map_snd_marked]

theorem unrun_ne_nil (h : ∀ group ∈ back, group.2 ≠ []) (hne : back ≠ []) : unrun back ≠ [] := by
  obtain ⟨group, more, rfl⟩ := List.exists_cons_of_ne_nil hne
  have hgroup := h group List.mem_cons_self
  simp [unrun, hgroup]

variable (h : groups pattern = front ++ (kind, run) :: back)

include h

theorem run_ne_nil : run ≠ [] := by
  apply runs_ne_nil (markWild true (pieces pattern)) (kind, run)
  rw [← groups, h]
  simp

theorem pieced_run : Pieced run := by
  have hpieces := pieced_pieces pattern
  rw [pieces_eq h] at hpieces
  exact hpieces.right.left

/-- The text in front of a run is empty or closed. -/
theorem closed_front : flat front = [] ∨ Text.closed (flat front) = true := by
  have hpieces := pieced_pieces pattern
  rw [pieces_eq h] at hpieces
  rw [flat_eq_flatten]
  by_cases hne : (unrun front).map Prod.snd = []
  · rw [hne]
    exact .inl rfl
  · exact .inr (hpieces.closed_flatten hne (by simp [run_ne_nil h]))

/-- A run with another one behind it is closed. -/
theorem closed_run (hback : back ≠ []) : Text.closed run.flatten = true := by
  have hpieces := pieced_pieces pattern
  rw [pieces_eq h] at hpieces
  have hgroups : ∀ group ∈ back, group.2 ≠ [] := by
    intro group hgroup
    apply runs_ne_nil (markWild true (pieces pattern))
    rw [← groups, h]
    simp [hgroup]
  exact hpieces.right.closed_flatten (run_ne_nil h) (by simpa using unrun_ne_nil hgroups hback)

/-- What is a component of a run is one of the pattern. -/
theorem bounded_run {before part after : Text} (hrun : run.flatten = before ++ part ++ after)
    (hpart : Text.Bounded before part after) (hne : part ≠ []) :
    Text.Bounded (flat front ++ before) part (after ++ flat back) where
  notMem := hpart.notMem
  before := by
    rcases hpart.before with rfl | hclosed
    · rw [List.append_nil]
      exact closed_front h
    · right
      rw [Text.closed_append (by rintro rfl; simp [Text.closed] at hclosed), hclosed]
  after := by
    rcases hpart.after with rfl | hopened
    · -- With nothing behind it in its run the part is open, so no run follows.
      left
      rw [List.append_nil] at hrun
      by_contra hback
      have hclosed := closed_run h (by rintro rfl; exact hback rfl)
      rw [hrun, Text.closed_append hne, Text.closed, beq_iff_eq] at hclosed
      exact hpart.notMem (List.mem_of_getLast? hclosed)
    · right
      obtain ⟨tail, rfl⟩ := Text.exists_of_opened hopened
      rfl

/-- A piece of stars belongs to a wildcard. -/
theorem kind_of_stars {piece : Text} (hpiece : piece ∈ run) (hstars : isStars piece = true) :
    kind = true := by
  obtain ⟨first, last, rfl⟩ := List.append_of_mem hpiece
  have hmarks := marks_eq h
  rw [List.map_append, List.map_cons, List.append_assoc, List.cons_append,
    ← List.append_assoc] at hmarks
  rw [mark_eq hmarks, hstars, Bool.true_or]

theorem kind_front : ∀ group ∈ front.getLast?, group.1 ≠ kind := by
  intro group hgroup
  have hchain := isChain_runs (markWild true (pieces pattern))
  rw [← groups, h, List.isChain_append] at hchain
  exact hchain.2.2 group hgroup (kind, run) rfl

theorem kind_back : ∀ group ∈ back.head?, kind ≠ group.1 := by
  intro group hgroup
  have hchain := isChain_runs (markWild true (pieces pattern))
  rw [← groups, h] at hchain
  exact (List.isChain_cons.1 hchain.right_of_append).1 group hgroup

end Groups

/-! ## Runs of wildcards -/

section Wild

variable {pattern : Text} {front back : List (Bool × List Text)} {run : List Text}
  (h : groups pattern = front ++ (true, run) :: back)

include h

/-- A piece of a wildcard is stars, or a bare separator that begins the pattern or
its wildcard. -/
theorem stars_or_bare {first last : List Text} {piece : Text} (hrun : run = first ++ piece :: last) :
    isStars piece = true ∨
      (((unrun front ++ first.map (true, ·)).getLast?.map Prod.fst).getD true = true ∧
        piece = ['/'] ∧ ((last.map (true, ·) ++ unrun back).head?.map Prod.snd).any isStars = true) := by
  have hmarks := marks_eq h
  rw [hrun, List.map_append, List.map_cons, List.append_assoc, List.cons_append,
    ← List.append_assoc] at hmarks
  have hmark := (mark_eq hmarks).symm
  rw [Bool.or_eq_true, Bool.and_eq_true, Bool.and_eq_true, beq_iff_eq, and_assoc] at hmark
  exact hmark

/-- Some piece of a wildcard is stars. -/
theorem exists_stars_run : ∃ first piece last, run = first ++ piece :: last ∧ isStars piece = true := by
  obtain ⟨piece, last, rfl⟩ := List.exists_cons_of_ne_nil (run_ne_nil h)
  rcases stars_or_bare h (show piece :: last = [] ++ piece :: last from rfl) with
    hstars | ⟨-, -, hnext⟩
  · exact ⟨[], piece, last, rfl, hstars⟩
  · -- The stars behind the bare separator cannot begin a run of their own.
    cases last with
    | cons next last => exact ⟨[piece], next, last, rfl, hnext⟩
    | nil =>
      exfalso
      cases back with
      | nil => cases hnext
      | cons group back =>
        obtain ⟨kind, other⟩ := group
        have hother : groups pattern = (front ++ [(true, [piece])]) ++ (kind, other) :: back := by
          rw [h, List.append_assoc, List.singleton_append]
        obtain ⟨next, more, rfl⟩ := List.exists_cons_of_ne_nil (run_ne_nil hother)
        have hkind := kind_of_stars hother List.mem_cons_self hnext
        exact kind_back h (kind, next :: more) rfl hkind.symm

/-- Only the first run can be a wildcard that begins with a separator. -/
theorem not_opened_run (hfront : front ≠ []) : Text.opened run.flatten = false := by
  obtain ⟨piece, last, rfl⟩ := List.exists_cons_of_ne_nil (run_ne_nil h)
  rcases stars_or_bare h (show piece :: last = [] ++ piece :: last from rfl) with
    hstars | ⟨hbefore, -⟩
  · obtain ⟨part, closed, rfl, hpart⟩ := (show Pieced ([] ++ piece :: last) from pieced_run h).exists_part
    have hname := isName_of_stars (stars_of_isStars hpart.notMem closed hstars)
    rw [List.flatten_cons, List.append_assoc]
    exact Text.opened_append hname _
  · -- The run in front is a literal, and a separator there does not begin a
    -- wildcard.
    exfalso
    obtain ⟨init, ⟨kind, other⟩, rfl⟩ := (List.eq_nil_or_concat' front).resolve_left hfront
    have hother : groups pattern = init ++ (kind, other) :: (true, piece :: last) :: back := by
      rw [h, List.append_assoc, List.singleton_append]
    obtain ⟨others, edge, rfl⟩ := (List.eq_nil_or_concat' other).resolve_left (run_ne_nil hother)
    have hkind : kind = true := by simpa [unrun] using hbefore
    exact kind_front h (kind, others ++ [edge]) (by simp) hkind

end Wild

/-! ## Segments -/

theorem text_ofRun (opening : Bool) (group : Bool × List Text) :
    (ofRun opening group).text = group.2.flatten := by
  obtain ⟨kind, run⟩ := group
  cases kind <;> rfl

theorem isWild_ofRun (opening : Bool) (group : Bool × List Text) :
    (ofRun opening group).isWild = group.1 := by
  obtain ⟨kind, run⟩ := group
  cases kind <;> rfl

/-- Every run is a segment. -/
theorem ofPattern_eq (pattern : Text) :
    ofPattern pattern = (groups pattern).mapIdx fun i => ofRun (i == 0) := by
  rw [ofPattern, groups]
  cases runs (markWild true (pieces pattern)) with
  | nil => rfl
  | cons group more =>
    have hmore : more.map (ofRun false) = more.mapIdx fun i => ofRun (i + 1 == 0) :=
      List.ext_getElem (by simp) (by simp)
    rw [List.mapIdx_cons, ← hmore]
    rfl

theorem flatMap_text {groups : List (Bool × List Text)} (opening : Nat → Bool) :
    (groups.mapIdx fun i => ofRun (opening i)).flatMap text = flat groups := by
  induction groups generalizing opening with
  | nil => rfl
  | cons group more ih =>
    rw [List.mapIdx_cons, List.flatMap_cons, text_ofRun, ih fun i => opening (i + 1)]
    rfl

theorem flat_ofPattern (pattern : Text) : (ofPattern pattern).flatMap text = pattern := by
  rw [ofPattern_eq, flatMap_text, flat_groups]

/-- Neighbouring segments are of different kinds. -/
theorem isChain_ofPattern (pattern : Text) :
    (ofPattern pattern).IsChain fun segment next => segment.isWild ≠ next.isWild := by
  have hkinds : (ofPattern pattern).map isWild = (groups pattern).map Prod.fst := by
    rw [ofPattern_eq]
    exact List.ext_getElem (by simp) (by simp [isWild_ofRun])
  have hchain := isChain_runs (markWild true (pieces pattern))
  rw [← groups, ← List.isChain_map (R := (· ≠ ·)) Prod.fst, ← hkinds, List.isChain_map] at hchain
  exact hchain

/-- Segments from a wildcard on, literals and wildcards in turn. -/
inductive Alternating : List Segment → Prop
  | wild (stars : Text) : Alternating [.wild stars]
  | literal (stars text : Text) (width : Nat) : Alternating [.wild stars, .literal text width]
  | more (stars text : Text) (width : Nat) {rest : List Segment} : Alternating rest →
    Alternating (.wild stars :: .literal text width :: rest)

theorem Alternating.head {segments : List Segment} (h : Alternating segments) :
    ∃ stars rest, segments = .wild stars :: rest := by
  cases h <;> exact ⟨_, _, rfl⟩

theorem Alternating.ne_nil {segments : List Segment} (h : Alternating segments) : segments ≠ [] := by
  obtain ⟨stars, rest, rfl⟩ := h.head
  simp

theorem alternating_of_isChain (stars : Text) : ∀ {rest : List Segment},
    (Segment.wild stars :: rest).IsChain (fun segment next => segment.isWild ≠ next.isWild) →
    Alternating (.wild stars :: rest)
  | [], _ => .wild stars
  | .wild _ :: _, h => absurd rfl (List.isChain_cons_cons.1 h).1
  | [.literal _ _], _ => .literal stars _ _
  | .literal _ _ :: .literal _ _ :: _, h =>
    absurd rfl (List.isChain_cons_cons.1 (List.isChain_cons_cons.1 h).2).1
  | .literal _ _ :: .wild stars' :: _, h =>
    .more stars _ _ (alternating_of_isChain stars' (List.isChain_cons_cons.1
      (List.isChain_cons_cons.1 h).2).2)

/-- The segments of a pattern are such, or have one literal in front of them. -/
theorem ofPattern_cases (pattern : Text) :
    ofPattern pattern = [] ∨ Alternating (ofPattern pattern) ∨
      ∃ text width rest, ofPattern pattern = .literal text width :: rest ∧
        (rest = [] ∨ Alternating rest) := by
  have hchain := isChain_ofPattern pattern
  cases hsegments : ofPattern pattern with
  | nil => exact .inl rfl
  | cons first rest =>
    rw [hsegments] at hchain
    right
    cases first with
    | wild stars => exact .inl (alternating_of_isChain stars hchain)
    | literal text width =>
      refine .inr ⟨text, width, rest, rfl, ?_⟩
      cases rest with
      | nil => exact .inl rfl
      | cons next rest =>
        rw [List.isChain_cons_cons] at hchain
        cases next with
        | literal _ _ => exact absurd rfl hchain.1
        | wild stars => exact .inr (alternating_of_isChain stars hchain.2)

section Segments

variable {pattern : Text} {pre post : List Segment}

/-- A segment is made of a run, and what stands in front of it and behind it of
the runs there. -/
theorem exists_run {segment : Segment} (h : ofPattern pattern = pre ++ segment :: post) :
    ∃ front group back, groups pattern = front ++ group :: back ∧
      segment = ofRun front.isEmpty group ∧ pre.flatMap text = flat front ∧
        post.flatMap text = flat back ∧ pre.length = front.length ∧ post.length = back.length := by
  rw [ofPattern_eq, List.mapIdx_eq_append_iff] at h
  obtain ⟨front, rest, hgroups, rfl, hrest⟩ := h
  obtain ⟨group, back, rfl, rfl, rfl⟩ := List.mapIdx_eq_cons_iff.1 hrest
  refine ⟨front, group, back, hgroups, ?_, flatMap_text _, flatMap_text _, by simp, by simp⟩
  cases front <;> rfl

/-- The run of a wildcard. -/
theorem exists_wild_run {wild : Text} (h : ofPattern pattern = pre ++ .wild wild :: post) :
    ∃ front run back, groups pattern = front ++ (true, run) :: back ∧ wild = run.flatten ∧
      pre.flatMap text = flat front ∧ post.flatMap text = flat back ∧
        pre.length = front.length := by
  obtain ⟨front, ⟨kind, run⟩, back, hgroups, hsegment, hpre, hpost, hlen, -⟩ := exists_run h
  cases kind with
  | false => cases hsegment
  | true => exact ⟨front, run, back, hgroups, Segment.wild.inj hsegment, hpre, hpost, hlen⟩

/-- The segment of a run of wildcards. -/
theorem exists_wild_segment {front back : List (Bool × List Text)} {run : List Text}
    (h : groups pattern = front ++ (true, run) :: back) :
    ∃ pre post, ofPattern pattern = pre ++ .wild run.flatten :: post ∧
      pre.flatMap text = flat front ∧ post.flatMap text = flat back := by
  rw [ofPattern_eq, h, List.mapIdx_append, List.mapIdx_cons]
  exact ⟨_, _, rfl, flatMap_text _, flatMap_text fun i => i + 1 + front.length == 0⟩

/-- Every segment but the last ends with a separator. -/
theorem closed_text {segment next : Segment} (h : ofPattern pattern = pre ++ segment :: next :: post) :
    Text.closed segment.text = true := by
  obtain ⟨front, ⟨kind, run⟩, back, hgroups, rfl, -, -, -, hlen⟩ := exists_run h
  rw [text_ofRun]
  apply closed_run hgroups
  rintro rfl
  simp at hlen

/-- The count of a literal run is zero for one bare separator alone. -/
theorem span_eq_zero {opening : Bool} {run : List Text} (h : ∀ piece ∈ run, piece ≠ [])
    (hne : run ≠ []) : span opening run = 0 ↔ run.flatten = ['/'] := by
  by_cases hbare : run = [['/']]
  · subst hbare
    exact iff_of_true (by simp [span]) rfl
  · obtain ⟨piece, rest, rfl⟩ := List.exists_cons_of_ne_nil hne
    refine iff_of_false ?_ ?_
    · intro hzero
      rw [span, if_neg (by simpa using hbare)] at hzero
      split at hzero
      · rename_i hopening
        rw [Bool.and_eq_true, beq_iff_eq] at hopening
        obtain rfl : piece = ['/'] := Option.some.inj hopening.2
        obtain rfl : rest = [] := List.length_eq_zero_iff.1 (by simpa using hzero)
        exact hbare rfl
      · simp at hzero
    · intro hflat
      obtain ⟨hpiece, hrest⟩ := List.forall_mem_cons.1 h
      rw [List.flatten_cons, List.append_eq_singleton_iff] at hflat
      rcases hflat with ⟨hnil, -⟩ | ⟨rfl, hnil⟩
      · exact hpiece hnil
      · rw [List.flatten_eq_nil_iff] at hnil
        apply hbare
        rw [List.eq_nil_iff_forall_not_mem.2 fun other hother => hrest other hother (hnil other hother)]

theorem width_eq_zero {literal : Text} {width : Nat}
    (h : Segment.literal literal width ∈ ofPattern pattern) : width = 0 ↔ literal = ['/'] := by
  obtain ⟨pre, post, hsplit⟩ := List.append_of_mem h
  obtain ⟨front, ⟨kind, run⟩, back, hgroups, hsegment, -⟩ := exists_run hsplit
  cases kind with
  | true => cases hsegment
  | false =>
    obtain ⟨rfl, rfl⟩ := Segment.literal.inj hsegment
    exact span_eq_zero (pieced_run hgroups).ne_nil (run_ne_nil hgroups)

/-- A component of stars lies in a wildcard. -/
theorem exists_wild_of_stars {before part after : Text} (hsplit : pattern = before ++ part ++ after)
    (hpart : Text.Bounded before part after) (hstars : Stars part) :
    ∃ pre wild post front back, ofPattern pattern = pre ++ .wild wild :: post ∧
      before = pre.flatMap text ++ front ∧ wild = front ++ part ++ back ∧
        after = back ++ post.flatMap text := by
  have hname := isName_of_stars hstars
  have hflat := flatten_pieces pattern
  obtain ⟨front, back, closed, hpieces, rfl, rfl⟩ :=
    (pieced_pieces pattern).exists_piece (hflat.trans hsplit) hpart hname.1
  have hmarks : (unrun (groups pattern)).map Prod.snd =
      front ++ (part ++ if closed then ['/'] else []) :: back := by
    rw [unrun_groups, map_snd_markWild, hpieces]
  obtain ⟨marksFront, rest, hunrun, rfl, hrest⟩ := List.map_eq_append_iff.1 hmarks
  obtain ⟨⟨mark, piece⟩, marksBack, rfl, hpiece, rfl⟩ := List.map_eq_cons_iff.1 hrest
  obtain ⟨groupsFront, groupsBack, first, last, hgroups, rfl, rfl⟩ := exists_group hunrun
  obtain rfl : piece = part ++ if closed then ['/'] else [] := hpiece
  -- The piece is stars, so its run is a wildcard.
  obtain rfl : mark = true := kind_of_stars hgroups (by simp) (isStars_of_stars hstars closed)
  obtain ⟨pre, post, hsegments, hpre, hpost⟩ := exists_wild_segment hgroups
  refine ⟨pre, _, post, first.flatten, (if closed then ['/'] else []) ++ last.flatten, hsegments,
    ?_, ?_, ?_⟩
  · rw [hpre, flat_eq_flatten, List.map_append, map_snd_marked, List.flatten_append]
  · simp
  · rw [hpost, flat_eq_flatten, List.map_append, map_snd_marked, List.flatten_append,
      List.append_assoc]

/-- A wildcard holds nothing but components of stars, and they are components of
the pattern. -/
theorem stars_of_wild {wild front part back : Text}
    (h : ofPattern pattern = pre ++ .wild wild :: post) (hwild : wild = front ++ part ++ back)
    (hpart : Text.Bounded front part back) (hne : part ≠ []) :
    Stars part ∧ Text.Bounded (pre.flatMap text ++ front) part (back ++ post.flatMap text) := by
  obtain ⟨groupsFront, run, groupsBack, hgroups, rfl, hpre, hpost, -⟩ := exists_wild_run h
  rw [hpre, hpost]
  refine ⟨?_, bounded_run hgroups hwild hpart hne⟩
  obtain ⟨first, last, closed, hrun, -, -⟩ := (pieced_run hgroups).exists_piece hwild hpart hne
  apply stars_of_isStars hpart.notMem closed
  refine (stars_or_bare hgroups hrun).resolve_right fun hbare => ?_
  -- A bare separator holds no component.
  have hhead := Text.opened_append ⟨hne, hpart.notMem⟩ (if closed then ['/'] else [])
  rw [hbare.2.1] at hhead
  simp [Text.opened] at hhead

/-- A wildcard holds a component of stars. -/
theorem exists_stars_of_wild {wild : Text} (h : ofPattern pattern = pre ++ .wild wild :: post) :
    ∃ front part back, wild = front ++ part ++ back ∧ Text.Bounded front part back ∧ Stars part := by
  obtain ⟨groupsFront, run, groupsBack, hgroups, rfl, -⟩ := exists_wild_run h
  obtain ⟨first, piece, last, rfl, hstars⟩ := exists_stars_run hgroups
  obtain ⟨part, closed, rfl, hpart⟩ := (pieced_run hgroups).exists_part
  exact ⟨_, part, _, by simp, hpart, stars_of_isStars hpart.notMem closed hstars⟩

/-- Only in front of everything can a wildcard begin with a separator. -/
theorem eq_nil_of_opened {wild : Text} (h : ofPattern pattern = pre ++ .wild wild :: post)
    (hopened : Text.opened wild = true) : pre = [] := by
  obtain ⟨front, run, back, hgroups, rfl, -, -, hlen⟩ := exists_wild_run h
  by_contra hne
  have hfront : front ≠ [] := by
    rintro rfl
    exact hne (List.length_eq_zero_iff.1 hlen)
  rw [not_opened_run hgroups hfront] at hopened
  cases hopened

end Segments

/-- **The law of segmentation** holds of every pattern that can be read. -/
theorem segmented_of_read {pattern : Text} {segments : List Segment}
    (h : read pattern = .ok segments) : Segmented pattern segments := by
  obtain ⟨rfl, -⟩ := read_eq_ok.1 h
  exact {
    texts := flat_ofPattern pattern
    alternate := isChain_ofPattern pattern
    stars_wild := exists_wild_of_stars
    wild_stars := stars_of_wild
    exists_stars := exists_stars_of_wild
    literal_closed := closed_text
    wild_opened := eq_nil_of_opened
    wild_closed := closed_text
    width := width_eq_zero }

theorem segmented_of_read_doubled :
    Segmented "/**//**/a//***".toList
      [.wild "/**//**/".toList, .literal "a//".toList 2, .wild "***".toList] :=
  segmented_of_read (by decide +kernel)

end Segment

end PathGlob
