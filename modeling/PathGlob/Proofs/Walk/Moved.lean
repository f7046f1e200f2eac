/-
Plain names may be moved from the front of a pattern to its root.

The two walks differ most where they begin. The names written in front of a pattern are
a literal, alone or with one that the pattern begins with, and the walk asks for them at
once with all that is plain behind them. With the names as the root it asks for what the
pattern asks for. From the place that both come to, everything goes alike
(`Expansion.echoes_advance`).

If nothing is at the names, the one walk is told so and the other finds its root empty.
If there is something and nothing inside, they differ where only ends are wanted: then
the names are an end of the one walk and the root of the other.
-/
import PathGlob.Proofs.Walk.Twins
import PathGlob.Walk.Listener

set_option autoImplicit false

namespace PathGlob

open Text (SolidNames)
open Segment (Alternating)
open Walk (Echoes)

/-- A text that begins with no separator begins with a name. -/
theorem Text.exists_first {text : Text} (hne : text ≠ []) (hopened : opened text = false) :
    ∃ part rest, components text = part :: rest ∧ IsName part := by
  obtain ⟨part, rest, hparts⟩ := List.exists_cons_of_ne_nil (List.splitOn_ne_nil '/' text)
  have hcomponents : components text = part :: rest := hparts
  refine ⟨part, rest, hcomponents, ?_, notMem_of_mem_components (hcomponents ▸ List.mem_cons_self)⟩
  rintro rfl
  have hjoin := join_components text
  rw [hcomponents] at hjoin
  cases rest with
  | nil => exact hne hjoin.symm
  | cons next rest =>
    rw [← hjoin, join_eq_spell, spell_cons [] (List.cons_ne_nil next rest)] at hopened
    exact absurd hopened (by simp [opened])

/-! ## Routes -/

namespace Route

variable {names : List Text} {text : Text}

/-- Plain components are gathered in front of a route, whatever comes in front of them. -/
theorem gather_front (plain parts : List Text) :
    ∃ more next, next.Proper ∧
      ∀ front, gather (front ++ plain) parts = closeRun (front ++ (plain ++ more)) next := by
  induction parts generalizing plain with
  | nil => exact ⟨[], .here, trivial, fun front => by rw [gather, List.append_nil]⟩
  | cons part rest ih =>
    by_cases hplain : Mask.isPlain part = true
    · obtain ⟨more, next, hnext, hgather⟩ := ih (plain ++ [part])
      refine ⟨part :: more, next, hnext, fun front => ?_⟩
      rw [gather, if_pos hplain, List.append_assoc, hgather, List.append_assoc]
      rfl
    · refine ⟨[], .choose part (gather [] rest), proper_gather [] rest, fun front => ?_⟩
      rw [gather, if_neg hplain, List.append_nil]

theorem gather_plain {front : List Text} (hfront : ∀ part ∈ front, Mask.isPlain part = true)
    (plain parts : List Text) : gather plain (front ++ parts) = gather (plain ++ front) parts := by
  induction front generalizing plain with
  | nil => rw [List.append_nil]; rfl
  | cons part rest ih =>
    rw [List.forall_mem_cons] at hfront
    rw [List.cons_append, gather, if_pos hfront.1, ih hfront.2, List.append_assoc]
    rfl

theorem isPlain_of_mem (h : SolidNames names) : ∀ name ∈ names, Mask.isPlain name = true :=
  fun name hname => (h.solid name hname).plain

/-- The route of the names alone. -/
theorem ofText_names (h : SolidNames names) :
    ofText (spell '/' false names) = .probe (spell '/' false names) .here := by
  have hall := gather_plain (isPlain_of_mem h) [] []
  rw [List.append_nil, List.nil_append] at hall
  have hjoin : Text.join names ≠ [] := by
    rw [Text.join_eq_spell]
    exact h.spell_ne_nil false
  rw [ofText, Text.dropOpening_eq_self (Text.opened_spell h.isName),
    Text.components_spell h.ne_nil h.isName, hall, gather, closeRun_eq hjoin, Text.join_eq_spell]

/-- **The route of a text with the names in front** asks for what the text would ask for
first, joined to the names, or for the names alone where the text begins with a mask. -/
theorem ofText_front (h : SolidNames names) (hne : text ≠ []) (hopened : Text.opened text = false) :
    (∃ path next, path ≠ [] ∧ Text.opened path = false ∧ Proper next ∧
        ofText text = .probe path next ∧
        ofText (spell '/' true names ++ text) = .probe (spell '/' true names ++ path) next) ∨
      ∃ mask next, Proper next ∧ ofText text = .choose mask next ∧
        ofText (spell '/' true names ++ text) =
          .probe (spell '/' false names) (.choose mask next) := by
  have hall : ofText (spell '/' true names ++ text) = gather names (Text.components text) := by
    rw [ofText, Text.dropOpening_eq_self (h.opened_append true text),
      Segment.components_front h.isName, gather_plain (isPlain_of_mem h)]
    rfl
  obtain ⟨part, rest, hcomponents, hpart⟩ := Text.exists_first hne hopened
  rw [hall, ofText, Text.dropOpening_eq_self hopened, hcomponents, gather, gather]
  by_cases hplain : Mask.isPlain part = true
  · left
    obtain ⟨more, next, hnext, hgather⟩ := gather_front [part] rest
    have hopenedJoin : Text.opened (Text.join ([part] ++ more)) = false := by
      rw [Text.join_eq_spell]
      exact Text.opened_append hpart _
    have hjoin : Text.join ([part] ++ more) ≠ [] := by
      rw [Text.join_eq_spell, List.singleton_append, spell]
      simp [hpart.1]
    have hboth : Text.join (names ++ ([part] ++ more)) =
        spell '/' true names ++ Text.join ([part] ++ more) := by
      rw [Text.join_eq_spell, Text.join_eq_spell, spell_append]
      rfl
    have halone := hgather []
    rw [List.nil_append, List.nil_append] at halone
    rw [if_pos hplain, if_pos hplain, List.nil_append, halone, hgather, closeRun_eq hjoin,
      closeRun_eq (hboth ▸ List.append_ne_nil_of_right_ne_nil _ hjoin), hboth]
    exact ⟨_, next, hjoin, hopenedJoin, hnext, rfl, rfl⟩
  · right
    have hjoin : Text.join names ≠ [] := by
      rw [Text.join_eq_spell]
      exact h.spell_ne_nil false
    rw [if_neg hplain, if_neg hplain, closeRun_eq hjoin, Text.join_eq_spell]
    exact ⟨part, _, proper_gather [] rest, rfl, rfl⟩

end Route

/-! ## The beginning -/

section Start

variable {t : PathTree} {names : List Text} {text : Text} (ht : t.Sound) (h : SolidNames names)

/-- Where the walk starts that is told of the names. -/
def Place.here : Place := ⟨['.', '/'], []⟩

theorem Place.child_here (path : Text) : here.child path = ⟨'.' :: '/' :: path, path⟩ := rfl

theorem Place.descend_here {path : Text} (hne : path ≠ []) (hopened : Text.opened path = false) :
    here.descend path = ⟨'.' :: '/' :: path, path⟩ := by
  have hdrop : path.drop here.path.length = path := rfl
  rw [descend, hdrop, Text.joinPath, if_neg (by simpa using hne), hopened,
    if_neg Bool.false_ne_true]
  rfl

include h in
theorem Place.descend_inner {path : Text} (hne : path ≠ []) (hopened : Text.opened path = false) :
    (inner names []).descend path = inner names path := by
  have hdrop : path.drop (inner names []).path.length = path := rfl
  have hclosed : Text.closed (spell '/' true names) = true := Text.closed_spell h.ne_nil h.isName
  rw [descend, hdrop, Text.joinPath, if_neg (by simpa using hne), hopened,
    if_neg Bool.false_ne_true, inner, inner, Text.joinName_front hclosed]
  rfl

include h in
theorem PathTree.key_inner_nil : key (Place.inner names []).dir = names := by
  rw [← key_outer h, key_outer_nil h]

include ht h

/-- **The first route** is followed alike, with the names in front of its text and without. -/
theorem Route.echoes_ofText {rel : Text → Text → Prop} {reach reach' : Text → Walk (List Text)}
    (hreach : ∀ path, path ≠ [] → Text.opened path = false →
      Echoes t.tree (spell '/' true names ++ ·) (List.Forall₂ rel)
        (reach (spell '/' true names ++ path)) (reach' path))
    (hne : text ≠ []) (hopened : Text.opened text = false) :
    Echoes t.tree (spell '/' true names ++ ·) (List.Forall₂ rel)
      ((ofText (spell '/' true names ++ text)).follow reach .here)
      ((ofText text).follow reach' (.inner names [])) := by
  rcases ofText_front h hne hopened with ⟨path, next, hpath, hpathOpened, hnext, hroute, hfront⟩ |
    ⟨mask, next, hnext, hroute, hfront⟩
  · rw [hroute, hfront]
    unfold follow
    rw [Place.child_here, ← Place.outer_of_ne_nil hpath, Place.child_inner h]
    refine (Walk.echoes_probe ((Place.twins_names h).probe t path) rfl).bind ?_
    rintro _ _ ⟨rfl, rfl⟩
    split
    · exact echoes_follow ht (Place.twins_names h) hreach hnext hpathOpened fun hnil => absurd hnil hpath
    · exact .done .nil
  · -- The names are asked for first. Where nothing is at them the inner root is empty.
    have hprobe := (Place.twins_names h).probe t []
    rw [PathTree.key_inner_nil h] at hprobe
    rw [hroute, hfront]
    refine Walk.echoes_probe' hprobe ?_
    cases hhas : t.has names with
    | true =>
      show Echoes _ _ _ ((Route.choose mask next).follow reach (.outer names []))
        ((Route.choose mask next).follow reach' (.inner names []))
      exact echoes_follow ht (Place.twins_names h) hreach hnext rfl fun _ => ⟨trivial, by simp⟩
    | false =>
      have hnone : t.tree.list (Place.inner names []).dir = .ok [] := by
        show Except.ok (t.namesIn (PathTree.key (Place.inner names []).dir)) = _
        rw [PathTree.key_inner_nil h, ht.namesIn_of_not_has h.ne_nil hhas]
      exact Walk.echoes_list' hnone (.done .nil)

namespace Expansion

omit ht h in
/-- What is left of a text without the separators that bound it is something, and begins
as the text does. -/
theorem trimmed_of_not_opened (hne : text ≠ []) (hopened : Text.opened text = false) :
    Text.trimmed text ≠ [] ∧ Text.opened (Text.trimmed text) = false ∧
      Text.trimmed text = Text.dropClosing text := by
  have htrimmed : Text.trimmed text = Text.dropClosing text := by
    rw [Text.trimmed, Text.dropOpening_eq_self hopened]
    split
    · rfl
    · obtain ⟨c, rest, rfl⟩ := List.exists_cons_of_ne_nil hne
      have hrest : rest = [] := by
        cases rest with
        | nil => rfl
        | cons d rest => simp_all
      have hopen : Text.closed [c] = false := by
        subst hrest
        exact hopened
      rw [hrest, Text.dropClosing, hopen, if_neg Bool.false_ne_true]
  rw [htrimmed, Text.dropClosing]
  split
  · rename_i hclosed
    obtain ⟨front, rfl⟩ := Text.exists_of_closed hclosed
    rw [List.dropLast_concat]
    refine ⟨?_, Text.opened_left hopened, rfl⟩
    rintro rfl
    exact absurd hopened (by decide)
  · exact ⟨hne, hopened, rfl⟩

omit ht in
theorem trimmed_front (hne : text ≠ []) (hopened : Text.opened text = false) :
    Text.trimmed (spell '/' true names ++ text) = spell '/' true names ++ Text.trimmed text := by
  have hall : spell '/' true names ++ text ≠ [] := List.append_ne_nil_of_right_ne_nil _ hne
  rw [(trimmed_of_not_opened hall (h.opened_append true text)).2.2,
    (trimmed_of_not_opened hne hopened).2.2, Text.dropClosing, Text.dropClosing,
    Text.closed_append hne]
  split
  · rw [List.dropLast_append_of_ne_nil hne]
  · rfl

/-- A literal alone. -/
theorem echoes_whole (once : Bool) (depth width width' : Nat) (hne : text ≠ [])
    (hopened : Text.opened text = false) :
    Echoes t.tree (spell '/' true names ++ ·) (fun _ _ => True)
      (advance once depth [.literal (spell '/' true names ++ text) width] .here)
      (advance once depth [.literal text width'] (.inner names [])) := by
  have hreach : ∀ path, path ≠ [] → Text.opened path = false →
      Echoes t.tree (spell '/' true names ++ ·) (List.Forall₂ fun _ _ : Text => True)
        ((report once (spell '/' true names ++ path)).bind fun _ => Walk.done [])
        ((report once path).bind fun _ => Walk.done []) :=
    fun path _ _ => (Walk.echoes_report once path).bind fun _ _ _ => .done .nil
  rw [advance, advance]
  exact (Route.echoes_ofText ht h hreach hne hopened).bind fun _ _ _ => .done trivial

/-- A literal with a wildcard behind it. -/
theorem echoes_head (once : Bool) (depth width width' : Nat) {rest : List Segment}
    (hrest : Alternating rest) (hne : text ≠ []) (hopened : Text.opened text = false) :
    Echoes t.tree (spell '/' true names ++ ·) (fun _ _ => True)
      (advance once depth (.literal (spell '/' true names ++ text) width :: rest) .here)
      (advance once depth (.literal text width' :: rest) (.inner names [])) := by
  obtain ⟨htrimmed, htrimmedOpened, -⟩ := trimmed_of_not_opened hne hopened
  have hreach : ∀ path, path ≠ [] → Text.opened path = false →
      Echoes t.tree (spell '/' true names ++ ·)
        (List.Forall₂ fun told path =>
          told = spell '/' true names ++ path ∧ path ≠ [] ∧ Text.opened path = false)
        (Walk.done [spell '/' true names ++ path]) (Walk.done [path]) :=
    fun path hpath hpathOpened => .done (.cons ⟨rfl, hpath, hpathOpened⟩ .nil)
  rw [advance_literal hrest.ne_nil, advance_literal hrest.ne_nil, trimmed_front h hne hopened]
  refine (Route.echoes_ofText ht h hreach htrimmed htrimmedOpened).bind fun told paths hpaths => ?_
  refine Walk.echoes_each (hpaths.imp ?_)
  rintro _ path ⟨rfl, hpath, hpathOpened⟩
  have hfront := List.append_ne_nil_of_right_ne_nil (spell '/' true names) hpath
  rw [Place.descend_here hfront (h.opened_append true path),
    Place.descend_inner h hpath hpathOpened, ← Place.outer_of_ne_nil hpath]
  exact echoes_advance ht (Place.twins_names h) once depth hrest hpathOpened fun hnil => absurd hnil hpath

omit ht in
/-- Where nothing is listed nothing comes from a wildcard. -/
theorem echoes_nothing (once : Bool) (depth : Nat) {segments : List Segment}
    (hsegments : Alternating segments) (hnone : t.namesIn names = []) :
    Echoes t.tree (spell '/' true names ++ ·) (fun _ _ => True) (Walk.done ())
      (advance once (depth + 1) segments (.inner names [])) := by
  have hlist : t.tree.list (Place.inner names []).dir = .ok [] := by
    rw [← PathTree.key_inner_nil h] at hnone
    exact congrArg Except.ok hnone
  have hsweep : ∀ {literal : Text} {wanted : Nat} {hit : Place → Walk Unit},
      Echoes t.tree (spell '/' true names ++ ·) (fun _ _ => True) (Walk.done ())
        (sweep literal wanted hit (depth + 1) (.inner names []) [] 0) :=
    Walk.echoes_list' hlist (.done trivial)
  cases hsegments with
  | wild stars =>
    rw [advance]
    exact Walk.echoes_list' hlist (.done trivial)
  | literal stars text width =>
    rw [advance]
    exact hsweep
  | more stars text width hrest =>
    rw [advance]
    exact hsweep

/-- The names alone in front of a wildcard. -/
theorem echoes_names (once : Bool) (depth width : Nat) {segments : List Segment}
    (hsegments : Alternating segments)
    (hinside : names ∈ t.entries → (∃ stars, segments = [.wild stars]) → t.namesIn names ≠ []) :
    Echoes t.tree (spell '/' true names ++ ·) (fun _ _ => True)
      (advance once (depth + 1) (.literal (spell '/' true names) width :: segments) .here)
      (advance once (depth + 1) segments (.inner names [])) := by
  have hopened : Text.opened (spell '/' true names) = false := Text.opened_spell h.isName
  have htrimmed : Text.trimmed (spell '/' true names) = spell '/' false names := by
    have hclosed : Text.closed (spell '/' true names) = true := Text.closed_spell h.ne_nil h.isName
    rw [(trimmed_of_not_opened (h.spell_ne_nil true) hopened).2.2, Text.dropClosing, hclosed,
      if_pos rfl, spell_true h.ne_nil, List.dropLast_concat]
  have hprobe := (Place.twins_names h).probe t []
  rw [PathTree.key_inner_nil h] at hprobe
  rw [advance_literal hsegments.ne_nil, htrimmed, Route.ofText_names h]
  unfold Route.follow
  show Echoes _ _ _ (((Walk.probe (Place.outer names [])).bind _).bind _) _
  rw [Walk.bind_assoc]
  refine Walk.echoes_probe' hprobe ?_
  cases hhas : t.has names with
  | false => exact echoes_nothing h once depth hsegments (ht.namesIn_of_not_has h.ne_nil hhas)
  | true =>
    have hentry : names ∈ t.entries := (PathTree.has_iff.1 hhas).resolve_left h.ne_nil
    have hdescend : Place.here.descend (spell '/' false names) = .outer names [] :=
      Place.descend_here (h.spell_ne_nil false) (Text.opened_spell h.isName)
    show Echoes _ _ _ ((advance once (depth + 1) segments
      (Place.here.descend (spell '/' false names))).bind fun _ => .done ()) _
    rw [Walk.bind_done, hdescend]
    refine echoes_advance ht (Place.twins_names h) once (depth + 1) hsegments rfl fun _ hwild => ?_
    rw [PathTree.key_inner_nil h]
    exact .inr (hinside hentry hwild)

/-- **The segments of a pattern** with the names in front and without. -/
theorem echoes_ofPattern (once : Bool) (depth width : Nat) {pattern : Text} (hne : pattern ≠ [])
    (hopened : Text.opened pattern = false)
    (hends : (∃ text width, .literal text width ∈ Segment.ofPattern pattern) ∨
      ¬ (names ∈ t.entries ∧ t.IsEnd names)) :
    Echoes t.tree (spell '/' true names ++ ·) (fun _ _ => True)
      (advance once (depth + 1)
        (Segment.withFront (spell '/' true names) width (Segment.ofPattern pattern)) .here)
      (advance once (depth + 1) (Segment.ofPattern pattern) (.inner names [])) := by
  rcases Segment.ofPattern_cases pattern with hnil | hfrom | ⟨text, width', rest, hliteral, hrest⟩
  · have hflat := Segment.flat_ofPattern pattern
    rw [hnil] at hflat
    exact absurd hflat.symm hne
  · obtain ⟨stars, rest, hwild⟩ := hfrom.head
    have hfront : Segment.withFront (spell '/' true names) width (Segment.ofPattern pattern) =
        .literal (spell '/' true names) width :: Segment.ofPattern pattern := by
      rw [hwild]
      rfl
    rw [hfront]
    refine echoes_names ht h once depth width hfrom fun hentry halone => ?_
    -- With a wildcard alone there is no literal, so the names are no end.
    obtain ⟨stars', halone⟩ := halone
    rw [Ne, PathTree.namesIn_eq_nil]
    refine fun hend => (hends.resolve_left ?_) ⟨hentry, hend⟩
    rintro ⟨text, width', hmem⟩
    rw [halone] at hmem
    simp at hmem
  · have hopenedText : Text.opened text = false := Segment.opened_first hliteral hopened
    have htext : (Segment.literal text width').text ≠ [] :=
      @Segment.text_ne_nil pattern _ (hliteral ▸ List.mem_cons_self)
    rw [hliteral]
    rcases hrest with rfl | hrest
    · exact echoes_whole ht h once (depth + 1) width width' htext hopenedText
    · exact echoes_head ht h once (depth + 1) width width' hrest htext hopenedText

end Expansion

end Start

/-! ## The whole walk -/

/-- What is written in front of the first segment is no wildcard. -/
theorem Segment.repeats_withFront (front : Text) (width : Nat) (segments : List Segment) :
    Expansion.repeats (withFront front width segments) = Expansion.repeats segments := by
  cases segments with
  | nil => rfl
  | cons first rest => cases first <;> simp [withFront, Expansion.repeats, isWild]

/-- A pattern that begins with no separator puts none in front of what is told. -/
theorem Expansion.start_of_not_opened (root : Text) {pattern : Text}
    (hopened : Text.opened pattern = false) :
    start root (Segment.ofPattern pattern) = ⟨root, []⟩ := by
  cases hsegments : Segment.ofPattern pattern with
  | nil => rfl
  | cons first rest =>
    rw [start, List.head?_cons, Option.any_some, Segment.opened_first hsegments hopened,
      if_neg Bool.false_ne_true]

theorem Walk.glob_of_read (depth : Nat) {pattern root text dir : Text} {segments : List Segment}
    (hanchored : Anchored.of pattern root = ⟨text, dir⟩) (hread : Segment.read text = .ok segments) :
    Walk.glob depth pattern root = (Walk.tell (.root dir)).bind fun _ =>
      Expansion.advance (Expansion.repeats segments) depth segments
        (Expansion.start dir segments) := by
  rw [Walk.glob, hanchored]
  dsimp only
  rw [hread]
  rfl

theorem Walk.glob_eq (depth : Nat) {pattern root text dir : Text} {segments : List Segment}
    (hanchored : Anchored.of pattern root = ⟨text, dir⟩) (hopened : Text.opened text = false)
    (hread : Segment.read text = .ok segments) :
    Walk.glob depth pattern root = (Walk.tell (.root dir)).bind fun _ =>
      Expansion.advance (Expansion.repeats segments) depth segments ⟨dir, []⟩ := by
  obtain ⟨rfl, -⟩ := Segment.read_eq_ok.1 hread
  rw [Walk.glob_of_read depth hanchored hread, Expansion.start_of_not_opened dir hopened]

/-- A listener that follows a policy counts what it is told and does not read it. -/
theorem ListenerPolicy.follows (policy : ListenerPolicy) (root otherRoot : Text)
    (spelt : Text → Text) :
    policy.listener.Follows policy.listener root otherRoot spelt := by
  refine ⟨rfl, fun paths path => ?_⟩
  have hcount : (Listener.after root (paths.map spelt)).countP (·.isFound) =
      (Listener.after otherRoot paths).countP (·.isFound) := by
    simp [Listener.after, List.countP_map, Function.comp_def, Notice.isFound]
  simp only [listener, hcount]

/-- What is heard of the whole walks. -/
theorem echoesRun_glob {t : PathTree} (ht : t.Sound) {names : List Text} (h : SolidNames names)
    {pattern : Text} {segments : List Segment} (hne : pattern ≠ [])
    (hopened : Text.opened pattern = false) (hdots : Lexical.dotPart pattern = [])
    (hread : Segment.read pattern = .ok segments)
    (hends : (∃ text width, .literal text width ∈
        Segment.ofPattern (Anchored.withEverythingBelow pattern)) ∨
      ¬ (names ∈ t.entries ∧ t.IsEnd names))
    {listener other : Listener}
    (hfollows : listener.Follows other ['.', '/'] (spell '/' true names)
      (spell '/' true names ++ ·)) :
    Walk.EchoesRun (spell '/' true names ++ ·) (fun _ _ => True)
      (t.tree.glob listener (spell '/' true names ++ pattern) [])
      (t.tree.glob other pattern (spell '/' false names)) := by
  have hbelow := Anchored.withEverythingBelow_ne_nil hne
  have hbelowOpened := Anchored.opened_withEverythingBelow hne hopened
  obtain ⟨others, hothers⟩ := Segment.read_withEverythingBelow hread
  obtain ⟨width, hfront⟩ := Segment.read_front h hbelowOpened hothers
  obtain ⟨rfl, -⟩ := Segment.read_eq_ok.1 hothers
  have houter := Walk.glob_eq t.tree.depth (Anchored.of_front h hne) (h.opened_append true _) hfront
  have hinner := Walk.glob_eq t.tree.depth (Anchored.of_root h hne hopened hdots) hbelowOpened
    hothers
  rw [Tree.glob, Tree.glob, houter, hinner, Segment.repeats_withFront]
  refine Walk.Echoes.run_root ?_ (List.append_right_injective _) hfollows
  have hechoes := Expansion.echoes_ofPattern ht h
    (Expansion.repeats (Segment.ofPattern (Anchored.withEverythingBelow pattern))) t.height width
    hbelow hbelowOpened hends
  rwa [Place.inner, List.append_nil] at hechoes

/-- **Plain names may be moved from the front of a pattern to its root.** In the tree of
some paths, before listeners that answer alike, the walk with the names in front of the
pattern ends as the walk with the names as its root does, and it finds the same paths in
the same order with the names in front. The names have to be more than dots and stand for
themselves, the pattern must begin neither with a separator nor with dots for its root,
and either it has a literal or the names are no end of the tree. -/
theorem glob_moved (paths : List Text) {names : List Text} (hnames : SolidNames names)
    {pattern : Text} {segments : List Segment} (hne : pattern ≠ [])
    (hopened : Text.opened pattern = false) (hdots : Lexical.dotPart pattern = [])
    (hread : Segment.read pattern = .ok segments)
    (hends : (∃ text width, .literal text width ∈
        Segment.ofPattern (Anchored.of pattern (Text.join names)).pattern) ∨
      ¬ (names ∈ (PathTree.ofPaths paths).entries ∧ (PathTree.ofPaths paths).IsEnd names))
    {listener other : Listener}
    (hfollows : listener.Follows other ['.', '/'] (Text.join names ++ ['/'])
      fun path => Text.join names ++ '/' :: path) :
    ((PathTree.ofPaths paths).tree.glob listener (Text.join names ++ '/' :: pattern) []).ending =
        ((PathTree.ofPaths paths).tree.glob other pattern (Text.join names)).ending ∧
      ((PathTree.ofPaths paths).tree.glob listener (Text.join names ++ '/' :: pattern) []).found =
        ((PathTree.ofPaths paths).tree.glob other pattern (Text.join names)).found.map
          fun path => Text.join names ++ '/' :: path := by
  have hspelt : ∀ path, Text.join names ++ '/' :: path = spell '/' true names ++ path := by
    intro path
    rw [spell_true hnames.ne_nil, List.append_assoc, Text.join_eq_spell]
    rfl
  have hroot : Text.join names ++ ['/'] = spell '/' true names :=
    (hspelt []).trans (List.append_nil _)
  rw [hroot] at hfollows
  simp only [hspelt] at hfollows ⊢
  rw [Text.join_eq_spell, Anchored.of_root hnames hne hopened hdots] at hends
  rw [Text.join_eq_spell]
  obtain ⟨hending, hfound⟩ :=
    echoesRun_glob (PathTree.sound_ofPaths paths) hnames hne hopened hdots hread hends hfollows
  exact ⟨hending.eq, hfound⟩

/-- Both runs find the one match and are stopped there. -/
theorem glob_moved_stopped :
    SolidNames ["d".toList, "e".toList] ∧
      (((PathTree.ofPaths ["d/e/b".toList, "b".toList]).tree.glob
            (ListenerPolicy.mk none (some 1) true).listener "d/e/**/b".toList []).ending =
          ((PathTree.ofPaths ["d/e/b".toList, "b".toList]).tree.glob
            (ListenerPolicy.mk none (some 1) true).listener "**/b".toList "d/e".toList).ending ∧
        ((PathTree.ofPaths ["d/e/b".toList, "b".toList]).tree.glob
            (ListenerPolicy.mk none (some 1) true).listener "d/e/**/b".toList []).found =
          ((PathTree.ofPaths ["d/e/b".toList, "b".toList]).tree.glob
            (ListenerPolicy.mk none (some 1) true).listener "**/b".toList "d/e".toList).found.map
            fun path => "d/e".toList ++ '/' :: path) ∧
      ((PathTree.ofPaths ["d/e/b".toList, "b".toList]).tree.glob
          (ListenerPolicy.mk none (some 1) true).listener "**/b".toList "d/e".toList).found =
        ["b".toList] := by
  have hnames : SolidNames ["d".toList, "e".toList] := by decide +kernel
  have hread : Segment.read "**/b".toList = .ok
      [.wild "**/".toList, .literal "b".toList 1] := by decide +kernel
  have hanchored : (Anchored.of "**/b".toList (Text.join ["d".toList, "e".toList])).pattern =
      "**/b".toList := by decide +kernel
  obtain ⟨hsegments, -⟩ := Segment.read_eq_ok.1 hread
  refine ⟨hnames, ?_, by cbv⟩
  refine glob_moved _ hnames (by decide) (by decide) (by decide) hread (.inl ?_) ?_
  · rw [hanchored, ← hsegments]
    exact ⟨"b".toList, 1, by simp⟩
  · exact ListenerPolicy.follows _ _ _ _

end PathGlob
