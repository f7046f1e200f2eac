/-
Where a path leads, apart from how it is spelled.

Whatever a path holds, in the end it climbs so many directories and then goes down by
names. This is its `Course`. Two paths one after the other are one course after the
other (`of_append`), and that is the only place where names are taken back: each climb
of the second undoes one name of the first.

A cleaned path is its course written down (`clean_eq`), with the climbs left out where
the path is rooted, for there is nothing above the root. The draft that cleaning works
on is at any time the text of a course together with the length of its climbs
(`step_draft`). Everything else about cleaning follows without looking into the text
again: two paths are cleaned to the same exactly when they agree on the root and lead
to the same place from there (`clean_eq_clean_iff`), a cleaned path is not changed by
cleaning it, and it makes no difference whether the front of a path has been cleaned
before.
-/
import PathGlob.Lexical.Clean
import PathGlob.Proofs.Lexical.Dots

set_option autoImplicit false

namespace PathGlob

namespace Lexical

open Text (IsName)

/-- The piece of a path that leads one directory up. -/
def up : Text := ['.', '.']

/-- So many directories up, then down by names. -/
structure Course where
  ups : Nat
  names : List Text
  deriving DecidableEq

namespace Course

/-- The course that stays where it is. -/
def here : Course := ⟨0, []⟩

/-- The course with one more piece of a path. -/
def step (c : Course) (piece : Text) : Course :=
  if piece = [] ∨ piece = ['.'] then c
  else if piece = up then
    if c.names = [] then ⟨c.ups + 1, []⟩ else ⟨c.ups, c.names.dropLast⟩
  else ⟨c.ups, c.names ++ [piece]⟩

/-- Where a path leads. -/
def of (path : Text) : Course := (Text.components path).foldl step here

/-- One course after another. The climbs of the second take names of the first back,
and those that find none left go up from where the first began. -/
instance : Append Course where
  append a b :=
    ⟨a.ups + (b.ups - a.names.length), a.names.take (a.names.length - b.ups) ++ b.names⟩

/-! ## One after another -/

theorem ups_append (a b : Course) : (a ++ b).ups = a.ups + (b.ups - a.names.length) := rfl

theorem names_append (a b : Course) :
    (a ++ b).names = a.names.take (a.names.length - b.ups) ++ b.names := rfl

theorem append_here (a : Course) : a ++ here = a := by
  show (⟨a.ups + (0 - a.names.length), a.names.take (a.names.length - 0) ++ []⟩ : Course) = a
  simp

theorem here_append (a : Course) : here ++ a = a := by
  show (⟨0 + (a.ups - 0), [].take (0 - a.ups) ++ a.names⟩ : Course) = a
  simp

theorem step_of_blank (c : Course) {piece : Text} (h : piece = [] ∨ piece = ['.']) :
    c.step piece = c := if_pos h

theorem step_up (c : Course) :
    c.step up = if c.names = [] then ⟨c.ups + 1, []⟩ else ⟨c.ups, c.names.dropLast⟩ := by
  rw [step, if_neg (by decide), if_pos rfl]

theorem step_name (c : Course) {piece : Text} (hblank : ¬ (piece = [] ∨ piece = ['.']))
    (hup : piece ≠ up) : c.step piece = ⟨c.ups, c.names ++ [piece]⟩ := by
  rw [step, if_neg hblank, if_neg hup]

/-- A climb behind two courses is one behind the second of them. -/
theorem append_step_up (a b : Course) : a ++ b.step up = (a ++ b).step up := by
  rw [step_up, step_up, names_append, ups_append]
  by_cases hb : b.names = []
  · rw [if_pos hb, hb, List.append_nil]
    show (⟨a.ups + (b.ups + 1 - a.names.length),
      a.names.take (a.names.length - (b.ups + 1)) ++ []⟩ : Course) = _
    -- The first course has a name for it or none.
    by_cases hleft : a.names.length ≤ b.ups
    · have htake : a.names.length - b.ups = 0 := by omega
      have htake' : a.names.length - (b.ups + 1) = 0 := by omega
      rw [htake, htake', List.take_zero, if_pos rfl, mk.injEq]
      exact ⟨by omega, rfl⟩
    · have hne : a.names.take (a.names.length - b.ups) ≠ [] := by
        rw [ne_eq, List.take_eq_nil_iff, ← List.length_eq_zero_iff]
        omega
      have hmin : min (a.names.length - b.ups - 1) (a.names.length - b.ups) =
          a.names.length - (b.ups + 1) := by omega
      have hlength : min (a.names.length - b.ups) a.names.length = a.names.length - b.ups := by omega
      rw [if_neg hne, List.dropLast_eq_take, List.take_take, List.length_take, hlength, hmin,
        List.append_nil, mk.injEq]
      exact ⟨by omega, rfl⟩
  · have hne : a.names.take (a.names.length - b.ups) ++ b.names ≠ [] := by simp [hb]
    rw [if_neg hb, if_neg hne, List.dropLast_append_of_ne_nil hb]
    rfl

/-- The last piece of the second course is the last piece of both. -/
theorem append_step (a b : Course) (piece : Text) : a ++ b.step piece = (a ++ b).step piece := by
  by_cases hblank : piece = [] ∨ piece = ['.']
  · rw [step_of_blank _ hblank, step_of_blank _ hblank]
  · by_cases hup : piece = up
    · rw [hup]
      exact append_step_up a b
    · rw [step_name _ hblank hup, step_name _ hblank hup, names_append, List.append_assoc]
      rfl

theorem foldl_append (pieces : List Text) (a b : Course) :
    pieces.foldl step (a ++ b) = a ++ pieces.foldl step b := by
  induction pieces generalizing b with
  | nil => rfl
  | cons piece rest ih => rw [List.foldl_cons, List.foldl_cons, ← append_step, ih]

/-- **Two paths one after the other** are one course after the other. -/
theorem of_append (a b : Text) : of (a ++ '/' :: b) = of a ++ of b := by
  rw [of, Text.components, List.splitOn_append_cons_self, List.foldl_append]
  show (Text.components b).foldl step (of a) = _
  nth_rewrite 1 [← append_here (of a)]
  exact foldl_append _ _ _

theorem of_nil : of [] = here := by cbv

theorem of_separator (path : Text) : of ('/' :: path) = of path := by
  have happend := of_append [] path
  rwa [of_nil, here_append] at happend

/-! ## The text of a course -/

/-- What is left of a course behind a root: above it there is nothing to climb to. -/
def kept (rooted : Bool) (c : Course) : Course := ⟨if rooted then 0 else c.ups, c.names⟩

/-- The climbs that are written down. -/
def climbs (rooted : Bool) (c : Course) : List Text := List.replicate (c.kept rooted).ups up

/-- The course as a path. -/
def spelled (rooted : Bool) (c : Course) : Text :=
  Text.written rooted false (c.climbs rooted ++ c.names)

/-- The path of a course, by which the current directory is a dot. -/
def text (rooted : Bool) (c : Course) : Text :=
  if (c.spelled rooted).isEmpty then ['.'] else c.spelled rooted

/-- The state of cleaning: the path of a course, of which the climbs are fixed. -/
def draft (rooted : Bool) (c : Course) : Draft :=
  ⟨c.spelled rooted, (Text.written rooted false (c.climbs rooted)).length⟩

/-- It goes down by what is neither blank nor a climb. -/
def Named (c : Course) : Prop := ∀ name ∈ c.names, IsName name ∧ name ≠ ['.'] ∧ name ≠ up

theorem named_here : here.Named := by simp [here, Named]

theorem Named.step {c : Course} (h : c.Named) {piece : Text} (hsep : '/' ∉ piece) :
    (c.step piece).Named := by
  by_cases hblank : piece = [] ∨ piece = ['.']
  · rwa [step_of_blank c hblank]
  · by_cases hup : piece = up
    · rw [hup, step_up]
      split
      · exact named_here
      · exact fun name hname => h name (List.mem_of_mem_dropLast hname)
    · rw [not_or] at hblank
      rw [step_name c (not_or.2 hblank) hup]
      refine List.forall_mem_append.2 ⟨h, ?_⟩
      simpa using ⟨⟨hblank.1, hsep⟩, hblank.2, hup⟩

theorem isName_climbs (rooted : Bool) (c : Course) : ∀ part ∈ c.climbs rooted, IsName part := by
  intro part hpart
  rw [List.eq_of_mem_replicate hpart]
  decide

theorem Named.isName {c : Course} (h : c.Named) : ∀ name ∈ c.names, IsName name :=
  fun name hname => (h name hname).1

theorem Named.isName_parts {c : Course} (h : c.Named) (rooted : Bool) :
    ∀ part ∈ c.climbs rooted ++ c.names, IsName part :=
  List.forall_mem_append.2 ⟨c.isName_climbs rooted, h.isName⟩

end Course

/-! ## Drafts -/

section Written

variable {front : Bool} {parts more : List Text}

/-- The parts behind others begin with the separator between the two. -/
theorem written_behind : Text.written front false (parts ++ more) =
    Text.written front false parts ++ Text.written (!parts.isEmpty && !more.isEmpty) false more := by
  rw [Text.written_append]
  cases more with
  | nil => simp [Text.written]
  | cons part more =>
    cases parts with
    | nil => simp [Text.written]
    | cons first parts => simp [Text.written, spell_true]

/-- Above the last of some names are the others. -/
theorem parent_written (hne : parts ≠ []) (hparts : ∀ part ∈ parts, IsName part) :
    Text.parent (Text.written front false parts) =
      Text.written (front && !parts.dropLast.isEmpty) false parts.dropLast := by
  rw [Text.parent, Text.components_written hne hparts, if_neg Bool.false_ne_true, List.append_nil,
    List.dropLast_append_of_ne_nil hne, Text.join_eq_spell, spell_append]
  cases front with
  | false => rfl
  | true =>
    cases parts.dropLast with
    | nil => rfl
    | cons first others => rfl

/-- A piece needs a separator before it as soon as there is another. -/
theorem needsSeparator_written {fixed : Nat} (hparts : ∀ part ∈ parts, IsName part) :
    Draft.needsSeparator front ⟨Text.written front false parts, fixed⟩ = !parts.isEmpty := by
  cases parts with
  | nil => cases front <;> rfl
  | cons part rest =>
    have hne := @Text.spell_ne_nil false _ (List.cons_ne_nil part rest) hparts
    have hlength : (spell '/' false (part :: rest)).length ≠ 0 := by simpa using hne
    cases front with
    | false => simpa [Draft.needsSeparator, Text.written] using hne
    | true => simpa [Draft.needsSeparator, Text.written] using hne

end Written

namespace Course

variable {rooted : Bool} {c : Course}

theorem push_draft (hnamed : c.Named) (piece : Text) :
    (c.draft rooted).push rooted piece = draft rooted ⟨c.ups, c.names ++ [piece]⟩ := by
  have hspelled : spelled rooted ⟨c.ups, c.names ++ [piece]⟩ =
      Text.written rooted true (c.climbs rooted ++ c.names) ++ piece := by
    show Text.written rooted false (c.climbs rooted ++ (c.names ++ [piece])) = _
    rw [← List.append_assoc, Text.written_append, spell_singleton]
    simp
  have hneeds : (c.draft rooted).needsSeparator rooted = !(c.climbs rooted ++ c.names).isEmpty :=
    needsSeparator_written (hnamed.isName_parts rooted)
  rw [Draft.push, hneeds]
  -- What is fixed stays, for the climbs are the same.
  refine congrArg (Draft.mk · _) ?_
  rw [hspelled]
  by_cases hne : c.climbs rooted ++ c.names = []
  · rw [hne, List.isEmpty_nil, Bool.not_true, if_neg Bool.false_ne_true]
    show Text.written rooted false (c.climbs rooted ++ c.names) ++ piece = _
    rw [hne]
    rfl
  · rw [List.isEmpty_eq_false_iff.2 hne, Bool.not_false, if_pos rfl, Text.written_true hne]
    rfl

/-- Something can be taken back exactly when the course has names. -/
theorem draft_lt_iff (hnamed : c.Named) :
    (c.draft rooted).fixed < (c.draft rooted).out.length ↔ c.names ≠ [] := by
  show (Text.written rooted false (c.climbs rooted)).length <
    (Text.written rooted false (c.climbs rooted ++ c.names)).length ↔ _
  rw [written_behind, List.length_append, Nat.lt_add_right_iff_pos, List.length_pos_iff, ne_eq, ne_eq,
    not_iff_not]
  constructor
  · intro h
    by_contra hne
    exact @Text.spell_ne_nil false _ hne hnamed.isName (List.append_eq_nil_iff.1 h).2
  · intro h
    rw [h]
    simp [Text.written]

theorem pop_draft (hnamed : c.Named) (hne : c.names ≠ []) :
    (c.draft rooted).pop = draft rooted ⟨c.ups, c.names.dropLast⟩ := by
  have hout : (c.draft rooted).out = Text.written rooted false (c.climbs rooted) ++
      Text.written (!(c.climbs rooted).isEmpty && !c.names.isEmpty) false c.names := written_behind
  refine congrArg (Draft.mk · _) ?_
  -- Taking back works on the text behind the climbs, which is that of the names.
  show (c.draft rooted).out.take (Text.written rooted false (c.climbs rooted)).length ++
    Text.parent ((c.draft rooted).out.drop (Text.written rooted false (c.climbs rooted)).length) =
      Text.written rooted false (c.climbs rooted ++ c.names.dropLast)
  rw [hout, List.take_left, List.drop_left, parent_written hne hnamed.isName, written_behind,
    List.isEmpty_eq_false_iff.2 hne, Bool.not_false, Bool.and_true]

theorem pushUp_draft (hnames : c.names = []) :
    (c.draft false).pushUp = draft false ⟨c.ups + 1, []⟩ := by
  have hclimbs : climbs false ⟨c.ups + 1, []⟩ = c.climbs false ++ [up] := List.replicate_succ'
  have hout : (c.draft false).out = spell '/' false (c.climbs false) := by
    show spell '/' false (c.climbs false ++ c.names) = _
    rw [hnames, List.append_nil]
  have hpush : (if (c.draft false).out.isEmpty then [] else (c.draft false).out ++ ['/']) ++ up =
      spell '/' false (c.climbs false ++ [up]) := by
    rw [hout, spell_append, spell_singleton]
    by_cases hne : c.climbs false = []
    · rw [hne]
      rfl
    · have hspell := @Text.spell_ne_nil false _ hne (c.isName_climbs false)
      rw [if_neg (by simpa using hspell), List.isEmpty_cons, Bool.not_false, Bool.or_true,
        spell_true hne, if_neg Bool.false_ne_true, List.append_nil]
  show (⟨_, List.length _⟩ : Draft) = ⟨Text.written false false (climbs false ⟨c.ups + 1, []⟩ ++ []),
    (Text.written false false (climbs false ⟨c.ups + 1, []⟩)).length⟩
  rw [List.append_nil, hclimbs, Text.written_false, ← hpush]
  rfl

/-- **One step of cleaning** is one piece more of the course. -/
theorem step_draft (hnamed : c.Named) (piece : Text) :
    Draft.step rooted (c.draft rooted) piece = (c.step piece).draft rooted := by
  rw [Draft.step]
  by_cases hblank : piece = [] ∨ piece = ['.']
  · rw [if_pos (by simpa using hblank), step_of_blank c hblank]
  · rw [if_neg (by simpa using hblank)]
    by_cases hup : piece = up
    · subst hup
      rw [if_pos (by decide), step_up]
      by_cases hnames : c.names = []
      · rw [if_neg (fun hlt => (draft_lt_iff hnamed).1 hlt hnames), if_pos hnames]
        cases rooted with
        | true =>
          -- At the root the climb goes, and it is not written of the course either.
          rw [if_pos rfl]
          show _ = draft true ⟨c.ups + 1, []⟩
          rw [← hnames]
          rfl
        | false => rw [if_neg Bool.false_ne_true, pushUp_draft hnames]
      · rw [if_pos ((draft_lt_iff hnamed).2 hnames), if_neg hnames, pop_draft hnamed hnames]
    · rw [if_neg (by simpa [up] using hup), step_name c hblank hup, push_draft hnamed]

theorem foldl_draft {pieces : List Text} (hpieces : ∀ piece ∈ pieces, '/' ∉ piece)
    (hnamed : c.Named) :
    pieces.foldl (Draft.step rooted) (c.draft rooted) = (pieces.foldl step c).draft rooted := by
  induction pieces generalizing c with
  | nil => rfl
  | cons piece rest ih =>
    obtain ⟨hpiece, hrest⟩ := List.forall_mem_cons.1 hpieces
    rw [List.foldl_cons, List.foldl_cons, step_draft hnamed, ih hrest (hnamed.step hpiece)]

theorem named_foldl {pieces : List Text} (hpieces : ∀ piece ∈ pieces, '/' ∉ piece)
    (hnamed : c.Named) : (pieces.foldl step c).Named := by
  induction pieces generalizing c with
  | nil => exact hnamed
  | cons piece rest ih =>
    obtain ⟨hpiece, hrest⟩ := List.forall_mem_cons.1 hpieces
    exact ih hrest (hnamed.step hpiece)

theorem named_of (path : Text) : (of path).Named :=
  named_foldl (fun _ => Text.notMem_of_mem_components) named_here

theorem mem_of_mem_foldl {pieces : List Text} {name : Text} (c : Course)
    (h : name ∈ (pieces.foldl step c).names) : name ∈ c.names ∨ name ∈ pieces := by
  induction pieces generalizing c with
  | nil => exact .inl h
  | cons piece rest ih =>
    rcases ih _ h with hname | hname
    · rw [step] at hname
      split at hname
      · exact .inl hname
      · split at hname
        · split at hname
          · exact absurd hname (by simp)
          · exact .inl (List.mem_of_mem_dropLast hname)
        · rcases List.mem_append.1 hname with hname | hname
          · exact .inl hname
          · exact .inr (List.mem_cons.2 (.inl (List.mem_singleton.1 hname)))
    · exact .inr (List.mem_cons_of_mem _ hname)

/-- A name of a path is one of its pieces. -/
theorem mem_components_of_mem_names {path name : Text} (h : name ∈ (of path).names) :
    name ∈ Text.components path :=
  (mem_of_mem_foldl here h).resolve_left (by simp [here])

end Course

/-! ## Cleaning -/

/-- **A cleaned path** is the course of the path, written down. -/
theorem clean_eq (path : Text) : clean path = (Course.of path).text (Text.opened path) := by
  have hstart : Draft.start (Text.opened path) = Course.here.draft (Text.opened path) := by
    cases Text.opened path <;> rfl
  have hfold := @Course.foldl_draft (Text.opened path) _ (Text.components path)
    (fun _ => Text.notMem_of_mem_components) Course.named_here
  rw [clean, hstart, hfold]
  rfl

namespace Course

variable {rooted : Bool} {c : Course}

theorem opened_text (hnamed : c.Named) : Text.opened (c.text rooted) = rooted := by
  have hopened : Text.opened (c.spelled rooted) = rooted :=
    Text.opened_written (hnamed.isName_parts rooted)
  rw [text]
  split
  · rename_i hempty
    rw [List.isEmpty_iff.1 hempty] at hopened
    exact hopened
  · exact hopened

theorem foldl_climbs (c : Course) (n : Nat) :
    (List.replicate n up).foldl step ⟨c.ups, []⟩ = ⟨c.ups + n, []⟩ := by
  induction n generalizing c with
  | zero => rfl
  | succ n ih =>
    rw [List.replicate_succ, List.foldl_cons, step_up, if_pos rfl, ih ⟨c.ups + 1, []⟩, mk.injEq]
    exact ⟨by show c.ups + 1 + n = _; omega, rfl⟩

theorem foldl_names {names : List Text}
    (hnames : ∀ name ∈ names, IsName name ∧ name ≠ ['.'] ∧ name ≠ up) (c : Course) :
    names.foldl step c = ⟨c.ups, c.names ++ names⟩ := by
  induction names generalizing c with
  | nil => simp
  | cons name rest ih =>
    obtain ⟨⟨hname, hdot, hup⟩, hrest⟩ := List.forall_mem_cons.1 hnames
    rw [List.foldl_cons, step_name c (not_or.2 ⟨hname.1, hdot⟩) hup, ih hrest, List.append_assoc]
    rfl

/-- **A course that was written down** is read again, as much of it as was kept. -/
theorem of_text (hnamed : c.Named) : of (c.text rooted) = c.kept rooted := by
  by_cases hparts : c.climbs rooted ++ c.names = []
  · obtain ⟨hclimbs, hnames⟩ := List.append_eq_nil_iff.1 hparts
    have hkept : c.kept rooted = here := by
      rw [climbs, List.replicate_eq_nil_iff] at hclimbs
      show (⟨(c.kept rooted).ups, c.names⟩ : Course) = _
      rw [hclimbs, hnames]
      rfl
    rw [hkept, text, spelled, hparts]
    cases rooted <;> cbv
  · have hname := hnamed.isName_parts rooted
    have hspelled : c.spelled rooted ≠ [] := by
      have hne := @Text.spell_ne_nil false _ hparts hname
      simp [spelled, Text.written, hne]
    -- The root is an empty piece in front, and that leads nowhere.
    have hblank : ((if rooted then [[]] else []) : List Text).foldl step here = here := by
      cases rooted <;> rfl
    rw [text, if_neg (by simpa using hspelled), of, spelled, Text.components_written hparts hname,
      if_neg Bool.false_ne_true, List.append_nil, List.foldl_append, hblank, List.foldl_append,
      climbs]
    show c.names.foldl step ((List.replicate _ up).foldl step ⟨here.ups, []⟩) = _
    rw [foldl_climbs here, foldl_names hnamed]
    simp [here, kept]

theorem text_kept (c : Course) : (c.kept rooted).text rooted = c.text rooted := by
  cases rooted <;> rfl

/-- What is kept of two courses can be kept of the first before the second. -/
theorem kept_append (a b : Course) : (a.kept rooted ++ b).kept rooted = (a ++ b).kept rooted := by
  cases rooted <;> rfl

end Course

/-- A path of which nothing is left is a dot. -/
theorem clean_ne_nil (path : Text) : clean path ≠ [] := by
  rw [clean_eq, Course.text]
  split
  · simp
  · rename_i hspelled
    simpa using hspelled

theorem opened_clean (path : Text) : Text.opened (clean path) = Text.opened path := by
  rw [clean_eq, Course.opened_text (Course.named_of path)]

theorem of_clean (path : Text) :
    Course.of (clean path) = (Course.of path).kept (Text.opened path) := by
  rw [clean_eq, Course.of_text (Course.named_of path)]

/-- Two paths are cleaned to the same when both begin at the root, or neither does, and
they lead to the same place from there. -/
theorem clean_eq_clean_iff {a b : Text} : clean a = clean b ↔ Text.opened a = Text.opened b ∧
    (Course.of a).kept (Text.opened a) = (Course.of b).kept (Text.opened b) := by
  constructor
  · intro h
    have hopened := congrArg Text.opened h
    have hcourse := congrArg Course.of h
    rw [opened_clean, opened_clean] at hopened
    rw [of_clean, of_clean] at hcourse
    exact ⟨hopened, hcourse⟩
  · rintro ⟨hopened, hcourse⟩
    rw [clean_eq, clean_eq, ← Course.text_kept, hcourse, ← hopened, Course.text_kept]

/-- **A cleaned path** is clean. -/
theorem clean_clean (path : Text) : clean (clean path) = clean path := by
  rw [clean_eq_clean_iff, opened_clean, of_clean]
  refine ⟨rfl, ?_⟩
  cases Text.opened path <;> rfl

theorem opened_append_of_ne_nil {a : Text} (hne : a ≠ []) (b : Text) :
    Text.opened (a ++ b) = Text.opened a := by
  cases a with
  | nil => exact absurd rfl hne
  | cons c a => rfl

/-- The front of a path may be cleaned before the path is. -/
theorem clean_append {a : Text} (hne : a ≠ []) (b : Text) :
    clean (clean a ++ '/' :: b) = clean (a ++ '/' :: b) := by
  rw [clean_eq_clean_iff, opened_append_of_ne_nil (clean_ne_nil a), opened_append_of_ne_nil hne,
    opened_clean, Course.of_append, Course.of_append, of_clean, Course.kept_append]
  exact ⟨rfl, rfl⟩

end Lexical

end PathGlob
