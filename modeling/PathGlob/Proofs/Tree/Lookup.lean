/-
A path of the tree, looked up as it is spelled.

A tree is built from the names of a path, wherever separators stand, and asked for the
pieces between the separators inside. The two agree on every part of a path that ends
before a separator, whatever stands in front of it and behind (`entryOf_append`), with
one exception. Two separators in a row, behind something that names and before something
that is no separator, are one boundary for the building and an empty piece for the asking
(`nil_mem_key`).

Of a path in the list every such part is therefore found, and the name that comes next is
listed, exactly unless the part is `Doubled` (`ofPaths_finds_iff`).
-/
import PathGlob.Proofs.Tree.Depth

set_option autoImplicit false

namespace PathGlob

/-! ## Parts of a path -/

namespace Text

/-- What may follow a part of a path: nothing, or a separator first. -/
def IsRest (rest : Text) : Prop := rest = [] ∨ opened rest = true

/-- Separators come next, and then the whole of a name. -/
def LeadsTo (rest name : Text) : Prop :=
  ∃ n more, rest = List.replicate (n + 1) '/' ++ (name ++ more) ∧ IsName name ∧ IsRest more

theorem LeadsTo.exists_names {rest name : Text} (h : LeadsTo rest name) :
    ∃ more, names rest = name :: more := by
  obtain ⟨n, more, rfl, hname, hmore⟩ := h
  refine ⟨names more, ?_⟩
  rw [names_separators, names_append (.inr (hmore.imp_right .inr)), names_name hname]
  rfl

theorem LeadsTo.isRest {rest name : Text} (h : LeadsTo rest name) : IsRest rest := by
  obtain ⟨n, more, rfl, -⟩ := h
  exact .inr rfl

end Text

namespace PathTree

open Lexical (Grounded isDotOrSeparator)
open Text (IsName IsRest LeadsTo Undoubled)

/-- In the path two separators are next to each other, behind something that names and
before something that is no separator. -/
def Doubled (path : Text) : Prop :=
  ∃ a b, path = a ++ '/' :: '/' :: b ∧ Speaks a ∧ ∃ c ∈ b, c ≠ '/'

theorem Doubled.speaks {path : Text} (h : Doubled path) : Speaks path := by
  obtain ⟨a, b, rfl, ha, -⟩ := h
  exact ha.append _

/-! ## What is asked for -/

theorem exists_dropSeparators (t : Text) :
    ∃ n, t = List.replicate n '/' ++ dropSeparators t := by
  refine ⟨(t.takeWhile (· == '/')).length, ?_⟩
  have hall : t.takeWhile (· == '/') = List.replicate (t.takeWhile (· == '/')).length '/' :=
    List.eq_replicate_of_mem fun c hc => by simpa using List.mem_takeWhile_imp hc
  rw [← hall]
  exact List.takeWhile_append_dropWhile.symm

theorem opened_dropSeparators (t : Text) : Text.opened (dropSeparators t) = false := by
  have hhead := List.head?_dropWhile_not (· == '/') t
  rw [Text.opened, dropSeparators]
  cases hdrop : t.dropWhile (· == '/') with
  | nil => rfl
  | cons c rest =>
    rw [hdrop] at hhead
    simpa using hhead

/-- A path is what it spells, with dots and separators in front and separators behind. -/
theorem exists_spelled (path : Text) : ∃ run n, path = run ++ spelled path ++ List.replicate n '/' ∧
    Text.opened (spelled path) = false ∧ Text.closed (spelled path) = false := by
  obtain ⟨m, hfront⟩ := exists_dropSeparators (Lexical.withoutDots path)
  obtain ⟨n, hback⟩ := exists_dropSeparators (dropSeparators (Lexical.withoutDots path)).reverse
  have hspelled : dropSeparators (Lexical.withoutDots path) =
      spelled path ++ List.replicate n '/' := by
    rw [List.reverse_eq_iff, List.reverse_append, List.reverse_replicate] at hback
    exact hback
  refine ⟨Lexical.dotPart path ++ List.replicate m '/', n, ?_, ?_, ?_⟩
  · rw [List.append_assoc, List.append_assoc, ← hspelled, ← hfront, Lexical.dotPart_append]
  · refine Text.opened_left (b := List.replicate n '/') ?_
    rw [← hspelled]
    exact opened_dropSeparators _
  · rw [spelled, Text.closed, List.getLast?_reverse]
    exact opened_dropSeparators _

theorem Speaks.grounded {path : Text} (h : Speaks path) : Grounded (Lexical.withoutDots path) := by
  have hnot : ∀ {t : Text}, Lexical.withoutDots path = t → ¬ ∀ d ∈ t, isDotOrSeparator d = true := by
    rintro t ht hall
    obtain ⟨c, hmem, hc⟩ := h
    rw [← Lexical.dotPart_append path, ht, List.mem_append] at hmem
    have hrun := hmem.elim (Lexical.all_dotPart path c) (hall c)
    rw [hc] at hrun
    exact absurd hrun (by decide)
  rcases Lexical.withoutDots_cases path with hnil | hlone | hgrounded
  · exact (hnot hnil (List.forall_mem_nil _)).elim
  · exact (hnot hlone (List.forall_mem_singleton.2 rfl)).elim
  · exact hgrounded

/-- Before a separator in what a path spells there is something that names. -/
theorem Speaks.of_spelled {path a b : Text} (h : Speaks path)
    (hspelled : spelled path = a ++ '/' :: b) : Speaks a := by
  obtain ⟨-, -, -, hopened, -⟩ := exists_spelled path
  obtain ⟨lead, dots, c, rest, hgrounded, hdots, hdot, hsep⟩ := grounded_spelled h.grounded
  have hlead : lead = false := by
    cases lead with
    | false => rfl
    | true =>
      rw [hgrounded] at hopened
      exact Bool.noConfusion hopened
  rw [hlead, if_neg Bool.false_ne_true, List.nil_append] at hgrounded
  rw [hspelled] at hgrounded
  rcases List.append_eq_append_iff.1 hgrounded with ⟨front, hfront, hback⟩ | ⟨back, hfront, hback⟩
  · -- The separator would be among the dots.
    cases front with
    | nil =>
      rw [List.nil_append] at hback
      exact absurd (List.cons.inj hback).1.symm hsep
    | cons d front =>
      rw [← (List.cons.inj hback).1] at hfront
      exact absurd (hfront ▸ by simp) hdots.notMem
  · cases back with
    | nil =>
      rw [List.nil_append] at hback
      exact absurd (List.cons.inj hback).1 hsep
    | cons d back =>
      rw [← (List.cons.inj hback).1] at hfront
      exact ⟨c, by rw [hfront]; simp, by simp [isDotOrSeparator, hdot, hsep]⟩

/-- Two separators in a row are asked for exactly where the path is `Doubled`. -/
theorem Speaks.undoubled_spelled {path : Text} (h : Speaks path) :
    ¬ Undoubled (spelled path) ↔ Doubled path := by
  rw [Undoubled, not_not]
  constructor
  · rintro ⟨a, b, hdouble⟩
    obtain ⟨run, n, hpath, -, hclosed⟩ := exists_spelled path
    rw [List.append_assoc, List.cons_append, List.singleton_append] at hdouble
    refine ⟨run ++ a, b ++ List.replicate n '/', ?_, ?_, ?_⟩
    · rw [← hdouble] at hpath
      simpa using hpath
    · obtain ⟨c, hmem, hc⟩ := h.of_spelled hdouble.symm
      exact ⟨c, List.mem_append_right run hmem, hc⟩
    · -- The last character is no separator.
      rw [← hdouble] at hclosed
      rcases List.eq_nil_or_concat' b with rfl | ⟨b, c, rfl⟩
      · rw [Text.closed_append (by simp)] at hclosed
        exact absurd hclosed (by decide)
      · refine ⟨c, by simp, ?_⟩
        rintro rfl
        rw [← List.cons_append, ← List.cons_append, ← List.append_assoc,
          Text.closed_append (by simp)] at hclosed
        exact absurd hclosed (by decide)
  · rintro ⟨a, b, rfl, ha, c, hc, hsep⟩
    obtain ⟨before, d, after, front, rfl, -, hspelled⟩ := ha.exists_front
    obtain ⟨left, right, rfl⟩ := List.append_of_mem hc
    -- From the end no more is dropped than there is behind `c`.
    have hreverse : (after ++ '/' :: '/' :: (left ++ c :: right)).reverse =
        right.reverse ++ c :: (after ++ '/' :: '/' :: left).reverse := by simp
    refine ⟨front ++ d :: after, left ++ c :: (dropSeparators right.reverse).reverse, ?_⟩
    rw [List.append_assoc before, List.cons_append, hspelled, hreverse, dropSeparators_append hsep]
    simp

/-- **An empty piece** is asked for exactly where the path doubles a separator. -/
theorem nil_mem_key (path : Text) : [] ∈ key path ↔ Doubled path := by
  by_cases h : Speaks path
  · obtain ⟨-, -, -, hopened, hclosed⟩ := exists_spelled path
    rw [h.key_eq, Text.nil_mem_components h.spelled_ne_nil hopened hclosed, h.undoubled_spelled]
  · rw [key_root (all_of_not_speaks h)]
    exact iff_of_false (by simp) fun hdoubled => h hdoubled.speaks

/-! ## What was built -/

/-- A path that doubles no separator asks for the entry it describes. -/
theorem key_eq_entryOf {path : Text} (h : ¬ Doubled path) : key path = entryOf path := by
  by_cases hspeaks : Speaks path
  · have hnil := (nil_mem_key path).not.2 h
    rw [hspeaks.key_eq] at hnil ⊢
    refine (List.filter_eq_self.2 fun piece hpiece => ?_).symm
    have hne : piece ≠ [] := by
      rintro rfl
      exact hnil hpiece
    simpa using hne
  · have hall := all_of_not_speaks hspeaks
    rw [key_root hall, entryOf_eq, Lexical.withoutDots_all hall]
    split <;> rfl

/-- Behind a path that names something the entry goes on with the names that follow. -/
theorem Speaks.entryOf_append {path rest : Text} (h : Speaks path) (hrest : IsRest rest) :
    entryOf (path ++ rest) = entryOf path ++ Text.names rest := by
  have hwithout : Lexical.withoutDots (path ++ rest) = Lexical.withoutDots path ++ rest := by
    obtain ⟨c, hmem, hc⟩ := h
    obtain ⟨before, after, rfl⟩ := List.append_of_mem hmem
    obtain ⟨_, front, -, hcut⟩ := Lexical.exists_dotPart before
    rw [List.append_assoc, List.cons_append, (hcut _ hc).2, (hcut _ hc).2, List.append_assoc,
      List.cons_append]
  rw [entryOf_eq, entryOf_eq, hwithout, Text.names_append (.inr (hrest.imp_right .inr))]

/-! ## Looking up -/

section Lookup

variable {paths : List Text} {dir rest : Text}

/-- Where a separator is doubled there is no entry. -/
theorem Doubled.notMem (h : Doubled dir) (more : List Text) :
    key dir ++ more ∉ (ofPaths paths).entries := fun hentry =>
  ((sound_ofPaths paths).isName _ hentry [] (List.mem_append_left more ((nil_mem_key dir).2 h))).1 rfl

/-- Any other part of a path is an entry, or the root. -/
theorem has_key_iff (hpath : dir ++ rest ∈ paths) (hrest : IsRest rest) :
    (ofPaths paths).has (key dir) = true ↔ ¬ Doubled dir := by
  rw [has_iff]
  constructor
  · rintro (hnil | hentry) hdoubled
    · have hmem := (nil_mem_key dir).2 hdoubled
      rw [hnil] at hmem
      exact absurd hmem (by simp)
    · rw [← List.append_nil (key dir)] at hentry
      exact hdoubled.notMem [] hentry
  · intro h
    by_cases hspeaks : Speaks dir
    · refine or_iff_not_imp_left.2 fun hne => mem_ofPaths.2 ⟨hne, _, hpath, ?_⟩
      rw [key_eq_entryOf h, hspeaks.entryOf_append hrest]
      exact List.prefix_append _ _
    · exact .inl (key_root (all_of_not_speaks hspeaks))

/-- The name that comes next is inside. -/
theorem mem_namesIn_key_iff {name : Text} (hpath : dir ++ rest ∈ paths) (hspeaks : Speaks dir)
    (hrest : LeadsTo rest name) : name ∈ (ofPaths paths).namesIn (key dir) ↔ ¬ Doubled dir := by
  rw [mem_namesIn]
  constructor
  · exact fun hentry hdoubled => hdoubled.notMem [name] hentry
  · intro h
    obtain ⟨more, hmore⟩ := hrest.exists_names
    refine mem_ofPaths.2 ⟨by simp, _, hpath, ?_⟩
    rw [key_eq_entryOf h, hspeaks.entryOf_append hrest.isRest, hmore]
    exact ⟨more, by simp⟩

end Lookup

/-- **A path of the list is found as it is spelled**, every part of it that ends before a
separator or at the end, and where the part names something the name that comes next is
listed there, exactly unless the part doubles a separator inside. -/
theorem ofPaths_finds_iff {paths : List Text} {dir rest : Text} (hpath : dir ++ rest ∈ paths)
    (hrest : IsRest rest) :
    (∃ found, (ofPaths paths).tree.probe dir = .ok found ∧ (found = true ↔ ¬ Doubled dir)) ∧
    ∀ name, LeadsTo rest name → Speaks dir → ∃ names,
      (ofPaths paths).tree.list dir = .ok names ∧ (name ∈ names ↔ ¬ Doubled dir) :=
  ⟨⟨_, rfl, has_key_iff hpath hrest⟩, fun _ hname hspeaks =>
    ⟨_, rfl, mem_namesIn_key_iff hpath hspeaks hname⟩⟩

/-- The part `./a` ends before the separator that is doubled. -/
theorem ofPaths_finds_iff_before :
    ("./a".toList ++ "//b/c".toList ∈ ["x".toList, "./a//b/c".toList] ∧ IsRest "//b/c".toList) ∧
    (ofPaths ["x".toList, "./a//b/c".toList]).tree.probe "./a".toList = .ok true ∧
    ∃ names, (ofPaths ["x".toList, "./a//b/c".toList]).tree.list "./a".toList = .ok names ∧
      "b".toList ∈ names := by
  have hpath : "./a".toList ++ "//b/c".toList ∈ ["x".toList, "./a//b/c".toList] := by decide
  have hrest : IsRest "//b/c".toList := .inr rfl
  have hname : LeadsTo "//b/c".toList "b".toList := ⟨1, "/c".toList, rfl, by decide, .inr rfl⟩
  have hspeaks : Speaks "./a".toList := ⟨'a', by decide, rfl⟩
  have hplain : ¬ Doubled "./a".toList := (nil_mem_key _).not.1 (by decide +kernel)
  obtain ⟨⟨found, hprobe, hfound⟩, hlist⟩ := ofPaths_finds_iff hpath hrest
  obtain ⟨names, hnames, hmem⟩ := hlist _ hname hspeaks
  rw [hfound.2 hplain] at hprobe
  exact ⟨⟨hpath, hrest⟩, hprobe, names, hnames, hmem.2 hplain⟩

/-- The path `a//b` is in the list and is not found, and what comes next is not listed. -/
theorem ofPaths_missed : Doubled "a//b".toList ∧
    (ofPaths ["a//b".toList]).tree.probe "a//b".toList = .ok false ∧
    (ofPaths ["a//b/c".toList]).tree.list "a//b".toList = .ok [] := by
  refine ⟨⟨"a".toList, "b".toList, rfl, ⟨'a', by decide, rfl⟩, 'b', by decide, by decide⟩, ?_, ?_⟩
  · rfl
  · rfl

end PathTree

end PathGlob
