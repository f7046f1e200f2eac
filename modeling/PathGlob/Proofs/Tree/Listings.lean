/-
Trees written down as tables of listings.

What a table says of its listings holds of the tree, since every other path has
nothing inside. And the tree is as deep as it says: going down makes paths longer,
so a chain of listings comes to each path of the table at most once
(`tree_finite`).
-/
import PathGlob.Proofs.Walk.Visits

set_option autoImplicit false

namespace PathGlob

namespace ListingTable

variable {table : ListingTable}

/-- A listing that is not empty is written down. -/
theorem mem_of_lookup {dir : Text} {names : List Text} {listings : List (Text × List Text)}
    (h : listings.lookup dir = some names) : (dir, names) ∈ listings := by
  induction listings with
  | nil => simp at h
  | cons entry rest ih =>
    obtain ⟨path, listing⟩ := entry
    rw [List.lookup_cons] at h
    split at h
    · rename_i hsame
      obtain rfl : dir = path := by simpa using hsame
      obtain rfl := Option.some.inj h
      exact List.mem_cons_self
    · exact List.mem_cons_of_mem _ (ih h)

theorem inside_cases (table : ListingTable) (dir : Text) :
    table.tree.inside dir = [] ∨ (dir, table.tree.inside dir) ∈ table.listings := by
  have hinside : table.tree.inside dir = (table.listings.lookup dir).getD [] := rfl
  rw [hinside]
  cases hlookup : table.listings.lookup dir with
  | none => exact .inl rfl
  | some names => exact .inr (mem_of_lookup hlookup)

/-- What holds of all that is written down holds of all that is listed. -/
theorem forall_inside {p : Text → Prop} (h : ∀ entry ∈ table.listings, ∀ name ∈ entry.2, p name)
    (dir : Text) : ∀ name ∈ table.tree.inside dir, p name := by
  intro name hname
  rcases table.inside_cases dir with hnil | hmem
  · rw [hnil] at hname
    simp at hname
  · exact h _ hmem name hname

theorem tree_named (h : ∀ entry ∈ table.listings, ∀ name ∈ entry.2, Text.IsName name) :
    table.tree.Named := forall_inside h

theorem tree_sorted {r : Text → Text → Prop} (h : ∀ entry ∈ table.listings, entry.2.Pairwise r) :
    table.tree.Sorted r := by
  intro dir
  rcases table.inside_cases dir with hnil | hmem
  · rw [hnil]
    exact .nil
  · exact h _ hmem

/-- As many listings are enough as there are paths at least as long. -/
theorem endsWithin_of_count (hnamed : table.tree.Named) {depth : Nat} {dir : Text}
    (h : (table.listings.countP fun entry => dir.length ≤ entry.1.length) < depth) :
    table.tree.EndsWithin depth dir := by
  induction depth generalizing dir with
  | zero => exact absurd h (Nat.not_lt_zero _)
  | succ depth ih =>
    intro name hname
    apply ih
    have hlonger := Text.length_lt_joinName dir (hnamed dir name hname).1
    have hmem : (dir, table.tree.inside dir) ∈ table.listings := by
      refine (table.inside_cases dir).resolve_left fun hnil => ?_
      rw [hnil] at hname
      simp at hname
    -- The listing of `dir` itself no longer counts.
    obtain ⟨front, back, hsplit⟩ := List.append_of_mem hmem
    rw [hsplit, List.countP_append, List.countP_cons] at h ⊢
    have hmono : ∀ listings : List (Text × List Text),
        (listings.countP fun entry => (Text.joinName dir name).length ≤ entry.1.length) ≤
          listings.countP fun entry => dir.length ≤ entry.1.length := by
      intro listings
      apply List.countP_mono_left
      intro entry _ hle
      rw [decide_eq_true_iff] at hle ⊢
      omega
    have hfront := hmono front
    have hback := hmono back
    rw [if_pos (by simp)] at h
    rw [if_neg (by simpa using hlonger)]
    omega

/-- **A table is no deeper than it says.** -/
theorem tree_finite (hnamed : table.tree.Named) : table.tree.Finite :=
  fun _ => endsWithin_of_count hnamed (Nat.lt_succ_of_le List.countP_le_length)

end ListingTable

end PathGlob
