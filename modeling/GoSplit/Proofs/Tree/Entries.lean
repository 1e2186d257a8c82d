import GoSplit.Proofs.Text.Lines
import GoSplit.Tree.Files
import Mathlib.Data.List.Basic
import Mathlib.Data.List.Induction

/-!
What an operation on entries does to a tree, seen through lookups: the entries it names
change, and every other location holds what it held before.
-/

namespace GoSplit.Tree

@[simp] theorem find?_nil (tree : Tree) : tree.find? [] = some .directory := by simp [find?]

theorem find?_of_ne {tree : Tree} {loc : Location} (h : loc ≠ []) :
    tree.find? loc = (tree.entries.find? fun e => e.1.same loc).map (·.2) := by simp [find?, h]

/-- Leaving out entries by their location hides those locations and no others. -/
theorem find?_filter (entries : List (Location × Node)) (keeps : Location → Bool)
    (loc : Location) :
    ((entries.filter fun e => keeps e.1).find? fun e => e.1.same loc) =
      if keeps loc then entries.find? fun e => e.1.same loc else none := by
  induction entries with
  | nil => simp
  | cons e entries ih =>
    by_cases here : e.1 = loc
    · by_cases kept : keeps loc = true
      · simp [here, kept]
      · simpa [here, kept] using ih
    · have apart : e.1.same loc = false := by simpa [Location.same] using fun _ => here
      by_cases kept : keeps e.1 = true
      · simpa [kept, apart] using ih
      · simpa [kept, apart] using ih

/-- Trees with the same entries at some locations are the same there. -/
theorem find?_congr_of_filter {tree tree' : Tree} (keeps : Location → Bool)
    (same : (tree'.entries.filter fun e => keeps e.1) = tree.entries.filter fun e => keeps e.1)
    {loc : Location} (kept : keeps loc = true) : tree'.find? loc = tree.find? loc := by
  have here := find?_filter tree.entries keeps loc
  have there := find?_filter tree'.entries keeps loc
  rw [if_pos kept] at here there
  rw [find?, find?, ← here, ← there, same]

/-! ### Entering -/

theorem find?_put {tree : Tree} {loc : Location} {node : Node} (h : loc ≠ []) (other : Location) :
    (tree.put loc node).find? other = if other = loc then some node else tree.find? other := by
  by_cases root : other = []
  · subst root
    simp [h.symm]
  rw [find?_of_ne root, find?_of_ne root, put]
  by_cases eq : other = loc
  · subst eq
    rw [if_pos rfl, List.find?_cons_of_pos (by simp)]
    rfl
  · have apart : other.same loc = false := by simpa [Location.same] using fun _ => eq
    rw [if_neg eq, List.find?_cons_of_neg (by simpa using Ne.symm eq),
      find?_filter _ (fun key => !key.same loc)]
    simp [apart]

@[simp] theorem put_base (tree : Tree) (loc : Location) (node : Node) :
    (tree.put loc node).base = tree.base := rfl

@[simp] theorem put_refuses (tree : Tree) (loc : Location) (node : Node) :
    (tree.put loc node).refuses = tree.refuses := rfl

@[simp] theorem put_opened (tree : Tree) (loc : Location) (node : Node) :
    (tree.put loc node).opened = tree.opened := rfl

@[simp] theorem put_mounts (tree : Tree) (loc : Location) (node : Node) :
    (tree.put loc node).mounts = tree.mounts := rfl

/-! ### Taking away -/

theorem find?_remove {tree : Tree} {loc : Location} (h : loc ≠ []) (other : Location) :
    (tree.remove loc).find? other = if loc <+: other then none else tree.find? other := by
  by_cases root : other = []
  · subst root
    simp [h]
  rw [find?_of_ne root, find?_of_ne root, remove, find?_filter _ (fun key => !key.isWithin loc)]
  by_cases within : loc <+: other
  · simp [Location.isWithin, List.isPrefixOf_iff_prefix.2 within, within]
  · have apart : List.isPrefixOf loc other = false := by
      rw [← Bool.not_eq_true, List.isPrefixOf_iff_prefix]
      exact within
    simp [Location.isWithin, apart, within]

theorem find?_clear (tree : Tree) (loc other : Location) :
    (tree.clear loc).find? other =
      if loc <+: other ∧ other ≠ loc then none else tree.find? other := by
  by_cases root : other = []
  · subst root
    have kept : ¬ (loc <+: [] ∧ [] ≠ loc) := by
      rintro ⟨part, ne⟩
      exact ne (List.prefix_nil.1 part).symm
    rw [if_neg kept, find?_nil, find?_nil]
  rw [find?_of_ne root, find?_of_ne root, clear, find?_filter _ (fun key => !key.isBelow loc)]
  by_cases below : loc <+: other ∧ other ≠ loc
  · have isBelow : Location.isBelow other loc = true := by
      rw [Location.isBelow, Location.isWithin, Bool.and_eq_true, List.isPrefixOf_iff_prefix,
        Bool.not_eq_true', ← Bool.not_eq_true, Location.same_eq_true]
      exact below
    simp [isBelow, below]
  · have outside : Location.isBelow other loc = false := by
      rw [← Bool.not_eq_true, Location.isBelow, Location.isWithin, Bool.and_eq_true,
        List.isPrefixOf_iff_prefix, Bool.not_eq_true', ← Bool.not_eq_true, Location.same_eq_true]
      exact below
    rw [if_neg below, if_pos (by simp [outside])]

/-! ### Moving -/

theorem find?_isSome_of_mem {tree : Tree} {loc : Location} {node : Node}
    (mem : (loc, node) ∈ tree.entries) : (tree.find? loc).isSome = true := by
  by_cases root : loc = []
  · simp [root]
  · rw [find?_of_ne root, Option.isSome_map, List.find?_isSome]
    exact ⟨(loc, node), mem, by simp⟩

/-- A location that is renamed, together with no other, is found under its new name. -/
theorem find?_map {entries : List (Location × Node)} {f : Location → Location}
    {loc loc' : Location} (only : ∀ e ∈ entries, f e.1 = loc' ↔ e.1 = loc) :
    ((entries.map fun e => (f e.1, e.2)).find? fun e => e.1.same loc').map (·.2) =
      (entries.find? fun e => e.1.same loc).map (·.2) := by
  induction entries with
  | nil => rfl
  | cons e entries ih =>
    obtain ⟨here, rest⟩ := List.forall_mem_cons.1 only
    rw [List.map_cons]
    by_cases eq : e.1 = loc
    · rw [List.find?_cons_of_pos (by simp [here.2 eq]), List.find?_cons_of_pos (by simp [eq])]
      rfl
    · have eq' : f e.1 ≠ loc' := fun same => eq (here.1 same)
      rw [List.find?_cons_of_neg (by simp [eq']), List.find?_cons_of_neg (by simp [eq])]
      exact ih rest

theorem moved_append (source target rest : Location) :
    Location.moved source target (source ++ rest) = target ++ rest := by
  have found : source.isPrefixOf? (source ++ rest) = some rest :=
    List.isPrefixOf?_eq_some_iff_append_eq.2 rfl
  rw [Location.moved, found]

theorem moved_of_outside {source target loc : Location} (h : ¬ source <+: loc) :
    Location.moved source target loc = loc := by
  unfold Location.moved
  split
  · next rest eq => exact absurd ⟨rest, List.isPrefixOf?_eq_some_iff_append_eq.1 eq⟩ h
  · rfl

section Move

variable {tree : Tree} {source target : Location}

theorem not_prefix_of_mem (free : ∀ loc, target <+: loc → tree.find? loc = none)
    {e : Location × Node} (mem : e ∈ tree.entries) : ¬ target <+: e.1 := by
  intro within
  have found := @find?_isSome_of_mem tree e.1 e.2 mem
  rw [free _ within] at found
  cases found

/-- What lies below the old name comes to lie below the new one, where nothing was. -/
theorem find?_move_append (below : source ≠ [])
    (free : ∀ loc, target <+: loc → tree.find? loc = none) (rest : Location) :
    (tree.move source target).find? (target ++ rest) = tree.find? (source ++ rest) := by
  have below' : target ≠ [] := by
    rintro rfl
    simpa using free [] List.prefix_rfl
  rw [find?_of_ne (List.append_ne_nil_of_left_ne_nil below' _),
    find?_of_ne (List.append_ne_nil_of_left_ne_nil below _)]
  refine find?_map fun e mem => ?_
  by_cases within : source <+: e.1
  · obtain ⟨rest', eq⟩ := within
    rw [← eq, moved_append, List.append_right_inj, List.append_right_inj]
  · rw [moved_of_outside within]
    refine iff_of_false (fun eq => not_prefix_of_mem free mem ?_) (fun eq => within ?_)
    · rw [eq]
      exact List.prefix_append ..
    · rw [eq]
      exact List.prefix_append ..

/-- Nothing stays below the old name, and everything else stays where it was. -/
theorem find?_move_of_outside (below : source ≠ []) {loc : Location} (out : ¬ target <+: loc) :
    (tree.move source target).find? loc =
      if source <+: loc then none else tree.find? loc := by
  by_cases root : loc = []
  · subst root
    simp [below]
  rw [find?_of_ne root]
  by_cases within : source <+: loc
  · rw [if_pos within, Option.map_eq_none_iff, List.find?_eq_none]
    intro e mem
    obtain ⟨⟨key, node⟩, -, eq⟩ := List.mem_map.1 mem
    rw [Location.same_eq_true, ← eq]
    dsimp only
    intro here
    by_cases inner : source <+: key
    · obtain ⟨rest, rfl⟩ := inner
      rw [moved_append] at here
      exact out (here ▸ List.prefix_append ..)
    · rw [moved_of_outside inner] at here
      exact inner (here ▸ within)
  · rw [if_neg within, find?_of_ne root]
    refine find?_map fun e mem => ?_
    by_cases inner : source <+: e.1
    · obtain ⟨rest, eq⟩ := inner
      rw [← eq, moved_append]
      refine iff_of_false (fun same => out ?_) (fun same => within ?_)
      · exact same ▸ List.prefix_append ..
      · exact same ▸ List.prefix_append ..
    · rw [moved_of_outside inner]

end Move

/-! ### Closed trees -/

/-- Every entry lies in a directory. -/
def Closed (tree : Tree) : Prop := ∀ e ∈ tree.entries, tree.find? e.1.dropLast = some .directory

instance (tree : Tree) : Decidable tree.Closed :=
  inferInstanceAs (Decidable (∀ e ∈ tree.entries, _))

theorem exists_mem_of_find? {tree : Tree} {loc : Location} {node : Node} (below : loc ≠ [])
    (found : tree.find? loc = some node) : (loc, node) ∈ tree.entries := by
  rw [find?_of_ne below, Option.map_eq_some_iff] at found
  obtain ⟨e, first, rfl⟩ := found
  have here : e.1 = loc := by simpa using List.find?_some first
  rw [← here]
  exact List.mem_of_find?_eq_some first

/-- The entries above an entry are directories. -/
theorem Closed.directory {tree : Tree} (closed : tree.Closed) {loc up : Location} {node : Node}
    (found : tree.find? loc = some node) (part : up <+: loc) (proper : up ≠ loc) :
    tree.find? up = some .directory := by
  obtain ⟨rest, rfl⟩ := part
  induction rest using List.reverseRecOn generalizing node with
  | nil => exact absurd (List.append_nil up).symm proper
  | append_singleton rest name ih =>
    rw [← List.append_assoc] at found
    have above := closed _ (exists_mem_of_find? (by simp) found)
    rw [List.dropLast_concat] at above
    by_cases last : rest = []
    · simpa [last] using above
    · exact ih above (by simpa using last)

end GoSplit.Tree
