import GoSplit.Manifest
import GoSplit.Proofs.ImportPath
import GoSplit.Proofs.Sorted
import Mathlib.Data.List.ProdSigma

/-!
The order of relocation. A path below another one has more segments, whatever these are, so a
list sorted by the number of segments has every module in front of those nested in it.
-/

namespace GoSplit

/-- The pairs of items numbered from `first` on, each with one of a higher number. -/
def pairsFrom {α : Type} (first : Nat) (items : List α) : List (α × α) :=
  ((items.zipIdx first ×ˢ items.zipIdx first).filter fun pair => pair.1.2 < pair.2.2).map
    fun pair => (pair.1.1, pair.2.1)

/-- The pairs of items of a list, each with one that comes later. -/
def pairsInOrder {α : Type} (items : List α) : List (α × α) := pairsFrom 0 items

theorem pairsFrom_cons {α : Type} (first : Nat) (a : α) (items : List α) :
    pairsFrom first (a :: items) = items.map (fun b => (a, b)) ++ pairsFrom (first + 1) items := by
  let later : List (α × Nat) := items.zipIdx (first + 1)
  have above : ∀ b ∈ later, first < b.2 := fun b mem => List.le_snd_of_mem_zipIdx mem
  let ordered : (α × Nat) × (α × Nat) → Bool := fun pair => pair.1.2 < pair.2.2
  -- Every later item has a higher number than the first one, which has none above itself.
  have row : (((a, first) :: later).map (Prod.mk (a, first))).filter ordered =
      later.map (Prod.mk (a, first)) := by
    rw [List.map_cons, List.filter_cons_of_neg (by simp [ordered])]
    refine List.filter_eq_self.2 fun pair mem => ?_
    obtain ⟨b, isLater, rfl⟩ := List.mem_map.1 mem
    simpa [ordered] using above b isLater
  have column : ∀ b ∈ later, (((a, first) :: later).map (Prod.mk b)).filter ordered =
      (later.map (Prod.mk b)).filter ordered := by
    intro b mem
    have := above b mem
    rw [List.map_cons, List.filter_cons_of_neg (by simp [ordered]; omega)]
  have rest : ((later ×ˢ ((a, first) :: later)).filter ordered) =
      (later ×ˢ later).filter ordered := by
    simp only [SProd.sprod, List.product, List.filter_flatMap]
    exact List.flatMap_congr column
  have names : items.map (fun b => (a, b)) =
      (later.map (Prod.mk (a, first))).map fun pair => (pair.1.1, pair.2.1) := by
    conv_lhs => rw [← List.zipIdx_map_fst (first + 1) items, List.map_map]
    rw [List.map_map]
    rfl
  rw [pairsFrom, pairsFrom, List.zipIdx_cons, List.product_cons, List.filter_append,
    List.map_append, row, rest, names]

namespace Manifest

variable {child parent : Module} {modules : List Module}

theorem violationsIn_eq (first : Nat) (modules : List Module) :
    violationsIn modules = ((pairsFrom first modules).filter fun pair => nestedIn pair.1 pair.2).map
      fun pair => (pair.1.path, pair.2.path) := by
  induction modules generalizing first with
  | nil => rfl
  | cons child later ih =>
    rw [violationsIn, pairsFrom_cons, List.filter_append, List.map_append, ← ih, List.filter_map,
      List.map_map]
    rfl

theorem not_nestedIn_of_le (deeper : depth child ≤ depth parent) :
    ¬ (parent.path ≠ child.path ∧ ImportPath.isUnder child.path parent.path = true) := by
  rintro ⟨other, below⟩
  exact Nat.not_lt.2 deeper (ImportPath.length_segments_lt below other)

theorem violationsIn_eq_nil (sorted : modules.Pairwise fun a b => depth a ≤ depth b) :
    violationsIn modules = [] := by
  induction sorted with
  | nil => rfl
  | @cons child later deeper _ ih =>
    have none : later.filter (nestedIn child) = [] := by
      refine List.filter_eq_nil_iff.2
        fun parent mem nested => not_nestedIn_of_le (deeper parent mem) ?_
      simpa [nestedIn] using nested
    rw [violationsIn, none, ih]
    rfl

/-- Ancestors come first. The order of relocation has the modules by the number of their
segments, as listed among equals; in it no module stands in front of one that its path lies
strictly below, so that no violation is left; and the violations of a manifest are its pairs
of a module and a later one that it is nested in. -/
theorem relocationOrder_ancestors_first (manifest : Manifest) :
    SortedBy (fun m => (ImportPath.segments m.path).length) manifest.modules
      manifest.relocationOrder ∧
    manifest.relocationOrder.Pairwise (fun earlier later =>
      ¬ (later.path ≠ earlier.path ∧ ImportPath.isUnder earlier.path later.path = true)) ∧
    orderingViolations ⟨manifest.relocationOrder⟩ = [] ∧
    manifest.orderingViolations =
      ((pairsInOrder manifest.modules).filter fun (child, parent) =>
        parent.path ≠ child.path ∧ ImportPath.isUnder child.path parent.path = true).map
        fun (child, parent) => (child.path, parent.path) := by
  have sorted := sortedBy_mergeSort depth manifest.modules
  refine ⟨sorted, sorted.ordered.imp not_nestedIn_of_le, violationsIn_eq_nil sorted.ordered, ?_⟩
  rw [orderingViolations, violationsIn_eq 0]
  congr 1
  refine List.filter_congr fun pair _ => ?_
  rw [Bool.eq_iff_iff]
  simp [nestedIn]

/-- Empty segments count: a path that ends in a slash lies below the one without it. -/
example : (relocationOrder ⟨[⟨"a/b/".toList, none, none, false, none, []⟩,
      ⟨"c".toList, none, none, false, none, []⟩,
      ⟨"a/b".toList, none, none, false, none, []⟩]⟩).map (·.path.str) =
    ["c", "a/b", "a/b/"] := by
  cbv

end Manifest

end GoSplit
