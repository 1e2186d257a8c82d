import Mathlib.Data.List.Sort

/-!
Sorted lists. Items that neither comes before the other keep the order in which the list has them,
which leaves a single sorted list: it depends on no more of the order of the list than that. Where
the order is that of a number that each item has and all numbers differ, it does not depend on the
order of the list at all.
-/

namespace GoSplit

variable {α : Type} {key : α → Nat} {items items' sorted : List α}

/-! ### Any order -/

section

variable {le : α → α → Bool}

/-- Sorting keeps items in order that are sorted already. -/
theorem filter_mergeSort_of_le (trans : ∀ a b c, le a b = true → le b c = true → le a c = true)
    (total : ∀ a b, (le a b || le b a) = true) {same : α → Bool}
    (equal : ∀ a b, same a = true → same b = true → le a b = true) (items : List α) :
    (items.mergeSort le).filter same = items.filter same := by
  have ordered : (items.filter same).Pairwise fun a b => le a b = true :=
    List.pairwise_of_forall_mem_list fun a memA b memB =>
      equal a b (List.mem_filter.1 memA).2 (List.mem_filter.1 memB).2
  have kept := List.sublist_mergeSort trans total ordered List.filter_sublist
  have sub : (items.filter same).Sublist ((items.mergeSort le).filter same) := by
    simpa using kept.filter same
  exact (sub.eq_of_length ((List.mergeSort_perm ..).filter same).length_eq.symm).symm

/-- Two sorted lists are the same when they have the same items at every place of the order, in
the same order among themselves. -/
theorem eq_of_pairwise_of_filter (refl : ∀ a, le a a = true) {left right : List α}
    (ordered : left.Pairwise fun a b => le a b = true)
    (ordered' : right.Pairwise fun a b => le a b = true)
    (same : ∀ a, left.filter (fun b => le a b && le b a) = right.filter fun b => le a b && le b a) :
    left = right := by
  have mem : ∀ {left right : List α}, (∀ a, left.filter (fun b => le a b && le b a) =
      right.filter fun b => le a b && le b a) → ∀ a ∈ left, a ∈ right := by
    intro left right same a mem
    have kept : a ∈ left.filter fun b => le a b && le b a := List.mem_filter.2 ⟨mem, by simp [refl]⟩
    rw [same] at kept
    exact (List.mem_filter.1 kept).1
  induction left generalizing right with
  | nil => exact (List.eq_nil_iff_forall_not_mem.2 fun b there =>
      List.not_mem_nil (mem (fun a => (same a).symm) b there)).symm
  | cons a left ih =>
    cases right with
    | nil => exact absurd (mem same a List.mem_cons_self) List.not_mem_nil
    | cons b right =>
      rw [List.pairwise_cons] at ordered ordered'
      -- Each of the two heads comes before all of the other list.
      have le_ab : le a b = true := by
        rcases List.mem_cons.1 (mem (fun a => (same a).symm) b List.mem_cons_self) with rfl | there
        · exact refl b
        · exact ordered.1 b there
      have le_ba : le b a = true := by
        rcases List.mem_cons.1 (mem same a List.mem_cons_self) with rfl | there
        · exact refl a
        · exact ordered'.1 a there
      obtain rfl : a = b := by
        have heads := same a
        rw [List.filter_cons_of_pos (by simp [refl]),
          List.filter_cons_of_pos (by simp [le_ab, le_ba])] at heads
        exact (List.cons.inj heads).1
      refine congrArg (a :: ·) (ih ordered.2 ordered'.2 fun c => ?_)
      have tails := same c
      rw [List.filter_cons, List.filter_cons] at tails
      split at tails
      · exact (List.cons.inj tails).2
      · exact tails

/-- Sorting forgets the order of the list but for items at the same place of the order. -/
theorem mergeSort_eq_of_filter (trans : ∀ a b c, le a b = true → le b c = true → le a c = true)
    (total : ∀ a b, (le a b || le b a) = true)
    (same : ∀ a, items.filter (fun b => le a b && le b a) =
      items'.filter fun b => le a b && le b a) :
    items.mergeSort le = items'.mergeSort le := by
  have equal : ∀ a b c, (le a b && le b a) = true → (le a c && le c a) = true → le b c = true := by
    intro a b c here there
    rw [Bool.and_eq_true] at here there
    exact trans b a c here.2 there.1
  refine eq_of_pairwise_of_filter (fun a => by simpa using total a a)
    (List.pairwise_mergeSort trans total items) (List.pairwise_mergeSort trans total items')
      fun a => ?_
  rw [filter_mergeSort_of_le trans total (equal a),
    filter_mergeSort_of_le trans total (equal a), same]

end

/-! ### By a number -/

/-- The items by their key, in the order of the list where keys are the same. -/
structure SortedBy (key : α → Nat) (items sorted : List α) : Prop where
  perm : sorted.Perm items
  ordered : sorted.Pairwise fun a b => key a ≤ key b
  stable : ∀ n, (sorted.filter fun a => key a == n) = items.filter fun a => key a == n

/-- Items of one key keep their order. -/
theorem filter_mergeSort (key : α → Nat) (items : List α) (n : Nat) :
    ((items.mergeSort fun a b => key a ≤ key b).filter fun a => key a == n) =
      items.filter fun a => key a == n := by
  refine filter_mergeSort_of_le (fun _ _ _ le le' => by simp at le le' ⊢; omega)
    (fun a b => by simp; omega) (fun a b here there => ?_) items
  have here : key a = n := by simpa using here
  have there : key b = n := by simpa using there
  simp [here, there]

theorem sortedBy_mergeSort (key : α → Nat) (items : List α) :
    SortedBy key items (items.mergeSort fun a b => key a ≤ key b) := by
  refine ⟨List.mergeSort_perm .., ?_, filter_mergeSort key items⟩
  have ordered := @List.pairwise_mergeSort α (fun a b => decide (key a ≤ key b))
    (fun _ _ _ le le' => by simp at le le' ⊢; omega) (fun a b => by simp; omega) items
  exact ordered.imp fun le => by simpa using le

/-- With different keys the order of the list has no part in it. -/
theorem mergeSort_eq_of_perm (perm : items'.Perm items) (distinct : (items.map key).Nodup) :
    (items'.mergeSort fun a b => key a ≤ key b) = items.mergeSort fun a b => key a ≤ key b := by
  have left := sortedBy_mergeSort key items'
  have right := sortedBy_mergeSort key items
  refine List.Perm.eq_of_pairwise
    (fun a b memA memB (le : key a ≤ key b) (le' : key b ≤ key a) => ?_)
    left.ordered right.ordered (left.perm.trans (perm.trans right.perm.symm))
  exact List.inj_on_of_nodup_map distinct (perm.subset (left.perm.subset memA))
    (right.perm.subset memB) (Nat.le_antisymm le le')

end GoSplit
