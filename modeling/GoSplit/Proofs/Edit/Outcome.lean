import GoSplit.Proofs.Sorted
import GoSplit.Proofs.Token.Tiling
import Mathlib.Data.List.Chain

/-!
What comes of applying edits, whatever they are. Sorted by their start they are taken one by
one; as long as each lies within the text and none starts before the one in front of it has
ended, the text around them is kept, and the first one that does not fit is the error.
-/

namespace GoSplit

theorem Text.exists_append_of_le {before rest front back : Text}
    (cut : before ++ rest = front ++ back) (le : before.byteLength ≤ front.byteLength) :
    ∃ kept, front = before ++ kept ∧ rest = kept ++ back := by
  rcases List.append_eq_append_iff.1 cut with ⟨kept, rfl, eq⟩ | ⟨more, rfl, eq⟩
  · exact ⟨kept, rfl, eq⟩
  · cases more with
    | nil => exact ⟨[], by simp, by simpa using eq.symm⟩
    | cons c more =>
      have pos := c.utf8Size_pos
      simp at le
      omega

namespace Edit

variable {src before rest : Text} {cursor : Nat} {span : Span} {edit : Edit}
  {edits front : List Edit}

/-- The span has its ends in order, within the text and between characters. -/
structure Within (src : Text) (span : Span) : Prop where
  ordered : span.start ≤ span.stop
  inside : span.stop ≤ src.byteLength
  opens : src.isBoundary span.start = true
  closes : src.isBoundary span.stop = true

theorem exists_cut (boundary : src.isBoundary cursor = true) :
    ∃ before after, src = before ++ after ∧ before.byteLength = cursor := by
  obtain ⟨⟨before, after⟩, split⟩ := Option.isSome_iff_exists.1 boundary
  exact ⟨before, after, Text.splitAtByte_eq_some_iff.1 split⟩

theorem fits_iff : fits src span = true ↔ Within src span := by
  simp only [fits, Bool.and_eq_true, decide_eq_true_eq]
  constructor
  · rintro ⟨⟨ordered, opens⟩, closes⟩
    obtain ⟨before, after, rfl, stop⟩ := exists_cut closes
    exact ⟨ordered, by rw [← stop, Text.byteLength_append]; omega, opens, closes⟩
  · rintro ⟨ordered, -, opens, closes⟩
    exact ⟨⟨ordered, opens⟩, closes⟩

/-- A span behind a place cuts what stands there. -/
theorem Within.exists_parts (h : Within src span) (whole : src = before ++ rest)
    (behind : before.byteLength ≤ span.start) :
    ∃ kept old after, rest = kept ++ (old ++ after) ∧
      span = ⟨(before ++ kept).byteLength, (before ++ (kept ++ old)).byteLength⟩ := by
  obtain ⟨left, right, cut, start⟩ := exists_cut h.opens
  obtain ⟨left', after, cut', stop⟩ := exists_cut h.closes
  obtain ⟨kept, rfl, rfl⟩ := Text.exists_append_of_le (whole.symm.trans cut) (start ▸ behind)
  have le : (before ++ kept).byteLength ≤ left'.byteLength := by
    rw [start, stop]
    exact h.ordered
  obtain ⟨old, rfl, rfl⟩ := Text.exists_append_of_le (cut.symm.trans cut') le
  refine ⟨kept, old, after, rfl, ?_⟩
  rw [start, ← List.append_assoc, stop]

/-- The edits lie within the text, behind the cursor and behind each other. -/
def Placed (src : Text) (cursor : Nat) : List Edit → Prop
  | [] => True
  | edit :: edits =>
    Within src edit.span ∧ cursor ≤ edit.span.start ∧ Placed src edit.span.stop edits

theorem placed_iff : Placed src 0 edits ↔ (∀ edit ∈ edits, Within src edit.span) ∧
    edits.IsChain fun a b => a.span.stop ≤ b.span.start := by
  have from_ : ∀ cursor, Placed src cursor edits ↔ (∀ edit ∈ edits, Within src edit.span) ∧
      (∀ edit ∈ edits.head?, cursor ≤ edit.span.start) ∧
      edits.IsChain fun a b => a.span.stop ≤ b.span.start := by
    induction edits with
    | nil => simp [Placed]
    | cons edit edits ih =>
      intro cursor
      rw [Placed, ih, List.forall_mem_cons, List.isChain_cons]
      simp
      tauto
  simpa using from_ 0

/-- Where the text behind the edits starts. -/
def cursorBehind (cursor : Nat) (edits : List Edit) : Nat :=
  (edits.getLast?.map (·.span.stop)).getD cursor

theorem cursorBehind_cons (cursor : Nat) (edit : Edit) (edits : List Edit) :
    cursorBehind cursor (edit :: edits) = cursorBehind edit.span.stop edits := by
  rw [cursorBehind, cursorBehind, List.getLast?_cons]
  cases edits.getLast? <;> rfl

/-- Edits that are placed are applied, and the next one is taken up behind them. -/
theorem applyFrom_append (placed : Placed src cursor front) (whole : src = before ++ rest)
    (size : before.byteLength = cursor) (edits : List Edit) :
    ∃ out before' rest', src = before' ++ rest' ∧ before'.byteLength = cursorBehind cursor front ∧
      Replaces cursor rest front (out ++ rest') ∧
      applyFrom src cursor rest (front ++ edits) =
        (applyFrom src (cursorBehind cursor front) rest' edits).map (out ++ ·) := by
  induction front generalizing cursor before rest with
  | nil =>
    refine ⟨[], before, rest, whole, size, .done cursor rest, ?_⟩
    cases found : applyFrom src cursor rest edits <;> simp [cursorBehind, found, Except.map]
  | cons edit front ih =>
    subst size
    obtain ⟨within, behind, placed⟩ := placed
    obtain ⟨kept, old, after, rfl, cut⟩ := within.exists_parts whole behind
    have span : edit.span = ⟨before.byteLength + kept.byteLength,
        before.byteLength + kept.byteLength + old.byteLength⟩ := by
      rw [cut]
      simp [Nat.add_assoc]
    have whole' : src = (before ++ (kept ++ old)) ++ after := by simp [whole]
    have stop : (before ++ (kept ++ old)).byteLength = edit.span.stop := by rw [cut]
    obtain ⟨out, before', rest', split, reached, replaced, applied⟩ := ih placed whole' stop
    refine ⟨kept ++ edit.replacement ++ out, before', rest', split, ?_, ?_, ?_⟩
    · rw [reached, cursorBehind_cons]
    · rw [List.append_assoc _ out]
      exact .next span replaced
    · rw [List.cons_append, applyFrom_cons whole span, applied, cursorBehind_cons]
      cases applyFrom src (cursorBehind edit.span.stop front) rest' edits with
      | error e => rfl
      | ok t => simp [Except.map]

/-- The first edit that does not fit: of the edits in front of it all do, and either it does not
lie within the text, or it does and starts before the one in front of it has ended. -/
inductive Offends (src : Text) (edits : List Edit) : EditError → Prop where
  | outOfBounds {front back : List Edit} {edit : Edit} : edits = front ++ edit :: back →
    (∀ e ∈ front, Within src e.span) → (front.IsChain fun a b => a.span.stop ≤ b.span.start) →
    ¬ Within src edit.span → Offends src edits (.outOfBounds edit.span src.byteLength)
  | overlapping {front back : List Edit} {last edit : Edit} : edits =
    front ++ last :: edit :: back →
    (∀ e ∈ front ++ [last], Within src e.span) →
    ((front ++ [last]).IsChain fun a b => a.span.stop ≤ b.span.start) →
    Within src edit.span → edit.span.start < last.span.stop →
    Offends src edits (.overlapping edit.span.start)

theorem applyFrom_of_placed (placed : Placed src 0 edits) :
    ∃ out, Replaces 0 src edits out ∧ applyFrom src 0 src edits = .ok out := by
  obtain ⟨out, before, rest, -, -, replaced, applied⟩ :=
    applyFrom_append placed (List.nil_append src).symm rfl []
  rw [List.append_nil] at applied
  exact ⟨out ++ rest, replaced, applied⟩

theorem applyFrom_of_offends {e : EditError} (h : Offends src edits e) :
    applyFrom src 0 src edits = .error e := by
  cases h with
  | @outOfBounds front back edit cut within chained outside =>
    obtain ⟨out, before, rest, -, -, -, applied⟩ :=
      applyFrom_append (placed_iff.2 ⟨within, chained⟩) (List.nil_append src).symm rfl
        (edit :: back)
    have misfit : fits src edit.span = false := by rwa [← Bool.not_eq_true, fits_iff]
    rw [cut, applied, applyFrom, misfit]
    rfl
  | @overlapping front back last edit cut within chained fitting early =>
    obtain ⟨out, before, rest, -, -, -, applied⟩ :=
      applyFrom_append (placed_iff.2 ⟨within, chained⟩) (List.nil_append src).symm rfl
        (edit :: back)
    have behind : cursorBehind 0 (front ++ [last]) = last.span.stop := by simp [cursorBehind]
    rw [behind, List.append_assoc, List.singleton_append, ← cut, applyFrom,
      fits_iff.2 fitting] at applied
    rw [applied]
    simp [early, Except.map]

/-- Edits are placed, or one of them is the first that does not fit. -/
theorem placed_or_offends (src : Text) (edits : List Edit) :
    Placed src 0 edits ∨ ∃ e, Offends src edits e := by
  induction edits using List.reverseRecOn with
  | nil => exact .inl trivial
  | append_singleton front edit ih =>
    rcases ih with placed | ⟨e, offends⟩
    · obtain ⟨within, chained⟩ := placed_iff.1 placed
      by_cases fitting : Within src edit.span
      · by_cases early : ∃ last ∈ front.getLast?, edit.span.start < last.span.stop
        · obtain ⟨last, isLast, early⟩ := early
          obtain ⟨others, rfl⟩ := List.getLast?_eq_some_iff.1 isLast
          have cut : others ++ [last] ++ [edit] = others ++ last :: edit :: [] := by simp
          exact .inr ⟨_, .overlapping cut within chained fitting early⟩
        · refine .inl (placed_iff.2 ⟨List.forall_mem_append.2 ⟨within, by simpa using fitting⟩, ?_⟩)
          refine List.isChain_append.2 ⟨chained, .singleton _, fun last isLast next isNext => ?_⟩
          obtain rfl : edit = next := by simpa using isNext
          exact Nat.le_of_not_lt fun less => early ⟨last, isLast, less⟩
      · exact .inr ⟨_, .outOfBounds rfl within chained fitting⟩
    · refine .inr ⟨e, ?_⟩
      cases offends with
      | outOfBounds cut within chained outside =>
        exact .outOfBounds (by rw [cut, List.append_assoc]; rfl) within chained outside
      | overlapping cut within chained fitting early =>
        exact .overlapping (by rw [cut, List.append_assoc]; rfl) within chained fitting early

/-- The spans between the edits, with what stands in front of the first and behind the last. -/
def untouched (src : Text) (edits : List Edit) : List Span :=
  List.zipWith Span.mk (0 :: edits.map (·.span.stop)) (edits.map (·.span.start) ++ [src.byteLength])

theorem Replaces.exists_kept {out : Text} (h : Replaces cursor rest edits out)
    (whole : src = before ++ rest) (size : before.byteLength = cursor) :
    ∃ kept, (List.zipWith Span.mk (cursor :: edits.map (·.span.stop))
        (edits.map (·.span.start) ++ [src.byteLength])).mapM src.slice? = some kept ∧
      out = (List.zipWith (· ++ ·) kept (edits.map (·.replacement) ++ [[]])).flatten := by
  induction h generalizing before with
  | done cursor rest =>
    have sliced : src.slice? ⟨cursor, src.byteLength⟩ = some rest :=
      Text.slice?_eq_some_iff.2 ⟨before, [], by simp [whole], by simp [whole, size]⟩
    exact ⟨[rest], by simp [sliced], by simp⟩
  | @next cursor kept old rest out edit edits span _ ih =>
    have whole' : src = (before ++ (kept ++ old)) ++ rest := by simp [whole]
    obtain ⟨others, sliced, joined⟩ := ih whole' (by rw [span, ← size]; simp [Nat.add_assoc])
    have first : src.slice? ⟨cursor, edit.span.start⟩ = some kept :=
      Text.slice?_eq_some_iff.2 ⟨before, old ++ rest, whole, by rw [span, size]⟩
    refine ⟨kept :: others, ?_, ?_⟩
    · simp only [List.map_cons, List.cons_append, List.zipWith_cons_cons, List.mapM_cons,
        first, sliced]
      rfl
    · simp [joined]

/-- Edits are applied exactly or refused. Sorted by their start, they are applied if and only if
each lies within the text, its ends in order and between characters, and none starts before the
one in front of it has ended; the result is what stands between them, in order, with their
replacements in between. Otherwise the error is that of the first edit that does not fit, its
bounds looked at first. With different starts the order of the edits has no part in it. -/
theorem applyAll_exact (src : Text) (edits : List Edit) :
    ∃ sorted, SortedBy (·.span.start) edits sorted ∧
      ((∃ out, applyAll src edits = .ok out) ↔
        (∀ edit ∈ sorted, Within src edit.span) ∧
          sorted.IsChain fun a b => a.span.stop ≤ b.span.start) ∧
      (∀ out, applyAll src edits = .ok out →
        ∃ kept, (untouched src sorted).mapM src.slice? = some kept ∧
          out = (List.zipWith (· ++ ·) kept (sorted.map (·.replacement) ++ [[]])).flatten) ∧
      (∀ e, applyAll src edits = .error e ↔ Offends src sorted e) ∧
      ∀ edits' : List Edit, edits'.Perm edits → (edits.map (·.span.start)).Nodup →
        applyAll src edits' = applyAll src edits := by
  let sorted := edits.mergeSort fun a b => a.span.start ≤ b.span.start
  have whole : applyAll src edits = applyFrom src 0 src sorted := rfl
  refine ⟨sorted, sortedBy_mergeSort _ edits, ?_, fun out applied => ?_, fun e => ?_,
    fun edits' perm distinct => ?_⟩
  · rw [← placed_iff, whole]
    constructor
    · rintro ⟨out, applied⟩
      refine (placed_or_offends src sorted).resolve_right ?_
      rintro ⟨e, offends⟩
      rw [applyFrom_of_offends offends] at applied
      cases applied
    · intro placed
      obtain ⟨out, -, applied⟩ := applyFrom_of_placed placed
      exact ⟨out, applied⟩
  · rcases placed_or_offends src sorted with placed | ⟨e, offends⟩
    · obtain ⟨text, replaced, done⟩ := applyFrom_of_placed placed
      rw [whole, done] at applied
      cases applied
      exact replaced.exists_kept (List.nil_append src).symm rfl
    · rw [whole, applyFrom_of_offends offends] at applied
      cases applied
  · refine ⟨fun refused => ?_, fun offends => whole.trans (applyFrom_of_offends offends)⟩
    rcases placed_or_offends src sorted with placed | ⟨e', offends⟩
    · obtain ⟨out, -, applied⟩ := applyFrom_of_placed placed
      rw [whole, applied] at refused
      cases refused
    · rw [whole, applyFrom_of_offends offends] at refused
      cases refused
      exact offends
  · rw [applyAll, applyAll, mergeSort_eq_of_perm perm distinct]

/-- Of several faults the first one by start counts, here a place inside of a character. -/
example : applyAll "aéb".toList [⟨⟨3, 9⟩, []⟩, ⟨⟨2, 2⟩, ['x']⟩, ⟨⟨0, 1⟩, []⟩] =
    .error (.outOfBounds ⟨2, 2⟩ 4) := by
  cbv

end Edit

end GoSplit
