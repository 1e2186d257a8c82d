import GoSplit.Edit
import GoSplit.Proofs.Token.Chained
import Mathlib.Data.List.Basic

/-!
Edits and the text they make. Applying edits that lie behind each other within a text
replaces exactly what they span.
-/

namespace GoSplit

namespace Text

theorem splitAtByte_append (s t : Text) : splitAtByte s.byteLength (s ++ t) = some (s, t) := by
  induction s with
  | nil => cases t <;> simp [splitAtByte]
  | cons c cs ih =>
    have pos := c.utf8Size_pos
    rw [List.cons_append, splitAtByte, byteLength_cons, if_neg (by omega), if_neg (by omega),
      Nat.add_sub_cancel_left, ih]

theorem isBoundary_append (s t : Text) : isBoundary s.byteLength (s ++ t) = true := by
  rw [isBoundary, splitAtByte_append]
  rfl

end Text

namespace Edit

/-- From byte `cursor` on, a text with what the edits span replaced. -/
inductive Replaces : Nat → Text → List Edit → Text → Prop
  | done (cursor : Nat) (rest : Text) : Replaces cursor rest [] rest
  | next {cursor : Nat} {kept old rest out : Text} {edit : Edit} {edits : List Edit} :
    edit.span = ⟨cursor + kept.byteLength, cursor + kept.byteLength + old.byteLength⟩ →
      Replaces edit.span.stop rest edits out →
      Replaces cursor (kept ++ (old ++ rest)) (edit :: edits) (kept ++ edit.replacement ++ out)

/-- An edit of what stands behind the cursor, and the edits behind it. -/
theorem applyFrom_cons {src before kept old rest : Text} {edit : Edit}
    (whole : src = before ++ (kept ++ (old ++ rest)))
    (span : edit.span = ⟨before.byteLength + kept.byteLength,
      before.byteLength + kept.byteLength + old.byteLength⟩) (edits : List Edit) :
    applyFrom src before.byteLength (kept ++ (old ++ rest)) (edit :: edits) =
      (applyFrom src edit.span.stop rest edits).map fun t => kept ++ edit.replacement ++ t := by
  have start : edit.span.start = (before ++ kept).byteLength := by
    rw [span, Text.byteLength_append]
  have stop : edit.span.stop = (before ++ kept ++ old).byteLength := by
    rw [span, Text.byteLength_append, Text.byteLength_append]
  have fitting : fits src edit.span = true := by
    have left := Text.isBoundary_append (before ++ kept) (old ++ rest)
    have right := Text.isBoundary_append (before ++ kept ++ old) rest
    rw [← start] at left
    rw [← stop] at right
    simp only [List.append_assoc] at left right
    rw [fits, whole, left, right, span]
    simp
  have ordered : ¬ edit.span.start < before.byteLength := by
    rw [span]
    simp
  have behind : edit.span.start - before.byteLength = kept.byteLength := by
    rw [span]
    simp
  have length : edit.span.size = old.byteLength := by
    rw [Span.size, span]
    simp
  rw [applyFrom, fitting, behind, Text.splitAtByte_append]
  simp only [Bool.not_true, Bool.false_eq_true, if_false, ordered, length, Text.splitAtByte_append]

theorem applyFrom_of_replaces {cursor : Nat} {rest out : Text} {edits : List Edit}
    (h : Replaces cursor rest edits out) {src : Text} (before : Text) (whole : src = before ++ rest)
    (size : before.byteLength = cursor) : applyFrom src cursor rest edits = .ok out := by
  induction h generalizing before with
  | done => rfl
  | @next cursor kept old rest out edit edits span _ ih =>
    subst size
    have stop : (before ++ kept ++ old).byteLength = edit.span.stop := by
      rw [span, Text.byteLength_append, Text.byteLength_append]
    rw [applyFrom_cons whole span, ih (before ++ kept ++ old) (by rw [whole]; simp) stop]
    rfl

theorem Replaces.le_start {cursor : Nat} {rest out : Text} {edits : List Edit}
    (h : Replaces cursor rest edits out) : ∀ edit ∈ edits, cursor ≤ edit.span.start := by
  induction h with
  | done => simp
  | next span _ ih =>
    rw [span] at ih
    refine List.forall_mem_cons.2 ⟨by rw [span]; simp, fun edit mem => ?_⟩
    have later := ih edit mem
    dsimp only at later
    omega

theorem Replaces.pairwise {cursor : Nat} {rest out : Text} {edits : List Edit}
    (h : Replaces cursor rest edits out) :
    edits.Pairwise fun a b => a.span.start ≤ b.span.start := by
  induction h with
  | done => exact .nil
  | next span more ih =>
    refine .cons (fun edit mem => ?_) ih
    have later := more.le_start edit mem
    rw [span] at later ⊢
    dsimp only at later ⊢
    omega

/-- Edits that fit are applied. -/
theorem applyAll_of_replaces {src out : Text} {edits : List Edit} (h : Replaces 0 src edits out) :
    applyAll src edits = .ok out := by
  have sorted : edits.mergeSort (fun a b => a.span.start ≤ b.span.start) = edits :=
    List.mergeSort_of_pairwise (h.pairwise.imp fun le => by simpa using le)
  rw [applyAll, sorted]
  exact applyFrom_of_replaces h [] (by rw [List.nil_append]) rfl

open Token (place written)

/-- Replacing tokens one by one. What stands between the cursor and the tokens is
`pending`: tokens that stay move into it. -/
theorem replaces_tokens {ts chosen : List Token} (sub : chosen.Sublist ts) (distinct : ts.Nodup)
    {f : Token → Token} {edit : Token → Edit} (spans : ∀ t, (edit t).span = t.span)
    (gap : ∀ t, (f t).gap = t.gap) (changed : ∀ t ∈ chosen, (f t).text = (edit t).replacement)
    (kept : ∀ t ∈ ts, t ∉ chosen → (f t).text = t.text) (cursor : Nat) (pending tail : Text)
    (placed : place (cursor + pending.byteLength) ts = ts) :
    Replaces cursor (pending ++ (written ts ++ tail)) (chosen.map edit)
      (pending ++ (written (ts.map f) ++ tail)) := by
  induction sub generalizing cursor pending with
  | slnil => exact .done cursor _
  | @cons chosen ts t sub ih =>
    rw [List.nodup_cons] at distinct
    obtain ⟨-, rest⟩ := List.cons.inj placed
    have stays := kept t (List.mem_cons_self ..) fun mem => distinct.1 (sub.subset mem)
    have later := ih distinct.2 changed (fun u mem => kept u (List.mem_cons_of_mem _ mem))
      cursor (pending ++ t.gap ++ t.text) (by simpa [Nat.add_assoc] using rest)
    simpa [gap, stays] using later
  | @cons_cons chosen ts t sub ih =>
    rw [List.nodup_cons] at distinct
    obtain ⟨here, rest⟩ := List.cons.inj placed
    have start : t.start = cursor + (pending ++ t.gap).byteLength := by
      have := congrArg Token.start here
      simpa [Nat.add_assoc] using this.symm
    have span : (edit t).span = ⟨cursor + (pending ++ t.gap).byteLength,
        cursor + (pending ++ t.gap).byteLength + t.text.byteLength⟩ := by
      rw [spans, Token.span, Token.stop, start]
    have stop : (edit t).span.stop =
        cursor + pending.byteLength + t.gap.byteLength + t.text.byteLength := by
      rw [span]
      simp [Nat.add_assoc]
    have others : ∀ u ∈ ts, u ∉ chosen → (f u).text = u.text := by
      intro u mem out
      refine kept u (List.mem_cons_of_mem _ mem) ?_
      rw [List.mem_cons, not_or]
      exact ⟨fun eq => distinct.1 (eq ▸ mem), out⟩
    have later := ih distinct.2 (fun u mem => changed u (List.mem_cons_of_mem _ mem)) others
      (edit t).span.stop [] (by rw [stop]; simpa using rest)
    have step := Replaces.next span later
    simpa [gap, changed t (List.mem_cons_self ..)] using step

end Edit

end GoSplit
