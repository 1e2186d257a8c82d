import GoSplit.Proofs.SourceFile.Items
import GoSplit.Proofs.Token.Chained

/-!
Tokens that have been moved to another place of a text. There they stand elsewhere, and
the first of them has other white space in front of it; a layout puts several groups of
tokens below each other.
-/

namespace GoSplit.Token

open List (Forall₂)
open SourceFile (StartsLine)

/-- The same token in another place. -/
structure Same (t u : Token) : Prop where
  kind : t.kind = u.kind
  gap : t.gap = u.gap
  text : t.text = u.text

theorem Same.alike {t u : Token} (h : Same t u) : Alike t u :=
  ⟨by rw [h.gap], .inl ⟨h.kind, h.text⟩⟩

theorem Same.trans {t u v : Token} (h : Same t u) (h' : Same u v) : Same t v :=
  ⟨h.kind.trans h'.kind, h.gap.trans h'.gap, h.text.trans h'.text⟩

instance : Std.Refl Same := ⟨fun _ => ⟨rfl, rfl, rfl⟩⟩

theorem same_trans {ts us vs : List Token} (h : Forall₂ Same ts us) (h' : Forall₂ Same us vs) :
    Forall₂ Same ts vs := by
  induction h generalizing vs with
  | nil => exact h'
  | cons same _ ih =>
    cases h' with
    | cons same' more => exact .cons (same.trans same') (ih more)

theorem startsLine_of_same {ts us : List Token} (h : Forall₂ Same ts us)
    (starts : StartsLine us) : StartsLine ts := by
  cases h with
  | nil => exact starts
  | @cons t u _ _ same _ =>
    intro t' mem
    obtain rfl := Option.some.inj mem
    rw [same.alike.onNewLine_eq]
    exact starts u rfl

theorem forall₂_place (offset : Nat) (ts : List Token) : Forall₂ Same (place offset ts) ts := by
  induction ts generalizing offset with
  | nil => exact .nil
  | cons t ts ih => exact .cons ⟨rfl, rfl, rfl⟩ (ih _)

/-- The same tokens in another place, where other white space comes first. -/
inductive Moved : List Token → List Token → Prop
  | nil : Moved [] []
  | cons {t u : Token} {ts us : List Token} : t.kind = u.kind → t.text = u.text →
    Forall₂ Same ts us → Moved (t :: ts) (u :: us)

namespace Moved

theorem pushGap (gap : Text) (ts : List Token) : Moved (Token.pushGap gap ts) ts := by
  cases ts with
  | nil => exact .nil
  | cons t ts => exact .cons rfl rfl (List.forall₂_refl _)

theorem of_same {ts us : List Token} (h : Forall₂ Same ts us) : Moved ts us := by
  cases h with
  | nil => exact .nil
  | cons same more => exact .cons same.kind same.text more

theorem trans {ts us vs : List Token} (h : Moved ts us) (h' : Moved us vs) : Moved ts vs := by
  cases h with
  | nil =>
    cases h'
    exact .nil
  | cons kind text more =>
    cases h' with
    | cons kind' text' more' =>
      exact .cons (kind.trans kind') (text.trans text') (same_trans more more')

theorem forall₂ {ts us : List Token} (h : Moved ts us) :
    Forall₂ (fun t u => t.kind = u.kind ∧ t.text = u.text) ts us := by
  cases h with
  | nil => exact .nil
  | cons kind text more =>
    exact .cons ⟨kind, text⟩ (more.imp fun _ _ same => ⟨same.kind, same.text⟩)

/-- What is said of kinds only stays true. -/
theorem forall_kind {ts us : List Token} (h : Moved ts us) {p : Kind → Prop}
    (all : ∀ u ∈ us, p u.kind) : ∀ t ∈ ts, p t.kind :=
  forall_of_forall₂ (p := fun t => p t.kind) h.forall₂ (fun _ _ same known => same.1 ▸ known) all

theorem written_eq_of_same {ts us : List Token} (h : Forall₂ Same ts us) :
    written ts = written us := by
  induction h with
  | nil => rfl
  | cons same _ ih => rw [written_cons, written_cons, same.gap, same.text, ih]

/-- White space in front is no part of the text. -/
theorem spell_eq {ts us : List Token} (h : Moved ts us) : spell ts = spell us := by
  cases h with
  | nil => rfl
  | cons _ text more =>
    have rest := written_eq_of_same more
    unfold written at rest
    rw [spell, spell, text, rest]

/-- Cuts in front of a token. -/
theorem exists_cons {ts before after : List Token} {u : Token}
    (h : Moved ts (before ++ u :: after)) :
    ∃ before' t after', ts = before' ++ t :: after' ∧ Moved before' before ∧ t.kind = u.kind ∧
      t.text = u.text ∧ Forall₂ Same after' after := by
  cases before with
  | nil =>
    cases h with
    | @cons t _ ts _ kind text more => exact ⟨[], t, ts, rfl, .nil, kind, text, more⟩
  | cons v before =>
    cases h with
    | @cons t _ ts _ kind text more =>
      have left := List.forall₂_take_append _ _ _ more
      have right := List.forall₂_drop_append _ _ _ more
      obtain ⟨t', after', same, rest, eq⟩ := List.forall₂_cons_right_iff.1 right
      refine ⟨t :: ts.take before.length, t', after', ?_, .cons kind text left, same.kind,
        same.text, rest⟩
      rw [List.cons_append, ← eq, List.take_append_drop]

end Moved

/-- Groups of tokens below each other. -/
inductive Layout : List (List Token) → List Token → Prop
  | nil : Layout [] []
  | cons {group ts us : List Token} {groups : List (List Token)} : Moved ts group →
    StartsLine ts → Layout groups us → Layout (group :: groups) (ts ++ us)

theorem Layout.of_same {groups : List (List Token)} {ts us : List Token} (h : Layout groups us)
    (same : Forall₂ Same ts us) : Layout groups ts := by
  induction h generalizing ts with
  | nil =>
    cases same
    exact .nil
  | @cons group left right groups moved starts _ ih =>
    have first := List.forall₂_take_append _ _ _ same
    have rest := List.forall₂_drop_append _ _ _ same
    rw [← List.take_append_drop left.length ts]
    exact .cons ((Moved.of_same first).trans moved) (startsLine_of_same first starts) (ih rest)

/-- Texts with an empty line between each two of them hold the tokens of all of them. -/
theorem exists_covers_layout {groups : List (List Token)} {texts : List Text}
    (h : Forall₂ Covers groups texts) {ts : List Token} {s : Text} (first : Covers ts s) :
    ∃ us, Layout groups us ∧ Covers (ts ++ us) (s ++ texts.flatMap fun t => '\n' :: '\n' :: t) := by
  induction h generalizing ts s with
  | nil => exact ⟨[], .nil, by simpa using first⟩
  | @cons group text groups texts covers _ ih =>
    obtain ⟨gap, -, breaks, both⟩ := first.appendLine (covers.prepend blank_newline)
    obtain ⟨us, layout, whole⟩ := ih both
    refine ⟨Token.pushGap gap (Token.pushGap ['\n'] group) ++ us, ?_, ?_⟩
    · refine .cons ((Moved.pushGap _ _).trans (Moved.pushGap _ _)) ?_ layout
      intro t mem
      cases group with
      | nil => simp [Token.pushGap] at mem
      | cons u group =>
        obtain rfl := Option.some.inj mem
        simp [onNewLine, Text.hasNewline]
    · simpa using whole

end GoSplit.Token
