import GoSplit.Proofs.Token.Alike

/-!
Extents and headings of tokens that are alike. Both are the same for alike tokens, and
a fault arises for the ones exactly when it arises for the others; only where a fault
is found, and the text it shows, may differ.
-/

namespace GoSplit

open List (Forall₂)
open Token (Alike)

variable {ts us : List Token}

theorem breaksBeforeNext_congr (h : Forall₂ Alike ts us) :
    breaksBeforeNext ts = breaksBeforeNext us := by
  induction h with
  | nil => rfl
  | @cons t u _ _ like _ ih =>
    rw [breaksBeforeNext, breaksBeforeNext, like.onNewLine_eq, like.isComment_eq, ih]
    cases comment : u.isComment with
    | false => simp
    | true => rw [like.hasNewline_text comment]

theorem nest_congr {stack stack' : List Token} {t u : Token} (outer : Forall₂ Alike stack stack')
    (like : Alike t u) :
    Option.Rel (Forall₂ Alike) (nest stack t).toOption (nest stack' u).toOption := by
  unfold nest
  rcases like.kind_cases with same | ⟨left, right⟩
  · rw [same]
    split
    · exact .some (.cons like outer)
    · next close _ =>
      cases outer with
      | nil => exact .none
      | @cons opener opener' _ _ opening outer =>
        have same := opening.kind_eq_iff (k := .opening close) (by simp) (by simp)
        by_cases closed : opener'.kind = .opening close
        · simp only [closed, same.2 closed, if_true]
          exact .some outer
        · have := mt same.1 closed
          simp only [closed, this, if_false]
          exact .none
    · exact .some outer
  · rcases left with e | e <;> rcases right with e' | e' <;> rw [e, e'] <;> exact .some outer

theorem extentFrom_congr {stack stack' : List Token} (outer : Forall₂ Alike stack stack')
    (h : Forall₂ Alike ts us) :
    (extentFrom stack ts).toOption = (extentFrom stack' us).toOption := by
  induction h generalizing stack stack' with
  | nil =>
    cases outer with
    | nil => rfl
    | cons _ _ =>
      unfold extentFrom
      split
      · split
        · rfl
        · simp_all
      · simp_all
  | @cons t u ts us like more ih =>
    have mapped : ∀ {a b : Except ParseFault Extent}, a.toOption = b.toOption →
        (a.map Extent.succ).toOption = (b.map Extent.succ).toOption := by
      intro a b same
      cases a <;> cases b <;> simp_all [Except.toOption, Except.map]
    have empty : stack.isEmpty = stack'.isEmpty := by cases outer <;> rfl
    rw [extentFrom, extentFrom, like.isComment_eq]
    split
    · exact mapped (ih outer)
    · rw [like.kind_beq (by simp) (by simp), empty]
      split
      · rfl
      · have nested := nest_congr outer like
        cases left : nest stack t with
        | error fault =>
          cases right : nest stack' u with
          | error fault' => rfl
          | ok inside =>
            rw [left, right] at nested
            cases nested
        | ok inside =>
          cases right : nest stack' u with
          | error fault' =>
            rw [left, right] at nested
            cases nested
          | ok inside' =>
            rw [left, right] at nested
            have same : Forall₂ Alike inside inside' := by
              cases nested
              assumption
            have still : inside.isEmpty = inside'.isEmpty := by cases same <;> rfl
            simp only [still, like.endsStatement_eq, breaksBeforeNext_congr more]
            split
            · rfl
            · exact mapped (ih same)

/-! ### Headings -/

theorem splitAtClose_congr (h : Forall₂ Alike ts us) (inner : Nat) :
    Option.Rel (fun a b => Forall₂ Alike a.1 b.1 ∧ Forall₂ Alike a.2 b.2)
      (splitAtClose inner ts) (splitAtClose inner us) := by
  induction h generalizing inner with
  | nil => exact .none
  | @cons t u ts us like more ih =>
    have deeper : ∀ n, Option.Rel (fun a b => Forall₂ Alike a.1 b.1 ∧ Forall₂ Alike a.2 b.2)
        ((splitAtClose n ts).map fun cut => (t :: cut.1, cut.2))
        ((splitAtClose n us).map fun cut => (u :: cut.1, cut.2)) := by
      intro n
      have step := ih n
      generalize splitAtClose n ts = left at step ⊢
      generalize splitAtClose n us = right at step ⊢
      cases step with
      | none => exact .none
      | some both => exact .some ⟨.cons like both.1, both.2⟩
    unfold splitAtClose
    rcases like.kind_cases with same | ⟨left, right⟩
    · simp only [same]
      split
      · exact deeper _
      · split
        · exact .some ⟨.nil, more⟩
        · exact deeper _
      · exact deeper _
    · rcases left with e | e <;> rcases right with e' | e' <;> simp only [e, e'] <;>
        exact deeper _

namespace Receiver

theorem named_congr (h : Forall₂ Alike ts us) : named ts = named us := by
  rcases h with _ | ⟨first, _ | ⟨second, _⟩⟩
  · rfl
  · rfl
  · simp only [named, first.kind_beq (k := .ident) (by simp) (by simp),
      second.kind_beq (k := .ident) (by simp) (by simp), second.isStar_eq]

theorem ofType_congr (h : Forall₂ Alike ts us) (name : Option Text) :
    ofType name ts = ofType name us := by
  rcases h with _ | ⟨first, more⟩
  · rfl
  · unfold ofType
    simp only [first.isStar_eq, first.kind_eq_iff (k := .ident) (by simp) (by simp)]
    split
    · rcases more with _ | ⟨base, _⟩
      · rfl
      · simp only [base.kind_eq_iff (k := .ident) (by simp) (by simp)]
        split
        · next ident => rw [base.ident_text_eq ident]
        · rfl
    · split
      · next ident => rw [first.ident_text_eq ident]
      · rfl

theorem ofTokens_congr (h : Forall₂ Alike ts us) : ofTokens ts = ofTokens us := by
  have relevant : Forall₂ Alike
      (ts.filter fun t => t.kind == .ident || t.kind == .opening .square || t.isStar)
      (us.filter fun t => t.kind == .ident || t.kind == .opening .square || t.isStar) := by
    apply Token.forall₂_filter h
    intro t u like
    rw [like.kind_beq (by simp) (by simp), like.kind_beq (by simp) (by simp), like.isStar_eq]
  unfold ofTokens
  simp only
  generalize ts.filter _ = left at relevant ⊢
  generalize us.filter _ = right at relevant ⊢
  cases relevant with
  | nil => rfl
  | @cons first first' _ _ like more =>
    have names := named_congr (.cons like more)
    simp only [names]
    split
    · next both =>
      have ident : first'.kind = .ident := by
        rcases more with _ | ⟨second, _⟩ <;> simp_all [named]
      rw [like.ident_text_eq ident, ofType_congr more]
    · exact ofType_congr (.cons like more) none

end Receiver

namespace Heading

theorem namesFrom_congr (h : Forall₂ Alike ts us) (grouped several : Bool) (scan : Scan) :
    namesFrom grouped several scan ts = namesFrom grouped several scan us := by
  induction h generalizing scan with
  | nil => rfl
  | @cons t u ts us like more ih =>
    have next : ((ts.head?.map (·.kind)) == some .ident) =
        ((us.head?.map (·.kind)) == some Token.Kind.ident) := by
      cases more with
      | nil => rfl
      | cons like _ =>
        simpa using like.kind_eq_iff (k := .ident) (by simp) (by simp)
    unfold namesFrom
    rcases like.kind_cases with same | ⟨left, right⟩
    · simp only [same, like.onNewLine_eq, next, ih]
      split
      · rfl
      · rfl
      · next kind _ _ =>
        by_cases ident : u.kind = .ident
        · rw [like.ident_text_eq ident]
        · simp [ident]
    · have string : (Token.Kind.string == .comma) = false := rfl
      have raw : (Token.Kind.rawString == .comma) = false := rfl
      rcases left with e | e <;> rcases right with e' | e' <;>
        simp [e, e', like.onNewLine_eq, ih, string, raw]

/-- The names depend on the tokens that are no comments. -/
theorem declaredNames_congr
    (h : Forall₂ Alike (Token.withoutComments ts) (Token.withoutComments us)) (several : Bool) :
    declaredNames several ts = declaredNames several us := by
  unfold declaredNames
  generalize Token.withoutComments ts = left at h ⊢
  generalize Token.withoutComments us = right at h ⊢
  cases h with
  | nil => rfl
  | cons like more =>
    simp only [like.kind_eq_iff (k := .opening .paren) (by simp) (by simp)]
    split
    · exact namesFrom_congr more ..
    · exact namesFrom_congr (.cons like more) ..

theorem ofFunc_congr {keyword keyword' : Token} (after after' : List Token)
    (h : Forall₂ Alike (Token.withoutComments ts) (Token.withoutComments us)) :
    (ofFunc keyword ts after).toOption = (ofFunc keyword' us after').toOption := by
  unfold ofFunc
  generalize Token.withoutComments ts = left at h ⊢
  generalize Token.withoutComments us = right at h ⊢
  cases h with
  | nil => rfl
  | @cons first first' rest rest' like more =>
    simp only [like.kind_eq_iff (k := .opening .paren) (by simp) (by simp),
      like.kind_eq_iff (k := .ident) (by simp) (by simp)]
    split
    · have cut := splitAtClose_congr more 0
      generalize splitAtClose 0 rest = left at cut ⊢
      generalize splitAtClose 0 rest' = right at cut ⊢
      cases cut with
      | none => rfl
      | @some pair pair' both =>
        obtain ⟨inner, behind⟩ := pair
        obtain ⟨inner', behind'⟩ := pair'
        obtain ⟨inside, behind⟩ := both
        simp only [Receiver.ofTokens_congr inside]
        cases Receiver.ofTokens inner' with
        | none => rfl
        | some receiver =>
          cases behind with
          | nil => rfl
          | @cons name name' _ _ like _ =>
            simp only [like.kind_eq_iff (k := .ident) (by simp) (by simp)]
            split
            · next ident => rw [like.ident_text_eq ident]
            · rfl
    · split
      · next ident => rw [like.ident_text_eq ident]
      · rfl

/-- The heading depends on the tokens of the declaration that are no comments; those
behind it matter for faults only. -/
theorem read_congr {keyword keyword' : Token} (word : ∀ w, keyword.isWord w = keyword'.isWord w)
    (after after' : List Token)
    (h : Forall₂ Alike (Token.withoutComments ts) (Token.withoutComments us)) :
    (read keyword ts after).toOption = (read keyword' us after').toOption := by
  unfold read
  simp only [word, declaredNames_congr h]
  split
  · exact ofFunc_congr after after' h
  · split
    · rfl
    · split <;> rfl

end Heading

end GoSplit
