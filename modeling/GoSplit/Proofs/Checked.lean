import GoSplit.Proofs.Token.Tiling

/-!
Computations that stop at what they must not do. An index has to be in range, a slice has to
have its ends in order, within the text and between characters, a difference of counts must
not fall below zero, and a loop has to end within a number of turns known in advance. Where
one of these fails there is no result at all, neither a value nor an error.
-/

namespace GoSplit

/-- A computation that gives a value or an error, or stops. -/
abbrev Checked (ε α : Type) := ExceptT ε Option α

namespace Checked

variable {ε α β σ : Type}

def stop : Checked ε α := ExceptT.mk none

/-- A computation that has come to its end. -/
def ofExcept (result : Except ε α) : Checked ε α := ExceptT.mk (some result)

def ofOption : Option α → Checked ε α
  | some a => pure a
  | none => stop

/-- The element at an index. -/
def item (items : List α) (index : Nat) : Checked ε α := ofOption items[index]?

/-- The text between two bytes. -/
def slice (src : Text) (start stop : Nat) : Checked ε Text := ofOption (src.slice? ⟨start, stop⟩)

/-- The difference of two counts. -/
def minus (a b : Nat) : Checked ε Nat := if b ≤ a then pure (a - b) else stop

/-- What a turn of a loop comes to. -/
inductive Turn (σ β : Type) where
  | again (state : σ)
  | finished (result : β)

/-- A loop that may make the given number of turns. -/
def loop (turn : σ → Checked ε (Turn σ β)) : Nat → σ → Checked ε β
  | 0, _ => stop
  | turns + 1, state => do
    match ← turn state with
    | .again state => loop turn turns state
    | .finished result => return result

@[simp] theorem ofExcept_ok (a : α) : (ofExcept (.ok a) : Checked ε α) = pure a := rfl

@[simp] theorem ofExcept_error (e : ε) : (ofExcept (.error e) : Checked ε α) = throw e := rfl

@[simp] theorem throw_bind (e : ε) (next : α → Checked ε β) :
    ((throw e : Checked ε α) >>= next) = throw e := rfl

@[simp] theorem ofOption_some (a : α) : (ofOption (some a) : Checked ε α) = pure a := rfl

theorem item_of_getElem? {items : List α} {index : Nat} {a : α} (h : items[index]? = some a) :
    (item items index : Checked ε α) = pure a := by
  rw [item, h, ofOption_some]

theorem slice_of_slice? {src inside : Text} {start stop : Nat}
    (h : src.slice? ⟨start, stop⟩ = some inside) :
    (slice src start stop : Checked ε Text) = pure inside := by
  rw [slice, h, ofOption_some]

theorem minus_of_le {a b : Nat} (h : b ≤ a) : (minus a b : Checked ε Nat) = pure (a - b) :=
  if_pos h

variable {turn : σ → Checked ε (Turn σ β)} {state : σ}

theorem loop_again {next : σ} (h : turn state = pure (.again next)) (turns : Nat) :
    loop turn (turns + 1) state = loop turn turns next := by
  rw [loop, h, pure_bind]

theorem loop_finished {result : β} (h : turn state = pure (.finished result)) (turns : Nat) :
    loop turn (turns + 1) state = pure result := by
  rw [loop, h, pure_bind]

theorem loop_throw {e : ε} (h : turn state = throw e) (turns : Nat) :
    loop turn (turns + 1) state = throw e := by
  rw [loop, h, throw_bind]

/-- A loop that counts up makes one turn for each number. -/
theorem loop_upward {turn : Nat → Checked ε (Turn Nat β)} {n start : Nat}
    (h : ∀ i < n, turn (start + i) = pure (.again (start + i + 1))) (turns : Nat) :
    loop turn (turns + n) start = loop turn turns (start + n) := by
  induction n generalizing start with
  | zero => rfl
  | succ n ih =>
    have first : turn start = pure (.again (start + 1)) := h 0 (Nat.succ_pos n)
    have others : ∀ i < n, turn (start + 1 + i) = pure (.again (start + 1 + i + 1)) := by
      intro i less
      rw [Nat.add_assoc start, Nat.add_comm 1]
      exact h (i + 1) (Nat.succ_lt_succ less)
    rw [← Nat.add_assoc, loop_again first, ih others, Nat.add_assoc, Nat.add_comm 1]

end Checked

end GoSplit
