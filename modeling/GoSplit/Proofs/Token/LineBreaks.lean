import GoSplit.Proofs.Token.Chained
import Mathlib.Data.List.Basic

/-!
Lexing splits at line breaks. No token looks past the line break that follows it, so what stands
behind one is read as if it were a text by itself, only further on.
-/

namespace GoSplit

/-- The error further on in a text. -/
def LexError.move (distance : Nat) (e : LexError) : LexError :=
  { e with offset := e.offset + distance }

namespace Token

variable {src gap a b : Text} {ts : List Token}

theorem collect_ok_append {α : Type} (as : List α) (rest : List (Except LexError α)) :
    collect (as.map .ok ++ rest) = (collect rest).map (as ++ ·) := by
  induction as with
  | nil => cases found : collect rest <;> simp [found, Except.map]
  | cons a as ih =>
    rw [List.map_cons, List.cons_append, collect, ih]
    cases collect rest <;> rfl

theorem collect_ok_cons {α : Type} (a : α) (rest : List (Except LexError α)) :
    collect (.ok a :: rest) = (collect rest).map (a :: ·) :=
  collect_ok_append [a] rest

/-- Where a text stands is seen in the offsets and nowhere else. -/
theorem collect_streamFrom_move (distance offset : Nat) (src : Text) :
    collect (streamFrom (offset + distance) src) =
      ((collect (streamFrom offset src)).map (List.map (move distance))).mapError
        (LexError.move distance) := by
  -- The text left over gets shorter with every token.
  induction size : src.length using Nat.strongRecOn generalizing src offset with
  | _ n ih =>
    cases left : src.dropWhile isSpace with
    | nil => rw [streamFrom_eq_nil left, streamFrom_eq_nil left]; rfl
    | cons c rest =>
      cases read : scan c rest with
      | error cause =>
        rw [streamFrom_eq_error left read, streamFrom_eq_error left read, Nat.add_right_comm]
        rfl
      | ok found =>
        obtain ⟨kind, m⟩ := found
        have shorter : (rest.drop m).length < n := by
          have := length_dropWhile_le isSpace src
          rw [left] at this
          simp at this ⊢
          omega
        have next := ih _ shorter (offset + Text.byteLength (src.takeWhile isSpace) +
          Text.byteLength (c :: rest.take m)) (rest.drop m) rfl
        rw [streamFrom_eq_cons left read, streamFrom_eq_cons left read, collect_ok_cons,
          collect_ok_cons, Nat.add_right_comm, Nat.add_right_comm _ distance, next]
        cases collect (streamFrom (offset + Text.byteLength (src.takeWhile isSpace) +
          Text.byteLength (c :: rest.take m)) (rest.drop m)) <;> rfl

/-- White space in front of a text goes to the gap of its first token. -/
theorem collect_streamFrom_pushGap (blank : Blank gap) (offset : Nat) (src : Text) :
    collect (streamFrom offset (gap ++ src)) =
      (collect (streamFrom (offset + gap.byteLength) src)).map (pushGap gap) := by
  have before : (gap ++ src).takeWhile isSpace = gap ++ src.takeWhile isSpace :=
    List.takeWhile_append_of_pos blank
  have behind : (gap ++ src).dropWhile isSpace = src.dropWhile isSpace :=
    List.dropWhile_append_of_pos blank
  cases left : src.dropWhile isSpace with
  | nil => rw [streamFrom_eq_nil (behind.trans left), streamFrom_eq_nil left]; rfl
  | cons c rest =>
    cases read : scan c rest with
    | error cause =>
      rw [streamFrom_eq_error (behind.trans left) read, streamFrom_eq_error left read, before,
        Text.byteLength_append, ← Nat.add_assoc]
      rfl
    | ok found =>
      obtain ⟨kind, m⟩ := found
      rw [streamFrom_eq_cons (behind.trans left) read, streamFrom_eq_cons left read, before,
        Text.byteLength_append, ← Nat.add_assoc, collect_ok_cons, collect_ok_cons]
      cases collect (streamFrom (offset + gap.byteLength + Text.byteLength (src.takeWhile isSpace) +
        Text.byteLength (c :: rest.take m)) (rest.drop m)) <;> rfl

/-- Lexing splits at line breaks. Of two texts with a line break between them, of which the first
one lexes, the tokens are those of the first and those of the second, which stand further on
by the length of the first and one; the white space behind the last token of the first text and the
line break are in front of the first token of the second. Where the second text does not
lex, its error is the error of both, as much further on. -/
theorem tokenize_appendLine (first : tokenize a = .ok ts) (b : Text) :
    tokenize (a ++ '\n' :: b) =
      match tokenize b with
      | .ok us =>
        .ok (ts ++ pushGap (a.drop (written ts).length ++ ['\n'])
          (us.map (move (a.byteLength + 1))))
      | .error e => .error ⟨e.cause, e.offset + (a.byteLength + 1)⟩ := by
  obtain ⟨tail, rfl, chained, blank, placed⟩ := tokenize_eq_ok_iff.1 first
  have gap : Blank (tail ++ ['\n']) := blank_append.2 ⟨blank, blank_newline⟩
  have cut : written ts ++ tail ++ '\n' :: b = written ts ++ ((tail ++ ['\n']) ++ b) := by simp
  have follows : Chained ts ((tail ++ ['\n']) ++ b) := by
    have broken := chained.insertNewline b
    rwa [List.append_cons] at broken
  have reached : 0 + (written ts).byteLength + Text.byteLength (tail ++ ['\n']) =
      0 + ((written ts ++ tail).byteLength + 1) := by
    have newline : '\n'.utf8Size = 1 := rfl
    simp [newline]
    omega
  rw [tokenize, stream, cut, streamFrom_append follows, placed, collect_ok_append,
    collect_streamFrom_pushGap gap, reached, collect_streamFrom_move, tokenize, stream,
    List.drop_left]
  cases collect (streamFrom 0 b) <;> rfl

/-- A number that ends in an exponent mark does not take the sign of the next line, and the carriage
return behind it belongs to the gap. -/
theorem tokenize_appendLine_exponent :
    tokenize "1e\r".toList = .ok [⟨.number, [], "1e".toList, 0⟩] ∧
      tokenize ("1e\r".toList ++ '\n' :: "+2".toList) =
        .ok [⟨.number, [], "1e".toList, 0⟩, ⟨.op, "\r\n".toList, "+".toList, 4⟩,
          ⟨.number, [], "2".toList, 5⟩] := by
  have first : tokenize "1e\r".toList = .ok [⟨.number, [], "1e".toList, 0⟩] := by decide +kernel
  have second : tokenize "+2".toList =
      .ok [⟨.op, [], "+".toList, 0⟩, ⟨.number, [], "2".toList, 1⟩] := by
    decide +kernel
  refine ⟨first, ?_⟩
  rw [tokenize_appendLine first, second]
  decide +kernel

end Token

end GoSplit
