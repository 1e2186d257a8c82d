import GoSplit.Proofs.Checked.Parser
import GoSplit.Proofs.Shading.Workers

/-!
What a position says. The line counts the line breaks in front of an offset and the column the
bytes behind the last of them, for every offset, be it in the middle of a character or behind the
end. The table of a file is made once, so positions stay what they are while further files are
added; and within a file a later offset has a later position.
-/

namespace GoSplit

open Checked.Lexer (bytes)

/-! ### Line starts, byte by byte -/

/-- The byte of a line break, which is part of no other character. -/
def newlineByte : UInt8 := 10

/-- Offsets right behind the line breaks among bytes that stand at `offset`. -/
def lineStartsIn (offset : Nat) : List UInt8 → List Nat
  | [] => []
  | b :: bs =>
    if b = newlineByte then (offset + 1) :: lineStartsIn (offset + 1) bs
    else lineStartsIn (offset + 1) bs

variable {offset n : Nat}

theorem lineStartsIn_append (offset : Nat) (bs bs' : List UInt8) :
    lineStartsIn offset (bs ++ bs') = lineStartsIn offset bs ++
      lineStartsIn (offset + bs.length) bs' := by
  induction bs generalizing offset with
  | nil => rfl
  | cons b bs ih =>
    have next : offset + 1 + bs.length = offset + (b :: bs).length := by
      rw [List.length_cons]
      omega
    rw [List.cons_append, lineStartsIn, lineStartsIn, ih, next]
    split <;> rfl

theorem lineStartsIn_eq_nil {bs : List UInt8} (plain : newlineByte ∉ bs) :
    lineStartsIn offset bs = [] := by
  induction bs generalizing offset with
  | nil => rfl
  | cons b bs ih =>
    rw [List.mem_cons, not_or] at plain
    rw [lineStartsIn, if_neg (Ne.symm plain.1), ih plain.2]

theorem newlineByte_not_mem {c : Char} (other : c ≠ '\n') :
    newlineByte ∉ String.utf8EncodeChar c := by
  intro mem
  rcases Nat.lt_or_ge c.toNat 128 with ascii | wide
  · rw [Checked.Lexer.utf8EncodeChar_of_ascii ascii, List.mem_singleton] at mem
    have code : newlineByte.toNat = (UInt8.ofNat c.toNat).toNat := congrArg UInt8.toNat mem
    rw [UInt8.toNat_ofNat', Nat.mod_eq_of_lt (by omega)] at code
    exact other (Char.toNat_inj.1 code.symm)
  · exact absurd (Checked.Lexer.le_of_mem_utf8EncodeChar wide mem) (by decide)

/-- The table of a text is that of its bytes. -/
theorem lineStartsFrom_eq (offset : Nat) (src : Text) :
    lineStartsFrom offset src = lineStartsIn offset (bytes src) := by
  induction src generalizing offset with
  | nil => rfl
  | cons c src ih =>
    have cut : bytes (c :: src) = String.utf8EncodeChar c ++ bytes src := List.flatMap_cons
    rw [cut, lineStartsIn_append, String.length_utf8EncodeChar, lineStartsFrom]
    split
    · next newline =>
      rw [newline, ih]
      rfl
    · next other => rw [lineStartsIn_eq_nil (newlineByte_not_mem other), List.nil_append, ih]

theorem lt_of_mem_lineStartsIn {x : Nat} {bs : List UInt8} (mem : x ∈ lineStartsIn offset bs) :
    offset < x := by
  induction bs generalizing offset with
  | nil => cases mem
  | cons b bs ih =>
    rw [lineStartsIn] at mem
    split at mem
    · rcases List.mem_cons.1 mem with rfl | mem
      · exact Nat.lt_succ_self _
      · exact Nat.lt_of_succ_lt (ih mem)
    · exact Nat.lt_of_succ_lt (ih mem)

/-- The lines that start up to some byte are those of the bytes in front of it. -/
theorem takeWhile_lineStartsIn (offset n : Nat) (bs : List UInt8) :
    (lineStartsIn offset bs).takeWhile (· ≤ offset + n) = lineStartsIn offset (bs.take n) := by
  induction bs generalizing offset n with
  | nil => simp [lineStartsIn]
  | cons b bs ih =>
    cases n with
    | zero =>
      have late : ∀ x ∈ lineStartsIn offset (b :: bs), ¬ x ≤ offset + 0 := fun x mem =>
        Nat.not_le.2 (lt_of_mem_lineStartsIn mem)
      rw [List.take_zero, lineStartsIn]
      cases starts : lineStartsIn offset (b :: bs) with
      | nil => rfl
      | cons x xs => exact List.takeWhile_cons_of_neg (by simpa using late x (by simp [starts]))
    | succ n =>
      have next : offset + (n + 1) = offset + 1 + n := by omega
      rw [List.take_succ_cons, lineStartsIn, lineStartsIn, next]
      split
      · rw [List.takeWhile_cons_of_pos (by simp), ih]
      · exact ih (offset + 1) n

theorem length_lineStartsIn (offset : Nat) (bs : List UInt8) :
    (lineStartsIn offset bs).length = bs.count newlineByte := by
  induction bs generalizing offset with
  | nil => rfl
  | cons b bs ih =>
    rw [lineStartsIn, List.count_cons]
    split
    · next eq => simp [eq, ih]
    · next ne => simp [ne, ih]

/-! ### What is behind the last line break -/

/-- The number of bytes behind the last line break. -/
def sinceNewline (bs : List UInt8) : Nat := (bs.reverse.takeWhile (· != newlineByte)).length

theorem sinceNewline_concat (bs : List UInt8) (b : UInt8) :
    sinceNewline (bs ++ [b]) = if b = newlineByte then 0 else sinceNewline bs + 1 := by
  rw [sinceNewline, List.reverse_concat]
  split
  · next eq => rw [List.takeWhile_cons_of_neg (by simp [eq]), List.length_nil]
  · next ne => rw [List.takeWhile_cons_of_pos (by simp [ne]), List.length_cons, sinceNewline]

/-- The last line starts where the last line break ends. -/
theorem getLastD_lineStartsIn (offset : Nat) (bs : List UInt8) :
    (lineStartsIn offset bs).getLastD offset + sinceNewline bs = offset + bs.length := by
  induction bs using List.reverseRecOn with
  | nil => rfl
  | append_singleton bs b ih =>
    rw [lineStartsIn_append, sinceNewline_concat, List.length_append]
    by_cases newline : b = newlineByte
    · simp [lineStartsIn, newline]
      omega
    · rw [lineStartsIn, if_neg newline, if_neg newline, lineStartsIn, List.append_nil,
        List.length_singleton]
      omega

/-- Bytes without a line break make the last line longer. -/
theorem sinceNewline_append {bs more : List UInt8} (plain : newlineByte ∉ more) :
    sinceNewline (bs ++ more) = sinceNewline bs + more.length := by
  have all : ∀ b ∈ more.reverse, (b != newlineByte) = true := by
    intro b mem
    rw [bne_iff_ne]
    rintro rfl
    exact plain (List.mem_reverse.1 mem)
  rw [sinceNewline, List.reverse_append, List.takeWhile_append_of_pos all, List.length_append,
    List.length_reverse, Nat.add_comm, sinceNewline]

/-! ### Positions -/

namespace Position

/-- Line and column by counting in the bytes in front of an offset. -/
def counted (name src : Text) (offset : Nat) : Position :=
  let seen := (bytes src).take (min offset src.byteLength)
  ⟨name, 1 + seen.count newlineByte, 1 + sinceNewline seen⟩

theorem locate_eq_counted (name src : Text) (offset : Nat) :
    locate name src offset = counted name src offset := by
  let n := min offset src.byteLength
  let seen := (bytes src).take n
  have short : seen.length = n := by
    rw [List.length_take, Checked.Lexer.length_bytes]
    omega
  have started : (0 :: lineStartsFrom 0 src).takeWhile (· ≤ n) = 0 :: lineStartsIn 0 seen := by
    have below := takeWhile_lineStartsIn 0 n (bytes src)
    rw [Nat.zero_add] at below
    rw [List.takeWhile_cons_of_pos (by simp), lineStartsFrom_eq, below]
  have last := getLastD_lineStartsIn 0 seen
  have lengthOf := length_lineStartsIn 0 seen
  change (⟨name, ((0 :: lineStartsFrom 0 src).takeWhile (· ≤ n)).length,
    n - ((0 :: lineStartsFrom 0 src).takeWhile (· ≤ n)).getLastD 0 + 1⟩ : Position) =
    ⟨name, 1 + seen.count newlineByte, 1 + sinceNewline seen⟩
  rw [started, List.length_cons, lengthOf, List.getLastD_cons]
  congr 1
  · omega
  · omega

/-- The first position stands in front of the second. -/
def Before (p q : Position) : Prop := p.line < q.line ∨ p.line = q.line ∧ p.column < q.column

theorem counted_before (name : Text) {src : Text} {offset later : Nat} (lt : offset < later)
    (inside : later ≤ src.byteLength) :
    (counted name src offset).Before (counted name src later) := by
  obtain ⟨more, whole, some⟩ : ∃ more, (bytes src).take later = (bytes src).take offset ++ more ∧
      0 < more.length := by
    refine ⟨((bytes src).drop offset).take (later - offset), ?_, ?_⟩
    · have split : (bytes src).take (offset + (later - offset)) = _ := List.take_add
      rwa [Nat.add_sub_cancel' lt.le] at split
    · rw [List.length_take, List.length_drop, Checked.Lexer.length_bytes]
      omega
  rw [Before, counted, counted, Nat.min_eq_left (by omega), Nat.min_eq_left inside, whole]
  by_cases newline : newlineByte ∈ more
  · have counts := List.count_pos_iff.2 newline
    refine .inl ?_
    simp only [List.count_append]
    omega
  · refine .inr ⟨?_, ?_⟩
    · simp [List.count_append, List.count_eq_zero.2 newline]
    · simp only [sinceNewline_append newline]
      omega

end Position

/-! ### Files that are added -/

namespace FileSet

/-- Adds files one after the other. -/
def addAll (set : FileSet) (files : List (Text × Text)) : FileSet :=
  files.foldl (fun set file => (set.add file.1 file.2).2) set

theorem length_addAll (set : FileSet) (files : List (Text × Text)) :
    (set.addAll files).files.length = set.files.length + files.length := by
  induction files generalizing set with
  | nil => rfl
  | cons file files ih =>
    have more : (set.addAll (file :: files)).files.length =
        ((set.add file.1 file.2).2.addAll files).files.length := rfl
    rw [more, ih, add, List.length_append, List.length_cons, List.length_cons]
    simp
    omega

theorem entryOf_addAll {set : FileSet} {handle : Handle} {entry : Entry}
    (known : set.entryOf handle = some entry) (files : List (Text × Text)) :
    (set.addAll files).entryOf handle = some entry := by
  induction files generalizing set with
  | nil => exact known
  | cons file files ih => exact ih (entryOf_add_of_some known file.1 file.2)

/-- Whatever files are added before and after a file, its handle gives the position that counting
gives, under the name it was added by; searching the table for the offset gives the same. A handle
is the number of files added before, and while there are fewer than 2³² it fits into 32 bits. A
later offset of the file has a later position. -/
theorem position_counts (before after : List (Text × Text)) (name src : Text) :
    let added := (empty.addAll before).add name src
    let later := added.2.addAll after
    (∀ offset,
      later.position added.1 offset = Position.counted name src offset ∧
      added.2.position added.1 offset = Position.counted name src offset ∧
      (Checked.position name src offset : Checked Empty Position) =
        pure (Position.counted name src offset)) ∧
    (before.length < UInt32.size → (UInt32.ofNat added.1.index).toNat = added.1.index) ∧
    ∀ offset further, offset < further → further ≤ src.byteLength →
      (later.position added.1 offset).Before (later.position added.1 further) := by
  intro added later
  have known : added.2.entryOf added.1 = some (.ofSource name src) :=
    (empty.addAll before).entryOf_add name src
  have index : added.1.index = before.length := by
    have files : added.1.index = (empty.addAll before).files.length := rfl
    rw [files, length_addAll, empty, List.length_nil, Nat.zero_add]
  have ever : ∀ offset, later.position added.1 offset = Position.counted name src offset :=
    fun offset => (position_of_entryOf (entryOf_addAll known after) offset).trans
      (Position.locate_eq_counted name src offset)
  refine ⟨fun offset => ⟨ever offset, ?_, ?_⟩, fun few => ?_, fun offset further lt inside => ?_⟩
  · rw [position_of_entryOf known, Position.locate_eq_counted]
  · rw [Checked.position_eq, Position.locate_eq_counted]
  · rw [index, UInt32.toNat_ofNat', Nat.mod_eq_of_lt few]
  · rw [ever, ever]
    exact Position.counted_before name lt inside

/-- Two bytes into a character of three, on the second line. -/
theorem position_counts_sample :
    let added := (empty.addAll [("b.go".toList, "\n".toList)]).add "a.go".toList "x\n€".toList
    let later := added.2.addAll [("c.go".toList, [])]
    (UInt32.ofNat added.1.index).toNat = 1 ∧
    later.position added.1 4 = ⟨"a.go".toList, 2, 3⟩ ∧
    (later.position added.1 1).Before (later.position added.1 4) := by
  obtain ⟨counts, fits, ordered⟩ :=
    position_counts [("b.go".toList, "\n".toList)] [("c.go".toList, [])]
    "a.go".toList "x\n€".toList
  exact ⟨(fits (by decide)).trans rfl, (counts 4).1.trans (by decide),
    ordered 1 4 (by decide) (by decide)⟩

end FileSet

end GoSplit
