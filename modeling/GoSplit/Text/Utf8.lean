import GoSplit.Tree

/-!
Where bytes stop being UTF-8. A character starts with a byte that says how many follow
and in which ranges they lie; a fault is a character that breaks these rules, or one
that the bytes end in the middle of.
-/

namespace GoSplit.Utf8

structure Fault where
  /-- Index of the character's first byte. -/
  index : Nat
  /-- How many of its bytes were fine; none when the bytes ended before it did. -/
  size : Option Nat
  deriving DecidableEq, Repr

def Fault.message (f : Fault) : String :=
  match f.size with
  | some size => s!"invalid utf-8 sequence of {size} bytes from index {f.index}"
  | none => s!"incomplete utf-8 byte sequence from index {f.index}"

structure Range where
  low : UInt8
  high : UInt8

def Range.admits (r : Range) (b : UInt8) : Bool := r.low ≤ b && b ≤ r.high

def continuation : Range := ⟨0x80, 0xBF⟩

/-- The bytes that have to follow a first byte; none when no character starts with it. -/
def followers (b : UInt8) : Option (List Range) :=
  if b < 0x80 then some []
  else if b < 0xC2 then none
  else if b < 0xE0 then some [continuation]
  else if b = 0xE0 then some [⟨0xA0, 0xBF⟩, continuation]
  else if b = 0xED then some [⟨0x80, 0x9F⟩, continuation]
  else if b < 0xF0 then some [continuation, continuation]
  else if b = 0xF0 then some [⟨0x90, 0xBF⟩, continuation, continuation]
  else if b < 0xF4 then some [continuation, continuation, continuation]
  else if b = 0xF4 then some [⟨0x80, 0x8F⟩, continuation, continuation]
  else none

/-- Reads on from within a character that starts at `index`, of which `seen` bytes are
read and `expected` are to come. -/
def faultFrom (index seen : Nat) (expected : List Range) : List UInt8 → Option Fault
  | [] => if expected.isEmpty then none else some ⟨index, none⟩
  | b :: bs =>
    match expected with
    | [] =>
      match followers b with
      | none => some ⟨index, some 1⟩
      | some [] => faultFrom (index + 1) 0 [] bs
      | some expected => faultFrom index 1 expected bs
    | range :: others =>
      if !range.admits b then some ⟨index, some seen⟩
      else if others.isEmpty then faultFrom (index + seen + 1) 0 [] bs
      else faultFrom index (seen + 1) others bs

/-- The first fault of a file's contents. -/
def fault? (content : Content) : Option Fault := faultFrom 0 0 [] content.data.toList

end GoSplit.Utf8
