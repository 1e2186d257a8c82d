/-!
Source text as a list of characters. Offsets, columns and spans count the bytes
of its UTF-8 form, so the byte length is the only measure used outside this
module; lines, segments and white space are read off the characters.
-/

namespace GoSplit

abbrev Text := List Char

namespace Text

def str (t : Text) : String := String.ofList t

/-- Length of the UTF-8 form. -/
def byteLength : Text → Nat
  | [] => 0
  | c :: cs => c.utf8Size + byteLength cs

@[simp] theorem byteLength_nil : byteLength [] = 0 := rfl

@[simp] theorem byteLength_cons (c : Char) (cs : Text) :
    byteLength (c :: cs) = c.utf8Size + byteLength cs := rfl

@[simp] theorem byteLength_append (s t : Text) :
    byteLength (s ++ t) = byteLength s + byteLength t := by
  induction s with
  | nil => simp
  | cons c cs ih => simp [ih, Nat.add_assoc]

/-- Whether the character zero occurs. -/
def hasZero (t : Text) : Bool := t.any fun c => c.toNat == 0

def newlines (t : Text) : Nat := t.count '\n'

def hasNewline (t : Text) : Bool := t.any (· == '\n')

/-- Two line breaks in a row leave an empty line between what they separate. -/
def hasBlankLine (t : Text) : Bool := 2 ≤ newlines t

/-- The pieces between the occurrences of `sep`; there is always at least one. -/
def pieces (sep : Char) : Text → List Text
  | [] => [[]]
  | c :: cs =>
    if c = sep then [] :: pieces sep cs
    else match pieces sep cs with
      | [] => [[c]]
      | piece :: others => (c :: piece) :: others

/-- Puts `sep` between neighbours. -/
def joinWith (sep : Text) : List Text → Text
  | [] => []
  | [t] => t
  | t :: rest => t ++ sep ++ joinWith sep rest

def dropReturn (line : Text) : Text :=
  if line.getLast? = some '\r' then line.dropLast else line

def closeLines : List Text → List Text
  | [] => []
  | [last] => if last.isEmpty then [] else [last]
  | line :: rest => dropReturn line :: closeLines rest

/-- The lines of a text without their ends; a carriage return belongs to the
line end only when a newline follows it, and a final newline opens no line. -/
def lines (t : Text) : List Text := closeLines (pieces '\n' t)

/-- White space as the Unicode standard lists it. -/
def isBlank (c : Char) : Bool :=
  let n := c.toNat
  (9 ≤ n && n ≤ 13) || n == 0x20 || n == 0x85 || n == 0xA0 || n == 0x1680
    || (0x2000 ≤ n && n ≤ 0x200A) || n == 0x2028 || n == 0x2029 || n == 0x202F
    || n == 0x205F || n == 0x3000

def trimStart (t : Text) : Text := t.dropWhile isBlank

/-- Drops the longest end whose characters all satisfy `p`. -/
def dropEndWhile (p : Char → Bool) (t : Text) : Text :=
  (t.reverse.dropWhile p).reverse

def trimEnd (t : Text) : Text := dropEndWhile isBlank t

def trim (t : Text) : Text := trimStart (trimEnd t)

/-- Whether `part` occurs somewhere in the text. -/
def mentions (part : Text) : Text → Bool
  | [] => part.isEmpty
  | c :: cs => part.isPrefixOf (c :: cs) || mentions part cs

/-- Replaces the occurrences of `part`, read from left to right without overlap,
by `new`. The counter skips the characters of an occurrence just replaced. -/
def replaceFrom (part new : Text) : Nat → Text → Text
  | _, [] => []
  | skip + 1, _ :: cs => replaceFrom part new skip cs
  | 0, c :: cs =>
    if part.isPrefixOf (c :: cs) then new ++ replaceFrom part new (part.length - 1) cs
    else c :: replaceFrom part new 0 cs

def replaceAll (part new t : Text) : Text := replaceFrom part new 0 t

/-- Lexicographic order by code point, which is also the order of the UTF-8 forms. -/
def le : Text → Text → Bool
  | [], _ => true
  | _ :: _, [] => false
  | a :: as, b :: bs => a.toNat < b.toNat || (a == b && le as bs)

/-- The characters before and after byte `n`; none inside a character or past
the end. -/
def splitAtByte (n : Nat) : Text → Option (Text × Text)
  | [] => if n = 0 then some ([], []) else none
  | c :: cs =>
    if n = 0 then some ([], c :: cs)
    else if n < c.utf8Size then none
    else match splitAtByte (n - c.utf8Size) cs with
      | some (before, after) => some (c :: before, after)
      | none => none

def isBoundary (n : Nat) (t : Text) : Bool := (splitAtByte n t).isSome

/-- Decimal notation of a natural number. -/
def ofNat (n : Nat) : Text := (toString n).toList

end Text

end GoSplit
