import GoSplit.Tree.Move

/-!
SHA-256 of a file's contents, as hexadecimal text, and of every file of a tree. The padded message
is absorbed word by word; every sixteenth word completes a block, which is mixed into the state.
-/

namespace GoSplit

namespace Digest

structure State where
  a : UInt32
  b : UInt32
  c : UInt32
  d : UInt32
  e : UInt32
  f : UInt32
  g : UInt32
  h : UInt32
  deriving DecidableEq, Repr

def State.words (s : State) : List UInt32 := [s.a, s.b, s.c, s.d, s.e, s.f, s.g, s.h]

def State.initial : State :=
  ⟨0x6a09e667, 0xbb67ae85, 0x3c6ef372, 0xa54ff53a, 0x510e527f, 0x9b05688c, 0x1f83d9ab,
    0x5be0cd19⟩

def roundConstants : List UInt32 :=
  [0x428a2f98, 0x71374491, 0xb5c0fbcf, 0xe9b5dba5, 0x3956c25b, 0x59f111f1, 0x923f82a4,
   0xab1c5ed5, 0xd807aa98, 0x12835b01, 0x243185be, 0x550c7dc3, 0x72be5d74, 0x80deb1fe,
   0x9bdc06a7, 0xc19bf174, 0xe49b69c1, 0xefbe4786, 0x0fc19dc6, 0x240ca1cc, 0x2de92c6f,
   0x4a7484aa, 0x5cb0a9dc, 0x76f988da, 0x983e5152, 0xa831c66d, 0xb00327c8, 0xbf597fc7,
   0xc6e00bf3, 0xd5a79147, 0x06ca6351, 0x14292967, 0x27b70a85, 0x2e1b2138, 0x4d2c6dfc,
   0x53380d13, 0x650a7354, 0x766a0abb, 0x81c2c92e, 0x92722c85, 0xa2bfe8a1, 0xa81a664b,
   0xc24b8b70, 0xc76c51a3, 0xd192e819, 0xd6990624, 0xf40e3585, 0x106aa070, 0x19a4c116,
   0x1e376c08, 0x2748774c, 0x34b0bcb5, 0x391c0cb3, 0x4ed8aa4a, 0x5b9cca4f, 0x682e6ff3,
   0x748f82ee, 0x78a5636f, 0x84c87814, 0x8cc70208, 0x90befffa, 0xa4506ceb, 0xbef9a3f7,
   0xc67178f2]

def rotate (x n : UInt32) : UInt32 := (x >>> n) ||| (x <<< (32 - n))

/-- The next word of the schedule; the words so far are given latest first. -/
def nextWord (latest : List UInt32) : UInt32 :=
  let w (n : Nat) : UInt32 := latest.getD (n - 1) 0
  let s0 := rotate (w 15) 7 ^^^ rotate (w 15) 18 ^^^ (w 15 >>> 3)
  let s1 := rotate (w 2) 17 ^^^ rotate (w 2) 19 ^^^ (w 2 >>> 10)
  w 16 + s0 + w 7 + s1

/-- The sixty-four words of a block given latest first. -/
def schedule (block : List UInt32) : List UInt32 :=
  ((List.range 48).foldl (fun latest _ => nextWord latest :: latest) block).reverse

def round (s : State) (constant word : UInt32) : State :=
  let s1 := rotate s.e 6 ^^^ rotate s.e 11 ^^^ rotate s.e 25
  let choice := (s.e &&& s.f) ^^^ ((s.e ^^^ 0xffffffff) &&& s.g)
  let t1 := s.h + s1 + choice + constant + word
  let s0 := rotate s.a 2 ^^^ rotate s.a 13 ^^^ rotate s.a 22
  let majority := (s.a &&& s.b) ^^^ (s.a &&& s.c) ^^^ (s.b &&& s.c)
  ⟨t1 + (s0 + majority), s.a, s.b, s.c, s.d + t1, s.e, s.f, s.g⟩

/-- Mixes a block given latest first. -/
def mix (s : State) (block : List UInt32) : State :=
  let r := (roundConstants.zip (schedule block)).foldl (fun s (k, w) => round s k w) s
  ⟨s.a + r.a, s.b + r.b, s.c + r.c, s.d + r.d, s.e + r.e, s.f + r.f, s.g + r.g, s.h + r.h⟩

/-- Absorbs words; `pending` are those of the block not complete yet, latest first. -/
def absorb (s : State) (pending : List UInt32) : List UInt32 → State
  | [] => s
  | w :: ws =>
    if pending.length = 15 then absorb (mix s (w :: pending)) [] ws
    else absorb s (w :: pending) ws

/-- The eight bytes of a number, the highest first. -/
def bigEndian (n : Nat) : List UInt8 := (List.range 8).reverse.map fun k => (n >>> (8 * k)).toUInt8

/-- Fills up to whole blocks with a one bit, zeros and the length in bits. -/
def pad (bytes : List UInt8) : List UInt8 :=
  bytes ++ 0x80 :: List.replicate ((119 - bytes.length % 64) % 64) 0
    ++ bigEndian (8 * bytes.length)

def toWords : List UInt8 → List UInt32
  | a :: b :: c :: d :: rest =>
    ((a.toUInt32 <<< 24) ||| (b.toUInt32 <<< 16) ||| (c.toUInt32 <<< 8) ||| d.toUInt32)
      :: toWords rest
  | _ => []

def hexDigit (n : UInt32) : Char := ("0123456789abcdef".toList).getD (n.toNat % 16) '0'

/-- The eight hexadecimal digits of a word. -/
def hexWord (w : UInt32) : Text :=
  ([28, 24, 20, 16, 12, 8, 4, 0] : List UInt32).map fun n => hexDigit (w >>> n)

/-- The digest of a file's contents. -/
def ofContent (content : Content) : Text :=
  (absorb .initial [] (toWords (pad content.data.toList))).words.flatMap hexWord

end Digest

/-- The digest of every file at or below a path, under its place relative to the path. -/
def Tree.fingerprint (tree : Tree) (dir : Path) : Except FileOpError (List (Text × Text)) := do
  let files ← tree.walk dir
  files.mapM fun rel => do
    let path := pathIn dir rel
    let content ← (tree.readBytes path).mapError (.readFile path)
    return (rel.text, Digest.ofContent content)

end GoSplit
