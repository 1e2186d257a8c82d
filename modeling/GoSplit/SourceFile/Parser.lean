import GoSplit.SourceFile.Extent
import GoSplit.SourceFile.Header
import GoSplit.SourceFile.Import
import GoSplit.SourceFile.Heading

/-!
The parser. After the package clause a file is a sequence of items, each an import
or another declaration with the comments and semicolons in front of it. Comments
behind the last item belong to the last declaration that is no import, which then
reaches over whatever lies between.
-/

namespace GoSplit

namespace SourceFile

/-- The comments that go on the line where their predecessor ends. -/
def sameLineComments (ts : List Token) : List Token :=
  ts.takeWhile fun t => t.isComment && !t.onNewLine

inductive Item.Content where
  | imports (grouped : Bool) (specs : List ImportSpec)
  | declares (heading : Heading)
  deriving DecidableEq, Repr

structure Item where
  /-- Comments and semicolons in front of the keyword. -/
  before : List Token
  keyword : Token
  /-- The tokens after the keyword, comments behind the last line included. -/
  body : List Token
  /-- The semicolon that ends the item, unless a comment behind it made it part of
  the body. -/
  closing : List Token
  content : Item.Content
  deriving DecidableEq, Repr

namespace Item

/-- The comments in front of the keyword that no semicolon precedes. -/
def leadingComments (before : List Token) : List Token := before.takeWhile Token.isComment

/-- How many line breaks separate those comments from the keyword. -/
def newlinesBelowComments (before : List Token) (keyword : Token) : Nat :=
  Token.newlinesAcross (before.dropWhile Token.isComment) keyword

def isDeclKeyword (t : Token) : Bool :=
  t.isWord "type" || t.isWord "var" || t.isWord "const" || t.isWord "func"

def readContent (before : List Token) (keyword : Token) (body after : List Token) :
    Except ParseFault Content :=
  if keyword.isWord "import" then
    let detached := decide (2 ≤ newlinesBelowComments before keyword)
    (ImportDecl.readSpecs keyword (leadingComments before) detached body after).map
      fun (grouped, specs) => .imports grouped specs
  else (Heading.read keyword body after).map .declares

/-- Extends the tokens `body` of an item by the comments behind it on its line.
A semicolon between the two comes along; without such comments it closes the item. -/
def close (terminated : Bool) (body after : List Token) : List Token × List Token :=
  if terminated then
    match after with
    | [] => (body, [])
    | semicolon :: rest =>
      match sameLineComments rest with
      | [] => (body, [semicolon])
      | comments =>
        if semicolon.onNewLine then (body, [semicolon]) else (body ++ semicolon :: comments, [])
  else (body ++ sameLineComments after, [])

/-- Reads the item that starts with `keyword`, where `rest` are the tokens after it. -/
def read (before : List Token) (keyword : Token) (rest : List Token) : Except ParseFault Item :=
  if keyword.isWord "import" || isDeclKeyword keyword then
    match declExtent (keyword :: rest) with
    | .error fault => .error fault
    | .ok extent =>
      let body := rest.take (extent.size - 1)
      let after := rest.drop (extent.size - 1)
      match readContent before keyword body after with
      | .error fault => .error fault
      | .ok content =>
        let (full, closing) := close extent.terminated body after
        .ok ⟨before, keyword, full, closing, content⟩
  else .error ⟨.unexpectedToken keyword.text .declaration, keyword.start⟩

/-- How many tokens after the keyword belong to the item. -/
def size (item : Item) : Nat := item.body.length + item.closing.length

def tokens (item : Item) : List Token :=
  item.before ++ item.keyword :: (item.body ++ item.closing)

end Item

theorem length_dropWhile_tokens_le (p : Token → Bool) (ts : List Token) :
    (ts.dropWhile p).length ≤ ts.length := by
  induction ts with
  | nil => simp
  | cons t rest ih =>
    rw [List.dropWhile_cons]
    split
    · exact Nat.le_succ_of_le ih
    · exact Nat.le_refl _

/-- The items of a file, and the comments and semicolons behind the last one. -/
def readItems (ts : List Token) : Except ParseFault (List Item × List Token) :=
  let before := ts.takeWhile Token.isSeparator
  match _h : ts.dropWhile Token.isSeparator with
  | [] => .ok ([], before)
  | keyword :: rest =>
    match Item.read before keyword rest with
    | .error fault => .error fault
    | .ok item =>
      match readItems (rest.drop item.size) with
      | .error fault => .error fault
      | .ok (items, trailing) => .ok (item :: items, trailing)
termination_by ts.length
decreasing_by
  have hle := length_dropWhile_tokens_le Token.isSeparator ts
  rw [_h] at hle
  simp only [List.length_cons] at hle
  simp only [List.length_drop]
  omega

/-- Comments in front of a declaration belong to it with all that stands between
them and the keyword; without comments first, nothing does. -/
def Item.leading (item : Item) : List Token :=
  if (Item.leadingComments item.before).isEmpty then [] else item.before

def importsOf : List Item → List ImportDecl
  | [] => []
  | item :: items =>
    match item.content with
    | .imports grouped specs =>
      let stop := (item.body.getLastD item.keyword).stop
      ⟨⟨item.keyword.start, stop⟩, grouped, specs⟩ :: importsOf items
    | .declares _ => importsOf items

/-- The declarations among the items. The comments `trailing` the last item, when
there are any, stretch the last declaration up to their end. -/
def declsOf (trailing : List Token) : List Item → List Decl
  | [] => []
  | item :: items =>
    match item.content with
    | .imports _ _ => declsOf trailing items
    | .declares heading =>
      let later := declsOf trailing items
      let comments := Item.leadingComments trailing
      let stretch :=
        if later.isEmpty && !comments.isEmpty then
          item.closing ++ items.flatMap Item.tokens ++ comments
        else []
      ⟨heading, item.leading, item.keyword, item.body ++ stretch⟩ :: later

/-- The package clause at the head of the tokens, and the tokens behind it and the
comments on its line. `size` is the length of the source. -/
def readPackage (size : Nat) : List Token → Except ParseFault (PackageClause × List Token)
  | [] => .error ⟨.missingPackageClause, size⟩
  | keyword :: rest =>
    if keyword.isWord "package" then
      match rest.dropWhile Token.isComment with
      | [] => .error ⟨.missingPackageClause, keyword.start⟩
      | name :: after =>
        if name.isName then
          .ok (⟨name.text, keyword.start, name.stop⟩, after.drop (sameLineComments after).length)
        else .error ⟨.unexpectedToken name.text .packageName, name.start⟩
    else .error ⟨.missingPackageClause, keyword.start⟩

def readHeader (ts : List Token) : Header :=
  match ts.dropWhile Token.isComment with
  | [] => Header.empty
  | next :: _ => Header.ofComments (ts.takeWhile Token.isComment) next

/-- Parses the tokens of a source of `size` bytes. -/
def ofTokens (size : Nat) (ts : List Token) : Except ParseFault SourceFile :=
  match readPackage size (ts.dropWhile Token.isComment) with
  | .error fault => .error fault
  | .ok (package, rest) =>
    match readItems rest with
    | .error fault => .error fault
    | .ok (items, trailing) =>
      .ok ⟨readHeader ts, package, importsOf items, declsOf trailing items, ts⟩

/-- Parses a source text. -/
def ofSource (src : Text) : Except ParseFault SourceFile :=
  match Token.tokenize src with
  | .error e => .error (ParseFault.ofLex e)
  | .ok ts => ofTokens src.byteLength ts

/-- Parses a source text; errors show their position in the file `name`. -/
def parse (name src : Text) : Except ParseError SourceFile :=
  (ofSource src).mapError fun fault => fault.locate name src

/-- The first two tokens of a stream that are no comments, or the error in front
of them. -/
def firstTwo (found : Option Token) : List (Except LexError Token) →
    Except LexError (Option Token × Option Token)
  | [] => .ok (found, none)
  | .error e :: _ => .error e
  | .ok t :: rest =>
    if t.isComment then firstTwo found rest
    else match found with
      | none => firstTwo (some t) rest
      | some first => .ok (first, t)

/-- Reads the package name and nothing behind it. -/
def packageNameOf (src : Text) : Except ParseFault Text :=
  match firstTwo none (Token.stream src) with
  | .error e => .error (ParseFault.ofLex e)
  | .ok (some keyword, some name) =>
    if keyword.isWord "package" && name.isName then .ok name.text
    else .error ⟨.missingPackageClause, keyword.start⟩
  | .ok (some keyword, none) => .error ⟨.missingPackageClause, keyword.start⟩
  | .ok (none, _) => .error ⟨.missingPackageClause, 0⟩

/-- Reads the package name; errors show their position in the file `name`. -/
def parsePackageName (name src : Text) : Except ParseError Text :=
  (packageNameOf src).mapError fun fault => fault.locate name src

end SourceFile

end GoSplit
