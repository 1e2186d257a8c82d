import GoSplit.Bucket
import GoSplit.Proofs.SourceFile.Found
import GoSplit.Proofs.SourceFile.Parsed

/-!
What the keyword of a declaration and the token behind it say about its kind. A function opens
a parenthesis behind its keyword exactly if it is a method, and exactly then it has a receiver;
no other declaration has one.
-/

namespace GoSplit

/-- The first token behind the keyword that is no comment. -/
def Decl.firstCode (d : Decl) : Option Token := d.body.find? fun t => !t.isComment

/-- Whether that token opens a parenthesis. -/
def opensList (first : Option Token) : Bool := first.any fun t => t.kind == .opening .paren

theorem Token.head?_withoutComments_go (before : Text) (ts : List Token) :
    (withoutComments.go before ts).head?.map (·.kind) =
      (ts.find? fun t => !t.isComment).map (·.kind) := by
  induction ts generalizing before with
  | nil => rfl
  | cons t ts ih =>
    rw [withoutComments.go]
    cases comment : t.isComment with
    | true => rw [if_pos rfl, ih, List.find?_cons_of_neg (by simp [comment])]
    | false => simp [comment]

theorem Token.head?_withoutComments (ts : List Token) :
    (withoutComments ts).head?.map (·.kind) = (ts.find? fun t => !t.isComment).map (·.kind) :=
  head?_withoutComments_go [] ts

namespace Heading

variable {keyword : Token} {body after : List Token} {heading : Heading}

/-- The kind and the receiver of a heading agree, given whether the declaration is a function and
whether it opens a parenthesis. -/
inductive Formed (isFunc opens : Bool) : Heading → Prop
  | method {names : List Text} {receiver : Receiver} (func : isFunc = true)
      (opening : opens = true) :
      Formed isFunc opens ⟨.method, names, some receiver⟩
  | func {names : List Text} (func : isFunc = true) (plain : opens = false) :
      Formed isFunc opens ⟨.func, names, none⟩
  | value {kind : DeclKind} {names : List Text} (other : isFunc = false)
      (bucket : Bucket.ofKind kind = .types) : Formed isFunc opens ⟨kind, names, none⟩

theorem formed_of_ofFunc (read : ofFunc keyword body after = .ok heading) :
    body.find? (fun t => !t.isComment) ≠ none ∧
      Formed true (opensList (body.find? fun t => !t.isComment)) heading := by
  have same := Token.head?_withoutComments body
  unfold ofFunc at read
  split at read
  · cases read
  · next first rest found =>
    rw [found] at same
    obtain ⟨code, isFirst, kind⟩ := Option.map_eq_some_iff.1 same.symm
    rw [isFirst]
    refine ⟨by simp, ?_⟩
    split at read
    · next opening =>
      have opens : opensList (some code) = true := by simp [opensList, kind, opening]
      split at read
      · cases read
      · split at read
        · cases read
        · split at read
          · split at read
            · cases read
              exact .method rfl opens
            · cases read
          · cases read
    · next plain =>
      have opens : opensList (some code) = false := by simpa [opensList, kind] using plain
      split at read
      · cases read
        exact .func rfl opens
      · cases read

theorem formed_of_read (read : Heading.read keyword body after = .ok heading) :
    (keyword.isWord "func" = true → body.find? (fun t => !t.isComment) ≠ none) ∧
      Formed (keyword.isWord "func") (opensList (body.find? fun t => !t.isComment)) heading := by
  unfold Heading.read at read
  split at read
  · next func =>
    obtain ⟨some, formed⟩ := formed_of_ofFunc read
    rw [func]
    exact ⟨fun _ => some, formed⟩
  · next other =>
    have other : keyword.isWord "func" = false := by simpa using other
    refine ⟨fun func => absurd func (by simp [other]), ?_⟩
    rw [other]
    split at read
    · cases read
      exact .value rfl rfl
    · split at read <;> cases read <;> exact .value rfl rfl

/-- What the code behind the keyword opens is not asked of other declarations. -/
theorem Formed.of_value {opens opens' : Bool} (formed : Formed false opens heading) :
    Formed false opens' heading := by
  cases formed with
  | method func => cases func
  | func func => cases func
  | value other bucket => exact .value other bucket

end Heading

namespace SourceFile

variable {before rest trailing : List Token} {keyword : Token} {item : Item} {heading : Heading}

/-- The tokens that an item takes along behind its declaration. -/
theorem Item.Ends.exists_behind {body after full closing : List Token} {terminated : Bool}
    (ends : Item.Ends body terminated after full closing) :
    ∃ behind, full = body ++ behind ∧ ∀ t ∈ behind, t.isSeparator = true := by
  have comments : ∀ ts, ∀ t ∈ sameLineComments ts, t.isSeparator = true := fun ts t mem => by
    simp [Token.isSeparator, (sameLine_sameLineComments ts t mem).1]
  cases ends with
  | line => exact ⟨_, rfl, comments after⟩
  | commented kind =>
    exact ⟨_, rfl, List.forall_mem_cons.2 ⟨by simp [Token.isSeparator, kind], comments _⟩⟩
  | closed => exact ⟨[], (List.append_nil _).symm, by simp⟩

/-- What is read as a heading is a heading. -/
theorem Item.formed_of_read (read : Item.read before keyword rest = .ok item)
    (declares : item.content = .declares heading) (more : List Token) :
    heading.Formed (item.keyword.isWord "func")
      (opensList ((item.body ++ more).find? fun t => !t.isComment)) := by
  obtain ⟨-, same⟩ := Item.read_before_keyword read
  obtain ⟨body, after, terminated, -, -, contents, ends⟩ := Item.exists_of_read read
  obtain ⟨behind, whole, -⟩ := ends.exists_behind
  rw [declares] at contents
  unfold Item.readContent at contents
  split at contents
  · cases specs : ImportDecl.readSpecs keyword (Item.leadingComments before)
        (decide (2 ≤ Item.newlinesBelowComments before keyword)) body after <;>
      simp [specs, Except.map] at contents
  · cases found : Heading.read keyword body after with
    | error fault => simp [found, Except.map] at contents
    | ok heading' =>
      obtain rfl : heading' = heading := by simpa [found, Except.map] using contents
      obtain ⟨some, formed⟩ := Heading.formed_of_read found
      rw [same, whole, List.append_assoc]
      cases func : keyword.isWord "func" with
      | true =>
        obtain ⟨code, first⟩ := Option.ne_none_iff_exists'.1 (some func)
        rw [func, first] at formed
        rwa [List.find?_append, first]
      | false =>
        rw [func] at formed
        exact formed.of_value

theorem formed_of_mem_declsOf {items : List Item} (read : ∀ item ∈ items, ∃ before keyword rest,
    Item.read before keyword rest = .ok item) {d : Decl} (mem : d ∈ declsOf trailing items) :
    d.heading.Formed (d.keyword.isWord "func") (opensList d.firstCode) := by
  induction items with
  | nil => cases mem
  | cons item items ih =>
    obtain ⟨⟨before, keyword, rest, here⟩, others⟩ := List.forall_mem_cons.1 read
    unfold declsOf at mem
    split at mem
    · exact ih others mem
    · next heading declares =>
      rcases List.mem_cons.1 mem with rfl | mem
      · exact Item.formed_of_read here declares _
      · exact ih others mem

theorem formed_of_parsed {src : Text} {file : SourceFile} (parsed : ofSource src = .ok file) :
    ∀ d ∈ file.decls, d.heading.Formed (d.keyword.isWord "func") (opensList d.firstCode) := by
  obtain ⟨ts, -, found⟩ := ofSource_eq_ok_iff.1 parsed
  obtain ⟨package, rest, items, trailing, -, itemsOf, rfl⟩ := ofTokens_eq_ok_iff.1 found
  refine fun d mem => formed_of_mem_declsOf (fun item isItem => ?_) mem
  obtain ⟨rest, read, -⟩ := itemsOf.read isItem
  exact ⟨item.before, item.keyword, rest, read⟩

end SourceFile

end GoSplit
