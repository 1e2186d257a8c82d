import GoSplit.Proofs.Checked.Selectors
import GoSplit.Proofs.Signature.Headings

/-!
Declarations of functions and methods. The heading of a declaration is read exactly: what comes out
is the brace of the body and the names that the heading declares. A body is known by the offset of
its brace where tokens carry offsets, and by its index where they are read by index; that is the
same brace, since a reader sees nothing of an offset but which token has it.
-/

namespace GoSplit

open List (Forall₂)

/-- Where two pieces of code read the same, bodies are found at the same place. -/
theorem Signature.bindings_akin {front front' rest rest' : List Token} {brace brace' : Token}
    {names : List Text}
    (akin : Forall₂ Token.Akin (front' ++ brace' :: rest') (front ++ brace :: rest))
    (size : front'.length = front.length)
    (distinct' : ((front' ++ brace' :: rest').map Token.start).Nodup)
    (distinct : ((front ++ brace :: rest).map Token.start).Nodup)
    (found : bindings (front ++ brace :: rest) = some (brace.start, names)) :
    bindings (front' ++ brace' :: rest') = some (brace'.start, names) := by
  have ranked := Token.map_ranked akin distinct' distinct
  have moved := congrArg bindings ranked
  rw [bindings_move (Token.transfers_ranked _), bindings_move (Token.transfers_ranked _),
    found] at moved
  obtain ⟨⟨body, names'⟩, read, same⟩ := Option.map_eq_some_iff.1 moved
  obtain ⟨place, names_eq⟩ : Token.rank _ body = Token.rank _ brace.start ∧ names' = names :=
    Prod.mk.inj same
  -- The braces stand at one index of the two lists, so they have one rank.
  have nth : (front ++ brace :: rest)[front.length]? = some brace := by simp
  have nth' : (front' ++ brace' :: rest')[front.length]? = some brace' := by simp [← size]
  have here := congrArg (fun ts => ts[front.length]?) ranked
  simp only [List.getElem?_map, nth, nth', Option.map_some, Option.some.injEq] at here
  have start_eq : body = brace'.start :=
    Token.rank_injective _ (place.trans (congrArg Token.start here).symm)
  rw [read, start_eq, names_eq]

namespace Checked.Reading

variable {ε : Type} {r : Reading} {before : Text} {toks front mid rest : List Token}
  {keyword brace : Token}
  {names : List Text}

theorem number_append (k : Nat) (ts us : List Token) :
    number k (ts ++ us) = number k ts ++ number (k + ts.length) us := by
  induction ts generalizing k with
  | nil => rfl
  | cons t ts ih =>
    rw [List.cons_append, number, ih, number, List.cons_append, List.length_cons, Nat.add_assoc,
      Nat.add_comm 1]

theorem length_number (k : Nat) (ts : List Token) : (number k ts).length = ts.length := by
  simpa using congrArg List.length (map_kind_number k ts)

/-- The index of a body is that of the token at its offset. -/
theorem Of.bindings_eq (h : r.Of before toks)
    (cut : toks = front ++ keyword :: (mid ++ brace :: rest))
    (found : Signature.bindings (mid ++ brace :: rest) = some (brace.start, names)) :
    (r.bindings front.length : Checked ε _) =
      pure (some (front.length + 1 + mid.length, names)) := by
  have distinct : ((mid ++ brace :: rest).map Token.start).Nodup := by
    have whole := h.nodup_starts
    rw [cut, List.map_append, List.map_cons] at whole
    exact (List.nodup_cons.1 (List.nodup_append.1 whole).2.1).2
  let index := front.length + 1
  have numbered : number index (mid ++ brace :: rest) =
      number index mid ++ { brace with start := index + mid.length } ::
        number (index + mid.length + 1) rest :=
    number_append index mid (brace :: rest)
  have akin := akin_number index (mid ++ brace :: rest)
  have distinct' := (counts_number index (mid ++ brace :: rest)).nodup
  rw [numbered] at akin distinct'
  have read := Signature.bindings_akin akin (length_number index mid) distinct' distinct found
  have cut' : number 0 toks =
      number 0 front ++ { keyword with start := front.length } ::
        number index (mid ++ brace :: rest) := by
    rw [cut, number_append, Nat.zero_add]
    rfl
  have whole := @Numbered.bindings_eq ε _ _ _ _ _ h.numbered cut'
  rw [length_number, numbered, read] at whole
  exact whole

end Checked.Reading

namespace Signature

/-- The heading of every function and method is read exactly, whatever code follows the brace of the
body: that brace is found, with the names declared in receiver, type parameters, parameters and
results, in this order. Read by index, in the tokens of any source, it is found at its own index. -/
theorem bindings_of_heading {heading : List Token} {names : List Text} {brace : Token}
    (declares : Form.Heading heading names) (opens : brace.kind = .opening .curly)
    (line : brace.onNewLine = false) (rest : List Token) :
    bindings (heading ++ brace :: rest) = some (brace.start, names) ∧
    ∀ (r : Checked.Reading) (before : Text) (front : List Token) (keyword : Token),
      r.Of before (front ++ keyword :: (heading ++ brace :: rest)) →
      ∀ ε, (r.bindings front.length : Checked ε _) =
        pure (some (front.length + 1 + heading.length, names)) := by
  have found : bindings (heading ++ brace :: rest) = some (brace.start, names) :=
    heading_eq opens line declares
  exact ⟨found, fun r before front keyword of ε => of.bindings_eq rfl found⟩

/-! A method without a name for its receiver, and with the braces of a structure in its result. -/

def mapReceiver : List Token :=
  ⟨.opening .paren, [' '], ['('], 5⟩ ::
    ([⟨.ident, [], "Set".toList, 6⟩] ++ ⟨.opening .square, [], ['['], 9⟩ ::
      ([⟨.ident, [], ['T'], 10⟩] ++ [⟨.closing .square, [], [']'], 11⟩]) ++
    [⟨.closing .paren, [], [')'], 12⟩])

def mapName : Token := ⟨.ident, [' '], "Map".toList, 14⟩

def mapTypes : List Token :=
  ⟨.opening .square, [], ['['], 17⟩ ::
    ([⟨.ident, [], ['K'], 18⟩, ⟨.ident, [' '], "any".toList, 20⟩] ++
      [⟨.closing .square, [], [']'], 23⟩])

def mapParameters : List Token :=
  ⟨.opening .paren, [], ['('], 24⟩ ::
    (⟨.ident, [], ['f'], 25⟩ ::
      (⟨.ident, [' '], "func".toList, 27⟩ :: ⟨.opening .paren, [], ['('], 31⟩ ::
        ([⟨.ident, [], ['T'], 32⟩] ++ ⟨.closing .paren, [], [')'], 33⟩ ::
          [⟨.ident, [' '], ['K'], 35⟩]) ++
      ⟨.comma, [], [','], 36⟩ ::
        ⟨.ident, [' '], ['a'], 38⟩ :: ⟨.comma, [], [','], 39⟩ ::
          ⟨.ident, [' '], ['b'], 41⟩ ::
            ⟨.opening .square, [' '], ['['], 43⟩ ::
              ([⟨.number, [], ['2'], 44⟩] ++ ⟨.closing .square, [], [']'], 45⟩ ::
                [⟨.ident, [], ['K'], 46⟩])) ++
    [⟨.closing .paren, [], [')'], 47⟩])

def mapResults : List Token :=
  ⟨.ident, [' '], "map".toList, 49⟩ :: ⟨.opening .square, [], ['['], 52⟩ ::
    ([⟨.ident, [], ['K'], 53⟩] ++ ⟨.closing .square, [], [']'], 54⟩ ::
      ⟨.ident, [], "struct".toList, 55⟩ :: ⟨.opening .curly, [], ['{'], 61⟩ ::
        ([⟨.ident, [' '], ['v'], 63⟩, ⟨.ident, [' '], "int".toList, 65⟩] ++
        [⟨.closing .curly, [' '], ['}'], 69⟩]))

def mapHeading : List Token := mapReceiver ++ mapName :: (mapTypes ++ (mapParameters ++ mapResults))

theorem mapHeading_declares : Form.Heading mapHeading
    ["K".toList, "f".toList, "a".toList, "b".toList] := by
  have own : ∀ {t : Token}, t.isName = true → Form .type [t] := fun name => .named (.own name)
  have receiver : Form.Receiver mapReceiver [] :=
    .list (.list rfl (.bare (.last (.single (.generic (.own rfl) rfl rfl rfl)))) rfl)
  have types : Form.TypeParameters mapTypes ["K".toList] :=
    .list rfl (.last rfl (.type (own rfl))) rfl
  have parameters : Form.Parenthesized mapParameters ["f".toList, "a".toList, "b".toList] :=
    .list rfl (.named (.field rfl (.single (.func rfl rfl rfl rfl (.one (own rfl)))) rfl
      (.shared rfl rfl (.last rfl (.single (.array rfl rfl rfl (own rfl))))))) rfl
  have results : Form.Results mapResults [] :=
    .type (.map rfl rfl rfl rfl (.braced (.inl rfl) rfl rfl rfl)) (by decide)
  exact .mk receiver rfl types parameters results

def mapMethod : List Token :=
  ⟨.ident, [], "func".toList, 0⟩ ::
    (mapHeading ++ ⟨.opening .curly, [' '], ['{'], 71⟩ :: [⟨.closing .curly, [], ['}'], 72⟩])

def mapSource : Text :=
  "func (Set[T]) Map[K any](f func(T) K, a, b [2]K) map[K]struct{ v int } {}".toList

theorem bindings_of_mapHeading :
    Token.tokenize mapSource = .ok mapMethod ∧
    bindings mapMethod.tail = some (71, ["K".toList, "f".toList, "a".toList, "b".toList]) ∧
    (Checked.Reading.bindings ⟨mapSource, mapMethod.map .of⟩ 0 : Checked LexError _) =
      pure (some (37, ["K".toList, "f".toList, "a".toList, "b".toList])) := by
  have tokens : Token.tokenize mapSource = .ok mapMethod := by
    unfold mapSource
    rw [String.toList_ofList]
    decide +kernel
  have read := @bindings_of_heading _ _ ⟨.opening .curly, [' '], ['{'], 71⟩
    mapHeading_declares rfl rfl
    [⟨.closing .curly, [], ['}'], 72⟩]
  exact ⟨tokens, read.1, read.2 _ [] [] _ (Checked.Reading.of_tokenize tokens) _⟩

end Signature

end GoSplit
