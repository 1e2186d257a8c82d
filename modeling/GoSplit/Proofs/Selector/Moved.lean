import GoSplit.Proofs.Selector.Declared
import GoSplit.Proofs.Token.Chained

/-!
Selectors do not depend on where code stands. The walk looks at offsets only to find a body
again, so giving tokens other offsets moves the bodies and changes nothing else, as long as
different tokens keep different offsets; and of the white space in front of a token it sees
only whether it is empty and whether it has a line break.
-/

namespace GoSplit

namespace Token

/-- `r` puts tokens at other offsets, behind other white space, and leaves what the walk
sees of them. -/
structure Transfers (r : Token → Token) (place : Nat → Nat) : Prop where
  kind : ∀ t, (r t).kind = t.kind
  text : ∀ t, (r t).text = t.text
  line : ∀ t, (r t).onNewLine = t.onNewLine
  tight : ∀ t, (r t).gap.isEmpty = t.gap.isEmpty
  start : ∀ t, (r t).start = place t.start
  injective : Function.Injective place

theorem Transfers.isWord {r : Token → Token} {place : Nat → Nat} (h : Transfers r place) (t : Token)
    (word : String) : (r t).isWord word = t.isWord word := by
  rw [Token.isWord, Token.isWord, h.kind, h.text]

theorem Transfers.isName {r : Token → Token} {place : Nat → Nat} (h : Transfers r place)
    (t : Token) :
    (r t).isName = t.isName := by
  rw [Token.isName, Token.isName, h.kind, h.text]

theorem transfers_move (distance : Nat) : Transfers (move distance) (· + distance) :=
  ⟨fun _ => rfl, fun _ => rfl, fun _ => rfl, fun _ => rfl, fun _ => rfl,
    fun _ _ same => Nat.add_right_cancel same⟩

end Token

section

variable {r : Token → Token} {place : Nat → Nat} (h : Token.Transfers r place)
include h

/-! ### Groups and forms -/

theorem splitAtClose_move (n : Nat) (ts : List Token) :
    splitAtClose n (ts.map r) = (splitAtClose n ts).map fun x =>
      (x.1.map r, x.2.map r) := by
  induction ts generalizing n with
  | nil => rfl
  | cons t ts ih =>
    simp only [List.map_cons, splitAtClose, h.kind]
    cases t.kind with
    | closing b =>
      cases n with
      | zero => rfl
      | succ m =>
        simp only [ih, Option.map_map]
        rfl
    | _ =>
      simp only [ih, Option.map_map]
      rfl

theorem afterGroup_move (bracket : Bracket) (ts : List Token) :
    afterGroup bracket (ts.map r) =
      (afterGroup bracket ts).map fun after => after.map r := by
  cases ts with
  | nil => rfl
  | cons t ts =>
    simp only [List.map_cons, afterGroup, h.kind, splitAtClose_move h]
    split
    · rw [Option.map_map, Option.map_map]
      rfl
    · rfl

omit h in
theorem head_move (p : Token → Bool) (same : ∀ t : Token, p (r t) = p t) (ts : List Token) :
    (ts.map r).head?.all p = ts.head?.all p := by
  cases ts with
  | nil => rfl
  | cons t ts => exact same t

theorem isSpecs_move (ts : List Token) : isSpecs (ts.map r) = isSpecs ts := by
  unfold isSpecs
  rw [afterGroup_move h, head_move (fun t => t.kind != .opening .square) fun t => by rw [h.kind]]
  cases afterGroup .paren ts with
  | none => rfl
  | some after => simp

theorem isFunction_move (ts : List Token) : isFunction (ts.map r) = isFunction ts := by
  have getD : ∀ (bracket : Bracket) (us : List Token),
      (afterGroup bracket (us.map r)).getD (us.map r) =
        ((afterGroup bracket us).getD us).map r := by
    intro bracket us
    rw [afterGroup_move h]
    cases afterGroup bracket us <;> rfl
  unfold isFunction
  rw [getD]
  cases (afterGroup .paren ts).getD ts with
  | nil => rfl
  | cons name rest =>
    simp only [List.map_cons, h.kind, getD]
    rw [afterGroup_move h]
    cases afterGroup .paren ((afterGroup .square rest).getD rest) with
    | none => rfl
    | some behind =>
      simp only [Option.map_some, afterGroup_move h]
      cases afterGroup .paren behind with
      | none => rfl
      | some after =>
        simp only [Option.map_some, Option.getD_some]
        rw [head_move (fun t => t.kind == .opening .curly) fun t => by rw [h.kind]]

/-! ### Signatures -/

namespace Signature

theorem splitEntries_move (n : Nat) (ts : List Token) :
    splitEntries n (ts.map r) = (splitEntries n ts).map fun x =>
      (x.1.map fun entry => entry.map r, x.2.map r) := by
  induction ts generalizing n with
  | nil => rfl
  | cons t ts ih =>
    have kept : ∀ {m : Nat} {g g' : List (List Token) × List Token →
        List (List Token) × List Token},
        (∀ entries after, g' (entries.map fun entry => entry.map r,
          after.map r) = ((g (entries, after)).1.map fun entry => entry.map r,
            (g (entries, after)).2.map r)) →
        (splitEntries m (ts.map r)).map g' = ((splitEntries m ts).map g).map fun x =>
          (x.1.map fun entry => entry.map r, x.2.map r) := by
      intro m g g' moves
      rw [ih, Option.map_map, Option.map_map]
      congr 1
      funext x
      exact moves x.1 x.2
    simp only [List.map_cons, splitEntries, h.kind]
    cases t.kind with
    | closing b =>
      cases n with
      | zero => rfl
      | succ m =>
        apply kept
        intro entries after
        cases entries <;> rfl
    | comma =>
      simp only
      split
      · apply kept
        intro entries after
        rfl
      · apply kept
        intro entries after
        cases entries <;> rfl
    | _ =>
      apply kept
      intro entries after
      cases entries <;> rfl

theorem startsWithName_move (ts : List Token) :
    startsWithName (ts.map r) = startsWithName ts := by
  match ts with
  | [] => rfl
  | [_] => rfl
  | first :: second :: rest =>
    simp only [List.map_cons, startsWithName, h.kind, h.isName,
      splitAtClose_move h]
    congr 1
    split
    · rfl
    · cases splitAtClose 0 rest with
      | none => rfl
      | some x => simp
    · rfl

theorem entryNames_move (always : Bool) (entries : List (List Token)) :
    entryNames always (entries.map fun entry => entry.map r) =
      entryNames always entries := by
  have filled : (entries.map fun entry => entry.map r).filter
        (fun entry => !entry.isEmpty) =
      (entries.filter fun entry => !entry.isEmpty).map fun entry => entry.map r := by
    rw [List.filter_map]
    congr 2
    funext entry
    cases entry <;> rfl
  unfold entryNames
  simp only [filled, List.any_map, Function.comp_def, startsWithName_move h, List.filterMap_map,
    List.filterMap_filterMap]
  congr 2
  funext entry
  cases entry with
  | nil => rfl
  | cons t ts => simp only [List.map_cons, List.head?_cons, Option.bind_some, h.isName, h.text]

theorem listNames_move (always : Bool) (ts : List Token) :
    listNames always (ts.map r) = (listNames always ts).map fun x =>
      (x.1, x.2.map r) := by
  rw [listNames, listNames, splitEntries_move h, Option.map_map, Option.map_map]
  congr 1
  funext x
  exact Prod.ext (entryNames_move h always x.1) rfl

theorem bodyAfterResult_move (depth : Nat) (word : Bool) (ts : List Token) :
    bodyAfterResult depth word (ts.map r) =
      (bodyAfterResult depth word ts).map place := by
  induction ts generalizing depth word with
  | nil => rfl
  | cons t ts ih =>
    simp only [List.map_cons, bodyAfterResult, h.kind, h.line,
      h.isWord, h.text, ih]
    split
    · rfl
    · cases t.kind with
      | opening b =>
        cases b with
        | curly =>
          simp only [h.start]
          split <;> rfl
        | _ => rfl
      | closing b => cases depth <;> rfl
      | comma =>
        simp only
        split <;> rfl
      | semicolon =>
        simp only
        split <;> rfl
      | op =>
        simp only
        split <;> rfl
      | _ => rfl

/-- A body and its names, further on. -/
def moveBody (place : Nat → Nat) (x : Nat × List Text) : Nat × List Text := (place x.1, x.2)

theorem results_move (ts : List Token) :
    results (ts.map r) = (results ts).map (moveBody place) := by
  have scan : ((bodyAfterResult 0 false (ts.map r)).map fun body => (body, [])) =
      ((bodyAfterResult 0 false ts).map fun body => (body, [])).map (moveBody place) := by
    rw [bodyAfterResult_move h, Option.map_map, Option.map_map]
    rfl
  rcases ts with _ | ⟨t, rest⟩
  · rfl
  · by_cases paren : t.kind = .opening .paren ∧ t.onNewLine = false
    · obtain ⟨kind, line⟩ := paren
      have moved := listNames_move h false rest
      cases found : listNames false rest with
      | none =>
        rw [found] at moved
        rw [List.map_cons, results_unclosed kind line found,
          results_unclosed ((h.kind t).trans kind) ((h.line t).trans line) moved]
        rfl
      | some x =>
        rw [found] at moved
        rw [List.map_cons, results_paren kind line found,
          results_paren ((h.kind t).trans kind) ((h.line t).trans line) moved]
        rcases x with ⟨names, _ | ⟨body, after⟩⟩
        · rfl
        · simp only [bodyAt, List.map_cons, List.head?_cons, Option.filter_some, h.kind, h.line]
          by_cases opens : (body.kind == .opening .curly && !body.onNewLine) = true
          · simp [opens, h.start, moveBody]
          · simp [opens]
    · have line : ∀ u ∈ (t :: rest).head?, u.kind = .opening .paren → u.onNewLine = true := by
        intro u mem kind
        obtain rfl : t = u := Option.some.inj mem
        cases line : t.onNewLine with
        | true => rfl
        | false => exact absurd ⟨kind, line⟩ paren
      rw [results_scan line, ← scan, results_scan]
      intro u mem kind
      obtain rfl : r t = u := Option.some.inj mem
      rw [h.line]
      exact line t rfl (by rwa [← h.kind])

theorem listed_move (typeNames : List Text) (ts : List Token) :
    listed typeNames (ts.map r) = (listed typeNames ts).map (moveBody place) := by
  rcases ts with _ | ⟨t, rest⟩
  · rfl
  · by_cases kind : t.kind = .opening .paren
    · have moved := listNames_move h false rest
      cases found : listNames false rest with
      | none =>
        rw [found] at moved
        rw [List.map_cons, listed_unclosed typeNames kind found,
          listed_unclosed typeNames ((h.kind t).trans kind) moved]
        rfl
      | some x =>
        rw [found] at moved
        rw [List.map_cons, listed_paren typeNames kind found,
          listed_paren typeNames ((h.kind t).trans kind) moved, results_move h, Option.map_map,
          Option.map_map]
        rfl
    · rw [listed_other, listed_other]
      · rfl
      · intro u mem
        obtain rfl : t = u := Option.some.inj mem
        exact kind
      · intro u mem
        obtain rfl : r t = u := Option.some.inj mem
        rwa [h.kind]

theorem parameters_move (ts : List Token) :
    parameters (ts.map r) = (parameters ts).map (moveBody place) := by
  rcases ts with _ | ⟨t, rest⟩
  · rfl
  · by_cases kind : t.kind = .opening .square
    · have moved := listNames_move h true rest
      cases found : listNames true rest with
      | none =>
        rw [found] at moved
        rw [List.map_cons, parameters_unclosed kind found,
          parameters_unclosed ((h.kind t).trans kind) moved]
        rfl
      | some x =>
        rw [found] at moved
        rw [List.map_cons, parameters_square kind found,
          parameters_square ((h.kind t).trans kind) moved, listed_move h]
    · rw [parameters_other, parameters_other, listed_move h]
      · intro u mem
        obtain rfl : t = u := Option.some.inj mem
        exact kind
      · intro u mem
        obtain rfl : r t = u := Option.some.inj mem
        rwa [h.kind]

theorem namesMethod_move (ts : List Token) :
    namesMethod (ts.map r) = namesMethod ts := by
  match ts with
  | [] => rfl
  | [_] => rfl
  | name :: next :: _ => simp only [List.map_cons, namesMethod, h.kind]

/-- The names of a function are those of the function further on. -/
theorem bindings_move (ts : List Token) :
    bindings (ts.map r) = (bindings ts).map (moveBody place) := by
  rcases ts with _ | ⟨t, rest⟩
  · rfl
  · by_cases paren : t.kind = .opening .paren
    · have moved := listNames_move h false rest
      cases found : listNames false rest with
      | none =>
        rw [found] at moved
        rw [List.map_cons, bindings_unclosed paren found,
          bindings_unclosed ((h.kind t).trans paren) moved]
        rfl
      | some x =>
        rw [found] at moved
        rw [List.map_cons, bindings_paren paren found,
          bindings_paren ((h.kind t).trans paren) moved, namesMethod_move h, ← List.map_tail]
        split
        · rw [parameters_move h, Option.map_map, Option.map_map]
          rfl
        · rw [results_move h, Option.map_map, Option.map_map]
          rfl
    · by_cases ident : t.kind = .ident
      · rw [List.map_cons, bindings_ident ident, bindings_ident ((h.kind t).trans ident),
          parameters_move h]
      · rw [bindings_other, bindings_other, parameters_move h]
        · intro u mem
          obtain rfl : t = u := Option.some.inj mem
          exact ⟨paren, ident⟩
        · intro u mem
          obtain rfl : r t = u := Option.some.inj mem
          rw [h.kind]
          exact ⟨paren, ident⟩

end Signature

/-! ### The walk -/

namespace Selector

theorem nameList_move (ts : List Token) : nameList (ts.map r) = nameList ts := by
  match ts with
  | [] => rfl
  | [t] => simp only [List.map_cons, List.map_nil, nameList, h.kind, h.text]
  | t :: next :: rest =>
    have ih := nameList_move rest
    simp only [List.map_cons, nameList, h.kind, h.text, ih]

theorem groupedNames_move (inner : Nat) (atStart : Bool) (ts : List Token) :
    groupedNames inner atStart (ts.map r) = groupedNames inner atStart ts := by
  induction ts generalizing inner atStart with
  | nil => rfl
  | cons t ts ih =>
    have names : nameList (r t :: ts.map r) = nameList (t :: ts) :=
      nameList_move h (t :: ts)
    simp only [List.map_cons, groupedNames, h.kind, h.line, names, ih]

theorem statementNames_move (ts : List Token) :
    statementNames (ts.map r) = statementNames ts := by
  cases ts with
  | nil => rfl
  | cons t ts =>
    have names : nameList (r t :: ts.map r) = nameList (t :: ts) :=
      nameList_move h (t :: ts)
    simp only [List.map_cons, statementNames, h.kind, names, groupedNames_move h]

theorem isDefine_move (t : Token) (ts : List Token) :
    isDefine (r t) (ts.map r) = isDefine t ts := by
  cases ts with
  | nil => rfl
  | cons next ts => simp only [List.map_cons, isDefine, h.kind, h.text, h.tight]

theorem isBase_move (before after : List Token) :
    isBase (before.map r) (after.map r) = isBase before after := by
  unfold isBase
  rw [head_move (fun t => t.kind != .dot) fun t => by rw [h.kind]]
  match after with
  | [] => rfl
  | [_] => rfl
  | dot :: name :: _ => simp only [List.map_cons, h.kind]

theorem depth_after_move (d : Depth) (t : Token) : d.after (r t) = d.after t := by
  simp only [Depth.after, h.kind]

theorem opensAt_move (target d : Depth) (ts : List Token) :
    opensAt target d (ts.map r) = opensAt target d ts := by
  induction ts generalizing d with
  | nil => rfl
  | cons t ts ih =>
    have depth := depth_after_move h d t
    simp only [List.map_cons, opensAt, h.kind, depth, ih]

theorem bindsInBlocks_move (d : Depth) (ts : List Token) :
    bindsInBlocks d (ts.map r) = bindsInBlocks d ts := by
  induction ts generalizing d with
  | nil => rfl
  | cons t ts ih =>
    have depth := depth_after_move h d t
    have header : isHeader (r t) = isHeader t := by simp only [isHeader, h.isWord]
    simp only [List.map_cons, bindsInBlocks, header, isDefine_move h, depth, opensAt_move h, ih]

theorem lookup_move (bodies : List (Nat × List Text)) (start : Nat) :
    (bodies.map (Signature.moveBody place)).lookup (place start) = bodies.lookup start := by
  induction bodies with
  | nil => rfl
  | cons body bodies ih =>
    obtain ⟨at', names⟩ := body
    have same : (place start == place at') = (start == at') := by
      rw [Bool.eq_iff_iff, beq_iff_eq, beq_iff_eq]
      exact h.injective.eq_iff
    simp only [List.map_cons, Signature.moveBody, List.lookup_cons, same, ih]

namespace Walk

/-- The walk over the same code further on. -/
def move (place : Nat → Nat) (w : Walk) : Walk :=
  { w with bodies := w.bodies.map (Signature.moveBody place) }

omit h in
theorem endStatement_move (w : Walk) (d : Depth) :
    (w.move place).endStatement d = (w.endStatement d).move place := by
  unfold endStatement
  cases scopes : w.scopes <;> simp [move, scopes]

omit h in
theorem semicolon_move (w : Walk) (d : Depth) :
    (w.move place).semicolon d = (w.semicolon d).move place := by
  by_cases header : w.header = some d
  · have header' : (w.move place).header = some d := header
    rw [semicolon_header header, semicolon_header header', ← endStatement_move]
    rfl
  · have header' : (w.move place).header ≠ some d := header
    rw [semicolon_other header, semicolon_other header', endStatement_move]

theorem openBlock_move (w : Walk) (d : Depth) (brace : Token) :
    (w.move place).openBlock d (r brace) = (w.openBlock d brace).move place := by
  have names : (w.move place).bodies.lookup (r brace).start = w.bodies.lookup brace.start := by
    rw [h.start]
    exact lookup_move h w.bodies brace.start
  by_cases header : w.header = some d
  · have header' : (w.move place).header = some d := header
    rw [openBlock_header header, openBlock_header header', names]
    rfl
  · have header' : (w.move place).header ≠ some d := header
    rw [openBlock_other header, openBlock_other header', names]
    rfl

theorem word_move (w : Walk) (d : Depth) (before : List Token) (t : Token) (after : List Token) :
    (w.move place).word d (before.map r) (r t) (after.map r) =
      (w.word d before t after).move place := by
  have scopes : (w.move place).scopes = w.scopes := rfl
  have binds : ∀ name, (w.move place).binds name = w.binds name := fun _ => rfl
  simp only [word, h.isWord, h.text, Signature.bindings_move h,
    statementNames_move h, isBase_move h, scopes, binds]
  split
  · cases Signature.bindings after <;> rfl
  · split
    · rfl
    · split
      · rfl
      · split <;> rfl

theorem step_move (w : Walk) (before : List Token) (t : Token) (after : List Token) :
    (w.move place).step (before.map r) (r t) (after.map r) =
      (w.step before t after).move place := by
  have depth : (w.move place).depth = w.depth := rfl
  have broken : (w.move place).broken (before.map r) (r t) =
      (w.broken before t).move place := by
    have empty : (before.map r).isEmpty = before.isEmpty := by cases before <;> rfl
    rw [Walk.broken, Walk.broken, empty, depth, h.line, endStatement_move]
    split <;> rfl
  rw [step_eq, step_eq, broken, depth]
  generalize w.broken before t = v
  simp only [act, h.kind]
  cases t.kind with
  | opening b =>
    cases b with
    | curly => exact openBlock_move h _ _ _
    | _ => rfl
  | closing b => cases b <;> rfl
  | semicolon => exact semicolon_move _ _
  | ident => exact word_move h _ _ _ _ _
  | op =>
    simp only [isDefine_move h, nameList_move h]
    split <;> rfl
  | _ => rfl

theorem run_move (w : Walk) (before ts : List Token) :
    (w.move place).run (before.map r) (ts.map r) =
      (w.run before ts).move place := by
  induction ts generalizing w before with
  | nil => rfl
  | cons t ts ih =>
    rw [List.map_cons, run, run, step_move h]
    exact ih (w.step before t ts) (t :: before)

end Walk

end Selector

/-- Code refers to the same packages wherever it stands. -/
theorem packageSelectors_move (ts : List Token) :
    packageSelectors (ts.map r) = packageSelectors ts := by
  have used := congrArg Selector.Walk.used (Selector.Walk.run_move h Selector.Walk.start [] ts)
  exact used

end

/-! ### Tokens that selectors cannot tell apart -/

namespace Token

/-- The walk sees the same of both tokens, apart from their offsets. -/
structure Akin (t u : Token) : Prop where
  kind : t.kind = u.kind
  text : t.text = u.text
  line : t.onNewLine = u.onNewLine
  tight : t.gap.isEmpty = u.gap.isEmpty

/-- The place of an offset among those of a list, and a place behind them for any other. -/
def rank (starts : List Nat) (n : Nat) : Nat := starts.idxOf n + if n ∈ starts then 0 else n

theorem rank_injective (starts : List Nat) : Function.Injective (rank starts) := by
  intro n m same
  have inside : ∀ {n : Nat}, n ∈ starts → rank starts n < starts.length := by
    intro n mem
    simpa [rank, mem] using List.idxOf_lt_length_iff.2 mem
  have outside : ∀ {n : Nat}, n ∉ starts → rank starts n = starts.length + n := by
    intro n mem
    simp [rank, mem]
  by_cases first : n ∈ starts <;> by_cases second : m ∈ starts
  · refine (List.idxOf_inj first).1 ?_
    simpa [rank, first, second] using same
  · have := inside first
    rw [same, outside second] at this
    omega
  · have := inside second
    rw [← same, outside first] at this
    omega
  · rw [outside first, outside second] at same
    omega

/-- The shortest white space that is the same to the walk. -/
def shortGap (t : Token) : Text :=
  if t.onNewLine then ['\n'] else if t.gap.isEmpty then [] else [' ']

/-- The token at the place of its offset among these. -/
def ranked (starts : List Nat) (t : Token) : Token :=
  { t with gap := shortGap t, start := rank starts t.start }

theorem transfers_ranked (starts : List Nat) : Transfers (ranked starts) (rank starts) where
  kind _ := rfl
  text _ := rfl
  line t := by
    change Text.hasNewline (shortGap t) = t.onNewLine
    unfold shortGap
    split
    · next line => exact line.symm
    · next line => split <;> simpa [Text.hasNewline] using line
  tight t := by
    change (shortGap t).isEmpty = t.gap.isEmpty
    unfold shortGap
    split
    · next line =>
      cases gap : t.gap with
      | nil => simp [onNewLine, gap, Text.hasNewline] at line
      | cons c cs => rfl
    · split <;> simp_all
  start _ := rfl
  injective := rank_injective starts

theorem Akin.ranked_eq {t u : Token} (h : Akin t u) {starts starts' : List Nat}
    (place : rank starts t.start = rank starts' u.start) : ranked starts t = ranked starts' u := by
  have gap : shortGap t = shortGap u := by rw [shortGap, shortGap, h.line, h.tight]
  simp only [ranked, h.kind, h.text, gap, place]

/-- With distinct offsets, places among them are those in the list. -/
theorem map_ranked {ts us : List Token} (akin : List.Forall₂ Akin ts us)
    (left : (ts.map Token.start).Nodup) (right : (us.map Token.start).Nodup) :
    ts.map (ranked (ts.map Token.start)) = us.map (ranked (us.map Token.start)) := by
  have nth : ∀ {vs : List Token} (distinct : (vs.map Token.start).Nodup) {i : Nat}
      (inside : i < vs.length), rank (vs.map Token.start) vs[i].start = i := by
    intro vs distinct i inside
    have mem : vs[i].start ∈ vs.map Token.start := List.mem_map_of_mem (List.getElem_mem inside)
    have place := distinct.idxOf_getElem i (by simpa using inside)
    rw [List.getElem_map] at place
    simp [rank, mem, place]
  have size := akin.length_eq
  refine List.ext_getElem (by simpa using size) fun i inside inside' => ?_
  rw [List.length_map] at inside inside'
  rw [List.getElem_map, List.getElem_map]
  refine (akin.get inside inside').ranked_eq ?_
  exact (nth left inside).trans (nth right inside').symm

end Token

/-- Code refers to the same packages as other code that reads the same. -/
theorem packageSelectors_akin {ts us : List Token} (akin : List.Forall₂ Token.Akin ts us)
    (left : (ts.map Token.start).Nodup) (right : (us.map Token.start).Nodup) :
    packageSelectors ts = packageSelectors us := by
  rw [← packageSelectors_move (Token.transfers_ranked (ts.map Token.start)),
    ← packageSelectors_move (Token.transfers_ranked (us.map Token.start)) us,
    Token.map_ranked akin left right]

end GoSplit
