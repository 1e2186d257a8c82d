import GoSplit.Proofs.Checked.Extents
import Mathlib.Data.List.TakeWhile

/-!
What a declaration declares, read by index. The tokens of the declaration that are no comments
are collected as indices first; what is read then goes through that list. A count of open
delimiters goes down only where one is open.
-/

namespace GoSplit.Checked

open List (Forall₂)

variable {ε α : Type}

/-- The elements between two places of a list. -/
def part (items : List α) (start stop : Nat) : Checked ε (List α) :=
  if start ≤ stop ∧ stop ≤ items.length then pure ((items.take stop).drop start) else Checked.stop

namespace Reading

/-- The indices between two places at which no comment stands. -/
def significant (r : Reading) (start stop : Nat) : Checked ε (List Nat) :=
  (List.range' start (stop - start)).filterM fun i => do return !(← r.token i).isComment

/-- The error for a function without a name, where the token at an index stands instead. -/
def missingName (r : Reading) (start index : Nat) : Checked ε ParseFault := do
  let keyword ← r.token start
  return Heading.missingName keyword (← r.token? index)

/-- The place in the list at which the delimiter closes that was opened first. -/
def closeFrom (r : Reading) (depth n : Nat) : List Nat → Checked ε (Option Nat)
  | [] => pure none
  | i :: items => do
    let t ← r.token i
    match t.kind with
    | .opening _ => r.closeFrom (depth + 1) (n + 1) items
    | .closing _ => do
      let outer ← minus depth 1
      if outer = 0 then return some n else r.closeFrom outer (n + 1) items
    | _ => r.closeFrom depth (n + 1) items

/-- Whether a receiver starts with a name. -/
def startsNamed (ts : List Token) : Checked ε Bool :=
  if 1 < ts.length then do
    let first ← item ts 0
    let second ← item ts 1
    return first.kind == .ident && (second.kind == .ident || second.isStar)
  else pure false

/-- The type of a receiver, from a place of its tokens on. -/
def ofType (name : Option Text) (ts : List Token) (place start : Nat) :
    Checked ParseFault Receiver :=
  let pointer := ts[place]?.any Token.isStar
  match ts[if pointer then place + 1 else place]? with
  | some t =>
    if t.kind = .ident then pure ⟨name, t.text, pointer⟩ else throw ⟨.malformedReceiver, start⟩
  | none => throw ⟨.malformedReceiver, start⟩

/-- The receiver between two parentheses, the first of which is at the byte `start`. -/
def receiver (r : Reading) (items : List Nat) (start : Nat) : Checked ParseFault Receiver := do
  let ts := (← items.mapM r.token).filter fun t =>
    t.kind == .ident || t.kind == .opening .square || t.isStar
  if ← startsNamed ts then ofType (some (← item ts 0).text) ts 1 start else ofType none ts 0 start

/-- The heading of a method, whose name is behind the receiver that ends at a place of the list. -/
def method (r : Reading) (start : Nat) (items : List Nat) (close : Nat) (receiver : Receiver) :
    Checked ParseFault Heading :=
  match items[close + 1]? with
  | some place => do
    let name ← r.token place
    if name.kind = .ident then return ⟨.method, [name.text], some receiver⟩
    else throw (← r.missingName start place)
  | none => do throw (← r.missingName start ((← item items close) + 1))

/-- The heading of the function whose keyword is at an index. -/
def funcHead (r : Reading) (start : Nat) (items : List Nat) : Checked ParseFault Heading :=
  match items with
  | [] => do throw (← r.missingName start (start + 1))
  | index :: _ => do
    let first ← r.token index
    if first.kind = .opening .paren then
      match ← r.closeFrom 0 0 items with
      | none => throw ⟨.malformedReceiver, first.start⟩
      | some close => r.method start items close (← r.receiver (← part items 1 close) first.start)
    else if first.kind = .ident then return ⟨.func, [first.text], none⟩
    else throw (← r.missingName start index)

/-- What the search for declared names knows in front of a token. -/
structure Naming where
  depth : Nat
  atStart : Bool
  collecting : Bool
  /-- Where the token in front ends. -/
  lastEnd : Nat

/-- Whether the token at a place of the list is an identifier. -/
def isIdent (r : Reading) (items : List Nat) (n : Nat) : Checked ε Bool :=
  match items[n]? with
  | some i => do return (← r.token i).kind == .ident
  | none => pure false

/-- Whether a token that starts at the byte `start` begins a line of the list. -/
def breaks (r : Reading) (grouped : Bool) (s : Naming) (start : Nat) : Checked ε Bool :=
  if grouped && s.depth == 0 then r.newlineBetween s.lastEnd start else pure false

/-- The names declared from the `n`th token on. -/
def namesFrom (r : Reading) (grouped several : Bool) (body : List Nat) (s : Naming) (n : Nat) :
    List Nat → Checked ε (List Text)
  | [] => pure []
  | i :: items => do
    let t ← r.token i
    let starts := s.atStart || (← r.breaks grouped s t.start)
    let go (depth : Nat) (atStart collecting : Bool) : Checked ε (List Text) :=
      r.namesFrom grouped several body ⟨depth, atStart, collecting, t.stop⟩ (n + 1) items
    let more (atStart collecting : Bool) : Checked ε (List Text) :=
      if !grouped && !atStart && !collecting then pure [] else go s.depth atStart collecting
    match t.kind with
    | .opening _ => go (s.depth + 1) starts false
    | .closing _ => if s.depth = 0 then pure [] else do go (← minus s.depth 1) starts s.collecting
    | kind =>
      if s.depth != 0 then go s.depth starts s.collecting
      else if kind == .semicolon then go 0 true s.collecting
      else if starts && kind == .ident then do return t.text :: (← more false several)
      else if s.collecting && kind == .comma then do more starts (← r.isIdent body (n + 1))
      else if s.collecting && kind == .ident then do
        let previous ← r.token (← item body (← minus n 1))
        if previous.kind == .comma then return t.text :: (← more starts true) else more starts false
      else more false false

/-- The names declared by the tokens at the given places. -/
def declaredNames (r : Reading) (several : Bool) (items : List Nat) : Checked ε (List Text) :=
  match items with
  | [] => pure []
  | index :: _ => do
    let first ← r.token index
    let start : Naming := ⟨0, true, false, first.stop⟩
    if first.kind = .opening .paren then do
      let body ← part items 1 items.length
      r.namesFrom true several body start 0 body
    else r.namesFrom false several items start 0 items

/-- The heading of the declaration between two indices. -/
def heading (r : Reading) (start stop : Nat) : Checked ParseFault Heading := do
  let keyword ← r.token start
  let items ← r.significant (start + 1) stop
  if keyword.isWord "func" then r.funcHead start items
  else if keyword.isWord "type" then return ⟨.type, ← r.declaredNames false items, none⟩
  else if keyword.isWord "var" then return ⟨.var, ← r.declaredNames true items, none⟩
  else return ⟨.const, ← r.declaredNames true items, none⟩

/-! ### The places of code -/

/-- The indices of the tokens that are no comments, when the first token has the given one. -/
def places (start : Nat) : List Token → List Nat
  | [] => []
  | t :: ts => if t.isComment then places (start + 1) ts else start :: places (start + 1) ts

theorem places_append (start : Nat) (ts us : List Token) :
    places start (ts ++ us) = places start ts ++ places (start + ts.length) us := by
  induction ts generalizing start with
  | nil => rfl
  | cons t ts ih =>
    rw [List.cons_append, places, places, ih, List.length_cons, Nat.add_assoc start, Nat.add_comm 1]
    split <;> rfl

theorem filterAuxM_places {turn : Nat → Checked ε Bool} {start : Nat} {ts : List Token}
    (tested : ∀ (front : List Token) t rest, ts = front ++ t :: rest →
      turn (start + front.length) = pure !t.isComment)
    (found : List Nat) :
    List.filterAuxM turn (List.range' start ts.length) found =
      pure ((places start ts).reverse ++ found) := by
  induction ts generalizing start found with
  | nil => rfl
  | cons t ts ih =>
    have first := tested [] t ts rfl
    have others : ∀ (front : List Token) u rest, ts = front ++ u :: rest →
        turn (start + 1 + front.length) = pure !u.isComment := by
      intro front u rest cut
      have next := tested (t :: front) u rest (by rw [cut, List.cons_append])
      rwa [List.length_cons, Nat.add_comm front.length, ← Nat.add_assoc] at next
    have step : ∀ i items, List.filterAuxM turn (i :: items) found =
        turn i >>=
          fun more => List.filterAuxM turn items (cond more (i :: found) found) := fun _ _ => rfl
    rw [List.length_nil, Nat.add_zero] at first
    rw [List.length_cons, List.range'_succ, step, first, pure_bind, ih others, places]
    cases t.isComment <;> simp

namespace Of

variable {r : Reading} {before : Text} {toks front body rest after : List Token} {t : Token}
  {items : List Nat}

theorem significant_eq (h : r.Of before toks) (cut : toks = front ++ (body ++ after)) :
    (r.significant front.length (front.length + body.length) : Checked ε _) =
      pure (places front.length body) := by
  have tested : ∀ (ahead : List Token) t rest, body = ahead ++ t :: rest →
      (do return !(← r.token (front.length + ahead.length)).isComment : Checked ε Bool) =
        pure !t.isComment := by
    intro ahead t rest split
    have here := @token_eq ε r before toks (front ++ ahead) (rest ++ after) t h
      (by rw [cut, split]; simp)
    rw [List.length_append] at here
    rw [here, pure_bind, bare_isComment]
  have places := @filterAuxM_places ε (fun i => do return !(← r.token i).isComment) front.length
    body tested []
  rw [List.append_nil] at places
  rw [significant, Nat.add_sub_cancel_left]
  refine (congrArg (· >>= fun found => pure found.reverse) places).trans ?_
  rw [pure_bind, List.reverse_reverse]

/-- At the places of code are the tokens that are left without the comments. -/
theorem points_places (h : r.Of before toks) (cut : toks = front ++ (body ++ after)) (gap : Text) :
    Forall₂ (Points r) (places front.length body) (Token.withoutComments.go gap body) := by
  induction body generalizing front gap with
  | nil => exact .nil
  | cons t body ih =>
    have behind : ∀ gap, Forall₂ (Points r) (places (front.length + 1) body)
        (Token.withoutComments.go gap body) := by
      intro gap
      have next := @ih (front ++ [t]) (by simp [cut]) gap
      rwa [List.length_append, List.length_singleton] at next
    rw [places, Token.withoutComments.go]
    split
    · exact behind _
    · have here : Points r front.length t := h.points (by rw [cut, List.cons_append])
      exact .cons here (behind _)

theorem Points.lt {i : Nat} (points : Points r i t) : i < r.size := by
  by_contra beyond
  have none : r.marks[i]? = none := List.getElem?_eq_none (Nat.not_lt.1 beyond)
  rw [Points, token, item, none] at points
  cases points

theorem Points.token? {i : Nat} (points : Points r i t) :
    (r.token? i : Checked ParseFault (Option Token)) = pure (some (bare t)) := by
  have read : (r.token i : Checked ParseFault Token) = pure (bare t) := points
  rw [Reading.token?, if_pos points.lt, read, pure_bind]

/-! ### Functions -/

theorem missingName_eq {start i : Nat} {keyword : Token} (here : Points r start keyword)
    (found : Option Token) (there : (r.token? i : Checked ParseFault _) = pure (found.map bare)) :
    (r.missingName start i : Checked ParseFault _) = pure (Heading.missingName keyword found) := by
  have read : (r.token start : Checked ParseFault Token) = pure (bare keyword) := here
  rw [Reading.missingName, read, pure_bind, there, pure_bind]
  cases found <;> rfl

theorem closeFrom_eq {ts : List Token} (points : Forall₂ (Points r) items ts) (inner n : Nat) :
    (r.closeFrom (inner + 1) n items : Checked ParseFault _) =
      pure ((splitAtClose inner ts).map fun split => n + split.1.length) := by
  induction points generalizing inner n with
  | nil => rfl
  | @cons i t items ts here _ ih =>
    have read : (r.token i : Checked ParseFault Token) = pure (bare t) := here
    have deeper : ∀ m, (r.closeFrom (m + 1) (n + 1) items : Checked ParseFault _) =
        pure (((splitAtClose m ts).map fun split => (t :: split.1, split.2)).map
          fun split => n + split.1.length) := by
      intro m
      rw [ih, Option.map_map]
      congr 2
      funext split
      simp only [Function.comp_apply, List.length_cons]
      omega
    rw [closeFrom, read, pure_bind, bare_kind]
    cases kind : t.kind with
    | opening bracket =>
      simp only [splitAtClose, kind]
      exact deeper (inner + 1)
    | closing bracket =>
      cases inner with
      | zero =>
        simp only [splitAtClose, kind]
        rfl
      | succ outer =>
        simp only [splitAtClose, kind]
        exact deeper outer
    | _ =>
      simp only [splitAtClose, kind]
      exact deeper inner

theorem mapM_token {ts : List Token} (points : Forall₂ (Points r) items ts) :
    (items.mapM r.token : Checked ParseFault (List Token)) = pure (ts.map bare) := by
  induction points with
  | nil => rfl
  | @cons i t items ts here _ ih =>
    have read : (r.token i : Checked ParseFault Token) = pure (bare t) := here
    rw [List.mapM_cons, read, pure_bind, ih, pure_bind]
    rfl

theorem ofType_eq (name : Option Text) (us : List Token) (place start : Nat) :
    ofType name (us.map bare) place start =
      (Receiver.ofType name (us.drop place)).elim (throw ⟨.malformedReceiver, start⟩) pure := by
  have here : (us.map bare)[place]? = ((us.drop place)[0]?).map bare := by simp
  have next : (us.map bare)[place + 1]? = ((us.drop place)[1]?).map bare := by simp
  rw [ofType, here]
  cases found : us.drop place with
  | nil =>
    rw [found] at here
    simp only [List.getElem?_nil, Option.map_none, Option.any_none, Bool.false_eq_true,
      if_false, here]
    rfl
  | cons t vs =>
    rw [found] at here next
    simp only [List.getElem?_cons_zero, Option.map_some, Option.any_some, bare_isStar,
      Receiver.ofType]
    by_cases star : t.isStar = true
    · simp only [star, if_true, next]
      cases vs with
      | nil => rfl
      | cons base vs =>
        simp only [List.getElem?_cons_succ, List.getElem?_cons_zero, Option.map_some]
        by_cases ident : base.kind = .ident
        · rw [if_pos (show (bare base).kind = .ident from ident), if_pos ident]
          rfl
        · rw [if_neg (show ¬ (bare base).kind = .ident from ident), if_neg ident]
          rfl
    · simp only [star, Bool.false_eq_true, if_false, here, List.getElem?_cons_zero, Option.map_some]
      by_cases ident : t.kind = .ident
      · rw [if_pos (show (bare t).kind = .ident from ident), if_pos ident]
        rfl
      · rw [if_neg (show ¬ (bare t).kind = .ident from ident), if_neg ident]
        rfl

theorem startsNamed_eq (us : List Token) :
    (startsNamed (us.map bare) : Checked ε Bool) = pure (Receiver.named us) := by
  rcases us with _ | ⟨first, _ | ⟨second, rest⟩⟩
  · rfl
  · rfl
  · rw [startsNamed, if_pos (by simp)]
    rfl

theorem receiver_eq {ts : List Token} (points : Forall₂ (Points r) items ts) (start : Nat) :
    r.receiver items start = (Receiver.ofTokens ts).elim (throw ⟨.malformedReceiver, start⟩)
      pure := by
  have same :
      ((fun t : Token => t.kind == .ident || t.kind == .opening .square || t.isStar) ∘ bare) =
        fun t => t.kind == .ident || t.kind == .opening .square || t.isStar := rfl
  rw [receiver, mapM_token points, pure_bind, Receiver.ofTokens, List.filter_map, same]
  generalize List.filter _ ts = relevant
  dsimp only
  rw [startsNamed_eq, pure_bind]
  cases relevant with
  | nil => rfl
  | cons first rest =>
    by_cases named : Receiver.named (first :: rest) = true
    · have head : (item ((first :: rest).map bare) 0 : Checked ParseFault Token) =
          pure (bare first) := rfl
      rw [if_pos named, head, pure_bind, ofType_eq]
      simp only [named, if_true]
      rfl
    · rw [if_neg named, ofType_eq]
      simp only [named]
      rfl

theorem exists_of_splitAtClose {inner : Nat} {ts inside behind : List Token}
    (found : splitAtClose inner ts = some (inside, behind)) :
    ∃ closer bracket, ts = inside ++ closer :: behind ∧ closer.kind = .closing bracket := by
  induction ts generalizing inner inside with
  | nil => cases found
  | cons t ts ih =>
    have deeper : ∀ m, ((splitAtClose m ts).map fun split => (t :: split.1, split.2)) =
        some (inside, behind) →
        ∃ closer bracket, t :: ts = inside ++ closer :: behind ∧
          closer.kind = .closing bracket := by
      intro m mapped
      obtain ⟨⟨inside', behind'⟩, split, same⟩ := Option.map_eq_some_iff.1 mapped
      obtain ⟨rfl, rfl⟩ := Prod.mk.inj same
      obtain ⟨closer, bracket, whole, kind⟩ := ih split
      exact ⟨closer, bracket, by rw [whole, List.cons_append], kind⟩
    cases kind : t.kind with
    | opening bracket =>
      simp only [splitAtClose, kind] at found
      exact deeper _ found
    | closing bracket =>
      cases inner with
      | zero =>
        simp only [splitAtClose, kind, Option.some.injEq, Prod.mk.injEq] at found
        obtain ⟨rfl, rfl⟩ := found
        exact ⟨t, bracket, rfl, kind⟩
      | succ outer =>
        simp only [splitAtClose, kind] at found
        exact deeper _ found
    | _ =>
      simp only [splitAtClose, kind] at found
      exact deeper _ found

theorem places_comments (start : Nat) {cs : List Token} (comments : ∀ c ∈ cs, c.isComment = true) :
    places start cs = [] := by
  induction cs generalizing start with
  | nil => rfl
  | cons c cs ih =>
    rw [places, if_pos (comments c (by simp)), ih _ fun c mem => comments c (by simp [mem])]

/-- The last of the places, and what comes behind it. -/
theorem exists_last_place {start : Nat} (code : places start body ≠ []) :
    ∃ init last, body = init ++ last :: (body.reverse.takeWhile Token.isComment).reverse ∧
      (places start body).getLast? = some (start + init.length) := by
  have split :=
    congrArg List.reverse (List.takeWhile_append_dropWhile (p := Token.isComment)
      (l := body.reverse))
  rw [List.reverse_append, List.reverse_reverse] at split
  have comments : ∀ c ∈ (body.reverse.takeWhile Token.isComment).reverse, c.isComment = true :=
    fun c mem => List.mem_takeWhile_imp (List.mem_reverse.1 mem)
  cases found : body.reverse.dropWhile Token.isComment with
  | nil =>
    rw [found, List.reverse_nil, List.nil_append] at split
    exact absurd (places_comments start (split ▸ comments)) code
  | cons last init =>
    have notComment : last.isComment = false := by
      have head := List.head?_dropWhile_not Token.isComment body.reverse
      rw [found] at head
      simpa using head
    rw [found, List.reverse_cons, List.append_assoc] at split
    refine ⟨init.reverse, last, split.symm, ?_⟩
    rw [← split]
    generalize (body.reverse.takeWhile Token.isComment).reverse = cs at comments
    rw [places_append, List.singleton_append, places, notComment, places_comments _ comments]
    simp

theorem part_of_le {α : Type} {xs : List α} {start stop : Nat} (order : start ≤ stop)
    (inside : stop ≤ xs.length) :
    (part xs start stop : Checked ε (List α)) = pure ((xs.take stop).drop start) :=
  if_pos ⟨order, inside⟩

section

variable {keyword : Token} {start : Nat} {ahead behind : List Token} {closer : Token}

theorem method_cons (here : Points r start keyword)
    (points : Forall₂ (Points r) items (ahead ++ closer :: t :: behind)) (receiver : Receiver) :
    r.method start items ahead.length receiver =
      if t.kind = .ident then pure ⟨.method, [t.text], some receiver⟩
      else throw (Heading.missingName keyword (some t)) := by
  have dropped := List.forall₂_drop (ahead.length + 1) points
  have whole : (ahead ++ closer :: t :: behind).drop (ahead.length + 1) = t :: behind := by
    rw [List.append_cons, List.drop_left' (by simp)]
  have second : items[ahead.length + 1]? = (items.drop (ahead.length + 1)).head? := by simp
  rw [whole] at dropped
  cases found : items.drop (ahead.length + 1) with
  | nil =>
    rw [found] at dropped
    cases dropped
  | cons place others =>
    rw [found] at dropped second
    cases dropped with
    | cons there _ =>
      have read : (r.token place : Checked ParseFault Token) = pure (bare t) := there
      have missing := missingName_eq here (some t) there.token?
      simp only [method, second, List.head?_cons, read, pure_bind, missing]
      rfl

theorem method_last (h : r.Of before toks) (here : Points r start keyword)
    (cut : toks = front ++ (body ++ after))
    (points : Forall₂ (Points r) (places front.length body) (ahead ++ [closer]))
    (receiver : Receiver) :
    r.method start (places front.length body) ahead.length receiver =
      throw (Heading.missingName keyword
        ((body.reverse.takeWhile Token.isComment).reverse ++ after).head?) := by
  have size := points.length_eq
  rw [List.length_append, List.length_singleton] at size
  obtain ⟨init, last, whole, ends⟩ := @exists_last_place body front.length
    (List.ne_nil_of_length_pos (by omega))
  rw [List.getLast?_eq_getElem?, size, Nat.add_sub_cancel] at ends
  have none : (places front.length body)[ahead.length + 1]? = none :=
    List.getElem?_eq_none (by omega)
  generalize (body.reverse.takeWhile Token.isComment).reverse = comments at whole
  have cut' : toks = (front ++ (init ++ [last])) ++ (comments ++ after) := by rw [cut, whole]; simp
  have behind := @token?_eq ParseFault r before toks _ _ h cut'
  have place : (front ++ (init ++ [last])).length = front.length + init.length + 1 := by
    simp [Nat.add_assoc]
  rw [place] at behind
  simp only [method, none, item_of_getElem? ends, pure_bind, missingName_eq here _ behind]

end

/-- The heading of a function with a receiver. -/
theorem funcHead_paren (h : r.Of before toks) {keyword first : Token}
    (cut : toks = front ++ keyword :: (body ++ after))
    (found : Token.withoutComments body = first :: rest) (paren : first.kind = .opening .paren) :
    r.funcHead front.length (places (front.length + 1) body) =
      ofExcept (Heading.ofFunc keyword body after) := by
  have here := h.points cut
  have cut' : toks = (front ++ [keyword]) ++ (body ++ after) := by simp [cut]
  have points : Forall₂ (Points r) (places (front ++ [keyword]).length body)
      (Token.withoutComments body) :=
    h.points_places cut' []
  have last := fun ahead closer =>
    @method_last r before toks (front ++ [keyword]) body after keyword front.length ahead closer h
      here cut'
  rw [List.length_append, List.length_singleton] at points last
  rw [found] at points
  generalize places (front.length + 1) body = items at points last
  cases points with
  | @cons index _ others _ there points =>
    have read : (r.token index : Checked ParseFault Token) = pure (bare first) := there
    have opens : (r.closeFrom 0 0 (index :: others) : Checked ParseFault _) =
        r.closeFrom 1 1 others := by
      rw [closeFrom, read, pure_bind, bare_kind, paren]
    rw [funcHead, read, pure_bind,
      if_pos (show (bare first).kind = .opening .paren from paren), opens, closeFrom_eq points,
      Heading.ofFunc, found]
    simp only [paren, if_true]
    cases closed : splitAtClose 0 rest with
    | none => rfl
    | some split =>
      obtain ⟨inner, behind⟩ := split
      obtain ⟨closer, -, whole, -⟩ := exists_of_splitAtClose closed
      have all : Forall₂ (Points r) (index :: others) ((first :: inner) ++ closer :: behind) := by
        rw [List.cons_append, ← whole]
        exact .cons there points
      have size := all.length_eq
      simp only [List.length_append, List.length_cons] at size
      have inside : (part (index :: others) 1 (1 + inner.length) : Checked ParseFault _) =
          pure (others.take inner.length) := by
        rw [part_of_le (by omega) (by simp only [List.length_cons]; omega)]
        simp [Nat.add_comm 1]
      have listed : Forall₂ (Points r) (others.take inner.length) inner := by
        have taken := List.forall₂_take inner.length points
        rwa [whole, List.take_left] at taken
      have close : 1 + inner.length = (first :: inner).length := by
        rw [List.length_cons, Nat.add_comm]
      simp only [Option.map_some, pure_bind, inside, receiver_eq listed]
      cases Receiver.ofTokens inner with
      | none => rfl
      | some receiver =>
        simp only [Option.elim_some, pure_bind, close]
        cases behind with
        | nil =>
          rw [last _ _ all]
          rfl
        | cons name more =>
          rw [method_cons here all]
          simp only
          split_ifs <;> rfl

theorem funcHead_eq (h : r.Of before toks) {keyword : Token}
    (cut : toks = front ++ keyword :: (body ++ after)) :
    r.funcHead front.length (places (front.length + 1) body) =
      ofExcept (Heading.ofFunc keyword body after) := by
  have here := h.points cut
  have cut' : toks = (front ++ [keyword]) ++ (body ++ after) := by simp [cut]
  have points : Forall₂ (Points r) (places (front ++ [keyword]).length body)
      (Token.withoutComments body) :=
    h.points_places cut' []
  have behind := @token?_eq ParseFault r before toks _ _ h cut'
  rw [List.length_append, List.length_singleton] at points behind
  cases found : Token.withoutComments body with
  | nil =>
    rw [found, List.forall₂_nil_right_iff] at points
    simp only [points, funcHead, missingName_eq here _ behind, pure_bind, Heading.ofFunc, found]
    rfl
  | cons first rest =>
    by_cases paren : first.kind = .opening .paren
    · exact h.funcHead_paren cut found paren
    rw [found] at points
    obtain ⟨index, others, there, -, placed⟩ := List.forall₂_cons_right_iff.1 points
    have read : (r.token index : Checked ParseFault Token) = pure (bare first) := there
    rw [placed, funcHead, read, pure_bind,
      if_neg (show ¬ (bare first).kind = .opening .paren from paren), Heading.ofFunc, found]
    simp only [paren, if_false]
    by_cases ident : first.kind = .ident
    · rw [if_pos (show (bare first).kind = .ident from ident), if_pos ident]
      rfl
    · rw [if_neg (show ¬ (bare first).kind = .ident from ident), if_neg ident,
        missingName_eq here (some first) there.token?]
      rfl

/-! ### Declared names -/

/-- The tokens go on behind a token of the source that ends at the byte `stop`. -/
def Behind (r : Reading) (stop : Nat) (ts : List Token) : Prop :=
  ∃ (r' : Reading) (before : Text) (front : List Token) (p : Token),
    r'.src = r.src ∧ r'.Of before (front ++ p :: ts) ∧ p.stop = stop

theorem Behind.newlineBetween {stop : Nat} {ts : List Token} (h : Behind r stop (t :: ts)) :
    (r.newlineBetween stop t.start : Checked ε Bool) = pure t.onNewLine := by
  obtain ⟨r', before, front, p, src, reads, rfl⟩ := h
  have between := @slice_between ε r' before _ front [] ts t p reads rfl
  rw [Token.written_nil, List.nil_append, src] at between
  rw [Reading.newlineBetween, between, pure_bind]
  rfl

theorem Behind.next {stop : Nat} {ts : List Token} (h : Behind r stop (t :: ts)) :
    Behind r t.stop ts := by
  obtain ⟨r', before, front, p, src, reads, -⟩ := h
  exact ⟨r', before, front ++ [p], t, src, by simpa using reads, rfl⟩

theorem breaks_eq {grouped : Bool} {s : Naming} {ts : List Token}
    (behind : grouped = true → Behind r s.lastEnd (t :: ts)) :
    (r.breaks grouped s t.start : Checked ε Bool) =
      pure (grouped && s.depth == 0 && t.onNewLine) := by
  cases grouped with
  | false => rfl
  | true =>
    rw [breaks, (behind rfl).newlineBetween]
    cases s.depth == 0 <;> rfl

theorem isIdent_eq (ahead : List Nat) {ts : List Token} (points : Forall₂ (Points r) items ts)
    (i : Nat) :
    (r.isIdent (ahead ++ i :: items) (ahead.length + 1) : Checked ParseFault Bool) =
      pure ((ts.head?.map (·.kind)) == some .ident) := by
  have next : (ahead ++ i :: items)[ahead.length + 1]? = items.head? := by
    rw [List.append_cons, List.getElem?_append_right (by simp), List.head?_eq_getElem?]
    simp
  rw [isIdent, next]
  cases points with
  | nil => rfl
  | @cons j u _ _ there _ =>
    have read : (r.token j : Checked ParseFault Token) = pure (bare u) := there
    simp only [List.head?_cons, read, pure_bind]
    rfl

theorem namesFrom_eq {grouped several : Bool} {ahead : List Nat} {ts : List Token}
    {scan : Heading.Scan} {lastEnd : Nat} (points : Forall₂ (Points r) items ts)
    (behind : grouped = true → Behind r lastEnd ts)
    (previous : scan.collecting = true → ∃ others j u, ahead = others ++ [j] ∧ Points r j u ∧
      scan.afterComma = (u.kind == .comma)) :
    (r.namesFrom grouped several (ahead ++ items)
      ⟨scan.depth, scan.atStart, scan.collecting, lastEnd⟩ ahead.length
      items : Checked ParseFault _) = pure (Heading.namesFrom grouped several scan ts) := by
  induction points generalizing ahead scan lastEnd with
  | nil => rfl
  | @cons i t items ts here points ih =>
    have read : (r.token i : Checked ParseFault Token) = pure (bare t) := here
    have breaks := @breaks_eq ParseFault r t grouped
      ⟨scan.depth, scan.atStart, scan.collecting, lastEnd⟩ ts behind
    have go : ∀ depth atStart collecting,
        (r.namesFrom grouped several (ahead ++ i :: items) ⟨depth, atStart, collecting, t.stop⟩
          (ahead.length + 1) items :
          Checked ParseFault _) =
          pure (Heading.namesFrom grouped several ⟨depth, atStart, collecting, t.kind == .comma⟩
            ts) := by
      intro depth atStart collecting
      have next := @ih (ahead ++ [i]) ⟨depth, atStart, collecting, t.kind == .comma⟩ t.stop
        (fun group => (behind group).next) (fun _ => ⟨ahead, i, t, rfl, here, rfl⟩)
      rwa [List.append_assoc, List.length_append, List.length_singleton] at next
    have comma : scan.collecting = true →
        ∃ j u, (item (ahead ++ i :: items) (ahead.length - 1) : Checked ParseFault _) =
          pure j ∧ (r.token j : Checked ParseFault Token) = pure u ∧ 1 ≤ ahead.length ∧
          scan.afterComma = (u.kind == .comma) := by
      intro collecting
      obtain ⟨others, j, u, rfl, there, same⟩ := previous collecting
      exact ⟨j, bare u, item_of_getElem? (by simp), there, by simp, same⟩
    have identifies := isIdent_eq ahead points i
    simp only [namesFrom, read, pure_bind, bare_start, bare_stop, bare_kind, breaks, go,
      Heading.namesFrom]
    generalize (scan.atStart || (grouped && scan.depth == 0 && t.onNewLine)) = starts
    cases kind : t.kind with
    | opening bracket => rfl
    | closing bracket =>
      cases deep : scan.depth with
      | zero => rfl
      | succ outer =>
        simp only [minus_of_le (Nat.le_add_left 1 outer), pure_bind, Nat.add_sub_cancel]
        rfl
    | semicolon =>
      simp only [beq_self_eq_true, if_true]
      split_ifs <;> rfl
    | ident =>
      have noComma : (Token.Kind.ident == Token.Kind.comma) = false := rfl
      have noSemicolon : (Token.Kind.ident == Token.Kind.semicolon) = false := rfl
      simp only [noComma, noSemicolon, beq_self_eq_true, Bool.and_true, Bool.and_false,
        Bool.false_eq_true, if_false]
      by_cases deep : (scan.depth != 0) = true
      · rw [if_pos deep, if_pos deep]
      rw [if_neg deep, if_neg deep]
      by_cases opens : starts = true
      · rw [if_pos opens, if_pos opens]
        split_ifs <;> rfl
      rw [if_neg opens, if_neg opens]
      by_cases collects : scan.collecting = true
      · obtain ⟨j, u, found, there, positive, after⟩ := comma collects
        simp only [collects, if_true, minus_of_le positive, found, there, pure_bind, after]
        split_ifs <;> rfl
      · simp only [collects, Bool.false_eq_true, if_false]
        split_ifs <;> rfl
    | comma =>
      have noIdent : (Token.Kind.comma == Token.Kind.ident) = false := rfl
      have noSemicolon : (Token.Kind.comma == Token.Kind.semicolon) = false := rfl
      simp only [noIdent, noSemicolon, beq_self_eq_true, Bool.and_true, Bool.and_false,
        Bool.false_eq_true, if_false, identifies, pure_bind]
      split_ifs <;> rfl
    | _ =>
      simp
      split_ifs <;> rfl

theorem declaredNames_eq (h : r.Of before toks) (cut : toks = front ++ (body ++ after))
    (several : Bool) :
    (r.declaredNames several (places front.length body) : Checked ParseFault _) =
      pure (Heading.declaredNames several body) := by
  have points : Forall₂ (Points r) (places front.length body) (Token.withoutComments body) :=
    h.points_places cut []
  have code := (h.within cut).withoutComments
  rw [Heading.declaredNames]
  cases found : Token.withoutComments body with
  | nil =>
    rw [found, List.forall₂_nil_right_iff] at points
    rw [points, declaredNames]
  | cons first rest =>
    rw [found] at points code
    obtain ⟨index, others, there, listed, placed⟩ := List.forall₂_cons_right_iff.1 points
    have read : (r.token index : Checked ParseFault Token) = pure (bare first) := there
    rw [placed, declaredNames, read, pure_bind]
    simp only
    by_cases paren : first.kind = .opening .paren
    · have body : (part (index :: others) 1 (index :: others).length : Checked ParseFault _) =
          pure others := by
        rw [part_of_le (by simp) (Nat.le_refl _), List.take_length]
        rfl
      have names := @namesFrom_eq r others true several [] rest ⟨0, true, false, false⟩
        first.stop listed
        (fun _ => ⟨⟨r.src, (first :: rest).map Mark.of⟩, _, [], first, rfl, code, rfl⟩) (by simp)
      rw [if_pos (show (bare first).kind = .opening .paren from paren), if_pos paren, body,
        pure_bind]
      exact names
    · have names := @namesFrom_eq r _ false several [] _ ⟨0, true, false, false⟩ first.stop
        (.cons there listed)
        (by simp) (by simp)
      rw [if_neg (show ¬ (bare first).kind = .opening .paren from paren), if_neg paren]
      exact names

/-- What a declaration declares is read like its tokens. -/
theorem heading_eq (h : r.Of before toks) {keyword : Token}
    (cut : toks = front ++ keyword :: (body ++ after)) :
    r.heading front.length (front.length + 1 + body.length) =
      ofExcept (Heading.read keyword body after) := by
  have cut' : toks = (front ++ [keyword]) ++ (body ++ after) := by simp [cut]
  have collected := @significant_eq ParseFault r before toks _ body after h cut'
  have names := @declaredNames_eq r before toks _ body after h cut'
  rw [List.length_append, List.length_singleton] at collected names
  rw [heading, h.token_eq cut, pure_bind, collected, pure_bind, Heading.read, h.funcHead_eq cut,
    names, names]
  simp only [bare_isWord, pure_bind]
  split_ifs <;> rfl

end Of

end Reading

end GoSplit.Checked
