import GoSplit.Proofs.Signature.Form
import GoSplit.Proofs.Signature.Names

/-!
The heading of a function: all that stands between its keyword and its body. Types have the form
that they show outside of their delimiters. Every reader goes over one piece of a heading and stops
where the piece ends: an entry at the next comma outside of delimiters, a list at its own delimiter,
a result without parentheses at the brace that belongs to no type. So reading a heading gives the
brace of the body and the names of receiver, type parameters, parameters and results, in this order.
-/

namespace GoSplit.Signature

open Token (kind_of_isName kind_of_isWord isPlain_of_isWord)

/-! ### Headings as they are written -/

namespace Form

/-- What a type parameter may stand for. -/
inductive Bound : List Token → Prop where
  | type {ts : List Token} (type : Form .type ts) : Bound ts
  | approximate {tilde : Token} {ts : List Token} (kind : tilde.kind = .op)
      (text : tilde.text = ['~'])
      (type : Form .type ts) : Bound (tilde :: ts)
  | union {bar : Token} {ts us : List Token} (term : Bound ts) (kind : bar.kind = .op)
      (text : bar.text = ['|']) (others : Bound us) : Bound (ts ++ bar :: us)

/-- A list of types, which a comma may close. -/
inductive Bare : List Token → Prop where
  | last {ts : List Token} (element : Form .element ts) : Bare ts
  | closed {comma : Token} {ts : List Token} (element : Form .element ts)
      (kind : comma.kind = .comma) :
      Bare (ts ++ [comma])
  | more {comma : Token} {ts us : List Token} (element : Form .element ts)
      (kind : comma.kind = .comma)
      (others : Bare us) : Bare (ts ++ comma :: us)

/-- What stands between the parentheses of a receiver, of parameters or of results, with the names
declared there. Types alone declare none. -/
inductive Parameters : List Token → List Text → Prop where
  | none : Parameters [] []
  | bare {ts : List Token} (types : Bare ts) : Parameters ts []
  | named {ts : List Token} {names : List Text} (fields : Fields (Form .element) ts names) :
      Parameters ts names

/-- A list of parameters in its parentheses. -/
inductive Parenthesized : List Token → List Text → Prop where
  | list {opener closer : Token} {ts : List Token} {names : List Text}
      (opens : opener.kind = .opening .paren) (parameters : Parameters ts names)
      (closes : closer.kind = .closing .paren) : Parenthesized (opener :: (ts ++ [closer])) names

inductive Receiver : List Token → List Text → Prop where
  | none : Receiver [] []
  | list {ts : List Token} {names : List Text} (list : Parenthesized ts names) : Receiver ts names

inductive TypeParameters : List Token → List Text → Prop where
  | none : TypeParameters [] []
  | list {opener closer : Token} {ts : List Token} {names : List Text}
      (opens : opener.kind = .opening .square) (fields : Fields Bound ts names)
      (closes : closer.kind = .closing .square) : TypeParameters (opener :: (ts ++ [closer])) names

/-- What stands between the parameters and the body. Outside of delimiters it is on their line. -/
inductive Results : List Token → List Text → Prop where
  | none : Results [] []
  | type {ts : List Token} (type : Form .type ts) (line : sheltered Token.onNewLine 0 ts = true) :
      Results ts []
  | list {opener closer : Token} {ts : List Token} {names : List Text}
      (opens : opener.kind = .opening .paren) (line : opener.onNewLine = false)
      (parameters : Parameters ts names) (closes : closer.kind = .closing .paren) :
      Results (opener :: (ts ++ [closer])) names

/-- The heading of a function or method, with the names declared in it. What stands between the
brackets of a generic receiver are the arguments of its type. -/
inductive Heading : List Token → List Text → Prop where
  | mk {name : Token} {receiver typed params res : List Token}
      {own typeNames names more : List Text}
      (receives : Receiver receiver own) (isName : name.isName = true)
      (types : TypeParameters typed typeNames) (parameters : Parenthesized params names)
      (results : Results res more) :
      Heading (receiver ++ name :: (typed ++ (params ++ res)))
        (own ++ (typeNames ++ (names ++ more)))

end Form

/-! ### Entries -/

/-- Entries with a token more in front of the first one. -/
def keep (t : Token) (x : List (List Token) × List Token) : List (List Token) × List Token :=
  (match x.1 with
    | [] => [[t]]
    | entry :: others => (t :: entry) :: others, x.2)

/-- Entries with some tokens more in front of the first one. -/
def glue (ts : List Token) (x : List (List Token) × List Token) : List (List Token) × List Token :=
  ts.foldr keep x

theorem glue_append (ts us : List Token) (x : List (List Token) × List Token) :
    glue (ts ++ us) x = glue ts (glue us x) := List.foldr_append

theorem glue_cons (ts entry : List Token) (others : List (List Token)) (after : List Token) :
    glue ts (entry :: others, after) = ((ts ++ entry) :: others, after) := by
  induction ts with
  | nil => rfl
  | cons t ts ih =>
    change keep t (glue ts (entry :: others, after)) = _
    rw [ih]
    rfl

section

variable {t : Token} {ts rest : List Token} {bracket : Bracket}

theorem splitEntries_opening (kind : t.kind = .opening bracket) (n : Nat) :
    splitEntries n (t :: ts) = (splitEntries (n + 1) ts).map (keep t) := by
  simp only [splitEntries, kind]
  rfl

theorem splitEntries_closing (kind : t.kind = .closing bracket) (n : Nat) :
    splitEntries (n + 1) (t :: ts) = (splitEntries n ts).map (keep t) := by
  simp only [splitEntries, kind]
  rfl

theorem splitEntries_end (kind : t.kind = .closing bracket) :
    splitEntries 0 (t :: ts) = some ([[]], ts) := by
  simp only [splitEntries, kind]

theorem splitEntries_comma (kind : t.kind = .comma) :
    splitEntries 0 (t :: ts) = (splitEntries 0 ts).map fun x => ([] :: x.1, x.2) := by
  simp only [splitEntries, kind, if_true]

theorem splitEntries_plain (plain : t.isPlain = true) {n : Nat} (other : t.kind ≠ .comma ∨ n ≠ 0) :
    splitEntries n (t :: ts) = (splitEntries n ts).map (keep t) := by
  cases kind : t.kind with
  | opening | closing => simp [Token.isPlain, kind] at plain
  | comma =>
    have inner : n ≠ 0 := other.resolve_left (by simp [kind])
    simp only [splitEntries, kind, if_neg inner]
    rfl
  | _ =>
    simp only [splitEntries, kind]
    rfl

end

/-- Inside delimiters commas separate nothing. -/
theorem splitEntries_inside {stack : List Bracket} {us rest : List Token} (h : Balances stack us)
    (n : Nat) :
    splitEntries (stack.length + (n + 1)) (us ++ rest) =
      (splitEntries (n + 1) rest).map (glue us) := by
  induction us generalizing stack with
  | nil =>
    obtain rfl : stack = [] := h
    simp only [List.length_nil, Nat.zero_add, List.nil_append]
    exact Option.map_id'.symm
  | cons t us ih =>
    have fold : ∀ x : Option (List (List Token) × List Token),
        (x.map (glue us)).map (keep t) = x.map (glue (t :: us)) := by
      intro x
      cases x <;> rfl
    rw [List.cons_append]
    cases kind : t.kind with
    | opening b =>
      have deeper := ih ((balances_opening kind).1 h)
      rw [List.length_cons, Nat.add_right_comm] at deeper
      rw [splitEntries_opening kind, deeper, fold]
    | closing b =>
      obtain ⟨outer, rfl, rest'⟩ := (balances_closing kind).1 h
      rw [List.length_cons, Nat.add_right_comm, splitEntries_closing kind, ih rest', fold]
    | _ =>
      have plain : t.isPlain = true := by simp [Token.isPlain, kind]
      rw [splitEntries_plain plain (.inr (by omega)), ih ((balances_plain plain).1 h), fold]

theorem splitEntries_group {bracket : Bracket} {opener closer : Token} {us rest : List Token}
    (opens : opener.kind = .opening bracket) (inner : Balances [] us)
    (closes : closer.kind = .closing bracket) :
    splitEntries 0 (opener :: (us ++ closer :: rest)) =
      (splitEntries 0 rest).map (glue (opener :: (us ++ [closer]))) := by
  have inside := @splitEntries_inside [] us (closer :: rest) inner 0
  rw [List.length_nil, Nat.zero_add] at inside
  rw [splitEntries_opening opens, inside, splitEntries_closing closes, Option.map_map,
    Option.map_map]
  congr 1
  funext x
  change keep opener (glue us (keep closer x)) = keep opener (glue (us ++ [closer]) x)
  rw [glue_append]
  rfl

/-- An entry is read as a whole. -/
theorem splitEntries_calm {ts rest : List Token} (h : Calm ts) :
    splitEntries 0 (ts ++ rest) = (splitEntries 0 rest).map (glue ts) := by
  induction h with
  | nil => exact Option.map_id'.symm
  | token calm _ ih =>
    simp only [isCalm, Bool.and_eq_true, bne_iff_ne] at calm
    rw [List.cons_append, splitEntries_plain calm.1.1.1.1 (.inl calm.1.1.1.2), ih, Option.map_map]
    rfl
  | @group _ opener closer us ts _ opens inner closes _ ih =>
    have regroup : glue (opener :: (us ++ closer :: ts)) =
        glue (opener :: (us ++ [closer])) ∘ glue ts := by
      funext x
      rw [Function.comp_apply, ← glue_append]
      simp
    rw [List.cons_append, List.append_assoc, List.cons_append,
      splitEntries_group opens inner closes, ih, Option.map_map, regroup]
  | @braces keyword opener closer us ts word opens inner closes _ ih =>
    have regroup : glue (keyword :: opener :: (us ++ closer :: ts)) =
        keep keyword ∘ glue (opener :: (us ++ [closer])) ∘ glue ts := by
      funext x
      rw [Function.comp_apply, Function.comp_apply, ← glue_append]
      change keep keyword (glue (opener :: (us ++ closer :: ts)) x) = _
      simp
    have kind := word.elim kind_of_isWord kind_of_isWord
    rw [List.cons_append, List.cons_append, List.append_assoc, List.cons_append,
      splitEntries_plain (by simp [Token.isPlain, kind]) (.inl (by simp [kind])),
      splitEntries_group opens inner closes, ih, Option.map_map, Option.map_map, regroup]
    rfl

/-! ### The names of a list -/

/-- The names that the entries start with. -/
def heads (entries : List (List Token)) : List Text :=
  ((entries.filter fun entry => !entry.isEmpty).filterMap List.head?).filterMap
    fun t => if t.isName then some t.text else none

theorem entryNames_eq (always : Bool) (entries : List (List Token)) :
    entryNames always entries = if always || entries.any startsWithName then heads entries
      else [] := by
  have nonempty : (entries.filter fun entry => !entry.isEmpty).any startsWithName =
      entries.any startsWithName := by
    rw [List.any_filter]
    congr 1
    funext entry
    cases entry <;> rfl
  simp only [entryNames, nonempty]
  rfl

theorem heads_cons {name : Token} (isName : name.isName = true) (ts : List Token)
    (entries : List (List Token)) :
    heads ((name :: ts) :: entries) = name.text :: heads entries := by
  simp [heads, isName]

theorem heads_nil_cons (entries : List (List Token)) : heads ([] :: entries) = heads entries := by
  simp [heads]

theorem Form.Bound.calm {ts : List Token} (h : Bound ts) : Calm ts := by
  induction h with
  | type type => exact type.calm
  | approximate kind text type => exact .token (isCalm_of_op kind (by simp [text])) type.calm
  | union _ kind text _ ih ih' => exact ih.append (.token (isCalm_of_op kind (by simp [text])) ih')

theorem listNames_of_entries {always : Bool} {ts after : List Token} {entries : List (List Token)}
    (h : splitEntries 0 ts = some (entries, after)) :
    listNames always ts = some (entryNames always entries, after) := by
  rw [listNames, h]
  rfl

section

variable {closer : Token} {bracket : Bracket}

theorem splitEntries_entry {ts us after : List Token} {entries : List (List Token)} {comma : Token}
    (h : Calm ts) (kind : comma.kind = .comma)
    (others : splitEntries 0 (us ++ closer :: after) = some (entries, after)) :
    splitEntries 0 (ts ++ comma :: us ++ closer :: after) = some (ts :: entries, after) := by
  rw [List.append_assoc, List.cons_append, splitEntries_calm h, splitEntries_comma kind, others,
    Option.map_some, Option.map_some, glue_cons, List.append_nil]

variable (closes : closer.kind = .closing bracket)
include closes

theorem splitEntries_last {ts after : List Token} (h : Calm ts) :
    splitEntries 0 (ts ++ closer :: after) = some ([ts], after) := by
  rw [splitEntries_calm h, splitEntries_end closes, Option.map_some, glue_cons, List.append_nil]

theorem splitEntries_trailing {ts after : List Token} {comma : Token} (h : Calm ts)
    (kind : comma.kind = .comma) :
    splitEntries 0 (ts ++ [comma] ++ closer :: after) = some ([ts, []], after) :=
  splitEntries_entry h kind (splitEntries_end closes)

/-- Every field is an entry that starts with its name. -/
theorem exists_entries {IsType : List Token → Prop} (calm : ∀ ts, IsType ts → Calm ts)
    {ts : List Token} {names : List Text} (h : Fields IsType ts names) (after : List Token) :
    ∃ entries, splitEntries 0 (ts ++ closer :: after) = some (entries, after) ∧
      heads entries = names ∧
      ∃ (name : Token) (us : List Token),
        name.isName = true ∧ IsType us ∧ (name :: us) ∈ entries := by
  induction h with
  | @last name us isName type =>
    refine ⟨_, splitEntries_last closes (.token (isCalm_of_isName isName) (calm us type)), ?_,
      name, us, isName, type, by simp⟩
    rw [heads_cons isName]
    rfl
  | @closed name comma us isName type kind =>
    refine ⟨_, splitEntries_trailing closes (.token (isCalm_of_isName isName) (calm us type))
      kind, ?_,
      name, us, isName, type, by simp⟩
    rw [heads_cons isName, heads_nil_cons]
    rfl
  | @field name comma us vs names isName type kind _ ih =>
    obtain ⟨entries, split, heads, -⟩ := ih
    refine ⟨_, splitEntries_entry (.token (isCalm_of_isName isName) (calm us type)) kind split, ?_,
      name, us, isName, type, by simp⟩
    rw [heads_cons isName, heads]
  | @shared name comma vs names isName kind _ ih =>
    obtain ⟨entries, split, heads, other, us, isName', type, mem⟩ := ih
    refine ⟨_, splitEntries_entry (.token (isCalm_of_isName isName) .nil) kind split, ?_,
      other, us, isName', type, by simp [mem]⟩
    rw [heads_cons isName, heads]

/-- No entry of a list of types starts with a name. -/
theorem exists_bare {ts : List Token} (h : Form.Bare ts) (after : List Token) :
    ∃ entries, splitEntries 0 (ts ++ closer :: after) = some (entries, after) ∧
      entries.any startsWithName = false := by
  induction h with
  | last element =>
    exact ⟨_, splitEntries_last closes element.calm, by simp [element.startsWithName_element]⟩
  | closed element kind =>
    refine ⟨_, splitEntries_trailing closes element.calm kind, ?_⟩
    rw [List.any_cons, element.startsWithName_element]
    rfl
  | more element kind _ ih =>
    obtain ⟨entries, split, none⟩ := ih
    refine ⟨_, splitEntries_entry element.calm kind split, ?_⟩
    rw [List.any_cons, element.startsWithName_element, none]
    rfl

/-- The names in a list of parameters are those that it declares. -/
theorem listNames_parameters {ts : List Token} {names : List Text} (h : Form.Parameters ts names)
    (after : List Token) : listNames false (ts ++ closer :: after) = some (names, after) := by
  cases h with
  | none =>
    rw [List.nil_append, listNames_of_entries (splitEntries_end closes)]
    rfl
  | bare elements =>
    obtain ⟨entries, split, none⟩ := exists_bare closes elements after
    rw [listNames_of_entries split, entryNames_eq, none]
    rfl
  | named fields =>
    obtain ⟨entries, split, heads, name, us, isName, type, mem⟩ :=
      exists_entries closes (fun _ element => element.calm) fields after
    have any : entries.any startsWithName = true :=
      List.any_eq_true.2 ⟨_, mem, type.startsWithName_labelled isName⟩
    rw [listNames_of_entries split, entryNames_eq, any, heads]
    rfl

/-- A list of type parameters names all its entries. -/
theorem listNames_types {ts : List Token} {names : List Text} (h : Fields Form.Bound ts names)
    (after : List Token) : listNames true (ts ++ closer :: after) = some (names, after) := by
  obtain ⟨entries, split, heads, -⟩ := exists_entries closes (fun _ => Form.Bound.calm) h after
  rw [listNames_of_entries split, entryNames_eq, heads]
  rfl

end

/-! ### The body behind the results -/

/-- The scan for the body passes over a result on the line of the parameters. -/
theorem bodyAfterResult_calm {ts rest : List Token} (h : Calm ts)
    (line : sheltered Token.onNewLine 0 ts = true) :
    bodyAfterResult 0 false (ts ++ rest) = bodyAfterResult 0 false rest := by
  induction h with
  | nil => rfl
  | @token t ts calm _ ih =>
    simp only [isCalm, Bool.and_eq_true, bne_iff_ne, Bool.not_eq_true'] at calm
    obtain ⟨⟨⟨⟨plain, comma⟩, semicolon⟩, equals⟩, word⟩ := calm
    rw [sheltered_plain plain] at line
    simp only [Bool.and_eq_true, bne_self_eq_false, Bool.or_false, Bool.not_eq_true'] at line
    rw [List.cons_append, bodyAfterResult, line.1]
    cases kind : t.kind with
    | opening | closing => simp [Token.isPlain, kind] at plain
    | comma => exact absurd kind comma
    | semicolon => exact absurd kind semicolon
    | op =>
      have other : (t.text == ['=']) = false := by simpa [kind] using equals
      simp [other, word, ih line.2]
    | _ => simp [word, ih line.2]
  | @group bracket opener closer us ts round opens inner closes _ ih =>
    rw [sheltered_group opens inner closes] at line
    simp only [Bool.and_eq_true, bne_self_eq_false, Bool.or_false, Bool.not_eq_true'] at line
    have split := @splitAtClose_group [] us (ts ++ rest) closer bracket inner closes
    rw [List.length_nil] at split
    rw [List.cons_append, List.append_assoc, List.cons_append, bodyAfterResult, line.1.1,
      ← ih line.2]
    cases bracket with
    | curly => exact absurd rfl round
    | paren => simp [opens, bodyAfterResult_close split]
    | square => simp [opens, bodyAfterResult_close split]
  | @braces keyword opener closer us ts word opens inner closes _ ih =>
    have plain := word.elim isPlain_of_isWord isPlain_of_isWord
    rw [sheltered_plain plain, sheltered_group opens inner closes] at line
    simp only [Bool.and_eq_true, bne_self_eq_false, Bool.or_false, Bool.not_eq_true'] at line
    have split := @splitAtClose_group [] us (ts ++ rest) closer .curly inner closes
    rw [List.length_nil] at split
    have typed : (keyword.isWord "struct" || keyword.isWord "interface") = true := by
      simpa using word
    rw [List.cons_append, List.cons_append, List.append_assoc, List.cons_append,
      bodyAfterResult, line.1, ← ih line.2.2, word.elim kind_of_isWord kind_of_isWord]
    simp [typed, bodyAfterResult, line.2.1.1, opens, bodyAfterResult_close split]

theorem results_group {opener closer : Token} {ts rest : List Token} {names : List Text}
    (opens : opener.kind = .opening .paren) (line : opener.onNewLine = false)
    (closes : closer.kind = .closing .paren) (parameters : Form.Parameters ts names) :
    results (opener :: (ts ++ [closer]) ++ rest) = bodyAt names rest := by
  have read := listNames_parameters closes parameters rest
  rw [List.append_cons] at read
  exact results_paren opens line read

section

variable {brace : Token} {rest : List Token} (opens : brace.kind = .opening .curly)
  (line : brace.onNewLine = false)
include opens line

theorem bodyAfterResult_brace : bodyAfterResult 0 false (brace :: rest) = some brace.start := by
  simp [bodyAfterResult, opens, line]

theorem bodyAt_brace (names : List Text) :
    bodyAt names (brace :: rest) = some (brace.start, names) := by
  simp only [bodyAt, List.head?_cons, Option.filter, opens, line]
  rfl

/-- The results are read up to the body. -/
theorem results_eq {res : List Token} {names : List Text} (h : Form.Results res names) :
    results (res ++ brace :: rest) = some (brace.start, names) := by
  cases h with
  | none =>
    rw [List.nil_append, results_scan (by simp [opens]), bodyAfterResult_brace opens line]
    rfl
  | type type sameLine =>
    by_cases paren : ∀ t ∈ (res ++ brace :: rest).head?, t.kind = .opening .paren →
      t.onNewLine = true
    · rw [results_scan paren, bodyAfterResult_calm type.calm sameLine,
        bodyAfterResult_brace opens line]
      rfl
    · obtain ⟨t, mem, kind, sameLine'⟩ : ∃ t ∈ res.head?, t.kind = .opening .paren ∧
        t.onNewLine = false := by
        cases res with
        | nil => exact absurd rfl type.ne_nil
        | cons t res => simpa using paren
      obtain ⟨opener, inner, closer, rfl, closes, type'⟩ := type.exists_paren mem kind
      obtain rfl : opener = t := by simpa using mem
      have parameters : Form.Parameters inner [] := .bare (.last (.single type'))
      rw [results_group kind sameLine' closes parameters, bodyAt_brace opens line]
  | list opens' line' parameters closes =>
    rw [results_group opens' line' closes parameters, bodyAt_brace opens line]

/-- Type parameters, parameters and results are read up to the body. -/
theorem parameters_eq {typed params res : List Token} {typeNames names more : List Text}
    (types : Form.TypeParameters typed typeNames) (parameters' : Form.Parenthesized params names)
    (results' : Form.Results res more) :
    parameters (typed ++ (params ++ res) ++ brace :: rest) =
      some (brace.start, typeNames ++ (names ++ more)) := by
  obtain ⟨opens', inner, closes⟩ := parameters'
  have found := listNames_parameters closes inner (res ++ brace :: rest)
  have behind := @results_eq brace rest opens line _ _ results'
  cases types with
  | none =>
    simp only [List.nil_append, List.cons_append, List.append_assoc] at found ⊢
    rw [parameters_other (by simp [opens']), listed_paren [] opens' found, behind]
    simp
  | list opens'' fields closes' =>
    have first := listNames_types closes' fields
    simp only [List.nil_append, List.cons_append, List.append_assoc] at found first ⊢
    rw [parameters_square opens'' (first _), listed_paren _ opens' found, behind]
    simp

/-- A heading is read up to the body, and its names are those declared in it. -/
theorem heading_eq {heading : List Token} {names : List Text} (h : Form.Heading heading names) :
    bindings (heading ++ brace :: rest) = some (brace.start, names) := by
  obtain @⟨name, receiver, typed, params, res, own, typeNames, names, more, receives, isName, types,
    parameters, results⟩ := h
  have behind := @parameters_eq brace rest opens line _ _ _ _ _ _ types parameters results
  cases receives with
  | none =>
    rw [List.nil_append, List.nil_append, List.cons_append,
      bindings_ident (kind_of_isName isName), behind]
  | list receives =>
    obtain ⟨opens', inner, closes⟩ := receives
    have found := listNames_parameters closes inner
      (name :: (typed ++ (params ++ res)) ++ brace :: rest)
    have method : namesMethod (name :: (typed ++ (params ++ res)) ++ brace :: rest) = true := by
      cases types with
      | none =>
        obtain ⟨opens, -, -⟩ := parameters
        simp [namesMethod, kind_of_isName isName, opens]
      | list opens _ _ => simp [namesMethod, kind_of_isName isName, opens]
    simp only [List.nil_append, List.cons_append, List.append_assoc] at found method behind ⊢
    rw [bindings_paren opens' found, if_pos method, List.tail_cons, behind]
    rfl

/-- So is what stands between the keyword and the body of a literal, unless its result starts like
the name of a method. -/
theorem literal_eq {params res : List Token} {names more : List Text}
    (parameters : Form.Parenthesized params names) (results : Form.Results res more)
    (plain : namesMethod res = false) :
    bindings (params ++ res ++ brace :: rest) = some (brace.start, names ++ more) := by
  have behind := @results_eq brace rest opens line _ _ results
  obtain ⟨opens', inner, closes⟩ := parameters
  have found := listNames_parameters closes inner (res ++ brace :: rest)
  have method : namesMethod (res ++ brace :: rest) = false := by
    rcases res with - | ⟨a, - | ⟨b, res⟩⟩
    · cases rest <;> simp [namesMethod, opens]
    · simp [namesMethod, opens]
    · exact plain
  simp only [List.nil_append, List.cons_append, List.append_assoc] at found method behind ⊢
  rw [bindings_paren opens' found, method]
  simp [behind]

end

/-! ### Headings that are spelled out in full -/

theorem Fields.mono {IsType IsType' : List Token → Prop} (weaker : ∀ ts, IsType ts → IsType' ts)
    {ts : List Token} {names : List Text} (h : Fields IsType ts names) :
    Fields IsType' ts names := by
  induction h with
  | last isName type => exact .last isName (weaker _ type)
  | closed isName type kind => exact .closed isName (weaker _ type) kind
  | field isName type kind _ ih => exact .field isName (weaker _ type) kind ih
  | shared isName kind _ ih => exact .shared isName kind ih

theorem Constraint.form {ts : List Token} (h : Constraint ts) : Form.Bound ts := by
  induction h with
  | type type => exact .type (type.form (by simp))
  | approximate kind text type => exact .approximate kind text (type.form (by simp))
  | union _ kind text _ ih ih' => exact .union ih kind text ih'

theorem Elements.form {ts : List Token} (h : Elements ts) : Form.Bare ts := by
  induction h with
  | last element => exact .last (element.form (by simp))
  | closed element kind => exact .closed (element.form (by simp)) kind
  | more element kind _ ih => exact .more (element.form (by simp)) kind ih

section

variable {ts : List Token} {names : List Text}

theorem Parameters.form (h : Parameters ts names) : Form.Parameters ts names := by
  cases h with
  | none => exact .none
  | bare elements => exact .bare elements.form
  | named fields => exact .named (fields.mono fun _ element => element.form (by simp))

theorem Parenthesized.form (h : Parenthesized ts names) : Form.Parenthesized ts names := by
  obtain ⟨opens, parameters, closes⟩ := h
  exact ⟨opens, parameters.form, closes⟩

theorem TypeParameters.form (h : TypeParameters ts names) : Form.TypeParameters ts names := by
  cases h with
  | none => exact .none
  | list opens fields closes => exact .list opens (fields.mono fun _ => Constraint.form) closes

theorem Results.form (h : Results ts names) : Form.Results ts names := by
  cases h with
  | none => exact .none
  | type type line => exact .type (type.form (by simp)) line
  | list opens line parameters closes => exact .list opens line parameters.form closes

end

/-- The signature of a function with a body is read as it is written. -/
theorem bindings_eq {brace : Token} {rest : List Token} (opens : brace.kind = .opening .curly)
    (line : brace.onNewLine = false) {signature : List Token} {names : List Text}
    (h : Declares signature names) :
    bindings (signature ++ brace :: rest) = some (brace.start, names) := by
  cases h with
  | function isName types parameters results =>
    exact heading_eq opens line (.mk .none isName types.form parameters.form results.form)
  | method receives isName types parameters results =>
    exact heading_eq opens line (.mk (.list receives.form) isName types.form parameters.form
      results.form)
  | literal parameters results plain =>
    exact literal_eq opens line parameters.form results.form plain

end GoSplit.Signature
