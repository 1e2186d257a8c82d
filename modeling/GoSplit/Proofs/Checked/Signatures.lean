import GoSplit.Proofs.Checked.Headings
import GoSplit.Proofs.Selector.Signatures

/-!
Signatures read by index, in code without comments. A list of entries is kept as lists of indices;
the depth inside a list goes down only behind an opening delimiter, since the list starts with
one. The indices are the offsets of the tokens when these are numbered.
-/

namespace GoSplit.Checked.Reading

open List (Forall₂)

variable {ε : Type}

/-- Whether a token of the kind is at an index. -/
def isKind (r : Reading) (i : Nat) (kind : Token.Kind) : Bool :=
  (r.marks[i]?.map (·.kind)) == some kind

def kinds (r : Reading) : List Token.Kind := r.marks.map (·.kind)

/-- Whether a line break is in front of the token at an index, which is not the first one. -/
def newlineBefore (r : Reading) (k : Nat) : Checked ε Bool := do
  let previous ← r.token (← minus k 1)
  r.newlineBetween previous.stop (← r.token k).start

/-! ### Lists of entries -/

/-- Adds an index to the last entry. -/
def push (entries : List (List Nat)) (k : Nat) : List (List Nat) :=
  match entries.getLast? with
  | some last => entries.dropLast ++ [last ++ [k]]
  | none => entries

/-- The entries of a list from the `k`th token on, and the index of the delimiter that closes it. -/
def entriesFrom (depth k : Nat) (entries : List (List Nat)) :
    List Token.Kind → Checked ε (Option (Nat × List (List Nat)))
  | [] => pure none
  | kind :: kinds =>
    match kind with
    | .opening _ =>
      if depth + 1 = 1 then entriesFrom (depth + 1) (k + 1) entries kinds
      else entriesFrom (depth + 1) (k + 1) (push entries k) kinds
    | .closing _ => do
      let outer ← minus depth 1
      if outer = 0 then return some (k, entries) else
        entriesFrom outer (k + 1) (push entries k) kinds
    | .comma =>
      if depth = 1 then entriesFrom depth (k + 1) (entries ++ [[]]) kinds
      else entriesFrom depth (k + 1) (push entries k) kinds
    | _ => entriesFrom depth (k + 1) (push entries k) kinds

/-- Whether anything follows the delimiters that are open, in an entry of `size` tokens from its
`n`th one on. -/
def followed (r : Reading) (size depth n : Nat) : List Nat → Checked ε Bool
  | [] => pure false
  | i :: items => do
    match (← r.token i).kind with
    | .opening _ => r.followed size (depth + 1) (n + 1) items
    | .closing _ =>
      if depth - 1 = 0 then return decide (n + 1 < size)
        else r.followed size (depth - 1) (n + 1) items
    | _ => r.followed size depth (n + 1) items

/-- Whether an entry surely starts with a name. -/
def entryNamed (r : Reading) (entry : List Nat) : Checked ε Bool := do
  let first ← r.token (← item entry 0)
  if first.isName then
    match entry[1]? with
    | none => return false
    | some second =>
      match (← r.token second).kind with
      | .dot => return false
      | .opening .square => r.followed entry.length 0 1 (entry.drop 1)
      | _ => return true
  else return false

/-- The names at the starts of entries. -/
def namesOf (r : Reading) (entries : List (List Nat)) : Checked ε (List Text) := do
  let firsts ← entries.mapM fun entry => do r.token (← item entry 0)
  return firsts.filterMap fun t => if t.isName then some t.text else none

/-- The names declared in the list that opens at an index, and the index at which it closes. -/
def fieldNames (r : Reading) (opening : Nat) (always : Bool) :
    Checked ε (Option (Nat × List Text)) := do
  match ← entriesFrom 0 opening [[]] (r.kinds.drop opening) with
  | none => return none
  | some (close, entries) =>
    let entries := entries.filter fun entry => !entry.isEmpty
    if always then return some (close, ← r.namesOf entries)
    else if ← entries.anyM r.entryNamed then return some (close, ← r.namesOf entries)
    else return some (close, [])

/-! ### Bodies -/

/-- Whether the brace at an index opens a type. -/
def opensType (r : Reading) (k : Nat) : Checked ε Bool := do
  let previous ← r.token (← minus k 1)
  return previous.isWord "struct" || previous.isWord "interface"

/-- Whether the token at an index ends a result outside of delimiters, because it is on a new
line. -/
def endsLine (r : Reading) (depth k : Nat) : Checked ε Bool :=
  if depth = 0 then r.newlineBefore k else pure false

/-- The brace that opens the body behind a result, from the `k`th token on. -/
def bodyFrom (r : Reading) (depth k : Nat) : List Token.Kind → Checked ε (Option Nat)
  | [] => pure none
  | kind :: kinds => do
    if ← r.endsLine depth k then return none
    else match kind with
      | .opening .curly =>
        if depth == 0 && !(← r.opensType k) then return some k
          else r.bodyFrom (depth + 1) (k + 1) kinds
      | .opening _ => r.bodyFrom (depth + 1) (k + 1) kinds
      | .closing _ =>
        if depth = 0 then return none else do r.bodyFrom (← minus depth 1) (k + 1) kinds
      | .comma | .semicolon => if depth = 0 then return none else r.bodyFrom depth (k + 1) kinds
      | .op =>
        let t ← r.token k
        if depth == 0 && t.text == ['='] then return none else r.bodyFrom depth (k + 1) kinds
      | _ => r.bodyFrom depth (k + 1) kinds

def bodyAfterResult (r : Reading) (start : Nat) : Checked ε (Option Nat) :=
  r.bodyFrom 0 start (r.kinds.drop start)

/-- Whether a token of the kind goes on the line at an index that is not the first one. -/
def continues (r : Reading) (k : Nat) (kind : Token.Kind) : Checked ε Bool :=
  if r.isKind k kind then do return !(← r.newlineBefore k) else pure false

/-- Results and body behind the parameters, when the names are already known. -/
def results (r : Reading) (k : Nat) (names : List Text) : Checked ε (Option (Nat × List Text)) := do
  if ← r.continues k (.opening .paren) then
    match ← r.fieldNames k false with
    | none => return none
    | some (close, group) =>
      if ← r.continues (close + 1) (.opening .curly) then return some (close + 1, names ++ group)
        else return none
  else return (← r.bodyAfterResult k).map fun body => (body, names)

/-- Parameters, results and body. -/
def listed (r : Reading) (k : Nat) (names : List Text) : Checked ε (Option (Nat × List Text)) := do
  if r.isKind k (.opening .paren) then
    match ← r.fieldNames k false with
    | none => return none
    | some (close, group) => r.results (close + 1) (names ++ group)
  else return none

/-- Type parameters, parameters, results and body. -/
def parameters (r : Reading) (k : Nat) (names : List Text) :
    Checked ε (Option (Nat × List Text)) := do
  if r.isKind k (.opening .square) then
    match ← r.fieldNames k true with
    | none => return none
    | some (close, group) => r.listed (close + 1) (names ++ group)
  else r.listed k names

/-- The body of the function whose keyword is at an index, and the names bound in it. -/
def bindings (r : Reading) (k : Nat) : Checked ε (Option (Nat × List Text)) := do
  if r.isKind (k + 1) (.opening .paren) then
    match ← r.fieldNames (k + 1) false with
    | none => return none
    | some (close, group) =>
      let j := close + 1
      if r.isKind j .ident && (r.isKind (j + 1) (.opening .paren) ||
        r.isKind (j + 1) (.opening .square)) then
        r.parameters (j + 1) group
      else r.results j group
  else if r.isKind (k + 1) .ident then r.parameters (k + 2) []
  else r.parameters (k + 1) []

/-! ### Numbered tokens -/

/-- The tokens with numbers from `k` on in the place of offsets. -/
def number (k : Nat) : List Token → List Token
  | [] => []
  | t :: ts => { t with start := k } :: number (k + 1) ts

/-- The offsets of the tokens count up from `k`. -/
def Counts (k : Nat) : List Token → Prop
  | [] => True
  | t :: ts => t.start = k ∧ Counts (k + 1) ts

theorem counts_number (k : Nat) (ts : List Token) : Counts k (number k ts) := by
  induction ts generalizing k with
  | nil => trivial
  | cons t ts ih => exact ⟨rfl, ih (k + 1)⟩

theorem map_kind_number (k : Nat) (ts : List Token) :
    (number k ts).map (·.kind) = ts.map (·.kind) := by
  induction ts generalizing k with
  | nil => rfl
  | cons t ts ih => rw [number, List.map_cons, List.map_cons, ih]

theorem exists_of_number {k : Nat} {ts front us : List Token} (cut : number k ts = front ++ us) :
    ∃ front' us', ts = front' ++ us' ∧ front'.length = front.length ∧
      us = number (k + front.length) us' := by
  induction front generalizing k ts with
  | nil => exact ⟨[], ts, rfl, rfl, cut.symm⟩
  | cons f front ih =>
    cases ts with
    | nil => cases cut
    | cons t ts =>
      obtain ⟨-, cut⟩ := List.cons.inj cut
      obtain ⟨front', us', rfl, size, rfl⟩ := ih cut
      refine ⟨t :: front', us', rfl, by rw [List.length_cons, List.length_cons, size], ?_⟩
      rw [List.length_cons, Nat.add_right_comm, Nat.add_assoc]

theorem exists_pair_of_number {k : Nat} {ts front rest : List Token} {p t : Token}
    (cut : number k ts = front ++ p :: t :: rest) :
    ∃ front' p' t' rest', ts = front' ++ p' :: t' :: rest' ∧ front'.length = front.length ∧
      p = { p' with start := k + front.length } ∧ t =
        { t' with start := k + front.length + 1 } := by
  obtain ⟨front', us, rfl, size, same⟩ := exists_of_number cut
  rcases us with _ | ⟨p', _ | ⟨t', us⟩⟩
  · cases same
  · cases same
  · obtain ⟨first, same⟩ := List.cons.inj same
    exact ⟨front', p', t', us, rfl, size, first, (List.cons.inj same).1⟩

theorem Counts.behind {k : Nat} {front us : List Token} (h : Counts k (front ++ us)) :
    Counts (k + front.length) us := by
  induction front generalizing k with
  | nil => exact h
  | cons t front ih =>
    have next := ih h.2
    rwa [Nat.add_right_comm, Nat.add_assoc] at next

theorem Counts.start {k : Nat} {front us : List Token} {t : Token}
    (h : Counts k (front ++ t :: us)) :
    t.start = k + front.length := h.behind.1

/-- Code that is read by index, its tokens numbered. -/
structure Numbered (r : Reading) (code : List Token) : Prop where
  kinds : r.kinds = code.map (·.kind)
  counts : Counts 0 code
  read : ∀ t ∈ code, ∃ start, ∀ ε, (r.token t.start : Checked ε Token) =
    pure ⟨t.kind, [], t.text, start⟩
  line : ∀ (front : List Token) p t rest, code = front ++ p :: t :: rest →
    ∀ ε, (r.newlineBefore (front.length + 1) : Checked ε Bool) = pure t.onNewLine
  beside : ∀ (front : List Token) p t rest, code = front ++ p :: t :: rest →
    ∃ start, ∀ ε, (r.token front.length : Checked ε Token) = pure ⟨p.kind, [], p.text, start⟩ ∧
      (r.token (front.length + 1) : Checked ε Token) =
        pure ⟨t.kind, [], t.text, start + p.text.byteLength + t.gap.byteLength⟩

namespace Of

variable {r : Reading} {before : Text} {toks : List Token}

theorem newlineBefore_eq (h : r.Of before toks) {front rest : List Token} {p t : Token}
    (cut : toks = front ++ p :: t :: rest) :
    (r.newlineBefore (front.length + 1) : Checked ε Bool) = pure t.onNewLine := by
  have next := @token_eq ε r before toks (front ++ [p]) rest t h (by simp [cut])
  rw [List.length_append, List.length_singleton] at next
  have between := @slice_between ε r before toks front [] rest t p h cut
  rw [newlineBefore, minus_of_le (Nat.le_add_left 1 _), pure_bind, Nat.add_sub_cancel,
    h.token_eq cut, pure_bind, next, pure_bind, bare_stop, bare_start, newlineBetween, between]
  rfl

/-- The tokens of a text, numbered. -/
theorem numbered (h : r.Of before toks) : Numbered r (number 0 toks) := by
  refine ⟨?_, counts_number 0 toks, fun t mem => ?_, fun front p t rest cut ε => ?_,
    fun front p t rest cut => ?_⟩
  · rw [kinds, h.marks, List.map_map, map_kind_number]
    rfl
  · obtain ⟨front, rest, cut⟩ := List.append_of_mem mem
    obtain ⟨front', us, rfl, size, same⟩ := exists_of_number cut
    cases us with
    | nil => cases same
    | cons u us =>
      obtain ⟨rfl, rfl⟩ := List.cons.inj same
      refine ⟨u.start, fun ε => ?_⟩
      rw [Nat.zero_add, ← size]
      exact h.token_eq rfl
  · obtain ⟨front', p', t', rest', cut', size, rfl, rfl⟩ := exists_pair_of_number cut
    have line := @newlineBefore_eq ε r before toks h front' rest' p' t' cut'
    rw [← size]
    exact line
  · obtain ⟨front', p', t', rest', cut', size, rfl, rfl⟩ := exists_pair_of_number cut
    refine ⟨p'.start, fun ε => ⟨?_, ?_⟩⟩
    · rw [← size]
      exact h.token_eq cut'
    · have next := @token_eq ε r before toks (front' ++ [p']) rest' t' h (by simp [cut'])
      have start : t'.start = p'.start + p'.text.byteLength + t'.gap.byteLength := by
        rw [@start_eq r before toks (front' ++ [p']) rest' t' h (by simp [cut']), h.start_eq cut']
        simp [Nat.add_assoc]
      rw [List.length_append, List.length_singleton, size] at next
      rw [next, bare, start]

end Of

namespace Numbered

variable {r : Reading} {code front us rest : List Token} {t p : Token} {always : Bool}

/-- Lists of tokens in the place of which their numbers stand. -/
abbrev numbers (entries : List (List Token)) : List (List Nat) :=
  entries.map fun entry => entry.map (·.start)

/-! ### Entries -/

/-- The entries behind a part of the first one. -/
def joined (last : List Nat) (entries : List (List Token)) : List (List Nat) :=
  match entries with
  | [] => [last]
  | entry :: others => (last ++ entry.map (·.start)) :: numbers others

theorem push_concat (init : List (List Nat)) (last : List Nat) (k : Nat) :
    push (init ++ [last]) k = init ++ [last ++ [k]] := by
  simp [push]

/-- The token starts the first entry. -/
def consHead (t : Token) : List (List Token) → List (List Token)
  | [] => [[t]]
  | entry :: others => (t :: entry) :: others

theorem joined_consHead (last : List Nat) (entries : List (List Token)) :
    joined last (consHead t entries) = joined (last ++ [t.start]) entries := by
  cases entries <;> simp [joined, consHead]

theorem joined_nil {entries : List (List Token)} (some : entries ≠ []) :
    joined [] entries = numbers entries := by
  obtain ⟨entry, others, rfl⟩ := List.exists_cons_of_ne_nil some
  simp [joined]

/-- A list has at least one entry, which may be empty, and all entries are of its tokens. -/
theorem entries_of_splitEntries {inner : Nat} {found : List (List Token) × List Token}
    (split : Signature.splitEntries inner us = some found) :
    found.1 ≠ [] ∧ ∀ entry ∈ found.1, ∀ t ∈ entry, t ∈ us := by
  induction us generalizing inner found with
  | nil => cases split
  | cons u us ih =>
    have kept : ∀ m, (Signature.splitEntries m us).map
        (fun found => (consHead u found.1, found.2)) = some found →
        found.1 ≠ [] ∧ ∀ entry ∈ found.1, ∀ t ∈ entry, t ∈ u :: us := by
      intro m mapped
      obtain ⟨⟨entries, after⟩, before, rfl⟩ := Option.map_eq_some_iff.1 mapped
      obtain ⟨-, known⟩ := ih before
      cases entries with
      | nil => simp [consHead]
      | cons entry others =>
        refine ⟨List.cons_ne_nil _ _, fun entry' mem t inside => ?_⟩
        rcases List.mem_cons.1 mem with rfl | mem
        · rcases List.mem_cons.1 inside with rfl | inside
          · exact List.mem_cons_self ..
          · exact List.mem_cons_of_mem u (known entry (List.mem_cons_self ..) t inside)
        · exact List.mem_cons_of_mem u (known entry' (List.mem_cons_of_mem entry mem) t inside)
    cases kind : u.kind with
    | closing bracket =>
      cases inner with
      | zero =>
        simp only [Signature.splitEntries, kind, Option.some.injEq] at split
        simp [← split]
      | succ outer =>
        simp only [Signature.splitEntries, kind] at split
        exact kept _ split
    | comma =>
      simp only [Signature.splitEntries, kind] at split
      by_cases outside : inner = 0
      · rw [if_pos outside] at split
        obtain ⟨⟨entries, after⟩, before, rfl⟩ := Option.map_eq_some_iff.1 split
        refine ⟨List.cons_ne_nil _ _, fun entry mem t inside => ?_⟩
        rcases List.mem_cons.1 mem with rfl | mem
        · cases inside
        · exact List.mem_cons_of_mem u ((ih before).2 entry mem t inside)
      · rw [if_neg outside] at split
        exact kept _ split
    | _ =>
      simp only [Signature.splitEntries, kind] at split
      exact kept _ split

theorem entriesFrom_eq {k : Nat} (counts : Counts k us) (inner : Nat) (init : List (List Nat))
    (last : List Nat) :
    (entriesFrom (inner + 1) k (init ++ [last]) (us.map (·.kind)) : Checked ε _) =
      pure ((Signature.splitEntries inner us).map fun found =>
        (k + us.length - found.2.length - 1, init ++ joined last found.1)) := by
  induction us generalizing k inner init last with
  | nil => rfl
  | cons t us ih =>
    obtain ⟨start, counts⟩ := counts
    have place : ∀ n, k + 1 + us.length - n - 1 = k + (t :: us).length - n - 1 := by
      intro n
      rw [List.length_cons, Nat.add_assoc, Nat.add_comm 1]
    have kept : ∀ m,
        (entriesFrom (m + 1) (k + 1) (push (init ++ [last]) k) (us.map (·.kind)) : Checked ε _) =
          pure (((Signature.splitEntries m us).map fun found => (consHead t found.1, found.2)).map
            fun found =>
            (k + (t :: us).length - found.2.length - 1, init ++ joined last found.1)) := by
      intro m
      rw [push_concat, ih counts, Option.map_map]
      congr 2
      funext found
      simp only [Function.comp_apply, joined_consHead, start, place]
    rw [List.map_cons]
    cases kind : t.kind with
    | opening bracket =>
      simp only [entriesFrom, Signature.splitEntries, kind]
      rw [if_neg (by omega)]
      exact kept _
    | closing bracket =>
      cases inner with
      | zero =>
        have here : k + (t :: us).length - us.length - 1 = k := by
          rw [List.length_cons]
          omega
        simp only [entriesFrom, Signature.splitEntries, kind, Option.map_some, here]
        simp [minus, joined, numbers]
      | succ outer =>
        simp only [entriesFrom, Signature.splitEntries, kind]
        simp only [minus_of_le (Nat.le_add_left 1 (outer + 1)), pure_bind, Nat.add_sub_cancel]
        rw [if_neg (Nat.succ_ne_zero _)]
        exact kept _
    | comma =>
      simp only [entriesFrom, Signature.splitEntries, kind]
      by_cases outside : inner = 0
      · subst outside
        rw [if_pos rfl, if_pos rfl, ih counts]
        cases split : Signature.splitEntries 0 us with
        | none => rfl
        | some found =>
          simp only [Option.map_some, place, joined_nil (entries_of_splitEntries split).1,
            List.append_assoc]
          simp [joined]
      · rw [if_neg (by omega), if_neg outside]
        exact kept _
    | _ =>
      simp only [entriesFrom, Signature.splitEntries, kind]
      exact kept _

theorem followed_eq (h : Numbered r code) {inner n : Nat} (known : ∀ t ∈ us, t ∈ code) :
    (r.followed (n + us.length) (inner + 1) n (us.map (·.start)) : Checked ε Bool) =
      pure ((splitAtClose inner us).any fun split => !split.2.isEmpty) := by
  induction us generalizing inner n with
  | nil => rfl
  | cons t us ih =>
    obtain ⟨start, read⟩ := h.read t (known t (by simp))
    have size : n + (t :: us).length = n + 1 + us.length := by
      rw [List.length_cons]
      omega
    have deeper :
        ∀ m, (r.followed (n + 1 + us.length) (m + 1) (n + 1) (us.map (·.start)) : Checked ε Bool) =
          pure (((splitAtClose m us).map fun split => (t :: split.1, split.2)).any
            fun split => !split.2.isEmpty) := by
      intro m
      rw [ih fun t mem => known t (by simp [mem])]
      cases splitAtClose m us <;> rfl
    rw [List.map_cons, followed, read, pure_bind, size]
    cases kind : t.kind with
    | opening bracket =>
      simp only [splitAtClose, kind]
      exact deeper _
    | closing bracket =>
      cases inner with
      | zero =>
        simp only [splitAtClose, kind]
        cases us <;> simp
      | succ outer =>
        simp only [splitAtClose, kind, Nat.add_sub_cancel]
        rw [if_neg (Nat.succ_ne_zero outer)]
        exact deeper _
    | _ =>
      simp only [splitAtClose, kind]
      exact deeper _

theorem entryNamed_eq (h : Numbered r code) (known : ∀ t ∈ us, t ∈ code) (full : us ≠ []) :
    (r.entryNamed (us.map (·.start)) : Checked ε Bool) = pure (Signature.startsWithName us) := by
  obtain ⟨first, rest, rfl⟩ := List.exists_cons_of_ne_nil full
  obtain ⟨start, read⟩ := h.read first (known first (by simp))
  have here : (item ((first :: rest).map (·.start)) 0 : Checked ε Nat) = pure first.start := rfl
  have name : (Token.mk first.kind [] first.text start).isName = first.isName := rfl
  rw [entryNamed, here, pure_bind, read, pure_bind, name]
  cases rest with
  | nil =>
    simp only [Signature.startsWithName]
    split_ifs <;> rfl
  | cons second rest =>
    obtain ⟨start', read'⟩ := h.read second (known second (by simp))
    have followed := @followed_eq ε r code rest h 0 2 fun t mem => known t (by simp [mem])
    have size : ((first :: second :: rest).map (·.start)).length = 2 + rest.length := by
      rw [List.length_map, List.length_cons, List.length_cons]
      omega
    have next : ((first :: second :: rest).map (·.start))[1]? = some second.start := rfl
    have behind : ((first :: second :: rest).map (·.start)).drop 1 =
        second.start :: rest.map (·.start) := rfl
    simp only [next, read', pure_bind, size, behind, Signature.startsWithName]
    cases first.isName with
    | false => rfl
    | true =>
      cases kind : second.kind with
      | opening bracket =>
        cases bracket with
        | square =>
          simp only [Reading.followed, read', pure_bind, kind, followed, if_true, Bool.true_and]
          cases splitAtClose 0 rest <;> rfl
        | _ => rfl
      | _ => rfl

theorem namesOf_eq (h : Numbered r code) {entries : List (List Token)}
    (known : ∀ entry ∈ entries, ∀ t ∈ entry, t ∈ code) (full : ∀ entry ∈ entries, entry ≠ []) :
    (r.namesOf (numbers entries) : Checked ε (List Text)) =
      pure ((entries.filterMap List.head?).filterMap
        fun t => if t.isName then some t.text else none) := by
  have firsts : ∃ us : List Token,
      ((numbers entries).mapM fun entry => do r.token (← item entry 0) : Checked ε (List Token)) =
        pure us ∧
      Forall₂ (fun u t => u.kind = t.kind ∧ u.text = t.text) us
        (entries.filterMap List.head?) := by
    induction entries with
    | nil => exact ⟨[], rfl, .nil⟩
    | cons entry entries ih =>
      obtain ⟨us, read, same⟩ := ih (fun entry mem => known entry (by simp [mem]))
        fun entry mem => full entry (by simp [mem])
      obtain ⟨t, rest, rfl⟩ := List.exists_cons_of_ne_nil (full entry (by simp))
      obtain ⟨start, here⟩ := h.read t (known (t :: rest) (by simp) t (by simp))
      have head : (item ((t :: rest).map (·.start)) 0 : Checked ε Nat) = pure t.start := rfl
      refine ⟨⟨t.kind, [], t.text, start⟩ :: us, ?_, .cons ⟨rfl, rfl⟩ same⟩
      rw [numbers, List.map_cons, List.mapM_cons, head, pure_bind, here, pure_bind, read, pure_bind]
  obtain ⟨us, read, same⟩ := firsts
  rw [namesOf, read, pure_bind]
  generalize entries.filterMap List.head? = ts at same
  congr 1
  clear read
  induction same with
  | nil => rfl
  | @cons u t _ _ same _ ih =>
    have name : u.isName = t.isName := by simp only [Token.isName, same.1, same.2]
    rw [List.filterMap_cons, List.filterMap_cons, name, same.2, ih]

theorem filter_numbers (entries : List (List Token)) :
    (numbers entries).filter (fun entry => !entry.isEmpty) =
      numbers (entries.filter fun entry => !entry.isEmpty) := by
  rw [numbers, List.filter_map]
  congr 2
  funext entry
  cases entry <;> rfl

theorem anyM_entryNamed (h : Numbered r code) {entries : List (List Token)}
    (known : ∀ entry ∈ entries, ∀ t ∈ entry, t ∈ code) (full : ∀ entry ∈ entries, entry ≠ []) :
    ((numbers entries).anyM r.entryNamed : Checked ε Bool) =
      pure (entries.any Signature.startsWithName) := by
  induction entries with
  | nil => rfl
  | cons entry entries ih =>
    have rest := ih (fun entry mem => known entry (by simp [mem]))
      fun entry mem => full entry (by simp [mem])
    rw [numbers, List.map_cons, List.anyM_cons,
      h.entryNamed_eq (known entry (by simp)) (full entry (by simp)), pure_bind, List.any_cons]
    cases Signature.startsWithName entry with
    | true => rfl
    | false => exact rest

/-- The names of a list and the index behind it. -/
theorem fieldNames_eq (h : Numbered r code) (cut : code = front ++ t :: rest) {bracket : Bracket}
    (opens : t.kind = .opening bracket) (always : Bool) :
    (r.fieldNames front.length always : Checked ε _) =
      pure ((Signature.listNames always rest).map fun found =>
        (code.length - found.2.length - 1, found.1)) := by
  have counts := h.counts
  rw [cut] at counts
  have inside := counts.behind.2
  rw [Nat.zero_add] at inside
  have ahead : r.kinds.drop front.length = .opening bracket :: rest.map (·.kind) := by
    rw [h.kinds, cut, List.map_append, List.drop_left' (by simp), List.map_cons, opens]
  have entries := @entriesFrom_eq ε rest (front.length + 1) inside 0 [] []
  have opened :
      (entriesFrom 0 front.length [[]] (.opening bracket :: rest.map (·.kind)) : Checked ε _) =
        entriesFrom 1 (front.length + 1) [[]] (rest.map (·.kind)) := by
    rw [entriesFrom, if_pos rfl]
  have size : ∀ n, front.length + 1 + rest.length - n - 1 = code.length - n - 1 := by
    intro n
    rw [cut, List.length_append, List.length_cons]
    omega
  rw [List.nil_append] at entries
  rw [fieldNames, ahead, opened, entries, pure_bind, Signature.listNames]
  cases split : Signature.splitEntries 0 rest with
  | none => rfl
  | some found =>
    obtain ⟨entries, after⟩ := found
    obtain ⟨nonempty, known⟩ := entries_of_splitEntries split
    have known : ∀ entry ∈ entries.filter (fun entry => !entry.isEmpty), ∀ t ∈ entry, t ∈ code := by
      intro entry mem u inside
      rw [cut]
      simp [known entry (List.mem_filter.1 mem).1 u inside]
    have full : ∀ entry ∈ entries.filter (fun entry => !entry.isEmpty), entry ≠ [] := by
      intro entry mem
      simpa using (List.mem_filter.1 mem).2
    have names := @namesOf_eq ε r code h _ known full
    have any := @anyM_entryNamed ε r code h _ known full
    simp only [Option.map_some, List.nil_append, joined_nil nonempty, filter_numbers, names, any,
      pure_bind, size, Signature.entryNames]
    cases always with
    | true => rfl
    | false =>
      cases (entries.filter fun entry => !entry.isEmpty).any Signature.startsWithName <;> rfl

/-! ### Where bodies start -/

theorem isKind_eq (h : Numbered r code) (cut : code = front ++ us) (i : Nat) (kind : Token.Kind) :
    r.isKind (front.length + i) kind = us[i]?.any fun t => t.kind == kind := by
  have same : r.kinds[front.length + i]? = us[i]?.map (·.kind) := by
    rw [h.kinds, cut, List.getElem?_map, List.getElem?_append_right (Nat.le_add_right _ _),
      Nat.add_sub_cancel_left]
  rw [isKind, ← List.getElem?_map]
  change (r.kinds[front.length + i]? == some kind) = _
  rw [same]
  cases us[i]? <;> rfl

theorem opensType_eq (h : Numbered r code) (cut : code = front ++ p :: rest) :
    (r.opensType (front.length + 1) : Checked ε Bool) =
      pure (p.isWord "struct" || p.isWord "interface") := by
  have counts := h.counts
  rw [cut] at counts
  obtain ⟨start, read⟩ := h.read p (by simp [cut])
  rw [counts.start, Nat.zero_add] at read
  rw [opensType, minus_of_le (Nat.le_add_left 1 _), pure_bind, Nat.add_sub_cancel, read, pure_bind]
  rfl

theorem bodyFrom_eq (h : Numbered r code) (cut : code = front ++ p :: us) (depth : Nat) :
    (r.bodyFrom depth (front.length + 1) (us.map (·.kind)) : Checked ε _) =
      pure (Signature.bodyAfterResult depth (p.isWord "struct" || p.isWord "interface") us) := by
  induction us generalizing front p depth with
  | nil => rfl
  | cons t us ih =>
    have counts := h.counts
    rw [cut, List.append_cons] at counts
    have start : t.start = front.length + 1 := by simpa using counts.start
    obtain ⟨place, read⟩ := h.read t (by simp [cut])
    rw [start] at read
    have breaks : (r.endsLine depth (front.length + 1) : Checked ε Bool) =
        pure (depth == 0 && t.onNewLine) := by
      cases depth with
      | zero => exact h.line front p t us cut ε
      | succ depth => rfl
    have next : ∀ d, (r.bodyFrom d (front.length + 1 + 1) (us.map (·.kind)) : Checked ε _) =
        pure (Signature.bodyAfterResult d (t.isWord "struct" || t.isWord "interface") us) := by
      intro d
      have inner := @ih (front ++ [p]) t (by simp [cut]) d
      rwa [List.length_append, List.length_singleton] at inner
    have opens := @opensType_eq ε r code front (t :: us) p h cut
    rw [List.map_cons, bodyFrom.eq_def]
    dsimp only
    rw [breaks, pure_bind]
    by_cases line : (depth == 0 && t.onNewLine) = true
    · rw [if_pos line]
      simp only [Signature.bodyAfterResult, line, if_true]
    · rw [if_neg line]
      simp only [Signature.bodyAfterResult, line, Bool.false_eq_true, if_false]
      cases kind : t.kind with
      | opening bracket =>
        cases bracket with
        | curly =>
          rw [opens, pure_bind]
          simp only [start]
          split_ifs
          · rfl
          · exact next (depth + 1)
        | _ => exact next _
      | closing bracket =>
        cases depth with
        | zero => rfl
        | succ outer => exact next outer
      | comma =>
        cases depth with
        | zero => rfl
        | succ outer => exact next (outer + 1)
      | semicolon =>
        cases depth with
        | zero => rfl
        | succ outer => exact next (outer + 1)
      | op =>
        rw [read, pure_bind]
        simp only
        split_ifs
        · rfl
        · exact next depth
      | _ => exact next _

theorem continues_eq (h : Numbered r code) (cut : code = front ++ p :: us) (kind : Token.Kind) :
    (r.continues (front.length + 1) kind : Checked ε Bool) =
      pure (us.head?.any fun t => t.kind == kind && !t.onNewLine) := by
  have here := @isKind_eq r code (front ++ [p]) us h (by simp [cut]) 0 kind
  rw [List.length_append, List.length_singleton, Nat.add_zero] at here
  rw [continues, here]
  cases us with
  | nil => rfl
  | cons t us =>
    have first : ((t :: us)[0]?.any fun t => t.kind == kind) = (t.kind == kind) := rfl
    have both : ((t :: us).head?.any fun t => t.kind == kind && !t.onNewLine) =
        (t.kind == kind && !t.onNewLine) := rfl
    rw [h.line front p t us cut, pure_bind, first, both]
    cases t.kind == kind <;> rfl

/-- The delimiter that closes a list, and what is behind it. -/
theorem exists_of_listNames {names : List Text} {after : List Token}
    (found : Signature.listNames always us = some (names, after)) :
    ∃ inside closer bracket, us = inside ++ closer :: after ∧ closer.kind = .closing bracket := by
  obtain ⟨⟨entries, after'⟩, split, same⟩ := Option.map_eq_some_iff.1 found
  obtain ⟨-, rfl⟩ := Prod.mk.inj same
  have ends := Signature.splitEntries_snd 0 us
  rw [split] at ends
  obtain ⟨⟨inside, behind⟩, closed, rfl⟩ := Option.map_eq_some_iff.1 ends.symm
  obtain ⟨closer, bracket, whole, kind⟩ := Of.exists_of_splitAtClose closed
  exact ⟨inside, closer, bracket, whole, kind⟩

/-- Reading a list, and going on behind it. -/
theorem fieldNames_cases (h : Numbered r code) (cut : code = front ++ t :: rest) {bracket : Bracket}
    (opens : t.kind = .opening bracket) (always : Bool) :
    (Signature.listNames always rest = none ∧ ∀ ε,
      (r.fieldNames front.length always : Checked ε _) = pure none) ∨
    ∃ names after ahead closer bracket, Signature.listNames always rest = some (names, after) ∧
      code = ahead ++ closer :: after ∧ closer.kind = .closing bracket ∧
      ∀ ε, (r.fieldNames front.length always : Checked ε _) =
        pure (some (ahead.length, names)) := by
  have read := fun ε => @fieldNames_eq ε r code front rest t h cut bracket opens always
  cases found : Signature.listNames always rest with
  | none => exact .inl ⟨rfl, fun ε => by rw [read, found]; rfl⟩
  | some result =>
    obtain ⟨names, after⟩ := result
    obtain ⟨inside, closer, closing, rfl, kind⟩ := exists_of_listNames found
    have cut' : code = (front ++ t :: inside) ++ closer :: after := by simp [cut]
    refine .inr ⟨names, after, _, closer, closing, rfl, cut', kind, fun ε => ?_⟩
    have place : code.length - after.length - 1 = (front ++ t :: inside).length := by
      rw [cut', List.length_append, List.length_cons]
      omega
    rw [read, found, Option.map_some, place]

theorem bodyAfterResult_eq (h : Numbered r code) (cut : code = front ++ p :: us) {bracket : Bracket}
    (closes : p.kind = .closing bracket) :
    (r.bodyAfterResult (front.length + 1) : Checked ε _) =
      pure (Signature.bodyAfterResult 0 false us) := by
  have ahead : r.kinds.drop (front.length + 1) = us.map (·.kind) := by
    rw [h.kinds, cut, List.append_cons, List.map_append, List.drop_left' (by simp)]
  have word : (p.isWord "struct" || p.isWord "interface") = false := by simp [Token.isWord, closes]
  rw [bodyAfterResult, ahead, h.bodyFrom_eq cut, word]

theorem results_eq (h : Numbered r code) (cut : code = front ++ p :: us) {bracket : Bracket}
    (closes : p.kind = .closing bracket) (names : List Text) :
    (r.results (front.length + 1) names : Checked ε _) =
      pure ((Signature.results us).map fun found => (found.1, names ++ found.2)) := by
  rw [results, h.continues_eq cut, pure_bind]
  by_cases group : (us.head?.any fun t => t.kind == .opening .paren && !t.onNewLine) = true
  · rw [if_pos group]
    cases us with
    | nil => cases group
    | cons t rest =>
      simp only [List.head?_cons, Option.any_some, Bool.and_eq_true, beq_iff_eq,
        Bool.not_eq_true'] at group
      obtain ⟨kind, line⟩ := group
      have fields := @fieldNames_cases r code (front ++ [p]) rest t h (by simp [cut]) _ kind false
      rw [List.length_append, List.length_singleton] at fields
      rcases fields with
        ⟨unclosed, read⟩ | ⟨group, after, ahead, closer, bracket, found, cut', closes', read⟩
      · rw [read, Signature.results_unclosed kind line unclosed]
        rfl
      · rw [read, Signature.results_paren kind line found, pure_bind]
        simp only
        rw [h.continues_eq cut', pure_bind, Signature.bodyAt]
        cases after with
        | nil => rfl
        | cons brace after =>
          have counts := h.counts
          rw [cut', List.append_cons] at counts
          have start : brace.start = ahead.length + 1 := by simpa using counts.start
          have opens :
              ((brace :: after).head?.any fun t => t.kind == .opening .curly && !t.onNewLine) =
                (brace.kind == .opening .curly && !brace.onNewLine) := rfl
          rw [opens, List.head?_cons, Option.filter_some]
          by_cases body : (brace.kind == .opening .curly && !brace.onNewLine) = true
          · rw [if_pos body, if_pos body, Option.map_some, start]
            rfl
          · rw [if_neg body, if_neg body]
            rfl
  · have scanned : ∀ t ∈ us.head?, t.kind = .opening .paren → t.onNewLine = true := by
      intro t mem kind
      rw [Option.mem_def.1 mem] at group
      simpa [kind] using group
    rw [if_neg group, h.bodyAfterResult_eq cut closes, pure_bind, Signature.results_scan scanned,
      Option.map_map]
    simp [Function.comp_def]

/-- Names in front of those that a list adds stay in front. -/
theorem listed_prefix (before names : List Text) (us : List Token) :
    Signature.listed (before ++ names) us =
      (Signature.listed names us).map fun found => (found.1, before ++ found.2) := by
  cases us with
  | nil => rfl
  | cons t us =>
    by_cases kind : t.kind = .opening .paren
    · cases found : Signature.listNames false us with
      | none =>
        rw [Signature.listed_unclosed _ kind found, Signature.listed_unclosed _ kind found,
          Option.map_none]
      | some group =>
        rw [Signature.listed_paren _ kind found, Signature.listed_paren _ kind found,
          Option.map_map]
        simp [Function.comp_def]
    · have other : ∀ u ∈ (t :: us).head?, u.kind ≠ .opening .paren := by simpa using kind
      rw [Signature.listed_other _ other, Signature.listed_other _ other, Option.map_none]

theorem first_kind (t : Token) (us : List Token) (kind : Token.Kind) :
    ((t :: us)[0]?.any fun t => t.kind == kind) = (t.kind == kind) := rfl

theorem listed_eq (h : Numbered r code) (cut : code = front ++ us) (names : List Text) :
    (r.listed front.length names : Checked ε _) = pure (Signature.listed names us) := by
  have here := h.isKind_eq cut 0 (.opening .paren)
  rw [Nat.add_zero] at here
  rw [listed, here]
  cases us with
  | nil => rfl
  | cons t us =>
    rw [first_kind]
    by_cases kind : t.kind = .opening .paren
    · rw [if_pos (beq_iff_eq.2 kind)]
      rcases h.fieldNames_cases cut kind false with
        ⟨unclosed, read⟩ | ⟨group, after, ahead, closer, bracket, found, cut', closes, read⟩
      · rw [read, Signature.listed_unclosed names kind unclosed]
        rfl
      · rw [read, Signature.listed_paren names kind found]
        exact h.results_eq cut' closes (names ++ group)
    · rw [if_neg (by simpa using kind), Signature.listed_other names (by simpa using kind)]

theorem parameters_eq (h : Numbered r code) (cut : code = front ++ us) (names : List Text) :
    (r.parameters front.length names : Checked ε _) =
      pure ((Signature.parameters us).map fun found => (found.1, names ++ found.2)) := by
  have here := h.isKind_eq cut 0 (.opening .square)
  rw [Nat.add_zero] at here
  rw [parameters, here]
  cases us with
  | nil =>
    have alone := @listed_eq ε r code front [] h cut names
    exact alone
  | cons t us =>
    rw [first_kind]
    by_cases kind : t.kind = .opening .square
    · rw [if_pos (beq_iff_eq.2 kind)]
      rcases h.fieldNames_cases cut kind true with
        ⟨unclosed, read⟩ | ⟨group, after, ahead, closer, bracket, found, cut', closes, read⟩
      · rw [read, Signature.parameters_unclosed kind unclosed]
        rfl
      · have behind := @listed_eq ε r code (ahead ++ [closer]) after h (by simp [cut'])
          (names ++ group)
        rw [List.length_append, List.length_singleton] at behind
        rw [read, Signature.parameters_square kind found, ← listed_prefix]
        exact behind
    · rw [if_neg (by simpa using kind), Signature.parameters_other (by simpa using kind),
        ← listed_prefix, List.append_nil]
      exact h.listed_eq cut names

theorem namesMethod_eq (h : Numbered r code) (cut : code = front ++ us) :
    (r.isKind front.length .ident &&
      (r.isKind (front.length + 1) (.opening .paren) ||
        r.isKind (front.length + 1) (.opening .square))) =
      Signature.namesMethod us := by
  have here := h.isKind_eq cut 0 .ident
  rw [Nat.add_zero] at here
  rw [here, h.isKind_eq cut, h.isKind_eq cut]
  rcases us with _ | ⟨t, _ | ⟨u, rest⟩⟩
  · rfl
  · simp [Signature.namesMethod]
  · rfl

/-- The body of a function and the names bound in it. -/
theorem bindings_eq (h : Numbered r code) (cut : code = front ++ t :: us) :
    (r.bindings front.length : Checked ε _) = pure (Signature.bindings us) := by
  have cut' : code = (front ++ [t]) ++ us := by simp [cut]
  have size : front.length + 1 = (front ++ [t]).length := by
    rw [List.length_append, List.length_singleton]
  have none : ∀ found : Option (Nat × List Text),
      (found.map fun x => (x.1, ([] : List Text) ++ x.2)) = found := by
    intro found
    cases found <;> rfl
  have paren := h.isKind_eq cut' 0 (.opening .paren)
  have ident := h.isKind_eq cut' 0 .ident
  rw [Nat.add_zero] at paren ident
  rw [bindings, size, paren, ident]
  cases us with
  | nil =>
    have alone := @parameters_eq ε r code (front ++ [t]) [] h cut' []
    exact alone
  | cons u us =>
    rw [first_kind, first_kind]
    by_cases kind : u.kind = .opening .paren
    · rw [if_pos (beq_iff_eq.2 kind)]
      rcases h.fieldNames_cases cut' kind false with
        ⟨unclosed, read⟩ | ⟨group, after, ahead, closer, bracket, found, behind, closes, read⟩
      · rw [read, Signature.bindings_unclosed kind unclosed]
        rfl
      · have cut'' : code = (ahead ++ [closer]) ++ after := by simp [behind]
        have method := h.namesMethod_eq cut''
        rw [List.length_append, List.length_singleton] at method
        rw [read, Signature.bindings_paren kind found, pure_bind]
        simp only [method]
        cases named : Signature.namesMethod after with
        | true =>
          obtain ⟨name, next, rest, rfl⟩ : ∃ name next rest, after = name :: next :: rest := by
            rcases after with _ | ⟨name, _ | ⟨next, rest⟩⟩
            · cases named
            · cases named
            · exact ⟨name, next, rest, rfl⟩
          have tail := @parameters_eq ε r code (ahead ++ [closer, name]) (next :: rest) h
            (by simp [behind]) group
          rw [List.length_append] at tail
          rw [if_pos rfl, if_pos rfl]
          exact tail
        | false =>
          have tail := @results_eq ε r code ahead after closer h behind bracket closes group
          exact tail
    · rw [if_neg (by simpa using kind)]
      by_cases name : u.kind = .ident
      · have tail := @parameters_eq ε r code (front ++ [t, u]) us h (by simp [cut]) []
        rw [none, List.length_append] at tail
        rw [if_pos (beq_iff_eq.2 name), Signature.bindings_ident name]
        exact tail
      · have tail := @parameters_eq ε r code (front ++ [t]) (u :: us) h cut' []
        rw [none] at tail
        rw [if_neg (by simpa using name), Signature.bindings_other (by simpa using ⟨kind, name⟩)]
        exact tail

end Numbered

end GoSplit.Checked.Reading
