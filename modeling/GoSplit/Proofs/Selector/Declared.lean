import GoSplit.Proofs.Selector.Inside
import GoSplit.Proofs.SourceFile.Items

/-!
The walk over the declarations of a file. The selectors of the file are those of its
declarations, one after the other. All that one declaration can leave behind for the next is
the body of a method that a function type in front of it has found, and the method finds it
again.
-/

namespace GoSplit.Selector

open Signature (bindings parameters namesMethod)

/-- The next declaration is a function whose body is at the given offset. -/
def OpensBody (next : List Token) (body : Nat) : Prop :=
  ∃ keyword rest names, next = keyword :: rest ∧ keyword.isWord "func" = true ∧
    bindings rest = some (body, names) ∧ ∃ t ∈ rest, t.start = body

/-- A function type in front of the tokens finds no other body than that of the function they
start with. -/
def Announced (next : List Token) : Prop :=
  ∀ body names, namesMethod next = true → parameters next.tail = some (body, names) →
    OpensBody next body

/-- No body that is known already is ahead, apart from that of the function that comes next. -/
def Fresh (bodies : List (Nat × List Text)) (next : List Token) : Prop :=
  ∀ t ∈ next, (bodies.lookup t.start).isSome = true → OpensBody next t.start

namespace Walk

theorem step_bodies (w : Walk) (before : List Token) (t : Token) (after : List Token) :
    (w.step before t after).bodies = learn w.bodies t after := by
  have kept : t.kind ≠ .ident → learn w.bodies t after = w.bodies := by
    intro other
    simp [learn, Token.isWord, other]
  rw [step_eq, ← (w.broken_frame before t).1]
  rw [← (w.broken_frame before t).1] at kept
  generalize w.broken before t = v at kept
  unfold act
  cases kind : t.kind with
  | opening b =>
    rw [kept (by simp [kind])]
    cases b with
    | curly =>
      change (v.openBlock w.depth t).bodies = v.bodies
      by_cases header : v.header = some w.depth
      · rw [openBlock_header header]
        rfl
      · rw [openBlock_other header]
    | _ => rfl
  | closing b =>
    rw [kept (by simp [kind])]
    cases b <;> rfl
  | semicolon =>
    rw [kept (by simp [kind])]
    by_cases header : v.header = some w.depth
    · rw [semicolon_header header]
      exact (endStatement_frame _ _).1
    · rw [semicolon_other header]
      exact (endStatement_frame _ _).1
  | ident =>
    simp only [word, learn]
    split
    · cases Signature.bindings after <;> rfl
    · split
      · rfl
      · split
        · rfl
        · split <;> rfl
  | op =>
    rw [kept (by simp [kind])]
    simp only
    split <;> rfl
  | _ => rw [kept (by simp [kind])]

theorem step_scopes {w : Walk} {t : Token} (other : t.kind ≠ .opening .curly)
    (before after : List Token) :
    (w.step before t after).scopes.length ≤ w.scopes.length := by
  rw [step_eq, ← (w.broken_frame before t).2.2.1]
  generalize w.broken before t = v
  unfold act
  cases kind : t.kind with
  | opening b =>
    cases b with
    | curly => exact absurd kind other
    | _ => exact Nat.le_refl _
  | closing b =>
    cases b with
    | curly => simp [closeBlock]
    | _ => exact Nat.le_refl _
  | semicolon =>
    by_cases header : v.header = some w.depth
    · rw [semicolon_header header]
      exact Nat.le_of_eq (endStatement_frame _ _).2.2.1
    · rw [semicolon_other header]
      exact Nat.le_of_eq (endStatement_frame _ _).2.2.1
  | ident =>
    simp only [word]
    split
    · split <;> exact Nat.le_refl _
    · split
      · exact Nat.le_refl _
      · split
        · exact Nat.le_refl _
        · split <;> exact Nat.le_refl _
  | op =>
    simp only
    split <;> exact Nat.le_refl _
  | _ => exact Nat.le_refl _

end Walk

/-! ### One declaration in front of others -/

section

variable {next : List Token} (announced : Announced next)
include announced

/-- A signature finds its body inside the declaration, or that of the next function. -/
theorem bindings_cases {outer : List Bracket} {t : Token} {ts : List Token}
    (func : t.isWord "func" = true) (h : Balances outer ts)
    (ahead : ∀ last ∈ (t :: ts).getLast?, Follows last next) :
    (bindings (ts ++ next) = bindings ts ∧ ∀ e ∈ bindings ts, ∃ u ∈ ts, u.start = e.1) ∨
      (bindings ts = none ∧ ∀ e ∈ bindings (ts ++ next), OpensBody next e.1) := by
  have stops : Signature.Stops next := by
    obtain ⟨last, mem⟩ : ∃ last, last ∈ (t :: ts).getLast? := by simp [List.getLast?_cons]
    exact (ahead last mem).stops
  have word : ts = [] → ∀ u ∈ next.head?, u.kind = .semicolon := by
    rintro rfl u mem
    rcases ahead t (by simp) u mem with kind | ⟨-, -, ends⟩
    · exact kind
    · have starts : SourceFile.Item.starts t = true := by
        simp [SourceFile.Item.starts, SourceFile.Item.isDeclKeyword, func]
      simp [SourceFile.Item.not_endsStatement_of_starts starts] at ends
  rcases Signature.bindings_append stops h word with same | ⟨none, method, names, ahead⟩
  · refine .inl ⟨same, ?_⟩
    rintro ⟨body, names⟩ found
    exact Signature.bindings_mem h found
  · refine .inr ⟨none, ?_⟩
    rintro ⟨body, names'⟩ found
    rw [Option.mem_def, ahead] at found
    obtain ⟨⟨body', more⟩, found', eq⟩ := Option.map_eq_some_iff.1 found
    obtain ⟨rfl, -⟩ := Prod.mk.inj eq
    exact announced body' more method found'

end

theorem lookup_learn {bodies : List (Nat × List Text)} {t : Token} {after : List Token}
    (start : Nat) (other : t.isWord "func" = true → ∀ e ∈ bindings after, e.1 ≠ start) :
    (Walk.learn bodies t after).lookup start = bodies.lookup start := by
  unfold Walk.learn
  split
  · next func =>
    cases found : bindings after with
    | none => rfl
    | some e =>
      obtain ⟨body, names⟩ := e
      have apart : start ≠ body := (other func _ found).symm
      simp [List.lookup_cons, beq_eq_false_iff_ne.2 apart]
  · rfl

section

variable {next : List Token} (announced : Announced next)
include announced

/-- Behind a token of the declaration the walk knows the same bodies inside it, whatever comes
next, and no other body ahead than that of the next function. -/
theorem learn_beside {outer : List Bracket} {bodies known : List (Nat × List Text)} {t : Token}
    {ts : List Token} (h : t.isWord "func" = true → Balances outer ts)
    (ahead : ∀ last ∈ (t :: ts).getLast?, Follows last next)
    (distinct : ∀ u ∈ ts, ∀ v ∈ next, u.start ≠ v.start)
    (inside : ∀ u ∈ ts, (t.isWord "func" = true → ∀ e ∈ bindings (ts ++ next), e.1 ≠ u.start) →
      bodies.lookup u.start = known.lookup u.start)
    (later : ∀ u ∈ next, (t.isWord "func" = true → ∀ e ∈ bindings (ts ++ next), e.1 ≠ u.start) →
      (bodies.lookup u.start).isSome = true → OpensBody next u.start) :
    (∀ u ∈ ts, (Walk.learn bodies t (ts ++ next)).lookup u.start =
      (Walk.learn known t ts).lookup u.start) ∧ Fresh (Walk.learn bodies t (ts ++ next)) next := by
  by_cases func : t.isWord "func" = true
  · -- The signature is read alike, or it is that of a function type at the end.
    rcases bindings_cases announced func (h func) ahead with ⟨same, within⟩ | ⟨none, beyond⟩
    · refine ⟨fun u mem => ?_, fun u mem found => ?_⟩
      · by_cases own : ∀ e ∈ bindings (ts ++ next), e.1 ≠ u.start
        · rw [lookup_learn u.start fun _ => own, lookup_learn u.start fun _ => same ▸ own]
          exact inside u mem fun _ => own
        · simp only [Walk.learn, func, if_true, same]
          rw [same] at own
          cases signature : bindings ts with
          | none => simp [signature] at own
          | some e =>
            obtain ⟨body, names⟩ := e
            have start : body = u.start := by simpa [signature] using own
            simp [start]
      · have apart : ∀ e ∈ bindings (ts ++ next), e.1 ≠ u.start := by
          intro e read
          obtain ⟨v, memV, start⟩ := within e (same ▸ read)
          rw [← start]
          exact distinct v memV u mem
        rw [lookup_learn u.start fun _ => apart] at found
        exact later u mem (fun _ => apart) found
    · refine ⟨fun u mem => ?_, fun u mem found => ?_⟩
      · have apart : ∀ e ∈ bindings (ts ++ next), e.1 ≠ u.start := by
          intro e read
          obtain ⟨keyword, rest, names, rfl, -, -, v, memV, start⟩ := beyond e read
          rw [← start]
          exact (distinct u mem v (List.mem_cons_of_mem _ memV)).symm
        rw [lookup_learn u.start fun _ => apart, lookup_learn u.start (by simp [none])]
        exact inside u mem fun _ => apart
      · by_cases own : ∀ e ∈ bindings (ts ++ next), e.1 ≠ u.start
        · rw [lookup_learn u.start fun _ => own] at found
          exact later u mem (fun _ => own) found
        · simp only [not_forall, Decidable.not_not] at own
          obtain ⟨e, read, start⟩ := own
          rw [← start]
          exact beyond e read
  · have other : t.isWord "func" = true → ∀ u : Token, ∀ e ∈ bindings (ts ++ next), e.1 ≠ u.start :=
      fun word => absurd word func
    simp only [Walk.learn, func]
    exact ⟨fun u mem => inside u mem fun word => other word u,
      fun u mem => later u mem fun word => other word u⟩

/-- The rest of a declaration in front of others: the walk over the file goes beside the walk
over the declaration alone, and leaves no body behind but that of the next function. -/
theorem run_beside (used : List Text) {w : Walk} {stack : List Bracket}
    {ts before outside : List Token} {bodies : List (Nat × List Text)} (h : Inside w stack ts)
    (ahead : ∀ last ∈ ts.getLast?, Follows last next) (back : before ≠ [])
    (blocks : 0 < w.depth.blocks → ∃ u ∈ before, u.kind = .opening .curly)
    (distinct : ((ts ++ next).map Token.start).Nodup)
    (known : ∀ u ∈ ts, bodies.lookup u.start = w.bodies.lookup u.start)
    (fresh : Fresh bodies next) :
    ∃ bodies', (w.beside used bodies).run (before ++ outside) (ts ++ next) =
        ((w.run before ts).beside used bodies').run (ts.reverse ++ (before ++ outside)) next ∧
      Fresh bodies' next := by
  induction ts generalizing w stack before bodies with
  | nil => exact ⟨bodies, rfl, fresh⟩
  | cons t ts ih =>
    obtain ⟨last, memLast⟩ : ∃ last, last ∈ (t :: ts).getLast? := by simp [List.getLast?_cons]
    have follows := ahead last memLast
    rw [List.cons_append, List.map_cons, List.nodup_cons] at distinct
    have apart : ∀ u ∈ ts, ∀ v ∈ next, u.start ≠ v.start := by
      have parts := distinct.2
      rw [List.map_append, List.nodup_append] at parts
      exact fun u memU v memV =>
        parts.2.2 u.start (List.mem_map_of_mem memU) v.start (List.mem_map_of_mem memV)
    have step : (w.beside used bodies).step (before ++ outside) t (ts ++ next) =
        (w.step before t ts).beside used (Walk.learn bodies t (ts ++ next)) := by
      apply Walk.step_beside
      · left
        cases before with
        | nil => exact absurd rfl back
        | cons => rfl
      · exact fun _ => isBase_append (fun none => absurd none back) ahead
      · apply isDefine_append
        intro u mem
        rcases follows u mem with kind | ⟨kind, -⟩ <;> simp [kind]
      · intro defines
        obtain ⟨u, mem, curly⟩ := blocks (h.binds_cons.1 (.inr defines))
        exact nameList_append ⟨u, mem, by simp [curly], by simp [curly]⟩ outside
      · intro ident open'
        have balanced := (balances_plain (by simp [Token.isPlain, ident])).1 h.balanced
        cases stack with
        | nil => exact absurd (List.length_eq_zero_iff.1 h.blocks) open'
        | cons => exact statementNames_append balanced next
      · exact fun _ => known t (List.mem_cons_self ..)
    have balanced : t.isWord "func" = true → Balances stack ts := by
      intro word
      simp only [Token.isWord, Bool.and_eq_true, beq_iff_eq] at word
      exact (balances_plain (by simp [Token.isPlain, word.1])).1 h.balanced
    obtain ⟨known', fresh'⟩ := learn_beside announced balanced ahead apart
      (fun u mem _ => known u (List.mem_cons_of_mem t mem)) (fun u mem _ => fresh u mem)
    rw [← Walk.step_bodies w before] at known'
    obtain ⟨stack', inside⟩ := h.step before
    have ahead' : ∀ last ∈ ts.getLast?, Follows last next := by
      intro last mem
      apply ahead
      rw [List.getLast?_cons, Option.mem_def.1 mem]
      rfl
    have blocks' : 0 < (w.step before t ts).depth.blocks →
        ∃ u ∈ t :: before, u.kind = .opening .curly := by
      intro positive
      by_cases curly : t.kind = .opening .curly
      · exact ⟨t, List.mem_cons_self .., curly⟩
      · obtain ⟨u, mem, kind⟩ :=
          blocks (Nat.lt_of_lt_of_le positive (Walk.step_scopes curly before ts))
        exact ⟨u, List.mem_cons_of_mem t mem, kind⟩
    obtain ⟨bodies', run, left⟩ := ih inside ahead' (List.cons_ne_nil t before) blocks' distinct.2
      known' fresh'
    refine ⟨bodies', ?_, left⟩
    rw [List.cons_append, Walk.run, step, ← List.cons_append, run, Walk.run]
    simp

end

/-! ### White space in front of a declaration -/

theorem nameList_congr : ∀ {ts us : List Token},
    ts.map (fun t => (t.kind, t.text)) = us.map (fun t => (t.kind, t.text)) →
    nameList ts = nameList us
  | [], [], _ => rfl
  | [], _ :: _, h => by simp at h
  | _ :: _, [], h => by simp at h
  | [t], [u], h => by
    simp only [List.map_cons, List.map_nil, List.cons.injEq, Prod.mk.injEq, and_true] at h
    simp [nameList, h.1, h.2]
  | [_], _ :: _ :: _, h => by simp at h
  | _ :: _ :: _, [_], h => by simp at h
  | t :: t' :: ts, u :: u' :: us, h => by
    simp only [List.map_cons, List.cons.injEq, Prod.mk.injEq] at h
    obtain ⟨⟨kind, text⟩, ⟨kind', -⟩, rest⟩ := h
    simp only [nameList, kind, text, kind', nameList_congr rest]

/-- Of the tokens read so far the walk only looks at what they are. -/
theorem run_congr {before before' : List Token}
    (h : before.map (fun t => (t.kind, t.text)) = before'.map fun t => (t.kind, t.text))
    (w : Walk) (ts : List Token) : w.run before ts = w.run before' ts := by
  induction ts generalizing w before before' with
  | nil => rfl
  | cons t ts ih =>
    have empty : before.isEmpty = before'.isEmpty := by
      have sizes := congrArg List.isEmpty h
      rwa [List.isEmpty_map, List.isEmpty_map] at sizes
    have base : isBase before ts = isBase before' ts := by
      rw [isBase_eq, isBase_eq]
      congr 1
      have heads := congrArg List.head? h
      rw [List.head?_map, List.head?_map] at heads
      cases first : before.head? with
      | none =>
        rw [first] at heads
        rw [Option.map_eq_none_iff.1 heads.symm]
      | some u =>
        rw [first] at heads
        obtain ⟨v, second, same⟩ := Option.map_eq_some_iff.1 heads.symm
        rw [second, Option.all_some, Option.all_some, (Prod.mk.inj same).1]
    have step : w.step before t ts = w.step before' t ts := by
      have beside : (w.beside [] w.bodies).step before t ts =
          (w.step before' t ts).beside [] (Walk.learn w.bodies t ts) :=
        Walk.step_beside [] (.inl empty) (fun _ => base) rfl (fun _ => nameList_congr h)
          (fun _ _ => rfl) fun _ => rfl
      rwa [← Walk.step_bodies w before'] at beside
    rw [Walk.run, Walk.run, step]
    exact ih (by rw [List.map_cons, List.map_cons, h]) _

theorem packageSelectors_gap (gap : Text) (keyword : Token) (body : List Token) :
    packageSelectors ({ keyword with gap := gap } :: body) =
      packageSelectors (keyword :: body) := by
  have step : Walk.start.step [] { keyword with gap := gap } body =
      Walk.start.step [] keyword body := by
    rw [Walk.step_eq, Walk.step_eq, Walk.broken_nil _ _ _ rfl, Walk.broken_nil _ _ _ rfl]
    rfl
  rw [packageSelectors, packageSelectors, Walk.run, Walk.run, step]
  rw [@run_congr [{ keyword with gap := gap }] [keyword] rfl]

/-! ### Declarations one after the other -/

/-- The form that a declaration has by its keyword. -/
def hasForm : List Token → Bool
  | keyword :: body => if keyword.isWord "func" then isFunction body else isSpecs body
  | [] => false

/-- The tokens are those of the declarations given, each of them apart from the next and of a
form that keeps its signatures to itself, with semicolons between them. White space and
comments in front of a declaration do not matter. -/
inductive Declared : List Token → List (List Token) → Prop
  | nil : Declared [] []
  | semicolon {t : Token} {ts : List Token} {codes : List (List Token)} :
    t.kind = .semicolon → Declared ts codes → Declared (t :: ts) codes
  | code {keyword : Token} {body next : List Token} {codes : List (List Token)} (gap : Text) :
    keyword.kind = .ident → Balances [] body → hasForm (keyword :: body) = true →
    bindsInBlocks ⟨0, 0⟩ (keyword :: body) = true →
    (∀ last ∈ (keyword :: body).getLast?, Follows last next) → Declared next codes →
    Declared ({ keyword with gap := gap } :: (body ++ next)) ((keyword :: body) :: codes)

theorem follows_gap {keyword : Token} {body next : List Token} (gap : Text)
    (h : ∀ last ∈ (keyword :: body).getLast?, Follows last next) :
    ∀ last ∈ (({ keyword with gap := gap } : Token) :: body).getLast?, Follows last next := by
  cases body with
  | nil =>
    intro last mem
    obtain rfl := Option.some.inj mem
    exact h keyword rfl
  | cons t ts => exact h

theorem Declared.announced {ts : List Token} {codes : List (List Token)} (h : Declared ts codes) :
    Announced ts := by
  intro body names method found
  cases h with
  | nil => simp [namesMethod] at method
  | @semicolon t ts _ kind _ =>
    cases ts <;> simp [namesMethod, kind] at method
  | @code keyword code next _ gap kind balanced form _ follows _ =>
    obtain ⟨last, memLast⟩ : ∃ last, last ∈ (keyword :: code).getLast? := by
      simp [List.getLast?_cons]
    have stops := (follows last memLast).stops
    rw [List.tail_cons] at found
    by_cases func : keyword.isWord "func" = true
    · simp only [hasForm, func, if_true] at form
      rw [Signature.parameters_append stops balanced] at found
      obtain ⟨names', alone⟩ := Signature.bindings_of_parameters balanced form found
      obtain ⟨t, mem, start⟩ := Signature.bindings_mem balanced alone
      refine ⟨{ keyword with gap := gap }, code ++ next, names', rfl, func, ?_, t,
        List.mem_append_left _ mem, start⟩
      have some : code = [] → ∀ u ∈ next.head?, u.kind = .semicolon := by
        rintro rfl
        simp at mem
      rcases Signature.bindings_append stops balanced some with same | ⟨none, -⟩
      · rw [same, alone]
      · simp [alone] at none
    · simp only [hasForm, func] at form
      rw [Signature.parameters_of_isSpecs balanced form stops] at found
      simp at found

theorem inside_start {keyword : Token} {body : List Token} (kind : keyword.kind = .ident)
    (balanced : Balances [] body) (binds : bindsInBlocks ⟨0, 0⟩ (keyword :: body) = true) :
    Inside Walk.start [] (keyword :: body) :=
  ⟨(balances_plain (by simp [Token.isPlain, kind])).2 balanced, rfl, rfl, by simp [Walk.start],
    by simp [Walk.start], fun _ => rfl, binds⟩

/-- A walk that has read a whole declaration is as at the start, apart from what it has found. -/
theorem beside_of_done {w : Walk} {stack : List Bracket} (h : Inside w stack []) (used : List Text)
    (bodies : List (Nat × List Text)) :
    w.beside used bodies = Walk.start.beside (used ++ w.used) bodies := by
  obtain ⟨scopes, parens, pending, header, names⟩ := h.done
  simp [Walk.beside, Walk.start, scopes, parens, pending, header, names]

/-- One declaration of several: it adds its own selectors. -/
theorem run_code (used : List Text) {keyword : Token} {body next outside : List Token}
    {bodies : List (Nat × List Text)} (kind : keyword.kind = .ident) (balanced : Balances [] body)
    (binds : bindsInBlocks ⟨0, 0⟩ (keyword :: body) = true)
    (ahead : ∀ last ∈ (keyword :: body).getLast?, Follows last next) (announced : Announced next)
    (back : ∀ u ∈ outside.head?, u.kind ≠ .dot)
    (distinct : ((keyword :: (body ++ next)).map Token.start).Nodup)
    (fresh : Fresh bodies (keyword :: (body ++ next))) :
    ∃ bodies', (Walk.start.beside used bodies).run outside (keyword :: (body ++ next)) =
        (Walk.start.beside (used ++ packageSelectors (keyword :: body)) bodies').run
          (body.reverse ++ ([keyword] ++ outside)) next ∧ Fresh bodies' next := by
  have inside := inside_start kind balanced binds
  obtain ⟨last, memLast⟩ : ∃ last, last ∈ (keyword :: body).getLast? := by simp [List.getLast?_cons]
  have follows := ahead last memLast
  rw [List.map_cons, List.nodup_cons] at distinct
  have apart : ∀ u ∈ body, ∀ v ∈ next, u.start ≠ v.start := by
    have parts := distinct.2
    rw [List.map_append, List.nodup_append] at parts
    exact fun u memU v memV =>
      parts.2.2 u.start (List.mem_map_of_mem memU) v.start (List.mem_map_of_mem memV)
  have step : (Walk.start.beside used bodies).step outside keyword (body ++ next) =
      (Walk.start.step [] keyword body).beside used (Walk.learn bodies keyword (body ++ next)) := by
    apply Walk.step_beside
    · exact .inr rfl
    · exact fun _ => @isBase_append [] outside keyword body next (fun _ => back) ahead
    · apply isDefine_append
      intro u mem
      rcases follows u mem with kind | ⟨kind, -⟩ <;> simp [kind]
    · intro defines
      have positive := inside.binds_cons.1 (.inr defines)
      simp [Walk.start, Walk.depth] at positive
    · exact fun _ open' => absurd rfl open'
    · simp [kind]
  -- Only the keyword of a function comes to a body that is known already.
  have stale : ∀ u ∈ body ++ next,
      (keyword.isWord "func" = true → ∀ e ∈ bindings (body ++ next), e.1 ≠ u.start) →
        bodies.lookup u.start = none := by
    intro u mem other
    rw [← Option.not_isSome_iff_eq_none]
    intro found
    obtain ⟨keyword', rest, names, eq, func, own, -⟩ :=
      fresh u (List.mem_cons_of_mem keyword mem) found
    obtain ⟨rfl, rfl⟩ := List.cons.inj eq
    exact other func _ own rfl
  obtain ⟨known, fresh'⟩ := @learn_beside next announced [] bodies [] keyword body
    (fun _ => balanced)
    ahead apart (fun u mem other => by rw [stale u (List.mem_append_left _ mem) other]; rfl)
    (fun u mem other found => by
      rw [stale u (List.mem_append_right _ mem) other] at found; simp at found)
  rw [show ([] : List (Nat × List Text)) = Walk.start.bodies from rfl,
    ← Walk.step_bodies Walk.start []] at known
  have inside' : Inside (Walk.start.step [] keyword body) [] body := by
    rw [Walk.step_eq, Walk.broken_nil _ _ _ rfl, Walk.act, kind]
    exact inside.word kind []
  have ahead' : ∀ last ∈ body.getLast?, Follows last next := by
    intro last mem
    apply ahead
    rw [List.getLast?_cons, Option.mem_def.1 mem]
    rfl
  have blocks : 0 < (Walk.start.step [] keyword body).depth.blocks →
      ∃ u ∈ [keyword], u.kind = .opening .curly := by
    intro positive
    rw [Walk.depth, inside'.blocks] at positive
    simp at positive
  obtain ⟨bodies', run, left⟩ := run_beside announced used inside' ahead' (by simp) blocks
    distinct.2 known fresh'
  refine ⟨bodies', ?_, left⟩
  obtain ⟨stack, done⟩ := inside'.run [keyword]
  rw [Walk.run, step, ← List.singleton_append, run, beside_of_done done used bodies']
  rfl

/-- The selectors of declarations one after the other are those of each of them alone. -/
theorem run_declared {ts : List Token} {codes : List (List Token)} (h : Declared ts codes)
    (used : List Text) {outside : List Token} {bodies : List (Nat × List Text)}
    (back : ∀ t ∈ ts.head?, t.kind = .ident → ∀ u ∈ outside.head?, u.kind ≠ .dot)
    (distinct : (ts.map Token.start).Nodup) (fresh : Fresh bodies ts) :
    ((Walk.start.beside used bodies).run outside ts).used =
      used ++ codes.flatMap packageSelectors := by
  induction h generalizing used outside bodies with
  | nil => simp [Walk.run, Walk.beside, Walk.start]
  | @semicolon t ts codes kind _ ih =>
    have step : (Walk.start.beside used bodies).step outside t ts =
        Walk.start.beside used bodies := by
      rw [Walk.step_eq, Walk.broken_nil _ _ _ rfl, Walk.act, kind]
      exact (Walk.semicolon_other (by simp [Walk.start])).trans (Walk.endStatement_nil rfl _)
    rw [Walk.run, step]
    apply ih
    · intro _ _ _ u mem
      obtain rfl := Option.some.inj mem
      simp [kind]
    · exact (List.nodup_cons.1 distinct).2
    · intro u mem found
      obtain ⟨keyword, rest, names, eq, func, -⟩ := fresh u (List.mem_cons_of_mem t mem) found
      obtain ⟨rfl, rfl⟩ := List.cons.inj eq
      simp [Token.isWord, kind] at func
  | @code keyword body next codes gap kind balanced form binds follows others ih =>
    have follows' := follows_gap gap follows
    have kind' : ({ keyword with gap := gap } : Token).kind = .ident := kind
    obtain ⟨bodies', run, left⟩ := run_code used kind' balanced binds follows' others.announced
      (back _ rfl kind) distinct fresh
    rw [run, packageSelectors_gap, ih (used ++ packageSelectors (keyword :: body)) _ _ left,
      List.flatMap_cons, List.append_assoc]
    · -- The last token of the declaration is no dot, unless a semicolon follows.
      intro u mem ident v last
      have memLast : v ∈ (({ keyword with gap := gap } : Token) :: body).getLast? := by
        rw [← List.head?_reverse, List.reverse_cons]
        cases reversed : body.reverse with
        | nil => simpa [reversed] using last
        | cons => simpa [reversed] using last
      rcases follows' v memLast u mem with semicolon | ⟨-, -, ends⟩
      · simp [ident] at semicolon
      · intro dot
        simp [Token.endsStatement, dot] at ends
    · rw [List.map_cons, List.nodup_cons, List.map_append, List.nodup_append] at distinct
      exact distinct.2.2.1

/-- The selectors of a whole list of declarations. -/
theorem packageSelectors_declared {ts : List Token} {codes : List (List Token)}
    (h : Declared ts codes) (distinct : (ts.map Token.start).Nodup) :
    packageSelectors ts = codes.flatMap packageSelectors :=
  run_declared h [] (by simp) distinct (by simp [Fresh])

end GoSplit.Selector
