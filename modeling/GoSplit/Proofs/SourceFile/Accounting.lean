import GoSplit.Proofs.Selector.Code
import Mathlib.Data.List.Nodup
import Mathlib.Data.List.Pairwise

/-!
Where the tokens of a file end up. The spans of its imports and declarations lie behind each
other, and between them they hold every token behind the package clause, the semicolons
between declarations and the comments around imports apart.
-/

namespace GoSplit

/-- Whether one span lies in another. -/
def Span.covers (s t : Span) : Bool := s.start ≤ t.start && t.stop ≤ s.stop

theorem Span.covers_iff {s t : Span} :
    s.covers t = true ↔ s.start ≤ t.start ∧ t.stop ≤ s.stop := by
  simp [covers]

namespace Token

/-! ### Runs of tokens and their spans -/

/-- From the first token of a run to its last one. -/
def spanOf : List Token → Span
  | [] => ⟨0, 0⟩
  | t :: ts => ⟨t.start, (ts.getLastD t).stop⟩

/-- The tokens have some text and lie behind each other. -/
def InOrder (ts : List Token) : Prop :=
  (∀ t ∈ ts, t.start < t.stop) ∧ ts.Pairwise fun t u => t.stop ≤ u.start

theorem inOrder_of_tokenize {src : Text} {ts : List Token} (h : tokenize src = .ok ts) :
    InOrder ts := by
  obtain ⟨tail, -, chained, -, placed⟩ := tokenize_eq_ok_iff.1 h
  have behind := pairwise_place 0 ts
  rw [placed] at behind
  exact ⟨fun t mem => chained.start_lt_stop mem, behind⟩

section

variable {ts us run : List Token} {runs : List (List Token)} {t : Token}

theorem InOrder.sublist (h : InOrder us) (part : ts.Sublist us) : InOrder ts :=
  ⟨fun t mem => h.1 t (part.subset mem), h.2.sublist part⟩

theorem InOrder.pairwise_start (h : InOrder ts) : ts.Pairwise fun t u => t.start < u.start := by
  refine h.2.imp_of_mem fun mem _ le => ?_
  exact Nat.lt_of_lt_of_le (h.1 _ mem) le

theorem InOrder.nodup (h : InOrder ts) : ts.Nodup := by
  refine h.pairwise_start.imp fun lt => ?_
  rintro rfl
  exact Nat.lt_irrefl _ lt

/-- What stands in front of a token is known by where it starts. -/
theorem InOrder.before_eq (h : InOrder ts) {before after : List Token}
    (split : ts = before ++ t :: after) :
    before = ts.takeWhile fun u => u.start < t.start := by
  have starts := h.pairwise_start
  rw [split] at starts ⊢
  obtain ⟨-, -, earlier⟩ := List.pairwise_append.1 starts
  rw [List.takeWhile_append_of_pos]
  · simp
  · intro u mem
    simpa using earlier u mem t (List.mem_cons_self ..)

theorem InOrder.split_unique (h : InOrder ts) {before before' after after' : List Token}
    (split : ts = before ++ t :: after) (split' : ts = before' ++ t :: after') :
    before = before' ∧ after = after' := by
  have same : before = before' := (h.before_eq split).trans (h.before_eq split').symm
  subst same
  rw [split] at split'
  have rest := List.append_cancel_left split'
  exact ⟨rfl, (List.cons.inj rest).2⟩

theorem stop_spanOf_append (before : List Token) (t : Token) (after : List Token) :
    (spanOf (before ++ t :: after)).stop = (after.getLastD t).stop := by
  cases before with
  | nil => rfl
  | cons u us =>
    simp [spanOf, List.getLastD_eq_getLast?, List.getLast?_append, List.getLast?_cons]

/-- The span of a run covers each of its tokens. -/
theorem InOrder.covers_of_mem (h : InOrder run) (mem : t ∈ run) :
    (spanOf run).covers t.span = true := by
  obtain ⟨before, after, rfl⟩ := List.append_of_mem mem
  obtain ⟨solid, behind⟩ := h
  obtain ⟨-, later, earlier⟩ := List.pairwise_append.1 behind
  have start : (spanOf (before ++ t :: after)).start ≤ t.start := by
    cases before with
    | nil => exact Nat.le_refl _
    | cons u us =>
      have first := earlier u (List.mem_cons_self ..) t (List.mem_cons_self ..)
      have wide := solid u (by simp)
      show u.start ≤ t.start
      omega
  have stop : t.stop ≤ (spanOf (before ++ t :: after)).stop := by
    rw [stop_spanOf_append]
    cases eq : after.getLast? with
    | none => simp [List.getLastD_eq_getLast?, eq]
    | some u =>
      have far := (List.pairwise_cons.1 later).1 u (List.mem_of_getLast? eq)
      have wide := solid u (by simp [List.mem_of_getLast? eq])
      rw [List.getLastD_eq_getLast?, eq]
      show t.stop ≤ u.stop
      omega
  exact Span.covers_iff.2 ⟨start, stop⟩

theorem exists_ends_of_spanOf (some : run ≠ []) :
    (∃ t ∈ run, (spanOf run).start = t.start) ∧ ∃ t ∈ run, (spanOf run).stop = t.stop := by
  cases run with
  | nil => exact absurd rfl some
  | cons t ts =>
    refine ⟨⟨t, List.mem_cons_self .., rfl⟩, ts.getLastD t, ?_, rfl⟩
    cases eq : ts.getLast? with
    | none => simp [List.getLastD_eq_getLast?, eq]
    | some u => simp [List.getLastD_eq_getLast?, eq, List.mem_of_getLast? eq]

/-- Runs that lie behind each other have spans that do. -/
theorem pairwise_spanOf (some : ∀ run ∈ runs, run ≠ []) (h : InOrder runs.flatten) :
    (runs.map spanOf).Pairwise fun a b => a.stop ≤ b.start := by
  rw [List.pairwise_map]
  refine ((List.pairwise_flatten.1 h.2).2).imp_of_mem fun memA memB apart => ?_
  obtain ⟨-, t, memT, stop⟩ := exists_ends_of_spanOf (some _ memA)
  obtain ⟨⟨u, memU, start⟩, -⟩ := exists_ends_of_spanOf (some _ memB)
  rw [stop, start]
  exact apart t memT u memU

/-- A token of one of the runs lies in the span of that run and of no other. -/
theorem countP_covers (some : ∀ run ∈ runs, run ≠ []) (h : InOrder runs.flatten)
    (mem : t ∈ runs.flatten) : (runs.map spanOf).countP (·.covers t.span) = 1 := by
  obtain ⟨run, memRun, memT⟩ := List.mem_flatten.1 mem
  obtain ⟨before, after, rfl⟩ := List.append_of_mem memRun
  have solid := h.1 t mem
  have behind := pairwise_spanOf some h
  rw [List.map_append, List.map_cons] at behind ⊢
  obtain ⟨-, later, earlier⟩ := List.pairwise_append.1 behind
  have here : (spanOf run).covers t.span = true :=
    (h.sublist (List.sublist_flatten_of_mem memRun)).covers_of_mem memT
  obtain ⟨start, stop⟩ := Span.covers_iff.1 here
  have none : (before.map spanOf).countP (·.covers t.span) = 0 := by
    rw [List.countP_eq_zero]
    intro s memS covers
    have apart := earlier s memS _ (List.mem_cons_self ..)
    have far := (Span.covers_iff.1 covers).2
    simp only [span] at start far
    omega
  have none' : (after.map spanOf).countP (·.covers t.span) = 0 := by
    rw [List.countP_eq_zero]
    intro s memS covers
    have apart := (List.pairwise_cons.1 later).1 s memS
    have near := (Span.covers_iff.1 covers).1
    simp only [span] at stop near
    omega
  rw [List.countP_append, List.countP_cons, if_pos here, none, none']

end

end Token

open Token (InOrder spanOf)

theorem Decl.fullSpan_eq (d : Decl) : d.fullSpan = spanOf d.tokens := by
  obtain ⟨heading, leading, keyword, body⟩ := d
  cases leading with
  | nil => rfl
  | cons t ts =>
    simp [Decl.fullSpan, Decl.leadingStart, Decl.span, Decl.tokens, spanOf,
      List.getLastD_eq_getLast?, List.getLast?_append, List.getLast?_cons]

theorem Decl.map_fullSpan (decls : List Decl) :
    decls.map Decl.fullSpan = (decls.map Decl.tokens).map spanOf := by
  rw [List.map_map]
  exact List.map_congr_left fun d _ => d.fullSpan_eq

/-! ### Delimiters -/

theorem balances_append {stack : List Bracket} {ts us : List Token} (h : Balances stack ts)
    (more : Balances [] us) : Balances stack (ts ++ us) := by
  have whole := (@balances_append_iff stack [] ts us h).2 more
  rwa [List.append_nil] at whole

theorem balances_of_plain {ts : List Token} (h : ∀ t ∈ ts, t.isPlain = true) : Balances [] ts := by
  induction ts with
  | nil => rfl
  | cons t ts ih =>
    obtain ⟨plain, others⟩ := List.forall_mem_cons.1 h
    exact (balances_plain plain).2 (ih others)

theorem Token.isPlain_of_isSeparator {t : Token} (h : t.isSeparator = true) : t.isPlain = true := by
  simp only [Token.isSeparator, Bool.or_eq_true, beq_iff_eq] at h
  rcases h with comment | kind
  · rcases Token.isComment_iff.1 comment with kind | kind <;> simp [Token.isPlain, kind]
  · simp [Token.isPlain, kind]

namespace SourceFile

variable {before rest : List Token} {keyword : Token} {item : Item}

/-- An item closes what it opens, and leaves at most a semicolon outside. -/
theorem Item.balances (h : Item.read before keyword rest = .ok item)
    (separators : ∀ t ∈ item.before, t.isSeparator = true) :
    Balances [] (item.before ++ item.keyword :: item.body) ∧
      ∀ t ∈ item.closing, item.closing = [t] ∧ t.kind = .semicolon := by
  obtain ⟨body, after, terminated, rfl, extent, -, ends⟩ := Item.exists_of_read h
  have front : Balances [] item.before :=
    balances_of_plain fun t mem => Token.isPlain_of_isSeparator (separators t mem)
  have plain : item.keyword.isPlain = true := by
    rw [(Item.read_before_keyword h).2]
    simp [Token.isPlain, (Item.starts_cases (Item.read_eq_ok_iff.1 h).1).1]
  have core : Balances [] body := by
    have closed := balances_of_extentFrom .nil extent
    rwa [List.take_left] at closed
  have comments : ∀ ts, Balances [] (sameLineComments ts) := fun ts =>
    balances_of_plain fun t mem => Token.isPlain_of_isSeparator (by
      simp [Token.isSeparator, (sameLine_sameLineComments ts t mem).1])
  suffices found : Balances [] item.body ∧
      ∀ t ∈ item.closing, item.closing = [t] ∧ t.kind = .semicolon from
    ⟨balances_append front ((balances_plain plain).2 found.1), found.2⟩
  generalize item.body = full at ends ⊢
  generalize item.closing = closing at ends ⊢
  cases ends with
  | line _ => exact ⟨balances_append core (comments _), by simp⟩
  | @commented semicolon more kind _ _ =>
    have plain' : semicolon.isPlain = true := by simp [Token.isPlain, kind]
    exact ⟨balances_append core ((balances_plain plain').2 (comments _)), by simp⟩
  | closed kind _ => exact ⟨core, by simp [kind]⟩

theorem Item.balances_tokens (h : Item.read before keyword rest = .ok item)
    (separators : ∀ t ∈ item.before, t.isSeparator = true) : Balances [] item.tokens := by
  obtain ⟨closed, semicolon⟩ := Item.balances h separators
  have tokens : item.tokens = item.before ++ item.keyword :: item.body ++ item.closing := by
    simp [Item.tokens]
  rw [tokens]
  refine balances_append closed (balances_of_plain fun t mem => ?_)
  simp [Token.isPlain, (semicolon t mem).2]

theorem balances_flatMap {items : List Item} (each : ∀ item ∈ items, Balances [] item.tokens) :
    Balances [] (items.flatMap Item.tokens) := by
  induction items with
  | nil => rfl
  | cons item items ih =>
    obtain ⟨first, others⟩ := List.forall_mem_cons.1 each
    rw [List.flatMap_cons]
    exact balances_append first (ih others)

/-- An item among others is read from what stands behind those before it. -/
theorem ItemsOf.split {ts trailing : List Token} {earlier later : List Item}
    (h : ItemsOf ts (earlier ++ item :: later) trailing) :
    ∃ rest, ts = earlier.flatMap Item.tokens ++ (item.before ++ item.keyword :: rest) ∧
      Item.read item.before item.keyword rest = .ok item ∧
      (∀ t ∈ item.before, t.isSeparator = true) ∧ ItemsOf (rest.drop item.size) later trailing := by
  induction earlier generalizing ts with
  | nil =>
    cases h with
    | @cons before rest _ keyword _ _ separators read others =>
      obtain ⟨same, same'⟩ := Item.read_before_keyword read
      subst same same'
      exact ⟨rest, rfl, read, separators, others⟩
  | cons first earlier ih =>
    cases h with
    | @cons before rest _ keyword _ _ separators read others =>
      obtain ⟨same, same'⟩ := Item.read_before_keyword read
      subst same same'
      have body := Item.body_append_closing read
      obtain ⟨rest', eq, found⟩ := ih others
      refine ⟨rest', ?_, found⟩
      rw [List.flatMap_cons, List.append_assoc, ← eq, Item.tokens, List.append_assoc,
        List.cons_append, body]

/-! ### Semicolons -/

/-- The semicolon that is token `n` ends an import or declaration that starts before it. -/
def Terminates (file : SourceFile) (n : Nat) : Prop :=
  ∃ m < n, (∃ keyword ∈ file.tokens[m]?, (∃ i ∈ file.imports, i.span.start = keyword.start) ∨
      ∃ d ∈ file.decls, d.span.start = keyword.start) ∧
    declExtent (file.tokens.drop m) = .ok ⟨n - m, true⟩

/-- Every semicolon outside all delimiters ends an import or a declaration. -/
def SemicolonsTerminate (file : SourceFile) : Prop :=
  ∀ n < file.tokens.length, ∀ t ∈ file.tokens[n]?, t.kind = .semicolon →
    Balances [] (file.tokens.take n) → file.Terminates n

instance (file : SourceFile) (n : Nat) : Decidable (file.Terminates n) :=
  inferInstanceAs (Decidable (∃ m < n, (∃ keyword ∈ file.tokens[m]?, _) ∧ _))

instance (file : SourceFile) : Decidable file.SemicolonsTerminate :=
  inferInstanceAs (Decidable (∀ n < file.tokens.length, ∀ t ∈ file.tokens[n]?, _ → _ → _))

theorem drop_at {ts : List Token} {n : Nat} {t : Token} (here : ts[n]? = some t) :
    ts.drop n = t :: ts.drop (n + 1) := by
  obtain ⟨lt, rfl⟩ := List.getElem?_eq_some_iff.1 here
  exact List.drop_eq_getElem_cons lt

theorem split_at {ts : List Token} {n : Nat} {t : Token} (here : ts[n]? = some t) :
    ts = ts.take n ++ t :: ts.drop (n + 1) := by
  rw [← drop_at here, List.take_append_drop]

/-- A token in front of which nothing is open is no semicolon, or it ends an import or a
declaration. -/
theorem SemicolonsTerminate.at_split {file : SourceFile} (h : file.SemicolonsTerminate)
    {before after : List Token} {t : Token} (split : file.tokens = before ++ t :: after)
    (kind : t.kind = .semicolon) (closed : Balances [] before) :
    file.tokens[before.length]? = some t ∧ file.Terminates before.length := by
  have here : file.tokens[before.length]? = some t := by simp [split]
  refine ⟨here, h before.length (by simp [split]) t here kind ?_⟩
  rwa [split, List.take_left]

/-- The tokens of a file are `front`, up to the package clause and the comments on its line,
then the items and the tokens `trailing` them. -/
structure Laid (file : SourceFile) (front : List Token) (items : List Item)
    (trailing : List Token) : Prop where
  inOrder : InOrder file.tokens
  plain : ∀ t ∈ front, t.isPlain = true
  found : ∃ rest, file.tokens = front ++ rest ∧ ItemsOf rest items trailing
  imports : file.imports = importsOf items
  decls : file.decls = declsOf trailing items

namespace Laid

variable {file : SourceFile} {front trailing : List Token} {items : List Item}
  (h : file.Laid front items trailing)
include h

theorem tokens_eq : file.tokens = front ++ (items.flatMap Item.tokens ++ trailing) := by
  obtain ⟨rest, eq, itemsOf⟩ := h.found
  rw [eq, itemsOf.tokens_append]

theorem separators {item : Item} (mem : item ∈ items) :
    ∀ t ∈ item.before, t.isSeparator = true := by
  obtain ⟨rest, -, itemsOf⟩ := h.found
  obtain ⟨-, -, separators⟩ := itemsOf.read mem
  exact separators

theorem separators_trailing : ∀ t ∈ trailing, t.isSeparator = true := by
  obtain ⟨rest, -, itemsOf⟩ := h.found
  clear h
  induction itemsOf with
  | none separators => exact separators
  | cons _ _ _ ih => exact ih

/-- Nothing is open between items. -/
theorem balances {earlier later : List Item} (split : items = earlier ++ later) :
    Balances [] (front ++ earlier.flatMap Item.tokens) := by
  refine balances_append (balances_of_plain h.plain) (balances_flatMap fun item mem => ?_)
  obtain ⟨rest, -, itemsOf⟩ := h.found
  obtain ⟨_, read, separators⟩ := itemsOf.read (show item ∈ items by simp [split, mem])
  exact Item.balances_tokens read separators

/-- A semicolon that ends an import or a declaration is a token of its item. -/
theorem mem_of_terminates {n : Nat} {t : Token} (found : file.tokens[n]? = some t)
    (terminates : file.Terminates n) : ∃ item ∈ items, t ∈ item.body ++ item.closing := by
  obtain ⟨m, before, ⟨keyword, memKeyword, starts⟩, extent⟩ := terminates
  obtain ⟨item, mem, start⟩ : ∃ item ∈ items, keyword.start = item.keyword.start := by
    rcases starts with ⟨i, memI, start⟩ | ⟨d, memD, start⟩
    · rw [h.imports] at memI
      obtain ⟨item, mem, same⟩ := exists_item_of_import memI
      exact ⟨item, mem, start.symm.trans same⟩
    · rw [h.decls] at memD
      obtain ⟨item, mem, same⟩ := exists_item_of_decl memD
      exact ⟨item, mem, start.symm.trans same⟩
  obtain ⟨rest, eq, itemsOf⟩ := h.found
  obtain ⟨left, right, rfl⟩ := List.append_of_mem mem
  obtain ⟨behind, cut, read, -, -⟩ := itemsOf.split
  have split : file.tokens =
      (front ++ (left.flatMap Item.tokens ++ item.before)) ++ item.keyword :: behind := by
    rw [eq, cut]
    simp
  have split' := split_at memKeyword
  have same : keyword = item.keyword := by
    apply Token.eq_of_start_eq h.inOrder.pairwise_start _ _ start
    · rw [split']
      simp
    · rw [split]
      simp
  subst same
  obtain ⟨-, rfl⟩ := h.inOrder.split_unique split split'
  obtain ⟨body, after, terminated, whole, extent', -, ends⟩ := Item.exists_of_read read
  rw [drop_at memKeyword, Item.declExtent_keyword (Item.read_eq_ok_iff.1 read).1] at extent
  obtain ⟨size, total, found'⟩ := map_succ_eq_ok extent
  rw [← whole, found', Except.ok.injEq, Extent.mk.injEq] at extent'
  obtain ⟨rfl, rfl⟩ := extent'
  refine ⟨item, mem, ?_⟩
  -- The extent ends at the token, which the item takes along or leaves behind.
  have last : after.head? = some t := by
    have here := congrArg (fun ts : List Token => ts[body.length]?) whole
    simp only [List.getElem?_drop, List.getElem?_append_right (Nat.le_refl _), Nat.sub_self] at here
    rw [show m + 1 + body.length = n by omega, found] at here
    rw [List.head?_eq_getElem?, here]
  generalize item.body = full at ends ⊢
  generalize item.closing = closing at ends ⊢
  cases ends with
  | commented _ _ _ =>
    obtain rfl := Option.some.inj last
    simp
  | closed _ _ =>
    obtain rfl := Option.some.inj last
    simp

theorem nodup : (items.flatMap Item.tokens ++ trailing).Nodup := by
  have all := h.inOrder.nodup
  rw [h.tokens_eq] at all
  exact all.of_append_right

variable (terminate : file.SemicolonsTerminate)
include terminate

/-- Between items stand comments only. -/
theorem isComment_of_mem {item : Item} (mem : item ∈ items) :
    ∀ t ∈ item.before, t.isComment = true := by
  intro t memT
  by_contra code
  have kind : t.kind = .semicolon := by
    simpa [Token.isSeparator, code] using h.separators mem t memT
  obtain ⟨earlier, later, eq⟩ := List.append_of_mem mem
  obtain ⟨left, right, cut⟩ := List.append_of_mem memT
  have split : file.tokens = (front ++ earlier.flatMap Item.tokens ++ left) ++
      t :: (right ++ item.keyword :: (item.body ++ item.closing) ++
        (later.flatMap Item.tokens ++ trailing)) := by
    rw [h.tokens_eq, eq]
    simp [Item.tokens, cut]
  have closed : Balances [] (front ++ earlier.flatMap Item.tokens ++ left) := by
    apply balances_append (h.balances eq)
    apply balances_of_plain
    intro u memU
    exact Token.isPlain_of_isSeparator (h.separators mem u (by simp [cut, memU]))
  obtain ⟨here, terminates⟩ := terminate.at_split split kind closed
  obtain ⟨owner, memOwner, inside⟩ := h.mem_of_terminates here terminates
  obtain ⟨each, apart⟩ := List.nodup_flatMap.1 h.nodup.of_append_left
  by_cases same : owner = item
  · subst same
    have disjoint := (List.nodup_append.1 (each owner mem)).2.2 t memT t
    exact disjoint (List.mem_cons_of_mem _ inside) rfl
  · have : Std.Symm (Function.onFun List.Disjoint Item.tokens) :=
      ⟨fun _ _ apart _ mem mem' => apart mem' mem⟩
    have disjoint := apart.forall memOwner mem same
    have held : t ∈ owner.tokens := by
      simp only [Item.tokens, List.mem_append, List.mem_cons] at inside ⊢
      tauto
    exact disjoint held (by simp [Item.tokens, memT])

theorem isComment_of_trailing : ∀ t ∈ trailing, t.isComment = true := by
  intro t memT
  by_contra code
  have kind : t.kind = .semicolon := by
    simpa [Token.isSeparator, code] using h.separators_trailing t memT
  obtain ⟨left, right, cut⟩ := List.append_of_mem memT
  have split : file.tokens = (front ++ items.flatMap Item.tokens ++ left) ++ t :: right := by
    rw [h.tokens_eq, cut]
    simp
  have closed : Balances [] (front ++ items.flatMap Item.tokens ++ left) := by
    apply balances_append (h.balances (List.append_nil items).symm)
    apply balances_of_plain
    intro u memU
    exact Token.isPlain_of_isSeparator (h.separators_trailing u (by simp [cut, memU]))
  obtain ⟨here, terminates⟩ := terminate.at_split split kind closed
  obtain ⟨owner, memOwner, inside⟩ := h.mem_of_terminates here terminates
  have memItems : t ∈ items.flatMap Item.tokens := by
    refine List.mem_flatMap.2 ⟨owner, memOwner, ?_⟩
    simp only [Item.tokens, List.mem_append, List.mem_cons] at inside ⊢
    tauto
  exact (List.nodup_append.1 h.nodup).2.2 t memItems t memT rfl

end Laid

/-! ### What imports and declarations hold -/

/-- The tokens that an import spans. -/
def Item.core (item : Item) : List Token := item.keyword :: item.body

theorem map_span_importsOf {items : List Item}
    (isImport : ∀ item ∈ items, ∃ grouped specs, item.content = .imports grouped specs) :
    (importsOf items).map (·.span) = (items.map Item.core).map spanOf := by
  induction items with
  | nil => rfl
  | cons item items ih =>
    obtain ⟨⟨grouped, specs, content⟩, others⟩ := List.forall_mem_cons.1 isImport
    rw [importsOf, content, List.map_cons, List.map_cons, List.map_cons, ih others]
    rfl

theorem Item.leading_eq {item : Item} (comments : ∀ t ∈ item.before, t.isComment = true) :
    item.leading = item.before := by
  have all : Item.leadingComments item.before = item.before := List.takeWhile_eq_self_iff.2 comments
  unfold Item.leading
  rw [all]
  cases eq : item.before <;> simp

/-- Declarations take their tokens from their items and the comments behind the last one. -/
theorem tokens_declsOf_sublist (trailing : List Token) (items : List Item) :
    ((declsOf trailing items).flatMap Decl.tokens).Sublist
      (items.flatMap Item.tokens ++ trailing) := by
  induction items with
  | nil => exact List.nil_sublist _
  | cons item items ih =>
    rw [List.flatMap_cons, List.append_assoc]
    unfold declsOf
    split
    · exact ih.trans (List.sublist_append_right ..)
    · have leading := item.leading_suffix.sublist
      simp only [List.flatMap_cons, Decl.tokens, Item.tokens, List.append_assoc, List.cons_append]
      refine leading.append (List.Sublist.cons_cons _ ((List.Sublist.refl _).append ?_))
      split
      · next last =>
        -- The last declaration reaches over all that follows.
        simp only [Bool.and_eq_true, List.isEmpty_iff] at last
        rw [last.1, List.flatMap_nil, List.append_nil]
        refine (List.Sublist.refl _).append ((List.Sublist.refl _).append ?_)
        exact List.takeWhile_sublist _
      · exact (List.nil_sublist item.closing).append ih

/-- Of declarations below each other, only the semicolons behind them are left out. -/
theorem mem_tokens_declsOf {trailing : List Token} {items : List Item} (some : items ≠ [])
    (isDecl : ∀ item ∈ items, ∃ heading, item.content = .declares heading)
    (comments : ∀ item ∈ items, ∀ t ∈ item.before, t.isComment = true)
    (comments' : ∀ t ∈ trailing, t.isComment = true) {t : Token}
    (mem : t ∈ items.flatMap Item.tokens ++ trailing) :
    t ∈ (declsOf trailing items).flatMap Decl.tokens ∨ ∃ item ∈ items, t ∈ item.closing := by
  induction items with
  | nil => exact absurd rfl some
  | cons item items ih =>
    obtain ⟨⟨heading, content⟩, others⟩ := List.forall_mem_cons.1 isDecl
    obtain ⟨front, later⟩ := List.forall_mem_cons.1 comments
    have all : Item.leadingComments trailing = trailing := List.takeWhile_eq_self_iff.2 comments'
    rw [declsOf, content]
    simp only [List.flatMap_cons, Decl.tokens, Item.leading_eq front, all]
    rw [List.flatMap_cons, List.append_assoc, List.mem_append] at mem
    rcases mem with mem | mem
    · simp only [Item.tokens, List.mem_append, List.mem_cons] at mem
      rcases mem with mem | mem | mem | mem
      · exact .inl (by simp [mem])
      · exact .inl (by simp [mem])
      · exact .inl (by simp [mem])
      · exact .inr ⟨item, List.mem_cons_self .., mem⟩
    · cases items with
      | nil =>
        have last : t ∈ trailing := by simpa using mem
        have filled : trailing.isEmpty = false := by
          cases trailing with
          | nil => cases last
          | cons u us => rfl
        exact .inl (by simp [declsOf, filled, last])
      | cons next items =>
        rcases ih (List.cons_ne_nil _ _) others later mem with held | ⟨item', mem', closing⟩
        · exact .inl (List.mem_append_right _ held)
        · exact .inr ⟨item', List.mem_cons_of_mem _ mem', closing⟩

/-! ### Files -/

/-- The spans of the imports and of the declarations with the comments in front of them. -/
def spans (file : SourceFile) : List Span :=
  file.imports.map (·.span) ++ file.decls.map Decl.fullSpan

/-- Where the package clause ends, with the comments behind it on its line. -/
def clauseEnd (file : SourceFile) : Nat :=
  let behind := file.tokens.dropWhile fun t => t.start < file.package.span.stop
  ((sameLineComments behind).getLast?.map Token.stop).getD file.package.span.stop

/-- Where the last import ends, or the package clause. -/
def codeStart (file : SourceFile) : Nat :=
  (file.imports.getLast?.map fun i => i.span.stop).getD file.clauseEnd

/-- The tokens of a parsed file are those up to the package name, the comments behind it on
its line, and the items. -/
theorem exists_clause {src : Text} {file : SourceFile} (parsed : ofSource src = .ok file) :
    ∃ clause name after items trailing, file.tokens = clause ++ name :: after ∧
      (∀ t ∈ clause ++ [name], t.isPlain = true) ∧ file.package.span.stop = name.stop ∧
      ItemsOf (after.drop (sameLineComments after).length) items trailing ∧
      file.imports = importsOf items ∧ file.decls = declsOf trailing items ∧
      Token.tokenize src = .ok file.tokens := by
  obtain ⟨ts, tokens, found⟩ := ofSource_eq_ok_iff.1 parsed
  obtain ⟨package, rest, items, trailing, clause, itemsOf, rfl⟩ := ofTokens_eq_ok_iff.1 found
  obtain ⟨keyword, cs, name, after, eq, isComment, word, isName, rfl, rfl⟩ :=
    readPackage_eq_ok_iff.1 clause
  have header := List.takeWhile_append_dropWhile (p := Token.isComment) (l := ts)
  rw [eq] at header
  refine ⟨ts.takeWhile Token.isComment ++ keyword :: cs, name, after, items, trailing,
    by simp [header], ?_, rfl, itemsOf, rfl, rfl, tokens⟩
  intro t mem
  have comment : ∀ {u : Token}, u.isComment = true → u.isPlain = true := fun c =>
    Token.isPlain_of_isSeparator (by simp [Token.isSeparator, c])
  simp only [List.mem_append, List.mem_cons, List.not_mem_nil, or_false] at mem
  rcases mem with (mem | rfl | mem) | rfl
  · exact comment (List.all_eq_true.1 List.all_takeWhile t mem)
  · simp only [Token.isWord, Bool.and_eq_true, beq_iff_eq] at word
    simp [Token.isPlain, word.1]
  · exact comment (isComment t mem)
  · simp only [Token.isName, Bool.and_eq_true, beq_iff_eq] at isName
    simp [Token.isPlain, isName.1]

/-- The comments behind the package name on its line end where the clause is said to end. -/
theorem clauseEnd_eq {file : SourceFile} {clause after : List Token} {name : Token}
    (whole : file.tokens = clause ++ name :: after) (inOrder : InOrder file.tokens)
    (stop : file.package.span.stop = name.stop) :
    file.clauseEnd = (((sameLineComments after).getLast?.map Token.stop).getD name.stop) := by
  have cut : file.tokens.dropWhile (fun t => t.start < name.stop) = after := by
    obtain ⟨solid, behind⟩ := inOrder
    rw [whole] at solid behind ⊢
    obtain ⟨-, later, earlier⟩ := List.pairwise_append.1 behind
    have wide := solid name (by simp)
    have front : ∀ t ∈ clause ++ [name], decide (t.start < name.stop) = true := by
      intro t mem
      rw [decide_eq_true_eq]
      rcases List.mem_append.1 mem with mem | mem
      · have before := earlier t mem name (List.mem_cons_self ..)
        have wide' := solid t (by simp [mem])
        omega
      · obtain rfl := List.mem_singleton.1 mem
        exact wide
    rw [List.append_cons, List.dropWhile_append_of_pos front]
    cases after with
    | nil => rfl
    | cons t ts =>
      have far := (List.pairwise_cons.1 later).1 t (List.mem_cons_self ..)
      rw [List.dropWhile_cons_of_neg]
      simpa using far
  rw [clauseEnd, stop, cut]

/-- The tokens of a parsed file in their order: up to the end of the package clause, of which
only comments lie behind its name, then the items. -/
theorem exists_laid {src : Text} {file : SourceFile} (parsed : ofSource src = .ok file)
    (first : file.ImportsFirst) :
    ∃ front items trailing, file.Laid front items trailing ∧ ImportItemsFirst items ∧
      (∀ t ∈ front, t.stop ≤ file.clauseEnd) ∧
      (∀ t ∈ front, file.package.span.stop ≤ t.start → t.isComment = true) ∧
      ∀ t ∈ items.flatMap Item.tokens ++ trailing, file.package.span.stop ≤ t.start := by
  obtain ⟨clause, word, after, items, trailing, whole, plain, stop, itemsOf, imported, declared,
    tokens⟩ := exists_clause parsed
  have inOrder := Token.inOrder_of_tokenize tokens
  have line : file.tokens = (clause ++ word :: sameLineComments after) ++
      after.drop (sameLineComments after).length := by
    rw [List.append_assoc, List.cons_append, sameLineComments_append_drop, whole]
  have plainLine : ∀ t ∈ clause ++ word :: sameLineComments after, t.isPlain = true := by
    intro t mem
    rw [List.append_cons] at mem
    rcases List.mem_append.1 mem with mem | mem
    · exact plain t mem
    · have comment := (sameLine_sameLineComments after t mem).1
      exact Token.isPlain_of_isSeparator (by simp [Token.isSeparator, comment])
  have laid : file.Laid (clause ++ word :: sameLineComments after) items trailing :=
    ⟨inOrder, plainLine, ⟨_, line, itemsOf⟩, imported, declared⟩
  have suffix : after.drop (sameLineComments after).length <:+ file.tokens := ⟨_, line.symm⟩
  have firstItems := importItemsFirst_of_parsed tokens suffix itemsOf
    (by rw [← imported, ← declared]; exact first)
  refine ⟨_, items, trailing, laid, firstItems, fun t mem => ?_, fun t mem far => ?_,
    fun t mem => ?_⟩
  · have run : InOrder (clause ++ word :: sameLineComments after) :=
      inOrder.sublist (line ▸ List.sublist_append_left _ _)
    have covered := (Span.covers_iff.1 (run.covers_of_mem mem)).2
    rw [Token.stop_spanOf_append] at covered
    rw [clauseEnd_eq whole inOrder stop]
    cases eq : (sameLineComments after).getLast? <;>
      simpa [List.getLastD_eq_getLast?, eq, Token.span] using covered
  · rw [List.append_cons] at mem
    rcases List.mem_append.1 mem with mem | mem
    · have run : InOrder (clause ++ [word]) := by
        refine inOrder.sublist ?_
        rw [whole, show clause ++ word :: after = (clause ++ [word]) ++ after by simp]
        exact List.sublist_append_left _ _
      have covered := (Span.covers_iff.1 (run.covers_of_mem mem)).2
      rw [Token.stop_spanOf_append] at covered
      have wide := run.1 t mem
      simp only [Token.span, List.getLastD_nil] at covered
      omega
    · exact (sameLine_sameLineComments after t mem).1
  · have behind := inOrder.2
    rw [whole] at behind
    rw [stop]
    apply (List.pairwise_cons.1 (List.pairwise_append.1 behind).2.1).1
    rw [← sameLineComments_append_drop after, ← itemsOf.tokens_append]
    exact List.mem_append_right _ mem

theorem runs_ne_nil (imports : List Item) (decls : List Decl) :
    ∀ run ∈ imports.map Item.core ++ decls.map Decl.tokens, run ≠ [] := by
  intro run mem
  rcases List.mem_append.1 mem with mem | mem
  · obtain ⟨item, -, rfl⟩ := List.mem_map.1 mem
    exact List.cons_ne_nil _ _
  · obtain ⟨d, -, rfl⟩ := List.mem_map.1 mem
    simp [Decl.tokens]

namespace Laid

variable {file : SourceFile} {front trailing : List Token}

section

variable {items : List Item} (h : file.Laid front items trailing)
include h

/-- Nothing is open at a semicolon behind an item. -/
theorem balances_of_closing {item : Item} (mem : item ∈ items) {t : Token}
    (closing : t ∈ item.closing) {before after : List Token}
    (split : file.tokens = before ++ t :: after) : t.kind = .semicolon ∧ Balances [] before := by
  obtain ⟨rest, -, itemsOf⟩ := h.found
  obtain ⟨_, read, separators⟩ := itemsOf.read mem
  obtain ⟨closed, semicolon⟩ := Item.balances read separators
  obtain ⟨single, kind⟩ := semicolon t closing
  obtain ⟨earlier, later, eq⟩ := List.append_of_mem mem
  have split' : file.tokens = (front ++ earlier.flatMap Item.tokens ++
      (item.before ++ item.keyword :: item.body)) ++ t ::
        (later.flatMap Item.tokens ++ trailing) := by
    rw [h.tokens_eq, eq]
    simp [Item.tokens, single]
  obtain ⟨rfl, -⟩ := h.inOrder.split_unique split split'
  exact ⟨kind, balances_append (h.balances eq) closed⟩

end

variable {imports decls : List Item} (h : file.Laid front (imports ++ decls) trailing)
  (isImport : ∀ item ∈ imports, ∃ grouped specs, item.content = .imports grouped specs)
  (isDecl : ∀ item ∈ decls, ∃ heading, item.content = .declares heading)
include h isImport

theorem decls_eq : file.decls = declsOf trailing decls :=
  h.decls.trans (declsOf_append isImport trailing decls)

/-- The declarations span tokens of their items and the comments behind them. -/
theorem decls_sublist :
    (file.decls.flatMap Decl.tokens).Sublist (decls.flatMap Item.tokens ++ trailing) := by
  rw [h.decls_eq isImport]
  exact tokens_declsOf_sublist trailing decls

theorem runs_sublist :
    ((imports.map Item.core ++ file.decls.map Decl.tokens).flatten).Sublist
      ((imports ++ decls).flatMap Item.tokens ++ trailing) := by
  rw [List.flatten_append, List.flatMap_append, List.append_assoc]
  refine List.Sublist.append ?_ (by simpa [List.flatMap_def] using h.decls_sublist isImport)
  rw [← List.flatMap_def]
  clear h isImport
  induction imports with
  | nil => exact List.Sublist.refl _
  | cons item imports ih =>
    rw [List.flatMap_cons, List.flatMap_cons]
    refine List.Sublist.append ?_ ih
    refine List.Sublist.trans ?_ (List.sublist_append_right item.before _)
    exact (List.sublist_append_left item.body item.closing).cons_cons item.keyword

theorem inOrder_runs : InOrder (imports.map Item.core ++ file.decls.map Decl.tokens).flatten := by
  refine h.inOrder.sublist ((h.runs_sublist isImport).trans ?_)
  rw [h.tokens_eq]
  exact List.sublist_append_right front _

theorem inOrder_decls : InOrder (file.decls.map Decl.tokens).flatten := by
  refine (h.inOrder_runs isImport).sublist ?_
  rw [List.flatten_append]
  exact List.sublist_append_right _ _

include isDecl

theorem spans_eq : file.spans =
    (imports.map Item.core ++ file.decls.map Decl.tokens).map spanOf := by
  rw [spans, List.map_append, Decl.map_fullSpan, h.imports, importsOf_append,
    importsOf_eq_nil isDecl, List.append_nil, map_span_importsOf isImport]

/-- What stands in front of the declarations ends where the code starts. -/
theorem stop_le_codeStart (clause : ∀ t ∈ front, t.stop ≤ file.clauseEnd) {t : Token}
    (mem : t ∈ front ++ imports.flatMap Item.tokens) (comment : t.isComment = true) :
    t.stop ≤ file.codeStart := by
  have imported : file.imports = importsOf imports := by
    rw [h.imports, importsOf_append, importsOf_eq_nil isDecl, List.append_nil]
  rcases List.eq_nil_or_concat imports with rfl | ⟨init, last, rfl⟩
  · rw [codeStart, imported]
    exact clause t (by simpa using mem)
  · obtain ⟨grouped, specs, content⟩ := isImport last (by simp)
    have start : file.codeStart = (last.body.getLastD last.keyword).stop := by
      rw [codeStart, imported, List.concat_eq_append, importsOf_append]
      simp [importsOf, content]
    -- The semicolon behind the last import is no comment.
    have held : t ∈ (front ++ (init.flatMap Item.tokens ++ last.before)) ++ last.core := by
      simp only [List.concat_eq_append, List.flatMap_append, List.flatMap_cons, List.flatMap_nil,
        Item.tokens, List.mem_append, List.mem_cons, List.append_nil, Item.core] at mem ⊢
      have other : t ∉ last.closing := by
        intro closing
        have memLast : last ∈ init.concat last ++ decls := by simp
        obtain ⟨before, after, split⟩ := List.append_of_mem (show t ∈ file.tokens by
          rw [h.tokens_eq]
          refine List.mem_append_right _ (List.mem_append_left _ ?_)
          exact List.mem_flatMap.2 ⟨last, memLast, by simp [Item.tokens, closing]⟩)
        obtain ⟨kind, -⟩ := h.balances_of_closing memLast closing split
        simp [Token.isComment, kind] at comment
      tauto
    have inOrder : InOrder ((front ++ (init.flatMap Item.tokens ++ last.before)) ++ last.core) := by
      refine h.inOrder.sublist ?_
      have whole : file.tokens =
          ((front ++ (init.flatMap Item.tokens ++ last.before)) ++ last.core) ++
            (last.closing ++ (decls.flatMap Item.tokens ++ trailing)) := by
        rw [h.tokens_eq]
        simp [Item.tokens, Item.core]
      rw [whole]
      exact List.sublist_append_left _ _
    have covered := (Span.covers_iff.1 (inOrder.covers_of_mem held)).2
    rw [Item.core, Token.stop_spanOf_append] at covered
    rw [start]
    exact covered

variable (terminate : file.SemicolonsTerminate)
include terminate

/-- Every token of the items is in an import or a declaration, or is a comment in front of an
import, or a semicolon behind an item. -/
theorem mem_runs {t : Token} (mem : t ∈ (imports ++ decls).flatMap Item.tokens ++ trailing)
    (code : t.isComment = false) :
    t ∈ (imports.map Item.core ++ file.decls.map Decl.tokens).flatten ∨
      ∃ item ∈ imports ++ decls, t ∈ item.closing := by
  have comments : ∀ item ∈ imports ++ decls, ∀ t ∈ item.before, t.isComment = true :=
    fun item mem => h.isComment_of_mem terminate mem
  have comments' := h.isComment_of_trailing terminate
  rw [List.flatMap_append, List.append_assoc] at mem
  rcases List.mem_append.1 mem with mem | mem
  · obtain ⟨item, memItem, memT⟩ := List.mem_flatMap.1 mem
    simp only [Item.tokens, List.mem_append, List.mem_cons] at memT
    have core : t = item.keyword ∨ t ∈ item.body →
        t ∈ (imports.map Item.core ++ file.decls.map Decl.tokens).flatten := by
      intro held
      refine List.mem_flatten.2 ⟨item.core,
        List.mem_append_left _ (List.mem_map_of_mem memItem), ?_⟩
      simpa [Item.core] using held
    rcases memT with memT | rfl | memT | memT
    · rw [comments item (List.mem_append_left _ memItem) t memT] at code
      cases code
    · exact .inl (core (.inl rfl))
    · exact .inl (core (.inr memT))
    · exact .inr ⟨item, List.mem_append_left _ memItem, memT⟩
  · have some : decls ≠ [] := by
      rintro rfl
      rw [comments' t (by simpa using mem)] at code
      cases code
    rcases mem_tokens_declsOf some isDecl (fun item mem => comments item (by simp [mem]))
      comments' mem
      with held | ⟨item, memItem, closing⟩
    · rw [← h.decls_eq isImport] at held
      exact .inl
        (by rw [List.flatten_append, ← List.flatMap_def]; exact List.mem_append_right _ held)
    · exact .inr ⟨item, by simp [memItem], closing⟩

/-- Every comment behind the imports belongs to a declaration, if there is one. -/
theorem mem_decls {t : Token} (mem : t ∈ decls.flatMap Item.tokens ++ trailing)
    (some : file.decls ≠ []) (comment : t.isComment = true) :
    t ∈ (file.decls.map Decl.tokens).flatten := by
  have comments : ∀ item ∈ imports ++ decls, ∀ t ∈ item.before, t.isComment = true :=
    fun item mem => h.isComment_of_mem terminate mem
  have comments' := h.isComment_of_trailing terminate
  have filled : decls ≠ [] := by
    rintro rfl
    exact some (h.decls_eq isImport)
  rcases mem_tokens_declsOf filled isDecl (fun item mem => comments item (by simp [mem]))
    comments' mem
    with held | ⟨item, memItem, closing⟩
  · rw [← h.decls_eq isImport] at held
    rwa [← List.flatMap_def]
  · obtain ⟨before, after, split⟩ := List.append_of_mem
      (show t ∈ file.tokens by rw [h.tokens_eq, List.flatMap_append]; simp_all)
    obtain ⟨kind, -⟩ := h.balances_of_closing (by simp [memItem]) closing split
    simp [Token.isComment, kind] at comment

end Laid

/-- The parser accounts for every token. With imports first and semicolons only where they end
an import or a declaration, the spans of the imports and declarations lie behind each other
and behind the package clause; each token behind the clause other than comments and
semicolons between declarations lies in exactly one of them; and each comment behind the
imports lies in exactly one declaration. -/
theorem parse_accounts {name src : Text} {file : SourceFile} (parsed : parse name src = .ok file)
    (first : file.ImportsFirst) (terminate : file.SemicolonsTerminate) :
    (∀ s ∈ file.spans, file.package.span.stop ≤ s.start ∧ s.start < s.stop) ∧
    file.spans.Pairwise (fun a b => a.stop ≤ b.start) ∧
    (∀ n t, file.tokens[n]? = some t → file.package.span.stop ≤ t.start → t.isComment = false →
      (t.kind = .semicolon → ¬ Balances [] (file.tokens.take n)) →
      file.spans.countP (·.covers t.span) = 1) ∧
    (file.decls ≠ [] → ∀ t ∈ file.tokens, t.isComment = true → file.codeStart ≤ t.start →
      (file.decls.map Decl.fullSpan).countP (·.covers t.span) = 1) := by
  obtain ⟨front, items, trailing, laid, ⟨imports, decls, rfl, isImport, isDecl⟩, ends, comments,
    behind⟩ := exists_laid (parse_eq_ok_iff.1 parsed) first
  have runs := runs_ne_nil imports file.decls
  have ordered := laid.inOrder_runs isImport
  rw [laid.spans_eq isImport isDecl]
  refine ⟨fun s mem => ?_, Token.pairwise_spanOf runs ordered, fun n t here far code free => ?_,
    fun some t mem comment far => ?_⟩
  · obtain ⟨run, memRun, rfl⟩ := List.mem_map.1 mem
    obtain ⟨⟨t, memT, start⟩, -⟩ := Token.exists_ends_of_spanOf (runs run memRun)
    have held := List.mem_flatten.2 ⟨run, memRun, memT⟩
    have covered := Span.covers_iff.1
      ((ordered.sublist (List.sublist_flatten_of_mem memRun)).covers_of_mem memT)
    have wide := ordered.1 t held
    have far := behind t ((laid.runs_sublist isImport).subset held)
    simp only [Token.span] at covered
    omega
  · have mem := List.mem_of_getElem? here
    rw [laid.tokens_eq] at mem
    rcases List.mem_append.1 mem with mem | mem
    · rw [comments t mem far] at code
      cases code
    · rcases laid.mem_runs isImport isDecl terminate mem code with held | ⟨item, memItem, closing⟩
      · exact Token.countP_covers runs ordered held
      · obtain ⟨kind, closed⟩ := laid.balances_of_closing memItem closing (split_at here)
        exact absurd closed (free kind)
  · rw [laid.tokens_eq, List.flatMap_append, List.append_assoc, ← List.append_assoc] at mem
    have wide := laid.inOrder.1 t (by rw [laid.tokens_eq]; simpa using mem)
    rcases List.mem_append.1 mem with mem | mem
    · have near := laid.stop_le_codeStart isImport isDecl ends mem comment
      omega
    · have held := laid.mem_decls isImport isDecl terminate mem some comment
      rw [Decl.map_fullSpan]
      exact Token.countP_covers (fun run mem => runs run (List.mem_append_right _ mem))
        (laid.inOrder_decls isImport) held

/-- Comments in front of the package clause and behind it, an import and a type that a
semicolon ends, semicolons inside braces, and a comment at the end of the file. -/
def accountedSource : Text :=
  ("// head\npackage p // line\n\n// above\nimport \"a\"; // with it\n\n" ++
    "// doc\ntype T struct \x7b x int; y int \x7d;\n\n" ++
    "func F() \x7b a.G(); return \x7d // behind\n// end\n").toList

theorem parse_accounts_sample : ∃ file, parse "p.go".toList accountedSource = .ok file ∧
    file.ImportsFirst ∧ file.SemicolonsTerminate ∧ file.decls ≠ [] ∧
    ∀ t ∈ file.tokens, t.isComment = true → file.codeStart ≤ t.start →
      (file.decls.map Decl.fullSpan).countP (·.covers t.span) = 1 := by
  have check : (parse "p.go".toList accountedSource).toOption.any (fun file =>
      decide file.ImportsFirst && decide file.SemicolonsTerminate && !file.decls.isEmpty) =
        true := by
    unfold accountedSource
    rw [String.toList_append, String.toList_append, String.toList_ofList, String.toList_ofList,
      String.toList_ofList]
    decide +kernel
  obtain ⟨file, parsed, passed⟩ := exists_of_toOption_any check
  simp only [Bool.and_eq_true, decide_eq_true_eq, Bool.not_eq_true',
    List.isEmpty_eq_false_iff] at passed
  obtain ⟨⟨first, terminate⟩, some⟩ := passed
  exact ⟨file, parsed, first, terminate, some, (parse_accounts parsed first terminate).2.2.2 some⟩

end SourceFile

end GoSplit
