import GoSplit.Proofs.SourceFile.Complete
import GoSplit.Proofs.SourceFile.Found
import GoSplit.Proofs.Token.Trimmed

/-!
Declarations that can be printed. Such a declaration is found again, with what it
declares, wherever its text is followed by a line break or the end of the input; the last
one of a file may have come to comments behind it, and is found again at the end of a
file. Complete declarations of a file whose imports come first can be printed.
-/

namespace GoSplit

open List (Forall₂)
open Token (Alike Chained)
open SourceFile (Item ItemsOf StartsLine endsComplete)

namespace Decl

/-- A line break behind the last token ends the declaration. -/
def isComplete (d : Decl) : Bool := endsComplete (d.keyword :: d.body)

/-- The declaration is read again from the tokens `core`, with the semicolon `closing`
behind it or none, and reaches over the comments `tail`. -/
structure Rereads (d : Decl) (core closing tail : List Token) : Prop where
  body : d.body = core ++ (closing ++ tail)
  leading : ∀ t ∈ d.leading, t.isSeparator = true
  first : ∀ t ∈ d.leading.head?, t.isComment = true
  complete : d.isComplete = true
  comments : ∀ c ∈ tail, c.isComment = true
  apart : StartsLine tail
  unclosed : tail = [] → closing = []
  chained : ∃ after, Chained d.tokens after
  read : ∀ {before' core' closing' next : List Token} {keyword' : Token},
    (∀ w, keyword'.isWord w = d.keyword.isWord w) → Forall₂ Alike core' core →
    Forall₂ Alike closing' closing → StartsLine next →
      Item.read before' keyword' (core' ++ (closing' ++ next)) =
        .ok ⟨before', keyword', core', closing', .declares d.heading⟩

/-- Can be printed with others behind it. -/
def Settled (d : Decl) : Prop := Rereads d d.body [] []

/-- Can be printed at the end of a file. -/
def Final (d : Decl) : Prop := ∃ core closing tail, Rereads d core closing tail

/-- Declarations that can be printed one below the other. -/
inductive Printable : List Decl → Prop
  | nil : Printable []
  | last {d : Decl} : Final d → Printable [d]
  | cons {d : Decl} {ds : List Decl} : Settled d → Printable ds → Printable (d :: ds)

theorem Printable.filter {ds : List Decl} (h : Printable ds) (p : Decl → Bool) :
    Printable (ds.filter p) := by
  induction h with
  | nil => exact .nil
  | @last d final =>
    by_cases kept : p d = true
    · simpa [kept] using Printable.last final
    · simpa [kept] using Printable.nil
  | @cons d ds settled _ ih =>
    by_cases kept : p d = true
    · simpa [kept] using Printable.cons settled ih
    · simpa [kept] using ih

end Decl

namespace SourceFile

/-! ### From items to printable declarations -/

theorem Item.leading_suffix (item : Item) : item.leading <:+ item.before := by
  unfold Item.leading
  split
  · exact List.nil_suffix
  · exact List.suffix_refl _

theorem Item.leading_head (item : Item) : ∀ t ∈ item.leading.head?, t.isComment = true := by
  unfold Item.leading
  split
  · simp
  · next some =>
    intro t mem
    cases before : item.before with
    | nil => simp [before] at mem
    | cons u us =>
      obtain rfl : u = t := by simpa [before] using mem
      by_contra code
      simp [Item.leadingComments, before, code] at some

theorem Item.closing_separators {before rest : List Token} {keyword : Token} {item : Item}
    (h : Item.read before keyword rest = .ok item) : ∀ t ∈ item.closing, t.isSeparator = true := by
  obtain ⟨body, after, terminated, -, -, -, ends⟩ := Item.exists_of_read h
  generalize item.body = full at ends
  generalize item.closing = closing at ends
  cases ends with
  | line _ => simp
  | commented _ _ _ => simp
  | closed kind _ => simp [Token.isSeparator, kind]

section

variable {before rest : List Token} {keyword : Token} {item : Item} {heading : Heading}
  (h : Item.read before keyword rest = .ok item) (declares : item.content = .declares heading)
  (separators : ∀ t ∈ item.before, t.isSeparator = true)
include h declares separators

/-- A declaration that ends where its item ends. -/
theorem settled_of_read (complete : endsComplete (item.keyword :: item.body) = true)
    {after : Text} (chained : Chained item.tokens after) :
    Decl.Settled ⟨heading, item.leading, item.keyword, item.body⟩ := by
  obtain ⟨same, same'⟩ := Item.read_before_keyword h
  have suffix := item.leading_suffix
  refine ⟨by simp, fun t mem => separators t (suffix.subset mem), item.leading_head, complete,
    by simp, by simp [StartsLine], fun _ => rfl, ?_, ?_⟩
  · have inside : item.leading ++ item.keyword :: item.body <:+: item.tokens := by
      obtain ⟨front, eq⟩ := suffix
      exact ⟨front, item.closing, by simp [Item.tokens, ← eq]⟩
    exact chained.within inside
  · intro before' core' closing' next keyword' word like none apart
    obtain rfl := List.forall₂_nil_right_iff.1 none
    rw [same'] at complete
    exact Item.read_again h declares complete before' (by simpa [same'] using word) like apart

/-- The last declaration, with comments at the end of the file. -/
theorem final_of_read {comments : List Token}
    (complete : endsComplete (item.keyword :: item.body) = true)
    (isComment : ∀ c ∈ comments, c.isComment = true) (some : comments ≠ [])
    (behind : comments <+: rest.drop item.size)
    {after : Text} (chained : Chained (item.tokens ++ comments) after) :
    Decl.Final ⟨heading, item.leading, item.keyword, item.body ++ (item.closing ++ comments)⟩ := by
  obtain ⟨same, same'⟩ := Item.read_before_keyword h
  have suffix := item.leading_suffix
  have trailing : ∀ t ∈ item.closing ++ comments, t.isSeparator = true := by
    intro t mem
    rcases List.mem_append.1 mem with mem | mem
    · exact Item.closing_separators h t mem
    · simp [Token.isSeparator, isComment t mem]
  have whole : endsComplete (item.keyword :: (item.body ++ (item.closing ++ comments))) = true := by
    rw [← List.cons_append, endsComplete_append _ trailing, complete]
  rw [same'] at complete
  refine ⟨item.body, item.closing, comments, rfl, fun t mem => separators t (suffix.subset mem),
    item.leading_head, whole, isComment, ?_, fun none => absurd none some, ?_, ?_⟩
  · intro t mem
    obtain ⟨left, eq⟩ := behind
    refine Item.onNewLine_of_rest h complete ?_ (isComment t (List.mem_of_mem_head? mem))
    rw [← eq, List.head?_append, mem]
    rfl
  · have inside : item.leading ++ item.keyword :: (item.body ++ (item.closing ++ comments)) <:+:
        item.tokens ++ comments := by
      obtain ⟨front, eq⟩ := suffix
      exact ⟨front, [], by simp [Item.tokens, ← eq]⟩
    exact chained.within inside
  · intro before' core' closing' next keyword' word like likeClosing apart
    exact Item.read_again_closing h declares complete before' (by simpa [same'] using word) like
      likeClosing apart

end

theorem declsOf_ne_nil {items : List Item} {item : Item} (trailing : List Token)
    (mem : item ∈ items) {heading : Heading} (declares : item.content = .declares heading) :
    declsOf trailing items ≠ [] := by
  induction items with
  | nil => simp at mem
  | cons first items ih =>
    unfold declsOf
    split
    · next content =>
      rcases List.mem_cons.1 mem with rfl | mem
      · simp [declares] at content
      · exact ih mem
    · simp

theorem ItemsOf.eq_of_nil {ts trailing : List Token} (h : ItemsOf ts [] trailing) :
    ts = trailing := by
  cases h
  rfl

/-- Complete declarations one below the other can be printed. -/
theorem printable_declsOf {ts trailing : List Token} {items : List Item}
    (h : ItemsOf ts items trailing)
    (declares : ∀ item ∈ items, ∃ heading, item.content = .declares heading)
    (complete : ∀ d ∈ declsOf trailing items, d.isComplete = true)
    {after : Text} (chained : Chained ts after) : Decl.Printable (declsOf trailing items) := by
  induction h with
  | none _ => exact .nil
  | @cons before rest trailing keyword item items separators read others ih =>
    obtain ⟨heading, content⟩ := declares item (by simp)
    obtain ⟨same, same'⟩ := Item.read_before_keyword read
    have body := Item.body_append_closing read
    have whole : before ++ keyword :: rest = item.tokens ++ rest.drop item.size := by
      conv => lhs; rw [← body]
      simp [Item.tokens, same, same']
    rw [whole, Token.chained_append] at chained
    have later := ih (fun item mem => declares item (by simp [mem]))
    rw [← same] at separators
    unfold declsOf at complete ⊢
    simp only [content] at complete ⊢
    cases items with
    | cons next items =>
      obtain ⟨heading', content'⟩ := declares next (by simp)
      have some : declsOf trailing (next :: items) ≠ [] :=
        declsOf_ne_nil trailing (List.mem_cons_self ..) content'
      simp only [List.isEmpty_eq_false_iff.2 some, Bool.false_and, Bool.false_eq_true, if_false,
        List.append_nil] at complete ⊢
      have first := complete _ (List.mem_cons_self ..)
      refine .cons (settled_of_read read content separators first chained.1) (later ?_ chained.2)
      exact fun d mem => complete d (List.mem_cons_of_mem _ mem)
    | nil =>
      obtain rfl := others.eq_of_nil
      have comments : ∀ c ∈ Item.leadingComments (rest.drop item.size), c.isComment = true :=
        fun c mem => List.all_eq_true.1 List.all_takeWhile c mem
      simp only [declsOf, List.isEmpty_nil, Bool.true_and, List.flatMap_nil, List.append_nil,
        List.mem_singleton, forall_eq] at complete ⊢
      split
      · next some =>
        rw [if_pos some] at complete
        have stretch : ∀ t ∈ item.closing ++ Item.leadingComments (rest.drop item.size),
            t.isSeparator = true := by
          intro t mem
          rcases List.mem_append.1 mem with mem | mem
          · exact Item.closing_separators read t mem
          · simp [Token.isSeparator, comments t mem]
        have first : endsComplete (item.keyword :: item.body) = true := by
          rw [Decl.isComplete, ← List.cons_append, endsComplete_append _ stretch] at complete
          exact complete
        have behind : Item.leadingComments (rest.drop item.size) <+: rest.drop item.size :=
          List.takeWhile_prefix _
        have part : item.tokens ++ Item.leadingComments (rest.drop item.size) <:+:
            item.tokens ++ rest.drop item.size := by
          obtain ⟨left, eq⟩ := behind
          exact ⟨[], left, by simp [eq]⟩
        obtain ⟨after', chained'⟩ := (Token.chained_append.2 chained).within part
        exact .last (final_of_read read content separators first comments (by simpa using some)
          behind chained')
      · next none =>
        rw [if_neg none] at complete
        simp only [List.append_nil] at complete ⊢
        exact .cons (settled_of_read read content separators complete chained.1) .nil

theorem declsOf_append {imports : List Item}
    (h : ∀ item ∈ imports, ∃ grouped specs, item.content = .imports grouped specs)
    (trailing : List Token) (items : List Item) :
    declsOf trailing (imports ++ items) = declsOf trailing items := by
  induction imports with
  | nil => rfl
  | cons item imports ih =>
    obtain ⟨grouped, specs, content⟩ := h item (by simp)
    rw [List.cons_append, declsOf]
    simp only [content]
    exact ih fun item mem => h item (by simp [mem])

theorem ItemsOf.suffix_of_append {ts trailing : List Token} {left right : List Item}
    (h : ItemsOf ts (left ++ right) trailing) : ∃ us, us <:+ ts ∧ ItemsOf us right trailing := by
  induction left generalizing ts with
  | nil => exact ⟨ts, List.suffix_refl _, h⟩
  | cons item left ih =>
    cases h with
    | @cons before rest _ keyword _ _ separators read others =>
      obtain ⟨us, suffix, items⟩ := ih others
      refine ⟨us, suffix.trans ?_, items⟩
      exact (List.drop_suffix _ rest).trans
        ((List.suffix_cons keyword rest).trans (List.suffix_append before _))

end SourceFile

end GoSplit
