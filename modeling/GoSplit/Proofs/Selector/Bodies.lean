import GoSplit.Proofs.Selector.Files
import GoSplit.Proofs.Selector.Frames
import GoSplit.Proofs.Signature.Headings

/-!
Functions and their own names. The brace that opens the body of a function opens a scope with
the names of its receiver, type parameters, parameters and results. Function types in the
signature have names of their own: these are found, if at all, inside the delimiters that the
type stands in, and are gone before the body starts.
-/

namespace GoSplit

namespace Signature

theorem isWord_of_isTypeToken {t : Token} {word : String} (h : isTypeToken t = true)
    (other : isTypeToken ⟨.ident, [], word.toList, 0⟩ = false) : t.isWord word = false := by
  rw [Bool.eq_false_iff]
  intro same
  simp only [Token.isWord, Bool.and_eq_true, beq_iff_eq] at same
  obtain ⟨kind, gap, text, start⟩ := t
  obtain ⟨rfl, rfl⟩ := same
  exact absurd h (by rw [Bool.not_eq_true]; exact other)

/-- A signature inside delimiters is read inside them. -/
theorem bindings_group {bracket : Bracket} {inside after : List Token} {close : Token}
    (h : Balances [] inside) (closes : close.kind = .closing bracket) :
    bindings (inside ++ close :: after) = bindings inside := by
  have stops : Stops (close :: after) := by
    intro t mem
    obtain rfl := Option.some.inj mem
    exact .inr (.inr (.inr ⟨bracket, closes⟩))
  by_cases empty : inside = []
  · subst empty
    rw [List.nil_append, bindings_other (by simp [closes]), parameters_other (by simp [closes]),
      listed_other [] (by simp [closes])]
    rfl
  · rcases bindings_append stops h (fun none => absurd none empty) with same | ⟨-, method, -⟩
    · exact same
    · cases after <;> simp [namesMethod, closes] at method

/-- The body of a function inside a delimiter is found before the delimiter is closed. -/
theorem bindings_inside {bracket : Bracket} {outer : List Bracket} {ts : List Token}
    (h : Balances (bracket :: outer) ts) (rest : List Token) {body : Nat} {names : List Text}
    (found : bindings (ts ++ rest) = some (body, names)) : ∃ t ∈ ts, t.start = body := by
  obtain ⟨inside, close, after, rfl, balanced, closes, -⟩ := @exists_inside [] outer bracket ts h
  rw [List.append_assoc, List.cons_append, bindings_group balanced closes] at found
  obtain ⟨t, mem, start⟩ := bindings_mem balanced found
  exact ⟨t, List.mem_append_left _ mem, start⟩

end Signature

namespace Selector

open Signature (Declares isTypeToken isWord_of_isTypeToken)

namespace Walk

/-- Code whose functions stand inside delimiters says nothing about bodies behind it. -/
theorem pass_lookup {stack : List Bracket} {ts : List Token} (balanced : Balances stack ts)
    (inside : sheltered (Token.isWord "func") stack.length ts = true) {body : Nat}
    (other : ∀ t ∈ ts, t.start ≠ body) (w : Walk) (before rest : List Token) :
    (w.pass before rest ts).bodies.lookup body = w.bodies.lookup body := by
  induction ts generalizing w stack before with
  | nil => rfl
  | cons t ts ih =>
    rw [List.forall_mem_cons] at other
    have whole := balanced
    have here : (w.step before t (ts ++ rest)).bodies.lookup body = w.bodies.lookup body := by
      rw [step_bodies, lookup_learn]
      rintro func ⟨body', names⟩ found rfl
      have plain := Token.isPlain_of_isWord func
      rw [balances_plain plain] at balanced
      cases stack with
      | nil => simp [sheltered_plain plain, func] at inside
      | cons bracket outer =>
        obtain ⟨u, mem, start⟩ := Signature.bindings_inside balanced rest found
        exact other.2 u mem start
    rw [pass_cons, ← here]
    obtain ⟨stack', balanced', -, opened, -⟩ := exists_stack whole
    rw [sheltered, Bool.and_eq_true, opened] at inside
    exact ih balanced' inside.2 other.2 _ _

end Walk

section

variable {t : Token} (h : isTypeToken t = true)
include h

theorem isHeader_of_isTypeToken : isHeader t = false := by
  simp only [isHeader, isWord_of_isTypeToken h
    (show isTypeToken ⟨.ident, [], "if".toList, 0⟩ = false by decide),
    isWord_of_isTypeToken h (show isTypeToken ⟨.ident, [], "for".toList, 0⟩ = false by decide),
    isWord_of_isTypeToken h (show isTypeToken ⟨.ident, [], "switch".toList, 0⟩ = false by decide),
    isWord_of_isTypeToken h (show isTypeToken ⟨.ident, [], "select".toList, 0⟩ = false by decide)]
  rfl

/-- A type declares nothing. -/
theorem stated_of_isTypeToken (before after : List Token) : Walk.stated before t after = [] := by
  have define : (t.kind == .op && isDefine t after) = false := by
    by_cases kind : t.kind = .op
    · have other : t.text ≠ [':'] := by simpa [isTypeToken, kind] using h
      cases after <;> simp [isDefine, other]
    · simp [kind]
  rw [Walk.stated, define,
    isWord_of_isTypeToken h (show isTypeToken ⟨.ident, [], "var".toList, 0⟩ = false by decide),
    isWord_of_isTypeToken h (show isTypeToken ⟨.ident, [], "const".toList, 0⟩ = false by decide)]
  rfl

end

/-- A function with a body in the middle of some code. The function types in its signature stand
inside delimiters. -/
structure Function where
  front : List Token
  keyword : Token
  signature : List Token
  names : List Text
  brace : Token
  body : List Token
  rest : List Token
  func : keyword.isWord "func" = true
  declares : Declares signature names
  types : sheltered (Token.isWord "func") 0 signature = true
  opens : brace.kind = .opening .curly
  line : brace.onNewLine = false
  balanced : Balances [] body

namespace Function

variable (f : Function)

/-- The tokens up to the brace that opens the body. -/
def opening : List Token := f.front ++ f.keyword :: (f.signature ++ [f.brace])

def code : List Token := f.opening ++ (f.body ++ f.rest)

/-- The walk in front of the function. -/
def reached : Walk := .behind f.front (f.keyword :: (f.signature ++ f.brace :: (f.body ++ f.rest)))

/-- The walk in front of the brace that opens the body. -/
def signed : Walk := .behind (f.front ++ f.keyword :: f.signature) (f.brace :: (f.body ++ f.rest))

/-- The walk behind the brace. -/
def entered : Walk := .behind f.opening (f.body ++ f.rest)

/-- Nothing in front of the function binds the name in it: no block around the function, no
statement that is being read, and no signature read so far. -/
def Unbound (name : Text) : Prop :=
  f.reached.Avoids 0 name ∧ Walk.Spares f.reached.bodies f.body name

theorem tidy : Signature.Tidy (f.keyword :: f.signature) :=
  f.declares.tidy.cons (Token.isPlain_of_isWord f.func)
    (Signature.isTypeToken_of_isWord f.func (by simp))

theorem signed_eq :
    f.signed = f.reached.pass f.front.reverse (f.brace :: (f.body ++ f.rest))
      (f.keyword :: f.signature) := by
  rw [signed, Walk.behind_append]
  rfl

theorem entered_eq :
    f.entered = f.signed.step (f.front ++ f.keyword :: f.signature).reverse f.brace
      (f.body ++ f.rest) := by
  have cut : f.opening = (f.front ++ f.keyword :: f.signature) ++ [f.brace] := by simp [opening]
  rw [entered, cut, Walk.behind_concat]
  rfl

theorem signed_depth : f.signed.depth = f.reached.depth := by
  rw [signed_eq]
  exact Walk.pass_depth f.tidy.balances (Depth.within_nil _).symm _ _

theorem signed_header (apart : f.reached.header ≠ some f.reached.depth) :
    f.signed.header ≠ some f.signed.depth := by
  rw [signed_depth]
  have none : ∀ t ∈ f.keyword :: f.signature, isHeader t = false :=
    fun t mem => isHeader_of_isTypeToken (f.tidy.tokens t mem)
  rcases Walk.pass_header none f.reached f.front.reverse (f.brace :: (f.body ++ f.rest)) with
    same | ⟨-, gone⟩
  · rw [signed_eq, same]
    exact apart
  · rw [signed_eq, gone]
    simp

section

variable {f} (distinct : (f.code.map Token.start).Nodup)
include distinct

/-- Tokens of the signature and of what follows it are apart. -/
theorem start_ne {t u : Token} (mem : t ∈ f.signature) (mem' : u ∈ f.brace :: f.body) :
    t.start ≠ u.start := by
  have cut : f.code = f.front ++ f.keyword :: (f.signature ++ (f.brace :: f.body ++ f.rest)) := by
    simp [code, opening]
  rw [cut, List.map_append, List.nodup_append, List.map_cons, List.nodup_cons, List.map_append,
    List.nodup_append] at distinct
  refine distinct.2.1.2.2.2 _ (List.mem_map_of_mem mem) _ (List.mem_map_of_mem ?_)
  exact List.mem_append_left _ mem'

/-- In front of the brace the walk knows the names of the function, and nothing else that it did not
know in front of the function. -/
theorem signed_lookup {brace : Token} (mem : brace ∈ f.brace :: f.body) :
    f.signed.bodies.lookup brace.start =
      if brace.start = f.brace.start then some f.names
        else f.reached.bodies.lookup brace.start := by
  rw [signed_eq, Walk.pass_cons,
    Walk.pass_lookup f.declares.tidy.balances f.types fun t mem' => start_ne distinct mem' mem,
    Walk.step_bodies, Walk.learn, if_pos f.func, Signature.bindings_eq f.opens f.line f.declares]
  by_cases same : brace.start = f.brace.start
  · simp [same]
  · simp [List.lookup_cons, beq_eq_false_iff_ne.2 same, same]

/-- The scope opened at the brace has exactly the names of the function. -/
theorem entered_scopes (apart : f.reached.header ≠ some f.reached.depth) :
    (f.entered).scopes = f.names :: f.signed.scopes := by
  rw [entered_eq, Walk.step_of_broken (Walk.broken_of_sameLine f.line), Walk.act, f.opens]
  simp only [Walk.openBlock_other (signed_header f apart),
    signed_lookup distinct (List.mem_cons_self ..), if_true, Option.getD_some]

/-- A name that is not one of the function's own is as unknown in its body as in front of it. -/
theorem entered_avoids {name : Text} (unbound : f.Unbound name) (other : name ∉ f.names) :
    (f.entered).Avoids 0 name ∧ Walk.Spares (f.entered).bodies f.body name := by
  have signed : f.signed.Avoids 0 name := by
    rw [signed_eq]
    refine @Walk.Avoids.pass f.reached _ _ name [] _ unbound.1 f.tidy.balances
      fun front t back cut => ?_
    have token : t ∈ f.keyword :: f.signature := by simp [cut]
    rw [stated_of_isTypeToken (f.tidy.tokens t token)]
    simp
  refine ⟨?_, fun brace mem curly => ?_⟩
  · rw [entered_eq, Walk.step_of_broken (Walk.broken_of_sameLine f.line), Walk.act, f.opens]
    refine signed.openBlock_of_spares ?_ _
    rw [signed_lookup distinct (List.mem_cons_self ..), if_pos rfl]
    exact other
  · rw [entered_eq, Walk.step_bodies, Walk.learn, if_neg (by simp [Token.isWord, f.opens]),
      signed_lookup distinct (List.mem_cons_of_mem _ mem)]
    split
    · exact other
    · exact unbound.2 brace mem curly

end

/-- The scope of a body has the names of its own signature and no others: in the body a selector on
one of them is not reported, and a selector on a name that nothing else binds is. -/
theorem body_binds_own_names {src : Text} {ts us : List Token} {f : Function}
    (tokens : Token.tokenize src = .ok ts) (part : us.Sublist ts)
    (code : Token.withoutComments us = f.code) (apart : f.reached.header ≠ some f.reached.depth) :
    f.entered.scopes = f.names :: f.signed.scopes ∧
      ∀ inside t after, f.body = inside ++ t :: after →
        (t.text ∈ f.names →
          (Walk.behind (f.opening ++ inside ++ [t]) (after ++ f.rest)).used =
            (Walk.behind (f.opening ++ inside) (t :: (after ++ f.rest))).used) ∧
        (t.isName = true → isBase (f.opening ++ inside).reverse (after ++ f.rest) = true →
          t.text ∉ f.names → f.Unbound t.text →
          t.text ∉ Walk.declared f.opening.reverse (t :: (after ++ f.rest)) inside →
          t.text ∈ packageSelectors f.code) := by
  have distinct := SourceFile.nodup_starts tokens part
  rw [code] at distinct
  have scopes := entered_scopes distinct apart
  refine ⟨scopes, fun inside t after cut => ?_⟩
  have entered : Walk.behind (f.opening ++ inside) (t :: (after ++ f.rest)) =
      f.entered.pass f.opening.reverse (t :: (after ++ f.rest)) inside := by
    rw [Walk.behind_append, Function.entered, cut]
    simp
  refine ⟨fun own => ?_, fun name base other unbound none => ?_⟩
  · rw [Walk.behind_concat, entered]
    have balanced := f.balanced
    rw [cut] at balanced
    exact @Walk.step_used_inside _ _ _ _ t [] _ f.names [] _ _ balanced scopes rfl own _
  · obtain ⟨avoids, spares⟩ := entered_avoids distinct unbound other
    rw [cut] at spares
    have reached :=
      avoids.pass_of_declared (fun brace mem => spares brace (List.mem_append_left _ mem)) none
    rw [← entered] at reached
    have reports := Walk.mem_step_used name base reached.broken.binds
    rw [← Walk.behind_concat] at reports
    have whole : f.code = (f.opening ++ inside ++ [t]) ++ (after ++ f.rest) := by
      rw [Function.code, cut]
      simp
    rw [whole, Walk.packageSelectors_append]
    exact Walk.used_subset_run _ reports

/-- A function whose parameter is a function with a parameter of its own. -/
def takesCallback : Function where
  front := []
  keyword := ⟨.ident, [], "func".toList, 0⟩
  signature := ⟨.ident, [' '], ['F'], 5⟩ :: ([] ++ (⟨.opening .paren, [], ['('], 6⟩ ::
    ([⟨.ident, [], ['g'], 7⟩, ⟨.ident, [' '], "func".toList, 9⟩, ⟨.opening .paren, [], ['('], 13⟩,
      ⟨.ident, [], "url".toList, 14⟩, ⟨.ident, [' '], ['T'], 18⟩,
      ⟨.closing .paren, [], [')'], 19⟩] ++
      [⟨.closing .paren, [], [')'], 20⟩]) ++ []))
  names := [['g']]
  brace := ⟨.opening .curly, [' '], ['{'], 22⟩
  body := [⟨.ident, [' '], "url".toList, 24⟩, ⟨.dot, [], ['.'], 27⟩, ⟨.ident, [], ['Y'], 28⟩]
  rest := [⟨.closing .curly, [' '], ['}'], 30⟩]
  func := rfl
  declares := .function rfl .none (.list rfl (.named (.last rfl (.single
    (@Signature.Spells.func [] [_, _] _ _ _ rfl rfl
      (.last (.labelled rfl (.single (.named (.own rfl))))) rfl .nothing)))) rfl) .none
  types := by decide
  opens := rfl
  line := by decide
  balanced := by decide

theorem takesCallback_binds :
    takesCallback.entered.scopes = [[['g']]] ∧
      "url".toList ∈ packageSelectors takesCallback.code := by
  have tokens : Token.tokenize "func F(g func(url T)) { url.Y }".toList =
      .ok takesCallback.code := by
    rw [String.toList_ofList]
    decide +kernel
  have code : Token.withoutComments takesCallback.code = takesCallback.code := by decide +kernel
  obtain ⟨scopes, selectors⟩ := body_binds_own_names tokens (List.Sublist.refl _) code
    (by decide +kernel)
  have unbound : takesCallback.Unbound "url".toList := by
    constructor
    · exact ⟨by decide, by decide, by decide⟩
    · intro brace mem curly
      simp [takesCallback] at mem
      rcases mem with rfl | rfl | rfl <;> simp at curly
  exact ⟨scopes, (selectors [] _ _ rfl).2 (by decide) (by decide) (by decide) unbound (by decide)⟩

end Function

end Selector

end GoSplit
