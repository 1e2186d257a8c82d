import GoSplit.Proofs.Selector.Clauses
import GoSplit.Proofs.Signature.Names

/-!
Scoping by structure. Functions whose bodies are statements nested to any depth, and for each
of them the bases of selectors that are bound nowhere around: neither by a parameter, nor by an
earlier statement of a block around, nor by a header around. The code is made of its tokens, so
that it says how it is laid out: every statement starts a line and every header stays on its
line.
-/

namespace GoSplit.Selector.Scoping

/-! ### Expressions and types -/

/-- A token of an expression without braces: a name, a literal, an operator other than a colon, a
comma, a dot, a parenthesis or a bracket. -/
def isOperand (t : Token) : Bool :=
  match t.kind with
  | .ident => !isKeyword t.text
  | .number | .string | .rawString | .rune | .comma | .dot | .incDec => true
  | .op => t.text != [':']
  | .opening bracket | .closing bracket => bracket != .curly
  | _ => false

/-- The tokens do not start in the middle of a selector or of a list. -/
def Apart (ts : List Token) : Prop := ∀ t ∈ ts.head?, t.kind ≠ .dot ∧ t.kind ≠ .comma

structure Expr where
  tokens : List Token
  nonempty : tokens ≠ []
  operands : ∀ t ∈ tokens, isOperand t = true
  nested : Balances [] tokens
  first : Apart tokens
  last : Apart tokens.reverse

/-- A type without function types. -/
structure TypeExpr where
  tokens : List Token
  spelled : Signature.Spells .type tokens
  plain : ∀ t ∈ tokens, t.isWord "func" = false

/-! ### Statements -/

/-- An equals sign and an expression. -/
structure Assigned where
  equals : Token
  kind : equals.kind = .op
  text : equals.text = ['=']
  value : Expr

inductive Simple where
  /-- Names, `:=` and an expression. -/
  | define (d : Definition) (value : Expr)
  /-- The keyword `var` and names, perhaps with a type and with a value. -/
  | declare (keyword : Token) (word : keyword.isWord "var" = true) (targets : List Token)
      (names : List Text) (spelled : Names targets names) (type : Option TypeExpr)
      (value : Option Assigned)
  | expr (e : Expr)

/-- What stands in front of the brace of a block. -/
inductive Header where
  | block
  | loop (keyword : Token) (word : keyword.isWord "for" = true)
  | cond (keyword : Token) (word : keyword.isWord "if" = true) (condition : Expr)
  | condDefine (keyword : Token) (word : keyword.isWord "if" = true) (d : Definition) (value : Expr)
      (semicolon : Token) (kind : semicolon.kind = .semicolon) (condition : Expr)
  | range (keyword : Token) (word : keyword.isWord "for" = true) (d : Definition)
      (rangeWord : Token)
      (isRange : rangeWord.isWord "range" = true) (value : Expr)
  | clauses (keyword : Token) (word : keyword.isWord "for" = true) (d : Definition) (value : Expr)
      (semicolon : Token) (kind : semicolon.kind = .semicolon) (condition : Expr)
      (semicolon' : Token) (kind' : semicolon'.kind = .semicolon) (post : Expr)

def Simple.tokens : Simple → List Token
  | define d value => d.tokens ++ value.tokens
  | declare keyword _ targets _ _ type value =>
    keyword :: (targets ++ ((type.map TypeExpr.tokens).getD [] ++
      (value.map fun v => v.equals :: v.value.tokens).getD []))
  | expr e => e.tokens

def Header.tokens : Header → List Token
  | block => []
  | loop keyword _ => [keyword]
  | cond keyword _ condition => keyword :: condition.tokens
  | condDefine keyword _ d value semicolon _ condition =>
    keyword :: (d.tokens ++ (value.tokens ++ semicolon :: condition.tokens))
  | range keyword _ d rangeWord _ value => keyword :: (d.tokens ++ rangeWord :: value.tokens)
  | clauses keyword _ d value semicolon _ condition semicolon' _ post =>
    keyword ::
      (d.tokens ++ (value.tokens ++ semicolon :: (condition.tokens ++ semicolon' :: post.tokens)))

/-- The first token stands on a new line and the others do not. -/
def isLine : List Token → Bool
  | [] => false
  | t :: ts => t.onNewLine && ts.all fun u => !u.onNewLine

/-- The statements of a block. -/
inductive Code where
  | done
  | simple (s : Simple) (line : isLine s.tokens = true) (next : Code)
  | block (h : Header) (brace : Token) (opens : brace.kind = .opening .curly)
      (line : isLine (h.tokens ++ [brace]) = true) (body : Code) (close : Token)
      (closes : close.kind = .closing .curly) (next : Code)

def Code.tokens : Code → List Token
  | done => []
  | simple s _ next => s.tokens ++ next.tokens
  | block h brace _ _ body close _ next =>
    h.tokens ++ brace :: (body.tokens ++ close :: next.tokens)

/-- A function without results. -/
structure Function where
  keyword : Token
  name : Token
  opener : Token
  parameters : List Token
  names : List Text
  closer : Token
  brace : Token
  body : Code
  close : Token
  func : keyword.isWord "func" = true
  isName : name.isName = true
  enters : opener.kind = .opening .paren
  spelled : Signature.Parameters parameters names
  plain : ∀ t ∈ parameters, t.isWord "func" = false ∧ t.kind ≠ .opening .curly
  leaves : closer.kind = .closing .paren
  opens : brace.kind = .opening .curly
  line : brace.onNewLine = false
  closes : close.kind = .closing .curly

def Function.tokens (f : Function) : List Token :=
  f.keyword :: f.name :: f.opener ::
    (f.parameters ++ f.closer :: f.brace :: (f.body.tokens ++ [f.close]))

/-! ### Selectors on names that are not bound -/

/-- The names that the environment does not bind. -/
def unbound (env names : List Text) : List Text := names.filter fun name => !env.contains name

def Expr.free (e : Expr) (env : List Text) : List Text := unbound env (bases false e.tokens)

def TypeExpr.free (t : TypeExpr) (env : List Text) : List Text := unbound env (bases false t.tokens)

namespace Simple

/-- The names that the statement binds in what follows it. -/
def names : Simple → List Text
  | define d _ => d.names
  | declare _ _ _ names _ _ _ => names
  | expr _ => []

def free (env : List Text) : Simple → List Text
  | define _ value => value.free env
  | declare _ _ _ _ _ type value =>
    (type.map fun t => t.free env).getD [] ++ (value.map fun v => v.value.free env).getD []
  | expr e => e.free env

end Simple

namespace Header

/-- The names that the header binds in the block, and behind its first semicolon. -/
def names : Header → List Text
  | block | loop _ _ | cond _ _ _ => []
  | condDefine _ _ d _ _ _ _ | range _ _ d _ _ _ | clauses _ _ d _ _ _ _ _ _ _ => d.names

def free (env : List Text) : Header → List Text
  | block | loop _ _ => []
  | cond _ _ condition => condition.free env
  | condDefine _ _ d value _ _ condition => value.free env ++ condition.free (env ++ d.names)
  | range _ _ _ _ _ value => value.free env
  | clauses _ _ d value _ _ condition _ _ post =>
    value.free env ++ condition.free (env ++ d.names) ++ post.free (env ++ d.names)

end Header

/-- The bases of selectors that neither the statements nor the environment bind. -/
def Code.free (env : List Text) : Code → List Text
  | done => []
  | simple s _ next => s.free env ++ next.free (env ++ s.names)
  | block h _ _ _ body _ _ next => h.free env ++ body.free (env ++ h.names) ++ next.free env

def Function.free (f : Function) : List Text := bases false f.parameters ++ f.body.free f.names

end GoSplit.Selector.Scoping
