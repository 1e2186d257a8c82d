import GoSplit.Text

/-!
Values of a TOML document. Numbers and times are told apart from other values; what
they denote is not needed by any setting, so only their kind is kept.
-/

namespace GoSplit.Toml

inductive Value where
  | string (t : Text)
  | integer
  | float
  | boolean (b : Bool)
  | datetime
  | array (items : List Value)
  | table (entries : List (Text × Value))
  deriving Repr

/-- A table's entry under a key. -/
def Value.get? (key : Text) : Value → Option Value
  | .table entries => entries.lookup key
  | _ => none

def Value.isEmptyContainer : Value → Bool
  | .array items => items.isEmpty
  | .table entries => entries.isEmpty
  | _ => false

end GoSplit.Toml
