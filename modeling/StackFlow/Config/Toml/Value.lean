/-!
# Values of a TOML document

What the keys of a document stand for once it is read.  A table keeps its entries in
the order in which their keys were first given.
-/

namespace StackFlow.Toml

/-- A value in a document.  No setting has a use for the digits of a float or for a
point in time, so these values say no more than what they are. -/
inductive Value where
  | string (s : String)
  | integer (n : Int)
  | float
  | boolean (b : Bool)
  /-- A date, a time of day, or both. -/
  | moment
  /-- An array that is written out as such. -/
  | array (items : List Value)
  | table (entries : List (String × Value))
  /-- Tables that are each opened by a header; the last one may still grow. -/
  | tables (earlier : List (List (String × Value))) (last : List (String × Value))
deriving Inhabited

/-- The entries of a table. -/
abbrev Entries := List (String × Value)

/-- Whether the value is an array that is written out as such. -/
def Value.isArray : Value → Bool
  | array _ => true
  | _ => false

/-- The keys that lead from a table to a value in it. -/
abbrev Path := List String

/-- Replaces what a key stands for, or adds the key at the end. -/
def put {α : Type} (k : String) (a : α) : List (String × α) → List (String × α)
  | [] => [(k, a)]
  | e :: es => if e.1 = k then (k, a) :: es else e :: put k a es

/-- Gives a key below a path a value, and makes the tables on the way that are
missing.  All that is on the way must be plain tables. -/
def Entries.graft? (k : String) (v : Value) : Path → Entries → Option Entries
  | [], es => some (put k v es)
  | h :: path, es =>
    match es.lookup h with
    | none => (graft? k v path []).map fun sub => put h (.table sub) es
    | some (.table sub) => (graft? k v path sub).map fun sub => put h (.table sub) es
    | some _ => none

end StackFlow.Toml
