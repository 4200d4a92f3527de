import StackFlow.Config.Toml.Statement
import StackFlow.Config.Toml.Value

/-!
# TOML documents

The table that the statements of a document add up to.

A table may be named by a longer path before it is opened by a header or given
entries of its own.  Until then it is implied, and may be given once more: it stays
what it is, unless its path was last said to be an array, which makes room for the
new value.  Any other key may be given once.  Both notes are kept by path alone
(`Notes`), so all tables under one key share them.

* `Assembly.define?` gives one key a value under these rules.
* `Assembly.evaluate?` works out a value as it is written; the keys inside an inline
  table are given one by one, like those of any other table.
* `document?` reads a whole text.
-/

namespace StackFlow.Toml

/-! ## Notes -/

/-- What is noted about a path, and about the paths below it. -/
inductive Notes where
  | node (isImplied isArray : Bool) (below : List (String × Notes))
deriving Inhabited

namespace Notes

/-- Nothing is noted. -/
def empty : Notes := node false false []

/-- Whether the table at the path is only implied so far. -/
def isImplied : Notes → Bool
  | node i _ _ => i

/-- Whether the path was last said to be an array. -/
def isArray : Notes → Bool
  | node _ r _ => r

/-- Changes whether the table at the path is only implied. -/
def setImplied (i : Bool) : Notes → Notes
  | node _ r below => node i r below

/-- Changes whether the path is said to be an array. -/
def setArray (r : Bool) : Notes → Notes
  | node i _ below => node i r below

/-- The notes below a key. -/
def under (k : String) : Notes → Notes
  | node _ _ below => (below.lookup k).getD empty

/-- Replaces the notes below a key. -/
def setUnder (n : Notes) (k : String) (sub : Notes) : Notes :=
  match n with
  | node i r below => node i r (put k sub below)

/-- Changes the notes at a path. -/
def modify (f : Notes → Notes) : Path → Notes → Notes
  | [], n => f n
  | k :: path, n => n.setUnder k (modify f path (n.under k))

end Notes

/-! ## Giving keys -/

/-- A table while it is put together, with the notes on the paths in it. -/
structure Assembly where
  entries : Entries := []
  notes : Notes := .empty
deriving Inhabited

namespace Assembly

/-- Replaces the table under a key, which is a value made by `wrap`, and its notes. -/
def setTable (a : Assembly) (k : String) (wrap : Entries → Value) (sub : Assembly) : Assembly :=
  ⟨put k (wrap sub.entries) a.entries, a.notes.setUnder k sub.notes⟩

/-- Works on the table at a path; of several tables under one key, on the last one. -/
def within? (f : Assembly → Option Assembly) : Path → Assembly → Option Assembly
  | [], a => f a
  | k :: path, a =>
    match a.entries.lookup k with
    | some (.table es) =>
      (within? f path ⟨es, a.notes.under k⟩).map (a.setTable k .table)
    | some (.tables earlier last) =>
      (within? f path ⟨last, a.notes.under k⟩).map (a.setTable k (.tables earlier))
    | _ => none

/-- Makes sure that every part of a path leads to a table.  Tables that are missing are
made, and are only implied. -/
def reach? : Path → Assembly → Option Assembly
  | [], a => some a
  | k :: path, a =>
    match a.entries.lookup k with
    | none =>
      (reach? path ⟨[], (a.notes.under k).setImplied true⟩).map (a.setTable k .table)
    | some (.table es) => (reach? path ⟨es, a.notes.under k⟩).map (a.setTable k .table)
    | some (.tables earlier last) =>
      (reach? path ⟨last, a.notes.under k⟩).map (a.setTable k (.tables earlier))
    | some _ => none

/-- Notes that the table at a path is only implied. -/
def imply (a : Assembly) (path : Path) : Assembly :=
  { a with notes := a.notes.modify (.setImplied true) path }

/-- Notes whether a path is an array. -/
def noteAt (a : Assembly) (path : Path) (isArray : Bool) : Assembly :=
  { a with notes := a.notes.modify (.setArray isArray) path }

/-- Notes whether a key of the table at `parent` is an array.  The note for an empty
key is that of the table around it. -/
def note (a : Assembly) (parent : Path) (k : String) (isArray : Bool) : Assembly :=
  a.noteAt (if k = "" && !parent.isEmpty then parent else parent ++ [k]) isArray

/-- Gives a key of the table a value if that is allowed. -/
def defineHere? (k : String) (v : Value) (a : Assembly) : Option Assembly :=
  let n := a.notes.under k
  match a.entries.lookup k with
  | none => some { a with entries := put k v a.entries }
  | some _ =>
    if !n.isImplied then none
    else
      let a := { a with notes := a.notes.setUnder k (n.setImplied false) }
      if n.isArray then some { a with entries := put k v a.entries } else some a

/-- Gives a key of the table at `parent` a value if that is allowed. -/
def define? (a : Assembly) (parent : Path) (k : String) (v : Value) : Option Assembly :=
  a.within? (defineHere? k v) parent

/-- Adds one more to the tables under a key. -/
def addItem? (k : String) (a : Assembly) : Option Assembly :=
  match a.entries.lookup k with
  | none => some { a with entries := put k (.tables [] []) a.entries }
  | some (.tables earlier last) =>
    some { a with entries := put k (.tables (earlier ++ [last]) []) a.entries }
  | some _ => none

/-- Opens the table under a key. -/
def openTable? (a : Assembly) (parent : Path) (k : String) : Option Assembly :=
  (a.reach? parent).bind fun a => a.define? parent k (.table [])

/-- Opens one more of the tables under a key. -/
def openItem? (a : Assembly) (parent : Path) (k : String) : Option Assembly :=
  (a.reach? parent).bind fun a => a.within? (addItem? k) parent

/-- Passes through the tables that the parts of a key above the last one name. -/
def through? (a : Assembly) (base : Path) : Path → Option Assembly
  | [] => some a
  | k :: path =>
    ((a.imply (base ++ [k])).openTable? base k).bind fun a => a.through? (base ++ [k]) path

/-- Gives a key the value that was worked out for it. -/
def finish? (a : Assembly) (parent : Path) (k : String) (v : Value) : Option Assembly :=
  (a.define? parent k v).map (·.note parent k v.isArray)

/-! ## Values and statements -/

mutual

/-- Works out the value of a key of the table at `parent`; `inArray` says whether it is
an item of an array under that key. -/
def evaluate? (a : Assembly) (parent : Path) (k : String) (inArray : Bool) :
    Literal → Option (Value × Assembly)
  | .string s => some (.string s, a)
  | .integer n => some (.integer n, a)
  | .float => some (.float, a)
  | .boolean b => some (.boolean b, a)
  | .moment => some (.moment, a)
  | .array items =>
    (evaluateItems? (a.note parent k true) parent k items).map fun (vs, a) => (.array vs, a)
  | .table pairs =>
    let a := a.imply (parent ++ [k])
    (if inArray then a.openItem? parent k else a.openTable? parent k).bind fun a =>
      (evaluatePairs? a (parent ++ [k]) [] pairs).map fun (es, a) => (.table es, a)

/-- Works out the items of an array. -/
def evaluateItems? (a : Assembly) (parent : Path) (k : String) :
    List Literal → Option (List Value × Assembly)
  | [] => some ([], a)
  | l :: ls =>
    (evaluate? a parent k true l).bind fun (v, a) =>
      (evaluateItems? a parent k ls).map fun (vs, a) => (v :: vs, a)

/-- Works out the pairs of an inline table at `path`; `own` holds the entries of the
pairs before. -/
def evaluatePairs? (a : Assembly) (path : Path) (own : Entries) :
    List (Key × Literal) → Option (Entries × Assembly)
  | [] => some (own, a)
  | (key, l) :: rest =>
    let parent := path ++ key.above
    (a.through? path key.above).bind fun a =>
      (evaluate? a parent key.last false l).bind fun (v, a) =>
        (a.finish? parent key.last v).bind fun a =>
          (own.graft? key.last v key.above).bind fun own => evaluatePairs? a path own rest

end

/-- Adds the statements of a document, `current` being the open table. -/
def add? (a : Assembly) (current : Path) : List Statement → Option Assembly
  | [] => some a
  | .header key :: rest =>
    (a.openTable? key.above key.last).bind fun a =>
      (a.noteAt key.path false).add? key.path rest
  | .itemHeader key :: rest =>
    (a.openItem? key.above key.last).bind fun a =>
      (a.noteAt key.path false).add? key.path rest
  | .assign key l :: rest =>
    let parent := current ++ key.above
    (a.through? current key.above).bind fun a =>
      (evaluate? a parent key.last false l).bind fun (v, a) =>
        (a.finish? parent key.last v).bind fun a => a.add? current rest

end Assembly

/-- The table that a document stands for. -/
def document? (text : String) : Option Entries :=
  (Statement.readAll? text).bind fun ss => (({} : Assembly).add? [] ss).map (·.entries)

end StackFlow.Toml
