import StackFlow.Elision.Basic

/-!
# Allocations covered by stores

An allocation of constant size need not clear its memory if every word of it is
stored at a constant offset in the same block, before any collection and before the
object is used in any other way.  Objects of at most 64 words are followed, with one
bit per word that is still to be written.
-/

namespace StackFlow

/-- A word with the bits below `n` set; a negative count sets all of them. -/
def lowBits (n : Int64) : UInt64 :=
  if n < 0 || 64 ≤ n then ~~~0 else (1 <<< n.toInt.toNat.toUInt64) - 1

/-- The bit for word `n` of an object; words beyond the 64th have none. -/
def wordBit (n : Int64) : UInt64 :=
  if n < 0 || 64 ≤ n then 0 else 1 <<< n.toInt.toNat.toUInt64

/-- The words that an object of `size` bytes takes, or none if there are too many to
follow.  Fails for pointers of no size. -/
def wordsOf (ptr size : Int64) : Except Misuse (Option Int64) :=
  if ptr = 0 then .error .outOfRange
  else
    let words := (size + ptr - 1) / ptr
    .ok (if 64 < words then none else some words)

/-- The bits of the words that a store of `ty` at byte `offset` writes completely:
none unless the offset is a multiple of the word size and the type at least a word
wide.  Fails for pointers of no size and for types without one. -/
def writtenBits (ptr offset : Int64) (ty : Ty) : Except Misuse UInt64 :=
  if ptr = 0 then .error .outOfRange
  else if offset % ptr ≠ 0 then .ok 0
  else
    match ty.size? ptr with
    | none => .error (.sizeOfType ty)
    | some size =>
      if size < ptr then .ok 0
      else
        let first := offset / ptr
        .ok <| (List.range (size / ptr).toInt.toNat).foldl
          (fun bits k => bits ||| wordBit (first + Int64.ofNat k)) 0

namespace Context

/-- An allocation with the words that are still to be written. -/
structure Pending where
  /-- The place of the allocation in the block. -/
  index : Nat
  bits : UInt64
deriving DecidableEq, Inhabited

/-- The allocations being followed, by class. -/
abbrev Followed := List (Int64 × Pending)

/-- Stops following a class. -/
def Followed.drop (f : Followed) (k : Int64) : Followed := f.filter (·.1 ≠ k)

/-- Follows a class from here on. -/
def Followed.put (f : Followed) (k : Int64) (p : Pending) : Followed := (k, p) :: f.drop k

/-- The one operand in which a root may use a followed object: the target of a field
store, or the source of a copy within its class. -/
def permitted? (c : Context) (code : List Instr) (r : Root) : Option Nat :=
  match code[r.tree.index]? with
  | none => none
  | some p =>
    if c.variants.isFieldStore p then (r.tree.operand? 1).map (·.index)
    else if p.op = .tstore then
      match c.aliases.class? p.temp, c.loadedClass? code (r.tree.operand? 0) with
      | some k, some m => if k = m then (r.tree.operand? 0).map (·.index) else none
      | _, _ => none
    else none

/-- Stops following the objects that a root uses in any other way. -/
def dropEscapes (c : Context) (code : List Instr) (r : Root) (f : Followed) : Followed :=
  let skip := c.permitted? code r
  (r.tree.indices ++ r.dropped.flatMap (·.indices)).foldl (fun f i =>
    if skip = some i then f
    else
      match c.loadedClass? code (some (.node i [])) with
      | some k => f.drop k
      | none => f) f

/-- Exchanges the allocation of a class once all of its words are written. -/
def settle (c : Context) (b : Nat) (k : Int64) (p : Pending) (f : Followed) :
    Elision Followed := do
  if p.bits = 0 then
    Elision.replace .initCovered b p.index c.variants.allocateOnly
    return f.drop k
  else return f.put k p

/-- The constant that the tree pushes, if it is one and not negative. -/
def offset? (code : List Instr) (t : Option Tree) : Option Int64 :=
  match at? code t with
  | some v => if v.op = .number && 0 ≤ v.value then some v.value else none
  | none => none

/-- Notes the words that a field store writes into a followed object. -/
def cover (c : Context) (b : Nat) (code : List Instr) (r : Root) (p : Instr) (f : Followed) :
    Elision Followed := do
  match c.loadedClass? code (r.tree.operand? 1) with
  | none => return f
  | some k =>
    match f.lookup k, offset? code (r.tree.operand? 2) with
    | some a, some offset =>
      match writtenBits (← get).graph.pointerSize offset p.ty with
      | .error m => throw m
      | .ok 0 => return f
      | .ok bits => c.settle b k { a with bits := a.bits &&& ~~~bits } f
    | _, _ => return f

/-- Follows the object that a root allocates, if its size is a constant. -/
def follow (c : Context) (b : Nat) (code : List Instr) (r : Root) (f : Followed) :
    Elision Followed := do
  match c.allocatedClass? code r.tree, r.tree.operand? 0 with
  | some k, some a =>
    if !(code[a.index]?).any c.variants.isAllocate then return f
    match offset? code (a.operand? 0) with
    | none => return f
    | some size =>
      match wordsOf (← get).graph.pointerSize size with
      | .error m => throw m
      | .ok none => return f
      | .ok (some words) => c.settle b k ⟨a.index, lowBits words⟩ f
  | _, _ => return f

/-- Follows the objects of block `b` through one root. -/
def coverRoot (c : Context) (b : Nat) (f : Followed) (r : Root) : Elision Followed := do
  let code := ((← get).graph.block b).code
  let f := if r.collects then [] else f
  let f := if f.isEmpty then f else c.dropEscapes code r f
  match code[r.tree.index]? with
  | none => return f
  | some p => if c.variants.isFieldStore p then c.cover b code r p f else c.follow b code r f

/-- Exchanges all allocations whose words are all stored. -/
def coverAllocations (c : Context) : Elision Unit := do
  let n := (← get).graph.size
  (List.range n).forM fun b => discard ((c.forest b).roots.foldlM (c.coverRoot b) [])

end Context

end StackFlow
