/-!
# Value types

The thirteen types a stack slot or a temporary may have, together with the codes
that name no type.  A type is stored as one byte, so a code beyond the last named
type is representable and is kept as `unnamed`.

The definitions do three things:

* move between a type and its byte code (`Ty.code`, `Ty.ofCode`);
* give the storage size on a platform with a given pointer size (`Ty.size?`);
* decide which types may share one temporary (`Ty.compatible`).
-/

namespace StackFlow

/-- The type of a value on the operand stack or in a temporary. -/
inductive Ty where
  | void
  | int8
  | int16
  | int32
  | int64
  | uint8
  | uint16
  | uint32
  | uint64
  | float32
  | float64
  /-- A pointer the collector does not trace. -/
  | pointer
  /-- A reference the collector traces. -/
  | reference
  /-- Code `13 + k`, which names no type. -/
  | unnamed (k : Fin 243)
deriving DecidableEq, Inhabited

namespace Ty

/-- The byte that stands for the type. -/
def code : Ty → Nat
  | void => 0
  | int8 => 1
  | int16 => 2
  | int32 => 3
  | int64 => 4
  | uint8 => 5
  | uint16 => 6
  | uint32 => 7
  | uint64 => 8
  | float32 => 9
  | float64 => 10
  | pointer => 11
  | reference => 12
  | unnamed k => 13 + k

/-- The type a byte stands for; only the low eight bits of the number count. -/
def ofCode (n : Nat) : Ty :=
  match n % 256 with
  | 0 => void
  | 1 => int8
  | 2 => int16
  | 3 => int32
  | 4 => int64
  | 5 => uint8
  | 6 => uint16
  | 7 => uint32
  | 8 => uint64
  | 9 => float32
  | 10 => float64
  | 11 => pointer
  | 12 => reference
  | k => unnamed (Fin.ofNat 243 (k - 13))

/-- The name of the type as it appears in instruction texts. -/
def name : Ty → String
  | void => "void"
  | int8 => "int8"
  | int16 => "int16"
  | int32 => "int32"
  | int64 => "int64"
  | uint8 => "uint8"
  | uint16 => "uint16"
  | uint32 => "uint32"
  | uint64 => "uint64"
  | float32 => "float32"
  | float64 => "float64"
  | pointer => "pointer"
  | reference => "reference"
  | unnamed k => s!"Type({13 + k.val})"

/-- Whether the type is one of the eight integer types. -/
def isInt : Ty → Bool
  | int8 | int16 | int32 | int64 | uint8 | uint16 | uint32 | uint64 => true
  | _ => false

/-- The storage size in bytes when pointers take `ptr` bytes.  A code that names
no type has no size. -/
def size? (ptr : Int64) : Ty → Option Int64
  | void => some 0
  | int8 | uint8 => some 1
  | int16 | uint16 => some 2
  | int32 | uint32 | float32 => some 4
  | int64 | uint64 | float64 => some 8
  | pointer | reference => some ptr
  | unnamed _ => none

/-- Whether an integer type is at most as wide as a machine word of `ptr` bytes. -/
def fitsWord (ptr : Int64) (t : Ty) : Bool :=
  match t.size? ptr with
  | some n => n ≤ ptr
  | none => false

/-- Whether a temporary first used as `a` may be used again as `b`.  Integers are
interchangeable as long as they lie on the same side of the word size; every
other type matches only itself. -/
def compatible (ptr : Int64) (a b : Ty) : Bool :=
  if a.isInt && b.isInt then a.fitsWord ptr == b.fitsWord ptr else a == b

end Ty

end StackFlow
