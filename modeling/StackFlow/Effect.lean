/-!
# Effects of straight-line code

An `Effect` sums up what a run of instructions does to the operand cursor and to
the operand stack.  `consume` is the number of slots taken from below the depth
the run started at, and `produce` the number of slots standing on what is left.
When `consume` is not known the run ends at an absolute depth, and `produce` is
that depth.

Counts are machine integers and wrap around.  A negative count is not known; the
one negative count the analyses make is `Count.unknown`.

* `Effect.merge` combines the effects of two ways to one point.
* `Effect.andThen` is the effect of one run followed by another.
-/

namespace StackFlow

/-- A number of stack slots; a negative one is not known. -/
abbrev Count := Int64

namespace Count

/-- The count that stands for an unknown number of slots. -/
def unknown : Count := -1

/-- Whether the count is an actual number of slots. -/
def isKnown (c : Count) : Bool := 0 ≤ c

/-- The count in decimal, or the word for the unknown count. -/
def text (c : Count) : String :=
  if c = unknown then "unknown" else toString c.toInt

end Count

/-- What a run of instructions does to the operand cursor and the operand stack. -/
structure Effect where
  /-- Bytes read from the operand cursor. -/
  cursor : Int64
  /-- Slots taken from below the starting depth. -/
  consume : Count
  /-- Slots standing on what is left, or the absolute depth. -/
  produce : Count
deriving DecidableEq, Inhabited

/-- Two ways to one point have read different numbers of cursor bytes. -/
structure CursorMismatch where
  first : Int64
  second : Int64
deriving DecidableEq, Inhabited

/-- The wording of a cursor mismatch. -/
def CursorMismatch.message (e : CursorMismatch) : String :=
  s!"differing operand-cursor offsets at join point: {e.first.toInt} and {e.second.toInt}"

namespace Effect

/-- The effect of doing nothing. -/
def zero : Effect := ⟨0, 0, 0⟩

/-- The effect of a run that ends at the absolute depth `depth`. -/
def absolute (cursor : Int64) (depth : Count) : Effect := ⟨cursor, Count.unknown, depth⟩

/-- Whether the run ends at an absolute depth. -/
def isAbsolute (e : Effect) : Bool := e.consume = Count.unknown

/-- The three parts of the effect, in parentheses. -/
def text (e : Effect) : String :=
  s!"({e.cursor.toInt}, {e.consume.text}, {e.produce.text})"

/-- The combined effect of two ways to the same point.  Both must have read the
same number of cursor bytes; a known effect on the stack wins over an absolute
depth, and of two of a kind the smaller counts are kept. -/
def merge (a b : Effect) : Except CursorMismatch Effect :=
  if a.cursor ≠ b.cursor then .error ⟨a.cursor, b.cursor⟩
  else if a.consume.isKnown && b.consume.isKnown then
    .ok ⟨a.cursor, min a.consume b.consume, min a.produce b.produce⟩
  else if a.consume.isKnown then .ok a
  else if b.consume.isKnown then .ok b
  else .ok ⟨a.cursor, Count.unknown, min a.produce b.produce⟩

/-- The effect of running `a` and then `b`. -/
def andThen (a b : Effect) : Effect :=
  let cursor := a.cursor + b.cursor
  if !b.consume.isKnown then ⟨cursor, Count.unknown, b.produce⟩
  else if !a.consume.isKnown then
    ⟨cursor, Count.unknown, max (a.produce - b.consume) 0 + b.produce⟩
  else
    let consume := a.consume + max (b.consume - a.produce) 0
    ⟨cursor, consume, consume + (a.produce - a.consume) + (b.produce - b.consume)⟩

end Effect

end StackFlow
