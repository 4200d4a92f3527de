/-!
# Options

What a caller may choose about an analysis: the target platform, which elision
passes run, how much is logged, and how many rounds a fixpoint may take.
`Defaults` holds the values that options start from; it is an argument wherever
options are made, so nothing depends on hidden state.
-/

namespace StackFlow

/-- The target word size and the mnemonics of the instructions the optimizer may
exchange for one another. -/
structure Platform where
  pointerSize : Int64
  allocate : String
  allocateOnly : String
  checkedStore : String
  uncheckedStore : String
deriving DecidableEq, Inhabited

/-- Which elision passes run. -/
structure Passes where
  writeBarriers : Bool
  initMarkers : Bool
  fixedInit : Bool
deriving DecidableEq, Inhabited

/-- Everything a caller may choose. -/
structure Options where
  platform : Platform
  passes : Passes
  verbosity : Int64
  /-- The most rounds a fixpoint may take; zero means no limit. -/
  maxRounds : Int64
deriving DecidableEq, Inhabited

/-- The values options start from. -/
structure Defaults where
  pointerSize : Int64 := 8
  verbosity : Int64 := 0
  maxRounds : Int64 := 0
deriving DecidableEq, Inhabited

/-- The options of a caller who chooses nothing. -/
def Defaults.options (d : Defaults) : Options where
  platform :=
    { pointerSize := d.pointerSize
      allocate := "GC_MALLOC"
      allocateOnly := "GC_ALLOCATE_ONLY"
      checkedStore := "RSTORE"
      uncheckedStore := "RSTORE_SIMPLE" }
  passes := { writeBarriers := true, initMarkers := true, fixedInit := true }
  verbosity := d.verbosity
  maxRounds := d.maxRounds

/-- A setting that no analysis can work with. -/
inductive OptionsError where
  | pointerSize (n : Int64)
  | roundLimit (n : Int64)
deriving DecidableEq

/-- The wording of an options error. -/
def OptionsError.message : OptionsError → String
  | .pointerSize n => s!"invalid pointer size: {n.toInt}"
  | .roundLimit n => s!"invalid iteration limit: {n.toInt}"

/-- The pointer sizes of the supported platforms. -/
def isPointerSize (n : Int64) : Bool := n = 2 || n = 4 || n = 8

namespace Options

/-- Checks the pointer size first, then the round limit. -/
def validate (o : Options) : Except OptionsError Unit :=
  if !isPointerSize o.platform.pointerSize then .error (.pointerSize o.platform.pointerSize)
  else if o.maxRounds < 0 then .error (.roundLimit o.maxRounds)
  else .ok ()

/-- Whether a fixpoint that has taken `n` rounds may start another one. -/
def canIterate (o : Options) (n : Int64) : Bool := n < o.maxRounds || o.maxRounds = 0

end Options

end StackFlow
