import StackFlow.Instr.Check

/-!
# Instruction variants

The two pairs of instructions the optimizer may exchange: an allocation that
clears memory with one that does not, and a store with a write barrier with one
without.  The members of a pair have the same stack shape and the same collection
behavior, so exchanging them changes no fact about a graph.
-/

namespace StackFlow

/-- The instructions the optimizer may exchange for one another. -/
structure Variants where
  allocate : Instr
  allocateOnly : Instr
  checkedStore : Instr
  uncheckedStore : Instr
deriving Inhabited

namespace Variants

/-- The variants of the standard platform. -/
def standard : Variants where
  allocate := .ofOpcode .gcMalloc
  allocateOnly := .ofOpcode .gcAllocateOnly
  checkedStore := .typed .rstore .reference
  uncheckedStore := .typed .rstoreSimple .reference

/-- The four instructions in order. -/
def toList (v : Variants) : List Instr :=
  [v.allocate, v.allocateOnly, v.checkedStore, v.uncheckedStore]

/-- Checks that the members of each pair can stand in for one another. -/
def validate (v : Variants) : Except FlowError Unit :=
  if !v.allocate.sameShape v.allocateOnly then
    .error (.malformed (.differingArity v.allocate v.allocateOnly))
  else if !v.checkedStore.sameShape v.uncheckedStore then
    .error (.malformed (.differingArity v.checkedStore v.uncheckedStore))
  else if v.allocate.collects ≠ v.allocateOnly.collects then
    .error (.malformed (.differingCollection v.allocate v.allocateOnly))
  else if v.checkedStore.collects ≠ v.uncheckedStore.collects then
    .error (.malformed (.differingCollection v.checkedStore v.uncheckedStore))
  else .ok ()

/-- Whether `p` is the store with a barrier. -/
def isCheckedStore (v : Variants) (p : Instr) : Bool :=
  p.op = v.checkedStore.op && p.ty = v.checkedStore.ty

/-- Whether `p` is the allocation that clears memory. -/
def isAllocate (v : Variants) (p : Instr) : Bool := p.op = v.allocate.op

/-- Whether `p` allocates, clearing memory or not. -/
def isAllocation (v : Variants) (p : Instr) : Bool :=
  p.op = v.allocate.op || p.op = v.allocateOnly.op

/-- Whether `p` stores into a field of an object, with or without a barrier. -/
def isFieldStore (v : Variants) (p : Instr) : Bool :=
  p.op = v.checkedStore.op || p.op = v.uncheckedStore.op

end Variants

/-- Whether an instruction needs operands that a mnemonic does not give. -/
def Opcode.needsOperands : Opcode → Bool
  | .operator | .compound | .branch | .hop | .target | .tload | .tstore => true
  | _ => false

/-- Whether a mnemonic stands for the access of a reference. -/
def Opcode.accessesMemory : Opcode → Bool
  | .rload | .rstore | .rstoreSimple | .pload | .pstore => true
  | _ => false

/-- The plain form of the instruction with the given mnemonic.  Memory accesses are
taken to be of reference type. -/
def Instr.ofMnemonic (mnemonic : String) : Except FlowError Instr :=
  match Opcode.all.find? (·.mnemonic = mnemonic) with
  | none => .error (.malformed (.unknownMnemonic mnemonic))
  | some op =>
    if op.needsOperands then .error (.malformed (.needsOperands mnemonic))
    else if op.accessesMemory then .ok (.typed op .reference)
    else .ok (.ofOpcode op)

namespace Variants

/-- The variants with the given mnemonics. -/
def ofMnemonics (allocate allocateOnly checkedStore uncheckedStore : String) :
    Except FlowError Variants := do
  let allocate ← Instr.ofMnemonic allocate
  let allocateOnly ← Instr.ofMnemonic allocateOnly
  let checkedStore ← Instr.ofMnemonic checkedStore
  let uncheckedStore ← Instr.ofMnemonic uncheckedStore
  let v : Variants := { allocate, allocateOnly, checkedStore, uncheckedStore }
  v.validate
  return v

/-- The variants a platform names. -/
def ofPlatform (p : Platform) : Except FlowError Variants :=
  ofMnemonics p.allocate p.allocateOnly p.checkedStore p.uncheckedStore

end Variants

end StackFlow
