/-!
# Opcodes

The operations of the stack machine.  An opcode is stored as one byte; a code
beyond the last operation is kept as `invalid`.

Each operation has one row of properties (`Opcode.row`): its mnemonic, how many
stack slots it takes and leaves, how many bytes it reads from the operand cursor,
and five traits:

* `collects`: running it may trigger a garbage collection;
* `transfers`: it never continues with the following instruction;
* `opaqueOperands`: its operands cannot be paired with what produced them;
* `resets`: it leaves the stack at a depth that does not depend on the past;
* `isMeta`: it only carries debug information.
-/

namespace StackFlow

/-- An operation of the stack machine. -/
inductive Opcode where
  | nop
  | comment
  | file
  | line
  | name
  | number
  | fetch
  | tload
  | tstore
  | rload
  | rstore
  | rstoreSimple
  | pload
  | pstore
  | operator
  | gcMalloc
  | gcAllocateOnly
  | fullyInitialized
  | branch
  | hop
  | target
  | ret
  | jump
  | farJump
  | call
  | nCall
  | vCall
  | nCallNoGc
  | nativeArg
  | alloca
  | pick
  | stack
  | flush
  | insert
  | gcSafe
  | gcSafeCall
  | drop
  | dropN
  | compound
  /-- Code `39 + k`, which names no operation. -/
  | invalid (k : Fin 217)
deriving DecidableEq, Inhabited

/-- The fixed properties of one operation. -/
structure OpcodeRow where
  mnemonic : String
  inputs : Int64 := 0
  outputs : Int64 := 0
  operands : Int64 := 0
  collects : Bool := false
  transfers : Bool := false
  opaqueOperands : Bool := false
  resets : Bool := false
  isMeta : Bool := false

namespace Opcode

/-- The operations that have a name, in the order of their codes. -/
def all : List Opcode :=
  [nop, comment, file, line, name, number, fetch, tload, tstore, rload, rstore,
    rstoreSimple, pload, pstore, operator, gcMalloc, gcAllocateOnly,
    fullyInitialized, branch, hop, target, ret, jump, farJump, call, nCall, vCall,
    nCallNoGc, nativeArg, alloca, pick, stack, flush, insert, gcSafe, gcSafeCall,
    drop, dropN, compound]

/-- The operation a byte stands for; only the low eight bits of the number count. -/
def ofCode (n : Nat) : Opcode :=
  match all[n % 256]? with
  | some op => op
  | none => invalid (Fin.ofNat 217 (n % 256 - 39))

/-- The byte that stands for the operation. -/
def code : Opcode → Nat
  | invalid k => 39 + k
  | op => all.idxOf op

/-- The properties of the operation. -/
def row : Opcode → OpcodeRow
  | nop => { mnemonic := "NOP", isMeta := true }
  | comment => { mnemonic := "COMMENT", isMeta := true }
  | file => { mnemonic := "FILE", isMeta := true }
  | line => { mnemonic := "LINE", isMeta := true }
  | name => { mnemonic := "NAME", isMeta := true }
  | number => { mnemonic := "NUMBER", outputs := 1 }
  | fetch => { mnemonic := "FETCH", outputs := 1, operands := 1 }
  | tload => { mnemonic := "TLOAD", outputs := 1 }
  | tstore => { mnemonic := "TSTORE", inputs := 1 }
  | rload => { mnemonic := "RLOAD", inputs := 2, outputs := 1 }
  | rstore => { mnemonic := "RSTORE", inputs := 3 }
  | rstoreSimple => { mnemonic := "RSTORE_SIMPLE", inputs := 3 }
  | pload => { mnemonic := "PLOAD", inputs := 1, outputs := 1 }
  | pstore => { mnemonic := "PSTORE", inputs := 2 }
  | operator => { mnemonic := "OP", inputs := 2, outputs := 1 }
  | gcMalloc => { mnemonic := "GC_MALLOC", inputs := 1, outputs := 1, collects := true }
  | gcAllocateOnly =>
    { mnemonic := "GC_ALLOCATE_ONLY", inputs := 1, outputs := 1, collects := true }
  | fullyInitialized => { mnemonic := "FULLY_INITIALIZED", inputs := 1 }
  | branch => { mnemonic := "BRANCH", inputs := 1 }
  | hop => { mnemonic := "HOP", transfers := true }
  | target => { mnemonic := "TARGET" }
  | ret => { mnemonic := "RETURN", inputs := 1, transfers := true }
  | jump => { mnemonic := "JUMP", inputs := 1, transfers := true }
  | farJump => { mnemonic := "FAR_JUMP", inputs := 1, transfers := true }
  | call =>
    { mnemonic := "CALL", inputs := 1, collects := true, opaqueOperands := true,
      resets := true }
  | nCall =>
    { mnemonic := "N_CALL", collects := true, opaqueOperands := true, resets := true }
  | vCall =>
    { mnemonic := "V_CALL", collects := true, opaqueOperands := true, resets := true }
  | nCallNoGc => { mnemonic := "N_CALL_NO_GC", opaqueOperands := true, resets := true }
  | nativeArg => { mnemonic := "NATIVE_ARG", inputs := 1, opaqueOperands := true }
  | alloca => { mnemonic := "ALLOCA", inputs := 1, outputs := 1, opaqueOperands := true }
  | pick => { mnemonic := "PICK", outputs := 1, operands := 1, opaqueOperands := true }
  | stack => { mnemonic := "STACK", outputs := 1, opaqueOperands := true }
  | flush => { mnemonic := "FLUSH", opaqueOperands := true, resets := true }
  | insert => { mnemonic := "INSERT", opaqueOperands := true, resets := true }
  | gcSafe => { mnemonic := "GC_SAFE", collects := true, opaqueOperands := true }
  | gcSafeCall =>
    { mnemonic := "GC_SAFE_CALL", inputs := 1, collects := true, opaqueOperands := true,
      resets := true }
  | drop => { mnemonic := "DROP", inputs := 1, opaqueOperands := true }
  | dropN => { mnemonic := "DROP_N", inputs := 1, opaqueOperands := true, resets := true }
  | compound => { mnemonic := "COMPOUND", opaqueOperands := true }
  | invalid k => { mnemonic := s!"OpCode({39 + k.val})" }

/-- The mnemonic of the operation. -/
def mnemonic (op : Opcode) : String := op.row.mnemonic

/-- Whether the opcode names an operation. -/
def isValid : Opcode → Bool
  | invalid _ => false
  | _ => true

/-- Whether the operation reads or writes a temporary. -/
def accessesTemp : Opcode → Bool
  | tload | tstore => true
  | _ => false

/-- Whether the operation carries a label. -/
def isLabelled : Opcode → Bool
  | branch | hop | target => true
  | _ => false

/-- Whether the operation jumps to a label. -/
def jumps : Opcode → Bool
  | branch | hop => true
  | _ => false

end Opcode

end StackFlow
