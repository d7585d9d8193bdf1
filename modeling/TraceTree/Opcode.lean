/-!
Instructions of the virtual machine, by their byte: names, the size of the data that follows one in
the code, and which of them may start a frame one call level deeper.
-/
namespace TraceTree

/-- An instruction's byte. -/
abbrev Opcode := UInt8

namespace Opcode

/-- Names of the instructions that belong to no numbered family. -/
def singles : List (Opcode × String) :=
  [(0x00, "STOP"), (0x01, "ADD"), (0x02, "MUL"), (0x03, "SUB"), (0x04, "DIV"), (0x05, "SDIV"),
   (0x06, "MOD"), (0x07, "SMOD"), (0x08, "ADDMOD"), (0x09, "MULMOD"), (0x0a, "EXP"),
   (0x0b, "SIGNEXTEND"), (0x10, "LT"), (0x11, "GT"), (0x12, "SLT"), (0x13, "SGT"), (0x14, "EQ"),
   (0x15, "ISZERO"), (0x16, "AND"), (0x17, "OR"), (0x18, "XOR"), (0x19, "NOT"), (0x1a, "BYTE"),
   (0x1b, "SHL"), (0x1c, "SHR"), (0x1d, "SAR"), (0x1e, "CLZ"), (0x20, "KECCAK256"),
   (0x30, "ADDRESS"), (0x31, "BALANCE"), (0x32, "ORIGIN"), (0x33, "CALLER"), (0x34, "CALLVALUE"),
   (0x35, "CALLDATALOAD"), (0x36, "CALLDATASIZE"), (0x37, "CALLDATACOPY"), (0x38, "CODESIZE"),
   (0x39, "CODECOPY"), (0x3a, "GASPRICE"), (0x3b, "EXTCODESIZE"), (0x3c, "EXTCODECOPY"),
   (0x3d, "RETURNDATASIZE"), (0x3e, "RETURNDATACOPY"), (0x3f, "EXTCODEHASH"), (0x40, "BLOCKHASH"),
   (0x41, "COINBASE"), (0x42, "TIMESTAMP"), (0x43, "NUMBER"), (0x44, "DIFFICULTY"),
   (0x45, "GASLIMIT"), (0x46, "CHAINID"), (0x47, "SELFBALANCE"), (0x48, "BASEFEE"),
   (0x49, "BLOBHASH"), (0x4a, "BLOBBASEFEE"), (0x4b, "SLOTNUM"), (0x50, "POP"), (0x51, "MLOAD"),
   (0x52, "MSTORE"), (0x53, "MSTORE8"), (0x54, "SLOAD"), (0x55, "SSTORE"), (0x56, "JUMP"),
   (0x57, "JUMPI"), (0x58, "PC"), (0x59, "MSIZE"), (0x5a, "GAS"), (0x5b, "JUMPDEST"),
   (0x5c, "TLOAD"), (0x5d, "TSTORE"), (0x5e, "MCOPY"), (0xe6, "DUPN"), (0xe7, "SWAPN"),
   (0xe8, "EXCHANGE"), (0xf0, "CREATE"), (0xf1, "CALL"), (0xf2, "CALLCODE"), (0xf3, "RETURN"),
   (0xf4, "DELEGATECALL"), (0xf5, "CREATE2"), (0xfa, "STATICCALL"), (0xfd, "REVERT"),
   (0xfe, "INVALID"), (0xff, "SELFDESTRUCT")]

/-- The name of an instruction; bytes without one are not assigned. -/
def name? (op : Opcode) : Option String :=
  let b := op.toNat
  if 0x5f ≤ b ∧ b ≤ 0x7f then some ("PUSH" ++ toString (b - 0x5f))
  else if 0x80 ≤ b ∧ b ≤ 0x8f then some ("DUP" ++ toString (b - 0x7f))
  else if 0x90 ≤ b ∧ b ≤ 0x9f then some ("SWAP" ++ toString (b - 0x8f))
  else if 0xa0 ≤ b ∧ b ≤ 0xa4 then some ("LOG" ++ toString (b - 0xa0))
  else singles.lookup op

/-- Whether the byte is assigned to an instruction. -/
def isAssigned (op : Opcode) : Bool := op.name?.isSome

/-- How many bytes of data follow the instruction in the code. -/
def immediateSize (op : Opcode) : Nat :=
  if 0x60 ≤ op.toNat ∧ op.toNat ≤ 0x7f then op.toNat - 0x5f else 0

/-- Message calls. -/
def isCall (op : Opcode) : Bool := op == 0xf1 || op == 0xf2 || op == 0xf4 || op == 0xfa

/-- Contract creations. -/
def isCreate (op : Opcode) : Bool := op == 0xf0 || op == 0xf5

/-- Whether the instruction may start a frame one call level deeper. -/
def opensFrame (op : Opcode) : Bool := op.isCall || op.isCreate

end Opcode

end TraceTree
