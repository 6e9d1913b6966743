/-!
This module contains the instructions of the host machine and the two dialects of the language.
-/

namespace Splice

structure Instruction where
  name : String
  arguments : Nat
  returns : Nat
  /--
  It only computes a value from its arguments and from what no instruction can change.
  -/
  movable : Bool
deriving DecidableEq, Repr

namespace Instruction

/--
The instructions of the host machine. Whatever reads memory, storage, balances, the code of other
accounts, the data of the last return, the gas, the program counter or the size of the memory is not
movable: another computation can change its result.
-/
def all : List Instruction := [
    ⟨"stop", 0, 0, false⟩,
    -- Arithmetic
    ⟨"add", 2, 1, true⟩,
    ⟨"mul", 2, 1, true⟩,
    ⟨"sub", 2, 1, true⟩,
    ⟨"div", 2, 1, true⟩,
    ⟨"sdiv", 2, 1, true⟩,
    ⟨"mod", 2, 1, true⟩,
    ⟨"smod", 2, 1, true⟩,
    ⟨"addmod", 3, 1, true⟩,
    ⟨"mulmod", 3, 1, true⟩,
    ⟨"exp", 2, 1, true⟩,
    ⟨"signextend", 2, 1, true⟩,
    -- Comparison and bitwise logic
    ⟨"lt", 2, 1, true⟩,
    ⟨"gt", 2, 1, true⟩,
    ⟨"slt", 2, 1, true⟩,
    ⟨"sgt", 2, 1, true⟩,
    ⟨"eq", 2, 1, true⟩,
    ⟨"iszero", 1, 1, true⟩,
    ⟨"and", 2, 1, true⟩,
    ⟨"or", 2, 1, true⟩,
    ⟨"xor", 2, 1, true⟩,
    ⟨"not", 1, 1, true⟩,
    ⟨"byte", 2, 1, true⟩,
    ⟨"shl", 2, 1, true⟩,
    ⟨"shr", 2, 1, true⟩,
    ⟨"sar", 2, 1, true⟩,
    ⟨"keccak256", 2, 1, false⟩,
    -- Environment
    ⟨"address", 0, 1, true⟩,
    ⟨"balance", 1, 1, false⟩,
    ⟨"origin", 0, 1, true⟩,
    ⟨"caller", 0, 1, true⟩,
    ⟨"callvalue", 0, 1, true⟩,
    ⟨"calldataload", 1, 1, true⟩,
    ⟨"calldatasize", 0, 1, true⟩,
    ⟨"calldatacopy", 3, 0, false⟩,
    ⟨"codesize", 0, 1, true⟩,
    ⟨"codecopy", 3, 0, false⟩,
    ⟨"gasprice", 0, 1, true⟩,
    ⟨"extcodesize", 1, 1, false⟩,
    ⟨"extcodecopy", 4, 0, false⟩,
    ⟨"extcodehash", 1, 1, false⟩,
    ⟨"returndatasize", 0, 1, false⟩,
    ⟨"returndatacopy", 3, 0, false⟩,
    -- Block information
    ⟨"blockhash", 1, 1, true⟩,
    ⟨"coinbase", 0, 1, true⟩,
    ⟨"timestamp", 0, 1, true⟩,
    ⟨"number", 0, 1, true⟩,
    ⟨"difficulty", 0, 1, true⟩,
    ⟨"gaslimit", 0, 1, true⟩,
    -- Memory, storage and flow
    ⟨"pop", 1, 0, false⟩,
    ⟨"mload", 1, 1, false⟩,
    ⟨"mstore", 2, 0, false⟩,
    ⟨"mstore8", 2, 0, false⟩,
    ⟨"sload", 1, 1, false⟩,
    ⟨"sstore", 2, 0, false⟩,
    ⟨"pc", 0, 1, false⟩,
    ⟨"msize", 0, 1, false⟩,
    ⟨"gas", 0, 1, false⟩,
    -- Logging
    ⟨"log0", 2, 0, false⟩,
    ⟨"log1", 3, 0, false⟩,
    ⟨"log2", 4, 0, false⟩,
    ⟨"log3", 5, 0, false⟩,
    ⟨"log4", 6, 0, false⟩,
    -- System
    ⟨"create", 3, 1, false⟩,
    ⟨"create2", 4, 1, false⟩,
    ⟨"call", 7, 1, false⟩,
    ⟨"callcode", 7, 1, false⟩,
    ⟨"delegatecall", 6, 1, false⟩,
    ⟨"staticcall", 6, 1, false⟩,
    ⟨"return", 2, 0, false⟩,
    ⟨"revert", 2, 0, false⟩,
    ⟨"selfdestruct", 1, 0, false⟩,
    ⟨"invalid", 0, 0, false⟩]

def find? (name : String) : Option Instruction :=
  all.find? fun instruction => instruction.name = name

def isName (name : String) : Bool :=
  (find? name).isSome

end Instruction

inductive Dialect where
  | typed
  /--
  There are no types, and there are stack forms: labels, assignments from the stack and bare
  instructions.
  -/
  | loose
deriving DecidableEq, Repr

namespace Dialect

def types : Dialect → Bool
  | .typed => true
  | .loose => false

def stackForms : Dialect → Bool
  | .typed => false
  | .loose => true

def defaultType : Dialect → Option String
  | .typed => some "u256"
  | .loose => none

end Dialect
end Splice
