import BcosExecutor.StateStorage
import Mathlib.Algebra.Group.Nat.Defs

namespace BcosExecutor

inductive TransactionStatus
  | none | unknown | outOfGasLimit | notEnoughCash | badInstruction | badJumpDestination
  | outOfGas | outOfStack | stackUnderflow | contractAddressAlreadyUsed | precompiledError
  | revertInstruction | permissionDenied | callAddressError | gasOverflow | contractFrozen
  | accountFrozen | wasmValidationFailure | wasmTrap | wasmArgumentOutOfRange
  | wasmUnreachableInstruction
  deriving DecidableEq, Repr

inductive CallParameters.Kind
  | message | keyLock | finished | revert
  deriving DecidableEq, Repr

structure LogEntry where
  address : Bytes
  topics : List Bytes
  data : Bytes
  deriving DecidableEq, Repr

structure CallParameters where
  contextID : Int := 0
  seq : Int := 0
  senderAddress : String := ""
  codeAddress : String := ""
  receiveAddress : String := ""
  origin : String := ""
  gas : Int := 0
  data : Bytes := []
  keyLocks : List String := []
  acquireKeyLock : String := ""
  message : String := ""
  logEntries : List LogEntry := []
  createSalt : Option Nat := Option.none
  newEVMContractAddress : String := ""
  status : TransactionStatus := .none
  type : CallParameters.Kind
  staticCall : Bool := false
  create : Bool := false
  deriving DecidableEq, Repr

/-- The status codes that the executive tells apart; every other code is `other`. -/
inductive EvmcStatus
  | success | revert | outOfGas | failure | invalidInstruction | undefinedInstruction
  | badJumpDestination | stackOverflow | stackUnderflow | invalidMemoryAccess
  | staticModeViolation | contractValidationFailure | argumentOutOfRange
  | wasmUnreachableInstruction | other (code : Int)
  deriving DecidableEq, Repr

/-- What a run of a virtual machine hands back. -/
structure Result where
  status : EvmcStatus
  gasLeft : Int
  output : Bytes
  deriving DecidableEq, Repr

structure PrecompiledExecResult where
  execResult : Bytes
  gas : Int
  deriving DecidableEq, Repr

/-- The exceptions that the catch clauses tell apart, with what they read of them. -/
inductive Exc
  | permissionDenied
  | precompiledError (comment : Option String)
  | outOfGas
  | error (errorCode : Int) (errorMessage : String)
  | internalVMError
  | exception (status : TransactionStatus) (what : String)
  | stdException (what : String)
  deriving DecidableEq, Repr

def Exc.toTransactionStatus : Exc → TransactionStatus
  | .permissionDenied => .permissionDenied
  | .precompiledError _ => .precompiledError
  | .outOfGas => .outOfGas
  | .exception status _ => status
  | .error _ _ | .internalVMError | .stdException _ => .unknown

def Exc.what : Exc → String
  | .error _ errorMessage => errorMessage
  | .exception _ what | .stdException what => what
  | .permissionDenied | .precompiledError _ | .outOfGas | .internalVMError => ""

structure EVMSchedule where
  exceptionalFailedCodeDeposit : Bool := true
  createDataGas : Nat := 20
  maxCodeSize : Nat := 2 ^ 32 - 1

def FiscoBcosScheduleV3 : EVMSchedule where
  maxCodeSize := 0x40000

/-- The value of a sum of 64-bit integers that is stored as `int64_t`. -/
def toInt64 (n : Int) : Int :=
  n.bmod (2 ^ 64)

end BcosExecutor
