import BcosExecutor.CallParameters

namespace BcosExecutor

inductive InterfaceOpcode
  | EQ | GE | GT | LE | LT | NE | Limit | GetInt | GetAddr | Set | GetByte32 | GetByte64
  | GetString | CreateTable | OpenTable | Select | Insert | Update | Remove | PaillierAdd
  | GroupSigVerify | RingSigVerify
  deriving DecidableEq, Repr

namespace GasMetrics

def VeryLow : Int := 3

def CreateGas : Int := 16000

def LoadGas : Int := 200

def StoreGas : Int := 10000

def RemoveGas : Int := 2500

def VerifyGas : Int := 20000

def MemGas : UInt64 := 3

def MemUnitSize : UInt64 := 32

def OpCode2GasCost : InterfaceOpcode → Int
  | .EQ | .GE | .GT | .LE | .LT | .NE | .Limit | .GetInt | .GetAddr | .Set | .GetString => VeryLow
  | .GetByte32 => 32 * VeryLow
  | .GetByte64 => 64 * VeryLow
  | .CreateTable => CreateGas
  | .OpenTable | .Select => LoadGas
  | .Insert | .Update => StoreGas
  | .Remove => RemoveGas
  | .PaillierAdd | .GroupSigVerify | .RingSigVerify => VerifyGas

end GasMetrics

structure PrecompiledGas where
  operationList : List (InterfaceOpcode × UInt32) := []
  memUsed : UInt64 := 0

namespace PrecompiledGas

open GasMetrics

def appendOperation (g : PrecompiledGas) (opType : InterfaceOpcode) (opSize : UInt32 := 1) :
    PrecompiledGas :=
  { g with operationList := g.operationList ++ [(opType, opSize)] }

def setMemUsed (g : PrecompiledGas) (memUsed : UInt64) : PrecompiledGas :=
  { g with memUsed }

def updateMemUsed (g : PrecompiledGas) (newMemSize : UInt64) : PrecompiledGas :=
  if g.memUsed < newMemSize then { g with memUsed := newMemSize } else g

/-- Every product and every sum is stored as `int64_t`. -/
def calComputationGas (g : PrecompiledGas) : Int :=
  g.operationList.foldl (fun totalGas (opType, opSize) =>
    toInt64 (totalGas + toInt64 (OpCode2GasCost opType * opSize.toNat))) 0

/-- The sizes are unsigned until the result is returned as `int64_t`. -/
def calMemGas (g : PrecompiledGas) : Int :=
  if g.memUsed = 0 then 0
  else
    let memSize := (g.memUsed + MemUnitSize - 1) / MemUnitSize
    toInt64 (MemGas * memSize + memSize * memSize / 512).toNat

def calTotalGas (g : PrecompiledGas) : Int :=
  toInt64 (g.calComputationGas + g.calMemGas)

end PrecompiledGas

end BcosExecutor
