import BcosExecutor.Wasm

namespace BcosExecutor

/-- The costs of `InstructionTable`, by the one-byte code of the instruction. -/
abbrev InstructionTable := UInt8 → UInt32

namespace Instruction

def Unreachable : UInt8 := 0x00
def Nop : UInt8 := 0x01
def Else : UInt8 := 0x05
def Br : UInt8 := 0x0c
def BrIf : UInt8 := 0x0d
def BrTable : UInt8 := 0x0e
def Return : UInt8 := 0x0f
def Call : UInt8 := 0x10
def CallIndirect : UInt8 := 0x11
def Drop : UInt8 := 0x1a
def Select : UInt8 := 0x1b
def LocalGet : UInt8 := 0x20
def LocalSet : UInt8 := 0x21
def LocalTee : UInt8 := 0x22
def GlobalGet : UInt8 := 0x23
def GlobalSet : UInt8 := 0x24
def MemorySize : UInt8 := 0x3f
def I32Const : UInt8 := 0x41
def I64Const : UInt8 := 0x42

end Instruction

/-- The costs set by `GetInstructionTable` in the build without floating point. -/
def instructionCosts : List (UInt8 × UInt32) :=
  -- registers
  [(0x20, 3), (0x21, 3), (0x22, 3), (0x23, 3), (0x24, 3),
  -- memory: the integer loads, the integer stores, memory.size and memory.grow
  (0x28, 3), (0x2c, 3), (0x2d, 3), (0x2e, 3), (0x2f, 3),
  (0x29, 3), (0x30, 3), (0x31, 3), (0x32, 3), (0x33, 3), (0x34, 3), (0x35, 3),
  (0x36, 3), (0x3a, 3), (0x3b, 3), (0x37, 3), (0x3c, 3), (0x3d, 3), (0x3e, 3),
  (0x3f, 3), (0x40, 5 * 64 * 1024),
  -- flow control: unreachable, nop, block, loop, if, else, end, br, br_if, br_table, return
  (0x00, 0), (0x01, 0), (0x02, 0), (0x03, 0), (0x04, 0), (0x05, 2), (0x0b, 0),
  (0x0c, 2), (0x0d, 3), (0x0e, 2), (0x0f, 2),
  -- calls
  (0x10, 3), (0x11, 2),
  -- constants
  (0x41, 0), (0x42, 0),
  -- i32: clz, ctz, popcnt; add, sub, mul, div, rem; and, or, xor; shifts; comparisons
  (0x67, 3), (0x68, 6), (0x69, 3),
  (0x6a, 1), (0x6b, 1), (0x6c, 3), (0x6d, 80), (0x6e, 80), (0x6f, 80), (0x70, 80),
  (0x71, 1), (0x72, 1), (0x73, 1), (0x74, 2), (0x75, 2), (0x76, 2), (0x77, 2), (0x78, 2),
  (0x45, 1), (0x46, 1), (0x47, 1), (0x48, 1), (0x49, 1), (0x4a, 1), (0x4b, 1), (0x4c, 1),
  (0x4d, 1), (0x4e, 1), (0x4f, 1),
  -- i64, in the same order
  (0x79, 3), (0x7a, 6), (0x7b, 3),
  (0x7c, 1), (0x7d, 1), (0x7e, 3), (0x7f, 80), (0x80, 80), (0x81, 80), (0x82, 80),
  (0x83, 1), (0x84, 1), (0x85, 1), (0x86, 2), (0x87, 2), (0x88, 2), (0x89, 2), (0x8a, 2),
  (0x50, 1), (0x51, 1), (0x52, 1), (0x53, 1), (0x54, 1), (0x55, 1), (0x56, 1), (0x57, 1),
  (0x58, 1), (0x59, 1), (0x5a, 1),
  -- conversions: i32.wrap_i64, i64.extend_i32_s, i64.extend_i32_u
  (0xa7, 3), (0xac, 3), (0xad, 3),
  -- drop, select
  (0x1a, 3), (0x1b, 3)]

/-- Every other code of `opcode.def` (`defined`) costs the largest `uint32_t`; the entries of
codes that no opcode has stay zero. -/
def GetInstructionTable (defined : UInt8 → Bool) : InstructionTable := fun code =>
  match instructionCosts.lookup code with
  | some cost => cost
  | none => if defined code then 0xffffffff else 0

end BcosExecutor
