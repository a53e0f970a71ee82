import BcosExecutor.InjectedModule
import BcosExecutor.MeterPreserved

namespace BcosExecutor

open GasInjector Halting

/-- The gas that is there when a call has come to a stop. -/
def WasmStop.gasLeft {ρ : Type} (gas : UInt32) : WasmStop ρ → Nat
  | .done s => s.gasLeft gas
  | .trap | .outOfGas => 0

namespace WasmHost

variable {ρ : Type} {host host' : WasmHost ρ} {table : InstructionTable} {gas : UInt32}
  {plain funcs : UInt32 → Option Metered} {bound : Nat} {c c' o : WasmConfig ρ}

end WasmHost

open WasmHost

/-- A call of a function comes to a stop after instructions of this cost. -/
def Module.Costs {ρ : Type} (table : InstructionTable) (host : WasmHost ρ) (m : Module ExprList)
    (index : UInt32) (s : WasmStore ρ) (n : Nat) (r : WasmStop ρ) : Prop :=
  Halting.Costs (host.step 0 (m.code ExprList.plain)) (fun c => c.cur.headCost table)
    ⟨.instr (.call index) .nil, [], s⟩ n r

/-- A module without imports whose function has a difference for an answer. -/
def subModule : ReadModule :=
  { spinModule with
    types := [some ⟨[], [.i64]⟩]
    funcs := [⟨0, [], .instr (.const .i64 5) (.instr (.const .i64 3)
      (.instr (.binary I64Sub) .nil))⟩] }

end BcosExecutor
