import BcosExecutor.InjectMeter

namespace BcosExecutor

open GasInjector

namespace Module

/-- No instruction of the contract, in a body, an initialiser or the offset of a segment, has an
operand that denotes a global imported as the gas counter. -/
structure GasIsolated (marked : Module Metered) : Prop where
  bodies : ∀ i ∈ (marked.mapBodies Metered.original).bodyOperands Instr.globalOperand,
    ¬ marked.IsImport (marked.globalEntity i) .global GLOBAL_GAS_NAME
  inits : ∀ i ∈ marked.initOperands Instr.globalOperand,
    ¬ marked.IsImport (marked.globalEntity i) .global GLOBAL_GAS_NAME

/-- No operand in a body is the 32-bit predecessor of an index of the gas counter, and no other
operand is such an index. -/
structure AvoidsGas (m : Module ExprList) : Prop where
  bodies : ∀ i ∈ m.bodyOperands Instr.globalOperand, ¬ m.DenotesGas (i + 1)
  inits : ∀ i ∈ m.initOperands Instr.globalOperand, ¬ m.DenotesGas i

end Module

section
variable {table : InstructionTable} {m : Module ExprList} {out : Module Metered}

theorem gasIsolated_iff (h : meterModule table m = .success out) :
    out.GasIsolated ↔ m.AvoidsGas := by
  obtain ⟨_, _, _, _, _, _, hinits⟩ := meterModule_output h
  have hinit : out.initOperands Instr.globalOperand = m.initOperands Instr.globalOperand := by
    rw [hinits, initOperands_prepare]
  have hbody : (∀ i ∈ (out.mapBodies Metered.original).bodyOperands Instr.globalOperand,
      ¬ out.IsImport (out.globalEntity i) .global GLOBAL_GAS_NAME) ↔
      ∀ i ∈ m.bodyOperands Instr.globalOperand, ¬ m.DenotesGas (i + 1) := by
    rw [bodyGlobals_marked h, List.forall_mem_map]
    simp only [isImport_gas_at_iff h]
  have hother : (∀ i ∈ out.initOperands Instr.globalOperand,
      ¬ out.IsImport (out.globalEntity i) .global GLOBAL_GAS_NAME) ↔
      ∀ i ∈ m.initOperands Instr.globalOperand, ¬ m.DenotesGas i := by
    rw [hinit]
    simp only [isImport_gas_at_iff h]
  constructor
  · intro hg
    exact ⟨hbody.mp hg.bodies, hother.mp hg.inits⟩
  · intro ha
    exact ⟨hbody.mpr ha.bodies, hother.mpr ha.inits⟩

end

/-- Only inserted instructions refer to the gas counter, exactly for the modules that avoid it. -/
theorem injectMeter_gasIsolated (table : InstructionTable) (m : Module ExprList)
    {out : Module ExprList} (h : injectMeter table m = .success out) :
    ∃ marked, meterModule table m = .success marked ∧
      out = marked.mapBodies (Metered.emit (importsInfo m)) ∧
      (marked.GasIsolated ↔ m.AvoidsGas) := by
  obtain ⟨marked, hm, rfl⟩ := meterModule_of_injectMeter h
  exact ⟨marked, hm, rfl, gasIsolated_iff hm⟩

/-- A module without imports whose function stores a constant in a global. -/
def storeModule (index : UInt32) : Module ExprList where
  types := [some ⟨[], []⟩]
  imports := []
  funcs := [⟨0, [], .instr (.const .i64 1000) (.instr (.globalSet index) .nil)⟩]
  globals := [⟨.i64, true, .instr (.const .i64 0) .nil⟩]
  memories := [⟨1, 0, false⟩]
  exports := [⟨"main", .func, 0⟩]
  elemSegments := []
  dataOffsets := []
  starts := []

theorem injectMeter_gasIsolated_store : ∃ marked,
    meterModule (GetInstructionTable fun _ => false) (storeModule 0) = .success marked ∧
      marked.GasIsolated := by
  obtain ⟨out, hout⟩ : ∃ out, injectMeter (GetInstructionTable fun _ => false)
    (storeModule 0) = .success out := ⟨_, rfl⟩
  obtain ⟨marked, hm, _, hiff⟩ := injectMeter_gasIsolated _ (storeModule 0) hout
  refine ⟨marked, hm, hiff.mpr ⟨?_, ?_⟩⟩
  · intro i hi hgas
    obtain rfl : i = 0 := by
      simpa [storeModule, Module.bodyOperands, ExprList.operands, Instr.globalOperand] using hi
    rcases hgas with hgas | ⟨n, x, hn, _⟩
    · revert hgas
      decide
    · revert hn
      simp [Module.globalEntity, storeModule, positions, entity]
  · simp [storeModule, Module.initOperands, ExprList.operands, Instr.globalOperand]

/-- The largest index is shifted to zero, and the contract sets the gas that it has left. -/
theorem not_gasIsolated_store : ∃ marked,
    meterModule (GetInstructionTable fun _ => false) (storeModule 0xffffffff) = .success marked ∧
      ¬ marked.GasIsolated := by
  refine ⟨_, rfl, fun hg => ?_⟩
  exact hg.bodies 0 (List.mem_singleton_self _) ⟨1, _, rfl, rfl, rfl, rfl, rfl⟩

end BcosExecutor
