import BcosExecutor.CheckedWords
import BcosExecutor.PrecompiledGas

namespace BcosExecutor

open CheckedWords

namespace PrecompiledGas

open GasMetrics

/-- The steps of `calComputationGas`, with nothing where one of them is no word of 64 bits. -/
def checkedComputationGas (g : PrecompiledGas) : Option Int :=
  g.operationList.foldlM (fun totalGas operation => do
    let product ← signed (OpCode2GasCost operation.1 * operation.2.toNat)
    signed (totalGas + product)) 0

/-- The price of so many units of memory. -/
def checkedUnits (memSize : Nat) : Option Int := do
  let linear ← unsigned (3 * memSize)
  let square ← unsigned (memSize * memSize)
  let total ← unsigned (linear + square / 512)
  signed total

/-- The steps of `calMemGas`. -/
def checkedMemGas (g : PrecompiledGas) : Option Int :=
  if g.memUsed = 0 then some 0
  else do
    let rounded ← unsigned (g.memUsed.toNat + 32)
    checkedUnits ((rounded - 1) / 32)

def checkedTotalGas (g : PrecompiledGas) : Option Int := do
  let computationGas ← g.checkedComputationGas
  let memGas ← g.checkedMemGas
  signed (computationGas + memGas)

theorem OpCode2GasCost_bounds (op : InterfaceOpcode) :
    0 ≤ OpCode2GasCost op ∧ OpCode2GasCost op ≤ 20000 := by
  cases op <;> decide

theorem operation_bounds (operation : InterfaceOpcode × UInt32) :
    0 ≤ OpCode2GasCost operation.1 * operation.2.toNat ∧
      OpCode2GasCost operation.1 * operation.2.toNat ≤ 20000 * 2 ^ 32 := by
  obtain ⟨hnonneg, hle⟩ := OpCode2GasCost_bounds operation.1
  have hsize : (operation.2.toNat : Int) ≤ 2 ^ 32 := by
    have hlt := operation.2.toNat_lt
    omega
  refine ⟨Int.mul_nonneg hnonneg (Int.natCast_nonneg _), ?_⟩
  exact Int.mul_le_mul hle hsize (Int.natCast_nonneg _) (by decide)

variable {g : PrecompiledGas}

/-- A few operations cost what they cost. -/
theorem computationGas_exact (h : g.operationList.length ≤ 2 ^ 10) :
    g.checkedComputationGas = some g.calComputationGas ∧
      0 ≤ g.calComputationGas ∧ g.calComputationGas < 2 ^ 60 := by
  have hlength : (g.operationList.length : Int) * (20000 * 2 ^ 32) < 2 ^ 60 := by omega
  obtain ⟨hchecked, hstored, hnonneg, hle⟩ := foldlM_signed operation_bounds g.operationList 0
    (Int.le_refl 0) (by omega)
  have hgas : g.calComputationGas = 0 + (g.operationList.map fun operation =>
      OpCode2GasCost operation.1 * operation.2.toNat).sum := hstored
  rw [hgas]
  exact ⟨hchecked, by omega, by omega⟩

/-- The units of memory that are paid for. -/
def memUnits (g : PrecompiledGas) : Nat :=
  (g.memUsed.toNat + 31) % 2 ^ 64 / 32

theorem calMemGas_eq (hne : g.memUsed ≠ 0) :
    g.calMemGas = ((3 * g.memUnits + g.memUnits * g.memUnits % 2 ^ 64 / 512 : Nat) : Int) := by
  have hunits : ((g.memUsed + MemUnitSize - 1) / MemUnitSize).toNat = g.memUnits := by
    unfold memUnits MemUnitSize
    have hlt := g.memUsed.toNat_lt
    simp only [UInt64.toNat_div, UInt64.toNat_sub, UInt64.toNat_add]
    show (2 ^ 64 - 1 + (g.memUsed.toNat + 32) % 2 ^ 64) % 2 ^ 64 / 32 = _
    omega
  have hsmall : g.memUnits < 2 ^ 59 := by
    unfold memUnits
    omega
  unfold calMemGas
  rw [if_neg hne]
  dsimp only
  generalize (g.memUsed + MemUnitSize - 1) / MemUnitSize = memSize at hunits
  rw [UInt64.toNat_add, UInt64.toNat_mul, UInt64.toNat_div, UInt64.toNat_mul, hunits]
  show toInt64 (((3 * g.memUnits % 2 ^ 64 + g.memUnits * g.memUnits % 2 ^ 64 / 512) % 2 ^ 64 : Nat)) = _
  have hlinear : 3 * g.memUnits % 2 ^ 64 = 3 * g.memUnits := Nat.mod_eq_of_lt (by omega)
  have hsquare : g.memUnits * g.memUnits % 2 ^ 64 / 512 < 2 ^ 55 := by
    have hlt := Nat.mod_lt (g.memUnits * g.memUnits) (Nat.two_pow_pos 64)
    omega
  rw [hlinear]
  generalize g.memUnits * g.memUnits % 2 ^ 64 / 512 = square at hsquare
  rw [Nat.mod_eq_of_lt (by omega)]
  exact bmod_of_bounds (by omega) (by omega)

theorem calMemGas_bounds (g : PrecompiledGas) : 0 ≤ g.calMemGas ∧ g.calMemGas < 2 ^ 62 := by
  by_cases hne : g.memUsed = 0
  · unfold calMemGas
    rw [if_pos hne]
    decide
  · have hsmall : g.memUnits < 2 ^ 59 := by
      unfold memUnits
      omega
    rw [calMemGas_eq hne]
    generalize g.memUnits * g.memUnits = square
    omega

theorem checkedUnits_of_lt {memSize : Nat} (h : memSize < 2 ^ 32) :
    checkedUnits memSize = some ((3 * memSize + memSize * memSize / 512 : Nat) : Int) := by
  have hle : memSize ≤ 2 ^ 32 - 1 := by omega
  have hsquare : memSize * memSize ≤ (2 ^ 32 - 1) * (2 ^ 32 - 1) := Nat.mul_le_mul hle hle
  unfold checkedUnits
  rw [unsigned_of_lt (n := 3 * memSize) (by omega), Option.bind_eq_bind, Option.bind_some,
    unsigned_of_lt (n := memSize * memSize) (by omega), Option.bind_some,
    unsigned_of_lt (by omega), Option.bind_some]
  exact signed_of_bounds (by omega) (by omega)

theorem checkedUnits_of_le {memSize : Nat} (h : 2 ^ 32 ≤ memSize) : checkedUnits memSize = none := by
  have hsquare : 2 ^ 32 * 2 ^ 32 ≤ memSize * memSize := Nat.mul_le_mul h h
  unfold checkedUnits
  by_cases hlinear : 3 * memSize < 2 ^ 64
  · rw [unsigned_of_lt hlinear, Option.bind_eq_bind, Option.bind_some,
      unsigned_of_le (n := memSize * memSize) (by omega), Option.bind_none]
  · rw [unsigned_of_le (Nat.le_of_not_lt hlinear), Option.bind_eq_bind, Option.bind_none]

/-- The square of the number of units is a word exactly below that many bytes. -/
theorem checkedMemGas_iff (g : PrecompiledGas) :
    g.checkedMemGas = some g.calMemGas ↔ g.memUsed.toNat < 2 ^ 37 - 31 := by
  have hlt := g.memUsed.toNat_lt
  by_cases hne : g.memUsed = 0
  · unfold checkedMemGas calMemGas
    rw [if_pos hne, if_pos hne, hne]
    have hpos : (0 : UInt64).toNat < 2 ^ 37 - 31 := Nat.sub_pos_of_lt (by decide)
    exact iff_of_true rfl hpos
  · unfold checkedMemGas
    rw [if_neg hne]
    by_cases hround : g.memUsed.toNat + 32 < 2 ^ 64
    · have hunits : (g.memUsed.toNat + 32 - 1) / 32 = g.memUnits := by
        unfold memUnits
        omega
      have hchecked : (unsigned (g.memUsed.toNat + 32) >>= fun rounded =>
          checkedUnits ((rounded - 1) / 32)) = checkedUnits g.memUnits := by
        rw [unsigned_of_lt hround, Option.bind_eq_bind, Option.bind_some, hunits]
      rw [hchecked, calMemGas_eq hne]
      by_cases hsmall : g.memUnits < 2 ^ 32
      · have hle : g.memUnits ≤ 2 ^ 32 - 1 := by omega
        have hsquare : g.memUnits * g.memUnits ≤ (2 ^ 32 - 1) * (2 ^ 32 - 1) :=
          Nat.mul_le_mul hle hle
        rw [checkedUnits_of_lt hsmall, Nat.mod_eq_of_lt (by omega)]
        exact iff_of_true rfl (by omega)
      · rw [checkedUnits_of_le (Nat.le_of_not_lt hsmall)]
        exact iff_of_false nofun (by omega)
    · rw [unsigned_of_le (Nat.le_of_not_lt hround), Option.bind_eq_bind, Option.bind_none]
      exact iff_of_false nofun (by omega)

/-- No step of the price of a few operations is lost, unless the memory is too large. -/
theorem checkedTotalGas_iff (h : g.operationList.length ≤ 2 ^ 10) :
    g.checkedTotalGas = some g.calTotalGas ↔ g.memUsed.toNat < 2 ^ 37 - 31 := by
  obtain ⟨hcomputation, hnonneg, hlt⟩ := computationGas_exact h
  obtain ⟨hmem, hmemlt⟩ := calMemGas_bounds g
  have htotal : g.calTotalGas = g.calComputationGas + g.calMemGas :=
    bmod_of_bounds (by omega) (by omega)
  rw [← checkedMemGas_iff]
  unfold checkedTotalGas
  rw [hcomputation]
  show (g.checkedMemGas >>= fun memGas => signed (g.calComputationGas + memGas)) = _ ↔ _
  cases hchecked : g.checkedMemGas with
  | none => exact iff_of_false nofun nofun
  | some memGas =>
    show signed (g.calComputationGas + memGas) = _ ↔ _
    rw [htotal]
    constructor
    · intro heq
      unfold signed at heq
      split at heq
      · have hsum := Option.some.inj heq
        exact congrArg some (by omega)
      · cases heq
    · intro heq
      rw [Option.some.inj heq]
      exact signed_of_bounds (by omega) (by omega)

theorem calTotalGas_nonneg (h : g.operationList.length ≤ 2 ^ 10) : 0 ≤ g.calTotalGas := by
  obtain ⟨_, hnonneg, hlt⟩ := computationGas_exact h
  obtain ⟨hmem, hmemlt⟩ := calMemGas_bounds g
  have htotal : g.calTotalGas = g.calComputationGas + g.calMemGas :=
    bmod_of_bounds (by omega) (by omega)
  omega

theorem calTotalGas_lt (h : g.operationList.length ≤ 2 ^ 10) : g.calTotalGas < 2 ^ 63 := by
  obtain ⟨_, hnonneg, hlt⟩ := computationGas_exact h
  obtain ⟨hmem, hmemlt⟩ := calMemGas_bounds g
  have htotal : g.calTotalGas = g.calComputationGas + g.calMemGas :=
    bmod_of_bounds (by omega) (by omega)
  omega

end PrecompiledGas

/-- What a contract does with the pricer of a call. -/
inductive PricerStep
  | setMemUsed (memUsed : UInt64)
  | updateMemUsed (newMemSize : UInt64)
  | appendOperation (opType : InterfaceOpcode) (opSize : UInt32)
  deriving DecidableEq, Repr

namespace PricerStep

def apply (g : PrecompiledGas) : PricerStep → PrecompiledGas
  | .setMemUsed memUsed => g.setMemUsed memUsed
  | .updateMemUsed newMemSize => g.updateMemUsed newMemSize
  | .appendOperation opType opSize => g.appendOperation opType opSize

def run (steps : List PricerStep) : PrecompiledGas :=
  steps.foldl apply {}

/-- Every size that the pricer is told is below the bound. -/
def Below (bound : Nat) : PricerStep → Prop
  | .setMemUsed n | .updateMemUsed n => n.toNat < bound
  | .appendOperation _ _ => True

theorem run_operationList_le (steps : List PricerStep) :
    (run steps).operationList.length ≤ steps.length := by
  have hfold (g : PrecompiledGas) : (steps.foldl apply g).operationList.length ≤
      g.operationList.length + steps.length := by
    induction steps generalizing g with
    | nil => exact Nat.le_refl _
    | cons step steps ih =>
      have hstep : (apply g step).operationList.length ≤ g.operationList.length + 1 := by
        cases step with
        | setMemUsed n => exact Nat.le_succ _
        | updateMemUsed n =>
          show (g.updateMemUsed n).operationList.length ≤ _
          unfold PrecompiledGas.updateMemUsed
          split
          · exact Nat.le_succ _
          · exact Nat.le_succ _
        | appendOperation opType opSize =>
          show (g.operationList ++ [(opType, opSize)]).length ≤ _
          rw [List.length_append]
          exact Nat.le_refl _
      have hrest := ih (apply g step)
      rw [List.foldl_cons, List.length_cons]
      omega
  have h := hfold {}
  rw [show ({} : PrecompiledGas).operationList.length = 0 from rfl, Nat.zero_add] at h
  exact h

theorem run_memUsed_lt {bound : Nat} (hpos : 0 < bound) {steps : List PricerStep}
    (h : ∀ step ∈ steps, step.Below bound) : (run steps).memUsed.toNat < bound := by
  have hfold (g : PrecompiledGas) (hg : g.memUsed.toNat < bound) :
      (steps.foldl apply g).memUsed.toNat < bound := by
    induction steps generalizing g with
    | nil => exact hg
    | cons step steps ih =>
      have hstep := h step List.mem_cons_self
      refine ih (fun step' hmem => h step' (List.mem_cons_of_mem _ hmem)) (apply g step) ?_
      cases step with
      | setMemUsed n => exact hstep
      | updateMemUsed n =>
        show (g.updateMemUsed n).memUsed.toNat < bound
        unfold PrecompiledGas.updateMemUsed
        split
        · exact hstep
        · exact hg
      | appendOperation opType opSize => exact hg
  exact hfold {} hpos

end PricerStep

/-- The paths of the registered contracts from the start of a call to its last update. -/
inductive PricedCall
  | makeDir (validPath : Bool)
  | listDir (validPath : Bool)
  | createKVTable (created : Bool)
  | getKV (entry : Option UInt64)
  | setKV (entry : UInt64)
  | descKV
  | crypto
  | insertCNS (validParams present : Bool)
  | selectCNS (cnsInfos : Option UInt32)
  | getAuth
  | setAuth (done : Bool)
  | checkAuth
  | systemConfig
  | consensus
  | parallelConfig
  | dagTransfer
  | undefinedFunction
  deriving DecidableEq, Repr

namespace PricedCall

/-- The contracts that do not start with the size of the parameters. -/
def skipsParam : PricedCall → Bool
  | systemConfig | consensus | parallelConfig | dagTransfer => true
  | _ => false

def steps : PricedCall → List PricerStep
  | makeDir validPath | listDir validPath =>
    if validPath then [.appendOperation .OpenTable 1] else []
  | createKVTable created =>
    .appendOperation .OpenTable 1 :: if created then [.appendOperation .CreateTable 1] else []
  | getKV none => [.appendOperation .Select 1]
  | getKV (some entry) => [.appendOperation .Select 1, .updateMemUsed entry]
  | setKV entry => [.setMemUsed entry, .appendOperation .Insert 1]
  | descKV => [.appendOperation .OpenTable 1]
  | insertCNS false _ => []
  | insertCNS true true => [.appendOperation .OpenTable 1, .appendOperation .Select 1]
  | insertCNS true false =>
    [.appendOperation .OpenTable 1, .updateMemUsed 1, .appendOperation .Insert 1]
  | selectCNS none => [.appendOperation .OpenTable 1]
  | selectCNS (some cnsInfos) => [.appendOperation .OpenTable 1, .appendOperation .Select cnsInfos]
  | getAuth => [.updateMemUsed 1]
  | setAuth done => if done then [.updateMemUsed 1, .appendOperation .Set 1] else []
  | crypto | checkAuth | systemConfig | consensus | parallelConfig | dagTransfer
  | undefinedFunction => []

/-- The pricer at the end of a call, from the sizes of the parameters and of the result. -/
def pricer (call : PricedCall) (param execResult : UInt64) : PrecompiledGas :=
  PricerStep.run ((if call.skipsParam then [] else [.setMemUsed param]) ++ call.steps ++
    [.updateMemUsed execResult])

/-- The size of an entry that the call reads or writes is below the bound. -/
def EntryBelow (bound : Nat) : PricedCall → Prop
  | getKV (some entry) | setKV entry => entry.toNat < bound
  | _ => True

theorem steps_length_le (call : PricedCall) : call.steps.length ≤ 3 := by
  cases call with
  | makeDir validPath | listDir validPath | createKVTable validPath | setAuth validPath =>
    cases validPath <;> decide
  | getKV entry => cases entry <;> exact Nat.le_of_ble_eq_true rfl
  | selectCNS cnsInfos => cases cnsInfos <;> exact Nat.le_of_ble_eq_true rfl
  | insertCNS validParams present => cases validParams <;> cases present <;> decide
  | setKV entry => exact Nat.le_of_ble_eq_true rfl
  | _ => decide

theorem pricer_operationList_le (call : PricedCall) (param execResult : UInt64) :
    (call.pricer param execResult).operationList.length ≤ 2 ^ 10 := by
  have hsteps := call.steps_length_le
  refine Nat.le_trans (PricerStep.run_operationList_le _) ?_
  rw [List.length_append, List.length_append]
  split
  · show 0 + call.steps.length + 1 ≤ _
    omega
  · show 1 + call.steps.length + 1 ≤ _
    omega

theorem steps_below {bound : Nat} (hone : 1 < bound) {call : PricedCall}
    (h : call.EntryBelow bound) : ∀ step ∈ call.steps, step.Below bound := by
  cases call with
  | makeDir done | listDir done | createKVTable done | setAuth done =>
    cases done <;> simp [steps, PricerStep.Below, hone]
  | getKV entry =>
    cases entry with
    | none => simp [steps, PricerStep.Below]
    | some entry =>
      have hentry : entry.toNat < bound := h
      simpa [steps, PricerStep.Below] using hentry
  | setKV entry =>
    have hentry : entry.toNat < bound := h
    simpa [steps, PricerStep.Below] using hentry
  | insertCNS validParams present =>
    cases validParams <;> cases present <;> simp [steps, PricerStep.Below, hone]
  | selectCNS cnsInfos => cases cnsInfos <;> simp [steps, PricerStep.Below]
  | _ => simp [steps, PricerStep.Below, hone]

theorem pricer_memUsed_lt {bound : Nat} (hone : 1 < bound) {call : PricedCall}
    (h : call.EntryBelow bound) {param execResult : UInt64} (hparam : param.toNat < bound)
    (hresult : execResult.toNat < bound) :
    (call.pricer param execResult).memUsed.toNat < bound := by
  refine PricerStep.run_memUsed_lt (Nat.lt_trans Nat.zero_lt_one hone) fun step hmem => ?_
  rcases List.mem_append.mp hmem with hmem | hmem
  · rcases List.mem_append.mp hmem with hmem | hmem
    · split at hmem
      · cases hmem
      · rw [List.mem_singleton.mp hmem]
        exact hparam
    · exact steps_below hone h step hmem
  · rw [List.mem_singleton.mp hmem]
    exact hresult

/-- The price of a call is no negative number, whatever the sizes. -/
theorem gas_nonneg (call : PricedCall) (param execResult : UInt64) :
    0 ≤ (call.pricer param execResult).calTotalGas :=
  PrecompiledGas.calTotalGas_nonneg (call.pricer_operationList_le param execResult)

/-- No step of the price is lost while every size is below the bound. -/
theorem gas_checked {call : PricedCall} (h : call.EntryBelow (2 ^ 37 - 31))
    {param execResult : UInt64} (hparam : param.toNat < 2 ^ 37 - 31)
    (hresult : execResult.toNat < 2 ^ 37 - 31) :
    (call.pricer param execResult).checkedTotalGas =
      some (call.pricer param execResult).calTotalGas :=
  (PrecompiledGas.checkedTotalGas_iff (call.pricer_operationList_le param execResult)).mpr
    (pricer_memUsed_lt (Nat.lt_sub_of_add_lt (by decide)) h hparam hresult)

end PricedCall

end BcosExecutor
