import BcosExecutor.Halting
import BcosExecutor.MeterSegments
import BcosExecutor.MeterStack

namespace BcosExecutor

/-- A machine with all that a contract has besides: locals, memories, what the host keeps. -/
structure WasmStore (ρ : Type) where
  machine : Machine
  rest : ρ

/-- A branch to a label keeps as many values on top of a stack of the height. -/
structure Label where
  arity : Nat
  height : Nat

/-- What is left to do when the current list ends. -/
inductive Control
  | block (label : Label) (rest : Metered)
  | loop (label : Label) (body rest : Metered)
  | function (index : UInt32) (rest : Metered)

inductive WasmStop (ρ : Type)
  | done (s : WasmStore ρ)
  | trap
  | outOfGas

/-- What the virtual machine makes of the instructions that are no control (nothing comes back from
a trap), and of the imported functions. -/
structure WasmHost (ρ : Type) where
  exec : Instr → WasmStore ρ → Option (WasmStore ρ)
  resolve : UInt32 → UInt32 → WasmStore ρ → Option (UInt32 × WasmStore ρ)
  external : UInt32 → WasmStore ρ → WasmStop ρ
  enter : UInt32 → WasmStore ρ → Option (WasmStore ρ)
  leave : UInt32 → WasmStore ρ → Option (WasmStore ρ)

structure WasmConfig (ρ : Type) where
  cur : Metered
  controls : List Control
  store : WasmStore ρ

abbrev WasmTurn (ρ : Type) := WasmConfig ρ ⊕ WasmStop ρ

namespace WasmStore

variable {ρ : Type}

def withStack (s : WasmStore ρ) (stack : List Value) : WasmStore ρ :=
  { s with machine := { s.machine with stack := stack } }

def cut (s : WasmStore ρ) (label : Label) : WasmStore ρ :=
  s.withStack (s.machine.stack.take label.arity ++
    s.machine.stack.drop (s.machine.stack.length - label.height))

def popI32 (s : WasmStore ρ) : Option (BitVec 32 × WasmStore ρ) :=
  match s.machine.stack with
  | .i32 v :: stack => some (v, s.withStack stack)
  | _ => none

def setGas (s : WasmStore ρ) (gas : UInt32) (left : BitVec 64) : WasmStore ρ :=
  { s with machine := { s.machine with
      globals := Function.update s.machine.globals gas (.i64 left) } }

/-- The label of a block or a loop that is entered. -/
def label (s : WasmStore ρ) (arity params : Nat) : Label :=
  ⟨arity, s.machine.stack.length - params⟩

end WasmStore

namespace WasmHost

variable {ρ : Type} (host : WasmHost ρ)

def proceed (cur : Metered) (controls : List Control) : Option (WasmStore ρ) → WasmTurn ρ
  | some s => .inl ⟨cur, controls, s⟩
  | none => .inr .trap

def resume (cur : Metered) (controls : List Control) : WasmStop ρ → WasmTurn ρ
  | .done s => .inl ⟨cur, controls, s⟩
  | r => .inr r

def jump : Nat → List Control → WasmStore ρ → WasmTurn ρ
  | _, [], s => .inr (.done s)
  | 0, .block label rest :: controls, s => .inl ⟨rest, controls, s.cut label⟩
  | 0, .loop label body rest :: controls, s =>
    .inl ⟨body, .loop label body rest :: controls, s.cut label⟩
  | n + 1, .block _ _ :: controls, s | n + 1, .loop _ _ _ :: controls, s => jump n controls s
  | _, .function index rest :: controls, s => proceed rest controls (host.leave index s)

def returns : List Control → WasmStore ρ → WasmTurn ρ
  | [], s => .inr (.done s)
  | .block _ _ :: controls, s | .loop _ _ _ :: controls, s => returns controls s
  | .function index rest :: controls, s => proceed rest controls (host.leave index s)

/-- The end of a list. -/
def leaves : List Control → WasmStore ρ → WasmTurn ρ
  | [], s => .inr (.done s)
  | .block _ rest :: controls, s | .loop _ _ rest :: controls, s => .inl ⟨rest, controls, s⟩
  | .function index rest :: controls, s => proceed rest controls (host.leave index s)

section

variable (gas : UInt32) (funcs : UInt32 → Option Metered)

/-- What has no body is imported. -/
def invoke (index : UInt32) (rest : Metered) (controls : List Control) (s : WasmStore ρ) :
    WasmTurn ρ :=
  match funcs index with
  | some body => proceed body (.function index rest :: controls) (host.enter index s)
  | none => resume rest controls (host.external index s)

def instrTurn (i : Instr) (rest : Metered) (controls : List Control) (s : WasmStore ρ) :
    WasmTurn ρ :=
  match i with
  | .br label => host.jump label controls s
  | .brIf label =>
    match s.popI32 with
    | some (v, s) => if v ≠ 0 then host.jump label controls s else .inl ⟨rest, controls, s⟩
    | none => .inr .trap
  | .brTable targets defaultTarget =>
    match s.popI32 with
    | some (v, s) => host.jump (targets.getD v.toNat defaultTarget) controls s
    | none => .inr .trap
  | .return => host.returns controls s
  | .unreachable => .inr .trap
  | .call index => host.invoke funcs index rest controls s
  | .callIndirect type table =>
    match host.resolve type table s with
    | some (index, s) => host.invoke funcs index rest controls s
    | none => .inr .trap
  | i => proceed rest controls (host.exec i s)

/-- A charge takes its cost off the gas counter and stops when what is left is not positive. -/
def chargeTurn (cost : Nat) (rest : Metered) (controls : List Control) (s : WasmStore ρ) :
    WasmTurn ρ :=
  match s.machine.globals gas with
  | .i64 left =>
    let left := left - BitVec.ofNat 64 cost
    if left.sle 0 then .inr .outOfGas else .inl ⟨rest, controls, s.setGas gas left⟩
  | .i32 _ => .inr .trap

/-- One step, with the global that counts the gas and the bodies of the functions. -/
def step (c : WasmConfig ρ) : WasmTurn ρ :=
  match c.cur with
  | .nil => host.leaves c.controls c.store
  | .charge cost rest => chargeTurn gas cost rest c.controls c.store
  | .instr i rest => host.instrTurn funcs i rest c.controls c.store
  | .block sig body rest =>
    let label := c.store.label sig.resultTypes.length sig.paramTypes.length
    .inl ⟨body, .block label rest :: c.controls, c.store⟩
  | .loop sig body rest =>
    let label := c.store.label sig.paramTypes.length sig.paramTypes.length
    .inl ⟨body, .loop label body rest :: c.controls, c.store⟩
  | .ifElse sig true_ false_ rest =>
    match c.store.popI32 with
    | some (v, s) =>
      let label := s.label sig.resultTypes.length sig.paramTypes.length
      .inl ⟨if v ≠ 0 then true_ else false_, .block label rest :: c.controls, s⟩
    | none => .inr .trap

end

end WasmHost

/-- A list without charges. -/
def ExprList.plain : ExprList → Metered
  | nil => .nil
  | instr i rest => .instr i rest.plain
  | block sig body rest => .block sig body.plain rest.plain
  | loop sig body rest => .loop sig body.plain rest.plain
  | ifElse sig true_ false_ rest => .ifElse sig true_.plain false_.plain rest.plain

end BcosExecutor
