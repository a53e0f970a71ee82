import BcosExecutor.InjectMeter

namespace BcosExecutor

open ExceptRuns GasInjector

/-- The operand and result types of the opcodes without a prefix that read or compute a number,
by ranges of codes. -/
def numericSignatures : List (UInt8 × UInt8 × FuncSignature) :=
  -- loads
  [(0x28, 0x28, ⟨[.i32], [.i32]⟩), (0x29, 0x29, ⟨[.i32], [.i64]⟩),
  (0x2a, 0x2a, ⟨[.i32], [.f32]⟩), (0x2b, 0x2b, ⟨[.i32], [.f64]⟩),
  (0x2c, 0x2f, ⟨[.i32], [.i32]⟩), (0x30, 0x35, ⟨[.i32], [.i64]⟩),
  -- stores
  (0x36, 0x36, ⟨[.i32, .i32], []⟩), (0x37, 0x37, ⟨[.i32, .i64], []⟩),
  (0x38, 0x38, ⟨[.i32, .f32], []⟩), (0x39, 0x39, ⟨[.i32, .f64], []⟩),
  (0x3a, 0x3b, ⟨[.i32, .i32], []⟩), (0x3c, 0x3e, ⟨[.i32, .i64], []⟩),
  -- constants
  (0x41, 0x41, ⟨[], [.i32]⟩), (0x42, 0x42, ⟨[], [.i64]⟩), (0x43, 0x43, ⟨[], [.f32]⟩),
  (0x44, 0x44, ⟨[], [.f64]⟩),
  -- comparisons
  (0x45, 0x45, ⟨[.i32], [.i32]⟩), (0x46, 0x4f, ⟨[.i32, .i32], [.i32]⟩),
  (0x50, 0x50, ⟨[.i64], [.i32]⟩), (0x51, 0x5a, ⟨[.i64, .i64], [.i32]⟩),
  (0x5b, 0x60, ⟨[.f32, .f32], [.i32]⟩), (0x61, 0x66, ⟨[.f64, .f64], [.i32]⟩),
  -- arithmetic
  (0x67, 0x69, ⟨[.i32], [.i32]⟩), (0x6a, 0x78, ⟨[.i32, .i32], [.i32]⟩),
  (0x79, 0x7b, ⟨[.i64], [.i64]⟩), (0x7c, 0x8a, ⟨[.i64, .i64], [.i64]⟩),
  (0x8b, 0x91, ⟨[.f32], [.f32]⟩), (0x92, 0x98, ⟨[.f32, .f32], [.f32]⟩),
  (0x99, 0x9f, ⟨[.f64], [.f64]⟩), (0xa0, 0xa6, ⟨[.f64, .f64], [.f64]⟩),
  -- conversions: wrap, truncate, extend, convert, demote, promote, reinterpret
  (0xa7, 0xa7, ⟨[.i64], [.i32]⟩), (0xa8, 0xa9, ⟨[.f32], [.i32]⟩),
  (0xaa, 0xab, ⟨[.f64], [.i32]⟩), (0xac, 0xad, ⟨[.i32], [.i64]⟩),
  (0xae, 0xaf, ⟨[.f32], [.i64]⟩), (0xb0, 0xb1, ⟨[.f64], [.i64]⟩),
  (0xb2, 0xb3, ⟨[.i32], [.f32]⟩), (0xb4, 0xb5, ⟨[.i64], [.f32]⟩),
  (0xb6, 0xb6, ⟨[.f64], [.f32]⟩), (0xb7, 0xb8, ⟨[.i32], [.f64]⟩),
  (0xb9, 0xba, ⟨[.i64], [.f64]⟩), (0xbb, 0xbb, ⟨[.f32], [.f64]⟩),
  (0xbc, 0xbc, ⟨[.f32], [.i32]⟩), (0xbd, 0xbd, ⟨[.f64], [.i64]⟩),
  (0xbe, 0xbe, ⟨[.i32], [.f32]⟩), (0xbf, 0xbf, ⟨[.i64], [.f64]⟩),
  -- sign extensions
  (0xc0, 0xc1, ⟨[.i32], [.i32]⟩), (0xc2, 0xc4, ⟨[.i64], [.i64]⟩)]

/-- The truncations that saturate. -/
def saturatingSignatures : List (UInt8 × UInt8 × FuncSignature) :=
  [(0x00, 0x01, ⟨[.f32], [.i32]⟩), (0x02, 0x03, ⟨[.f64], [.i32]⟩),
  (0x04, 0x05, ⟨[.f32], [.i64]⟩), (0x06, 0x07, ⟨[.f64], [.i64]⟩)]

/-- The vector instructions that take or give a single floating point number. -/
def laneSignatures : List (UInt8 × UInt8 × FuncSignature) :=
  [(0x13, 0x13, ⟨[.f32], [.v128]⟩), (0x14, 0x14, ⟨[.f64], [.v128]⟩),
  (0x1f, 0x1f, ⟨[.v128], [.f32]⟩), (0x20, 0x20, ⟨[.v128, .f32], [.v128]⟩),
  (0x21, 0x21, ⟨[.v128], [.f64]⟩), (0x22, 0x22, ⟨[.v128, .f64], [.v128]⟩)]

namespace Opcode

def signatures (prefixByte : Option UInt8) : List (UInt8 × UInt8 × FuncSignature) :=
  if prefixByte = none then numericSignatures
  else if prefixByte = some 0xfc then saturatingSignatures
  else if prefixByte = some 0xfd then laneSignatures
  else []

def signature (opcode : Opcode) : Option FuncSignature :=
  ((signatures opcode.prefixByte).find? fun (first, last, _) =>
    first ≤ opcode.code && opcode.code ≤ last).map fun (_, _, sig) => sig

/-- An operand or the result is a floating point number. -/
def isFloat (opcode : Opcode) : Bool :=
  opcode.signature.any fun sig =>
    (sig.paramTypes ++ sig.resultTypes).any fun type => type = .f32 || type = .f64

/-- The floating point opcodes outside the ranges of `isFloatOpcode`: the truncations to integers,
those that saturate, and the ones on a lane of a vector. -/
def isUnlisted (opcode : Opcode) : Bool :=
  if opcode.prefixByte = none then
    (0xa8 ≤ opcode.code && opcode.code ≤ 0xab) || (0xae ≤ opcode.code && opcode.code ≤ 0xb1)
  else if opcode.prefixByte = some 0xfc then opcode.code ≤ 0x07
  else if opcode.prefixByte = some 0xfd then
    (0x13 ≤ opcode.code && opcode.code ≤ 0x14) || (0x1f ≤ opcode.code && opcode.code ≤ 0x22)
  else false

theorem isFloat_eq_of_prefix : ∀ prefixByte ∈ [none, some 0xfc, some 0xfd], ∀ code < 256,
    isFloatOpcode ⟨"", prefixByte, UInt8.ofNat code⟩ = false →
      isFloat ⟨"", prefixByte, UInt8.ofNat code⟩ =
        isUnlisted ⟨"", prefixByte, UInt8.ofNat code⟩ := by
  decide +kernel

/-- What is not refused and is floating point all the same. -/
theorem isFloat_eq {opcode : Opcode} (h : isFloatOpcode opcode = false) :
    opcode.isFloat = opcode.isUnlisted := by
  obtain ⟨name, prefixByte, code⟩ := opcode
  by_cases hp : prefixByte ∈ [none, some 0xfc, some 0xfd]
  · have hall := isFloat_eq_of_prefix prefixByte hp code.toNat (UInt8.toNat_lt code)
    rw [UInt8.ofNat_toNat] at hall
    exact hall h
  · simp only [List.mem_cons, List.not_mem_nil, or_false, not_or] at hp
    simp [isFloat, signature, signatures, isUnlisted, hp]

end Opcode

namespace Instr

/-- The instruction has a floating point operand or result. -/
def usesFloat : Instr → Bool
  | binary op | compare op | convert op | unary op | load op _ _ | store op _ _ => op.isFloat
  | const type _ => type = .f32 || type = .f64
  | _ => false

/-- The floating point instructions that the injector does not look at, or does not know. -/
def escapes : Instr → Bool
  | binary op | compare op | convert op | unary op => op.isUnlisted
  | load op _ _ | store op _ _ => op.isFloat
  | _ => false

theorem usesFloat_reindex (info : ImportsInfo) (i : Instr) :
    (i.reindex info).usesFloat = i.usesFloat := by
  cases i <;> rfl

theorem usesFloat_eq {table : InstructionTable} {info : ImportsInfo} {i : Instr}
    {r : Instr × Nat × Bool} (h : visitInstr table info i = .ok r) :
    i.usesFloat = i.escapes := by
  cases i with
  | binary op | compare op | convert op | unary op =>
    simp only [visitInstr, visitOpcode] at h
    split at h
    next => cases h
    next hf => exact Opcode.isFloat_eq (Bool.eq_false_iff.mpr hf)
  | const type value => cases type <;> first | rfl | cases h
  | _ => rfl

end Instr

/-- Every instruction of the list, at any depth. -/
def ExprList.Forall (P : Instr → Prop) : ExprList → Prop
  | nil => True
  | instr i rest => P i ∧ rest.Forall P
  | block _ body rest | loop _ body rest => body.Forall P ∧ rest.Forall P
  | ifElse _ true_ false_ rest => true_.Forall P ∧ false_.Forall P ∧ rest.Forall P

namespace ExprList

def decidableForall (P : Instr → Prop) [DecidablePred P] : (l : ExprList) → Decidable (l.Forall P)
  | nil => inferInstanceAs (Decidable True)
  | instr _ rest =>
    have := decidableForall P rest
    inferInstanceAs (Decidable (_ ∧ _))
  | block _ body rest | loop _ body rest =>
    have := decidableForall P body
    have := decidableForall P rest
    inferInstanceAs (Decidable (_ ∧ _))
  | ifElse _ true_ false_ rest =>
    have := decidableForall P true_
    have := decidableForall P false_
    have := decidableForall P rest
    inferInstanceAs (Decidable (_ ∧ _ ∧ _))

instance (P : Instr → Prop) [DecidablePred P] (l : ExprList) : Decidable (l.Forall P) :=
  decidableForall P l

variable {P Q : Instr → Prop}

theorem forall_append (a b : ExprList) : (a ++ b).Forall P ↔ a.Forall P ∧ b.Forall P := by
  induction a with
  | nil => simp [Forall]
  | instr i rest ih => simp [Forall, ih, and_assoc]
  | block sig body rest _ ih | loop sig body rest _ ih => simp [Forall, ih, and_assoc]
  | ifElse sig true_ false_ rest _ _ ih => simp [Forall, ih, and_assoc]

theorem forall_iff {l : ExprList} (h : l.Forall fun i => P i ↔ Q i) :
    l.Forall P ↔ l.Forall Q := by
  induction l with
  | nil => exact Iff.rfl
  | instr i rest ih => exact and_congr h.1 (ih h.2)
  | block sig body rest ihb ih | loop sig body rest ihb ih => exact and_congr (ihb h.1) (ih h.2)
  | ifElse sig true_ false_ rest iht ihf ih =>
    exact and_congr (iht h.1) (and_congr (ihf h.2.1) (ih h.2.2))

theorem Forall.imp (h : ∀ i, P i → Q i) {l : ExprList} (hl : l.Forall P) : l.Forall Q := by
  induction l with
  | nil => trivial
  | instr i rest ih => exact ⟨h i hl.1, ih hl.2⟩
  | block sig body rest ihb ih | loop sig body rest ihb ih => exact ⟨ihb hl.1, ih hl.2⟩
  | ifElse sig true_ false_ rest iht ihf ih => exact ⟨iht hl.1, ihf hl.2.1, ih hl.2.2⟩

theorem forall_reindex (info : ImportsInfo) (l : ExprList) :
    (l.reindex info).Forall P ↔ l.Forall fun i => P (i.reindex info) := by
  induction l with
  | nil => exact Iff.rfl
  | instr i rest ih => exact and_congr Iff.rfl ih
  | block sig body rest ihb ih | loop sig body rest ihb ih => exact and_congr ihb ih
  | ifElse sig true_ false_ rest iht ihf ih => exact and_congr iht (and_congr ihf ih)

end ExprList

/-- The inserted instructions have integers only. -/
theorem useGas_usesFloat (info : ImportsInfo) (gas : Nat) :
    (useGas info gas).Forall fun i => i.usesFloat = false := by
  simp only [useGas, subAndCheck, ExprList.Forall]
  exact ⟨rfl, rfl, rfl, rfl, rfl, rfl, rfl, ⟨rfl, trivial⟩, trivial, trivial⟩

theorem emit_usesFloat (info : ImportsInfo) (m : Metered) :
    (m.emit info).Forall (fun i => i.usesFloat = false) ↔
      m.original.Forall fun i => i.usesFloat = false := by
  induction m with
  | nil => exact Iff.rfl
  | charge gas rest ih =>
    rw [Metered.emit, ExprList.forall_append, ih]
    exact and_iff_right (useGas_usesFloat info gas)
  | instr i rest ih => exact and_congr Iff.rfl ih
  | block sig body rest ihb ih | loop sig body rest ihb ih => exact and_congr ihb ih
  | ifElse sig true_ false_ rest iht ihf ih => exact and_congr iht (and_congr ihf ih)

section
variable {table : InstructionTable} {info : ImportsInfo}

/-- The injector goes through every instruction and refuses none. -/
theorem visited {l : ExprList} {s : Nat × Metered} (h : meterSegment table info l = .ok s) :
    l.Forall fun i => ∃ r, visitInstr table info i = .ok r := by
  induction l generalizing s with
  | nil => trivial
  | instr i rest ih =>
    obtain ⟨r, hr, h⟩ := bind_eq_ok.mp h
    obtain ⟨s', hs', _⟩ := bind_eq_ok.mp h
    exact ⟨⟨r, hr⟩, ih hs'⟩
  | block sig body rest ihb ih | loop sig body rest ihb ih =>
    obtain ⟨b, hb, h⟩ := bind_eq_ok.mp h
    obtain ⟨s', hs', _⟩ := bind_eq_ok.mp h
    exact ⟨ihb hb, ih hs'⟩
  | ifElse sig true_ false_ rest iht ihf ih =>
    obtain ⟨t, ht, h⟩ := bind_eq_ok.mp h
    obtain ⟨f, hf, h⟩ := bind_eq_ok.mp h
    obtain ⟨s', hs', _⟩ := bind_eq_ok.mp h
    exact ⟨iht ht, ihf hf, ih hs'⟩

theorem usesFloat_iff {l : ExprList} {m : Metered} (h : meter table info l = .ok m) :
    m.original.Forall (fun i => i.usesFloat = false) ↔ l.Forall fun i => i.escapes = false := by
  have hvisited : l.Forall fun i => ∃ r, visitInstr table info i = .ok r := by
    unfold meter at h
    cases hs : meterSegment table info l with
    | error e => rw [hs] at h; cases h
    | ok s => exact visited hs
  rw [(meter_spec h).1, ExprList.forall_reindex]
  simp only [Instr.usesFloat_reindex]
  refine ExprList.forall_iff (hvisited.imp fun i hi => ?_)
  obtain ⟨r, hr⟩ := hi
  rw [Instr.usesFloat_eq hr]

end

namespace Module

def FloatFree (m : Module ExprList) : Prop :=
  ∀ func ∈ m.funcs, func.exprs.Forall fun i => i.usesFloat = false

def NoneEscapes (m : Module ExprList) : Prop :=
  ∀ func ∈ m.funcs, func.exprs.Forall fun i => i.escapes = false

end Module

theorem floatFree_funcs_iff {table : InstructionTable} {info : ImportsInfo}
    {funcs : List (Func ExprList)} {funcs' : List (Func Metered)}
    (h : List.Forall₂ (fun func func' => meter table info func.exprs = .ok func'.exprs)
      funcs funcs') :
    (∀ func ∈ funcs', (func.exprs.emit info).Forall fun i => i.usesFloat = false) ↔
      ∀ func ∈ funcs, func.exprs.Forall fun i => i.escapes = false := by
  induction h with
  | nil => exact ⟨fun _ => nofun, fun _ => nofun⟩
  | cons hmeter _ ih =>
    rw [List.forall_mem_cons, List.forall_mem_cons, ih, emit_usesFloat, usesFloat_iff hmeter]

/-- The output is free of floating point exactly when no body has a load or store of a floating
point number, a truncation of one to an integer, or a lane of one. -/
theorem injectMeter_floatFree_iff (table : InstructionTable) (m : Module ExprList)
    {out : Module ExprList} (h : injectMeter table m = .success out) :
    out.FloatFree ↔ m.NoneEscapes := by
  obtain ⟨marked, hm, rfl⟩ := meterModule_of_injectMeter h
  show (∀ func ∈ marked.funcs.map _, _) ↔ _
  rw [List.forall_mem_map]
  exact floatFree_funcs_iff (meterModule_bodies hm)

def F32Load : Opcode := ⟨"f32.load", none, 0x2a⟩

/-- A module whose function loads a number and drops it. -/
def loadModule (opcode : Opcode) : Module ExprList where
  types := [some ⟨[], []⟩]
  imports := []
  funcs := [⟨0, [], .instr (.const .i32 0) (.instr (.load opcode 2 0) (.instr .drop .nil))⟩]
  globals := []
  memories := [⟨1, 0, false⟩]
  exports := [⟨"main", .func, 0⟩]
  elemSegments := []
  dataOffsets := []
  starts := []

theorem injectMeter_floatFree_load : ∃ out,
    injectMeter (GetInstructionTable fun _ => false) (loadModule ⟨"i32.load", none, 0x28⟩) =
      .success out ∧ out.FloatFree := by
  refine ⟨_, rfl, (injectMeter_floatFree_iff _ (loadModule ⟨"i32.load", none, 0x28⟩) rfl).mpr ?_⟩
  intro func hfunc
  cases List.mem_singleton.mp hfunc
  exact ⟨rfl, by decide, rfl, trivial⟩

/-- `f32.load` is among the refused codes, but loads are not compared with them. -/
theorem not_floatFree_load : ∃ out,
    injectMeter (GetInstructionTable fun _ => true) (loadModule F32Load) = .success out ∧
      ¬ out.FloatFree := by
  obtain ⟨out, hout⟩ : ∃ out, injectMeter (GetInstructionTable fun _ => true)
    (loadModule F32Load) = .success out := ⟨_, rfl⟩
  refine ⟨out, hout, fun hfree => ?_⟩
  cases hout
  have hbody := hfree _ (List.mem_singleton_self _)
  revert hbody
  decide

end BcosExecutor
