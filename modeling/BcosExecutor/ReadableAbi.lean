import BcosExecutor.Abi

namespace BcosExecutor

open ExceptRuns

namespace Json

def isScalar : Json → Bool
  | array _ | object _ => false
  | _ => true

def isBoolean : Json → Bool
  | string _ | array _ | object _ => false
  | _ => true

def isUInt : Json → Bool
  | null | bool _ | real _ (some _) _ => true
  | int i => 0 ≤ i ∧ i < 2 ^ 32
  | _ => false

def isIndexed : Json → Bool
  | object (_ :: _) => false
  | _ => true

theorem asString_eq_ok {value : Json} :
    (∃ s, value.asString = .ok s) ↔ value.isScalar = true := by
  cases value <;> simp [asString, isScalar]

theorem asBool_eq_ok {value : Json} : (∃ b, value.asBool = .ok b) ↔ value.isBoolean = true := by
  cases value with
  | int i => exact ⟨fun _ => rfl, fun _ => ⟨_, rfl⟩⟩
  | _ => simp [asBool, isBoolean]

theorem asUInt_eq_ok {value : Json} : (∃ n, value.asUInt = .ok n) ↔ value.isUInt = true := by
  cases value with
  | int i =>
    unfold asUInt isUInt
    dsimp only
    by_cases hi : 0 ≤ i ∧ i < 2 ^ 32
    · rw [if_pos hi, decide_eq_true hi]
      exact ⟨fun _ => rfl, fun _ => ⟨_, rfl⟩⟩
    · rw [if_neg hi, decide_eq_false hi]
      exact ⟨nofun, nofun⟩
  | real text toUInt toBool => cases toUInt <;> simp [asUInt, isUInt]
  | _ => simp [asUInt, isUInt]

theorem elements_eq_ok {value : Json} :
    (∃ l, value.elements = .ok l) ↔ value.isIndexed = true := by
  cases value with
  | object members => cases members <;> simp [elements, isIndexed]
  | _ => simp [elements, isIndexed]

theorem elements_eq_items {value : Json} {l : List Json} (h : value.elements = .ok l) :
    l = value.items := by
  cases value with
  | object members =>
    cases members with
    | nil => cases h; rfl
    | cons m ms => cases h
  | _ => cases h; rfl

theorem member_bind_eq_ok {β : Type} {value : Json} {key : String} {f : Json → Checked β}
    {Q : Prop} (hf : value.isRecord = true → ((∃ b, f (value.get key) = .ok b) ↔ Q)) :
    (∃ b, (value.member key >>= f) = .ok b) ↔ value.isRecord = true ∧ Q := by
  unfold member
  by_cases h : value.isRecord = true
  · rw [if_pos h, ← hf h]
    exact ⟨fun hf => ⟨h, hf⟩, And.right⟩
  · rw [if_neg h]
    exact ⟨nofun, fun hf => absurd hf.1 h⟩

end Json

/-- The text of the type is that of a tuple. -/
def Json.isTupleType (input : Json) : Prop :=
  ∃ type, (input.get "type").asString = .ok type ∧ isTuple type = true

/-- A parameter with a type that is a text, and with readable components where it is a tuple. -/
inductive ReadableParameter : Json → Prop
  | mk {input : Json} (record : input.isRecord = true)
      (type : (input.get "type").isScalar = true)
      (present : input.isTupleType → (input.get "components").isNull = false)
      (components : input.isTupleType →
        ∀ component ∈ (input.get "components").items, ReadableParameter component) :
      ReadableParameter input

theorem readableParameter_iff {input : Json} : ReadableParameter input ↔
    input.isRecord = true ∧ (input.get "type").isScalar = true ∧
      (input.isTupleType → (input.get "components").isNull = false ∧
        ∀ component ∈ (input.get "components").items, ReadableParameter component) := by
  constructor
  · rintro ⟨record, type, present, components⟩
    exact ⟨record, type, fun h => ⟨present h, components h⟩⟩
  · rintro ⟨record, type, h⟩
    exact ⟨record, type, fun ht => (h ht).1, fun ht => (h ht).2⟩

theorem parseParameter_eq_ok (input : Json) :
    (∃ param, parseParameter input = .ok param) ↔ ReadableParameter input := by
  induction hn : sizeOf input using Nat.strongRecOn generalizing input with
  | ind n ih =>
    have hcomponents : (∃ l, (input.get "components").items.attach.mapM
        (fun component => parseParameter component.val) = .ok l) ↔
        ∀ component ∈ (input.get "components").items, ReadableParameter component := by
      have hlt {component : Json} (hmem : component ∈ (input.get "components").items) :
          sizeOf component < n :=
        hn ▸ Nat.lt_of_lt_of_le (Json.sizeOf_lt_of_mem_items hmem)
          (Json.sizeOf_get_le "components" input)
      rw [mapM_eq_ok]
      constructor
      · intro h component hmem
        exact (ih _ (hlt hmem) component rfl).mp (h ⟨component, hmem⟩ (List.mem_attach _ _))
      · intro h component _
        exact (ih _ (hlt component.property) component.val rfl).mpr (h _ component.property)
    rw [parseParameter, readableParameter_iff]
    refine Json.member_bind_eq_ok fun hrecord => ?_
    rw [ok_bind_iff, ← Json.asString_eq_ok]
    have htuple_eq_ok (type : String) :
        (∃ param, (do
          let paramComponents ← input.member "components"
          assertThat !paramComponents.isNull
          let components ← (input.get "components").items.attach.mapM fun component =>
            parseParameter component.val
          return ⟨type, components⟩ : Checked ParameterAbi) = .ok param) ↔
        input.isRecord = true ∧ (!(input.get "components").isNull) = true ∧
          ∀ component ∈ (input.get "components").items, ReadableParameter component := by
      refine Json.member_bind_eq_ok fun _ => ?_
      rw [assertThat_bind_eq_ok]
      refine and_congr_right fun _ => ?_
      rw [ok_bind_iff, ← hcomponents]
      exact ⟨fun ⟨l, hl, _⟩ => ⟨l, hl⟩, fun ⟨l, hl⟩ => ⟨l, hl, _, rfl⟩⟩
    constructor
    · rintro ⟨type, htype, h⟩
      refine ⟨⟨type, htype⟩, ?_⟩
      rintro ⟨type', htype', htuple⟩
      cases htype.symm.trans htype'
      rw [if_pos htuple, htuple_eq_ok] at h
      exact ⟨by simpa using h.2.1, h.2.2⟩
    · rintro ⟨⟨type, htype⟩, h⟩
      refine ⟨type, htype, ?_⟩
      by_cases htuple : isTuple type = true
      · obtain ⟨hnull, hall⟩ := h ⟨type, htype, htuple⟩
        rw [if_pos htuple, htuple_eq_ok]
        exact ⟨hrecord, by simpa using hnull, hall⟩
      · rw [if_neg htuple]
        exact ⟨_, rfl⟩

structure ReadableConflictField (field : Json) : Prop where
  record : field.isRecord = true
  path : ∀ pathItem ∈ (field.get "path").items, pathItem.isUInt = true
  kind : (field.get "kind").isUInt = true
  readOnly : (field.get "read_only").isBoolean = true
  slot : (field.get "slot").isUInt = true

theorem parseConflictField_eq_ok {field : Json} :
    (∃ conflictField, parseConflictField field = .ok conflictField) ↔
      ReadableConflictField field := by
  have hpath : (∃ path, (field.get "path").items.mapM Json.asUInt = .ok path) ↔
      ∀ pathItem ∈ (field.get "path").items, pathItem.isUInt = true :=
    mapM_eq_ok.trans (forall₂_congr fun _ _ => Json.asUInt_eq_ok)
  have hchain : (∃ conflictField, parseConflictField field = .ok conflictField) ↔
      field.isRecord = true ∧ (∀ pathItem ∈ (field.get "path").items, pathItem.isUInt = true) ∧
        field.isRecord = true ∧ (field.get "kind").isUInt = true ∧
        field.isRecord = true ∧ (field.get "read_only").isBoolean = true ∧
        field.isRecord = true ∧ (field.get "slot").isUInt = true ∧ True := by
    refine Json.member_bind_eq_ok fun _ => (bind_eq_ok_and hpath fun path _ => ?_)
    refine Json.member_bind_eq_ok fun _ => (bind_eq_ok_and Json.asUInt_eq_ok fun kind _ => ?_)
    refine Json.member_bind_eq_ok fun _ => (bind_eq_ok_and Json.asBool_eq_ok fun readOnly _ => ?_)
    refine Json.member_bind_eq_ok fun _ => (bind_eq_ok_and Json.asUInt_eq_ok fun slot _ => ?_)
    exact ⟨fun _ => trivial, fun _ => ⟨_, rfl⟩⟩
  refine hchain.trans ⟨?_, ?_⟩
  · rintro ⟨record, path, _, kind, _, readOnly, _, slot, _⟩
    exact ⟨record, path, kind, readOnly, slot⟩
  · rintro ⟨record, path, kind, readOnly, slot⟩
    exact ⟨record, path, record, kind, record, readOnly, record, slot, trivial⟩

/-- The name is a text, and the inputs are a list of readable parameters. -/
structure ReadableSignature (function : Json) : Prop where
  record : function.isRecord = true
  named : (function.get "name").isNull = false
  name : (function.get "name").isScalar = true
  present : (function.get "inputs").isNull = false
  indexed : (function.get "inputs").isIndexed = true
  inputs : ∀ input ∈ (function.get "inputs").items, ReadableParameter input

namespace FunctionAbi

theorem readSignature_eq_ok {function : Json} :
    (∃ signature, readSignature function = .ok signature) ↔ ReadableSignature function := by
  have hchain : (∃ signature, readSignature function = .ok signature) ↔
      function.isRecord = true ∧ (!(function.get "name").isNull) = true ∧
        (function.get "name").isScalar = true ∧ function.isRecord = true ∧
        (!(function.get "inputs").isNull) = true ∧ (function.get "inputs").isIndexed = true ∧
        (∀ input ∈ (function.get "inputs").items, ReadableParameter input) ∧ True := by
    refine Json.member_bind_eq_ok fun _ => ?_
    refine assertThat_bind_eq_ok.trans (and_congr_right fun _ => ?_)
    refine bind_eq_ok_and Json.asString_eq_ok fun name _ => ?_
    refine Json.member_bind_eq_ok fun _ => ?_
    refine assertThat_bind_eq_ok.trans (and_congr_right fun _ => ?_)
    refine bind_eq_ok_and Json.elements_eq_ok fun inputs hinputs => ?_
    rw [← Json.elements_eq_items hinputs]
    refine bind_eq_ok_and (mapM_eq_ok.trans (forall₂_congr fun input _ =>
      parseParameter_eq_ok input)) fun _ _ => ?_
    exact ⟨fun _ => trivial, fun _ => ⟨_, rfl⟩⟩
  refine hchain.trans ⟨?_, ?_⟩
  · rintro ⟨record, named, name, _, present, indexed, inputs, _⟩
    exact ⟨record, by simpa using named, name, by simpa using present, indexed, inputs⟩
  · rintro ⟨record, named, name, present, indexed, inputs⟩
    exact ⟨record, by simpa using named, name, record, by simpa using present, indexed, inputs,
      trivial⟩

/-- The type of the entry is a text, and for a function it is said whether it is constant. -/
structure ReadableKind (function : Json) : Prop where
  record : function.isRecord = true
  type : (function.get "type").isScalar = true
  constant : (function.get "type").asString = .ok "function" →
    (function.get "constant").isBoolean = true

theorem isMutableFunction_eq_ok {function : Json} :
    (∃ mutable, isMutableFunction function = .ok mutable) ↔ ReadableKind function := by
  have hchain : (∃ mutable, isMutableFunction function = .ok mutable) ↔
      function.isRecord = true ∧ ∃ type, (function.get "type").asString = .ok type ∧
        (type = "function" → (function.get "constant").isBoolean = true) := by
    refine Json.member_bind_eq_ok fun hrecord => ?_
    rw [ok_bind_iff]
    refine exists_congr fun type => and_congr_right fun _ => ?_
    by_cases htype : type = "function"
    · rw [if_neg (not_not_intro htype)]
      refine (Json.member_bind_eq_ok fun _ => bind_eq_ok_and Json.asBool_eq_ok
        (Q := True) fun _ _ => ⟨fun _ => trivial, fun _ => ⟨_, rfl⟩⟩).trans ?_
      exact ⟨fun h _ => h.2.1, fun h => ⟨hrecord, h htype, trivial⟩⟩
    · rw [if_pos htype]
      exact ⟨fun _ h => absurd h htype, fun _ => ⟨_, rfl⟩⟩
  refine hchain.trans ⟨?_, ?_⟩
  · rintro ⟨record, type, htype, hconstant⟩
    refine ⟨record, Json.asString_eq_ok.mp ⟨type, htype⟩, fun hfunction => ?_⟩
    cases htype.symm.trans hfunction
    exact hconstant rfl
  · rintro ⟨record, type, hconstant⟩
    obtain ⟨text, htext⟩ := Json.asString_eq_ok.mpr type
    exact ⟨record, text, htext, fun h => hconstant (h ▸ htext)⟩

theorem readConflictFields_eq_ok {function : Json} (hrecord : function.isRecord = true) :
    (∃ fields, readConflictFields function = .ok fields) ↔
      ∀ field ∈ (function.get "conflictFields").items, ReadableConflictField field := by
  refine (Json.member_bind_eq_ok fun _ =>
    mapM_eq_ok.trans (forall₂_congr fun _ _ => parseConflictField_eq_ok)).trans ?_
  exact ⟨And.right, fun h => ⟨hrecord, h⟩⟩

/-- What the loop looks at in one entry can be read: the conflict fields only where the entry is
the function that is called. -/
structure ReadableFunction (r : AbiReader) (expected : Bytes) (function : Json) : Prop where
  kind : ReadableKind function
  readable : isMutableFunction function = .ok true → ReadableSignature function
  fields : isMutableFunction function = .ok true → ∀ name inputs,
    readSignature function = .ok (name, inputs) → selectorOf r (signature name inputs) = expected →
      ∀ field ∈ (function.get "conflictFields").items, ReadableConflictField field

theorem readFunction_eq_ok {r : AbiReader} {expected : Bytes} {function : Json} :
    (∃ found, readFunction r expected function = .ok found) ↔
      ReadableFunction r expected function := by
  unfold readFunction
  rw [ok_bind_iff]
  constructor
  · rintro ⟨mutable, hmutable, h⟩
    have hkind := isMutableFunction_eq_ok.mp ⟨mutable, hmutable⟩
    cases mutable with
    | false => exact ⟨hkind, fun h => by simp [hmutable] at h, fun h => by simp [hmutable] at h⟩
    | true =>
      rw [if_pos rfl, ok_bind_iff] at h
      obtain ⟨⟨name, inputs⟩, hsignature, h⟩ := h
      refine ⟨hkind, fun _ => readSignature_eq_ok.mp ⟨_, hsignature⟩, fun _ name' inputs' h' => ?_⟩
      cases hsignature.symm.trans h'
      intro hselector
      dsimp only at h
      rw [if_pos hselector, ok_bind_iff] at h
      obtain ⟨fields, hfields, _⟩ := h
      exact (readConflictFields_eq_ok hkind.record).mp ⟨fields, hfields⟩
  · rintro ⟨hkind, hsignature, hfields⟩
    obtain ⟨mutable, hmutable⟩ := isMutableFunction_eq_ok.mpr hkind
    refine ⟨mutable, hmutable, ?_⟩
    cases mutable with
    | false => exact ⟨none, rfl⟩
    | true =>
      obtain ⟨⟨name, inputs⟩, h⟩ := readSignature_eq_ok.mpr (hsignature hmutable)
      rw [if_pos rfl, ok_bind_iff]
      refine ⟨(name, inputs), h, ?_⟩
      dsimp only
      by_cases hselector : selectorOf r (FunctionAbi.signature name inputs) = expected
      · rw [if_pos hselector, ok_bind_iff]
        obtain ⟨fields, hread⟩ := (readConflictFields_eq_ok hkind.record).mpr
          (hfields hmutable name inputs h hselector)
        exact ⟨fields, hread, _, rfl⟩
      · rw [if_neg hselector]
        exact ⟨none, rfl⟩

/-- The entries can be read up to the function that is called. -/
def ReadableFunctions (r : AbiReader) (expected : Bytes) : List Json → Prop
  | [] => True
  | function :: functions => ReadableFunction r expected function ∧
      (readFunction r expected function = .ok none → ReadableFunctions r expected functions)

theorem findFunction_eq_ok {r : AbiReader} {expected : Bytes} {functions : List Json} :
    (∃ found, findFunction r expected functions = .ok found) ↔
      ReadableFunctions r expected functions := by
  induction functions with
  | nil => exact ⟨fun _ => trivial, fun _ => ⟨none, rfl⟩⟩
  | cons function functions ih =>
    unfold findFunction ReadableFunctions
    rw [ok_bind_iff, ← readFunction_eq_ok]
    constructor
    · rintro ⟨found, hfound, h⟩
      refine ⟨⟨found, hfound⟩, fun hnone => ?_⟩
      cases hfound.symm.trans hnone
      exact ih.mp h
    · rintro ⟨⟨found, hfound⟩, h⟩
      refine ⟨found, hfound, ?_⟩
      cases found with
      | some functionAbi => exact ⟨some functionAbi, rfl⟩
      | none => exact ih.mpr (h hfound)

/-- The selector has four bytes, the parser returns and the ABI can be read. -/
structure Readable (r : AbiReader) (abiStr expected : Bytes) : Prop where
  selector : expected.length = 4
  parses : ∃ root, r.parse abiStr = .ok root
  functions : ∀ functions, r.parse abiStr = .ok (some (.array functions)) →
    ReadableFunctions r expected functions

theorem deserialize_eq_ok {r : AbiReader} {abiStr expected : Bytes} :
    (∃ found, deserialize r abiStr expected = .ok found) ↔ Readable r abiStr expected := by
  unfold deserialize
  rw [assertThat_bind_eq_ok, ok_bind_iff]
  simp only [decide_eq_true_eq, orThrow_eq_ok]
  constructor
  · rintro ⟨hselector, root, hroot, h⟩
    refine ⟨hselector, ⟨root, hroot⟩, fun functions hfunctions => ?_⟩
    cases hroot.symm.trans hfunctions
    exact findFunction_eq_ok.mp h
  · rintro ⟨hselector, ⟨root, hroot⟩, h⟩
    refine ⟨hselector, root, hroot, ?_⟩
    split
    next functions => exact findFunction_eq_ok.mpr (h functions hroot)
    next => exact ⟨none, rfl⟩

end FunctionAbi

end BcosExecutor
