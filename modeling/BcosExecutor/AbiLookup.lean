import BcosExecutor.AbiStandard
import BcosExecutor.ReadableAbi

namespace BcosExecutor

namespace AbiStandard

open FunctionAbi ExceptRuns

variable {r : AbiReader} {value : Json} {f : Function} {expected : Bytes}

theorem member_of_record (h : ∃ members, value = .object members) (key : String) :
    value.member key = .ok (value.get key) := by
  obtain ⟨members, rfl⟩ := h
  rfl

theorem trees_of_forall2 {items : List Json} {tys : List Ty}
    (h : List.Forall₂ Describes items tys)
    (hread : ∀ item ∈ items, ∀ ty, Describes item ty → parseParameter item = .ok ty.tree) :
    items.mapM parseParameter = .ok (trees tys) := by
  induction h with
  | nil => rfl
  | cons hitem _ ih =>
    rw [List.mapM_cons, hread _ List.mem_cons_self _ hitem,
      ih fun item hmem => hread item (List.mem_cons_of_mem _ hmem), trees]
    rfl

/-- The parameter is read as it is written, with the components at every depth. -/
theorem parseParameter_described {ty : Ty} (h : Describes value ty) :
    parseParameter value = .ok ty.tree := by
  induction hn : sizeOf value using Nat.strongRecOn generalizing value ty with
  | ind n ih =>
    cases h with
    | @elementary members ty alone type =>
      have htuple : isTuple ty.text = false := by rw [ty.isTuple_text, alone]; rfl
      rw [parseParameter, member_of_record ⟨members, rfl⟩, type, ty.tree_eq, alone]
      show (if isTuple ty.text then _ else _) = _
      rw [htuple]
      rfl
    | @tuple members ty components items expands type listed described =>
      have htuple : isTuple ty.text = true := by rw [ty.isTuple_text, expands]; rfl
      have hcomponents : items.mapM parseParameter = .ok (trees components) := by
        refine trees_of_forall2 described fun item hmem ty' hty' => ih _ ?_ hty' rfl
        have hitem : item ∈ ((Json.object members).get "components").items := by
          rw [listed]
          exact hmem
        rw [← hn]
        exact Nat.lt_of_lt_of_le (Json.sizeOf_lt_of_mem_items hitem)
          (Json.sizeOf_get_le "components" _)
      have hattach : ((Json.object members).get "components").items.attach.mapM
          (fun component => parseParameter component.val) = .ok (trees components) := by
        rw [List.mapM_subtype (g := parseParameter) fun _ _ => rfl, List.unattach_attach, listed]
        exact hcomponents
      rw [parseParameter, member_of_record ⟨members, rfl⟩, member_of_record ⟨members, rfl⟩, type,
        ty.tree_eq, expands]
      show (if isTuple ty.text then _ else _) = _
      rw [if_pos htuple, hattach, listed]
      rfl

/-- The numbers of a conflict field are below a bound. -/
def Fits (bound : Nat) (field : Abi.ConflictField) : Prop :=
  field.kind < bound ∧ (∀ pathItem ∈ field.accessPath, pathItem < bound) ∧ field.slot < bound

instance (bound : Nat) (field : Abi.ConflictField) : Decidable (Fits bound field) :=
  inferInstanceAs (Decidable (_ ∧ _ ∧ _))

/-- The numbers of the conflict fields are taken by the library of the parser. -/
def Function.InRange (f : Function) : Prop :=
  ∀ field ∈ f.conflictFields, Fits (2 ^ 32) field

instance (f : Function) : Decidable f.InRange :=
  inferInstanceAs (Decidable (∀ _ ∈ _, _))

/-- A conflict field whose numbers are cut to their last byte. -/
def narrowed (field : Abi.ConflictField) : Abi.ConflictField where
  kind := field.kind % 256
  accessPath := field.accessPath.map (· % 256)
  readOnly := field.readOnly
  slot := field.slot % 256

theorem mod_eq_iff (n : Nat) : n % 256 = n ↔ n < 256 := by
  omega

theorem narrowed_eq_iff (field : Abi.ConflictField) : narrowed field = field ↔ Fits 256 field := by
  obtain ⟨kind, accessPath, readOnly, slot⟩ := field
  have hpath : accessPath.map (· % 256) = accessPath ↔ ∀ pathItem ∈ accessPath, pathItem < 256 := by
    have hself : accessPath.map (· % 256) = accessPath.map id ↔
        ∀ pathItem ∈ accessPath, pathItem % 256 = id pathItem := List.map_inj_left
    rw [List.map_id] at hself
    exact hself.trans (forall₂_congr fun pathItem _ => mod_eq_iff pathItem)
  unfold narrowed Fits
  rw [Abi.ConflictField.mk.injEq, hpath, mod_eq_iff, mod_eq_iff]
  exact and_congr_right fun _ => and_congr_right fun _ => and_iff_right rfl

theorem asUInt_int {n : Nat} (h : n < 2 ^ 32) : (Json.int n).asUInt = .ok n := by
  have hrange : 0 ≤ (n : Int) ∧ (n : Int) < 2 ^ 32 := by omega
  unfold Json.asUInt
  dsimp only
  rw [if_pos hrange, Int.toNat_natCast]

theorem parseConflictField_described {field : Abi.ConflictField} (h : DescribesField value field)
    (hfits : Fits (2 ^ 32) field) : parseConflictField value = .ok (narrowed field) := by
  obtain ⟨hkind, hpath, hslot⟩ := hfits
  have hitems : (value.get "path").items.mapM Json.asUInt = .ok field.accessPath := by
    rw [h.path]
    refine mapM_of_forall2 (List.forall₂_map_left_iff.mpr ?_)
    show List.Forall₂ (fun pathItem n : Nat => (Json.int pathItem).asUInt = .ok n) _ _
    exact List.forall₂_same.mpr fun pathItem hmem => asUInt_int (hpath pathItem hmem)
  have hkind' : (value.get "kind").asUInt = .ok field.kind := by
    rw [h.kind]
    exact asUInt_int hkind
  have hreadOnly : (value.get "read_only").asBool = .ok field.readOnly := by
    rw [h.readOnly]
    rfl
  have hslot' : (value.get "slot").asUInt = .ok field.slot := by
    rw [h.slot]
    exact asUInt_int hslot
  unfold parseConflictField
  refine bind_eq_ok.mpr ⟨_, member_of_record h.record "path", ?_⟩
  refine bind_eq_ok.mpr ⟨_, hitems, ?_⟩
  refine bind_eq_ok.mpr ⟨_, member_of_record h.record "kind", ?_⟩
  refine bind_eq_ok.mpr ⟨_, hkind', ?_⟩
  refine bind_eq_ok.mpr ⟨_, member_of_record h.record "read_only", ?_⟩
  refine bind_eq_ok.mpr ⟨_, hreadOnly, ?_⟩
  refine bind_eq_ok.mpr ⟨_, member_of_record h.record "slot", ?_⟩
  exact bind_eq_ok.mpr ⟨_, hslot', rfl⟩

theorem readConflictFields_described (h : DescribesFunction value f) (hrange : f.InRange) :
    readConflictFields value = .ok (f.conflictFields.map narrowed) := by
  have hfields := h.conflictFields
  unfold readConflictFields
  rw [member_of_record h.record]
  obtain ⟨hnull, hnone⟩ | ⟨items, hitems, hdescribed⟩ := hfields
  · rw [hnull, hnone]
    rfl
  · rw [hitems]
    refine mapM_of_forall2 (List.forall₂_map_right_iff.mpr ?_)
    have hboth : List.Forall₂ (fun field item => Fits (2 ^ 32) field ∧ DescribesField item field)
        f.conflictFields items := (List.forall₂_and_left _ _).mpr ⟨hrange, hdescribed.flip⟩
    refine hboth.flip.imp ?_
    rintro item field ⟨hfit, hfield⟩
    exact parseConflictField_described hfield hfit

theorem isUInt_int (n : Nat) : (Json.int n).isUInt = true ↔ n < 2 ^ 32 := by
  unfold Json.isUInt
  dsimp only
  rw [decide_eq_true_iff]
  omega

theorem readable_iff_fits {field : Abi.ConflictField} (h : DescribesField value field) :
    ReadableConflictField value ↔ Fits (2 ^ 32) field := by
  constructor
  · intro hreadable
    have hkind := hreadable.kind
    have hpath := hreadable.path
    have hslot := hreadable.slot
    rw [h.kind, isUInt_int] at hkind
    rw [h.path] at hpath
    rw [h.slot, isUInt_int] at hslot
    refine ⟨hkind, fun pathItem hmem => ?_, hslot⟩
    exact (isUInt_int pathItem).mp (hpath _ (List.mem_map_of_mem hmem))
  · intro hfits
    exact parseConflictField_eq_ok.mp ⟨_, parseConflictField_described h hfits⟩

theorem fits_of_readable {items : List Json} {fields : List Abi.ConflictField}
    (h : List.Forall₂ DescribesField items fields)
    (hreadable : ∀ item ∈ items, ReadableConflictField item) :
    ∀ field ∈ fields, Fits (2 ^ 32) field := by
  induction h with
  | nil => exact List.forall_mem_nil _
  | cons hfield _ ih =>
    obtain ⟨hfirst, hrest⟩ := List.forall_mem_cons.mp hreadable
    exact List.forall_mem_cons.mpr ⟨(readable_iff_fits hfield).mp hfirst, ih hrest⟩

theorem failsOnlyWith_member (value : Json) (key : String) :
    FailsOnlyWith Json.logicError (value.member key) := by
  unfold Json.member
  intro e h
  split at h
  · cases h
  · cases h
    rfl

theorem failsOnlyWith_asUInt (value : Json) : FailsOnlyWith Json.logicError value.asUInt := by
  intro e h
  cases value with
  | null | bool => cases h
  | int i =>
    unfold Json.asUInt at h
    dsimp only at h
    split at h
    · cases h
    · cases h
      rfl
  | real text toUInt toBool =>
    cases toUInt with
    | none =>
      cases h
      rfl
    | some n => cases h
  | string | array | object =>
    cases h
    rfl

theorem failsOnlyWith_asBool (value : Json) : FailsOnlyWith Json.logicError value.asBool := by
  intro e h
  cases value with
  | string | array | object =>
    cases h
    rfl
  | _ => cases h

theorem failsOnlyWith_conflictField (value : Json) :
    FailsOnlyWith Json.logicError (parseConflictField value) := by
  unfold parseConflictField
  refine (failsOnlyWith_member value "path").bind fun path => ?_
  refine (FailsOnlyWith.mapM failsOnlyWith_asUInt path.items).bind fun accessPath => ?_
  refine (failsOnlyWith_member value "kind").bind fun kind => ?_
  refine (failsOnlyWith_asUInt kind).bind fun _ => ?_
  refine (failsOnlyWith_member value "read_only").bind fun readOnly => ?_
  refine (failsOnlyWith_asBool readOnly).bind fun _ => ?_
  refine (failsOnlyWith_member value "slot").bind fun slot => ?_
  exact (failsOnlyWith_asUInt slot).bind fun _ => failsOnlyWith_ok _ _

/-- The library of the parser does not take a number of more than 32 bits. -/
theorem readConflictFields_throws (h : DescribesFunction value f) (hrange : ¬f.InRange) :
    readConflictFields value = .error Json.logicError := by
  have hfails : FailsOnlyWith Json.logicError (readConflictFields value) := by
    unfold readConflictFields
    refine (failsOnlyWith_member value "conflictFields").bind fun fields => ?_
    exact FailsOnlyWith.mapM failsOnlyWith_conflictField fields.items
  refine hfails.eq_error fun hread => hrange ?_
  obtain ⟨members, rfl⟩ := h.record
  have hreadable := (readConflictFields_eq_ok rfl).mp hread
  obtain ⟨-, hnone⟩ | ⟨items, hitems, hdescribed⟩ := h.conflictFields
  · unfold Function.InRange
    rw [hnone]
    exact List.forall_mem_nil _
  · rw [hitems] at hreadable
    exact fits_of_readable hdescribed hreadable

theorem readSignature_described (h : DescribesFunction value f) :
    readSignature value = .ok (f.name, trees f.inputs) := by
  obtain ⟨items, hitems, hdescribed⟩ := h.inputs
  have htrees : items.mapM parseParameter = .ok (trees f.inputs) :=
    trees_of_forall2 hdescribed fun item _ ty hty => parseParameter_described hty
  unfold readSignature
  simp only [member_of_record h.record]
  rw [h.name, hitems]
  show (items.mapM parseParameter >>= _) = _
  rw [htrees]
  rfl

theorem isMutableFunction_described (h : DescribesFunction value f) :
    isMutableFunction value = .ok (f.constant = some false) := by
  unfold isMutableFunction
  rw [member_of_record h.record, member_of_record h.record, h.type, h.constant]
  cases f.constant with
  | none => rfl
  | some constant => cases constant <;> rfl

theorem isMutableFunction_other (h : DescribesEntry value none) :
    isMutableFunction value = .ok false := by
  obtain ⟨hrecord, htype⟩ := h
  unfold isMutableFunction
  rw [member_of_record hrecord]
  obtain hnull | ⟨type, hne, htype⟩ := htype
  · rw [hnull]
    rfl
  · rw [htype]
    show (if type ≠ "function" then _ else _) = _
    rw [if_pos hne]
    rfl

theorem selectorOf_described (hhash : ∀ text, (r.hash text).length = 32) (f : Function) :
    selectorOf r (FunctionAbi.signature f.name (trees f.inputs)) = f.selector r.hash := by
  unfold selectorOf Function.selector
  rw [signature_trees, List.take_append_of_le_length]
  rw [hhash]
  decide

/-- What is returned for a function. -/
def Function.narrowedAbi (f : Function) : FunctionAbi where
  name := f.name
  inputs := trees f.inputs
  conflictFields := f.conflictFields.map narrowed

/-- What the loop ends with at the function that is called. -/
def Function.read (f : Function) : Checked (Option FunctionAbi) :=
  if f.InRange then .ok (some f.narrowedAbi) else .error Json.logicError

theorem readFunction_other (h : DescribesEntry value none) :
    readFunction r expected value = .ok none := by
  unfold readFunction
  exact bind_eq_ok.mpr ⟨_, isMutableFunction_other h, rfl⟩

theorem readFunction_constant (h : DescribesFunction value f) (hconstant : f.constant ≠ some false) :
    readFunction r expected value = .ok none := by
  have hmutable := isMutableFunction_described h
  rw [decide_eq_false hconstant] at hmutable
  unfold readFunction
  exact bind_eq_ok.mpr ⟨_, hmutable, rfl⟩

theorem readFunction_nonConstant (hhash : ∀ text, (r.hash text).length = 32)
    (h : DescribesFunction value f) (hconstant : f.constant = some false) :
    readFunction r expected value = if f.selector r.hash = expected then
      readConflictFields value >>= fun conflictFields =>
        .ok (some ⟨f.name, trees f.inputs, conflictFields⟩)
    else .ok none := by
  have hmutable := isMutableFunction_described h
  rw [decide_eq_true hconstant] at hmutable
  unfold readFunction
  rw [hmutable]
  show (readSignature value >>= _) = _
  rw [readSignature_described h]
  show (if selectorOf r (FunctionAbi.signature f.name (trees f.inputs)) = expected then _ else _) = _
  rw [selectorOf_described hhash]
  rfl

theorem readFunction_apart (hhash : ∀ text, (r.hash text).length = 32)
    (h : DescribesFunction value f) (hconstant : f.constant = some false)
    (hapart : f.selector r.hash ≠ expected) : readFunction r expected value = .ok none := by
  rw [readFunction_nonConstant hhash h hconstant, if_neg hapart]

theorem readFunction_called (hhash : ∀ text, (r.hash text).length = 32)
    (h : DescribesFunction value f) (hconstant : f.constant = some false) :
    readFunction r (f.selector r.hash) value = f.read := by
  rw [readFunction_nonConstant hhash h hconstant, if_pos rfl]
  unfold Function.read
  by_cases hrange : f.InRange
  · rw [if_pos hrange]
    exact bind_eq_ok.mpr ⟨_, readConflictFields_described h hrange, rfl⟩
  · rw [if_neg hrange, readConflictFields_throws h hrange]
    rfl

theorem findFunction_skip {functions : List Json} (h : readFunction r expected value = .ok none) :
    findFunction r expected (value :: functions) = findFunction r expected functions := by
  rw [findFunction, h]
  rfl

theorem findFunction_stop {functions : List Json} (h : readFunction r expected value = f.read) :
    findFunction r expected (value :: functions) = f.read := by
  rw [findFunction, h]
  unfold Function.read
  split
  · rfl
  · rfl

theorem nonConstant_cons (entry : Option Function) (abi : List (Option Function)) :
    nonConstant (entry :: abi) = nonConstant [entry] ++ nonConstant abi := by
  unfold nonConstant
  rw [← List.filter_append]
  cases entry <;> rfl

theorem mem_nonConstant_singleton {entry : Option Function} :
    f ∈ nonConstant [entry] ↔ entry = some f ∧ f.constant = some false := by
  unfold nonConstant
  rw [List.mem_filter, decide_eq_true_iff]
  refine and_congr_left fun _ => ?_
  cases entry with
  | none => exact ⟨nofun, nofun⟩
  | some g =>
    show f ∈ [g] ↔ _
    rw [List.mem_singleton, Option.some_inj]
    exact eq_comm

/-- The loop goes past an entry that is not sought. -/
theorem readFunction_passed (hhash : ∀ text, (r.hash text).length = 32) {entry : Option Function}
    (h : DescribesEntry value entry)
    (hapart : ∀ f ∈ nonConstant [entry], f.selector r.hash ≠ expected) :
    readFunction r expected value = .ok none := by
  cases entry with
  | none => exact readFunction_other h
  | some f =>
    by_cases hconstant : f.constant = some false
    · have hmem := mem_nonConstant_singleton.mpr ⟨rfl, hconstant⟩
      exact readFunction_apart hhash h hconstant (hapart f hmem)
    · exact readFunction_constant h hconstant

theorem findFunction_apart (hhash : ∀ text, (r.hash text).length = 32) {entries : List Json}
    {abi : List (Option Function)} (h : List.Forall₂ DescribesEntry entries abi)
    (hapart : ∀ f ∈ nonConstant abi, f.selector r.hash ≠ expected) :
    findFunction r expected entries = .ok none := by
  induction h with
  | nil => rfl
  | @cons value entry entries abi hentry _ ih =>
    rw [nonConstant_cons] at hapart
    obtain ⟨hfirst, hrest⟩ := List.forall_mem_append.mp hapart
    rw [findFunction_skip (readFunction_passed hhash hentry hfirst)]
    exact ih hrest

/-- With distinct selectors the loop gets to the function that is called. -/
theorem findFunction_called (hhash : ∀ text, (r.hash text).length = 32) {entries : List Json}
    {abi : List (Option Function)} (h : List.Forall₂ DescribesEntry entries abi)
    (hdistinct : (nonConstant abi).Pairwise fun f g => f.selector r.hash ≠ g.selector r.hash)
    (hf : f ∈ nonConstant abi) : findFunction r (f.selector r.hash) entries = f.read := by
  induction h with
  | nil => cases hf
  | @cons value entry entries abi hentry _ ih =>
    rw [nonConstant_cons] at hf hdistinct
    obtain ⟨-, hrest, hapart⟩ := List.pairwise_append.mp hdistinct
    rcases List.mem_append.mp hf with hfirst | hlater
    · obtain ⟨rfl, hconstant⟩ := mem_nonConstant_singleton.mp hfirst
      exact findFunction_stop (readFunction_called hhash hentry hconstant)
    · have hpassed : ∀ g ∈ nonConstant [entry], g.selector r.hash ≠ f.selector r.hash :=
        fun g hg => hapart g hg f hlater
      rw [findFunction_skip (readFunction_passed hhash hentry hpassed)]
      exact ih hrest hlater

theorem map_narrowed_eq (fields : List Abi.ConflictField) :
    fields.map narrowed = fields ↔ ∀ field ∈ fields, Fits 256 field := by
  have hself : fields.map narrowed = fields.map id ↔ ∀ field ∈ fields, narrowed field = id field :=
    List.map_inj_left
  rw [List.map_id] at hself
  exact hself.trans (forall₂_congr fun field _ => narrowed_eq_iff field)

theorem deserialize_described {abiStr : Bytes} {entries : List Json}
    (hparse : r.parse abiStr = .ok (some (.array entries))) (hselector : expected.length = 4) :
    deserialize r abiStr expected = findFunction r expected entries := by
  unfold deserialize
  rw [hselector, hparse]
  rfl

theorem length_selector (hhash : ∀ text, (r.hash text).length = 32) (f : Function) :
    (f.selector r.hash).length = 4 := by
  unfold Function.selector
  rw [List.length_take, hhash]
  rfl

theorem deserialize_called {abiStr : Bytes} {entries : List Json} {abi : List (Option Function)}
    (hhash : ∀ text, (r.hash text).length = 32)
    (hparse : r.parse abiStr = .ok (some (.array entries)))
    (hdescribed : List.Forall₂ DescribesEntry entries abi)
    (hdistinct : (nonConstant abi).Pairwise fun f g => f.selector r.hash ≠ g.selector r.hash)
    (hf : f ∈ nonConstant abi) : deserialize r abiStr (f.selector r.hash) = f.read := by
  rw [deserialize_described hparse (length_selector hhash f)]
  exact findFunction_called hhash hdescribed hdistinct hf

/-- A function is found by its selector and returned as it is written, but for what is cut off of
the numbers of its conflict fields. Without a function nothing is returned. -/
theorem deserialize_looks_up (r : AbiReader) (abiStr : Bytes) (entries : List Json)
    (abi : List (Option Function)) (hhash : ∀ text, (r.hash text).length = 32)
    (hparse : r.parse abiStr = .ok (some (.array entries)))
    (hdescribed : List.Forall₂ DescribesEntry entries abi)
    (hdistinct : (nonConstant abi).Pairwise fun f g => f.selector r.hash ≠ g.selector r.hash) :
    (∀ f ∈ nonConstant abi, f.InRange →
      ∃ found, deserialize r abiStr (f.selector r.hash) = .ok (some found) ∧
        found.name = f.name ∧ found.inputs = trees f.inputs ∧
        found.conflictFields = f.conflictFields.map narrowed ∧
        (found.conflictFields = f.conflictFields ↔
          ∀ field ∈ f.conflictFields, Fits 256 field)) ∧
    (∀ f ∈ nonConstant abi, ¬f.InRange →
      deserialize r abiStr (f.selector r.hash) = .error Json.logicError) ∧
    ∀ selector, selector.length = 4 → (∀ f ∈ nonConstant abi, f.selector r.hash ≠ selector) →
      deserialize r abiStr selector = .ok none := by
  refine ⟨fun f hf hrange => ?_, fun f hf hrange => ?_, fun selector hlength hapart => ?_⟩
  · refine ⟨f.narrowedAbi, ?_, rfl, rfl, rfl, map_narrowed_eq f.conflictFields⟩
    rw [deserialize_called hhash hparse hdescribed hdistinct hf]
    exact if_pos hrange
  · rw [deserialize_called hhash hparse hdescribed hdistinct hf]
    exact if_neg hrange
  · rw [deserialize_described hparse hlength]
    exact findFunction_apart hhash hdescribed hapart

/-- A batch of products, as an array of tuples, with a conflict field in this slot. -/
def addProducts (slot : Nat) : Function where
  name := "add_prod_batch"
  constant := some false
  inputs := [.array (.tuple [.elementary ⟨"string", by decide⟩, .elementary ⟨"uint32", by decide⟩,
    .elementary ⟨"uint128", by decide⟩]) none]
  conflictFields := [⟨0, [], true, 0⟩, ⟨4, [0, 1, 2], false, slot⟩]

def admin : Function where
  name := "admin"
  constant := some true
  inputs := []
  conflictFields := []

def productsAbi (slot : Nat) : List (Option Function) :=
  [none, some (addProducts slot), some admin]

def productsText (slot : Nat) : Bytes :=
  ascii ("[\x7b\"type\":\"constructor\"\x7d,\x7b\"conflictFields\":[\x7b\"kind\":0,\"path\":[]," ++
    "\"read_only\":true,\"slot\":0\x7d,\x7b\"kind\":4,\"path\":[0,1,2],\"read_only\":false," ++
    "\"slot\":" ++ toString slot ++ "\x7d],\"constant\":false,\"inputs\":[\x7b\"type\":\"tuple[]\"," ++
    "\"components\":[\x7b\"type\":\"string\"\x7d,\x7b\"type\":\"uint32\"\x7d," ++
    "\x7b\"type\":\"uint128\"\x7d]\x7d],\"name\":\"add_prod_batch\",\"type\":\"function\"\x7d," ++
    "\x7b\"conflictFields\":[],\"constant\":true,\"inputs\":[],\"name\":\"admin\"," ++
    "\"type\":\"function\"\x7d]")

/-- The hash is the one of the signature of `addProducts`. -/
def productsReader (slot : Nat) : AbiReader where
  parse _ := .ok (some (.array ((productsAbi slot).map entryJson)))
  hash _ := [0x15, 0x06, 0x66, 0xb3, 0xea, 0xb3, 0xee, 0x5d, 0x12, 0x40, 0x34, 0x20, 0x95, 0x3a,
    0x75, 0x3d, 0x35, 0x70, 0xe2, 0x68, 0xad, 0x2b, 0xdc, 0x8b, 0xfc, 0x4b, 0x7f, 0x94, 0x7e,
    0x54, 0x35, 0xd5]

theorem deserialize_looks_up_products :
    (∃ found, deserialize (productsReader 1) (productsText 1) [0x15, 0x06, 0x66, 0xb3] =
        .ok (some found) ∧ found.name = "add_prod_batch" ∧
        found.inputs = trees (addProducts 1).inputs ∧
        found.conflictFields = (addProducts 1).conflictFields) ∧
      deserialize (productsReader 1) (productsText 1) [0, 0, 0, 0] = .ok none := by
  have hdistinct : (nonConstant (productsAbi 1)).Pairwise fun f g =>
      f.selector (productsReader 1).hash ≠ g.selector (productsReader 1).hash :=
    List.pairwise_singleton _ _
  obtain ⟨hcalled, -, hother⟩ := deserialize_looks_up (productsReader 1) (productsText 1) _
    (productsAbi 1) (fun _ => rfl) rfl (describes_abi _) hdistinct
  obtain ⟨found, hfound, hname, hinputs, -, hwritten⟩ :=
    hcalled (addProducts 1) List.mem_cons_self (by decide)
  refine ⟨⟨found, hfound, hname, hinputs, hwritten.mpr (by decide)⟩, ?_⟩
  refine hother [0, 0, 0, 0] rfl fun f _ hselector => ?_
  exact absurd (List.cons.inj hselector).1 (by decide)

theorem not_looked_up_as_written :
    ¬∀ (r : AbiReader) (abiStr : Bytes) (entries : List Json) (abi : List (Option Function)),
      (∀ text, (r.hash text).length = 32) → r.parse abiStr = .ok (some (.array entries)) →
      List.Forall₂ DescribesEntry entries abi →
      ((nonConstant abi).Pairwise fun f g => f.selector r.hash ≠ g.selector r.hash) →
      ∀ f ∈ nonConstant abi, deserialize r abiStr (f.selector r.hash) =
        .ok (some ⟨f.name, trees f.inputs, f.conflictFields⟩) := by
  intro h
  have hdistinct : (nonConstant (productsAbi 256)).Pairwise fun f g =>
      f.selector (productsReader 256).hash ≠ g.selector (productsReader 256).hash :=
    List.pairwise_singleton _ _
  have hread : deserialize (productsReader 256) (productsText 256)
      ((addProducts 256).selector (productsReader 256).hash) = (addProducts 256).read :=
    deserialize_called (fun _ => rfl) rfl (describes_abi _) hdistinct List.mem_cons_self
  have hwritten := h (productsReader 256) (productsText 256) _ (productsAbi 256) (fun _ => rfl) rfl
    (describes_abi _) hdistinct (addProducts 256) List.mem_cons_self
  have hrange : (addProducts 256).InRange := by decide
  rw [hread, Function.read, if_pos hrange] at hwritten
  have hfields := congrArg FunctionAbi.conflictFields (Option.some.inj (Except.ok.inj hwritten))
  exact absurd hfields (by decide)

end AbiStandard

end BcosExecutor
