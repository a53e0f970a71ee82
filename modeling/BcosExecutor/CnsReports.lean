import BcosExecutor.CnsRuns
import BcosExecutor.HexAddresses

namespace BcosExecutor

namespace CNSPrecompiled

open ContractAuth (CODE_SUCCESS)

/-- The registry after a run of calls: a binding that was accepted stays, no other one comes in
its place, and all three readers tell of it. -/
structure Reports (x : Context) (rows : Rows) (operations : List (Operation x.isWasm))
    (name version : Bytes) : Prop where
  kept : ∀ binding, firstAccepted x rows operations name version = some binding → ∀ more,
    (Operation.selectByNameAndVersion name version).reply x (after x rows (operations ++ more)) =
      some (.ok (.binding binding.address binding.abi))
  refused : ∀ binding, firstAccepted x rows operations name version = some binding →
    ∀ name' version' address abi, trim name' = trim name → trim version' = trim version →
      (Operation.insert name' version' address abi).succeeds x (after x rows operations) = false ∧
        (Operation.insert name' version' address abi).step x (after x rows operations) =
          after x rows operations
  byVersion : (Operation.selectByNameAndVersion name version).reply x (after x rows operations) =
    some (.ok (bindingReply x (firstAccepted x rows operations name version)))
  address : (Operation.getContractAddress name version).reply x (after x rows operations) =
    some (.ok (addressReply x (firstAccepted x rows operations name version)))
  listed : ∃ infos, (Operation.selectByName name).reply x (after x rows operations) =
      some (.ok (.listed infos)) ∧ (infos.map CNSInfo.version).Nodup ∧
    ∀ info, info ∈ infos ↔ info.name = name ∧ ∃ binding,
      firstOf x (accepted x rows operations) (trim name) info.version = some binding ∧
        stored x binding = (info.address, info.abi)

variable {x : Context} {rows : Rows} {bindings : List (Binding x.isWasm)}

theorem firstOf_name {name version : Bytes} {binding : Binding x.isWasm}
    (h : firstOf x bindings name version = some binding) :
    binding ∈ bindings ∧ binding.name = name ∧ binding.version = version := by
  have hfound := List.find?_some h
  exact ⟨List.mem_of_find?_eq_some h, by simpa using hfound⟩

theorem accepted_append (operations more : List (Operation x.isWasm)) :
    accepted x rows (operations ++ more) =
      accepted x rows operations ++ accepted x (after x rows operations) more := by
  induction operations generalizing rows with
  | nil => rfl
  | cons operation operations ih =>
    rw [List.cons_append, accepted, accepted, ih, List.append_assoc]
    rfl

/-- The first one stays the first. -/
theorem firstAccepted_append {operations : List (Operation x.isWasm)} {name version : Bytes}
    {binding : Binding x.isWasm} (h : firstAccepted x rows operations name version = some binding)
    (more : List (Operation x.isWasm)) :
    firstAccepted x rows (operations ++ more) name version = some binding := by
  unfold firstAccepted firstOf at h ⊢
  rw [accepted_append, List.find?_append, h]
  rfl

theorem Registered.refused (h : Registered x rows bindings) {name version : Bytes}
    {binding : Binding x.isWasm}
    (hfirst : firstOf x bindings (trim name) (trim version) = some binding)
    (address : InterfaceAddress x.isWasm) (abi : Bytes) :
    (Operation.insert name version address abi).succeeds x rows = false ∧
      (Operation.insert name version address abi).step x rows = rows := by
  obtain ⟨infos, hread, hlookup⟩ := h.infos (trim name)
  have hthere := h.table (List.ne_nil_of_mem (firstOf_name hfirst).1)
  unfold Operation.succeeds
  rcases insert_cases address abi hread with ⟨e, hrun⟩ | ⟨code, hcode, hrun⟩ |
    ⟨info, hinfo, hrun⟩ | ⟨hnone, hrun⟩
  · obtain ⟨hreply, hstep⟩ := Operation.insert_throws hrun
    rw [hreply]
    exact ⟨rfl, hstep⟩
  · obtain ⟨hreply, hstep⟩ := Operation.insert_step hrun
    rw [hreply]
    exact ⟨by simpa using hcode, hstep⟩
  · obtain ⟨hreply, hstep⟩ := Operation.insert_step hrun
    rw [hreply]
    exact ⟨rfl, hstep.trans (withFoundTable_of_isSome hthere)⟩
  · rw [hlookup, hfirst] at hnone
    cases hnone

/-- The entries that are listed under a name as it comes. -/
theorem Registered.listed (h : Registered x rows bindings) (name : Bytes) :
    ∃ infos, (Operation.selectByName name).reply x rows = some (.ok (.listed infos)) ∧
      (infos.map CNSInfo.version).Nodup ∧
      ∀ info, info ∈ infos ↔ info.name = name ∧ ∃ binding,
        firstOf x bindings name info.version = some binding ∧
          stored x binding = (info.address, info.abi) := by
  obtain ⟨infos, hread, hlookup⟩ := h.infos name
  refine ⟨_, (Operation.selectByName_run hread).1, ?_, fun info => ?_⟩
  · rw [List.map_map]
    exact infos.nodupKeys
  · have hmem (version : Bytes) (pair : Bytes × Bytes) :
        ⟨version, pair⟩ ∈ infos.entries ↔
          ∃ binding, firstOf x bindings name version = some binding ∧ stored x binding = pair := by
      rw [← AList.mem_lookup_iff, hlookup, Option.mem_map]
      rfl
    rw [← hmem, List.mem_map]
    constructor
    · rintro ⟨⟨version, pair⟩, hentry, rfl⟩
      exact ⟨rfl, hentry⟩
    · rintro ⟨rfl, hentry⟩
      exact ⟨_, hentry, rfl⟩

/-- A name without blanks around it is its own entry; and where nothing has the trimmed name,
neither has an entry. -/
theorem Registered.firstOf_trim (h : Registered x rows bindings) {name : Bytes}
    (hname : trim name = name ∨ ∀ binding ∈ bindings, binding.name ≠ trim name)
    (version : Bytes) : firstOf x bindings name version = firstOf x bindings (trim name) version := by
  rcases hname with hname | hnone
  · rw [hname]
  have habsent : firstOf x bindings name version = none := by
    refine Option.eq_none_iff_forall_ne_some.mpr fun binding hfirst => ?_
    obtain ⟨hmem, rfl, -⟩ := firstOf_name hfirst
    exact hnone binding hmem (h.trimmed binding hmem).symm
  have habsent' : firstOf x bindings (trim name) version = none := by
    refine Option.eq_none_iff_forall_ne_some.mpr fun binding hfirst => ?_
    obtain ⟨hmem, hbinding, -⟩ := firstOf_name hfirst
    exact hnone binding hmem hbinding
  rw [habsent, habsent']

/-- The registry is right about a name and a version exactly when the name comes without blanks
around it, or nothing was accepted under the trimmed name. -/
theorem reports_iff (x : Context) {rows : Rows} (hempty : ∀ name, rows ⟨SYS_CNS, name⟩ = none)
    (operations : List (Operation x.isWasm)) (name version : Bytes) :
    Reports x rows operations name version ↔
      trim name = name ∨ ∀ binding ∈ accepted x rows operations, binding.name ≠ trim name := by
  have hregistered := registered_after (registered_nil hempty) operations
  rw [List.nil_append] at hregistered
  constructor
  · intro h
    by_contra hnot
    simp only [not_or, not_forall, not_not] at hnot
    obtain ⟨hblank, binding, hbinding, hname⟩ := hnot
    -- under the name as it comes there is no entry
    obtain ⟨infos, hreply, -, hlisted⟩ := hregistered.listed name
    obtain ⟨infos', hreply', -, hlisted'⟩ := h.listed
    cases hreply.symm.trans hreply'
    have hfound : ∃ first, firstOf x (accepted x rows operations) (trim name) binding.version =
        some first := by
      unfold firstOf
      rw [← Option.isSome_iff_exists, List.find?_isSome]
      exact ⟨binding, hbinding, by simpa using hname⟩
    obtain ⟨first, hfirst⟩ := hfound
    have hentry := (hlisted' ⟨name, binding.version, (stored x first).1, (stored x first).2⟩).mpr
      ⟨rfl, first, hfirst, rfl⟩
    obtain ⟨-, other, hother, -⟩ := (hlisted _).mp hentry
    obtain ⟨hmem, rfl, -⟩ := firstOf_name hother
    exact hblank (hregistered.trimmed other hmem)
  · intro hname
    refine ⟨fun binding hfirst more => ?_,
      fun binding hfirst name' version' address abi hn hv => ?_,
      (Operation.selectByNameAndVersion_run hregistered).1,
      (Operation.getContractAddress_run hregistered).1, ?_⟩
    · have hmore := registered_after (registered_nil hempty) (operations ++ more)
      rw [List.nil_append] at hmore
      have hfirst' := firstAccepted_append hfirst more
      unfold firstAccepted at hfirst'
      rw [(Operation.selectByNameAndVersion_run hmore).1, hfirst']
      rfl
    · unfold firstAccepted at hfirst
      rw [← hn, ← hv] at hfirst
      exact hregistered.refused hfirst address abi
    · obtain ⟨infos, hreply, hnodup, hlisted⟩ := hregistered.listed name
      refine ⟨infos, hreply, hnodup, fun info => ?_⟩
      rw [hlisted, hregistered.firstOf_trim hname]

/-- The rows after a message to the registry are those of the step. -/
theorem Operation.step_message {st : StateStorage} (h : st.Lawful) (env : Environment)
    {p : CallParameters} (hp : env.isPrecompiled p.codeAddress = true) (hc : p.create = false)
    (vm : Script Empty Result) (operation : Operation x.isWasm)
    (answer : Reply x.isWasm → PrecompiledExecResult) (s : st.State) :
    st.getRow (executeMessage st env
      { precompiled := operation.program x >>= fun reply => pure (answer reply), vm } p s).storage =
        operation.step x (st.getRow s) :=
  precompiled_message h env hp hc vm (operation.program x) answer s

def addressChain : Context where
  isWasm := false
  cnsInfo := (PrefixCode.map PrefixCode.byte.list
    (PrefixCode.byte.list.pair PrefixCode.byte.list)).toCodec (PrefixCode.map_encode_ne_nil _ _)
  toAddress := addressOfHex
  toAddress_toHex := addressOfHex_toHex
  isEmptyHash codeHash := codeHash.all (· = 0)

def helloAddress : {address : Bytes // address.length = 20} :=
  ⟨List.replicate 20 0x33, rfl⟩

/-- The name comes with a blank the second time. -/
def helloInserts : List (Operation addressChain.isWasm) :=
  [.insert (ascii "hello") (ascii "1") helloAddress (ascii "[]"),
    .insert (ascii " hello") (ascii "1") helloAddress (ascii "[{}]")]

theorem reports_hello :
    Reports addressChain (fun _ => none) helloInserts (ascii "hello") (ascii "1 ") :=
  (reports_iff addressChain (fun _ => rfl) helloInserts (ascii "hello") (ascii "1 ")).mpr
    (.inl (by decide))

/-- Under a name with a blank nothing is listed. -/
theorem not_reports_blank :
    ¬Reports addressChain (fun _ => none) helloInserts (ascii " hello") (ascii "1") := by
  intro h
  obtain ⟨infos, hreply, -, hlisted⟩ := h.listed
  have hnothing : (Operation.selectByName (ascii " hello")).reply addressChain
      (after addressChain (fun _ => none) helloInserts) = some (.ok (.listed [])) := rfl
  cases hreply.symm.trans hnothing
  have hentry := (hlisted ⟨ascii " hello", ascii "1", ascii (toHex helloAddress.val),
    ascii "[]"⟩).mpr ⟨rfl, ⟨ascii "hello", ascii "1", helloAddress, ascii "[]"⟩, rfl, rfl⟩
  cases hentry

end CNSPrecompiled

end BcosExecutor
