import BcosExecutor.DagExecute

namespace BcosExecutor

/-- The input with its position when it is known by the hash of its transaction. -/
def txInput (inputs : List ExecutionMessage) (i : Nat) : Option (Nat × ExecutionMessage) :=
  match inputs[i]? with
  | some input => if input.type = .txHash then some (i, input) else none
  | none => none

/-- The transactions in the order in which their hashes were appended. -/
def txInputs (inputs : List ExecutionMessage) (order : List Nat) : List (Nat × ExecutionMessage) :=
  order.filterMap (txInput inputs)

variable {inputs : List ExecutionMessage} {order : List Nat}

theorem txInput_eq_some {i : Nat} {entry : Nat × ExecutionMessage}
    (h : txInput inputs i = some entry) :
    entry.1 = i ∧ inputs[i]? = some entry.2 ∧ entry.2.type = .txHash := by
  unfold txInput at h
  split at h
  next input hi =>
    split at h
    next ht =>
      cases h
      exact ⟨rfl, hi, ht⟩
    next => cases h
  next => cases h

theorem map_fst_txInputs (inputs : List ExecutionMessage) (order : List Nat) :
    (txInputs inputs order).map Prod.fst = order.filter fun i => (txInput inputs i).isSome := by
  induction order with
  | nil => rfl
  | cons i order ih =>
    unfold txInputs at ih ⊢
    cases h : txInput inputs i with
    | none => simpa [h] using ih
    | some entry => simpa [h, (txInput_eq_some h).1] using ih

namespace DagExecutor

/-- What the first loop puts into the slot of a message. -/
def messageSlot (inputs : List ExecutionMessage) (i : Nat) (old : Option CallParameters) :
    Option CallParameters :=
  match inputs[i]? with
  | some input => if input.type = .message then createCallParameters input false else old
  | none => old

theorem modify_messageSlot {i : Nat} (h : ∀ input, inputs[i]? = some input → input.type ≠ .message)
    (list : List (Option CallParameters)) : list.modify i (messageSlot inputs i) = list := by
  have hid : messageSlot inputs i = id := by
    funext old
    unfold messageSlot
    split
    next input hi => exact if_neg (h input hi)
    next => rfl
  rw [hid, List.modify_id]

theorem foldl_collectInput (inputs : List ExecutionMessage) (order : List Nat)
    (s : BlockFilling) : order.foldl (collectInput inputs) s =
      { txHashes := s.txHashes ++ (txInputs inputs order).map fun entry => entry.2.transactionHash
        indexes := s.indexes ++ (txInputs inputs order).map Prod.fst
        fillInputs := s.fillInputs ++ (txInputs inputs order).map Prod.snd
        callParametersList := Slots.run (messageSlot inputs) order s.callParametersList } := by
  induction order generalizing s with
  | nil => simp [txInputs, Slots.run]
  | cons i order ih =>
    rw [List.foldl_cons, ih]
    have hrun : ∀ list, Slots.run (messageSlot inputs) (i :: order) list =
        Slots.run (messageSlot inputs) order (list.modify i (messageSlot inputs i)) :=
      fun _ => rfl
    unfold collectInput txInputs
    rw [hrun]
    cases hi : inputs[i]? with
    | none =>
      rw [modify_messageSlot (by simp [hi])]
      simp [txInput, hi]
    | some input =>
      cases ht : input.type with
      | message =>
        have hslot : messageSlot inputs i = fun _ => createCallParameters input false := by
          funext old
          simp [messageSlot, hi, ht]
        simp [txInput, hi, ht, hslot]
      | txHash =>
        rw [modify_messageSlot (by simp [hi, ht])]
        simp [txInput, hi, ht]
      | _ =>
        rw [modify_messageSlot (by simp [hi, ht])]
        simp [txInput, hi, ht]

theorem txHashes_collect (inputs : List ExecutionMessage) (order : List Nat) :
    (collect inputs order).txHashes =
      (txInputs inputs order).map fun entry => entry.2.transactionHash := by
  rw [collect, foldl_collectInput]
  rfl

variable {Abi : Type} (x : DagExecutor Abi)

/-- The parameters that are made for an input. -/
def paramsOf (input : ExecutionMessage) : Option CallParameters :=
  match input.type with
  | .txHash => (x.txpool input.transactionHash).map (createTxCallParameters input)
  | _ => createCallParameters input false

def txSlot (inputs : List ExecutionMessage) (i : Nat) (_ : Option CallParameters) :
    Option CallParameters :=
  inputs[i]?.bind x.paramsOf

variable {x}

theorem foldl_fill {entries : List (Nat × ExecutionMessage)} {transactions : List Transaction}
    (hentries : ∀ entry ∈ entries, inputs[entry.1]? = some entry.2 ∧ entry.2.type = .txHash)
    (h : (entries.map fun entry => entry.2.transactionHash).mapM x.txpool = some transactions)
    (list : List (Option CallParameters)) :
    ((entries.map Prod.fst).zip ((entries.map Prod.snd).zip transactions)).foldl
        (fun list entry => list.modify entry.1 fun _ =>
          some (createTxCallParameters entry.2.1 entry.2.2)) list =
      Slots.run (x.txSlot inputs) (entries.map Prod.fst) list := by
  induction entries generalizing transactions list with
  | nil => rfl
  | cons entry entries ih =>
    rw [List.map_cons, List.mapM_cons] at h
    obtain ⟨tx, htx, h⟩ := Option.bind_eq_some_iff.mp h
    obtain ⟨rest, hrest, h⟩ := Option.bind_eq_some_iff.mp h
    cases h
    obtain ⟨hi, ht⟩ := hentries entry List.mem_cons_self
    have hslot : x.txSlot inputs entry.1 = fun _ => some (createTxCallParameters entry.2 tx) := by
      funext old
      simp [txSlot, paramsOf, hi, ht, htx]
    refine (ih (fun e he => hentries e (List.mem_cons_of_mem _ he)) hrest _).trans ?_
    show _ = Slots.run _ _ (list.modify entry.1 (x.txSlot inputs entry.1))
    rw [hslot]

/-- The order of the appends decides nothing about the filled list. -/
theorem fillBlock_eq {list : List (Option CallParameters)}
    (h : x.fillBlock (collect inputs order) = some list) :
    list = Slots.run (x.txSlot inputs) ((txInputs inputs order).map Prod.fst)
      (Slots.run (messageSlot inputs) order (List.replicate inputs.length none)) := by
  unfold fillBlock collect at h
  rw [foldl_collectInput] at h
  simp only [List.nil_append] at h
  split at h
  next hempty =>
    cases h
    rw [List.isEmpty_iff, List.map_eq_nil_iff] at hempty
    rw [hempty]
    rfl
  next =>
    obtain ⟨transactions, htxs, h⟩ := Option.map_eq_some_iff.mp h
    subst h
    refine foldl_fill (fun entry he => ?_) htxs _
    obtain ⟨i, _, hi⟩ := List.mem_filterMap.mp he
    obtain ⟨hfst, hget, ht⟩ := txInput_eq_some hi
    exact ⟨hfst ▸ hget, ht⟩

/-- At the position of an input stand its own parameters. -/
theorem fillBlock_getElem? (htypes : ∀ input ∈ inputs, input.type = .txHash ∨ input.type = .message)
    (horder : order.Perm (List.range inputs.length)) {list : List (Option CallParameters)}
    (h : x.fillBlock (collect inputs order) = some list) {i : Nat} {input : ExecutionMessage}
    (hi : inputs[i]? = some input) : list[i]? = some (x.paramsOf input) := by
  have hlt : i < inputs.length := (List.getElem?_eq_some_iff.mp hi).1
  have hrep : (List.replicate inputs.length (none : Option CallParameters))[i]? = some none := by
    simp [hlt]
  have hnodup := horder.nodup_iff.mpr List.nodup_range
  have hmem : i ∈ order := horder.mem_iff.mpr (List.mem_range.mpr hlt)
  rw [fillBlock_eq h, map_fst_txInputs, Slots.getElem?_run _ (hnodup.filter _),
    Slots.getElem?_run _ hnodup, if_pos hmem, hrep]
  rcases htypes input (List.mem_of_getElem? hi) with ht | ht
  · simp [hmem, txInput, hi, ht, txSlot]
  · simp [txInput, hi, ht, messageSlot, paramsOf]

theorem length_fillBlock {list : List (Option CallParameters)}
    (h : x.fillBlock (collect inputs order) = some list) : list.length = inputs.length := by
  rw [fillBlock_eq h]
  simp

theorem paramsOf_ids {input : ExecutionMessage} {params : CallParameters}
    (h : x.paramsOf input = some params) :
    params.contextID = input.contextID ∧ params.seq = input.seq := by
  unfold paramsOf at h
  split at h
  next =>
    obtain ⟨tx, _, rfl⟩ := Option.map_eq_some_iff.mp h
    exact ⟨rfl, rfl⟩
  next => exact createCallParameters_ids h

end DagExecutor

end BcosExecutor
