import BcosExecutor.ConsensusList

namespace BcosExecutor

namespace ConsensusPrecompiled

variable {x : Context} {rows : Rows} {l : ConsensusNodeList}

def consensusRow (x : Context) : StateRow :=
  ⟨x.SYS_CONSENSUS, key⟩

/-- What a call comes to: a code and the row as it was, or another list in order. -/
def Settles (x : Context) (rows : Rows) (l : ConsensusNodeList) (nodeID : Bytes)
    (program : Script Empty Int) : Prop :=
  (∃ code, code ≠ 0 ∧ program.onRows rows = (some (.ok code), rows)) ∨
    ∃ l', Good x l' ∧ others nodeID l' = others nodeID l ∧
      program.onRows rows =
        (some (.ok 0), Function.update rows (consensusRow x) (some (x.getObject.encode l')))

theorem readList_onRows {decode : Bytes → Option ConsensusNodeList} {entry : Entry}
    (hentry : rows ⟨x.SYS_CONSENSUS, key⟩ = some entry) (hdecode : decode entry = some l) :
    (readList x decode : Script Empty ConsensusNodeList).onRows rows = (some (.ok l), rows) := by
  unfold readList
  rw [Script.onRows_bind, Script.onRows_get, hentry]
  dsimp only
  rw [hdecode]
  rfl

theorem Holds.read (h : Holds x rows l) :
    (readList x x.getObject.decode : Script Empty ConsensusNodeList).onRows rows =
      (some (.ok l), rows) :=
  have ⟨_, hentry, hdecode, _⟩ := h.row
  readList_onRows hentry hdecode

theorem Holds.readConsensusList (h : Holds x rows l) :
    (readList x x.decodeConsensusList : Script Empty ConsensusNodeList).onRows rows =
      (some (.ok l), rows) :=
  have ⟨_, hentry, _, hdecode⟩ := h.row
  readList_onRows hentry hdecode

theorem holds_update (rows : Rows) (l : ConsensusNodeList) :
    Holds x (Function.update rows (consensusRow x) (some (x.getObject.encode l))) l :=
  ⟨⟨_, Function.update_self .., x.getObject.decode_encode l, x.decodeConsensusList_encode l⟩⟩

/-- A list in order with the named node changed, or a new one added. -/
theorem Good.change (h : Good x l) {nodeID : Bytes} (hid : nodeID.length = 128)
    (hlower : toLower nodeID = nodeID) {weight : U256} {type number : String}
    (hweight : type = x.CONSENSUS_SEALER → weight ≠ 0)
    (hsealer : ∃ n ∈ (changeNode nodeID (fun node => ⟨node.nodeID, weight, type, number⟩) l).getD
      (l ++ [⟨nodeID, weight, type, number⟩]), n.type = x.CONSENSUS_SEALER) :
    Good x ((changeNode nodeID (fun node => ⟨node.nodeID, weight, type, number⟩) l).getD
        (l ++ [⟨nodeID, weight, type, number⟩])) ∧
      others nodeID ((changeNode nodeID (fun node => ⟨node.nodeID, weight, type, number⟩) l).getD
        (l ++ [⟨nodeID, weight, type, number⟩])) = others nodeID l := by
  cases hchange : changeNode nodeID (fun node => ⟨node.nodeID, weight, type, number⟩) l with
  | none =>
    exact ⟨h.append hid hlower (changeNode_eq_none hchange) hweight,
      others_append l ⟨nodeID, weight, type, number⟩⟩
  | some l' =>
    rw [hchange] at hsealer
    obtain ⟨front, node, back, rfl, rfl, rfl⟩ := changeNode_eq_some hchange
    exact ⟨h.replace rfl hweight hsealer, others_replace rfl⟩

theorem addSealer_settles (hholds : Holds x rows l) (hgood : Good x l) (number : Int)
    (nodeID : Bytes) (weight : U256) :
    Settles x rows l (toLower nodeID) (addSealer x number nodeID weight) := by
  unfold addSealer
  dsimp only
  by_cases hid : (toLower nodeID).length ≠ 128
  · rw [if_pos hid]
    exact .inl ⟨_, by decide, rfl⟩
  · rw [if_neg hid]
    by_cases hweight : weight = 0
    · rw [if_pos hweight]
      exact .inl ⟨_, by decide, rfl⟩
    · rw [if_neg hweight]
      have hnamed : ∃ n ∈ (changeNode (toLower nodeID)
          (fun node => ⟨node.nodeID, weight, x.CONSENSUS_SEALER, enableNumber number⟩) l).getD
          (l ++ [⟨toLower nodeID, weight, x.CONSENSUS_SEALER, enableNumber number⟩]),
          n.type = x.CONSENSUS_SEALER := by
        cases hchange : changeNode (toLower nodeID)
          (fun node => ⟨node.nodeID, weight, x.CONSENSUS_SEALER, enableNumber number⟩) l with
        | none => exact ⟨_, List.mem_append_right _ List.mem_cons_self, rfl⟩
        | some l' =>
          obtain ⟨front, node, back, -, -, rfl⟩ := changeNode_eq_some hchange
          exact ⟨_, List.mem_append_right _ List.mem_cons_self, rfl⟩
      obtain ⟨hgood', hothers⟩ := hgood.change (not_not.mp hid) (toLower_toLower nodeID)
        (fun _ => hweight) hnamed
      refine .inr ⟨_, hgood', hothers, ?_⟩
      rw [Script.onRows_bind, hholds.read]
      rfl

theorem addObserver_settles (hholds : Holds x rows l) (hgood : Good x l) (number : Int)
    (nodeID : Bytes) :
    Settles x rows l (toLower nodeID) (addObserver x number nodeID) := by
  unfold addObserver
  dsimp only
  by_cases hid : (toLower nodeID).length ≠ 128
  · rw [if_pos hid]
    exact .inl ⟨_, by decide, rfl⟩
  · unfold Settles
    rw [if_neg hid, Script.onRows_bind, hholds.read]
    dsimp only
    split
    next => exact .inl ⟨_, by decide, rfl⟩
    next hcount =>
      obtain ⟨hgood', hothers⟩ := hgood.change (not_not.mp hid) (toLower_toLower nodeID)
        (fun htype => absurd htype x.types_ne) (sealer_of_count hcount)
      exact .inr ⟨_, hgood', hothers, rfl⟩

theorem removeNode_settles (hholds : Holds x rows l) (hgood : Good x l) (nodeID : Bytes) :
    Settles x rows l (toLower nodeID) (removeNode x nodeID) := by
  unfold removeNode
  dsimp only
  by_cases hid : (toLower nodeID).length ≠ 128
  · rw [if_pos hid]
    exact .inl ⟨_, by decide, rfl⟩
  · unfold Settles
    rw [if_neg hid, Script.onRows_bind, hholds.read]
    dsimp only
    split
    next => exact .inl ⟨_, by decide, rfl⟩
    next hcount =>
      exact .inr ⟨_, hgood.sublist (List.eraseP_sublist ..) (sealer_of_count hcount),
        others_eraseP _ l, rfl⟩

theorem setWeight_settles (hholds : Holds x rows l) (hgood : Good x l) (number : Int)
    (nodeID : Bytes) (weight : U256) :
    Settles x rows l (toLower nodeID) (setWeight x number nodeID weight) := by
  unfold setWeight
  dsimp only
  by_cases hid : (toLower nodeID).length ≠ 128
  · rw [if_pos hid]
    exact .inl ⟨_, by decide, rfl⟩
  · rw [if_neg hid]
    by_cases hweight : weight = 0
    · rw [if_pos hweight]
      exact .inl ⟨_, by decide, rfl⟩
    · unfold Settles
      rw [if_neg hweight, Script.onRows_bind, hholds.readConsensusList]
      dsimp only
      cases hchange : changeNode (toLower nodeID)
        (fun node => ⟨node.nodeID, weight, node.type, enableNumber number⟩) l with
      | none => exact .inl ⟨_, by decide, rfl⟩
      | some l' =>
        obtain ⟨front, node, back, rfl, hnode, rfl⟩ := changeNode_eq_some hchange
        -- the node keeps its type, and with it the list its sealers
        have hsealer : ∃ n ∈ front ++ ⟨node.nodeID, weight, node.type, enableNumber number⟩ :: back,
            n.type = x.CONSENSUS_SEALER := by
          obtain ⟨n, hn, htype⟩ := hgood.sealer
          rcases List.mem_append.mp hn with hn | hn
          · exact ⟨n, List.mem_append_left _ hn, htype⟩
          · rcases List.mem_cons.mp hn with rfl | hn
            · exact ⟨_, List.mem_append_right _ List.mem_cons_self, htype⟩
            · exact ⟨n, List.mem_append_right _ (List.mem_cons_of_mem _ hn), htype⟩
        rw [← hnode]
        exact .inr ⟨front ++ ⟨node.nodeID, weight, node.type, enableNumber number⟩ :: back,
          hgood.replace rfl (fun _ => hweight) hsealer, others_replace rfl, rfl⟩

theorem run_settles (hholds : Holds x rows l) (hgood : Good x l) (operation : Operation) :
    Settles x rows l operation.method.named (operation.run x) := by
  obtain ⟨number, method⟩ := operation
  cases method with
  | addSealer nodeID weight => exact addSealer_settles hholds hgood number nodeID weight
  | addObserver nodeID => exact addObserver_settles hholds hgood number nodeID
  | remove nodeID => exact removeNode_settles hholds hgood nodeID
  | setWeight nodeID weight => exact setWeight_settles hholds hgood number nodeID weight

theorem withFoundTable_consensusRow (rows : Rows) :
    withFoundTable x.SYS_CONSENSUS SYS_VALUE_FIELDS rows (consensusRow x) =
      rows (consensusRow x) :=
  Function.update_of_ne (fun h => x.table_ne (congrArg StateRow.table h)) _ _

/-- What one call does to a list in order. -/
structure StepRight (x : Context) (rows rows' : Rows) (operation : Operation)
    (reply : Option (Except Exc Int)) (l l' : ConsensusNodeList) : Prop where
  before : Holds x rows l ∧ Good x l
  after : Holds x rows' l' ∧ Good x l'
  others : others operation.method.named l' = others operation.method.named l
  replies : ∃ code, reply = some (.ok code) ∧
    (code ≠ 0 → rows' (consensusRow x) = rows (consensusRow x))

def Operation.reply (x : Context) (rows : Rows) (operation : Operation) :
    Option (Except Exc Int) :=
  ((operation.program x).onRows rows).1

theorem step_right (hholds : Holds x rows l) (hgood : Good x l) (operation : Operation) :
    ∃ l', StepRight x rows (operation.step x rows) operation (operation.reply x rows) l l' := by
  obtain ⟨entry, hentry, hdecode, hdecode'⟩ := hholds.row
  have hfound : Holds x (withFoundTable x.SYS_CONSENSUS SYS_VALUE_FIELDS rows) l :=
    ⟨⟨entry, (withFoundTable_consensusRow rows).trans hentry, hdecode, hdecode'⟩⟩
  have hshow : (showConsensusTable x : Script Empty Unit).onRows rows =
      (some (.ok ()), withFoundTable x.SYS_CONSENSUS SYS_VALUE_FIELDS rows) := by
    unfold showConsensusTable
    rw [Script.onRows_bind, Script.foundTable_onRows]
    dsimp only
    rw [Script.onRows_bind, hfound.read]
    rfl
  have hprogram : (operation.program x).onRows rows =
      (operation.run x).onRows (withFoundTable x.SYS_CONSENSUS SYS_VALUE_FIELDS rows) :=
    Script.onRows_bind_of_ok hshow _
  unfold Operation.step Operation.reply keptRows
  rw [hprogram]
  rcases run_settles hfound hgood operation with ⟨code, hcode, hrun⟩ | ⟨l', hgood', hothers, hrun⟩
  · rw [hrun]
    exact ⟨l, ⟨hholds, hgood⟩, ⟨hfound, hgood⟩, rfl, code, rfl,
      fun _ => withFoundTable_consensusRow rows⟩
  · rw [hrun]
    exact ⟨l', ⟨hholds, hgood⟩, ⟨holds_update _ l', hgood'⟩, hothers, 0, rfl, fun h => absurd rfl h⟩

theorem after_good (hholds : Holds x rows l) (hgood : Good x l) (operations : List Operation) :
    ∃ l', Holds x (after x rows operations) l' ∧ Good x l' := by
  induction operations generalizing rows l with
  | nil => exact ⟨l, hholds, hgood⟩
  | cons operation operations ih =>
    obtain ⟨l', hstep⟩ := step_right hholds hgood operation
    exact ih hstep.after.1 hstep.after.2

/-- From a list in order, every call of a run leaves one, changes no node but the one it names, and
leaves the row as it was where its code is not zero. -/
theorem consensus_right (x : Context) {rows : Rows} {l : ConsensusNodeList}
    (hholds : Holds x rows l) (hgood : Good x l) (operations : List Operation)
    (operation : Operation) :
    ∃ l₁ l₂, StepRight x (after x rows operations) (after x rows (operations ++ [operation]))
      operation (operation.reply x (after x rows operations)) l₁ l₂ := by
  obtain ⟨l₁, hholds₁, hgood₁⟩ := after_good hholds hgood operations
  obtain ⟨l₂, hstep⟩ := step_right hholds₁ hgood₁ operation
  refine ⟨l₁, l₂, ?_⟩
  unfold after at hstep ⊢
  rw [List.foldl_append]
  exact hstep

/-- The rows after a message to the contract are those of the step. -/
theorem Operation.step_message {st : StateStorage} (h : st.Lawful) (env : Environment)
    {p : CallParameters} (hp : env.isPrecompiled p.codeAddress = true) (hc : p.create = false)
    (vm : Script Empty Result) (operation : Operation) (answer : Int → PrecompiledExecResult)
    (s : st.State) :
    st.getRow (executeMessage st env
      { precompiled := operation.program x >>= fun code => pure (answer code), vm } p s).storage =
        operation.step x (st.getRow s) :=
  precompiled_message h env hp hc vm (operation.program x) answer s

def nodeCode : PrefixCode ConsensusNode :=
  (PrefixCode.byte.list.pair (PrefixCode.length.pair
    (PrefixCode.string.pair PrefixCode.string))).ofInjection
    (fun node => (node.nodeID, node.weight.toNat, node.type, node.enableNumber))
    (fun fields => some ⟨fields.1, BitVec.ofNat 256 fields.2.1, fields.2.2.1, fields.2.2.2⟩)
    (fun node => by rw [BitVec.ofNat_toNat, BitVec.setWidth_eq])

theorem nodesCode_ne_nil (l : ConsensusNodeList) : nodeCode.list.encode l ≠ [] := fun h =>
  PrefixCode.length_encode_ne_nil _ (List.append_eq_nil_iff.mp h).1

def nodeChain : Context where
  SYS_CONSENSUS := "s_consensus"
  CONSENSUS_SEALER := "consensus_sealer"
  CONSENSUS_OBSERVER := "consensus_observer"
  getObject := nodeCode.list.toCodec nodesCode_ne_nil
  decodeConsensusList := (nodeCode.list.toCodec nodesCode_ne_nil).decode
  table_ne := by decide
  types_ne := by decide
  decodeConsensusList_encode := (nodeCode.list.toCodec nodesCode_ne_nil).decode_encode

/-- The only node, whose id is made of `a`. -/
def onlySealer : ConsensusNode :=
  ⟨List.replicate 128 97, 1, "consensus_sealer", "0"⟩

theorem good_onlySealer : Good nodeChain [onlySealer] where
  ids := by decide +kernel
  distinct := by decide +kernel
  sealer := ⟨onlySealer, List.mem_cons_self, rfl⟩
  weights := by decide +kernel

def onlySealerRows : Rows :=
  Function.update (fun _ => none) (consensusRow nodeChain)
    (some (nodeChain.getObject.encode [onlySealer]))

/-- A weight is set, and then the only sealer is to be removed, under its id in upper case. -/
theorem consensus_right_onlySealer :
    ∃ l₁ l₂, StepRight nodeChain
      (after nodeChain onlySealerRows [⟨5, .setWeight (List.replicate 128 65) 7⟩])
      (after nodeChain onlySealerRows
        [⟨5, .setWeight (List.replicate 128 65) 7⟩, ⟨6, .remove (List.replicate 128 65)⟩])
      ⟨6, .remove (List.replicate 128 65)⟩
      (Operation.reply nodeChain
        (after nodeChain onlySealerRows [⟨5, .setWeight (List.replicate 128 65) 7⟩])
        ⟨6, .remove (List.replicate 128 65)⟩) l₁ l₂ :=
  consensus_right nodeChain (holds_update _ _) good_onlySealer
    [⟨5, .setWeight (List.replicate 128 65) 7⟩] ⟨6, .remove (List.replicate 128 65)⟩

end ConsensusPrecompiled

end BcosExecutor
