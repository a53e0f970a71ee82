import BcosExecutor.DagTransferCommutes
import BcosExecutor.PrefixCode

namespace BcosExecutor

namespace ConsensusPrecompiled

def CODE_INVALID_NODE_ID : Int := -51100

def CODE_LAST_SEALER : Int := -51101

def CODE_INVALID_WEIGHT : Int := -51102

def CODE_NODE_NOT_EXIST : Int := -51103

structure ConsensusNode where
  nodeID : Bytes
  weight : U256
  type : String
  enableNumber : String
  deriving DecidableEq

abbrev ConsensusNodeList := List ConsensusNode

/-- The names of the ledger and the serialization of the list, which is read in two ways. -/
structure Context where
  SYS_CONSENSUS : String
  CONSENSUS_SEALER : String
  CONSENSUS_OBSERVER : String
  getObject : Codec ConsensusNodeList
  decodeConsensusList : Bytes → Option ConsensusNodeList
  table_ne : SYS_CONSENSUS ≠ sysTables
  types_ne : CONSENSUS_OBSERVER ≠ CONSENSUS_SEALER
  decodeConsensusList_encode : ∀ l, decodeConsensusList (getObject.encode l) = some l

def lowerByte (byte : UInt8) : UInt8 :=
  if 65 ≤ byte ∧ byte ≤ 90 then byte + 32 else byte

def toLower (s : Bytes) : Bytes :=
  s.map lowerByte

/-- The list with the first node of this id changed, where there is one. -/
def changeNode (nodeID : Bytes) (change : ConsensusNode → ConsensusNode) :
    ConsensusNodeList → Option ConsensusNodeList
  | [] => none
  | node :: nodes =>
    if node.nodeID = nodeID then some (change node :: nodes)
    else (changeNode nodeID change nodes).map (node :: ·)

section

variable {κ : Type} (x : Context)

def key : Bytes := ascii "key"

def readList (decode : Bytes → Option ConsensusNodeList) : Script κ ConsensusNodeList := do
  match ← getRow x.SYS_CONSENSUS key with
  | none => return []
  | some entry =>
    match decode entry with
    | none => .throw (.stdException "decode")
    | some consensusList => return consensusList

def writeList (consensusList : ConsensusNodeList) : Script κ Int := do
  setRow x.SYS_CONSENSUS key (x.getObject.encode consensusList)
  return 0

def sealerCount (consensusList : ConsensusNodeList) : Nat :=
  consensusList.countP (·.type = x.CONSENSUS_SEALER)

def showConsensusTable : Script κ Unit := do
  foundTable x.SYS_CONSENSUS SYS_VALUE_FIELDS
  let _ ← readList x x.getObject.decode
  return ()

variable (number : Int)

def enableNumber : String :=
  toString (number + 1)

def addSealer (nodeID : Bytes) (weight : U256) : Script κ Int :=
  let nodeID := toLower nodeID
  if nodeID.length ≠ 128 then
    return CODE_INVALID_NODE_ID
  else if weight = 0 then
    return CODE_INVALID_WEIGHT
  else do
    let consensusList ← readList x x.getObject.decode
    writeList x ((changeNode nodeID
      (fun node => ⟨node.nodeID, weight, x.CONSENSUS_SEALER, enableNumber number⟩)
      consensusList).getD
        (consensusList ++ [⟨nodeID, weight, x.CONSENSUS_SEALER, enableNumber number⟩]))

def addObserver (nodeID : Bytes) : Script κ Int :=
  let nodeID := toLower nodeID
  if nodeID.length ≠ 128 then
    return CODE_INVALID_NODE_ID
  else do
    let consensusList ← readList x x.getObject.decode
    let consensusList := (changeNode nodeID
      (fun node => ⟨node.nodeID, 0, x.CONSENSUS_OBSERVER, enableNumber number⟩)
      consensusList).getD
        (consensusList ++ [⟨nodeID, 0, x.CONSENSUS_OBSERVER, enableNumber number⟩])
    if sealerCount x consensusList = 0 then
      return CODE_LAST_SEALER
    else
      writeList x consensusList

def removeNode (nodeID : Bytes) : Script κ Int :=
  let nodeID := toLower nodeID
  if nodeID.length ≠ 128 then
    return CODE_INVALID_NODE_ID
  else do
    let consensusList ← readList x x.getObject.decode
    let consensusList := consensusList.eraseP (·.nodeID = nodeID)
    if sealerCount x consensusList = 0 then
      return CODE_LAST_SEALER
    else
      writeList x consensusList

/-- The list is read with `decodeConsensusList` here. -/
def setWeight (nodeID : Bytes) (weight : U256) : Script κ Int :=
  let nodeID := toLower nodeID
  if nodeID.length ≠ 128 then
    return CODE_INVALID_NODE_ID
  else if weight = 0 then
    return CODE_INVALID_WEIGHT
  else do
    let consensusList ← readList x x.decodeConsensusList
    match changeNode nodeID
      (fun node => ⟨node.nodeID, weight, node.type, enableNumber number⟩) consensusList with
    | none => return CODE_NODE_NOT_EXIST
    | some consensusList => writeList x consensusList

end

inductive Method
  | addSealer (nodeID : Bytes) (weight : U256)
  | addObserver (nodeID : Bytes)
  | remove (nodeID : Bytes)
  | setWeight (nodeID : Bytes) (weight : U256)

/-- The id of the node that a call names, in lower case. -/
def Method.named : Method → Bytes
  | addSealer nodeID _ | addObserver nodeID | remove nodeID | setWeight nodeID _ => toLower nodeID

/-- A call in a block. -/
structure Operation where
  number : Int
  method : Method

variable (x : Context)

def Operation.run (operation : Operation) : Script Empty Int :=
  match operation.method with
  | .addSealer nodeID weight => addSealer x operation.number nodeID weight
  | .addObserver nodeID => addObserver x operation.number nodeID
  | .remove nodeID => removeNode x nodeID
  | .setWeight nodeID weight => setWeight x operation.number nodeID weight

def Operation.program (operation : Operation) : Script Empty Int := do
  showConsensusTable x
  operation.run x

def Operation.step (rows : Rows) (operation : Operation) : Rows :=
  keptRows (operation.program x) rows

def after (rows : Rows) (operations : List Operation) : Rows :=
  operations.foldl (Operation.step x) rows

/-- Lower-case ids of 128 characters, all different, a sealer, and no sealer without weight. -/
structure Good (l : ConsensusNodeList) : Prop where
  ids : ∀ node ∈ l, node.nodeID.length = 128 ∧ toLower node.nodeID = node.nodeID
  distinct : (l.map ConsensusNode.nodeID).Nodup
  sealer : ∃ node ∈ l, node.type = x.CONSENSUS_SEALER
  weights : ∀ node ∈ l, node.type = x.CONSENSUS_SEALER → node.weight ≠ 0

/-- The row holds this list, in whichever way it is read. -/
structure Holds (rows : Rows) (l : ConsensusNodeList) : Prop where
  row : ∃ entry, rows ⟨x.SYS_CONSENSUS, key⟩ = some entry ∧ x.getObject.decode entry = some l ∧
    x.decodeConsensusList entry = some l

variable {x} {rows : Rows} {l : ConsensusNodeList}

theorem changeNode_eq_none {nodeID : Bytes} {change : ConsensusNode → ConsensusNode}
    (h : changeNode nodeID change l = none) : ∀ node ∈ l, node.nodeID ≠ nodeID := by
  induction l with
  | nil => exact nofun
  | cons node l ih =>
    unfold changeNode at h
    split at h
    · cases h
    next hne => exact List.forall_mem_cons.mpr ⟨hne, ih (Option.map_eq_none_iff.mp h)⟩

theorem changeNode_eq_some {nodeID : Bytes} {change : ConsensusNode → ConsensusNode}
    {l' : ConsensusNodeList} (h : changeNode nodeID change l = some l') :
    ∃ front node back, l = front ++ node :: back ∧ node.nodeID = nodeID ∧
      l' = front ++ change node :: back := by
  induction l generalizing l' with
  | nil => cases h
  | cons node l ih =>
    unfold changeNode at h
    split at h
    next heq =>
      cases h
      exact ⟨[], node, l, rfl, heq, rfl⟩
    next =>
      obtain ⟨rest, hrest, rfl⟩ := Option.map_eq_some_iff.mp h
      obtain ⟨front, found, back, rfl, hid, rfl⟩ := ih hrest
      exact ⟨node :: front, found, back, rfl, hid, rfl⟩

/-- The list without the nodes of one id. -/
def others (nodeID : Bytes) (l : ConsensusNodeList) : ConsensusNodeList :=
  l.filter (·.nodeID ≠ nodeID)

theorem others_replace {front back : ConsensusNodeList} {node node' : ConsensusNode}
    (h : node'.nodeID = node.nodeID) :
    others node.nodeID (front ++ node' :: back) = others node.nodeID (front ++ node :: back) := by
  unfold others
  rw [List.filter_append, List.filter_append, List.filter_cons_of_neg (by simp [h]),
    List.filter_cons_of_neg (by simp)]

theorem others_append (nodes : ConsensusNodeList) (node : ConsensusNode) :
    others node.nodeID (nodes ++ [node]) = others node.nodeID nodes := by
  unfold others
  rw [List.filter_append, List.filter_cons_of_neg (by simp), List.filter_nil, List.append_nil]

theorem others_eraseP (nodeID : Bytes) (nodes : ConsensusNodeList) :
    others nodeID (nodes.eraseP (·.nodeID = nodeID)) = others nodeID nodes := by
  unfold others
  induction nodes with
  | nil => rfl
  | cons node nodes ih =>
    by_cases h : node.nodeID = nodeID
    · rw [List.eraseP_cons_of_pos (by simpa using h), List.filter_cons_of_neg (by simpa using h)]
    · rw [List.eraseP_cons_of_neg (by simpa using h), List.filter_cons_of_pos (by simpa using h),
        List.filter_cons_of_pos (by simpa using h), ih]

/-- A node may change but for its id, as long as there is a sealer. -/
theorem Good.replace {front back : ConsensusNodeList} {node node' : ConsensusNode}
    (h : Good x (front ++ node :: back)) (hid : node'.nodeID = node.nodeID)
    (hweight : node'.type = x.CONSENSUS_SEALER → node'.weight ≠ 0)
    (hsealer : ∃ n ∈ front ++ node' :: back, n.type = x.CONSENSUS_SEALER) :
    Good x (front ++ node' :: back) where
  ids := by
    intro n hn
    have hids := h.ids
    simp only [List.mem_append, List.mem_cons] at hn hids
    rcases hn with hn | rfl | hn
    · exact hids n (.inl hn)
    · rw [hid]
      exact hids node (.inr (.inl rfl))
    · exact hids n (.inr (.inr hn))
  distinct := by
    have hdistinct := h.distinct
    rw [List.map_append, List.map_cons] at hdistinct ⊢
    rw [hid]
    exact hdistinct
  sealer := hsealer
  weights := by
    intro n hn
    have hweights := h.weights
    simp only [List.mem_append, List.mem_cons] at hn hweights
    rcases hn with hn | rfl | hn
    · exact hweights n (.inl hn)
    · exact hweight
    · exact hweights n (.inr (.inr hn))

/-- A node may come in whose id is new and in lower case. -/
theorem Good.append (h : Good x l) {node : ConsensusNode} (hlength : node.nodeID.length = 128)
    (hlower : toLower node.nodeID = node.nodeID) (hnew : ∀ n ∈ l, n.nodeID ≠ node.nodeID)
    (hweight : node.type = x.CONSENSUS_SEALER → node.weight ≠ 0) : Good x (l ++ [node]) where
  ids := by
    intro n hn
    rcases List.mem_append.mp hn with hn | hn
    · exact h.ids n hn
    · rw [List.mem_singleton.mp hn]
      exact ⟨hlength, hlower⟩
  distinct := by
    rw [List.map_append, List.nodup_append]
    refine ⟨h.distinct, List.nodup_singleton _, ?_⟩
    intro id hid id' hid'
    obtain ⟨n, hn, rfl⟩ := List.mem_map.mp hid
    rw [List.mem_singleton.mp hid']
    exact hnew n hn
  sealer := by
    obtain ⟨n, hn, htype⟩ := h.sealer
    exact ⟨n, List.mem_append_left _ hn, htype⟩
  weights := by
    intro n hn
    rcases List.mem_append.mp hn with hn | hn
    · exact h.weights n hn
    · rw [List.mem_singleton.mp hn]
      exact hweight

/-- Nodes may go as long as there is a sealer. -/
theorem Good.sublist {l' : ConsensusNodeList} (h : Good x l) (hsub : l'.Sublist l)
    (hsealer : ∃ n ∈ l', n.type = x.CONSENSUS_SEALER) : Good x l' where
  ids n hn := h.ids n (hsub.subset hn)
  distinct := h.distinct.sublist (hsub.map _)
  sealer := hsealer
  weights n hn := h.weights n (hsub.subset hn)

theorem sealer_of_count (h : sealerCount x l ≠ 0) : ∃ n ∈ l, n.type = x.CONSENSUS_SEALER := by
  have hpos := List.countP_pos_iff.mp (Nat.pos_of_ne_zero h)
  simpa using hpos

theorem lowerByte_lowerByte (byte : UInt8) : lowerByte (lowerByte byte) = lowerByte byte := by
  have h65 : (65 : UInt8).toNat = 65 := rfl
  have h90 : (90 : UInt8).toNat = 90 := rfl
  have h32 : (32 : UInt8).toNat = 32 := rfl
  unfold lowerByte
  by_cases h : 65 ≤ byte ∧ byte ≤ 90
  · rw [if_pos h, if_neg]
    simp only [UInt8.le_iff_toNat_le, UInt8.toNat_add] at h ⊢
    omega
  · rw [if_neg h, if_neg h]

theorem toLower_toLower (s : Bytes) : toLower (toLower s) = toLower s := by
  unfold toLower
  rw [List.map_map]
  exact List.map_congr_left fun byte _ => lowerByte_lowerByte byte

end ConsensusPrecompiled

end BcosExecutor
