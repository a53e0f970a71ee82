import BcosExecutor.Abi
import Mathlib.Data.List.Forall2

namespace BcosExecutor

namespace AbiStandard

/-- A type that is known by its name, and which is no tuple. -/
structure ElementaryName where
  text : String
  notTuple : ¬"tuple".toList <+: text.toList

inductive Ty
  | elementary (name : ElementaryName)
  | tuple (components : List Ty)
  | array (element : Ty) (size : Option Nat)

def brackets : Option Nat → String
  | none => "[]"
  | some size => "[" ++ toString size ++ "]"

/-- What stands for the type in the JSON, where a tuple does not say its components. -/
def Ty.text : Ty → String
  | .elementary name => name.text
  | .tuple _ => "tuple"
  | .array element size => element.text ++ brackets size

/-- The components of the tuple that a type comes down to. -/
def Ty.components : Ty → Option (List Ty)
  | .elementary _ => none
  | .tuple components => some components
  | .array element _ => element.components

mutual

/-- The type in a signature, where a tuple is its components. -/
def Ty.signature : Ty → String
  | .elementary name => name.text
  | .tuple components => "(" ++ ",".intercalate (signatures components) ++ ")"
  | .array element size => element.signature ++ brackets size

def signatures : List Ty → List String
  | [] => []
  | ty :: tys => ty.signature :: signatures tys

end

mutual

def Ty.tree : Ty → ParameterAbi
  | .elementary name => ⟨name.text, []⟩
  | .tuple components => ⟨"tuple", trees components⟩
  | .array element size => ⟨element.tree.type ++ brackets size, element.tree.components⟩

def trees : List Ty → List ParameterAbi
  | [] => []
  | ty :: tys => ty.tree :: trees tys

end

structure Function where
  name : String
  constant : Option Bool
  inputs : List Ty
  conflictFields : List Abi.ConflictField

def Function.signature (f : Function) : String :=
  f.name ++ "(" ++ ",".intercalate (signatures f.inputs) ++ ")"

/-- The first four bytes of the hash of the signature. -/
def Function.selector (hash : Bytes → Bytes) (f : Function) : Bytes :=
  (hash (ascii f.signature)).take 4

/-- The functions of an ABI, the other entries of which are none of them. -/
def nonConstant (abi : List (Option Function)) : List Function :=
  abi.reduceOption.filter fun f => f.constant = some false

/-- The JSON of a parameter, which may have other members too. -/
inductive Describes : Json → Ty → Prop
  | elementary {members : List (String × Json)} {ty : Ty} (alone : ty.components = none)
      (type : (Json.object members).get "type" = .string ty.text) :
      Describes (.object members) ty
  | tuple {members : List (String × Json)} {ty : Ty} {components : List Ty} {items : List Json}
      (expands : ty.components = some components)
      (type : (Json.object members).get "type" = .string ty.text)
      (listed : (Json.object members).get "components" = .array items)
      (described : List.Forall₂ Describes items components) :
      Describes (.object members) ty

structure DescribesField (value : Json) (field : Abi.ConflictField) : Prop where
  record : ∃ members, value = .object members
  kind : value.get "kind" = .int field.kind
  path : value.get "path" = .array (field.accessPath.map fun (n : Nat) => .int n)
  readOnly : value.get "read_only" = .bool field.readOnly
  slot : value.get "slot" = .int field.slot

/-- Without any conflict fields the member may be missing. -/
def DescribesFields (value : Json) (fields : List Abi.ConflictField) : Prop :=
  (value = .null ∧ fields = []) ∨
    ∃ items, value = .array items ∧ List.Forall₂ DescribesField items fields

def constantJson : Option Bool → Json
  | none => .null
  | some constant => .bool constant

structure DescribesFunction (value : Json) (f : Function) : Prop where
  record : ∃ members, value = .object members
  type : value.get "type" = .string "function"
  constant : value.get "constant" = constantJson f.constant
  name : value.get "name" = .string f.name
  inputs : ∃ items, value.get "inputs" = .array items ∧ List.Forall₂ Describes items f.inputs
  conflictFields : DescribesFields (value.get "conflictFields") f.conflictFields

/-- An entry is a function, or its type is another one or is not there. -/
def DescribesEntry (value : Json) : Option Function → Prop
  | some f => DescribesFunction value f
  | none => (∃ members, value = .object members) ∧
      (value.get "type" = .null ∨
        ∃ type, type ≠ "function" ∧ value.get "type" = .string type)

mutual

/-- The member with the components, where a type comes down to a tuple. -/
def Ty.members : Ty → List (String × Json)
  | .elementary _ => []
  | .tuple components => [("components", .array (jsons components))]
  | .array element _ => element.members

def jsons : List Ty → List Json
  | [] => []
  | ty :: tys => .object (("type", .string ty.text) :: ty.members) :: jsons tys

end

def fieldJson (field : Abi.ConflictField) : Json :=
  .object [("kind", .int field.kind),
    ("path", .array (field.accessPath.map fun (n : Nat) => .int n)),
    ("read_only", .bool field.readOnly), ("slot", .int field.slot)]

def entryJson : Option Function → Json
  | none => .object [("type", .string "constructor")]
  | some f => .object [("conflictFields", .array (f.conflictFields.map fieldJson)),
      ("constant", constantJson f.constant), ("inputs", .array (jsons f.inputs)),
      ("name", .string f.name), ("type", .string "function")]

theorem brackets_toList (size : Option Nat) : ∃ rest, (brackets size).toList = '[' :: rest := by
  cases size with
  | none => exact ⟨[']'], rfl⟩
  | some size =>
    refine ⟨(toString size ++ "]").toList, ?_⟩
    show ("[" ++ toString size ++ "]").toList = _
    rw [String.append_assoc, String.toList_append]
    rfl

/-- What follows a character that a prefix does not have is of no matter to it. -/
theorem isPrefixOf_append_cons {α : Type} [BEq α] [LawfulBEq α] {p l r : List α} {c : α}
    (h : c ∉ p) : p.isPrefixOf (l ++ c :: r) = p.isPrefixOf l := by
  induction p generalizing l with
  | nil => rfl
  | cons a p ih =>
    rw [List.mem_cons, not_or] at h
    obtain ⟨hne, hrest⟩ := h
    cases l with
    | nil =>
      have hbeq : (a == c) = false := beq_eq_false_iff_ne.mpr (Ne.symm hne)
      show (a == c && p.isPrefixOf r) = false
      rw [hbeq, Bool.false_and]
    | cons b l =>
      show (a == b && p.isPrefixOf (l ++ c :: r)) = (a == b && p.isPrefixOf l)
      rw [ih hrest]

theorem isTuple_brackets (type : String) (size : Option Nat) :
    isTuple (type ++ brackets size) = isTuple type := by
  obtain ⟨rest, hrest⟩ := brackets_toList size
  unfold isTuple
  rw [String.toList_append, hrest]
  exact isPrefixOf_append_cons (by decide)

theorem Ty.isTuple_text : ∀ ty : Ty, isTuple ty.text = ty.components.isSome
  | .elementary name => by
    have hprefix : ¬"tuple".toList.isPrefixOf name.text.toList = true :=
      fun h => name.notTuple (List.isPrefixOf_iff_prefix.mp h)
    exact Bool.eq_false_iff.mpr hprefix
  | .tuple _ => by
    show isTuple "tuple" = true
    decide
  | .array element size => by
    rw [Ty.text, isTuple_brackets]
    exact element.isTuple_text

theorem Ty.tree_eq : ∀ ty : Ty, ty.tree = ⟨ty.text, trees (ty.components.getD [])⟩
  | .elementary name => by
    rw [Ty.tree, Ty.components, Option.getD_none, trees]
    rfl
  | .tuple components => by
    rw [Ty.tree, Ty.components, Option.getD_some]
    rfl
  | .array element size => by
    rw [Ty.tree, element.tree_eq]
    rfl

/-- The dimensions of an array come through unchanged. -/
theorem canonizeParamter_brackets (param : ParameterAbi) (size : Option Nat) :
    canonizeParamter ⟨param.type ++ brackets size, param.components⟩ =
      canonizeParamter param ++ brackets size := by
  obtain ⟨type, components⟩ := param
  rw [canonizeParamter, canonizeParamter, isTuple_brackets]
  by_cases htuple : isTuple type = true
  · have hlength : "tuple".length ≤ type.toList.length :=
      (List.isPrefixOf_iff_prefix.mp htuple).length_le
    rw [if_pos htuple, if_pos htuple, String.toList_append, List.drop_append_of_le_length hlength,
      String.ofList_append, String.ofList_toList]
    exact String.append_assoc.symm
  · rw [if_neg htuple, if_neg htuple]

mutual

/-- The canonical form of a tree is the signature of the type, at any depth. -/
theorem Ty.canonize_tree : ∀ ty : Ty, canonizeParamter ty.tree = ty.signature
  | .elementary name => by
    have htuple : isTuple name.text = false := Ty.isTuple_text (.elementary name)
    rw [Ty.tree, canonizeParamter, htuple, Ty.signature]
    rfl
  | .tuple components => by
    have htuple : isTuple "tuple" = true := by decide
    rw [Ty.tree, canonizeParamter, if_pos htuple, canonize_trees components, Ty.signature]
    exact String.append_empty
  | .array element size => by
    rw [Ty.tree, canonizeParamter_brackets, element.canonize_tree, Ty.signature]

theorem canonize_trees : ∀ tys : List Ty, canonizeComponents (trees tys) = signatures tys
  | [] => by rw [trees, canonizeComponents, signatures]
  | ty :: tys => by
    rw [trees, canonizeComponents, signatures, ty.canonize_tree, canonize_trees tys]

end

theorem signature_trees (f : Function) :
    FunctionAbi.signature f.name (trees f.inputs) = f.signature := by
  unfold FunctionAbi.signature Function.signature
  rw [canonize_trees]

mutual

theorem Ty.listed : ∀ (ty : Ty) (components : List Ty), ty.components = some components →
    ty.members = [("components", .array (jsons components))] ∧
      List.Forall₂ Describes (jsons components) components
  | .elementary _, _, h => nomatch h
  | .tuple components, components', h => by
    obtain rfl : components = components' := Option.some.inj h
    exact ⟨by rw [Ty.members], describes_jsons components⟩
  | .array element _, components, h => by
    rw [Ty.members]
    exact element.listed components h

theorem describes_jsons : ∀ tys : List Ty, List.Forall₂ Describes (jsons tys) tys
  | [] => by
    rw [jsons]
    exact .nil
  | ty :: tys => by
    have hlisted := ty.listed
    rw [jsons]
    refine .cons ?_ (describes_jsons tys)
    cases hcomponents : ty.components with
    | none => exact .elementary hcomponents rfl
    | some components =>
      obtain ⟨hmembers, hdescribed⟩ := hlisted components hcomponents
      rw [hmembers]
      exact .tuple hcomponents rfl rfl hdescribed

end

theorem describes_fieldJson (field : Abi.ConflictField) : DescribesField (fieldJson field) field :=
  ⟨⟨_, rfl⟩, rfl, rfl, rfl, rfl⟩

theorem describes_entryJson (entry : Option Function) : DescribesEntry (entryJson entry) entry := by
  cases entry with
  | none => exact ⟨⟨_, rfl⟩, .inr ⟨"constructor", by decide, rfl⟩⟩
  | some f =>
    have hfields : List.Forall₂ DescribesField (f.conflictFields.map fieldJson) f.conflictFields :=
      List.forall₂_map_left_iff.mpr (List.forall₂_same.mpr fun field _ => describes_fieldJson field)
    exact ⟨⟨_, rfl⟩, rfl, rfl, rfl, ⟨_, rfl, describes_jsons f.inputs⟩, .inr ⟨_, rfl, hfields⟩⟩

/-- Every ABI can be written. -/
theorem describes_abi (abi : List (Option Function)) :
    List.Forall₂ DescribesEntry (abi.map entryJson) abi :=
  List.forall₂_map_left_iff.mpr (List.forall₂_same.mpr fun entry _ => describes_entryJson entry)

end AbiStandard

end BcosExecutor
