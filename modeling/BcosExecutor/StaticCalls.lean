import BcosExecutor.ExternalRequest
import BcosExecutor.ExecutiveAtomic

namespace BcosExecutor

namespace TransactionExecutive

/-- The entries by which the message of a scheduler reaches `createCallParameters`. -/
inductive EntryPoint
  | executeTransaction | dagExecuteTransactions | call
  deriving DecidableEq, Repr

/-- The argument that the entry passes on. -/
def EntryPoint.staticCall : EntryPoint → Bool
  | .executeTransaction | .dagExecuteTransactions => false
  | .call => true

/-- One nested call: the message of the virtual machine, the new message of the message factory,
what the scheduler makes of the request, and where it delivers it. -/
structure Hop where
  msg : EvmcMessage
  fresh : ExecutionMessage
  forward : ExecutionMessage → ExecutionMessage
  entry : EntryPoint
  forward_type : ∀ m, (forward m).type = .message
  forward_staticCall : ∀ m, (forward m).staticCall = m.staticCall

/-- The parameters of the executive that the call leads to, if it leads to one. -/
def callee (context : BlockContext) (builtIns : BuiltIns) (host : HostContext) (hop : Hop) :
    Option CallParameters :=
  match host.externalRequest context builtIns hop.msg with
  | .externalCall request =>
    createCallParameters
      (hop.forward (toExecutiveResult hop.fresh host.callParameters.contextID
        host.callParameters.seq request))
      hop.entry.staticCall
  | .throws _ | .callBuiltInPrecompiled _ _ => none

def noBuiltIns : BuiltIns where
  isBuiltInPrecompiled _ := false
  isEthereumPrecompiled _ := false

def transactionParameters : CallParameters where
  contextID := 1
  senderAddress := toHex (List.replicate 20 0x33)
  origin := toHex (List.replicate 20 0x33)
  codeAddress := toHex (List.replicate 20 0x11)
  receiveAddress := toHex (List.replicate 20 0x11)
  gas := 200000
  type := .message

end TransactionExecutive

end BcosExecutor
