import Yeeroot.Runtime.Dispatch

namespace Yeeroot

open Scale

variable {σ : Type} (env : Substrate σ)

-- `CheckSender::check_sender` of the runtime's context.
def checkSender (st : State σ) (sender : AccountId) : Run Bool := do
  let shardNum ← Sharding.getCurrShard st
  let shardCount ← Sharding.getShardCount st
  let senderShardNum := Sharding.shardNumFor sender shardCount
  return senderShardNum.isSome && decide (senderShardNum = shardNum)

structure CheckedExtrinsic where
  signed : Option (AccountId × UInt64)
  function : Call
  deriving DecidableEq

def BAD_SIGNATURE : String := "bad signature in extrinsic"

def UNACCEPTABLE_SENDER : String := "unacceptable sender"

def BLOCK_FULL : String := "block size limit is reached"

def UncheckedExtrinsic.check (st : State σ) (uxt : UncheckedExtrinsic) :
    Run (Except String CheckedExtrinsic) :=
  match uxt.signature with
  | none => .ok (.ok ⟨none, uxt.function⟩)
  | some info =>
    match st.lookup env info.signed with
    | .error error => .ok (.error error)
    | .ok sender =>
      if env.signatureValid st info uxt.function sender then do
        let accepted ← checkSender st sender
        if accepted then return .ok ⟨some (sender, info.index), uxt.function⟩
        else return .error UNACCEPTABLE_SENDER
      else .ok (.error BAD_SIGNATURE)

def MAX_TRANSACTIONS_SIZE : UInt32 := 4 * 1024 * 1024

inductive ApplyOutcome where
  | success
  | fail (error : String)
  deriving DecidableEq

inductive ApplyError where
  | badSignature (error : String)
  | stale
  | future
  | cantPay
  | fullBlock
  deriving DecidableEq

structure Applied (σ : Type) where
  state : State σ
  result : Except ApplyError ApplyOutcome
  movements : List Movement

def Applied.reject (st : State σ) (error : ApplyError) : Applied σ := ⟨st, .error error, []⟩

def incAccountNonce (sender : AccountId) (st : State σ) : State σ :=
  { st with system := { st.system with
      accountNonce := Function.update st.system.accountNonce sender
        (st.system.accountNonce sender + 1) } }

def setRelayExtrinsicExist (hash : H256) (st : State σ) : State σ :=
  { st with system := { st.system with
      relayExtrinsic := Function.update st.system.relayExtrinsic hash 1 } }

def noteAppliedExtrinsic (encodedLen : Nat) (st : State σ) : State σ :=
  { st with system := { st.system with
      allExtrinsicsLen := UInt32.ofNat
        (min (2 ^ 32 - 1) (st.system.allExtrinsicsLen.toNat + encodedLen % 2 ^ 32)) } }

def applyResult : Except String Unit → Except ApplyError ApplyOutcome
  | .ok () => .ok .success
  | .error error => if error = BLOCK_FULL then .error .fullBlock else .ok (.fail error)

def applyChecked (xt : CheckedExtrinsic) (encodedLen : Nat) (st : State σ) : Run (Applied σ) := do
  let outcome ← dispatch env xt.function (Origin.ofSender (xt.signed.map Prod.fst)) st
  return ⟨noteAppliedExtrinsic encodedLen outcome.state, applyResult outcome.result,
    outcome.movements⟩

def applySigned (xt : CheckedExtrinsic) (sender : AccountId) (index : UInt64) (encodedLen : Nat)
    (st : State σ) : Run (Applied σ) :=
  let expectedIndex := st.system.accountNonce sender
  if index ≠ expectedIndex then
    .ok (.reject st (if index < expectedIndex then .stale else .future))
  else
    match Balances.makePayment sender encodedLen st with
    | (st, .error _) => .ok (.reject st .cantPay)
    | (st, .ok ()) => applyChecked env xt encodedLen (incAccountNonce sender st)

-- The used flag of a relay is set before its call is dispatched.
def applyUnsigned (xt : CheckedExtrinsic) (originData : Bytes) (encodedLen : Nat) (st : State σ) :
    Run (Applied σ) :=
  match RelayParams.decode env.blake2 originData with
  | some rtx =>
    if st.system.relayExtrinsic rtx.hash = 1 then .ok (.reject st .stale)
    else applyChecked env xt encodedLen (setRelayExtrinsicExist rtx.hash st)
  | none => applyChecked env xt encodedLen st

def applyExtrinsicWithLen (uxt : UncheckedExtrinsic) (encodedLen : Nat) (st : State σ) :
    Run (Applied σ) := do
  let checked ← uxt.check env st
  match checked with
  | .error error => return .reject st (.badSignature error)
  | .ok xt =>
    if MAX_TRANSACTIONS_SIZE < st.system.allExtrinsicsLen + UInt32.ofNat encodedLen then
      return .reject st .fullBlock
    else
      match xt.signed with
      | some (sender, index) => applySigned env xt sender index encodedLen st
      | none => applyUnsigned env xt uxt.encode encodedLen st

def applyExtrinsic (uxt : UncheckedExtrinsic) (st : State σ) : Run (Applied σ) :=
  applyExtrinsicWithLen env uxt uxt.encode.length st

-- `initialize_block`, as far as it touches the modelled storage.
def initializeBlock (number : UInt64) (st : State σ) : Run (State σ) := do
  let st := { st with system := { st.system with blockNumber := number } }
  let substrate ← env.onInitialize st
  return Pow.onInitialize { st with substrate := substrate }

-- `note_finished_extrinsics` and the modules' `on_finalize` in their order.
def finishBlock (number : UInt64) (st : State σ) : Run (State σ) := do
  let st := { st with system := { st.system with allExtrinsicsLen := 0 } }
  let substrate ← env.onFinalize st
  let st ← Pow.onFinalize env number { st with substrate := substrate }
  return FinalityTracker.onFinalize (Crfg.onFinalize number (Sharding.onFinalize st))

-- What happens to a shard's storage: blocks start, apply extrinsics and finish.
inductive ChainStep where
  | start (number : UInt64)
  | apply (uxt : UncheckedExtrinsic)
  | finish (number : UInt64)

def chainStep (st : State σ) (step : ChainStep) (st' : State σ) (movements : List Movement) :
    Prop :=
  match step with
  | .start number => initializeBlock env number st = .ok st' ∧ movements = []
  | .apply uxt => ∃ applied, applyExtrinsic env uxt st = .ok applied ∧ st' = applied.state ∧
      movements = applied.movements
  | .finish number => finishBlock env number st = .ok st' ∧ movements = []

-- The origin extrinsics that were credited, one entry for each credit.
def creditedOrigins (movements : List Movement) : List Bytes :=
  movements.filterMap fun
    | .inbound origin _ => some origin
    | .outbound _ => none

-- An environment without indices, fees or accounts, to run extrinsics in.
def plainSubstrate : Substrate Unit where
  blake2 bytes := ⟨(bytes ++ List.replicate 32 0).take 32, by simp⟩
  args _ _ := none
  lookupIndex _ _ := none
  onNewAccount _ _ := ()
  dispatch _ _ _ _ := .ok ((), .ok ())
  dispatchRoot _ _ st := .ok (st, .ok ())
  onInitialize _ := .ok ()
  onFinalize _ := .ok ()
  signatureValid _ _ _ _ := true

def plainState (info : Option ShardInfo) : State Unit where
  system := ⟨0, fun _ => 0, 0, fun _ => 0, []⟩
  balances := ⟨0, 0, 0, 0, 0, fun _ => none, fun _ => none, fun _ => 0, fun _ => []⟩
  assets := ⟨fun _ => 0, 0, fun _ => [], fun _ => 0, fun _ => 0, fun _ => zero256⟩
  sharding := ⟨1, info, none⟩
  pow := ⟨0, 0, [], 0, none⟩
  crfg := ⟨[], none⟩
  finalizedNumber := none
  sudoKeys := []
  substrate := ()

-- A coin transfer between two account ids, and a relay that carries it.
def plainTransfer : UncheckedExtrinsic :=
  ⟨some ⟨.id (filled 32 1), filled 64 7, 0, .immortal⟩, .balancesTransfer (.id (filled 32 2)) 5⟩

def plainRelay (relayType : RelayTypes) (number : UInt64) : RelayCall :=
  ⟨relayType, ⟨plainTransfer.encode, by decide +kernel⟩, number, filled 32 3, filled 32 4⟩

end Yeeroot
