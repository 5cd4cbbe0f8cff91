import Yeeroot.SrPrimitives
import Yeeroot.Sharding.Utils

namespace Yeeroot

open Scale

inductive Origin where
  | root
  | signed (who : AccountId)
  | inherent
  deriving DecidableEq

-- `From<Option<AccountId>>`: an extrinsic without a sender counts as an inherent.
def Origin.ofSender : Option AccountId → Origin
  | some who => .signed who
  | none => .inherent

inductive ScaleOutPhase where
  | started (observeUtil : UInt64) (shardNum : UInt16)
  | nativeReady (observeUtil : UInt64) (shardNum : UInt16)
  | ready (observeUtil : UInt64) (shardNum : UInt16)
  | committing (shardCount : UInt16)
  | committed (shardNum shardCount : UInt16)
  deriving DecidableEq

-- The log entries of the sharding, crfg and finality tracker modules.
inductive Log where
  | shardMarker (num count : UInt16)
  | scaleOutPhase (phase : ScaleOutPhase)
  | authoritiesChangeSignal (delay : UInt64) (authorities : List (SessionKey × UInt64))
  | forcedAuthoritiesChangeSignal (median delay : UInt64)
      (authorities : List (SessionKey × UInt64))
  | finalizedBlockNumber (number : UInt64)
  deriving DecidableEq

structure SystemState where
  blockNumber : UInt64
  accountNonce : AccountId → UInt64
  allExtrinsicsLen : UInt32
  relayExtrinsic : H256 → UInt16
  logs : List Log

structure VestingSchedule where
  offset : Balance
  perBlock : Balance

inductive WithdrawReason where
  | transactionPayment
  | transfer
  | reserve
  deriving DecidableEq

structure BalanceLock where
  amount : Balance
  untilBlock : UInt64
  reasons : List WithdrawReason

-- `exists` tells an absent free balance from a zero one, so the map is partial.
structure BalancesState where
  totalIssuance : Balance
  existentialDeposit : Balance
  transferFee : Balance
  transactionBaseFee : Balance
  transactionByteFee : Balance
  vesting : AccountId → Option VestingSchedule
  freeBalance : AccountId → Option Balance
  reservedBalance : AccountId → Balance
  locks : AccountId → List BalanceLock

abbrev AssetKey := Bytes × UInt32 × AccountId

structure AssetsState where
  balances : AssetKey → Balance
  nextAssetId : UInt32
  assetsName : UInt32 → Bytes
  totalSupply : UInt32 → Balance
  assetsDecimals : UInt32 → UInt16
  assetsIssuer : UInt32 → AccountId

structure ShardingState where
  scaleOutObserveBlocks : UInt64
  currentShardInfo : Option ShardInfo
  currentScaleOutPhase : Option ScaleOutPhase

structure RewardPlan where
  blockNumber : UInt64
  coinbase : AccountId
  blockReward : Balance
  feeReward : Balance
  deriving DecidableEq

structure PowState where
  blockReward : Balance
  blockRewardLatency : UInt64
  rewardPlans : List RewardPlan
  totalFee : Balance
  currentPowInfo : Option PowInfo

structure StoredPendingChange where
  scheduledAt : UInt64
  delay : UInt64
  nextAuthorities : List (SessionKey × UInt64)
  forced : Option UInt64
  deriving DecidableEq

structure CrfgState where
  authorities : List (SessionKey × UInt64)
  pendingChange : Option StoredPendingChange

-- The storage of a shard's runtime; `σ` is what Substrate's own modules store.
structure State (σ : Type) where
  system : SystemState
  balances : BalancesState
  assets : AssetsState
  sharding : ShardingState
  pow : PowState
  crfg : CrfgState
  finalizedNumber : Option UInt64
  sudoKeys : List AccountId
  substrate : σ

-- What the runtime takes from Substrate. A call that is not made by root only
-- touches its module's own storage; a root call (`set_storage`) may write anything.
structure Substrate (σ : Type) where
  blake2 : Bytes → H256
  args : SubstrateArgs
  lookupIndex : σ → UInt32 → Option AccountId
  onNewAccount : State σ → AccountId → σ
  dispatch : SubstrateModule → Bytes → Option AccountId → State σ → Run (σ × Except String Unit)
  dispatchRoot : SubstrateModule → Bytes → State σ → Run (State σ × Except String Unit)
  onInitialize : State σ → Run σ
  onFinalize : State σ → Run σ
  signatureValid : State σ → SignatureInfo → Call → AccountId → Bool

inductive Currency where
  | coin
  | asset (shardCode : Bytes) (id : UInt32)
  deriving DecidableEq

structure Transfer where
  currency : Currency
  dest : AccountId
  amount : Balance
  deriving DecidableEq

-- Value that leaves for another shard, and value credited for an origin extrinsic
-- of another shard.
inductive Movement where
  | outbound (transfer : Transfer)
  | inbound (origin : Bytes) (transfer : Transfer)
  deriving DecidableEq

-- The storage is kept when the result is an error. The movements are not stored:
-- they record what the call did.
structure Outcome (σ : Type) where
  state : State σ
  result : Except String Unit
  movements : List Movement

def Outcome.done {σ : Type} (st : State σ) : Outcome σ := ⟨st, .ok (), []⟩

def Outcome.fail {σ : Type} (st : State σ) (error : String) : Outcome σ := ⟨st, .error error, []⟩

def State.lookup {σ : Type} (env : Substrate σ) (st : State σ) : Address → Except String AccountId
  | .id account => .ok account
  | .index index =>
    match env.lookupIndex st.substrate index with
    | some account => .ok account
    | none => .error "invalid account index"

def State.depositLog {σ : Type} (st : State σ) (log : Log) : State σ :=
  { st with system := { st.system with logs := st.system.logs ++ [log] } }

end Yeeroot
