import Yeeroot.Runtime.Sharding

namespace Yeeroot

open Scale

def checkedAdd (a b : Balance) : Option Balance :=
  if a.toNat + b.toNat < 2 ^ 128 then some (a + b) else none

def checkedSub (a b : Balance) : Option Balance := if b ≤ a then some (a - b) else none

def checkedMul (a b : Balance) : Option Balance :=
  if a.toNat * b.toNat < 2 ^ 128 then some (a * b) else none

def saturatingAdd (a b : Balance) : Balance := (checkedAdd a b).getD (BitVec.allOnes 128)

def saturatingSub (a b : Balance) : Balance := (checkedSub a b).getD 0

def balanceOfNumber (n : UInt64) : Balance := BitVec.ofNat 128 n.toNat

-- Amount locked at block `n`.
def VestingSchedule.lockedAt (schedule : VestingSchedule) (n : UInt64) : Balance :=
  match checkedMul (balanceOfNumber n) schedule.perBlock with
  | some x => (if schedule.offset ≤ x then x else schedule.offset) - x
  | none => 0

namespace Balances

variable {σ : Type} (env : Substrate σ)

def update (st : State σ) (f : BalancesState → BalancesState) : State σ :=
  { st with balances := f st.balances }

def freeBalance (st : State σ) (who : AccountId) : Balance := (st.balances.freeBalance who).getD 0

def vestingBalance (st : State σ) (who : AccountId) : Balance :=
  match st.balances.vesting who with
  | some schedule =>
    let locked := schedule.lockedAt st.system.blockNumber
    if freeBalance st who ≤ locked then freeBalance st who else locked
  | none => 0

-- Dropping an imbalance squares up the total issuance.
def dropPositive (amount : Balance) (st : State σ) : State σ :=
  update st fun b => { b with totalIssuance := saturatingAdd b.totalIssuance amount }

def dropNegative (amount : Balance) (st : State σ) : State σ :=
  update st fun b => { b with totalIssuance := saturatingSub b.totalIssuance amount }

def reapAccount (who : AccountId) (st : State σ) : State σ :=
  { st with system := { st.system with
      accountNonce := Function.update st.system.accountNonce who 0 } }

def onFreeTooLow (who : AccountId) (st : State σ) : State σ :=
  let dust := freeBalance st who
  let st := update st fun b => { b with
    freeBalance := Function.update b.freeBalance who none
    locks := Function.update b.locks who [] }
  let st := if dust = 0 then st else dropNegative dust st
  if st.balances.reservedBalance who = 0 then reapAccount who st else st

def onReservedTooLow (who : AccountId) (st : State σ) : State σ :=
  let dust := st.balances.reservedBalance who
  let st := update st fun b => { b with
    reservedBalance := Function.update b.reservedBalance who 0 }
  let st := if dust = 0 then st else dropNegative dust st
  if freeBalance st who = 0 then reapAccount who st else st

def setFreeBalance (who : AccountId) (balance : Balance) (st : State σ) : State σ :=
  let inserted := update st fun b => { b with
    freeBalance := Function.update b.freeBalance who (some balance) }
  if balance < st.balances.existentialDeposit then onFreeTooLow who inserted else inserted

def setReservedBalance (who : AccountId) (balance : Balance) (st : State σ) : State σ :=
  let inserted := update st fun b => { b with
    reservedBalance := Function.update b.reservedBalance who balance }
  if balance < st.balances.existentialDeposit then onReservedTooLow who inserted else inserted

def newAccount (who : AccountId) (st : State σ) : State σ :=
  { st with substrate := env.onNewAccount st who }

def ensureCanWithdraw (st : State σ) (who : AccountId) (reason : WithdrawReason)
    (newBalance : Balance) : Except String Unit :=
  if (reason = .reserve ∨ reason = .transfer) ∧ newBalance < vestingBalance st who then
    .error "vesting balance too high to send value"
  else if (st.balances.locks who).all fun lock =>
      decide (lock.untilBlock ≤ st.system.blockNumber) || decide (lock.amount ≤ newBalance) ||
        !lock.reasons.contains reason then
    .ok ()
  else .error "account liquidity restrictions prevent withdrawal"

-- `pow::Module::on_fee_withdrawn`.
def onFeeWithdrawn (amount : Balance) (st : State σ) : State σ :=
  { st with pow := { st.pow with totalFee := st.pow.totalFee + amount } }

def payTransferFee (fee : Balance) (st : State σ) : State σ :=
  onFeeWithdrawn fee (dropNegative fee st)

def transferLocal (transactor dest : AccountId) (newFromBalance newToBalance fee : Balance)
    (st : State σ) : State σ :=
  let st := setFreeBalance transactor newFromBalance st
  let st := if (st.balances.freeBalance dest).isSome then st else newAccount env dest st
  payTransferFee fee (setFreeBalance dest newToBalance st)

-- `Currency::transfer`. A destination in another shard is only debited here.
def transferFunds (transactor dest : AccountId) (value : Balance) (st : State σ) :
    Run (Outcome σ) :=
  let fee := st.balances.transferFee
  match checkedAdd value fee with
  | none => .ok (.fail st "got overflow after adding a fee to value")
  | some liability =>
  match checkedSub (freeBalance st transactor) liability with
  | none => .ok (.fail st "balance too low to send value")
  | some newFromBalance =>
  match ensureCanWithdraw st transactor .transfer newFromBalance with
  | .error error => .ok (.fail st error)
  | .ok () => do
    let cn ← Run.expect (← Sharding.getCurrShard st) "can't get current shard num"
    let c ← Sharding.getShardCount st
    let dn ← Run.expect (Sharding.shardNumFor dest c) "can't get target shard num"
    if cn ≠ dn then
      return ⟨payTransferFee fee (setFreeBalance transactor newFromBalance st), .ok (),
        [.outbound ⟨.coin, dest, value⟩]⟩
    else
      match checkedAdd (freeBalance st dest) value with
      | none => return .fail st "destination balance too high to receive value"
      | some newToBalance =>
        if transactor ≠ dest then
          return .done (transferLocal env transactor dest newFromBalance newToBalance fee st)
        else return .done st

def transfer (origin : Origin) (dest : Address) (value : Balance) (st : State σ) :
    Run (Outcome σ) :=
  match origin with
  | .signed transactor =>
    match st.lookup env dest with
    | .ok dest => transferFunds env transactor dest value st
    | .error error => .ok (.fail st error)
  | _ => .ok (.fail st "bad origin: expected to be a signed origin")

def setBalance (origin : Origin) (who : Address) (free reserved : Balance) (st : State σ) :
    Outcome σ :=
  match origin with
  | .root =>
    match st.lookup env who with
    | .ok who => .done (setReservedBalance who reserved (setFreeBalance who free st))
    | .error error => .fail st error
  | _ => .fail st "bad origin: expected to be a root origin"

-- The account is announced before the addition is checked.
def relayTransfer (tx : Bytes) (st : State σ) : Run (Outcome σ) := do
  let origin ← Run.expect (OriginExtrinsic.decode .balance tx)
    "called `Option::unwrap()` on a `None` value"
  let st := if (st.balances.freeBalance origin.dest).isSome then st
    else newAccount env origin.dest st
  match checkedAdd (freeBalance st origin.dest) origin.amount with
  | none => return .fail st "destination balance too high to receive value"
  | some toBalance =>
    return ⟨setFreeBalance origin.dest toBalance st, .ok (),
      [.inbound tx ⟨.coin, origin.dest, origin.amount⟩]⟩

-- `withdraw` with `ExistenceRequirement::KeepAlive`, its only use.
def withdraw (who : AccountId) (value : Balance) (reason : WithdrawReason) (st : State σ) :
    State σ × Except String Unit :=
  match checkedSub (freeBalance st who) value with
  | none => (st, .error "too few free funds in account")
  | some newBalance =>
    if newBalance < st.balances.existentialDeposit then
      (st, .error "payment would kill account")
    else
      match ensureCanWithdraw st who reason newBalance with
      | .error error => (st, .error error)
      | .ok () => (setFreeBalance who newBalance st, .ok ())

def makePayment (transactor : AccountId) (encodedLen : Nat) (st : State σ) :
    State σ × Except String Unit :=
  let fee := st.balances.transactionBaseFee +
    st.balances.transactionByteFee * balanceOfNumber (UInt64.ofNat encodedLen)
  match withdraw transactor fee .transactionPayment st with
  | (st, .error error) => (st, .error error)
  | (st, .ok ()) => (onFeeWithdrawn fee (dropNegative fee st), .ok ())

-- `deposit_creating`, with the imbalance it returns dropped by the caller.
def depositCreating (who : AccountId) (value : Balance) (st : State σ) : State σ :=
  let original := freeBalance st who
  let balance := original + value
  if balance < st.balances.existentialDeposit ∧ original = 0 then st
  else
    let updated :=
      if balance < st.balances.existentialDeposit then setFreeBalance who balance st
      else setFreeBalance who balance
        (if (st.balances.freeBalance who).isSome then st else newAccount env who st)
    if original ≤ balance then dropPositive (balance - original) updated
    else dropNegative (original - balance) updated

end Balances

end Yeeroot
