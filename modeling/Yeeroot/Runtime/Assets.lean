import Yeeroot.Runtime.Balances

namespace Yeeroot.Assets

open Scale

variable {σ : Type} (env : Substrate σ)

def MAX_NAME_SIZE : Nat := 16

def update (st : State σ) (f : AssetsState → AssetsState) : State σ :=
  { st with assets := f st.assets }

def setBalance (key : AssetKey) (balance : Balance) (st : State σ) : State σ :=
  update st fun a => { a with balances := Function.update a.balances key balance }

def issueAsset (origin : AccountId) (name : Bytes) (total : Balance) (decimals : UInt16)
    (st : State σ) : State σ :=
  let id := st.assets.nextAssetId
  let shardCode := origin.val.drop (origin.val.length - SHARD_CODE_SIZE)
  let st := setBalance (shardCode, id, origin) total st
  update st fun a => { a with
    nextAssetId := id + 1
    totalSupply := Function.update a.totalSupply id total
    assetsName := Function.update a.assetsName id name
    assetsDecimals := Function.update a.assetsDecimals id decimals
    assetsIssuer := Function.update a.assetsIssuer id origin }

def issue (origin : Origin) (name : ByteVec) (total : Balance) (decimals : UInt16)
    (st : State σ) : Outcome σ :=
  match origin with
  | .signed origin =>
    if MAX_NAME_SIZE < name.bytes.length then .fail st "Asset's name's length overflow."
    else .done (issueAsset origin name.bytes total decimals st)
  | _ => .fail st "bad origin: expected to be a signed origin"

-- The sender's balance is written before the target is looked up.
def transfer (origin : Origin) (shardCode : ByteVec) (id : UInt32) (target : Address)
    (amount : Balance) (st : State σ) : Run (Outcome σ) :=
  match origin with
  | .signed origin =>
    let originBalance := st.assets.balances (shardCode.bytes, id, origin)
    if amount = 0 then .ok (.fail st "transfer amount should be non-zero")
    else if originBalance < amount then
      .ok (.fail st
        "origin account balance must be greater than or equal to the transfer amount")
    else
      let st := setBalance (shardCode.bytes, id, origin) (originBalance - amount) st
      match st.lookup env target with
      | .error error => .ok (.fail st error)
      | .ok target => do
        let cn ← Run.expect (← Sharding.getCurrShard st) "can't get current shard num"
        let c ← Sharding.getShardCount st
        let dn ← Run.expect (Sharding.shardNumFor target c) "can't get target shard num"
        if cn = dn then
          let key := (shardCode.bytes, id, target)
          return .done (setBalance key (st.assets.balances key + amount) st)
        else
          return ⟨st, .ok (), [.outbound ⟨.asset shardCode.bytes id, target, amount⟩]⟩
  | _ => .ok (.fail st "bad origin: expected to be a signed origin")

def relayTransfer (input : Bytes) (st : State σ) : Run (Outcome σ) :=
  match OriginExtrinsic.decode .assets input with
  | some tx => do
    let id ← Run.expect tx.id "called `Option::unwrap()` on a `None` value"
    let key := (tx.shard, id, tx.dest)
    return ⟨setBalance key (st.assets.balances key + tx.amount) st, .ok (),
      [.inbound input ⟨.asset tx.shard id, tx.dest, tx.amount⟩]⟩
  | none => .ok (.fail st "transfer is invalid.")

end Yeeroot.Assets
