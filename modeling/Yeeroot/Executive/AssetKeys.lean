import Yeeroot.Executive.Ledger

namespace Yeeroot

open Scale

variable {σ : Type} (env : Substrate σ)
variable {st st' : State σ} {outcome : Outcome σ} {id : UInt32} {call : Call}

-- An asset that was issued, under the last two bytes of its issuer.
structure IssuedAsset where
  shardCode : Bytes
  id : UInt32
  issuer : AccountId
  deriving DecidableEq

def IssuedAsset.key (asset : IssuedAsset) : Bytes × UInt32 := (asset.shardCode, asset.id)

def shardCodeOf (issuer : AccountId) : Bytes :=
  issuer.val.drop (issuer.val.length - SHARD_CODE_SIZE)

def Call.isIssue : Call → Bool
  | .assetsIssue _ _ _ => true
  | _ => false

def issuedAsset (st : State σ) (uxt : UncheckedExtrinsic) (applied : Applied σ) :
    Option IssuedAsset :=
  if uxt.function.isIssue ∧ applied.result = .ok .success then
    (acceptedSender env st uxt).map fun issuer =>
      ⟨shardCodeOf issuer, st.assets.nextAssetId, issuer⟩
  else none

def issueStep (st : State σ) (step : ChainStep) (st' : State σ) (issued : List IssuedAsset) :
    Prop :=
  match step with
  | .start number => initializeBlock env number st = .ok st' ∧ issued = []
  | .apply uxt => ∃ applied, applyExtrinsic env uxt st = .ok applied ∧ st' = applied.state ∧
      issued = (issuedAsset env st uxt applied).toList
  | .finish number => finishBlock env number st = .ok st' ∧ issued = []

-- The balance map after an issue: the total supply is written under the asset's key.
def IssuedAsset.Written (asset : IssuedAsset) (call : Call) (st st' : State σ) : Prop :=
  ∃ name total decimals, call = .assetsIssue name total decimals ∧
    st'.assets.balances =
      Function.update st.assets.balances (asset.shardCode, asset.id, asset.issuer) total

-- Everything an issue does to the asset ids: it takes the next one and writes under it.
structure Issues (st st' : State σ) (call : Call) (asset : IssuedAsset) : Prop where
  code : asset.shardCode = shardCodeOf asset.issuer
  id : asset.id = st.assets.nextAssetId
  next : st'.assets.nextAssetId = st.assets.nextAssetId + 1
  written : asset.Written call st st'

theorem Assets.relayTransfer_nextAssetId {input : Bytes}
    (h : relayTransfer input st = .ok outcome) :
    outcome.state.assets.nextAssetId = st.assets.nextAssetId := by
  rcases relayTransfer_cases h with ⟨_, rfl⟩ | ⟨_, _, _, _, rfl⟩ <;> rfl

theorem Assets.transfer_nextAssetId {origin : Origin} {shardCode : ByteVec} {target : Address}
    {amount : Balance} (h : transfer env origin shardCode id target amount st = .ok outcome) :
    outcome.state.assets.nextAssetId = st.assets.nextAssetId := by
  cases transfers_of_transfer env h <;> rfl

theorem Relay.transfer_nextAssetId {relay : RelayCall} (h : transfer env relay st = .ok outcome) :
    outcome.state.assets.nextAssetId = st.assets.nextAssetId := by
  unfold transfer at h
  cases htype : relay.relayType with
  | balance =>
    rw [htype] at h
    obtain ⟨_, _, _, hcoins, _, h⟩ := Balances.relayTransfer_cases env h
    have hassets := congrArg AssetsState.nextAssetId hcoins.assets
    rcases h with ⟨_, rfl⟩ | ⟨_, _, rfl⟩
    · exact hassets
    · exact (congrArg AssetsState.nextAssetId
        (Balances.setFreeBalance_coinsOnly _ _ _).assets).trans hassets
  | assets =>
    rw [htype] at h
    exact Assets.relayTransfer_nextAssetId h

theorem dispatch_nextAssetId {origin : Origin} (h : dispatch env call origin st = .ok outcome)
    (hraw : call.rawWrite origin = false) :
    outcome.state.assets.nextAssetId = st.assets.nextAssetId ∨
      ∃ name total decimals sender, call = .assetsIssue name total decimals ∧
        origin = .signed sender ∧ outcome = Assets.issue origin name total decimals st := by
  cases dispatch_cases env h with
  | minor same _ => exact .inl (congrArg AssetsState.nextAssetId same.assets)
  | raw root _ => cases root.symm.trans hraw
  | transfer done =>
    exact .inl (congrArg AssetsState.nextAssetId (Balances.transfer_coinsOnly env done).assets)
  | assetsTransfer done => exact .inl (Assets.transfer_nextAssetId env done)
  | issue => exact .inr ⟨_, _, _, _, rfl, rfl, rfl⟩
  | @relay _ _ _ inner _ _ _ done =>
    have hsame : inner.state.assets.nextAssetId = st.assets.nextAssetId :=
      Relay.transfer_nextAssetId env done
    exact .inl hsame
  | setBalance =>
    exact .inl (congrArg AssetsState.nextAssetId (Balances.setBalance_coinsOnly env _ _ _ st).assets)
  | powInfo => exact .inl rfl
  | shardInfo => exact .inl rfl

theorem Assets.issueAsset_issues {base st : State σ} (issuer : AccountId) (name : ByteVec)
    (total : Balance) (decimals : UInt16) (hassets : base.assets = st.assets) :
    Issues st (issueAsset issuer name.bytes total decimals base) (.assetsIssue name total decimals)
      ⟨shardCodeOf issuer, st.assets.nextAssetId, issuer⟩ := by
  refine ⟨rfl, rfl, ?_, name, total, decimals, rfl, ?_⟩ <;> rw [← hassets] <;> rfl

theorem Issues.note {asset : IssuedAsset} (h : Issues st st' call asset) (encodedLen : Nat) :
    Issues st (noteAppliedExtrinsic encodedLen st') call asset :=
  ⟨h.code, h.id, h.next, h.written⟩

theorem IssuedAsset.Written.others {asset : IssuedAsset} (h : asset.Written call st st')
    {old : IssuedAsset} (hother : old.key ≠ asset.key) (who : AccountId) :
    st'.assets.balances (old.shardCode, old.id, who) =
      st.assets.balances (old.shardCode, old.id, who) := by
  obtain ⟨_, total, _, _, hbalances⟩ := h
  have hkey : (old.shardCode, old.id, who) ≠ (asset.shardCode, asset.id, asset.issuer) := by
    intro hsame
    simp only [Prod.mk.injEq] at hsame
    exact hother (Prod.ext hsame.1 hsame.2.1)
  rw [hbalances, Function.update_of_ne hkey]

theorem Call.eq_issue (h : call.isIssue = true) :
    ∃ name total decimals, call = .assetsIssue name total decimals := by
  cases call with
  | assetsIssue name total decimals => exact ⟨name, total, decimals, rfl⟩
  | _ => cases h

theorem issuedAsset_eq_none {uxt : UncheckedExtrinsic} (st : State σ) {applied : Applied σ}
    (h : ¬ (uxt.function.isIssue ∧ applied.result = .ok .success)) :
    issuedAsset env st uxt applied = none := if_neg h

theorem applySigned_issues {uxt : UncheckedExtrinsic} {st base : State σ} {sender : AccountId}
    (hsender : acceptedSender env st uxt = some sender) (hassets : base.assets = st.assets)
    (h : dispatch env uxt.function (.signed sender) base = .ok outcome) (hordinary : uxt.Ordinary) :
    let applied := outcome.applied uxt.encode.length
    (issuedAsset env st uxt applied = none ∧
      applied.state.assets.nextAssetId = st.assets.nextAssetId) ∨
    ∃ asset, issuedAsset env st uxt applied = some asset ∧
      Issues st applied.state uxt.function asset := by
  intro applied
  by_cases hissue : uxt.function.isIssue = true
  · obtain ⟨name, total, decimals, hcall⟩ := Call.eq_issue hissue
    rw [hcall] at h
    have houtcome : outcome = Assets.issue (.signed sender) name total decimals base :=
      (Except.ok.inj h).symm
    by_cases hlong : Assets.MAX_NAME_SIZE < name.bytes.length
    · refine .inl ⟨issuedAsset_eq_none env st ?_, ?_⟩
      · rintro ⟨_, hsuccess⟩
        simp only [applied, houtcome, Assets.issue, if_pos hlong, Outcome.applied, Outcome.fail,
          applyResult] at hsuccess
        split_ifs at hsuccess
        cases hsuccess
      · simp only [applied, houtcome, Assets.issue, if_pos hlong]
        exact congrArg AssetsState.nextAssetId hassets
    · have hdone : outcome = .done (Assets.issueAsset sender name.bytes total decimals base) := by
        rw [houtcome, Assets.issue, if_neg hlong]
      refine .inr ⟨⟨shardCodeOf sender, st.assets.nextAssetId, sender⟩, ?_, ?_⟩
      · rw [issuedAsset, hsender, if_pos ⟨hissue, by simp only [applied, hdone]; rfl⟩]
        rfl
      · simp only [applied, hdone, hcall]
        exact (Assets.issueAsset_issues sender name total decimals hassets).note _
  · refine .inl ⟨issuedAsset_eq_none env st fun hboth => hissue hboth.1, ?_⟩
    rcases dispatch_nextAssetId env h (hordinary sender) with hsame | ⟨_, _, _, _, hcall, _⟩
    · exact hsame.trans (congrArg AssetsState.nextAssetId hassets)
    · rw [hcall] at hissue
      exact absurd rfl hissue

theorem issueStep_cases {step : ChainStep} {issued : List IssuedAsset}
    (h : issueStep env st step st' issued) (hordinary : ∀ uxt, step = .apply uxt → uxt.Ordinary) :
    (issued = [] ∧ st'.assets.nextAssetId = st.assets.nextAssetId) ∨
      ∃ uxt asset, step = .apply uxt ∧ issued = [asset] ∧ Issues st st' uxt.function asset := by
  cases step with
  | start number =>
    obtain ⟨hopen, rfl⟩ := h
    exact .inl ⟨rfl, congrArg AssetsState.nextAssetId (initializeBlock_sameCore env hopen).assets⟩
  | finish number =>
    obtain ⟨hfinish, rfl⟩ := h
    obtain ⟨_, _, hstart, hpaid, hlogs⟩ := finishBlock_cases env hfinish
    have hassets := hlogs.assets.trans
      ((Pow.onFinalize_coinsOnly env hpaid).assets.trans hstart.assets)
    exact .inl ⟨rfl, congrArg AssetsState.nextAssetId hassets⟩
  | apply uxt =>
    obtain ⟨applied, happly, rfl, rfl⟩ := h
    have hnone : ∀ applied, uxt.signature = none → issuedAsset env st uxt applied = none := by
      intro applied hunsigned
      unfold issuedAsset
      split_ifs
      · rw [acceptedSender_unsigned env st hunsigned]
        rfl
      · rfl
    rcases applyExtrinsic_cases env happly with ⟨error, rfl⟩ |
      ⟨_, sender, paid, outcome, haccepted, _, hpaid, hdispatch, rfl⟩ |
      ⟨rtx, outcome, hunsigned, _, _, hdispatch, rfl⟩ | ⟨outcome, hunsigned, _, hdispatch, rfl⟩
    · refine .inl ⟨?_, rfl⟩
      rw [issuedAsset_eq_none env st fun hboth => (by cases hboth.2)]
      rfl
    · have hassets := (Balances.makePayment_coinsOnly sender uxt.encode.length st).assets
      rw [hpaid] at hassets
      have hbase : (incAccountNonce sender paid).assets = st.assets := hassets
      rcases applySigned_issues env (acceptedSender_of_accepted env haccepted) hbase hdispatch
        (hordinary uxt rfl) with ⟨hissued, hsame⟩ | ⟨asset, hissued, hissues⟩
      · exact .inl ⟨by rw [hissued]; rfl, hsame⟩
      · exact .inr ⟨uxt, asset, rfl, by rw [hissued]; rfl, hissues⟩
    · rcases dispatch_nextAssetId env hdispatch (Call.rawWrite_inherent _) with hsame |
        ⟨_, _, _, _, _, horigin, _⟩
      · exact .inl ⟨by rw [hnone _ hunsigned]; rfl, hsame⟩
      · cases horigin
    · rcases dispatch_nextAssetId env hdispatch (Call.rawWrite_inherent _) with hsame |
        ⟨_, _, _, _, _, horigin, _⟩
      · exact .inl ⟨by rw [hnone _ hunsigned]; rfl, hsame⟩
      · cases horigin

structure Shard (σ : Type) where
  num : UInt16
  count : UInt16
  state : State σ

-- The history of all shards: one of them takes a step, or it splits into two that both start
-- from its state. Every issue is executed on the shard of its issuer, and the id counter
-- does not wrap.
inductive History (allowed : UncheckedExtrinsic → Prop) (start : List (Shard σ)) :
    List IssuedAsset → List (Shard σ) → Prop where
  | start : History allowed start [] start
  | step {issued new : List IssuedAsset} {left right : List (Shard σ)} {shard : Shard σ}
      {step : ChainStep} {st' : State σ}
      (before : History allowed start issued (left ++ shard :: right))
      (permitted : ∀ uxt, step = .apply uxt → allowed uxt)
      (taken : issueStep env shard.state step st' new)
      (owned : ∀ asset ∈ new, Sharding.shardNumFor asset.issuer shard.count = some shard.num)
      (counts : ∀ asset ∈ new, asset.id.toNat + 1 < 2 ^ 32) :
      History allowed start (issued ++ new) (left ++ { shard with state := st' } :: right)
  | split {issued : List IssuedAsset} {left right : List (Shard σ)} {shard : Shard σ}
      (before : History allowed start issued (left ++ shard :: right))
      (fits : 2 * shard.count.toNat < 2 ^ 16) :
      History allowed start issued
        (left ++ ⟨shard.num, shard.count + shard.count, shard.state⟩ ::
          ⟨shard.num + shard.count, shard.count + shard.count, shard.state⟩ :: right)

-- The accounts of a shard, by the last two bytes that the shard map looks at.
def Shard.Owns (shard : Shard σ) (tail : Nat) : Prop :=
  tail % shard.count.toNat = shard.num.toNat

def Shard.Apart (shard shard' : Shard σ) : Prop := ∀ tail, shard.Owns tail → ¬ shard'.Owns tail

def IssuedAsset.tail (asset : IssuedAsset) : Nat := Sharding.tailValue asset.issuer.val

theorem tail_of_shardCodeOf {issuer issuer' : AccountId}
    (h : shardCodeOf issuer = shardCodeOf issuer') :
    Sharding.tailValue issuer.val = Sharding.tailValue issuer'.val := by
  have hlast : ∀ account : AccountId, ∀ i,
      account.val.getD (30 + i) 0 = (shardCodeOf account).getD i 0 := by
    intro account i
    simp [shardCodeOf, SHARD_CODE_SIZE, account.property, List.getD_eq_getElem?_getD]
  have hhigh := hlast issuer 0
  have hhigh' := hlast issuer' 0
  have hlow := hlast issuer 1
  have hlow' := hlast issuer' 1
  rw [h] at hhigh hlow
  unfold Sharding.tailValue
  rw [issuer.property, issuer'.property]
  simp only [Nat.reduceSub, Nat.reduceAdd] at *
  rw [hhigh, hlow, hhigh', hlow']

theorem owns_of_shardNumFor {asset : IssuedAsset} {shard : Shard σ}
    (h : Sharding.shardNumFor asset.issuer shard.count = some shard.num) :
    shard.Owns asset.tail := by
  obtain ⟨_, k, _, hcount, hnum⟩ := (Sharding.shardNumForBytes_eq_some _ _ _).mp h
  rw [Shard.Owns, hcount, hnum]
  rfl

-- Every issued id is below the counter of each shard that could issue under its code.
structure KeysFresh (issued : List IssuedAsset) (shards : List (Shard σ)) : Prop where
  small : ∀ shard ∈ shards, shard.num < shard.count
  apart : shards.Pairwise Shard.Apart
  codes : ∀ asset ∈ issued, asset.shardCode = shardCodeOf asset.issuer
  below : ∀ asset ∈ issued, ∀ shard ∈ shards, shard.Owns asset.tail →
    asset.id < shard.state.assets.nextAssetId
  nodup : (issued.map IssuedAsset.key).Nodup

section Split

def Shard.lower (shard : Shard σ) : Shard σ :=
  ⟨shard.num, shard.count + shard.count, shard.state⟩

def Shard.upper (shard : Shard σ) : Shard σ :=
  ⟨shard.num + shard.count, shard.count + shard.count, shard.state⟩

variable {shard child : Shard σ} (hsmall : shard.num < shard.count)
  (hfits : 2 * shard.count.toNat < 2 ^ 16)

include hsmall hfits

theorem toNat_children : shard.upper.count.toNat = 2 * shard.count.toNat ∧
    shard.upper.num.toNat = shard.num.toNat + shard.count.toNat := by
  have hlt := UInt16.lt_iff_toNat_lt.mp hsmall
  rw [Shard.upper, UInt16.toNat_add, UInt16.toNat_add]
  omega

theorem child_small (hchild : child = shard.lower ∨ child = shard.upper) :
    child.num < child.count := by
  have hlt := UInt16.lt_iff_toNat_lt.mp hsmall
  obtain ⟨hcount, hnum⟩ := toNat_children hsmall hfits
  have hcount' : shard.lower.count.toNat = 2 * shard.count.toNat := hcount
  have hnum' : shard.lower.num.toNat = shard.num.toNat := rfl
  rw [UInt16.lt_iff_toNat_lt]
  rcases hchild with rfl | rfl <;> omega

theorem owns_of_child {tail : Nat} (hchild : child = shard.lower ∨ child = shard.upper)
    (h : child.Owns tail) : shard.Owns tail := by
  have hlt := UInt16.lt_iff_toNat_lt.mp hsmall
  obtain ⟨hcount, hnum⟩ := toNat_children hsmall hfits
  have hchildCount : child.count.toNat = 2 * shard.count.toNat := by
    rcases hchild with rfl | rfl <;> exact hcount
  unfold Shard.Owns at h ⊢
  rw [hchildCount] at h
  rw [← Nat.mod_mod_of_dvd tail (Nat.dvd_mul_left shard.count.toNat 2), h]
  rcases hchild with rfl | rfl
  · exact Nat.mod_eq_of_lt hlt
  · rw [hnum, Nat.add_mod_right, Nat.mod_eq_of_lt hlt]

theorem children_apart : shard.lower.Apart shard.upper := by
  intro tail hlower hupper
  have hlt := UInt16.lt_iff_toNat_lt.mp hsmall
  obtain ⟨-, hnum⟩ := toNat_children hsmall hfits
  have hsame : shard.lower.num.toNat = shard.upper.num.toNat := hlower.symm.trans hupper
  have hnum' : shard.lower.num.toNat = shard.num.toNat := rfl
  omega

end Split

namespace KeysFresh

variable {issued : List IssuedAsset} {shards left right : List (Shard σ)} {shard : Shard σ}
  {asset : IssuedAsset}

theorem new_key (h : KeysFresh issued shards) (hmem : shard ∈ shards) {st' : State σ} {call : Call}
    (hissues : Issues shard.state st' call asset) (howns : shard.Owns asset.tail) :
    ∀ old ∈ issued, old.key ≠ asset.key := by
  intro old hold hkey
  obtain ⟨hcode, hid⟩ := Prod.mk.inj hkey
  rw [h.codes old hold, hissues.code] at hcode
  have htail : old.tail = asset.tail := tail_of_shardCodeOf hcode
  have hlt := h.below old hold shard hmem (htail ▸ howns)
  rw [hid, hissues.id] at hlt
  exact absurd hlt (UInt32.lt_irrefl _)

theorem advance (h : KeysFresh issued (left ++ shard :: right)) {st' : State σ}
    (hle : shard.state.assets.nextAssetId ≤ st'.assets.nextAssetId) :
    KeysFresh issued (left ++ { shard with state := st' } :: right) := by
  have hmem : ∀ {other}, other ∈ left ++ { shard with state := st' } :: right →
      other = { shard with state := st' } ∨ other ∈ left ++ shard :: right := by
    intro other hother
    simp only [List.mem_append, List.mem_cons] at hother ⊢
    tauto
  have hself : shard ∈ left ++ shard :: right := by simp
  refine ⟨fun other hother => ?_, ?_, h.codes, fun old hold other hother howns => ?_, h.nodup⟩
  · rcases hmem hother with rfl | hother
    · exact h.small shard hself
    · exact h.small other hother
  · have hapart := h.apart
    rw [List.pairwise_append, List.pairwise_cons] at hapart ⊢
    refine ⟨hapart.1, hapart.2.1, fun other hother other' hother' => ?_⟩
    rcases List.mem_cons.mp hother' with rfl | hother'
    · exact hapart.2.2 other hother shard List.mem_cons_self
    · exact hapart.2.2 other hother other' (List.mem_cons_of_mem _ hother')
  · rcases hmem hother with rfl | hother
    · exact UInt32.lt_of_lt_of_le (h.below old hold shard hself howns) hle
    · exact h.below old hold other hother howns

theorem add (h : KeysFresh issued shards) (hcode : asset.shardCode = shardCodeOf asset.issuer)
    (hnew : ∀ old ∈ issued, old.key ≠ asset.key)
    (hbelow : ∀ shard ∈ shards, shard.Owns asset.tail →
      asset.id < shard.state.assets.nextAssetId) :
    KeysFresh (issued ++ [asset]) shards := by
  refine ⟨h.small, h.apart, fun old hold => ?_, fun old hold other hother howns => ?_, ?_⟩
  · rcases List.mem_append.mp hold with hold | hold
    · exact h.codes old hold
    · exact List.mem_singleton.mp hold ▸ hcode
  · rcases List.mem_append.mp hold with hold | hold
    · exact h.below old hold other hother howns
    · obtain rfl := List.mem_singleton.mp hold
      exact hbelow other hother howns
  · rw [List.map_append, List.nodup_append]
    refine ⟨h.nodup, List.pairwise_singleton _ _, ?_⟩
    intro key hkey key' hkey' hsame
    obtain ⟨old, hold, rfl⟩ := List.mem_map.mp hkey
    exact hnew old hold (hsame.trans (List.mem_singleton.mp hkey'))

theorem issue (h : KeysFresh issued (left ++ shard :: right)) {st' : State σ} {call : Call}
    (hissues : Issues shard.state st' call asset) (howns : shard.Owns asset.tail)
    (hcounts : asset.id.toNat + 1 < 2 ^ 32) :
    KeysFresh (issued ++ [asset]) (left ++ { shard with state := st' } :: right) := by
  have hnext : st'.assets.nextAssetId.toNat = asset.id.toNat + 1 := by
    rw [hissues.next, ← hissues.id, UInt32.toNat_add]
    simp only [UInt32.reduceToNat]
    omega
  have hlt : asset.id < st'.assets.nextAssetId := by
    rw [UInt32.lt_iff_toNat_lt]
    omega
  have hle : shard.state.assets.nextAssetId ≤ st'.assets.nextAssetId :=
    hissues.id ▸ UInt32.le_of_lt hlt
  have hself : shard ∈ left ++ shard :: right := by simp
  refine (h.advance hle).add hissues.code (h.new_key hself hissues howns) ?_
  intro other hother howns'
  have hapart := h.apart
  rw [List.pairwise_append, List.pairwise_cons] at hapart
  rcases List.mem_append.mp hother with hother | hother
  · exact absurd howns (hapart.2.2 other hother shard List.mem_cons_self _ howns')
  · rcases List.mem_cons.mp hother with rfl | hother
    · exact hlt
    · exact absurd howns' (hapart.2.1.1 other hother _ howns)

theorem split (h : KeysFresh issued (left ++ shard :: right))
    (hfits : 2 * shard.count.toNat < 2 ^ 16) :
    KeysFresh issued (left ++ shard.lower :: shard.upper :: right) := by
  have hself : shard ∈ left ++ shard :: right := by simp
  have hsmall := h.small shard hself
  have hchild : ∀ {child}, child = shard.lower ∨ child = shard.upper → ∀ tail,
      child.Owns tail → shard.Owns tail :=
    fun hchild _ howns => owns_of_child hsmall hfits hchild howns
  have hmem : ∀ {other}, other ∈ left ++ shard.lower :: shard.upper :: right →
      other ∈ left ++ shard :: right ∨ other = shard.lower ∨ other = shard.upper := by
    intro other hother
    simp only [List.mem_append, List.mem_cons] at hother ⊢
    tauto
  refine ⟨fun other hother => ?_, ?_, h.codes, fun old hold other hother howns => ?_, h.nodup⟩
  · rcases hmem hother with hother | hnew
    · exact h.small other hother
    · exact child_small hsmall hfits hnew
  · have hapart := h.apart
    rw [List.pairwise_append, List.pairwise_cons] at hapart
    obtain ⟨hleft, ⟨hright, hrest⟩, hcross⟩ := hapart
    rw [List.pairwise_append, List.pairwise_cons, List.pairwise_cons]
    refine ⟨hleft, ⟨fun other hother => ?_, fun other hother tail howns => ?_, hrest⟩,
      fun other hother other' hother' tail howns howns' => ?_⟩
    · rcases List.mem_cons.mp hother with rfl | hother
      · exact children_apart hsmall hfits
      · exact fun tail howns => hright other hother tail (hchild (.inl rfl) tail howns)
    · exact hright other hother tail (hchild (.inr rfl) tail howns)
    · rcases List.mem_cons.mp hother' with rfl | hother'
      · exact hcross other hother shard List.mem_cons_self tail howns
          (hchild (.inl rfl) tail howns')
      · rcases List.mem_cons.mp hother' with rfl | hother'
        · exact hcross other hother shard List.mem_cons_self tail howns
            (hchild (.inr rfl) tail howns')
        · exact hcross other hother other' (List.mem_cons_of_mem _ hother') tail howns howns'
  · rcases hmem hother with hother | hnew
    · exact h.below old hold other hother howns
    · have hlt := h.below old hold shard hself (hchild hnew _ howns)
      rcases hnew with rfl | rfl <;> exact hlt

end KeysFresh

theorem History.keysFresh {start final : List (Shard σ)} {issued : List IssuedAsset}
    (h : History env UncheckedExtrinsic.Ordinary start issued final)
    (hstart : KeysFresh [] start) : KeysFresh issued final := by
  induction h with
  | start => exact hstart
  | split _ fits ih => exact ih.split fits
  | step _ permitted taken owned counts ih =>
    rcases issueStep_cases env taken permitted with
      ⟨rfl, hsame⟩ | ⟨_, asset, _, rfl, hissues⟩
    · rw [List.append_nil]
      exact ih.advance (hsame ▸ UInt32.le_refl _)
    · exact ih.issue hissues (owns_of_shardNumFor (owned asset List.mem_cons_self))
        (counts asset List.mem_cons_self)

theorem keysFresh_start {start : List (Shard σ)} {count : UInt16}
    (hcount : ∀ shard ∈ start, shard.count = count ∧ shard.num < count)
    (hnums : (start.map Shard.num).Nodup) : KeysFresh [] start := by
  refine ⟨fun shard hmem => ?_, ?_, by simp, by simp, List.nodup_nil⟩
  · obtain ⟨hsame, hlt⟩ := hcount shard hmem
    exact hsame ▸ hlt
  · have hpairs := List.pairwise_map.mp hnums
    refine hpairs.imp_of_mem ?_
    intro shard shard' hmem hmem' hne tail howns howns'
    rw [Shard.Owns, (hcount shard hmem).1] at howns
    rw [Shard.Owns, (hcount shard' hmem').1] at howns'
    exact hne (UInt16.toNat_inj.mp (howns.symm.trans howns'))

-- No two issues create the same key. An issue writes the total supply under the key it reports
-- and nothing else, so no balance of an asset that was issued before.
theorem asset_keys_unique {start final : List (Shard σ)} {issued : List IssuedAsset}
    {count : UInt16} (hcount : ∀ shard ∈ start, shard.count = count ∧ shard.num < count)
    (hnums : (start.map Shard.num).Nodup)
    (h : History env UncheckedExtrinsic.Ordinary start issued final) :
    (issued.map IssuedAsset.key).Nodup ∧
    ∀ shard ∈ final, ∀ uxt st' asset, uxt.Ordinary →
      issueStep env shard.state (.apply uxt) st' [asset] →
      Sharding.shardNumFor asset.issuer shard.count = some shard.num →
      asset.Written uxt.function shard.state st' ∧
      ∀ old ∈ issued, old.key ≠ asset.key ∧ ∀ who,
        st'.assets.balances (old.shardCode, old.id, who) =
          shard.state.assets.balances (old.shardCode, old.id, who) := by
  have hfresh := h.keysFresh env (keysFresh_start hcount hnums)
  refine ⟨hfresh.nodup, fun shard hmem uxt st' asset hordinary htaken howned => ?_⟩
  have hpermitted : ∀ other, ChainStep.apply uxt = .apply other → other.Ordinary := by
    rintro other ⟨⟩
    exact hordinary
  rcases issueStep_cases env htaken hpermitted with ⟨hnone, _⟩ | ⟨_, _, ⟨⟩, hone, hissues⟩
  · cases hnone
  · obtain rfl := List.singleton_inj.mp hone
    refine ⟨hissues.written, fun old hold => ?_⟩
    have hnew := hfresh.new_key hmem hissues (owns_of_shardNumFor howned) old hold
    exact ⟨hnew, hissues.written.others hnew⟩

theorem History.single {allowed : UncheckedExtrinsic → Prop} {start : List (Shard σ)}
    {issued new : List IssuedAsset} {num count : UInt16} {step : ChainStep}
    (before : History env allowed start issued [⟨num, count, st⟩])
    (permitted : ∀ uxt, step = .apply uxt → allowed uxt) (taken : issueStep env st step st' new)
    (owned : ∀ asset ∈ new, Sharding.shardNumFor asset.issuer count = some num)
    (counts : ∀ asset ∈ new, asset.id.toNat + 1 < 2 ^ 32) :
    History env allowed start (issued ++ new) [⟨num, count, st'⟩] :=
  @History.step σ env allowed start issued new [] [] ⟨num, count, st⟩ step st' before permitted
    taken owned counts

-- One shard with a key that may act for root, and issues by accounts of it.
def issuingState : State Unit :=
  { plainState (some ⟨0, 1, none⟩) with sudoKeys := [filled 32 2] }

def issueOf (issuer : UInt8) (nonce : UInt64) : UncheckedExtrinsic :=
  ⟨some ⟨.id (filled 32 issuer), filled 64 7, nonce, .immortal⟩,
    .assetsIssue ⟨[65], by decide⟩ 100 0⟩

theorem issueOf_ordinary (issuer : UInt8) (nonce : UInt64) :
    ∀ uxt, ChainStep.apply (issueOf issuer nonce) = .apply uxt → uxt.Ordinary := by
  rintro uxt ⟨⟩ sender
  rfl

def assetOf (issuer : UInt8) (id : UInt32) : IssuedAsset := ⟨[issuer, issuer], id, filled 32 issuer⟩

theorem assetOf_owned {issuer : UInt8} {num count : UInt16}
    (h : Sharding.shardNumFor (filled 32 issuer) count = some num) :
    ∀ asset ∈ [assetOf issuer id], Sharding.shardNumFor asset.issuer count = some num := by
  intro asset hmem
  rw [List.mem_singleton.mp hmem]
  exact h

theorem assetOf_counts (issuer : UInt8) (h : id.toNat + 1 < 2 ^ 32) :
    ∀ asset ∈ [assetOf issuer id], asset.id.toNat + 1 < 2 ^ 32 := by
  intro asset hmem
  rw [List.mem_singleton.mp hmem]
  exact h

-- An issue before the split and one in each child, the last by the first issuer.
theorem asset_keys_unique_split : ∃ lower upper : Shard Unit, ∃ st',
    History plainSubstrate UncheckedExtrinsic.Ordinary [⟨0, 1, issuingState⟩]
      [assetOf 1 0, assetOf 2 1] [lower, upper] ∧
    History plainSubstrate UncheckedExtrinsic.Ordinary [⟨0, 1, issuingState⟩]
      [assetOf 1 0, assetOf 2 1, assetOf 1 1] [lower, { upper with state := st' }] ∧
    (lower.num, lower.count) = (0, 2) ∧ (upper.num, upper.count) = (1, 2) ∧
    ([assetOf 1 0, assetOf 2 1, assetOf 1 1].map IssuedAsset.key).Nodup ∧
    (assetOf 1 1).Written (issueOf 1 1).function upper.state st' ∧
    ∀ old ∈ [assetOf 1 0, assetOf 2 1], old.key ≠ (assetOf 1 1).key ∧ ∀ who,
      st'.assets.balances (old.shardCode, old.id, who) =
        upper.state.assets.balances (old.shardCode, old.id, who) := by
  have hrun : ((applyExtrinsic plainSubstrate (issueOf 1 0) issuingState).toOption.bind
      fun first => (applyExtrinsic plainSubstrate (issueOf 2 0) first.state).toOption.bind
      fun left => (applyExtrinsic plainSubstrate (issueOf 1 1) first.state).toOption.bind
      fun right => some (issuedAsset plainSubstrate issuingState (issueOf 1 0) first,
        issuedAsset plainSubstrate first.state (issueOf 2 0) left,
        issuedAsset plainSubstrate first.state (issueOf 1 1) right)) =
      some (some (assetOf 1 0), some (assetOf 2 1), some (assetOf 1 1)) := by
    decide +kernel
  obtain ⟨first, hfirst, hrun⟩ := Run.exists_of_toOption hrun
  obtain ⟨left, hleft, hrun⟩ := Run.exists_of_toOption hrun
  obtain ⟨right, hright, hrun⟩ := Run.exists_of_toOption hrun
  simp only [Option.some.injEq, Prod.mk.injEq] at hrun
  obtain ⟨hissued, hissuedLeft, hissuedRight⟩ := hrun
  have htaken : issueStep plainSubstrate issuingState (.apply (issueOf 1 0)) first.state
      [assetOf 1 0] := ⟨first, hfirst, rfl, by rw [hissued]; rfl⟩
  have htakenLeft : issueStep plainSubstrate first.state (.apply (issueOf 2 0)) left.state
      [assetOf 2 1] := ⟨left, hleft, rfl, by rw [hissuedLeft]; rfl⟩
  have htakenRight : issueStep plainSubstrate first.state (.apply (issueOf 1 1)) right.state
      [assetOf 1 1] := ⟨right, hright, rfl, by rw [hissuedRight]; rfl⟩
  have hstep : History plainSubstrate UncheckedExtrinsic.Ordinary [⟨0, 1, issuingState⟩]
      [assetOf 1 0] [⟨0, 1, first.state⟩] :=
    History.single _ .start (issueOf_ordinary 1 0) htaken (assetOf_owned (by decide))
      (assetOf_counts 1 (by decide))
  have hsplit := @History.split Unit plainSubstrate _ _ _ [] [] ⟨0, 1, first.state⟩ hstep
    (show 2 * (1 : UInt16).toNat < 2 ^ 16 by decide)
  have hownsLower : Sharding.shardNumFor (filled 32 2) 2 = some 0 := by decide
  have hownsUpper : Sharding.shardNumFor (filled 32 1) 2 = some 1 := by decide
  have hlower := @History.step Unit plainSubstrate _ _ _ _ [] _ ⟨0, 2, first.state⟩ _ _ hsplit
    (issueOf_ordinary 2 0) htakenLeft (assetOf_owned hownsLower) (assetOf_counts 2 (by decide))
  have hupper := @History.step Unit plainSubstrate _ _ _ _ [⟨0, 2, left.state⟩] []
    ⟨1, 2, first.state⟩ _ _ hlower (issueOf_ordinary 1 1) htakenRight
    (assetOf_owned hownsUpper) (assetOf_counts 1 (by decide))
  have hcount : ∀ shard ∈ [(⟨0, 1, issuingState⟩ : Shard Unit)],
      shard.count = 1 ∧ shard.num < 1 := by
    intro shard hmem
    rw [List.mem_singleton.mp hmem]
    decide
  have hnums := List.pairwise_singleton (· ≠ ·) (0 : UInt16)
  refine ⟨_, _, _, hlower, hupper, rfl, rfl,
    (asset_keys_unique plainSubstrate hcount hnums hupper).1, ?_⟩
  exact (asset_keys_unique plainSubstrate hcount hnums hlower).2 ⟨1, 2, first.state⟩
    (List.mem_cons_of_mem _ List.mem_cons_self) (issueOf 1 1) right.state (assetOf 1 1)
    (issueOf_ordinary 1 1 _ rfl) htakenRight hownsUpper

-- Root removes the counter, and the next issue takes the same key again.
theorem counter_overwritten : ∃ final,
    History rootSubstrate (fun _ => True) [⟨0, 1, issuingState⟩] [assetOf 1 0, assetOf 1 0]
      final := by
  let reset := rootCall (filled 32 2) nextAssetIdKey
  have hrun : ((applyExtrinsic rootSubstrate (issueOf 1 0) issuingState).toOption.bind
      fun first => (applyExtrinsic rootSubstrate reset first.state).toOption.bind
      fun root => (applyExtrinsic rootSubstrate (issueOf 1 1) root.state).toOption.bind
      fun second => some (issuedAsset rootSubstrate issuingState (issueOf 1 0) first,
        issuedAsset rootSubstrate first.state reset root,
        issuedAsset rootSubstrate root.state (issueOf 1 1) second)) =
      some (some (assetOf 1 0), none, some (assetOf 1 0)) := by
    decide +kernel
  obtain ⟨first, hfirst, hrun⟩ := Run.exists_of_toOption hrun
  obtain ⟨root, hroot, hrun⟩ := Run.exists_of_toOption hrun
  obtain ⟨second, hsecond, hrun⟩ := Run.exists_of_toOption hrun
  simp only [Option.some.injEq, Prod.mk.injEq] at hrun
  obtain ⟨hissued, hnone, hagain⟩ := hrun
  have htaken : issueStep rootSubstrate issuingState (.apply (issueOf 1 0)) first.state
      [assetOf 1 0] := ⟨first, hfirst, rfl, by rw [hissued]; rfl⟩
  have hreset : issueStep rootSubstrate first.state (.apply reset) root.state [] :=
    ⟨root, hroot, rfl, by rw [hnone]; rfl⟩
  have htaken' : issueStep rootSubstrate root.state (.apply (issueOf 1 1)) second.state
      [assetOf 1 0] := ⟨second, hsecond, rfl, by rw [hagain]; rfl⟩
  have hhistory : History rootSubstrate (fun _ => True) [⟨0, 1, issuingState⟩]
      [assetOf 1 0] [⟨0, 1, first.state⟩] :=
    History.single _ .start (fun _ _ => trivial) htaken (assetOf_owned (by decide))
      (assetOf_counts 1 (by decide))
  have hhistory' : History rootSubstrate (fun _ => True) [⟨0, 1, issuingState⟩]
      [assetOf 1 0] [⟨0, 1, root.state⟩] :=
    hhistory.single _ (fun _ _ => trivial) hreset (by simp) (by simp)
  exact ⟨_, hhistory'.single _ (fun _ _ => trivial) htaken' (assetOf_owned (by decide))
    (assetOf_counts 1 (by decide))⟩

end Yeeroot
