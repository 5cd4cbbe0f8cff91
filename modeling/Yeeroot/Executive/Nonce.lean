import Mathlib.Data.List.Nodup
import Yeeroot.Executive.Accounts
import Yeeroot.Executive.Split

namespace Yeeroot

open Scale Transition

variable {σ : Type} (env : Substrate σ)

-- An account that has sent something is kept alive by a balance.
def Backed (who : AccountId) (st : State σ) : Prop :=
  st.system.accountNonce who = 0 ∨
    st.balances.existentialDeposit ≤ Balances.freeBalance st who ∨
    st.balances.reservedBalance who ≠ 0

structure Kept (who : AccountId) (st st' : State σ) : Prop where
  nonce : st'.system.accountNonce who = st.system.accountNonce who
  backed : Backed who st'

namespace Kept

variable {who : AccountId} {st st' st'' : State σ}

theorem trans (h : Kept who st st') (h' : Kept who st' st'') : Kept who st st'' :=
  ⟨h'.nonce.trans h.nonce, h'.backed⟩

theorem of_same (hbacked : Backed who st) (h : State.SameAccounts st st') : Kept who st st' := by
  refine ⟨by rw [h.accountNonce], ?_⟩
  simpa only [Backed, Balances.freeBalance, h.balances, h.accountNonce] using hbacked

end Kept

theorem setFreeBalance_kept {who : AccountId} {st : State σ} (target : AccountId)
    (balance : Balance) (hbacked : Backed who st)
    (hlow : target = who → balance < st.balances.existentialDeposit →
      st.balances.reservedBalance who = 0 → st.system.accountNonce who = 0) :
    Kept who st (Balances.setFreeBalance target balance st) := by
  by_cases hother : target = who
  · subst hother
    by_cases hkilled : balance < st.balances.existentialDeposit
    · by_cases hreserved : st.balances.reservedBalance target = 0
      · have hzero := hlow rfl hkilled hreserved
        refine ⟨?_, .inl ?_⟩ <;>
          simp [Balances.setFreeBalance_accountNonce, hkilled, hreserved, hzero]
      · refine ⟨?_, .inr (.inr ?_)⟩
        · rw [Balances.setFreeBalance_accountNonce, if_neg fun h => hreserved h.2]
        · simpa [Balances.setFreeBalance_balances, hkilled] using hreserved
    · refine ⟨?_, .inr (.inl ?_)⟩
      · simp [Balances.setFreeBalance_accountNonce, hkilled]
      · simp [Balances.freeBalance, Balances.setFreeBalance_balances, hkilled,
          BitVec.not_lt.mp hkilled]
  · have hnonce : (Balances.setFreeBalance target balance st).system.accountNonce who =
        st.system.accountNonce who := by
      rw [Balances.setFreeBalance_accountNonce]
      split_ifs
      · exact Function.update_of_ne (Ne.symm hother) _ _
      · rfl
    refine ⟨hnonce, ?_⟩
    unfold Backed Balances.freeBalance
    rw [hnonce, Balances.setFreeBalance_balances]
    unfold Backed Balances.freeBalance at hbacked
    split_ifs <;> simpa [Function.update_of_ne (Ne.symm hother)] using hbacked

theorem setFreeBalance_kept_of_le {who : AccountId} {st : State σ} (target : AccountId)
    (balance : Balance) (hbacked : Backed who st)
    (hgrows : target = who → (Balances.freeBalance st who).toNat ≤ balance.toNat) :
    Kept who st (Balances.setFreeBalance target balance st) := by
  refine setFreeBalance_kept target balance hbacked fun htarget hkilled hreserved => ?_
  rcases hbacked with hzero | hrich | hreserve
  · exact hzero
  · have hle : st.balances.existentialDeposit.toNat ≤ (Balances.freeBalance st who).toNat := hrich
    have hlt : balance.toNat < st.balances.existentialDeposit.toNat := hkilled
    have hgrow := hgrows htarget
    omega
  · exact absurd hreserved hreserve

theorem setReservedBalance_kept {who target : AccountId} {reserved : Balance} {st : State σ}
    (hbacked : Backed who st)
    (hlive : target = who → st.balances.existentialDeposit ≤ Balances.freeBalance st who ∨
      st.balances.existentialDeposit ≤ reserved ∧ reserved ≠ 0) :
    Kept who st (Balances.setReservedBalance target reserved st) := by
  have hnonce : (Balances.setReservedBalance target reserved st).system.accountNonce who =
      st.system.accountNonce who := by
    rw [Balances.setReservedBalance_accountNonce]
    split_ifs with hreaped
    · by_cases hother : target = who
      · -- Nothing is below a deposit of zero.
        have hlt : reserved.toNat < st.balances.existentialDeposit.toNat := hreaped.1
        rcases hlive hother with hrich | ⟨henough, _⟩
        · rw [← hother, hreaped.2] at hrich
          have hle : st.balances.existentialDeposit.toNat ≤ 0 := hrich
          omega
        · have hle : st.balances.existentialDeposit.toNat ≤ reserved.toNat := henough
          omega
      · exact Function.update_of_ne (Ne.symm hother) _ _
    · rfl
  refine ⟨hnonce, ?_⟩
  by_cases hother : target = who
  · subst hother
    rcases hlive rfl with hrich | ⟨henough, hsome⟩
    · refine .inr (.inl ?_)
      unfold Balances.freeBalance at hrich ⊢
      rw [Balances.setReservedBalance_balances]
      split_ifs <;> exact hrich
    · refine .inr (.inr ?_)
      rw [Balances.setReservedBalance_balances, if_neg (BitVec.not_lt.mpr henough)]
      simpa using hsome
  · unfold Backed Balances.freeBalance at hbacked ⊢
    rw [hnonce, Balances.setReservedBalance_balances]
    split_ifs <;> simpa [Function.update_of_ne (Ne.symm hother)] using hbacked

-- The call reaps the account: a coin transfer of its own leaves too little, or root sets its
-- balances too low.
def Call.Reaps (st : State σ) (who : AccountId) (call : Call) (origin : Origin) : Prop :=
  (∃ dest value account newFromBalance, call = .balancesTransfer dest value ∧
    origin = .signed who ∧ st.lookup env dest = .ok account ∧
    Balances.Debits st who account value newFromBalance ∧
    newFromBalance < st.balances.existentialDeposit ∧ st.balances.reservedBalance who = 0) ∨
  ∃ target free reserved, origin.Privileged st ∧
    call.setBalance? = some (target, free, reserved) ∧ st.lookup env target = .ok who ∧
    free < st.balances.existentialDeposit ∧
    (st.balances.reservedBalance who = 0 ∨ reserved < st.balances.existentialDeposit)

theorem payTransferFee_kept {who : AccountId} (fee : Balance) {st : State σ}
    (hbacked : Backed who st) : Kept who st (Balances.payTransferFee fee st) :=
  ⟨rfl, hbacked⟩

theorem transferLocal_kept {who transactor dest : AccountId} {newFromBalance newToBalance : Balance}
    {st : State σ} (fee : Balance)
    (hdebited : Kept who st (Balances.setFreeBalance transactor newFromBalance st))
    (hother : transactor ≠ dest)
    (hgrows : (Balances.freeBalance st dest).toNat ≤ newToBalance.toNat) :
    Kept who st (Balances.transferLocal env transactor dest newFromBalance newToBalance fee st) := by
  let debited := Balances.setFreeBalance transactor newFromBalance st
  have hannounced := hdebited.trans (.of_same hdebited.backed
    (Balances.ensureAccount_sameAccounts env dest (debited.balances.freeBalance dest).isSome debited))
  have hcredited := hannounced.trans (setFreeBalance_kept_of_le dest newToBalance
    hannounced.backed fun hdest => by
      rw [Balances.freeBalance_ensureAccount, Balances.freeBalance_setFreeBalance,
        if_neg (hdest ▸ hother.symm), ← hdest]
      exact hgrows)
  exact hcredited.trans (payTransferFee_kept fee hcredited.backed)

theorem setBalance_kept {who account : AccountId} {free reserved : Balance} {st : State σ}
    (hbacked : Backed who st)
    (hlive : account = who → st.balances.existentialDeposit ≤ free ∨
      st.balances.reservedBalance who ≠ 0 ∧ st.balances.existentialDeposit ≤ reserved) :
    Kept who st
      (Balances.setReservedBalance account reserved (Balances.setFreeBalance account free st)) := by
  have hfree : Kept who st (Balances.setFreeBalance account free st) :=
    setFreeBalance_kept account free hbacked fun haccount hlow hreserved => by
      rcases hlive haccount with henough | ⟨hsome, _⟩
      · exact absurd hlow (BitVec.not_lt.mpr henough)
      · exact absurd hreserved hsome
  refine hfree.trans (setReservedBalance_kept hfree.backed fun haccount => ?_)
  rw [Balances.setFreeBalance_existentialDeposit, Balances.freeBalance_setFreeBalance,
    if_pos haccount.symm]
  by_cases hlow : free < st.balances.existentialDeposit
  · rcases hlive haccount with henough | ⟨_, henough⟩
    · exact absurd hlow (BitVec.not_lt.mpr henough)
    · refine .inr ⟨henough, fun hzero => ?_⟩
      have hlt : free.toNat < st.balances.existentialDeposit.toNat := hlow
      have hle : st.balances.existentialDeposit.toNat ≤ reserved.toNat := henough
      rw [hzero] at hle
      simp at hle
      omega
  · rw [if_neg hlow]
    exact .inl (BitVec.not_lt.mp hlow)

theorem AccountWrite.kept {st st' : State σ} {call : Call} {origin : Origin} {who : AccountId}
    (h : AccountWrite env st call origin st') (hbacked : Backed who st)
    (hspared : ¬ call.Reaps env st who origin) : Kept who st st' := by
  have hdebited : ∀ {dest value sender account newFromBalance},
      call = .balancesTransfer dest value → origin = .signed sender →
      st.lookup env dest = .ok account →
      Balances.Debits st sender account value newFromBalance →
      Kept who st (Balances.setFreeBalance sender newFromBalance st) := by
    intro dest value sender account newFromBalance hcall horigin hlook hdebits
    refine setFreeBalance_kept sender newFromBalance hbacked fun hsender hlow hreserved => ?_
    subst hsender
    exact absurd (.inl ⟨dest, value, account, newFromBalance, hcall, horigin, hlook, hdebits, hlow,
      hreserved⟩) hspared
  cases h with
  | none same => exact .of_same hbacked same
  | send lookup debits leaves =>
    have hsent := hdebited rfl rfl lookup debits
    exact hsent.trans (payTransferFee_kept _ hsent.backed)
  | move lookup debits other stays credits =>
    refine transferLocal_kept env _ (hdebited rfl rfl lookup debits) other ?_
    rw [toNat_of_checkedAdd credits]
    omega
  | credit relayed coins decoded same credits =>
    have hannounced := Kept.of_same hbacked same
    refine hannounced.trans (setFreeBalance_kept_of_le _ _ hannounced.backed fun hdest => ?_)
    rw [toNat_of_checkedAdd credits, ← hdest]
    unfold Balances.freeBalance
    rw [same.balances]
    omega
  | set privileged asked lookup =>
    refine setBalance_kept hbacked fun haccount => ?_
    subst haccount
    by_contra hlow
    rw [not_or, not_and, BitVec.not_le, BitVec.not_le] at hlow
    exact hspared (.inr ⟨_, _, _, privileged, asked, lookup, hlow.1,
      or_iff_not_imp_left.mpr hlow.2⟩)

theorem makePayment_kept {who transactor : AccountId} {encodedLen : Nat} {st paid : State σ}
    (h : Balances.makePayment transactor encodedLen st = (paid, .ok ())) (hbacked : Backed who st) :
    Kept who st paid ∧ paid.balances.existentialDeposit ≤ Balances.freeBalance paid transactor := by
  obtain ⟨fee, newBalance, rfl, _, henough⟩ := Balances.makePayment_ok h
  have hlive := BitVec.not_lt.mpr henough
  have hpaid := setFreeBalance_kept transactor newBalance hbacked fun _ hlow => absurd hlow hlive
  refine ⟨hpaid.trans (payTransferFee_kept fee hpaid.backed), ?_⟩
  have hfree : Balances.freeBalance (Balances.payTransferFee fee
      (Balances.setFreeBalance transactor newBalance st)) transactor = newBalance := by
    have hset := Balances.freeBalance_setFreeBalance transactor newBalance st transactor
    rwa [if_pos rfl, if_neg hlive] at hset
  have hdeposit := Balances.setFreeBalance_existentialDeposit transactor newBalance st
  rw [hfree]
  exact le_of_eq_of_le hdeposit henough

-- An account is kept, with its nonce, and has room for rewards.
def KeptWithRoom (who : AccountId) (nonce : UInt64) (room : Nat) (st : State σ) : Prop :=
  Backed who st ∧ st.system.accountNonce who = nonce ∧
    (Balances.freeBalance st who).toNat + room < 2 ^ 128

theorem keptWithRoom_payable (who : AccountId) (nonce : UInt64) :
    Payable env (KeptWithRoom who nonce) where
  same hsame h := by
    refine ⟨(Kept.of_same h.1 hsame).backed, hsame.accountNonce ▸ h.2.1, ?_⟩
    simpa only [Balances.freeBalance, hsame.balances] using h.2.2
  less hle h := ⟨h.1, h.2.1, by have := h.2.2; omega⟩
  pay {room st} target value h := by
    obtain ⟨hbacked, hnonce, hroom⟩ := h
    rcases Balances.depositCreating_cases env target value st with ⟨hsame, _⟩ |
      ⟨base, hbase, _, hdeposit⟩
    · rw [hsame]
      exact ⟨hbacked, hnonce, by omega⟩
    · have hfree : ∀ account, Balances.freeBalance base account =
          Balances.freeBalance st account := by
        intro account
        rw [Balances.freeBalance, Balances.freeBalance, hbase.balances]
      have hsum : target = who → (Balances.freeBalance st target + value).toNat =
          (Balances.freeBalance st who).toNat + value.toNat := by
        intro htarget
        rw [htarget, BitVec.toNat_add, Nat.mod_eq_of_lt (by omega)]
      have hstart := Kept.of_same hbacked hbase
      have hpaid := hstart.trans (setFreeBalance_kept_of_le target
        (Balances.freeBalance st target + value) hstart.backed fun htarget => by
          rw [hsum htarget, hfree]
          omega)
      have hupdated : KeptWithRoom who nonce room
          (Balances.setFreeBalance target (Balances.freeBalance st target + value) base) := by
        refine ⟨hpaid.backed, hpaid.nonce.trans hnonce, ?_⟩
        rw [Balances.freeBalance_setFreeBalance]
        split_ifs with htarget
        · simp only [BitVec.ofNat_eq_ofNat, BitVec.toNat_ofNat, Nat.zero_mod]
          omega
        · rw [hsum htarget.symm]
          omega
        · rw [hfree]
          omega
      rw [hdeposit]
      split_ifs <;> exact hupdated

-- A chain step that reports the signed extrinsics it applies with success for the watched
-- accounts.
def executed (watched : AccountId → Bool) (st : State σ) (uxt : UncheckedExtrinsic)
    (applied : Applied σ) : List UncheckedExtrinsic :=
  match acceptedSender env st uxt with
  | some sender => if watched sender ∧ applied.result = .ok .success then [uxt] else []
  | none => []

def executeStep (watched : AccountId → Bool) (st : State σ) (step : ChainStep) (st' : State σ)
    (extrinsics : List UncheckedExtrinsic) : Prop :=
  match step with
  | .apply uxt => ∃ applied, applyExtrinsic env uxt st = .ok applied ∧ st' = applied.state ∧
      extrinsics = executed env watched st uxt applied
  | _ => chainStep env st step st' [] ∧ extrinsics = []

-- The step neither reaps a watched account nor overflows its nonce or its balance, and is no
-- raw write.
def ChainStep.Spares (watched : AccountId → Bool) (st : State σ) : ChainStep → Prop
  | .start _ => True
  | .apply uxt => ∀ info sender paid, AcceptedSender env st uxt info sender →
      Balances.makePayment sender uxt.encode.length st = (paid, .ok ()) →
      uxt.function.rawWrite (.signed sender) = false ∧
      (watched sender → (st.system.accountNonce sender).toNat + 1 < 2 ^ 64) ∧
      ∀ who, watched who → ¬ uxt.function.Reaps env paid who (.signed sender)
  | .finish number => ∀ who, watched who →
      (Balances.freeBalance st who).toNat + Pow.dueRewards number st < 2 ^ 128

theorem incAccountNonce_kept {who sender : AccountId} {st : State σ} (hbacked : Backed who st)
    (hlive : st.balances.existentialDeposit ≤ Balances.freeBalance st sender) :
    Backed who (incAccountNonce sender st) ∧
      (incAccountNonce sender st).system.accountNonce who =
        if who = sender then st.system.accountNonce sender + 1
        else st.system.accountNonce who := by
  by_cases hsender : who = sender
  · subst hsender
    exact ⟨.inr (.inl hlive), by simp [incAccountNonce]⟩
  · refine ⟨?_, by simp [incAccountNonce, hsender]⟩
    rcases hbacked with hzero | hlive | hreserved
    · exact .inl (by simpa [incAccountNonce, hsender] using hzero)
    · exact .inr (.inl hlive)
    · exact .inr (.inr hreserved)

theorem Call.not_reaps_inherent (call : Call) (st : State σ) (who : AccountId) :
    ¬ call.Reaps env st who .inherent := by
  simp [Call.Reaps, Origin.Privileged]

theorem dispatch_kept {call : Call} {origin : Origin} {st : State σ} {outcome : Outcome σ}
    {who : AccountId} (h : dispatch env call origin st = .ok outcome)
    (hraw : call.rawWrite origin = false) (hspared : ¬ call.Reaps env st who origin)
    (hbacked : Backed who st) : Kept who st outcome.state :=
  (dispatch_accountWrite env h hraw).kept env hbacked hspared

variable {uxt : UncheckedExtrinsic} {applied : Applied σ}

theorem applyExtrinsic_nonce {watched : AccountId → Bool} {st : State σ}
    (h : applyExtrinsic env uxt st = .ok applied)
    (hspares : (ChainStep.apply uxt).Spares env watched st) {who : AccountId}
    (hwatched : watched who) (hbacked : Backed who st) :
    Backed who applied.state ∧
    ((applied.state.system.accountNonce who = st.system.accountNonce who ∧
        (applied.result = .ok .success → ∀ info, ¬ AcceptedSender env st uxt info who)) ∨
      ∃ info, AcceptedSender env st uxt info who ∧ info.index = st.system.accountNonce who ∧
        (applied.state.system.accountNonce who).toNat =
          (st.system.accountNonce who).toNat + 1) := by
  rcases applyExtrinsic_cases env h with ⟨error, rfl⟩ |
    ⟨info, sender, paid, outcome, haccepted, hindex, hpaid, hdispatch, rfl⟩ |
    ⟨rtx, outcome, hunsigned, _, _, hdispatch, rfl⟩ | ⟨outcome, hunsigned, _, hdispatch, rfl⟩
  · exact ⟨hbacked, .inl ⟨rfl, fun hresult => by simp [Applied.reject] at hresult⟩⟩
  · obtain ⟨hraw, hfits, hreaps⟩ := hspares info sender paid haccepted hpaid
    obtain ⟨hkept, hlive⟩ := makePayment_kept hpaid hbacked
    obtain ⟨hcounted, hnonce⟩ := incAccountNonce_kept hkept.backed hlive
    have hdone := dispatch_kept env hdispatch hraw (hreaps who hwatched) hcounted
    refine ⟨hdone.backed, ?_⟩
    have hafter : (outcome.applied uxt.encode.length).state.system.accountNonce who = _ :=
      hdone.nonce.trans hnonce
    by_cases hsender : who = sender
    · subst hsender
      refine .inr ⟨info, haccepted, hindex, ?_⟩
      have hroom := hfits hwatched
      rw [hafter, if_pos rfl, hkept.nonce, UInt64.toNat_add, UInt64.toNat_one,
        Nat.mod_eq_of_lt hroom]
    · refine .inl ⟨?_, fun _ info' haccepted' => hsender ?_⟩
      · rw [hafter, if_neg hsender, hkept.nonce]
      · obtain rfl : info = info' := Option.some.inj
          (haccepted.signature.symm.trans haccepted'.signature)
        exact Except.ok.inj (haccepted'.lookup.symm.trans haccepted.lookup)
  · have hdone := dispatch_kept env hdispatch (Call.rawWrite_inherent _)
      (Call.not_reaps_inherent env _ _ who) hbacked
    exact ⟨hdone.backed, .inl ⟨hdone.nonce, fun _ info haccepted => by
      simp [haccepted.signature] at hunsigned⟩⟩
  · have hdone := dispatch_kept env hdispatch (Call.rawWrite_inherent _)
      (Call.not_reaps_inherent env _ _ who) hbacked
    exact ⟨hdone.backed, .inl ⟨hdone.nonce, fun _ info haccepted => by
      simp [haccepted.signature] at hunsigned⟩⟩

def SignedBy (uxt : UncheckedExtrinsic) (who : AccountId) : Prop :=
  ∃ info, uxt.signature = some info ∧ ∃ st, env.signatureValid st info uxt.function who = true

-- Every reported extrinsic is below the nonce of its sender, and none is reported twice.
structure ExecutedOnce (watched : AccountId → Bool) (extrinsics : List UncheckedExtrinsic)
    (st : State σ) : Prop where
  backed : ∀ who, watched who → Backed who st
  once : extrinsics.Nodup
  counted : ∀ uxt ∈ extrinsics, ∃ info who, uxt.signature = some info ∧ watched who ∧
    SignedBy env uxt who ∧ info.index < st.system.accountNonce who

variable {watched : AccountId → Bool} {extrinsics out : List UncheckedExtrinsic}
  {st st' : State σ}

theorem ExecutedOnce.of_kept (h : ExecutedOnce env watched extrinsics st)
    (hkept : ∀ who, watched who → Kept who st st') :
    ExecutedOnce env watched (extrinsics ++ []) st' := by
  rw [List.append_nil]
  refine ⟨fun who hwho => (hkept who hwho).backed, h.once, fun uxt huxt => ?_⟩
  obtain ⟨info, who, hsignature, hwho, hsigned, hindex⟩ := h.counted uxt huxt
  exact ⟨info, who, hsignature, hwho, hsigned, (hkept who hwho).nonce ▸ hindex⟩

theorem executedOnce_apply
    (hkey : ∀ uxt who who', SignedBy env uxt who → SignedBy env uxt who' → who = who')
    (h : ExecutedOnce env watched extrinsics st)
    (hspares : (ChainStep.apply uxt).Spares env watched st)
    (happly : applyExtrinsic env uxt st = .ok applied) :
    ExecutedOnce env watched (extrinsics ++ executed env watched st uxt applied)
      applied.state := by
  have hnonce := fun who (hwho : watched who) =>
    applyExtrinsic_nonce env happly hspares hwho (h.backed who hwho)
  have hgrows : ∀ who, watched who → (st.system.accountNonce who).toNat ≤
      (applied.state.system.accountNonce who).toNat := by
    intro who hwho
    rcases (hnonce who hwho).2 with ⟨hsame, _⟩ | ⟨_, _, _, hnext⟩
    · rw [hsame]
    · omega
  have hcounted : ∀ other ∈ extrinsics, ∃ info who, other.signature = some info ∧ watched who ∧
      SignedBy env other who ∧ info.index < applied.state.system.accountNonce who := by
    intro other hother
    obtain ⟨info, who, hsignature, hwho, hsigned, hindex⟩ := h.counted other hother
    refine ⟨info, who, hsignature, hwho, hsigned, ?_⟩
    rw [UInt64.lt_iff_toNat_lt] at hindex ⊢
    exact hindex.trans_le (hgrows who hwho)
  have hbacked := fun who hwho => (hnonce who hwho).1
  unfold executed
  cases hsender : acceptedSender env st uxt with
  | none => simpa using ⟨hbacked, h.once, hcounted⟩
  | some sender =>
    dsimp only
    split_ifs with hreported
    · obtain ⟨hwho, hsuccess⟩ := hreported
      obtain ⟨info, haccepted⟩ := acceptedSender_accepted env hsender
      have hsigned : SignedBy env uxt sender := ⟨info, haccepted.signature, st, haccepted.valid⟩
      rcases (hnonce sender hwho).2 with ⟨_, hnot⟩ | ⟨info', haccepted', hindex, hnext⟩
      · exact absurd haccepted (hnot hsuccess info)
      · obtain rfl : info = info' := Option.some.inj
          (haccepted.signature.symm.trans haccepted'.signature)
        refine ⟨hbacked, ?_, ?_⟩
        · -- An earlier report would be below the nonce that the index equals.
          refine List.nodup_append.mpr ⟨h.once, List.nodup_singleton _, ?_⟩
          rintro other hother _ huxt rfl
          obtain rfl := List.mem_singleton.mp huxt
          obtain ⟨info', who, hsignature, _, hsigned', hbelow⟩ := h.counted other hother
          obtain rfl : info = info' := Option.some.inj (haccepted.signature.symm.trans hsignature)
          obtain rfl := hkey other sender who hsigned hsigned'
          rw [hindex] at hbelow
          exact absurd hbelow (UInt64.lt_irrefl _)
        · intro other hother
          rcases List.mem_append.mp hother with hold | hnew
          · exact hcounted other hold
          · obtain rfl := List.mem_singleton.mp hnew
            refine ⟨info, sender, haccepted.signature, hwho, hsigned, ?_⟩
            rw [UInt64.lt_iff_toNat_lt, hindex, hnext]
            omega
    · simpa using ⟨hbacked, h.once, hcounted⟩

theorem executedOnce_step
    (hkey : ∀ uxt who who', SignedBy env uxt who → SignedBy env uxt who' → who = who')
    {step : ChainStep} (h : ExecutedOnce env watched extrinsics st)
    (hspares : step.Spares env watched st) (htaken : executeStep env watched st step st' out) :
    ExecutedOnce env watched (extrinsics ++ out) st' := by
  cases step with
  | start number =>
    obtain ⟨⟨hstart, _⟩, rfl⟩ := htaken
    exact h.of_kept env fun who hwho =>
      .of_same (h.backed who hwho) (initializeBlock_sameAccounts env hstart)
  | apply uxt =>
    obtain ⟨applied, happly, rfl, rfl⟩ := htaken
    exact executedOnce_apply env hkey h hspares happly
  | finish number =>
    obtain ⟨⟨hfinish, _⟩, rfl⟩ := htaken
    refine h.of_kept env fun who hwho => ?_
    have hroom := (keptWithRoom_payable env who (st.system.accountNonce who)).finishBlock hfinish
      ⟨h.backed who hwho, rfl, hspares who hwho⟩
    exact ⟨hroom.2.1, hroom.1⟩

-- While the watched accounts live, no signed extrinsic of theirs is executed twice, and where
-- hashes do not collide each has a hash, and a relay flag, of its own.
theorem signed_executed_at_most_once
    (hkey : ∀ uxt who who', SignedBy env uxt who → SignedBy env uxt who' → who = who')
    (hbacked : ∀ who, watched who → Backed who st)
    (hrun : Reaches (executeStep env watched) (fun st step => step.Spares env watched st) st
      extrinsics st') :
    extrinsics.Nodup ∧
    ((∀ uxt ∈ extrinsics, ∀ other ∈ extrinsics,
        env.blake2 uxt.encode = env.blake2 other.encode → uxt = other) →
      (extrinsics.map fun uxt => env.blake2 uxt.encode).Nodup ∧
      ∀ uxt ∈ extrinsics, ∀ other ∈ extrinsics, uxt ≠ other → ∀ dest : State σ,
        (setRelayExtrinsicExist (env.blake2 uxt.encode) dest).system.relayExtrinsic
            (env.blake2 other.encode) =
          dest.system.relayExtrinsic (env.blake2 other.encode)) := by
  have hinv := hrun.invariant (ExecutedOnce env watched) ⟨hbacked, List.nodup_nil, by simp⟩
    fun _ _ _ _ _ h hspares htaken => executedOnce_step env hkey h hspares htaken
  refine ⟨hinv.once, fun hcollisionFree => ⟨?_, ?_⟩⟩
  · exact List.Nodup.map_on hcollisionFree hinv.once
  · intro uxt huxt other hother hne dest
    have hhash : env.blake2 other.encode ≠ env.blake2 uxt.encode := fun hsame =>
      hne (hcollisionFree uxt huxt other hother hsame.symm)
    simp [setRelayExtrinsicExist, hhash]

theorem executeStep_apply (h : applyExtrinsic env uxt st = .ok applied)
    (hout : executed env watched st uxt applied = out) :
    executeStep env watched st (.apply uxt) applied.state out :=
  ⟨applied, h, rfl, hout.symm⟩

-- One shard with an existential deposit of 10, where a signature names its account.
def keyedSubstrate : Substrate Unit :=
  { plainSubstrate with signatureValid := fun _ info _ who => decide (info.signed = .id who) }

def depositState : State Unit :=
  { plainState (some ⟨0, 1, none⟩) with
    balances := { (plainState none).balances with
      existentialDeposit := 10
      freeBalance := fun who => if who = filled 32 1 then some 100 else some 200 } }

def signedTransfer (sender dest : UInt8) (value : Balance) : UncheckedExtrinsic :=
  ⟨some ⟨.id (filled 32 sender), filled 64 7, 0, .immortal⟩,
    .balancesTransfer (.id (filled 32 dest)) value⟩

theorem keyedSubstrate_signedBy (uxt : UncheckedExtrinsic) (who who' : AccountId)
    (h : SignedBy keyedSubstrate uxt who) (h' : SignedBy keyedSubstrate uxt who') :
    who = who' := by
  obtain ⟨info, hinfo, _, hvalid⟩ := h
  obtain ⟨info', hinfo', _, hvalid'⟩ := h'
  obtain rfl := Option.some.inj (hinfo.symm.trans hinfo')
  exact Address.id.inj ((of_decide_eq_true hvalid).symm.trans (of_decide_eq_true hvalid'))

theorem signedStore_spares {st : State Unit} {byte : UInt8}
    (hnonce : (st.system.accountNonce (filled 32 byte)).toNat + 1 < 2 ^ 64) :
    (ChainStep.apply (signedStore byte)).Spares keyedSubstrate (fun _ => true) st := by
  intro info sender paid haccepted _
  obtain rfl : sender = filled 32 byte := by
    have hlook := haccepted.lookup
    rw [← Option.some.inj haccepted.signature] at hlook
    exact (Except.ok.inj hlook).symm
  refine ⟨rfl, fun _ => hnonce, fun who _ => ?_⟩
  simp [Call.Reaps, signedStore, Call.setBalance?]

-- The third extrinsic repeats the first one and is stale.
theorem signed_executed_at_most_once_stale : ∃ st',
    Reaches (executeStep keyedSubstrate fun _ => true)
      (fun st step => step.Spares keyedSubstrate (fun _ => true) st) depositState
      ([] ++ [signedStore 1] ++ [signedStore 2] ++ []) st' ∧
    ([] ++ [signedStore 1] ++ [signedStore 2] ++ []).Nodup := by
  have hrun : ((applyExtrinsic keyedSubstrate (signedStore 1) depositState).toOption.bind
      fun first => (applyExtrinsic keyedSubstrate (signedStore 2) first.state).toOption.bind
      fun second => (applyExtrinsic keyedSubstrate (signedStore 1) second.state).toOption.bind
      fun third => some
        ([executed keyedSubstrate (fun _ => true) depositState (signedStore 1) first,
          executed keyedSubstrate (fun _ => true) first.state (signedStore 2) second,
          executed keyedSubstrate (fun _ => true) second.state (signedStore 1) third],
        first.state.system.accountNonce (filled 32 2),
        second.state.system.accountNonce (filled 32 1))) =
      some ([[signedStore 1], [signedStore 2], []], 0, 1) := by
    decide +kernel
  obtain ⟨first, hfirst, hrun⟩ := Run.exists_of_toOption hrun
  obtain ⟨second, hsecond, hrun⟩ := Run.exists_of_toOption hrun
  obtain ⟨third, hthird, hrun⟩ := Run.exists_of_toOption hrun
  simp only [Option.some.injEq, Prod.mk.injEq, List.cons.injEq, and_true] at hrun
  obtain ⟨⟨hout, hout', hout''⟩, hnonce, hnonce'⟩ := hrun
  have hreach : Reaches (executeStep keyedSubstrate fun _ => true)
      (fun st step => step.Spares keyedSubstrate (fun _ => true) st) depositState
      ([] ++ [signedStore 1] ++ [signedStore 2] ++ []) third.state := by
    refine .tail (.tail (.tail (.refl _) ?_ (executeStep_apply _ hfirst hout)) ?_
      (executeStep_apply _ hsecond hout')) ?_ (executeStep_apply _ hthird hout'')
    · exact signedStore_spares (by decide)
    · exact signedStore_spares (by rw [hnonce]; decide)
    · exact signedStore_spares (by rw [hnonce']; decide)
  exact ⟨third.state, hreach, (signed_executed_at_most_once keyedSubstrate keyedSubstrate_signedBy
    (fun who _ => .inl rfl) hreach).1⟩

-- Account 1 is reaped by its own transfer and funded again: the same bytes apply once more.
theorem reaped_account_replayed : ∃ st',
    Reaches (executeStep keyedSubstrate fun _ => true) (fun _ _ => True) depositState
      ([] ++ [signedTransfer 1 2 95] ++ [signedTransfer 2 1 100] ++ [signedTransfer 1 2 95]) st' := by
  have hrun : ((applyExtrinsic keyedSubstrate (signedTransfer 1 2 95) depositState).toOption.bind
      fun first => (applyExtrinsic keyedSubstrate (signedTransfer 2 1 100) first.state).toOption.bind
      fun second => (applyExtrinsic keyedSubstrate (signedTransfer 1 2 95) second.state).toOption.bind
      fun third => some
        [executed keyedSubstrate (fun _ => true) depositState (signedTransfer 1 2 95) first,
          executed keyedSubstrate (fun _ => true) first.state (signedTransfer 2 1 100) second,
          executed keyedSubstrate (fun _ => true) second.state (signedTransfer 1 2 95) third]) =
      some [[signedTransfer 1 2 95], [signedTransfer 2 1 100], [signedTransfer 1 2 95]] := by
    decide +kernel
  obtain ⟨first, hfirst, hrun⟩ := Run.exists_of_toOption hrun
  obtain ⟨second, hsecond, hrun⟩ := Run.exists_of_toOption hrun
  obtain ⟨third, hthird, hrun⟩ := Run.exists_of_toOption hrun
  simp only [Option.some.injEq, List.cons.injEq, and_true] at hrun
  obtain ⟨hout, hout', hout''⟩ := hrun
  exact ⟨third.state, .tail (.tail (.tail (.refl _) trivial (executeStep_apply _ hfirst hout))
    trivial (executeStep_apply _ hsecond hout')) trivial (executeStep_apply _ hthird hout'')⟩

end Yeeroot
