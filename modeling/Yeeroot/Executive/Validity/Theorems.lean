import Yeeroot.Executive.Fees
import Yeeroot.Executive.Validity

namespace Yeeroot

open Scale

variable {σ : Type} (env : Substrate σ)

theorem makePayment_accountNonce {transactor : AccountId} {encodedLen : Nat} {st paid : State σ}
    (h : Balances.makePayment transactor encodedLen st = (paid, .ok ())) :
    paid.system.accountNonce = st.system.accountNonce := by
  obtain ⟨fee, newBalance, rfl, _, henough⟩ := Balances.makePayment_ok h
  have hset := Balances.setFreeBalance_accountNonce transactor newBalance st
  rw [if_neg fun hlow => BitVec.not_lt.mpr henough hlow.1] at hset
  exact hset

-- The tags of the nonces from `expected` on, below `index`.
def nonceTags (sender : AccountId) (expected index : UInt64) : List Bytes :=
  (List.range' expected.toNat (index.toNat - expected.toNat)).map fun nonce =>
    nonceTag sender (UInt64.ofNat nonce)

theorem dependencies_eq (sender : AccountId) (fuel : Nat) {expected index : UInt64}
    (h : index.toNat ≤ expected.toNat + fuel) :
    dependencies sender fuel expected index = nonceTags sender expected index := by
  unfold nonceTags
  induction fuel generalizing expected with
  | zero =>
    have hnone : index.toNat - expected.toNat = 0 := by omega
    rw [hnone]
    rfl
  | succ fuel ih =>
    rw [dependencies]
    by_cases hlt : expected < index
    · have hlt' := UInt64.lt_iff_toNat_lt.mp hlt
      have hnext : (expected + 1).toNat = expected.toNat + 1 := by
        have hmax := index.toNat_lt
        rw [UInt64.toNat_add, UInt64.toNat_one]
        omega
      have hcount : index.toNat - expected.toNat = index.toNat - (expected + 1).toNat + 1 := by
        omega
      rw [if_pos hlt, ih (by omega), hcount, List.range'_succ, List.map_cons, hnext,
        UInt64.ofNat_toNat]
    · have hnone : index.toNat - expected.toNat = 0 := by
        have hle := UInt64.le_iff_toNat_le.mp (UInt64.not_lt.mp hlt)
        omega
      rw [if_neg hlt, hnone]
      rfl

theorem validateSigned_cases (sender : AccountId) (index : UInt64) (encodedLen : Nat)
    (st : State σ) :
    (∃ error, Balances.makePayment sender encodedLen st = (st, .error error) ∧
      validateSigned sender index encodedLen st = .invalid CANT_PAY) ∨
    ∃ paid, Balances.makePayment sender encodedLen st = (paid, .ok ()) ∧
      ((index < st.system.accountNonce sender ∧
        validateSigned sender index encodedLen st = .invalid STALE) ∨
      validateSigned sender index encodedLen st = .unknown FUTURE ∨
      (st.system.accountNonce sender ≤ index ∧
        validateSigned sender index encodedLen st = .valid {
          priority := UInt64.ofNat encodedLen
          requires := nonceTags sender (st.system.accountNonce sender) index
          provides := [nonceTag sender index]
          longevity := 0xffffffffffffffff })) := by
  unfold validateSigned
  rcases hpay : Balances.makePayment sender encodedLen st with ⟨paid, error | _⟩
  · obtain rfl := makePayment_error hpay
    exact .inl ⟨error, rfl, rfl⟩
  · refine .inr ⟨paid, rfl, ?_⟩
    dsimp only
    rw [makePayment_accountNonce hpay]
    generalize st.system.accountNonce sender = expected
    by_cases hstale : index < expected
    · exact .inl ⟨hstale, if_pos hstale⟩
    · by_cases hfuture : expected + 256 < index
      · exact .inr (.inl (by rw [if_neg hstale, if_pos hfuture]))
      · refine .inr (.inr ⟨UInt64.not_lt.mp hstale, ?_⟩)
        -- If the sum wraps, it is only smaller.
        have hrounds : index.toNat ≤ expected.toNat + 256 := by
          have hle := UInt64.le_iff_toNat_le.mp (UInt64.not_lt.mp hfuture)
          rw [UInt64.toNat_add] at hle
          have htolerance : (256 : UInt64).toNat = 256 := rfl
          omega
        rw [if_neg hstale, if_neg hfuture, dependencies_eq sender 256 hrounds]

theorem applyChecked_error {xt : CheckedExtrinsic} {encodedLen : Nat} {st : State σ}
    {applied : Applied σ} {error : ApplyError} (h : applyChecked env xt encodedLen st = .ok applied)
    (herror : applied.result = .error error) : error = .fullBlock := by
  obtain ⟨outcome, _, rfl⟩ := (applyChecked_eq_ok env _ _ _ _).mp h
  simp only [Outcome.applied, applyResult] at herror
  split at herror
  · cases herror
  · split_ifs at herror
    exact (Except.error.inj herror).symm

theorem relayCheck_cases {rtx : RelayParams} {shardCount : UInt16} {st : State σ}
    {validity : TransactionValidity} (h : relayCheck rtx shardCount st = .ok validity) :
    (st.system.relayExtrinsic rtx.hash = 1 ∧ validity = .invalid STALE) ∨
    (st.system.relayExtrinsic rtx.hash ≠ 1 ∧
      (validity = .invalid INVALID_ORIGIN ∨ ∃ tx, validity = .valid tx)) := by
  unfold relayCheck at h
  split_ifs at h with hused
  · exact .inl ⟨hused, (Except.ok.inj h).symm⟩
  · refine .inr ⟨hused, ?_⟩
    split at h
    · exact .inl (Except.ok.inj h).symm
    · simp only [Run.bind_eq_ok, Run.pure_eq_ok] at h
      obtain ⟨_, _, rfl⟩ := h
      exact .inr ⟨_, rfl⟩

variable {unacceptableSender : Int} {uxt : UncheckedExtrinsic} {shardCount : UInt16} {st : State σ}

-- Everything that the pool can be told: the check fails, or the fee and the nonce of the
-- sender decide, or the relay, if there is one.
theorem validateTransaction_cases {validity : TransactionValidity}
    (h : validateTransaction env unacceptableSender uxt shardCount st = .ok validity) :
    (∃ error, uxt.check env st = .ok (.error error) ∧ ∀ tx, validity ≠ .valid tx) ∨
    ∃ xt, uxt.check env st = .ok (.ok xt) ∧
      ((∃ sender index, xt.signed = some (sender, index) ∧
        validity = validateSigned sender index uxt.encode.length st) ∨
      (xt.signed = none ∧ ∃ rtx, RelayParams.decode env.blake2 uxt.encode = some rtx ∧
        relayCheck rtx shardCount st = .ok validity) ∨
      (xt.signed = none ∧ validity = .invalid MISSING_SENDER)) := by
  simp only [validateTransaction, Run.bind_eq_ok] at h
  obtain ⟨checked, hcheck, h⟩ := h
  cases checked with
  | error error =>
    refine .inl ⟨error, hcheck, ?_⟩
    dsimp only at h
    split_ifs at h <;> obtain rfl := (Run.pure_eq_ok _ _).mp h <;> intro tx hvalid <;> cases hvalid
  | ok xt =>
    refine .inr ⟨xt, hcheck, ?_⟩
    cases hsigned : xt.signed with
    | some signed =>
      simp only [hsigned, Run.pure_eq_ok] at h
      exact .inl ⟨signed.1, signed.2, rfl, h⟩
    | none =>
      simp only [hsigned] at h
      cases hrtx : RelayParams.decode env.blake2 uxt.encode with
      | none =>
        simp only [hrtx, Run.pure_eq_ok] at h
        exact .inr (.inr ⟨rfl, h⟩)
      | some rtx =>
        simp only [hrtx] at h
        exact .inr (.inl ⟨rfl, rtx, rfl, h⟩)

section Apply

variable {xt : CheckedExtrinsic} {encodedLen : Nat}

theorem applyExtrinsicWithLen_of_error {error : String}
    (hcheck : uxt.check env st = .ok (.error error)) :
    applyExtrinsicWithLen env uxt encodedLen st = .ok (.reject st (.badSignature error)) := by
  rw [applyExtrinsicWithLen, hcheck]
  rfl

theorem applyExtrinsicWithLen_of_check (hcheck : uxt.check env st = .ok (.ok xt)) :
    applyExtrinsicWithLen env uxt encodedLen st = .ok (.reject st .fullBlock) ∨
    ((∀ sender index, xt.signed = some (sender, index) →
        applyExtrinsicWithLen env uxt encodedLen st =
          applySigned env xt sender index encodedLen st) ∧
      (xt.signed = none → applyExtrinsicWithLen env uxt encodedLen st =
        applyUnsigned env xt uxt.encode encodedLen st)) := by
  rw [applyExtrinsicWithLen, hcheck]
  simp only [bind, Except.bind]
  split_ifs
  · exact .inl rfl
  · refine .inr ⟨?_, ?_⟩
    · intro sender index hsigned
      rw [hsigned]
    · intro hsigned
      rw [hsigned]

theorem applySigned_error {sender : AccountId} {index : UInt64} {paid : State σ}
    (hindex : index = st.system.accountNonce sender)
    (hpaid : Balances.makePayment sender encodedLen st = (paid, .ok ())) {applied : Applied σ}
    (h : applySigned env xt sender index encodedLen st = .ok applied) {error : ApplyError}
    (herror : applied.result = .error error) : error = .fullBlock := by
  simp only [applySigned, hindex, ne_eq, not_true_eq_false, if_false, hpaid] at h
  exact applyChecked_error env h herror

theorem applySigned_rejects {sender : AccountId} {index : UInt64}
    (h : index ≠ st.system.accountNonce sender ∨
      ∃ error, Balances.makePayment sender encodedLen st = (st, .error error)) :
    ∃ error, applySigned env xt sender index encodedLen st = .ok (.reject st error) := by
  unfold applySigned
  by_cases hindex : index ≠ st.system.accountNonce sender
  · exact ⟨_, if_pos hindex⟩
  · obtain ⟨error, hpay⟩ := h.resolve_left hindex
    simp only [if_neg hindex, hpay]
    exact ⟨_, rfl⟩

theorem applyUnsigned_error {rtx : RelayParams}
    (hrtx : RelayParams.decode env.blake2 uxt.encode = some rtx)
    (hfresh : st.system.relayExtrinsic rtx.hash ≠ 1) {applied : Applied σ}
    (h : applyUnsigned env xt uxt.encode encodedLen st = .ok applied) {error : ApplyError}
    (herror : applied.result = .error error) : error = .fullBlock := by
  simp only [applyUnsigned, hrtx, if_neg hfresh] at h
  exact applyChecked_error env h herror

end Apply

theorem nonceTags_eq_nil {sender : AccountId} {expected index : UInt64} (hle : expected ≤ index)
    (h : nonceTags sender expected index = []) : index = expected := by
  have hlength := congrArg List.length h
  rw [nonceTags, List.length_map, List.length_range', List.length_nil] at hlength
  have hle' := UInt64.le_iff_toNat_le.mp hle
  exact UInt64.toNat_inj.mp (by omega)

theorem requires_of_valid {tx : ValidTransaction} {info : SignatureInfo}
    (h : validateTransaction env unacceptableSender uxt shardCount st = .ok (.valid tx))
    (hsignature : uxt.signature = some info) :
    ∃ xt sender paid, uxt.check env st = .ok (.ok xt) ∧ xt.signed = some (sender, info.index) ∧
      st.lookup env info.signed = .ok sender ∧
      Balances.makePayment sender uxt.encode.length st = (paid, .ok ()) ∧
      st.system.accountNonce sender ≤ info.index ∧
      tx.requires = nonceTags sender (st.system.accountNonce sender) info.index ∧
      tx.provides = [nonceTag sender info.index] := by
  have hsigned : ∀ {xt : CheckedExtrinsic}, uxt.check env st = .ok (.ok xt) →
      ∃ sender, st.lookup env info.signed = .ok sender ∧ xt.signed = some (sender, info.index) := by
    intro xt hcheck
    rcases check_cases env hcheck with ⟨_, herror⟩ | ⟨hnone, _⟩ | ⟨info', sender, haccepted, hxt⟩
    · cases herror
    · rw [hnone] at hsignature
      cases hsignature
    · obtain rfl := Option.some.inj (hsignature.symm.trans haccepted.signature)
      obtain rfl := Except.ok.inj hxt
      exact ⟨sender, haccepted.lookup, rfl⟩
  rcases validateTransaction_cases env h with ⟨_, _, hinvalid⟩ | ⟨xt, hcheck, hcases⟩
  · exact absurd rfl (hinvalid tx)
  · obtain ⟨sender, hlookup, hsender⟩ := hsigned hcheck
    rw [hsender] at hcases
    rcases hcases with ⟨_, _, heq, hvalidity⟩ | ⟨hnone, _⟩ | ⟨hnone, _⟩
    · obtain ⟨rfl, rfl⟩ := Prod.mk.inj (Option.some.inj heq)
      rcases validateSigned_cases sender info.index uxt.encode.length st with ⟨_, _, hcase⟩ |
        ⟨paid, hpaid, ⟨_, hcase⟩ | hcase | ⟨hreached, hcase⟩⟩
      · cases hvalidity.trans hcase
      · cases hvalidity.trans hcase
      · cases hvalidity.trans hcase
      · obtain rfl := TransactionValidity.valid.inj (hvalidity.trans hcase)
        exact ⟨xt, sender, paid, hcheck, hsender, hlookup, hpaid, hreached, rfl, rfl⟩
    · cases hnone
    · cases hnone

theorem apply_of_valid {tx : ValidTransaction}
    (h : validateTransaction env unacceptableSender uxt shardCount st = .ok (.valid tx))
    (hready : uxt.isSigned = true → tx.requires = []) {applied : Applied σ}
    (happly : applyExtrinsicWithLen env uxt uxt.encode.length st = .ok applied)
    {error : ApplyError} (herror : applied.result = .error error) : error = .fullBlock := by
  have hfull : ∀ {result : Run (Applied σ)}, result = .ok applied →
      result = .ok (.reject st .fullBlock) → error = .fullBlock := by
    intro result hresult hreject
    obtain rfl := Except.ok.inj (hresult.symm.trans hreject)
    exact (Except.error.inj herror).symm
  cases hsignature : uxt.signature with
  | some info =>
    obtain ⟨xt, sender, paid, hcheck, hsigned, _, hpaid, hreached, hrequires, _⟩ :=
      requires_of_valid env h hsignature
    have hnil := hready (by simp [UncheckedExtrinsic.isSigned, hsignature])
    have hindex := nonceTags_eq_nil hreached (hrequires.symm.trans hnil)
    rcases applyExtrinsicWithLen_of_check env hcheck with hreject | ⟨hrun, _⟩
    · exact hfull happly hreject
    · rw [hrun sender info.index hsigned] at happly
      exact applySigned_error env hindex hpaid happly herror
  | none =>
    rcases validateTransaction_cases env h with ⟨_, _, hinvalid⟩ | ⟨xt, hcheck, hcases⟩
    · exact absurd rfl (hinvalid tx)
    · rcases applyExtrinsicWithLen_of_check env hcheck with hreject | ⟨_, hrun⟩
      · exact hfull happly hreject
      · rcases hcases with ⟨sender, index, hsigned, _⟩ | ⟨hnone, rtx, hrtx, hrelay⟩ | ⟨_, hmissing⟩
        · rcases check_cases env hcheck with ⟨_, hfailed⟩ | ⟨_, hxt⟩ | ⟨info, _, haccepted, _⟩
          · cases hfailed
          · obtain rfl := Except.ok.inj hxt
            cases hsigned
          · cases hsignature.symm.trans haccepted.signature
        · rcases relayCheck_cases hrelay with ⟨_, hstale⟩ | ⟨hfresh, _⟩
          · cases hstale
          · rw [hrun hnone] at happly
            exact applyUnsigned_error env hrtx hfresh happly herror
        · cases hmissing

theorem apply_of_invalid {code : Int}
    (h : validateTransaction env unacceptableSender uxt shardCount st = .ok (.invalid code))
    (hcode : code ∈ [BAD_SIGNATURE_ERROR, STALE, FUTURE, CANT_PAY]) :
    ∃ error, applyExtrinsicWithLen env uxt uxt.encode.length st = .ok (.reject st error) := by
  rcases validateTransaction_cases env h with ⟨error, hcheck, _⟩ | ⟨xt, hcheck, hcases⟩
  · exact ⟨_, applyExtrinsicWithLen_of_error env hcheck⟩
  · rcases applyExtrinsicWithLen_of_check env hcheck with hreject | ⟨hsignedRun, hunsignedRun⟩
    · exact ⟨_, hreject⟩
    · rcases hcases with ⟨sender, index, hsigned, hvalidity⟩ | ⟨hnone, rtx, hrtx, hrelay⟩ |
        ⟨_, hmissing⟩
      · rw [hsignedRun sender index hsigned]
        apply applySigned_rejects
        rcases validateSigned_cases sender index uxt.encode.length st with ⟨error, hpay, _⟩ |
          ⟨_, _, ⟨hstale, _⟩ | hcase | ⟨_, hcase⟩⟩
        · exact .inr ⟨error, hpay⟩
        · exact .inl (UInt64.ne_of_lt hstale)
        · cases hvalidity.trans hcase
        · cases hvalidity.trans hcase
      · rw [hunsignedRun hnone]
        rcases relayCheck_cases hrelay with ⟨hused, _⟩ | ⟨_, horigin | ⟨_, hvalid⟩⟩
        · exact ⟨.stale, by simp only [applyUnsigned, hrtx, if_pos hused]⟩
        · obtain rfl := TransactionValidity.invalid.inj horigin
          exact absurd hcode (by decide)
        · cases hvalid
      · obtain rfl := TransactionValidity.invalid.inj hmissing
        exact absurd hcode (by decide)

-- The pool's verdict on an extrinsic and what applying it in the same state gives.
theorem pool_validity_matches_execution {validity : TransactionValidity}
    (h : validateTransaction env unacceptableSender uxt shardCount st = .ok validity) :
    (∀ tx, validity = .valid tx → (uxt.isSigned = true → tx.requires = []) →
      ∀ applied error, applyExtrinsicWithLen env uxt uxt.encode.length st = .ok applied →
        applied.result = .error error → error = .fullBlock) ∧
    (∀ code, validity = .invalid code → code ∈ [BAD_SIGNATURE_ERROR, STALE, FUTURE, CANT_PAY] →
      ∃ applied error, applyExtrinsicWithLen env uxt uxt.encode.length st = .ok applied ∧
        applied.result = .error error) ∧
    (∀ tx info, validity = .valid tx → uxt.signature = some info →
      ∃ sender, st.lookup env info.signed = .ok sender ∧
        tx.requires = nonceTags sender (st.system.accountNonce sender) info.index ∧
        tx.provides = [nonceTag sender info.index]) := by
  refine ⟨?_, ?_, ?_⟩
  · intro tx hvalid hready applied error happly herror
    subst hvalid
    exact apply_of_valid env h hready happly herror
  · intro code hinvalid hcode
    subst hinvalid
    obtain ⟨error, hreject⟩ := apply_of_invalid env h hcode
    exact ⟨_, error, hreject, rfl⟩
  · intro tx info hvalid hsignature
    subst hvalid
    obtain ⟨_, sender, _, _, _, hlookup, _, _, hrequires, hprovides⟩ :=
      requires_of_valid env h hsignature
    exact ⟨sender, hlookup, hrequires, hprovides⟩

-- A sender's first transfer is ready, and the third waits for the two before it.
def transferValidity (requires : List Bytes) (nonce : UInt64) : ValidTransaction where
  priority := UInt64.ofNat (transferOf 5 nonce).encode.length
  requires := requires
  provides := [nonceTag (filled 32 1) nonce]
  longevity := 0xffffffffffffffff

theorem pool_validity_transfers :
    (validateTransaction plainSubstrate 4 (transferOf 5 0) 1 feeState =
        .ok (.valid (transferValidity [] 0)) ∧
      ∀ applied error, applyExtrinsicWithLen plainSubstrate (transferOf 5 0)
        (transferOf 5 0).encode.length feeState = .ok applied →
        applied.result = .error error → error = .fullBlock) ∧
    ∃ requires, validateTransaction plainSubstrate 4 (transferOf 5 2) 1 feeState =
        .ok (.valid (transferValidity requires 2)) ∧
      requires = nonceTags (filled 32 1) 0 2 := by
  have hfirst : validateTransaction plainSubstrate 4 (transferOf 5 0) 1 feeState =
      .ok (.valid (transferValidity [] 0)) := by
    decide +kernel
  have hthird : validateTransaction plainSubstrate 4 (transferOf 5 2) 1 feeState =
      .ok (.valid (transferValidity (dependencies (filled 32 1) 256 0 2) 2)) := by
    decide +kernel
  refine ⟨⟨hfirst, ?_⟩, _, hthird, ?_⟩
  · exact (pool_validity_matches_execution plainSubstrate hfirst).1 _ rfl fun _ => rfl
  · obtain ⟨sender, hlookup, hrequires, _⟩ :=
      (pool_validity_matches_execution plainSubstrate hthird).2.2 _ _ rfl rfl
    obtain rfl := Except.ok.inj hlookup
    exact hrequires

end Yeeroot
