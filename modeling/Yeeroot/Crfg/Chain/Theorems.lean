import Yeeroot.Ancestry
import Yeeroot.Crfg.Chain
import Yeeroot.Overflow

namespace Yeeroot.Crfg

-- A state of the chain: the known blocks, and the canonical chain up to the best block
-- with the finalized block on it.
structure ChainState where
  blocks : Ancestry H256
  canonical : UInt64 → Option H256
  bestNumber : UInt64
  finalizedNumber : UInt64
  isSome_canonical : ∀ n, (canonical n).isSome ↔ n ≤ bestNumber
  canonical_height : ∀ {n hash}, canonical n = some hash → blocks.height hash = n.toNat
  canonical_parent : ∀ {n hash}, canonical n = some hash → n ≠ 0 →
    ∃ parent, blocks.parent hash = some parent ∧ canonical (n - 1) = some parent
  finalized_le_best : finalizedNumber ≤ bestNumber

-- The reads that succeed tell the state of the chain.
structure Blockchain.Serves (chain : Blockchain) (state : ChainState) : Prop where
  info : ∀ info, chain.info = .ok info → info.bestNumber = state.bestNumber ∧
    info.finalizedNumber = state.finalizedNumber ∧
    state.canonical state.finalizedNumber = some info.finalizedHash
  hash : ∀ n found, chain.hash n = .ok found → found = state.canonical n

namespace ChainState

variable (state : ChainState)

theorem descends_canonical {n : UInt64} {hash : H256} (h : state.canonical n = some hash)
    (block : H256) :
    state.blocks.Descends block hash ↔ ∃ k, k ≤ n ∧ state.canonical k = some block := by
  constructor
  · intro hdescends
    induction hdescends generalizing n with
    | refl => exact ⟨n, UInt64.le_refl n, h⟩
    | @step parent hash _ child ih =>
      have hheight := state.canonical_height h
      have hparent := state.blocks.height_parent child
      have hne : n ≠ 0 := by
        rintro rfl
        rw [UInt64.toNat_zero] at hheight
        omega
      obtain ⟨parent', hparent', hcanonical⟩ := state.canonical_parent h hne
      obtain rfl := Option.some.inj (hparent'.symm.trans child)
      obtain ⟨k, hk, hblock⟩ := ih hcanonical
      have hpred := toNat_sub_one hne
      refine ⟨k, ?_, hblock⟩
      rw [UInt64.le_iff_toNat_le] at hk ⊢
      omega
  · intro hcase
    obtain ⟨k, hk, hblock⟩ := hcase
    generalize hd : n.toNat - k.toNat = d
    induction d generalizing n hash with
    | zero =>
      rw [UInt64.le_iff_toNat_le] at hk
      obtain rfl : k = n := UInt64.toNat_inj.mp (by omega)
      obtain rfl := Option.some.inj (h.symm.trans hblock)
      exact .refl
    | succ d ih =>
      have hne : n ≠ 0 := by
        rintro rfl
        rw [UInt64.toNat_zero] at hd
        omega
      obtain ⟨parent, hparent, hcanonical⟩ := state.canonical_parent h hne
      have hpred := toNat_sub_one hne
      refine .step (ih hcanonical ?_ ?_) hparent
      · rw [UInt64.le_iff_toNat_le]
        omega
      · omega

-- The voter gets to read the block after the finalized one.
def ReadsNext (chain : Blockchain) (hash : H256) : Prop :=
  BLOCK_FINAL_LATENCY < state.bestNumber - state.finalizedNumber ∧
    orNone (chain.hash (state.finalizedNumber + 1)) = some hash ∧
    orNone (chain.headerNumber hash) ≠ none

theorem canonical_of_readsNext {chain : Blockchain} (hserves : chain.Serves state) {hash : H256}
    (h : state.ReadsNext chain hash) : state.canonical (state.finalizedNumber + 1) = some hash := by
  obtain ⟨_, hread, _⟩ := h
  cases hhash : chain.hash (state.finalizedNumber + 1) with
  | error error => simp [hhash, orNone] at hread
  | ok found =>
    rw [hhash, orNone] at hread
    rw [← hserves.hash _ _ hhash, hread]

theorem descends_next {chain : Blockchain} (hserves : chain.Serves state) {hash : H256}
    (h : state.ReadsNext chain hash) (block : H256) :
    state.blocks.Descends block hash ↔
      (∃ n, n ≤ state.finalizedNumber ∧ state.canonical n = some block) ∨
        state.ReadsNext chain block := by
  have hcanonical := state.canonical_of_readsNext hserves h
  have hnext : (state.finalizedNumber + 1).toNat = state.finalizedNumber.toNat + 1 := by
    have hle := UInt64.le_iff_toNat_le.mp state.finalized_le_best
    have hlate : 6 < (state.bestNumber - state.finalizedNumber).toNat :=
      UInt64.lt_iff_toNat_lt.mp h.1
    have hlt := state.bestNumber.toNat_lt
    rw [UInt64.toNat_sub_of_le _ _ state.finalized_le_best] at hlate
    rw [UInt64.toNat_add, UInt64.toNat_one]
    omega
  rw [state.descends_canonical hcanonical]
  constructor
  · intro hcase
    obtain ⟨k, hk, hblock⟩ := hcase
    by_cases hfinal : k ≤ state.finalizedNumber
    · exact .inl ⟨k, hfinal, hblock⟩
    · rw [UInt64.le_iff_toNat_le] at hk hfinal
      obtain rfl : k = state.finalizedNumber + 1 := UInt64.toNat_inj.mp (by omega)
      obtain rfl := Option.some.inj (hcanonical.symm.trans hblock)
      exact .inr h
  · intro hcase
    rcases hcase with ⟨n, hn, hblock⟩ | hread
    · refine ⟨n, ?_, hblock⟩
      rw [UInt64.le_iff_toNat_le] at hn ⊢
      omega
    · exact ⟨_, UInt64.le_refl _, state.canonical_of_readsNext hserves hread⟩

end ChainState

theorem bestChainContaining_target {chain : Blockchain} {state : ChainState}
    (hserves : chain.Serves state) {info : ChainInfo} (hinfo : chain.info = .ok info)
    (setId : UInt64) (block : H256) :
    ∃ target, bestChainContaining chain setId setId block = .ok (some target) ∧
      (state.ReadsNext chain target.1 ∨
        (∀ hash, ¬ state.ReadsNext chain hash) ∧
          state.canonical state.finalizedNumber = some target.1) := by
  obtain ⟨hbest, hnumber, hfinalized⟩ := hserves.info info hinfo
  unfold bestChainContaining ChainState.ReadsNext
  rw [if_neg (not_not.mpr rfl)]
  simp only [hinfo, hbest, hnumber]
  split_ifs with hlate
  · cases hread : orNone (chain.hash (state.finalizedNumber + 1)) with
    | none => exact ⟨_, rfl, .inr ⟨by simp, hfinalized⟩⟩
    | some hash =>
      cases hheader : orNone (chain.headerNumber hash) with
      | none =>
        refine ⟨(info.finalizedHash, state.finalizedNumber), by simp only [hheader],
          .inr ⟨?_, hfinalized⟩⟩
        intro other hnext
        obtain rfl := Option.some.inj hnext.2.1
        exact hnext.2.2 hheader
      | some number =>
        exact ⟨(hash, number), by simp only [hheader], .inl ⟨hlate, rfl, by simp [hheader]⟩⟩
  · exact ⟨_, rfl, .inr ⟨fun _ hnext => hlate hnext.1, hfinalized⟩⟩

-- The answer contains the block exactly if it is canonical and not above the answer.
theorem best_chain_contains_block_iff {chain : Blockchain} {state : ChainState}
    (hserves : chain.Serves state) (setId currentSetId : UInt64) (block : H256) :
    (∀ target, bestChainContaining chain setId currentSetId block = .ok (some target) →
      state.blocks.Descends block target.1) ↔
    setId ≠ currentSetId ∨ (∃ error, chain.info = .error error) ∨
      (∃ n, n ≤ state.finalizedNumber ∧ state.canonical n = some block) ∨
      state.ReadsNext chain block := by
  by_cases hset : setId = currentSetId
  · subst hset
    cases hinfo : chain.info with
    | error error =>
      refine iff_of_true ?_ (.inr (.inl ⟨error, rfl⟩))
      intro target h
      simp [bestChainContaining, hinfo] at h
    | ok info =>
      obtain ⟨target, htarget, hcase⟩ := bestChainContaining_target hserves hinfo setId block
      have hall : (∀ target', bestChainContaining chain setId setId block = .ok (some target') →
          state.blocks.Descends block target'.1) ↔ state.blocks.Descends block target.1 := by
        rw [htarget]
        simp
      rw [hall]
      simp only [ne_eq, not_true_eq_false, reduceCtorEq, exists_false, false_or]
      rcases hcase with hnext | ⟨hnone, hfinalized⟩
      · exact state.descends_next hserves hnext block
      · rw [state.descends_canonical hfinalized, or_iff_left (hnone block)]
  · refine iff_of_true ?_ (.inl hset)
    intro target h
    simp [bestChainContaining, hset] at h

-- A chain without forks whose block of number n has the hash n..n.
def lineBlocks : Ancestry H256 where
  parent hash := if hash.val.headD 0 = 0 then none else some (filled 32 (hash.val.headD 0 - 1))
  height hash := (hash.val.headD 0).toNat
  height_parent := by
    intro block parent h
    split_ifs at h with hzero
    obtain rfl := Option.some.inj h
    have hpos : (block.val.headD 0).toNat ≠ 0 := fun hz => hzero (UInt8.toNat_inj.mp hz)
    have hlt := (block.val.headD 0).toNat_lt
    have hhead : (filled 32 (block.val.headD 0 - 1)).val.headD 0 = block.val.headD 0 - 1 := rfl
    rw [hhead, UInt8.toNat_sub, show (1 : UInt8).toNat = 1 from rfl]
    omega

theorem toNat_toUInt8_of_le {n : UInt64} {best : UInt8} (h : n ≤ best.toUInt64) :
    n.toUInt8.toNat = n.toNat := by
  have hle := UInt64.le_iff_toNat_le.mp h
  have hlt := best.toNat_lt
  rw [UInt8.toNat_toUInt64] at hle
  rw [UInt64.toNat_toUInt8]
  omega

def lineChain (best finalized : UInt8) (h : finalized ≤ best) : ChainState where
  blocks := lineBlocks
  canonical n := if n ≤ best.toUInt64 then some (filled 32 n.toUInt8) else none
  bestNumber := best.toUInt64
  finalizedNumber := finalized.toUInt64
  isSome_canonical := by
    intro n
    split_ifs with hn <;> simp [hn]
  canonical_height := by
    intro n hash hhash
    split_ifs at hhash with hn
    obtain rfl := Option.some.inj hhash
    exact toNat_toUInt8_of_le hn
  canonical_parent := by
    intro n hash hhash hne
    split_ifs at hhash with hn
    obtain rfl := Option.some.inj hhash
    have hbyte := toNat_toUInt8_of_le hn
    have hpred := toNat_sub_one hne
    have hle : n - 1 ≤ best.toUInt64 := by
      rw [UInt64.le_iff_toNat_le] at hn ⊢
      omega
    have hzero : n.toUInt8 ≠ 0 := by
      intro hz
      rw [hz, UInt8.toNat_zero] at hbyte
      omega
    refine ⟨filled 32 (n.toUInt8 - 1), if_neg hzero, ?_⟩
    rw [if_pos hle, UInt64.toUInt8_sub]
    rfl
  finalized_le_best := by
    rw [UInt64.le_iff_toNat_le, UInt8.toNat_toUInt64, UInt8.toNat_toUInt64]
    exact UInt8.le_iff_toNat_le.mp h

def ChainState.server (state : ChainState) (finalizedHash : H256) : Blockchain where
  info := .ok ⟨state.bestNumber, finalizedHash, state.finalizedNumber⟩
  hash n := .ok (state.canonical n)
  headerNumber hash := .ok (some (UInt64.ofNat (state.blocks.height hash)))

theorem ChainState.server_serves {state : ChainState} {finalizedHash : H256}
    (h : state.canonical state.finalizedNumber = some finalizedHash) :
    (state.server finalizedHash).Serves state where
  info := by
    rintro info ⟨⟩
    exact ⟨rfl, rfl, h⟩
  hash := by
    rintro n found ⟨⟩
    rfl

def lateChain : ChainState := lineChain 8 0 (UInt8.le_iff_toNat_le.mpr (Nat.zero_le _))

-- The next block to finalize is answered with itself.
theorem best_chain_contains_next :
    (lateChain.server (filled 32 0)).Serves lateChain ∧
    ∀ target, bestChainContaining (lateChain.server (filled 32 0)) 0 0 (filled 32 1) =
      .ok (some target) → lateChain.blocks.Descends (filled 32 1) target.1 := by
  have hserves : (lateChain.server (filled 32 0)).Serves lateChain := ChainState.server_serves rfl
  refine ⟨hserves, (best_chain_contains_block_iff hserves 0 0 (filled 32 1)).mpr ?_⟩
  exact .inr (.inr (.inr ⟨by decide, rfl, by simp [orNone, ChainState.server]⟩))

-- The block above it is answered with its parent.
theorem best_chain_without_block :
    (lateChain.server (filled 32 0)).Serves lateChain ∧
    lateChain.canonical 2 = some (filled 32 2) ∧
    bestChainContaining (lateChain.server (filled 32 0)) 0 0 (filled 32 2) =
      .ok (some (filled 32 1, 1)) ∧
    ¬ lateChain.blocks.Descends (filled 32 2) (filled 32 1) := by
  refine ⟨ChainState.server_serves rfl, rfl, rfl, ?_⟩
  intro h
  exact absurd h.height_le (by decide)

end Yeeroot.Crfg
