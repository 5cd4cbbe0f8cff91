import Yeeroot.Cli.CustomParam
import Yeeroot.Digest.Lemmas
import Yeeroot.Verifier.ShardInfo.Halving

namespace Yeeroot

open Scale Verifier Yeeroot.Pow

-- The shard number that `check_scale` compares with the coinbase.
def Verifier.ShardExtra.target (extra : ShardExtra) : UInt16 :=
  match extra.scaleOut with
  | some scaleOut => scaleOut.shardNum
  | none => extra.shardNum

namespace Cli.NodeConfig

-- What an import queue gets from its configuration.
def shardExtra (config : NodeConfig) : ShardExtra :=
  ⟨config.coinbase, config.shardNum, config.shardCount, config.scaleOut⟩

-- The coinbase is of the node's shard, and of its target shard after scaling out.
structure OwnCoinbase (config : NodeConfig) : Prop where
  now : Sharding.shardNumFor config.coinbase config.shardCount = some config.shardNum
  scaled : Sharding.shardNumFor config.coinbase (config.shardCount * 2) =
    some config.shardExtra.target

theorem OwnCoinbase.exists_pow {config : NodeConfig} (h : config.OwnCoinbase) :
    ∃ m < 15, config.shardCount.toNat = 2 ^ m ∧
      config.shardNum.toNat = Sharding.tailValue config.coinbase.val % 2 ^ m ∧
      config.shardExtra.target.toNat = Sharding.tailValue config.coinbase.val % 2 ^ (m + 1) := by
  obtain ⟨_, m, hm, hcount, hnum⟩ := (Sharding.shardNumForBytes_eq_some _ _ _).mp h.now
  obtain ⟨_, k, hk, hdouble, htarget⟩ := (Sharding.shardNumForBytes_eq_some _ _ _).mp h.scaled
  rw [UInt16.toNat_mul, hcount] at hdouble
  have htwo : (2 : UInt16).toNat = 2 := rfl
  have hpow : 2 ^ m * 2 = 2 ^ (m + 1) := (Nat.pow_succ ..).symm
  have hm' : m < 15 := by
    by_contra hlast
    obtain rfl : m = 15 := by omega
    have hpositive := Nat.two_pow_pos k
    simp only [htwo] at hdouble
    omega
  have hfits : 2 ^ (m + 1) < 2 ^ 16 := Nat.pow_lt_pow_right (by decide) (by omega)
  rw [htwo, hpow, Nat.mod_eq_of_lt hfits] at hdouble
  obtain rfl : m + 1 = k := Nat.pow_right_injective (Nat.le_refl 2) hdouble
  exact ⟨m, hm', hcount, hnum, htarget⟩

theorem OwnCoinbase.shardNumFor_committed {config : NodeConfig} (h : config.OwnCoinbase)
    {half : UInt16} {j : Nat} (hhalf : half.toNat = config.shardCount.toNat / 2 ^ j) :
    (half * 2 = 0 ∧ Sharding.shardNumFor config.coinbase (half * 2) = none) ∨
    (config.shardCount < half * 2 ∧
      Sharding.shardNumFor config.coinbase (half * 2) = some config.shardExtra.target) ∨
    (half * 2 ≤ config.shardCount ∧ half * 2 ≠ 0 ∧
      Sharding.shardNumFor config.coinbase (half * 2) = some (config.shardNum % (half * 2))) := by
  obtain ⟨m, hm, hcount, hnum, htarget⟩ := h.exists_pow
  have hlen : 2 ≤ config.coinbase.val.length := by
    rw [config.coinbase.property]
    omega
  rw [hcount] at hhalf
  by_cases hj : j ≤ m
  · have hpow : (half * 2).toNat = 2 ^ (m - j + 1) := by
      have hfits : 2 ^ (m - j + 1) < 2 ^ 16 := Nat.pow_lt_pow_right (by decide) (by omega)
      have htwo : (2 : UInt16).toNat = 2 := rfl
      rw [UInt16.toNat_mul, hhalf, htwo, Nat.pow_div hj (by decide), ← Nat.pow_succ,
        Nat.mod_eq_of_lt hfits]
    have hsome := fun num => (Sharding.shardNumForBytes_eq_some config.coinbase.val (half * 2) num).mpr
    by_cases hzero : j = 0
    · subst hzero
      refine .inr (.inl ⟨?_, hsome _ ⟨hlen, m + 1, by omega, hpow, htarget⟩⟩)
      rw [UInt16.lt_iff_toNat_lt, hcount, hpow]
      exact Nat.pow_lt_pow_right (by decide) (by omega)
    · have hle : m - j + 1 ≤ m := by omega
      refine .inr (.inr ⟨?_, ?_, hsome _ ⟨hlen, m - j + 1, by omega, hpow, ?_⟩⟩)
      · rw [UInt16.le_iff_toNat_le, hcount, hpow]
        exact Nat.pow_le_pow_right (by decide) hle
      · intro hnone
        have hpositive := Nat.two_pow_pos (m - j + 1)
        rw [hnone, UInt16.toNat_zero] at hpow
        omega
      · rw [UInt16.toNat_mod, hpow, hnum, Nat.mod_mod_of_dvd _ (Nat.pow_dvd_pow 2 hle)]
  · have hzero : half = 0 := by
      apply UInt16.toNat_inj.mp
      rw [hhalf, UInt16.toNat_zero]
      exact Nat.div_eq_of_lt (Nat.pow_lt_pow_right (by decide) (by omega))
    subst hzero
    refine .inl ⟨rfl, ?_⟩
    rw [Sharding.shardNumFor, Sharding.shardNumForBytes, if_neg (by omega)]
    rfl

end Cli.NodeConfig

namespace Verifier

theorem checkScale_stops_iff (header : Header) (extra : ShardExtra) :
    (∃ message, checkScale header extra = .ok (.error ⟨message, some .stop⟩)) ↔
      ∃ num count coinbaseNum, header.phase = some (.committed num count) ∧
        extra.shardCount ≠ count ∧
        Sharding.shardNumFor extra.coinbase count = some coinbaseNum ∧
        extra.target ≠ coinbaseNum := by
  unfold checkScale
  split
  · next num count hphase =>
    constructor
    · intro h
      obtain ⟨message, h⟩ := h
      split_ifs at h with hne
      · simp only [Run.bind_eq_ok, Run.expect_eq_ok] at h
        obtain ⟨coinbaseNum, hnum, h⟩ := h
        refine ⟨num, count, coinbaseNum, hphase, hne, hnum, fun heq => ?_⟩
        subst heq
        cases hscale : extra.scaleOut <;> simp [hscale, ShardExtra.target, Run.pure_eq_ok] at h
      · simp at h
    · intro h
      obtain ⟨num', count', coinbaseNum, hphase', hne, hnum, hother⟩ := h
      obtain ⟨rfl, rfl⟩ : num = num' ∧ count = count' := by
        simpa using hphase.symm.trans hphase'
      refine ⟨"Invalid arg coinbase", ?_⟩
      rw [if_pos hne, hnum]
      cases hscale : extra.scaleOut with
      | none =>
        rw [ShardExtra.target, hscale] at hother
        exact if_pos hother
      | some scaleOut =>
        rw [ShardExtra.target, hscale] at hother
        exact if_pos hother
  · next hother =>
    refine iff_of_false (by simp) ?_
    intro h
    obtain ⟨num, count, _, hphase, _⟩ := h
    exact hother num count hphase

end Verifier

namespace Foreign

open Cli

-- `ForeignChain::new`: a light client for each other shard, which gets the node's own
-- configuration with the shard number replaced.
def ForeignChain.new (config : NodeConfig) : List (UInt16 × NodeConfig) :=
  (((List.range config.shardCount.toNat).map UInt16.ofNat).filter (· ≠ config.shardNum)).map
    fun i => (i, { config with shardNum := i })

theorem mem_foreignChain {config shardConfig : NodeConfig} {foreign : UInt16}
    (h : (foreign, shardConfig) ∈ ForeignChain.new config) :
    foreign ≠ config.shardNum ∧ shardConfig = { config with shardNum := foreign } := by
  obtain ⟨i, hi, heq⟩ := List.mem_map.mp h
  obtain ⟨rfl, rfl⟩ := Prod.mk.inj heq
  exact ⟨by simpa using (List.mem_filter.mp hi).2, rfl⟩

section LightChain

variable (build : Build) (v : PowVerifier)

-- The states of a light client: it starts with the genesis header and stores what its
-- verifier accepts. The numbering of the best chain is left open.
inductive LightChain : Client H256 → Prop where
  | genesis {client : Client H256} (first : BlockHeader H256) (bare : first.logs = [])
      (stored : client.header = Function.update (fun _ => none) (v.hashing.header first)
        (some first)) : LightChain client
  | imported {client client' : Client H256} {header : BlockHeader H256} {proof : Option Bytes}
      {block : ImportBlock} (before : LightChain client)
      (accepted : verify build { v with client := client } header proof none = .ok (.ok block))
      (stored : client'.header = Function.update client.header (v.hashing.header header)
        (some header)) : LightChain client'

-- The header gets as far as `check_scale`.
def RunsCheckScale (header : BlockHeader H256) : Prop :=
  ∃ item sealed num count parent, header.logs.getLast? = some item ∧
    asPowSeal v.hashing.codec item = some sealed ∧
    checkPowTarget build v (preHeader header) sealed = .ok (.ok ()) ∧
    (shardHeader (preHeader header)).shardInfo = some (num, count) ∧
    v.chain header.parentHash = some parent ∧
    phaseOk build v.context.genesisScaleOutObserveBlocks header.number num count parent.phase
      (shardHeader (preHeader header)).phase = .ok true

-- The count after a commit of a shard is twice a count that the node's count is halved to.
def Doubles (extra : ShardExtra) (count : UInt16) : Prop :=
  ∃ half j, count = half * 2 ∧ half.toNat = extra.shardCount.toNat / 2 ^ j

theorem shardHeader_phase {header : BlockHeader H256} {item : DigestItem} {codec : Codec H256}
    {sealed : PowSeal H256} (hlast : header.logs.getLast? = some item)
    (hseal : asPowSeal codec item = some sealed) :
    (shardHeader header).phase = (shardHeader (preHeader header)).phase := by
  have hlogs : header.logs = header.logs.dropLast ++ [item] :=
    (List.dropLast_append_getLast? item hlast).symm
  have hitem : item.asScaleOutPhase = none := by
    cases item with
    | consensus engine data => rfl
    | _ => cases hseal
  have happend := lastLog_append header.logs.dropLast [item] DigestItem.asScaleOutPhase
  rw [← hlogs] at happend
  rw [Header.phase, shardHeader, happend]
  simp only [lastLog, List.reverse_singleton, List.findSome?_singleton, hitem, Option.none_or]
  rfl

theorem LightChain.committing {client : Client H256} (h : LightChain build v client)
    {hash : H256} {header : BlockHeader H256} (hstored : client.header hash = some header)
    {count : UInt16} (hphase : (shardHeader header).phase = some (.committing count)) :
    Doubles v.relay.extra count := by
  induction h generalizing hash header with
  | genesis first bare stored =>
    rw [stored, Function.update_apply] at hstored
    split_ifs at hstored
    obtain rfl := Option.some.inj hstored
    rw [Header.phase, shardHeader, bare] at hphase
    cases hphase
  | @imported client client' header' _ _ _ accepted stored ih =>
    rw [stored, Function.update_apply] at hstored
    split_ifs at hstored
    · obtain rfl := Option.some.inj hstored
      obtain ⟨checked, hheader, _⟩ := (verify_eq_ok _ _ _ _ _ _).mp accepted
      obtain ⟨_, hlast, hseal, hsealed⟩ := checkHeader_eq_ok _ _ hheader
      simp only [checkSealed_eq, thenCheck_eq_ok] at hsealed
      obtain ⟨_, _, _, hshard, _⟩ := hsealed
      obtain ⟨num, half, parent, _, _, hok, _, horiginal⟩ := (checkShardInfo_eq_ok _ _ _ _ _).mp hshard
      rw [← shardHeader_phase hlast hseal, hphase] at hok
      obtain ⟨j, hj⟩ := count_of_getOriginalShardNum horiginal
      exact ⟨half, j, phaseOk_committing hok, hj⟩
    · exact ih hstored hphase

theorem RunsCheckScale.doubles {client : Client H256} (hchain : LightChain build v client)
    {header : BlockHeader H256} (h : RunsCheckScale build { v with client := client } header)
    {num count : UInt16}
    (hphase : (shardHeader (preHeader header)).phase = some (.committed num count)) :
    Doubles v.relay.extra count := by
  obtain ⟨_, _, num', count', parent, _, _, _, _, hparent, hok⟩ := h
  obtain ⟨stored, hstored, rfl⟩ := Option.map_eq_some_iff.mp hparent
  rw [hphase] at hok
  have hcommitting : ∃ target, (shardHeader stored).phase = some (.committing target) := by
    rcases hparentPhase : (shardHeader stored).phase with _ | (_ | _ | _ | target | _)
    case some.committing => exact ⟨target, rfl⟩
    all_goals
      rw [hparentPhase] at hok
      cases hok
  obtain ⟨target, htarget⟩ := hcommitting
  rw [htarget] at hok
  obtain ⟨hcommitted, _⟩ := phaseOk_of_committing hok
  obtain ⟨-, rfl⟩ : num = num' ∧ count = target := by simpa using hcommitted
  exact hchain.committing build v hstored htarget

end LightChain

-- A node with its coinbase in its own shard, one of its light clients after any accepted
-- headers, and a further header for which the client runs `check_scale`.
structure ForeignImport (build : Build) where
  config : NodeConfig
  own : config.OwnCoinbase
  foreign : UInt16
  shardConfig : NodeConfig
  created : (foreign, shardConfig) ∈ ForeignChain.new config
  verifier : PowVerifier
  extra : verifier.relay.extra = shardConfig.shardExtra
  client : Client H256
  chain : LightChain build verifier client
  header : BlockHeader H256
  runs : RunsCheckScale build { verifier with client := client } header

def ForeignImport.Stops {build : Build} (step : ForeignImport build) : Prop :=
  ∃ message, checkScale (shardHeader (preHeader step.header)) step.shardConfig.shardExtra =
    .ok (.error ⟨message, some .stop⟩)

-- A commit of shard `foreign` to this count leaves the node running. The light client has
-- the node's own scale-out, if there is one, and else the number of the other shard.
def Spares (config : NodeConfig) (foreign count : UInt16) : Prop :=
  count = config.shardCount ∨ count = 0 ∨
    (config.shardCount < count ∧ config.scaleOut ≠ none) ∨
    (count < config.shardCount ∧
      ShardExtra.target { config.shardExtra with shardNum := foreign } = config.shardNum % count)

theorem spares_iff {config : NodeConfig} (own : config.OwnCoinbase) {foreign count : UInt16}
    (hforeign : foreign ≠ config.shardNum) (hdoubles : Doubles config.shardExtra count) :
    Spares config foreign count ↔ (config.shardCount ≠ count →
      ∀ coinbaseNum, Sharding.shardNumFor config.coinbase count = some coinbaseNum →
        ShardExtra.target { config.shardExtra with shardNum := foreign } = coinbaseNum) := by
  obtain ⟨half, j, rfl, hhalf⟩ := hdoubles
  rcases own.shardNumFor_committed hhalf with ⟨hzero, hnone⟩ | ⟨hlt, hsome⟩ | ⟨hle, hne, hsome⟩
  · refine iff_of_true (.inr (.inl hzero)) ?_
    intro _ coinbaseNum hnum
    rw [hnone] at hnum
    cases hnum
  · -- The count is doubled: only a node that scales out itself finds its coinbase in order.
    have hother : config.shardCount ≠ half * 2 := UInt16.ne_of_lt hlt
    have hpositive : half * 2 ≠ 0 := by
      intro hzero
      rw [hzero, UInt16.lt_iff_toNat_lt, UInt16.toNat_zero] at hlt
      omega
    have hspares : Spares config foreign (half * 2) ↔ config.scaleOut ≠ none := by
      simp [Spares, hother.symm, hpositive, hlt, UInt16.not_lt.mpr (UInt16.le_of_lt hlt)]
    simp only [hspares, hsome, Option.some.injEq, forall_eq', hother, ne_eq, not_false_eq_true,
      forall_const]
    cases hscale : config.scaleOut with
    | none => simpa [ShardExtra.target, NodeConfig.shardExtra, hscale] using hforeign
    | some scaleOut => simp [ShardExtra.target, NodeConfig.shardExtra, hscale]
  · by_cases hsame : half * 2 = config.shardCount
    · exact iff_of_true (.inl hsame) fun hother => absurd hsame.symm hother
    · have hlt : half * 2 < config.shardCount := UInt16.lt_of_le_of_ne hle hsame
      simp [Spares, hsame, hne, hlt, UInt16.not_lt.mpr hle, hsome, Ne.symm hsame]

-- A committed header of another shard spares the node exactly if its count is the node's own,
-- or is one under which the light client's mix of settings happens to fit the coinbase.
theorem foreign_header_spares_node_iff {build : Build} (step : ForeignImport build) :
    ¬ step.Stops ↔ ∀ num count,
      (shardHeader (preHeader step.header)).phase = some (.committed num count) →
        Spares step.config step.foreign count := by
  obtain ⟨hforeign, hconfig⟩ := mem_foreignChain step.created
  have hextra : step.shardConfig.shardExtra =
      { step.config.shardExtra with shardNum := step.foreign } := by
    rw [hconfig]
    rfl
  have hspares : ∀ num count,
      (shardHeader (preHeader step.header)).phase = some (.committed num count) →
      (Spares step.config step.foreign count ↔ (step.config.shardCount ≠ count →
        ∀ coinbaseNum, Sharding.shardNumFor step.config.coinbase count = some coinbaseNum →
          step.shardConfig.shardExtra.target = coinbaseNum)) := by
    intro num count hphase
    have hdoubles := step.runs.doubles build step.verifier step.chain hphase
    rw [step.extra, hextra] at hdoubles
    rw [hextra]
    exact spares_iff step.own hforeign hdoubles
  unfold ForeignImport.Stops
  rw [checkScale_stops_iff]
  constructor
  · intro h num count hphase
    rw [hspares num count hphase]
    intro hother coinbaseNum hnum
    by_contra hne
    exact h ⟨num, count, coinbaseNum, hphase, by rw [hextra]; exact hother,
      by rw [hextra]; exact hnum, hne⟩
  · intro h hstops
    obtain ⟨num, count, coinbaseNum, hphase, hother, hnum, hne⟩ := hstops
    rw [hextra] at hother hnum
    exact hne ((hspares num count hphase).mp (h num count hphase) hother coinbaseNum hnum)

-- A node of shard 1 of 2 that stays where it is or moves to shard 1 of 4, and the scale-out of
-- shard 0 as its light client sees it.
def firstConfig (moves : Bool) : NodeConfig :=
  ⟨.testnet, 1, 2, if moves then some ⟨1⟩ else none, filled 32 1⟩

def lightVerifier (moves : Bool) : PowVerifier where
  hashing := { plainHashing with header := fun header => filled 32 header.number.toUInt8 }
  client := ⟨fun _ => none, fun _ => none⟩
  context := ⟨BitVec.allOnes 256, 100, 1, 2, 1⟩
  relay := { plainVerifier 1 [] with
    extra := NodeConfig.shardExtra { firstConfig moves with shardNum := 0 }
    foreignProof := fun _ _ => none }

def bareGenesis : BlockHeader H256 := ⟨zero256, 0, zero256, zero256, []⟩

def scaleOutHeader (number : UInt64) (count : UInt16) (phase : ScaleOutPhase) : BlockHeader H256 :=
  BlockHeader.push plainHashing.codec ⟨filled 32 (number - 1).toUInt8, number, zero256, zero256,
    [.shardingInfo 0 count, .scaleOutPhase phase]⟩ plainNonceSeal

def lightClient (headers : List (BlockHeader H256)) : Client H256 where
  header := (bareGenesis :: headers).foldl (fun stored header =>
    Function.update stored ((lightVerifier false).hashing.header header) (some header)) fun _ => none
  headerByNumber _ := none

def preparedCommit : List (BlockHeader H256) :=
  [scaleOutHeader 1 2 (.started 2 0), scaleOutHeader 2 2 (.nativeReady 3 0),
    scaleOutHeader 3 2 (.ready 4 0), scaleOutHeader 4 2 (.committing 4)]

theorem lightChain_preparedCommit (moves : Bool) :
    LightChain .checked (lightVerifier moves) (lightClient preparedCommit) := by
  have haccepted : ∀ k : Fin 4, verify .checked
      { lightVerifier moves with client := lightClient (preparedCommit.take k) }
      (preparedCommit.get k) none none = .ok (.ok ⟨preHeader (preparedCommit.get k),
        powSeal plainHashing.codec plainNonceSeal, none, none⟩) := by
    cases moves <;> decide +kernel
  have hgenesis : LightChain .checked (lightVerifier moves) (lightClient []) :=
    .genesis bareGenesis rfl rfl
  exact .imported (.imported (.imported (.imported hgenesis (haccepted 0) rfl) (haccepted 1) rfl)
    (haccepted 2) rfl) (haccepted 3) rfl

def committedHeader : BlockHeader H256 := scaleOutHeader 5 4 (.committed 0 4)

theorem runsCheckScale_committedHeader (moves : Bool) :
    RunsCheckScale .checked { lightVerifier moves with client := lightClient preparedCommit }
      committedHeader := by
  refine ⟨powSeal plainHashing.codec plainNonceSeal, plainNonceSeal, 0, 4,
    shardHeader (scaleOutHeader 4 2 (.committing 4)), ?_, ?_, ?_, ?_, ?_, ?_⟩ <;>
    cases moves <;> decide +kernel

def committedImport (moves : Bool) : ForeignImport .checked where
  config := firstConfig moves
  own := by cases moves <;> exact ⟨by decide +kernel, by decide +kernel⟩
  foreign := 0
  shardConfig := { firstConfig moves with shardNum := 0 }
  created := by cases moves <;> decide +kernel
  verifier := lightVerifier moves
  extra := rfl
  client := lightClient preparedCommit
  chain := lightChain_preparedCommit moves
  header := committedHeader
  runs := runsCheckScale_committedHeader moves

-- A node that scales out itself goes on.
theorem foreign_header_spares_node_iff_moving :
    (shardHeader (preHeader (committedImport true).header)).phase = some (.committed 0 4) ∧
    ¬ (committedImport true).Stops := by
  have hphase : (shardHeader (preHeader committedHeader)).phase = some (.committed 0 4) := by
    decide +kernel
  refine ⟨hphase, (foreign_header_spares_node_iff (committedImport true)).mpr ?_⟩
  intro num count hcommitted
  obtain ⟨rfl, rfl⟩ : 0 = num ∧ 4 = count := by
    simpa using (Option.some.inj (hphase.symm.trans hcommitted))
  exact .inr (.inr (.inl ⟨by decide, by decide⟩))

-- The light client of a node that stays compares shard 0 with the coinbase, which is of
-- shard 1, and stops the node.
theorem foreign_commit_stops_node : ∃ step : ForeignImport .checked,
    processCustomArgs .checked (fun _ => .ok (filled 32 1, .testnet)) "testnet" true ⟨1, 2, none⟩
      (some "") = .ok (.ok step.config) ∧
    step.foreign = 0 ∧
    verify .checked { step.verifier with client := step.client } step.header none none =
      .ok (.error ⟨"Invalid arg coinbase", some .stop⟩) ∧
    step.Stops := by
  have hstops : checkScale (shardHeader (preHeader committedHeader))
      (NodeConfig.shardExtra { firstConfig false with shardNum := 0 }) =
        .ok (.error ⟨"Invalid arg coinbase", some .stop⟩) := by
    decide +kernel
  have hverify : verify .checked
      { lightVerifier false with client := lightClient preparedCommit } committedHeader none none =
        .ok (.error ⟨"Invalid arg coinbase", some .stop⟩) := by
    decide +kernel
  have hstarted : processCustomArgs .checked (fun _ => .ok (filled 32 1, .testnet)) "testnet" true
      ⟨1, 2, none⟩ (some "") = .ok (.ok (firstConfig false)) := by
    decide +kernel
  exact ⟨committedImport false, hstarted, rfl, hverify, _, hstops⟩

end Foreign

end Yeeroot
