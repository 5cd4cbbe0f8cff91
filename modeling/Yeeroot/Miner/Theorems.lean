import Mathlib.Data.List.Forall2
import Yeeroot.Executive.Block.Lemmas
import Yeeroot.Executive.CrossShard
import Yeeroot.Miner
import Yeeroot.MultiLayerProof.Lemmas
import Yeeroot.Sharding.Utils.Lemmas
import Yeeroot.SrPrimitives.DecodeType

namespace Yeeroot.Miner

open Scale

section Executor

variable (blake2 : Bytes → H256) (curShard shardCount : UInt16)

-- The relays that the executor notes for extrinsics with these results.
def executorRelays : List UncheckedExtrinsic → List Bool → ExtrinsicShard H256 →
    Run (ExtrinsicShard H256)
  | uxt :: extrinsics, success :: results, shards => do
    let leaf ← executorLeaf blake2 curShard shardCount uxt success
    executorRelays extrinsics results (shards.note leaf)
  | _, _, shards => .ok shards

variable {σ : Type} (env : Substrate σ)

-- In a block that executes, the executor's loop notes the relays of its own results.
theorem executeNotingRelays_eq {extrinsics : List UncheckedExtrinsic} {st final : State σ}
    {executed : List (Executed σ)}
    (h : executeExtrinsics env extrinsics st = .ok (executed, final))
    (shards : ExtrinsicShard H256) :
    executeNotingRelays env curShard shardCount extrinsics shards st = do
      let shards ← executorRelays env.blake2 curShard shardCount extrinsics
        (executed.map Executed.succeeded) shards
      return (shards, final) := by
  induction extrinsics generalizing st executed shards with
  | nil =>
    simp only [executeExtrinsics, Except.ok.injEq, Prod.mk.injEq] at h
    obtain ⟨rfl, rfl⟩ := h
    rfl
  | cons uxt extrinsics ih =>
    simp only [executeExtrinsics, Run.bind_eq_ok, Prod.exists, Run.pure_eq_ok, Prod.mk.injEq] at h
    obtain ⟨applied, happly, rest, _, hrest, rfl, rfl⟩ := h
    simp only [executeNotingRelays, happly, List.map_cons, executorRelays]
    cases hleaf : executorLeaf env.blake2 curShard shardCount uxt
        (Executed.succeeded ⟨st, uxt, applied⟩) with
    | error panic => simp [bind, Except.bind, hleaf]
    | ok leaf =>
      have htail := ih hrest (shards.note leaf)
      simp only [bind, Except.bind, hleaf] at htail ⊢
      exact htail

end Executor

theorem length_decodeItems {α : Type} {decode : Bytes → Option (α × Bytes)} {n : Nat}
    {input rest : Bytes} {items : List α} (h : decodeItems decode n input = some (items, rest)) :
    items.length = n := by
  induction n generalizing input items rest with
  | zero =>
    simp only [decodeItems, Option.some.injEq, Prod.mk.injEq] at h
    rw [← h.1]
    rfl
  | succ n ih =>
    simp only [decodeItems, Option.bind_eq_bind, Option.bind_eq_some_iff, Prod.exists,
      Option.pure_def, Option.some.injEq, Prod.mk.injEq] at h
    obtain ⟨item, _, _, tail, _, htail, rfl, _⟩ := h
    rw [List.length_cons, ih htail]

variable {body : List OpaqueExtrinsic}

theorem length_decodeBody {args : SubstrateArgs} {extrinsics : List UncheckedExtrinsic}
    (h : decodeBody args body = some extrinsics) :
    extrinsics.length = body.length := by
  simp only [decodeBody, Option.map_eq_some_iff, Prod.exists] at h
  obtain ⟨items, rest, hitems, rfl⟩ := h
  exact length_decodeItems hitems

section Roots

variable (args : SubstrateArgs) (blake2 : Bytes → H256) (ml : MerkleLight H256)
variable (shardNum shardCount : UInt16)
variable {body : List OpaqueExtrinsic} {extrinsics : List UncheckedExtrinsic}
  {uxt : UncheckedExtrinsic} {num : UInt16} {tx : OpaqueExtrinsic}

-- The two roots of one body with one vector of results.
def minerRoot (body : List OpaqueExtrinsic) (results : List Bool) : Run H256 := do
  let shards ← noteRelays args blake2 shardNum shardCount body results (fun _ => [])
  layer2Root ml shardCount shards

def executorRoot (extrinsics : List UncheckedExtrinsic) (results : List Bool) : Run H256 := do
  let shards ← executorRelays blake2 shardNum shardCount extrinsics results (fun _ => [])
  layer2Root ml shardCount shards

theorem minerRoot_of_genExtrinsicProof {header : Header} {results : List Bool} {root : H256}
    {bytes : Bytes} (hinfo : header.shardInfo = some (shardNum, shardCount))
    (h : genExtrinsicProof args blake2 ml header body results = .ok (root, bytes)) :
    minerRoot args blake2 ml shardNum shardCount body results = .ok root := by
  simp only [genExtrinsicProof, hinfo, Run.bind_eq_ok, Run.expect_eq_ok, Run.pure_eq_ok,
    Prod.mk.injEq] at h
  obtain ⟨_, hsame, shards, hshards, root', hroot, rfl, _⟩ := h
  obtain rfl := Option.some.inj hsame
  simp only [minerRoot, Run.bind_eq_ok]
  exact ⟨shards, hshards, hroot⟩

-- Both sides read the same destination shard from an extrinsic and, if it leaves its
-- shard, hash it alike.
def Agree (tx : OpaqueExtrinsic) (uxt : UncheckedExtrinsic) : Prop :=
  executorShard shardNum shardCount uxt = .ok (minerShard args shardNum shardCount tx) ∧
    (minerShard args shardNum shardCount tx ≠ none → blake2 uxt.encode = blake2 tx.encode)

theorem noteRelays_eq_executorRelays
    (h : List.Forall₂ (Agree args blake2 shardNum shardCount) body extrinsics) (results : List Bool)
    (hlen : results.length = body.length) (shards : ExtrinsicShard H256) :
    noteRelays args blake2 shardNum shardCount body results shards =
      executorRelays blake2 shardNum shardCount extrinsics results shards := by
  induction h generalizing results shards with
  | nil =>
    obtain rfl := List.eq_nil_of_length_eq_zero hlen
    rfl
  | @cons tx uxt body extrinsics hagree _ ih =>
    obtain ⟨success, results, rfl⟩ := List.exists_cons_of_length_eq_add_one hlen
    have htail := ih results (by simpa using hlen)
    obtain ⟨hshard, hhash⟩ := hagree
    simp only [noteRelays, executorRelays, executorLeaf]
    cases hminer : minerShard args shardNum shardCount tx with
    | none =>
      rw [hminer] at hshard
      cases success <;> simpa [hshard, bind, Except.bind, pure, Except.pure,
        ExtrinsicShard.note] using htail shards
    | some num =>
      rw [hminer] at hshard
      have hsame := hhash (by simp [hminer])
      cases success <;> simpa [hshard, hsame, bind, Except.bind, pure, Except.pure, Run.expect,
        ExtrinsicShard.note] using htail _

theorem noteRelays_replicate_false (body : List OpaqueExtrinsic) (shards : ExtrinsicShard H256) :
    noteRelays args blake2 shardNum shardCount body (List.replicate body.length false) shards =
      .ok shards := by
  induction body with
  | nil => rfl
  | cons tx body ih =>
    simp only [noteRelays, List.length_cons, List.replicate_succ, List.tail_cons]
    cases minerShard args shardNum shardCount tx with
    | none => exact ih
    | some num => simpa [Run.expect, bind, Except.bind, ExtrinsicShard.note] using ih

theorem executorRelays_replicate_false (extrinsics : List UncheckedExtrinsic) (n : Nat)
    (shards : ExtrinsicShard H256) :
    executorRelays blake2 shardNum shardCount extrinsics (List.replicate n false) shards =
      .ok shards := by
  induction extrinsics generalizing n with
  | nil => rfl
  | cons uxt extrinsics ih =>
    cases n with
    | zero => rfl
    | succ n =>
      simpa [List.replicate_succ, executorRelays, executorLeaf, bind, Except.bind,
        ExtrinsicShard.note] using ih n

theorem executorShard_panic {panic : Panic}
    (h : executorShard shardNum shardCount uxt = .error panic) :
    panic.message ≠ "index out of bounds" := by
  unfold executorShard at h
  split_ifs at h
  cases htype : OriginExtrinsic.decodeType uxt.encode with
  | error panic' =>
    simp only [htype, bind, Except.bind, Except.error.injEq] at h
    exact h ▸ decodeType_panic htype
  | ok relayType => simp [htype, bind, Except.bind, pure, Except.pure] at h

theorem minerShard_eq_some :
    minerShard args shardNum shardCount tx = some num ↔
      ∃ info call rest dest, UncheckedExtrinsic.decode args tx.encode =
          some (⟨some info, call⟩, rest) ∧ transferDest call = some dest ∧
        Sharding.shardNumForBytes dest.encode shardCount = some num ∧ num ≠ shardNum := by
  simp only [minerShard, Option.bind_eq_bind, Option.bind_eq_some_iff, Prod.exists]
  constructor
  · intro h
    obtain ⟨⟨signature, call⟩, rest, hdecode, h⟩ := h
    split_ifs at h with hsigned
    obtain ⟨info, rfl⟩ := Option.isSome_iff_exists.mp hsigned
    simp only [Option.bind_eq_some_iff] at h
    obtain ⟨dest, hdest, num', hnum, h⟩ := h
    split_ifs at h with hne
    obtain rfl := Option.some.inj h
    exact ⟨info, call, rest, dest, hdecode, hdest, hnum, hne⟩
  · intro h
    obtain ⟨info, call, rest, dest, hdecode, hdest, hnum, hne⟩ := h
    have hsigned : (UncheckedExtrinsic.mk (some info) call).isSigned = true := rfl
    refine ⟨_, rest, hdecode, ?_⟩
    rw [if_pos hsigned]
    simp only [Option.bind_eq_some_iff]
    exact ⟨dest, hdest, num, hnum, if_pos hne⟩

theorem minerShard_lt (h : minerShard args shardNum shardCount tx = some num) :
    num < shardCount := by
  obtain ⟨_, _, _, _, _, _, hnum, _⟩ := (minerShard_eq_some args shardNum shardCount).mp h
  exact Sharding.shardNumForBytes_lt _ _ _ hnum

theorem executorShard_lt (h : executorShard shardNum shardCount uxt = .ok (some num)) :
    num < shardCount := by
  unfold executorShard at h
  split_ifs at h
  · simp only [Run.bind_eq_ok, Run.pure_eq_ok] at h
    obtain ⟨relayType?, _, h⟩ := h
    have hdest := h.symm
    simp only [Option.bind_eq_bind, Option.bind_eq_some_iff] at hdest
    obtain ⟨_, _, origin, _, num', hnum, hdest⟩ := hdest
    split_ifs at hdest
    obtain rfl := Option.some.inj hdest
    exact Sharding.shardNumForBytes_lt _ _ _ hnum
  · simp at h

def leafOf (shard : Option UInt16) (hash : H256) : Option (UInt16 × H256) :=
  shard.map fun num => (num, hash)

-- Collision-freeness, as far as it is used: two trees with at most one leaf each, a hash
-- of this list, have the same root only if they are the same.
def RootsSeparate (hashes : List H256) : Prop :=
  ∀ shard shard' hash hash', hash ∈ hashes → hash' ∈ hashes →
    (∀ num, shard = some num → num < shardCount) →
    (∀ num, shard' = some num → num < shardCount) →
    layer2Root ml shardCount (ExtrinsicShard.note (fun _ => []) (leafOf shard hash)) =
      layer2Root ml shardCount (ExtrinsicShard.note (fun _ => []) (leafOf shard' hash')) →
    leafOf shard hash = leafOf shard' hash'

theorem minerRoot_first (tx : OpaqueExtrinsic) (body : List OpaqueExtrinsic) :
    minerRoot args blake2 ml shardNum shardCount (tx :: body)
        (true :: List.replicate body.length false) =
      layer2Root ml shardCount (ExtrinsicShard.note (fun _ => [])
        (leafOf (minerShard args shardNum shardCount tx) (blake2 tx.encode))) := by
  simp only [minerRoot, noteRelays, List.tail_cons, List.head?_cons]
  cases minerShard args shardNum shardCount tx with
  | none => simp [noteRelays_replicate_false, bind, Except.bind, leafOf, ExtrinsicShard.note]
  | some num =>
    simp [noteRelays_replicate_false, bind, Except.bind, leafOf, Run.expect]

theorem executorRoot_first (uxt : UncheckedExtrinsic) (extrinsics : List UncheckedExtrinsic)
    (n : Nat) :
    executorRoot blake2 ml shardNum shardCount (uxt :: extrinsics)
        (true :: List.replicate n false) =
      executorShard shardNum shardCount uxt >>= fun shard => layer2Root ml shardCount
        (ExtrinsicShard.note (fun _ => []) (leafOf shard (blake2 uxt.encode))) := by
  simp only [executorRoot, executorRelays, executorLeaf, if_true]
  cases executorShard shardNum shardCount uxt with
  | error panic => rfl
  | ok shard =>
    simp [executorRelays_replicate_false, bind, Except.bind, pure, Except.pure, leafOf]

theorem agree_of_first {hashes : List H256} (hseparate : RootsSeparate ml shardCount hashes)
    (htx : blake2 tx.encode ∈ hashes) (huxt : blake2 uxt.encode ∈ hashes)
    (h : minerRoot args blake2 ml shardNum shardCount (tx :: body)
        (true :: List.replicate body.length false) =
      executorRoot blake2 ml shardNum shardCount (uxt :: extrinsics)
        (true :: List.replicate body.length false)) :
    Agree args blake2 shardNum shardCount tx uxt := by
  rw [minerRoot_first, executorRoot_first] at h
  cases hshard : executorShard shardNum shardCount uxt with
  | error panic =>
    -- The miner's root is there, or fails with a message of its own.
    rw [hshard] at h
    unfold layer2Root Run.expect at h
    have hne := executorShard_panic shardNum shardCount hshard
    split at h
    · simp [bind, Except.bind] at h
    · obtain rfl := Except.error.inj h
      simp at hne
  | ok shard =>
    rw [hshard] at h
    have hleaf := hseparate _ _ _ _ htx huxt
      (fun num hnum => minerShard_lt args shardNum shardCount hnum)
      (fun num hnum => executorShard_lt shardNum shardCount (hnum ▸ hshard)) h
    unfold leafOf at hleaf
    unfold Agree
    rw [hshard]
    cases hminer : minerShard args shardNum shardCount tx with
    | none =>
      rw [hminer, Option.map_none] at hleaf
      obtain rfl := Option.map_eq_none_iff.mp hleaf.symm
      exact ⟨rfl, fun hsome => absurd rfl hsome⟩
    | some num =>
      rw [hminer, Option.map_some] at hleaf
      obtain ⟨num', rfl, hpair⟩ := Option.map_eq_some_iff.mp hleaf.symm
      obtain ⟨rfl, hhash⟩ := Prod.mk.inj hpair
      exact ⟨rfl, fun _ => hhash⟩

theorem agree_of_roots {hashes : List H256} (hseparate : RootsSeparate ml shardCount hashes)
    (hlen : extrinsics.length = body.length) (hbody : ∀ tx ∈ body, blake2 tx.encode ∈ hashes)
    (hextrinsics : ∀ uxt ∈ extrinsics, blake2 uxt.encode ∈ hashes)
    (h : ∀ results : List Bool, results.length = body.length →
      minerRoot args blake2 ml shardNum shardCount body results =
        executorRoot blake2 ml shardNum shardCount extrinsics results) :
    List.Forall₂ (Agree args blake2 shardNum shardCount) body extrinsics := by
  induction body generalizing extrinsics with
  | nil =>
    obtain rfl := List.eq_nil_of_length_eq_zero hlen
    exact .nil
  | cons tx body ih =>
    obtain ⟨uxt, extrinsics, rfl⟩ := List.exists_cons_of_length_eq_add_one hlen
    refine .cons ?_ (ih (by simpa using hlen)
      (fun tx' hmem => hbody tx' (List.mem_cons_of_mem _ hmem))
      (fun uxt' hmem => hextrinsics uxt' (List.mem_cons_of_mem _ hmem))
      fun results hresults => ?_)
    · -- Only the first extrinsic succeeds.
      exact agree_of_first args blake2 ml shardNum shardCount hseparate
        (hbody tx List.mem_cons_self) (hextrinsics uxt List.mem_cons_self)
        (h (true :: List.replicate body.length false) (by simp))
    · -- The first extrinsic fails and adds nothing.
      have hrest := h (false :: results) (by simpa using hresults)
      simp only [minerRoot, executorRoot, noteRelays, executorRelays, executorLeaf,
        List.tail_cons, List.head?_cons] at hrest ⊢
      cases hminer : minerShard args shardNum shardCount tx with
      | none =>
        simpa [hminer, bind, Except.bind, ExtrinsicShard.note] using hrest
      | some num =>
        simpa [hminer, bind, Except.bind, ExtrinsicShard.note, Run.expect] using hrest

-- For every vector of results the roots are the same exactly when both sides read every
-- extrinsic alike.
theorem miner_executor_root_iff {body : List OpaqueExtrinsic}
    {extrinsics : List UncheckedExtrinsic} (hdecoded : decodeBody args body = some extrinsics)
    (hseparate : RootsSeparate ml shardCount
      (body.map (fun tx => blake2 tx.encode) ++ extrinsics.map fun uxt => blake2 uxt.encode)) :
    (∀ results : List Bool, results.length = body.length →
      minerRoot args blake2 ml shardNum shardCount body results =
        executorRoot blake2 ml shardNum shardCount extrinsics results) ↔
      List.Forall₂ (Agree args blake2 shardNum shardCount) body extrinsics := by
  constructor
  · intro h
    refine agree_of_roots args blake2 ml shardNum shardCount hseparate (length_decodeBody hdecoded)
      (fun tx hmem => ?_) (fun uxt hmem => ?_) h
    · exact List.mem_append_left _ (List.mem_map_of_mem hmem)
    · exact List.mem_append_right _ (List.mem_map_of_mem hmem)
  · intro h results hlen
    unfold minerRoot executorRoot
    rw [noteRelays_eq_executorRelays args blake2 shardNum shardCount h results hlen]

end Roots

theorem mem_noteRelays {args : SubstrateArgs} {blake2 : Bytes → H256} {shardNum shardCount : UInt16}
    {results : List Bool} {before after : ExtrinsicShard H256}
    (h : noteRelays args blake2 shardNum shardCount body results before = .ok after)
    (shard : UInt16) (hash : H256) :
    hash ∈ after shard ↔ hash ∈ before shard ∨
      ∃ (i : Nat) (tx : OpaqueExtrinsic), body[i]? = some tx ∧ results[i]? = some true ∧
        minerShard args shardNum shardCount tx = some shard ∧ blake2 tx.encode = hash := by
  induction body generalizing results before with
  | nil =>
    simp only [noteRelays, Except.ok.injEq] at h
    subst h
    simp
  | cons tx body ih =>
    -- The first extrinsic, and the others with the rest of the results.
    have hsplit : (∃ (i : Nat) (tx' : OpaqueExtrinsic), (tx :: body)[i]? = some tx' ∧
          results[i]? = some true ∧
          minerShard args shardNum shardCount tx' = some shard ∧ blake2 tx'.encode = hash) ↔
        (results.head? = some true ∧ minerShard args shardNum shardCount tx = some shard ∧
          blake2 tx.encode = hash) ∨
        ∃ (i : Nat) (tx' : OpaqueExtrinsic), body[i]? = some tx' ∧ results.tail[i]? = some true ∧
          minerShard args shardNum shardCount tx' = some shard ∧ blake2 tx'.encode = hash := by
      constructor
      · intro hcase
        obtain ⟨i, tx', hget, hresult, hrest⟩ := hcase
        cases i with
        | zero =>
          obtain rfl : tx = tx' := by simpa using hget
          exact .inl ⟨by rw [List.head?_eq_getElem?]; exact hresult, hrest⟩
        | succ i =>
          refine .inr ⟨i, tx', by simpa using hget, ?_, hrest⟩
          rw [List.getElem?_tail]
          exact hresult
      · rintro (⟨hhead, hrest⟩ | ⟨i, tx', hget, hresult, hrest⟩)
        · exact ⟨0, tx, rfl, by rw [← List.head?_eq_getElem?]; exact hhead, hrest⟩
        · rw [List.getElem?_tail] at hresult
          exact ⟨i + 1, tx', by simpa using hget, hresult, hrest⟩
    rw [hsplit]
    simp only [noteRelays] at h
    cases hminer : minerShard args shardNum shardCount tx with
    | none =>
      rw [hminer] at h
      rw [ih h]
      simp
    | some num =>
      simp only [hminer, Run.bind_eq_ok, Run.expect_eq_ok] at h
      obtain ⟨success, hsuccess, h⟩ := h
      rw [ih h, hsuccess]
      cases success with
      | false => simp [ExtrinsicShard.note]
      | true =>
        simp only [if_true, ExtrinsicShard.note, ExtrinsicShard.push, Function.update_apply,
          true_and, Option.some.injEq]
        by_cases hnum : shard = num
        · subst hnum
          simp only [if_true, List.mem_append, List.mem_singleton, true_and, or_assoc, eq_comm]
        · have hne : ¬ num = shard := fun heq => hnum heq.symm
          simp [hnum, hne]

theorem genExtrinsicProof_contains {args : SubstrateArgs} {blake2 : Bytes → H256}
    {ml : MerkleLight H256} {header : Header} {shardNum shardCount : UInt16} {results : List Bool}
    {root : H256} {bytes : Bytes} (hinfo : header.shardInfo = some (shardNum, shardCount))
    (hauthored : genExtrinsicProof args blake2 ml header body results = .ok (root, bytes)) :
    ∃ proof, MultiLayerProof.fromBytes ml bytes = some proof ∧
      ∀ shard hash, proof.contains shard hash = true ↔
        ∃ (i : Nat) (tx : OpaqueExtrinsic), body[i]? = some tx ∧ results[i]? = some true ∧
          minerShard args shardNum shardCount tx = some shard ∧ blake2 tx.encode = hash := by
  simp only [genExtrinsicProof, hinfo, Run.bind_eq_ok, Run.expect_eq_ok, Run.pure_eq_ok,
    Prod.mk.injEq] at hauthored
  obtain ⟨_, hsame, shards, hshards, _, _, rfl, rfl⟩ := hauthored
  obtain rfl := Option.some.inj hsame
  refine ⟨_, MultiLayerProof.fromBytes_encode ml _ ?_ (by simp), fun shard hash => ?_⟩
  · have hcount := shardCount.toNat_lt
    simp only [layer1Merkles, List.length_map, List.length_range]
    omega
  · rw [MultiLayerProof.contains_layer1Merkles, mem_noteRelays hshards]
    simp only [List.not_mem_nil, false_or]
    constructor
    · intro h
      exact h.2
    · intro h
      obtain ⟨i, tx, htx, hsuccess, hshard, hhash⟩ := h
      exact ⟨minerShard_lt args shardNum shardCount hshard, i, tx, htx, hsuccess, hshard, hhash⟩

-- A block that was authored from its own results passes the executor's proof check if
-- both sides read its extrinsics alike.
theorem authored_block_accepted {σ : Type} (env : Substrate σ) (ml : MerkleLight H256)
    {shardNum shardCount : UInt16} {header : Header} {extrinsics : List UncheckedExtrinsic}
    {st final : State σ} {executed : List (Executed σ)} {root : H256} {bytes : Bytes}
    (hinfo : header.shardInfo = some (shardNum, shardCount))
    (hagree : List.Forall₂ (Agree env.args env.blake2 shardNum shardCount) body extrinsics)
    (hexecuted : executeExtrinsics env extrinsics st = .ok (executed, final))
    (hauthored : genExtrinsicProof env.args env.blake2 ml header body
      (executed.map Executed.succeeded) = .ok (root, bytes)) :
    executeExtrinsicsWithBookKeepingWithProof env ml extrinsics header.number root shardNum
      shardCount st = finishBlock env header.number final := by
  have hlen : (executed.map Executed.succeeded).length = body.length := by
    rw [List.length_map, hagree.length_eq, ← executeExtrinsics_uxts env hexecuted, List.length_map]
  have hroot := minerRoot_of_genExtrinsicProof env.args env.blake2 ml shardNum shardCount hinfo
    hauthored
  simp only [minerRoot, Run.bind_eq_ok, noteRelays_eq_executorRelays env.args env.blake2 shardNum
    shardCount hagree _ hlen] at hroot
  obtain ⟨shards, hshards, hroot⟩ := hroot
  rw [executeExtrinsicsWithBookKeepingWithProof,
    executeNotingRelays_eq shardNum shardCount env hexecuted, hshards]
  simp only [bind, Except.bind, pure, Except.pure, hroot, if_true]

-- A node's hash keeps half of each side.
def halfMerkleLight : MerkleLight H256 :=
  .ofCodec (fun left right => ⟨left.val.take 16 ++ right.val.take 16, by
    simp [left.property, right.property]⟩) zero256 (.fixed 32)

theorem rootsSeparate_plainTransfer : RootsSeparate halfMerkleLight 2
    [plainSubstrate.blake2 plainTransfer.encode, plainSubstrate.blake2 plainTransfer.encode] := by
  have hshards : ∀ shard : Option UInt16, (∀ num, shard = some num → num < 2) →
      shard = none ∨ shard = some 0 ∨ shard = some 1 := by
    intro shard hlt
    cases shard with
    | none => exact .inl rfl
    | some num =>
      have hnum := UInt16.lt_iff_toNat_lt.mp (hlt num rfl)
      have hcases : num.toNat = 0 ∨ num.toNat = 1 := by
        simp only [UInt16.reduceToNat] at hnum
        omega
      rcases hcases with h | h
      · exact .inr (.inl (congrArg some (UInt16.toNat_inj.mp h)))
      · exact .inr (.inr (congrArg some (UInt16.toNat_inj.mp h)))
  intro shard shard' hash hash' hmem hmem' hlt hlt' hroots
  obtain rfl : hash = plainSubstrate.blake2 plainTransfer.encode := by simpa using hmem
  obtain rfl : hash' = plainSubstrate.blake2 plainTransfer.encode := by simpa using hmem'
  rcases hshards shard hlt with rfl | rfl | rfl <;>
    rcases hshards shard' hlt' with rfl | rfl | rfl <;> first
        | rfl
        | exact absurd hroots (by decide +kernel)

theorem miner_executor_root_iff_transfer :
    decodeBody plainSubstrate.args [plainTransfer.toOpaque] = some [plainTransfer] ∧
    minerShard plainSubstrate.args 1 2 plainTransfer.toOpaque = some 0 ∧
    ∀ results : List Bool, results.length = [plainTransfer.toOpaque].length →
      minerRoot plainSubstrate.args plainSubstrate.blake2 halfMerkleLight 1 2
          [plainTransfer.toOpaque] results =
        executorRoot plainSubstrate.blake2 halfMerkleLight 1 2 [plainTransfer] results := by
  have hdecoded : decodeBody plainSubstrate.args [plainTransfer.toOpaque] =
      some [plainTransfer] := by
    decide +kernel
  refine ⟨hdecoded, by decide +kernel, ?_⟩
  refine (miner_executor_root_iff _ _ _ _ _ hdecoded rootsSeparate_plainTransfer).mpr ?_
  exact .cons ⟨by decide +kernel, fun _ => rfl⟩ .nil

-- A runtime that knows an account by its index, and a transfer to this index.
def indexedSubstrate : Substrate Unit :=
  { plainSubstrate with lookupIndex := fun _ _ => some (filled 32 2) }

def indexTransfer : UncheckedExtrinsic :=
  ⟨some ⟨.id (filled 32 1), filled 64 7, 0, .immortal⟩, .balancesTransfer (.index 512) 5⟩

-- The author lists the transfer, and the executor does not decode its destination.
theorem authored_block_rejected : ∃ root bytes step final,
    decodeBody indexedSubstrate.args [indexTransfer.toOpaque] = some [indexTransfer] ∧
    executeExtrinsics indexedSubstrate [indexTransfer] fundedState = .ok ([step], final) ∧
    step.succeeded = true ∧
    genExtrinsicProof indexedSubstrate.args indexedSubstrate.blake2 halfMerkleLight
      ⟨zero256, 1, [.shardingInfo 1 2]⟩ [indexTransfer.toOpaque] [true] = .ok (root, bytes) ∧
    minerRoot indexedSubstrate.args indexedSubstrate.blake2 halfMerkleLight 1 2
        [indexTransfer.toOpaque] [true] ≠
      executorRoot indexedSubstrate.blake2 halfMerkleLight 1 2 [indexTransfer] [true] ∧
    executeExtrinsicsWithBookKeepingWithProof indexedSubstrate halfMerkleLight [indexTransfer] 1
      root 1 2 fundedState = .error ⟨"proof root not match"⟩ := by
  have hexecuted : ((executeExtrinsics indexedSubstrate [indexTransfer] fundedState).toOption.bind
      fun run => some (run.1.map Executed.succeeded)) = some [true] := by
    decide +kernel
  have hauthored : ((genExtrinsicProof indexedSubstrate.args indexedSubstrate.blake2
      halfMerkleLight ⟨zero256, 1, [.shardingInfo 1 2]⟩ [indexTransfer.toOpaque]
      [true]).toOption.bind fun proof => (executeExtrinsicsWithBookKeepingWithProof
        indexedSubstrate halfMerkleLight [indexTransfer] 1 proof.1 1 2 fundedState).panic?) =
      some ⟨"proof root not match"⟩ := by
    decide +kernel
  obtain ⟨⟨executed, final⟩, hexecuted, hsucceeded⟩ := Run.exists_of_toOption hexecuted
  obtain ⟨⟨root, bytes⟩, hauthored, hpanic⟩ := Run.exists_of_toOption hauthored
  obtain ⟨step, rfl⟩ := List.length_eq_one_iff.mp
    (by simpa using congrArg List.length (Option.some.inj hsucceeded))
  exact ⟨root, bytes, step, final, by decide +kernel, hexecuted,
    by simpa using Option.some.inj hsucceeded, hauthored, by decide +kernel,
    Run.eq_error_of_panic? hpanic⟩

end Yeeroot.Miner
