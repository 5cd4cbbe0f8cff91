import Yeeroot.Pow.Seal.Lemmas
import Yeeroot.Pow.Target
import Yeeroot.Pow.WorkProof.Theorems

namespace Yeeroot.Pow

open Scale

variable {H : Type} {build : Build} {hashing : Hashing H} {context : Context} {client : Client H}

-- The blocks that a header builds on, down to block 0.
inductive Client.Ancestor (client : Client H) (header : BlockHeader H) : BlockHeader H → Prop where
  | parent {block : BlockHeader H} (stored : client.header header.parentHash = some block) :
      Ancestor client header block
  | step {block parent : BlockHeader H} (above : Ancestor client header block)
      (number : block.number ≠ 0) (stored : client.header block.parentHash = some parent) :
      Ancestor client header parent

-- A store of sealed blocks with their parents, and a best chain in it.
structure Client.Valid (hashing : Hashing H) (client : Client H) : Prop where
  keyed : ∀ hash block, client.header hash = some block → hashing.header block = hash
  parent : ∀ hash block, client.header hash = some block → block.number ≠ 0 →
    ∃ parent, client.header block.parentHash = some parent ∧ parent.number + 1 = block.number
  isSealed : ∀ hash block, client.header hash = some block → block.number ≠ 0 →
    ∃ sealed, block.lastSeal hashing.codec = some sealed
  onBest : ∀ number block, client.headerByNumber number = some block →
    block.number = number ∧ client.header (hashing.header block) = some block
  linked : ∀ number block, client.headerByNumber number = some block → number ≠ 0 →
    client.headerByNumber (number - 1) = client.header block.parentHash

def Client.Stores (hashing : Hashing H) (client : Client H) (block : BlockHeader H) : Prop :=
  client.header (hashing.header block) = some block

-- Nodes that have the header's ancestors agree on its target, whatever their best chains.
def ForkIndependent (build : Build) (hashing : Hashing H) (context : Context) (client : Client H)
    (header : BlockHeader H) (timestamp : UInt64) : Prop :=
  ∀ client₁ client₂ : Client H, client₁.Valid hashing → client₂.Valid hashing →
    (∀ block, client.Ancestor header block → client₁.Stores hashing block) →
    (∀ block, client.Ancestor header block → client₂.Stores hashing block) →
    calcPowTarget build hashing.codec client₁ header timestamp context =
      calcPowTarget build hashing.codec client₂ header timestamp context

-- The header is the first of an adjustment period, and its number can be read as such.
def FirstOfPeriod (build : Build) (context : Context) (number : UInt64) : Prop :=
  number ≠ 1 ∧ ¬ (build = .checked ∧ number = 0) ∧ context.genesisPowTargetAdj ≠ 0 ∧
    (number - 1) % context.genesisPowTargetAdj = 0

theorem FirstOfPeriod.adj_le {number : UInt64} (h : FirstOfPeriod build context number)
    (hchecked : build = .checked) : context.genesisPowTargetAdj.toNat ≤ number.toNat := by
  obtain ⟨hone, hzero, hadj, hrem⟩ := h
  obtain ⟨hpos, hbelow⟩ := toNat_sub_one fun hn => hzero ⟨hchecked, hn⟩
  have hdvd := congrArg UInt64.toNat hrem
  rw [UInt64.toNat_mod, hbelow, UInt64.toNat_zero] at hdvd
  have hne : number.toNat ≠ 1 := fun hn => hone (UInt64.toNat_inj.mp hn)
  have hle := Nat.le_of_dvd (by omega) (Nat.dvd_of_mod_eq_zero hdvd)
  omega

theorem FirstOfPeriod.sub_ne_zero {number : UInt64} (h : FirstOfPeriod build context number) :
    number - context.genesisPowTargetAdj ≠ 0 := by
  obtain ⟨hone, _, hadj, hrem⟩ := h
  intro hsub
  have hsame : number = context.genesisPowTargetAdj := by
    have hzero := congrArg UInt64.toNat hsub
    rw [UInt64.toNat_sub, UInt64.toNat_zero] at hzero
    have hlt := number.toNat_lt
    have hlt' := context.genesisPowTargetAdj.toNat_lt
    exact UInt64.toNat_inj.mp (by omega)
  obtain ⟨hpos, hbelow⟩ := toNat_sub_one hadj
  have hzero := congrArg UInt64.toNat hrem
  rw [hsame, UInt64.toNat_mod, hbelow, UInt64.toNat_zero, Nat.mod_eq_of_lt (by omega)] at hzero
  refine hone (UInt64.toNat_inj.mp ?_)
  rw [hsame, show (1 : UInt64).toNat = 1 from rfl]
  omega

section Fork

variable {header : BlockHeader H} {timestamp : UInt64}
variable {parent : BlockHeader H} {hash : H}

theorem calcPowTarget_congr {client₁ client₂ : Client H}
    (h₁ : client₁.header header.parentHash = some parent)
    (h₂ : client₂.header header.parentHash = some parent)
    (hnot : ¬ (FirstOfPeriod build context header.number ∧
      ∃ sealed, parent.lastSeal hashing.codec = some sealed)) :
    calcPowTarget build hashing.codec client₁ header timestamp context =
      calcPowTarget build hashing.codec client₂ header timestamp context := by
  unfold calcPowTarget
  rw [h₁, h₂]
  simp only [Run.expect]
  by_cases hone : header.number = 1
  · simp [hone]
  · simp only [bind, Except.bind, if_neg hone]
    cases hbelow : build.sub64 header.number 1 with
    | error panic => rfl
    | ok below =>
      cases hposition : rem64 below context.genesisPowTargetAdj with
      | error panic => simp [hposition]
      | ok position =>
        simp only [hposition]
        by_cases hfirst : position = 0
        · have hunsealed : parent.lastSeal hashing.codec = none := by
            obtain ⟨hnumber, rfl⟩ := sub64_one_eq_ok.mp hbelow
            obtain ⟨hadj, hrem⟩ := rem64_eq_ok.mp hposition
            have hperiod : FirstOfPeriod build context header.number :=
              ⟨hone, hnumber, hadj, hrem.trans hfirst⟩
            cases hseal : parent.lastSeal hashing.codec with
            | none => rfl
            | some sealed => exact absurd ⟨hperiod, sealed, hseal⟩ hnot
          simp [hfirst, calcAdjusted, hunsealed, Run.expect, bind, Except.bind]
        · simp [hfirst]

theorem calcPowTarget_first {client : Client H} {sealed : PowSeal H}
    (hparent : client.header header.parentHash = some parent)
    (hsealed : parent.lastSeal hashing.codec = some sealed)
    (hfirst : FirstOfPeriod build context header.number) :
    calcPowTarget build hashing.codec client header timestamp context = (do
      let ancestorHeader ← Run.expect
        (client.headerByNumber (header.number - context.genesisPowTargetAdj))
        "parent block must exist for sealer; qed"
      let ancestorSeal ← Run.expect (ancestorHeader.lastSeal hashing.codec)
        "can't get PowSeal in pre-block's header"
      adjustTarget build context sealed.powTarget timestamp ancestorSeal.timestamp) := by
  have hadj := hfirst.adj_le
  obtain ⟨hone, hzero, hadj0, hrem⟩ := hfirst
  have hbelow : build.sub64 header.number 1 = .ok (header.number - 1) :=
    sub64_one_eq_ok.mpr ⟨hzero, rfl⟩
  have hposition : rem64 (header.number - 1) context.genesisPowTargetAdj = .ok 0 :=
    rem64_eq_ok.mpr ⟨hadj0, hrem⟩
  have hnumber : build.sub64 header.number context.genesisPowTargetAdj =
      .ok (header.number - context.genesisPowTargetAdj) :=
    (Build.Computes.sub64 _ _ _).mpr ⟨hadj, rfl⟩
  simp [calcPowTarget, calcAdjusted, hparent, hsealed, hone, hbelow, hposition, hnumber, Run.expect,
    bind, Except.bind]

theorem Client.Valid.stores (hvalid : client.Valid hashing) {block : BlockHeader H}
    (hstored : client.header hash = some block) : client.Stores hashing block := by
  unfold Client.Stores
  rw [hvalid.keyed hash block hstored]
  exact hstored

theorem Client.Valid.stores_of_ancestor (hvalid : client.Valid hashing) {block : BlockHeader H}
    (h : client.Ancestor header block) : client.Stores hashing block := by
  cases h with
  | parent stored => exact hvalid.stores stored
  | step above number stored => exact hvalid.stores stored

theorem Client.Valid.exists_genesis (hvalid : client.Valid hashing) (number : Nat)
    {block : BlockHeader H} (hstored : client.header hash = some block)
    (hnumber : block.number.toNat = number) :
    ∃ genesis, client.Stores hashing genesis ∧ genesis.number = 0 := by
  induction number generalizing hash block with
  | zero => exact ⟨block, hvalid.stores hstored, UInt64.toNat_inj.mp hnumber⟩
  | succ number ih =>
    have hne : block.number ≠ 0 := fun hzero => by simp [hzero] at hnumber
    obtain ⟨parent, hparent, hsucc⟩ := hvalid.parent hash block hstored hne
    refine ih hparent ?_
    have hlt := parent.number.toNat_lt
    have htoNat := congrArg UInt64.toNat hsucc
    rw [UInt64.toNat_add, hnumber, show (1 : UInt64).toNat = 1 from rfl] at htoNat
    omega

-- A chain above block 0 whose blocks are all sealed at one target and time.
structure Fork (H : Type) where
  genesis : BlockHeader H
  target : PowTarget
  time : UInt64

def Fork.sealed (fork : Fork H) : PowSeal H := ⟨zero256, fork.target, fork.time, .unknown, zero256⟩

def Fork.block (hashing : Hashing H) (fork : Fork H) : Nat → BlockHeader H
  | 0 => fork.genesis
  | n + 1 => ⟨hashing.header (fork.block hashing n), UInt64.ofNat (n + 1), fork.genesis.stateRoot,
      fork.genesis.extrinsicsRoot, [powSeal hashing.codec fork.sealed]⟩

theorem Fork.number_block {fork : Fork H} (hgenesis : fork.genesis.number = 0) (n : Nat) :
    (fork.block hashing n).number = UInt64.ofNat n := by
  cases n with
  | zero => exact hgenesis
  | succ n => rfl

theorem Fork.lastSeal_block (hashing : Hashing H) (fork : Fork H) (n : Nat) :
    (fork.block hashing (n + 1)).lastSeal hashing.codec = some fork.sealed := by
  have hread := asPowSeal_powSeal hashing.codec fork.sealed (by simp [Fork.sealed])
  simp only [Fork.block, BlockHeader.lastSeal, lastLog, List.reverse_singleton,
    List.findSome?_cons, hread]

open Classical in
-- The node's store together with a fork up to some height, which is the best chain.
noncomputable def forkClient (hashing : Hashing H) (client : Client H) (fork : Fork H)
    (top : UInt64) : Client H where
  header hash :=
    if h : ∃ n, n ≤ top.toNat ∧ hashing.header (fork.block hashing n) = hash then
      some (fork.block hashing h.choose)
    else client.header hash
  headerByNumber number :=
    if number ≤ top then some (fork.block hashing number.toNat) else none

variable {fork : Fork H} {top : UInt64}

theorem forkClient_fork (hfree : hashing.CollisionFree) {n : Nat} (hn : n ≤ top.toNat) :
    (forkClient hashing client fork top).header (hashing.header (fork.block hashing n)) =
      some (fork.block hashing n) := by
  have hex : ∃ n', n' ≤ top.toNat ∧ hashing.header (fork.block hashing n') =
      hashing.header (fork.block hashing n) := ⟨n, hn, rfl⟩
  simp only [forkClient]
  rw [dif_pos hex, hfree.header hex.choose_spec.2]

theorem forkClient_stored (hfree : hashing.CollisionFree) (hvalid : client.Valid hashing)
    {block : BlockHeader H} (hstored : client.header hash = some block) :
    (forkClient hashing client fork top).header hash = some block := by
  simp only [forkClient]
  split_ifs with hfork
  · refine congrArg some (hfree.header ?_)
    rw [hfork.choose_spec.2, hvalid.keyed hash block hstored]
  · exact hstored

theorem forkClient_cases {block : BlockHeader H}
    (h : (forkClient hashing client fork top).header hash = some block) :
    (∃ n, n ≤ top.toNat ∧ hashing.header block = hash ∧ block = fork.block hashing n) ∨
      client.header hash = some block := by
  simp only [forkClient] at h
  split_ifs at h with hfork
  · obtain rfl := Option.some.inj h
    exact .inl ⟨_, hfork.choose_spec.1, hfork.choose_spec.2, rfl⟩
  · exact .inr h

theorem forkClient_number {number : UInt64} {block : BlockHeader H}
    (h : (forkClient hashing client fork top).headerByNumber number = some block) :
    number.toNat ≤ top.toNat ∧ block = fork.block hashing number.toNat := by
  simp only [forkClient] at h
  split_ifs at h with hle
  exact ⟨UInt64.le_iff_toNat_le.mp hle, (Option.some.inj h).symm⟩

theorem forkClient_valid (hfree : hashing.CollisionFree) (hvalid : client.Valid hashing)
    (hgenesis : fork.genesis.number = 0) : (forkClient hashing client fork top).Valid hashing where
  keyed hash block h := by
    obtain ⟨n, _, hkey, _⟩ | hstored := forkClient_cases h
    · exact hkey
    · exact hvalid.keyed hash block hstored
  parent hash block h hnumber := by
    obtain ⟨n, hn, _, rfl⟩ | hstored := forkClient_cases h
    · cases n with
      | zero => exact absurd hgenesis hnumber
      | succ n =>
        refine ⟨_, forkClient_fork hfree (Nat.le_of_succ_le hn), ?_⟩
        rw [Fork.number_block hgenesis, Fork.number_block hgenesis]
        exact (UInt64.ofNat_add n 1).symm
    · obtain ⟨parent, hparent, hsucc⟩ := hvalid.parent hash block hstored hnumber
      exact ⟨parent, forkClient_stored hfree hvalid hparent, hsucc⟩
  isSealed hash block h hnumber := by
    obtain ⟨n, hn, _, rfl⟩ | hstored := forkClient_cases h
    · cases n with
      | zero => exact absurd hgenesis hnumber
      | succ n => exact ⟨_, fork.lastSeal_block hashing n⟩
    · exact hvalid.isSealed hash block hstored hnumber
  onBest number block h := by
    obtain ⟨hle, rfl⟩ := forkClient_number h
    refine ⟨?_, forkClient_fork hfree hle⟩
    rw [Fork.number_block hgenesis, UInt64.ofNat_toNat]
  linked number block h hnumber := by
    obtain ⟨hle, rfl⟩ := forkClient_number h
    obtain ⟨hpos, hbelow⟩ := toNat_sub_one hnumber
    obtain ⟨n, hn⟩ := Nat.exists_eq_succ_of_ne_zero (by omega : number.toNat ≠ 0)
    have hparent : (forkClient hashing client fork top).header
        (hashing.header (fork.block hashing n)) = some (fork.block hashing n) :=
      forkClient_fork hfree (by omega)
    have hunder : number - 1 ≤ top := by
      rw [UInt64.le_iff_toNat_le, hbelow]
      omega
    rw [hn]
    refine Eq.trans ?_ hparent.symm
    simp only [forkClient, if_pos hunder, hbelow, hn, Nat.succ_sub_one]

theorem calcPowTarget_forkClient {sealed : PowSeal H}
    (hparent : (forkClient hashing client fork top).header header.parentHash = some parent)
    (hsealed : parent.lastSeal hashing.codec = some sealed)
    (hfirst : FirstOfPeriod build context header.number)
    (hle : header.number - context.genesisPowTargetAdj ≤ top) :
    calcPowTarget build hashing.codec (forkClient hashing client fork top) header timestamp context =
      adjustTarget build context sealed.powTarget timestamp fork.time := by
  rw [calcPowTarget_first hparent hsealed hfirst]
  obtain ⟨hpos, _⟩ := toNat_sub_one hfirst.sub_ne_zero
  obtain ⟨n, hn⟩ := Nat.exists_eq_succ_of_ne_zero (Nat.ne_of_gt hpos)
  have hseal := fork.lastSeal_block hashing n
  simp only [forkClient, if_pos hle, hn, Run.expect, bind, Except.bind, hseal]
  rfl

-- The same store under the best chain of block 0 alone.
def genesisClient (client : Client H) (genesis : BlockHeader H) : Client H where
  header := client.header
  headerByNumber number := if number = 0 then some genesis else none

theorem genesisClient_valid (hvalid : client.Valid hashing) {genesis : BlockHeader H}
    (hstored : client.Stores hashing genesis) (hgenesis : genesis.number = 0) :
    (genesisClient client genesis).Valid hashing where
  keyed := hvalid.keyed
  parent := hvalid.parent
  isSealed := hvalid.isSealed
  onBest number block h := by
    simp only [genesisClient] at h
    split_ifs at h with hzero
    obtain rfl := Option.some.inj h
    exact ⟨hgenesis.trans hzero.symm, hstored⟩
  linked number block h hnumber := by
    simp only [genesisClient, if_neg hnumber] at h
    cases h

theorem adjustTarget_ne (target : PowTarget) (time : UInt64) :
    adjustTarget build context target time time ≠
      .error ⟨"parent block must exist for sealer; qed"⟩ := by
  have hmul (a b : UInt64) : build.mul64 a b = .ok (a * b) ∨
      build.mul64 a b = .error ⟨"attempt to multiply with overflow"⟩ := by
    unfold Build.mul64 Build.guard
    split_ifs
    · exact .inr rfl
    · exact .inl rfl
  have hlt : ¬ time < time := UInt64.lt_irrefl time
  rw [adjustTarget, if_neg hlt, expectedGap]
  rcases hmul context.genesisTargetBlockTime 1000 with hmillis | hmillis
  · rcases hmul (context.genesisTargetBlockTime * 1000) context.genesisPowTargetAdj with hgap | hgap
    · rw [hmillis]
      simp only [bind, Except.bind, hgap]
      split_ifs <;> simp [pure, Except.pure]
    · rw [hmillis]
      simp [bind, Except.bind, hgap]
  · simp [hmillis, bind, Except.bind]

-- The target depends on the node's best chain exactly at the start of each period.
theorem fork_independent_iff (hfree : hashing.CollisionFree) (hvalid : client.Valid hashing)
    {parent : BlockHeader H} (hparent : client.header header.parentHash = some parent) :
    ForkIndependent build hashing context client header timestamp ↔
      ¬ (FirstOfPeriod build context header.number ∧
        ∃ sealed, parent.lastSeal hashing.codec = some sealed) := by
  constructor
  · intro hindependent hcase
    obtain ⟨hfirst, sealed, hsealed⟩ := hcase
    obtain ⟨genesis, hstored, hgenesis⟩ := hvalid.exists_genesis _ hparent rfl
    have hne := hfirst.sub_ne_zero
    let fork : Fork H := ⟨genesis, 0, timestamp⟩
    let top := header.number - context.genesisPowTargetAdj
    have hfork : calcPowTarget build hashing.codec (forkClient hashing client fork top)
        header timestamp context =
          adjustTarget build context sealed.powTarget timestamp timestamp :=
      calcPowTarget_forkClient (forkClient_stored hfree hvalid hparent) hsealed hfirst
        (UInt64.le_refl _)
    have hshort : calcPowTarget build hashing.codec (genesisClient client genesis) header timestamp
        context = .error ⟨"parent block must exist for sealer; qed"⟩ := by
      have hparent' : (genesisClient client genesis).header header.parentHash = some parent := hparent
      rw [calcPowTarget_first hparent' hsealed hfirst]
      simp [genesisClient, hne, Run.expect, bind, Except.bind]
    have hsame := hindependent (forkClient hashing client fork top) (genesisClient client genesis)
      (forkClient_valid hfree hvalid hgenesis) (genesisClient_valid hvalid hstored hgenesis)
      (fun block h => forkClient_stored hfree hvalid (hvalid.stores_of_ancestor h))
      (fun block h => hvalid.stores_of_ancestor h)
    rw [hfork, hshort] at hsame
    exact adjustTarget_ne sealed.powTarget timestamp hsame
  · intro hnot client₁ client₂ _ _ hstores₁ hstores₂
    have hkey := hvalid.keyed _ _ hparent
    have h₁ := hstores₁ parent (.parent hparent)
    have h₂ := hstores₂ parent (.parent hparent)
    unfold Client.Stores at h₁ h₂
    rw [hkey] at h₁ h₂
    exact calcPowTarget_congr h₁ h₂ hnot

end Fork

def plainGenesis : BlockHeader Nat := ⟨0, 0, 0, 0, []⟩

noncomputable def plainClient : Client Nat where
  header hash := if hash = pairHashing.header plainGenesis then some plainGenesis else none
  headerByNumber number := if number = 0 then some plainGenesis else none

theorem plainClient_header {hash : Nat} {block : BlockHeader Nat}
    (h : plainClient.header hash = some block) :
    hash = pairHashing.header plainGenesis ∧ block = plainGenesis := by
  simp only [plainClient] at h
  split_ifs at h with hhash
  exact ⟨hhash, (Option.some.inj h).symm⟩

theorem plainClient_valid : plainClient.Valid pairHashing where
  keyed hash block h := by
    obtain ⟨rfl, rfl⟩ := plainClient_header h
    rfl
  parent hash block h hnumber := by
    obtain ⟨rfl, rfl⟩ := plainClient_header h
    exact absurd rfl hnumber
  isSealed hash block h hnumber := by
    obtain ⟨rfl, rfl⟩ := plainClient_header h
    exact absurd rfl hnumber
  onBest number block h := by
    simp only [plainClient] at h
    split_ifs at h with hzero
    obtain rfl := Option.some.inj h
    exact ⟨hzero.symm, if_pos rfl⟩
  linked number block h hnumber := by
    simp only [plainClient, if_neg hnumber] at h
    cases h

-- Targets are adjusted every two blocks, towards one block a second.
def plainContext : Context := ⟨1, 2, 1, 2, 1⟩

-- Two chains of blocks above block 0, sealed at one second and at two.
def ownFork : Fork Nat := ⟨plainGenesis, 2000, 1000⟩

def otherFork : Fork Nat := ⟨plainGenesis, 2000, 2000⟩

noncomputable def ownClient : Client Nat := forkClient pairHashing plainClient ownFork 2

noncomputable def otherClient : Client Nat := forkClient pairHashing ownClient otherFork 3

theorem ownClient_valid : ownClient.Valid pairHashing :=
  forkClient_valid pairHashing_collisionFree plainClient_valid rfl

noncomputable def childOf (n : Nat) : BlockHeader Nat :=
  ⟨pairHashing.header (ownFork.block pairHashing n), UInt64.ofNat (n + 1), 0, 0, []⟩

theorem ownClient_parent {n : Nat} (hn : n ≤ 2) :
    ownClient.header (childOf n).parentHash = some (ownFork.block pairHashing n) :=
  forkClient_fork pairHashing_collisionFree hn

theorem fork_independent_iff_second :
    ownClient.header (childOf 1).parentHash = some (ownFork.block pairHashing 1) ∧
    ForkIndependent .checked pairHashing plainContext ownClient (childOf 1) 3000 := by
  refine ⟨ownClient_parent (by decide), (fork_independent_iff pairHashing_collisionFree
    ownClient_valid (ownClient_parent (by decide))).mpr ?_⟩
  intro h
  exact absurd h.1.2.2.2 (by decide)

-- Block 3 of the first chain has target 2000 on a node whose best chain it extends, and
-- 1000 on one that has the other chain as its best.
theorem target_depends_on_best_chain :
    ownClient.Valid pairHashing ∧ otherClient.Valid pairHashing ∧
    (∀ block, ownClient.Ancestor (childOf 2) block → otherClient.Stores pairHashing block) ∧
    calcPowTarget .checked pairHashing.codec ownClient (childOf 2) 3000 plainContext = .ok 2000 ∧
    calcPowTarget .checked pairHashing.codec otherClient (childOf 2) 3000 plainContext =
      .ok 1000 := by
  have hfirst : FirstOfPeriod .checked plainContext (childOf 2).number := by
    refine ⟨by decide, by decide, by decide, by decide⟩
  have hparent := ownClient_parent (n := 2) (by decide)
  have hparent' : otherClient.header (childOf 2).parentHash =
      some (ownFork.block pairHashing 2) :=
    forkClient_stored pairHashing_collisionFree ownClient_valid hparent
  have hsealed := ownFork.lastSeal_block pairHashing 1
  refine ⟨ownClient_valid, forkClient_valid pairHashing_collisionFree ownClient_valid rfl,
    fun block h => forkClient_stored pairHashing_collisionFree ownClient_valid
      (ownClient_valid.stores_of_ancestor h), ?_, ?_⟩
  · rw [ownClient, calcPowTarget_forkClient hparent hsealed hfirst (by decide)]
    decide +kernel
  · rw [otherClient, calcPowTarget_forkClient hparent' hsealed hfirst (by decide)]
    decide +kernel

end Yeeroot.Pow
