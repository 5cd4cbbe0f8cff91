import Mathlib.Data.Set.Insert
import Yeeroot.Ancestry
import Yeeroot.Crfg.BlockImport
import Yeeroot.Primitives.Lemmas

namespace Yeeroot.Crfg

open Scale Grandpa

variable {κ ι τ Hd : Type}

-- The blocks there are, each with its header.
structure BlockTree (host : Host Hd) where
  ancestry : Ancestry H256
  genesis : H256
  header : H256 → Hd
  height_genesis : ancestry.height genesis = 0
  height_lt : ∀ block, ancestry.height block < 2 ^ 64
  number_header : ∀ block, host.headerNumber (header block) = UInt64.ofNat (ancestry.height block)
  parent_header : ∀ {block parent}, ancestry.parent block = some parent →
    host.parentHash (header block) = parent

namespace BlockTree

variable {host : Host Hd} (blocks : BlockTree host)

abbrev Descends (base block : H256) : Prop := blocks.ancestry.Descends base block

def number (block : H256) : UInt64 := UInt64.ofNat (blocks.ancestry.height block)

-- The change of a block that signals this set and no delay.
def change (signal : H256 → List (AuthorityId × UInt64)) (block : H256) : PendingChange :=
  ⟨aggregateAuthorities (signal block), 0, blocks.number block, block, .finalized⟩

def authoritiesAt (signal : H256 → List (AuthorityId × UInt64))
    (initial : List (AuthorityId × UInt64)) (block : H256) : List (AuthorityId × UInt64) :=
  if block = blocks.genesis then initial else aggregateAuthorities (signal block)

theorem number_le_of_descends {base block : H256} (h : blocks.Descends base block) :
    blocks.number base ≤ blocks.number block := by
  have hle := h.height_le
  rw [number, number, UInt64.le_iff_toNat_le,
    UInt64.toNat_ofNat_of_lt' (blocks.height_lt base),
    UInt64.toNat_ofNat_of_lt' (blocks.height_lt block)]
  exact hle

theorem number_of_parent {block parent : H256}
    (h : blocks.ancestry.parent block = some parent) :
    blocks.number block = blocks.number parent + 1 := by
  rw [number, number, blocks.ancestry.height_parent h, UInt64.ofNat_add]
  rfl

theorem number_lt_of_descends {base block : H256} (h : blocks.Descends base block)
    (hne : base ≠ block) : blocks.number base < blocks.number block := by
  have hlt : blocks.ancestry.height base < blocks.ancestry.height block := by
    by_contra hnot
    exact hne (h.eq_of_height_le (by omega))
  rw [number, number, UInt64.lt_iff_toNat_lt,
    UInt64.toNat_ofNat_of_lt' (blocks.height_lt base),
    UInt64.toNat_ofNat_of_lt' (blocks.height_lt block)]
  exact hlt

def SameFork (a b : H256) : Prop := blocks.Descends a b ∨ blocks.Descends b a

def SecondAfter (base block : H256) : Prop :=
  ∃ between, blocks.ancestry.parent block = some between ∧
    blocks.ancestry.parent between = some base

theorem number_ne_of_secondAfter {base block : H256} (h : blocks.SecondAfter base block) :
    blocks.number block ≠ 1 := by
  obtain ⟨between, hparent, hbetween⟩ := h
  have hheight := blocks.ancestry.height_parent hparent
  have hheight' := blocks.ancestry.height_parent hbetween
  intro hone
  have hnumber := congrArg UInt64.toNat hone
  rw [number, UInt64.toNat_ofNat_of_lt' (blocks.height_lt block)] at hnumber
  simp at hnumber
  omega

theorem ne_genesis_of_parent {block parent : H256}
    (h : blocks.ancestry.parent block = some parent) : block ≠ blocks.genesis := by
  rintro rfl
  have hheight := blocks.ancestry.height_parent h
  rw [blocks.height_genesis] at hheight
  omega

end BlockTree

section Contracts

variable {host : Host Hd} (blocks : BlockTree host)

-- The function answers for these blocks as their ancestry does.
def Tells (among : Set H256) (isDescendentOf : IsDescendentOf) : Prop :=
  ∀ base ∈ among, ∀ block ∈ among, ∃ answer, isDescendentOf base block = .ok answer ∧
    (answer = true ↔ base ≠ block ∧ blocks.Descends base block)

theorem Tells.mono {blocks : BlockTree host} {among fewer : Set H256}
    {isDescendentOf : IsDescendentOf} (h : Tells blocks among isDescendentOf)
    (hsub : fewer ⊆ among) : Tells blocks fewer isDescendentOf :=
  fun base hbase block hblock => h base (hsub hbase) block (hsub hblock)

-- How a fork tree is seen from outside: changes that it holds, each at its block.
structure TreeView (τ : Type) where
  valid : τ → Prop
  nodes : τ → List (H256 × PendingChange)

def TreeView.holds (view : TreeView τ) (changes : τ) : Set H256 :=
  {block | ∃ change, (block, change) ∈ view.nodes changes}

-- What Substrate's fork tree does with all of its nodes. The block that is finalized may not
-- come after a child of the root that is handed out, but it may be such a child: that one
-- stays. Blocks that do not come after the finalized one are pruned. A node below another one
-- is told to be no root.
structure ChangeTree.Documented (tree : ChangeTree τ) (view : TreeView τ) : Prop where
  valid_new : view.valid tree.new
  nodes_new : view.nodes tree.new = []
  imports : ∀ {changes changes' hash change isDescendentOf}, view.valid changes →
    Tells blocks (insert hash (view.holds changes)) isDescendentOf →
    (∀ block ∈ view.holds changes, ¬ blocks.Descends hash block) →
    tree.importNode changes hash (blocks.number hash) change isDescendentOf = .ok changes' →
    view.valid changes' ∧
      ∀ node, node ∈ view.nodes changes' ↔ node = (hash, change) ∨ node ∈ view.nodes changes
  valid_finalize : ∀ {changes result changes' hash isDescendentOf pred}, view.valid changes →
    tree.finalizeWithDescendentIf changes hash (blocks.number hash) isDescendentOf pred =
      .ok (result, changes') → view.valid changes'
  in_order : ∀ {changes hash isDescendentOf pred a b}, view.valid changes →
    Tells blocks (insert hash (view.holds changes)) isDescendentOf →
    (∀ node ∈ view.nodes changes, blocks.Descends node.1 hash → pred node.2 = true) →
    a ∈ view.holds changes → b ∈ view.holds changes → a ≠ b →
    blocks.Descends a hash → a ≠ hash → blocks.Descends b hash → b ≠ hash →
    ∃ message, tree.finalizeWithDescendentIf changes hash (blocks.number hash) isDescendentOf
      pred = .error message
  finalize_first : ∀ {changes result changes' hash isDescendentOf pred root change},
    view.valid changes → Tells blocks (insert hash (view.holds changes)) isDescendentOf →
    (root, change) ∈ view.nodes changes → blocks.Descends root hash → pred change = true →
    (∀ block ∈ view.holds changes, blocks.Descends block hash → blocks.Descends root block) →
    tree.finalizeWithDescendentIf changes hash (blocks.number hash) isDescendentOf pred =
      .ok (result, changes') →
    result = .changed (some change) ∧ ∀ node, node ∈ view.nodes changes' ↔
      (blocks.Descends hash node.1 ∧ node.1 ≠ root) ∧ node ∈ view.nodes changes
  finalize_none : ∀ {changes result changes' hash isDescendentOf pred}, view.valid changes →
    Tells blocks (insert hash (view.holds changes)) isDescendentOf →
    (∀ block ∈ view.holds changes, ¬ blocks.Descends block hash) →
    tree.finalizeWithDescendentIf changes hash (blocks.number hash) isDescendentOf pred =
      .ok (result, changes') →
    (∀ change, result ≠ .changed (some change)) ∧ ∀ node, node ∈ view.nodes changes' ↔
      blocks.Descends hash node.1 ∧ node ∈ view.nodes changes
  enacts : ∀ {changes hash base isDescendentOf pred answer}, view.valid changes →
    Tells blocks (insert hash (view.holds changes)) isDescendentOf →
    hash ∈ view.holds changes → base ∈ view.holds changes → blocks.Descends base hash →
    base ≠ hash →
    (∀ node ∈ view.nodes changes, blocks.Descends node.1 hash →
      (pred node.2 = true ↔ node.1 = hash)) →
    tree.finalizesAnyWithDescendentIf changes hash (blocks.number hash) isDescendentOf pred =
      .ok answer → answer = some false

structure Stored where
  known : Set H256
  finalized : H256

-- What Substrate's client does: routes between known blocks are found, only known
-- descendants of the finalized block are finalized, operations take effect when they are
-- committed, and a committed block can be read by the listeners.
structure BlockImport.ClientContract (inner : BlockImport κ ι τ Hd) (blocks : BlockTree inner.host)
    (stored : κ → Stored) (finalizes : ι → Option H256) : Prop where
  route : ∀ {client block base}, block ∈ (stored client).known → base ∈ (stored client).known →
    ∃ common, inner.client.treeRoute client block base = .ok common ∧
      (common = base ↔ blocks.Descends base block)
  begins : ∀ {client op}, inner.client.beginOperation client = .ok op → finalizes op = none
  aux : ∀ {client op writes op'}, inner.client.applyAux client op writes = .ok op' →
    finalizes op' = finalizes op
  finality : ∀ {client op hash justification op'},
    inner.client.applyFinality client op hash justification = .ok op' →
    hash ∈ (stored client).known ∧ blocks.Descends (stored client).finalized hash ∧
      finalizes op' = some hash
  commit : ∀ {client op client'}, inner.client.commitOperation client op = .ok client' →
    stored client' = { stored client with
      finalized := (finalizes op).getD (stored client).finalized }
  notify : ∀ {client op client'}, inner.client.commitOperation client op = .ok client' →
    inner.client.notifyFinalized client' op = .ok ()
  status : ∀ {client hash}, inner.status client hash = .ok false → hash ∉ (stored client).known
  imports : ∀ {client hash writes aux client'},
    inner.innerImport client hash (blocks.header hash) writes = .ok (.imported aux, client') →
    (∃ parent ∈ (stored client).known, blocks.ancestry.parent hash = some parent) ∧
      stored client' = { stored client with known := insert hash (stored client).known }
  keeps : ∀ {client hash writes result client'},
    inner.innerImport client hash (blocks.header hash) writes = .ok (result, client') →
    (∀ aux, result ≠ .imported aux) → stored client' = stored client

end Contracts

-- Every block signals one change of the authorities without a delay, none of them forced.
def CrfgApi.SignalsEach (api : CrfgApi Hd) {host : Host Hd} (blocks : BlockTree host)
    (signal : H256 → List (AuthorityId × UInt64)) : Prop :=
  ∀ block parent, blocks.ancestry.parent block = some parent →
    api.forcedChange (blocks.header block) = .ok none ∧
    api.pendingChange (blocks.header block) = .ok (some ⟨signal block, 0⟩)

-- The authority set against the store: every known block after the finalized one waits in
-- the tree, and nothing at or before the finalized one does.
structure InStep {host : Host Hd} (blocks : BlockTree host) (view : TreeView τ)
    (signal : H256 → List (AuthorityId × UInt64)) (initial : List (AuthorityId × UInt64))
    (stored : Stored) (set : AuthoritySet τ) : Prop where
  closed : ∀ {block parent}, block ∈ stored.known →
    blocks.ancestry.parent block = some parent → parent ∈ stored.known
  finalized_known : stored.finalized ∈ stored.known
  valid : view.valid set.pendingStandardChanges
  pending : ∀ {block change}, (block, change) ∈ view.nodes set.pendingStandardChanges →
    block ∈ stored.known ∧ change = blocks.change signal block
  complete : ∀ {block}, block ∈ stored.known → blocks.Descends stored.finalized block →
    block ≠ stored.finalized → block ∈ view.holds set.pendingStandardChanges
  after : ∀ {block}, block ∈ view.holds set.pendingStandardChanges →
    ¬ blocks.Descends block stored.finalized
  no_forced : set.pendingForcedChanges = []
  set_id : set.setId = blocks.number stored.finalized
  authorities : set.currentAuthorities = blocks.authoritiesAt signal initial stored.finalized

theorem AuthoritySet.applyStandardChanges_eq_ok {tree : ChangeTree τ} {set set' : AuthoritySet τ}
    {hash : H256} {number : UInt64} {isDescendentOf : IsDescendentOf} {status : Status}
    (h : set.applyStandardChanges tree.toForkTree hash number isDescendentOf =
      .ok (status, set')) :
    ∃ result changes, tree.finalizeWithDescendentIf set.pendingStandardChanges hash number
        isDescendentOf (fun change => change.effectiveNumber ≤ number) = .ok (result, changes) ∧
      match result with
      | .unchanged =>
        status.newSetBlock = none ∧ set' = { set with pendingStandardChanges := changes }
      | .changed none => status.newSetBlock = none ∧ set' = { set with
          pendingStandardChanges := changes
          pendingForcedChanges := [] }
      | .changed (some change) => status.newSetBlock = some (hash, number) ∧
        set' = ⟨change.nextAuthorities, set.setId + 1, changes, []⟩ := by
  obtain ⟨⟨result, changes⟩, hfinalize, h⟩ := (Run.bind_eq_ok _ _ _).mp h
  refine ⟨result, changes, hfinalize, ?_⟩
  rcases result with (_ | change) | _
  all_goals
    obtain ⟨rfl, rfl⟩ := Prod.mk.inj (Except.ok.inj h)
    exact ⟨rfl, rfl⟩

namespace InStep

variable {host : Host Hd} {blocks : BlockTree host} {view : TreeView τ}
  {signal : H256 → List (AuthorityId × UInt64)} {initial : List (AuthorityId × UInt64)}
  {stored : Stored} {set set' : AuthoritySet τ} {tree : ChangeTree τ} {status : Status}
  {isDescendentOf : IsDescendentOf} {hash base block : H256}
  (h : InStep blocks view signal initial stored set)

include h

theorem mem_known (hblock : block ∈ view.holds set.pendingStandardChanges) :
    block ∈ stored.known := by
  obtain ⟨change, hchange⟩ := hblock
  exact (h.pending hchange).1

theorem known_of_descends (hblock : block ∈ stored.known)
    (hdescends : blocks.Descends base block) : base ∈ stored.known := by
  induction hdescends with
  | refl => exact hblock
  | step _ child ih => exact ih (h.closed hblock child)

theorem effectiveNumber_eq {change : PendingChange}
    (hchange : (block, change) ∈ view.nodes set.pendingStandardChanges) :
    change.effectiveNumber = blocks.number block := by
  rw [(h.pending hchange).2]
  simp only [BlockTree.change, PendingChange.effectiveNumber, UInt64.add_zero]

theorem due {node : H256 × PendingChange} (hnode : node ∈ view.nodes set.pendingStandardChanges)
    (hdescends : blocks.Descends node.1 hash) :
    node.2.effectiveNumber ≤ blocks.number hash := by
  rw [h.effectiveNumber_eq hnode]
  exact blocks.number_le_of_descends hdescends

theorem tells_of_known {among : Set H256} (htells : Tells blocks among isDescendentOf)
    (hknown : stored.known ⊆ among) (hhash : hash ∈ among) :
    Tells blocks (insert hash (view.holds set.pendingStandardChanges)) isDescendentOf := by
  refine htells.mono ?_
  rintro block (rfl | hblock)
  · exact hhash
  · exact hknown (h.mem_known hblock)

theorem child_waits {child : H256} (hhash : hash ∈ stored.known)
    (hchild : blocks.ancestry.parent child = some stored.finalized)
    (hpath : blocks.Descends child hash) : child ∈ view.holds set.pendingStandardChanges := by
  apply h.complete (h.known_of_descends hhash hpath) (.step .refl hchild)
  rintro rfl
  have hheight := blocks.ancestry.height_parent hchild
  omega

theorem second_waits {between : H256} (hblock : block ∈ stored.known)
    (hparent : blocks.ancestry.parent block = some between)
    (hbetween : blocks.ancestry.parent between = some stored.finalized) :
    block ∈ view.holds set.pendingStandardChanges := by
  have hheight := blocks.ancestry.height_parent hparent
  have hheight' := blocks.ancestry.height_parent hbetween
  apply h.complete hblock (.step (.step .refl hbetween) hparent)
  rintro rfl
  omega

-- A block that comes three or more after the finalized one is refused.
theorem refuses (htree : tree.Documented blocks view)
    (htells : Tells blocks stored.known isDescendentOf) (hhash : hash ∈ stored.known)
    (hfinalized : blocks.Descends stored.finalized hash) (hne : stored.finalized ≠ hash)
    (hparent : blocks.ancestry.parent hash ≠ some stored.finalized)
    (hsecond : ¬ blocks.SecondAfter stored.finalized hash) :
    ∃ message, set.applyStandardChanges tree.toForkTree hash (blocks.number hash)
      isDescendentOf = .error message := by
  obtain ⟨child, hchild, hpath⟩ := hfinalized.exists_child hne
  have hneChild : child ≠ hash := by
    rintro rfl
    exact hparent hchild
  obtain ⟨second, hsecondChild, hrest⟩ := hpath.exists_child hneChild
  have hneSecond : second ≠ hash := by
    rintro rfl
    exact hsecond ⟨child, hsecondChild, hchild⟩
  have hwaits := h.second_waits (h.known_of_descends hhash hrest) hsecondChild hchild
  have hdistinct : child ≠ second := by
    rintro rfl
    have hheight := blocks.ancestry.height_parent hsecondChild
    omega
  obtain ⟨message, hmessage⟩ : ∃ message, tree.finalizeWithDescendentIf
      set.pendingStandardChanges hash (blocks.number hash) isDescendentOf
      (fun change => decide (change.effectiveNumber ≤ blocks.number hash)) = .error message :=
    htree.in_order h.valid (h.tells_of_known htells (fun _ hmem => hmem) hhash)
      (fun _ hnode habove => decide_eq_true (h.due hnode habove))
      (h.child_waits hhash hchild hpath) hwaits hdistinct hpath hneChild hrest hneSecond
  refine ⟨message, ?_⟩
  rw [AuthoritySet.applyStandardChanges, hmessage]
  rfl

theorem eq_of_descends_child (hparent : blocks.ancestry.parent hash = some stored.finalized)
    (hblock : block ∈ view.holds set.pendingStandardChanges)
    (hdescends : blocks.Descends block hash) : block = hash := by
  by_contra hne
  exact h.after hblock (hdescends.of_parent hne hparent)

theorem ne_of_waits (hbase : base ∈ view.holds set.pendingStandardChanges)
    (hdescends : blocks.Descends base hash) (hne : base ≠ hash) :
    stored.finalized ≠ hash ∧ blocks.ancestry.parent hash ≠ some stored.finalized := by
  constructor
  · rintro rfl
    exact h.after hbase hdescends
  · intro hparent
    exact hne (h.eq_of_descends_child hparent hbase hdescends)

theorem enacts_second (htree : tree.Documented blocks view) {answer : Option Bool}
    (htells : Tells blocks stored.known isDescendentOf) (hhash : hash ∈ stored.known)
    (hsecond : blocks.SecondAfter stored.finalized hash)
    (henacts : set.enactsStandardChange tree hash (blocks.number hash) isDescendentOf =
      .ok answer) : answer = some false := by
  obtain ⟨between, hparent, hbetween⟩ := hsecond
  have hpath : blocks.Descends between hash := .step .refl hparent
  have hne : between ≠ hash := by
    rintro rfl
    have hheight := blocks.ancestry.height_parent hparent
    omega
  refine htree.enacts h.valid (h.tells_of_known htells (fun _ hmem => hmem) hhash)
    (h.second_waits hhash hparent hbetween) (h.child_waits hhash hbetween hpath) hpath hne ?_
    henacts
  intro node hnode hdescends
  rw [decide_eq_true_iff, h.effectiveNumber_eq hnode]
  refine ⟨fun heq => ?_, fun heq => by rw [heq]⟩
  by_contra hne
  exact absurd heq (UInt64.ne_of_lt (blocks.number_lt_of_descends hdescends hne))

section Applied

variable (htree : tree.Documented blocks view)
  (htells : Tells blocks stored.known isDescendentOf) (hhash : hash ∈ stored.known)
  (happlied : set.applyStandardChanges tree.toForkTree hash (blocks.number hash)
    isDescendentOf = .ok (status, set'))

include htree htells hhash happlied

-- Of the changes at the block and before it, the first one is applied: that of the child of
-- the finalized block.
theorem applied_child {child : H256}
    (hchild : blocks.ancestry.parent child = some stored.finalized)
    (hpath : blocks.Descends child hash) :
    view.valid set'.pendingStandardChanges ∧ set'.pendingForcedChanges = [] ∧
    (∀ node, node ∈ view.nodes set'.pendingStandardChanges ↔
      (blocks.Descends hash node.1 ∧ node.1 ≠ child) ∧
        node ∈ view.nodes set.pendingStandardChanges) ∧
    set'.setId = blocks.number child ∧
    set'.currentAuthorities = blocks.authoritiesAt signal initial child := by
  obtain ⟨change, hchange⟩ := h.child_waits hhash hchild hpath
  have hfirst : ∀ block ∈ view.holds set.pendingStandardChanges, blocks.Descends block hash →
      blocks.Descends child block := by
    intro block hblock hdescends
    rcases hdescends.or_descends hpath with habove | hbelow
    · rw [h.eq_of_descends_child hchild hblock habove]
      exact .refl
    · exact hbelow
  obtain ⟨result, changes, hfinalize, hset⟩ := AuthoritySet.applyStandardChanges_eq_ok happlied
  obtain ⟨rfl, hnodes⟩ := htree.finalize_first h.valid
    (h.tells_of_known htells (fun _ hmem => hmem) hhash) hchange hpath
    (decide_eq_true (h.due hchange hpath)) hfirst hfinalize
  obtain ⟨-, rfl⟩ := hset
  refine ⟨htree.valid_finalize h.valid hfinalize, rfl, hnodes, ?_, ?_⟩
  · show set.setId + 1 = blocks.number child
    rw [h.set_id, blocks.number_of_parent hchild]
  · show change.nextAuthorities = _
    rw [(h.pending hchange).2, BlockTree.authoritiesAt,
      if_neg (blocks.ne_genesis_of_parent hchild)]
    rfl

theorem applied_cases (hfinalized : blocks.Descends stored.finalized hash)
    (hsecond : ¬ blocks.SecondAfter stored.finalized hash) :
    view.valid set'.pendingStandardChanges ∧ set'.pendingForcedChanges = [] ∧
    (∀ node, node ∈ view.nodes set'.pendingStandardChanges ↔
      (blocks.Descends hash node.1 ∧ node.1 ≠ hash) ∧
        node ∈ view.nodes set.pendingStandardChanges) ∧
    set'.setId = blocks.number hash ∧
    set'.currentAuthorities = blocks.authoritiesAt signal initial hash := by
  by_cases hsame : stored.finalized = hash
  · -- The finalized block again: nothing waits at or before it.
    subst hsame
    obtain ⟨result, changes, hfinalize, hset⟩ := AuthoritySet.applyStandardChanges_eq_ok happlied
    have hvalid := htree.valid_finalize h.valid hfinalize
    obtain ⟨hresult, hnodes⟩ := htree.finalize_none h.valid
      (h.tells_of_known htells (fun _ hmem => hmem) hhash) (fun _ => h.after) hfinalize
    have hkept : ∀ node, node ∈ view.nodes changes ↔
        (blocks.Descends stored.finalized node.1 ∧ node.1 ≠ stored.finalized) ∧
          node ∈ view.nodes set.pendingStandardChanges := by
      rintro ⟨block, change⟩
      rw [hnodes]
      refine and_congr_left fun hnode => ⟨fun hdescends => ⟨hdescends, ?_⟩, And.left⟩
      rintro rfl
      exact h.after ⟨change, hnode⟩ .refl
    match result, hresult, hset with
    | .changed (some change), hresult, _ => exact absurd rfl (hresult change)
    | .changed none, _, ⟨_, hset⟩ =>
      subst hset
      exact ⟨hvalid, rfl, hkept, h.set_id, h.authorities⟩
    | .unchanged, _, ⟨_, hset⟩ =>
      subst hset
      exact ⟨hvalid, h.no_forced, hkept, h.set_id, h.authorities⟩
  · by_cases hparent : blocks.ancestry.parent hash = some stored.finalized
    · exact h.applied_child htree htells hhash happlied hparent .refl
    · obtain ⟨message, hmessage⟩ := h.refuses htree htells hhash hfinalized hsame hparent hsecond
      cases hmessage.symm.trans happlied

theorem finalize (hfinalized : blocks.Descends stored.finalized hash)
    (hsecond : ¬ blocks.SecondAfter stored.finalized hash) :
    InStep blocks view signal initial { stored with finalized := hash } set' := by
  obtain ⟨hvalid, hforced, hnodes, hid, hauthorities⟩ := h.applied_cases htree htells hhash
    happlied hfinalized hsecond
  have hholds : ∀ block, block ∈ view.holds set'.pendingStandardChanges ↔
      (blocks.Descends hash block ∧ block ≠ hash) ∧
        block ∈ view.holds set.pendingStandardChanges := by
    intro block
    simp only [TreeView.holds, Set.mem_ofPred_eq, hnodes, exists_and_left]
  refine ⟨h.closed, hhash, hvalid, ?_, ?_, ?_, hforced, hid, hauthorities⟩
  · intro block change hchange
    exact h.pending ((hnodes (block, change)).mp hchange).2
  · intro block hknown hdescends hne
    refine (hholds block).mpr ⟨⟨hdescends, hne⟩, ?_⟩
    apply h.complete hknown (hfinalized.trans hdescends)
    rintro rfl
    exact hne (hdescends.eq_of_height_le hfinalized.height_le).symm
  · intro block hblock hdescends
    obtain ⟨⟨hpath, hne⟩, _⟩ := (hholds block).mp hblock
    exact hne (hdescends.eq_of_height_le hpath.height_le)

end Applied

end InStep

theorem AuthoritySet.addStandardChange_eq_ok {tree : ChangeTree τ} {set set' : AuthoritySet τ}
    {pending : PendingChange} {isDescendentOf : IsDescendentOf}
    (h : set.addStandardChange tree pending isDescendentOf = .ok set') :
    ∃ changes, tree.importNode set.pendingStandardChanges pending.canonHash pending.canonHeight
      pending isDescendentOf = .ok changes ∧ set' = { set with pendingStandardChanges := changes } := by
  obtain ⟨changes, himport, h⟩ := (Run.bind_eq_ok _ _ _).mp h
  exact ⟨changes, himport, (Except.ok.inj h).symm⟩

theorem InStep.importChange {host : Host Hd} {blocks : BlockTree host} {view : TreeView τ}
    {signal : H256 → List (AuthorityId × UInt64)} {initial : List (AuthorityId × UInt64)}
    {stored : Stored} {set : AuthoritySet τ} {tree : ChangeTree τ}
    (h : InStep blocks view signal initial stored set)
    (htree : tree.Documented blocks view) {isDescendentOf : IsDescendentOf} {hash parent : H256}
    {set' : AuthoritySet τ} (htells : Tells blocks (insert hash stored.known) isDescendentOf)
    (hnew : hash ∉ stored.known) (hparent : blocks.ancestry.parent hash = some parent)
    (hparentKnown : parent ∈ stored.known)
    (hadded : set.addPendingChange tree (blocks.change signal hash) isDescendentOf = .ok set') :
    InStep blocks view signal initial { stored with known := insert hash stored.known } set' := by
  obtain ⟨changes, himported, rfl⟩ := AuthoritySet.addStandardChange_eq_ok hadded
  have hnotAbove : ∀ {block}, block ∈ stored.known → ¬ blocks.Descends hash block := by
    intro block hblock hdescends
    exact hnew (h.known_of_descends hblock hdescends)
  obtain ⟨hvalid, hnodes⟩ := htree.imports h.valid (h.tells_of_known htells
    (Set.subset_insert _ _) (Set.mem_insert _ _))
    (fun block hblock => hnotAbove (h.mem_known hblock)) himported
  have hholds : ∀ block, block ∈ view.holds changes ↔
      block = hash ∨ block ∈ view.holds set.pendingStandardChanges := by
    intro block
    simp only [TreeView.holds, Set.mem_ofPred_eq, hnodes, Prod.mk.injEq, exists_or,
      exists_and_left, exists_eq, and_true]
  refine ⟨?_, .inr h.finalized_known, hvalid, ?_, ?_, ?_, h.no_forced, h.set_id, h.authorities⟩
  · rintro block parent' (rfl | hblock) hparent'
    · obtain rfl := Option.some.inj (hparent.symm.trans hparent')
      exact .inr hparentKnown
    · exact .inr (h.closed hblock hparent')
  · intro block change hchange
    rcases (hnodes (block, change)).mp hchange with heq | hnode
    · obtain ⟨rfl, rfl⟩ := Prod.mk.inj heq
      exact ⟨.inl rfl, rfl⟩
    · exact ⟨.inr (h.pending hnode).1, (h.pending hnode).2⟩
  · rintro block (rfl | hblock) hdescends hne
    · exact (hholds block).mpr (.inl rfl)
    · exact (hholds block).mpr (.inr (h.complete hblock hdescends hne))
  · intro block hblock hdescends
    rcases (hholds block).mp hblock with rfl | hblock
    · exact hnotAbove h.finalized_known hdescends
    · exact h.after hblock hdescends

end Yeeroot.Crfg
