import Yeeroot.Ancestry.Support
import Yeeroot.Grandpa.VoteGraph.Ranked

namespace Yeeroot.Grandpa.VoteGraph

variable {H V : Type}

-- An entry that agrees with the tree of blocks: its number is the height of its block, its
-- edge is the line back to the node before it, and no other node lies on that line.
structure Fitted (tree : Ancestry H) (base : H) (known : H → Prop) (key : H)
    (entry : Entry H V) : Prop where
  number : entry.number.toNat = tree.height key
  line : tree.Line (key :: entry.ancestors)
  root : key = base → entry.ancestors = []
  edge : key ≠ base → ∃ prev, entry.ancestorNode = some prev ∧ known prev
  inner : ∀ block ∈ entry.ancestors.dropLast, ¬ known block

section Fitted

variable {tree : Ancestry H} {base : H} {known : H → Prop} {key prev block : H}
  {entry : Entry H V} {number : UInt64}

theorem mem_ancestors_iff (hprev : entry.ancestorNode = some prev) :
    block ∈ entry.ancestors ↔ block = prev ∨ block ∈ entry.ancestors.dropLast := by
  obtain ⟨init, hinit⟩ := List.getLast?_eq_some_iff.mp hprev
  rw [hinit, List.dropLast_concat, List.mem_append, List.mem_singleton, or_comm]

variable (h : Fitted tree base known key entry)

include h

theorem Fitted.descends_prev (hprev : entry.ancestorNode = some prev) : tree.Descends prev key :=
  h.line.descends (List.mem_of_getLast? hprev)

theorem Fitted.height_prev (hprev : entry.ancestorNode = some prev) :
    tree.height prev < tree.height key :=
  h.line.height_lt (List.mem_of_getLast? hprev)

theorem Fitted.mem_inner (hprev : entry.ancestorNode = some prev)
    (habove : tree.Descends prev block) (hbelow : tree.Descends block key) (hne : block ≠ prev)
    (hne' : block ≠ key) : block ∈ entry.ancestors.dropLast := by
  have hmem := (h.line.mem_of_descends hprev habove hbelow).resolve_left hne'
  exact ((mem_ancestors_iff hprev).mp hmem).resolve_left hne

theorem Fitted.descends_inner (hprev : entry.ancestorNode = some prev)
    (hblock : block ∈ entry.ancestors.dropLast) :
    tree.Descends prev block ∧ tree.Descends block key ∧ tree.height block < tree.height key := by
  have hmem : block ∈ entry.ancestors := (mem_ancestors_iff hprev).mpr (.inr hblock)
  have hlength : entry.ancestors.length ≠ 0 := by
    intro hzero
    rw [List.length_eq_zero_iff.mp hzero] at hmem
    cases hmem
  refine ⟨?_, h.line.descends hmem, h.line.height_lt hmem⟩
  refine (h.descends_prev hprev).of_height_le (h.line.descends hmem) ?_
  obtain ⟨i, hi⟩ := List.mem_iff_getElem?.mp hmem
  have hlt := (List.getElem?_eq_some_iff.mp hi).1
  have hheight := h.line.height_getElem hi
  have hlast := h.line.height_last hprev
  omega

theorem Fitted.nearest (hprev : entry.ancestorNode = some prev) (hknown : known block)
    (hbelow : tree.Descends block key) (hne : block ≠ key) : tree.Descends block prev := by
  rcases hbelow.comparable (h.descends_prev hprev) with hdescends | hdescends
  · exact hdescends
  · by_cases heq : block = prev
    · exact heq ▸ .refl
    · exact absurd hknown (h.inner block (h.mem_inner hprev hdescends hbelow heq hne))

theorem Fitted.ancestorBlock_eq_some :
    entry.ancestorBlock number = some block ↔
      block ∈ entry.ancestors ∧ number.toNat = tree.height block := by
  unfold Entry.ancestorBlock
  split_ifs with hle
  · rw [UInt64.le_iff_toNat_le, h.number] at hle
    constructor
    · intro hnone
      cases hnone
    · rintro ⟨hmem, hnumber⟩
      have hlt := h.line.height_lt hmem
      omega
  · have hlt : number < entry.number := UInt64.not_le.mp hle
    rw [UInt64.lt_iff_toNat_lt, h.number] at hlt
    have hsub : (entry.number - number).toNat = tree.height key - number.toNat := by
      rw [UInt64.toNat_sub_of_le _ _ (UInt64.le_of_lt (UInt64.not_le.mp hle)), h.number]
    have hne : entry.number - number ≠ 0 := by
      intro hzero
      rw [hzero, UInt64.toNat_zero] at hsub
      omega
    rw [(toNat_sub_one hne).2, hsub]
    constructor
    · intro hget
      have hheight := h.line.height_getElem hget
      exact ⟨List.mem_of_getElem? hget, by omega⟩
    · rintro ⟨hmem, hnumber⟩
      rw [hnumber]
      exact h.line.getElem_of_mem hmem

theorem Fitted.inDirectAncestry_iff [DecidableEq H] (hnumber : number.toNat = tree.height block) :
    entry.inDirectAncestry block number = some true ↔ block ∈ entry.ancestors := by
  rw [Entry.inDirectAncestry, Option.map_eq_some_iff]
  constructor
  · rintro ⟨ancestor, hancestor, heq⟩
    obtain rfl := of_decide_eq_true heq
    exact (h.ancestorBlock_eq_some.mp hancestor).1
  · intro hmem
    exact ⟨block, h.ancestorBlock_eq_some.mpr ⟨hmem, hnumber⟩, decide_eq_true rfl⟩

theorem Fitted.mono {known' : H → Prop} (hknown : ∀ k, known k → known' k)
    (hinner : ∀ k ∈ entry.ancestors.dropLast, known' k → known k) :
    Fitted tree base known' key entry where
  number := h.number
  line := h.line
  root := h.root
  edge hne := (h.edge hne).imp fun _ hprev => ⟨hprev.1, hknown _ hprev.2⟩
  inner k hk hk' := h.inner k hk (hinner k hk hk')

end Fitted

variable [DecidableEq H]

-- The graph of the nodes: each lists those after it, and those without any are heads.
structure Shaped (tree : Ancestry H) (graph : VoteGraph H V) : Prop where
  base : graph.base ∈ graph.entries
  fitted : ∀ {key entry}, graph.entries.lookup key = some entry →
    Fitted tree graph.base (· ∈ graph.entries) key entry
  nodup : ∀ {key entry}, graph.entries.lookup key = some entry → entry.descendents.Nodup
  linked : ∀ {key entry}, graph.entries.lookup key = some entry → ∀ next,
    next ∈ entry.descendents ↔
      ∃ node, graph.entries.lookup next = some node ∧ node.ancestorNode = some key
  heads : ∀ {key entry}, graph.entries.lookup key = some entry → entry.descendents = [] →
    key ∈ graph.heads

-- The nodes whose edges hold a block that is not a node.
def Holder (entries : Entries H V) (block key : H) : Prop :=
  ∃ entry, entries.lookup key = some entry ∧ block ∈ entry.ancestors.dropLast

section Shaped

variable {tree : Ancestry H} {graph : VoteGraph H V} {key prev block leaf : H}
  {entry : Entry H V} {number : UInt64} (h : Shaped tree graph)

include h

theorem Shaped.prev_mem (hentry : graph.entries.lookup key = some entry)
    (hprev : entry.ancestorNode = some prev) : prev ∈ graph.entries := by
  have hne : key ≠ graph.base := by
    intro heq
    rw [Entry.ancestorNode, (h.fitted hentry).root heq] at hprev
    cases hprev
  obtain ⟨prev', hprev', hmem⟩ := (h.fitted hentry).edge hne
  obtain rfl := Option.some.inj (hprev.symm.trans hprev')
  exact hmem

theorem Shaped.descends_base (hkey : key ∈ graph.entries) :
    tree.Descends graph.base key := by
  induction hheight : tree.height key using Nat.strong_induction_on generalizing key with
  | _ height ih =>
    obtain ⟨entry, hentry⟩ := exists_entry hkey
    by_cases hne : key = graph.base
    · exact hne ▸ .refl
    · obtain ⟨prev, hprev, hmem⟩ := (h.fitted hentry).edge hne
      have hlt := (h.fitted hentry).height_prev hprev
      exact (ih _ (by omega) hmem rfl).trans ((h.fitted hentry).descends_prev hprev)

theorem Shaped.holder_iff (hentry : graph.entries.lookup key = some entry)
    (hblock : block ∉ graph.entries) :
    Holder graph.entries block key ↔ block ∈ entry.ancestors := by
  constructor
  · rintro ⟨entry', hentry', hmem⟩
    obtain rfl := Option.some.inj (hentry.symm.trans hentry')
    exact List.mem_of_mem_dropLast hmem
  · intro hmem
    cases hprev : entry.ancestorNode with
    | none =>
      rw [Entry.ancestorNode, List.getLast?_eq_none_iff] at hprev
      rw [hprev] at hmem
      cases hmem
    | some prev =>
      refine ⟨entry, hentry, ((mem_ancestors_iff hprev).mp hmem).resolve_left ?_⟩
      rintro rfl
      exact hblock (h.prev_mem hentry hprev)

theorem Holder.ne_base (hholder : Holder graph.entries block key) :
    key ≠ graph.base := by
  rintro rfl
  obtain ⟨entry, hentry, hmem⟩ := hholder
  rw [(h.fitted hentry).root rfl] at hmem
  cases hmem

theorem Holder.edge (hholder : Holder graph.entries block key) :
    ∃ entry prev, graph.entries.lookup key = some entry ∧ entry.ancestorNode = some prev ∧
      block ∈ entry.ancestors.dropLast ∧ prev ∈ graph.entries ∧ tree.Descends prev block ∧
      tree.Descends block key ∧ tree.height block < tree.height key ∧
      ∀ node ∈ graph.entries, tree.Descends node block → tree.Descends node prev := by
  obtain ⟨prev, hprev, hmem⟩ := (h.fitted hholder.choose_spec.1).edge (hholder.ne_base h)
  obtain ⟨hentry, hblock⟩ := hholder.choose_spec
  obtain ⟨habove, hbelow, hheight⟩ := (h.fitted hentry).descends_inner hprev hblock
  refine ⟨_, prev, hentry, hprev, hblock, hmem, habove, hbelow, hheight,
    fun node hnode hdescends => ?_⟩
  refine (h.fitted hentry).nearest hprev hnode (hdescends.trans hbelow) ?_
  rintro rfl
  have hle := hdescends.height_le
  omega

theorem Holder.not_mem (hholder : Holder graph.entries block key) :
    block ∉ graph.entries := by
  obtain ⟨entry, hentry, hmem⟩ := hholder
  exact (h.fitted hentry).inner block hmem

theorem Holder.prev_eq {other prev' : H} {entry' : Entry H V}
    (hholder : Holder graph.entries block key) (hentry : graph.entries.lookup key = some entry)
    (hprev : entry.ancestorNode = some prev) (hholder' : Holder graph.entries block other)
    (hentry' : graph.entries.lookup other = some entry')
    (hprev' : entry'.ancestorNode = some prev') : prev' = prev := by
  obtain ⟨e, p, he, hp, -, hmem, habove, -, -, hlast⟩ := hholder.edge h
  obtain ⟨e', p', he', hp', -, hmem', habove', -, -, hlast'⟩ := hholder'.edge h
  obtain rfl := Option.some.inj (hentry.symm.trans he)
  obtain rfl := Option.some.inj (hentry'.symm.trans he')
  obtain rfl := Option.some.inj (hprev.symm.trans hp)
  obtain rfl := Option.some.inj (hprev'.symm.trans hp')
  exact (hlast prev' hmem' habove').antisymm (hlast' prev hmem habove)

theorem Holder.apart {other : H} (hholder : Holder graph.entries block key)
    (hother : Holder graph.entries block other) (hkey : tree.Descends key leaf)
    (hleaf : tree.Descends other leaf) : key = other := by
  have hsame : ∀ {a b : H}, Holder graph.entries block a → Holder graph.entries block b →
      tree.Descends a b → a = b := by
    intro a b ha hb hab
    obtain ⟨entry, prev, hentry, hprev, -, -, habove, -, -, -⟩ := hb.edge h
    obtain ⟨entry', -, hentry', -, -, -, -, hbelow, hheight, -⟩ := ha.edge h
    by_contra hne
    have hdescends := (h.fitted hentry).nearest hprev (mem_of_lookup hentry') hab hne
    have hle := (hdescends.trans habove).height_le
    omega
  rcases hkey.comparable hleaf with hdescends | hdescends
  · exact hsame hholder hother hdescends
  · exact (hsame hother hholder hdescends).symm

theorem Shaped.exists_holder (hblock : block ∉ graph.entries)
    (hbase : tree.Descends graph.base block) (hleaf : leaf ∈ graph.entries)
    (hdescends : tree.Descends block leaf) :
    ∃ key, Holder graph.entries block key ∧ tree.Descends key leaf := by
  induction hheight : tree.height leaf using Nat.strong_induction_on generalizing leaf with
  | _ height ih =>
    obtain ⟨entry, hentry⟩ := exists_entry hleaf
    have hne : leaf ≠ graph.base := by
      rintro rfl
      exact hblock (hbase.antisymm hdescends ▸ hleaf)
    have hne' : block ≠ leaf := fun heq => hblock (heq ▸ hleaf)
    obtain ⟨prev, hprev, hmem⟩ := (h.fitted hentry).edge hne
    have hprevious := (h.fitted hentry).descends_prev hprev
    have hlt := (h.fitted hentry).height_prev hprev
    rcases hdescends.comparable hprevious with habove | habove
    · obtain ⟨key, hholder, hkey⟩ := ih _ (by omega) hmem habove rfl
      exact ⟨key, hholder, hkey.trans hprevious⟩
    · refine ⟨leaf, ⟨entry, hentry, ?_⟩, .refl⟩
      exact (h.fitted hentry).mem_inner hprev habove hdescends (fun heq => hblock (heq ▸ hmem))
        hne'

theorem Shaped.parts {B : Type} {ballots : Multiset (H × B)}
    (hballots : ∀ ballot ∈ ballots, ballot.1 ∈ graph.entries) (hblock : block ∉ graph.entries)
    (hbase : tree.Descends graph.base block) {holders : List H} (hnodup : holders.Nodup)
    (hholders : ∀ key, key ∈ holders ↔ Holder graph.entries block key) :
    tree.Parts ballots block holders where
  below key hkey := by
    obtain ⟨-, -, -, -, -, -, -, hbelow, -, -⟩ := ((hholders key).mp hkey).edge h
    exact hbelow
  nodup := hnodup
  apart key hkey other hother leaf :=
    ((hholders key).mp hkey).apart h ((hholders other).mp hother)
  covers ballot hballot hdescends := by
    obtain ⟨key, hholder, hkey⟩ := h.exists_holder hblock hbase (hballots ballot hballot) hdescends
    exact ⟨key, (hholders key).mpr hholder, hkey⟩

end Shaped

end Yeeroot.Grandpa.VoteGraph
