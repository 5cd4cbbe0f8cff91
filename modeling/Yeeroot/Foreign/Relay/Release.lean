import Mathlib.Data.Finset.Max
import Mathlib.Data.List.Induction
import Yeeroot.Executive.Validity
import Yeeroot.Foreign.Relay
import Yeeroot.SrPrimitives.Lemmas

namespace Yeeroot.Foreign

open Scale

-- Numbers that never rise by more than one above all before them.
def NoSkip (numbers : List UInt64) : Prop :=
  ∀ before number, before ++ [number] <+: numbers → before ≠ [] →
    ∃ highest ∈ before, number.toNat ≤ highest.toNat + 1

-- At every point, all numbers from the first to the latest have come up.
def Covers (numbers : List UInt64) : Prop :=
  ∀ sofar first latest, sofar <+: numbers → sofar.head? = some first →
    sofar.getLast? = some latest → ∀ n, first ≤ n → n ≤ latest → n ∈ sofar

theorem mem_of_noSkip {numbers : List UInt64} (h : NoSkip numbers) {sofar : List UInt64}
    (hsofar : sofar <+: numbers) {first : UInt64} (hfirst : sofar.head? = some first) :
    ∀ number ∈ sofar, ∀ n, first ≤ n → n ≤ number → n ∈ sofar := by
  induction sofar using List.reverseRecOn with
  | nil => simp
  | append_singleton before number ih =>
    intro other hother n hlow hhigh
    have hbefore : before <+: numbers := (List.prefix_append before [number]).trans hsofar
    by_cases hnil : before = []
    · subst hnil
      obtain rfl : number = first := by simpa using hfirst
      obtain rfl : other = number := by simpa using hother
      simp [UInt64.le_antisymm hhigh hlow]
    · have hhead : before.head? = some first := by
        simpa [List.head?_append_of_ne_nil _ hnil] using hfirst
      rcases List.mem_append.mp hother with hold | hnew
      · exact List.mem_append_left _ (ih hbefore hhead other hold n hlow hhigh)
      · obtain rfl : other = number := by simpa using hnew
        obtain ⟨highest, hmem, hstep⟩ := h before other hsofar hnil
        rw [UInt64.le_iff_toNat_le] at hhigh
        by_cases hbelow : n ≤ highest
        · exact List.mem_append_left _ (ih hbefore hhead highest hmem n hlow hbelow)
        · rw [UInt64.le_iff_toNat_le] at hbelow
          obtain rfl : n = other := UInt64.toNat_inj.mp (by omega)
          simp

theorem covers_iff_noSkip (numbers : List UInt64) : Covers numbers ↔ NoSkip numbers := by
  constructor
  · intro h before number hpart hne
    by_contra hskip
    simp only [not_exists, not_and, Nat.not_le] at hskip
    -- The number after the highest one so far is missing.
    obtain ⟨highest, hmem, hmax⟩ := before.toFinset.exists_max_image UInt64.toNat
      (List.toFinset_nonempty_iff _ |>.mpr hne)
    rw [List.mem_toFinset] at hmem
    have hlt := hskip highest hmem
    have hbound := number.toNat_lt
    have hsucc : (highest + 1).toNat = highest.toNat + 1 := by
      rw [UInt64.toNat_add, UInt64.toNat_one]
      omega
    obtain ⟨first, rest, rfl⟩ := List.exists_cons_of_ne_nil hne
    have hfirst := hmax first (by simp)
    have hfound := h (first :: rest ++ [number]) first number hpart rfl List.getLast?_concat (highest + 1)
      (UInt64.le_iff_toNat_le.mpr (by omega)) (UInt64.le_iff_toNat_le.mpr (by omega))
    rcases List.mem_append.mp hfound with hold | hnew
    · have hle := hmax _ (List.mem_toFinset.mpr hold)
      omega
    · rw [List.mem_singleton.mp hnew] at hsucc
      omega
  · intro h sofar first latest hsofar hfirst hlatest n hlow hhigh
    exact mem_of_noSkip h hsofar hfirst latest (List.mem_of_getLast? hlatest) n hlow hhigh

-- The finalized number that the best header of a notification reports.
def BestBlockInfoChanged.reports (info : BestBlockInfoChanged) : Option UInt64 := do
  let header ← info.component
  let spvHeader ← header info.bestNumber
  lastLog spvHeader.header.logs asFinalityTracker

-- Notifications about one shard, whose light client has the finalized blocks of this chain.
structure OfSource (shardNum : UInt16) (source : UInt64 → ForeignHeader)
    (info : BestBlockInfoChanged) : Prop where
  shard : info.shardNum = shardNum
  finalized : ∀ header number, info.component = some header → info.reports = some number →
    header number = some (source number)

variable {shardNum : UInt16} {source : UInt64 → ForeignHeader}

theorem bestBlockInfoChanged_tags {info : BestBlockInfoChanged} (hof : OfSource shardNum source info)
    {tags : List Bytes} (h : bestBlockInfoChanged info = .ok tags) :
    tags = (info.reports.map fun number => crfgTag shardNum number (source number)).toList := by
  have hfinalized := hof.finalized
  unfold bestBlockInfoChanged at h
  unfold BestBlockInfoChanged.reports at hfinalized ⊢
  cases hcomponent : info.component with
  | none =>
    simp only [hcomponent, Except.ok.injEq] at h
    simp [← h]
  | some header =>
    simp only [hcomponent, unwrap, Run.bind_eq_ok, Run.expect_eq_ok] at h
    obtain ⟨spvHeader, hspv, h⟩ := h
    cases hlog : lastLog spvHeader.header.logs asFinalityTracker with
    | none =>
      simp only [hlog, Run.pure_eq_ok] at h
      simp [h, hspv, hlog]
    | some number =>
      have hsource := hfinalized header number hcomponent (by simp [hcomponent, hspv, hlog])
      simp only [hlog, hsource, Run.bind_eq_ok, Run.expect_eq_ok, Run.pure_eq_ok,
        Option.some.injEq] at h
      obtain ⟨_, rfl, rfl⟩ := h
      simp [hspv, hlog, hof.shard]

theorem foreignEvents_tags {infos : List BestBlockInfoChanged}
    (hof : ∀ info ∈ infos, OfSource shardNum source info) {tags : List Bytes}
    (h : foreignEvents infos = .ok tags) :
    tags = (infos.filterMap BestBlockInfoChanged.reports).map fun number =>
      crfgTag shardNum number (source number) := by
  induction infos generalizing tags with
  | nil => exact (Except.ok.inj h).symm
  | cons info infos ih =>
    obtain ⟨hfirst, hrest⟩ := List.forall_mem_cons.mp hof
    simp only [foreignEvents, Run.bind_eq_ok, Run.pure_eq_ok] at h
    obtain ⟨own, hown, rest, hothers, rfl⟩ := h
    rw [bestBlockInfoChanged_tags hfirst hown, ih hrest hothers]
    cases hreports : info.reports <;> simp [hreports]

theorem foreignEvents_returns_of_part {before infos : List BestBlockInfoChanged} (hpart : before <+: infos)
    (h : Run.Returns (foreignEvents infos)) : Run.Returns (foreignEvents before) := by
  obtain ⟨after, rfl⟩ := hpart
  induction before with
  | nil => exact ⟨[], rfl⟩
  | cons info before ih =>
    simp only [List.cons_append, foreignEvents, Run.returns_bind] at h ⊢
    obtain ⟨tags, htags, rest, hrest, _⟩ := h
    obtain ⟨rest', hrest'⟩ := ih ⟨rest, hrest⟩
    exact ⟨tags, htags, rest', hrest', ⟨_, rfl⟩⟩

theorem requiredTag_eq_crfgTag (number : UInt64) (header : ForeignHeader) :
    requiredTag shardNum number header.hash header.header.parentHash =
      crfgTag shardNum number header := rfl

theorem requiredTag_inj {number number' : UInt64} {blockHash blockHash' parentHash parentHash' : H256}
    (h : requiredTag shardNum number blockHash parentHash =
      requiredTag shardNum number' blockHash' parentHash') : number = number' := by
  simp only [requiredTag, List.append_assoc, List.append_cancel_left_eq] at h
  have hdecode := congrArg (decodeCompact 8) h
  rw [decodeCompact_append_u64, decodeCompact_append_u64] at hdecode
  exact UInt64.toNat_inj.mp (Prod.mk.inj (Option.some.inj hdecode)).1

theorem relayCheck_requires {σ : Type} {rtx : RelayParams} {shardCount : UInt16} {st : State σ}
    {transaction : ValidTransaction} (h : relayCheck rtx shardCount st = .ok (.valid transaction)) :
    ∃ origin shardNum, OriginExtrinsic.decode rtx.relayType rtx.origin.bytes = some origin ∧
      Sharding.shardNumFor origin.sender shardCount = some shardNum ∧
      transaction.requires = [requiredTag shardNum rtx.number rtx.blockHash rtx.parentHash] := by
  unfold relayCheck at h
  split_ifs at h
  · simp at h
  · cases horigin : OriginExtrinsic.decode rtx.relayType rtx.origin.bytes with
    | none => simp [horigin] at h
    | some origin =>
      simp only [horigin, Run.bind_eq_ok, Run.expect_eq_ok, Run.pure_eq_ok,
        TransactionValidity.valid.injEq] at h
      obtain ⟨shardNum, hshard, rfl⟩ := h
      exact ⟨origin, shardNum, rfl, hshard, rfl⟩

-- The pool has the tag that relays from a block of the source chain require.
def Released (shardNum : UInt16) (source : UInt64 → ForeignHeader) (tags : List Bytes)
    (number : UInt64) : Prop :=
  requiredTag shardNum number (source number).hash (source number).header.parentHash ∈ tags

theorem released_iff (numbers : List UInt64) (number : UInt64) :
    Released shardNum source (numbers.map fun n => crfgTag shardNum n (source n)) number ↔
      number ∈ numbers := by
  simp only [Released, requiredTag_eq_crfgTag, List.mem_map]
  constructor
  · rintro ⟨n, hn, htag⟩
    rw [← requiredTag_eq_crfgTag, ← requiredTag_eq_crfgTag] at htag
    exact requiredTag_inj htag ▸ hn
  · intro hn
    exact ⟨number, hn, rfl⟩

theorem exists_prefix_of_reports {infos : List BestBlockInfoChanged} {sofar : List UInt64}
    {latest : UInt64} (hsofar : sofar <+: infos.filterMap BestBlockInfoChanged.reports)
    (hlatest : sofar.getLast? = some latest) :
    ∃ before info, before ++ [info] <+: infos ∧ info.reports = some latest ∧
      (before ++ [info]).filterMap BestBlockInfoChanged.reports = sofar := by
  obtain ⟨front, rfl⟩ := List.getLast?_eq_some_iff.mp hlatest
  obtain ⟨after, hafter⟩ := hsofar
  obtain ⟨l₁, l₂, rfl, hl₁, _⟩ := List.filterMap_eq_append_iff.mp hafter.symm
  obtain ⟨m₁, m₂, rfl, hm₁, hm₂⟩ := List.filterMap_eq_append_iff.mp hl₁
  obtain ⟨skipped, info, rest, rfl, hskipped, hinfo, hrest⟩ := List.filterMap_eq_cons_iff.mp hm₂
  refine ⟨m₁ ++ skipped, info, ⟨rest ++ l₂, by simp⟩, hinfo, ?_⟩
  have hnone : skipped.filterMap BestBlockInfoChanged.reports = [] :=
    List.filterMap_eq_nil_iff.mpr hskipped
  simp [hm₁, hnone, hinfo]

-- Relays are released up to each reported block exactly if no finalized number is skipped.
theorem relays_released_iff {infos : List BestBlockInfoChanged}
    (hof : ∀ info ∈ infos, OfSource shardNum source info)
    (hprocessed : Run.Returns (foreignEvents infos)) :
    (∀ before info tags first latest, before ++ [info] <+: infos →
      foreignEvents (before ++ [info]) = .ok tags →
      ((before ++ [info]).filterMap BestBlockInfoChanged.reports).head? = some first →
      info.reports = some latest →
      ∀ number, first ≤ number → number ≤ latest → Released shardNum source tags number) ↔
    NoSkip (infos.filterMap BestBlockInfoChanged.reports) := by
  have htags : ∀ {part tags}, part <+: infos → foreignEvents part = .ok tags →
      tags = (part.filterMap BestBlockInfoChanged.reports).map fun number =>
        crfgTag shardNum number (source number) := by
    intro part tags hpart
    exact foreignEvents_tags fun info hinfo => hof info (hpart.subset hinfo)
  rw [← covers_iff_noSkip]
  constructor
  · intro h sofar first latest hsofar hfirst hlatest n hlow hhigh
    obtain ⟨before, info, hpart, hreports, rfl⟩ := exists_prefix_of_reports hsofar hlatest
    obtain ⟨tags, hevents⟩ := foreignEvents_returns_of_part hpart hprocessed
    have hreleased := h before info tags first latest hpart hevents hfirst hreports n hlow hhigh
    rwa [htags hpart hevents, released_iff] at hreleased
  · intro h before info tags first latest hpart hevents hfirst hreports n hlow hhigh
    rw [htags hpart hevents, released_iff]
    refine h _ first latest (hpart.filterMap _) hfirst ?_ n hlow hhigh
    simp [List.filterMap_append, hreports]

-- A source chain of shard 0 in which every block reports the one two below it as final.
def finalityLog (number : UInt64) : DigestItem :=
  .other ([FINALITY_TRACKER_MODULE_LOG_PREFIX, 0] ++ encodeLE 8 number.toNat)

def trailingChain (number : UInt64) : ForeignHeader :=
  ⟨filled 32 number.toUInt8, ⟨filled 32 (number - 1).toUInt8, number, [finalityLog (number - 2)]⟩⟩

def bestIs (number : UInt64) : BestBlockInfoChanged :=
  ⟨0, number, some fun n => some (trailingChain n)⟩

theorem relays_released_trailing :
    Run.Returns (foreignEvents [bestIs 3, bestIs 4, bestIs 5]) ∧
    ∀ tags, foreignEvents [bestIs 3, bestIs 4, bestIs 5] = .ok tags →
      ∀ number, 1 ≤ number → number ≤ 3 → Released 0 trailingChain tags number := by
  have hreturns : Run.Returns (foreignEvents [bestIs 3, bestIs 4, bestIs 5]) := ⟨_, rfl⟩
  have hof : ∀ info ∈ [bestIs 3, bestIs 4, bestIs 5], OfSource 0 trailingChain info := by
    intro info hinfo
    simp only [List.mem_cons, List.not_mem_nil, or_false] at hinfo
    rcases hinfo with rfl | rfl | rfl <;> exact ⟨rfl, fun header number hheader _ => by
      rw [← Option.some.inj hheader]⟩
  have hreports : [bestIs 3, bestIs 4, bestIs 5].filterMap BestBlockInfoChanged.reports =
      [1, 2, 3] := by
    decide +kernel
  have hnoSkip : NoSkip [1, 2, 3] := by
    rintro (_ | ⟨a, _ | ⟨b, _ | ⟨c, rest⟩⟩⟩) number ⟨after, hafter⟩ hne
    · simp at hne
    all_goals simp_all
  refine ⟨hreturns, fun tags htags => ?_⟩
  exact (relays_released_iff hof hreturns).mpr (hreports ▸ hnoSkip) [bestIs 3, bestIs 4]
    (bestIs 5) tags 1 3 (List.prefix_refl _) htags (by decide +kernel) (by decide +kernel)

-- The best block moves from 3 to 5 at once: final block 2 gets no tag.
theorem skipped_block_not_released : ∃ tags,
    foreignEvents [bestIs 3, bestIs 5] = .ok tags ∧
    (bestIs 3).reports = some 1 ∧ (bestIs 5).reports = some 3 ∧
    ¬ Released 0 trailingChain tags 2 := by
  refine ⟨_, rfl, by decide +kernel, by decide +kernel, ?_⟩
  unfold Released
  decide +kernel

end Yeeroot.Foreign
