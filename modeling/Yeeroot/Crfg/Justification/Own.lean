import Yeeroot.Crfg.Justification.Theorems
import Yeeroot.Grandpa.Round.Replay

namespace Yeeroot.Crfg

open Scale Grandpa

-- Substrate's `TreeRoute`, as far as it is read: the blocks that are left on the way to the
-- common block, the first one included.
structure TreeRoute where
  retracted : List H256
  commonBlock : H256

-- `Environment` as a `grandpa::Chain`: the node's own blocks.
def environmentChain (treeRoute : H256 → H256 → Except ClientError TreeRoute) : Chain H256 where
  ancestry base block :=
    if base = block then .ok (.error .notDescendent)
    else
      match treeRoute block base with
      | .error _ => .ok (.error .notDescendent)
      | .ok route =>
        if route.commonBlock ≠ base then .ok (.error .notDescendent)
        else .ok (.ok (route.retracted.drop 1))

section Own

variable {Hd : Type} (host : Host Hd) (header : H256 → Except ClientError (Option Hd))

-- The stored headers on the way from a block back to the target.
inductive Route (target : H256) : H256 → List (H256 × Hd) → Prop where
  | here : Route target target []
  | step {current : H256} {currentHeader : Hd} {rest : List (H256 × Hd)} (other : current ≠ target)
      (stored : header current = .ok (some currentHeader))
      (below : Route target (host.parentHash currentHeader) rest) :
      Route target current ((current, currentHeader) :: rest)

section Route

variable {host header} {target current : H256} {route : List (H256 × Hd)}

theorem Route.unique {route' : List (H256 × Hd)} (h : Route host header target current route)
    (h' : Route host header target current route') : route' = route := by
  induction h generalizing route' with
  | here =>
    cases h' with
    | here => rfl
    | step other _ _ => exact absurd rfl other
  | step other stored below ih =>
    cases h' with
    | here => exact absurd rfl other
    | step _ stored' below' =>
      obtain rfl := Option.some.inj (Except.ok.inj (stored.symm.trans stored'))
      rw [ih below']

variable (host header) in
theorem exists_depth (target : H256) : ∃ depth : H256 → Nat, ∀ current route,
    Route host header target current route → depth current = route.length := by
  classical
  refine ⟨fun current =>
    if h : ∃ route, Route host header target current route then h.choose.length else 0,
    fun current route h => ?_⟩
  have hsome : ∃ route, Route host header target current route := ⟨route, h⟩
  simp only [dif_pos hsome]
  rw [h.unique hsome.choose_spec]

theorem Route.stored (h : Route host header target current route) :
    ∀ entry ∈ route, header entry.1 = .ok (some entry.2) := by
  induction h with
  | here => simp
  | step other stored below ih => exact List.forall_mem_cons.mpr ⟨stored, ih⟩

theorem Route.hashes (h : Route host header target current route) :
    ∃ rest, route.map Prod.fst ++ [target] = current :: rest := by
  cases h with
  | here => exact ⟨[], rfl⟩
  | step other stored below => exact ⟨_, rfl⟩

theorem Route.cons_ancestry (h : Route host header target current route) (hne : current ≠ target) :
    current :: (route.map Prod.fst ++ [target]).tail.dropLast = route.map Prod.fst := by
  cases h with
  | here => exact absurd rfl hne
  | step other stored below => simp

theorem Route.depth_le {depth : H256 → Nat}
    (hdepth : ∀ current route, Route host header target current route →
      depth current = route.length)
    (h : Route host header target current route) :
    ∀ hash ∈ route.map Prod.fst ++ [target], depth hash ≤ route.length := by
  induction h with
  | here =>
    intro hash hhash
    rw [List.mem_singleton.mp hhash, hdepth target [] .here]
  | step other stored below ih =>
    intro hash hhash
    rcases List.mem_cons.mp hhash with rfl | hhash
    · rw [hdepth _ _ (.step other stored below)]
    · exact Nat.le_succ_of_le (ih hash hhash)

theorem Route.falling {depth : H256 → Nat}
    (hdepth : ∀ current route, Route host header target current route →
      depth current = route.length)
    (h : Route host header target current route) :
    (route.map Prod.fst ++ [target]).Pairwise fun hash below => depth below < depth hash := by
  induction h with
  | here => exact List.pairwise_singleton _ _
  | step other stored below ih =>
    refine List.pairwise_cons.mpr ⟨fun hash hhash => ?_, ih⟩
    rw [hdepth _ _ (.step other stored below)]
    exact Nat.lt_succ_of_le (below.depth_le hdepth hash hhash)

theorem Route.nodup (h : Route host header target current route) :
    (route.map Prod.fst).Nodup := by
  obtain ⟨depth, hdepth⟩ := exists_depth host header target
  have hfalling := (List.pairwise_append.mp (h.falling hdepth)).1
  refine hfalling.imp fun hlt heq => ?_
  rw [heq] at hlt
  exact Nat.lt_irrefl _ hlt

end Route

theorem routeHeaders_cases {target : H256} {targetNumber : UInt64} {fuel : Nat} {current : H256}
    {found found' : List (H256 × Hd)}
    (h : routeHeaders host header target targetNumber fuel current found = .ok (.ok found')) :
    (current = target ∧ found' = found) ∨
    ∃ fuel' currentHeader, fuel = fuel' + 1 ∧ current ≠ target ∧
      header current = .ok (some currentHeader) ∧
      routeHeaders host header target targetNumber fuel' (host.parentHash currentHeader)
        (if current ∈ found.map Prod.fst then found else found ++ [(current, currentHeader)]) =
          .ok (.ok found') := by
  unfold routeHeaders at h
  by_cases htarget : current = target
  · rw [if_pos htarget] at h
    exact .inl ⟨htarget, (Except.ok.inj (Except.ok.inj h)).symm⟩
  · rw [if_neg htarget] at h
    match fuel, hheader : header current with
    | 0, _ => cases h
    | fuel + 1, .error error =>
      simp only [hheader] at h
      cases h
    | fuel + 1, .ok none =>
      simp only [hheader] at h
      cases h
    | fuel + 1, .ok (some currentHeader) =>
      simp only [hheader] at h
      by_cases hnumber : host.headerNumber currentHeader ≤ targetNumber
      · rw [if_pos hnumber] at h
        cases h
      · rw [if_neg hnumber] at h
        exact .inr ⟨fuel, currentHeader, rfl, htarget, rfl, h⟩

omit host in
theorem mem_collected {current : H256} {currentHeader : Hd} {found : List (H256 × Hd)}
    (hstored : ∀ entry ∈ found, header entry.1 = .ok (some entry.2))
    (hheader : header current = .ok (some currentHeader)) (entry : H256 × Hd) :
    entry ∈ (if current ∈ found.map Prod.fst then found else found ++ [(current, currentHeader)]) ↔
      entry ∈ found ∨ entry = (current, currentHeader) := by
  split_ifs with hseen
  · obtain ⟨⟨hash, seen⟩, hmem, rfl⟩ := List.mem_map.mp hseen
    obtain rfl := Option.some.inj (Except.ok.inj ((hstored _ hmem).symm.trans hheader))
    exact ⟨.inl, fun hentry => hentry.elim id fun heq => heq ▸ hmem⟩
  · rw [List.mem_append, List.mem_singleton]

theorem routeHeaders_eq_ok {target : H256} {targetNumber : UInt64} {fuel : Nat} {current : H256}
    {found found' : List (H256 × Hd)}
    (hstored : ∀ entry ∈ found, header entry.1 = .ok (some entry.2))
    (h : routeHeaders host header target targetNumber fuel current found = .ok (.ok found')) :
    ∃ route, Route host header target current route ∧
      ∀ entry, entry ∈ found' ↔ entry ∈ found ∨ entry ∈ route := by
  induction fuel generalizing current found with
  | zero =>
    rcases routeHeaders_cases host header h with ⟨rfl, rfl⟩ | ⟨_, _, hfuel, _⟩
    · exact ⟨[], .here, by simp⟩
    · cases hfuel
  | succ fuel ih =>
    rcases routeHeaders_cases host header h with
      ⟨rfl, rfl⟩ | ⟨fuel', currentHeader, hfuel, htarget, hheader, hwalk⟩
    · exact ⟨[], .here, by simp⟩
    · obtain rfl := Nat.succ.inj hfuel
      have hcollected := mem_collected header hstored hheader
      obtain ⟨rest, hrest, hfound⟩ := ih (fun entry hentry => by
        rcases (hcollected entry).mp hentry with hentry | rfl
        · exact hstored entry hentry
        · exact hheader) hwalk
      refine ⟨_, .step htarget hheader hrest, fun entry => ?_⟩
      rw [hfound, hcollected, List.mem_cons, or_assoc]

-- A header on the way from one of these precommits to the target.
def OnRoute (target : H256) (precommits : List (SignedPrecommit H256 Signature AuthorityId))
    (entry : H256 × Hd) : Prop :=
  ∃ signed ∈ precommits, ∃ route,
    Route host header target signed.precommit.targetHash route ∧ entry ∈ route

variable {host header} in
theorem onRoute_cons {target : H256} {signed : SignedPrecommit H256 Signature AuthorityId}
    {precommits : List (SignedPrecommit H256 Signature AuthorityId)} {route : List (H256 × Hd)}
    (hroute : Route host header target signed.precommit.targetHash route) (entry : H256 × Hd) :
    OnRoute host header target (signed :: precommits) entry ↔
      entry ∈ route ∨ OnRoute host header target precommits entry := by
  constructor
  · rintro ⟨other, hother, route', hroute', hentry⟩
    rcases List.mem_cons.mp hother with rfl | hother
    · exact .inl (hroute.unique hroute' ▸ hentry)
    · exact .inr ⟨other, hother, route', hroute', hentry⟩
  · rintro (hentry | ⟨other, hother, hentry⟩)
    · exact ⟨signed, List.mem_cons_self, route, hroute, hentry⟩
    · exact ⟨other, List.mem_cons_of_mem _ hother, hentry⟩

theorem precommitHeaders_eq_ok {commit : CrfgCommit}
    {precommits : List (SignedPrecommit H256 Signature AuthorityId)}
    {found found' : List (H256 × Hd)}
    (hstored : ∀ entry ∈ found, header entry.1 = .ok (some entry.2))
    (h : precommitHeaders host header commit precommits found = .ok (.ok found')) :
    (∀ signed ∈ precommits, ∃ route,
      Route host header commit.targetHash signed.precommit.targetHash route) ∧
    ∀ entry, entry ∈ found' ↔
      entry ∈ found ∨ OnRoute host header commit.targetHash precommits entry := by
  induction precommits generalizing found with
  | nil =>
    obtain rfl := Except.ok.inj (Except.ok.inj h)
    simp [OnRoute]
  | cons signed precommits ih =>
    simp only [precommitHeaders, Run.bind_eq_ok] at h
    obtain ⟨collected, hcollected, h⟩ := h
    cases collected with
    | error error => exact absurd ((Run.pure_eq_ok _ _).mp h) (by simp)
    | ok collected =>
      obtain ⟨route, hroute, hmem⟩ := routeHeaders_eq_ok host header hstored hcollected
      have hstored' : ∀ entry ∈ collected, header entry.1 = .ok (some entry.2) := by
        intro entry hentry
        rcases (hmem entry).mp hentry with hentry | hentry
        · exact hstored entry hentry
        · exact hroute.stored entry hentry
      obtain ⟨hroutes, hfound⟩ := ih hstored' h
      refine ⟨List.forall_mem_cons.mpr ⟨⟨route, hroute⟩, hroutes⟩, fun entry => ?_⟩
      rw [hfound, hmem, onRoute_cons hroute, or_assoc]

theorem mem_foldl_insert (headers : List Hd) {hash : H256} (ancestry : AncestryChain Hd)
    (h : hash ∈ ancestry ∨ hash ∈ headers.map host.headerHash) :
    hash ∈ headers.foldl (fun ancestry header => ancestry.insert (host.headerHash header) header)
      ancestry := by
  induction headers generalizing ancestry with
  | nil => exact h.resolve_right List.not_mem_nil
  | cons first headers ih =>
    refine ih _ ?_
    rw [AList.mem_insert]
    rw [List.map_cons, List.mem_cons] at h
    rcases h with h | h | h
    · exact .inl (.inr h)
    · exact .inl (.inl h)
    · exact .inr h

section Packed

-- A store has each header under its hash.
variable {host header} (hhashed : ∀ hash stored, header hash = .ok (some stored) →
  host.headerHash stored = hash)
variable {target current : H256} {route found : List (H256 × Hd)}
  (hstored : ∀ entry ∈ found, header entry.1 = .ok (some entry.2))

include hhashed hstored

theorem map_headerHash : (found.map Prod.snd).map host.headerHash = found.map Prod.fst := by
  rw [List.map_map]
  exact List.map_congr_left fun entry hentry => hhashed _ _ (hstored entry hentry)

theorem lookup_packed {entry : H256 × Hd} (hentry : entry ∈ found) :
    (AncestryChain.new host (found.map Prod.snd)).lookup entry.1 = some entry.2 := by
  have hmem : entry.1 ∈ AncestryChain.new host (found.map Prod.snd) := by
    refine mem_foldl_insert host _ ∅ (.inr ?_)
    rw [map_headerHash hhashed hstored]
    exact List.mem_map_of_mem hentry
  obtain ⟨packed, hpacked⟩ := Option.isSome_iff_exists.mp (AList.lookup_isSome.mpr hmem)
  obtain ⟨hheaders, hhash⟩ := mem_of_lookup_ancestry host _ hpacked
  obtain ⟨⟨hash, other⟩, hother, rfl⟩ := List.mem_map.mp hheaders
  have hsame : hash = entry.1 := (hhashed _ _ (hstored _ hother)).symm.trans hhash
  have hheader := hstored _ hother
  rw [hsame, hstored entry hentry] at hheader
  rw [hpacked, Option.some.inj (Except.ok.inj hheader)]

omit hhashed hstored in
theorem walk_of_route {ancestry : AncestryChain Hd}
    (h : Route host header target current route)
    (hpacked : ∀ entry ∈ route, ancestry.lookup entry.1 = some entry.2) {fuel : Nat}
    (hfuel : route.length ≤ fuel) (walked : List H256) :
    AncestryChain.walk host ancestry target fuel current walked =
      .ok (.ok (walked ++ (route.map Prod.fst ++ [target]).tail).dropLast) := by
  induction h generalizing fuel walked with
  | here =>
    unfold AncestryChain.walk
    simp
  | step other stored below ih =>
    obtain ⟨hfirst, hrest⟩ := List.forall_mem_cons.mp hpacked
    obtain ⟨tail, htail⟩ := below.hashes
    cases fuel with
    | zero => exact absurd hfuel (Nat.not_succ_le_zero _)
    | succ fuel =>
      unfold AncestryChain.walk
      rw [if_neg other]
      simp only [hfirst]
      rw [ih hrest (Nat.le_of_succ_le_succ hfuel), List.map_cons, List.cons_append,
        List.tail_cons, htail]
      simp

theorem ancestry_of_route (h : Route host header target current route)
    (hfound : ∀ entry ∈ route, entry ∈ found) :
    ((AncestryChain.new host (found.map Prod.snd)).chain host).ancestry target current =
      .ok (.ok (route.map Prod.fst ++ [target]).tail.dropLast) := by
  have hpacked : ∀ entry ∈ route,
      (AncestryChain.new host (found.map Prod.snd)).lookup entry.1 = some entry.2 :=
    fun entry hentry => lookup_packed hhashed hstored (hfound entry hentry)
  have hkeys : route.map Prod.fst ⊆ (AncestryChain.new host (found.map Prod.snd)).keys := by
    intro hash hhash
    obtain ⟨entry, hentry, rfl⟩ := List.mem_map.mp hhash
    exact AList.mem_keys.mp (AList.lookup_isSome.mp (by rw [hpacked entry hentry]; rfl))
  have hfuel := (List.subperm_of_subset h.nodup hkeys).length_le
  rw [List.length_map] at hfuel
  exact walk_of_route h hpacked (Nat.le_succ_of_le hfuel) []

theorem routed_of_route {depth : H256 → Nat}
    (hdepth : ∀ current route, Route host header target current route →
      depth current = route.length)
    (h : Route host header target current route) (hne : current ≠ target)
    (hfound : ∀ entry ∈ route, entry ∈ found) :
    VoteGraph.Routed depth ((AncestryChain.new host (found.map Prod.snd)).chain host) target
      current := by
  refine ⟨_, ancestry_of_route hhashed hstored h hfound, ?_⟩
  rw [← List.cons_append, h.cons_ancestry hne]
  exact h.falling hdepth

theorem visitedHashes_of_routes (just : CrfgJustification Hd) (setId : UInt64)
    (htarget : just.commit.targetHash = target)
    {precommits : List (SignedPrecommit H256 Signature AuthorityId)}
    (hsigned : ∀ signed ∈ precommits, checkMessageSig host (.precommit signed.precommit)
      [signed.id] [signed.signature] just.round setId = true)
    (hroutes : ∀ signed ∈ precommits, ∃ route,
      Route host header target signed.precommit.targetHash route)
    (hfound : ∀ entry, OnRoute host header target precommits entry → entry ∈ found)
    (visited : List H256) :
    ∃ visited', just.visitedHashes host setId
        ((AncestryChain.new host (found.map Prod.snd)).chain host) precommits visited =
          .ok (.ok visited') ∧
      ∀ hash, hash ∈ visited' ↔
        hash ∈ visited ∨ ∃ entry, OnRoute host header target precommits entry ∧ entry.1 = hash := by
  induction precommits generalizing visited with
  | nil => exact ⟨visited, rfl, by simp [OnRoute]⟩
  | cons signed precommits ih =>
    obtain ⟨hvalid, hsigned⟩ := List.forall_mem_cons.mp hsigned
    obtain ⟨⟨route, hroute⟩, hroutes⟩ := List.forall_mem_cons.mp hroutes
    have hcons : ∀ entry, OnRoute host header target (signed :: precommits) entry ↔
        entry ∈ route ∨ OnRoute host header target precommits entry := onRoute_cons hroute
    have hrest : ∀ entry, OnRoute host header target precommits entry → entry ∈ found :=
      fun entry hentry => hfound entry ((hcons entry).mpr (.inr hentry))
    have hhere : ∀ entry ∈ route, entry ∈ found :=
      fun entry hentry => hfound entry ((hcons entry).mpr (.inl hentry))
    obtain ⟨visited', hvisited, hmem⟩ := ih hsigned hroutes hrest (visited ++ route.map Prod.fst)
    refine ⟨visited', ?_, fun hash => ?_⟩
    · rw [← hvisited, CrfgJustification.visitedHashes, hvalid, if_neg (by simp), htarget]
      by_cases hsame : target = signed.precommit.targetHash
      · have hnil : route = [] := Route.unique (hsame ▸ .here) hroute
        rw [if_pos hsame, hnil, List.map_nil, List.append_nil]
      · rw [if_neg hsame, ancestry_of_route hhashed hstored hroute hhere]
        simp only [bind, Except.bind, hroute.cons_ancestry (Ne.symm hsame)]
    · rw [hmem, List.mem_append, or_assoc]
      refine or_congr_right ?_
      simp only [hcons, or_and_right, exists_or, List.mem_map]

end Packed

-- What a node has justified from its own blocks is accepted by whoever knows the voters:
-- the packed headers are the union of the routes, and the votes can be placed over them.
theorem own_justification_verifies {order : List H256 → List H256}
    {treeRoute : H256 → H256 → Except ClientError TreeRoute} {round setId : UInt64}
    {commit : CrfgCommit} {voters : List (AuthorityId × UInt64)} {ghost : H256 × UInt64}
    {just : CrfgJustification Hd}
    (hhashed : ∀ hash stored, header hash = .ok (some stored) → host.headerHash stored = hash)
    (hsigned : ∀ signed ∈ commit.precommits, checkMessageSig host (.precommit signed.precommit)
      [signed.id] [signed.signature] round setId = true)
    (haccepted : validateCommit order (environmentChain treeRoute) commit
      (VoterSet.fromIter voters) = .ok (.ok (some ghost)))
    (hbuilt : CrfgJustification.fromCommit host header round commit = .ok (.ok just)) :
    just.verify host setId (VoterSet.fromIter voters) = .ok (.ok ()) := by
  simp only [CrfgJustification.fromCommit, Run.bind_eq_ok] at hbuilt
  obtain ⟨collected, hcollected, hbuilt⟩ := hbuilt
  cases collected with
  | error error => exact absurd ((Run.pure_eq_ok _ _).mp hbuilt) (by simp)
  | ok found =>
    obtain rfl := Except.ok.inj ((Run.pure_eq_ok _ _).mp hbuilt)
    obtain ⟨hroutes, hfound⟩ := precommitHeaders_eq_ok host header (by simp) hcollected
    have hon : ∀ entry, OnRoute host header commit.targetHash commit.precommits entry ↔
        entry ∈ found := fun entry => by simp [hfound]
    have hstored : ∀ entry ∈ found, header entry.1 = .ok (some entry.2) := by
      intro entry hentry
      obtain ⟨signed, -, route, hroute, hmem⟩ := (hon entry).mpr hentry
      exact hroute.stored entry hmem
    obtain ⟨depth, hdepth⟩ := exists_depth host header commit.targetHash
    obtain ⟨ghost', hghost⟩ := validateCommit_replay haccepted (fun signed hmem hne => by
      obtain ⟨route, hroute⟩ := hroutes signed hmem
      exact routed_of_route hhashed hstored hdepth hroute hne fun entry hentry =>
        (hon entry).mp ⟨signed, hmem, route, hroute, hentry⟩) host.headOrder
    obtain ⟨visited, hvisited, hmem⟩ := visitedHashes_of_routes hhashed hstored
      ⟨round, commit, found.map Prod.snd⟩ setId rfl hsigned hroutes
      (fun entry => (hon entry).mp) []
    have hsame : visited.toFinset = ((found.map Prod.snd).map host.headerHash).toFinset := by
      rw [map_headerHash hhashed hstored]
      ext hash
      simp only [List.mem_toFinset, hmem, hon, List.mem_map, List.not_mem_nil, false_or]
    simp only [CrfgJustification.verify, hghost, hvisited, bind, Except.bind, if_pos hsame]
    rfl

-- Headers that are their hash, their parent's and their number.
def numberedHost : Host (H256 × H256 × UInt64) where
  headerCodec := .prod (.fixed 32) (.prod (.fixed 32)
    (.map .nat UInt64.ofNat UInt64.toNat fun _ => UInt64.ofNat_toNat))
  headerHash := Prod.fst
  parentHash hd := hd.2.1
  headerNumber hd := hd.2.2
  ed25519Verify signature payload id := signature = signWith id payload
  headOrder := List.reverse

-- Block 1 with a fork: 2 and 3 over it on one branch, 4 on the other.
def forkedStore (hash : H256) : Except ClientError (Option (H256 × H256 × UInt64)) :=
  .ok ([(filled 32 1, zero256, 1), (filled 32 2, filled 32 1, 2), (filled 32 3, filled 32 2, 3),
    (filled 32 4, filled 32 1, 2)].find? fun stored => stored.1 = hash)

-- The way of these blocks to block 1.
def forkedRoute (block _ : H256) : Except ClientError TreeRoute :=
  .ok ⟨if block = filled 32 3 then [filled 32 3, filled 32 2] else [block], filled 32 1⟩

-- The second vote is for a block on the way of the first, the third is on the other branch.
def forkedCommit : CrfgCommit :=
  ⟨filled 32 1, 1, votes [(filled 32 9, ⟨filled 32 3, 3⟩), (filled 32 8, ⟨filled 32 2, 2⟩),
    (filled 32 7, ⟨filled 32 4, 2⟩)]⟩

theorem forked_justification_verifies :
    validateCommit id (environmentChain forkedRoute) forkedCommit (VoterSet.fromIter fourVoters) =
      .ok (.ok (some (filled 32 1, 1))) ∧
    ∃ just, CrfgJustification.fromCommit numberedHost forkedStore 1 forkedCommit =
        .ok (.ok just) ∧
      just.votesAncestries.map Prod.fst = [filled 32 3, filled 32 2, filled 32 4] ∧
      just.verify numberedHost 0 (VoterSet.fromIter fourVoters) = .ok (.ok ()) := by
  have haccepted : validateCommit id (environmentChain forkedRoute) forkedCommit
      (VoterSet.fromIter fourVoters) = .ok (.ok (some (filled 32 1, 1))) := by
    decide +kernel
  have hhashed : ∀ hash stored, forkedStore hash = .ok (some stored) →
      numberedHost.headerHash stored = hash := by
    intro hash stored h
    have hfound := List.find?_some (Except.ok.inj h)
    exact of_decide_eq_true hfound
  have hsigned : ∀ signed ∈ forkedCommit.precommits, checkMessageSig numberedHost
      (.precommit signed.precommit) [signed.id] [signed.signature] 1 0 = true := by
    decide +kernel
  have hpacked : (CrfgJustification.fromCommit numberedHost forkedStore 1
      forkedCommit).toOption.bind (fun built => built.toOption.map fun just =>
        just.votesAncestries.map Prod.fst) = some [filled 32 3, filled 32 2, filled 32 4] := by
    decide +kernel
  obtain ⟨built, hbuilt, hview⟩ := Run.exists_of_toOption hpacked
  cases built with
  | error error => cases hview
  | ok just =>
    exact ⟨haccepted, just, hbuilt, Option.some.inj hview,
      own_justification_verifies numberedHost forkedStore hhashed hsigned haccepted hbuilt⟩

end Own

end Yeeroot.Crfg
