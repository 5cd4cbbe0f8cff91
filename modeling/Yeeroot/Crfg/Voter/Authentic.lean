import Yeeroot.Crfg.Justification.Theorems
import Yeeroot.Crfg.UntilImported.Lemmas
import Yeeroot.Crfg.Voter

namespace Yeeroot.Crfg

open Scale Grandpa

namespace Gossip

def asText (bytes : Bytes) : List Char := bytes.map fun byte => Char.ofNat byte.toNat

theorem asText_asBytes {text : List Char} (h : ∀ char ∈ text, char.toNat < 256) :
    asText (asBytes text) = text := by
  rw [asText, asBytes, List.map_map]
  refine (List.map_congr_left fun char hchar => ?_).trans (List.map_id text)
  rw [Function.comp_apply, UInt8.toNat_ofNat_of_lt' (h char hchar), Char.ofNat_toNat]
  rfl

theorem digit_lt {n : Nat} {char : Char} (h : char ∈ Nat.toDigits 10 n) : char.toNat < 256 := by
  have hdigit := Nat.isDigit_of_mem_toDigits (by decide) (by decide) h
  simp only [Char.isDigit, Bool.and_eq_true, decide_eq_true_eq] at hdigit
  have hle : char.val.toNat ≤ 57 := UInt32.le_iff_toNat_le.mp hdigit.2
  exact Nat.lt_of_le_of_lt hle (by decide)

theorem dash_notMem_digits (n : Nat) : '-' ∉ Nat.toDigits 10 n := by
  intro h
  exact absurd (Nat.isDigit_of_mem_toDigits (by decide) (by decide) h) (by decide)

theorem toDigits_inj {n m : Nat} (h : Nat.toDigits 10 n = Nat.toDigits 10 m) : n = m := by
  rw [← Nat.ofDigitChars_ten_toDigits (n := n), h, Nat.ofDigitChars_ten_toDigits]

theorem topic_ascii {n : Nat} {behind : List Char} (h : ∀ char ∈ behind, char.toNat < 256) :
    ∀ char ∈ Nat.toDigits 10 n ++ '-' :: behind, char.toNat < 256 := by
  intro char hchar
  rcases List.mem_append.mp hchar with hdigit | hrest
  · exact digit_lt hdigit
  · rcases List.mem_cons.mp hrest with rfl | hrest
    · decide
    · exact h char hrest

-- The number before the dash is the set, the one after it is the round.
theorem roundText_inj {round setId round' setId' : UInt64}
    (h : roundText round setId = roundText round' setId') : round = round' ∧ setId = setId' := by
  have htext := congrArg asText h
  rw [roundText, roundText, asText_asBytes (topic_ascii fun _ => digit_lt),
    asText_asBytes (topic_ascii fun _ => digit_lt)] at htext
  obtain ⟨hset, -, hround⟩ := List.append_cons_inj_of_notMem (dash_notMem_digits _)
    (dash_notMem_digits _) |>.mp htext
  exact ⟨UInt64.toNat_inj.mp (toDigits_inj hround), UInt64.toNat_inj.mp (toDigits_inj hset)⟩

theorem messageTopic_inj {hash : Bytes → H256} (hfree : CollisionFree hash)
    {round setId round' setId' : UInt64}
    (h : messageTopic hash round setId = messageTopic hash round' setId') :
    round = round' ∧ setId = setId' :=
  roundText_inj (hfree (.inl ⟨round, setId, rfl⟩) (.inl ⟨round', setId', rfl⟩) h)

section Authentic

variable {Hd : Type} (host : Host Hd) (round setId : UInt64) (voters : VoterSet AuthorityId)

-- Every signer is a voter and has signed the message for the round and the set.
structure Authentic (signed : SignedMessage) : Prop where
  length_eq : signed.id.length = signed.signature.length
  isVoter : ∀ id ∈ signed.id, (voters.info id).isSome
  verifies : ∀ id signature, (id, signature) ∈ signed.id.zip signed.signature →
    host.ed25519Verify signature (localizedPayload round setId signed.message) id = true

variable {host round setId voters} {build : Build} {hash : Bytes → H256}
  {rounds : TopicTracker}

theorem checkMessageSig_iff {message : Message} {id : List AuthorityId}
    {signature : List Signature} :
    checkMessageSig host message id signature round setId = true ↔
      id.length = signature.length ∧ ∀ signer sig, (signer, sig) ∈ id.zip signature →
        host.ed25519Verify sig (localizedPayload round setId message) signer = true := by
  unfold checkMessageSig
  split_ifs with hlength
  · simp [hlength]
  · simp only [List.all_eq_true, Prod.forall, not_not.mp hlength, true_and]

theorem validateRoundMessage_eq_valid {full : VoteOrPrecommitMessage} {topic : H256}
    (h : validateRoundMessage host build hash rounds full = .ok (.valid topic)) :
    checkMessageSig host full.message.message full.message.id full.message.signature
        full.round full.setId = true ∧
      messageTopic hash full.round full.setId = topic := by
  simp only [validateRoundMessage, Run.bind_eq_ok] at h
  obtain ⟨expired, -, h⟩ := h
  cases expired with
  | true => cases h
  | false =>
    rw [if_neg Bool.false_ne_true] at h
    split_ifs at h with hsigned
    · exact ⟨hsigned, ValidationResult.valid.inj (Except.ok.inj h)⟩
    · cases h

theorem checkedMessage_authentic (hfree : CollisionFree hash) {raw : Bytes}
    {signed : SignedMessage}
    (hvalid : validate host build hash rounds raw = .ok (.valid (messageTopic hash round setId)))
    (h : checkedMessage voters raw = some signed) : Authentic host round setId voters signed := by
  unfold checkedMessage at h
  unfold validate at hvalid
  split at h
  · next full hdecode =>
    rw [hdecode] at hvalid
    obtain ⟨hsigned, htopic⟩ := validateRoundMessage_eq_valid hvalid
    obtain ⟨hround, hset⟩ := messageTopic_inj hfree htopic
    split_ifs at h with hvoters
    obtain rfl := Option.some.inj h
    obtain ⟨hlength, hverifies⟩ := checkMessageSig_iff.mp hsigned
    rw [hround, hset] at hverifies
    exact ⟨hlength, List.all_eq_true.mp hvoters, hverifies⟩
  · cases h

end Authentic

namespace VoteGate

variable {ε : Type} {gate gate' : VoteGate} {property : SignedMessage → Prop}

structure Holds (property : SignedMessage → Prop) (gate : VoteGate) : Prop where
  pending : ∀ hash, ∀ signed ∈ gate.pending hash, property signed
  ready : ∀ signed ∈ gate.ready, property signed

theorem holds_new : Holds property new :=
  ⟨fun _ _ hsigned => absurd hsigned List.not_mem_nil,
    fun _ hsigned => absurd hsigned List.not_mem_nil⟩

theorem Holds.scheduleWait (h : Holds property gate) {blockNumber : BlockNumber ε}
    {signed : SignedMessage} (hsigned : property signed)
    (hschedule : VoteGate.scheduleWait blockNumber gate signed = .ok gate') :
    Holds property gate' := by
  simp only [VoteGate.scheduleWait, Run.bind_eq_ok] at hschedule
  obtain ⟨number?, -, hschedule⟩ := hschedule
  cases number? with
  | some number =>
    dsimp only at hschedule
    split_ifs at hschedule
    · rw [← Except.ok.inj hschedule]
      exact h
    · rw [← Except.ok.inj hschedule]
      refine ⟨h.pending, List.forall_mem_append.mpr ⟨h.ready, ?_⟩⟩
      simpa using hsigned
  | none =>
    rw [← Except.ok.inj hschedule]
    refine ⟨fun hash => ?_, h.ready⟩
    by_cases heq : hash = signed.message.target.1
    · subst heq
      simp only [Function.update_self, List.forall_mem_append, List.forall_mem_singleton]
      exact ⟨h.pending _, hsigned⟩
    · simpa only [Function.update_of_ne heq] using h.pending hash

theorem Holds.completeHash (h : Holds property gate) (block : H256 × UInt64) :
    Holds property (gate.completeHash block) := by
  refine ⟨fun hash => ?_, List.forall_mem_append.mpr ⟨h.ready, ?_⟩⟩
  · by_cases heq : hash = block.1
    · simp [VoteGate.completeHash, heq]
    · simpa only [VoteGate.completeHash, Function.update_of_ne heq] using h.pending hash
  · intro signed hsigned
    obtain ⟨waiting, hwaiting, hcompleted⟩ := List.mem_filterMap.mp hsigned
    unfold waitCompleted at hcompleted
    split_ifs at hcompleted
    obtain rfl := Option.some.inj hcompleted
    exact h.pending _ waiting hwaiting

theorem Holds.poll {voters : VoterSet AuthorityId} (h : Holds property gate) {input : Poll ε}
    {result : Polled SignedMessage}
    (hinputs : ∀ item ∈ input.inputs, ∀ signed ∈ checkedMessage voters item.1, property signed)
    (hpoll : Crfg.poll (kind voters) input gate = .ok (gate', result)) :
    Holds property gate' ∧ ∀ signed, result = .ready signed → property signed := by
  have hschedule : ∀ {blockNumber raw gate gate'}, Holds property gate →
      (∀ signed ∈ checkedMessage voters raw, property signed) →
      (kind (ε := ε) voters).scheduleWait blockNumber raw gate = .ok gate' →
      Holds property gate' := by
    intro blockNumber raw gate gate' h hraw hschedule
    simp only [kind] at hschedule
    split at hschedule
    · rwa [← Except.ok.inj hschedule]
    · next signed hchecked => exact h.scheduleWait (hraw signed hchecked) hschedule
  obtain ⟨checked, hchecked, hpopped | ⟨rfl, rfl, _⟩⟩ := poll_keeps (Holds property) _ hschedule
    (fun block h => h.completeHash block) h hinputs hpoll
  · unfold popReady at hpopped
    split at hpopped
    · obtain ⟨rfl, rfl⟩ := Prod.mk.inj hpopped
      exact ⟨hchecked, fun _ hready => nomatch hready⟩
    · next signed ready hready =>
        obtain ⟨rfl, rfl⟩ := Prod.mk.inj hpopped
        have hall : ∀ other ∈ signed :: ready, property other := hready ▸ hchecked.ready
        obtain ⟨hsigned, hrest⟩ := List.forall_mem_cons.mp hall
        refine ⟨⟨hchecked.pending, hrest⟩, fun _ hout => ?_⟩
        rwa [← Polled.ready.inj hout]
  · exact ⟨hchecked, fun _ hready => nomatch hready⟩

end VoteGate

end Gossip

namespace Voter

open Gossip

section Sound

variable {ρ ε α : Type} {property : PassedVote → Prop}

structure Sound (property : PassedVote → Prop)
    (outcome : List PassedVote × Except (Halt ε) α) : Prop where
  inBounds : outcome.2 ≠ .error .indexOutOfBounds
  passed : ∀ vote ∈ outcome.1, property vote

theorem sound_nil (value : α) : Sound property (([], .ok value) :
    List PassedVote × Except (Halt ε) α) :=
  ⟨by simp, by simp⟩

theorem Sound.andThen {first : List PassedVote × Except (Halt ε) ρ}
    {next : ρ → List PassedVote × Except (Halt ε) α} (hfirst : Sound property first)
    (hnext : ∀ votes, Sound property (next votes)) :
    Sound property (Voter.andThen first next) := by
  obtain ⟨passed, result⟩ := first
  cases result with
  | error halt => exact ⟨fun h => hfirst.inBounds (congrArg Except.error (Except.error.inj h)),
      hfirst.passed⟩
  | ok votes => exact ⟨(hnext votes).inBounds,
      List.forall_mem_append.mpr ⟨hfirst.passed, (hnext votes).passed⟩⟩

variable (voting : VotingRound ρ ε) {origin : Origin} {signed : SignedMessage}

theorem sound_importSignatures (hlength : signed.id.length = signed.signature.length)
    (hsigned : ∀ id signature, (id, signature) ∈ signed.id.zip signed.signature →
      property ⟨origin, signed.message, id, signature⟩)
    {indices : List Nat} (hindices : ∀ i ∈ indices, i < signed.signature.length) (votes : ρ) :
    Sound property (importSignatures voting origin signed indices votes) := by
  induction indices generalizing votes with
  | nil => exact sound_nil votes
  | cons i indices ih =>
    obtain ⟨hi, hrest⟩ := List.forall_mem_cons.mp hindices
    have hid : i < signed.id.length := by omega
    have hzip : i < (signed.id.zip signed.signature).length := by
      rw [List.length_zip]
      omega
    have hmem : (signed.id[i], signed.signature[i]) ∈ signed.id.zip signed.signature := by
      rw [← List.getElem_zip (h := hzip)]
      exact List.getElem_mem hzip
    rw [importSignatures, List.getElem?_eq_getElem hid, List.getElem?_eq_getElem hi]
    refine Sound.andThen ⟨?_, ?_⟩ (ih hrest)
    · cases voting.importVote votes signed.message signed.id[i] signed.signature[i] <;>
        simp [Except.mapError]
    · simpa using hsigned _ _ hmem

theorem sound_importMessage (hlength : signed.id.length = signed.signature.length)
    (hsigned : ∀ id signature, (id, signature) ∈ signed.id.zip signed.signature →
      property ⟨origin, signed.message, id, signature⟩) (votes : ρ) :
    Sound property (importMessage voting origin signed votes) := by
  unfold importMessage
  split_ifs
  · exact sound_importSignatures voting hlength hsigned (fun i hi => List.mem_range.mp hi) votes
  · exact sound_nil votes

end Sound

section ProcessIncoming

variable {Hd ρ ε : Type} (host : Host Hd) (round setId : UInt64) (voters : VoterSet AuthorityId)

-- A vote from the network is by a voter who signed it for the round and the set.
def FromVoter (vote : PassedVote) : Prop :=
  vote.origin = .network → (voters.info vote.id).isSome ∧
    host.ed25519Verify vote.signature (localizedPayload round setId vote.message) vote.id = true

variable {host round setId voters}

theorem sound_own (voting : VotingRound ρ ε) (locals : List LocalKey) (message : Message)
    (votes : ρ) : Sound (FromVoter host round setId voters)
      (importMessage voting .own (signLocally locals round setId message) votes) := by
  refine sound_importMessage voting (by simp [signLocally]) ?_ votes
  intro id signature _ horigin
  cases horigin

theorem sound_network (voting : VotingRound ρ ε) {signed : SignedMessage}
    (h : Authentic host round setId voters signed) (votes : ρ) :
    Sound (FromVoter host round setId voters) (importMessage voting .network signed votes) :=
  sound_importMessage voting h.length_eq (fun id signature hmem _ =>
    ⟨h.isVoter id (List.of_mem_zip hmem).1, h.verifies id signature hmem⟩) votes

-- What the stream gives is authentic, so by induction over the polls the gate only ever
-- holds authentic messages.
theorem sound_processIncoming (voting : VotingRound ρ ε) (locals : List LocalKey)
    {polls : List (Incoming ε)}
    (hpolls : ∀ input, .network input ∈ polls → ∀ item ∈ input.inputs,
      ∀ signed ∈ checkedMessage voters item.1, Authentic host round setId voters signed)
    {gate : VoteGate} (hgate : gate.Holds (Authentic host round setId voters)) (votes : ρ) :
    Sound (FromVoter host round setId voters)
      (processIncoming voting voters locals round setId polls gate votes) := by
  induction polls generalizing gate votes with
  | nil => exact sound_nil (gate, votes)
  | cons poll polls ih =>
    have hrest := fun input hinput => hpolls input (List.mem_cons_of_mem _ hinput)
    cases poll with
    | own message =>
      exact (sound_own voting locals message votes).andThen (ih hrest hgate)
    | network input =>
      have hinput := hpolls input List.mem_cons_self
      rw [processIncoming]
      split
      · exact ⟨by simp, by simp⟩
      · next gate' signed hpoll =>
        obtain ⟨hgate', hsigned⟩ := hgate.poll hinput hpoll
        exact (sound_network voting (hsigned signed rfl) votes).andThen (ih hrest hgate')
      · next gate' _ _ hpoll => exact ih hrest (hgate.poll hinput hpoll).1 votes

end ProcessIncoming

-- The gossip engine delivers on a topic what the validator found valid for it.
def Delivered {Hd ε : Type} (host : Host Hd) (build : Build) (hash : Bytes → H256)
    (topic : H256) (polls : List (Incoming ε)) : Prop :=
  ∀ input, .network input ∈ polls → ∀ item ∈ input.inputs,
    ∃ rounds, validate host build hash rounds item.1 = .ok (.valid topic)

-- A hash that reads the numbers of a topic back from its text.
def plainTopicHash (text : Bytes) : H256 :=
  let chars := asText text
  let before := chars.takeWhile (· ≠ '-')
  let behind := chars.drop (before.length + 1)
  ⟨encodeLE 8 (Nat.ofDigitChars 10 before 0) ++ encodeLE 8 (Nat.ofDigitChars 10 behind 0) ++
    List.replicate 16 (if behind = "COMMITS".toList then 1 else 0), by
      simp only [List.length_append, length_encodeLE, List.length_replicate]⟩

theorem plainTopicHash_asBytes {before behind : List Char} (hdash : '-' ∉ before)
    (hascii : ∀ char ∈ before ++ '-' :: behind, char.toNat < 256) :
    (plainTopicHash (asBytes (before ++ '-' :: behind))).val =
      encodeLE 8 (Nat.ofDigitChars 10 before 0) ++ encodeLE 8 (Nat.ofDigitChars 10 behind 0) ++
        List.replicate 16 (if behind = "COMMITS".toList then 1 else 0) := by
  have hother : ∀ char ∈ before, decide (char ≠ '-') = true := by
    intro char hchar
    rw [decide_eq_true_eq]
    rintro rfl
    exact hdash hchar
  have hbefore : (before ++ '-' :: behind).takeWhile (· ≠ '-') = before := by
    rw [List.takeWhile_append_of_pos hother]
    simp
  have hbehind : (before ++ '-' :: behind).drop (before.length + 1) = behind := by
    rw [← List.drop_drop, List.drop_left]
    rfl
  simp only [plainTopicHash, asText_asBytes hascii, hbefore, hbehind]

theorem plainTopicHash_roundText (round setId : UInt64) :
    (plainTopicHash (roundText round setId)).val =
      encodeLE 8 setId.toNat ++ encodeLE 8 round.toNat ++ List.replicate 16 0 := by
  have hdigits : Nat.toDigits 10 round.toNat ≠ "COMMITS".toList := by
    intro h
    have hmem : 'C' ∈ Nat.toDigits 10 round.toNat := by
      rw [h]
      decide
    exact absurd (Nat.isDigit_of_mem_toDigits (by decide) (by decide) hmem) (by decide)
  rw [roundText, plainTopicHash_asBytes (dash_notMem_digits _) (topic_ascii fun _ => digit_lt),
    Nat.ofDigitChars_ten_toDigits, Nat.ofDigitChars_ten_toDigits, if_neg hdigits]

theorem plainTopicHash_commitText (setId : UInt64) :
    (plainTopicHash (commitText setId)).val = encodeLE 8 setId.toNat ++
      encodeLE 8 (Nat.ofDigitChars 10 "COMMITS".toList 0) ++ List.replicate 16 1 := by
  have hascii : ("COMMITS".toList.all fun char => char.toNat < 256) = true := by decide
  have hchars : ∀ char ∈ "COMMITS".toList, char.toNat < 256 := fun char hchar =>
    of_decide_eq_true (List.all_eq_true.mp hascii char hchar)
  rw [commitText, show "-COMMITS".toList = '-' :: "COMMITS".toList from rfl,
    plainTopicHash_asBytes (dash_notMem_digits _) (topic_ascii hchars),
    Nat.ofDigitChars_ten_toDigits, if_pos rfl]

theorem encodeLE_toNat_inj {a b : UInt64} (h : encodeLE 8 a.toNat = encodeLE 8 b.toNat) :
    a = b := by
  have hvalue := congrArg valueLE h
  rw [valueLE_encodeLE 8 _ a.toNat_lt, valueLE_encodeLE 8 _ b.toNat_lt] at hvalue
  exact UInt64.toNat_inj.mp hvalue

theorem plainTopicHash_collisionFree : CollisionFree plainTopicHash := by
  intro text htext other hother h
  have hval := congrArg Subtype.val h
  rcases htext with ⟨round, setId, rfl⟩ | ⟨setId, rfl⟩ <;>
    rcases hother with ⟨round', setId', rfl⟩ | ⟨setId', rfl⟩ <;>
    simp only [plainTopicHash_roundText, plainTopicHash_commitText] at hval
  all_goals
    obtain ⟨hnumbers, hkind⟩ := List.append_inj' hval (by simp)
    obtain ⟨hset, hround⟩ := List.append_inj hnumbers (by simp)
  · rw [encodeLE_toNat_inj hset, encodeLE_toNat_inj hround]
  · exact absurd hkind (by decide)
  · exact absurd hkind (by decide)
  · rw [encodeLE_toNat_inj hset]

-- A prevote of two voters in round 3 of set 1, and a round that notes who has voted.
def pairVoters : VoterSet AuthorityId := .fromIter [(filled 32 1, 1), (filled 32 2, 1)]

def pairPrevote : Message := .prevote (filled 32 7) 5

def pairMessage : SignedMessage where
  message := pairPrevote
  signature := [1, 2].map fun voter =>
    signWith (filled 32 voter) (localizedPayload 3 1 pairPrevote)
  id := [filled 32 1, filled 32 2]

def pairPoll : VoteGate.Poll Unit where
  inputs := [(GossipMessage.encodeVote ⟨3, 1, pairMessage⟩, fun _ => .ok (some 5))]
  inputsEnd := none
  notifications := []
  notificationsEnd := none
  check := .ok none

def notingRound : VotingRound (List AuthorityId) Unit where
  base := filled 32 6
  isEqualOrDescendentOf _ _ := true
  importVote votes _ id _ := .ok (votes ++ [id])

theorem pairPoll_delivered : Delivered pairHost .checked plainTopicHash
    (messageTopic plainTopicHash 3 1) [.network pairPoll] := by
  intro input hinput item hitem
  obtain rfl : input = pairPoll := by simpa using hinput
  obtain rfl := List.mem_singleton.mp hitem
  exact ⟨⟨0, 3, 1⟩, by decide +kernel⟩

-- Every vote that a round gets from the network is by a voter and signed for that round and
-- set, whatever the bytes are, and there is an id for every signature.
theorem incoming_votes_authentic {Hd ρ ε : Type} {host : Host Hd} {build : Build}
    {hash : Bytes → H256} (hfree : CollisionFree hash) {round setId : UInt64}
    {polls : List (Incoming ε)}
    (hdelivered : Delivered host build hash (messageTopic hash round setId) polls)
    (voters : VoterSet AuthorityId) (voting : VotingRound ρ ε) (locals : List LocalKey)
    (votes : ρ) :
    (processIncoming voting voters locals round setId polls .new votes).2 ≠
        .error .indexOutOfBounds ∧
      ∀ vote ∈ (processIncoming voting voters locals round setId polls .new votes).1,
        vote.origin = .network → (voters.info vote.id).isSome ∧
          host.ed25519Verify vote.signature (localizedPayload round setId vote.message)
            vote.id = true := by
  have hsound : Sound (FromVoter host round setId voters)
      (processIncoming voting voters locals round setId polls .new votes) := by
    refine sound_processIncoming voting locals ?_ VoteGate.holds_new votes
    intro input hinput item hitem signed hsigned
    obtain ⟨rounds, hvalid⟩ := hdelivered input hinput item hitem
    exact checkedMessage_authentic hfree hvalid hsigned
  exact ⟨hsound.inBounds, hsound.passed⟩

theorem votes_of_pair_authentic :
    (processIncoming notingRound pairVoters [] 3 1 [.network pairPoll] .new []).1.map
        PassedVote.id = [filled 32 1, filled 32 2] ∧
      ∀ vote ∈ (processIncoming notingRound pairVoters [] 3 1 [.network pairPoll] .new []).1,
        vote.origin = .network → (pairVoters.info vote.id).isSome ∧
          pairHost.ed25519Verify vote.signature (localizedPayload 3 1 vote.message) vote.id =
            true :=
  ⟨by decide +kernel, (incoming_votes_authentic plainTopicHash_collisionFree pairPoll_delivered
    pairVoters notingRound [] []).2⟩

end Voter

end Yeeroot.Crfg
