import Mathlib.Data.Set.Operations
import Yeeroot.Crfg.Justification
import Yeeroot.Crfg.UntilImported
import Yeeroot.Overflow

namespace Yeeroot.Crfg

open Scale Grandpa

def Message.target : Message → H256 × UInt64
  | .prevote hash number => (hash, number)
  | .precommit vote => (vote.targetHash, vote.targetNumber)

namespace Gossip

structure SignedMessage where
  message : Message
  signature : List Signature
  id : List AuthorityId

structure VoteOrPrecommitMessage where
  round : UInt64
  setId : UInt64
  message : SignedMessage

structure CompactCommit where
  targetHash : H256
  targetNumber : UInt64
  precommits : List (Precommit H256)
  authData : List (Signature × AuthorityId)

structure FullCommitMessage where
  round : UInt64
  setId : UInt64
  message : CompactCommit

inductive GossipMessage where
  | voteOrPrecommit (message : VoteOrPrecommitMessage)
  | commit (message : FullCommitMessage)

def VoteOrPrecommitMessage.encode (full : VoteOrPrecommitMessage) : Bytes :=
  encodeLE 8 full.round.toNat ++ encodeLE 8 full.setId.toNat ++ full.message.message.encode ++
    encodeVec Subtype.val full.message.signature ++ encodeVec Subtype.val full.message.id

def decodePrecommit (input : Bytes) : Option (Precommit H256 × Bytes) := do
  let (targetHash, input) ← readFixed 32 input
  let (targetNumber, input) ← decodeU64 input
  return (⟨targetHash, targetNumber⟩, input)

def decodeMessage (input : Bytes) : Option (Message × Bytes) := do
  let (variant, input) ← readByte input
  let (vote, input) ← decodePrecommit input
  if variant = 0 then return (.prevote vote.targetHash vote.targetNumber, input)
  else if variant = 1 then return (.precommit vote, input)
  else none

def decodeSignedMessage (input : Bytes) : Option (SignedMessage × Bytes) := do
  let (message, input) ← decodeMessage input
  let (signature, input) ← decodeVec (readFixed 64) input
  let (id, input) ← decodeVec (readFixed 32) input
  return (⟨message, signature, id⟩, input)

def decodeCompactCommit (input : Bytes) : Option (CompactCommit × Bytes) := do
  let (target, input) ← decodePrecommit input
  let (precommits, input) ← decodeVec decodePrecommit input
  let (authData, input) ← decodeVec (fun input => do
    let (signature, input) ← readFixed 64 input
    let (id, input) ← readFixed 32 input
    return ((signature, id), input)) input
  return (⟨target.targetHash, target.targetNumber, precommits, authData⟩, input)

-- Bytes after the message are ignored.
def GossipMessage.decode (input : Bytes) : Option GossipMessage := do
  let (variant, input) ← readByte input
  if variant = 0 then do
    let (round, input) ← decodeU64 input
    let (setId, input) ← decodeU64 input
    let (message, _) ← decodeSignedMessage input
    return .voteOrPrecommit ⟨round, setId, message⟩
  else if variant = 1 then do
    let (round, input) ← decodeU64 input
    let (setId, input) ← decodeU64 input
    let (message, _) ← decodeCompactCommit input
    return .commit ⟨round, setId, message⟩
  else none

def GossipMessage.encodeVote (full : VoteOrPrecommitMessage) : Bytes := 0 :: full.encode

section Topics

def asBytes (text : List Char) : Bytes := text.map fun char => UInt8.ofNat char.toNat

def roundText (round setId : UInt64) : Bytes :=
  asBytes (Nat.toDigits 10 setId.toNat ++ '-' :: Nat.toDigits 10 round.toNat)

def commitText (setId : UInt64) : Bytes :=
  asBytes (Nat.toDigits 10 setId.toNat ++ "-COMMITS".toList)

variable (hash : Bytes → H256)

def messageTopic (round setId : UInt64) : H256 := hash (roundText round setId)

def commitTopic (setId : UInt64) : H256 := hash (commitText setId)

-- No two texts of topics have the same hash.
def CollisionFree : Prop :=
  Set.InjOn hash ({text | ∃ round setId, roundText round setId = text} ∪ Set.range commitText)

end Topics

def MESSAGE_ROUND_TOLERANCE : UInt64 := 2

structure TopicTracker where
  minLiveRound : UInt64
  maxRound : UInt64
  setId : UInt64

def TopicTracker.isExpired (build : Build) (rounds : TopicTracker) (round setId : UInt64) :
    Run Bool :=
  if setId < rounds.setId then .ok true
  else do
    let next ← build.add64 rounds.setId 1
    if setId = next then return decide (MESSAGE_ROUND_TOLERANCE < round)
    else if setId = rounds.setId then
      let oldest := if rounds.minLiveRound < MESSAGE_ROUND_TOLERANCE then 0
        else rounds.minLiveRound - MESSAGE_ROUND_TOLERANCE
      return decide (round < oldest)
    else return true

inductive ValidationResult where
  | valid (topic : H256)
  | invalid
  | expired
  deriving DecidableEq

section Validate

variable {Hd : Type} (host : Host Hd) (build : Build) (hash : Bytes → H256)
  (rounds : TopicTracker)

def validateRoundMessage (full : VoteOrPrecommitMessage) : Run ValidationResult := do
  if ← rounds.isExpired build full.round full.setId then return .expired
  else if checkMessageSig host full.message.message full.message.id full.message.signature
      full.round full.setId then
    return .valid (messageTopic hash full.round full.setId)
  else return .invalid

def validateCommitMessage (full : FullCommitMessage) : Run ValidationResult := do
  if ← rounds.isExpired build full.round full.setId then return .expired
  else if full.message.precommits.length ≠ full.message.authData.length ∨
      full.message.precommits = [] then return .invalid
  else if (full.message.precommits.zip full.message.authData).all fun (precommit, signature, id) =>
      checkMessageSig host (.precommit precommit) [id] [signature] full.round full.setId then
    return .valid (commitTopic hash full.setId)
  else return .invalid

def validate (data : Bytes) : Run ValidationResult :=
  match GossipMessage.decode data with
  | some (.voteOrPrecommit message) => validateRoundMessage host build hash rounds message
  | some (.commit message) => validateCommitMessage host build hash rounds message
  | none => .ok .invalid

end Validate

-- One item of `checked_message_stream`, which skips what it cannot read, messages of others
-- than the voters, and commits.
def checkedMessage (voters : VoterSet AuthorityId) (raw : Bytes) : Option SignedMessage :=
  match GossipMessage.decode raw with
  | some (.voteOrPrecommit message) =>
    if message.message.id.all fun id => (voters.info id).isSome then some message.message
    else none
  | _ => none

-- `UntilVoteTargetImported`: votes wait until the block that they are for is known.
structure VoteGate where
  pending : H256 → List SignedMessage
  ready : List SignedMessage

namespace VoteGate

variable {ε : Type}

def new : VoteGate := ⟨fun _ => [], []⟩

abbrev BlockNumber (ε : Type) := H256 → Except ε (Option UInt64)

def scheduleWait (blockNumber : BlockNumber ε) (gate : VoteGate) (signed : SignedMessage) :
    Except ε VoteGate := do
  let (targetHash, targetNumber) := signed.message.target
  match ← blockNumber targetHash with
  | some number =>
    if number ≠ targetNumber then return gate
    else return { gate with ready := gate.ready ++ [signed] }
  | none => return { gate with
      pending := Function.update gate.pending targetHash (gate.pending targetHash ++ [signed]) }

def waitCompleted (canonNumber : UInt64) (signed : SignedMessage) : Option SignedMessage :=
  if canonNumber ≠ signed.message.target.2 then none else some signed

def completeHash (gate : VoteGate) (block : H256 × UInt64) : VoteGate where
  pending := Function.update gate.pending block.1 []
  ready := gate.ready ++ (gate.pending block.1).filterMap (waitCompleted block.2)

-- Bytes come in through `checked_message_stream`.
def kind (voters : VoterSet AuthorityId) :
    MessageKind ε H256 VoteGate Bytes (BlockNumber ε) (H256 × UInt64) SignedMessage where
  scheduleWait blockNumber raw gate :=
    match checkedMessage voters raw with
    | none => .ok gate
    | some signed => scheduleWait blockNumber gate signed
  status blockNumber hash := do return (← blockNumber hash).map (hash, ·)
  completeHash := completeHash
  ready gate := gate.ready
  withReady gate ready := { gate with ready := ready }

abbrev Poll (ε : Type) := PollOf ε H256 Bytes (BlockNumber ε) (H256 × UInt64)

end VoteGate

end Gossip

end Yeeroot.Crfg
