import Yeeroot.Crfg.Gossip

namespace Yeeroot.Crfg.Voter

open Scale Grandpa Gossip

structure LocalKey where
  sign : Bytes → Signature
  id : AuthorityId

-- `OutgoingMessages::start_send`: one message with a signature of each local key.
def signLocally (locals : List LocalKey) (round setId : UInt64) (message : Message) :
    SignedMessage where
  message := message
  signature := locals.map fun key => key.sign (localizedPayload round setId message)
  id := locals.map LocalKey.id

inductive Origin where
  | own
  | network
  deriving DecidableEq

structure PassedVote where
  origin : Origin
  message : Message
  id : AuthorityId
  signature : Signature

-- Why the round stops: `id[i]` is not there, or an import or a stream fails.
inductive Halt (ε : Type) where
  | indexOutOfBounds
  | failed (error : ε)

-- The round that a voter runs. `importVote` is `import_prevote` or `import_precommit`.
structure VotingRound (ρ ε : Type) where
  base : H256
  isEqualOrDescendentOf : H256 → H256 → Bool
  importVote : ρ → Message → AuthorityId → Signature → Except ε ρ

section ProcessIncoming

variable {ρ ε : Type} (voting : VotingRound ρ ε)

-- The votes that were passed on so far are kept when the rest stops.
def andThen {α : Type} (first : List PassedVote × Except (Halt ε) ρ)
    (next : ρ → List PassedVote × Except (Halt ε) α) : List PassedVote × Except (Halt ε) α :=
  match first.2 with
  | .error halt => (first.1, .error halt)
  | .ok votes => (first.1 ++ (next votes).1, (next votes).2)

def importSignatures (origin : Origin) (signed : SignedMessage) :
    List Nat → ρ → List PassedVote × Except (Halt ε) ρ
  | [], votes => ([], .ok votes)
  | i :: indices, votes =>
    match signed.id[i]?, signed.signature[i]? with
    | some id, some signature => andThen
        ([⟨origin, signed.message, id, signature⟩],
          (voting.importVote votes signed.message id signature).mapError .failed)
        (importSignatures origin signed indices)
    | _, _ => ([], .error .indexOutOfBounds)

def importMessage (origin : Origin) (signed : SignedMessage) (votes : ρ) :
    List PassedVote × Except (Halt ε) ρ :=
  if voting.isEqualOrDescendentOf voting.base signed.message.target.1 then
    importSignatures voting origin signed (List.range signed.signature.length) votes
  else ([], .ok votes)

-- The two streams that are selected from: what this node signs, and the network behind the
-- gate.
inductive Incoming (ε : Type) where
  | own (message : Message)
  | network (input : VoteGate.Poll ε)

-- `process_incoming`, called again and again: a call goes on until a poll gives nothing, and
-- the next one polls again.
def processIncoming (voters : VoterSet AuthorityId) (locals : List LocalKey)
    (round setId : UInt64) :
    List (Incoming ε) → VoteGate → ρ → List PassedVote × Except (Halt ε) (VoteGate × ρ)
  | [], gate, votes => ([], .ok (gate, votes))
  | .own message :: polls, gate, votes =>
    andThen (importMessage voting .own (signLocally locals round setId message) votes)
      (processIncoming voters locals round setId polls gate)
  | .network input :: polls, gate, votes =>
    match poll (VoteGate.kind voters) input gate with
    | .error error => ([], .error (.failed error))
    | .ok (gate, .ready signed) =>
      andThen (importMessage voting .network signed votes)
        (processIncoming voters locals round setId polls gate)
    | .ok (gate, _) => processIncoming voters locals round setId polls gate votes

end ProcessIncoming

end Yeeroot.Crfg.Voter
