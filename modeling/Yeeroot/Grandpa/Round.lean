import Yeeroot.Grandpa.VoteGraph

namespace Yeeroot.Grandpa

abbrev VoteWeight := Bitfield

instance : VoteValue VoteWeight where
  default := .blank
  addAssign left right :=
    Run.expect (left.merge right).toOption "both bitfields set to same length; qed"

-- Equivocators count as voting for everything.
def VoteWeight.totalWeight {Id : Type} [DecidableEq Id] (weight : VoteWeight)
    (equivocators : Bitfield) (voters : VoterSet Id) : Run (UInt64 × UInt64) := do
  let withEquivocators ← Run.expect (Bitfield.merge weight equivocators).toOption
    "this function is never invoked with equivocators of different canonicality; qed"
  return withEquivocators.totalWeight fun idx => (voters.weightByIndex idx).getD 0

inductive VoteMultiplicity (Vote S : Type) where
  | single (vote : Vote) (signature : S)
  | equivocated (first second : Vote × S)

def VoteMultiplicity.contains {Vote S : Type} [DecidableEq Vote] [DecidableEq S]
    (votes : VoteMultiplicity Vote S) (vote : Vote) (signature : S) : Bool :=
  match votes with
  | .single v s => v = vote && s = signature
  | .equivocated (v1, s1) (v2, s2) =>
    (v1 = vote && s1 = signature) || (v2 = vote && s2 = signature)

structure VoteTracker (Id Vote S : Type) where
  votes : AList fun _ : Id => VoteMultiplicity Vote S
  currentWeight : UInt64

namespace VoteTracker

variable {Id Vote S : Type} [DecidableEq Id] [DecidableEq Vote] [DecidableEq S]

def new : VoteTracker Id Vote S := ⟨∅, 0⟩

-- A vote that was seen, and a third one, are not tracked.
def addVote (tracker : VoteTracker Id Vote S) (id : Id) (vote : Vote) (signature : S)
    (weight : UInt64) : Option (VoteMultiplicity Vote S × VoteTracker Id Vote S) :=
  match tracker.votes.lookup id with
  | none =>
    let votes := .single vote signature
    some (votes, ⟨tracker.votes.insert id votes, tracker.currentWeight + weight⟩)
  | some votes =>
    if votes.contains vote signature then none
    else
      match votes with
      | .single v s =>
        let votes := .equivocated (v, s) (vote, signature)
        some (votes, { tracker with votes := tracker.votes.insert id votes })
      | .equivocated _ _ => none

end VoteTracker

-- A round without prevotes, as `validate_commit` has it: `update` returns at once there,
-- since no prevote was counted.
structure Round (Id H S : Type) where
  graph : VoteGraph H VoteWeight
  precommit : VoteTracker Id (Precommit H) S
  voters : VoterSet Id
  bitfieldContext : BitfieldContext

namespace Round

variable {Id H S : Type} [DecidableEq Id] [DecidableEq H] [DecidableEq S]

def new (voters : VoterSet Id) (base : H × UInt64) : Round Id H S where
  graph := VoteGraph.new base.1 base.2
  precommit := VoteTracker.new
  voters := voters
  bitfieldContext := ⟨voters.voters.length, .blank⟩

-- Whether the vote is an equivocation, and the round after it.
def importPrecommit (order : List H → List H) (chain : Chain H) (round : Round Id H S)
    (vote : Precommit H) (signer : Id) (signature : S) :
    Run (Except Error (Bool × Round Id H S)) :=
  match round.voters.info signer with
  | none => .ok (.ok (false, round))
  | some info =>
    match round.precommit.addVote signer vote signature info.weight with
    | none => .ok (.ok (false, round))
    | some (.single vote _, precommit) => do
      let weight ← Run.expect (round.bitfieldContext.precommitBitfield info).toOption
        "info is instantiated from same voter set as context; qed"
      match ← VoteGraph.insert order chain round.graph vote.targetHash vote.targetNumber
          weight with
      | .error error => return .error error
      | .ok graph => return .ok (false, { round with graph := graph, precommit := precommit })
    | some (.equivocated _ _, precommit) => do
      let context ← Run.expect (round.bitfieldContext.equivocatedPrecommit info).toOption
        "info is instantiated from same voter set as bitfield; qed"
      return .ok (true, { round with precommit := precommit, bitfieldContext := context })

-- Nothing was memoized yet, so the search starts at the base.
def precommitGhost (order : List H → List H) (round : Round Id H S) :
    Run (Option (H × UInt64)) :=
  if round.voters.threshold ≤ round.precommit.currentWeight then
    VoteGraph.findGhost (fun weight => do
      let (_, precommit) ←
        weight.totalWeight round.bitfieldContext.equivocators round.voters
      return decide (round.voters.threshold ≤ precommit)) order round.graph none
  else .ok none

end Round

section ValidateCommit

variable {Id H S : Type} [DecidableEq Id] [DecidableEq H] [DecidableEq S]
variable (order : List H → List H) (chain : Chain H)

-- The loop over the precommits; `none` stands for a voter's second equivocation.
def importPrecommits : List (SignedPrecommit H S Id) → List Id → Round Id H S →
    Run (Except Error (Option (Round Id H S)))
  | [], _, round => .ok (.ok (some round))
  | signed :: precommits, equivocated, round => do
    match ← round.importPrecommit order chain signed.precommit signed.id signed.signature with
    | .error error => return .error error
    | .ok (false, round) => importPrecommits precommits equivocated round
    | .ok (true, round) =>
      if signed.id ∈ equivocated then return .ok none
      else importPrecommits precommits (signed.id :: equivocated) round

def validateCommit (commit : Commit H S Id) (voters : VoterSet Id) :
    Run (Except Error (Option (H × UInt64))) := do
  let inOrder ← commit.precommits.allM fun signed =>
    if commit.targetNumber ≤ signed.precommit.targetNumber then
      chain.isEqualOrDescendentOf commit.targetHash signed.precommit.targetHash
    else pure false
  if inOrder then do
    let round := Round.new voters (commit.targetHash, commit.targetNumber)
    match ← importPrecommits order chain commit.precommits [] round with
    | .error error => return .error error
    | .ok none => return .ok none
    | .ok (some round) => do
      let ghost ← round.precommitGhost order
      return .ok ghost
  else return .ok none

end ValidateCommit

end Yeeroot.Grandpa
