import Mathlib.Data.Finset.Dedup
import Yeeroot.Grandpa.Round

namespace Yeeroot.Crfg

open Scale Grandpa

abbrev AuthorityId := FixedBytes 32

inductive ClientError where
  | badJustification (message : String)
  | other (message : String)
  deriving DecidableEq

-- What a node takes from Substrate for headers and signatures. `headOrder` is the order
-- in which a `HashSet` of vote heads is iterated.
structure Host (Hd : Type) where
  headerCodec : Codec Hd
  headerHash : Hd → H256
  parentHash : Hd → H256
  headerNumber : Hd → UInt64
  ed25519Verify : Signature → Bytes → AuthorityId → Bool
  headOrder : List H256 → List H256

inductive Message where
  | prevote (targetHash : H256) (targetNumber : UInt64)
  | precommit (vote : Precommit H256)

def Message.encode : Message → Bytes
  | .prevote hash number => 0 :: (hash.val ++ encodeLE 8 number.toNat)
  | .precommit vote => 1 :: (vote.targetHash.val ++ encodeLE 8 vote.targetNumber.toNat)

def localizedPayload (round setId : UInt64) (message : Message) : Bytes :=
  message.encode ++ encodeLE 8 round.toNat ++ encodeLE 8 setId.toNat

section Justification

variable {Hd : Type} (host : Host Hd)

def checkMessageSig (message : Message) (id : List AuthorityId) (signature : List Signature)
    (round setId : UInt64) : Bool :=
  if id.length ≠ signature.length then false
  else (id.zip signature).all fun (id, signature) =>
    host.ed25519Verify signature (localizedPayload round setId message) id

abbrev CrfgCommit := Commit H256 Signature AuthorityId

structure CrfgJustification (Hd : Type) where
  round : UInt64
  commit : CrfgCommit
  votesAncestries : List Hd

def encodeSignedPrecommit (signed : SignedPrecommit H256 Signature AuthorityId) : Bytes :=
  signed.precommit.targetHash.val ++ encodeLE 8 signed.precommit.targetNumber.toNat ++
    signed.signature.val ++ signed.id.val

def decodeSignedPrecommit (input : Bytes) :
    Option (SignedPrecommit H256 Signature AuthorityId × Bytes) := do
  let (hash, input) ← readFixed 32 input
  let (number, input) ← decodeU64 input
  let (signature, input) ← readFixed 64 input
  let (id, input) ← readFixed 32 input
  return (⟨⟨hash, number⟩, signature, id⟩, input)

namespace CrfgJustification

def encode (just : CrfgJustification Hd) : Bytes :=
  encodeLE 8 just.round.toNat ++ just.commit.targetHash.val ++
    encodeLE 8 just.commit.targetNumber.toNat ++
    encodeVec encodeSignedPrecommit just.commit.precommits ++
    encodeVec host.headerCodec.encode just.votesAncestries

-- Bytes after the justification are ignored.
def decode (input : Bytes) : Option (CrfgJustification Hd) := do
  let (round, input) ← decodeU64 input
  let (targetHash, input) ← readFixed 32 input
  let (targetNumber, input) ← decodeU64 input
  let (precommits, input) ← decodeVec decodeSignedPrecommit input
  let (votesAncestries, _) ← decodeVec host.headerCodec.decode input
  return ⟨round, ⟨targetHash, targetNumber, precommits⟩, votesAncestries⟩

end CrfgJustification

abbrev AncestryChain (Hd : Type) := AList fun _ : H256 => Hd

namespace AncestryChain

def new (headers : List Hd) : AncestryChain Hd :=
  headers.foldl (fun ancestry header => ancestry.insert (host.headerHash header) header) ∅

-- `route` ends with the current hash; the base is removed from it at the end.
def walk (ancestry : AncestryChain Hd) (base : H256) :
    Nat → H256 → List H256 → Run (Except Grandpa.Error (List H256))
  | fuel, current, route =>
    if current = base then .ok (.ok route.dropLast)
    else
      match fuel with
      | 0 => unending
      | fuel + 1 =>
        match ancestry.lookup current with
        | none => .ok (.error .notDescendent)
        | some header =>
          let parent := host.parentHash header
          walk ancestry base fuel parent (route ++ [parent])

def chain (ancestry : AncestryChain Hd) : Chain H256 where
  ancestry base block := walk host ancestry base (ancestry.keys.length + 1) block []

end AncestryChain

namespace CrfgJustification

variable (just : CrfgJustification Hd) (setId : UInt64)

-- The loop of `verify`: the blocks on the way from the target to each precommit.
def visitedHashes (chain : Chain H256) :
    List (SignedPrecommit H256 Signature AuthorityId) → List H256 →
      Run (Except ClientError (List H256))
  | [], visited => .ok (.ok visited)
  | signed :: precommits, visited =>
    if checkMessageSig host (.precommit signed.precommit) [signed.id] [signed.signature]
        just.round setId = false then
      .ok (.error (.badJustification "invalid signature for precommit in CRFG justification"))
    else if just.commit.targetHash = signed.precommit.targetHash then
      visitedHashes chain precommits visited
    else do
      match ← chain.ancestry just.commit.targetHash signed.precommit.targetHash with
      | .ok route =>
        visitedHashes chain precommits (visited ++ signed.precommit.targetHash :: route)
      | .error .notDescendent =>
        return .error
          (.badJustification "invalid precommit ancestry proof in CRFG justification")

def verify (voters : VoterSet AuthorityId) : Run (Except ClientError Unit) := do
  let chain := (AncestryChain.new host just.votesAncestries).chain host
  match ← validateCommit host.headOrder chain just.commit voters with
  | .ok (some _) => do
    match ← just.visitedHashes host setId chain just.commit.precommits [] with
    | .error error => return .error error
    | .ok visited =>
      if visited.toFinset = (just.votesAncestries.map host.headerHash).toFinset then
        return .ok ()
      else return .error (.badJustification
        "invalid precommit ancestries in CRFG justification with unused headers")
  | _ => return .error (.badJustification "invalid commit in CRFG justification")

def decodeAndVerify (encoded : Bytes) (voters : VoterSet AuthorityId) :
    Run (Except ClientError (CrfgJustification Hd)) :=
  match decode host encoded with
  | none => .ok (.error (.badJustification "failed to decode CRFG justification"))
  | some just => do
    match ← just.verify host setId voters with
    | .error error => return .error error
    | .ok () => return .ok just

end CrfgJustification

-- `from_commit`'s inner loop. The numbers of stored headers fall along the parents, so a
-- walk has fewer steps than there are numbers.
def routeHeaders (header : H256 → Except ClientError (Option Hd)) (targetHash : H256)
    (targetNumber : UInt64) :
    Nat → H256 → List (H256 × Hd) → Run (Except ClientError (List (H256 × Hd)))
  | fuel, current, found =>
    if current = targetHash then .ok (.ok found)
    else
      match fuel with
      | 0 => unending
      | fuel + 1 =>
        match header current with
        | .error error => .ok (.error error)
        | .ok none => .ok (.error (.badJustification "invalid precommits for target commit"))
        | .ok (some currentHeader) =>
          if host.headerNumber currentHeader ≤ targetNumber then
            .ok (.error (.badJustification "invalid precommits for target commit"))
          else
            routeHeaders header targetHash targetNumber fuel (host.parentHash currentHeader)
              (if current ∈ found.map Prod.fst then found
                else found ++ [(current, currentHeader)])

def precommitHeaders (header : H256 → Except ClientError (Option Hd)) (commit : CrfgCommit) :
    List (SignedPrecommit H256 Signature AuthorityId) → List (H256 × Hd) →
      Run (Except ClientError (List (H256 × Hd)))
  | [], found => .ok (.ok found)
  | signed :: precommits, found => do
    match ← routeHeaders host header commit.targetHash commit.targetNumber (2 ^ 64)
        signed.precommit.targetHash found with
    | .error error => return .error error
    | .ok found => precommitHeaders header commit precommits found

def CrfgJustification.fromCommit (header : H256 → Except ClientError (Option Hd))
    (round : UInt64) (commit : CrfgCommit) :
    Run (Except ClientError (CrfgJustification Hd)) := do
  match ← precommitHeaders host header commit commit.precommits [] with
  | .error error => return .error error
  | .ok found => return .ok ⟨round, commit, found.map Prod.snd⟩

end Justification

end Yeeroot.Crfg
