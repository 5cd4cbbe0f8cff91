import Yeeroot.Crfg.NewChange
import Yeeroot.Runtime.Crfg

namespace Yeeroot.Crfg

open Scale Grandpa

-- The voters of a full node: the list that a block signals, aggregated.
def fullVoters (authorities : List (AuthorityId × UInt64)) : VoterSet AuthorityId :=
  VoterSet.fromIter (aggregateAuthorities authorities)

-- The voters of a light client: the list of the runtime as it is.
def lightVoters (authorities : List (AuthorityId × UInt64)) : VoterSet AuthorityId :=
  VoterSet.fromIter authorities

-- The list that the runtime stores after these calls. The genesis list is empty.
def storedAuthorities (infos : List SessionKey) : List (SessionKey × UInt64) :=
  infos.foldl nextAuthorities []

variable {Hd : Type}

structure FinalityProof (Hd : Type) where
  finalizationPath : List Hd
  justification : CrfgJustification Hd

-- What a light client takes from Substrate. `checkExecutionProof block header` is the proved
-- result of `CrfgApi_crfg_authorities` at the block.
structure LightHost (Hd : Type) where
  decodeProof : Bytes → Option (FinalityProof Hd)
  checkExecutionProof : H256 → Hd → Except ClientError Bytes

def isBlock (host : Host Hd) (header : Hd) (block : UInt64 × H256) : Bool :=
  host.headerNumber header = block.1 && host.headerHash header = block.2

def doCheckFinalityProof (host : Host Hd) (light : LightHost Hd) (parentHeader : Hd)
    (block : UInt64 × H256) (setId : UInt64) (remoteProof : Bytes) :
    Run (Except ClientError (List Hd)) :=
  match light.decodeProof remoteProof with
  | none => .ok (.error (.badJustification "failed to decode finality proof"))
  | some proof =>
    match proof.finalizationPath with
    | [] => .ok (.error (.badJustification "finality proof: finalized path is empty"))
    | first :: rest =>
      if isBlock host first block = false then
        .ok (.error (.badJustification
          "finality proof: block is not a part of finalized path"))
      else if isBlock host ((first :: rest).getLast (List.cons_ne_nil first rest))
          (proof.justification.commit.targetNumber,
            proof.justification.commit.targetHash) = false then
        .ok (.error (.badJustification
          "finality proof: target justification block is not a part of finalized path"))
      else
        match light.checkExecutionProof proof.justification.commit.targetHash parentHeader with
        | .error error => .ok (.error error)
        | .ok encoded =>
          match decodeVec decodeAuthority encoded with
          | none => .ok (.error (.badJustification
              "failed to decode CRFG authorities set proof"))
          | some (authorities, _) => do
            match ← proof.justification.verify host setId (lightVoters authorities) with
            | .error error => return .error error
            | .ok () => return .ok proof.finalizationPath

end Yeeroot.Crfg
