import Yeeroot.Crfg.Environment

namespace Yeeroot.Crfg

open Scale

-- A failed import, with the error whose text it carries.
inductive ConsensusError where
  | clientImport (error : Error)
  | voterGone

-- The result of an import and the commands for the voter. The assertion on authority set
-- changes comes after the block is final.
structure Imported (κ τ : Type) where
  node : Node κ τ
  finalized : Option Finalized
  commands : List VoterCommand
  result : Run (Except ConsensusError Unit)

-- The match of `import_justification` on the result of `finalize_block`.
def concludeImport {κ τ : Type} (voterAlive enactsChange : Bool) (outcome : FinalizeOutcome κ τ) :
    Imported κ τ :=
  match outcome.result with
  | .error (.voterCommand command) =>
    if voterAlive then ⟨outcome.node, outcome.finalized, [command], .ok (.ok ())⟩
    else ⟨outcome.node, outcome.finalized, [], .ok (.error .voterGone)⟩
  | .error (.error error) =>
    ⟨outcome.node, outcome.finalized, [], .ok (.error (.clientImport error))⟩
  | .ok () => ⟨outcome.node, outcome.finalized, [],
      if enactsChange then
        .error ⟨"returns Ok when no authority set change should be enacted; qed;"⟩
      else .ok (.ok ())⟩

def importJustification {κ ι τ Hd : Type} (env : Env κ ι τ Hd) (voterAlive : Bool) (hash : H256)
    (number : UInt64) (justification : Bytes) (enactsChange : Bool) (node : Node κ τ) :
    Run (Imported κ τ) := do
  match ← CrfgJustification.decodeAndVerify env.host node.authoritySet.setId justification
      node.authoritySet.voters with
  | .error error => return ⟨node, none, [], .ok (.error (.clientImport (.client error)))⟩
  | .ok just => do
    let outcome ← finalizeBlock env none hash number (.justification just) node
    return concludeImport voterAlive enactsChange outcome

end Yeeroot.Crfg
