import Mathlib.Data.List.AList
import Yeeroot.Primitives

namespace Yeeroot.Grandpa

-- Block numbers are `u64` on this chain.
structure Precommit (H : Type) where
  targetHash : H
  targetNumber : UInt64
  deriving DecidableEq

structure SignedPrecommit (H S Id : Type) where
  precommit : Precommit H
  signature : S
  id : Id

structure Commit (H S Id : Type) where
  targetHash : H
  targetNumber : UInt64
  precommits : List (SignedPrecommit H S Id)

inductive Error where
  | notDescendent
  deriving DecidableEq

-- `ancestry base block` runs from the parent of the block back to the base, without it.
structure Chain (H : Type) where
  ancestry : H → H → Run (Except Error (List H))

def Chain.isEqualOrDescendentOf {H : Type} [DecidableEq H] (chain : Chain H) (base block : H) :
    Run Bool :=
  if base = block then .ok true
  else do
    match ← chain.ancestry base block with
    | .ok _ => return true
    | .error .notDescendent => return false

def threshold (totalWeight : UInt64) : UInt64 :=
  let faulty := (if totalWeight = 0 then 0 else totalWeight - 1) / 3
  totalWeight - faulty

structure VoterInfo where
  canonIdx : Nat
  weight : UInt64

structure VoterSet (Id : Type) where
  weights : AList fun _ : Id => VoterInfo
  voters : List (Id × UInt64)
  threshold : UInt64

namespace VoterSet

variable {Id : Type} [DecidableEq Id]

-- Of two entries for one voter the map keeps the later one, the total counts both.
def fromIter (voters : List (Id × UInt64)) : VoterSet Id where
  weights := voters.zipIdx.foldl
    (fun weights ((id, weight), idx) => weights.insert id ⟨idx, weight⟩) ∅
  voters := voters
  threshold := Grandpa.threshold ((voters.map Prod.snd).foldl (· + ·) 0)

def info (set : VoterSet Id) (id : Id) : Option VoterInfo := set.weights.lookup id

def weightByIndex (set : VoterSet Id) (idx : Nat) : Option UInt64 :=
  (set.voters[idx]?).map Prod.snd

end VoterSet

inductive BitfieldError where
  | indexOutOfBounds (idx nVoters : Nat)
  | lengthMismatch (left right : Nat)

-- The bits of the words, from the left: two for each voter, prevote and precommit.
inductive Bitfield where
  | blank
  | live (bits : List Bool)
  deriving DecidableEq

namespace Bitfield

-- Whole words of 64 bits.
def withVoters (nVoters : Nat) : List Bool :=
  List.replicate ((nVoters * 2 + 63) / 64 * 64) false

def setLiveBit (bits : List Bool) (bitIdx nVoters : Nat) : Except BitfieldError (List Bool) :=
  if bitIdx < bits.length then .ok (bits.set bitIdx true)
  else .error (.indexOutOfBounds (bitIdx / 2) nVoters)

def setBit (field : Bitfield) (bit nVoters : Nat) : Except BitfieldError Bitfield := do
  let bits := match field with
    | .blank => withVoters nVoters
    | .live bits => bits
  let bits ← setLiveBit bits bit nVoters
  return .live bits

def merge : Bitfield → Bitfield → Except BitfieldError Bitfield
  | .blank, .blank => .ok .blank
  | .live bits, .blank => .ok (.live bits)
  | .blank, .live bits => .ok (.live bits)
  | .live a, .live b =>
    if a.length ≠ b.length then .error (.lengthMismatch (a.length / 64) (b.length / 64))
    else .ok (.live (List.zipWith (· || ·) a b))

def weigh (lookup : Nat → UInt64) : Nat → List Bool → UInt64 × UInt64
  | idx, prevoted :: precommitted :: bits =>
    let (prevote, precommit) := weigh lookup (idx + 1) bits
    ((if prevoted then lookup idx else 0) + prevote,
      (if precommitted then lookup idx else 0) + precommit)
  | _, _ => (0, 0)

def totalWeight (field : Bitfield) (lookup : Nat → UInt64) : UInt64 × UInt64 :=
  match field with
  | .blank => (0, 0)
  | .live bits => weigh lookup 0 bits

end Bitfield

-- `bitfield::Shared`: the size of the fields of one round and its equivocators.
structure BitfieldContext where
  nVoters : Nat
  equivocators : Bitfield

namespace BitfieldContext

def precommitBitfield (context : BitfieldContext) (info : VoterInfo) :
    Except BitfieldError Bitfield :=
  Bitfield.setBit .blank (info.canonIdx * 2 + 1) context.nVoters

def equivocatedPrecommit (context : BitfieldContext) (info : VoterInfo) :
    Except BitfieldError BitfieldContext := do
  let equivocators ← context.equivocators.setBit (info.canonIdx * 2 + 1) context.nVoters
  return { context with equivocators := equivocators }

end BitfieldContext

end Yeeroot.Grandpa
