import Yeeroot.Grandpa.Voters

namespace Yeeroot.Grandpa

-- What votes are on the graph: `Default` and `AddAssign`, which may panic.
class VoteValue (V : Type) where
  default : V
  addAssign : V → V → Run V

-- Ancestors run from the parent back to the vote-node before this one, inclusive.
structure Entry (H V : Type) where
  number : UInt64
  ancestors : List H
  descendents : List H
  cumulativeVote : V

namespace Entry

variable {H V : Type}

def ancestorBlock (entry : Entry H V) (number : UInt64) : Option H :=
  if entry.number ≤ number then none
  else entry.ancestors[(entry.number - number - 1).toNat]?

def inDirectAncestry [DecidableEq H] (entry : Entry H V) (hash : H) (number : UInt64) :
    Option Bool :=
  (entry.ancestorBlock number).map fun ancestor => decide (ancestor = hash)

def ancestorNode (entry : Entry H V) : Option H := entry.ancestors.getLast?

-- A block that the search is held to lies on the edge to this node.
def follows [DecidableEq H] (entry : Entry H V) (constrain : Option (H × UInt64)) : Bool :=
  match constrain with
  | some (hash, number) => (entry.inDirectAncestry hash number).getD false
  | none => true

end Entry

abbrev Entries (H V : Type) := AList fun _ : H => Entry H V

structure VoteGraph (H V : Type) where
  entries : Entries H V
  heads : List H
  base : H
  baseNumber : UInt64

-- A walk over the entries that is longer than they are many meets one of them again and
-- does not end.
def unending {α : Type} : Run α := .error ⟨"does not return"⟩

namespace VoteGraph

variable {H V : Type} [DecidableEq H] [VoteValue V]

def new (baseHash : H) (baseNumber : UInt64) : VoteGraph H V where
  entries := AList.singleton baseHash ⟨baseNumber, [], [], VoteValue.default⟩
  heads := [baseHash]
  base := baseHash
  baseNumber := baseNumber

-- One head's walk back. Every step visits another entry, so the fuel is enough.
def searchBack (entries : Entries H V) (hash : H) (number : UInt64) :
    Nat → H → List H × List H → List H × List H
  | 0, _, found => found
  | fuel + 1, head, (visited, containing) =>
    match entries.lookup head with
    | none => (visited, containing)
    | some entry =>
      if head ∈ visited then (visited, containing)
      else
        match entry.inDirectAncestry hash number with
        | some true => (head :: visited, containing ++ [head])
        | some false => (head :: visited, containing)
        | none =>
          match entry.ancestorNode with
          | some prev =>
            searchBack entries hash number fuel prev (head :: visited, containing)
          | none => (head :: visited, containing)

-- The heads are a `HashSet`: `order` is the order in which it is iterated.
def findContainingNodes (order : List H → List H) (graph : VoteGraph H V) (hash : H)
    (number : UInt64) : Option (List H) :=
  if hash ∈ graph.entries then none
  else
    let fuel := graph.entries.keys.length + 1
    some ((order graph.heads).foldl (fun found head =>
      searchBack graph.entries hash number fuel head found) ([], [])).2

-- The step of the fold in `introduce_branch`: one node's edge is cut at the new node.
def cutEdge (ancestorNumber : UInt64) :
    Entries H V × Option (Entry H V × Option H) → H →
      Run (Entries H V × Option (Entry H V × Option H))
  | (entries, produced), descendent => do
    let entry ← Run.expect (entries.lookup descendent)
      "this function only invoked with keys of vote-nodes; qed"
    if entry.number < ancestorNumber then
      .error ⟨"this function only invoked with direct ancestors; qed"⟩
    else do
      let offset := (entry.number - ancestorNumber).toNat
      if entry.ancestors.length < offset then .error ⟨"assertion failed: start <= end"⟩
      else do
        let (newEntry, prevAncestor) := produced.getD
          (⟨ancestorNumber, entry.ancestors.drop offset, [], VoteValue.default⟩,
            entry.ancestorNode)
        let vote ← VoteValue.addAssign newEntry.cumulativeVote entry.cumulativeVote
        return (entries.insert descendent
            { entry with ancestors := entry.ancestors.take offset },
          some ({ newEntry with
              descendents := newEntry.descendents ++ [descendent]
              cumulativeVote := vote }, prevAncestor))

def introduceBranch (graph : VoteGraph H V) (descendents : List H) (ancestorHash : H)
    (ancestorNumber : UInt64) : Run (VoteGraph H V) := do
  let (entries, produced) ← descendents.foldlM (cutEdge ancestorNumber) (graph.entries, none)
  match produced with
  | none => return { graph with entries := entries }
  | some (newEntry, prevAncestor) => do
    let entries ← match prevAncestor with
      | none => pure entries
      | some prev => do
        let node ← Run.expect (entries.lookup prev)
          "Prior ancestor is referenced from a node; qed"
        let kept := node.descendents.filter fun hash => hash ∉ newEntry.descendents
        pure (entries.insert prev { node with descendents := kept ++ [ancestorHash] })
    if ancestorHash ∈ entries then
      .error ⟨"thus function is only invoked when there is no entry for the ancestor already; qed"⟩
    else return { graph with entries := entries.insert ancestorHash newEntry }

def append (chain : Chain H) (graph : VoteGraph H V) (hash : H) (number : UInt64) :
    Run (Except Error (VoteGraph H V)) := do
  match ← chain.ancestry graph.base hash with
  | .error error => return .error error
  | .ok route => do
    let ancestry := route ++ [graph.base]
    -- The first ancestor that is a vote-node.
    let (ancestor, entry, index) ← Run.expect
      ((ancestry ++ [graph.base]).zipIdx.findSome? fun (ancestor, index) =>
        (graph.entries.lookup ancestor).map fun entry => (ancestor, entry, index))
      "base is kept; chain returns ancestry only if the block is a descendent of base; qed"
    let ancestorHash ← Run.expect ancestry[index]? "index out of bounds"
    let entries := graph.entries.insert ancestor
      { entry with descendents := entry.descendents ++ [hash] }
    let heads := graph.heads.erase ancestorHash
    return .ok { graph with
      entries := entries.insert hash
        ⟨number, ancestry.take (index + 1), [], VoteValue.default⟩
      heads := if hash ∈ heads then heads else heads ++ [hash] }

-- The vote is added to the node and to every node before it.
def accumulate (vote : V) : Nat → H → Entries H V → Run (Entries H V)
  | 0, _, _ => unending
  | fuel + 1, inspecting, entries => do
    let entry ← Run.expect (entries.lookup inspecting)
      "vote-node and its ancestry always exist after initial phase; qed"
    let cumulative ← VoteValue.addAssign entry.cumulativeVote vote
    let entries := entries.insert inspecting { entry with cumulativeVote := cumulative }
    match entry.ancestorNode with
    | some parent => accumulate vote fuel parent entries
    | none => return entries

def insert (order : List H → List H) (chain : Chain H) (graph : VoteGraph H V) (hash : H)
    (number : UInt64) (vote : V) : Run (Except Error (VoteGraph H V)) := do
  let placed ← match findContainingNodes order graph hash number with
    | none => pure (.ok graph)
    | some [] => append chain graph hash number
    | some containing => do
      let graph ← introduceBranch graph containing hash number
      pure (.ok graph)
  match placed with
  | .error error => return .error error
  | .ok graph => do
    let entries ← accumulate vote graph.entries.keys.length hash graph.entries
    return .ok { graph with entries := entries }

section Ghost

variable (condition : V → Run Bool)

-- The first descendent that fulfils the condition.
def nextDescendent (entries : Entries H V) (constrain : Option (H × UInt64)) :
    List H → Run (Option (H × Entry H V))
  | [] => .ok none
  | key :: keys => do
    let node ← Run.expect (entries.lookup key)
      "node either base or referenced by other in graph; qed"
    if node.follows constrain then do
      if ← condition node.cumulativeVote then return some (key, node)
      else nextDescendent entries constrain keys
    else nextDescendent entries constrain keys

-- After one hop the search is not held to a block any more.
def descend (entries : Entries H V) :
    Nat → H → Entry H V → Option (H × UInt64) → Run (H × Entry H V × Option (H × UInt64))
  | 0, _, _, _ => unending
  | fuel + 1, key, node, constrain => do
    match ← nextDescendent condition entries constrain node.descendents with
    | some (key, node) => descend entries fuel key node none
    | none => return (key, node, constrain)

-- The votes of the nodes whose edges hold one block are added up until they suffice.
def mergeVotes (number : UInt64) :
    List (Entry H V) → (AList fun _ : H => V) → Run (Option H)
  | [], _ => .ok none
  | node :: nodes, blocks =>
    match node.ancestorBlock number with
    | none => mergeVotes number nodes blocks
    | some block =>
      match blocks.lookup block with
      | none => mergeVotes number nodes (blocks.insert block node.cumulativeVote)
      | some vote => do
        let vote ← VoteValue.addAssign vote node.cumulativeVote
        if ← condition vote then return some block
        else mergeVotes number nodes (blocks.insert block vote)

-- The loop over offsets; a node's edge has each of its blocks at one offset only, so the
-- fuel is enough. The hashes are those after the node, in forward order.
def mergePoints (baseNumber : UInt64) :
    Nat → UInt64 → UInt64 → List (Entry H V) → Run (List H × UInt64)
  | 0, _, best, _ => .ok ([], best)
  | fuel + 1, offset, best, nodes => do
    let offset := offset + 1
    match ← mergeVotes condition (baseNumber + offset) nodes ∅ with
    | none => return ([], best)
    | some hash => do
      let best := best + 1
      let (hashes, number) ← mergePoints baseNumber fuel offset best
        (nodes.filter fun node => node.follows (some (hash, best)))
      return (hash :: hashes, number)

-- Hashes in forward order, and the number of the last.
structure Subchain (H : Type) where
  hashes : List H
  bestNumber : UInt64

def Subchain.best (chain : Subchain H) : Option (H × UInt64) :=
  chain.hashes.getLast?.map (·, chain.bestNumber)

def ghostFindMergePoint (graph : VoteGraph H V) (key : H) (node : Entry H V)
    (constrain : Option (H × UInt64)) : Run (Subchain H) := do
  let nodes ← node.descendents.mapM fun hash =>
    Run.expect (graph.entries.lookup hash) "descendents always present in node storage; qed"
  let nodes := nodes.filter fun node => node.follows constrain
  let fuel := (nodes.map fun node => node.ancestors.length).sum + 1
  let (hashes, number) ← mergePoints condition node.number fuel 0 node.number nodes
  return ⟨key :: hashes, number⟩

def findGhost (order : List H → List H) (graph : VoteGraph H V)
    (currentBest : Option (H × UInt64)) : Run (Option (H × UInt64)) := do
  let getNode (hash : H) : Run (Entry H V) := Run.expect (graph.entries.lookup hash)
    "node either base or referenced by other in graph; qed"
  let (key, constrain) ← match currentBest with
    | none => pure (graph.base, none)
    | some (hash, number) =>
      match findContainingNodes order graph hash number with
      | none => pure (hash, none)
      | some [] => pure (graph.base, none)
      | some (first :: _) => do
        let node ← getNode first
        let ancestor ← Run.expect node.ancestorNode
          "node containing non-node in history always has ancestor; qed"
        pure (ancestor, some (hash, number))
  let node ← getNode key
  if ← condition node.cumulativeVote then do
    let (key, node, constrain) ←
      descend condition graph.entries graph.entries.keys.length key node constrain
    let chain ← ghostFindMergePoint condition graph key node constrain
    return chain.best
  else return none

-- The first node on the way back that fulfils the condition, with the node after it.
def ancestorMeeting (entries : Entries H V) :
    Nat → H → Entry H V → Run (Option (H × Entry H V × Entry H V))
  | 0, _, _ => unending
  | fuel + 1, key, canonical => do
    let active ← Run.expect (entries.lookup key)
      "node either base or referenced by other in graph; qed"
    if ← condition active.cumulativeVote then return some (key, active, canonical)
    else
      match active.ancestorNode with
      | none => return none
      | some prev => ancestorMeeting entries fuel prev active

-- The best block of the subchain that is on the edge of the canonical node.
def ancestorFrom (graph : VoteGraph H V) (key : H) (canonical : Entry H V) :
    Run (Option (H × UInt64)) := do
  match ← ancestorMeeting condition graph.entries graph.entries.keys.length key canonical with
  | none => return none
  | some (key, active, canonical) => do
    let chain ← ghostFindMergePoint condition graph key active none
    let blocksReverse := chain.hashes.reverse.zipIdx.map fun (hash, count) =>
      (hash, chain.bestNumber - UInt64.ofNat count)
    return blocksReverse.find? fun (hash, number) =>
      (canonical.inDirectAncestry hash number).getD false

def findAncestor (order : List H → List H) (graph : VoteGraph H V) (hash : H) (number : UInt64) :
    Run (Option (H × UInt64)) := do
  let getNode (hash : H) : Run (Entry H V) := Run.expect (graph.entries.lookup hash)
    "node either base or referenced by other in graph; qed"
  match findContainingNodes order graph hash number with
  | none => do
    let node ← getNode hash
    if ← condition node.cumulativeVote then return some (hash, number)
    else
      match node.ancestorNode with
      | none => return none
      | some key => ancestorFrom condition graph key node
  | some [] => return none
  | some (first :: _) => do
    let node ← getNode first
    let key ← Run.expect node.ancestorNode
      "node containing block in ancestry has ancestor node; qed"
    ancestorFrom condition graph key node

end Ghost

-- The proof runs from the parent of the base back to the new base.
def adjustBase (graph : VoteGraph H V) (ancestryProof : List H) : Run (VoteGraph H V) :=
  match ancestryProof.getLast? with
  | none => .ok graph
  | some newHash =>
    if graph.baseNumber.toNat < ancestryProof.length then .ok graph
    else do
      let newNumber := ancestryProof.foldl (fun number _ => number - 1) graph.baseNumber
      let oldEntry ← Run.expect (graph.entries.lookup graph.base)
        "base hash entry always exists; qed"
      let entries := graph.entries.insert graph.base
        { oldEntry with ancestors := oldEntry.ancestors ++ ancestryProof }
      return { graph with
        entries := entries.insert newHash ⟨newNumber, [], [graph.base], oldEntry.cumulativeVote⟩
        base := newHash
        baseNumber := newNumber }

end VoteGraph

end Yeeroot.Grandpa
