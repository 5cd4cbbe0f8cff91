import Mathlib.Logic.Relation
import Yeeroot.Foreign.Chain
import Yeeroot.Foreign.Relay.Release

namespace Yeeroot.Foreign

open Scale Verifier Yeeroot.Pow

-- The light client of a shard and the number of its best block. It has a header at every
-- number of its best chain and at none above it.
structure LightState where
  client : Client H256
  best : UInt64
  numbered : ∀ number, (client.headerByNumber number).isSome ↔ number ≤ best

-- The client stores what its verifier accepts and follows the longest chain. No foreign
-- header is finalized by it, so the best number never falls.
inductive LightStep (build : Build) (v : PowVerifier) : LightState → LightState → Prop where
  | imported {state state' : LightState} {header : BlockHeader H256} {proof : Option Bytes}
      {block : ImportBlock}
      (accepted : verify build { v with client := state.client } header proof none =
        .ok (.ok block))
      (stored : state'.client.header = Function.update state.client.header
        (v.hashing.header header) (some header))
      (longest : state'.best = if state.best < header.number then header.number else state.best) :
      LightStep build v state state'

structure LightState.IsGenesis (v : PowVerifier) (state : LightState)
    (first : BlockHeader H256) : Prop where
  bare : first.logs = []
  stored : state.client.header =
    Function.update (fun _ => none) (v.hashing.header first) (some first)
  best : state.best = 0

-- What `foreign_events` reads of the client when it gets a message with this best number.
def LightState.notice (v : PowVerifier) (state : LightState) (shardNum : UInt16)
    (bestNumber : UInt64) : BestBlockInfoChanged where
  shardNum := shardNum
  bestNumber := bestNumber
  component := some fun number => (state.client.headerByNumber number).map fun header =>
    ⟨v.hashing.header header, shardHeader header⟩

section

variable {build : Build} {v : PowVerifier} {state state' : LightState}

theorem LightStep.best_le (h : LightStep build v state state') : state.best ≤ state'.best := by
  cases h with
  | imported _ _ longest =>
    rw [longest]
    split_ifs with hlonger
    · exact UInt64.le_of_lt hlonger
    · exact UInt64.le_refl _

theorem best_le_of_steps (h : Relation.ReflTransGen (LightStep build v) state state') :
    state.best ≤ state'.best := by
  induction h with
  | refl => exact UInt64.le_refl _
  | tail _ step ih => exact UInt64.le_trans ih step.best_le

theorem LightState.exists_header (state : LightState) {number : UInt64}
    (h : number ≤ state.best) : ∃ header, state.client.headerByNumber number = some header :=
  Option.isSome_iff_exists.mp ((state.numbered number).mpr h)

theorem notice_returns_iff (state : LightState) (shardNum : UInt16) {bestNumber : UInt64}
    {header : BlockHeader H256} (hheader : state.client.headerByNumber bestNumber = some header) :
    Run.Returns (bestBlockInfoChanged (state.notice v shardNum bestNumber)) ↔
      ∀ finalityNum ∈ lastLog header.logs asFinalityTracker, finalityNum ≤ state.best := by
  unfold bestBlockInfoChanged LightState.notice
  simp only [hheader, Option.map_some, unwrap, Run.returns_bind, Run.expect_eq_ok,
    Option.some.injEq, exists_eq_left', shardHeader]
  cases hlog : lastLog header.logs asFinalityTracker with
  | none => exact iff_of_true (Run.returns_pure _) (by simp)
  | some finalityNum =>
    simp only [Option.mem_some_iff, forall_eq', Run.returns_bind, Run.expect_eq_ok,
      Option.map_eq_some_iff]
    constructor
    · intro h
      obtain ⟨_, ⟨final, hfinal, -⟩, -⟩ := h
      exact (state.numbered finalityNum).mp (by rw [hfinal]; rfl)
    · intro h
      obtain ⟨final, hfinal⟩ := state.exists_header h
      exact ⟨_, ⟨final, hfinal, rfl⟩, Run.returns_pure _⟩

end

-- A message gives the client's best number when it was sent, and is handled after any further
-- imports. A shard without a light client is skipped.
theorem notice_completes_iff {build : Build} {v : PowVerifier} {sent handled : LightState}
    (h : Relation.ReflTransGen (LightStep build v) sent handled) (shardNum : UInt16) :
    (∀ bestNumber, Run.Returns (bestBlockInfoChanged ⟨shardNum, bestNumber, none⟩)) ∧
    ∃ header, handled.client.headerByNumber sent.best = some header ∧
      (Run.Returns (bestBlockInfoChanged (handled.notice v shardNum sent.best)) ↔
        ∀ finalityNum ∈ lastLog header.logs asFinalityTracker, finalityNum ≤ handled.best) := by
  obtain ⟨header, hheader⟩ := handled.exists_header (best_le_of_steps h)
  exact ⟨fun _ => Run.returns_ok _, header, hheader, notice_returns_iff handled shardNum hheader⟩

-- A chain of two headers, whose second one logs this finalized number.
def loggedHeader (finalityNum : UInt64) : BlockHeader H256 :=
  BlockHeader.push plainHashing.codec ⟨filled 32 0, 1, zero256, zero256,
    [.shardingInfo 0 2, finalityLog finalityNum]⟩ plainNonceSeal

def lightState (headers : List (BlockHeader H256)) (best : UInt64) : LightState where
  client := { lightClient headers with
    headerByNumber := fun number =>
      if number ≤ best then some (headers.getD (number.toNat - 1) bareGenesis) else none }
  best := best
  numbered number := by
    by_cases h : number ≤ best <;> simp [h]

theorem notice_of_logged_genesis_completes :
    Run.Returns (bestBlockInfoChanged
      ((lightState [loggedHeader 0] 1).notice (lightVerifier false) 0 1)) := by
  obtain ⟨_, header, hheader, hiff⟩ := @notice_completes_iff .checked (lightVerifier false)
    (lightState [loggedHeader 0] 1) _ .refl 0
  obtain rfl : loggedHeader 0 = header := Option.some.inj hheader
  have hlog : lastLog (loggedHeader 0).logs asFinalityTracker = some 0 := by decide +kernel
  rw [hlog] at hiff
  exact hiff.mpr fun finalityNum hfinal => by
    rw [← Option.some.inj hfinal]
    decide

theorem lightStep_logged : LightStep .checked (lightVerifier false) (lightState [] 0)
    (lightState [loggedHeader 1000] 1) := by
  have haccepted : verify .checked { lightVerifier false with client := (lightState [] 0).client }
      (loggedHeader 1000) none none = .ok (.ok ⟨preHeader (loggedHeader 1000),
        powSeal plainHashing.codec plainNonceSeal, none, none⟩) := by
    decide +kernel
  exact .imported haccepted rfl rfl

-- The author of block 1 logs block 1000 as final. The verifier accepts the header, and the
-- notification about it panics.
theorem notice_of_unknown_block_panics :
    (lightState [] 0).IsGenesis (lightVerifier false) bareGenesis ∧
    LightStep .checked (lightVerifier false) (lightState [] 0) (lightState [loggedHeader 1000] 1) ∧
    bestBlockInfoChanged ((lightState [loggedHeader 1000] 1).notice (lightVerifier false) 0 1) =
      .error ⟨"called `Option::unwrap()` on a `None` value"⟩ := by
  have hpanic : (bestBlockInfoChanged
      ((lightState [loggedHeader 1000] 1).notice (lightVerifier false) 0 1)).panic? =
        some ⟨"called `Option::unwrap()` on a `None` value"⟩ := by
    decide +kernel
  exact ⟨⟨rfl, rfl, rfl⟩, lightStep_logged, Run.eq_error_of_panic? hpanic⟩

end Yeeroot.Foreign
