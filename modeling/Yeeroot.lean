import Yeeroot.Scale.Lemmas
import Yeeroot.Sharding.Utils.Lemmas
import Yeeroot.Primitives.Lemmas
import Yeeroot.Extrinsic
import Yeeroot.SrPrimitives.Lemmas
import Yeeroot.Runtime.Dispatch.Lemmas
import Yeeroot.Executive.Replay
import Yeeroot.Merkle.Lemmas
import Yeeroot.MultiLayerProof.Lemmas
import Yeeroot.Executive.CrossShard
import Yeeroot.Executive.Split
import Yeeroot.Runtime.Sharding.Timeline
import Yeeroot.Executive.Block.Lemmas
import Yeeroot.Verifier.ShardInfo.Theorems
import Yeeroot.Verifier.Relay.Authenticity
import Yeeroot.Verifier.Relay.Binding
import Yeeroot.Verifier.Relay.ScaleOut
import Yeeroot.Miner.Theorems
import Yeeroot.Cli.CustomParam.Theorems
import Yeeroot.Crfg.Import.Theorems
import Yeeroot.Verifier.Verify.Returns
import Yeeroot.Switch.WorkManager.Theorems
import Yeeroot.Crfg.Environment.Rollback
import Yeeroot.Crfg.Chain.Theorems
import Yeeroot.Foreign.Relay.Recommit
import Yeeroot.Foreign.Relay.Release
import Yeeroot.Executive.Remainder
import Yeeroot.Executive.Nonce
import Yeeroot.Executive.Issuance
import Yeeroot.Executive.Digest.Theorems
import Yeeroot.Crfg.FinalityProof.Theorems
import Yeeroot.Crfg.BlockImport.Theorems
import Yeeroot.Runtime.Balances.Effect
import Yeeroot.Executive.Ledger.Theorems
import Yeeroot.Executive.Fees
import Yeeroot.Executive.AssetKeys
import Yeeroot.Verifier.Inherents
import Yeeroot.Foreign.Chain
import Yeeroot.Executive.Validity.Theorems
import Yeeroot.Crfg.UntilImported.Theorems
import Yeeroot.Foreign.Relay.Proven
import Yeeroot.Crfg.ConsensusChanges
import Yeeroot.Verifier.Relay.RoundTrip
import Yeeroot.Executive.Block.DecodeType
import Yeeroot.Runtime.Assets.Effect
import Yeeroot.Crfg.NewChange.Theorems
import Yeeroot.Executive.Authorities
import Yeeroot.Rpc.SerdeHex
import Yeeroot.Primitives.AddressCodec
import Yeeroot.Pow.Target.Monotone
import Yeeroot.Foreign.Relay.Notice
import Yeeroot.Crfg.BlockImport.Forest
import Yeeroot.Crfg.Voter.Authentic
import Yeeroot.Crfg.Justification.Own
import Yeeroot.Grandpa.VoteGraph.Theorems
import Yeeroot.Grandpa.Words
