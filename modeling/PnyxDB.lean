import PnyxDB.Consensus.Structures
import PnyxDB.Consensus.Hash
import PnyxDB.Consensus.Checkpoint
import PnyxDB.Consensus.Operations
import PnyxDB.Consensus.Veto
import PnyxDB.Consensus.QueryStore.Quorum
import PnyxDB.Consensus.QueryStore.Arrival
import PnyxDB.Consensus.Engine
import PnyxDB.Consensus.Node
import PnyxDB.Network.Protocol
import PnyxDB.Keyring.Operations
import PnyxDB.Keyring.Fixpoint
import PnyxDB.Keyring.Pem
import PnyxDB.Keyring.Persist
import PnyxDB.Consensus.Endorsing
import PnyxDB.Network.Recovery
import PnyxDB.Storage.Bolt
import PnyxDB.Consensus.Recovery
import PnyxDB.Consensus.CheckpointRoutine
import PnyxDB.Consensus.CheckpointAgreement
import PnyxDB.Network.Gossipsub
import PnyxDB.Client.Cli
