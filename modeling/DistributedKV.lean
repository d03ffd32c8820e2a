import DistributedKV.SequentialPuts
import DistributedKV.Rollback
import DistributedKV.TableFile
import DistributedKV.Visibility
import DistributedKV.GroupCommit
import DistributedKV.Handlers
import DistributedKV.Fingerprint
import DistributedKV.Drain
import DistributedKV.OneChange
import DistributedKV.Prediction
import DistributedKV.ChaosCheck
import DistributedKV.Convergence
import DistributedKV.HintDelivery
import DistributedKV.Causality
import DistributedKV.Heartbeats
import DistributedKV.HandoffProgress
import DistributedKV.Incarnations
import DistributedKV.ConfigRender
import DistributedKV.Outages
