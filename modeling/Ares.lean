import Ares.ArtifactContents
import Ares.BfvFusion
import Ares.BlindArgmax
import Ares.BoundVerdicts
import Ares.CalibratedClearing
import Ares.CheckCommitments
import Ares.CommentStripping
import Ares.CommitParents
import Ares.ComparatorSigns
import Ares.CurveEncoding
import Ares.DataFlowChecks
import Ares.DepthCalibration
import Ares.EnergyAuditCollection
import Ares.EnergyEpochChain
import Ares.EnergyEpochs
import Ares.EnergyEvaluation
import Ares.EnergyRelaySecrecy
import Ares.ErrorClasses
import Ares.EvalSumShares
import Ares.HubConnections
import Ares.HubFrames
import Ares.InviteCredentials
import Ares.LogStreaming
import Ares.NodeIdentity
import Ares.OnionShuffle
import Ares.PayloadLayout
import Ares.PythonFrames
import Ares.RejectedMessages
import Ares.RotationKeys
import Ares.RoutingFields
import Ares.SessionReuse
import Ares.SessionRunnerInterleaving
import Ares.SlotPermutations
import Ares.SlotProvenance
import Ares.SwiftSession
import Ares.TriggerAttributes
import Ares.UnionTuning
import Ares.ZipMembers
