import TiledTensor.Session.Run
import TiledTensor.Proofs.Conflict
import TiledTensor.Proofs.Readiness
import TiledTensor.Proofs.Completion
import TiledTensor.Proofs.Actions
import TiledTensor.Proofs.Lifecycle
import TiledTensor.Proofs.Dispatch
import TiledTensor.Proofs.Steps
import TiledTensor.Proofs.Starts
import TiledTensor.Proofs.Serial
import TiledTensor.Proofs.Buffers
import TiledTensor.Proofs.Faithful
import TiledTensor.Proofs.Account
import TiledTensor.Proofs.Program
import TiledTensor.Proofs.Marks
import TiledTensor.Proofs.Ledger
import TiledTensor.Proofs.Payload
import TiledTensor.Proofs.Performing
import TiledTensor.Proofs.SubmissionOrder
import TiledTensor.Proofs.Channels
import TiledTensor.Proofs.Extent
import TiledTensor.Proofs.Mail
import TiledTensor.Proofs.Wire
import TiledTensor.Proofs.Turns
import TiledTensor.Proofs.Coherence
import TiledTensor.Proofs.Delivery
import TiledTensor.Proofs.Together
import TiledTensor.Proofs.Plain
import TiledTensor.Proofs.RemoteReads
import TiledTensor.Proofs.Making
import TiledTensor.Proofs.Pairing
import TiledTensor.Proofs.Quiescence
import TiledTensor.Proofs.EventHistory
import TiledTensor.Proofs.Matching
import TiledTensor.Proofs.Walk
import TiledTensor.Proofs.Planning
import TiledTensor.Proofs.Settling
import TiledTensor.Proofs.Stations
import TiledTensor.Proofs.Openings
import TiledTensor.Proofs.Placement
import TiledTensor.Proofs.Allocation
import TiledTensor.Proofs.Waiting
import TiledTensor.Proofs.LockRuns
import TiledTensor.Proofs.Blocking
import TiledTensor.Proofs.Revolution
import TiledTensor.Proofs.Odometer
import TiledTensor.Proofs.Lockstep
import TiledTensor.Proofs.Replicas
import TiledTensor.Proofs.TileOps
import TiledTensor.Proofs.Dense
import TiledTensor.Proofs.TileScripts
import TiledTensor.Proofs.TensorScripts
import TiledTensor.Proofs.Collectives
import TiledTensor.Proofs.Courses
import TiledTensor.Proofs.OwnSteps
import TiledTensor.Proofs.Jobs
import TiledTensor.Proofs.Barriers
import TiledTensor.Proofs.Poison
import TiledTensor.Proofs.Retention
import TiledTensor.Proofs.Tidings
import TiledTensor.Proofs.Copies
import TiledTensor.Proofs.Repeats
import TiledTensor.Proofs.Tags
import TiledTensor.Proofs.Ownership
import TiledTensor.Proofs.Custody
import TiledTensor.Proofs.Lives
import TiledTensor.Proofs.Accepted
import TiledTensor.Proofs.Upkeep
import TiledTensor.Proofs.Lengths
import TiledTensor.Proofs.Atomicity
import TiledTensor.Proofs.Bystanders
import TiledTensor.Proofs.Guises
import TiledTensor.Proofs.Queueing
import TiledTensor.Proofs.Tenures
import TiledTensor.Proofs.Holdings
import TiledTensor.Proofs.Retirement
import TiledTensor.Proofs.Doubles
import TiledTensor.Proofs.Calm
import TiledTensor.Proofs.Doubling
import TiledTensor.Proofs.DoubleRuns
import TiledTensor.Proofs.Settlement
import TiledTensor.Proofs.Joint
import TiledTensor.Proofs.Losses
import TiledTensor.Proofs.Admission
import TiledTensor.Proofs.TileCopies
import TiledTensor.Proofs.Interchange
import TiledTensor.Proofs.Substitutes
import TiledTensor.Proofs.WholeTiles
import TiledTensor.Proofs.Shortcut
import TiledTensor.Proofs.Numbering
import TiledTensor.Proofs.Enumeration
import TiledTensor.Proofs.Partition
import TiledTensor.Proofs.Tidiness
