import Mixin.Image.Boot
import Mixin.Machine
import Mixin.Script.Console
import Mixin.Proofs.Graph.Reach
import Mixin.Proofs.Graph.Walk
import Mixin.Proofs.Graph.Sound
import Mixin.Proofs.Graph.View
import Mixin.Proofs.Graph.Rooted
import Mixin.Proofs.Graph.Merge
import Mixin.Proofs.Graph.Shadowing
import Mixin.Proofs.Image.Records
import Mixin.Proofs.Image.Sound
import Mixin.Proofs.Image.Structure
import Mixin.Proofs.Image.Edit
import Mixin.Proofs.Image.Becomes
import Mixin.Proofs.Image.Eigenclass
import Mixin.Proofs.Image.Boot
import Mixin.Proofs.Image.Effective
import Mixin.Proofs.Image.Twin
import Mixin.Proofs.Run.Keeps
import Mixin.Proofs.Run.Dispatch
import Mixin.Proofs.Run.Compose
import Mixin.Proofs.Run.Reached
import Mixin.Proofs.Run.Steps
import Mixin.Proofs.Image.Coherent
import Mixin.Proofs.Image.Chains
import Mixin.Proofs.Image.Rooted
import Mixin.Proofs.Coherence
import Mixin.Proofs.ChainCache
import Mixin.Proofs.SlotPath
import Mixin.Proofs.Image.Shown
import Mixin.Proofs.Run.Absorb
import Mixin.Proofs.SuperWalk
import Mixin.Proofs.CleanModule
import Mixin.Proofs.WellFormed
import Mixin.Proofs.Ancestry
import Mixin.Proofs.BoundCall
import Mixin.Proofs.Batch
import Mixin.Proofs.Release
import Mixin.Proofs.Interning
import Mixin.Proofs.Graph.Anchored
import Mixin.Proofs.Image.Deepens
import Mixin.Proofs.Image.Confined
import Mixin.Proofs.Image.Steady
import Mixin.Proofs.Image.Moored
import Mixin.Proofs.Image.Gated
import Mixin.Proofs.Image.Covered
import Mixin.Proofs.Image.Watching
import Mixin.Proofs.Run.Secure
import Mixin.Proofs.Run.Roamed
import Mixin.Proofs.Deepening
import Mixin.Proofs.Isolation
import Mixin.Proofs.WatchedNames
import Mixin.Proofs.MissingMethods
import Mixin.Proofs.Image.Described
import Mixin.Proofs.Run.Restores
import Mixin.Proofs.Describing
import Mixin.Proofs.Image.Steadfast
import Mixin.Proofs.Image.Genuine
import Mixin.Proofs.Run.Ends
import Mixin.Proofs.Run.Grounded
import Mixin.Proofs.Termination
import Mixin.Proofs.Image.Descended
import Mixin.Proofs.Inheritance
import Mixin.Proofs.Redefinition
import Mixin.Proofs.SuperCall
import Mixin.Proofs.Image.Gathers
import Mixin.Proofs.Run.Tells
import Mixin.Proofs.Flattening
import Mixin.Proofs.Graph.Repeated
import Mixin.Proofs.Image.Settling
import Mixin.Proofs.Reinclusion
import Mixin.Proofs.Resolution
import Mixin.Proofs.Image.Answering
import Mixin.Proofs.KernelSlots
import Mixin.Proofs.Run.Withheld
import Mixin.Proofs.Deferral
import Mixin.Proofs.FirstSeen
import Mixin.Proofs.VisibleNames
import Mixin.Proofs.Synchronization
import Mixin.Proofs.ClassSides
import Mixin.Proofs.Run.Spares
import Mixin.Proofs.FieldStore
