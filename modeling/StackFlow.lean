import StackFlow.Proofs.Classes
import StackFlow.Proofs.Optimize
import StackFlow.Proofs.Passes
import StackFlow.Proofs.Uninitialized
import StackFlow.Render.Svg
import StackFlow.Session
import StackFlow.Proofs.Fidelity
import StackFlow.Proofs.Idempotence
import StackFlow.Proofs.Completeness
import StackFlow.Proofs.Padding
import StackFlow.Proofs.Transparency
import StackFlow.Proofs.LiveWalks
import StackFlow.Proofs.Limits
import StackFlow.Proofs.Summaries
import StackFlow.Proofs.CollectorRoots
import StackFlow.Proofs.Frontiers
import StackFlow.Proofs.EdgeClasses
import StackFlow.Proofs.FreshWays
import StackFlow.Proofs.LoopNesting
import StackFlow.Proofs.PhiPlacement
import StackFlow.Proofs.Escapes
import StackFlow.Proofs.Redirection
import StackFlow.Proofs.Independence
import StackFlow.Proofs.Pairing
import StackFlow.Proofs.StableHops
import StackFlow.Proofs.Admission
import StackFlow.Proofs.Merging
import StackFlow.Proofs.CopyClasses
import StackFlow.Proofs.Depths
import StackFlow.Proofs.Joins
import StackFlow.Proofs.WordMasks
import StackFlow.Proofs.FiniteSets
