import PinsBackend.Compilation
import PinsBackend.Proofs.Canonical.Faults
import PinsBackend.Proofs.Machine.Agreement
import PinsBackend.Proofs.Machine.Confined
import PinsBackend.Proofs.Machine.Visited
import PinsBackend.Proofs.Safety.Programs
import PinsBackend.Proofs.Typing.Placeholders
import PinsBackend.Proofs.Typing.Cycles
import PinsBackend.Proofs.Layout.Success
import PinsBackend.Proofs.Lowering.Success
import PinsBackend.Proofs.Canonical.FixedPoint
import PinsBackend.Proofs.Canonical.Skeleton
import PinsBackend.Proofs.Machine.Regions
import PinsBackend.Proofs.Machine.Stack
import PinsBackend.Proofs.Safety.Links
import PinsBackend.Proofs.Safety.Stores
import PinsBackend.Proofs.Diagnostics
import PinsBackend.Proofs.Meaning.Places
import PinsBackend.Proofs.Meaning.Constructs
import PinsBackend.Proofs.Meaning.Calls
import PinsBackend.Proofs.Meaning.Pieces
import PinsBackend.Proofs.Meaning.Programs
import PinsBackend.Proofs.Syntax.Nesting
import PinsBackend.Proofs.Layout.Nesting
import PinsBackend.Proofs.Layout.Accesses
import PinsBackend.Proofs.Layout.Tiling
import PinsBackend.Proofs.Machine.Linking
import PinsBackend.Proofs.Lowering.ControlFlow
import PinsBackend.Proofs.Lowering.Dispatch
import PinsBackend.Proofs.Machine.Limits
import PinsBackend.Proofs.Machine.Random
import PinsBackend.Proofs.Machine.Footprint
