import FixedNet.Evaluation
import FixedNet.Graph.Dump
import FixedNet.Pass.Region
import FixedNet.Proofs.Accumulation
import FixedNet.Proofs.AffineCodes
import FixedNet.Proofs.Atomicity
import FixedNet.Proofs.Calibrating
import FixedNet.Proofs.EdgeList
import FixedNet.Proofs.Equations
import FixedNet.Proofs.FreshKeys
import FixedNet.Proofs.Handles
import FixedNet.Proofs.Idempotence
import FixedNet.Proofs.Locality
import FixedNet.Proofs.Marking
import FixedNet.Proofs.Precedence
import FixedNet.Proofs.Recording
import FixedNet.Proofs.Refusal
import FixedNet.Proofs.Reordering
import FixedNet.Proofs.Saturation
import FixedNet.Proofs.Transparency
import FixedNet.Proofs.Turns
import FixedNet.Proofs.ZeroCodes
import FixedNet.Transform.FixedPoint
