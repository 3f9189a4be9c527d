import InferenceEngine.Main
import InferenceEngine.Kernel.Library
import InferenceEngine.Proofs.Indexing
import InferenceEngine.Proofs.Loading
import InferenceEngine.Proofs.Observers
import InferenceEngine.Proofs.Overlap
import InferenceEngine.Proofs.Pass
import InferenceEngine.Proofs.Sources
import InferenceEngine.Proofs.Encodings
import InferenceEngine.Proofs.Regions
import InferenceEngine.Proofs.RoundTrip
import InferenceEngine.Proofs.Runs
import InferenceEngine.Proofs.Breaks
import InferenceEngine.Proofs.Retries
import InferenceEngine.Proofs.Storage
import InferenceEngine.Proofs.Compiling
import InferenceEngine.Proofs.Traces
import InferenceEngine.Proofs.Warnings
import InferenceEngine.Proofs.Manifests
import InferenceEngine.Proofs.LittleEndian
import InferenceEngine.Proofs.Inputs
import InferenceEngine.Proofs.Footprints
import InferenceEngine.Proofs.Layering
import InferenceEngine.Proofs.Containers
import InferenceEngine.Proofs.Models
import InferenceEngine.Proofs.Affine
import InferenceEngine.Proofs.InPlace
