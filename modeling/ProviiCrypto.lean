import ProviiCrypto.Agreement
import ProviiCrypto.Circuit.Refinement
import ProviiCrypto.Circuit.Shape
import ProviiCrypto.Circuit.Signature
import ProviiCrypto.Circuit.Soundness
import ProviiCrypto.Commit.Binding
import ProviiCrypto.Commit.Nullifier
import ProviiCrypto.Commit.Randomness
import ProviiCrypto.Commons.Serde
import ProviiCrypto.Commons.Timestamp
import ProviiCrypto.DomainSeparation
import ProviiCrypto.Gadgets.Comparison
import ProviiCrypto.Gadgets.FixedBase
import ProviiCrypto.Gadgets.PedersenCalls
import ProviiCrypto.Gadgets.ScalarMultiplication
import ProviiCrypto.Protocol.Binding
import ProviiCrypto.Protocol.Nonce
import ProviiCrypto.Protocol.Separation
import ProviiCrypto.Signature.Coverage
import ProviiCrypto.Snark.Agreement
import ProviiCrypto.Snark.DebugLog
import ProviiCrypto.Snark.Decision
import ProviiCrypto.Snark.Disclosure
import ProviiCrypto.Snark.Flow
import ProviiCrypto.Snark.Gate
import ProviiCrypto.Snark.ProofBytes
import ProviiCrypto.Snark.RegistryRuns
import ProviiCrypto.Snark.System
