import ProviiCrypto.PublicInputs
import ProviiCrypto.Snark.Groth16

/-!
# `provii-crypto-verifier`

The registry of prepared keys and the verification of a proof against it.
-/

namespace ProviiCrypto

open Number

/-- A map from `vk_id` to a prepared key. -/
abbrev VkRegistry (G : Groth16) : Type := UInt32 → Option G.PreparedVerifyingKey

/-- `VerifyResult`. -/
structure VerifyResult where
  direction : Bool
  cutoffDays : Int32
  rpHash : Bytes 32
  issuerVkBytes : Bytes 32
  credNullifier : Bytes 32
  vkId : UInt32
  deriving DecidableEq

section

variable {H : Blake2s} (B : Bellman H) (G : Groth16)

/-- `verify_age_snark`, with what `VK_REGISTRY` holds: nothing before it is initialised. -/
def verifyAgeSnark (registry : Option (VkRegistry G)) (proofBytes : List UInt8) (direction : Bool)
    (cutoffDays : Int32) (rpHash issuerVkBytes credNullifier : Bytes 32) (vkId : UInt32) :
    Except Error VerifyResult :=
  match registry.bind fun r => r vkId with
  | none => .error .verifierNotInitialized
  | some pvk =>
    match assemblePublicInputsCanonical B direction cutoffDays rpHash issuerVkBytes credNullifier with
    | .error _ => .error .invalidInput
    | .ok inputs =>
      match G.readProof proofBytes with
      | none => .error .invalidFormat
      | some proof =>
        if G.verifyProof pvk proof inputs then
          .ok ⟨direction, cutoffDays, rpHash, issuerVkBytes, credNullifier, vkId⟩
        else .error .verificationFailed

/-- **What the verifier accepts**: a proof that decodes and that the key registered verifies for
the assembled inputs. It then echoes the statement. -/
theorem verifyAgeSnark_eq_ok {registry : Option (VkRegistry G)} {proofBytes : List UInt8}
    {direction : Bool} {cutoffDays : Int32} {rpHash issuerVkBytes credNullifier : Bytes 32}
    {vkId : UInt32} {res : VerifyResult} :
    verifyAgeSnark B G registry proofBytes direction cutoffDays rpHash issuerVkBytes credNullifier
        vkId = .ok res ↔
      (∃ pvk inputs proof, registry.bind (fun r => r vkId) = some pvk ∧
        assemblePublicInputsCanonical B direction cutoffDays rpHash issuerVkBytes credNullifier =
          .ok inputs ∧
        G.readProof proofBytes = some proof ∧ G.verifyProof pvk proof inputs = true) ∧
      res = ⟨direction, cutoffDays, rpHash, issuerVkBytes, credNullifier, vkId⟩ := by
  unfold verifyAgeSnark
  constructor
  · intro h
    split at h
    · cases h
    next pvk hpvk =>
    split at h
    · cases h
    next inputs hinputs =>
    split at h
    · cases h
    next proof hproof =>
    split at h
    next hver => exact ⟨⟨pvk, inputs, proof, hpvk, hinputs, hproof, hver⟩, (Except.ok.inj h).symm⟩
    · cases h
  · rintro ⟨⟨pvk, inputs, proof, hpvk, hinputs, hproof, hver⟩, rfl⟩
    rw [hpvk, hinputs, hproof]
    exact if_pos hver

end

end ProviiCrypto
