import ProviiCrypto.Reference.Bellman
import ProviiCrypto.Snark.Prover

/-!
# A transparent proof system

A stand-in with the interface of the real one: a proof is 192 bytes, a tag of the public inputs it
is for.
-/

namespace ProviiCrypto.Reference

open Number

variable {H : Blake2s} (B : Bellman H)

/-- The tag of a list of public inputs: six copies of a hash of them. -/
def inputsTag (H : Blake2s) (inputs : List Scalar) : Bytes 192 :=
  ⟨(List.replicate 6 (H noPersonalization (inputs.flatMap scalarRepr)).1).flatten, by
    simp [(H noPersonalization _).2]⟩

/-- The proof system. Reading takes the first 192 bytes. -/
def groth16 (H : Blake2s) : Groth16 where
  Parameters := Unit
  VerifyingKey := Unit
  PreparedVerifyingKey := Unit
  Proof := Bytes 192
  vk := id
  writeVk _ := some []
  prepareVerifyingKey := id
  writeProof p := some p.1
  readProof bytes :=
    if h : 192 ≤ bytes.length then some ⟨bytes.take 192, by simpa using h⟩ else none
  verifyProof _ p inputs := p == inputsTag H inputs

/-- A prover that panics at first, and then succeeds. -/
def createRandomProof (attempt : ℕ) (circuit : AgeCircuit) (_ : (groth16 H).Parameters) :
    Outcome R1CS.SynthesisError (groth16 H).Proof :=
  if attempt = 1 then .panic else .ok (inputsTag H (circuit.pub.bits.pack B))

theorem readProof_writeProof {p : Bytes 192} : (groth16 H).readProof p.1 = some p := by
  have hle : 192 ≤ p.1.length := p.2.ge
  exact (dif_pos hle).trans (congrArg some (Subtype.ext (List.take_of_length_le p.2.le)))

theorem verifyProof_inputsTag (inputs : List Scalar) :
    (groth16 H).verifyProof () (inputsTag H inputs) inputs = true := by
  simp [groth16]

end ProviiCrypto.Reference
