import ProviiCrypto.Snark.Agreement

/-!
# The bytes of a proof

`Proof::read` takes a proof from the front of its reader. The verifier gives it the proof bytes as a
reader and asks for nothing after them, so what follows an accepted proof is accepted with it; the
size check of the proof bundle is not among its steps.

* `verifyAgeSnark_append`: an accepted string is accepted with anything after it.
* `verifyAgeSnark_exact_iff`: which accepted strings are encodings.
-/

namespace ProviiCrypto

open Number

/-! ## The bundle -/

/-- `GROTH16_BLS12_381_PROOF_SIZE`. -/
def groth16Bls12381ProofSize : ℕ := 192

/-- `AgeSnarkProofV2`. -/
structure AgeSnarkProofV2 where
  v : UInt8
  vk : UInt32
  rp : Bytes 32
  cutoff : Int32
  proof : List UInt8
  deriving DecidableEq

/-- `AgeSnarkProofV2::validate_proof_size`. -/
def AgeSnarkProofV2.validateProofSize (p : AgeSnarkProofV2) : Except Error Unit :=
  if p.proof.length ≠ groth16Bls12381ProofSize then .error .invalidFormat else .ok ()

theorem AgeSnarkProofV2.validateProofSize_eq_ok {p : AgeSnarkProofV2} :
    p.validateProofSize = .ok () ↔ p.proof.length = 192 := by
  unfold validateProofSize
  split_ifs with h
  · exact iff_of_false nofun h
  · exact iff_of_true rfl (not_not.mp h)

/-! ## What the decoder reads -/

/-- `Proof::read` consumes the canonical encoding of its proof from the front of its reader, and
does not look at what is after it. -/
structure Groth16.ReadsFront (G : Groth16) : Prop where
  canonical : ∀ bytes proof, G.readProof bytes = some proof →
    ∃ encoding rest, bytes = encoding ++ rest ∧ encoding.length = 192 ∧
      G.writeProof proof = some encoding
  front : ∀ encoding rest : List UInt8, encoding.length = 192 →
    G.readProof (encoding ++ rest) = G.readProof encoding

variable {H : Blake2s} {B : Bellman H} {G : Groth16} {bytes : List UInt8} {proof : G.Proof}

/-- A proof that is read is written as the first 192 bytes. -/
theorem Groth16.ReadsFront.writeProof_of_readProof (hG : G.ReadsFront)
    (h : G.readProof bytes = some proof) :
    192 ≤ bytes.length ∧ G.writeProof proof = some (bytes.take 192) := by
  obtain ⟨encoding, rest, rfl, hlen, hwrite⟩ := hG.canonical bytes proof h
  rw [← hlen, List.take_left]
  exact ⟨by simp, hwrite⟩

/-- Only the first 192 bytes are read. -/
theorem Groth16.ReadsFront.readProof_take (hG : G.ReadsFront) (hlen : 192 ≤ bytes.length) :
    G.readProof (bytes.take 192) = G.readProof bytes := by
  have hfront := hG.front (bytes.take 192) (bytes.drop 192) (by simpa using hlen)
  rw [List.take_append_drop] at hfront
  exact hfront.symm

theorem Groth16.ReadsFront.readProof_append (hG : G.ReadsFront)
    (h : G.readProof bytes = some proof) (rest : List UInt8) :
    G.readProof (bytes ++ rest) = some proof := by
  have hlen := (hG.writeProof_of_readProof h).1
  have hlen' : 192 ≤ (bytes ++ rest).length := by
    rw [List.length_append]
    omega
  rw [← hG.readProof_take hlen', List.take_append_of_le_length hlen, hG.readProof_take hlen, h]

/-! ## What the verifier accepts -/

section

variable {registry : Option (VkRegistry G)} {direction : Bool} {cutoffDays : Int32}
variable {rpHash issuerVkBytes credNullifier : Bytes 32} {vkId : UInt32} {res : VerifyResult}

/-- The string is read as a proof that the registered key accepts for the statement. -/
def ReadsAccepted (B : Bellman H) (G : Groth16) (registry : Option (VkRegistry G))
    (direction : Bool) (cutoffDays : Int32) (rpHash issuerVkBytes credNullifier : Bytes 32)
    (vkId : UInt32) (bytes : List UInt8) : Prop :=
  ∃ pvk inputs proof, registry.bind (fun r => r vkId) = some pvk ∧
    assemblePublicInputsCanonical B direction cutoffDays rpHash issuerVkBytes credNullifier =
      .ok inputs ∧
    G.readProof bytes = some proof ∧ G.verifyProof pvk proof inputs = true

theorem verifyAgeSnark_isOk_iff : (∃ res, verifyAgeSnark B G registry bytes direction cutoffDays
      rpHash issuerVkBytes credNullifier vkId = .ok res) ↔
    ReadsAccepted B G registry direction cutoffDays rpHash issuerVkBytes credNullifier vkId
      bytes := by
  simp only [verifyAgeSnark_eq_ok]
  constructor
  · rintro ⟨-, haccepted, -⟩
    exact haccepted
  · intro haccepted
    exact ⟨_, haccepted, rfl⟩

/-- An accepted string is accepted with anything after it. -/
theorem ReadsAccepted.append (hG : G.ReadsFront)
    (h : ReadsAccepted B G registry direction cutoffDays rpHash issuerVkBytes credNullifier vkId
      bytes) (rest : List UInt8) :
    ReadsAccepted B G registry direction cutoffDays rpHash issuerVkBytes credNullifier vkId
      (bytes ++ rest) := by
  obtain ⟨pvk, inputs, proof, hpvk, hinputs, hread, hver⟩ := h
  exact ⟨pvk, inputs, proof, hpvk, hinputs, hG.readProof_append hread rest, hver⟩

/-- What decides is the first 192 bytes. -/
theorem ReadsAccepted.take (hG : G.ReadsFront)
    (h : ReadsAccepted B G registry direction cutoffDays rpHash issuerVkBytes credNullifier vkId
      bytes) :
    ReadsAccepted B G registry direction cutoffDays rpHash issuerVkBytes credNullifier vkId
      (bytes.take 192) := by
  obtain ⟨pvk, inputs, proof, hpvk, hinputs, hread, hver⟩ := h
  refine ⟨pvk, inputs, proof, hpvk, hinputs, ?_, hver⟩
  rw [hG.readProof_take (hG.writeProof_of_readProof hread).1, hread]

/-- **Which strings the verifier accepts without their being encodings**: those of more than 192
bytes whose first 192 are a proof that it accepts. Any other string, if it is accepted, is what
its proof is written as, has the size that the bundle asks for, and extends no accepted string. -/
theorem verifyAgeSnark_exact_iff (B : Bellman H) (hG : G.ReadsFront)
    (registry : Option (VkRegistry G)) (bytes : List UInt8) (direction : Bool) (cutoffDays : Int32)
    (rpHash issuerVkBytes credNullifier : Bytes 32) (vkId : UInt32) :
    (∀ res, verifyAgeSnark B G registry bytes direction cutoffDays rpHash issuerVkBytes
        credNullifier vkId = .ok res →
      (∃ proof, G.readProof bytes = some proof ∧ G.writeProof proof = some bytes) ∧
      (∀ p : AgeSnarkProofV2, p.proof = bytes → p.validateProofSize = .ok ()) ∧
      ∀ bytes' res', bytes' <+: bytes → verifyAgeSnark B G registry bytes' direction cutoffDays
        rpHash issuerVkBytes credNullifier vkId = .ok res' → bytes' = bytes) ↔
    ¬ (192 < bytes.length ∧ ReadsAccepted B G registry direction cutoffDays rpHash issuerVkBytes
      credNullifier vkId (bytes.take 192)) := by
  constructor
  · rintro hexact ⟨hlong, haccepted⟩
    have hwhole := haccepted.append hG (bytes.drop 192)
    rw [List.take_append_drop] at hwhole
    obtain ⟨res, hres⟩ := verifyAgeSnark_isOk_iff.mpr hwhole
    obtain ⟨res', hres'⟩ := verifyAgeSnark_isOk_iff.mpr haccepted
    have hlen := congrArg List.length
      ((hexact res hres).2.2 _ res' (List.take_prefix 192 bytes) hres')
    rw [List.length_take] at hlen
    omega
  · intro hexact res hres
    have haccepted := verifyAgeSnark_isOk_iff.mp ⟨res, hres⟩
    obtain ⟨-, -, proof, -, -, hread, -⟩ := id haccepted
    obtain ⟨hlong, hwrite⟩ := hG.writeProof_of_readProof hread
    have hlen : bytes.length = 192 := by
      by_contra hne
      exact hexact ⟨by omega, haccepted.take hG⟩
    refine ⟨⟨proof, hread, ?_⟩, ?_, ?_⟩
    · rw [hwrite, List.take_of_length_le hlen.le]
    · rintro p rfl
      exact AgeSnarkProofV2.validateProofSize_eq_ok.mpr hlen
    · intro bytes' res' hprefix hres'
      obtain ⟨-, -, proof', -, -, hread', -⟩ := verifyAgeSnark_isOk_iff.mp ⟨res', hres'⟩
      have hlong' := (hG.writeProof_of_readProof hread').1
      exact hprefix.eq_of_length (le_antisymm hprefix.length_le (by omega))

end

/-! ## A proof with a byte after it -/

theorem readsFront_groth16 (H : Blake2s) : (Reference.groth16 H).ReadsFront where
  canonical bytes proof h := by
    have hlen : 192 ≤ bytes.length := by
      by_contra hshort
      exact absurd ((dif_neg hshort).symm.trans h) nofun
    obtain rfl := Option.some.inj ((dif_pos hlen).symm.trans h)
    exact ⟨bytes.take 192, bytes.drop 192, (List.take_append_drop 192 bytes).symm, by simpa using hlen,
      rfl⟩
  front encoding rest hlen := by
    have hlen' : 192 ≤ (encoding ++ rest).length := by
      rw [List.length_append]
      omega
    refine (dif_pos hlen').trans (Eq.trans ?_ (dif_pos hlen.ge).symm)
    exact congrArg some (Subtype.ext (List.take_append_of_le_length hlen.ge))

/-- A proof for the statement. -/
def sampleProof : Bytes 192 :=
  Reference.inputsTag Reference.blake2s
    ((credPublic .over 10000).bits.pack (Reference.bellman Reference.blake2s))

theorem readsAccepted_sampleProof (rest : List UInt8) :
    ReadsAccepted (Reference.bellman Reference.blake2s) (Reference.groth16 Reference.blake2s)
      (some fun _ => some ()) true 10000 (credPublic .over 10000).rpHash
      (credPublic .over 10000).issuerVkBytes (credPublic .over 10000).credNullifier 7
      (sampleProof.1 ++ rest) := by
  have hread := (readsFront_groth16 Reference.blake2s).readProof_append
    (Reference.readProof_writeProof (p := sampleProof)) rest
  exact ⟨(), _, _, rfl, (credPublic .over 10000).assemble_eq _, hread,
    Reference.verifyProof_inputsTag _⟩

/-- A proof on its own is an encoding. -/
theorem verifyAgeSnark_exact_iff_sample :
    ∃ proof, (Reference.groth16 Reference.blake2s).writeProof proof = some (sampleProof.1 ++ []) := by
  obtain ⟨res, hres⟩ := verifyAgeSnark_isOk_iff.mpr (readsAccepted_sampleProof [])
  obtain ⟨⟨proof, -, hwrite⟩, -⟩ := (verifyAgeSnark_exact_iff (Reference.bellman Reference.blake2s)
    (readsFront_groth16 Reference.blake2s) (some fun _ => some ()) (sampleProof.1 ++ []) true 10000
    (credPublic .over 10000).rpHash (credPublic .over 10000).issuerVkBytes
    (credPublic .over 10000).credNullifier 7).mpr
      (fun h => by
        have hlen := sampleProof.2
        rw [List.append_nil] at h
        omega) res hres
  exact ⟨proof, hwrite⟩

/-- The same proof with a zero byte after it is accepted, and is no encoding. -/
theorem verifyAgeSnark_accepts_trailing :
    (∃ res, verifyAgeSnark (Reference.bellman Reference.blake2s) (Reference.groth16 Reference.blake2s)
      (some fun _ => some ()) (sampleProof.1 ++ [0]) true 10000 (credPublic .over 10000).rpHash
      (credPublic .over 10000).issuerVkBytes (credPublic .over 10000).credNullifier 7 = .ok res) ∧
    (¬ ∃ proof, (Reference.groth16 Reference.blake2s).readProof (sampleProof.1 ++ [0]) = some proof ∧
      (Reference.groth16 Reference.blake2s).writeProof proof = some (sampleProof.1 ++ [0])) ∧
    (AgeSnarkProofV2.validateProofSize ⟨2, 7, (credPublic .over 10000).rpHash, 10000,
      sampleProof.1 ++ [0]⟩ = .error .invalidFormat) := by
  have hlen : (sampleProof.1 ++ [0]).length = 193 := by
    rw [List.length_append, sampleProof.2]
    rfl
  refine ⟨verifyAgeSnark_isOk_iff.mpr (readsAccepted_sampleProof [0]), ?_, ?_⟩
  · rintro ⟨proof, -, hwrite⟩
    have hproof := congrArg List.length (Option.some.inj hwrite)
    rw [hlen, proof.2] at hproof
    omega
  · refine if_pos ?_
    show (sampleProof.1 ++ [0]).length ≠ 192
    omega

end ProviiCrypto
