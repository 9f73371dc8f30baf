import Mathlib.Algebra.Module.ZMod
import ProviiCrypto.Number.Schnorr
import ProviiCrypto.Signature.Encoding

/-!
# Signatures with one `R`

The nonce of a signature is a hash of the key and of what is signed (`nonce_from`), and `R` is its
multiple of the generator.

* `SignRequest`: the two pairs of functions that sign and verify, plain and bound to a relying
  party. Both work on one hash of what they are given (`sign_eq`, `verify_eq`).
* `recoverKey`: what anyone computes from two signatures, the requests and the verification key.
* `one_signature_or_key`: two accepted signatures with one `R` are the same 64 bytes, or `recoverKey`
  gives a signing key of the verification key. A signer's own signatures give it away exactly when
  one nonce meets two challenges, and for two messages that takes digests that agree modulo the
  order of the group.
-/

namespace ProviiCrypto

open Number

/-! ## Requests -/

section

variable {P : Type} [AddCommGroup P] [DecidableEq P] (H : Blake2s) (F : FrBytes)
  (G : SubgroupPoint P)

/-- A credential to sign, for a relying party or for none. -/
structure SignRequest where
  msg : CredMsgV2
  rp : Option (Bytes 32)

namespace SignRequest

/-- The hash that is signed. -/
def hash (q : SignRequest) : Except RedJubjubError (List UInt8) :=
  match q.rp with
  | none => credHash H q.msg
  | some rp => boundHash H q.msg rp

/-- `sign_cred_v2` or `sign_cred_v2_with_rp`. -/
def sign (q : SignRequest) (signingKey : Bytes 32) : Except RedJubjubError (Bytes 64) :=
  match q.rp with
  | none => signCredV2 H F G q.msg signingKey
  | some rp => signCredV2WithRp H F G q.msg rp signingKey

/-- `verify_cred_v2` or `verify_cred_v2_with_rp`. -/
def verify (q : SignRequest) (signature : Bytes 64) (verificationKey : Bytes 32) :
    Except RedJubjubError Unit :=
  match q.rp with
  | none => verifyCredV2 H F G q.msg signature verificationKey
  | some rp => verifyCredV2WithRp H F G q.msg rp signature verificationKey

variable {H F G} {q : SignRequest} {sk vk : Bytes 32} {sig : Bytes 64}

omit [DecidableEq P] in
theorem sign_eq : q.sign H F G sk = signHashed H F G (q.hash H) sk := by
  unfold sign hash
  cases q.rp <;> rfl

theorem verify_eq : q.verify H F G sig vk = verifyHashed H F G (q.hash H) sig vk := by
  unfold verify hash
  cases q.rp <;> rfl

/-- What is accepted, in stages. -/
theorem verify_eq_ok : q.verify H F G sig vk = .ok () ↔ ∃ key s hash,
    VerificationKey.fromBytes G vk = .ok key ∧ Signature.fromBytes F G sig = .ok s ∧
      q.hash H = .ok hash ∧ verifyHashInternal H F G hash s key = .ok () := by
  rw [verify_eq]
  exact verifyHashed_eq_ok H F G

end SignRequest

end

/-! ## Transcripts -/

namespace SubgroupPoint

variable {P : Type} [AddCommGroup P] (G : SubgroupPoint P)

/-- Scalars act on the group. -/
abbrev module : Module Fr P := AddCommGroup.zmodModule G.order_smul

theorem mul_eq_smul (p : P) (s : Fr) : mul p s = letI := G.module; s • p := by
  let _ := G.module
  rw [mul, ← Nat.cast_smul_eq_nsmul Fr, ZMod.natCast_zmod_val]

end SubgroupPoint

/-- The signing scalar gives back the bytes it was read from. -/
theorem SigningKey.toBytes_of_fromBytes {F : FrBytes} {sk : Bytes 32} {key : SigningKey}
    (h : SigningKey.fromBytes F sk = .ok key) : key.toBytes F = sk := by
  have hval := F.fromBytes_eq_some.mp ((SigningKey.fromBytes_eq_ok F).mp h).1
  refine Subtype.ext (leNat_injective ?_ ?_)
  · rw [(key.toBytes F).2, sk.2]
  · rw [SigningKey.toBytes, F.leNat_toBytes, hval]

section

variable {P : Type} [AddCommGroup P] [DecidableEq P] (H : Blake2s) (F : FrBytes)
  (G : SubgroupPoint P)

/-- The transcript of a signature, which anyone computes who knows the request and the key. -/
def SignRequest.transcript (q : SignRequest) (verificationKey : Bytes 32) (signature : Bytes 64) :
    Option (Schnorr.Transcript Fr P) :=
  match Signature.fromBytes F G signature, q.hash H with
  | .ok sig, .ok hash => some ⟨sig.r, hashChallenge H F (G.toBytes sig.r) verificationKey hash, sig.s⟩
  | _, _ => none

/-- The signing scalar that two signatures give away. -/
def recoverKey (verificationKey : Bytes 32) (q q' : SignRequest) (signature signature' : Bytes 64) :
    Option Fr := do
  let t ← q.transcript H F G verificationKey signature
  let t' ← q'.transcript H F G verificationKey signature'
  Schnorr.extract t t'

variable {H F G} {q q' : SignRequest} {sk vk : Bytes 32} {sig sig' : Bytes 64}

/-- The transcript of an accepted signature meets the equation, and spells the signature. -/
theorem SignRequest.exists_transcript (h : q.verify H F G sig vk = .ok ()) :
    ∃ key t, VerificationKey.fromBytes G vk = .ok key ∧ q.transcript H F G vk sig = some t ∧
      sig = Signature.toBytes F G ⟨t.r, t.s⟩ ∧
      letI := G.module
      t.Accepts (getSpendingKeyGenerator G) key.point := by
  obtain ⟨key, s, hash, hkey, hs, hhash, hver⟩ := SignRequest.verify_eq_ok.mp h
  have hvk : key.toBytes G = vk := ((VerificationKey.fromBytes_eq_ok G).mp hkey).1
  rw [verifyHashInternal_eq_ok, hvk, G.mul_eq_smul, G.mul_eq_smul] at hver
  refine ⟨key, ⟨s.r, hashChallenge H F (G.toBytes s.r) vk hash, s.s⟩, hkey, ?_,
    (Signature.toBytes_of_fromBytes F G hs).symm, hver⟩
  rw [SignRequest.transcript, hs, hhash]

/-- An accepted signature of the signer is the honest transcript with the nonce of the hash. -/
theorem SignRequest.transcript_of_sign {key : SigningKey} {hash : List UInt8}
    (hkey : SigningKey.fromBytes F sk = .ok key) (hhash : q.hash H = .ok hash)
    (hsign : q.sign H F G sk = .ok sig)
    (hver : q.verify H F G sig ((key.verificationKey G).toBytes G) = .ok ()) :
    letI := G.module
    q.transcript H F G ((key.verificationKey G).toBytes G) sig =
      some (Schnorr.honest (getSpendingKeyGenerator G) key.scalar (nonceFrom H F sk hash)
        (hashChallenge H F (lowHalf sig) ((key.verificationKey G).toBytes G) hash)) := by
  obtain ⟨-, s, hash', -, hs, hhash', -⟩ := SignRequest.verify_eq_ok.mp hver
  obtain rfl : hash = hash' := Except.ok.inj (hhash.symm.trans hhash')
  rw [SignRequest.sign_eq] at hsign
  obtain ⟨key', hash'', sig', hkey', hhash'', hsign, rfl⟩ := (signHashed_eq_ok H F G).mp hsign
  obtain rfl := Except.ok.inj (hkey.symm.trans hkey')
  obtain rfl := Except.ok.inj (hhash.symm.trans hhash'')
  simp only [signHashInternal, SigningKey.toBytes_of_fromBytes hkey] at hsign
  split at hsign
  · cases hsign
  · obtain rfl := Except.ok.inj hsign
    -- the halves decode to what was encoded
    have hdecoded := hs
    rw [Signature.fromBytes_toBytes] at hdecoded
    split at hdecoded
    · cases hdecoded
    · obtain rfl := Except.ok.inj hdecoded
      rw [SignRequest.transcript, hs, hhash, Signature.toBytes, lowHalf_joinHalves]
      simp only [Schnorr.honest, G.mul_eq_smul]
      rfl

/-- The first half encodes the multiple of the generator by the nonce. -/
theorem SignRequest.lowHalf_of_sign {key : SigningKey} {hash : List UInt8}
    (hkey : SigningKey.fromBytes F sk = .ok key) (hhash : q.hash H = .ok hash)
    (hsign : q.sign H F G sk = .ok sig)
    (hver : q.verify H F G sig ((key.verificationKey G).toBytes G) = .ok ()) :
    lowHalf sig =
      G.toBytes (SubgroupPoint.mul (getSpendingKeyGenerator G) (nonceFrom H F sk hash)) := by
  obtain ⟨-, t, -, ht, hsig, -⟩ := SignRequest.exists_transcript hver
  rw [SignRequest.transcript_of_sign hkey hhash hsign hver] at ht
  obtain rfl := Option.some.inj ht
  rw [hsig, Signature.toBytes, lowHalf_joinHalves, G.mul_eq_smul]
  rfl

/-- **One signature, or the key.** Of two accepted signatures under one key that have one first half,
whoever made them, either both are the same bytes, or anyone who has them has a signing key of the
verification key. Two that the signer made have one first half exactly when their nonces are one, and
give its key away exactly when besides their challenges are two; the nonces of two hashes are one
exactly when the digests of two inputs of Blake2s agree modulo the order of the group. -/
theorem one_signature_or_key :
    (∀ (q q' : SignRequest) (vk : Bytes 32) (sig sig' : Bytes 64),
      q.verify H F G sig vk = .ok () → q'.verify H F G sig' vk = .ok () →
      lowHalf sig = lowHalf sig' → sig = sig' ∨ ∃ x, recoverKey H F G vk q q' sig sig' = some x ∧
        SigningKey.fromBytes F (F.toBytes x) = .ok ⟨x⟩ ∧
        ((⟨x⟩ : SigningKey).verificationKey G).toBytes G = vk) ∧
    (∀ (q q' : SignRequest) (sk : Bytes 32) (key : SigningKey) (sig sig' : Bytes 64)
      (hash hash' : List UInt8),
      SigningKey.fromBytes F sk = .ok key → q.hash H = .ok hash → q'.hash H = .ok hash' →
      q.sign H F G sk = .ok sig → q'.sign H F G sk = .ok sig' →
      let vk := (key.verificationKey G).toBytes G
      q.verify H F G sig vk = .ok () → q'.verify H F G sig' vk = .ok () →
      (lowHalf sig = lowHalf sig' ↔ nonceFrom H F sk hash = nonceFrom H F sk hash') ∧
      (recoverKey H F G vk q q' sig sig' = some key.scalar ↔
        nonceFrom H F sk hash = nonceFrom H F sk hash' ∧
          hashChallenge H F (lowHalf sig) vk hash ≠ hashChallenge H F (lowHalf sig') vk hash')) ∧
    ∀ (sk : Bytes 32) (hash hash' : List UInt8),
      (nonceFrom H F sk hash = nonceFrom H F sk hash' ↔
        leNat (blake2s256 H (redjubjubNonceTag ++ sk.1 ++ hash)).1 ≡
          leNat (blake2s256 H (redjubjubNonceTag ++ sk.1 ++ hash')).1 [MOD subgroupOrder]) ∧
      (redjubjubNonceTag ++ sk.1 ++ hash = redjubjubNonceTag ++ sk.1 ++ hash' ↔ hash = hash') := by
  have hg := getSpendingKeyGenerator_ne_zero G
  let _ := G.module
  refine ⟨?_, ?_, ?_⟩
  · intro q q' vk sig sig' h h' hhalf
    obtain ⟨key, t, hkey, ht, rfl, haccept⟩ := SignRequest.exists_transcript h
    obtain ⟨key', t', hkey', ht', rfl, haccept'⟩ := SignRequest.exists_transcript h'
    obtain rfl : key = key' := Except.ok.inj (hkey.symm.trans hkey')
    obtain ⟨hvk, hne⟩ := (VerificationKey.fromBytes_eq_ok G).mp hkey
    have hr : t.r = t'.r := by
      rw [Signature.toBytes, Signature.toBytes, lowHalf_joinHalves, lowHalf_joinHalves] at hhalf
      exact G.toBytes_injective hhalf
    rcases Schnorr.eq_or_extract hg haccept haccept' hr with ⟨-, hs⟩ | ⟨x, hx, hlog⟩
    · exact .inl (by rw [hr, hs])
    · refine .inr ⟨x, ?_, ?_, ?_⟩
      · rw [recoverKey, ht, ht']
        exact hx
      · refine (SigningKey.fromBytes_eq_ok F).mpr ⟨F.fromBytes_toBytes x, ?_⟩
        rintro rfl
        exact hne (by rw [← hlog, zero_smul])
      · rw [SigningKey.verificationKey, VerificationKey.toBytes, G.mul_eq_smul, hlog]
        exact hvk
  · intro q q' sk key sig sig' hash hash' hkey hhash hhash' hsign hsign' vk hver hver'
    have ht := SignRequest.transcript_of_sign hkey hhash hsign hver
    have ht' := SignRequest.transcript_of_sign hkey hhash' hsign' hver'
    constructor
    · rw [SignRequest.lowHalf_of_sign hkey hhash hsign hver,
        SignRequest.lowHalf_of_sign hkey hhash' hsign' hver', G.toBytes_injective.eq_iff,
        (G.mul_injective hg).eq_iff]
    · rw [recoverKey, ht, ht']
      exact Schnorr.extract_honest hg _ _ _ _ _
  · intro sk hash hash'
    refine ⟨?_, List.append_right_inj _⟩
    rw [nonceFrom, nonceFrom, F.fromBytesWide_eq, F.fromBytesWide_eq, leNat_padTo64, leNat_padTo64]
    exact ZMod.natCast_eq_natCast_iff _ _ _

end

/-! ## Two challenges for one nonce -/

section Sample

/-- A hash function with one digest for every nonce, and otherwise an echo of the last byte. -/
private def echoHash : Blake2s := fun personalization message =>
  ⟨leBytes 32 (if personalization = redjubjubPersonalization then (message.getLastD 0).toNat
    else if redjubjubNonceTag.isPrefixOf message then 1
    else (message.getLastD 0).toNat * 256 ^ 31), length_leBytes _ _⟩

private theorem nonceFrom_echoHash (F : FrBytes) (sk : Bytes 32) (hash : List UInt8) :
    nonceFrom echoHash F sk hash = 1 := by
  have hprefix : redjubjubNonceTag.isPrefixOf (redjubjubNonceTag ++ sk.1 ++ hash) = true := by
    rw [List.append_assoc, List.isPrefixOf_iff_prefix]
    exact List.prefix_append _ _
  rw [nonceFrom, F.fromBytesWide_eq, leNat_padTo64, blake2s256, echoHash, if_neg (by decide),
    if_pos hprefix, leNat_leBytes_of_lt (by norm_num), Nat.cast_one]

private theorem hashChallenge_echoHash (F : FrBytes) (r vk : Bytes 32) (hash : List UInt8)
    (b : UInt8) : hashChallenge echoHash F r vk (hash ++ [b]) = b.toNat := by
  have hlast : ((r.1 ++ vk.1 ++ (hash ++ [b])).getLastD 0).toNat = b.toNat := by
    rw [← List.append_assoc, List.getLastD_concat]
  rw [hashChallenge, F.fromBytesWide_eq, leNat_padTo64, echoHash, if_pos rfl, hlast,
    leNat_leBytes_of_lt (b.toNat_lt.trans (by norm_num))]

/-- The key of scalar one signs with the nonce one. -/
private theorem echo_signed {P : Type} [AddCommGroup P] [DecidableEq P] (F : FrBytes)
    (G : SubgroupPoint P) {q : SignRequest} {hash : List UInt8} {b : UInt8}
    (hhash : q.hash echoHash = .ok (hash ++ [b])) (hb : (1 + b.toNat : Fr) ≠ 0) :
    ∃ sig, q.sign echoHash F G sampleSigningKey = .ok sig ∧
      q.verify echoHash F G sig (((⟨1⟩ : SigningKey).verificationKey G).toBytes G) = .ok () := by
  have hsign : signHashInternal echoHash F G (hash ++ [b]) ⟨1⟩ =
      .ok ⟨SubgroupPoint.mul (getSpendingKeyGenerator G) 1, 1 + b.toNat * 1⟩ := by
    simp only [signHashInternal, nonceFrom_echoHash, hashChallenge_echoHash, one_ne_zero, if_false]
  refine ⟨Signature.toBytes F G ⟨SubgroupPoint.mul (getSpendingKeyGenerator G) 1, 1 + b.toNat * 1⟩,
    ?_, ?_⟩
  · rw [SignRequest.sign_eq]
    exact (signHashed_eq_ok echoHash F G).mpr ⟨_, _, _, sampleSigningKey_ok F, hhash, hsign, rfl⟩
  · rw [SignRequest.verify_eq, hhash]
    refine (verify_signed echoHash F G one_ne_zero hsign).mpr fun hcancel => hb ?_
    simp only [NonceCancels, nonceFrom_echoHash, hashChallenge_echoHash, mul_one] at hcancel
    rw [hcancel, neg_add_cancel]

/-- Two credentials whose schemas end in different digits, signed with one nonce: the two signatures
have one first half, and give the signing scalar away. -/
theorem one_signature_or_key_leak : ∃ sig sig' vk,
    (⟨sampleMsg, none⟩ : SignRequest).verify echoHash .standard Jubjub.standard.subgroup sig vk =
      .ok () ∧
    (⟨{ sampleMsg with schema := ascii "provii.age/1" }, none⟩ : SignRequest).verify echoHash .standard
      Jubjub.standard.subgroup sig' vk = .ok () ∧
    lowHalf sig = lowHalf sig' ∧
    recoverKey echoHash .standard Jubjub.standard.subgroup vk ⟨sampleMsg, none⟩
      ⟨{ sampleMsg with schema := ascii "provii.age/1" }, none⟩ sig sig' = some 1 ∧
    (sig = sig' ∨ ∃ x, SigningKey.fromBytes FrBytes.standard (FrBytes.standard.toBytes x) = .ok ⟨x⟩ ∧
      ((⟨x⟩ : SigningKey).verificationKey Jubjub.standard.subgroup).toBytes
        Jubjub.standard.subgroup = vk) := by
  let F := FrBytes.standard
  let G := Jubjub.standard.subgroup
  have hhash : (⟨sampleMsg, none⟩ : SignRequest).hash echoHash =
      .ok (List.replicate 31 0 ++ [48]) := by decide +kernel
  have hhash' : (⟨{ sampleMsg with schema := ascii "provii.age/1" }, none⟩ : SignRequest).hash
      echoHash = .ok (List.replicate 31 0 ++ [49]) := by decide +kernel
  obtain ⟨sig, hsign, hver⟩ := echo_signed F G hhash (by decide)
  obtain ⟨sig', hsign', hver'⟩ := echo_signed F G hhash' (by decide)
  obtain ⟨hany, hown, -⟩ := one_signature_or_key (H := echoHash) (F := F) (G := G)
  obtain ⟨hhalf, hkey⟩ := hown _ _ sampleSigningKey ⟨1⟩ sig sig' _ _ (sampleSigningKey_ok F) hhash
    hhash' hsign hsign' hver hver'
  rw [nonceFrom_echoHash, nonceFrom_echoHash, hashChallenge_echoHash, hashChallenge_echoHash] at hkey
  rw [nonceFrom_echoHash, nonceFrom_echoHash] at hhalf
  have hlow : lowHalf sig = lowHalf sig' := hhalf.mpr rfl
  refine ⟨sig, sig', _, hver, hver', hlow, hkey.mpr ⟨rfl, by decide⟩, ?_⟩
  rcases hany _ _ _ sig sig' hver hver' hlow with heq | ⟨x, -, hx⟩
  · exact .inl heq
  · exact .inr ⟨x, hx⟩

end Sample

end ProviiCrypto
