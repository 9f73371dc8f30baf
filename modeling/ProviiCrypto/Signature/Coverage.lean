import ProviiCrypto.DomainSeparation
import ProviiCrypto.Signature.Nonce

/-!
# What a signature covers

A signature is over a hash of a hash of a transcript. One that is accepted for a request may be
accepted for another request or another key.

* `SignRequest.message_eq_iff`: two requests have one message under the signed hash when they are one
  request, or their transcripts collide before one relying party.
* `signature_covers`: a signature accepted for a request under a key is accepted for another under
  another key exactly when the multiples of the two keys by the two challenges are one point; under
  the same key, exactly when the requests are one, or Blake2s collides on them at one of three stages.
-/

namespace ProviiCrypto

open Number Coding

section

variable {P : Type} [AddCommGroup P] [DecidableEq P] (H : Blake2s) (F : FrBytes)
  (G : SubgroupPoint P)

namespace SignRequest

/-- What the hash that is signed is the digest of. -/
def message (q : SignRequest) : List UInt8 :=
  match q.rp with
  | none => q.msg.transcript
  | some rp => (blake2s256 H q.msg.transcript).1 ++ rp.1

/-- What the challenge is the digest of. -/
def challengeMessage (q : SignRequest) (vk : Bytes 32) (sig : Bytes 64) : List UInt8 :=
  (lowHalf sig).1 ++ vk.1 ++ (blake2s256 H (q.message H)).1

/-- The challenge of a signature for a request under a key. -/
def challenge (q : SignRequest) (vk : Bytes 32) (sig : Bytes 64) : Fr :=
  hashChallenge H F (lowHalf sig) vk (blake2s256 H (q.message H)).1

/-- Blake2s collides on two requests: on their transcripts, bound to one relying party; on the
messages of the hashes that are signed; or, modulo the order of the group, on those of the
challenges. -/
inductive Collides (q q' : SignRequest) (vk : Bytes 32) (sig : Bytes 64) : Prop
  | transcript (rp : Bytes 32) (hrp : q.rp = some rp) (hrp' : q'.rp = some rp)
      (hne : q.msg.transcript ≠ q'.msg.transcript)
      (h : blake2s256 H q.msg.transcript = blake2s256 H q'.msg.transcript)
  | message (hne : q.message H ≠ q'.message H)
      (h : blake2s256 H (q.message H) = blake2s256 H (q'.message H))
  | challenge (hne : q.challengeMessage H vk sig ≠ q'.challengeMessage H vk sig)
      (h : leNat (H redjubjubPersonalization (q.challengeMessage H vk sig)).1 ≡
        leNat (H redjubjubPersonalization (q'.challengeMessage H vk sig)).1 [MOD subgroupOrder])

variable {H F G} {q q' : SignRequest} {vk vk' : Bytes 32} {sig : Bytes 64}

theorem hash_eq_ok {hash : List UInt8} : q.hash H = .ok hash ↔
    q.msg.FieldsFit ∧ hash = (blake2s256 H (q.message H)).1 := by
  obtain ⟨msg, rp⟩ := q
  cases rp with
  | none =>
    refine (credHash_eq_ok H).trans ⟨?_, ?_⟩
    · rintro ⟨out, hout, rfl⟩
      obtain ⟨hfit, rfl⟩ := credV2PrehashBytes_eq_ok.mp hout
      exact ⟨hfit, rfl⟩
    · rintro ⟨hfit, rfl⟩
      exact ⟨_, credV2PrehashBytes_eq_ok.mpr ⟨hfit, rfl⟩, rfl⟩
  | some rp =>
    refine (boundHash_eq_ok H).trans ⟨?_, ?_⟩
    · rintro ⟨inner, hinner, rfl⟩
      obtain ⟨out, hout, rfl⟩ := (credHash_eq_ok H).mp hinner
      obtain ⟨hfit, rfl⟩ := credV2PrehashBytes_eq_ok.mp hout
      exact ⟨hfit, rfl⟩
    · rintro ⟨hfit, rfl⟩
      exact ⟨_, (credHash_eq_ok H).mpr ⟨_, credV2PrehashBytes_eq_ok.mpr ⟨hfit, rfl⟩, rfl⟩, rfl⟩

/-- What is accepted, as an equation with the challenge. -/
theorem verify_iff : q.verify H F G sig vk = .ok () ↔ q.msg.FieldsFit ∧ ∃ key s,
    VerificationKey.fromBytes G vk = .ok key ∧ Signature.fromBytes F G sig = .ok s ∧
      SubgroupPoint.mul (getSpendingKeyGenerator G) s.s =
        s.r + SubgroupPoint.mul key.point (q.challenge H F vk sig) := by
  rw [verify_eq_ok]
  constructor
  · rintro ⟨key, s, hash, hkey, hs, hhash, hver⟩
    obtain ⟨hfit, rfl⟩ := hash_eq_ok.mp hhash
    have hr : G.toBytes s.r = lowHalf sig := ((Signature.fromBytes_eq_ok F G).mp hs).1
    have hvk : key.toBytes G = vk := ((VerificationKey.fromBytes_eq_ok G).mp hkey).1
    rw [verifyHashInternal_eq_ok, hr, hvk] at hver
    exact ⟨hfit, key, s, hkey, hs, hver⟩
  · rintro ⟨hfit, key, s, hkey, hs, hver⟩
    have hr : G.toBytes s.r = lowHalf sig := ((Signature.fromBytes_eq_ok F G).mp hs).1
    have hvk : key.toBytes G = vk := ((VerificationKey.fromBytes_eq_ok G).mp hkey).1
    refine ⟨key, s, _, hkey, hs, hash_eq_ok.mpr ⟨hfit, rfl⟩, ?_⟩
    rw [verifyHashInternal_eq_ok, hr, hvk]
    exact hver

/-- A transcript is longer than a hash and a relying party. -/
theorem transcript_ne_bound {msg msg' : CredMsgV2} (hfit : msg.FieldsFit) (hfit' : msg'.FieldsFit)
    (rp : Bytes 32) : msg.transcript ≠ (blake2s256 H msg'.transcript).1 ++ rp.1 := by
  intro h
  have hout := credV2PrehashBytes_eq_ok.mpr ⟨hfit, rfl⟩
  have hout' := credV2PrehashBytes_eq_ok.mpr ⟨hfit', rfl⟩
  have hplain := HashedBy.credV2Prehash (H := H) (F := .standard) msg _ hout
  have hbound := HashedBy.rpBound (F := .standard) msg' rp _ ((credHash_eq_ok H).mpr ⟨_, hout', rfl⟩)
  rw [h] at hplain
  exact absurd (hashedBy_disjoint H .standard hplain hbound) (by decide)

/-- **Where two requests have one message.** -/
theorem message_eq_iff (hfit : q.msg.FieldsFit) (hfit' : q'.msg.FieldsFit) :
    q.message H = q'.message H ↔ q = q' ∨ ∃ rp, q.rp = some rp ∧ q'.rp = some rp ∧
      q.msg.transcript ≠ q'.msg.transcript ∧
      blake2s256 H q.msg.transcript = blake2s256 H q'.msg.transcript := by
  obtain ⟨msg, rp⟩ := q
  obtain ⟨msg', rp'⟩ := q'
  have hinj : msg.transcript = msg'.transcript ↔ msg = msg' :=
    ((selfDelimiting_iff.mp CredMsgV2.selfDelimiting_transcript).1.eq_iff hfit hfit')
  cases rp with
  | none =>
    cases rp' with
    | none => simpa [message] using hinj
    | some rp' => simpa [message] using transcript_ne_bound hfit hfit' rp'
  | some rp =>
    cases rp' with
    | none => simpa [message, eq_comm] using transcript_ne_bound hfit' hfit rp
    | some rp' =>
      have hhalves : (blake2s256 H msg.transcript).1 ++ rp.1 =
          (blake2s256 H msg'.transcript).1 ++ rp'.1 ↔
          blake2s256 H msg.transcript = blake2s256 H msg'.transcript ∧ rp = rp' := by
        constructor
        · intro h
          obtain ⟨hhash, hrp⟩ := List.append_inj h
            ((blake2s256 H msg.transcript).2.trans (blake2s256 H msg'.transcript).2.symm)
          exact ⟨Subtype.ext hhash, Subtype.ext hrp⟩
        · rintro ⟨hhash, rfl⟩
          rw [hhash]
      simp only [message, hhalves, SignRequest.mk.injEq, Option.some.injEq, exists_eq_left']
      by_cases hmsg : msg = msg'
      · subst hmsg
        simp [eq_comm]
      · have hne : msg.transcript ≠ msg'.transcript := fun h => hmsg (hinj.mp h)
        simp [hmsg, hne, eq_comm, and_comm]

/-- Challenges are digests modulo the order of the group. -/
theorem challenge_eq_iff : q.challenge H F vk sig = q'.challenge H F vk' sig ↔
    leNat (H redjubjubPersonalization (q.challengeMessage H vk sig)).1 ≡
      leNat (H redjubjubPersonalization (q'.challengeMessage H vk' sig)).1 [MOD subgroupOrder] := by
  rw [challenge, challenge, hashChallenge, hashChallenge, F.fromBytesWide_eq, F.fromBytesWide_eq,
    leNat_padTo64, leNat_padTo64]
  exact ZMod.natCast_eq_natCast_iff _ _ _

/-- **Where two requests have one challenge under one key.** -/
theorem challenge_eq_iff_collides (hfit : q.msg.FieldsFit) (hfit' : q'.msg.FieldsFit) :
    q.challenge H F vk sig = q'.challenge H F vk sig ↔ q = q' ∨ q.Collides H q' vk sig := by
  have hmessage : q.challengeMessage H vk sig = q'.challengeMessage H vk sig ↔
      blake2s256 H (q.message H) = blake2s256 H (q'.message H) :=
    (List.append_right_inj _).trans Subtype.ext_iff.symm
  rw [challenge_eq_iff]
  constructor
  · intro h
    by_cases hchallenge : q.challengeMessage H vk sig = q'.challengeMessage H vk sig
    · by_cases hsigned : q.message H = q'.message H
      · rcases (message_eq_iff hfit hfit').mp hsigned with heq | ⟨rp, hrp, hrp', hne, hcollide⟩
        · exact .inl heq
        · exact .inr (.transcript rp hrp hrp' hne hcollide)
      · exact .inr (.message hsigned (hmessage.mp hchallenge))
    · exact .inr (.challenge hchallenge h)
  · rintro (rfl | ⟨rp, hrp, hrp', hne, hcollide⟩ | ⟨hne, hcollide⟩ | ⟨hne, hcollide⟩)
    · rfl
    · have hsigned := (message_eq_iff (H := H) hfit hfit').mpr (.inr ⟨rp, hrp, hrp', hne, hcollide⟩)
      rw [hmessage.mpr (congrArg _ hsigned)]
    · rw [hmessage.mpr hcollide]
    · exact hcollide

end SignRequest

/-- **What a signature covers.** Accepted for a request under a key, it is accepted for another
request under another key exactly when the multiples of the keys by the challenges are one point; and
for another request under the same key exactly when Blake2s collides on the two. -/
theorem signature_covers :
    (∀ (q q' : SignRequest) (vk vk' : Bytes 32) (sig : Bytes 64), q.verify H F G sig vk = .ok () →
      (q'.verify H F G sig vk' = .ok () ↔ q'.msg.FieldsFit ∧ ∃ key key',
        VerificationKey.fromBytes G vk = .ok key ∧ VerificationKey.fromBytes G vk' = .ok key' ∧
        SubgroupPoint.mul key'.point (q'.challenge H F vk' sig) =
          SubgroupPoint.mul key.point (q.challenge H F vk sig))) ∧
    ∀ (q q' : SignRequest) (vk : Bytes 32) (sig : Bytes 64), q.verify H F G sig vk = .ok () →
      (q'.verify H F G sig vk = .ok () ↔
        q'.msg.FieldsFit ∧ (q = q' ∨ q.Collides H q' vk sig)) := by
  have hcovers : ∀ (q q' : SignRequest) (vk vk' : Bytes 32) (sig : Bytes 64),
      q.verify H F G sig vk = .ok () →
      (q'.verify H F G sig vk' = .ok () ↔ q'.msg.FieldsFit ∧ ∃ key key',
        VerificationKey.fromBytes G vk = .ok key ∧ VerificationKey.fromBytes G vk' = .ok key' ∧
        SubgroupPoint.mul key'.point (q'.challenge H F vk' sig) =
          SubgroupPoint.mul key.point (q.challenge H F vk sig)) := by
    intro q q' vk vk' sig h
    obtain ⟨hfit, key, s, hkey, hs, hver⟩ := SignRequest.verify_iff.mp h
    rw [SignRequest.verify_iff]
    refine and_congr_right fun hfit' => ?_
    constructor
    · rintro ⟨key', s', hkey', hs', hver'⟩
      obtain rfl : s = s' := Except.ok.inj (hs.symm.trans hs')
      exact ⟨key, key', hkey, hkey', add_left_cancel (hver'.symm.trans hver)⟩
    · rintro ⟨key₀, key', hkey₀, hkey', heq⟩
      obtain rfl : key = key₀ := Except.ok.inj (hkey.symm.trans hkey₀)
      exact ⟨key', s, hkey', hs, by rw [hver, heq]⟩
  refine ⟨hcovers, fun q q' vk sig h => ?_⟩
  obtain ⟨hfit, key, -, hkey, -, -⟩ := SignRequest.verify_iff.mp h
  rw [hcovers q q' vk vk sig h]
  refine and_congr_right fun hfit' => ?_
  rw [← SignRequest.challenge_eq_iff_collides (F := F) hfit hfit']
  constructor
  · rintro ⟨key₀, key', hkey₀, hkey', heq⟩
    obtain rfl : key = key₀ := Except.ok.inj (hkey.symm.trans hkey₀)
    obtain rfl : key = key' := Except.ok.inj (hkey.symm.trans hkey')
    exact (G.mul_injective ((VerificationKey.fromBytes_eq_ok G).mp hkey).2 heq).symm
  · intro heq
    exact ⟨key, key, hkey, hkey, by rw [heq]⟩

end

/-- Where every digest is one, the signature on a credential for nobody is one for anybody. -/
theorem signature_covers_constant : ∃ sig vk,
    (⟨sampleMsg, none⟩ : SignRequest).verify (constHash 1 1) .standard Jubjub.standard.subgroup sig vk =
      .ok () ∧
    (⟨sampleMsg, some ⟨List.replicate 32 0, rfl⟩⟩ : SignRequest).verify (constHash 1 1) .standard
      Jubjub.standard.subgroup sig vk = .ok () := by
  let H := constHash 1 1
  let F := FrBytes.standard
  let G := Jubjub.standard.subgroup
  let g := getSpendingKeyGenerator G
  have hfit : sampleMsg.FieldsFit := ⟨by decide, by decide⟩
  have hdecoded : Signature.fromBytes F G (Signature.toBytes F G ⟨SubgroupPoint.mul g 1, 1 + 1⟩) =
      .ok ⟨SubgroupPoint.mul g 1, 1 + 1⟩ := by
    rw [Signature.fromBytes_toBytes, if_neg]
    refine not_or.mpr ⟨fun h => ?_, by decide⟩
    exact one_ne_zero ((G.mul_eq_zero_iff (getSpendingKeyGenerator_ne_zero G) _).mp h)
  have hplain : (⟨sampleMsg, none⟩ : SignRequest).verify H F G
      (Signature.toBytes F G ⟨SubgroupPoint.mul g 1, 1 + 1⟩)
      (((⟨1⟩ : SigningKey).verificationKey G).toBytes G) = .ok () := by
    refine SignRequest.verify_iff.mpr ⟨hfit, _, _, sample_vk G, hdecoded, ?_⟩
    rw [SignRequest.challenge, hashChallenge_constHash F (by norm_num), Nat.cast_one, G.mul_add,
      SigningKey.verificationKey, ← G.mul_mul, one_mul]
  refine ⟨_, _, hplain, ?_⟩
  refine ((signature_covers H F G).2 ⟨sampleMsg, none⟩ _ _ _ hplain).mpr ⟨hfit, .inr ?_⟩
  exact .message (SignRequest.transcript_ne_bound hfit hfit _) rfl

end ProviiCrypto
