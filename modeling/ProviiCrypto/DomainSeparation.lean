import ProviiCrypto.Commons.Attestation
import ProviiCrypto.Signature

/-!
# What is hashed with Blake2s

Five operations hash with Blake2s-256 without a key or a personalisation. Three of them carry a
tag; the messages of the other two have lengths of their own, 64 and 32 bytes, and every tagged
message is longer (`hashedBy_length`, `hashedBy_tag`). So no message is hashed by two operations
(`hashedBy_disjoint`), and the two modes of signing never sign one hash (`blake2s_separated`).
-/

namespace ProviiCrypto

open Number Coding

/-! ## The operations -/

/-- The operations that hash with Blake2s-256. -/
inductive Blake2sOperation where
  | credV2Prehash
  | rpBound
  | nonceFrom
  | attestation
  | rpHash
  deriving DecidableEq, Repr

section

variable {P : Type} [AddCommGroup P] (H : Blake2s) (F : FrBytes) (G : SubgroupPoint P)

/-- The hash that is signed: of the credential, or of the credential bound to a relying party. -/
def signedHash (rp : Option (Bytes 32)) (msg : CredMsgV2) : Except RedJubjubError (List UInt8) :=
  match rp with
  | none => credHash H msg
  | some rp => boundHash H msg rp

/-- An operation hashes a message, on some arguments that it accepts. -/
inductive HashedBy : Blake2sOperation → List UInt8 → Prop
  /-- `cred_v2_prehash_bytes`. -/
  | credV2Prehash (msg : CredMsgV2) (out : List UInt8)
      (h : credV2PrehashBytes msg.v msg.kid msg.c msg.iat msg.exp msg.schema = .ok out) :
      HashedBy .credV2Prehash out
  /-- The hash of a credential before a relying party. -/
  | rpBound (msg : CredMsgV2) (rp : Bytes 32) (hash : List UInt8) (h : credHash H msg = .ok hash) :
      HashedBy .rpBound (hash ++ rp.1)
  /-- `nonce_from`, of what `sign_hash_internal` is called with. -/
  | nonceFrom (key : SigningKey) (rp : Option (Bytes 32)) (msg : CredMsgV2) (hash : List UInt8)
      (h : signedHash H rp msg = .ok hash) :
      HashedBy .nonceFrom (redjubjubNonceTag ++ (key.toBytes F).1 ++ hash)
  /-- `compute_message_bytes`. -/
  | attestation (dobDays : Int32) (issuerId : List UInt8) (timestamp : UInt64) (nonce : Bytes 32)
      (sessionId clientId : Option (List UInt8)) (out : List UInt8)
      (h : attestationBytes dobDays issuerId timestamp nonce sessionId clientId = .ok out) :
      HashedBy .attestation out
  /-- The challenge, as `prove_age_snark_auto` hashes it. -/
  | rpHash (rpChallenge : Bytes 32) : HashedBy .rpHash rpChallenge.1

/-! ## Lengths and tags -/

theorem credHash_eq_ok {msg : CredMsgV2} {hash : List UInt8} : credHash H msg = .ok hash ↔
    ∃ out, credV2PrehashBytes msg.v msg.kid msg.c msg.iat msg.exp msg.schema = .ok out ∧
      hash = (blake2s256 H out).1 := by
  unfold credHash
  cases credV2PrehashBytes msg.v msg.kid msg.c msg.iat msg.exp msg.schema <;> simp [eq_comm]

theorem boundHash_eq_ok {msg : CredMsgV2} {rp : Bytes 32} {hash : List UInt8} :
    boundHash H msg rp = .ok hash ↔
      ∃ inner, credHash H msg = .ok inner ∧ hash = (blake2s256 H (inner ++ rp.1)).1 := by
  unfold boundHash
  cases credHash H msg <;> simp [bind, Except.bind, pure, Except.pure, eq_comm]

/-- What is signed is a digest. -/
theorem length_signedHash {rp : Option (Bytes 32)} {msg : CredMsgV2} {hash : List UInt8}
    (h : signedHash H rp msg = .ok hash) : hash.length = 32 := by
  cases rp with
  | none =>
    obtain ⟨out, -, rfl⟩ := (credHash_eq_ok H).mp h
    exact (blake2s256 H out).2
  | some rp =>
    obtain ⟨inner, -, rfl⟩ := (boundHash_eq_ok H).mp h
    exact (blake2s256 H (inner ++ rp.1)).2

/-- How long the messages of an operation are. -/
def Blake2sOperation.lengthOk : Blake2sOperation → ℕ → Prop
  | .credV2Prehash, n => 65 ≤ n
  | .rpBound, n => n = 64
  | .nonceFrom, n => n = 78
  | .attestation, n => 70 ≤ n
  | .rpHash, n => n = 32

/-- The first eight bytes of a tagged message. -/
def Blake2sOperation.tag : Blake2sOperation → Option (List UInt8)
  | .credV2Prehash => some (ascii "provii.c")
  | .nonceFrom => some (ascii "ProviiRJ")
  | .attestation => some (ascii "provii.a")
  | .rpBound => none
  | .rpHash => none

theorem hashedBy_length {op : Blake2sOperation} {m : List UInt8} (h : HashedBy H F op m) :
    op.lengthOk m.length := by
  cases h with
  | credV2Prehash msg _ h =>
    obtain ⟨-, rfl⟩ := credV2PrehashBytes_eq_ok.mp h
    have htag : credDst.length = 14 := by decide
    simp only [Blake2sOperation.lengthOk, CredMsgV2.transcript, List.length_append,
      List.length_singleton, length_prefixed, length_u64Be, msg.c.2, htag]
    omega
  | rpBound msg rp hash h =>
    have hhash := @length_signedHash H none _ _ h
    simp only [Blake2sOperation.lengthOk, List.length_append, hhash, rp.2]
  | nonceFrom key rp msg hash h =>
    have htag : redjubjubNonceTag.length = 14 := by decide
    simp only [Blake2sOperation.lengthOk, List.length_append, length_signedHash H h,
      (key.toBytes F).2, htag]
  | attestation dobDays issuerId timestamp nonce sessionId clientId _ h =>
    obtain ⟨-, rfl⟩ := attestationBytes_eq_ok.mp h
    have htag : dobAttestationDst.length = 25 := by decide
    simp only [Blake2sOperation.lengthOk, attestationTranscript, List.length_append,
      length_leBytes, length_prefixed, nonce.2, htag]
    omega
  | rpHash rpChallenge => exact rpChallenge.2

theorem hashedBy_tag {op : Blake2sOperation} {m : List UInt8} (h : HashedBy H F op m) :
    ∀ tag ∈ op.tag, m.take 8 = tag := by
  cases h with
  | credV2Prehash msg _ h =>
    obtain ⟨-, rfl⟩ := credV2PrehashBytes_eq_ok.mp h
    rintro _ ⟨⟩
    rw [CredMsgV2.transcript, List.take_append_of_le_length (by decide)]
    decide
  | nonceFrom key rp msg hash h =>
    rintro _ ⟨⟩
    rw [List.append_assoc, List.take_append_of_le_length (by decide)]
    decide
  | attestation dobDays issuerId timestamp nonce sessionId clientId _ h =>
    obtain ⟨-, rfl⟩ := attestationBytes_eq_ok.mp h
    rintro _ ⟨⟩
    rw [attestationTranscript, List.take_append_of_le_length (by decide)]
    decide
  | rpBound msg rp hash h => rintro _ ⟨⟩
  | rpHash rpChallenge => rintro _ ⟨⟩

/-- Two operations differ in their tags or in their lengths. -/
theorem Blake2sOperation.apart {op op' : Blake2sOperation} (hne : op ≠ op') :
    (∃ tag ∈ op.tag, ∃ tag' ∈ op'.tag, tag ≠ tag') ∨ ∀ n, op.lengthOk n → ¬ op'.lengthOk n := by
  cases op <;> cases op'
  case credV2Prehash.nonceFrom | credV2Prehash.attestation | nonceFrom.credV2Prehash |
      nonceFrom.attestation | attestation.credV2Prehash | attestation.nonceFrom =>
    exact .inl ⟨_, rfl, _, rfl, by decide⟩
  case credV2Prehash.credV2Prehash | rpBound.rpBound | nonceFrom.nonceFrom |
      attestation.attestation | rpHash.rpHash => exact absurd rfl hne
  all_goals
    refine .inr fun n h h' => ?_
    simp only [lengthOk] at h h'
    omega

/-- **No message is hashed by two operations.** -/
theorem hashedBy_disjoint {op op' : Blake2sOperation} {m : List UInt8} (h : HashedBy H F op m)
    (h' : HashedBy H F op' m) : op = op' := by
  by_contra hne
  rcases Blake2sOperation.apart hne with ⟨tag, htag, tag', htag', hne⟩ | hlen
  · exact hne ((hashedBy_tag H F h tag htag).symm.trans (hashedBy_tag H F h' tag' htag'))
  · exact hlen _ (hashedBy_length H F h) (hashedBy_length H F h')

/-! ## The two modes of signing -/

/-- What a signature that comes out is of, whatever hash the mode signs. -/
theorem sign_eq_ok {hash : Except RedJubjubError (List UInt8)} {sk : Bytes 32} {sig : Bytes 64}
    (h : (do
      let key ← SigningKey.fromBytes F sk
      let hash ← hash
      let s ← signHashInternal H F G hash key
      return s.toBytes F G) = .ok sig) :
    ∃ key h s, hash = .ok h ∧ signHashInternal H F G h key = .ok s ∧ sig = s.toBytes F G := by
  cases hkey : SigningKey.fromBytes F sk with
  | error e => simp [hkey, bind, Except.bind] at h
  | ok key =>
    cases hash with
    | error e => simp [hkey, bind, Except.bind] at h
    | ok hash =>
      cases hs : signHashInternal H F G hash key with
      | error e => simp [hkey, hs, bind, Except.bind] at h
      | ok s =>
        simp only [hkey, hs, bind, Except.bind, pure, Except.pure, Except.ok.injEq] at h
        exact ⟨key, hash, s, rfl, hs, h.symm⟩

/-- **Blake2s is separated by domain.** No message is hashed by two of the operations; where
Blake2s does not collide, the hash signed for a credential is never the one signed for a credential
bound to a relying party; and signatures of the two modes are over different hashes. -/
theorem blake2s_separated :
    (∀ op op' m m', op ≠ op' → HashedBy H F op m → HashedBy H F op' m' → m ≠ m') ∧
    ∀ (X : Set (List UInt8)), Set.InjOn (blake2s256 H) X → ∀ msg msg' rp' out inner',
      credV2PrehashBytes msg.v msg.kid msg.c msg.iat msg.exp msg.schema = .ok out → out ∈ X →
      credHash H msg' = .ok inner' → inner' ++ rp'.1 ∈ X →
      (∀ hash hash', credHash H msg = .ok hash → boundHash H msg' rp' = .ok hash' → hash ≠ hash') ∧
      ∀ sk sk' sig sig', signCredV2 H F G msg sk = .ok sig →
        signCredV2WithRp H F G msg' rp' sk' = .ok sig' →
        ∃ key hash s key' hash' s', hash ≠ hash' ∧
          signHashInternal H F G hash key = .ok s ∧ sig = s.toBytes F G ∧
          signHashInternal H F G hash' key' = .ok s' ∧ sig' = s'.toBytes F G := by
  refine ⟨?_, ?_⟩
  · rintro op op' m _ hne h h' rfl
    exact hne (hashedBy_disjoint H F h h')
  · intro X hX msg msg' rp' out inner' hout hmem hinner hmem'
    have hhash : ∀ hash hash', credHash H msg = .ok hash → boundHash H msg' rp' = .ok hash' →
        hash ≠ hash' := by
      intro hash hash' hcred hbound heq
      obtain ⟨_, hout', rfl⟩ := (credHash_eq_ok H).mp hcred
      obtain ⟨_, hinner', rfl⟩ := (boundHash_eq_ok H).mp hbound
      obtain rfl := Except.ok.inj (hout.symm.trans hout')
      obtain rfl := Except.ok.inj (hinner.symm.trans hinner')
      have hsame := hX hmem hmem' (Subtype.ext heq)
      have hcred := HashedBy.credV2Prehash (H := H) (F := F) msg _ hout
      have hrp := HashedBy.rpBound (F := F) msg' rp' _ hinner
      rw [hsame] at hcred
      exact absurd (hashedBy_disjoint H F hcred hrp) (by decide)
    refine ⟨hhash, ?_⟩
    intro sk sk' sig sig' hsig hsig'
    obtain ⟨key, hash, s, hcred, hs, rfl⟩ := sign_eq_ok H F G hsig
    obtain ⟨key', hash', s', hbound, hs', rfl⟩ := sign_eq_ok H F G hsig'
    exact ⟨key, hash, s, key', hash', s', hhash _ _ hcred hbound, hs, rfl, hs', rfl⟩

end

theorem blake2s_separated_sample :
    ∃ hash hash', credHash (fun _ m => ⟨leBytes 32 m.length, length_leBytes _ _⟩) sampleMsg =
        .ok hash ∧
      boundHash (fun _ m => ⟨leBytes 32 m.length, length_leBytes _ _⟩) sampleMsg
        ⟨List.replicate 32 0, rfl⟩ = .ok hash' ∧ hash ≠ hash' := by
  let H : Blake2s := fun _ m => ⟨leBytes 32 m.length, length_leBytes _ _⟩
  let rp : Bytes 32 := ⟨List.replicate 32 0, rfl⟩
  have hout := (@credV2PrehashBytes_eq_ok sampleMsg _).mpr ⟨⟨by decide, by decide⟩, rfl⟩
  have hinner : credHash H sampleMsg = .ok (blake2s256 H sampleMsg.transcript).1 :=
    (credHash_eq_ok H).mpr ⟨_, hout, rfl⟩
  have hinj : Set.InjOn (blake2s256 H)
      {sampleMsg.transcript, (blake2s256 H sampleMsg.transcript).1 ++ rp.1} := by
    refine Set.injOn_pair.mpr fun heq => absurd heq ?_
    decide +kernel
  have hseparated := (blake2s_separated H .standard Jubjub.standard.subgroup).2 _ hinj sampleMsg
    sampleMsg rp _ _ hout (Set.mem_insert _ _) hinner (Set.mem_insert_of_mem _ rfl)
  have hbound := (@boundHash_eq_ok H sampleMsg rp _).mpr ⟨_, hinner, rfl⟩
  exact ⟨_, _, hinner, hbound, hseparated.1 _ _ hinner hbound⟩

end ProviiCrypto
