import ProviiCrypto.Bellman.Interface
import ProviiCrypto.Commons.Transcript
import ProviiCrypto.Reference.Blake2s

/-!
# Attestations of a date of birth

The canonical bytes of an attestation, as `compute_message_bytes` hashes them: the fields of the
first version, then a session and a client where one of the two is given.

* `selfDelimiting_head`: the fields of the first version can be told from what follows them.
* `bindingField_eq_iff`: what follows them is empty, or tells the session from the client.
* `computeMessageBytes_decodable`: so the bytes identify the attestation, bound or not.
-/

namespace ProviiCrypto

open Number Coding

/-- `DOB_ATTESTATION_DST`. -/
def dobAttestationDst : List UInt8 := ascii "provii.attestation.dob.v0"

/-- What `compute_message_bytes` hashes. -/
def attestationBytes (dobDays : Int32) (issuerId : List UInt8) (timestamp : UInt64)
    (nonce : Bytes 32) (sessionId clientId : Option (List UInt8)) : Except Error (List UInt8) :=
  if issuerId.length > 255 then .error .fieldTooLong
  else
    let h := dobAttestationDst ++ leBytes 4 dobDays.toUInt32.toNat ++ [issuerId.length.toUInt8] ++
      issuerId ++ leBytes 8 timestamp.toNat ++ nonce.1
    if sessionId.isSome || clientId.isSome then
      let sid := sessionId.getD []
      if sid.length > 255 then .error .fieldTooLong
      else
        let h := h ++ [sid.length.toUInt8] ++ sid
        let cid := clientId.getD []
        if cid.length > 255 then .error .fieldTooLong
        else .ok (h ++ [cid.length.toUInt8] ++ cid)
    else .ok h

/-- `DobAttestation::compute_message_bytes`. -/
def computeMessageBytes (H : Blake2s) (dobDays : Int32) (issuerId : List UInt8)
    (timestamp : UInt64) (nonce : Bytes 32) (sessionId clientId : Option (List UInt8)) :
    Except Error (Bytes 32) := do
  let h ← attestationBytes dobDays issuerId timestamp nonce sessionId clientId
  return H noPersonalization h

/-- The arguments of `compute_message_bytes`, strings as their UTF-8 bytes. -/
structure AttestationFields where
  dobDays : Int32
  issuerId : List UInt8
  timestamp : UInt64
  nonce : Bytes 32
  sessionId : Option (List UInt8)
  clientId : Option (List UInt8)
  deriving DecidableEq

/-- The fields that bind an attestation to a session, when there are any. -/
def bindingField (sessionId clientId : Option (List UInt8)) : List UInt8 :=
  if sessionId.isSome || clientId.isSome then
    prefixed 1 (sessionId.getD []) ++ prefixed 1 (clientId.getD [])
  else []

/-- The canonical bytes, field by field. -/
def attestationTranscript (dobDays : Int32) (issuerId : List UInt8) (timestamp : UInt64)
    (nonce : Bytes 32) (sessionId clientId : Option (List UInt8)) : List UInt8 :=
  dobAttestationDst ++ (leBytes 4 dobDays.toUInt32.toNat ++ (prefixed 1 issuerId ++
    (leBytes 8 timestamp.toNat ++ (nonce.1 ++ bindingField sessionId clientId))))

/-- The strings that have canonical bytes. -/
def AttestationFits (issuerId : List UInt8) (sessionId clientId : Option (List UInt8)) : Prop :=
  issuerId.length ≤ 255 ∧ (sessionId.getD []).length ≤ 255 ∧ (clientId.getD []).length ≤ 255

theorem attestationBytes_eq_ok {dobDays : Int32} {issuerId : List UInt8} {timestamp : UInt64}
    {nonce : Bytes 32} {sessionId clientId : Option (List UInt8)} {out : List UInt8} :
    attestationBytes dobDays issuerId timestamp nonce sessionId clientId = .ok out ↔
      AttestationFits issuerId sessionId clientId ∧
        out = attestationTranscript dobDays issuerId timestamp nonce sessionId clientId := by
  unfold attestationBytes AttestationFits attestationTranscript bindingField prefixed
  simp only [leBytes_one]
  by_cases hissuer : issuerId.length > 255
  · simp only [if_pos hissuer, reduceCtorEq, false_iff]
    omega
  rw [if_neg hissuer]
  by_cases hbound : (sessionId.isSome || clientId.isSome) = true
  · simp only [if_pos hbound]
    by_cases hsid : (sessionId.getD []).length > 255
    · simp only [if_pos hsid, reduceCtorEq, false_iff]
      omega
    by_cases hcid : (clientId.getD []).length > 255
    · simp only [if_neg hsid, if_pos hcid, reduceCtorEq, false_iff]
      omega
    simp only [if_neg hsid, if_neg hcid, Except.ok.injEq, List.append_assoc]
    exact ⟨fun heq => ⟨⟨by omega, by omega, by omega⟩, heq.symm⟩, fun heq => heq.2.symm⟩
  · simp only [if_neg hbound, Except.ok.injEq, List.append_assoc, List.append_nil]
    have hnone : sessionId = none ∧ clientId = none := by simpa using hbound
    obtain ⟨rfl, rfl⟩ := hnone
    exact ⟨fun heq => ⟨⟨by omega, by simp, by simp⟩, heq.symm⟩, fun heq => heq.2.symm⟩

/-- There is one way to fail. -/
private theorem attestationBytes_error {dobDays : Int32} {issuerId : List UInt8}
    {timestamp : UInt64} {nonce : Bytes 32} {sessionId clientId : Option (List UInt8)} {e : Error}
    (h : attestationBytes dobDays issuerId timestamp nonce sessionId clientId = .error e) :
    e = .fieldTooLong := by
  unfold attestationBytes at h
  dsimp only at h
  split_ifs at h <;> exact (Except.error.inj h).symm

theorem attestationBytes_eq_error {dobDays : Int32} {issuerId : List UInt8} {timestamp : UInt64}
    {nonce : Bytes 32} {sessionId clientId : Option (List UInt8)} {e : Error} :
    attestationBytes dobDays issuerId timestamp nonce sessionId clientId = .error e ↔
      ¬ AttestationFits issuerId sessionId clientId ∧ e = .fieldTooLong := by
  constructor
  · intro herror
    refine ⟨fun hfits => ?_, attestationBytes_error herror⟩
    rw [attestationBytes_eq_ok.mpr ⟨hfits, rfl⟩] at herror
    cases herror
  · rintro ⟨hfits, rfl⟩
    cases h : attestationBytes dobDays issuerId timestamp nonce sessionId clientId with
    | ok out => exact absurd (attestationBytes_eq_ok.mp h).1 hfits
    | error e => rw [attestationBytes_error h]

/-! ## Unique decodability -/

/-- The fields of the first version, as they are written. -/
def AttestationFields.head (a : AttestationFields) : List UInt8 :=
  dobAttestationDst ++ (leBytes 4 a.dobDays.toUInt32.toNat ++ (prefixed 1 a.issuerId ++
    (leBytes 8 a.timestamp.toNat ++ a.nonce.1)))

/-- Both attestations are unbound, or both are bound to the same session and client. -/
def SameBinding (a b : AttestationFields) : Prop :=
  (a.sessionId = none ∧ a.clientId = none) ∧ (b.sessionId = none ∧ b.clientId = none) ∨
    ¬ (a.sessionId = none ∧ a.clientId = none) ∧ ¬ (b.sessionId = none ∧ b.clientId = none) ∧
      a.sessionId.getD [] = b.sessionId.getD [] ∧ a.clientId.getD [] = b.clientId.getD []

/-- The strings of the attestation have canonical bytes. -/
def AttestationFields.Fits (a : AttestationFields) : Prop :=
  AttestationFits a.issuerId a.sessionId a.clientId

theorem attestationTranscript_eq (a : AttestationFields) :
    attestationTranscript a.dobDays a.issuerId a.timestamp a.nonce a.sessionId a.clientId =
      a.head ++ bindingField a.sessionId a.clientId := by
  simp [attestationTranscript, AttestationFields.head]

theorem selfDelimiting_i32Le : SelfDelimiting Set.univ fun d : Int32 => leBytes 4 d.toUInt32.toNat := by
  refine (selfDelimiting_leBytes 4).comap (fun a _ b _ h => ?_) fun d _ => d.toUInt32.toNat_lt
  have hbits : a.toUInt32 = b.toUInt32 := UInt32.toNat_inj.mp h
  rw [← Int32.toInt32_toUInt32 a, hbits, Int32.toInt32_toUInt32]

theorem selfDelimiting_u64Le : SelfDelimiting Set.univ fun t : UInt64 => leBytes 8 t.toNat :=
  (selfDelimiting_leBytes 8).comap (fun _ _ _ _ h => UInt64.toNat_inj.mp h) fun t _ => t.toNat_lt

/-- The fields of the first version can be told from what follows them. -/
theorem selfDelimiting_head {a b : AttestationFields} (ha : a.Fits) (hb : b.Fits)
    {xs ys : List UInt8} (heq : a.head ++ xs = b.head ++ ys) :
    (a.dobDays = b.dobDays ∧ a.issuerId = b.issuerId ∧ a.timestamp = b.timestamp ∧
      a.nonce = b.nonce) ∧ xs = ys := by
  have hfields := (selfDelimiting_i32Le.append ((selfDelimiting_prefixed 1).append
    (selfDelimiting_u64Le.append (selfDelimiting_bytes 32)))).prepend dobAttestationDst
  have hmem : ∀ {c : AttestationFields}, c.Fits →
      (c.dobDays, c.issuerId, c.timestamp, c.nonce) ∈
        (Set.univ : Set Int32) ×ˢ ({w : List UInt8 | w.length < 256 ^ 1} ×ˢ
          ((Set.univ : Set UInt64) ×ˢ (Set.univ : Set (Bytes 32)))) := by
    intro c hc
    exact ⟨trivial, Nat.lt_succ_of_le hc.1, trivial, trivial⟩
  obtain ⟨htuple, hrest⟩ := hfields.eq_and_eq (hmem ha) (hmem hb) heq
  simp only [Prod.mk.injEq] at htuple
  exact ⟨htuple, hrest⟩

theorem bindingField_eq_nil {sessionId clientId : Option (List UInt8)} :
    bindingField sessionId clientId = [] ↔ sessionId = none ∧ clientId = none := by
  unfold bindingField prefixed
  cases sessionId <;> cases clientId <;> simp [leBytes_one]

/-- What follows the first version's fields tells the binding. -/
theorem bindingField_eq_iff {a b : AttestationFields} (ha : a.Fits) (hb : b.Fits) :
    bindingField a.sessionId a.clientId = bindingField b.sessionId b.clientId ↔
      SameBinding a b := by
  unfold SameBinding
  by_cases hna : a.sessionId = none ∧ a.clientId = none
  · simp only [hna, and_self, true_and, not_true_eq_false, false_and, or_false]
    rw [bindingField_eq_nil.mpr ⟨rfl, rfl⟩, eq_comm, bindingField_eq_nil]
  by_cases hnb : b.sessionId = none ∧ b.clientId = none
  · simp only [hna, hnb, and_self, not_true_eq_false, false_and, and_false, or_false, iff_false]
    rw [bindingField_eq_nil.mpr (show none = none ∧ none = none from ⟨rfl, rfl⟩),
      bindingField_eq_nil]
    exact hna
  -- both bound: two strings after their lengths
  have hbound : ∀ {c : AttestationFields}, ¬ (c.sessionId = none ∧ c.clientId = none) →
      bindingField c.sessionId c.clientId =
        prefixed 1 (c.sessionId.getD []) ++ prefixed 1 (c.clientId.getD []) := by
    intro c hc
    unfold bindingField
    rw [if_pos]
    rw [Bool.or_eq_true, Option.isSome_iff_ne_none, Option.isSome_iff_ne_none]
    exact not_and_or.mp hc
  simp only [hna, hnb, false_and, not_false_eq_true, true_and, false_or]
  rw [hbound hna, hbound hnb]
  constructor
  · intro heq
    obtain ⟨hsession, hrest⟩ := (selfDelimiting_prefixed 1).eq_and_eq
      (Nat.lt_succ_of_le ha.2.1) (Nat.lt_succ_of_le hb.2.1) heq
    exact ⟨hsession, (selfDelimiting_prefixed 1).injOn
      (Nat.lt_succ_of_le ha.2.2) (Nat.lt_succ_of_le hb.2.2) hrest⟩
  · rintro ⟨hsession, hclient⟩
    rw [hsession, hclient]

/-- **The transcript identifies the attestation.** -/
theorem attestationTranscript_inj {a b : AttestationFields} (ha : a.Fits) (hb : b.Fits) :
    attestationTranscript a.dobDays a.issuerId a.timestamp a.nonce a.sessionId a.clientId =
        attestationTranscript b.dobDays b.issuerId b.timestamp b.nonce b.sessionId b.clientId ↔
      (a.dobDays = b.dobDays ∧ a.issuerId = b.issuerId ∧ a.timestamp = b.timestamp ∧
        a.nonce = b.nonce) ∧ SameBinding a b := by
  rw [attestationTranscript_eq, attestationTranscript_eq]
  constructor
  · intro heq
    obtain ⟨hfields, hbinding⟩ := selfDelimiting_head ha hb heq
    exact ⟨hfields, (bindingField_eq_iff ha hb).mp hbinding⟩
  · rintro ⟨⟨hdob, hissuer, htimestamp, hnonce⟩, hbinding⟩
    rw [(bindingField_eq_iff ha hb).mpr hbinding]
    unfold AttestationFields.head
    rw [hdob, hissuer, htimestamp, hnonce]

theorem computeMessageBytes_eq_ok {H : Blake2s} {a : AttestationFields} {digest : Bytes 32} :
    computeMessageBytes H a.dobDays a.issuerId a.timestamp a.nonce a.sessionId a.clientId =
        .ok digest ↔
      ∃ out, attestationBytes a.dobDays a.issuerId a.timestamp a.nonce a.sessionId a.clientId =
        .ok out ∧ digest = H noPersonalization out := by
  unfold computeMessageBytes
  cases attestationBytes a.dobDays a.issuerId a.timestamp a.nonce a.sessionId a.clientId with
  | ok out => simp [eq_comm, bind, Except.bind, pure, Except.pure]
  | error e => simp [bind, Except.bind]

theorem computeMessageBytes_eq_error {H : Blake2s} {a : AttestationFields} {e : Error} :
    computeMessageBytes H a.dobDays a.issuerId a.timestamp a.nonce a.sessionId a.clientId =
        .error e ↔ ¬ a.Fits ∧ e = .fieldTooLong := by
  refine Iff.trans ?_ (attestationBytes_eq_error : attestationBytes a.dobDays a.issuerId
    a.timestamp a.nonce a.sessionId a.clientId = .error e ↔ _)
  unfold computeMessageBytes
  cases attestationBytes a.dobDays a.issuerId a.timestamp a.nonce a.sessionId a.clientId with
  | ok out => simp [bind, Except.bind, pure, Except.pure]
  | error e => simp [bind, Except.bind]

/-- A string that does not fit is the issuer's, or a session's or a client's that is there. -/
theorem AttestationFields.not_fits_iff (a : AttestationFields) :
    ¬ a.Fits ↔ 255 < a.issuerId.length ∨ (a.sessionId.isSome ∨ a.clientId.isSome) ∧
      ((∃ s ∈ a.sessionId, 255 < s.length) ∨ ∃ c ∈ a.clientId, 255 < c.length) := by
  unfold AttestationFields.Fits AttestationFits
  obtain ⟨_, issuerId, _, _, sessionId, clientId⟩ := a
  cases sessionId <;> cases clientId <;> simp <;> omega

/-- **The canonical bytes identify the attestation**: there are none exactly when the issuer, or
a session or client that is given, has more than 255 bytes; and two attestations are hashed from
the same bytes exactly when their fields agree and both are unbound, or both are bound to the same
session and client, where a missing one reads as empty. -/
theorem computeMessageBytes_decodable (H : Blake2s) :
    (∀ a : AttestationFields,
      computeMessageBytes H a.dobDays a.issuerId a.timestamp a.nonce a.sessionId a.clientId =
          .error .fieldTooLong ↔
        255 < a.issuerId.length ∨ (a.sessionId.isSome ∨ a.clientId.isSome) ∧
          ((∃ s ∈ a.sessionId, 255 < s.length) ∨ ∃ c ∈ a.clientId, 255 < c.length)) ∧
    ∀ (a b : AttestationFields) (digest digest' : Bytes 32),
      computeMessageBytes H a.dobDays a.issuerId a.timestamp a.nonce a.sessionId a.clientId =
        .ok digest →
      computeMessageBytes H b.dobDays b.issuerId b.timestamp b.nonce b.sessionId b.clientId =
        .ok digest' →
      ∃ out out',
        attestationBytes a.dobDays a.issuerId a.timestamp a.nonce a.sessionId a.clientId =
          .ok out ∧
        attestationBytes b.dobDays b.issuerId b.timestamp b.nonce b.sessionId b.clientId =
          .ok out' ∧
        digest = H noPersonalization out ∧ digest' = H noPersonalization out' ∧
        (out = out' ↔ (a.dobDays = b.dobDays ∧ a.issuerId = b.issuerId ∧
          a.timestamp = b.timestamp ∧ a.nonce = b.nonce) ∧ SameBinding a b) := by
  constructor
  · intro a
    rw [computeMessageBytes_eq_error, a.not_fits_iff]
    exact and_iff_left rfl
  · intro a b digest digest' hdigest hdigest'
    obtain ⟨out, hout, rfl⟩ := computeMessageBytes_eq_ok.mp hdigest
    obtain ⟨out', hout', rfl⟩ := computeMessageBytes_eq_ok.mp hdigest'
    refine ⟨out, out', hout, hout', rfl, rfl, ?_⟩
    obtain ⟨hfits, rfl⟩ := attestationBytes_eq_ok.mp hout
    obtain ⟨hfits', rfl⟩ := attestationBytes_eq_ok.mp hout'
    exact attestationTranscript_inj hfits hfits'

private theorem length_zeroNonce : (List.replicate 32 (0 : UInt8)).length = 32 :=
  List.length_replicate

/-- An attestation with this binding. -/
def boundTo (sessionId clientId : Option (List UInt8)) : AttestationFields where
  dobDays := 0
  issuerId := []
  timestamp := 0
  nonce := ⟨List.replicate 32 0, length_zeroNonce⟩
  sessionId := sessionId
  clientId := clientId

/-- An empty client binds: its attestation is not the unbound one. -/
theorem computeMessageBytes_decodable_bound :
    ∃ out out', attestationBytes 0 [] 0 (boundTo none none).nonce none none = .ok out ∧
      attestationBytes 0 [] 0 (boundTo none none).nonce none (some []) = .ok out' ∧
      out ≠ out' := by
  obtain ⟨out, out', hout, hout', -, -, hiff⟩ :=
    (computeMessageBytes_decodable Reference.blake2s).2
      (boundTo none none) (boundTo none (some [])) _ _ rfl rfl
  refine ⟨out, out', hout, hout', fun heq => ?_⟩
  have hsame := (hiff.mp heq).2
  simp [SameBinding, boundTo] at hsame

end ProviiCrypto
