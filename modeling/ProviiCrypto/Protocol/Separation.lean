import ProviiCrypto.Protocol.Basic

/-!
# Which operations can hash one string

Two of the four operations that hash with SHA-256 carry a tag: `rp_challenge` at the end of what it
hashes and the issuance consent at the beginning. They never meet
(`rpChallengeBytes_ne_issuanceConsentBytes`). The code challenge and the origin hash are hashes of
the caller's string alone, so they meet each other on equal strings, and the tagged operations on
strings that carry the tag (`digests_separated`).
-/

namespace ProviiCrypto.Protocol

open Number Coding

variable (sha256 : List UInt8 → Bytes 32)

/-! ## The tagged operations -/

/-- The last bytes of a challenge are its tag's. -/
theorem reverse_rpChallengeBytes (origin nonce : List UInt8) {i : ℕ} (hi : i < 19) :
    (rpChallengeBytes origin nonce).reverse[i]? = challengeDst.reverse[i]? := by
  have hlen : challengeDst.reverse.length = 19 := by decide
  unfold rpChallengeBytes
  rw [List.reverse_append, List.getElem?_append_left (hlen.symm ▸ hi)]

/-- A consent ends with its nonce. -/
theorem exists_transcript_eq (c : IssuanceConsent) :
    ∃ front, c.transcript = front ++ flagged 0x00 0x01 Subtype.val c.nonce := by
  unfold IssuanceConsent.transcript
  simp only [← List.append_assoc]
  exact ⟨_, rfl⟩

/-- **A challenge is never a consent**: a consent ends with a zero byte, or with sixteen bytes after
a one, and the tag of a challenge has neither there. -/
theorem rpChallengeBytes_ne_issuanceConsentBytes (origin nonce : List UInt8) {out : List UInt8}
    {c : IssuanceConsent} (hout : issuanceConsentBytes c = .ok out) :
    rpChallengeBytes origin nonce ≠ out := by
  obtain ⟨-, rfl⟩ := issuanceConsentBytes_eq_ok.mp hout
  obtain ⟨front, hfront⟩ := exists_transcript_eq c
  intro heq
  rw [hfront] at heq
  cases hnonce : c.nonce with
  | none =>
    have hlast := reverse_rpChallengeBytes origin nonce (i := 0) (by omega)
    rw [heq, hnonce, List.reverse_append] at hlast
    exact absurd (Option.some.inj hlast) (by decide)
  | some n =>
    have hflag := reverse_rpChallengeBytes origin nonce (i := 16) (by omega)
    have hlen : n.1.reverse.length = 16 := by rw [List.length_reverse, n.2]
    rw [heq, hnonce, flagged, List.reverse_append, List.reverse_cons, List.append_assoc,
      List.getElem?_append_right hlen.le, hlen] at hflag
    exact absurd (Option.some.inj hflag) (by decide)

/-! ## The bare strings -/

theorem codeChallengeS256_eq_iff {codeVerifier : List UInt8} {digest : Bytes 32} :
    codeChallengeS256 sha256 codeVerifier = base64Url digest.1 ↔ sha256 codeVerifier = digest :=
  base64Url_injective.eq_iff.trans Subtype.ext_iff.symm

/-- A consent begins with its tag. -/
theorem issuanceConsentDst_isPrefix {c : IssuanceConsent} {out : List UInt8}
    (hout : issuanceConsentBytes c = .ok out) : issuanceConsentDst <+: out := by
  obtain ⟨-, rfl⟩ := issuanceConsentBytes_eq_ok.mp hout
  exact List.prefix_append _ _

/-! ## What the operations share -/

/-- **What separates the digests.** Where SHA-256 does not collide, a challenge is never a consent,
and what a bare string shares with another operation is the string itself: its code challenge is an
origin hash of the same string only, it is a challenge only of an origin and a nonce that spell it
with the tag after them, and a consent only when it begins with the consent's tag. -/
theorem digests_separated {X : Set (List UInt8)} (hX : Set.InjOn sha256 X) :
    (∀ origin nonce c out digest, issuanceConsentBytes c = .ok out →
      buildIssuanceConsentMessage sha256 c = .ok digest →
      rpChallengeBytes origin nonce ≠ out ∧
        (rpChallengeBytes origin nonce ∈ X → out ∈ X → rpChallenge sha256 origin nonce ≠ digest)) ∧
    (∀ origin ∈ X, ∀ codeVerifier ∈ X,
      (codeChallengeS256 sha256 codeVerifier = base64Url (computeOriginHash sha256 origin).1 ↔
        codeVerifier = origin)) ∧
    (∀ s ∈ X, ∀ origin nonce, rpChallengeBytes origin nonce ∈ X →
      (computeOriginHash sha256 s = rpChallenge sha256 origin nonce ↔
        s = origin ++ nonce ++ challengeDst) ∧
      (codeChallengeS256 sha256 s = base64Url (rpChallenge sha256 origin nonce).1 ↔
        s = origin ++ nonce ++ challengeDst)) ∧
    ∀ s ∈ X, ∀ c out digest, issuanceConsentBytes c = .ok out → out ∈ X →
      buildIssuanceConsentMessage sha256 c = .ok digest →
      (computeOriginHash sha256 s = digest → issuanceConsentDst <+: s) ∧
        (codeChallengeS256 sha256 s = base64Url digest.1 → issuanceConsentDst <+: s) := by
  have hdigest : ∀ c out digest, issuanceConsentBytes c = .ok out →
      buildIssuanceConsentMessage sha256 c = .ok digest → sha256 out = digest := by
    intro c out digest hout hdigest
    unfold buildIssuanceConsentMessage at hdigest
    rw [hout] at hdigest
    exact Except.ok.inj hdigest
  refine ⟨?_, ?_, ?_, ?_⟩
  · intro origin nonce c out digest hout hbuild
    obtain rfl := hdigest c out digest hout hbuild
    have hne := rpChallengeBytes_ne_issuanceConsentBytes origin nonce hout
    exact ⟨hne, fun hrp hmem heq => hne (hX hrp hmem heq)⟩
  · intro origin horigin codeVerifier hverifier
    rw [codeChallengeS256_eq_iff]
    exact hX.eq_iff hverifier horigin
  · intro s hs origin nonce hrp
    rw [codeChallengeS256_eq_iff]
    exact ⟨hX.eq_iff hs hrp, hX.eq_iff hs hrp⟩
  · intro s hs c out digest hout hmem hbuild
    obtain rfl := hdigest c out digest hout hbuild
    have hbegins : sha256 s = sha256 out → issuanceConsentDst <+: s := by
      intro heq
      rw [hX hs hmem heq]
      exact issuanceConsentDst_isPrefix hout
    exact ⟨hbegins, fun heq => hbegins ((codeChallengeS256_eq_iff sha256).mp heq)⟩

/-- A function in the place of SHA-256 that tells strings of different lengths apart. -/
def lengthHash (m : List UInt8) : Bytes 32 := ⟨leBytes 32 m.length, length_leBytes _ _⟩

theorem digests_separated_split :
    ∃ out digest, issuanceConsentBytes (splitConsent (ascii "ab") (ascii "c")) = .ok out ∧
      buildIssuanceConsentMessage lengthHash (splitConsent (ascii "ab") (ascii "c")) = .ok digest ∧
      rpChallenge lengthHash (ascii "https://rp.example") (ascii "0123") ≠ digest := by
  let c := splitConsent (ascii "ab") (ascii "c")
  have hout := issuanceConsentBytes_of_fit (c := c) ⟨by decide, by decide, by decide⟩
  have hbuild : buildIssuanceConsentMessage lengthHash c = .ok (lengthHash c.transcript) := by
    unfold buildIssuanceConsentMessage
    rw [hout]
    rfl
  have hinj : Set.InjOn lengthHash
      {rpChallengeBytes (ascii "https://rp.example") (ascii "0123"), c.transcript} := by
    refine Set.injOn_pair.mpr fun heq => absurd heq ?_
    decide +kernel
  refine ⟨_, _, hout, hbuild, ?_⟩
  exact ((digests_separated lengthHash hinj).1 _ _ c _ _ hout hbuild).2 (Set.mem_insert _ _)
    (Set.mem_insert_of_mem _ rfl)

/-- One string is hashed by three of the operations. -/
theorem digests_shared :
    ∃ s : List UInt8, s = ascii "https://rp.example0123provii.challenge.v0" ∧
      ∀ sha256 : List UInt8 → Bytes 32,
        codeChallengeS256 sha256 s = base64Url (sha256 s).1 ∧ computeOriginHash sha256 s = sha256 s ∧
          rpChallenge sha256 (ascii "https://rp.example") (ascii "0123") = sha256 s :=
  ⟨_, rfl, fun sha256 => ⟨rfl, rfl, congrArg sha256 (by decide)⟩⟩

end ProviiCrypto.Protocol
