import ProviiCrypto.Coding.Basic
import ProviiCrypto.Commons.Basic

/-!
# The credential transcript

What `cred_v2_prehash_bytes` writes is the credential's tag and six self-delimiting fields, so it
determines the credential and never begins another transcript (`credV2PrehashBytes_decodable`).
-/

namespace ProviiCrypto

open Number Coding

theorem selfDelimiting_u64Be : SelfDelimiting Set.univ u64Be :=
  .of_length u64Be_injective.injOn fun a _ b _ => (length_u64Be a).trans (length_u64Be b).symm

/-- The fields of a credential in the order of its transcript. -/
def CredMsgV2.fields (msg : CredMsgV2) :
    UInt8 × List UInt8 × Bytes 32 × UInt64 × UInt64 × List UInt8 :=
  (msg.v, msg.kid, msg.c, msg.iat, msg.exp, msg.schema)

/-- The credentials that have a transcript. -/
def CredMsgV2.FieldsFit (msg : CredMsgV2) : Prop := msg.kid.length ≤ 255 ∧ msg.schema.length ≤ 255

/-- The transcript, field by field. -/
def CredMsgV2.transcript (msg : CredMsgV2) : List UInt8 :=
  credDst ++ ([msg.v] ++ (prefixed 1 msg.kid ++ (msg.c.1 ++ (u64Be msg.iat ++
    (u64Be msg.exp ++ prefixed 1 msg.schema)))))

theorem CredMsgV2.fields_injective : Function.Injective CredMsgV2.fields := by
  rintro ⟨⟩ ⟨⟩ h
  simpa [CredMsgV2.fields] using h

theorem leBytes_one (n : ℕ) : leBytes 1 n = [n.toUInt8] := by simp [leBytes, Nat.toUInt8]

/-- What the function returns. -/
theorem credV2PrehashBytes_eq_ok {msg : CredMsgV2} {out : List UInt8} :
    credV2PrehashBytes msg.v msg.kid msg.c msg.iat msg.exp msg.schema = .ok out ↔
      msg.FieldsFit ∧ out = msg.transcript := by
  unfold credV2PrehashBytes CredMsgV2.FieldsFit CredMsgV2.transcript prefixed
  split
  · simp only [reduceCtorEq, false_iff]
    omega
  · simp only [leBytes_one, List.append_assoc, Except.ok.injEq]
    constructor
    · rintro rfl
      exact ⟨by omega, rfl⟩
    · rintro ⟨-, rfl⟩
      rfl

theorem credV2PrehashBytes_eq_error {msg : CredMsgV2} {e : Error} :
    credV2PrehashBytes msg.v msg.kid msg.c msg.iat msg.exp msg.schema = .error e ↔
      ¬ msg.FieldsFit ∧ e = .fieldTooLong := by
  unfold credV2PrehashBytes CredMsgV2.FieldsFit
  split
  · simp only [Except.error.injEq, eq_comm (a := e)]
    constructor
    · exact fun he => ⟨by omega, he⟩
    · exact fun he => he.2
  · simp only [reduceCtorEq, false_iff]
    omega

/-- **The transcript is self-delimiting.** -/
theorem CredMsgV2.selfDelimiting_transcript :
    SelfDelimiting {msg : CredMsgV2 | msg.FieldsFit} CredMsgV2.transcript := by
  have hfields := (selfDelimiting_byte.append ((selfDelimiting_prefixed 1).append
    ((selfDelimiting_bytes 32).append (selfDelimiting_u64Be.append (selfDelimiting_u64Be.append
      (selfDelimiting_prefixed 1)))))).prepend credDst
  refine hfields.comap CredMsgV2.fields_injective.injOn ?_
  rintro msg ⟨hkid, hschema⟩
  exact ⟨trivial, Nat.lt_succ_of_le hkid, trivial, trivial, trivial, Nat.lt_succ_of_le hschema⟩

/-- **The credential prehash is uniquely decodable**: it fails exactly on a key identifier or a
schema of more than 255 bytes; equal outputs come from equal credentials, and no output begins
another. -/
theorem credV2PrehashBytes_decodable :
    (∀ msg : CredMsgV2,
      credV2PrehashBytes msg.v msg.kid msg.c msg.iat msg.exp msg.schema = .error .fieldTooLong ↔
        255 < msg.kid.length ∨ 255 < msg.schema.length) ∧
    ∀ (msg msg' : CredMsgV2) (out out' : List UInt8),
      credV2PrehashBytes msg.v msg.kid msg.c msg.iat msg.exp msg.schema = .ok out →
      credV2PrehashBytes msg'.v msg'.kid msg'.c msg'.iat msg'.exp msg'.schema = .ok out' →
      (out = out' → msg = msg') ∧ (out <+: out' → out = out') := by
  constructor
  · intro msg
    simp only [credV2PrehashBytes_eq_error, CredMsgV2.FieldsFit, and_true]
    omega
  · intro msg msg' out out' hout hout'
    obtain ⟨hfit, rfl⟩ := credV2PrehashBytes_eq_ok.mp hout
    obtain ⟨hfit', rfl⟩ := credV2PrehashBytes_eq_ok.mp hout'
    obtain ⟨hinj, hbegins⟩ := selfDelimiting_iff.mp CredMsgV2.selfDelimiting_transcript
    exact ⟨hinj hfit hfit', hbegins msg hfit msg' hfit'⟩

/-- A credential whose key identifier could be taken for an empty one and what follows it. -/
def splitMsg (kid schema : List UInt8) : CredMsgV2 where
  v := 2
  kid := kid
  c := ⟨List.replicate 32 0, rfl⟩
  iat := 0
  exp := 0
  schema := schema

theorem credV2PrehashBytes_decodable_split :
    ∃ out out', credV2PrehashBytes 2 [] ⟨List.replicate 32 0, rfl⟩ 0 0 [0] = .ok out ∧
      credV2PrehashBytes 2 [0] ⟨List.replicate 32 0, rfl⟩ 0 0 [] = .ok out' ∧
      out ≠ out' ∧ ¬ out <+: out' := by
  have hdecode := (credV2PrehashBytes_decodable.2 (splitMsg [] [0]) (splitMsg [0] []) _ _ rfl rfl)
  have hne : splitMsg [] [0] ≠ splitMsg [0] [] := by decide
  exact ⟨_, _, rfl, rfl, fun h => hne (hdecode.1 h), fun h => hne (hdecode.1 (hdecode.2 h))⟩

end ProviiCrypto
