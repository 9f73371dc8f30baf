import ProviiCrypto.Commit
import ProviiCrypto.Reference.Blake2s
import ProviiCrypto.Reference.Sapling
import ProviiCrypto.Signature

/-!
# A credential

A credential as the host issues it, evaluated: the commitment to a date of birth and a signature
by the key of scalar one, with the nonce one. `commit_credMsg` and `verify_credMsg` are what the
host's functions return.
-/

namespace ProviiCrypto.Reference

open Number Edwards

/-! ## The commitment -/

/-- The date of birth, in days. -/
def credDob : Int32 := 7300

/-- The randomness: sixteen distinct bytes. -/
def credR : List Bool := bytesBits ((List.range 16).map UInt8.ofNat)

/-- The point of the commitment. -/
def commitmentPoint : Point where
  u := (1219246187226027258856400001111830228701180056915578355294257217720293692119 : ℕ)
  v := (27164487058057813293309684586545992060928287347346568592755513410686457332973 : ℕ)
  onCurve := onCurve_of_check (by decide +kernel)

/-- The credential. -/
def credMsg : CredMsgV2 where
  v := 2
  kid := ascii "provii:kid:001"
  c := commitmentPoint.toBytes
  iat := 1700000000
  exp := 1800000000
  schema := ascii "provii.age/0"

/-- The bits of the commitment, with those of its personalisation. -/
def commitmentBits : List Bool :=
  List.replicate 6 true ++ (toBits 32 (biasForCircuit credDob).toNat ++ credR)

/-- The first generator. -/
def firstGenerator : Point := pointOfCoords (generatorCoords[0]) (generatorCheck_of_mem _ (by simp))

/-- A multiple of the first generator has these coordinates, evaluated. -/
def multipleCheck (n u v : ℕ) : Bool :=
  let (gu, gv) := generatorCoords[0]
  let t := Triple.smul scalarModulus edwardsDNat 252 n ⟨gu, gv, 1⟩
  t.X * 1 % scalarModulus == u * t.Z % scalarModulus &&
    t.Y * 1 % scalarModulus == v * t.Z % scalarModulus

/-- A segment's sum, by the digits it reads and the coordinates of their multiple. -/
theorem segmentSum_of_check {bits : List Bool} {n u v : ℕ} {P : Point}
    (hdigits : signedSum (windowDigits bits) = n) (hn : n < 2 ^ 252) (hu : P.u = u) (hv : P.v = v)
    (h : multipleCheck n u v = true) : segmentSum firstGenerator bits = P := by
  rw [segmentSum, hdigits, natCast_zsmul]
  have hrepr := (Triple.Repr.ofNat (P := firstGenerator) rfl rfl).smul edwardsDNat_cast 252 n hn
  simp only [multipleCheck, Bool.and_eq_true, beq_iff_eq] at h
  exact (hrepr.eq_iff (Triple.Repr.ofNat hu hv)).mpr h

/-- The multiple of the first generator is the point given by its coordinates. -/
theorem segmentSum_commitmentBits :
    segmentSum firstGenerator commitmentBits = commitmentPoint :=
  segmentSum_of_check (n := 1763616237251309089400367188879922605594249453141422038715479559868)
    (by decide +kernel) (by norm_num) rfl rfl (by decide +kernel)

theorem commitBytes_credMsg : sapling.commitBytes credDob credR = some credMsg.c := by
  have hgens : sapling.generators = firstGenerator :: pedersenHashGenerators.tail := rfl
  rw [sapling.commitBytes_eq_segmentSum hgens credDob rfl]
  exact congrArg (fun P : Point => some P.toBytes) segmentSum_commitmentBits

/-- The host computes the commitment. -/
theorem commit_credMsg : sapling.pedersenCommitDobValidated credDob credR = .ok credMsg.c :=
  sapling.pedersenCommitDobValidated_eq_ok.mpr
    ⟨by decide +kernel, by decide +kernel, by decide +kernel, commitBytes_credMsg⟩

/-! ## The signature -/

/-- The transcript of the credential. -/
def credTranscript : List UInt8 :=
  credDst ++ [2] ++ [14] ++ credMsg.kid ++ credMsg.c.1 ++ u64Be 1700000000 ++ u64Be 1800000000 ++
    [12] ++ credMsg.schema

/-- The challenge, when the key and the nonce are one. -/
def credChallenge : ℕ :=
  leNat (blake2s redjubjubPersonalization (spendingKeyGenBytes.1 ++ spendingKeyGenBytes.1 ++
    (blake2s noPersonalization credTranscript).1)).1

/-- The scalar `s`: the nonce and the challenge times the key. -/
def credS : ℕ := (1 + credChallenge) % subgroupOrder

/-- The signature. -/
def credSig : Bytes 64 :=
  joinHalves spendingKeyGenBytes ⟨leBytes 32 credS, length_leBytes _ _⟩

theorem credS_pos : 0 < credS := by decide +kernel

theorem credS_lt : credS < subgroupOrder := Nat.mod_lt _ (by norm_num)

theorem credS_smul :
    credS • spendingKeyGenerator = spendingKeyGenerator + credChallenge • spendingKeyGenerator := by
  rw [credS, primeOrder_spendingKeyGenerator.nsmul_mod, add_nsmul, one_nsmul]

/-- **The key of scalar one, with the nonce one, signs**: a signature `s = 1 + challenge` verifies
unless it is zero. -/
theorem verify_of_challenge (J : Jubjub) {msg : CredMsgV2} {transcript : List UInt8} {c s : ℕ}
    (ht : credV2PrehashBytes msg.v msg.kid msg.c msg.iat msg.exp msg.schema = .ok transcript)
    (hc : leNat (blake2s redjubjubPersonalization (spendingKeyGenBytes.1 ++ spendingKeyGenBytes.1 ++
      (blake2s noPersonalization transcript).1)).1 = c) (hs : s = (1 + c) % subgroupOrder)
    (hpos : 0 < s) :
    verifyCredV2 blake2s J.fr J.subgroup msg
      (joinHalves spendingKeyGenBytes ⟨leBytes 32 s, length_leBytes _ _⟩) spendingKeyGenBytes =
        .ok () := by
  have hlt : s < subgroupOrder := hs ▸ Nat.mod_lt _ (by norm_num)
  have hval : leNat (leBytes 32 s) = s := leNat_leBytes_of_lt (hlt.trans (by norm_num))
  refine verifyCredV2_subgroup_eq_ok.mpr ⟨spendingKeyGenerator, spendingKeyGenerator, transcript,
    ⟨toBytes_spendingKeyGenerator, primeOrder_spendingKeyGenerator, spendingKeyGenerator_ne_zero⟩,
    ⟨?_, primeOrder_spendingKeyGenerator, spendingKeyGenerator_ne_zero⟩, ?_, ht, ?_⟩
  · rw [lowHalf_joinHalves]
    exact toBytes_spendingKeyGenerator
  · rw [highHalf_joinHalves, hval]
    exact ⟨hpos, hlt⟩
  · rw [highHalf_joinHalves, hval, toBytes_spendingKeyGenerator, hc, hs,
      primeOrder_spendingKeyGenerator.nsmul_mod, add_nsmul, one_nsmul]

/-- The host verifies the credential. -/
theorem verify_credMsg (J : Jubjub) :
    verifyCredV2 blake2s J.fr J.subgroup credMsg credSig spendingKeyGenBytes = .ok () :=
  verify_of_challenge J (show _ = Except.ok credTranscript from rfl) (show _ = credChallenge from rfl)
    rfl credS_pos

end ProviiCrypto.Reference
