import ProviiCrypto.Bellman.Interface
import ProviiCrypto.Commons.Basic

/-!
# `provii-crypto-public-inputs`

The eight field elements of a statement.

* `assemble_eq_ok`: assembly never fails, and yields the packings of the five values' bits.
* `assemble_injective`: the elements determine the statement, because 254 bits stay below the
  modulus and the last two bits of a 32-byte value get an element of their own.
-/

namespace ProviiCrypto

open Number R1CS

/-- `PublicInputError`. -/
inductive PublicInputError where
  | wrongCount (expected got : ℕ)
  deriving DecidableEq, Repr

/-- `bits_le_from_bytes`. -/
def bitsLeFromBytes (bytes : List UInt8) : List Bool := bytes.flatMap u8Bits

/-- `u32::to_le_bytes`. -/
def u32ToLeBytes (x : UInt32) : List UInt8 := leBytes 4 x.toNat

section

variable {H : Blake2s} (B : Bellman H)

/-- `assemble_public_inputs_manual`. -/
def assemblePublicInputsManual (direction : Bool) (cutoffDays : Int32)
    (rpHash issuerVkBytes credNullifier : Bytes 32) : Except PublicInputError (List Scalar) :=
  let dirU32 : UInt32 := if direction then 1 else 0
  let dirBits := bitsLeFromBytes (u32ToLeBytes dirU32)
  let out := B.computeMultipacking dirBits
  let cutoffBiased := biasForCircuit cutoffDays
  let cutoffBits := bitsLeFromBytes (u32ToLeBytes cutoffBiased)
  let out := out ++ B.computeMultipacking cutoffBits
  let out := out ++ B.computeMultipacking (bitsLeFromBytes rpHash.1)
  let out := out ++ B.computeMultipacking (bitsLeFromBytes issuerVkBytes.1)
  let out := out ++ B.computeMultipacking (bitsLeFromBytes credNullifier.1)
  if out.length ≠ 8 then .error (.wrongCount 8 out.length) else .ok out

/-- `assemble_public_inputs_canonical`. -/
def assemblePublicInputsCanonical (direction : Bool) (cutoffDays : Int32)
    (rpHash issuerVkBytes credNullifier : Bytes 32) : Except PublicInputError (List Scalar) :=
  assemblePublicInputsManual B direction cutoffDays rpHash issuerVkBytes credNullifier

/-- `assemble_public_inputs_diagnostic`. -/
def assemblePublicInputsDiagnostic (direction : Bool) (cutoffDays : Int32)
    (rpHash issuerVkBytes credNullifier : Bytes 32) : Except PublicInputError (List Scalar) :=
  assemblePublicInputsManual B direction cutoffDays rpHash issuerVkBytes credNullifier

/-! ## Packing -/

theorem bitsLeFromBytes_eq (bytes : List UInt8) : bitsLeFromBytes bytes = bytesBits bytes :=
  flatMap_u8Bits bytes

theorem bytesBits_u32ToLeBytes (x : UInt32) : bytesBits (u32ToLeBytes x) = toBits 32 x.toNat := by
  rw [u32ToLeBytes, bytesBits_leBytes]

/-- The number of elements. -/
theorem length_computeMultipacking (bits : List Bool) :
    (B.computeMultipacking bits).length = (bits.length + 253) / 254 := by
  rw [B.computeMultipacking_eq, List.length_map, length_chunks]
  rfl

/-- The value of a string of at most 254 bits is below the modulus. -/
theorem packed_injective {xs ys : List Bool} (hlen : xs.length = ys.length) (hle : xs.length ≤ 254)
    (h : ((ofBits xs : ℕ) : Scalar) = ((ofBits ys : ℕ) : Scalar)) : xs = ys := by
  have hlt : ∀ zs : List Bool, zs.length ≤ 254 → ofBits zs < scalarModulus := fun zs hz =>
    (ofBits_lt zs).trans_le ((Nat.pow_le_pow_right two_pos hz).trans (by norm_num))
  refine ofBits_injective hlen ?_
  rwa [ZMod.natCast_eq_natCast_iff', Nat.mod_eq_of_lt (hlt xs hle),
    Nat.mod_eq_of_lt (hlt ys (hlen ▸ hle))] at h

/-- **Packing is injective** on strings of one length. -/
theorem computeMultipacking_injective {xs ys : List Bool} (hlen : xs.length = ys.length)
    (h : B.computeMultipacking xs = B.computeMultipacking ys) : xs = ys := by
  rw [B.computeMultipacking_eq, B.computeMultipacking_eq] at h
  exact chunks_injective (by decide) _ (fun _ _ hl hle => packed_injective hl hle) hlen h

/-! ## Statements -/

/-- The bits of the five values of a statement, in order. -/
structure StatementBits where
  dir : List Bool
  cutoff : List Bool
  rpHash : List Bool
  issuerVk : List Bool
  nullifier : List Bool

/-- The lengths the circuit uses. -/
structure StatementBits.WellFormed (s : StatementBits) : Prop where
  dir : s.dir.length = 32
  cutoff : s.cutoff.length = 32
  rpHash : s.rpHash.length = 256
  issuerVk : s.issuerVk.length = 256
  nullifier : s.nullifier.length = 256

/-- The packings of the five values, in order. -/
def StatementBits.pack (s : StatementBits) : List Scalar :=
  B.computeMultipacking s.dir ++ (B.computeMultipacking s.cutoff ++
    (B.computeMultipacking s.rpHash ++ (B.computeMultipacking s.issuerVk ++
      B.computeMultipacking s.nullifier)))

/-- The bits of a statement. -/
def statementBits (direction : Bool) (cutoffDays : Int32)
    (rpHash issuerVkBytes credNullifier : Bytes 32) : StatementBits where
  dir := toBits 32 (if direction then 1 else 0)
  cutoff := toBits 32 (biasForCircuit cutoffDays).toNat
  rpHash := bytesBits rpHash.1
  issuerVk := bytesBits issuerVkBytes.1
  nullifier := bytesBits credNullifier.1

theorem wellFormed_statementBits (direction : Bool) (cutoffDays : Int32)
    (rpHash issuerVkBytes credNullifier : Bytes 32) :
    (statementBits direction cutoffDays rpHash issuerVkBytes credNullifier).WellFormed where
  dir := length_toBits _ _
  cutoff := length_toBits _ _
  rpHash := by simp [statementBits, rpHash.2]
  issuerVk := by simp [statementBits, issuerVkBytes.2]
  nullifier := by simp [statementBits, credNullifier.2]

theorem StatementBits.WellFormed.length_pack {s : StatementBits} (h : s.WellFormed) :
    (s.pack B).length = 8 := by
  simp only [StatementBits.pack, List.length_append, length_computeMultipacking, h.dir, h.cutoff,
    h.rpHash, h.issuerVk, h.nullifier]

/-- **The elements determine the bits.** -/
theorem StatementBits.WellFormed.pack_injective {s t : StatementBits} (hs : s.WellFormed)
    (ht : t.WellFormed) (h : s.pack B = t.pack B) : s = t := by
  have hlen : ∀ {xs ys : List Bool}, xs.length = ys.length →
      (B.computeMultipacking xs).length = (B.computeMultipacking ys).length := by
    intro xs ys h
    rw [length_computeMultipacking, length_computeMultipacking, h]
  have hd := hs.dir.trans ht.dir.symm
  have hc := hs.cutoff.trans ht.cutoff.symm
  have hr := hs.rpHash.trans ht.rpHash.symm
  have hv := hs.issuerVk.trans ht.issuerVk.symm
  obtain ⟨h₁, h⟩ := List.append_inj h (hlen hd)
  obtain ⟨h₂, h⟩ := List.append_inj h (hlen hc)
  obtain ⟨h₃, h⟩ := List.append_inj h (hlen hr)
  obtain ⟨h₄, h₅⟩ := List.append_inj h (hlen hv)
  cases s
  cases t
  simp only [StatementBits.mk.injEq]
  exact ⟨computeMultipacking_injective B hd h₁, computeMultipacking_injective B hc h₂,
    computeMultipacking_injective B hr h₃, computeMultipacking_injective B hv h₄,
    computeMultipacking_injective B (hs.nullifier.trans ht.nullifier.symm) h₅⟩

/-- Assembly never fails. -/
theorem assemble_eq_ok (direction : Bool) (cutoffDays : Int32)
    (rpHash issuerVkBytes credNullifier : Bytes 32) :
    assemblePublicInputsCanonical B direction cutoffDays rpHash issuerVkBytes credNullifier =
      .ok ((statementBits direction cutoffDays rpHash issuerVkBytes credNullifier).pack B) := by
  have hpack := (wellFormed_statementBits direction cutoffDays rpHash issuerVkBytes
    credNullifier).length_pack B
  have hdir : (if direction then (1 : UInt32) else 0).toNat = if direction then 1 else 0 := by
    cases direction <;> rfl
  simp only [StatementBits.pack, statementBits] at hpack ⊢
  simp only [assemblePublicInputsCanonical, assemblePublicInputsManual, bitsLeFromBytes_eq,
    bytesBits_u32ToLeBytes, hdir, List.append_assoc]
  rw [if_neg (not_not.mpr hpack)]

/-- The bits determine the statement. -/
theorem statementBits_injective {d d' : Bool} {c c' : Int32} {r r' v v' n n' : Bytes 32}
    (h : statementBits d c r v n = statementBits d' c' r' v' n') :
    d = d' ∧ c = c' ∧ r = r' ∧ v = v' ∧ n = n' := by
  simp only [statementBits, StatementBits.mk.injEq] at h
  obtain ⟨hd, hc, hr, hv, hn⟩ := h
  refine ⟨?_, biasBits_injective hc, Subtype.ext (bytesBits_injective hr),
    Subtype.ext (bytesBits_injective hv), Subtype.ext (bytesBits_injective hn)⟩
  have hdir := toBits_injOn (by split <;> norm_num) (by split <;> norm_num) hd
  cases d <;> cases d' <;> simp_all

end

end ProviiCrypto
