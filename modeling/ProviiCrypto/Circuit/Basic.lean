import ProviiCrypto.Gadgets.Pedersen
import ProviiCrypto.Gadgets.Prehash
import ProviiCrypto.Gadgets.RedJubjub
import ProviiCrypto.PublicInputs

/-!
# `provii-crypto-circuit-age`

`AgeCircuit::synthesize` in the order of its source: the public values, the witness, and the
relations between the two. `synthesizeWires` also returns the wires, so that a theorem can read
an assignment on them; `synthesize` is the same run.

`Relation` is what the circuit is for: the opening of a credential that a statement is true of.
-/

namespace ProviiCrypto

open R1CS R1CS.Synth Number Gadgets

/-- `AgeDirection`. -/
inductive AgeDirection where
  | over
  | under
  deriving DecidableEq, Repr

/-- `PUBLIC_INPUTS_LEN`. -/
def publicInputsLen : ℕ := 8

/-- `KID_SIZE_BYTES`. -/
def kidSizeBytes : ℕ := 14

/-- `SCHEMA_SIZE_BYTES`. -/
def schemaSizeBytes : ℕ := 12

/-- `AgePublic`. -/
structure AgePublic where
  direction : AgeDirection
  cutoffDays : Int32
  rpHash : Bytes 32
  issuerVkBytes : Bytes 32
  credNullifier : Bytes 32
  deriving DecidableEq

/-- `AgeWitness`. -/
structure AgeWitness where
  dobDays : Int32
  rBits : List Bool
  issuerVkBytes : Bytes 32
  sigRjBytes : List UInt8
  v : UInt8
  kid : List UInt8
  cBytes : Bytes 32
  iat : UInt64
  exp : UInt64
  schema : List UInt8
  deriving DecidableEq

/-- `AgeWitness::new`, the two names as the bytes of their strings. -/
def AgeWitness.new (dobDays : Int32) (rBits : List Bool) (issuerVkBytes : Bytes 32)
    (sigRjBytes : List UInt8) (v : UInt8) (kid : List UInt8) (cBytes : Bytes 32) (iat exp : UInt64)
    (schema : List UInt8) : Except Error AgeWitness :=
  if kid.length ≠ kidSizeBytes then .error .invalidInput
  else if schema.length ≠ schemaSizeBytes then .error .invalidInput
  else if rBits.length ≠ 128 then .error .invalidInput
  else if sigRjBytes.length ≠ 64 then .error .invalidInput
  -- values that could never satisfy the circuit
  else if cBytes.1 = List.replicate 32 0 then .error .invalidInput
  else if sigRjBytes.all (· == 0) then .error .invalidInput
  else .ok ⟨dobDays, rBits, issuerVkBytes, sigRjBytes, v, kid, cBytes, iat, exp, schema⟩

/-- `AgeCircuit`. -/
structure AgeCircuit where
  pub : AgePublic
  witness : Option AgeWitness
  deriving DecidableEq

/-! ## Wires -/

/-- The wires of the public values. -/
structure PublicWires where
  dirBits : List Boolean
  directionBit : Boolean
  cutoffBits : List Boolean
  rpHashBits : List Boolean
  issuerVkBitsPublic : List Boolean
  credNullifierBits : List Boolean

/-- The wires of the witness. -/
structure WitnessWires where
  dobBits : List Boolean
  rBits : List Boolean
  issuerVk : RJVerificationKey
  sigRj : RJSignature
  vBits : List Boolean
  kidBits : List Boolean
  cBytesBits : List Boolean
  iatBits : List Boolean
  expBits : List Boolean
  schemaBits : List Boolean

/-- The values that step 1 allocates, none of them known without a witness. The signature is
apart: see `allocWitness`. -/
structure WitnessValues where
  dob : Option UInt32
  r : Option (List Bool)
  vk : Option (Bytes 32)
  v : Option UInt8
  kid : Option (List UInt8)
  c : Option (List UInt8)
  iat : Option UInt64
  exp : Option UInt64
  schema : Option (List UInt8)

section

variable {H : Blake2s} (B : Bellman H) (S : Sapling) (J : Jubjub)

/-- Step 0: allocate the public values, and expose them packed. -/
def publicWires (pub : AgePublic) : Synth Scalar PublicWires := do
  let dirU32Val : UInt32 := if pub.direction = .over then 1 else 0
  let dirBits ← allocU32Input B dirU32Val
  let directionBit ← okOr dirBits.head? .unsatisfiable
  let cutoffBits ← allocU32Input B (biasForCircuit pub.cutoffDays)
  let rpHashBits ← allocBytesInput B pub.rpHash.1
  let issuerVkBitsPublic ← allocBytesInput B pub.issuerVkBytes.1
  let credNullifierBits ← allocBytesInput B pub.credNullifier.1
  B.packIntoInputs dirBits
  B.packIntoInputs cutoffBits
  B.packIntoInputs rpHashBits
  B.packIntoInputs issuerVkBitsPublic
  B.packIntoInputs credNullifierBits
  return ⟨dirBits, directionBit, cutoffBits, rpHashBits, issuerVkBitsPublic, credNullifierBits⟩

/-- The ten allocations of step 1, the signature's being `sigRj`. -/
def allocWitness (sigRj : Synth Scalar RJSignature) (x : WitnessValues) :
    Synth Scalar WitnessWires := do
  let dobBits ← allocU32Witness B x.dob
  let rBits ← allocBoolVecWitnessFixed B x.r 128
  let issuerVk ← allocVk B J x.vk
  let sigRj ← sigRj
  let vBits ← allocU8Witness B x.v
  let kidBits ← allocBytesWitnessFixed B x.kid kidSizeBytes
  let cBytesBits ← allocBytesWitnessFixed B x.c 32
  let iatBits ← allocU64Witness B x.iat
  let expBits ← allocU64Witness B x.exp
  let schemaBits ← allocBytesWitnessFixed B x.schema schemaSizeBytes
  return ⟨dobBits, rBits, issuerVk, sigRj, vBits, kidBits, cBytesBits, iatBits, expBits, schemaBits⟩

/-- The values of a witness. -/
def AgeWitness.values (w : AgeWitness) : WitnessValues where
  dob := some (biasForCircuit w.dobDays)
  r := some w.rBits
  vk := some w.issuerVkBytes
  v := some w.v
  kid := some w.kid
  c := some w.cBytes.1
  iat := some w.iat
  exp := some w.exp
  schema := some w.schema

/-- No value is known. -/
def WitnessValues.unknown : WitnessValues :=
  ⟨none, none, none, none, none, none, none, none, none⟩

/-- Step 1: allocate the witness, once its sizes are checked. -/
def witnessWires (witness : Option AgeWitness) : Synth Scalar WitnessWires :=
  match witness with
  | some w =>
    if w.kid.length ≠ kidSizeBytes then throw .unsatisfiable
    else if w.schema.length ≠ schemaSizeBytes then throw .unsatisfiable
    else if h : w.sigRjBytes.length ≠ 64 then throw .unsatisfiable
    else
      let sigArray : Bytes 64 := ⟨w.sigRjBytes, not_not.mp h⟩
      if w.rBits.length ≠ 128 then throw .unsatisfiable
      else allocWitness B J (allocSig B J (some sigArray)) w.values
  | none => allocWitness B J (allocSig B J none) .unknown

/-- Step 5: the age check. -/
def ageCheck (directionBit : Boolean) (cutoffBits dobBits : List Boolean) : Synth Scalar Unit := do
  let (geLeft, geRight) ← conditionalSwap B directionBit cutoffBits dobBits
  enforceGe B geLeft geRight

/-- Steps 2 to 8: the relations between the wires. -/
def relations (p : PublicWires) (x : WitnessWires) : Synth Scalar Unit := do
  -- step 2: the key
  let issuerVkBytesBits ← getVkBytesBits x.issuerVk
  enforceBitsEqual issuerVkBytesBits p.issuerVkBitsPublic
  -- step 3: the nullifier
  let computedNullifierBits ← Gadgets.pedersenNullifier B S x.cBytesBits
  enforceBitsEqual computedNullifierBits p.credNullifierBits
  -- step 4: the commitment
  let cPrimeBits ← commit B S x.dobBits x.rBits
  enforceBytesEqual cPrimeBits x.cBytesBits
  ageCheck B p.directionBit p.cutoffBits x.dobBits
  -- steps 6 to 8: the signature
  let messageBits ← buildPrehashBits x.vBits x.kidBits x.cBytesBits x.iatBits x.expBits x.schemaBits
  let prehashBits256 ← Gadgets.blake2s256 B messageBits
  if prehashBits256.length ≠ 256 then throw .unsatisfiable
  else verify B J x.issuerVk x.sigRj prehashBits256

/-- The circuit for a statement, step 1 being `witness`. -/
def synthesizeWith (pub : AgePublic) (witness : Synth Scalar WitnessWires) :
    Synth Scalar (PublicWires × WitnessWires) := do
  let p ← publicWires B pub
  let x ← witness
  if x.kidBits.length ≠ kidSizeBytes * 8 then throw .unsatisfiable
  else if x.schemaBits.length ≠ schemaSizeBytes * 8 then throw .unsatisfiable
  else if x.cBytesBits.length ≠ 256 then throw .unsatisfiable
  else do
    relations B S J p x
    return (p, x)

/-- `AgeCircuit::synthesize`, with its wires. -/
def synthesizeWires (circuit : AgeCircuit) : Synth Scalar (PublicWires × WitnessWires) :=
  synthesizeWith B S J circuit.pub (witnessWires B J circuit.witness)

/-- `AgeCircuit::synthesize`. -/
def synthesize (circuit : AgeCircuit) : Synth Scalar Unit := do
  let _ ← synthesizeWires B S J circuit
  return ()

end

/-! ## The relation -/

/-- The opening of a credential: what a witness stands for. -/
structure Opening where
  dob : Int32
  r : List Bool
  VK : Point
  R : Point
  s : Bytes 32
  v : UInt8
  kid : Bytes 14
  c : Bytes 32
  iat : UInt64
  exp : UInt64
  schema : Bytes 12

/-- The transcript of an opening's credential. -/
def Opening.transcript (x : Opening) : Except Error (List UInt8) :=
  credV2PrehashBytes x.v x.kid.1 x.c x.iat x.exp x.schema.1

/-- The age condition of a statement. -/
def AgeDirection.Allows (d : AgeDirection) (cutoff dob : Int32) : Prop :=
  match d with
  | .over => dob ≤ cutoff
  | .under => cutoff ≤ dob

instance (d : AgeDirection) (cutoff dob : Int32) : Decidable (d.Allows cutoff dob) :=
  match d with
  | .over => inferInstanceAs (Decidable (dob ≤ cutoff))
  | .under => inferInstanceAs (Decidable (cutoff ≤ dob))

/-- **What the circuit is for**: the opening is of a credential whose commitment, nullifier, key,
age and signature are as the statement says. The challenge is the hash read as a number. -/
structure Relation (H : Blake2s) (S : Sapling) (d : AgeDirection) (cutoff : Int32)
    (vk nul : Bytes 32) (x : Opening) : Prop where
  commitment : S.commitBytes x.dob x.r = some x.c
  nullifier : nul = S.pedersenNullifier x.c
  key : x.VK.toBytes = vk
  age : d.Allows cutoff x.dob
  signature : ∃ bytes, x.transcript = .ok bytes ∧
    leNat x.s.1 • spendingKeyGenerator = x.R + leNat (H redjubjubPersonalization
      (x.R.toBytes.1 ++ vk.1 ++ (H noPersonalization bytes).1)).1 • x.VK

end ProviiCrypto
