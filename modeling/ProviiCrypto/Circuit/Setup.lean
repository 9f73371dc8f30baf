import ProviiCrypto.Circuit.Basic

/-!
# Parameter generation

Parameters are generated from a run of the circuit that has no witness and computes no values. Where
bellman's gadgets succeed in such a run (`Bellman.SetsUp`), the circuit does, for every statement
(`synthesize_setsUp`): every length that it checks is right, and no generator runs out.
-/

namespace ProviiCrypto

open R1CS R1CS.Synth Number Gadgets

variable {H : Blake2s} {B : Bellman H} (hB : B.SetsUp)
include hB

/-! ## Bits -/

theorem allocBits_setsUp (values : List (Option Bool)) :
    SetsUp (allocBits B values) fun bs => bs.length = values.length :=
  (SetsUp.mapM (V := fun _ => True) (fun v => (hB.allocBit v).bind fun _ _ => SetsUp.pure trivial)
    values).mono
    fun _ h => h.1

theorem allocBytesWitnessFixed_setsUp (k : ℕ) :
    SetsUp (allocBytesWitnessFixed B none k) fun bs => bs.length = k * 8 :=
  (allocBits_setsUp hB _).mono fun _ h => h.trans List.length_replicate

theorem allocBoolVecWitnessFixed_setsUp (k : ℕ) :
    SetsUp (allocBoolVecWitnessFixed B none k) fun bs => bs.length = k :=
  (allocBits_setsUp hB _).mono fun _ h => h.trans List.length_replicate

theorem allocU32Witness_setsUp (value : Option UInt32) :
    SetsUp (allocU32Witness B value) fun bs => bs.length = 32 :=
  allocBits_setsUp hB _

theorem allocU8Witness_setsUp (value : Option UInt8) :
    SetsUp (allocU8Witness B value) fun bs => bs.length = 8 :=
  allocBits_setsUp hB _

theorem allocU64Witness_setsUp (value : Option UInt64) :
    SetsUp (allocU64Witness B value) fun bs => bs.length = 64 := by
  refine (SetsUp.mapM (fun i => allocU8Witness_setsUp hB _) _).bind fun bytes h => SetsUp.pure ?_
  have hlengths : bytes.map List.length = List.replicate bytes.length 8 :=
    List.map_eq_replicate_iff.mpr h.2
  rw [List.length_flatten, hlengths, List.sum_replicate, h.1]
  rfl

theorem allocU32Input_setsUp (value : UInt32) :
    SetsUp (allocU32Input B value) fun bs => bs.length = 32 :=
  allocBits_setsUp hB _

theorem allocBytesInput_setsUp (bytes : List UInt8) :
    SetsUp (allocBytesInput B bytes) fun bs => bs.length = 8 * bytes.length := by
  refine (allocBits_setsUp hB _).mono fun bs h => h.trans ?_
  simp [List.length_flatMap, u8Bits, mul_comm]

omit hB in
theorem enforceBitsEqual_setsUp {a b : List Boolean} (h : a.length = b.length) :
    SetsUp (enforceBitsEqual a b) fun _ => True :=
  SetsUp.guard (not_not.mpr h) (SetsUp.forM (fun _ => SetsUp.enforce _ _ _) _)

theorem swapBit_setsUp (direction a b : Boolean) :
    SetsUp (swapBit B direction a b) fun _ => True :=
  (hB.allocBit _).bind fun _ _ => (SetsUp.enforce _ _ _).bind fun _ _ => (hB.allocBit _).bind fun _ _ =>
    (SetsUp.enforce _ _ _).bind fun _ _ => SetsUp.pure trivial

theorem conditionalSwap_setsUp (direction : Boolean) {a b : List Boolean} (h : a.length = b.length) :
    SetsUp (conditionalSwap B direction a b) fun r => r.1.length = r.2.length :=
  SetsUp.guard (not_not.mpr h) <|
    (SetsUp.mapM (fun _ => swapBit_setsUp hB direction _ _) _).bind fun pairs _ => SetsUp.pure (by simp)

theorem booleanOr_setsUp (a b : Boolean) : SetsUp (booleanOr B a b) fun _ => True :=
  (hB.and _ _).bind fun _ _ => SetsUp.pure trivial

theorem enforceNoBorrow_setsUp (a b borrow : Boolean) :
    SetsUp (enforceNoBorrow B a b borrow) fun _ => True :=
  (hB.and _ _).bind fun _ _ => (hB.and _ _).bind fun _ _ => (hB.and _ _).bind fun _ _ =>
    (booleanOr_setsUp hB _ _).bind fun _ _ => (booleanOr_setsUp hB _ _).bind fun _ _ =>
    SetsUp.enforce _ _ _

theorem subtractBit_setsUp (a b borrow : Boolean) :
    SetsUp (subtractBit B a b borrow) fun _ => True :=
  (hB.allocBit _).bind fun _ _ => (hB.allocBit _).bind fun _ _ => (SetsUp.enforce _ _ _).bind fun _ _ =>
    SetsUp.pure trivial

theorem enforceGeLoop_setsUp : ∀ (borrow : Boolean) (ps : List (Boolean × Boolean)),
    SetsUp (enforceGeLoop B borrow ps) fun _ => True
  | _, [] => SetsUp.pure trivial
  | borrow, [(a, b)] => enforceNoBorrow_setsUp hB a b borrow
  | borrow, (a, b) :: p :: ps =>
    (subtractBit_setsUp hB a b borrow).bind fun next _ => enforceGeLoop_setsUp next (p :: ps)

theorem enforceGe_setsUp {a b : List Boolean} (h : a.length = b.length) :
    SetsUp (enforceGe B a b) fun _ => True :=
  SetsUp.guard (not_not.mpr h) (enforceGeLoop_setsUp hB _ _)

/-! ## Points -/

namespace EdwardsPoint

theorem interpret_setsUp (u v : AllocatedNum Scalar) : SetsUp (interpret B u v) fun _ => True :=
  (hB.square u).bind fun _ _ => (hB.square v).bind fun _ _ => (hB.mul _ _).bind fun _ _ =>
    (SetsUp.enforce _ _ _).bind fun _ _ => SetsUp.pure trivial

theorem witness_setsUp (p : Option Point) : SetsUp (witness B p) fun _ => True :=
  (AllocatedNum.setsUp_alloc _).bind fun u _ => (AllocatedNum.setsUp_alloc _).bind fun v _ =>
    interpret_setsUp hB u v

theorem double_setsUp (p : EdwardsPoint) : SetsUp (double B p) fun _ => True :=
  (AllocatedNum.setsUp_alloc _).bind fun _ _ => (SetsUp.enforce _ _ _).bind fun _ _ =>
    (hB.mul _ _).bind fun _ _ => (AllocatedNum.setsUp_alloc _).bind fun _ _ =>
    (SetsUp.enforce _ _ _).bind fun _ _ => (AllocatedNum.setsUp_alloc _).bind fun _ _ =>
    (SetsUp.enforce _ _ _).bind fun _ _ => (AllocatedNum.setsUp_alloc _).bind fun _ _ =>
    (SetsUp.enforce _ _ _).bind fun _ _ => SetsUp.pure trivial

theorem add_setsUp (p q : EdwardsPoint) : SetsUp (add B p q) fun _ => True :=
  (AllocatedNum.setsUp_alloc _).bind fun _ _ => (SetsUp.enforce _ _ _).bind fun _ _ =>
    (hB.mul _ _).bind fun _ _ => (hB.mul _ _).bind fun _ _ =>
    (AllocatedNum.setsUp_alloc _).bind fun _ _ => (SetsUp.enforce _ _ _).bind fun _ _ =>
    (AllocatedNum.setsUp_alloc _).bind fun _ _ => (SetsUp.enforce _ _ _).bind fun _ _ =>
    (AllocatedNum.setsUp_alloc _).bind fun _ _ => (SetsUp.enforce _ _ _).bind fun _ _ =>
    SetsUp.pure trivial

omit hB in
theorem conditionallySelect_setsUp (p : EdwardsPoint) (condition : Boolean) :
    SetsUp (conditionallySelect p condition) fun _ => True :=
  (AllocatedNum.setsUp_alloc _).bind fun _ _ => (SetsUp.enforce _ _ _).bind fun _ _ =>
    (AllocatedNum.setsUp_alloc _).bind fun _ _ => (SetsUp.enforce _ _ _).bind fun _ _ =>
    SetsUp.pure trivial

theorem nextBase_setsUp (self : EdwardsPoint) :
    ∀ curbase, SetsUp (nextBase B self curbase) fun _ => True
  | none => SetsUp.pure trivial
  | some prev => double_setsUp hB prev

theorem accumulate_setsUp (thisbase : EdwardsPoint) :
    ∀ result, SetsUp (accumulate B thisbase result) fun _ => True
  | none => SetsUp.pure trivial
  | some prev => add_setsUp hB prev thisbase

/-- The loop has a result once it has seen a bit. -/
theorem mulLoop_setsUp (self : EdwardsPoint) : ∀ (bits : List Boolean) (curbase result),
    (result = none → bits ≠ []) →
    SetsUp (mulLoop B self bits curbase result) fun r => r.isSome
  | [], _, none, h => absurd rfl (h rfl)
  | [], _, some _, _ => SetsUp.pure rfl
  | bit :: bits, curbase, result, _ =>
    (nextBase_setsUp hB self curbase).bind fun _ _ => (conditionallySelect_setsUp _ bit).bind fun _ _ =>
      (accumulate_setsUp hB _ result).bind fun _ _ => mulLoop_setsUp self bits _ _ nofun

theorem mul_setsUp (p : EdwardsPoint) {bits : List Boolean} (hne : bits ≠ []) :
    SetsUp (mul B p bits) fun _ => True :=
  (mulLoop_setsUp hB p bits none none fun _ => hne).bind fun _ h =>
    (SetsUp.okOr h).mono fun _ _ => trivial

theorem assertNotSmallOrder_setsUp (p : EdwardsPoint) :
    SetsUp (assertNotSmallOrder B p) fun _ => True :=
  (double_setsUp hB _).bind fun _ _ => (double_setsUp hB _).bind fun _ _ =>
    (double_setsUp hB _).bind fun _ _ => hB.assertNonzero _

theorem repr_setsUp (p : EdwardsPoint) : SetsUp (repr B p) fun bs => bs.length = 256 := by
  refine (hB.toBitsLeStrict _).bind fun u hu => (hB.toBitsLeStrict _).bind fun v hv => ?_
  obtain ⟨sign, rest, rfl⟩ := List.exists_cons_of_length_pos (by omega : 0 < u.length)
  exact SetsUp.pure (by rw [List.length_append, hv, List.length_singleton])

end EdwardsPoint

/-! ## Hashes -/

omit hB in
theorem MontgomeryPoint.add_setsUp (p q : MontgomeryPoint) : SetsUp (p.add q) fun _ => True :=
  (AllocatedNum.setsUp_alloc _).bind fun _ _ => (SetsUp.enforce _ _ _).bind fun _ _ =>
    (AllocatedNum.setsUp_alloc _).bind fun _ _ => (SetsUp.enforce _ _ _).bind fun _ _ =>
    (AllocatedNum.setsUp_alloc _).bind fun _ _ => (SetsUp.enforce _ _ _).bind fun _ _ =>
    SetsUp.pure trivial

omit hB in
theorem MontgomeryPoint.intoEdwards_setsUp (m : MontgomeryPoint) :
    SetsUp m.intoEdwards fun _ => True :=
  (AllocatedNum.setsUp_alloc _).bind fun _ _ => (SetsUp.enforce _ _ _).bind fun _ _ =>
    (AllocatedNum.setsUp_alloc _).bind fun _ _ => (SetsUp.enforce _ _ _).bind fun _ _ =>
    SetsUp.pure trivial

omit hB in
theorem addWindow_setsUp (tmp : MontgomeryPoint) : ∀ acc, SetsUp (addWindow tmp acc) fun _ => True
  | none => SetsUp.pure trivial
  | some m => MontgomeryPoint.add_setsUp tmp m

/-- A segment has a result once it has a window and a bit. -/
theorem segmentLoop_setsUp : ∀ (ts : List WindowTable) (bits : List Boolean)
    (acc : Option MontgomeryPoint), (∀ t ∈ ts, t.length = 4) → (acc = none → ts ≠ [] ∧ bits ≠ []) →
    SetsUp (segmentLoop B ts bits acc) fun r => r.1.isSome
  | [], _, none, _, h => absurd rfl (h rfl).1
  | _ :: _, [], none, _, h => absurd rfl (h rfl).2
  | [], _, some m, _, _ => SetsUp.pure rfl
  | _ :: _, [], some m, _, _ => SetsUp.pure rfl
  | t :: ts, a :: bits, acc, ht, _ => by
    obtain ⟨ht, hts⟩ := List.forall_mem_cons.mp ht
    exact (hB.lookup3 _ _ _ t ht).bind fun tmp _ => (addWindow_setsUp _ acc).bind fun _ _ =>
      segmentLoop_setsUp ts bits.tail.tail _ hts nofun

theorem addSegment_setsUp (p : EdwardsPoint) : ∀ acc, SetsUp (addSegment B p acc) fun _ => True
  | none => SetsUp.pure trivial
  | some e => EdwardsPoint.add_setsUp hB p e

/-- The bits that fit the generators have a sum. -/
theorem pedersenLoop_setsUp {gs : List Point} {gens : List (List WindowTable)}
    (h : List.Forall₂ GeneratorTables gs gens) : ∀ (bits : List Boolean) (acc : Option EdwardsPoint),
    (acc = none → bits ≠ []) → bits.length ≤ 3 * pedersenHashChunksPerGenerator * gs.length →
    SetsUp (pedersenLoop B gens bits acc) fun r => r.isSome := by
  induction h with
  | nil =>
    intro bits acc hne hlen
    obtain rfl := List.length_eq_zero_iff.mp (Nat.le_zero.mp hlen)
    obtain ⟨e, rfl⟩ := Option.ne_none_iff_exists'.mp fun h => hne h rfl
    exact SetsUp.pure rfl
  | @cons g ts gs gens hg _ ih =>
    intro bits acc hne hlen
    cases bits with
    | nil =>
      obtain ⟨e, rfl⟩ := Option.ne_none_iff_exists'.mp fun h => hne h rfl
      exact SetsUp.pure rfl
    | cons b bits =>
      have hts : ts ≠ [] := by
        rintro rfl
        exact absurd hg.length_eq (by decide)
      refine ((segmentLoop_setsUp hB ts (b :: bits) none hg.tables.length_eq fun _ =>
        ⟨hts, List.cons_ne_nil _ _⟩).and_returns (segmentLoop_rest B ts _ none)).bind fun r hr => ?_
      refine (SetsUp.okOr hr.1).bind fun m _ => (MontgomeryPoint.intoEdwards_setsUp m).bind fun p _ =>
        (addSegment_setsUp hB p acc).bind fun q _ => ih r.2 (some q) nofun ?_
      rw [hr.2, List.length_drop, hg.length_eq]
      rw [(List.length_cons : (g :: gs).length = gs.length + 1), Nat.mul_succ] at hlen
      omega

variable (S : Sapling) (J : Jubjub)

theorem pedersenHash_setsUp (p : Personalization) (hp : (S.getBits p).length = 6)
    {bits : List Boolean} (hlen : 6 + bits.length ≤ 1134) :
    SetsUp (pedersenHash B S p bits) fun _ => True := by
  obtain ⟨gens, hall, heq⟩ := hash_loop B S p hp bits
  have hlength : ((S.getBits p).map Boolean.constant ++ bits).length = 6 + bits.length := by
    rw [List.length_append, List.length_map, hp]
  rw [heq]
  refine (pedersenLoop_setsUp hB hall _ none (fun _ h => ?_) ?_).bind fun r hr =>
    (SetsUp.okOr hr).mono fun _ _ => trivial
  · rw [h, List.length_nil] at hlength
    omega
  · rw [hlength, S.length_generators]
    exact hlen

theorem hashRepr_setsUp (p : Personalization) (hp : (S.getBits p).length = 6) {bits : List Boolean}
    (hlen : 6 + bits.length ≤ 1134) : SetsUp (hashRepr B S p bits) fun out => out.length = 256 :=
  (pedersenHash_setsUp hB S p hp hlen).bind fun point _ => EdwardsPoint.repr_setsUp hB point

theorem commit_setsUp {dobBits rBits : List Boolean} (hlen : dobBits.length + rBits.length ≤ 1128) :
    SetsUp (commit B S dobBits rBits) fun out => out.length = 256 :=
  hashRepr_setsUp hB S _ S.length_getBits_noteCommitment (by rw [List.length_append]; omega)

theorem pedersenNullifier_setsUp {cBytesBits : List Boolean} (hlen : cBytesBits.length = 256) :
    SetsUp (Gadgets.pedersenNullifier B S cBytesBits) fun out => out.length = 256 := by
  refine (pedersenHash_setsUp hB S _ S.length_getBits_merkleTree ?_).bind fun point _ =>
    (EdwardsPoint.repr_setsUp hB point).bind fun out hout => SetsUp.pure ?_
  · rw [List.length_append, length_flatMap_constantByte, length_nullifierDst, hlen]
    norm_num
  · rw [List.length_take, hout]
    rfl

/-! ## The signature -/

theorem witnessChecked_setsUp (P : Point) : SetsUp (witnessChecked B P) fun _ => True :=
  (EdwardsPoint.witness_setsUp hB _).bind fun p _ =>
    (EdwardsPoint.assertNotSmallOrder_setsUp hB p).bind fun _ _ => SetsUp.pure trivial

theorem allocVk_setsUp : SetsUp (allocVk B J none) fun vk => vk.vkBytesBits.length = 256 :=
  (witnessChecked_setsUp hB _).bind fun point _ => (allocBytesWitnessFixed_setsUp hB 32).bind
    fun _ hraw => (EdwardsPoint.repr_setsUp hB point).bind fun _ hout =>
    (enforceBitsEqual_setsUp (hout.trans hraw.symm)).bind fun _ _ => SetsUp.pure hraw

theorem allocSig_setsUp : SetsUp (allocSig B J none) fun sig =>
    sig.rBytesBits.length = 256 ∧ sig.sBytesBits.length = 256 :=
  (witnessChecked_setsUp hB _).bind fun point _ => (allocBytesWitnessFixed_setsUp hB 32).bind
    fun _ hr => (allocBytesWitnessFixed_setsUp hB 32).bind fun _ hs =>
    (EdwardsPoint.repr_setsUp hB point).bind fun _ hout =>
    (enforceBitsEqual_setsUp (hout.trans hr.symm)).bind fun _ _ => SetsUp.pure ⟨hr, hs⟩

theorem getGeneratorPoint_setsUp : SetsUp (getGeneratorPoint B J) fun _ => True := by
  rw [getGeneratorPoint_eq]
  exact (EdwardsPoint.witness_setsUp hB _).bind fun _ _ => (SetsUp.enforce _ _ _).bind fun _ _ =>
    (SetsUp.enforce _ _ _).bind fun _ _ => SetsUp.pure trivial

theorem verify_setsUp {vk : RJVerificationKey} {sig : RJSignature} {prehash : List Boolean}
    (hvk : vk.vkBytesBits.length = 256) (hr : sig.rBytesBits.length = 256)
    (hs : sig.sBytesBits.length = 256) (hprehash : prehash.length = 256) :
    SetsUp (verify B J vk sig prehash) fun _ => True := by
  have hne : ∀ {bits : List Boolean}, bits.length = 256 → bits ≠ [] := by
    rintro _ h rfl
    cases h
  refine SetsUp.guard (not_not.mpr hprehash) ((hB.blake2s _ _ ?_).bind fun c hc => ?_)
  · rw [List.length_append, List.length_append, hr, hvk, hprehash]
    norm_num
  · exact (getGeneratorPoint_setsUp hB J).bind fun g _ => (EdwardsPoint.mul_setsUp hB g (hne hs)).bind
      fun _ _ => (EdwardsPoint.mul_setsUp hB _ (hne hc)).bind fun _ _ =>
      (EdwardsPoint.add_setsUp hB _ _).bind fun _ _ => (SetsUp.enforce _ _ _).bind fun _ _ =>
      SetsUp.enforce _ _ _

/-! ## The circuit -/

/-- The wires of the public values have the widths of the fields. -/
structure PublicWires.Sized (p : PublicWires) : Prop where
  cutoff : p.cutoffBits.length = 32
  vk : p.issuerVkBitsPublic.length = 256
  nullifier : p.credNullifierBits.length = 256

theorem publicWires_setsUp (pub : AgePublic) :
    SetsUp (publicWires B pub) PublicWires.Sized := by
  refine (allocU32Input_setsUp hB _).bind fun dir hdir => ?_
  obtain ⟨bit, rest, rfl⟩ := List.exists_cons_of_length_pos (by omega : 0 < dir.length)
  refine (SetsUp.okOr rfl).bind fun _ _ => (allocU32Input_setsUp hB _).bind fun cutoff hcutoff =>
    (allocBytesInput_setsUp hB _).bind fun _ _ => (allocBytesInput_setsUp hB _).bind fun vk hvk =>
    (allocBytesInput_setsUp hB _).bind fun nul hnul => (hB.packIntoInputs _).bind fun _ _ =>
    (hB.packIntoInputs _).bind fun _ _ => (hB.packIntoInputs _).bind fun _ _ =>
    (hB.packIntoInputs _).bind fun _ _ => (hB.packIntoInputs _).bind fun _ _ =>
    SetsUp.pure ⟨hcutoff, ?_, ?_⟩
  · rw [hvk, pub.issuerVkBytes.2]
  · rw [hnul, pub.credNullifier.2]

/-- The wires of the witness have the widths of the fields. -/
structure WitnessWires.Sized (x : WitnessWires) : Prop where
  dob : x.dobBits.length = 32
  r : x.rBits.length = 128
  vk : x.issuerVk.vkBytesBits.length = 256
  sigR : x.sigRj.rBytesBits.length = 256
  sigS : x.sigRj.sBytesBits.length = 256
  v : x.vBits.length = 8
  kid : x.kidBits.length = kidSizeBytes * 8
  c : x.cBytesBits.length = 256
  iat : x.iatBits.length = 64
  exp : x.expBits.length = 64
  schema : x.schemaBits.length = schemaSizeBytes * 8

theorem witnessWires_setsUp : SetsUp (witnessWires B J none) WitnessWires.Sized :=
  (allocU32Witness_setsUp hB _).bind fun _ hdob => (allocBoolVecWitnessFixed_setsUp hB 128).bind
    fun _ hr => (allocVk_setsUp hB J).bind fun _ hvk => (allocSig_setsUp hB J).bind fun _ hsig =>
    (allocU8Witness_setsUp hB _).bind fun _ hv => (allocBytesWitnessFixed_setsUp hB _).bind
    fun _ hkid => (allocBytesWitnessFixed_setsUp hB _).bind fun _ hc =>
    (allocU64Witness_setsUp hB _).bind fun _ hiat => (allocU64Witness_setsUp hB _).bind fun _ hexp =>
    (allocBytesWitnessFixed_setsUp hB _).bind fun _ hschema =>
    SetsUp.pure ⟨hdob, hr, hvk, hsig.1, hsig.2, hv, hkid, hc, hiat, hexp, hschema⟩

omit hB in
/-- The message of wires of these widths is of whole bytes. -/
theorem buildPrehashBits_setsUp {x : WitnessWires} (hx : x.Sized) :
    SetsUp (buildPrehashBits x.vBits x.kidBits x.cBytesBits x.iatBits x.expBits x.schemaBits)
      fun bits => 8 ∣ bits.length := by
  have hkid : x.kidBits.length = 112 := hx.kid
  have hschema : x.schemaBits.length = 96 := hx.schema
  have hmessage : ∀ dst kidLen schemaLen : List Boolean, 8 ∣ dst.length → kidLen.length = 8 →
      schemaLen.length = 8 → 8 ∣ (dst ++ x.vBits ++ kidLen ++ x.kidBits ++ x.cBytesBits ++
        x.iatBits ++ x.expBits ++ schemaLen ++ x.schemaBits).length := by
    intro dst kidLen schemaLen hdst hk hs
    simp only [List.length_append, hx.v, hk, hkid, hx.c, hx.iat, hx.exp, hs, hschema]
    omega
  refine SetsUp.guard (not_not.mpr hx.v) (SetsUp.guard (not_not.mpr hx.c)
    (SetsUp.guard (not_not.mpr hx.iat) (SetsUp.guard (not_not.mpr hx.exp)
    (SetsUp.guard (by omega) (SetsUp.guard (by omega) (SetsUp.guard (by omega)
    (SetsUp.guard (by omega) (SetsUp.pure ?_))))))))
  exact hmessage _ _ _ ⟨_, length_flatMap_constantByte _⟩ (length_constantByte _) (length_constantByte _)

theorem relations_setsUp {p : PublicWires} {x : WitnessWires} (hp : p.Sized) (hx : x.Sized) :
    SetsUp (relations B S J p x) fun _ => True := by
  refine (SetsUp.pure (V := fun bits => bits.length = 256) hx.vk).bind fun vkBits hvk =>
    (enforceBitsEqual_setsUp (hvk.trans hp.vk.symm)).bind fun _ _ =>
    (pedersenNullifier_setsUp hB S hx.c).bind fun nul hnul =>
    (enforceBitsEqual_setsUp (hnul.trans hp.nullifier.symm)).bind fun _ _ =>
    (commit_setsUp hB S (by rw [hx.dob, hx.r]; norm_num)).bind fun c hc =>
    (SetsUp.guard (not_not.mpr (hc.trans hx.c.symm))
      (SetsUp.forM (fun _ => SetsUp.enforce _ _ _) _)).bind fun _ _ =>
    ((conditionalSwap_setsUp hB _ (hp.cutoff.trans hx.dob.symm)).bind fun r hr =>
      enforceGe_setsUp hB hr).bind fun _ _ =>
    (buildPrehashBits_setsUp hx).bind fun message hmessage =>
    (hB.blake2s message _ hmessage).bind fun prehash hprehash =>
    SetsUp.guard (not_not.mpr hprehash) ?_
  exact verify_setsUp hB J hx.vk hx.sigR hx.sigS hprehash

/-- **Parameter generation succeeds**, for every statement. -/
theorem synthesize_setsUp (pub : AgePublic) :
    SetsUp (synthesize B S J ⟨pub, none⟩) fun _ => True := by
  refine SetsUp.bind (V := fun _ => True) ?_ fun _ _ => SetsUp.pure trivial
  refine (publicWires_setsUp hB pub).bind fun p hp => (witnessWires_setsUp hB J).bind fun x hx => ?_
  refine SetsUp.guard (not_not.mpr hx.kid) (SetsUp.guard (not_not.mpr hx.schema)
    (SetsUp.guard (not_not.mpr hx.c) ?_))
  exact (relations_setsUp hB S J hp hx).bind fun _ _ => SetsUp.pure trivial

end ProviiCrypto
