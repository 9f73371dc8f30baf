import ProviiCrypto.Circuit.Wires

/-!
# The relations of the circuit

Steps 2 to 8 force `Relation` on whatever opening the wires stand for (`relations_sound`), and hold
of every opening it holds of (`relations_honest`). With steps 0 and 1 before them this is the whole
circuit: `synthesizeWires_sound`, `synthesizeWith_honest`, `synthesizeWith_layout`,
`synthesizeWith_exposes`.
-/

namespace ProviiCrypto

open R1CS R1CS.Synth Number Gadgets

variable {H : Blake2s} (B : Bellman H) (S : Sapling) (J : Jubjub)

/-! ## The age check -/

/-- The order of the operands, by direction. -/
theorem allows_iff (d : AgeDirection) (cutoff dob : Int32) :
    ofBits (if decide (d = .over) then toBits 32 (biasForCircuit dob).toNat
        else toBits 32 (biasForCircuit cutoff).toNat) ≤
      ofBits (if decide (d = .over) then toBits 32 (biasForCircuit cutoff).toNat
        else toBits 32 (biasForCircuit dob).toNat) ↔ d.Allows cutoff dob := by
  have hval : ∀ x : Int32, ofBits (toBits 32 (biasForCircuit x).toNat) = (biasForCircuit x).toNat :=
    fun x => ofBits_toBits_of_lt (biasForCircuit x).toNat_lt
  cases d
  · simp only [decide_true, if_true, hval]
    exact bias_le_bias_iff dob cutoff
  · simp only [reduceCtorEq, decide_false, Bool.false_eq_true, if_false, hval]
    exact bias_le_bias_iff cutoff dob

/-- **The age check decides the direction's inequality**, whatever the prover puts on the swapped
operands, the borrows and the differences. -/
theorem ageCheck_sound (directionBit : Boolean) (cutoffBits dobBits : List Boolean) :
    Sound (ageCheck B directionBit cutoffBits dobBits) fun w _ => ∀ (d : AgeDirection) cutoff dob,
      directionBit.Reads w (d = .over) →
      ReadsAll w cutoffBits (toBits 32 (biasForCircuit cutoff).toNat) →
      ReadsAll w dobBits (toBits 32 (biasForCircuit dob).toNat) → d.Allows cutoff dob :=
  Sound.bind (conditionalSwap_sound B directionBit cutoffBits dobBits) fun r =>
    (enforceGe_sound B r.1 r.2).mono fun w _ hge hswap d cutoff dob hd hc hx => by
      obtain ⟨hl, hr⟩ := hswap _ _ _ hd hc hx
      exact (allows_iff d cutoff dob).mp (hge _ _ hl hr)

theorem ageCheck_honest (n : Counts) {directionBit : Boolean} {cutoffBits dobBits : List Boolean}
    {d : AgeDirection} {cutoff dob : Int32} (hd : directionBit.Known (d = .over))
    (hc : KnownAll cutoffBits (toBits 32 (biasForCircuit cutoff).toNat))
    (hx : KnownAll dobBits (toBits 32 (biasForCircuit dob).toNat)) (h : d.Allows cutoff dob) :
    Honest n (ageCheck B directionBit cutoffBits dobBits)
      (fun w => directionBit.Reads w (d = .over) ∧
        ReadsAll w cutoffBits (toBits 32 (biasForCircuit cutoff).toNat) ∧
        ReadsAll w dobBits (toBits 32 (biasForCircuit dob).toNat)) (fun _ => True)
      fun _ _ => True := by
  refine (conditionalSwap_honest B n hd hc hx (by simp)).bind fun r n₁ hr => ?_
  refine (enforceGe_honest B n₁ hr.1 hr.2 ?_ ((allows_iff d cutoff dob).mpr h)).of_pre fun _ hw =>
    hw.2
  split <;> simp

theorem ageCheck_layout {d d' : Boolean} {c c' x x' : List Boolean} (hd : d.SameWire d')
    (hc : SameWires c c') (hx : SameWires x x') :
    SameLayout (fun _ _ => True) (ageCheck B d c x) (ageCheck B d' c' x') :=
  (conditionalSwap_layout B hd hc hx).bind fun _ _ hr => enforceGe_layout B hr.1 hr.2

theorem ageCheck_auxOnly (d : Boolean) (c x : List Boolean) : AuxOnly (ageCheck B d c x) :=
  (conditionalSwap_auxOnly B d c x).bind fun _ => enforceGe_auxOnly B _ _

/-! ## Steps 2 to 8 -/

/-- The direction bit stands for the direction. -/
theorem PublicRel.directionBit {R : Boolean → Bool → Prop} {p : PublicWires} {d : AgeDirection}
    {cutoff : Int32} {rp vk nul : Bytes 32}
    (h : PublicRel R p (statementBits (d = .over) cutoff rp vk nul)) :
    R p.directionBit (d = .over) := by
  have hdir := h.dir
  have hbit : (if decide (d = .over) then 1 else 0 : ℕ).testBit 0 = decide (d = .over) := by
    cases d <;> rfl
  unfold statementBits at hdir
  rw [toBits_succ, hbit] at hdir
  obtain ⟨b, bs, hb, -, hcons⟩ := List.forall₂_cons_right_iff.mp hdir
  have := h.direction
  rw [hcons] at this
  exact Option.some.inj this ▸ hb

theorem WitnessRel.prehash {R : Boolean → Bool → Prop} {ww : WitnessWires} {o : Opening}
    (h : WitnessRel R ww o) : PrehashRel R o.v o.kid.1 o.c o.iat o.exp o.schema.1 ww.vBits
      ww.kidBits ww.cBytesBits ww.iatBits ww.expBits ww.schemaBits :=
  ⟨h.v, h.kid, h.c, h.iat, h.exp, h.schema⟩

/-- **The constraints force the relation** on the opening the wires stand for. -/
theorem relations_sound (p : PublicWires) (ww : WitnessWires) :
    Sound (relations B S J p ww) fun w _ => ∀ d cutoff rp vk nul (o : Opening),
      PublicReads w p (statementBits (d = .over) cutoff rp vk nul) → WitnessReads w ww o →
      Relation H S d cutoff vk nul o := by
  have hget : Sound (getVkBytesBits ww.issuerVk) fun _ bs => bs = ww.issuerVk.vkBytesBits :=
    Sound.pure fun _ => rfl
  unfold relations
  simp only [enforceBytesEqual_eq]
  refine Sound.bind hget fun vkBits => Sound.bind (enforceBitsEqual_sound vkBits _) fun _ =>
    Sound.bind (pedersenNullifier_sound B S _) fun nulBits =>
    Sound.bind (enforceBitsEqual_sound nulBits _) fun _ =>
    Sound.bind (commit_sound B S _ _) fun cBits => Sound.bind (enforceBitsEqual_sound cBits _)
    fun _ => Sound.bind (ageCheck_sound B _ _ _) fun _ =>
    Sound.bind (buildPrehashBits_sound _ _ _ _ _ _) fun msg =>
    Sound.bind (B.blake2s_sound msg _) fun hash => ?_
  split
  · exact Sound.throw
  refine (verify_sound B J ww.issuerVk ww.sigRj hash).mono ?_
  intro w _ hver hhash hmsg hage hceq hcommit hneq hnul hveq hvk d cutoff rp vk nul o hp ho
  -- the witnessed key is the public one
  have hkey : o.VK.toBytes = vk := by
    have hread := hveq _ (hvk ▸ ho.vk.bits)
    rw [← Point.bytesBits_toBytes] at hread
    exact Subtype.ext (bytesBits_injective (hread.unique hp.issuerVk))
  have hnullifier : nul = S.pedersenNullifier o.c :=
    Subtype.ext (bytesBits_injective (ReadsAll.unique hp.nullifier (hneq _ (hnul _ ho.c))))
  have hcommitment : S.commitBytes o.dob o.r = some o.c := by
    obtain ⟨c, hc, hread⟩ := hcommit _ _ ho.dob ho.r
    rw [hc, Subtype.ext (bytesBits_injective ((hceq _ hread).unique ho.c))]
  obtain ⟨bytes, hbytes, hread⟩ := hmsg _ _ _ _ _ _ ho.toWitnessRel.prehash
  have heq := hver o.VK o.R o.s _ ho.vk ho.sig ho.s (hhash _ hread)
  rw [hkey] at heq
  exact ⟨hcommitment, hnullifier, hkey, hage d cutoff o.dob hp.directionBit hp.cutoff ho.dob,
    bytes, hbytes, heq⟩

/-- **The relations can be proved** of an opening they hold of. -/
theorem relations_honest (n : Counts) {p : PublicWires} {ww : WitnessWires} {d : AgeDirection}
    {cutoff : Int32} {rp vk nul : Bytes 32} {o : Opening}
    (hp : PublicKnown p (statementBits (d = .over) cutoff rp vk nul)) (ho : WitnessKnown ww o)
    (h : Relation H S d cutoff vk nul o) :
    Honest n (relations B S J p ww)
      (fun w => PublicReads w p (statementBits (d = .over) cutoff rp vk nul) ∧ WitnessReads w ww o)
      (fun _ => True) fun _ _ => True := by
  obtain ⟨hcommit, rfl, rfl, hage, bytes, hbytes, heq⟩ := h
  have hget : Honest n (getVkBytesBits ww.issuerVk) (fun w => PublicReads w p (statementBits
      (d = .over) cutoff rp o.VK.toBytes (S.pedersenNullifier o.c)) ∧ WitnessReads w ww o)
      (fun bs => bs = ww.issuerVk.vkBytesBits) fun _ _ => True := Honest.pure rfl fun _ _ => trivial
  unfold relations
  simp only [enforceBytesEqual_eq]
  refine hget.bind fun vkBits n₁ hvk => ?_
  subst hvk
  have hlen : ∀ {bits : List Boolean} {b : Bytes 32}, KnownAll bits (bytesBits b.1) →
      bits.length = (bytesBits b.1).length := fun h => h.length_eq
  have hvkLen : ww.issuerVk.vkBytesBits.length = (bytesBits o.VK.toBytes.1).length := by
    rw [Point.bytesBits_toBytes]
    exact ho.vk.bits.length_eq
  refine Honest.bind ((enforceBitsEqual_honest n₁ hvkLen (hlen hp.issuerVk)).of_pre fun w hw =>
    ⟨?_, hw.1.1.issuerVk⟩) fun _ n₂ _ => ?_
  · rw [Point.bytesBits_toBytes]
    exact hw.1.2.vk.bits
  refine Honest.bind ((pedersenNullifier_honest B S n₂ ho.c).of_pre fun w hw => hw.1.1.2.c)
    fun nulBits n₃ hnul => ?_
  refine Honest.bind ((enforceBitsEqual_honest n₃ (hlen hnul) (hlen hp.nullifier)).of_pre
    fun w hw => ⟨hw.2, hw.1.1.1.1.nullifier⟩) fun _ n₄ _ => ?_
  refine Honest.bind ((commit_honest B S n₄ ho.dob ho.r hcommit).of_pre fun w hw =>
    ⟨hw.1.1.1.1.2.dob, hw.1.1.1.1.2.r⟩) fun cBits n₅ hc => ?_
  refine Honest.bind ((enforceBitsEqual_honest n₅ (hlen hc) (hlen ho.c)).of_pre fun w hw =>
    ⟨hw.2, hw.1.1.1.1.1.2.c⟩) fun _ n₆ _ => ?_
  refine Honest.bind ((ageCheck_honest B n₆ hp.directionBit hp.cutoff ho.dob hage).of_pre
    fun w hw => ⟨hw.1.1.1.1.1.1.1.directionBit, hw.1.1.1.1.1.1.1.cutoff,
      hw.1.1.1.1.1.1.2.dob⟩) fun _ n₇ _ => ?_
  refine Honest.bind ((buildPrehashBits_honest n₇ ho.toWitnessRel.prehash hbytes).of_pre fun w hw =>
    hw.1.1.1.1.1.1.1.2.toWitnessRel.prehash) fun msg n₈ hmsg => ?_
  refine Honest.bind ((B.blake2s_honest n₈ msg noPersonalization bytes hmsg).of_pre fun w hw =>
    hw.2) fun hash n₉ hhash => ?_
  rw [if_neg (not_not.mpr (by rw [hhash.length_eq, length_bytesBits, (H _ _).2]))]
  exact (verify_honest B J ww.issuerVk ww.sigRj hash n₉ ho.vk ho.sig ho.s hhash heq).of_pre
    fun w hw => ⟨hw.1.1.1.1.1.1.1.1.1.2.vk, hw.1.1.1.1.1.1.1.1.1.2.sig,
      hw.1.1.1.1.1.1.1.1.1.2.s, hw.2⟩

theorem relations_layout {p p' : PublicWires} {ww ww' : WitnessWires} (hp : p.SameWires p')
    (hw : ww.SameWires ww') :
    SameLayout (fun _ _ => True) (relations B S J p ww) (relations B S J p' ww') := by
  have hget : SameLayout (F := Scalar) SameWires (getVkBytesBits ww.issuerVk)
      (getVkBytesBits ww'.issuerVk) := SameLayout.pure hw.vk.bits
  unfold relations
  simp only [enforceBytesEqual_eq]
  refine hget.bind fun _ _ hvk => (enforceBitsEqual_layout hvk hp.issuerVk).bind fun _ _ _ =>
    (pedersenNullifier_layout B S hw.c).bind fun _ _ hnul =>
    (enforceBitsEqual_layout hnul hp.nullifier).bind fun _ _ _ =>
    (commit_layout B S hw.dob hw.r).bind fun _ _ hc => (enforceBitsEqual_layout hc hw.c).bind
    fun _ _ _ => (ageCheck_layout B hp.direction hp.cutoff hw.dob).bind fun _ _ _ =>
    (buildPrehashBits_layout hw.v hw.kid hw.c hw.iat hw.exp hw.schema).bind fun _ _ hmsg =>
    (B.blake2s_layout _ hmsg).bind fun _ _ hhash => ?_
  rw [hhash.length_eq]
  split
  · exact SameLayout.throw_left
  · exact verify_layout B J hw.vk hw.sig hhash

theorem relations_auxOnly (p : PublicWires) (ww : WitnessWires) :
    AuxOnly (relations B S J p ww) := by
  unfold relations
  simp only [enforceBytesEqual_eq]
  refine (AuxOnly.pure _).bind fun _ => (enforceBitsEqual_auxOnly _ _).bind fun _ =>
    (pedersenNullifier_auxOnly B S _).bind fun _ => (enforceBitsEqual_auxOnly _ _).bind fun _ =>
    (commit_auxOnly B S _ _).bind fun _ => (enforceBitsEqual_auxOnly _ _).bind fun _ =>
    (ageCheck_auxOnly B _ _ _).bind fun _ => (buildPrehashBits_auxOnly _ _ _ _ _ _).bind fun _ =>
    (B.blake2s_auxOnly _ _).bind fun _ => ?_
  split
  · exact AuxOnly.throw _
  · exact verify_auxOnly B J _ _ _

/-! ## The circuit -/

/-- The values an assignment gives the circuit's public inputs. -/
def publicInputs (w : Assignment Scalar) : List Scalar :=
  (List.range publicInputsLen).map fun i => w (.input (1 + i))

/-- What the circuit's constraints force, for any way to allocate the witness. -/
theorem synthesizeWith_sound (pub : AgePublic) {witness : Synth Scalar WitnessWires}
    (hwit : Sound witness fun w ww => ∃ o : Opening, o.r.length = 128 ∧ WitnessReads w ww o)
    (haux : AuxOnly witness) :
    SoundInputs (synthesizeWith B S J pub witness) fun w r is =>
      ∃ s : StatementBits, s.WellFormed ∧ PublicReads w r.1 s ∧ is = s.pack B ∧
        ∃ o : Opening, o.r.length = 128 ∧ WitnessReads w r.2 o ∧
          ∀ d cutoff rp vk nul, s = statementBits (d = .over) cutoff rp vk nul →
            Relation H S d cutoff vk nul o := by
  refine (publicWires_sound B pub).bind fun p => (hwit.inputs haux).bind fun x => ?_
  split_ifs
  · exact SoundInputs.throw
  · exact SoundInputs.throw
  · exact SoundInputs.throw
  refine ((relations_sound B S J p x).inputs (relations_auxOnly B S J p x)).bind fun _ =>
    ((Sound.pure (Q := fun _ r => r = (p, x)) fun _ => rfl).inputs (AuxOnly.pure _)).mono ?_
  rintro w _ _ ⟨rfl, rfl⟩ _ ⟨hrel, rfl⟩ _ ⟨⟨o, hr, ho⟩, rfl⟩ _ ⟨s, hs, hp, rfl⟩
  refine ⟨s, hs, hp, by simp, o, hr, ho, ?_⟩
  rintro d cutoff rp vk nul rfl
  exact hrel d cutoff rp vk nul o hp ho

/-- **Soundness of the circuit**: an assignment that satisfies the constraints of a run, in
whatever mode, and whose public inputs are those of a statement puts the statement's bits on the
public wires, and on the witness wires an opening the statement is true of. -/
theorem synthesizeWires_sound {circuit : AgeCircuit} {md : Mode} {p : PublicWires}
    {x : WitnessWires} {ops : List (Op Scalar)} {w : Assignment Scalar}
    (hrun : synthesizeWires B S J circuit md .init = .ok ((p, x), ops)) (hw : Holds w ops)
    {d : AgeDirection} {cutoff : Int32} {rp vk nul : Bytes 32}
    (hin : assemblePublicInputsCanonical B (d = .over) cutoff rp vk nul = .ok (publicInputs w)) :
    PublicReads w p (statementBits (d = .over) cutoff rp vk nul) ∧
      ∃ o : Opening, o.r.length = 128 ∧ WitnessReads w x o ∧ Relation H S d cutoff vk nul o := by
  obtain ⟨s, hs, hp, hpack, o, hr, ho, hrel⟩ := synthesizeWith_sound B S J circuit.pub
    (witnessWires_sound B J circuit.witness) (witnessWires_auxOnly B J circuit.witness)
    md .init _ ops hrun w hw
  have hlen : (inputValues ops).length = publicInputsLen := by
    have := congrArg List.length hpack
    rwa [inputsRead, List.length_map, List.length_range, hs.length_pack B] at this
  have hread : inputsRead w .init ops = publicInputs w := by
    unfold inputsRead
    rw [hlen]
    rfl
  rw [assemble_eq_ok, Except.ok.injEq, ← hread, hpack] at hin
  obtain rfl := StatementBits.WellFormed.pack_injective B
    (wellFormed_statementBits _ _ _ _ _) hs hin
  exact ⟨hp, o, hr, ho, hrel d cutoff rp vk nul rfl⟩

/-- **Completeness of the circuit**: the prover can prove a statement of any opening it is true
of, for any honest way to allocate the opening. -/
theorem synthesizeWith_honest (n : Counts) {pub : AgePublic} {witness : Synth Scalar WitnessWires}
    {o : Opening} (hwit : ∀ n pre, Honest n witness pre (fun ww => WitnessKnown ww o)
      fun w ww => WitnessReads w ww o)
    (hrel : Relation H S pub.direction pub.cutoffDays pub.issuerVkBytes pub.credNullifier o) :
    Honest n (synthesizeWith B S J pub witness) (fun _ => True)
      (fun r => PublicKnown r.1 pub.bits ∧ WitnessKnown r.2 o)
      fun w r => PublicReads w r.1 pub.bits ∧ WitnessReads w r.2 o := by
  refine (publicWires_honest B n pub _).bind fun p n₁ hp => (hwit n₁ _).bind fun x n₂ hx => ?_
  have hkid : x.kidBits.length = kidSizeBytes * 8 := by
    rw [hx.kid.length_eq, length_bytesBits, o.kid.2, kidSizeBytes]
  have hschema : x.schemaBits.length = schemaSizeBytes * 8 := by
    rw [hx.schema.length_eq, length_bytesBits, o.schema.2, schemaSizeBytes]
  have hc : x.cBytesBits.length = 256 := by rw [hx.c.length_eq, length_bytesBits, o.c.2]
  rw [if_neg (not_not.mpr hkid), if_neg (not_not.mpr hschema), if_neg (not_not.mpr hc)]
  exact ((relations_honest B S J n₂ hp hx hrel).of_pre fun _ hw => ⟨hw.1.2, hw.2⟩).bind fun _ _ _ =>
    Honest.pure ⟨hp, hx⟩ fun _ hw => ⟨hw.1.1.2, hw.1.2⟩

/-- **One layout**, whatever the public values and the witness. -/
theorem synthesizeWith_layout (pub pub' : AgePublic) {witness witness' : Synth Scalar WitnessWires}
    (hwit : SameLayout WitnessWires.SameWires witness witness') :
    SameLayout (fun r r' => r.1.SameWires r'.1 ∧ r.2.SameWires r'.2)
      (synthesizeWith B S J pub witness) (synthesizeWith B S J pub' witness') := by
  refine (publicWires_layout B pub pub').bind fun p p' hp => hwit.bind fun x x' hx => ?_
  rw [hx.kid.length_eq, hx.schema.length_eq, hx.c.length_eq]
  split_ifs
  · exact SameLayout.throw_left
  · exact SameLayout.throw_left
  · exact SameLayout.throw_left
  · exact (relations_layout B S J hp hx).bind fun _ _ _ => SameLayout.pure ⟨hp, hx⟩

/-- After step 0 nothing is exposed. -/
theorem synthesizeWith_exposes (pub : AgePublic) {witness : Synth Scalar WitnessWires}
    (haux : AuxOnly witness) :
    Exposes (synthesizeWith B S J pub witness) fun _ is => is = (pub.bits.pack B).map some := by
  refine (publicWires_exposes B pub).bind fun p => haux.exposes.bind fun x => ?_
  have hrest : AuxOnly (do
      relations B S J p x
      return (p, x)) := (relations_auxOnly B S J p x).bind fun _ => AuxOnly.pure _
  split_ifs
  · exact Exposes.throw
  · exact Exposes.throw
  · exact Exposes.throw
  · refine hrest.exposes.mono ?_
    rintro _ _ rfl _ rfl _ rfl
    simp

end ProviiCrypto
