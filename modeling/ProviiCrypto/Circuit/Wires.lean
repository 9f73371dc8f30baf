import ProviiCrypto.Circuit.Basic

/-!
# The wires of the circuit

What the wires of the public values and of the witness stand for, under an assignment
(`PublicReads`, `WitnessReads`) and while proving (`PublicKnown`, `WitnessKnown`), and what steps 0
and 1 establish of them.

* `publicWires_sound`: the exposed inputs are the packings of the public wires' bits.
* `witnessWires_sound`: the witness wires stand for some opening, whoever chose the assignment.
-/

namespace ProviiCrypto

open R1CS R1CS.Synth Number Gadgets

/-! ## Readings -/

/-- The public wires under a reading `R`. -/
structure PublicRel (R : Boolean → Bool → Prop) (p : PublicWires) (s : StatementBits) : Prop where
  dir : List.Forall₂ R p.dirBits s.dir
  direction : p.dirBits.head? = some p.directionBit
  cutoff : List.Forall₂ R p.cutoffBits s.cutoff
  rpHash : List.Forall₂ R p.rpHashBits s.rpHash
  issuerVk : List.Forall₂ R p.issuerVkBitsPublic s.issuerVk
  nullifier : List.Forall₂ R p.credNullifierBits s.nullifier

/-- The public wires under an assignment. -/
abbrev PublicReads (w : Assignment Scalar) : PublicWires → StatementBits → Prop :=
  PublicRel (Boolean.Reads w)

/-- The public wires while proving. -/
abbrev PublicKnown : PublicWires → StatementBits → Prop := PublicRel Boolean.Known

/-- The bit strings of the witness wires under a reading `R`. -/
structure WitnessRel (R : Boolean → Bool → Prop) (ww : WitnessWires) (x : Opening) : Prop where
  dob : List.Forall₂ R ww.dobBits (toBits 32 (biasForCircuit x.dob).toNat)
  r : List.Forall₂ R ww.rBits x.r
  s : List.Forall₂ R ww.sigRj.sBytesBits (bytesBits x.s.1)
  v : List.Forall₂ R ww.vBits (byteBits x.v)
  kid : List.Forall₂ R ww.kidBits (bytesBits x.kid.1)
  c : List.Forall₂ R ww.cBytesBits (bytesBits x.c.1)
  iat : List.Forall₂ R ww.iatBits (bytesBits (u64Be x.iat))
  exp : List.Forall₂ R ww.expBits (bytesBits (u64Be x.exp))
  schema : List.Forall₂ R ww.schemaBits (bytesBits x.schema.1)

/-- The witness wires under an assignment. -/
structure WitnessReads (w : Assignment Scalar) (ww : WitnessWires) (x : Opening) : Prop
    extends WitnessRel (Boolean.Reads w) ww x where
  vk : EncodedReads w ww.issuerVk.point ww.issuerVk.vkBytesBits x.VK
  sig : EncodedReads w ww.sigRj.rPoint ww.sigRj.rBytesBits x.R

/-- **The wires stand for one opening.** -/
theorem WitnessReads.unique {w : Assignment Scalar} {ww : WitnessWires} {x y : Opening}
    (hx : WitnessReads w ww x) (hy : WitnessReads w ww y) : x = y := by
  have hbytes : ∀ {bits : List Boolean} {a b : List UInt8}, ReadsAll w bits (bytesBits a) →
      ReadsAll w bits (bytesBits b) → a = b := fun ha hb => bytesBits_injective (ha.unique hb)
  have hdob : x.dob = y.dob := biasBits_injective (ReadsAll.unique hx.dob hy.dob)
  have hv : x.v = y.v := byteBits_injective (ReadsAll.unique hx.v hy.v)
  have hpoint : ∀ {p : EdwardsPoint} {bits : List Boolean} {P Q : Point},
      EncodedReads w p bits P → EncodedReads w p bits Q → P = Q := fun hP hQ =>
    Point.reprBits_injective (hP.bits.unique hQ.bits)
  cases x
  cases y
  simp only [Opening.mk.injEq]
  exact ⟨hdob, ReadsAll.unique hx.r hy.r,
    hpoint hx.vk hy.vk, hpoint hx.sig hy.sig, Subtype.ext (hbytes hx.s hy.s), hv,
    Subtype.ext (hbytes hx.kid hy.kid), Subtype.ext (hbytes hx.c hy.c),
    u64Be_injective (hbytes hx.iat hy.iat), u64Be_injective (hbytes hx.exp hy.exp),
    Subtype.ext (hbytes hx.schema hy.schema)⟩

/-- The witness wires while proving. -/
structure WitnessKnown (ww : WitnessWires) (x : Opening) : Prop
    extends WitnessRel Boolean.Known ww x where
  vk : EncodedKnown ww.issuerVk.point ww.issuerVk.vkBytesBits x.VK
  sig : EncodedKnown ww.sigRj.rPoint ww.sigRj.rBytesBits x.R

variable {H : Blake2s} (B : Bellman H) (J : Jubjub)

/-! ## Step 0 -/

private theorem allocInput_sound (values : List Bool) :
    Sound (allocBits B (values.map some)) fun w bs =>
      ∃ vs, vs.length = values.length ∧ ReadsAll w bs vs := by
  have := allocBits_sound B (values.map some)
  simpa only [List.length_map] using this

/-- The bits of a statement's five values. -/
def AgePublic.bits (p : AgePublic) : StatementBits :=
  statementBits (p.direction = .over) p.cutoffDays p.rpHash p.issuerVkBytes p.credNullifier

/-- Step 0 as allocations of the five values' bits. -/
theorem publicWires_eq (pub : AgePublic) : publicWires B pub = (do
    let dirBits ← allocBits B (pub.bits.dir.map some)
    let directionBit ← okOr dirBits.head? .unsatisfiable
    let cutoffBits ← allocBits B (pub.bits.cutoff.map some)
    let rpHashBits ← allocBits B (pub.bits.rpHash.map some)
    let issuerVkBitsPublic ← allocBits B (pub.bits.issuerVk.map some)
    let credNullifierBits ← allocBits B (pub.bits.nullifier.map some)
    B.packIntoInputs dirBits
    B.packIntoInputs cutoffBits
    B.packIntoInputs rpHashBits
    B.packIntoInputs issuerVkBitsPublic
    B.packIntoInputs credNullifierBits
    return ⟨dirBits, directionBit, cutoffBits, rpHashBits, issuerVkBitsPublic,
      credNullifierBits⟩) := by
  have hdir : (if pub.direction = .over then (1 : UInt32) else 0).toNat =
      if (decide (pub.direction = .over) : Bool) then 1 else 0 := by
    cases pub.direction <;> rfl
  simp only [publicWires, allocU32Input_eq, allocBytesInput_eq, AgePublic.bits, statementBits, hdir]

/-- **The exposed inputs are the packings of the public wires.** -/
theorem publicWires_sound (pub : AgePublic) : SoundInputs (publicWires B pub) fun w p is =>
    ∃ s : StatementBits, s.WellFormed ∧ PublicReads w p s ∧ is = s.pack B := by
  have hwf := wellFormed_statementBits (pub.direction = .over) pub.cutoffDays pub.rpHash
    pub.issuerVkBytes pub.credNullifier
  have halloc : ∀ values : List Bool, SoundInputs (allocBits B (values.map some)) fun w bs is =>
      (∃ vs, vs.length = values.length ∧ ReadsAll w bs vs) ∧ is = [] := fun values =>
    (allocInput_sound B values).inputs (allocBits_auxOnly B _)
  have hpack : ∀ bits, SoundInputs (B.packIntoInputs bits) fun w _ is =>
      ∀ vs, ReadsAll w bits vs → is = B.computeMultipacking vs := fun bits md n _ ops h w hw vs hvs =>
    B.pack_sound bits md n ops h w vs hw hvs
  rw [publicWires_eq]
  refine (halloc _).bind fun dir => SoundInputs.bind (Sound.okOr.inputs (AuxOnly.okOr _ _))
    fun dbit => (halloc _).bind fun cutoff => (halloc _).bind fun rp => (halloc _).bind fun vk =>
    (halloc _).bind fun nul => (hpack _).bind fun _ => (hpack _).bind fun _ => (hpack _).bind fun _ =>
    (hpack _).bind fun _ => (hpack _).bind fun _ =>
    ((Sound.pure (Q := fun _ r => r = ⟨dir, dbit, cutoff, rp, vk, nul⟩) fun _ => rfl).inputs
      (AuxOnly.pure _)).mono ?_
  rintro w _ _ ⟨rfl, rfl⟩ i₁ h₁ i₂ h₂ i₃ h₃ i₄ h₄ i₅ h₅ _ ⟨⟨nv, hnl, hn⟩, rfl⟩
    _ ⟨⟨vv, hvl, hv⟩, rfl⟩ _ ⟨⟨rv, hrl, hr⟩, rfl⟩ _ ⟨⟨cv, hcl, hc⟩, rfl⟩ _ ⟨hd, rfl⟩
    _ ⟨⟨dv, hdl, hdr⟩, rfl⟩
  refine ⟨⟨dv, cv, rv, vv, nv⟩, ⟨hdl.trans hwf.dir, hcl.trans hwf.cutoff, hrl.trans hwf.rpHash,
    hvl.trans hwf.issuerVk, hnl.trans hwf.nullifier⟩, ⟨hdr, hd, hc, hr, hv, hn⟩, ?_⟩
  rw [h₅ _ hdr, h₄ _ hc, h₃ _ hr, h₂ _ hv, h₁ _ hn]
  simp [StatementBits.pack]

/-- Step 0 succeeds while proving, and its constraints hold of the values it computes. -/
theorem publicWires_honest (n : Counts) (pub : AgePublic) (pre : Assignment Scalar → Prop) :
    Honest n (publicWires B pub) pre (fun p => PublicKnown p pub.bits)
      fun w p => PublicReads w p pub.bits := by
  rw [publicWires_eq]
  refine (allocBits_honest B n _ pre).bind fun dir n₁ hd => ?_
  obtain ⟨dbit, hdbit⟩ : ∃ b, dir.head? = some b := by
    cases dir with
    | nil => exact absurd hd.length_eq (by simp [AgePublic.bits, statementBits])
    | cons b _ => exact ⟨b, rfl⟩
  refine (Honest.okOr hdbit _).bind fun dbit' n₂ hdb => ?_
  subst hdb
  refine (allocBits_honest B n₂ _ _).bind fun cutoff n₃ hc => ?_
  refine (allocBits_honest B n₃ _ _).bind fun rp n₄ hr => ?_
  refine (allocBits_honest B n₄ _ _).bind fun vk n₅ hv => ?_
  refine (allocBits_honest B n₅ _ _).bind fun nul n₆ hn => ?_
  refine Honest.bind ((B.pack_honest n₆ _ _ hd).of_pre fun w hw => hw.1.1.1.1.1.2) fun _ n₇ _ => ?_
  refine Honest.bind ((B.pack_honest n₇ _ _ hc).of_pre fun w hw => hw.1.1.1.1.2) fun _ n₈ _ => ?_
  refine Honest.bind ((B.pack_honest n₈ _ _ hr).of_pre fun w hw => hw.1.1.1.1.2) fun _ n₉ _ => ?_
  refine Honest.bind ((B.pack_honest n₉ _ _ hv).of_pre fun w hw => hw.1.1.1.1.2) fun _ n₁₀ _ => ?_
  refine Honest.bind ((B.pack_honest n₁₀ _ _ hn).of_pre fun w hw => hw.1.1.1.1.2) fun _ _ _ => ?_
  refine Honest.pure ⟨hd, hdbit, hc, hr, hv, hn⟩ fun w hw => ?_
  obtain ⟨⟨⟨⟨⟨⟨⟨⟨⟨⟨⟨-, hwd⟩, -⟩, hwc⟩, hwr⟩, hwv⟩, hwn⟩, -⟩, -⟩, -⟩, -⟩, -⟩ := hw
  exact ⟨hwd, hdbit, hwc, hwr, hwv, hwn⟩

/-- **Step 0 exposes the packings of the public values.** -/
theorem publicWires_exposes (pub : AgePublic) :
    Exposes (publicWires B pub) fun _ is => is = (pub.bits.pack B).map some := by
  have halloc : ∀ values : List Bool, Exposes (allocBits B (values.map some)) fun bs is =>
      KnownAll bs values ∧ is = [] := fun values =>
    (allocBits_known B values).exposes (allocBits_auxOnly B _)
  have hpack : ∀ bits, Exposes (B.packIntoInputs bits) fun _ is =>
      ∀ vs, KnownAll bits vs → is = (B.computeMultipacking vs).map some := fun bits n _ ops h vs hvs =>
    B.pack_inputs bits vs n ops hvs h
  rw [publicWires_eq]
  refine (halloc _).bind fun dir => Exposes.bind (AuxOnly.okOr _ _).exposes
    fun dbit => (halloc _).bind fun cutoff => (halloc _).bind fun rp => (halloc _).bind fun vk =>
    (halloc _).bind fun nul => (hpack _).bind fun _ => (hpack _).bind fun _ => (hpack _).bind fun _ =>
    (hpack _).bind fun _ => (hpack _).bind fun _ => (AuxOnly.pure _).exposes.mono ?_
  rintro _ _ rfl i₁ h₁ i₂ h₂ i₃ h₃ i₄ h₄ i₅ h₅ _ ⟨hn, rfl⟩ _ ⟨hv, rfl⟩ _ ⟨hr, rfl⟩ _ ⟨hc, rfl⟩
    _ rfl _ ⟨hd, rfl⟩
  rw [h₅ _ hd, h₄ _ hc, h₃ _ hr, h₂ _ hv, h₁ _ hn]
  simp [StatementBits.pack]

/-- The same public wires. -/
structure PublicWires.SameWires (p p' : PublicWires) : Prop where
  direction : p.directionBit.SameWire p'.directionBit
  cutoff : ProviiCrypto.SameWires p.cutoffBits p'.cutoffBits
  issuerVk : ProviiCrypto.SameWires p.issuerVkBitsPublic p'.issuerVkBitsPublic
  nullifier : ProviiCrypto.SameWires p.credNullifierBits p'.credNullifierBits

theorem publicWires_layout (pub pub' : AgePublic) :
    SameLayout PublicWires.SameWires (publicWires B pub) (publicWires B pub') := by
  have hs : pub.bits.WellFormed := wellFormed_statementBits _ _ _ _ _
  have hs' : pub'.bits.WellFormed := wellFormed_statementBits _ _ _ _ _
  have halloc : ∀ {vs vs' : List Bool}, vs.length = vs'.length → SameLayout ProviiCrypto.SameWires
      (allocBits B (vs.map some)) (allocBits B (vs'.map some)) := fun h =>
    allocBits_layout B (by rw [List.length_map, List.length_map, h])
  rw [publicWires_eq, publicWires_eq]
  refine (halloc (hs.dir.trans hs'.dir.symm)).bind fun dir dir' hd => ?_
  refine (SameLayout.okOr (R := Boolean.SameWire) fun a b ha hb => ?_).bind fun _ _ hdbit =>
    (halloc (hs.cutoff.trans hs'.cutoff.symm)).bind fun _ _ hc =>
    (halloc (hs.rpHash.trans hs'.rpHash.symm)).bind fun _ _ hr =>
    (halloc (hs.issuerVk.trans hs'.issuerVk.symm)).bind fun _ _ hv =>
    (halloc (hs.nullifier.trans hs'.nullifier.symm)).bind fun _ _ hn =>
    (B.pack_layout hd).bind fun _ _ _ => (B.pack_layout hc).bind fun _ _ _ =>
    (B.pack_layout hr).bind fun _ _ _ => (B.pack_layout hv).bind fun _ _ _ =>
    (B.pack_layout hn).bind fun _ _ _ => SameLayout.pure ⟨hdbit, hc, hv, hn⟩
  cases hd with
  | nil => cases ha
  | cons h _ =>
    obtain rfl := Option.some.inj ha
    obtain rfl := Option.some.inj hb
    exact h

/-! ## Step 1 -/

/-- The number spelled by 32 bits is a day count, biased. -/
theorem exists_dob {vs : List Bool} (h : vs.length = 32) :
    ∃ dob, toBits 32 (biasForCircuit dob).toNat = vs := by
  have hlt := ofBits_lt vs
  rw [h] at hlt
  refine ⟨unbiasFromCircuit (UInt32.ofNat (ofBits vs)), ?_⟩
  rw [bias_unbias, UInt32.toNat_ofNat_of_lt' hlt, ← h, toBits_ofBits]

private theorem exists_u8 {vs : List Bool} (h : vs.length = 8) : ∃ v, byteBits v = vs := by
  obtain ⟨⟨bs, hlen⟩, hbs⟩ := exists_bytesBits (k := 1) h
  match bs, hlen with
  | [v], _ => exact ⟨v, by simpa using hbs⟩

private theorem exists_u64 {vs : List Bool} (h : vs.length = 64) :
    ∃ x, bytesBits (u64Be x) = vs := by
  obtain ⟨bs, hbs⟩ := exists_bytesBits (k := 8) h
  obtain ⟨x, hx⟩ := exists_u64Be bs
  exact ⟨x, by rw [hx, hbs]⟩

/-- What an allocation of the signature must force. -/
abbrev SigSound (sigRj : Synth Scalar RJSignature) : Prop :=
  Sound sigRj fun w sig => (∃ R, EncodedReads w sig.rPoint sig.rBytesBits R) ∧
    ∃ vs, vs.length = 256 ∧ ReadsAll w sig.sBytesBits vs

/-- **The witness wires stand for an opening**, whoever chose the assignment. -/
theorem allocWitness_sound {sigRj : Synth Scalar RJSignature} (hsig : SigSound sigRj)
    (x : WitnessValues) : Sound (allocWitness B J sigRj x) fun w ww =>
      ∃ o : Opening, o.r.length = 128 ∧ WitnessReads w ww o := by
  refine Sound.bind (allocatesBits_u32 B _).sound fun dob =>
    Sound.bind (allocatesBits_boolVec B _ _).sound fun r => Sound.bind (allocVk_sound B J _) fun vk =>
    Sound.bind hsig fun sig => Sound.bind (allocatesBits_u8 B _).sound fun v =>
    Sound.bind (allocatesBits_bytes B _ _).sound fun kid =>
    Sound.bind (allocatesBits_bytes B _ _).sound fun c =>
    Sound.bind (allocatesBits_u64 B _).sound fun iat =>
    Sound.bind (allocatesBits_u64 B _).sound fun exp =>
    Sound.bind (allocatesBits_bytes B _ _).sound fun schema => Sound.pure ?_
  rintro w ⟨_, hsl, hs⟩ ⟨_, hel, he⟩ ⟨_, hil, hi⟩ ⟨_, hcl, hc⟩ ⟨_, hkl, hk⟩ ⟨_, hvl, hv⟩
    ⟨⟨R, hR⟩, _, hll, hl⟩ ⟨VK, hVK⟩ ⟨rv, hrl, hr⟩ ⟨_, hdl, hd⟩
  obtain ⟨dob, rfl⟩ := exists_dob hdl
  obtain ⟨s, rfl⟩ := exists_bytesBits (k := 32) hll
  obtain ⟨v, rfl⟩ := exists_u8 hvl
  obtain ⟨kid, rfl⟩ := exists_bytesBits hkl
  obtain ⟨c, rfl⟩ := exists_bytesBits hcl
  obtain ⟨iat, rfl⟩ := exists_u64 hil
  obtain ⟨exp, rfl⟩ := exists_u64 hel
  obtain ⟨schema, rfl⟩ := exists_bytesBits hsl
  exact ⟨⟨dob, rv, VK, R, s, v, kid, c, iat, exp, schema⟩, hrl,
    ⟨⟨hd, hr, hl, hv, hk, hc, hi, he, hs⟩, hVK, hR⟩⟩

/-- The values of an opening. -/
def Opening.values (o : Opening) : WitnessValues where
  dob := some (biasForCircuit o.dob)
  r := some o.r
  vk := some o.VK.toBytes
  v := some o.v
  kid := some o.kid.1
  c := some o.c.1
  iat := some o.iat
  exp := some o.exp
  schema := some o.schema.1

/-- What an allocation of an opening's signature must compute. -/
abbrev SigHonest (sigRj : Synth Scalar RJSignature) (o : Opening) : Prop :=
  ∀ n pre, Honest n sigRj pre
    (fun sig => EncodedKnown sig.rPoint sig.rBytesBits o.R ∧
      KnownAll sig.sBytesBits (bytesBits o.s.1))
    fun w sig => EncodedReads w sig.rPoint sig.rBytesBits o.R ∧
      ReadsAll w sig.sBytesBits (bytesBits o.s.1)

/-- **An opening can be allocated**, when its points are not of small order. -/
theorem allocWitness_honest {sigRj : Synth Scalar RJSignature} {o : Opening}
    (hsig : SigHonest sigRj o) (hr : o.r.length = 128) (h8 : (8 • o.VK).u ≠ 0) (n : Counts)
    (pre : Assignment Scalar → Prop) :
    Honest n (allocWitness B J sigRj o.values) pre (fun ww => WitnessKnown ww o)
      fun w ww => WitnessReads w ww o := by
  have hvk : ∀ n pre, Honest n (allocVk B J (some o.VK.toBytes)) pre
      (fun vk => EncodedKnown vk.point vk.vkBytesBits o.VK)
      fun w vk => EncodedReads w vk.point vk.vkBytesBits o.VK := by
    intro n pre
    simp only [allocVk, J.affineFromBytes_toBytes, okOr, pure_bind]
    exact allocVkParsed_honest B n h8 pre
  have hbytes : ∀ {k : ℕ} (bs : Bytes k), allocBytesWitnessFixed B (some bs.1) k =
      allocBits B ((bytesBits bs.1).map some) := fun bs =>
    allocBytesWitnessFixed_eq B _ _ fun b hb => Option.mem_some.mp hb ▸ bs.2
  have hbool : allocBoolVecWitnessFixed B (some o.r) 128 = allocBits B (o.r.map some) :=
    allocBoolVecWitnessFixed_eq B _ _ fun b hb => Option.mem_some.mp hb ▸ hr
  simp only [allocWitness, Opening.values, allocU32Witness_eq, hbool, allocU8Witness,
    allocU8Bits_eq, allocU64Witness_eq, Option.map_some, knownBits, kidSizeBytes, schemaSizeBytes,
    hbytes]
  refine (allocBits_honest B n _ pre).bind fun dob n₁ kdob => (allocBits_honest B n₁ _ _).bind
    fun r n₂ kr => (hvk n₂ _).bind fun vk n₃ kvk => (hsig n₃ _).bind fun sig n₄ ksig =>
    (allocBits_honest B n₄ _ _).bind fun v n₅ kv => (allocBits_honest B n₅ _ _).bind
    fun kid n₆ kkid => (allocBits_honest B n₆ _ _).bind fun c n₇ kc =>
    (allocBits_honest B n₇ _ _).bind fun iat n₈ kiat => (allocBits_honest B n₈ _ _).bind
    fun exp n₉ kexp => (allocBits_honest B n₉ _ _).bind fun schema n₁₀ kschema => ?_
  refine Honest.pure ⟨⟨kdob, kr, ksig.2, kv, kkid, kc, kiat, kexp, kschema⟩, kvk, ksig.1⟩
    fun w hw => ?_
  obtain ⟨⟨⟨⟨⟨⟨⟨⟨⟨⟨-, wdob⟩, wr⟩, wvk⟩, wsig, ws⟩, wv⟩, wkid⟩, wc⟩, wiat⟩, wexp⟩, wschema⟩ := hw
  exact ⟨⟨wdob, wr, ws, wv, wkid, wc, wiat, wexp, wschema⟩, wvk, wsig⟩

/-- The same witness wires. -/
structure WitnessWires.SameWires (x x' : WitnessWires) : Prop where
  dob : ProviiCrypto.SameWires x.dobBits x'.dobBits
  r : ProviiCrypto.SameWires x.rBits x'.rBits
  vk : x.issuerVk.SameWires x'.issuerVk
  sig : x.sigRj.SameWires x'.sigRj
  v : ProviiCrypto.SameWires x.vBits x'.vBits
  kid : ProviiCrypto.SameWires x.kidBits x'.kidBits
  c : ProviiCrypto.SameWires x.cBytesBits x'.cBytesBits
  iat : ProviiCrypto.SameWires x.iatBits x'.iatBits
  exp : ProviiCrypto.SameWires x.expBits x'.expBits
  schema : ProviiCrypto.SameWires x.schemaBits x'.schemaBits

/-- **One layout for all values**, known or not. -/
theorem allocWitness_layout {sigRj sigRj' : Synth Scalar RJSignature}
    (hsig : SameLayout RJSignature.SameWires sigRj sigRj') (x x' : WitnessValues) :
    SameLayout WitnessWires.SameWires (allocWitness B J sigRj x) (allocWitness B J sigRj' x') :=
  ((allocatesBits_u32 B _).layout (allocatesBits_u32 B _)).bind fun _ _ hd =>
    ((allocatesBits_boolVec B _ _).layout (allocatesBits_boolVec B _ _)).bind fun _ _ hr =>
    (allocVk_layout B J _ _).bind fun _ _ hvk => hsig.bind fun _ _ hs =>
    ((allocatesBits_u8 B _).layout (allocatesBits_u8 B _)).bind fun _ _ hv =>
    ((allocatesBits_bytes B _ _).layout (allocatesBits_bytes B _ _)).bind fun _ _ hk =>
    ((allocatesBits_bytes B _ _).layout (allocatesBits_bytes B _ _)).bind fun _ _ hc =>
    ((allocatesBits_u64 B _).layout (allocatesBits_u64 B _)).bind fun _ _ hi =>
    ((allocatesBits_u64 B _).layout (allocatesBits_u64 B _)).bind fun _ _ he =>
    ((allocatesBits_bytes B _ _).layout (allocatesBits_bytes B _ _)).bind fun _ _ hsc =>
    SameLayout.pure ⟨hd, hr, hvk, hs, hv, hk, hc, hi, he, hsc⟩

theorem allocWitness_auxOnly {sigRj : Synth Scalar RJSignature} (hsig : AuxOnly sigRj)
    (x : WitnessValues) : AuxOnly (allocWitness B J sigRj x) :=
  (allocatesBits_u32 B _).auxOnly.bind fun _ => (allocatesBits_boolVec B _ _).auxOnly.bind fun _ =>
    (allocVk_auxOnly B J _).bind fun _ => hsig.bind fun _ => (allocatesBits_u8 B _).auxOnly.bind
    fun _ => (allocatesBits_bytes B _ _).auxOnly.bind fun _ =>
    (allocatesBits_bytes B _ _).auxOnly.bind fun _ => (allocatesBits_u64 B _).auxOnly.bind fun _ =>
    (allocatesBits_u64 B _).auxOnly.bind fun _ => (allocatesBits_bytes B _ _).auxOnly.bind fun _ =>
    AuxOnly.pure _

/-- Step 1 is an allocation of some values, or a refusal. -/
theorem witnessWires_cases (witness : Option AgeWitness) :
    (∃ sig x, witnessWires B J witness = allocWitness B J (allocSig B J sig) x) ∨
      witnessWires B J witness = Synth.throw .unsatisfiable := by
  cases witness with
  | none => exact .inl ⟨none, .unknown, rfl⟩
  | some w =>
    simp only [witnessWires]
    split_ifs
    all_goals first | exact .inr rfl | exact .inl ⟨_, _, rfl⟩

theorem witnessWires_sound (witness : Option AgeWitness) :
    Sound (witnessWires B J witness) fun w ww =>
      ∃ o : Opening, o.r.length = 128 ∧ WitnessReads w ww o := by
  rcases witnessWires_cases B J witness with ⟨sig, x, h⟩ | h <;> rw [h]
  · exact allocWitness_sound B J (allocSig_sound B J sig) x
  · exact Sound.throw

/-- Whatever allocates a signature's wires, the witness has one layout. -/
theorem witnessWires_layout_alloc (witness : Option AgeWitness) {sigRj : Synth Scalar RJSignature}
    (h : ∀ sig, SameLayout RJSignature.SameWires (allocSig B J sig) sigRj) (x : WitnessValues) :
    SameLayout WitnessWires.SameWires (witnessWires B J witness) (allocWitness B J sigRj x) := by
  rcases witnessWires_cases B J witness with ⟨sig, x', h'⟩ | h' <;> rw [h']
  · exact allocWitness_layout B J (h sig) x' x
  · exact SameLayout.throw_left

theorem witnessWires_layout (witness witness' : Option AgeWitness) :
    SameLayout WitnessWires.SameWires (witnessWires B J witness) (witnessWires B J witness') := by
  rcases witnessWires_cases B J witness' with ⟨sig, x, h⟩ | h <;> rw [h]
  · exact witnessWires_layout_alloc B J witness (fun sig' => allocSig_layout B J sig' sig) x
  · exact SameLayout.throw_right

theorem witnessWires_auxOnly (witness : Option AgeWitness) :
    AuxOnly (witnessWires B J witness) := by
  rcases witnessWires_cases B J witness with ⟨sig, x, h⟩ | h <;> rw [h]
  · exact allocWitness_auxOnly B J (allocSig_auxOnly B J sig) x
  · exact AuxOnly.throw _

end ProviiCrypto
