import ProviiCrypto.Gadgets.Bits

/-!
# `gadgets::prehash`

The transcript of a credential, as wires. `buildPrehashBits_rel` compares it with the host's
transcript for any reading of wires that reads constants as themselves, so that it serves the
prover's values and an arbitrary assignment alike.
-/

namespace ProviiCrypto

open R1CS R1CS.Synth Number

/-- `build_prehash_bits`. -/
def buildPrehashBits (vBits kidBits cBytesBits iatBitsBe expBitsBe schemaBits : List Boolean) :
    Synth Scalar (List Boolean) :=
  if vBits.length ≠ 8 then throw .unsatisfiable
  else if cBytesBits.length ≠ 32 * 8 then throw .unsatisfiable
  else if iatBitsBe.length ≠ 64 then throw .unsatisfiable
  else if expBitsBe.length ≠ 64 then throw .unsatisfiable
  else if kidBits.length % 8 ≠ 0 then throw .unsatisfiable
  else if schemaBits.length % 8 ≠ 0 then throw .unsatisfiable
  else if kidBits.length / 8 ≥ 256 then throw .unsatisfiable
  else if schemaBits.length / 8 ≥ 256 then throw .unsatisfiable
  else return credDst.flatMap constantByte ++ vBits ++
    constantByte (kidBits.length / 8).toUInt8 ++ kidBits ++ cBytesBits ++ iatBitsBe ++ expBitsBe ++
    constantByte (schemaBits.length / 8).toUInt8 ++ schemaBits

section

variable {R : Boolean → Bool → Prop} {v : UInt8} {kid schema : List UInt8} {c : Bytes 32}
  {iat exp : UInt64} {vBits kidBits cBits iatBits expBits schemaBits : List Boolean}

/-- The wires of a credential's fields, under a reading `R`. -/
structure PrehashRel (R : Boolean → Bool → Prop) (v : UInt8) (kid : List UInt8) (c : Bytes 32)
    (iat exp : UInt64) (schema : List UInt8)
    (vBits kidBits cBits iatBits expBits schemaBits : List Boolean) : Prop where
  v : List.Forall₂ R vBits (byteBits v)
  kid : List.Forall₂ R kidBits (bytesBits kid)
  c : List.Forall₂ R cBits (bytesBits c.1)
  iat : List.Forall₂ R iatBits (bytesBits (u64Be iat))
  exp : List.Forall₂ R expBits (bytesBits (u64Be exp))
  schema : List.Forall₂ R schemaBits (bytesBits schema)

private theorem constantByte_rel (hR : ∀ b, R (.constant b) b) (b : UInt8) :
    List.Forall₂ R (constantByte b) (byteBits b) := by
  rw [constantByte, u8Bits_eq, List.forall₂_map_left_iff]
  exact List.forall₂_same.mpr fun b _ => hR b

/-- **The two transcripts agree**: on fields short enough the wires are those of the host's bytes,
and on longer fields both sides refuse. -/
theorem buildPrehashBits_rel (hR : ∀ b, R (.constant b) b)
    (h : PrehashRel R v kid c iat exp schema vBits kidBits cBits iatBits expBits schemaBits) :
    (∃ out bytes, credV2PrehashBytes v kid c iat exp schema = .ok bytes ∧
        buildPrehashBits vBits kidBits cBits iatBits expBits schemaBits = pure out ∧
        List.Forall₂ R out (bytesBits bytes)) ∨
      credV2PrehashBytes v kid c iat exp schema = .error .fieldTooLong ∧
        buildPrehashBits vBits kidBits cBits iatBits expBits schemaBits =
          Synth.throw .unsatisfiable := by
  have hv : vBits.length = 8 := by simpa using h.v.length_eq
  have hc : cBits.length = 32 * 8 := by simpa [c.2] using h.c.length_eq
  have hi : iatBits.length = 64 := by simpa using h.iat.length_eq
  have he : expBits.length = 64 := by simpa using h.exp.length_eq
  have hk : kidBits.length = 8 * kid.length := by simpa using h.kid.length_eq
  have hs : schemaBits.length = 8 * schema.length := by simpa using h.schema.length_eq
  have hk8 : kidBits.length / 8 = kid.length := by omega
  have hs8 : schemaBits.length / 8 = schema.length := by omega
  rw [buildPrehashBits, if_neg (by omega), if_neg (by omega), if_neg (by omega), if_neg (by omega),
    if_neg (by omega), if_neg (by omega), hk8, hs8]
  unfold credV2PrehashBytes
  by_cases hkid : 256 ≤ kid.length
  · exact .inr ⟨by rw [if_pos (.inl (by omega))], by rw [if_pos hkid]⟩
  by_cases hschema : 256 ≤ schema.length
  · exact .inr ⟨by rw [if_pos (.inr (by omega))], by rw [if_neg hkid, if_pos hschema]⟩
  refine .inl ⟨_, _, by rw [if_neg (by omega)], by rw [if_neg hkid, if_neg hschema], ?_⟩
  have hdst : List.Forall₂ R (credDst.flatMap constantByte) (bytesBits credDst) :=
    List.rel_flatMap (List.forall₂_same.mpr fun b _ => rfl) fun b _ hb =>
      hb ▸ constantByte_rel hR b
  simp only [bytesBits_append, bytesBits_cons, bytesBits_nil, List.append_nil]
  exact List.rel_append (List.rel_append (List.rel_append (List.rel_append (List.rel_append
    (List.rel_append (List.rel_append (List.rel_append hdst h.v) (constantByte_rel hR _)) h.kid)
    h.c) h.iat) h.exp) (constantByte_rel hR _)) h.schema

end

/-- **The constraints force the host's transcript.** -/
theorem buildPrehashBits_sound (vBits kidBits cBits iatBits expBits schemaBits : List Boolean) :
    Sound (buildPrehashBits vBits kidBits cBits iatBits expBits schemaBits) fun w out =>
      ∀ v kid (c : Bytes 32) iat exp schema, PrehashRel (Boolean.Reads w) v kid c iat exp schema vBits
        kidBits cBits iatBits expBits schemaBits →
        ∃ bytes, credV2PrehashBytes v kid c iat exp schema = .ok bytes ∧
          ReadsAll w out (bytesBits bytes) := by
  intro md n out ops hr w _ v kid c iat exp schema h
  rcases buildPrehashBits_rel (fun b => (Boolean.reads_constant b).mpr rfl) h with
    ⟨out', bytes, hbytes, hpure, hout⟩ | ⟨-, hthrow⟩
  · rw [hpure] at hr
    obtain ⟨rfl, -⟩ := pure_eq_ok.mp hr
    exact ⟨bytes, hbytes, hout⟩
  · rw [hthrow] at hr
    cases hr

theorem buildPrehashBits_honest (n : Counts) {vBits kidBits cBits iatBits expBits schemaBits :
    List Boolean} {v : UInt8} {kid : List UInt8} {c : Bytes 32} {iat exp : UInt64}
    {schema bytes : List UInt8} (h : PrehashRel Boolean.Known v kid c iat exp schema vBits kidBits
      cBits iatBits expBits schemaBits)
    (hbytes : credV2PrehashBytes v kid c iat exp schema = .ok bytes) :
    Honest n (buildPrehashBits vBits kidBits cBits iatBits expBits schemaBits)
      (fun w => PrehashRel (Boolean.Reads w) v kid c iat exp schema vBits kidBits cBits iatBits
        expBits schemaBits) (fun out => KnownAll out (bytesBits bytes))
      fun w out => ReadsAll w out (bytesBits bytes) := by
  refine Honest.of_sound (T := fun _ _ => True) ?_
    (buildPrehashBits_sound vBits kidBits cBits iatBits expBits schemaBits) fun w out hw hs => ?_
  · rcases buildPrehashBits_rel (fun b => (Boolean.known_constant b b).mpr rfl) h with
      ⟨out, bytes', hbytes', hpure, hout⟩ | ⟨herr, -⟩
    · obtain rfl := Except.ok.inj (hbytes.symm.trans hbytes')
      rw [hpure]
      exact Honest.pure hout fun _ _ => trivial
    · rw [hbytes] at herr
      cases herr
  · obtain ⟨bytes', hbytes', hout⟩ := hs v kid c iat exp schema hw
    obtain rfl := Except.ok.inj (hbytes.symm.trans hbytes')
    exact hout

/-- Strings of the same lengths give transcripts of the same wires. -/
theorem buildPrehashBits_layout {v v' kid kid' c c' iat iat' exp exp' schema schema' : List Boolean}
    (hv : SameWires v v') (hkid : SameWires kid kid') (hc : SameWires c c')
    (hiat : SameWires iat iat') (hexp : SameWires exp exp') (hschema : SameWires schema schema') :
    SameLayout SameWires (buildPrehashBits v kid c iat exp schema)
      (buildPrehashBits v' kid' c' iat' exp' schema') := by
  unfold buildPrehashBits
  rw [hv.length_eq, hkid.length_eq, hc.length_eq, hiat.length_eq, hexp.length_eq,
    hschema.length_eq]
  -- the eight checks of the lengths
  refine .guard (.guard (.guard (.guard (.guard (.guard (.guard (.guard ?_)))))))
  exact SameLayout.pure (((((((((SameWires.refl _).append hv).append (SameWires.refl _)).append
    hkid).append hc).append hiat).append hexp).append (SameWires.refl _)).append hschema)

theorem buildPrehashBits_auxOnly (v kid c iat exp schema : List Boolean) :
    AuxOnly (buildPrehashBits v kid c iat exp schema) := by
  unfold buildPrehashBits
  exact .guard (.guard (.guard (.guard (.guard (.guard (.guard (.guard (AuxOnly.pure _))))))))

end ProviiCrypto
