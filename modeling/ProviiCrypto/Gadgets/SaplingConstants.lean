import ProviiCrypto.Jubjub.Sapling

/-!
# `gadgets::sapling_constants`

The window tables of the Pedersen gadget: for each generator and each window, the Montgomery
coordinates of one to four times the window's base, the base growing sixteenfold per window.

* `windowsLoop_tables`: for a generator of prime order every table exists and holds what it should.
* `Sapling.circuitGenerators_eq`: so the tables of all generators do, and building them never panics.
-/

namespace ProviiCrypto

open Number

/-- A window table. -/
abbrev WindowTable : Type := List (Scalar × Scalar)

/-- `to_montgomery_coords`: none for the neutral point. -/
def toMontgomeryCoords (g : Point) : Option (Scalar × Scalar) :=
  if g.v = 1 then none
  else if g.u = 0 then some (0, 0)
  else
    let u := (1 + g.v) * (1 - g.v)⁻¹
    let v := u * g.u⁻¹
    some (u, v * montgomeryScale)

/-- The coordinates of `g`, `g + gen`, `g + 2 gen`, ...; none where the source panics. -/
def coeffsLoop (gen : Point) : ℕ → Point → Option WindowTable
  | 0, _ => some []
  | k + 1, g => do
    let c ← toMontgomeryCoords g
    let cs ← coeffsLoop gen k (g + gen)
    return c :: cs

/-- `Group::double`. -/
def Point.double (g : Point) : Point := g + g

/-- The tables of `k` windows, the base doubled four times from each to the next. -/
def windowsLoop : ℕ → Point → Option (List WindowTable)
  | 0, _ => some []
  | k + 1, gen => do
    let coeffs ← coeffsLoop gen 4 gen
    let windows ← windowsLoop k gen.double.double.double.double
    return coeffs :: windows

/-- `generate_pedersen_circuit_generators`, which initialises `PEDERSEN_CIRCUIT_GENERATORS`. -/
def generatePedersenCircuitGenerators (generators : List Point) : Option (List (List WindowTable)) :=
  generators.mapM (windowsLoop pedersenHashChunksPerGenerator)

/-- The tables of a Sapling instance. -/
def Sapling.circuitGenerators (S : Sapling) : Option (List (List WindowTable)) :=
  generatePedersenCircuitGenerators S.generators

/-- The table holds one to four times the base. -/
structure IsTable (t : WindowTable) (base : Point) : Prop where
  length_eq : t.length = 4
  entry : ∀ x y : Bool, ∃ c, t[x.toNat + 2 * y.toNat]? = some c ∧
    jubjubForm.Repr ((1 + x.toNat + 2 * y.toNat) • base) c.1 c.2

/-- The tables of successive windows. -/
inductive Tables : Point → List WindowTable → Prop
  | nil (base : Point) : Tables base []
  | cons {base : Point} {t : WindowTable} {ts : List WindowTable} (h : IsTable t base)
      (hs : Tables (16 • base) ts) : Tables base (t :: ts)

theorem toMontgomeryCoords_eq {P : Point} (hu : P.u ≠ 0) :
    ∃ c, toMontgomeryCoords P = some c ∧ jubjubForm.Repr P c.1 c.2 := by
  refine ⟨_, by rw [toMontgomeryCoords, if_neg (Edwards.Point.v_ne_one hu), if_neg hu], ?_⟩
  have h := Edwards.Form.Repr.of_ne_zero jubjubForm hu
  rw [div_eq_mul_inv] at h
  convert h using 1
  show (1 + P.v) * (1 - P.v)⁻¹ * P.u⁻¹ * montgomeryScale =
    montgomeryScale * ((1 + P.v) * (1 - P.v)⁻¹) / P.u
  rw [div_eq_mul_inv]
  ring

/-- A multiple of a point of prime order by a small number is not neutral. -/
theorem PrimeOrder.small_nsmul {P : Point} (hP : PrimeOrder P) (h0 : P ≠ 0) {k : ℕ} (hk : 0 < k)
    (hlt : k < subgroupOrder) : k • P ≠ 0 := fun h =>
  absurd (Nat.le_of_dvd hk ((hP.nsmul_eq_zero_iff h0 k).mp h)) (Nat.not_le.mpr hlt)

/-- The entries of a table, as long as no multiple in it is neutral. -/
theorem coeffsLoop_eq {gen : Point} (hP : PrimeOrder gen) (h0 : gen ≠ 0) :
    ∀ (k m : ℕ), 0 < m → m + k ≤ subgroupOrder →
      ∃ t, coeffsLoop gen k (m • gen) = some t ∧ t.length = k ∧
        ∀ i < k, ∃ c, t[i]? = some c ∧ jubjubForm.Repr ((m + i) • gen) c.1 c.2
  | 0, m, _, _ => ⟨[], rfl, rfl, fun i hi => absurd hi (Nat.not_lt_zero i)⟩
  | k + 1, m, hm, hle => by
    have hne := (hP.nsmul m).u_ne_zero (hP.small_nsmul h0 hm (by omega))
    obtain ⟨c, hc, hrepr⟩ := toMontgomeryCoords_eq hne
    obtain ⟨t, ht, hlen, hget⟩ := coeffsLoop_eq hP h0 k (m + 1) (Nat.succ_pos m) (by omega)
    refine ⟨c :: t, ?_, by rw [List.length_cons, hlen], fun i hi => ?_⟩
    · rw [succ_nsmul] at ht
      simp [coeffsLoop, hc, ht]
    · cases i with
      | zero => exact ⟨c, rfl, hrepr⟩
      | succ i =>
        obtain ⟨c', hc', hr⟩ := hget i (by omega)
        exact ⟨c', by simpa using hc', by rwa [show m + (i + 1) = m + 1 + i by omega]⟩

theorem coeffsLoop_table {gen : Point} (hP : PrimeOrder gen) (h0 : gen ≠ 0) :
    ∃ t, coeffsLoop gen 4 gen = some t ∧ IsTable t gen := by
  obtain ⟨t, ht, hlen, hget⟩ := coeffsLoop_eq hP h0 4 1 one_pos (by norm_num)
  rw [one_smul] at ht
  refine ⟨t, ht, hlen, fun x y => ?_⟩
  obtain ⟨c, hc, hr⟩ := hget (x.toNat + 2 * y.toNat) (by
    have := Bool.toNat_lt x
    have := Bool.toNat_lt y
    omega)
  exact ⟨c, hc, by rwa [← add_assoc] at hr⟩

private theorem double_four (g : Point) : g.double.double.double.double = 16 • g := by
  simp only [Point.double, ← two_nsmul, ← mul_smul]
  norm_num

/-- **The tables of a generator of prime order.** -/
theorem windowsLoop_tables (k : ℕ) {gen : Point} (hP : PrimeOrder gen) (h0 : gen ≠ 0) :
    ∃ ts, windowsLoop k gen = some ts ∧ ts.length = k ∧ Tables gen ts := by
  induction k generalizing gen with
  | zero => exact ⟨[], rfl, rfl, .nil gen⟩
  | succ k ih =>
    obtain ⟨t, ht, htab⟩ := coeffsLoop_table hP h0
    have h16 : 16 • gen ≠ 0 := hP.small_nsmul h0 (by norm_num) (by norm_num)
    obtain ⟨ts, hts, hlen, htabs⟩ := ih (hP.nsmul 16) h16
    refine ⟨t :: ts, ?_, by rw [List.length_cons, hlen], .cons htab htabs⟩
    simp only [windowsLoop, ht, double_four, hts, Option.bind_eq_bind, Option.bind_some,
      Option.pure_def]

/-- Every window has four entries. -/
theorem Tables.length_eq {base : Point} {ts : List WindowTable} (h : Tables base ts) :
    ∀ t ∈ ts, t.length = 4 := by
  induction h with
  | nil => exact nofun
  | cons h _ ih => exact List.forall_mem_cons.mpr ⟨h.length_eq, ih⟩

/-- The tables of one generator of the crate. -/
structure GeneratorTables (g : Point) (ts : List WindowTable) : Prop where
  prime : PrimeOrder g
  ne_zero : g ≠ 0
  length_eq : ts.length = pedersenHashChunksPerGenerator
  tables : Tables g ts

/-- **Building the tables never panics**, and they are the tables of the generators. -/
theorem Sapling.circuitGenerators_eq (S : Sapling) :
    ∃ gens, S.circuitGenerators = some gens ∧ List.Forall₂ GeneratorTables S.generators gens := by
  have key : ∀ gs : List Point, (∀ g ∈ gs, PrimeOrder g ∧ g ≠ 0) →
      ∃ gens, generatePedersenCircuitGenerators gs = some gens ∧
        List.Forall₂ GeneratorTables gs gens := by
    intro gs
    induction gs with
    | nil => exact fun _ => ⟨[], rfl, .nil⟩
    | cons g gs ih =>
      intro h
      obtain ⟨hP, h0⟩ := h g List.mem_cons_self
      obtain ⟨ts, hts, hlen, htab⟩ := windowsLoop_tables pedersenHashChunksPerGenerator hP h0
      obtain ⟨gens, hgens, hall⟩ := ih fun g' hg' => h g' (List.mem_cons_of_mem g hg')
      refine ⟨ts :: gens, ?_, .cons ⟨hP, h0, hlen, htab⟩ hall⟩
      rw [generatePedersenCircuitGenerators] at hgens ⊢
      rw [List.mapM_cons, hts, hgens]
      rfl
  exact key S.generators S.generators_prime

end ProviiCrypto
