import ProviiCrypto.Gadgets.SaplingConstants
import ProviiCrypto.Gadgets.ScalarMultiplication
import ProviiCrypto.Jubjub.Generator

/-!
# Multiplication of a fixed base

The window tables of `generate_circuit_generator` (`gadgets/sapling_constants.rs`) and the loop over
them of `fixed_base_multiplication` (`gadgets/sapling_ecc.rs`): three bits a window, zeros for the bits
that the last window lacks, and as many windows as there are tables.

* `generateCircuitGenerator_eq`: the tables of the multiples by 0 to 7, the base growing eightfold.
* `fixedBase_yields`: the constraints have one output, the multiple by the number that the first 252
  bits write. Bits after them are dropped without an error.
* `fixedBase_exact`: this, the prover's own run, and when `EdwardsPoint::mul`, which drops nothing,
  comes to the same point of a base of prime order.
-/

namespace ProviiCrypto

open R1CS R1CS.Synth Number

/-! ## The tables -/

/-- `FIXED_BASE_CHUNKS_PER_GENERATOR`. -/
def fixedBaseChunksPerGenerator : ℕ := 84

/-- Push `g`, `g + gen`, ... on the table `k` times; also the point after them. -/
def multiplesLoop (gen : Point) : ℕ → Point → WindowTable → WindowTable × Point
  | 0, g, coeffs => (coeffs, g)
  | k + 1, g, coeffs => multiplesLoop gen k (g + gen) (coeffs ++ [(g.u, g.v)])

/-- The tables of `k` windows: a table ends where the next base begins. -/
def circuitGeneratorLoop : ℕ → Point → List WindowTable
  | 0, _ => []
  | k + 1, gen =>
    let (coeffs, g) := multiplesLoop gen 7 gen [(0, 1)]
    coeffs :: circuitGeneratorLoop k g

/-- `generate_circuit_generator`. -/
def generateCircuitGenerator (gen : Point) : List WindowTable :=
  circuitGeneratorLoop fixedBaseChunksPerGenerator gen

/-- The multiples of a base by 0 to 7. -/
def fixedTable (base : Point) : WindowTable :=
  (List.range 8).map fun i => ((i • base).u, (i • base).v)

theorem multiplesLoop_eq (gen : Point) (k m : ℕ) (coeffs : WindowTable) :
    multiplesLoop gen k (m • gen) coeffs =
      (coeffs ++ (List.range k).map fun i => (((m + i) • gen).u, ((m + i) • gen).v),
        (m + k) • gen) := by
  induction k generalizing m coeffs with
  | zero => simp [multiplesLoop]
  | succ k ih =>
    have hrest : ∀ i, m + 1 + i = m + (i + 1) := fun i => by omega
    rw [multiplesLoop, ← succ_nsmul, ih, List.range_succ_eq_map, List.map_cons, List.map_map]
    simp [hrest, Function.comp_def]

theorem fixedTable_eq (base : Point) : fixedTable base =
    [(0, 1)] ++ (List.range 7).map fun i => (((1 + i) • base).u, ((1 + i) • base).v) := by
  unfold fixedTable
  rw [List.range_succ_eq_map, List.map_cons, List.map_map, zero_nsmul]
  refine congrArg ((0, 1) :: ·) (List.map_congr_left fun i _ => ?_)
  rw [Function.comp_apply, Nat.succ_eq_one_add]

theorem circuitGeneratorLoop_succ (k : ℕ) (gen : Point) :
    circuitGeneratorLoop (k + 1) gen = fixedTable gen :: circuitGeneratorLoop k (8 • gen) := by
  have hmultiples := multiplesLoop_eq gen 7 1 [(0, 1)]
  rw [one_nsmul] at hmultiples
  rw [circuitGeneratorLoop, hmultiples, fixedTable_eq]

/-- **The tables**: of window `j` the multiples of `8 ^ j` times the generator. -/
theorem generateCircuitGenerator_eq (gen : Point) : generateCircuitGenerator gen =
    (List.range fixedBaseChunksPerGenerator).map fun j => fixedTable (8 ^ j • gen) := by
  have hloop : ∀ (k : ℕ) (g : Point),
      circuitGeneratorLoop k g = (List.range k).map fun j => fixedTable (8 ^ j • g) := by
    intro k
    induction k with
    | zero => exact fun _ => rfl
    | succ k ih =>
      intro g
      rw [circuitGeneratorLoop_succ, ih, List.range_succ_eq_map, List.map_cons, List.map_map,
        pow_zero, one_nsmul]
      simp only [Function.comp_def, pow_succ', mul_nsmul]
  exact hloop _ gen

/-! ## The gadget -/

variable {H : Blake2s} (B : Bellman H) (L : FixedLookup)

/-- A bit of a chunk, or the constant false. -/
def chunkBit (chunk : List Boolean) (i : ℕ) : Boolean := chunk.getD i (.constant false)

/-- The point of a window. -/
def fixedWindow (chunk : List Boolean) (window : WindowTable) : Synth Scalar EdwardsPoint := do
  let (u, v) ← L.lookup3Xy [chunkBit chunk 0, chunkBit chunk 1, chunkBit chunk 2] window
  return ⟨u, v⟩

/-- The loop of `fixed_base_multiplication`, with the sum so far. -/
def fixedBaseLoop : List (List Boolean × WindowTable) → Option EdwardsPoint →
    Synth Scalar (Option EdwardsPoint)
  | [], result => pure result
  | (chunk, window) :: rest, result => do
    let p ← fixedWindow L chunk window
    let result ← EdwardsPoint.accumulate B p result
    fixedBaseLoop rest (some result)

/-- `fixed_base_multiplication`, of a little-endian bit string. -/
def fixedBaseMultiplication (base : List WindowTable) (bits : List Boolean) :
    Synth Scalar EdwardsPoint := do
  let result ← fixedBaseLoop B L ((chunks 3 bits).zip base) none
  okOr result .assignmentMissing

/-! ## A window -/

@[simp] theorem length_fixedTable (base : Point) : (fixedTable base).length = 8 := by
  simp [fixedTable]

/-- The entry that three bits select is the multiple by their number. -/
theorem fixedTable_entry (base : Point) (x y z : Bool) :
    (fixedTable base)[x.toNat + 2 * y.toNat + 4 * z.toNat]? =
      some ((ofBits [x, y, z] • base).u, (ofBits [x, y, z] • base).v) := by
  have hindex : x.toNat + 2 * y.toNat + 4 * z.toNat = ofBits [x, y, z] := by
    rw [ofBits_cons, ofBits_cons, ofBits_cons, ofBits_nil]
    omega
  have hlt : ofBits [x, y, z] < 8 := ofBits_lt _
  rw [hindex, fixedTable, List.getElem?_map, List.getElem?_range hlt]
  rfl

/-- A chunk writes the same number with the bits it lacks as zeros. -/
theorem ofBits_chunk {vs : List Bool} (h : vs.length ≤ 3) :
    ofBits [vs.getD 0 false, vs.getD 1 false, vs.getD 2 false] = ofBits vs := by
  match vs, h with
  | [], _ => rfl
  | [a], _ => simp [ofBits_cons]
  | [a, b], _ => simp [ofBits_cons]
  | [a, b, c], _ => rfl

/-- The bits of a chunk are related to its values as the chunk is, missing ones included. -/
theorem chunkBit_rel {R : Boolean → Bool → Prop} (hR : R (.constant false) false)
    {chunk : List Boolean} {vs : List Bool} (h : List.Forall₂ R chunk vs) (i : ℕ) :
    R (chunkBit chunk i) (vs.getD i false) := by
  unfold chunkBit
  induction h generalizing i with
  | nil => simpa using hR
  | cons hb _ ih =>
    cases i with
    | zero => simpa using hb
    | succ i => simpa using ih i

/-- **A window's point** is the base times the number of the chunk. -/
theorem fixedWindow_sound (base : Point) {chunk : List Boolean} (hlen : chunk.length ≤ 3) :
    Sound (fixedWindow L chunk (fixedTable base)) fun w p => ∀ vs, ReadsAll w chunk vs →
      p.Reads w (ofBits vs • base) := by
  refine (L.lookup3Xy_sound _ _ _ _ (length_fixedTable base)).bind fun r => Sound.pure fun w hr vs hvs => ?_
  have hbit : ∀ i, (chunkBit chunk i).Reads w (vs.getD i false) :=
    chunkBit_rel ((Boolean.reads_constant false).mpr rfl) hvs
  obtain ⟨e, he, hu, hv⟩ := hr _ _ _ (hbit 0) (hbit 1) (hbit 2)
  rw [fixedTable_entry, ofBits_chunk (hvs.length_eq ▸ hlen)] at he
  obtain rfl := Option.some.inj he
  exact ⟨hu, hv⟩

theorem fixedWindow_honest (n : Counts) (base : Point) {chunk : List Boolean} {vs : List Bool}
    (hlen : chunk.length ≤ 3) (hvs : KnownAll chunk vs) :
    Honest n (fixedWindow L chunk (fixedTable base)) (fun w => ReadsAll w chunk vs)
      (fun p => p.Known (ofBits vs • base)) fun w p => p.Reads w (ofBits vs • base) := by
  refine Honest.of_sound (T := fun _ _ => True) ?_ (fixedWindow_sound L base hlen)
    fun w p h hs => hs vs h
  have hbit : ∀ i, (chunkBit chunk i).Known (vs.getD i false) :=
    chunkBit_rel ((Boolean.known_constant _ _).mpr rfl) hvs
  have hentry := fixedTable_entry base (vs.getD 0 false) (vs.getD 1 false) (vs.getD 2 false)
  rw [ofBits_chunk (hvs.length_eq ▸ hlen)] at hentry
  refine ((L.lookup3Xy_honest n _ _ _ _ _ _ _ _ (length_fixedTable base) (hbit 0) (hbit 1) (hbit 2) hentry).of_pre
    fun w h => ?_).bind fun r _ hr => Honest.pure ⟨hr.1, hr.2⟩ fun _ _ => trivial
  have hread : ∀ i, (chunkBit chunk i).Reads w (vs.getD i false) :=
    chunkBit_rel ((Boolean.reads_constant false).mpr rfl) h
  exact ⟨hread 0, hread 1, hread 2⟩

theorem fixedWindow_layout {chunk chunk' : List Boolean} (h : SameWires chunk chunk')
    (window : WindowTable) : SameLayout EdwardsPoint.SameWires (fixedWindow L chunk window)
      (fixedWindow L chunk' window) := by
  have hbit : ∀ i, (chunkBit chunk i).SameWire (chunkBit chunk' i) := fun i => by
    unfold chunkBit
    induction h generalizing i with
    | nil => exact rfl
    | cons hb _ ih =>
      cases i with
      | zero => exact hb
      | succ i => exact ih i
  exact (L.lookup3Xy_layout (.cons (hbit 0) (.cons (hbit 1) (.cons (hbit 2) .nil)))).bind
    fun _ _ h => SameLayout.pure ⟨h.1, h.2⟩

/-! ## The loop -/

/-- The windows that the loop visits: no more than there are tables, and none past the bits. -/
theorem zip_circuitGeneratorLoop (k : ℕ) (g : Point) {bits : List Boolean} (hne : bits ≠ []) :
    (chunks 3 bits).zip (circuitGeneratorLoop (k + 1) g) =
      (bits.take 3, fixedTable g) ::
        (chunks 3 (bits.drop 3)).zip (circuitGeneratorLoop k (8 • g)) := by
  rw [chunks_eq_cons (by norm_num) hne, circuitGeneratorLoop_succ, List.zip_cons_cons]

theorem zip_circuitGeneratorLoop_zero (g : Point) (bits : List Boolean) :
    (chunks 3 bits).zip (circuitGeneratorLoop 0 g) = [] :=
  List.zip_nil_right

theorem zip_circuitGeneratorLoop_nil (k : ℕ) (g : Point) :
    (chunks 3 ([] : List Boolean)).zip (circuitGeneratorLoop k g) = [] := by
  rw [chunks_nil (by norm_num), List.zip_nil_left]

/-- The first window and the rest, of a base eight times as large. -/
theorem ofBits_take_windows (k : ℕ) (vs : List Bool) (g : Point) :
    ofBits (vs.take (3 * (k + 1))) • g =
      ofBits (vs.take 3) • g + ofBits ((vs.drop 3).take (3 * k)) • 8 • g := by
  have hsplit : ofBits (vs.take (3 * (k + 1))) =
      ofBits (vs.take 3) + 8 * ofBits ((vs.drop 3).take (3 * k)) := by
    rw [Nat.mul_succ, Nat.add_comm (3 * k), List.take_add, ofBits_append]
    rcases le_or_gt 3 vs.length with h | h
    · rw [List.length_take, min_eq_left h]
      rfl
    · simp [List.drop_eq_nil_of_le h.le]
  rw [hsplit, add_smul, smul_smul, mul_comm 8]

/-- With sum `R`, the remaining windows add the number of their bits times the base. -/
theorem fixedBaseLoop_sound : ∀ (k : ℕ) (g : Point) (bits : List Boolean) (res : EdwardsPoint),
    Sound (fixedBaseLoop B L ((chunks 3 bits).zip (circuitGeneratorLoop k g)) (some res))
      fun w r => ∀ R vs, res.Reads w R → ReadsAll w bits vs →
        ∃ q, r = some q ∧ q.Reads w (R + ofBits (vs.take (3 * k)) • g)
  | 0, g, bits, res => by
    rw [zip_circuitGeneratorLoop_zero]
    refine Sound.pure fun w R vs hR _ => ⟨res, rfl, ?_⟩
    rwa [Nat.mul_zero, List.take_zero, ofBits_nil, zero_smul, add_zero]
  | k + 1, g, bits, res => by
    by_cases hne : bits = []
    · subst hne
      rw [zip_circuitGeneratorLoop_nil]
      refine Sound.pure fun w R vs hR hvs => ⟨res, rfl, ?_⟩
      rwa [List.forall₂_nil_left_iff.mp hvs, List.take_nil, ofBits_nil, zero_smul, add_zero]
    · rw [zip_circuitGeneratorLoop k g hne]
      refine (fixedWindow_sound L g (List.length_take_le 3 bits)).bind fun p =>
        (EdwardsPoint.add_sound B res p).bind fun res' =>
        (fixedBaseLoop_sound k (8 • g) (bits.drop 3) res').mono fun w r ih hadd hwin R vs hR hvs => ?_
      have hp := hwin _ (List.forall₂_take 3 hvs)
      obtain ⟨q, rfl, hq⟩ := ih _ _ (hadd _ _ hR hp) (List.forall₂_drop 3 hvs)
      exact ⟨q, rfl, by rwa [ofBits_take_windows, ← add_assoc]⟩

theorem fixedBaseLoop_honest : ∀ (k : ℕ) (g : Point) (bits : List Boolean) (res : EdwardsPoint)
    (n : Counts) {R : Point} {vs : List Bool}, res.Known R → KnownAll bits vs →
    Honest n (fixedBaseLoop B L ((chunks 3 bits).zip (circuitGeneratorLoop k g)) (some res))
      (fun w => res.Reads w R ∧ ReadsAll w bits vs)
      (fun r => ∃ q, r = some q ∧ q.Known (R + ofBits (vs.take (3 * k)) • g)) fun _ _ => True
  | 0, g, bits, res, n, R, vs, hR, _ => by
    rw [zip_circuitGeneratorLoop_zero]
    refine Honest.pure ⟨res, rfl, ?_⟩ fun _ _ => trivial
    rwa [Nat.mul_zero, List.take_zero, ofBits_nil, zero_smul, add_zero]
  | k + 1, g, bits, res, n, R, vs, hR, hvs => by
    by_cases hne : bits = []
    · subst hne
      rw [zip_circuitGeneratorLoop_nil]
      refine Honest.pure ⟨res, rfl, ?_⟩ fun _ _ => trivial
      rwa [List.forall₂_nil_left_iff.mp hvs, List.take_nil, ofBits_nil, zero_smul, add_zero]
    · rw [zip_circuitGeneratorLoop k g hne]
      refine Honest.bind ((fixedWindow_honest L n g (List.length_take_le 3 bits)
        (List.forall₂_take 3 hvs)).of_pre fun w h => List.forall₂_take 3 h.2) fun p _ hp => ?_
      refine Honest.bind ((EdwardsPoint.add_honest B _ hR hp).of_pre fun w h => ⟨h.1.1, h.2⟩)
        fun res' _ hres' => ?_
      refine (fixedBaseLoop_honest k (8 • g) (bits.drop 3) res' _ hres'
        (List.forall₂_drop 3 hvs)).mono (fun w h => ⟨h.2, List.forall₂_drop 3 h.1.1.2⟩)
        (fun r hr => ?_) fun _ _ _ _ => id
      obtain ⟨q, rfl, hq⟩ := hr
      exact ⟨q, rfl, by rwa [ofBits_take_windows, ← add_assoc]⟩

theorem fixedBaseLoop_layout : ∀ (k : ℕ) (g : Point) {bits bits' : List Boolean}
    {res res' : Option EdwardsPoint}, SameWires bits bits' →
    Option.Rel EdwardsPoint.SameWires res res' →
    SameLayout (Option.Rel EdwardsPoint.SameWires)
      (fixedBaseLoop B L ((chunks 3 bits).zip (circuitGeneratorLoop k g)) res)
      (fixedBaseLoop B L ((chunks 3 bits').zip (circuitGeneratorLoop k g)) res')
  | 0, g, bits, bits', _, _, _, hres => by
    rw [zip_circuitGeneratorLoop_zero, zip_circuitGeneratorLoop_zero]
    exact SameLayout.pure hres
  | k + 1, g, bits, bits', res, res', hb, hres => by
    by_cases hne : bits = []
    · subst hne
      rw [List.forall₂_nil_left_iff.mp hb, zip_circuitGeneratorLoop_nil]
      exact SameLayout.pure hres
    · have hne' : bits' ≠ [] := by
        rintro rfl
        exact hne (List.forall₂_nil_right_iff.mp hb)
      rw [zip_circuitGeneratorLoop k g hne, zip_circuitGeneratorLoop k g hne']
      refine (fixedWindow_layout L (List.forall₂_take 3 hb) _).bind fun p p' hp =>
        SameLayout.bind (R := EdwardsPoint.SameWires) ?_ fun r r' hr =>
        fixedBaseLoop_layout k (8 • g) (List.forall₂_drop 3 hb) (.some hr)
      cases hres with
      | none => exact SameLayout.pure hp
      | some h => exact EdwardsPoint.add_layout B h hp

/-! ## The multiplication -/

/-- The bits that the windows hold: three for each table. -/
def fixedBaseBits {α : Type} (bits : List α) : List α := bits.take (3 * fixedBaseChunksPerGenerator)

/-- The first window starts the sum. -/
private theorem fixedBaseLoop_start (g : Point) {bits : List Boolean} (hne : bits ≠ []) :
    fixedBaseLoop B L ((chunks 3 bits).zip (generateCircuitGenerator g)) none = (do
      let p ← fixedWindow L (bits.take 3) (fixedTable g)
      fixedBaseLoop B L ((chunks 3 (bits.drop 3)).zip (circuitGeneratorLoop 83 (8 • g))) (some p)) := by
  rw [generateCircuitGenerator, fixedBaseChunksPerGenerator, zip_circuitGeneratorLoop 83 g hne]
  simp [fixedBaseLoop, EdwardsPoint.accumulate]

theorem fixedBaseMultiplication_sound (g : Point) (bits : List Boolean) :
    Sound (fixedBaseMultiplication B L (generateCircuitGenerator g) bits) fun w r => ∀ vs,
      ReadsAll w bits vs → r.Reads w (ofBits (fixedBaseBits vs) • g) := by
  unfold fixedBaseMultiplication
  by_cases hne : bits = []
  · subst hne
    rw [generateCircuitGenerator, zip_circuitGeneratorLoop_nil]
    exact Sound.throw
  · rw [fixedBaseLoop_start B L g hne, bind_assoc]
    refine (fixedWindow_sound L g (List.length_take_le 3 bits)).bind fun p =>
      (fixedBaseLoop_sound B L 83 (8 • g) (bits.drop 3) p).bind fun r => Sound.okOr.mono
      fun w q hr hl hwin vs hvs => ?_
    obtain ⟨q', hq', hq⟩ := hl _ _ (hwin _ (List.forall₂_take 3 hvs)) (List.forall₂_drop 3 hvs)
    obtain rfl : q' = q := Option.some.inj (hq'.symm.trans hr)
    rwa [fixedBaseBits, fixedBaseChunksPerGenerator, ofBits_take_windows 83]

theorem fixedBaseMultiplication_honest (n : Counts) (g : Point) {bits : List Boolean}
    {vs : List Bool} (hvs : KnownAll bits vs) (hne : bits ≠ []) :
    Honest n (fixedBaseMultiplication B L (generateCircuitGenerator g) bits)
      (fun w => ReadsAll w bits vs) (fun r => r.Known (ofBits (fixedBaseBits vs) • g))
      fun w r => r.Reads w (ofBits (fixedBaseBits vs) • g) := by
  refine Honest.of_sound (T := fun _ _ => True) ?_ (fixedBaseMultiplication_sound B L g bits)
    fun w r h hs => hs vs h
  unfold fixedBaseMultiplication
  rw [fixedBaseLoop_start B L g hne, bind_assoc]
  refine Honest.bind ((fixedWindow_honest L n g (List.length_take_le 3 bits)
    (List.forall₂_take 3 hvs)).of_pre fun w h => List.forall₂_take 3 h) fun p _ hp => ?_
  refine Honest.bind ((fixedBaseLoop_honest B L 83 (8 • g) (bits.drop 3) p _ hp
    (List.forall₂_drop 3 hvs)).of_pre fun w h => ⟨h.2, List.forall₂_drop 3 h.1⟩) fun r _ hr => ?_
  obtain ⟨q, rfl, hq⟩ := hr
  refine (Honest.okOr rfl _).mono (fun _ h => h) (fun r hr => ?_) fun _ _ _ _ => id
  rw [hr]
  rwa [fixedBaseBits, fixedBaseChunksPerGenerator, ofBits_take_windows 83]

theorem fixedBaseMultiplication_layout (g : Point) {bits bits' : List Boolean}
    (hb : SameWires bits bits') : SameLayout EdwardsPoint.SameWires
      (fixedBaseMultiplication B L (generateCircuitGenerator g) bits)
      (fixedBaseMultiplication B L (generateCircuitGenerator g) bits') :=
  (fixedBaseLoop_layout B L fixedBaseChunksPerGenerator g hb .none).bind fun _ _ hr =>
    SameLayout.okOr fun a a' h h' => by
      subst h h'
      cases hr with
      | some h => exact h

/-- **The bits select one output**, of the point that the tables are made of. -/
theorem fixedBase_yields {n : Counts} {w₀ : Assignment Scalar} (g : Point) {bits : List Boolean}
    {vs : List Bool} (hne : bits ≠ []) (hn : 1 ≤ n.inputs) (hbits : ∀ b ∈ bits, b.Below n)
    (hvs : ReadsAll w₀ bits vs) :
    Yields n w₀ (fixedBaseMultiplication B L (generateCircuitGenerator g) bits)
      fun w r => r.Reads w (ofBits (fixedBaseBits vs) • g) := by
  obtain ⟨bits', hsame, hknown⟩ := hvs.exists_known
  have hne' : bits' ≠ [] := by
    rintro rfl
    exact hne (List.forall₂_nil_right_iff.mp hsame)
  exact Yields.of_honest (fixedBaseMultiplication_sound B L g bits)
    (fun w r hext h => h vs (hvs.congr hbits hext))
    (fixedBaseMultiplication_honest B L n g hknown hne') (fixedBaseMultiplication_layout B L g hsame)
    hn fun w hext => hsame.symm.readsAll (hvs.congr hbits hext)

/-- The bits that no window holds make no difference exactly when their number is a multiple of the
group's order. -/
theorem ofBits_fixedBaseBits_smul {g : Point} (hg : PrimeOrder g) (h0 : g ≠ 0) (vs : List Bool) :
    ofBits (fixedBaseBits vs) • g = ofBits vs • g ↔ subgroupOrder ∣ ofBits (vs.drop 252) := by
  change ofBits (vs.take 252) • g = _ ↔ _
  rcases le_or_gt vs.length 252 with hle | hlt
  · rw [List.take_of_length_le hle, List.drop_eq_nil_of_le hle]
    simp
  · have hsplit : ofBits vs = ofBits (vs.take 252) + 2 ^ 252 * ofBits (vs.drop 252) := by
      conv_lhs => rw [← List.take_append_drop 252 vs, ofBits_append, List.length_take_of_le hlt.le]
    have hcoprime : Nat.Coprime subgroupOrder (2 ^ 252) :=
      ((Nat.coprime_primes subgroupOrder_prime Nat.prime_two).mpr (by norm_num)).pow_right 252
    rw [hsplit, add_smul, left_eq_add, hg.nsmul_eq_zero_iff h0, hcoprime.dvd_mul_left]

/-- **`fixed_base_multiplication`** multiplies the point of its tables, any point of the curve, by the
number of the first 252 bits; the bits after them have no part in it. With `EdwardsPoint::mul` it is
compared for a base in the subgroup of prime order that is not the identity. -/
theorem fixedBase_exact :
    -- satisfied constraints force the multiple
    (∀ (g : Point) (bits : List Boolean) (md : Mode) (n : Counts) (r : EdwardsPoint)
      (ops : List (Op Scalar)),
      fixedBaseMultiplication B L (generateCircuitGenerator g) bits md n = .ok (r, ops) →
      ∀ (w : Assignment Scalar) (vs : List Bool), ReadsAll w bits vs → Holds w ops →
        r.Reads w (ofBits (vs.take 252) • g)) ∧
    -- from any wires, they can be satisfied, and have no other output
    (∀ (g : Point) (bits : List Boolean) (n : Counts) (w₀ : Assignment Scalar) (vs : List Bool),
      bits ≠ [] → 1 ≤ n.inputs → (∀ b ∈ bits, b.Below n) → ReadsAll w₀ bits vs →
      Yields n w₀ (fixedBaseMultiplication B L (generateCircuitGenerator g) bits)
        fun w r => r.Reads w (ofBits (vs.take 252) • g)) ∧
    -- a prover who knows the bits computes it, and no bits are an error in both modes
    (∀ (g : Point) (bits : List Boolean) (n : Counts) (vs : List Bool), bits ≠ [] →
      KnownAll bits vs → ∃ r ops,
        fixedBaseMultiplication B L (generateCircuitGenerator g) bits .prove n = .ok (r, ops) ∧
          r.Known (ofBits (vs.take 252) • g)) ∧
    (∀ (base : List WindowTable) (md : Mode) (n : Counts),
      fixedBaseMultiplication B L base [] md n = .error (.error .assignmentMissing)) ∧
    -- of a base of prime order that is not the identity, `EdwardsPoint::mul` by the same bits is the
    -- same point when the order divides the number of the bits dropped
    (∀ (g : Point) (p : EdwardsPoint) (bits : List Boolean) (md : Mode) (n n' : Counts)
      (r r' : EdwardsPoint) (ops ops' : List (Op Scalar)), PrimeOrder g → g ≠ 0 →
      fixedBaseMultiplication B L (generateCircuitGenerator g) bits md n = .ok (r, ops) →
      EdwardsPoint.mul B p bits md n' = .ok (r', ops') →
      ∀ (w : Assignment Scalar) (vs : List Bool), p.Reads w g → ReadsAll w bits vs →
        Holds w ops → Holds w ops' →
        (w r.u.var = w r'.u.var ∧ w r.v.var = w r'.v.var ↔
          subgroupOrder ∣ ofBits (vs.drop 252))) := by
  refine ⟨?_, ?_, ?_, ?_, ?_⟩
  · intro g bits md n r ops hrun w vs hvs hw
    exact fixedBaseMultiplication_sound B L g bits md n r ops hrun w hw vs hvs
  · intro g bits n w₀ vs hne hn hbits hvs
    exact fixedBase_yields B L g hne hn hbits hvs
  · intro g bits n vs hne hvs
    exact (fixedBaseMultiplication_honest B L n g hvs hne).runs
  · intro base md n
    unfold fixedBaseMultiplication
    rw [chunks_nil (by norm_num), List.zip_nil_left]
    rfl
  · intro g p bits md n n' r r' ops ops' hg h0 hrun hrun' w vs hp hvs hw hw'
    have hr := fixedBaseMultiplication_sound B L g bits md n r ops hrun w hw vs hvs
    have hr' := EdwardsPoint.mul_sound B p bits md n' r' ops' hrun' w hw' g vs hp hvs
    rw [hr.u, hr.v, hr'.u, hr'.v, ← Edwards.Point.ext_iff]
    exact ofBits_fixedBaseBits_smul hg h0 vs

/-! ## A bit too many -/

/-- The generator in the first two auxiliary variables. -/
private def generatorWires : EdwardsPoint :=
  ⟨⟨some spendingKeyGenerator.u, .aux 0⟩, ⟨some spendingKeyGenerator.v, .aux 1⟩⟩

private def generatorAssignment : Assignment Scalar where
  val
    | .aux 0 => spendingKeyGenerator.u
    | .aux 1 => spendingKeyGenerator.v
    | _ => 1
  val_one := rfl

private theorem readsAll_constants (w : Assignment Scalar) (k : ℕ) :
    ReadsAll w (List.replicate k (.constant true)) (List.replicate k true) := by
  induction k with
  | zero => exact .nil
  | succ k ih => exact .cons ((Boolean.reads_constant true).mpr rfl) ih

private theorem knownAll_constants (k : ℕ) :
    KnownAll (List.replicate k (.constant true)) (List.replicate k true) := by
  induction k with
  | zero => exact .nil
  | succ k ih => exact .cons rfl ih

/-- Of 253 ones the last one is dropped, so the two multiplications have different outputs. -/
theorem fixedBase_exact_dropped : ∃ r ops,
    fixedBaseMultiplication (Reference.bellman Reference.blake2s) Reference.fixedLookup
      (generateCircuitGenerator spendingKeyGenerator) (List.replicate 253 (.constant true)) .prove
      ⟨1, 2⟩ = .ok (r, ops) ∧
    r.Known (ofBits (List.replicate 252 true) • spendingKeyGenerator) ∧
    (∃ w : Assignment Scalar, w.Extends generatorAssignment ⟨1, 2⟩ ∧ Holds w ops) ∧
    ∀ r' ops', EdwardsPoint.mul (Reference.bellman Reference.blake2s) generatorWires
        (List.replicate 253 (.constant true)) .prove ⟨1, 2⟩ = .ok (r', ops') →
      ∀ w : Assignment Scalar, generatorWires.Reads w spendingKeyGenerator → Holds w ops →
        Holds w ops' → ¬(w r.u.var = w r'.u.var ∧ w r.v.var = w r'.v.var) := by
  obtain ⟨-, hyields, hruns, -, hmul⟩ :=
    fixedBase_exact (Reference.bellman Reference.blake2s) Reference.fixedLookup
  have hne : List.replicate 253 (Boolean.constant true) ≠ [] := List.cons_ne_nil _ _
  have hbelow : ∀ b ∈ List.replicate 253 (Boolean.constant true), b.Below ⟨1, 2⟩ := fun b hb => by
    rw [List.eq_of_mem_replicate hb]
    exact trivial
  obtain ⟨r, ops, hrun, hr⟩ := hruns spendingKeyGenerator _ ⟨1, 2⟩ _ hne (knownAll_constants 253)
  obtain ⟨hsat, -⟩ := hyields spendingKeyGenerator _ ⟨1, 2⟩ generatorAssignment _ hne le_rfl hbelow
    (readsAll_constants _ 253) _ _ _ hrun
  refine ⟨r, ops, hrun, ?_, hsat, fun r' ops' hrun' w hg hw hw' => ?_⟩
  · rwa [List.take_replicate] at hr
  · rw [hmul spendingKeyGenerator generatorWires _ .prove _ _ r r' ops ops'
      primeOrder_spendingKeyGenerator spendingKeyGenerator_ne_zero hrun hrun' w _ hg
      (readsAll_constants w 253) hw hw', List.drop_replicate]
    decide

end ProviiCrypto
