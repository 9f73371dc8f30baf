import ProviiCrypto.Gadgets.Montgomery
import ProviiCrypto.Gadgets.SaplingConstants

/-!
# `gadgets::sapling_pedersen`

The Pedersen hash of a string of wires. A segment is summed window by window with the incomplete
Montgomery addition; the invariant of that loop (`segmentLoop_sound`) is that the accumulator is
the segment's digits so far times the generator, and the digit bounds of signed windows keep it
apart from the next window's point. The segments are then summed as Edwards points.

* `pedersenHash_sound`: the constraints force the point the host computes.
* `pedersenHash_honest`: the prover computes it, without a division by zero.
* `pedersenHash_returns`: a string that does not fit the generators is refused.
-/

namespace ProviiCrypto

open R1CS R1CS.Synth Number

variable {H : Blake2s} (B : Bellman H) (S : Sapling)

/-- Add a window's point to the segment so far. -/
def addWindow (tmp : MontgomeryPoint) : Option MontgomeryPoint → Synth Scalar MontgomeryPoint
  | none => pure tmp
  | some segmentResult => tmp.add segmentResult

/-- The window loop of a segment: its result, and the wires left. -/
def segmentLoop : List WindowTable → List Boolean → Option MontgomeryPoint →
    Synth Scalar (Option MontgomeryPoint × List Boolean)
  | [], bits, segmentResult => pure (segmentResult, bits)
  | _ :: _, [], segmentResult => pure (segmentResult, [])
  | window :: segmentWindows, a :: bits, segmentResult => do
    let b := bits.head?.getD (.constant false)
    let c := bits.tail.head?.getD (.constant false)
    let tmp ← B.lookup3 [a, b, c] window
    let segmentResult ← addWindow ⟨tmp.1, tmp.2⟩ segmentResult
    segmentLoop segmentWindows bits.tail.tail (some segmentResult)

/-- Add a segment's point to the sum so far. -/
def addSegment (segmentResult : EdwardsPoint) : Option EdwardsPoint → Synth Scalar EdwardsPoint
  | some edwardsResult => EdwardsPoint.add B segmentResult edwardsResult
  | none => pure segmentResult

/-- The segment loop. -/
def pedersenLoop : List (List WindowTable) → List Boolean → Option EdwardsPoint →
    Synth Scalar (Option EdwardsPoint)
  | _, [], edwardsResult => pure edwardsResult
  | [], _ :: _, _ => Synth.throw .unsatisfiable
  | segmentWindows :: segmentGenerators, bit :: bits, edwardsResult => do
    let (segmentResult, rest) ← segmentLoop B segmentWindows (bit :: bits) none
    let segmentResult ← okOr segmentResult .unsatisfiable
    let segmentResult ← segmentResult.intoEdwards
    let edwardsResult ← addSegment B segmentResult edwardsResult
    pedersenLoop segmentGenerators rest (some edwardsResult)

/-- `pedersen_hash`. -/
def pedersenHash (personalization : Personalization) (bits : List Boolean) :
    Synth Scalar EdwardsPoint :=
  let personalization := (S.getBits personalization).map Boolean.constant
  if personalization.length ≠ 6 then Synth.throw .unsatisfiable
  else match S.circuitGenerators with
    | none => Synth.panic
    | some generators => do
      let edwardsResult ← pedersenLoop B generators (personalization ++ bits) none
      okOr edwardsResult .unsatisfiable

/-! ## A window -/

private theorem head_getD_rel {R : Boolean → Bool → Prop} (hR : R (.constant false) false)
    {bits : List Boolean} {vs : List Bool} (h : List.Forall₂ R bits vs) :
    R (bits.head?.getD (.constant false)) (vs.head?.getD false) ∧
      List.Forall₂ R bits.tail vs.tail := by
  cases h with
  | nil => exact ⟨hR, .nil⟩
  | cons hb hbs => exact ⟨hb, hbs⟩

/-- The wires of a window and the wires after it. -/
theorem window_rel {R : Boolean → Bool → Prop} (hR : R (.constant false) false) {a : Boolean}
    {bits : List Boolean} {v : Bool} {vs : List Bool} (h : List.Forall₂ R (a :: bits) (v :: vs)) :
    R a v ∧ R (bits.head?.getD (.constant false)) (vs.head?.getD false) ∧
      R (bits.tail.head?.getD (.constant false)) (vs.tail.head?.getD false) ∧
      List.Forall₂ R bits.tail.tail vs.tail.tail := by
  obtain ⟨hv, hvs⟩ := List.forall₂_cons.mp h
  obtain ⟨hb, htail⟩ := head_getD_rel hR hvs
  obtain ⟨hc, htail⟩ := head_getD_rel hR htail
  exact ⟨hv, hb, hc, htail⟩

private theorem head_getD_sameWire {bits bits' : List Boolean} (h : SameWires bits bits') :
    (bits.head?.getD (.constant false)).SameWire (bits'.head?.getD (.constant false)) ∧
      SameWires bits.tail bits'.tail := by
  cases h with
  | nil => exact ⟨Boolean.SameWire.refl _, .nil⟩
  | cons hb hbs => exact ⟨hb, hbs⟩

/-- A digit of a base, from the table entry and its sign. -/
private theorem digit_smul (x y z : Bool) (base : Point) :
    windowDigit x y z • base =
      if z then -((1 + x.toNat + 2 * y.toNat) • base) else (1 + x.toNat + 2 * y.toNat) • base := by
  have hcast : (1 + (x.toNat : ℤ) + 2 * y.toNat) = ((1 + x.toNat + 2 * y.toNat : ℕ) : ℤ) := by
    push_cast
    ring
  cases z
  · simp only [windowDigit, hcast, Bool.false_eq_true, if_false, one_mul, natCast_zsmul]
  · simp only [windowDigit, hcast, if_true, neg_mul, one_mul, neg_smul, natCast_zsmul]

private theorem entry_repr {x y z : Bool} {base : Point} {e : Scalar × Scalar}
    (h : jubjubForm.Repr ((1 + x.toNat + 2 * y.toNat) • base) e.1 e.2) :
    jubjubForm.Repr (windowDigit x y z • base) e.1 (if z then -e.2 else e.2) := by
  rw [digit_smul]
  cases z
  · exact h
  · exact h.neg

theorem window_sound {t : WindowTable} {base : Point} (ht : IsTable t base) (a b c : Boolean) :
    Sound (B.lookup3 [a, b, c] t) fun w r => ∀ x y z, a.Reads w x → b.Reads w y → c.Reads w z →
      (MontgomeryPoint.mk r.1 r.2).Reads w (windowDigit x y z • base) :=
  (B.lookup3_sound a b c t ht.length_eq).mono fun w r h x y z ha hb hc => by
    obtain ⟨e, he, h₁, h₂⟩ := h x y z ha hb hc
    obtain ⟨e', he', hr⟩ := ht.entry x y
    obtain rfl : e = e' := Option.some.inj (he.symm.trans he')
    show jubjubForm.Repr _ (r.1.lc.eval w) (r.2.lc.eval w)
    rw [h₁, h₂]
    exact entry_repr hr

theorem window_honest (n : Counts) {t : WindowTable} {base : Point} (ht : IsTable t base)
    {a b c : Boolean} {x y z : Bool} (ha : a.Known x) (hb : b.Known y) (hc : c.Known z) :
    Honest n (B.lookup3 [a, b, c] t) (fun w => a.Reads w x ∧ b.Reads w y ∧ c.Reads w z)
      (fun r => ∃ x₀ y₀, (MontgomeryPoint.mk r.1 r.2).Known (windowDigit x y z • base) x₀ y₀)
      fun w r => (MontgomeryPoint.mk r.1 r.2).Reads w (windowDigit x y z • base) := by
  obtain ⟨e, he, hr⟩ := ht.entry x y
  refine Honest.of_sound (T := fun _ _ => True) ?_ (window_sound B ht a b c)
    fun w r h hs => hs x y z h.1 h.2.1 h.2.2
  exact (B.lookup3_honest n a b c t x y z e ht.length_eq ha hb hc he).mono (fun _ h => h)
    (fun r h => ⟨_, _, h.1, h.2, entry_repr hr⟩) fun _ _ _ _ => id

/-! ## A segment -/

private theorem next_base (g : Point) (k : ℕ) : 16 • (16 ^ k • g) = 16 ^ (k + 1) • g := by
  rw [← mul_smul, pow_succ']

theorem next_table {g : Point} {k : ℕ} {t : WindowTable} {ts : List WindowTable}
    (h : Tables (16 ^ k • g) (t :: ts)) : IsTable t (16 ^ k • g) ∧ Tables (16 ^ (k + 1) • g) ts := by
  rw [← next_base]
  cases h with
  | cons h hs => exact ⟨h, hs⟩

section Segment

variable {g : Point} (hP : PrimeOrder g) (h0 : g ≠ 0)
include hP h0

private theorem partial_ne_zero {ds : List ℤ} (h : ∀ d ∈ ds, IsDigit d) (hne : ds ≠ [])
    (hlen : ds.length ≤ 63) : signedSum ds • g ≠ 0 := fun hz =>
  not_dvd_signedSum h hne hlen ((hP.zsmul_eq_zero_iff h0 _).mp hz)

/-- **The next window's point is apart from the accumulator**, in every way the incomplete
addition needs. -/
theorem window_apart {ds : List ℤ} {d : ℤ} (h : ∀ e ∈ ds, IsDigit e) (hd : IsDigit d)
    (hlen : ds.length < 63) :
    d • (16 ^ ds.length • g) ≠ signedSum ds • g ∧ d • (16 ^ ds.length • g) ≠ -(signedSum ds • g) ∧
      d • (16 ^ ds.length • g) + signedSum ds • g = signedSum (ds ++ [d]) • g ∧
      (signedSum (ds ++ [d]) • g).u ≠ 0 := by
  have hne : ∀ d', IsDigit d' → signedSum (ds ++ [d']) • g ≠ 0 := fun d' hd' =>
    partial_ne_zero hP h0 (isDigit_append h hd') (by simp) (by simp; omega)
  -- a new digit adds its multiple of the window's base
  have hadd : ∀ d' : ℤ, signedSum (ds ++ [d']) • g = signedSum ds • g + d' • (16 ^ ds.length • g) :=
    fun d' => by
      have hpow : ((16 : ℤ) ^ ds.length * d') • g = d' • (16 ^ ds.length • g) := by
        rw [mul_comm, mul_smul, ← natCast_zsmul g (16 ^ ds.length)]
        push_cast
        rfl
      rw [signedSum_append, add_smul, hpow]
  refine ⟨fun heq => hne (-d) hd.neg ?_, fun heq => hne d hd ?_, ?_, ?_⟩
  · rw [hadd, neg_smul, heq, add_neg_cancel]
  · rw [hadd, heq, add_neg_cancel]
  · rw [hadd, add_comm]
  · exact (hP.zsmul _).u_ne_zero (hne d hd)

/-- Adding the next window's point to a segment of `k` windows. -/
theorem addWindow_sound {k : ℕ} (hk : k < 63) (tmp : MontgomeryPoint) {acc : Option MontgomeryPoint}
    (hacc : acc = none → k = 0) :
    Sound (addWindow tmp acc) fun w r => ∀ ds d, (∀ e ∈ ds, IsDigit e) → IsDigit d →
      ds.length = k → tmp.Reads w (d • (16 ^ k • g)) →
      (∀ m ∈ acc, m.Reads w (signedSum ds • g)) → r.Reads w (signedSum (ds ++ [d]) • g) := by
  cases acc with
  | none =>
    refine Sound.pure fun w ds d _ _ hlen htmp _ => ?_
    obtain rfl := hacc rfl
    obtain rfl := List.length_eq_zero_iff.mp hlen
    simpa [signedSum] using htmp
  | some m =>
    refine (MontgomeryPoint.add_sound tmp m).mono fun w r h ds d hds hd hlen htmp hm => ?_
    subst hlen
    obtain ⟨hne, hneg, hsum, hu⟩ := window_apart hP h0 hds hd hk
    rw [← hsum]
    exact h _ _ htmp (hm m rfl) hne hneg (by rw [hsum]; exact hu)

theorem addWindow_honest (n : Counts) {ds : List ℤ} {d : ℤ} (hds : ∀ e ∈ ds, IsDigit e)
    (hd : IsDigit d) (hk : ds.length < 63) {tmp : MontgomeryPoint} {acc : Option MontgomeryPoint}
    (hacc : acc = none → ds = [])
    (htmp : ∃ x y, tmp.Known (d • (16 ^ ds.length • g)) x y)
    (hm : ∀ m ∈ acc, ∃ x y, m.Known (signedSum ds • g) x y) :
    Honest n (addWindow tmp acc)
      (fun w => tmp.Reads w (d • (16 ^ ds.length • g)) ∧ ∀ m ∈ acc, m.Reads w (signedSum ds • g))
      (fun r => ∃ x y, r.Known (signedSum (ds ++ [d]) • g) x y)
      fun w r => r.Reads w (signedSum (ds ++ [d]) • g) := by
  cases acc with
  | none =>
    obtain rfl := hacc rfl
    refine Honest.pure ?_ fun w h => ?_
    · simpa [signedSum] using htmp
    · simpa [signedSum] using h.1
  | some m =>
    obtain ⟨x₁, y₁, htmp⟩ := htmp
    obtain ⟨x₂, y₂, hm⟩ := hm m rfl
    obtain ⟨hne, hneg, hsum, hu⟩ := window_apart hP h0 hds hd hk
    rw [← hsum] at hu ⊢
    exact (MontgomeryPoint.add_honest n htmp hm hne hneg hu).mono (fun w h => ⟨h.1, h.2 m rfl⟩)
      (fun _ => id) fun _ _ _ => fun _ h => h

/-- **The window loop**: with the digits `ds` summed, the loop sums the digits of the windows its
tables allow. -/
theorem segmentLoop_sound : ∀ (ts : List WindowTable) (bits : List Boolean)
    (acc : Option MontgomeryPoint) (k : ℕ), Tables (16 ^ k • g) ts → k + ts.length ≤ 63 →
    (acc = none → k = 0) →
    Sound (segmentLoop B ts bits acc) fun w r => ∀ ds vs, (∀ e ∈ ds, IsDigit e) → ds.length = k →
      ReadsAll w bits vs → (∀ m ∈ acc, m.Reads w (signedSum ds • g)) →
      ∀ m ∈ r.1, m.Reads w (signedSum (ds ++ windowDigits (vs.take (3 * ts.length))) • g)
  | [], bits, acc, k, _, _, _ => Sound.pure fun w ds vs _ _ _ hm => by simpa [windowDigits] using hm
  | t :: ts, [], acc, k, _, _, _ => Sound.pure fun w ds vs _ _ hvs hm => by
    obtain rfl := List.forall₂_nil_left_iff.mp hvs
    simpa [windowDigits] using hm
  | t :: ts, a :: bits, acc, k, ht, hlen, hacc => by
    obtain ⟨htab, hts⟩ := next_table ht
    rw [List.length_cons] at hlen
    refine Sound.bind (window_sound B htab a _ _) fun tmp =>
      Sound.bind (addWindow_sound hP h0 (by omega) _ hacc) fun acc' =>
      (segmentLoop_sound ts bits.tail.tail (some acc') (k + 1) hts (by omega) (by simp)).mono
        fun w r ih hadd hwin ds vs hds hk hvs hm => ?_
    obtain ⟨v, vs, -, -, rfl⟩ := List.forall₂_cons_left_iff.mp hvs
    obtain ⟨hv, hb, hc, htail⟩ := window_rel ((Boolean.reads_constant false).mpr rfl) hvs
    have hd := isDigit_windowDigit v (vs.head?.getD false) (vs.tail.head?.getD false)
    have hacc' := hadd ds _ hds hd hk (hwin _ _ _ hv hb hc) hm
    rw [List.length_cons, windowDigits_take, List.append_cons ds _ (windowDigits _)]
    refine ih _ _ (isDigit_append hds hd) (by simp [hk]) htail fun m hm => ?_
    rwa [← Option.mem_some.mp hm]

theorem segmentLoop_honest : ∀ (ts : List WindowTable) (bits : List Boolean)
    (acc : Option MontgomeryPoint) (n : Counts) (ds : List ℤ) (vs : List Bool),
    Tables (16 ^ ds.length • g) ts → ds.length + ts.length ≤ 63 → (acc = none → ds = []) →
    (∀ e ∈ ds, IsDigit e) → KnownAll bits vs →
    (∀ m ∈ acc, ∃ x y, m.Known (signedSum ds • g) x y) →
    (acc = none → ts ≠ [] ∧ bits ≠ []) →
    Honest n (segmentLoop B ts bits acc)
      (fun w => ReadsAll w bits vs ∧ ∀ m ∈ acc, m.Reads w (signedSum ds • g))
      (fun r => ∃ m x y, r.1 = some m ∧
        m.Known (signedSum (ds ++ windowDigits (vs.take (3 * ts.length))) • g) x y)
      fun _ _ => True
  | [], bits, acc, n, ds, vs, _, _, _, _, _, hm, hne => by
    obtain ⟨m, rfl⟩ := Option.ne_none_iff_exists'.mp fun h => (hne h).1 rfl
    obtain ⟨x, y, hk⟩ := hm m rfl
    exact Honest.pure ⟨m, x, y, rfl, by simpa [windowDigits] using hk⟩ fun _ _ => trivial
  | t :: ts, [], acc, n, ds, vs, _, _, _, _, hvs, hm, hne => by
    obtain rfl := List.forall₂_nil_left_iff.mp hvs
    obtain ⟨m, rfl⟩ := Option.ne_none_iff_exists'.mp fun h => (hne h).2 rfl
    obtain ⟨x, y, hk⟩ := hm m rfl
    exact Honest.pure ⟨m, x, y, rfl, by simpa [windowDigits] using hk⟩ fun _ _ => trivial
  | t :: ts, a :: bits, acc, n, ds, vs, ht, hlen, hacc, hds, hvs, hm, _ => by
    obtain ⟨htab, hts⟩ := next_table ht
    rw [List.length_cons] at hlen
    obtain ⟨v, vs, -, -, rfl⟩ := List.forall₂_cons_left_iff.mp hvs
    obtain ⟨hv, hb, hc, htail⟩ := window_rel ((Boolean.known_constant false false).mpr rfl) hvs
    have hd := isDigit_windowDigit v (vs.head?.getD false) (vs.tail.head?.getD false)
    refine Honest.bind ((window_honest B n htab hv hb hc).of_pre fun w h => ?_)
      fun tmp n₁ htmp => ?_
    · obtain ⟨hwv, hwb, hwc, -⟩ := window_rel ((Boolean.reads_constant false).mpr rfl) h.1
      exact ⟨hwv, hwb, hwc⟩
    refine Honest.bind ((addWindow_honest hP h0 n₁ hds hd (by omega) hacc htmp hm).of_pre fun w h =>
      ⟨h.2, h.1.2⟩) fun acc' n₂ hacc' => ?_
    rw [List.length_cons, windowDigits_take, List.append_cons ds _ (windowDigits _)]
    refine (segmentLoop_honest ts bits.tail.tail (some acc') n₂ _ _ (by simpa using hts)
      (by simp; omega) (by simp) (isDigit_append hds hd) htail ?_ (by simp)).of_pre fun w h => ?_
    · rintro m ⟨⟩
      exact hacc'
    · refine ⟨?_, fun m hm => Option.mem_some.mp hm ▸ h.2⟩
      exact (window_rel ((Boolean.reads_constant false).mpr rfl) h.1.1.1).2.2.2

end Segment

/-- A segment leaves the wires after its windows. -/
theorem segmentLoop_rest : ∀ (ts : List WindowTable) (bits : List Boolean)
    (acc : Option MontgomeryPoint),
    Returns (segmentLoop B ts bits acc) fun r => r.2 = bits.drop (3 * ts.length)
  | [], bits, acc => Returns.pure (by simp)
  | t :: ts, [], acc => Returns.pure (by simp)
  | t :: ts, a :: bits, acc =>
    (Returns.trivial _).bind fun _ _ => (Returns.trivial _).bind fun _ _ =>
      (segmentLoop_rest ts bits.tail.tail _).mono fun r h => by
        rw [h, List.length_cons, drop_window]

/-! ## The segments -/

theorem addSegment_sound (p : EdwardsPoint) (acc : Option EdwardsPoint) :
    Sound (addSegment B p acc) fun w r => ∀ P R, p.Reads w P → (∀ e ∈ acc, e.Reads w R) →
      (acc = none → R = 0) → r.Reads w (P + R) := by
  cases acc with
  | none => exact Sound.pure fun w P R hP _ hR => by rwa [hR rfl, add_zero]
  | some e => exact (EdwardsPoint.add_sound B p e).mono fun w r h P R hP hR _ => h P R hP (hR e rfl)

theorem addSegment_honest (n : Counts) {p : EdwardsPoint} {acc : Option EdwardsPoint} {P R : Point}
    (hp : p.Known P) (hacc : ∀ e ∈ acc, e.Known R) (hR : acc = none → R = 0) :
    Honest n (addSegment B p acc) (fun w => p.Reads w P ∧ ∀ e ∈ acc, e.Reads w R)
      (fun r => r.Known (P + R)) fun w r => r.Reads w (P + R) := by
  cases acc with
  | none => exact Honest.pure (by rwa [hR rfl, add_zero]) fun w h => by rw [hR rfl, add_zero]; exact h.1
  | some e =>
    exact (EdwardsPoint.add_honest B n hp (hacc e rfl)).of_pre fun w h => ⟨h.1, h.2 e rfl⟩

/-- The windows of a segment, read from its generator's tables. -/
theorem segment_tables {g : Point} {ts : List WindowTable} (h : GeneratorTables g ts) :
    Tables (16 ^ 0 • g) ts ∧ 0 + ts.length ≤ 63 := by
  rw [pow_zero, one_smul, h.length_eq]
  exact ⟨h.tables, le_rfl⟩

theorem pedersenLoop_nil (gens : List (List WindowTable)) (acc : Option EdwardsPoint) :
    pedersenLoop B gens [] acc = pure acc := by cases gens <;> rfl

private theorem pedersenLoop_nil_sound (gs : List Point) (gens : List (List WindowTable))
    (acc : Option EdwardsPoint) : Sound (pedersenLoop B gens [] acc) fun w r => ∀ vs R,
      ReadsAll w [] vs → (∀ e ∈ acc, e.Reads w R) → (acc = none → R = 0) →
      ∃ Q, segmentsSum pedersenHashChunksPerGenerator gs vs = some Q ∧
        ∀ e ∈ r, e.Reads w (Q + R) := by
  rw [pedersenLoop_nil]
  refine Sound.pure fun w vs R hvs hacc _ => ?_
  obtain rfl := List.forall₂_nil_left_iff.mp hvs
  exact ⟨0, segmentsSum_nil _ _, by rwa [zero_add]⟩

/-- **The segment loop**: with `R` summed, the loop adds the sum of the segments left. -/
theorem pedersenLoop_sound {gs : List Point} {gens : List (List WindowTable)}
    (h : List.Forall₂ GeneratorTables gs gens) : ∀ (bits : List Boolean) (acc : Option EdwardsPoint),
    Sound (pedersenLoop B gens bits acc) fun w r => ∀ vs R, ReadsAll w bits vs →
      (∀ e ∈ acc, e.Reads w R) → (acc = none → R = 0) →
      ∃ Q, segmentsSum pedersenHashChunksPerGenerator gs vs = some Q ∧
        ∀ e ∈ r, e.Reads w (Q + R) := by
  induction h with
  | nil =>
    intro bits acc
    cases bits with
    | nil => exact pedersenLoop_nil_sound B [] [] acc
    | cons b bits => exact Sound.throw
  | @cons g ts gs gens hg _ ih =>
    intro bits acc
    cases bits with
    | nil => exact pedersenLoop_nil_sound B _ _ acc
    | cons b bits =>
      obtain ⟨htab, hlen⟩ := segment_tables hg
      refine Sound.bind ((segmentLoop_sound B hg.prime hg.ne_zero ts (b :: bits) none 0 htab hlen
        fun _ => rfl).and_returns (segmentLoop_rest B ts (b :: bits) none)) fun r => ?_
      refine Sound.bind Sound.okOr fun m => Sound.bind (MontgomeryPoint.intoEdwards_sound m) fun p =>
        Sound.bind (addSegment_sound B p acc) fun acc' => (ih r.2 (some acc')).mono
        fun w out ih hadd hed hm hseg vs R hvs hacc hR => ?_
      obtain ⟨hseg, hrest⟩ := hseg
      have hvne : vs ≠ [] := by
        rintro rfl
        cases hvs
      have hP := hed _ (hseg [] vs (by simp) rfl hvs (by simp) m hm)
      rw [List.nil_append] at hP
      obtain ⟨Q, hQ, hread⟩ := ih (vs.drop (3 * ts.length)) _
        (by rw [hrest]; exact List.forall₂_drop _ hvs)
        (fun e he => Option.mem_some.mp he ▸ hadd _ R hP hacc hR) (by simp)
      rw [hg.length_eq] at hQ hP hread
      refine ⟨_, by rw [segmentsSum_cons _ g gs hvne, hQ, Option.map_some], fun e he => ?_⟩
      have := hread e he
      rwa [← add_assoc, add_comm Q] at this

/-- A segment of known wires. -/
private theorem segment_honest {g : Point} {ts : List WindowTable} (hg : GeneratorTables g ts)
    (n : Counts) {bits : List Boolean} {vs : List Bool} (hvs : KnownAll bits vs) (hne : bits ≠ []) :
    Honest n (segmentLoop B ts bits none) (fun w => ReadsAll w bits vs)
      (fun r => (∃ m x y, r.1 = some m ∧ m.Known (signedSum (windowDigits
        (vs.take (3 * pedersenHashChunksPerGenerator))) • g) x y) ∧
        r.2 = bits.drop (3 * pedersenHashChunksPerGenerator))
      fun w r => ∀ m ∈ r.1, m.Reads w (signedSum (windowDigits
        (vs.take (3 * pedersenHashChunksPerGenerator))) • g) := by
  obtain ⟨htab, hlen⟩ := segment_tables hg
  have hts : ts ≠ [] := by
    rintro rfl
    exact absurd hg.length_eq (by decide)
  have hloop := (segmentLoop_honest B hg.prime hg.ne_zero ts bits none n [] vs htab hlen
    (fun _ => rfl) (by simp) hvs (by simp) fun _ => ⟨hts, hne⟩).and_returns
    (segmentLoop_rest B ts bits none)
  have hsound := segmentLoop_sound B hg.prime hg.ne_zero ts bits none 0 htab hlen fun _ => rfl
  rw [List.nil_append, hg.length_eq] at hloop
  rw [hg.length_eq] at hsound
  refine (hloop.of_pre fun w hp => ⟨hp, by simp⟩).of_sound hsound fun w r hp hs => ?_
  exact hs [] vs (by simp) rfl hp (by simp)

private theorem pedersenLoop_nil_honest (n : Counts) (gs : List Point)
    (gens : List (List WindowTable)) {acc : Option EdwardsPoint} {vs : List Bool} {Q R : Point}
    (hvs : KnownAll [] vs) (hacc : ∀ e ∈ acc, e.Known R) (hne : acc ≠ none)
    (hQ : segmentsSum pedersenHashChunksPerGenerator gs vs = some Q) :
    Honest n (pedersenLoop B gens [] acc) (fun w => ReadsAll w [] vs ∧ ∀ e ∈ acc, e.Reads w R)
      (fun r => ∃ e, r = some e ∧ e.Known (Q + R)) fun _ _ => True := by
  obtain ⟨e, rfl⟩ := Option.ne_none_iff_exists'.mp hne
  obtain rfl := List.forall₂_nil_left_iff.mp hvs
  obtain rfl : 0 = Q := Option.some.inj ((segmentsSum_nil _ _).symm.trans hQ)
  rw [pedersenLoop_nil]
  exact Honest.pure ⟨e, rfl, by rw [zero_add]; exact hacc e rfl⟩ fun _ _ => trivial

theorem pedersenLoop_honest {gs : List Point} {gens : List (List WindowTable)}
    (h : List.Forall₂ GeneratorTables gs gens) : ∀ (bits : List Boolean) (acc : Option EdwardsPoint)
    (n : Counts) {vs : List Bool} {Q R : Point}, KnownAll bits vs → (∀ e ∈ acc, e.Known R) →
    (acc = none → R = 0) → (acc = none → bits ≠ []) →
    segmentsSum pedersenHashChunksPerGenerator gs vs = some Q →
    Honest n (pedersenLoop B gens bits acc)
      (fun w => ReadsAll w bits vs ∧ ∀ e ∈ acc, e.Reads w R)
      (fun r => ∃ e, r = some e ∧ e.Known (Q + R)) fun _ _ => True := by
  induction h with
  | nil =>
    intro bits acc n vs Q R hvs hacc _ hne hQ
    cases bits with
    | nil => exact pedersenLoop_nil_honest B n [] [] hvs hacc (fun h => hne h rfl) hQ
    | cons b bits =>
      cases hvs
      cases hQ
  | @cons g ts gs gens hg _ ih =>
    intro bits acc n vs Q R hvs hacc hR hne hQ
    cases bits with
    | nil => exact pedersenLoop_nil_honest B n _ _ hvs hacc (fun h => hne h rfl) hQ
    | cons b bits =>
      have hvne : vs ≠ [] := by
        rintro rfl
        cases hvs
      rw [segmentsSum_cons _ g gs hvne] at hQ
      obtain ⟨Q', hQ', rfl⟩ := Option.map_eq_some_iff.mp hQ
      refine Honest.bind ((segment_honest B hg n hvs (List.cons_ne_nil _ _)).of_pre
        fun w hp => hp.1) fun r n₁ hr => ?_
      obtain ⟨⟨m, x, y, hm, hk⟩, hrest⟩ := hr
      refine Honest.bind (Honest.okOr hm _) fun m' n₂ hm' => ?_
      subst hm'
      refine Honest.bind ((MontgomeryPoint.intoEdwards_honest n₂ hk).of_pre
        fun w hp => hp.1.2 m' hm) fun p n₃ hp => ?_
      refine Honest.bind ((addSegment_honest B n₃ hp hacc hR).of_pre fun w hp => ⟨hp.2, hp.1.1.1.2⟩)
        fun acc' n₄ hacc' => ?_
      refine (ih r.2 (some acc') n₄ (hrest ▸ List.forall₂_drop _ hvs)
        (fun e he => Option.mem_some.mp he ▸ hacc') (by simp) (by simp) hQ').mono (fun w hp => ?_)
        (fun out hout => ?_) fun _ _ _ _ => id
      · refine ⟨?_, fun e he => Option.mem_some.mp he ▸ hp.2⟩
        rw [hrest]
        exact List.forall₂_drop _ hp.1.1.1.1.1
      · obtain ⟨e, rfl, he⟩ := hout
        refine ⟨e, rfl, ?_⟩
        rwa [← add_assoc, add_comm Q'] at he

/-- **Overflow**: known wires that do not fit the tables are refused once the tables are used up. -/
theorem pedersenLoop_overflow {gs : List Point} {gens : List (List WindowTable)}
    (h : List.Forall₂ GeneratorTables gs gens) : ∀ (bits : List Boolean) (acc : Option EdwardsPoint)
    (n : Counts) {vs : List Bool} {R : Point}, KnownAll bits vs → (∀ e ∈ acc, e.Known R) →
    (acc = none → R = 0) → 3 * pedersenHashChunksPerGenerator * gs.length < bits.length →
    pedersenLoop B gens bits acc .prove n = .error (.error .unsatisfiable) := by
  induction h with
  | nil =>
    intro bits acc n vs R _ _ _ hlen
    obtain ⟨b, bits, rfl⟩ := List.exists_cons_of_length_pos (Nat.zero_lt_of_lt hlen)
    rfl
  | @cons g ts gs gens hg _ ih =>
    intro bits acc n vs R hvs hacc hR hlen
    obtain ⟨b, bits, rfl⟩ := List.exists_cons_of_length_pos (Nat.zero_lt_of_lt hlen)
    refine Honest.bind_error (segment_honest B hg n hvs (List.cons_ne_nil _ _)) fun r n₁ hr => ?_
    obtain ⟨⟨m, x, y, hm, hk⟩, hrest⟩ := hr
    refine Honest.bind_error (Honest.okOr hm fun _ => True) fun m' n₂ hm' => ?_
    subst hm'
    refine Honest.bind_error (MontgomeryPoint.intoEdwards_honest n₂ hk) fun p n₃ hp => ?_
    refine Honest.bind_error (addSegment_honest B n₃ hp hacc hR) fun acc' n₄ hacc' => ?_
    refine ih r.2 (some acc') n₄ (hrest ▸ List.forall₂_drop _ hvs)
      (fun e he => Option.mem_some.mp he ▸ hacc') (by simp) ?_
    rw [hrest, List.length_drop]
    rw [List.length_cons, Nat.mul_succ] at hlen
    omega

/-- **Capacity**: a run that succeeds had tables for all its wires. -/
theorem pedersenLoop_returns {gs : List Point} {gens : List (List WindowTable)}
    (h : List.Forall₂ GeneratorTables gs gens) : ∀ (bits : List Boolean) (acc : Option EdwardsPoint),
    Returns (pedersenLoop B gens bits acc) fun _ =>
      bits.length ≤ 3 * pedersenHashChunksPerGenerator * gs.length := by
  induction h with
  | nil =>
    intro bits acc
    cases bits with
    | nil => exact Returns.pure (by simp)
    | cons b bits => exact Returns.throw
  | @cons g ts gs gens hg _ ih =>
    intro bits acc
    cases bits with
    | nil => exact Returns.pure (by simp)
    | cons b bits =>
      refine (segmentLoop_rest B ts (b :: bits) none).bind fun r hr =>
        (Returns.trivial _).bind fun _ _ => (Returns.trivial _).bind fun _ _ =>
        (Returns.trivial _).bind fun _ _ => (ih r.2 _).mono fun _ hlen => ?_
      rw [hr, List.length_drop, hg.length_eq] at hlen
      show bits.length + 1 ≤ 3 * pedersenHashChunksPerGenerator * (gs.length + 1)
      rw [Nat.mul_succ]
      rw [List.length_cons] at hlen
      omega

/-! ## The hash -/

/-- The wires of a personalisation. -/
theorem hash_loop (p : Personalization) (hp : (S.getBits p).length = 6)
    (bits : List Boolean) : ∃ gens, List.Forall₂ GeneratorTables S.generators gens ∧
      pedersenHash B S p bits =
        pedersenLoop B gens ((S.getBits p).map .constant ++ bits) none >>= fun r =>
          okOr r .unsatisfiable := by
  obtain ⟨gens, hgens, hall⟩ := S.circuitGenerators_eq
  refine ⟨gens, hall, ?_⟩
  simp only [pedersenHash, List.length_map, hp, ne_eq, not_true_eq_false, if_false, hgens]

/-- **The constraints force the point the host computes.** -/
theorem pedersenHash_sound (p : Personalization) (hp : (S.getBits p).length = 6)
    (bits : List Boolean) : Sound (pedersenHash B S p bits) fun w r => ∀ vs, ReadsAll w bits vs →
      ∃ Q, S.pedersenHash p vs = some Q ∧ r.Reads w Q := by
  obtain ⟨gens, hall, heq⟩ := hash_loop B S p hp bits
  rw [heq]
  refine Sound.bind (pedersenLoop_sound B hall _ none) fun o => Sound.okOr.mono
    fun w r hr => ?_
  intro h vs hvs
  obtain ⟨Q, hQ, hread⟩ := h _ 0 ((readsAll_constant (S.getBits p)).append hvs) (by simp)
    fun _ => rfl
  rw [add_zero] at hread
  exact ⟨Q, by rw [S.pedersenHash_eq, hQ], hread r hr⟩

theorem pedersenHash_honest (n : Counts) (p : Personalization) (hp : (S.getBits p).length = 6)
    {bits : List Boolean} {vs : List Bool} {Q : Point} (hvs : KnownAll bits vs)
    (hQ : S.pedersenHash p vs = some Q) :
    Honest n (pedersenHash B S p bits) (fun w => ReadsAll w bits vs) (fun r => r.Known Q)
      fun w r => r.Reads w Q := by
  refine Honest.of_sound (T := fun _ _ => True) ?_ (pedersenHash_sound B S p hp bits)
    fun w r hw h => ?_
  · obtain ⟨gens, hall, heq⟩ := hash_loop B S p hp bits
    rw [heq]
    rw [S.pedersenHash_eq] at hQ
    refine Honest.bind ((pedersenLoop_honest B hall _ none n ((knownAll_constant _).append hvs)
      (by simp) (fun _ => rfl) (fun _ h => ?_) hQ).of_pre fun w hw =>
        ⟨(readsAll_constant _).append hw, by simp⟩)
      fun o n₁ ho => ?_
    · have := congrArg List.length h
      simp [hp] at this
    obtain ⟨e, rfl, he⟩ := ho
    rw [add_zero] at he
    exact (Honest.okOr rfl _).mono (fun _ => id) (fun r hr => hr ▸ he)
      fun _ _ _ _ => id
  · obtain ⟨Q', hQ', hr⟩ := h vs hw
    obtain rfl : Q = Q' := Option.some.inj (hQ.symm.trans hQ')
    exact hr

/-- **Proving on known wires**: the hash is computed when they fit the generators; otherwise the
run is refused as unsatisfiable. It never stops at a division. -/
theorem pedersenHash_prove (n : Counts) (p : Personalization) {bits : List Boolean} {vs : List Bool}
    (hvs : KnownAll bits vs) :
    if (S.getBits p).length = 6 ∧ 6 + bits.length ≤ 1134 then
      ∃ r ops, pedersenHash B S p bits .prove n = .ok (r, ops)
    else pedersenHash B S p bits .prove n = .error (.error .unsatisfiable) := by
  by_cases hp : (S.getBits p).length = 6
  · by_cases hlen : 6 + bits.length ≤ 1134
    · rw [if_pos ⟨hp, hlen⟩]
      have hsome : (S.pedersenHash p vs).isSome := by
        rw [S.pedersenHash_eq, segmentsSum_isSome _ (by decide), S.length_generators,
          List.length_append, hp, ← hvs.length_eq]
        exact hlen
      obtain ⟨Q, hQ⟩ := Option.isSome_iff_exists.mp hsome
      obtain ⟨r, ops, hrun, -⟩ := pedersenHash_honest B S n p hp hvs hQ
      exact ⟨r, ops, hrun⟩
    · rw [if_neg fun h => hlen h.2]
      obtain ⟨gens, hall, heq⟩ := hash_loop B S p hp bits
      have hover := pedersenLoop_overflow B hall ((S.getBits p).map .constant ++ bits) none n
        ((knownAll_constant _).append hvs) (by simp) (fun _ => rfl) (by
          rw [S.length_generators, List.length_append, List.length_map, hp]
          exact Nat.not_le.mp hlen)
      rw [heq, bind_run, hover]
  · rw [if_neg fun h => hp h.1, pedersenHash, if_pos (by rwa [List.length_map])]
    rfl

/-- Wires beyond the capacity are refused, in either mode. -/
theorem pedersenHash_returns (p : Personalization) (hp : (S.getBits p).length = 6)
    (bits : List Boolean) : Returns (pedersenHash B S p bits) fun _ => 6 + bits.length ≤ 1134 := by
  obtain ⟨gens, hall, heq⟩ := hash_loop B S p hp bits
  rw [heq]
  refine (pedersenLoop_returns B hall _ none).bind fun o ho => (Returns.trivial _).mono fun r _ => ?_
  rw [List.length_append, List.length_map, hp, S.length_generators] at ho
  exact ho

/-! ## Layout -/

theorem addWindow_layout {tmp tmp' : MontgomeryPoint} {acc acc' : Option MontgomeryPoint}
    (ht : tmp.SameWires tmp') (hacc : Option.Rel MontgomeryPoint.SameWires acc acc') :
    SameLayout MontgomeryPoint.SameWires (addWindow tmp acc) (addWindow tmp' acc') := by
  cases hacc with
  | none => exact SameLayout.pure ht
  | some h => exact MontgomeryPoint.add_layout ht h

theorem segmentLoop_layout : ∀ (ts : List WindowTable) {bits bits' : List Boolean}
    {acc acc' : Option MontgomeryPoint}, SameWires bits bits' →
    Option.Rel MontgomeryPoint.SameWires acc acc' →
    SameLayout (fun r r' => Option.Rel MontgomeryPoint.SameWires r.1 r'.1 ∧ SameWires r.2 r'.2)
      (segmentLoop B ts bits acc) (segmentLoop B ts bits' acc')
  | [], _, _, _, _, hb, hacc => SameLayout.pure ⟨hacc, hb⟩
  | t :: ts, [], _, _, _, hb, hacc => by
    obtain rfl := List.forall₂_nil_left_iff.mp hb
    exact SameLayout.pure ⟨hacc, hb⟩
  | t :: ts, a :: bits, _, _, _, hb, hacc => by
    obtain ⟨a', bits', ha, hb', rfl⟩ := List.forall₂_cons_left_iff.mp hb
    obtain ⟨h₁, htail⟩ := head_getD_sameWire hb'
    obtain ⟨h₂, htail⟩ := head_getD_sameWire htail
    refine (B.lookup3_layout (.cons ha (.cons h₁ (.cons h₂ .nil)))).bind fun r r' hr => ?_
    exact (addWindow_layout ⟨hr.1, hr.2⟩ hacc).bind fun p p' hp =>
      segmentLoop_layout ts htail (.some hp)

theorem addSegment_layout {p p' : EdwardsPoint} {acc acc' : Option EdwardsPoint}
    (hp : p.SameWires p') (hacc : Option.Rel EdwardsPoint.SameWires acc acc') :
    SameLayout EdwardsPoint.SameWires (addSegment B p acc) (addSegment B p' acc') := by
  cases hacc with
  | none => exact SameLayout.pure hp
  | some h => exact EdwardsPoint.add_layout B hp h

private theorem okOr_layout {α : Type} {R : α → α → Prop} {o o' : Option α} {e : SynthesisError}
    (h : Option.Rel R o o') : SameLayout (F := Scalar) R (okOr o e) (okOr o' e) :=
  SameLayout.okOr fun a b ha hb => by
    subst ha hb
    cases h with
    | some h => exact h

theorem pedersenLoop_layout : ∀ (gens : List (List WindowTable)) {bits bits' : List Boolean}
    {acc acc' : Option EdwardsPoint}, SameWires bits bits' →
    Option.Rel EdwardsPoint.SameWires acc acc' →
    SameLayout (Option.Rel EdwardsPoint.SameWires) (pedersenLoop B gens bits acc)
      (pedersenLoop B gens bits' acc')
  | gens, [], _, acc, acc', hb, hacc => by
    obtain rfl := List.forall₂_nil_left_iff.mp hb
    rw [pedersenLoop_nil, pedersenLoop_nil]
    exact SameLayout.pure hacc
  | [], b :: bits, _, _, _, hb, _ => SameLayout.throw_left
  | ts :: gens, b :: bits, _, _, _, hb, hacc => by
    obtain ⟨b', bits', hb₁, hb₂, rfl⟩ := List.forall₂_cons_left_iff.mp hb
    refine (segmentLoop_layout B ts hb .none).bind fun r r' hr => ?_
    refine (okOr_layout hr.1).bind fun m m' hm => ?_
    exact (MontgomeryPoint.intoEdwards_layout hm).bind fun p p' hp =>
      (addSegment_layout B hp hacc).bind fun q q' hq => pedersenLoop_layout gens hr.2 (.some hq)

theorem pedersenHash_layout (p : Personalization) {bits bits' : List Boolean}
    (h : SameWires bits bits') :
    SameLayout EdwardsPoint.SameWires (pedersenHash B S p bits) (pedersenHash B S p bits') := by
  simp only [pedersenHash]
  by_cases hlen : ((S.getBits p).map Boolean.constant).length = 6
  · rw [if_neg (not_not.mpr hlen), if_neg (not_not.mpr hlen)]
    cases S.circuitGenerators with
    | none => exact SameLayout.panic_left
    | some gens =>
      exact (pedersenLoop_layout B _ ((SameWires.refl _).append h) .none).bind
        fun _ _ hr => okOr_layout hr
  · rw [if_pos hlen]
    exact SameLayout.throw_left

theorem segmentLoop_auxOnly : ∀ (ts : List WindowTable) (bits : List Boolean)
    (acc : Option MontgomeryPoint), AuxOnly (segmentLoop B ts bits acc)
  | [], _, _ => AuxOnly.pure _
  | _ :: _, [], _ => AuxOnly.pure _
  | _ :: ts, _ :: bits, acc => by
    refine (B.lookup3_auxOnly _ _).bind fun _ => AuxOnly.bind ?_ fun _ =>
      segmentLoop_auxOnly ts bits.tail.tail _
    cases acc with
    | none => exact AuxOnly.pure _
    | some _ => exact MontgomeryPoint.add_auxOnly _ _

theorem pedersenLoop_auxOnly : ∀ (gens : List (List WindowTable)) (bits : List Boolean)
    (acc : Option EdwardsPoint), AuxOnly (pedersenLoop B gens bits acc)
  | gens, [], acc => by
    rw [pedersenLoop_nil]
    exact AuxOnly.pure acc
  | [], _ :: _, _ => AuxOnly.throw _
  | ts :: gens, b :: bits, acc => by
    refine (segmentLoop_auxOnly B ts _ _).bind fun r => (AuxOnly.okOr _ _).bind fun m =>
      (MontgomeryPoint.intoEdwards_auxOnly m).bind fun p => AuxOnly.bind ?_ fun _ =>
      pedersenLoop_auxOnly gens r.2 _
    cases acc with
    | none => exact AuxOnly.pure _
    | some _ => exact EdwardsPoint.add_auxOnly B _ _

theorem pedersenHash_auxOnly (p : Personalization) (bits : List Boolean) :
    AuxOnly (pedersenHash B S p bits) := by
  simp only [pedersenHash]
  by_cases hlen : ((S.getBits p).map Boolean.constant).length = 6
  · rw [if_neg (not_not.mpr hlen)]
    cases S.circuitGenerators with
    | none => exact AuxOnly.panic
    | some gens => exact (pedersenLoop_auxOnly B _ _ _).bind fun _ => AuxOnly.okOr _ _
  · rw [if_pos hlen]
    exact AuxOnly.throw _

end ProviiCrypto
