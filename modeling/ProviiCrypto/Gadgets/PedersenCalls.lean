import ProviiCrypto.Gadgets.SaplingPedersen

/-!
# `gadgets::sapling_pedersen`: the calls of the incomplete arithmetic

The slope of `MontgomeryPoint::add` is a quotient of differences. Were the operands' `x` equal,
its constraint would leave the slope free and the prover would stop at the division. Here each
loop of the hash is followed with a list of the calls it makes of `add` and `into_edwards`
(`MontgomeryCall`), and no call is exceptional:

* `pedersenHashCalls_sound`: no assignment that satisfies the constraints of the hash makes one so,
  the prover's own choice included.
* `pedersenHash_unexceptional`: with the sums of windows modulo the order, which is why.
-/

namespace ProviiCrypto

open R1CS R1CS.Synth Number

variable {H : Blake2s} (B : Bellman H) (S : Sapling)

/-- A call of `MontgomeryPoint::add` or `MontgomeryPoint::into_edwards`. -/
inductive MontgomeryCall where
  | add (p q : MontgomeryPoint)
  | intoEdwards (m : MontgomeryPoint)

/-- No denominator of the call is zero under the assignment. -/
def MontgomeryCall.Defined (w : Assignment Scalar) : MontgomeryCall → Prop
  | .add p q => p.x.lc.eval w ≠ q.x.lc.eval w
  | .intoEdwards m => m.y.lc.eval w ≠ 0 ∧ m.x.lc.eval w + 1 ≠ 0

/-- The call of `addWindow`. -/
def addWindowCalls (tmp : MontgomeryPoint) : Option MontgomeryPoint → List MontgomeryCall
  | none => []
  | some segmentResult => [.add tmp segmentResult]

/-- `segmentLoop`, with its calls. -/
def segmentLoopCalls : List WindowTable → List Boolean → Option MontgomeryPoint →
    Synth Scalar ((Option MontgomeryPoint × List Boolean) × List MontgomeryCall)
  | [], bits, segmentResult => pure ((segmentResult, bits), [])
  | _ :: _, [], segmentResult => pure ((segmentResult, []), [])
  | window :: segmentWindows, a :: bits, segmentResult => do
    let b := bits.head?.getD (.constant false)
    let c := bits.tail.head?.getD (.constant false)
    let tmp ← B.lookup3 [a, b, c] window
    let next ← addWindow ⟨tmp.1, tmp.2⟩ segmentResult
    let r ← segmentLoopCalls segmentWindows bits.tail.tail (some next)
    return (r.1, addWindowCalls ⟨tmp.1, tmp.2⟩ segmentResult ++ r.2)

/-- `pedersenLoop`, with its calls. -/
def pedersenLoopCalls : List (List WindowTable) → List Boolean → Option EdwardsPoint →
    Synth Scalar (Option EdwardsPoint × List MontgomeryCall)
  | _, [], edwardsResult => pure (edwardsResult, [])
  | [], _ :: _, _ => Synth.throw .unsatisfiable
  | segmentWindows :: segmentGenerators, bit :: bits, edwardsResult => do
    let s ← segmentLoopCalls B segmentWindows (bit :: bits) none
    let segmentResult ← okOr s.1.1 .unsatisfiable
    let segmentEdwards ← segmentResult.intoEdwards
    let edwardsResult ← addSegment B segmentEdwards edwardsResult
    let r ← pedersenLoopCalls segmentGenerators s.1.2 (some edwardsResult)
    return (r.1, s.2 ++ .intoEdwards segmentResult :: r.2)

/-- `pedersenHash`, with its calls. -/
def pedersenHashCalls (personalization : Personalization) (bits : List Boolean) :
    Synth Scalar (EdwardsPoint × List MontgomeryCall) :=
  let personalization := (S.getBits personalization).map Boolean.constant
  if personalization.length ≠ 6 then Synth.throw .unsatisfiable
  else match S.circuitGenerators with
    | none => Synth.panic
    | some generators => do
      let r ← pedersenLoopCalls B generators (personalization ++ bits) none
      let edwardsResult ← okOr r.1 .unsatisfiable
      return (edwardsResult, r.2)

/-! ## The calls are calls of the hash -/

theorem segmentLoopCalls_fst : ∀ (ts : List WindowTable) (bits : List Boolean)
    (acc : Option MontgomeryPoint),
    Prod.fst <$> segmentLoopCalls B ts bits acc = segmentLoop B ts bits acc
  | [], _, _ => map_pure _ _
  | _ :: _, [], _ => map_pure _ _
  | t :: ts, a :: bits, acc => by
    simp only [segmentLoopCalls, segmentLoop, map_bind, bind_pure_comp]
    refine bind_congr fun tmp => bind_congr fun next => ?_
    rw [← segmentLoopCalls_fst ts, ← comp_map]
    rfl

theorem pedersenLoopCalls_fst : ∀ (gens : List (List WindowTable)) (bits : List Boolean)
    (acc : Option EdwardsPoint),
    Prod.fst <$> pedersenLoopCalls B gens bits acc = pedersenLoop B gens bits acc
  | [], [], _ => map_pure _ _
  | _ :: _, [], _ => map_pure _ _
  | [], _ :: _, _ => rfl
  | ts :: gens, b :: bits, acc => by
    simp only [pedersenLoopCalls, pedersenLoop, map_bind, bind_pure_comp, bind_map_left,
      ← segmentLoopCalls_fst B ts]
    refine bind_congr fun s => bind_congr fun m => bind_congr fun p => bind_congr fun q => ?_
    rw [← pedersenLoopCalls_fst gens, ← comp_map]
    rfl

/-- The hash with its calls is the hash. -/
theorem pedersenHashCalls_fst (p : Personalization) (bits : List Boolean) :
    Prod.fst <$> pedersenHashCalls B S p bits = pedersenHash B S p bits := by
  simp only [pedersenHashCalls, pedersenHash]
  split
  · rfl
  · cases S.circuitGenerators with
    | none => rfl
    | some gens =>
      simp only [map_bind, bind_pure_comp, bind_map_left, ← pedersenLoopCalls_fst B gens]
      refine bind_congr fun r => ?_
      rw [← comp_map]
      exact id_map _

/-! ## No call is exceptional -/

theorem MontgomeryPoint.Reads.add_defined {w : Assignment Scalar} {p q : MontgomeryPoint}
    {P Q : Point} (hp : p.Reads w P) (hq : q.Reads w Q) (hne : P ≠ Q) (hneg : P ≠ -Q) :
    (MontgomeryCall.add p q).Defined w :=
  Edwards.Form.Repr.x_ne hp hq hne hneg

theorem MontgomeryPoint.Reads.intoEdwards_defined {w : Assignment Scalar} {m : MontgomeryPoint}
    {P : Point} (h : m.Reads w P) : (MontgomeryCall.intoEdwards m).Defined w :=
  ⟨Edwards.Form.Repr.y_ne_zero h, Edwards.Form.Repr.x_add_one_ne_zero h⟩

section Segment

variable {g : Point} (hP : PrimeOrder g) (h0 : g ≠ 0)
include hP h0

theorem addWindowCalls_defined {w : Assignment Scalar} {ds : List ℤ} {d : ℤ}
    (hds : ∀ e ∈ ds, IsDigit e) (hd : IsDigit d) (hk : ds.length < 63) {tmp : MontgomeryPoint}
    {acc : Option MontgomeryPoint} (htmp : tmp.Reads w (d • (16 ^ ds.length • g)))
    (hacc : ∀ m ∈ acc, m.Reads w (signedSum ds • g)) :
    ∀ c ∈ addWindowCalls tmp acc, c.Defined w := by
  cases acc with
  | none => simp [addWindowCalls]
  | some m =>
    obtain ⟨hne, hneg, -⟩ := window_apart hP h0 hds hd hk
    intro c hc
    obtain rfl := List.mem_singleton.mp hc
    exact htmp.add_defined (hacc m rfl) hne hneg

/-- The invariant of the window loop, for its calls. -/
theorem segmentLoopCalls_sound : ∀ (ts : List WindowTable) (bits : List Boolean)
    (acc : Option MontgomeryPoint) (k : ℕ), Tables (16 ^ k • g) ts → k + ts.length ≤ 63 →
    (acc = none → k = 0) →
    Sound (segmentLoopCalls B ts bits acc) fun w r => ∀ ds vs, (∀ e ∈ ds, IsDigit e) →
      ds.length = k → ReadsAll w bits vs → (∀ m ∈ acc, m.Reads w (signedSum ds • g)) →
      ∀ c ∈ r.2, c.Defined w
  | [], bits, acc, k, _, _, _ => Sound.pure fun w ds vs _ _ _ _ => by simp
  | t :: ts, [], acc, k, _, _, _ => Sound.pure fun w ds vs _ _ _ _ => by simp
  | t :: ts, a :: bits, acc, k, ht, hlen, hacc => by
    obtain ⟨htab, hts⟩ := next_table ht
    rw [List.length_cons] at hlen
    refine Sound.bind (window_sound B htab a _ _) fun tmp =>
      Sound.bind (addWindow_sound hP h0 (by omega) _ hacc) fun next =>
      Sound.bind (segmentLoopCalls_sound ts bits.tail.tail (some next) (k + 1) hts (by omega)
        (by simp)) fun r => Sound.pure fun w ih hadd hwin ds vs hds hk hvs hm => ?_
    obtain ⟨v, vs, -, -, rfl⟩ := List.forall₂_cons_left_iff.mp hvs
    obtain ⟨hv, hb, hc, htail⟩ := window_rel ((Boolean.reads_constant false).mpr rfl) hvs
    have hd := isDigit_windowDigit v (vs.head?.getD false) (vs.tail.head?.getD false)
    have htmp := hwin _ _ _ hv hb hc
    have hnext := hadd ds _ hds hd hk htmp hm
    subst hk
    intro c hc
    rcases List.mem_append.mp hc with hc | hc
    · exact addWindowCalls_defined hP h0 hds hd (by omega) htmp hm c hc
    · refine ih _ _ (isDigit_append hds hd) (by simp) htail (fun m hm => ?_) c hc
      rwa [← Option.mem_some.mp hm]

end Segment

/-- A segment's calls, with its result and the wires after it. -/
private theorem segmentCalls_sound {g : Point} {ts : List WindowTable} (hg : GeneratorTables g ts)
    (bits : List Boolean) : Sound (segmentLoopCalls B ts bits none) fun w r => ∀ vs,
      ReadsAll w bits vs → (∀ c ∈ r.2, c.Defined w) ∧ (∀ m ∈ r.1.1, ∃ P, m.Reads w P) ∧
        ReadsAll w r.1.2 (vs.drop (3 * ts.length)) := by
  obtain ⟨htab, hlen⟩ := segment_tables hg
  have hcalls := segmentLoopCalls_sound B hg.prime hg.ne_zero ts bits none 0 htab hlen fun _ => rfl
  have hresult := segmentLoop_sound B hg.prime hg.ne_zero ts bits none 0 htab hlen fun _ => rfl
  have hrest := segmentLoop_rest B ts bits none
  rw [← segmentLoopCalls_fst] at hresult hrest
  refine (hcalls.and hresult.of_map).and_returns hrest.of_map |>.mono fun w r h vs hvs => ?_
  obtain ⟨⟨hcalls, hresult⟩, hrest⟩ := h
  refine ⟨hcalls [] vs (by simp) rfl hvs (by simp), fun m hm =>
    ⟨_, hresult [] vs (by simp) rfl hvs (by simp) m hm⟩, ?_⟩
  rw [hrest]
  exact List.forall₂_drop _ hvs

theorem pedersenLoopCalls_sound {gs : List Point} {gens : List (List WindowTable)}
    (h : List.Forall₂ GeneratorTables gs gens) : ∀ (bits : List Boolean) (acc : Option EdwardsPoint),
    Sound (pedersenLoopCalls B gens bits acc) fun w r => ∀ vs, ReadsAll w bits vs →
      ∀ c ∈ r.2, c.Defined w := by
  induction h with
  | nil =>
    intro bits acc
    cases bits with
    | nil => exact Sound.pure fun w vs _ => by simp
    | cons b bits => exact Sound.throw
  | @cons g ts gs gens hg _ ih =>
    intro bits acc
    cases bits with
    | nil => exact Sound.pure fun w vs _ => by simp
    | cons b bits =>
      refine Sound.bind (segmentCalls_sound B hg (b :: bits)) fun s => Sound.bind Sound.okOr
        fun m => Sound.bind (MontgomeryPoint.intoEdwards_sound m) fun p =>
        Sound.bind (addSegment_sound B p acc) fun q => Sound.bind (ih s.1.2 (some q)) fun r =>
        Sound.pure fun w hrest _ _ hm hseg vs hvs => ?_
      obtain ⟨hcalls, hresult, hwires⟩ := hseg vs hvs
      obtain ⟨P, hP⟩ := hresult m hm
      intro c hc
      rcases List.mem_append.mp hc with hc | hc
      · exact hcalls c hc
      · rcases List.mem_cons.mp hc with rfl | hc
        · exact hP.intoEdwards_defined
        · exact hrest _ hwires c hc

/-- **No satisfying assignment makes a call exceptional.** -/
theorem pedersenHashCalls_sound (p : Personalization) (bits : List Boolean) :
    Sound (pedersenHashCalls B S p bits) fun w r => ∀ vs, ReadsAll w bits vs →
      ∀ c ∈ r.2, c.Defined w := by
  obtain ⟨gens, hgens, hall⟩ := S.circuitGenerators_eq
  simp only [pedersenHashCalls, hgens]
  split
  · exact Sound.throw
  · exact Sound.bind (pedersenLoopCalls_sound B hall _ none) fun r => Sound.bind Sound.okOr
      fun e => Sound.pure fun w _ h vs hvs => h _ ((readsAll_constant _).append hvs)

/-- **The incomplete additions of the hash are never exceptional.** The sums of a segment's windows
stay apart modulo the order, so whatever the string: under an assignment that satisfies the
constraints no call has a denominator that is zero, which leaves every slope one value; and the
prover's run ends with the hash, or with the refusal of a string that does not fit. -/
theorem pedersenHash_unexceptional (p : Personalization) (bits : List Boolean) :
    (∀ ws : List (Bool × Bool × Bool), ws.length ≤ pedersenHashChunksPerGenerator →
      (∀ m, 1 ≤ m → m ≤ ws.length → ¬ partialSum ws m ≡ 0 [ZMOD subgroupOrder] ∧
        (m < ws.length → ¬ partialSum ws m ≡ windowTerm ws m [ZMOD subgroupOrder] ∧
          ¬ partialSum ws m ≡ -windowTerm ws m [ZMOD subgroupOrder])) ∧
      ∀ ws' : List (Bool × Bool × Bool), ws'.length = ws.length →
        partialSum ws ws.length ≡ partialSum ws' ws'.length [ZMOD subgroupOrder] → ws = ws') ∧
    Prod.fst <$> pedersenHashCalls B S p bits = pedersenHash B S p bits ∧
    (∀ md n r ops, pedersenHashCalls B S p bits md n = .ok (r, ops) →
      ∀ (w : Assignment Scalar) vs, Holds w ops → ReadsAll w bits vs → ∀ c ∈ r.2, c.Defined w) ∧
    (∀ P Q md n r ops (w : Assignment Scalar), MontgomeryPoint.add P Q md n = .ok (r, ops) →
      Holds w ops → (MontgomeryCall.add P Q).Defined w → w (.aux n.aux) =
        (Q.y.lc.eval w - P.y.lc.eval w) / (Q.x.lc.eval w - P.x.lc.eval w)) ∧
    ∀ n vs, KnownAll bits vs →
      if (S.getBits p).length = 6 ∧ 6 + bits.length ≤ 1134 then
        ∃ r ops, pedersenHash B S p bits .prove n = .ok (r, ops)
      else pedersenHash B S p bits .prove n = .error (.error .unsatisfiable) := by
  refine ⟨fun ws hlen => ⟨fun m hpos hm => ?_, fun ws' hlen' h => ?_⟩, pedersenHashCalls_fst B S p bits,
    fun md n r ops hr w vs hw => pedersenHashCalls_sound B S p bits md n r ops hr w hw vs,
    fun P Q md n r ops w hr hw hdef => MontgomeryPoint.add_slope hr hw hdef,
    fun n vs hvs => pedersenHash_prove B S n p hvs⟩
  · exact partialSum_apart segment_lt_subgroupOrder hlen hpos hm
  · rw [hlen'] at h
    exact partialSum_inj segment_lt_subgroupOrder hlen hlen' h

end ProviiCrypto
