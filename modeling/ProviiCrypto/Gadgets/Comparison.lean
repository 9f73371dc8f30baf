import ProviiCrypto.Gadgets.Bits
import ProviiCrypto.Reference.Bellman
import ProviiCrypto.Reference.Blake2s

/-!
# `gadgets::bits`: the comparison decides

`enforceGe_sound` and `enforceGe_honest` are about one direction each. Here the constraints of
`enforce_ge` are shown to have no solution but the prover's: the borrow and the difference of a
position are both free bits under one equation, which has one solution in bits, and the values
of the last position are products of what is then known.

* `subtractBit_determined`: the one step where two open bits are settled together.
* `enforceGe_decides`: comparison, uniqueness and the prover's values, for strings of any length.
-/

namespace ProviiCrypto

open R1CS R1CS.Synth Number

variable {H : Blake2s} {B : Bellman H}

/-- The equation of a position has one solution in bits. -/
theorem subtract_unique : ∀ x y c e d e' d' : Bool,
    x.toNat + 2 * e.toNat = y.toNat + c.toNat + d.toNat →
    x.toNat + 2 * e'.toNat = y.toNat + c.toNat + d'.toNat → e = e' ∧ d = d' := by
  decide

section

variable (hB : B.DeterminesBits)
include hB

theorem booleanOr_determined (n : Counts) {a b : Boolean} {x y : Bool} (ha : a.Known x)
    (hb : b.Known y) : Determined n (booleanOr B a b) (fun w => a.Reads w x ∧ b.Reads w y)
      (fun c => c.Known (x || y)) (fun w c => c.Reads w (x || y)) fun _ _ => True := by
  have hxy : (!(!x && !y)) = (x || y) := by cases x <;> cases y <;> rfl
  refine Determined.bind ((hB.and n ha.neg hb.neg).of_pre fun w hp => ⟨hp.1.neg, hp.2.neg⟩)
    fun c _ hc => ?_
  exact Determined.pure (hxy ▸ hc.neg) fun w hw => hxy ▸ hw.2.neg

theorem enforceNoBorrow_determined (n : Counts) {a b borrow : Boolean} {x y c : Bool}
    (ha : a.Known x) (hb : b.Known y) (hc : borrow.Known c) :
    Determined n (enforceNoBorrow B a b borrow)
      (fun w => a.Reads w x ∧ b.Reads w y ∧ borrow.Reads w c) (fun _ => True)
      (fun _ _ => True) fun _ _ => True := by
  refine Determined.bind ((hB.and n ha.neg hb).of_pre fun w hw => ⟨hw.1.neg, hw.2.1⟩)
    fun p _ hp => ?_
  refine Determined.bind ((hB.and _ ha.neg hc).of_pre fun w hw => ⟨hw.1.1.neg, hw.1.2.2⟩)
    fun q _ hq => ?_
  refine Determined.bind ((hB.and _ hb hc).of_pre fun w hw => ⟨hw.1.1.2.1, hw.1.1.2.2⟩)
    fun r _ hr => ?_
  refine Determined.bind ((booleanOr_determined hB _ hp hq).of_pre fun w hw => ⟨hw.1.1.2, hw.1.2⟩)
    fun s _ hs => ?_
  refine Determined.bind ((booleanOr_determined hB _ hs hr).of_pre fun w hw => ⟨hw.2, hw.1.2⟩)
    fun t _ _ => ?_
  exact Determined.enforce.weaken fun _ _ _ => trivial

/-- **One position**: neither the next borrow nor the difference is determined by its own
constraint, the subtraction determines both. -/
theorem subtractBit_determined (n : Counts) {a b borrow : Boolean} {x y c : Bool} (ha : a.Known x)
    (hb : b.Known y) (hc : borrow.Known c) :
    Determined n (subtractBit B a b borrow)
      (fun w => a.Reads w x ∧ b.Reads w y ∧ borrow.Reads w c)
      (fun next => next.Known (borrowOut x y c)) (fun w next => next.Reads w (borrowOut x y c))
      fun _ _ => True := by
  obtain ⟨d, hd, hval⟩ := diffValue_borrowOut x y c
  simp only [subtractBit, show a.getValue = some x from ha, show b.getValue = some y from hb,
    show borrow.getValue = some c from hc, nextBorrowValue_some, hd]
  refine Determined.bind_given (hB.allocBit n _ _) fun next _ hkn => ?_
  refine Determined.bind_given (hB.allocBit _ _ _) fun diff _ _ => ?_
  refine Determined.bind Determined.enforce fun _ _ _ => Determined.pure hkn fun w hw => ?_
  obtain ⟨⟨⟨⟨hx, hy, hc⟩, e, he⟩, d', hd'⟩, heq⟩ := hw
  have hsub : x.toNat + 2 * e.toNat = y.toNat + c.toNat + d'.toNat := by
    refine (subtract_iff x y c d' e).mp ?_
    simpa [hx.eval_lc, hy.eval_lc, hc.eval_lc, (Boolean.reads_is.mpr he).eval_lc,
      (Boolean.reads_is.mpr hd').eval_lc] using heq
  obtain ⟨rfl, rfl⟩ := subtract_unique _ _ _ _ _ _ _ hsub hval
  exact ⟨⟨Boolean.reads_is.mpr he, he⟩, hd'⟩

theorem enforceGeLoop_determined : ∀ (ps : List (Boolean × Boolean)) (borrow : Boolean)
    (n : Counts) {xs ys : List Bool} {c : Bool}, KnownAll (ps.map (·.1)) xs →
    KnownAll (ps.map (·.2)) ys → borrow.Known c →
    Determined n (enforceGeLoop B borrow ps) (fun w => ReadsAll w (ps.map (·.1)) xs ∧
      ReadsAll w (ps.map (·.2)) ys ∧ borrow.Reads w c) (fun _ => True) (fun _ _ => True)
      fun _ _ => True
  | [], _, _, _, _, _, _, _, _ => Determined.pure trivial fun _ _ => trivial
  | [(a, b)], borrow, n, xs, ys, c, hxs, hys, hc => by
    obtain ⟨x, _, hx, hnil, rfl⟩ := List.forall₂_cons_left_iff.mp hxs
    obtain ⟨y, _, hy, hnil', rfl⟩ := List.forall₂_cons_left_iff.mp hys
    refine (enforceNoBorrow_determined hB n hx hy hc).of_pre fun w hw => ?_
    exact ⟨(List.forall₂_cons.mp hw.1).1, (List.forall₂_cons.mp hw.2.1).1, hw.2.2⟩
  | (a, b) :: p :: ps, borrow, n, xs, ys, c, hxs, hys, hc => by
    obtain ⟨x, xs', hx, hxs', rfl⟩ := List.forall₂_cons_left_iff.mp hxs
    obtain ⟨y, ys', hy, hys', rfl⟩ := List.forall₂_cons_left_iff.mp hys
    refine Determined.bind ((subtractBit_determined hB n hx hy hc).of_pre fun w hw => ?_)
      fun next _ hnext => ?_
    · exact ⟨(List.forall₂_cons.mp hw.1).1, (List.forall₂_cons.mp hw.2.1).1, hw.2.2⟩
    refine (enforceGeLoop_determined (p :: ps) next _ hxs' hys' hnext).of_pre fun w hw => ?_
    exact ⟨(List.forall₂_cons.mp hw.1.1).2, (List.forall₂_cons.mp hw.1.2.1).2, hw.2⟩

/-- Whether or not `a ≥ b`, a satisfying assignment takes the prover's values. -/
theorem enforceGe_determined (n : Counts) {a b : List Boolean} {xs ys : List Bool}
    (ha : KnownAll a xs) (hb : KnownAll b ys) (hlen : xs.length = ys.length) :
    Determined n (enforceGe B a b) (fun w => ReadsAll w a xs ∧ ReadsAll w b ys) (fun _ => True)
      (fun _ _ => True) fun _ _ => True := by
  have hl : a.length = b.length := by rw [ha.length_eq, hb.length_eq, hlen]
  rw [enforceGe, if_neg (by omega)]
  refine (enforceGeLoop_determined hB _ _ n (by rwa [List.map_fst_zip hl.le])
    (by rwa [List.map_snd_zip hl.ge]) ((Boolean.known_constant false false).mpr rfl)).of_pre
      fun w hw => ?_
  rw [List.map_fst_zip hl.le, List.map_snd_zip hl.ge]
  exact ⟨hw.1, hw.2, (Boolean.reads_constant false).mpr rfl⟩

/-- **A proving run of `enforce_ge`**: it succeeds whatever the numbers, and the values that it
computes are the only ones that can satisfy its constraints; they do when the numbers compare. -/
theorem enforceGe_prove (n : Counts) {a b : List Boolean} {xs ys : List Bool}
    (ha : KnownAll a xs) (hb : KnownAll b ys) (hlen : xs.length = ys.length) :
    ∃ ops, enforceGe B a b .prove n = .ok ((), ops) ∧ Valued ops ∧ ∀ w : Assignment Scalar,
      ReadsAll w a xs → ReadsAll w b ys →
        (Holds w ops ↔ Agrees w n ops ∧ ofBits ys ≤ ofBits xs) := by
  obtain ⟨_, ops, hrun, -, hv, hdet⟩ := enforceGe_determined hB n ha hb hlen
  refine ⟨ops, hrun, hv, fun w hxs hys => ⟨fun hw => ⟨(hdet w ⟨hxs, hys⟩ hw).2 trivial, ?_⟩, ?_⟩⟩
  · exact enforceGe_sound B a b _ _ _ _ hrun w hw xs ys hxs hys
  · rintro ⟨hag, hle⟩
    obtain ⟨_, ops', hrun', -, hw'⟩ := enforceGe_honest B n ha hb hlen hle
    obtain rfl : ops' = ops := congrArg Prod.snd (Except.ok.inj (hrun'.symm.trans hrun))
    exact (hw' w hag ⟨hxs, hys⟩).1

/-- **The prover's values decide any run on the same wires**, in whichever mode: the constraints
hold exactly when the new variables take them and the numbers compare. -/
theorem enforceGe_values (n : Counts) {w₀ : Assignment Scalar} {a b a' b' : List Boolean}
    {xs ys : List Bool} (hbelow : ∀ x ∈ a, x.Below n) (hbelow' : ∀ x ∈ b, x.Below n)
    (hxs : ReadsAll w₀ a xs) (hys : ReadsAll w₀ b ys) (hlen : xs.length = ys.length)
    (ha : SameWires a a') (hb : SameWires b b') (hka : KnownAll a' xs) (hkb : KnownAll b' ys) :
    ∃ values, enforceGe B a' b' .prove n = .ok ((), values) ∧ Valued values ∧
      ∀ md ops, enforceGe B a b md n = .ok ((), ops) → layout ops = layout values ∧
        ∀ w : Assignment Scalar, w.Extends w₀ n →
          (Holds w ops ↔ Agrees w n values ∧ ofBits ys ≤ ofBits xs) := by
  obtain ⟨values, hrun', hv, hiff⟩ := enforceGe_prove hB n hka hkb hlen
  refine ⟨values, hrun', hv, fun md ops hrun => ?_⟩
  obtain ⟨hlayout, -⟩ := enforceGe_layout B ha hb md .prove n _ _ ops values hrun hrun'
  refine ⟨hlayout, fun w hext => (holds_congr w hlayout).trans (hiff w ?_ ?_)⟩
  · exact ha.symm.readsAll (hxs.congr hbelow hext)
  · exact hb.symm.readsAll (hys.congr hbelow' hext)

/-- **`enforce_ge` decides the comparison.** The wires may be bits, negated bits and constants in
any mixture, empty or single strings included. With their values given (by `w₀`), the emitted
constraints can be satisfied by the new variables exactly when the number of `a` is at least
that of `b`; in one way only; and that way is what a prover computes who knows the values, that
is the run on the same wires with their values carried. -/
theorem enforceGe_decides (a b : List Boolean) :
    (a.length ≠ b.length → ∀ md n, enforceGe B a b md n = .error (.error .unsatisfiable)) ∧
    (a.length = b.length → ∀ (n : Counts) (w₀ : Assignment Scalar) (xs ys : List Bool),
      1 ≤ n.inputs → (∀ x ∈ a, x.Below n) → (∀ x ∈ b, x.Below n) →
      ReadsAll w₀ a xs → ReadsAll w₀ b ys →
      (∀ md ops, enforceGe B a b md n = .ok ((), ops) →
        ((∃ w : Assignment Scalar, w.Extends w₀ n ∧ Holds w ops) ↔ ofBits ys ≤ ofBits xs) ∧
        ∀ w w' : Assignment Scalar, w.Extends w₀ n → w'.Extends w₀ n → Holds w ops →
          Holds w' ops → w.Extends w' (n.advance ops)) ∧
      ∀ a' b' : List Boolean, SameWires a a' → SameWires b b' → KnownAll a' xs → KnownAll b' ys →
        ∃ values, enforceGe B a' b' .prove n = .ok ((), values) ∧ Valued values ∧
          ∀ md ops, enforceGe B a b md n = .ok ((), ops) → layout ops = layout values ∧
            ∀ w : Assignment Scalar, w.Extends w₀ n →
              (Holds w ops ↔ Agrees w n values ∧ ofBits ys ≤ ofBits xs)) := by
  refine ⟨fun hne md n => by rw [enforceGe, if_pos hne]; rfl, ?_⟩
  intro hlen n w₀ xs ys hn hbelow hbelow' hxs hys
  have hxy : xs.length = ys.length := by rw [← hxs.length_eq, ← hys.length_eq, hlen]
  refine ⟨fun md ops hrun => ?_, fun a' b' ha hb hka hkb =>
    enforceGe_values hB n hbelow hbelow' hxs hys hxy ha hb hka hkb⟩
  -- the wires of `a` and `b`, with the values that `w₀` gives them
  obtain ⟨a', ha, hka⟩ := hxs.exists_known
  obtain ⟨b', hb, hkb⟩ := hys.exists_known
  obtain ⟨values, -, hv, hvalues⟩ :=
    enforceGe_values hB n hbelow hbelow' hxs hys hxy ha hb hka hkb
  obtain ⟨hlayout, hiff⟩ := hvalues md ops hrun
  constructor
  · constructor
    · rintro ⟨w, hext, hw⟩
      exact ((hiff w hext).mp hw).2
    · intro hle
      obtain ⟨w, hag, hext⟩ := exists_agrees w₀ values n hn
      exact ⟨w, hext, (hiff w hext).mpr ⟨hag, hle⟩⟩
  · intro w w' hext hext' hw hw'
    have hboth : w.Extends w' n := fun x hx => (hext x hx).trans (hext' x hx).symm
    rw [advance_congr n hlayout]
    exact Agrees.unique hv ((hiff w hext).mp hw).1 ((hiff w' hext').mp hw').1 hboth

end

/-- Six, on a bit that is zero, its negation and a constant. -/
def mixedSix : List Boolean := [.is ⟨.aux 0, some false⟩, .not ⟨.aux 0, some false⟩, .constant true]

/-- Three, on the same bit. -/
def mixedThree : List Boolean := [.not ⟨.aux 0, some false⟩, .constant true, .is ⟨.aux 0, some false⟩]

private theorem mixedSix_reads : ReadsAll (.blank : Assignment Scalar) mixedSix [false, true, true] :=
  .cons (by simp [Boolean.Reads, Boolean.lc, Assignment.blank])
    (.cons (by simp [Boolean.Reads, Boolean.lc, Assignment.blank])
      (.cons ((Boolean.reads_constant true).mpr rfl) .nil))

private theorem mixedThree_reads :
    ReadsAll (.blank : Assignment Scalar) mixedThree [true, true, false] :=
  .cons (by simp [Boolean.Reads, Boolean.lc, Assignment.blank])
    (.cons ((Boolean.reads_constant true).mpr rfl)
      (.cons (by simp [Boolean.Reads, Boolean.lc, Assignment.blank]) .nil))

/-- Six against three can be satisfied, three against six cannot. -/
theorem enforceGe_decides_mixed : ∃ ge lt,
    enforceGe (Reference.bellman Reference.blake2s) mixedSix mixedThree .prove ⟨1, 1⟩ = .ok ((), ge) ∧
    enforceGe (Reference.bellman Reference.blake2s) mixedThree mixedSix .prove ⟨1, 1⟩ = .ok ((), lt) ∧
    (∃ w : Assignment Scalar, w.Extends .blank ⟨1, 1⟩ ∧ Holds w ge) ∧
    ¬ ∃ w : Assignment Scalar, w.Extends .blank ⟨1, 1⟩ ∧ Holds w lt := by
  have hB := Reference.bellman_determinesBits Reference.blake2s
  have hsix : KnownAll mixedSix [false, true, true] := .of_map_getValue rfl
  have hthree : KnownAll mixedThree [true, true, false] := .of_map_getValue rfl
  have hbelow : ∀ x ∈ mixedSix, x.Below ⟨1, 1⟩ := by
    simp [mixedSix, Boolean.Below, Variable.Below]
  have hbelow' : ∀ x ∈ mixedThree, x.Below ⟨1, 1⟩ := by
    simp [mixedThree, Boolean.Below, Variable.Below]
  obtain ⟨hge, hgev⟩ := (enforceGe_decides hB mixedSix mixedThree).2 rfl ⟨1, 1⟩ .blank _ _ le_rfl
    hbelow hbelow' mixedSix_reads mixedThree_reads
  obtain ⟨hlt, hltv⟩ := (enforceGe_decides hB mixedThree mixedSix).2 rfl ⟨1, 1⟩ .blank _ _ le_rfl
    hbelow' hbelow mixedThree_reads mixedSix_reads
  obtain ⟨ge, hrun, -⟩ := hgev _ _ (.refl _) (.refl _) hsix hthree
  obtain ⟨lt, hrun', -⟩ := hltv _ _ (.refl _) (.refl _) hthree hsix
  exact ⟨ge, lt, hrun, hrun', (hge _ _ hrun).1.mpr (by decide),
    (hlt _ _ hrun').1.not.mpr (by decide)⟩

end ProviiCrypto
