import Mathlib.Algebra.BigOperators.Group.List.Basic
import Mathlib.Algebra.Group.Subgroup.Defs
import Mathlib.Algebra.Module.Basic
import Mathlib.Algebra.Order.Ring.Abs
import Mathlib.Algebra.Order.Ring.Int
import Mathlib.Data.Int.ModEq
import Mathlib.Tactic.Linarith
import Mathlib.Tactic.Ring

/-!
# Signed windows

A bit string read three bits at a time, each window a digit in `±1, ±2, ±3, ±4`, and a list of
digits read in base sixteen. Because a digit is never zero and a quarter of the base at most, the
sum of the lower digits never reaches the next one (`abs_signedSum_le`, `signedSum_ne_zero`):
partial sums of a segment stay apart, which is what an incomplete addition formula needs.

`segmentsSum` hashes a string in segments of `w` windows, one generator each. What it takes of the
string is its windows (`segmentsSum_congr`), and strings with other windows and one sum are a
relation between the generators (`isRelation_of_segmentsSum_eq`).
-/

namespace ProviiCrypto.Number

/-- The digit of a window: `(1 + a + 2b)`, negated by `c`. -/
def windowDigit (a b c : Bool) : ℤ := (if c then -1 else 1) * (1 + a.toNat + 2 * b.toNat)

/-- The digits of a bit string, whose last window is filled up with zeros. -/
def windowDigits : List Bool → List ℤ
  | [] => []
  | [a] => [windowDigit a false false]
  | [a, b] => [windowDigit a b false]
  | a :: b :: c :: bits => windowDigit a b c :: windowDigits bits

/-- Digits in base sixteen, the least significant first. -/
def signedSum : List ℤ → ℤ
  | [] => 0
  | d :: ds => d + 16 * signedSum ds

/-- What a digit can be. -/
def IsDigit (d : ℤ) : Prop := d ≠ 0 ∧ -4 ≤ d ∧ d ≤ 4

theorem IsDigit.neg {d : ℤ} (h : IsDigit d) : IsDigit (-d) :=
  ⟨neg_ne_zero.mpr h.1, by have := h.2.2; omega, by have := h.2.1; omega⟩

theorem isDigit_windowDigit (a b c : Bool) : IsDigit (windowDigit a b c) := by
  cases a <;> cases b <;> cases c <;> simp [IsDigit, windowDigit]

theorem isDigit_append {ds : List ℤ} (h : ∀ e ∈ ds, IsDigit e) {d : ℤ} (hd : IsDigit d) :
    ∀ e ∈ ds ++ [d], IsDigit e := by
  intro e he
  rcases List.mem_append.mp he with he | he
  · exact h e he
  · exact List.mem_singleton.mp he ▸ hd

theorem isDigit_of_mem : ∀ {bits : List Bool} {d : ℤ}, d ∈ windowDigits bits → IsDigit d
  | [], _, h => by simp [windowDigits] at h
  | [a], d, h => by
    obtain rfl : d = windowDigit a false false := by simpa [windowDigits] using h
    exact isDigit_windowDigit _ _ _
  | [a, b], d, h => by
    obtain rfl : d = windowDigit a b false := by simpa [windowDigits] using h
    exact isDigit_windowDigit _ _ _
  | a :: b :: c :: bits, d, h => by
    rcases List.mem_cons.mp h with rfl | h
    · exact isDigit_windowDigit _ _ _
    · exact isDigit_of_mem h

theorem length_windowDigits : ∀ bits : List Bool, (windowDigits bits).length = (bits.length + 2) / 3
  | [] => rfl
  | [_] => by simp [windowDigits]
  | [_, _] => by simp [windowDigits]
  | _ :: _ :: _ :: bits => by
    simp only [windowDigits, List.length_cons, length_windowDigits bits]
    omega

/-- The window of a nonempty string, with the bits that follow it. -/
theorem windowDigits_cons (a : Bool) (bits : List Bool) :
    windowDigits (a :: bits) =
      windowDigit a (bits.head?.getD false) (bits.tail.head?.getD false) ::
        windowDigits bits.tail.tail := by
  match bits with
  | [] => rfl
  | [_] => rfl
  | _ :: _ :: _ => rfl

/-- The first window of a segment, with the rest of the segment. -/
theorem windowDigits_take (k : ℕ) (a : Bool) (bits : List Bool) :
    windowDigits ((a :: bits).take (3 * (k + 1))) =
      windowDigit a (bits.head?.getD false) (bits.tail.head?.getD false) ::
        windowDigits (bits.tail.tail.take (3 * k)) := by
  rw [show 3 * (k + 1) = 3 * k + 1 + 1 + 1 by ring, List.take_succ_cons]
  match bits with
  | [] => rw [windowDigits_cons]; simp
  | [_] => rw [windowDigits_cons]; simp
  | _ :: _ :: _ => rw [windowDigits_cons]; simp

theorem drop_window {α : Type} (k : ℕ) (a : α) (bits : List α) :
    (a :: bits).drop (3 * (k + 1)) = bits.tail.tail.drop (3 * k) := by
  rw [show 3 * (k + 1) = 3 * k + 1 + 1 + 1 by ring, List.drop_succ_cons]
  match bits with
  | [] => simp
  | [_] => simp
  | _ :: _ :: _ => simp

theorem signedSum_append (ds : List ℤ) (d : ℤ) :
    signedSum (ds ++ [d]) = signedSum ds + 16 ^ ds.length * d := by
  induction ds with
  | nil => simp [signedSum]
  | cons e ds ih =>
    simp only [List.cons_append, signedSum, ih, List.length_cons, pow_succ]
    ring

/-- The digits below position `k` stay below a third of `16 ^ k`. -/
theorem abs_signedSum_le (ds : List ℤ) (h : ∀ d ∈ ds, IsDigit d) :
    15 * |signedSum ds| ≤ 4 * (16 ^ ds.length - 1) := by
  induction ds with
  | nil => simp [signedSum]
  | cons d ds ih =>
    have ih := ih fun e he => h e (List.mem_cons_of_mem d he)
    obtain ⟨-, hlo, hhi⟩ := h d List.mem_cons_self
    have hd : |d| ≤ 4 := abs_le.mpr ⟨hlo, hhi⟩
    have habs : |d + 16 * signedSum ds| ≤ |d| + 16 * |signedSum ds| :=
      (abs_add_le _ _).trans (by rw [abs_mul]; norm_num)
    rw [signedSum, List.length_cons, pow_succ]
    linarith

theorem signedSum_ne_zero {ds : List ℤ} (h : ∀ d ∈ ds, IsDigit d) (hne : ds ≠ []) :
    signedSum ds ≠ 0 := by
  cases ds with
  | nil => exact absurd rfl hne
  | cons d ds =>
    -- modulo sixteen only the first digit is left, and it is small
    obtain ⟨h0, hlo, hhi⟩ := h d List.mem_cons_self
    intro hsum
    rw [signedSum] at hsum
    omega

/-- **The digits can be read back from their sum**, whatever their number. -/
theorem signedSum_injOn : ∀ {ds es : List ℤ}, (∀ d ∈ ds, IsDigit d) → (∀ e ∈ es, IsDigit e) →
    signedSum ds = signedSum es → ds = es
  | [], [], _, _, _ => rfl
  | [], e :: es, _, he, heq => absurd heq.symm (signedSum_ne_zero he (List.cons_ne_nil e es))
  | d :: ds, [], hd, _, heq => absurd heq (signedSum_ne_zero hd (List.cons_ne_nil d ds))
  | d :: ds, e :: es, hd, he, heq => by
    -- two digits that agree modulo sixteen are equal
    obtain ⟨-, hdlo, hdhi⟩ := hd d List.mem_cons_self
    obtain ⟨-, helo, hehi⟩ := he e List.mem_cons_self
    simp only [signedSum] at heq
    obtain rfl : d = e := by omega
    rw [signedSum_injOn (fun d' h => hd d' (List.mem_cons_of_mem d h))
      (fun e' h => he e' (List.mem_cons_of_mem d h)) (by omega)]

/-- The same modulo an order that is large enough for the length. -/
theorem eq_of_dvd_signedSum_sub {n : ℤ} {w : ℕ} (hn : 8 * (16 ^ w - 1) < 15 * n) {ds es : List ℤ}
    (hd : ∀ d ∈ ds, IsDigit d) (he : ∀ e ∈ es, IsDigit e) (hdlen : ds.length ≤ w)
    (helen : es.length ≤ w) (hdvd : n ∣ signedSum ds - signedSum es) : ds = es := by
  have hbound : ∀ {fs : List ℤ}, (∀ f ∈ fs, IsDigit f) → fs.length ≤ w →
      15 * |signedSum fs| ≤ 4 * (16 ^ w - 1) := by
    intro fs hf hlen
    have hpow : (16 : ℤ) ^ fs.length ≤ 16 ^ w := pow_le_pow_right₀ (by norm_num) hlen
    have hle := abs_signedSum_le fs hf
    linarith
  have habs : |signedSum ds - signedSum es| < n := by
    have htriangle := abs_sub (signedSum ds) (signedSum es)
    have hds := hbound hd hdlen
    have hes := hbound he helen
    linarith
  exact signedSum_injOn hd he (sub_eq_zero.mp (Int.eq_zero_of_abs_lt_dvd hdvd habs))

/-! ## Partial sums -/

/-- What the `j`-th of a sequence of windows stands for. -/
def windowTerm (ws : List (Bool × Bool × Bool)) (j : ℕ) : ℤ :=
  match ws[j]? with
  | some (a, b, c) => windowDigit a b c * 16 ^ j
  | none => 0

/-- The sum of the first `m` windows. -/
def partialSum (ws : List (Bool × Bool × Bool)) (m : ℕ) : ℤ :=
  ((List.range m).map (windowTerm ws)).sum

/-- The digits of a sequence of windows. -/
def digitsOf (ws : List (Bool × Bool × Bool)) : List ℤ :=
  ws.map fun t => windowDigit t.1 t.2.1 t.2.2

@[simp] theorem length_digitsOf (ws : List (Bool × Bool × Bool)) :
    (digitsOf ws).length = ws.length := List.length_map _

theorem isDigit_digitsOf {ws : List (Bool × Bool × Bool)} {d : ℤ} (h : d ∈ digitsOf ws) :
    IsDigit d := by
  obtain ⟨t, -, rfl⟩ := List.mem_map.mp h
  exact isDigit_windowDigit _ _ _

/-- A window is determined by its digit. -/
theorem windowDigit_injective :
    Function.Injective fun t : Bool × Bool × Bool => windowDigit t.1 t.2.1 t.2.2 := by
  have hdigit : ∀ a b c a' b' c' : Bool, windowDigit a b c = windowDigit a' b' c' →
      (a, b, c) = (a', b', c') := by decide
  rintro ⟨a, b, c⟩ ⟨a', b', c'⟩
  exact hdigit a b c a' b' c'

theorem windowTerm_eq {ws : List (Bool × Bool × Bool)} {m : ℕ} (hm : m < ws.length) :
    ∃ d, (digitsOf ws)[m]? = some d ∧ windowTerm ws m = 16 ^ m * d := by
  refine ⟨windowDigit ws[m].1 ws[m].2.1 ws[m].2.2, ?_, ?_⟩
  · simp [digitsOf, hm]
  · simp [windowTerm, hm, mul_comm]

theorem partialSum_eq {ws : List (Bool × Bool × Bool)} {m : ℕ} (hm : m ≤ ws.length) :
    partialSum ws m = signedSum ((digitsOf ws).take m) := by
  induction m with
  | zero => simp [partialSum, signedSum]
  | succ m ih =>
    obtain ⟨d, hd, hterm⟩ := windowTerm_eq hm
    have hlen : ((digitsOf ws).take m).length = m := by simp; omega
    rw [partialSum, List.range_succ, List.map_append, List.sum_append, ← partialSum,
      ih (Nat.le_of_succ_le hm), List.take_add_one, hd, Option.toList_some, signedSum_append, hlen]
    simp [hterm]

section Apart

variable {n : ℤ} {w : ℕ} (hn : 8 * (16 ^ w - 1) < 15 * n)
include hn

theorem not_dvd_of_isDigit {ds : List ℤ} (h : ∀ d ∈ ds, IsDigit d) (hne : ds ≠ [])
    (hlen : ds.length ≤ w) : ¬ n ∣ signedSum ds := fun hdvd =>
  hne (eq_of_dvd_signedSum_sub hn h (by simp) hlen (Nat.zero_le w) (by simpa [signedSum] using hdvd))

/-- **Partial sums stay apart** from zero and, up to sign, from the window that is added next. -/
theorem partialSum_apart {ws : List (Bool × Bool × Bool)} (hlen : ws.length ≤ w) {m : ℕ}
    (hpos : 1 ≤ m) (hm : m ≤ ws.length) :
    ¬ partialSum ws m ≡ 0 [ZMOD n] ∧ (m < ws.length →
      ¬ partialSum ws m ≡ windowTerm ws m [ZMOD n] ∧
      ¬ partialSum ws m ≡ -windowTerm ws m [ZMOD n]) := by
  have hds : ∀ d ∈ (digitsOf ws).take m, IsDigit d := fun d hd =>
    isDigit_digitsOf (List.mem_of_mem_take hd)
  have htake : ((digitsOf ws).take m).length = m := by simp; omega
  rw [partialSum_eq hm]
  constructor
  · intro hmod
    refine not_dvd_of_isDigit hn hds ?_ (by omega) (Int.modEq_zero_iff_dvd.mp hmod)
    exact List.ne_nil_of_length_pos (by omega)
  · intro hlt
    obtain ⟨d, hd, hterm⟩ := windowTerm_eq hlt
    have hd : IsDigit d := isDigit_digitsOf (List.mem_of_getElem? hd)
    -- either sign of the next window extends the digits by one
    have hnext : ∀ e, IsDigit e → ¬ n ∣ signedSum ((digitsOf ws).take m) + 16 ^ m * e := by
      intro e he
      have happend := signedSum_append ((digitsOf ws).take m) e
      rw [htake] at happend
      rw [← happend]
      exact not_dvd_of_isDigit hn (isDigit_append hds he) (by simp) (by simp; omega)
    rw [hterm]
    constructor
    · intro hmod
      refine hnext (-d) hd.neg ?_
      rw [mul_neg, ← sub_eq_add_neg]
      exact hmod.symm.dvd
    · intro hmod
      refine hnext d hd ?_
      rw [← sub_neg_eq_add]
      exact hmod.symm.dvd

/-- **Sums of one length are distinct.** -/
theorem partialSum_inj {ws ws' : List (Bool × Bool × Bool)} (hlen : ws.length ≤ w)
    (hlen' : ws'.length = ws.length)
    (h : partialSum ws ws.length ≡ partialSum ws' ws.length [ZMOD n]) : ws = ws' := by
  rw [partialSum_eq le_rfl, partialSum_eq hlen'.ge] at h
  rw [List.take_of_length_le (by simp), List.take_of_length_le (by simp [hlen'])] at h
  have hdigits := eq_of_dvd_signedSum_sub hn (fun _ => isDigit_digitsOf) (fun _ => isDigit_digitsOf)
    (by simpa using hlen) (by simpa [hlen'] using hlen) h.symm.dvd
  exact List.map_injective_iff.mpr windowDigit_injective hdigits

end Apart

/-! ## Padding -/

/-- The windows of a bit string, the last one filled up with zeros. -/
def paddedWindows : List Bool → List (Bool × Bool × Bool)
  | [] => []
  | [a] => [(a, false, false)]
  | [a, b] => [(a, b, false)]
  | a :: b :: c :: bits => (a, b, c) :: paddedWindows bits

/-- The zeros that fill up the last of `n` bits' windows. -/
def windowPadding (n : ℕ) : ℕ := (3 - n % 3) % 3

theorem windowDigits_eq_map : ∀ bits : List Bool,
    windowDigits bits = digitsOf (paddedWindows bits)
  | [] => rfl
  | [_] => rfl
  | [_, _] => rfl
  | a :: b :: c :: bits => congrArg (windowDigit a b c :: ·) (windowDigits_eq_map bits)

theorem windowDigits_inj {bits bits' : List Bool} :
    windowDigits bits = windowDigits bits' ↔ paddedWindows bits = paddedWindows bits' := by
  rw [windowDigits_eq_map, windowDigits_eq_map]
  exact (List.map_injective_iff.mpr windowDigit_injective).eq_iff

/-- The bits of the windows are those of the string and the zeros after them. -/
theorem flatMap_paddedWindows : ∀ bits : List Bool,
    ((paddedWindows bits).flatMap fun t => [t.1, t.2.1, t.2.2]) =
      bits ++ List.replicate (windowPadding bits.length) false
  | [] => rfl
  | [_] => rfl
  | [_, _] => rfl
  | a :: b :: c :: bits => by
    have hpadding : windowPadding (bits.length + 1 + 1 + 1) = windowPadding bits.length := by
      unfold windowPadding
      omega
    simp only [paddedWindows, List.flatMap_cons, flatMap_paddedWindows bits, List.length_cons,
      hpadding, List.cons_append, List.nil_append]

theorem windows_flatMap_injective :
    Function.Injective fun ts : List (Bool × Bool × Bool) =>
      ts.flatMap fun t => [t.1, t.2.1, t.2.2] := by
  intro ts
  induction ts with
  | nil =>
    intro us h
    cases us with
    | nil => rfl
    | cons u us => simp at h
  | cons t ts ih =>
    intro us h
    cases us with
    | nil => simp at h
    | cons u us =>
      simp only [List.flatMap_cons, List.cons_append, List.nil_append, List.cons.injEq] at h
      obtain ⟨ha, hb, hc, hrest⟩ := h
      rw [ih hrest, Prod.ext ha (Prod.ext hb hc)]

/-- **What padding forgets**: strings have the same windows exactly when they are equal after their
zeros. -/
theorem paddedWindows_inj {bits bits' : List Bool} :
    paddedWindows bits = paddedWindows bits' ↔
      bits ++ List.replicate (windowPadding bits.length) false =
        bits' ++ List.replicate (windowPadding bits'.length) false := by
  rw [← flatMap_paddedWindows, ← flatMap_paddedWindows]
  exact windows_flatMap_injective.eq_iff.symm

section Segments

variable {P : Type} [AddCommGroup P]

/-- A segment's digits, as a multiple of its generator. -/
def segmentSum (g : P) (bits : List Bool) : P := signedSum (windowDigits bits) • g

/-- The sum over segments of `3 w` bits, with one generator each; none when the generators run
out. -/
def segmentsSum (w : ℕ) : List P → List Bool → Option P
  | _, [] => some 0
  | [], _ :: _ => none
  | g :: gs, bits@(_ :: _) =>
    (segmentsSum w gs (bits.drop (3 * w))).map (segmentSum g (bits.take (3 * w)) + ·)

theorem segmentsSum_nil (w : ℕ) (gs : List P) : segmentsSum w gs [] = some 0 := by
  cases gs <;> rfl

theorem segmentsSum_cons (w : ℕ) (g : P) (gs : List P) {bits : List Bool} (h : bits ≠ []) :
    segmentsSum w (g :: gs) bits =
      (segmentsSum w gs (bits.drop (3 * w))).map (segmentSum g (bits.take (3 * w)) + ·) := by
  cases bits with
  | nil => exact absurd rfl h
  | cons b bits => rfl

/-- A string of one segment at most takes one generator. -/
theorem segmentsSum_one (w : ℕ) (g : P) (gs : List P) {bits : List Bool} (h : bits ≠ [])
    (hle : bits.length ≤ 3 * w) : segmentsSum w (g :: gs) bits = some (segmentSum g bits) := by
  rw [segmentsSum_cons w g gs h, List.drop_of_length_le hle, List.take_of_length_le hle,
    segmentsSum_nil, Option.map_some, add_zero]

/-- **Capacity**: the sum is defined exactly on the strings that fit the generators. -/
theorem segmentsSum_isSome (w : ℕ) (hw : 0 < w) : ∀ (gs : List P) (bits : List Bool),
    (segmentsSum w gs bits).isSome ↔ bits.length ≤ 3 * w * gs.length
  | gs, [] => by simp [segmentsSum_nil]
  | [], b :: bits => by simp [segmentsSum]
  | g :: gs, b :: bits => by
    rw [segmentsSum_cons w g gs (List.cons_ne_nil b bits), Option.isSome_map,
      segmentsSum_isSome w hw gs, List.length_drop, List.length_cons, List.length_cons,
      Nat.mul_succ]
    have : 0 < 3 * w := by omega
    omega

/-! ### What a sum takes of a string -/

theorem windowDigits_eq_nil {bits : List Bool} : windowDigits bits = [] ↔ bits = [] := by
  rw [← List.length_eq_zero_iff, length_windowDigits, ← List.length_eq_zero_iff]
  omega

theorem windowDigits_take_eq (w : ℕ) (bits : List Bool) :
    windowDigits (bits.take (3 * w)) = (windowDigits bits).take w := by
  induction w generalizing bits with
  | zero => simp [windowDigits]
  | succ w ih =>
    cases bits with
    | nil => simp [windowDigits]
    | cons a bits => rw [windowDigits_take, windowDigits_cons, List.take_succ_cons, ih]

theorem windowDigits_drop_eq (w : ℕ) (bits : List Bool) :
    windowDigits (bits.drop (3 * w)) = (windowDigits bits).drop w := by
  induction w generalizing bits with
  | zero => simp
  | succ w ih =>
    cases bits with
    | nil => simp [windowDigits]
    | cons a bits => rw [drop_window, windowDigits_cons, List.drop_succ_cons, ih]

/-- A sum takes a string's windows and no more. -/
theorem segmentsSum_congr (w : ℕ) : ∀ (gs : List P) {bits bits' : List Bool},
    windowDigits bits = windowDigits bits' → segmentsSum w gs bits = segmentsSum w gs bits'
  | gs, [], [], _ => rfl
  | gs, [], b :: bits, h => absurd (windowDigits_eq_nil.mp h.symm) (List.cons_ne_nil b bits)
  | gs, b :: bits, [], h => absurd (windowDigits_eq_nil.mp h) (List.cons_ne_nil b bits)
  | [], _ :: _, _ :: _, _ => rfl
  | g :: gs, b :: bits, b' :: bits', h => by
    rw [segmentsSum_cons w g gs (List.cons_ne_nil b bits),
      segmentsSum_cons w g gs (List.cons_ne_nil b' bits')]
    have hrest : windowDigits ((b :: bits).drop (3 * w)) =
        windowDigits ((b' :: bits').drop (3 * w)) := by
      rw [windowDigits_drop_eq, windowDigits_drop_eq, h]
    unfold segmentSum
    rw [windowDigits_take_eq, windowDigits_take_eq, h, segmentsSum_congr w gs hrest]

/-! ### Relations -/

/-- What each of `n` generators is multiplied with in a string's sum. -/
def segmentCoefficients (w : ℕ) : ℕ → List Bool → List ℤ
  | 0, _ => []
  | n + 1, bits =>
    signedSum (windowDigits (bits.take (3 * w))) :: segmentCoefficients w n (bits.drop (3 * w))

/-- The differences between the coefficients of two strings. -/
def coefficientDifferences (w n : ℕ) (bits bits' : List Bool) : List ℤ :=
  List.zipWith (· - ·) (segmentCoefficients w n bits) (segmentCoefficients w n bits')

/-- A relation between points of an order: coefficients, not all of them multiples of it, that the
points sum to zero with. -/
def IsRelation (order : ℤ) (ks : List ℤ) (gs : List P) : Prop :=
  ks.length = gs.length ∧ (List.zipWith (· • ·) ks gs).sum = 0 ∧ ∃ k ∈ ks, ¬ order ∣ k

@[simp] theorem length_segmentCoefficients (w n : ℕ) (bits : List Bool) :
    (segmentCoefficients w n bits).length = n := by
  induction n generalizing bits with
  | zero => rfl
  | succ n ih => rw [segmentCoefficients, List.length_cons, ih]

theorem segmentsSum_cons_eq_some {w : ℕ} {g : P} {gs : List P} {bits : List Bool} {p : P}
    (h : segmentsSum w (g :: gs) bits = some p) :
    ∃ q, segmentsSum w gs (bits.drop (3 * w)) = some q ∧
      p = signedSum ((windowDigits bits).take w) • g + q := by
  by_cases hbits : bits = []
  · subst hbits
    rw [segmentsSum_nil] at h
    refine ⟨0, by rw [List.drop_nil, segmentsSum_nil], ?_⟩
    simpa [windowDigits, signedSum] using (Option.some.inj h).symm
  · rw [segmentsSum_cons w g gs hbits, Option.map_eq_some_iff] at h
    obtain ⟨q, hq, rfl⟩ := h
    unfold segmentSum
    rw [windowDigits_take_eq]
    exact ⟨q, hq, rfl⟩

/-- A sum lies in every subgroup of the generators. -/
theorem segmentsSum_mem {A : AddSubgroup P} {w : ℕ} : ∀ {gs : List P} {bits : List Bool} {p : P},
    (∀ g ∈ gs, g ∈ A) → segmentsSum w gs bits = some p → p ∈ A
  | [], [], _, _, h => Option.some.inj h ▸ A.zero_mem
  | [], _ :: _, _, _, h => nomatch h
  | g :: gs, bits, p, hA, h => by
    obtain ⟨hg, hgs⟩ := List.forall_mem_cons.mp hA
    obtain ⟨q, hq, rfl⟩ := segmentsSum_cons_eq_some h
    exact A.add_mem (A.zsmul_mem hg _) (segmentsSum_mem hgs hq)

/-- The sum of a string is the combination with its coefficients. -/
theorem segmentsSum_eq_sum {w : ℕ} : ∀ {gs : List P} {bits : List Bool} {p : P},
    segmentsSum w gs bits = some p →
      (List.zipWith (· • ·) (segmentCoefficients w gs.length bits) gs).sum = p
  | [], [], _, h => Option.some.inj h
  | [], _ :: _, _, h => nomatch h
  | g :: gs, bits, p, h => by
    obtain ⟨q, hq, rfl⟩ := segmentsSum_cons_eq_some h
    rw [List.length_cons, segmentCoefficients, List.zipWith_cons_cons, List.sum_cons,
      segmentsSum_eq_sum hq, windowDigits_take_eq]

theorem sum_zipWith_sub {ks ls : List ℤ} {gs : List P} (hk : ks.length = gs.length)
    (hl : ls.length = gs.length) :
    (List.zipWith (· • ·) (List.zipWith (· - ·) ks ls) gs).sum =
      (List.zipWith (· • ·) ks gs).sum - (List.zipWith (· • ·) ls gs).sum := by
  induction gs generalizing ks ls with
  | nil => simp
  | cons g gs ih =>
    obtain ⟨k, ks, rfl⟩ := List.exists_cons_of_length_eq_add_one hk
    obtain ⟨l, ls, rfl⟩ := List.exists_cons_of_length_eq_add_one hl
    simp only [List.zipWith_cons_cons, List.sum_cons]
    rw [ih (Nat.succ.inj hk) (Nat.succ.inj hl), sub_smul]
    exact (add_sub_add_comm _ _ _ _).symm

/-- The coefficients agree modulo the order only where the windows do. -/
theorem windowDigits_eq_of_dvd {order : ℤ} {w : ℕ} (horder : 8 * (16 ^ w - 1) < 15 * order) :
    ∀ {n : ℕ} {bits bits' : List Bool}, bits.length ≤ 3 * w * n → bits'.length ≤ 3 * w * n →
      (∀ k ∈ coefficientDifferences w n bits bits', order ∣ k) → windowDigits bits = windowDigits bits'
  | 0, bits, bits', hlen, hlen', _ => by
    rw [List.length_eq_zero_iff.mp (Nat.le_zero.mp hlen),
      List.length_eq_zero_iff.mp (Nat.le_zero.mp hlen')]
  | n + 1, bits, bits', hlen, hlen', hdvd => by
    rw [Nat.mul_succ] at hlen hlen'
    unfold coefficientDifferences segmentCoefficients at hdvd
    rw [List.zipWith_cons_cons, List.forall_mem_cons] at hdvd
    have hshort : ∀ bits : List Bool, (windowDigits (bits.take (3 * w))).length ≤ w := by
      intro bits
      rw [windowDigits_take_eq]
      exact List.length_take_le w _
    have hfirst := eq_of_dvd_signedSum_sub horder (fun d => isDigit_of_mem) (fun d => isDigit_of_mem)
      (hshort bits) (hshort bits') hdvd.1
    have hrest := windowDigits_eq_of_dvd horder (by rw [List.length_drop]; omega)
      (by rw [List.length_drop]; omega) hdvd.2
    rw [windowDigits_take_eq, windowDigits_take_eq] at hfirst
    rw [windowDigits_drop_eq, windowDigits_drop_eq] at hrest
    rw [← List.take_append_drop w (windowDigits bits), hfirst, hrest, List.take_append_drop]

/-- **Binding**: two strings with other windows and one sum have coefficients whose differences are a
relation between the generators. -/
theorem isRelation_of_segmentsSum_eq {order : ℤ} {w : ℕ} (hw : 0 < w)
    (horder : 8 * (16 ^ w - 1) < 15 * order) {gs : List P} {bits bits' : List Bool} {p : P}
    (h : segmentsSum w gs bits = some p) (h' : segmentsSum w gs bits' = some p)
    (hne : windowDigits bits ≠ windowDigits bits') :
    IsRelation order (coefficientDifferences w gs.length bits bits') gs := by
  have hlen := (segmentsSum_isSome w hw gs bits).mp (by rw [h]; rfl)
  have hlen' := (segmentsSum_isSome w hw gs bits').mp (by rw [h']; rfl)
  refine ⟨by simp [coefficientDifferences], ?_, ?_⟩
  · unfold coefficientDifferences
    rw [sum_zipWith_sub (length_segmentCoefficients _ _ _) (length_segmentCoefficients _ _ _),
      segmentsSum_eq_sum h, segmentsSum_eq_sum h', sub_self]
  · by_contra hall
    push Not at hall
    exact hne (windowDigits_eq_of_dvd horder hlen hlen' hall)

/-- The windows of a string decide its coefficients. -/
theorem segmentCoefficients_congr {w : ℕ} : ∀ {n : ℕ} {bits bits' : List Bool},
    windowDigits bits = windowDigits bits' →
      segmentCoefficients w n bits = segmentCoefficients w n bits'
  | 0, _, _, _ => rfl
  | n + 1, bits, bits', h => by
    have hrest : windowDigits (bits.drop (3 * w)) = windowDigits (bits'.drop (3 * w)) := by
      rw [windowDigits_drop_eq, windowDigits_drop_eq, h]
    unfold segmentCoefficients
    rw [windowDigits_take_eq, windowDigits_take_eq, h, segmentCoefficients_congr hrest]

/-- **A collision is a relation**: two strings have other windows and one sum exactly when the
differences of their coefficients are a relation between the generators. -/
theorem isRelation_iff_collision {order : ℤ} {w : ℕ} (hw : 0 < w)
    (horder : 8 * (16 ^ w - 1) < 15 * order) {gs : List P} {bits bits' : List Bool} {p p' : P}
    (h : segmentsSum w gs bits = some p) (h' : segmentsSum w gs bits' = some p') :
    IsRelation order (coefficientDifferences w gs.length bits bits') gs ↔
      p = p' ∧ windowDigits bits ≠ windowDigits bits' := by
  constructor
  · rintro ⟨-, hsum, k, hk, hdvd⟩
    unfold coefficientDifferences at hsum hk
    rw [sum_zipWith_sub (length_segmentCoefficients _ _ _) (length_segmentCoefficients _ _ _),
      segmentsSum_eq_sum h, segmentsSum_eq_sum h', sub_eq_zero] at hsum
    refine ⟨hsum, fun hdigits => hdvd ?_⟩
    -- equal windows leave no difference
    rw [segmentCoefficients_congr hdigits, List.zipWith_self, List.mem_map] at hk
    obtain ⟨a, -, rfl⟩ := hk
    rw [sub_self]
    exact dvd_zero order
  · rintro ⟨rfl, hne⟩
    exact isRelation_of_segmentsSum_eq hw horder h h' hne

end Segments

end ProviiCrypto.Number
