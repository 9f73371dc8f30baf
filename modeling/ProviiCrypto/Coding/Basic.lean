import Mathlib.Data.Set.Prod
import ProviiCrypto.Number.Bits

/-!
# Self-delimiting encodings

An encoding is self-delimiting when what it wrote can be told from whatever follows it. Encodings
with this property are closed under concatenation, which is what makes a transcript of several
fields uniquely decodable.

* `selfDelimiting_iff`: they are the injective encodings none of whose words begins another.
* `SelfDelimiting.append`, `.prepend`, `.comap`: how fields make a transcript.
* `SelfDelimiting.of_length`, `.lengthPrefixed`, `.flagged`: the fields themselves.
* `append_eq_append_iff_shifted`, `append_cons_eq_append_cons_iff`: what two fields lose when the
  first of them is not self-delimiting.
-/

namespace ProviiCrypto.Coding

variable {α β τ : Type*} {s : Set α} {t : Set β} {f : α → List τ} {g : β → List τ}

/-- On `s`, what `f` writes can be told from whatever follows it. -/
def SelfDelimiting (s : Set α) (f : α → List τ) : Prop :=
  ∀ ⦃a⦄, a ∈ s → ∀ ⦃b⦄, b ∈ s → ∀ ⦃xs ys⦄, f a ++ xs = f b ++ ys → a = b

/-- An optional field after the mark of its presence. -/
def flagged (absent present : τ) (f : α → List τ) : Option α → List τ
  | none => [absent]
  | some a => present :: f a

namespace SelfDelimiting

/-- The rest is told as well. -/
theorem eq_and_eq (h : SelfDelimiting s f) {a b : α} (ha : a ∈ s) (hb : b ∈ s) {xs ys : List τ}
    (heq : f a ++ xs = f b ++ ys) : a = b ∧ xs = ys := by
  obtain rfl := h ha hb heq
  exact ⟨rfl, List.append_cancel_left heq⟩

theorem injOn (h : SelfDelimiting s f) : Set.InjOn f s := by
  intro a ha b hb hab
  have heq : f a ++ [] = f b ++ [] := by rw [hab]
  exact h ha hb heq

/-- No word begins another. -/
theorem eq_of_isPrefix (h : SelfDelimiting s f) {a b : α} (ha : a ∈ s) (hb : b ∈ s)
    (hab : f a <+: f b) : a = b := by
  obtain ⟨xs, hxs⟩ := hab
  exact h ha hb (hxs.trans (List.append_nil _).symm)

end SelfDelimiting

/-- **Self-delimiting means injective and prefix-free.** -/
theorem selfDelimiting_iff : SelfDelimiting s f ↔
    Set.InjOn f s ∧ ∀ a ∈ s, ∀ b ∈ s, f a <+: f b → f a = f b := by
  constructor
  · intro h
    refine ⟨h.injOn, ?_⟩
    intro a ha b hb hab
    rw [h.eq_of_isPrefix ha hb hab]
  · rintro ⟨hinj, hbegins⟩ a ha b hb xs ys heq
    have ha' : f a <+: f b ++ ys := ⟨xs, heq⟩
    -- of two words that begin one string the shorter begins the longer
    rcases le_total (f a).length (f b).length with hle | hle
    · exact hinj ha hb (hbegins a ha b hb
        (List.prefix_of_prefix_length_le ha' (List.prefix_append _ _) hle))
    · exact (hinj hb ha (hbegins b hb a ha
        (List.prefix_of_prefix_length_le (List.prefix_append _ _) ha' hle))).symm

namespace SelfDelimiting

/-! ## Transcripts -/

/-- One field after another. -/
theorem append (hf : SelfDelimiting s f) (hg : SelfDelimiting t g) :
    SelfDelimiting (s ×ˢ t) fun p => f p.1 ++ g p.2 := by
  rintro ⟨a, b⟩ ⟨ha, hb⟩ ⟨a', b'⟩ ⟨ha', hb'⟩ xs ys heq
  simp only [List.append_assoc] at heq
  obtain ⟨rfl, hrest⟩ := hf.eq_and_eq ha ha' heq
  obtain rfl := hg hb hb' hrest
  rfl

/-- A constant tag before the fields. -/
theorem prepend (hf : SelfDelimiting s f) (tag : List τ) :
    SelfDelimiting s fun a => tag ++ f a := by
  intro a ha b hb xs ys heq
  simp only [List.append_assoc, List.append_cancel_left_eq] at heq
  exact hf ha hb heq

/-- The fields of a record. -/
theorem comap (hg : SelfDelimiting t g) {φ : α → β} (hφ : Set.InjOn φ s) (hmaps : Set.MapsTo φ s t) :
    SelfDelimiting s fun a => g (φ a) := by
  intro a ha b hb xs ys heq
  exact hφ ha hb (hg (hmaps ha) (hmaps hb) heq)

/-! ## Fields -/

/-- Words of one length. -/
theorem of_length (hinj : Set.InjOn f s)
    (hlen : ∀ a ∈ s, ∀ b ∈ s, (f a).length = (f b).length) : SelfDelimiting s f := by
  intro a ha b hb xs ys heq
  exact hinj ha hb (List.append_inj_left heq (hlen a ha b hb))

/-- A string after its length. -/
theorem lengthPrefixed {t : Set ℕ} {len : ℕ → List τ} (hlen : SelfDelimiting t len) :
    SelfDelimiting {w : List τ | w.length ∈ t} fun w => len w.length ++ w := by
  intro v hv w hw xs ys heq
  simp only [List.append_assoc] at heq
  obtain ⟨hlength, hrest⟩ := hlen.eq_and_eq hv hw heq
  exact List.append_inj_left hrest hlength

theorem flagged (hf : SelfDelimiting s f) {absent present : τ} (h : absent ≠ present) :
    SelfDelimiting {o : Option α | ∀ a ∈ o, a ∈ s} (flagged absent present f) := by
  intro o ho o' ho' xs ys heq
  cases o <;> cases o' <;> simp only [Coding.flagged, List.cons_append, List.cons.injEq] at heq
  · rfl
  · exact absurd heq.1 h
  · exact absurd heq.1 h.symm
  · exact congrArg some (hf (ho _ rfl) (ho' _ rfl) heq.2)

end SelfDelimiting

/-! ## Two fields side by side -/

variable {x y x' y' : List τ} {c : τ}

/-- The second pair of fields has moved a string from the front of its second field to the end of
its first. -/
def Shifted (x y x' y' : List τ) : Prop := ∃ w, w ≠ [] ∧ x' = x ++ w ∧ y = w ++ y'

/-- The second pair has moved a string across the separator, which the second field contained. -/
def ShiftedOver (c : τ) (x y x' y' : List τ) : Prop := ∃ w, x' = x ++ c :: w ∧ y = w ++ c :: y'

theorem Shifted.length_lt (h : Shifted x y x' y') :
    x.length < x'.length ∧ y'.length < y.length := by
  obtain ⟨w, hw, rfl, rfl⟩ := h
  have hpos := List.length_pos_iff.mpr hw
  simp only [List.length_append]
  omega

/-- **Two fields side by side** are told from any others but those that a shift makes of them. -/
theorem append_eq_append_iff_shifted :
    x ++ y = x' ++ y' ↔ (x = x' ∧ y = y') ∨ Shifted x y x' y' ∨ Shifted x' y' x y := by
  constructor
  · intro h
    rcases List.append_eq_append_iff.mp h with ⟨w, hx, hy⟩ | ⟨w, hx, hy⟩
    · by_cases hw : w = []
      · subst hw
        exact .inl ⟨by simpa using hx.symm, by simpa using hy⟩
      · exact .inr (.inl ⟨w, hw, hx, hy⟩)
    · by_cases hw : w = []
      · subst hw
        exact .inl ⟨by simpa using hx, by simpa using hy.symm⟩
      · exact .inr (.inr ⟨w, hw, hx, hy⟩)
  · rintro (⟨rfl, rfl⟩ | ⟨w, -, rfl, rfl⟩ | ⟨w, -, rfl, rfl⟩)
    · rfl
    · exact (List.append_assoc x w y').symm
    · exact List.append_assoc x' w y

/-- A shift of a field that begins with the separator goes over another separator. -/
theorem shifted_cons_iff : Shifted x (c :: y) x' (c :: y') ↔ ShiftedOver c x y x' y' := by
  constructor
  · rintro ⟨w, hw, rfl, hy⟩
    obtain ⟨d, w, rfl⟩ := List.exists_cons_of_ne_nil hw
    rw [List.cons_append, List.cons.injEq] at hy
    obtain ⟨rfl, hy⟩ := hy
    exact ⟨w, rfl, hy⟩
  · rintro ⟨w, rfl, rfl⟩
    exact ⟨c :: w, List.cons_ne_nil c w, rfl, rfl⟩

/-- **Two fields around a separator.** -/
theorem append_cons_eq_append_cons_iff :
    x ++ c :: y = x' ++ c :: y' ↔
      (x = x' ∧ y = y') ∨ ShiftedOver c x y x' y' ∨ ShiftedOver c x' y' x y := by
  rw [append_eq_append_iff_shifted, shifted_cons_iff, shifted_cons_iff, List.cons_inj_right]

theorem ShiftedOver.length_lt (h : ShiftedOver c x y x' y') :
    x.length < x'.length ∧ y'.length < y.length := by
  have hlt := (shifted_cons_iff.mpr h).length_lt
  simpa using hlt

/-! ## Bytes -/

open Number

theorem selfDelimiting_byte : SelfDelimiting Set.univ fun b : UInt8 => [b] :=
  .of_length (fun _ _ _ _ h => List.head_eq_of_cons_eq h) fun _ _ _ _ => rfl

theorem selfDelimiting_bytes (n : ℕ) : SelfDelimiting Set.univ fun b : Bytes n => b.1 :=
  .of_length Subtype.val_injective.injOn fun a _ b _ => a.2.trans b.2.symm

theorem selfDelimiting_leBytes (k : ℕ) : SelfDelimiting {n | n < 256 ^ k} (leBytes k) := by
  refine .of_length ?_ fun a _ b _ => (length_leBytes k a).trans (length_leBytes k b).symm
  intro a ha b hb heq
  rw [← leNat_leBytes_of_lt ha, ← leNat_leBytes_of_lt hb, heq]

/-- A byte string after its length, written with `k` bytes. -/
def prefixed (k : ℕ) (w : List UInt8) : List UInt8 := leBytes k w.length ++ w

@[simp] theorem length_prefixed (k : ℕ) (w : List UInt8) :
    (prefixed k w).length = k + w.length := by
  simp [prefixed]

theorem selfDelimiting_prefixed (k : ℕ) :
    SelfDelimiting {w : List UInt8 | w.length < 256 ^ k} (prefixed k) :=
  (selfDelimiting_leBytes k).lengthPrefixed

end ProviiCrypto.Coding
