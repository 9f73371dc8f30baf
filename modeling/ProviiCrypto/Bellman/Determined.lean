import ProviiCrypto.Bellman.Interface
import ProviiCrypto.R1CS.Determined

/-!
# The variables of the bit gadgets

`Bellman H` fixes what a gadget returns, not which auxiliary variables it uses on the way.
`DeterminesBits` says it of the two gadgets that every formula over bits is made of.
-/

namespace ProviiCrypto

open R1CS R1CS.Synth

variable {H : Blake2s}

/-- The auxiliary variables of the bit gadgets: `AllocatedBit::alloc` allocates the bit and
nothing else; what `Boolean::and` allocates is a product of its operands. -/
structure Bellman.DeterminesBits (B : Bellman H) : Prop where
  allocBit_agrees : ∀ n x b ops, B.allocBit (some x) .prove n = .ok (b, ops) → Valued ops ∧
    ∀ w : Assignment Scalar, w b.var = bitValue x → Agrees w n ops
  and_agrees : ∀ n a b x y c ops, a.Known x → b.Known y → B.and a b .prove n = .ok (c, ops) →
    Valued ops ∧ ∀ w : Assignment Scalar, a.Reads w x → b.Reads w y → Holds w ops → Agrees w n ops

namespace Bellman.DeterminesBits

variable {B : Bellman H} (hB : B.DeterminesBits)
include hB

/-- An allocated bit is a bit; which one is for a later constraint to say. -/
theorem allocBit (n : Counts) (x : Bool) (pre : Assignment Scalar → Prop) :
    Determined n (B.allocBit (some x)) pre (fun b => b.value = some x)
      (fun w b => ∃ y, w b.var = bitValue y) fun w b => w b.var = bitValue x := by
  refine Determined.of_honest (B.allocBit_honest n x pre) (B.allocBit_sound _)
    (fun _ _ _ h => h) fun b ops hr => ?_
  obtain ⟨hv, hag⟩ := hB.allocBit_agrees n x b ops hr
  exact ⟨hv, fun w _ _ hx => hag w hx⟩

theorem and (n : Counts) {a b : Boolean} {x y : Bool} (ha : a.Known x) (hb : b.Known y) :
    Determined n (B.and a b) (fun w => a.Reads w x ∧ b.Reads w y) (fun c => c.Known (x && y))
      (fun w c => c.Reads w (x && y)) fun _ _ => True := by
  refine Determined.of_honest (B.and_honest n a b x y ha hb) (B.and_sound a b)
    (fun w c hp h => h x y hp.1 hp.2) fun c ops hr => ?_
  obtain ⟨hv, hag⟩ := hB.and_agrees n a b x y c ops ha hb hr
  exact ⟨hv, fun w hp hw _ => hag w hp.1 hp.2 hw⟩

end Bellman.DeterminesBits

end ProviiCrypto
