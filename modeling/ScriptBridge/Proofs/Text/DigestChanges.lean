import Mathlib.Logic.Function.Basic
import ScriptBridge.Manifest

/-! Changes that a digest notices. The factor of a step is odd, so that it has an inverse modulo
2^64. Proved: a step keeps different states apart and, at one state, different bytes; two states
that once differ differ over any bytes that follow; so a change of one byte changes the digest,
whatever stands around it. -/

namespace ScriptBridge.Digest

/-- The inverse of the factor modulo 2^64. -/
def inverse : UInt64 := 14886173955864302971

theorem factor_mul_inverse : factor * inverse = 1 := by decide

theorem mul_factor_injective : Function.Injective (· * factor) := by
  refine Function.LeftInverse.injective (g := (· * inverse)) fun state => ?_
  dsimp only
  rw [UInt64.mul_assoc, factor_mul_inverse, UInt64.mul_one]

/-- A step keeps different states apart. -/
theorem mix_injective (byte : UInt8) : Function.Injective (mix · byte) := fun _ _ h =>
  (UInt64.xor_left_inj _).1 (mul_factor_injective h)

/-- A step keeps different bytes apart. -/
theorem mix_byte_injective (state : UInt64) : Function.Injective (mix state) := fun _ _ h =>
  UInt8.toUInt64_inj.1 ((UInt64.xor_right_inj _).1 (mul_factor_injective h))

/-- States that differ still differ behind any bytes. -/
theorem foldl_mix_injective (bytes : List UInt8) :
    Function.Injective fun state => bytes.foldl mix state := by
  induction bytes with
  | nil => exact Function.injective_id
  | cons byte bytes ih => exact ih.comp (mix_injective byte)

/-- The digest notices every change of one byte. -/
theorem ofBytes_oneByte (front back : List UInt8) (a b : UInt8) :
    ofBytes (front ++ [a] ++ back) = ofBytes (front ++ [b] ++ back) ↔ a = b := by
  constructor
  · intro h
    rw [ofBytes, ofBytes, List.foldl_append, List.foldl_append, List.foldl_append,
      List.foldl_append] at h
    exact mix_byte_injective _ (foldl_mix_injective back h)
  · rintro rfl
    rfl

end ScriptBridge.Digest
