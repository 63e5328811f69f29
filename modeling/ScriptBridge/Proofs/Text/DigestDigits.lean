import ScriptBridge.Manifest

/-! The written form of a digest. Proved: it has sixteen lower-case hexadecimal digits, and the
digest is their value, so different digests are written differently. -/

namespace ScriptBridge.Digest

/-- The lower-case hexadecimal digits in the order of their values. -/
def digitChars : List Char := "0123456789abcdef".toList

/-- The number that hexadecimal digits stand for, the first one being the highest. -/
def valueOf (digits : List Char) : Nat := digits.foldl (fun n c => 16 * n + digitChars.idxOf c) 0

theorem digitChar_spec : ∀ d < 16, Nat.digitChar d ∈ digitChars ∧
    digitChars.idxOf (Nat.digitChar d) = d := by
  decide

theorem mem_of_mem_toDigits (n : Nat) : ∀ c ∈ Nat.toDigits 16 n, c ∈ digitChars := by
  induction n using Nat.strongRecOn with
  | ind n ih =>
    rw [Nat.toDigits_eq_if (by decide)]
    split
    · next h => exact List.forall_mem_singleton.2 (digitChar_spec n h).1
    · refine List.forall_mem_append.2 ⟨ih (n / 16) (by omega), ?_⟩
      exact List.forall_mem_singleton.2 (digitChar_spec (n % 16) (by omega)).1

theorem valueOf_toDigits (n : Nat) : valueOf (Nat.toDigits 16 n) = n := by
  induction n using Nat.strongRecOn with
  | ind n ih =>
    rw [Nat.toDigits_eq_if (by decide)]
    split
    · next h =>
      have hvalue := (digitChar_spec n h).2
      simp [valueOf, hvalue]
    · have hlast := (digitChar_spec (n % 16) (by omega)).2
      have hfront := ih (n / 16) (by omega)
      rw [valueOf] at hfront
      rw [valueOf, List.foldl_append, hfront, List.foldl_cons, List.foldl_nil, hlast]
      omega

/-- Leading zeros do not change a number. -/
theorem valueOf_replicate_append (count : Nat) (digits : List Char) :
    valueOf (List.replicate count '0' ++ digits) = valueOf digits := by
  induction count with
  | zero => rfl
  | succ count ih =>
    rw [← ih]
    rfl

/-- A digest is written with sixteen digits, whose value it is. -/
theorem exists_digits (digest : UInt64) :
    ∃ digits : List Char, hex digest = String.ofList digits ∧ digits.length = 16 ∧
      (∀ c ∈ digits, c ∈ digitChars) ∧ valueOf digits = digest.toNat := by
  have hlength : (Nat.toDigits 16 digest.toNat).length ≤ 16 :=
    (Nat.length_toDigits_le_iff (by decide) (by decide)).2 digest.toNat_lt
  refine ⟨_, rfl, ?_, ?_, ?_⟩
  · rw [List.leftpad, List.length_append, List.length_replicate]
    omega
  · refine List.forall_mem_append.2 ⟨fun c hc => ?_, mem_of_mem_toDigits _⟩
    rw [List.eq_of_mem_replicate hc]
    decide
  · rw [List.leftpad, valueOf_replicate_append, valueOf_toDigits]

/-- Different digests are written differently. -/
theorem hex_injective {a b : UInt64} (h : hex a = hex b) : a = b := by
  obtain ⟨as, ha, -, -, hva⟩ := exists_digits a
  obtain ⟨bs, hb, -, -, hvb⟩ := exists_digits b
  rw [ha, hb, String.ofList_inj] at h
  rw [← UInt64.toNat_inj, ← hva, ← hvb, h]

end ScriptBridge.Digest
