import Mathlib.Data.String.Basic
import ScriptBridge.Lists

/-! Increasing lists without repetition hold the elements that were put in. -/

namespace ScriptBridge

variable {α : Type} [LinearOrder α] [DecidableLT α] [DecidableEq α] {a b : α} {l : List α}

theorem mem_insertOnce : b ∈ insertOnce a l ↔ b = a ∨ b ∈ l := by
  induction l with
  | nil => simp [insertOnce]
  | cons c cs ih =>
    unfold insertOnce
    split_ifs with hlt heq
    · simp
    · simp [heq]
    · simp only [List.mem_cons, ih]
      tauto

theorem insertOnce_increasing (h : l.Pairwise (· < ·)) : (insertOnce a l).Pairwise (· < ·) := by
  induction l with
  | nil => simp [insertOnce]
  | cons c cs ih =>
    obtain ⟨hc, hcs⟩ := List.pairwise_cons.1 h
    unfold insertOnce
    split_ifs with hlt heq
    · refine List.pairwise_cons.2 ⟨fun d hd => ?_, h⟩
      rcases List.mem_cons.1 hd with rfl | hd
      · exact hlt
      · exact hlt.trans (hc d hd)
    · exact h
    · refine List.pairwise_cons.2 ⟨fun d hd => ?_, ih hcs⟩
      rcases mem_insertOnce.1 hd with rfl | hd
      · exact lt_of_le_of_ne (not_lt.1 hlt) (Ne.symm heq)
      · exact hc d hd

@[simp] theorem mem_sortOnce : a ∈ sortOnce l ↔ a ∈ l := by
  induction l with
  | nil => simp [sortOnce]
  | cons b bs ih =>
    change a ∈ insertOnce b (sortOnce bs) ↔ _
    rw [mem_insertOnce, ih, List.mem_cons]

theorem sortOnce_increasing (l : List α) : (sortOnce l).Pairwise (· < ·) := by
  induction l with
  | nil => exact .nil
  | cons b bs ih => exact insertOnce_increasing ih

end ScriptBridge
