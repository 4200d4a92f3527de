import StackFlow.BlockSet
import Mathlib.Data.List.Sort
import Mathlib.Data.Nat.Bitwise

/-!
# The bits of a word

* `testBit_andNot` and `testBit_and_pred` say which bits are left when those of another word are
  cleared, and when the lowest one is taken off.
* `places_eq` says that taking off the lowest bit again and again finds the bits in ascending
  order, and `length_places` that it finds as many as are counted.
-/

namespace StackFlow

variable {a b w : UInt64} {k n : Nat}

/-- A word has 64 bits. -/
theorem lt_of_testBit (h : w.toNat.testBit k = true) : k < 64 := by
  by_contra hle
  have hpow : 2 ^ 64 ≤ 2 ^ k := Nat.pow_le_pow_right (by omega) (Nat.le_of_not_lt hle)
  rw [Nat.testBit_lt_two_pow (Nat.lt_of_lt_of_le w.toNat_lt hpow)] at h
  cases h

theorem getLsbD_toBitVec (w : UInt64) (k : Nat) : w.toBitVec.getLsbD k = w.toNat.testBit k := by
  rw [← UInt64.toNat_toBitVec, BitVec.testBit_toNat]

theorem testBit_andNot :
    (a &&& ~~~b).toNat.testBit k = (a.toNat.testBit k && !b.toNat.testBit k) := by
  simp only [← getLsbD_toBitVec, UInt64.toBitVec_and, UInt64.toBitVec_not, BitVec.getLsbD_and,
    BitVec.getLsbD_not]
  by_cases hk : k < 64
  · simp [hk]
  · rw [BitVec.getLsbD_of_ge _ _ (Nat.le_of_not_lt hk)]
    simp

namespace BlockSet

/-! ## The lowest bit -/

theorem lowest_le (h : w.toNat.testBit k = true) : lowest w ≤ k := by
  by_contra hlt
  have hclear := List.not_of_lt_findIdx (Nat.lt_of_not_le hlt)
  rw [List.getElem_range, h] at hclear
  cases hclear

theorem testBit_lowest (h : w ≠ 0) : w.toNat.testBit (lowest w) = true := by
  obtain ⟨k, hk⟩ := Nat.exists_testBit_of_ne_zero fun hzero => h (UInt64.toNat_inj.1 hzero)
  have hlt : (List.range 64).findIdx w.toNat.testBit < (List.range 64).length := by
    rw [List.length_range]
    exact Nat.lt_of_le_of_lt (lowest_le hk) (lt_of_testBit hk)
  have hbit := List.findIdx_getElem (w := hlt)
  rwa [List.getElem_range] at hbit

/-- A number and its predecessor have the same bits above the lowest one, and none in common
up to there. -/
theorem testBit_and_pred_of_lowest {x t : Nat} (hbit : x.testBit t = true)
    (hlow : ∀ j < t, x.testBit j = false) :
    (x &&& (x - 1)).testBit k = true ↔ x.testBit k = true ∧ k ≠ t := by
  -- the number is cut above its lowest bit, and only the part below changes
  have hmod : x % 2 ^ (t + 1) = 2 ^ t := by
    refine Nat.eq_of_testBit_eq fun j => ?_
    rw [Nat.testBit_mod_two_pow, Nat.testBit_two_pow]
    rcases Nat.lt_trichotomy j t with hj | rfl | hj
    · simp [hlow j hj, Nat.ne_of_gt hj]
    · simp [hbit]
    · simp [Nat.ne_of_lt hj, Nat.not_lt.2 (Nat.succ_le_of_lt hj)]
  have hpos : 0 < 2 ^ t := Nat.two_pow_pos t
  have hlt : 2 ^ t < 2 ^ (t + 1) := Nat.pow_lt_pow_right (by omega) (by omega)
  obtain ⟨q, hx⟩ : ∃ q, x = 2 ^ (t + 1) * q + 2 ^ t :=
    ⟨x / 2 ^ (t + 1), by rw [← hmod, Nat.div_add_mod]⟩
  have hpred : x - 1 = 2 ^ (t + 1) * q + (2 ^ t - 1) := by omega
  rw [Nat.testBit_and, hpred, hx, Nat.testBit_two_pow_mul_add _ hlt,
    Nat.testBit_two_pow_mul_add _ (by omega), Bool.and_eq_true]
  split
  · simp only [Nat.testBit_two_pow, Nat.testBit_two_pow_sub_one, decide_eq_true_eq]
    omega
  · simp only [and_self]
    exact (and_iff_left (by omega)).symm

theorem testBit_and_pred (h : w ≠ 0) :
    (w &&& (w - 1)).toNat.testBit k = true ↔ w.toNat.testBit k = true ∧ k ≠ lowest w := by
  rw [UInt64.toNat_and, toNat_pred h]
  refine testBit_and_pred_of_lowest (testBit_lowest h) fun j hj => ?_
  exact Bool.eq_false_iff.2 fun hbit => Nat.not_lt.2 (lowest_le hbit) hj

/-! ## All bits -/

theorem mem_places : k ∈ places w ↔ w.toNat.testBit k = true := by
  induction w using places.induct with
  | case1 => simp [places]
  | case2 w h ih =>
    rw [places, dif_neg h, List.mem_cons, ih, testBit_and_pred h]
    by_cases hk : k = lowest w
    · simp [hk, testBit_lowest h]
    · simp [hk]

theorem sorted_places (w : UInt64) : (places w).Pairwise (· < ·) := by
  induction w using places.induct with
  | case1 => simp [places]
  | case2 w h ih =>
    rw [places, dif_neg h]
    refine List.pairwise_cons.2 ⟨fun k hk => ?_, ih⟩
    obtain ⟨hbit, hne⟩ := (testBit_and_pred h).1 (mem_places.1 hk)
    exact Nat.lt_of_le_of_ne (lowest_le hbit) (Ne.symm hne)

/-- The bits are found in ascending order. -/
theorem places_eq (w : UInt64) : places w = (List.range 64).filter w.toNat.testBit := by
  refine (sorted_places w).eq_of_mem_iff (List.pairwise_lt_range.filter _) fun k => ?_
  rw [mem_places, List.mem_filter, List.mem_range]
  exact (and_iff_right_of_imp lt_of_testBit).symm

theorem cpopNatRec_eq_length (x : BitVec n) (k : Nat) :
    x.cpopNatRec k 0 = ((List.range k).filter x.getLsbD).length := by
  induction k with
  | zero => rfl
  | succ k ih =>
    rw [BitVec.cpopNatRec_succ, BitVec.cpopNatRec_eq, ih, List.range_succ, List.filter_append,
      List.length_append]
    cases hbit : x.getLsbD k <;> simp [hbit]

/-- As many bits are found as are counted. -/
theorem length_places (w : UInt64) : (places w).length = w.toBitVec.cpop.toNat := by
  have hbits : w.toBitVec.getLsbD = w.toNat.testBit := funext (getLsbD_toBitVec w)
  rw [places_eq, BitVec.toNat_cpop, cpopNatRec_eq_length, hbits]

end BlockSet

end StackFlow
