import StackFlow.Elision.Coverage
import StackFlow.Proofs.Bits
import Mathlib.Algebra.Order.Floor.Div
import Mathlib.Tactic.IntervalCases

/-!
# The words of an object

The coverage pass has one bit for each word of an object that is still to be written.

* `HasWord bits w` reads the bits; `HasWord.clear_iff`, `hasWord_wordBit_iff` and
  `hasWord_lowBits_iff` say what the operations on them do.
* `wordCount` is the number of words of an object, and `FitsInWords` says of which sizes it can
  be counted.  `exists_wordsOf` gives the bits that an object starts with.
* `Overwrites` names the words that a store writes all of, and `exists_writtenBits` says that
  these are the words whose bits it clears.
-/

namespace StackFlow

/-- Whether the bit for word `w` is set. -/
def HasWord (bits : UInt64) (w : Nat) : Prop := bits.toNat.testBit w = true

namespace HasWord

variable {a b bits : UInt64} {w : Nat}

theorem lt (h : HasWord bits w) : w < 64 := lt_of_testBit h

theorem not_zero : ¬ HasWord 0 w := by
  simp [HasWord]

theorem or_iff : HasWord (a ||| b) w ↔ HasWord a w ∨ HasWord b w := by
  unfold HasWord
  rw [UInt64.toNat_or, Nat.testBit_or, Bool.or_eq_true]

/-- Clearing some words leaves exactly the others. -/
theorem clear_iff : HasWord (a &&& ~~~b) w ↔ HasWord a w ∧ ¬ HasWord b w := by
  unfold HasWord
  rw [testBit_andNot, Bool.and_eq_true, Bool.not_eq_true', Bool.not_eq_true]

theorem clear (h : HasWord a w) (hb : ¬ HasWord b w) : HasWord (a &&& ~~~b) w :=
  clear_iff.2 ⟨h, hb⟩

theorem of_clear (h : HasWord (a &&& ~~~b) w) : HasWord a w ∧ ¬ HasWord b w := clear_iff.1 h

theorem exists_of_ne_zero (h : bits ≠ 0) : ∃ w, HasWord bits w :=
  Nat.exists_testBit_of_ne_zero fun hzero => h (UInt64.toNat_inj.1 hzero)

end HasWord

theorem toNat_one_shiftLeft {n : Int64} (hlo : 0 ≤ n.toInt) (hhi : n.toInt < 64) :
    ((1 : UInt64) <<< n.toInt.toNat.toUInt64).toNat = 2 ^ n.toInt.toNat := by
  have hn : n.toInt.toNat < 64 := by omega
  have hpow : 2 ^ n.toInt.toNat < 2 ^ 64 := Nat.pow_lt_pow_right (by omega) hn
  have hshift : n.toInt.toNat.toUInt64.toNat = n.toInt.toNat := by
    rw [UInt64.toNat_ofNat']
    exact Nat.mod_eq_of_lt (by omega)
  rw [UInt64.toNat_shiftLeft, hshift, Nat.mod_eq_of_lt hn, Nat.shiftLeft_eq]
  simp only [UInt64.toNat_one, Nat.one_mul]
  exact Nat.mod_eq_of_lt hpow

theorem hasWord_wordBit_iff {n : Int64} {w : Nat} :
    HasWord (wordBit n) w ↔ n.toInt = w ∧ w < 64 := by
  unfold HasWord wordBit
  split
  · rename_i hn
    rw [Bool.or_eq_true, decide_eq_true_eq, decide_eq_true_eq, Int64.lt_iff_toInt_lt,
      Int64.le_iff_toInt_le] at hn
    have hn : n.toInt < 0 ∨ 64 ≤ n.toInt := hn
    simp only [UInt64.toNat_zero, Nat.zero_testBit, Bool.false_eq_true, false_iff]
    omega
  · rename_i hn
    simp only [Bool.or_eq_true, decide_eq_true_eq, not_or, Int64.not_lt, Int64.not_le] at hn
    have hlo : (0 : Int) ≤ n.toInt := Int64.le_iff_toInt_le.1 hn.1
    have hhi : n.toInt < 64 := Int64.lt_iff_toInt_lt.1 hn.2
    rw [toNat_one_shiftLeft hlo hhi, Nat.testBit_two_pow, decide_eq_true_eq]
    omega

/-- A negative count has all bits. -/
theorem hasWord_lowBits_iff {n : Int64} {w : Nat} :
    HasWord (lowBits n) w ↔ w < 64 ∧ (n.toInt < 0 ∨ w < n.toInt) := by
  unfold lowBits
  split
  · rename_i hn
    rw [Bool.or_eq_true, decide_eq_true_eq, decide_eq_true_eq, Int64.lt_iff_toInt_lt,
      Int64.le_iff_toInt_le] at hn
    have hn : n.toInt < 0 ∨ 64 ≤ n.toInt := hn
    have hall : HasWord (~~~0) w ↔ w < 64 := by
      refine ⟨HasWord.lt, fun hw => ?_⟩
      unfold HasWord
      interval_cases w <;> rfl
    rw [hall]
    omega
  · rename_i hn
    simp only [Bool.or_eq_true, decide_eq_true_eq, not_or, Int64.not_lt, Int64.not_le] at hn
    have hlo : (0 : Int) ≤ n.toInt := Int64.le_iff_toInt_le.1 hn.1
    have hhi : n.toInt < 64 := Int64.lt_iff_toInt_lt.1 hn.2
    unfold HasWord
    rw [UInt64.toNat_sub_of_le, toNat_one_shiftLeft hlo hhi]
    · rw [UInt64.toNat_one, Nat.testBit_two_pow_sub_one, decide_eq_true_eq]
      omega
    · rw [UInt64.le_iff_toNat_le, toNat_one_shiftLeft hlo hhi]
      exact Nat.one_le_two_pow

section Sizes

variable {ptr : Int64}

theorem pointerSize_cases (h : isPointerSize ptr = true) :
    ptr.toInt = 2 ∨ ptr.toInt = 4 ∨ ptr.toInt = 8 := by
  simp only [isPointerSize, Bool.or_eq_true, decide_eq_true_eq] at h
  rcases h with (rfl | rfl) | rfl
  · exact .inl rfl
  · exact .inr (.inl rfl)
  · exact .inr (.inr rfl)

theorem toInt_div_ptr (h : isPointerSize ptr = true) (n : Int64) :
    (n / ptr).toInt = n.toInt.tdiv ptr.toInt := by
  refine Int64.toInt_div_of_ne_right n ptr ?_
  rintro rfl
  cases h

theorem ptr_ne_zero (h : isPointerSize ptr = true) : ptr ≠ 0 := by
  rintro rfl
  cases h

theorem toInt_div_ptr_of_nonneg (h : isPointerSize ptr = true) {n : Int64} (hn : 0 ≤ n.toInt) :
    (n / ptr).toInt = n.toInt / ptr.toInt := by
  rw [toInt_div_ptr h, Int.tdiv_eq_ediv_of_nonneg hn]

theorem toInt_roundUp (size ptr : Int64) :
    (size + ptr - 1).toInt = (size.toInt + ptr.toInt - 1).bmod (2 ^ 64) := by
  rw [Int64.toInt_sub, Int64.toInt_add, Int.bmod_sub_bmod]
  rfl

/-- The number of words that an object of `size` bytes takes. -/
def wordCount (ptr size : Int64) : Nat := size.toInt.toNat ⌈/⌉ ptr.toInt.toNat

/-- Whether the size can be rounded up to whole words without wrapping around. -/
def FitsInWords (ptr size : Int64) : Prop := size.toInt + ptr.toInt - 1 < 2 ^ 63

instance (ptr size : Int64) : Decidable (FitsInWords ptr size) :=
  inferInstanceAs (Decidable (_ < _))

theorem lt_wordCount_iff (h : isPointerSize ptr = true) {size : Int64} {w : Nat} :
    w < wordCount ptr size ↔ w * ptr.toInt < size.toInt := by
  have hptr := pointerSize_cases h
  rw [wordCount, ← Nat.not_le, ceilDiv_le_iff_le_mul (by omega)]
  rcases hptr with hptr | hptr | hptr <;> simp only [hptr, Int.reduceToNat] <;> omega

theorem natCast_wordCount (h : isPointerSize ptr = true) {size : Int64} (hsize : 0 ≤ size.toInt) :
    (wordCount ptr size : Int) = (size.toInt + ptr.toInt - 1) / ptr.toInt := by
  rw [wordCount, Nat.ceilDiv_eq_add_pred_div]
  rcases pointerSize_cases h with hptr | hptr | hptr <;> simp only [hptr, Int.reduceToNat] <;> omega

theorem lt_wordCount_of_not_fits (h : isPointerSize ptr = true) {size : Int64}
    (hfits : ¬ FitsInWords ptr size) : 64 < wordCount ptr size := by
  unfold FitsInWords at hfits
  rw [lt_wordCount_iff h]
  rcases pointerSize_cases h with hptr | hptr | hptr <;> rw [hptr] at hfits ⊢ <;> omega

/-- The words are counted as they are if their number does not wrap around. -/
theorem toInt_words_of_fits (h : isPointerSize ptr = true) {size : Int64} (hsize : 0 ≤ size.toInt)
    (hfits : FitsInWords ptr size) : ((size + ptr - 1) / ptr).toInt = wordCount ptr size := by
  unfold FitsInWords at hfits
  have hptr := pointerSize_cases h
  have hround : (size + ptr - 1).toInt = size.toInt + ptr.toInt - 1 := by
    rw [toInt_roundUp, Int.bmod_eq_of_le (by omega) (by omega)]
  rw [toInt_div_ptr_of_nonneg h (by omega), hround, natCast_wordCount h hsize]

/-- If it does, there is a negative number of words. -/
theorem toInt_words_of_not_fits (h : isPointerSize ptr = true) {size : Int64}
    (hfits : ¬ FitsInWords ptr size) : ((size + ptr - 1) / ptr).toInt < 0 := by
  unfold FitsInWords at hfits
  have hptr := pointerSize_cases h
  have hlt := size.toInt_lt
  have hround : (size + ptr - 1).toInt = size.toInt + ptr.toInt - 1 - 2 ^ 64 := by
    rw [toInt_roundUp, ← Int.sub_bmod_right, Int.bmod_eq_of_le (by omega) (by omega)]
    rfl
  rw [toInt_div_ptr h, hround, ← Int.neg_neg (_ - 2 ^ 64), Int.neg_tdiv,
    Int.tdiv_eq_ediv_of_nonneg (by omega)]
  rcases hptr with hptr | hptr | hptr <;> rw [hptr] <;> omega

/-- An object of at most 64 words has a bit for each of them, and one of more words is not
followed.  If their number wraps around, the object is followed with 64 bits. -/
theorem exists_wordsOf (h : isPointerSize ptr = true) {size : Int64} (hsize : 0 ≤ size.toInt) :
    ∃ words, (∀ w, HasWord (lowBits words) w ↔ w < wordCount ptr size ∧ w < 64) ∧
      wordsOf ptr size =
        .ok (if 64 < wordCount ptr size ∧ FitsInWords ptr size then none else some words) := by
  refine ⟨(size + ptr - 1) / ptr, fun w => ?_, ?_⟩
  · rw [hasWord_lowBits_iff]
    by_cases hfits : FitsInWords ptr size
    · rw [toInt_words_of_fits h hsize hfits]
      omega
    · have hneg := toInt_words_of_not_fits h hfits
      have hmany := lt_wordCount_of_not_fits h hfits
      omega
  · have hmax : 64 < (size + ptr - 1) / ptr ↔ 64 < wordCount ptr size ∧ FitsInWords ptr size := by
      rw [Int64.lt_iff_toInt_lt]
      by_cases hfits : FitsInWords ptr size
      · rw [toInt_words_of_fits h hsize hfits, and_iff_left hfits]
        exact Int.ofNat_lt (n := 64)
      · have hneg := toInt_words_of_not_fits h hfits
        exact iff_of_false (fun hlt => absurd (Int.lt_trans hlt hneg) (by decide))
          fun hboth => hfits hboth.2
    rw [wordsOf, if_neg (ptr_ne_zero h)]
    simp only [hmax]

/-- An object of constant size has a bit for each of its words. -/
theorem hasWord_of_wordsOf (h : isPointerSize ptr = true) {size words : Int64}
    (hsize : 0 ≤ size.toInt) (hwords : wordsOf ptr size = .ok (some words)) {w : Nat}
    (hw : w * ptr.toInt < size.toInt)
    (hfit : w < 64 ∨ size.toInt + ptr.toInt - 1 < 2 ^ 63) : HasWord (lowBits words) w := by
  obtain ⟨words', hiff, hwords'⟩ := exists_wordsOf h hsize
  rw [hwords, Except.ok.injEq] at hwords'
  split at hwords'
  · cases hwords'
  · rename_i hfew
    cases hwords'
    have hlt := (lt_wordCount_iff h).2 hw
    refine (hiff w).2 ⟨hlt, ?_⟩
    rcases hfit with hfit | hfit
    · exact hfit
    · have hfew : ¬ 64 < wordCount ptr size := fun hmany => hfew ⟨hmany, hfit⟩
      omega

/-- A store of `size` bytes at `offset` is aligned, is as wide as a word, and writes all of
word `w`. -/
structure Overwrites (ptr offset size : Int64) (w : Nat) : Prop where
  aligned : offset.toInt % ptr.toInt = 0
  wide : ptr.toInt ≤ size.toInt
  first : offset.toInt ≤ w * ptr.toInt
  last : (w + 1) * ptr.toInt ≤ offset.toInt + size.toInt

theorem size_bounds (h : isPointerSize ptr = true) {ty : Ty} {size : Int64}
    (hsize : ty.size? ptr = some size) : 0 ≤ size.toInt ∧ size.toInt ≤ 8 := by
  have hptr := pointerSize_cases h
  cases ty <;> simp only [Ty.size?, Option.some.injEq, reduceCtorEq] at hsize <;> subst hsize
  all_goals first | omega | decide

theorem hasWord_foldl_iff {f : Nat → UInt64} {ks : List Nat} {bits : UInt64} {w : Nat} :
    HasWord (ks.foldl (fun bits k => bits ||| f k) bits) w ↔
      HasWord bits w ∨ ∃ k ∈ ks, HasWord (f k) w := by
  induction ks generalizing bits with
  | nil => simp
  | cons k ks ih =>
    rw [List.foldl_cons, ih, HasWord.or_iff, or_assoc]
    simp only [List.mem_cons, exists_eq_or_imp]

/-- A store has the bits of the words which it writes all of. -/
theorem exists_writtenBits (h : isPointerSize ptr = true) {offset size : Int64} {ty : Ty}
    (hoffset : 0 ≤ offset.toInt) (hsize : ty.size? ptr = some size) :
    ∃ bits, writtenBits ptr offset ty = .ok bits ∧
      ∀ w, HasWord bits w ↔ w < 64 ∧ Overwrites ptr offset size w := by
  have hptr := pointerSize_cases h
  obtain ⟨hsize₀, hsize₈⟩ := size_bounds h hsize
  have halign : offset % ptr = 0 ↔ offset.toInt % ptr.toInt = 0 := by
    rw [← Int64.toInt_inj, Int64.toInt_mod, Int.tmod_eq_emod_of_nonneg hoffset]
    rfl
  unfold writtenBits
  rw [if_neg (ptr_ne_zero h)]
  by_cases hmod : offset % ptr = 0
  · rw [if_neg (not_not_intro hmod), hsize]
    simp only
    rw [halign] at hmod
    split
    · rename_i hsmall
      have hsmall := Int64.lt_iff_toInt_lt.1 hsmall
      refine ⟨0, rfl, fun w => iff_of_false HasWord.not_zero fun hw => ?_⟩
      exact absurd hw.2.wide (Int.not_le.2 hsmall)
    · rename_i hlarge
      have hlarge := Int64.le_iff_toInt_le.1 (Int64.not_lt.1 hlarge)
      refine ⟨_, rfl, fun w => ?_⟩
      rw [hasWord_foldl_iff, or_iff_right HasWord.not_zero]
      -- the words are counted from the offset
      have hcount : ((size / ptr).toInt.toNat : Int) = size.toInt / ptr.toInt := by
        rw [toInt_div_ptr_of_nonneg h hsize₀]
        rcases hptr with hptr | hptr | hptr <;> rw [hptr] <;> omega
      have hword : ∀ k : Nat, (k : Int) < size.toInt / ptr.toInt →
          (HasWord (wordBit (offset / ptr + Int64.ofNat k)) w ↔
            offset.toInt / ptr.toInt + k = w ∧ w < 64) := by
        intro k hk
        have hlt := offset.toInt_lt
        have hk₈ : k < 8 := by
          rcases hptr with hptr | hptr | hptr <;> rw [hptr] at hk <;> omega
        rw [hasWord_wordBit_iff, Int64.toInt_add, Int64.toInt_ofNat_of_lt (by omega),
          toInt_div_ptr_of_nonneg h hoffset]
        rcases hptr with hptr | hptr | hptr <;> rw [hptr] <;>
          rw [Int.bmod_eq_of_le (by omega) (by omega)]
      constructor
      · rintro ⟨k, hk, hw⟩
        have hk : (k : Int) < size.toInt / ptr.toInt := by
          rw [List.mem_range] at hk
          omega
        obtain ⟨hw, hlt⟩ := (hword k hk).1 hw
        refine ⟨hlt, hmod, hlarge, ?_, ?_⟩ <;>
          rcases hptr with hptr | hptr | hptr <;> rw [hptr] at hw hk hmod ⊢ <;> omega
      · rintro ⟨hlt, -, -, hlo, hhi⟩
        have hk : ((w - (offset.toInt / ptr.toInt).toNat : Nat) : Int) < size.toInt / ptr.toInt ∧
            offset.toInt / ptr.toInt + (w - (offset.toInt / ptr.toInt).toNat : Nat) = w := by
          rcases hptr with hptr | hptr | hptr <;> rw [hptr] at hlo hhi hmod ⊢ <;> omega
        refine ⟨w - (offset.toInt / ptr.toInt).toNat, ?_, (hword _ hk.1).2 ⟨hk.2, hlt⟩⟩
        rw [List.mem_range]
        omega
  · rw [if_pos hmod]
    refine ⟨0, rfl, fun w => iff_of_false HasWord.not_zero fun hw => ?_⟩
    exact hmod (halign.2 hw.2.aligned)

/-- A store that has the bit of a word writes all of it. -/
theorem overwrites_of_hasWord (h : isPointerSize ptr = true) {offset : Int64} {ty : Ty}
    {bits : UInt64} (hoffset : 0 ≤ offset.toInt) (hbits : writtenBits ptr offset ty = .ok bits)
    {w : Nat} (hw : HasWord bits w) :
    ∃ size, ty.size? ptr = some size ∧ Overwrites ptr offset size w := by
  cases hsize : ty.size? ptr with
  | none =>
    unfold writtenBits at hbits
    rw [if_neg (ptr_ne_zero h), hsize] at hbits
    split at hbits
    · cases hbits
      exact absurd hw HasWord.not_zero
    · cases hbits
  | some size =>
    obtain ⟨bits', hbits', hiff⟩ := exists_writtenBits h hoffset hsize
    rw [hbits, Except.ok.injEq] at hbits'
    exact ⟨size, rfl, ((hiff w).1 (hbits' ▸ hw)).2⟩

end Sizes

end StackFlow
