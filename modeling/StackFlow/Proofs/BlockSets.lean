import StackFlow.Proofs.Bits

/-!
# The members of block sets

* `contains_eq_testBit` reads membership off the bits of the words.
* `contains_empty`, `contains_insert`, `contains_erase`, `contains_inter`, `contains_diff` and
  `contains_full` say what the operations do to the members.
* `mem_toList` and `sorted_toList` say that the list of a set holds its members in ascending
  order, and `card_eq_length` that they are counted once each.
* `Sized n s` says that the words of `s` are those of the indices below `n`, which every
  operation keeps.
* `Sized.ext` says that sets of the same size are determined by their members.
-/

namespace StackFlow.BlockSet

variable {s t : BlockSet} {n i j : Nat}

theorem toNat_bit (i : Nat) : (bit i).toNat = 2 ^ (i % 64) := by
  have hlt : i % 64 < 64 := Nat.mod_lt i (by omega)
  have hshift : (i % 64).toUInt64.toNat = i % 64 := by
    rw [UInt64.toNat_ofNat']
    exact Nat.mod_eq_of_lt (by omega)
  have hpow : 2 ^ (i % 64) < 2 ^ 64 := Nat.pow_lt_pow_right (by omega) hlt
  rw [bit, UInt64.toNat_shiftLeft, hshift, Nat.mod_eq_of_lt hlt, Nat.shiftLeft_eq,
    UInt64.toNat_one, Nat.one_mul]
  exact Nat.mod_eq_of_lt hpow

theorem contains_eq_testBit (s : BlockSet) (i : Nat) :
    s.contains i = (s.words[i / 64]?.getD 0).toNat.testBit (i % 64) := by
  rw [contains, Bool.eq_iff_iff, decide_eq_true_eq, ne_eq, ← UInt64.toNat_inj, UInt64.toNat_and,
    toNat_bit, Nat.and_two_pow]
  cases (s.words[i / 64]?.getD 0).toNat.testBit (i % 64) <;> simp

/-! ## Members -/

@[simp] theorem contains_empty : (empty n).contains i = false := by
  rw [contains_eq_testBit, empty, Array.getElem?_replicate]
  split <;> simp

theorem contains_insert :
    (s.insert i).contains j = true ↔ s.contains j = true ∨ i = j ∧ s.spans i = true := by
  simp only [contains_eq_testBit, insert, spans, decide_eq_true_eq, Array.getElem?_modify]
  split
  · rename_i hword
    rcases Nat.lt_or_ge (i / 64) s.words.size with hlt | hge
    · rw [← hword, Array.getElem?_eq_getElem hlt]
      simp only [Option.map_some, Option.getD_some, UInt64.toNat_or, Nat.testBit_or, toNat_bit,
        Nat.testBit_two_pow, Bool.or_eq_true, decide_eq_true_eq, hlt, and_true]
      refine or_congr_right ⟨fun hbit => ?_, fun hij => hij ▸ rfl⟩
      omega
    · rw [← hword, Array.getElem?_eq_none hge]
      simp
      omega
  · rename_i hword
    refine ⟨.inl, fun h => h.resolve_right ?_⟩
    rintro ⟨rfl, _⟩
    exact hword rfl

theorem contains_erase : (s.erase i).contains j = true ↔ s.contains j = true ∧ i ≠ j := by
  simp only [contains_eq_testBit, erase, Array.getElem?_modify]
  split
  · rename_i hword
    rw [← hword]
    cases s.words[i / 64]? with
    | none => simp
    | some w =>
      simp only [Option.map_some, Option.getD_some, testBit_andNot, toNat_bit,
        Nat.testBit_two_pow, Bool.and_eq_true, Bool.not_eq_true', decide_eq_false_iff_not]
      refine and_congr_right fun _ => not_congr ⟨fun hbit => ?_, fun hij => hij ▸ rfl⟩
      omega
  · rename_i hword
    refine (and_iff_left ?_).symm
    rintro rfl
    exact hword rfl

@[simp] theorem contains_inter :
    (s.inter t).contains i = (s.contains i && t.contains i) := by
  simp only [contains_eq_testBit, inter, Array.getElem?_zipWith]
  cases s.words[i / 64]? <;> cases t.words[i / 64]? <;> simp

theorem contains_diff (hsize : s.words.size = t.words.size) :
    (s.diff t).contains i = (s.contains i && !t.contains i) := by
  simp only [contains_eq_testBit, diff, Array.getElem?_zipWith]
  rcases Nat.lt_or_ge (i / 64) s.words.size with hlt | hge
  · rw [Array.getElem?_eq_getElem hlt, Array.getElem?_eq_getElem (hsize ▸ hlt)]
    exact testBit_andNot
  · rw [Array.getElem?_eq_none hge]
    simp

theorem contains_foldl_inter {is : List Nat} {f : Nat → BlockSet} :
    (is.foldl (fun s j => s.inter (f j)) s).contains i = true ↔
      s.contains i = true ∧ ∀ j ∈ is, (f j).contains i = true := by
  induction is generalizing s with
  | nil => simp
  | cons j is ih => simp [ih, and_assoc]

@[simp] theorem mem_toList : i ∈ s.toList ↔ s.contains i = true := by
  rw [contains_eq_testBit, toList, List.mem_flatMap]
  constructor
  · rintro ⟨⟨w, k⟩, hword, hi⟩
    obtain ⟨b, hb, rfl⟩ := List.mem_map.1 hi
    have hbit := mem_places.1 hb
    have hlt := lt_of_testBit hbit
    rw [List.mem_zipIdx_iff_getElem?, Array.getElem?_toList] at hword
    have hdiv : (64 * k + b) / 64 = k := by omega
    have hmod : (64 * k + b) % 64 = b := by omega
    rw [hdiv, hmod, hword]
    exact hbit
  · intro hbit
    cases hword : s.words[i / 64]? with
    | none =>
      rw [hword] at hbit
      simp at hbit
    | some w =>
      rw [hword] at hbit
      refine ⟨(w, i / 64), List.mem_zipIdx_iff_getElem?.2 ?_,
        List.mem_map.2 ⟨i % 64, mem_places.2 hbit, Nat.div_add_mod i 64⟩⟩
      rw [Array.getElem?_toList, hword]

theorem sorted_toList (s : BlockSet) : s.toList.Pairwise (· < ·) := by
  have hindices : (s.words.toList.zipIdx.map Prod.snd).Pairwise (· < ·) := by
    rw [List.zipIdx_map_snd]
    exact List.pairwise_lt_range'
  rw [toList, List.pairwise_flatMap]
  refine ⟨fun p _ => ?_, (List.pairwise_map.1 hindices).imp fun {p q} hlt i hi j hj => ?_⟩
  · exact List.pairwise_map.2 ((sorted_places p.1).imp fun hlt => Nat.add_lt_add_left hlt _)
  · -- the bits of a word stay below the indices of the next
    obtain ⟨b, hb, rfl⟩ := List.mem_map.1 hi
    obtain ⟨c, _, rfl⟩ := List.mem_map.1 hj
    have hb := lt_of_testBit (mem_places.1 hb)
    omega

theorem foldl_cpop (ws : List UInt64) (m k : Nat) :
    ws.foldl (fun m w => m + w.toBitVec.cpop.toNat) m =
      m + ((ws.zipIdx k).flatMap fun p => (places p.1).map (64 * p.2 + ·)).length := by
  induction ws generalizing m k with
  | nil => rfl
  | cons w ws ih =>
    rw [List.foldl_cons, ih _ (k + 1), List.zipIdx_cons, List.flatMap_cons, List.length_append,
      List.length_map, length_places, Nat.add_assoc]

/-- The members are counted once each. -/
theorem card_eq_length (s : BlockSet) : s.card = s.toList.length := by
  rw [card, foldl_cpop _ 0 0, Nat.zero_add, toList]

/-! ## Sets of one size -/

/-- The words of `s` are those of the indices below `n`. -/
def Sized (n : Nat) (s : BlockSet) : Prop := s.words.size = (n + 63) / 64

theorem sized_empty (n : Nat) : Sized n (empty n) := by simp [Sized, empty]

theorem Sized.insert (h : Sized n s) (i : Nat) : Sized n (s.insert i) := by
  simpa [Sized, BlockSet.insert] using h

theorem Sized.erase (h : Sized n s) (i : Nat) : Sized n (s.erase i) := by
  simpa [Sized, BlockSet.erase] using h

theorem Sized.inter (hs : Sized n s) (ht : Sized n t) : Sized n (s.inter t) := by
  unfold Sized at hs ht
  simp [Sized, BlockSet.inter, hs, ht]

theorem Sized.diff (hs : Sized n s) (ht : Sized n t) : Sized n (s.diff t) := by
  unfold Sized at hs ht
  simp [Sized, BlockSet.diff, hs, ht]

theorem Sized.foldl_inter {is : List Nat} {f : Nat → BlockSet} (hs : Sized n s)
    (h : ∀ j ∈ is, Sized n (f j)) : Sized n (is.foldl (fun s j => s.inter (f j)) s) := by
  induction is generalizing s with
  | nil => exact hs
  | cons j is ih =>
    exact ih (hs.inter (h j List.mem_cons_self)) fun k hk => h k (List.mem_cons_of_mem _ hk)

theorem Sized.spans (h : Sized n s) (hi : i < n) : s.spans i = true := by
  unfold Sized at h
  rw [BlockSet.spans, h, decide_eq_true_eq]
  omega

theorem Sized.contains_insert (h : Sized n s) (hi : i < n) :
    (s.insert i).contains j = true ↔ s.contains j = true ∨ i = j := by
  rw [BlockSet.contains_insert, h.spans hi]
  simp

/-- Sets of the same size are determined by their members. -/
theorem Sized.ext (hs : Sized n s) (ht : Sized n t)
    (h : ∀ i, s.contains i = true ↔ t.contains i = true) : s = t := by
  have hsize : s.words.size = t.words.size := hs.trans ht.symm
  have hwords : s.words = t.words := by
    refine Array.ext hsize fun k hk hk' => UInt64.toNat_inj.1 (Nat.eq_of_testBit_eq fun b => ?_)
    rcases Nat.lt_or_ge b 64 with hb | hb
    · have hbit := h (64 * k + b)
      have hdiv : (64 * k + b) / 64 = k := by omega
      have hmod : (64 * k + b) % 64 = b := by omega
      rw [contains_eq_testBit, contains_eq_testBit, hdiv, hmod, Array.getElem?_eq_getElem hk,
        Array.getElem?_eq_getElem hk'] at hbit
      exact Bool.eq_iff_iff.2 hbit
    · have hnone : ∀ w : UInt64, w.toNat.testBit b = false := fun w =>
        Bool.eq_false_iff.2 fun hbit => Nat.not_lt.2 hb (lt_of_testBit hbit)
      rw [hnone, hnone]
  cases s
  cases t
  exact congrArg BlockSet.mk hwords

theorem sized_foldl_insert (is : List Nat) (h : Sized n s) :
    Sized n (is.foldl BlockSet.insert s) := by
  induction is generalizing s with
  | nil => exact h
  | cons i is ih => exact ih (h.insert i)

theorem contains_foldl_insert {is : List Nat} (h : Sized n s) (his : ∀ i ∈ is, i < n) :
    (is.foldl BlockSet.insert s).contains j = true ↔ s.contains j = true ∨ j ∈ is := by
  induction is generalizing s with
  | nil => simp
  | cons i is ih =>
    rw [List.foldl_cons, ih (h.insert i) fun k hk => his k (List.mem_cons_of_mem _ hk),
      h.contains_insert (his i List.mem_cons_self), List.mem_cons, or_assoc, eq_comm (a := i)]

theorem sized_full (n : Nat) : Sized n (full n) := sized_foldl_insert _ (sized_empty n)

@[simp] theorem contains_full : (full n).contains i = true ↔ i < n := by
  rw [full, contains_foldl_insert (sized_empty n) fun _ => List.mem_range.1]
  simp

end StackFlow.BlockSet
