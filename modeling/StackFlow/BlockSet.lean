/-!
# Sets of block indices

A set of the indices below some bound, one bit per index in words of 64 bits.  An
index beyond the last word is not spanned by the set: it is never a member, and
adding or removing it changes nothing.

The members are listed and counted word by word; a word is read by taking its lowest bit
off until none is left.
-/

namespace StackFlow

/-- A set of block indices, one bit each. -/
structure BlockSet where
  words : Array UInt64
deriving DecidableEq, Inhabited

namespace BlockSet

/-- The bit of index `i` within its word. -/
def bit (i : Nat) : UInt64 := 1 <<< (i % 64).toUInt64

/-- No members, with room for the indices below `n`. -/
def empty (n : Nat) : BlockSet := ⟨Array.replicate ((n + 63) / 64) 0⟩

/-- Whether there is a word for index `i`. -/
def spans (s : BlockSet) (i : Nat) : Bool := i / 64 < s.words.size

/-- Whether `i` is a member. -/
def contains (s : BlockSet) (i : Nat) : Bool := (s.words[i / 64]?.getD 0) &&& bit i ≠ 0

/-- The set with `i` added. -/
def insert (s : BlockSet) (i : Nat) : BlockSet := ⟨s.words.modify (i / 64) (· ||| bit i)⟩

/-- The set with `i` taken out. -/
def erase (s : BlockSet) (i : Nat) : BlockSet := ⟨s.words.modify (i / 64) (· &&& ~~~bit i)⟩

/-- All indices below `n`. -/
def full (n : Nat) : BlockSet := (List.range n).foldl insert (empty n)

/-- The members of both sets. -/
def inter (s t : BlockSet) : BlockSet := ⟨Array.zipWith (· &&& ·) s.words t.words⟩

/-- The members of `s` that are not in `t`. -/
def diff (s t : BlockSet) : BlockSet := ⟨Array.zipWith (fun a b => a &&& ~~~b) s.words t.words⟩

/-- The place of the lowest bit that is set in a word, and 64 if there is none. -/
def lowest (w : UInt64) : Nat := (List.range 64).findIdx w.toNat.testBit

theorem toNat_pred {w : UInt64} (h : w ≠ 0) : (w - 1).toNat = w.toNat - 1 := by
  have hpos : 0 < w.toNat := Nat.pos_of_ne_zero fun hzero => h (UInt64.toNat_inj.1 hzero)
  exact UInt64.toNat_sub_of_le _ _ (UInt64.le_iff_toNat_le.2 hpos)

theorem toNat_and_pred_lt {w : UInt64} (h : w ≠ 0) : (w &&& (w - 1)).toNat < w.toNat := by
  have hne : w.toNat ≠ 0 := fun hzero => h (UInt64.toNat_inj.1 hzero)
  rw [UInt64.toNat_and, toNat_pred h]
  exact Nat.lt_of_le_of_lt Nat.and_le_right (Nat.sub_one_lt hne)

/-- The places of the bits that are set in a word: the lowest bit is taken off until none
is left. -/
def places (w : UInt64) : List Nat :=
  if h : w = 0 then [] else lowest w :: places (w &&& (w - 1))
termination_by w.toNat
decreasing_by exact toNat_and_pred_lt h

/-- The members in ascending order. -/
def toList (s : BlockSet) : List Nat :=
  s.words.toList.zipIdx.flatMap fun p => (places p.1).map (64 * p.2 + ·)

/-- The number of members. -/
def card (s : BlockSet) : Nat := s.words.toList.foldl (fun m w => m + w.toBitVec.cpop.toNat) 0

end BlockSet

end StackFlow
