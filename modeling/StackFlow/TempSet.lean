/-!
# Sets of temporaries

A finite set of temporaries, kept as a strictly ascending list.  Two sets with the
same members are therefore the same value.

* `insert`, `erase`, `filter` and `union` keep the order, which is part of the type.
* `mem_insert`, `mem_erase`, `mem_filter` and `mem_union` say what they do to the
  members, and `ext_mem` that the members are all there is.
-/

namespace StackFlow

/-- A finite set of temporaries. -/
structure TempSet where
  /-- The members in ascending order. -/
  toList : List Int64
  sorted : toList.Pairwise (· < ·)
deriving DecidableEq

namespace TempSet

instance : Membership Int64 TempSet := ⟨fun s t => t ∈ s.toList⟩

instance (t : Int64) (s : TempSet) : Decidable (t ∈ s) :=
  inferInstanceAs (Decidable (t ∈ s.toList))

theorem mem_def {t : Int64} {s : TempSet} : t ∈ s ↔ t ∈ s.toList := Iff.rfl

/-- The set without members. -/
def empty : TempSet := ⟨[], .nil⟩

instance : EmptyCollection TempSet := ⟨empty⟩

instance : Inhabited TempSet := ⟨empty⟩

/-- Whether the set has no members. -/
def isEmpty (s : TempSet) : Bool := s.toList.isEmpty

/-- Whether `t` is a member. -/
def contains (s : TempSet) (t : Int64) : Bool := s.toList.contains t

/-- Puts `t` in its place in an ascending list, unless it is there already. -/
def place (t : Int64) : List Int64 → List Int64
  | [] => [t]
  | u :: us => if t < u then t :: u :: us else if t = u then u :: us else u :: place t us

@[simp] theorem mem_place {t u : Int64} {us : List Int64} :
    u ∈ place t us ↔ u = t ∨ u ∈ us := by
  induction us with
  | nil => simp [place]
  | cons v us ih =>
    rw [place]
    split
    · simp
    · split
      · next h => simp [h]
      · simp [ih, or_left_comm]

theorem sorted_place {t : Int64} {us : List Int64} (h : us.Pairwise (· < ·)) :
    (place t us).Pairwise (· < ·) := by
  induction us with
  | nil => simp [place]
  | cons v us ih =>
    rw [List.pairwise_cons] at h
    rw [place]
    split
    · next hlt =>
      refine List.pairwise_cons.2 ⟨fun a ha => ?_, List.pairwise_cons.2 h⟩
      rcases List.mem_cons.1 ha with rfl | ha
      · exact hlt
      · exact Int64.lt_trans hlt (h.1 a ha)
    · split
      · exact List.pairwise_cons.2 h
      · next hlt hne =>
        refine List.pairwise_cons.2 ⟨fun a ha => ?_, ih h.2⟩
        rcases mem_place.1 ha with rfl | ha
        · rw [Int64.lt_iff_toInt_lt] at hlt ⊢
          have : a.toInt ≠ v.toInt := fun e => hne (Int64.toInt_inj.1 e)
          omega
        · exact h.1 a ha

/-- The set with `t` added. -/
def insert (s : TempSet) (t : Int64) : TempSet := ⟨place t s.toList, sorted_place s.sorted⟩

/-- The members for which `f` holds. -/
def filter (f : Int64 → Bool) (s : TempSet) : TempSet :=
  ⟨s.toList.filter f, s.sorted.filter f⟩

/-- The set with `t` taken out. -/
def erase (s : TempSet) (t : Int64) : TempSet := s.filter (· ≠ t)

/-- The set of the members of a list. -/
def ofList (ts : List Int64) : TempSet := ts.foldl insert ∅

/-- The members of either set. -/
def union (s t : TempSet) : TempSet := t.toList.foldl insert s

instance : Union TempSet := ⟨union⟩

/-- The members of both sets. -/
def inter (s t : TempSet) : TempSet := s.filter t.contains

instance : Inter TempSet := ⟨inter⟩

/-- The members of `s` that are not in `t`. -/
def diff (s t : TempSet) : TempSet := s.filter (!t.contains ·)

instance : SDiff TempSet := ⟨diff⟩

/-- Whether every member of `s` is in `t`. -/
def isSubset (s t : TempSet) : Bool := s.toList.all t.contains

/-- The smallest member. -/
def min? (s : TempSet) : Option Int64 := s.toList.head?

/-- The members in decimal, separated by commas. -/
def listing (s : TempSet) : String :=
  String.intercalate ", " (s.toList.map fun t => toString t.toInt)

/-- The members as temporaries `t0, t1, …` in braces. -/
def text (s : TempSet) : String :=
  "\x7b" ++ String.intercalate ", " (s.toList.map fun t => s!"t{t.toInt}") ++ "\x7d"

/-! ## Members -/

@[simp] theorem not_mem_empty {t : Int64} : ¬ t ∈ (∅ : TempSet) := List.not_mem_nil

@[simp] theorem contains_iff {s : TempSet} {t : Int64} : s.contains t = true ↔ t ∈ s :=
  List.contains_iff_mem

@[simp] theorem mem_insert {s : TempSet} {t u : Int64} : u ∈ s.insert t ↔ u = t ∨ u ∈ s :=
  mem_place

@[simp] theorem mem_filter {s : TempSet} {f : Int64 → Bool} {t : Int64} :
    t ∈ s.filter f ↔ t ∈ s ∧ f t = true :=
  List.mem_filter

@[simp] theorem mem_erase {s : TempSet} {t u : Int64} : u ∈ s.erase t ↔ u ∈ s ∧ u ≠ t := by
  simp [erase]

theorem mem_foldl_insert {ts : List Int64} {s : TempSet} {t : Int64} :
    t ∈ ts.foldl insert s ↔ t ∈ s ∨ t ∈ ts := by
  induction ts generalizing s with
  | nil => simp
  | cons u us ih => simp [ih, or_assoc, or_left_comm]

@[simp] theorem mem_ofList {ts : List Int64} {t : Int64} : t ∈ ofList ts ↔ t ∈ ts := by
  simp [ofList, mem_foldl_insert]

@[simp] theorem mem_union {s t : TempSet} {u : Int64} : u ∈ s ∪ t ↔ u ∈ s ∨ u ∈ t :=
  mem_foldl_insert

@[simp] theorem mem_inter {s t : TempSet} {u : Int64} : u ∈ s ∩ t ↔ u ∈ s ∧ u ∈ t := by
  simp [Inter.inter, inter]

@[simp] theorem mem_sdiff {s t : TempSet} {u : Int64} : u ∈ s \ t ↔ u ∈ s ∧ ¬ u ∈ t := by
  rw [show s \ t = s.filter (!t.contains ·) from rfl, mem_filter, Bool.not_eq_true',
    Bool.eq_false_iff, ne_eq, contains_iff]

theorem eq_of_mem_iff : ∀ {as bs : List Int64}, as.Pairwise (· < ·) → bs.Pairwise (· < ·) →
    (∀ t, t ∈ as ↔ t ∈ bs) → as = bs
  | [], [], _, _, _ => rfl
  | [], b :: _, _, _, h => absurd ((h b).2 List.mem_cons_self) List.not_mem_nil
  | a :: _, [], _, _, h => absurd ((h a).1 List.mem_cons_self) List.not_mem_nil
  | a :: as, b :: bs, ha, hb, h => by
    rw [List.pairwise_cons] at ha hb
    have hab : a = b := by
      rcases List.mem_cons.1 ((h a).1 List.mem_cons_self) with e | hm
      · exact e
      · rcases List.mem_cons.1 ((h b).2 List.mem_cons_self) with e | hm'
        · exact e.symm
        · exact absurd (Int64.lt_trans (hb.1 a hm) (ha.1 b hm')) (Int64.lt_irrefl)
    subst hab
    have tails : ∀ t, t ∈ as ↔ t ∈ bs := fun t => by
      have ht := h t
      rw [List.mem_cons, List.mem_cons] at ht
      constructor
      · intro m
        rcases ht.1 (.inr m) with rfl | m'
        · exact absurd (ha.1 _ m) Int64.lt_irrefl
        · exact m'
      · intro m
        rcases ht.2 (.inr m) with rfl | m'
        · exact absurd (hb.1 _ m) Int64.lt_irrefl
        · exact m'
    rw [eq_of_mem_iff ha.2 hb.2 tails]

theorem nodup (s : TempSet) : s.toList.Nodup := by
  refine List.Pairwise.imp ?_ s.sorted
  rintro a _ hlt rfl
  exact Int64.lt_irrefl hlt

/-- A set is determined by its members. -/
theorem ext_mem {s t : TempSet} (h : ∀ u, u ∈ s ↔ u ∈ t) : s = t := by
  cases s; cases t
  congr
  exact eq_of_mem_iff ‹_› ‹_› h

end TempSet

end StackFlow
