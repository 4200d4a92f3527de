import Mathlib.Data.Finset.Sort
import Mathlib.Data.Fintype.Basic
import StackFlow.Proofs.BlockSets

/-!
# Block sets as finite sets

A program cannot tell block sets with room for `n` indices from finite sets of the indices
below `n`.

* `Request` names what a program asks for, by the variables that it keeps sets in.
* `Request.onSets` gives the answers that finite sets give: every variable has a value of its own.
* `Request.onMemory` gives the answers that block sets give.  A variable refers to a cell of a
  `Memory`, a set is changed where it is, and a clone has a new cell.
* `Represents s S` says that the members of the block set `s` are those of the finite set `S`, and
  each operation has its lemma on it.  `Memory.Holds` says so of all variables, and that no two of
  them share a cell.
* `behaves_as_finset` is the main result.
-/

namespace StackFlow.BlockSet

/-! ## Requests -/

/-- A request to sets of indices below `n` that are kept in `k` variables. -/
inductive Request (n k : Nat) where
  /-- Puts a new set without members into `v`. -/
  | empty (v : Fin k)
  /-- Puts a new set of all indices into `v`. -/
  | full (v : Fin k)
  /-- Puts a clone of the set in `v` into `w`. -/
  | clone (v w : Fin k)
  /-- Adds an index to the set in `v`. -/
  | insert (v : Fin k) (i : Fin n)
  /-- Takes an index out of the set in `v`. -/
  | erase (v : Fin k) (i : Fin n)
  /-- Leaves in the set in `v` what the set in `w` has. -/
  | inter (v w : Fin k)
  /-- Leaves in the set in `v` what the set in `w` does not have. -/
  | diff (v w : Fin k)
  /-- Asks whether an index is in the set in `v`. -/
  | contains (v : Fin k) (i : Fin n)
  /-- Asks whether the sets in `v` and `w` are equal. -/
  | equal (v w : Fin k)
  /-- Asks for the number of members. -/
  | card (v : Fin k)
  /-- Asks for the list of the members. -/
  | toList (v : Fin k)
deriving DecidableEq

/-- The answer to a request. -/
inductive Answer where
  | done
  | truth (b : Bool)
  | number (m : Nat)
  | indices (is : List Nat)
deriving DecidableEq

/-- Serves requests one after the other. -/
def serveAll {ρ σ : Type} (serve : ρ → σ → Answer × σ) : List ρ → σ → List Answer × σ
  | [], s => ([], s)
  | r :: rs, s =>
    let (a, s) := serve r s
    let (as, s) := serveAll serve rs s
    (a :: as, s)

/-! ## Answers of finite sets -/

/-- A finite set for every variable. -/
abbrev Valuation (n k : Nat) := Fin k → Finset (Fin n)

/-- Serves a request on finite sets. -/
def Request.onSets {n k : Nat} : Request n k → Valuation n k → Answer × Valuation n k
  | .empty v, ρ => (.done, Function.update ρ v ∅)
  | .full v, ρ => (.done, Function.update ρ v Finset.univ)
  | .clone v w, ρ => (.done, Function.update ρ w (ρ v))
  | .insert v i, ρ => (.done, Function.update ρ v (Insert.insert i (ρ v)))
  | .erase v i, ρ => (.done, Function.update ρ v ((ρ v).erase i))
  | .inter v w, ρ => (.done, Function.update ρ v (ρ v ∩ ρ w))
  | .diff v w, ρ => (.done, Function.update ρ v (ρ v \ ρ w))
  | .contains v i, ρ => (.truth (decide (i ∈ ρ v)), ρ)
  | .equal v w, ρ => (.truth (decide (ρ v = ρ w)), ρ)
  | .card v, ρ => (.number (ρ v).card, ρ)
  | .toList v, ρ => (.indices ((ρ v).sort.map Fin.val), ρ)

/-! ## Answers of block sets -/

/-- Block sets in cells, and the cell that each variable refers to. -/
structure Memory (k : Nat) where
  cells : Array BlockSet
  cell : Fin k → Nat

namespace Memory

variable {k : Nat}

/-- Every variable refers to a set without members. -/
def start (n k : Nat) : Memory k := ⟨Array.replicate k (BlockSet.empty n), Fin.val⟩

/-- The set that a variable refers to. -/
def read (m : Memory k) (v : Fin k) : BlockSet := m.cells.getD (m.cell v) default

/-- Changes the set that a variable refers to, for all variables that refer to it. -/
def write (m : Memory k) (v : Fin k) (s : BlockSet) : Memory k :=
  { m with cells := m.cells.setIfInBounds (m.cell v) s }

/-- Makes a variable refer to a new set. -/
def bind (m : Memory k) (v : Fin k) (s : BlockSet) : Memory k :=
  ⟨m.cells.push s, Function.update m.cell v m.cells.size⟩

end Memory

/-- Serves a request on block sets. -/
def Request.onMemory {n k : Nat} : Request n k → Memory k → Answer × Memory k
  | .empty v, m => (.done, m.bind v (.empty n))
  | .full v, m => (.done, m.bind v (.full n))
  | .clone v w, m => (.done, m.bind w (m.read v))
  | .insert v i, m => (.done, m.write v ((m.read v).insert i))
  | .erase v i, m => (.done, m.write v ((m.read v).erase i))
  | .inter v w, m => (.done, m.write v ((m.read v).inter (m.read w)))
  | .diff v w, m => (.done, m.write v ((m.read v).diff (m.read w)))
  | .contains v i, m => (.truth ((m.read v).contains i), m)
  | .equal v w, m => (.truth (decide (m.read v = m.read w)), m)
  | .card v, m => (.number (m.read v).card, m)
  | .toList v, m => (.indices (m.read v).toList, m)

/-! ## One set -/

/-- The block set `s` stands for the finite set `S` of indices below `n`. -/
structure Represents {n : Nat} (s : BlockSet) (S : Finset (Fin n)) : Prop where
  sized : Sized n s
  contains_iff : ∀ i, s.contains i = true ↔ ∃ h : i < n, ⟨i, h⟩ ∈ S

namespace Represents

variable {n : Nat} {s t : BlockSet} {S T : Finset (Fin n)}

theorem empty (n : Nat) : (BlockSet.empty n).Represents (∅ : Finset (Fin n)) :=
  ⟨sized_empty n, by simp⟩

theorem full (n : Nat) : (BlockSet.full n).Represents (Finset.univ : Finset (Fin n)) :=
  ⟨sized_full n, by simp⟩

theorem insert (h : s.Represents S) (i : Fin n) :
    (s.insert i).Represents (Insert.insert i S) := by
  refine ⟨h.sized.insert i, fun j => ?_⟩
  rw [h.sized.contains_insert i.isLt, h.contains_iff]
  simp only [Finset.mem_insert, Fin.ext_iff]
  constructor
  · rintro (⟨hj, hmem⟩ | rfl)
    · exact ⟨hj, .inr hmem⟩
    · exact ⟨i.isLt, .inl rfl⟩
  · rintro ⟨hj, rfl | hmem⟩
    · exact .inr rfl
    · exact .inl ⟨hj, hmem⟩

theorem erase (h : s.Represents S) (i : Fin n) : (s.erase i).Represents (S.erase i) := by
  refine ⟨h.sized.erase i, fun j => ?_⟩
  rw [contains_erase, h.contains_iff]
  simp only [Finset.mem_erase, ne_eq, Fin.ext_iff]
  exact ⟨fun ⟨⟨hj, hmem⟩, hne⟩ => ⟨hj, Ne.symm hne, hmem⟩,
    fun ⟨hj, hne, hmem⟩ => ⟨⟨hj, hmem⟩, Ne.symm hne⟩⟩

theorem inter (hs : s.Represents S) (ht : t.Represents T) : (s.inter t).Represents (S ∩ T) := by
  refine ⟨hs.sized.inter ht.sized, fun i => ?_⟩
  rw [contains_inter, Bool.and_eq_true, hs.contains_iff, ht.contains_iff]
  simp only [Finset.mem_inter]
  exact ⟨fun ⟨⟨hi, hS⟩, _, hT⟩ => ⟨hi, hS, hT⟩, fun ⟨hi, hS, hT⟩ => ⟨⟨hi, hS⟩, hi, hT⟩⟩

theorem diff (hs : s.Represents S) (ht : t.Represents T) : (s.diff t).Represents (S \ T) := by
  refine ⟨hs.sized.diff ht.sized, fun i => ?_⟩
  rw [contains_diff (hs.sized.trans ht.sized.symm), Bool.and_eq_true, Bool.not_eq_true',
    Bool.eq_false_iff, ne_eq, hs.contains_iff, ht.contains_iff]
  simp only [Finset.mem_sdiff]
  exact ⟨fun ⟨⟨hi, hS⟩, hT⟩ => ⟨hi, hS, fun hmem => hT ⟨hi, hmem⟩⟩,
    fun ⟨hi, hS, hT⟩ => ⟨⟨hi, hS⟩, fun ⟨_, hmem⟩ => hT hmem⟩⟩

theorem contains_eq (h : s.Represents S) (i : Fin n) : s.contains i = decide (i ∈ S) := by
  rw [Bool.eq_iff_iff, h.contains_iff, decide_eq_true_eq]
  exact exists_prop_of_true i.isLt

/-- A finite set is represented in one way only. -/
theorem eq_iff (hs : s.Represents S) (ht : t.Represents T) : s = t ↔ S = T := by
  constructor
  · rintro rfl
    ext i
    rw [← decide_eq_true_eq (p := i ∈ S), ← hs.contains_eq, ht.contains_eq, decide_eq_true_eq]
  · rintro rfl
    exact hs.sized.ext ht.sized fun i => (hs.contains_iff i).trans (ht.contains_iff i).symm

theorem toList_eq (h : s.Represents S) : s.toList = S.sort.map Fin.val := by
  refine s.sorted_toList.eq_of_mem_iff (List.pairwise_map.2 S.sortedLT_sort.pairwise) fun i => ?_
  rw [mem_toList, h.contains_iff, List.mem_map]
  constructor
  · rintro ⟨hi, hmem⟩
    exact ⟨⟨i, hi⟩, (Finset.mem_sort _).2 hmem, rfl⟩
  · rintro ⟨i, hmem, rfl⟩
    exact ⟨i.isLt, (Finset.mem_sort _).1 hmem⟩

theorem card_eq (h : s.Represents S) : s.card = S.card := by
  rw [card_eq_length, h.toList_eq, List.length_map, Finset.length_sort]

end Represents

/-! ## All variables -/

namespace Memory

section Cells

variable {k : Nat} {m : Memory k} {u v : Fin k} {s : BlockSet}

theorem read_start (n : Nat) (v : Fin k) : (start n k).read v = BlockSet.empty n := by
  simp [start, read]

theorem read_write_self (h : m.cell v < m.cells.size) : (m.write v s).read v = s := by
  simp [write, read, h]

theorem read_write_of_ne (h : m.cell u ≠ m.cell v) : (m.write v s).read u = m.read u := by
  simp [write, read, Array.getElem?_setIfInBounds_ne h.symm]

theorem cell_bind_self : (m.bind v s).cell v = m.cells.size := Function.update_self ..

theorem cell_bind_of_ne (h : u ≠ v) : (m.bind v s).cell u = m.cell u := Function.update_of_ne h ..

theorem read_bind_self : (m.bind v s).read v = s := by
  rw [read, cell_bind_self]
  simp [bind]

theorem read_bind_of_ne (h : u ≠ v) (hu : m.cell u < m.cells.size) :
    (m.bind v s).read u = m.read u := by
  rw [read, read, cell_bind_of_ne h]
  simp [bind, Array.getElem?_push_lt hu, hu]

end Cells

variable {n k : Nat} {m : Memory k} {ρ : Valuation n k} {s : BlockSet} {S : Finset (Fin n)}

/-- Every variable refers to a cell of its own, with a set that stands for the value of the
variable. -/
structure Holds (m : Memory k) (ρ : Valuation n k) : Prop where
  allocated : ∀ v, m.cell v < m.cells.size
  apart : Function.Injective m.cell
  represents : ∀ v, (m.read v).Represents (ρ v)

theorem holds_start (n k : Nat) : (start n k).Holds fun _ => (∅ : Finset (Fin n)) where
  allocated v := by simp [start]
  apart := Fin.val_injective
  represents v := by
    rw [read_start]
    exact .empty n

/-- A change of one set is seen through one variable only. -/
theorem Holds.write (h : m.Holds ρ) (v : Fin k) (hs : s.Represents S) :
    (m.write v s).Holds (Function.update ρ v S) where
  allocated u := by simpa [Memory.write] using h.allocated u
  apart := h.apart
  represents u := by
    by_cases hu : u = v
    · subst hu
      rwa [read_write_self (h.allocated u), Function.update_self]
    · rw [read_write_of_ne fun heq => hu (h.apart heq), Function.update_of_ne hu]
      exact h.represents u

/-- A new set is referred to by one variable only. -/
theorem Holds.bind (h : m.Holds ρ) (v : Fin k) (hs : s.Represents S) :
    (m.bind v s).Holds (Function.update ρ v S) where
  allocated u := by
    have hsize : (m.bind v s).cells.size = m.cells.size + 1 := Array.size_push s
    rw [hsize]
    by_cases hu : u = v
    · rw [hu, cell_bind_self]
      exact Nat.lt_succ_self _
    · rw [cell_bind_of_ne hu]
      exact Nat.lt_succ_of_lt (h.allocated u)
  apart := by
    -- the new cell is none of those that were there
    have hfresh : ∀ {u}, u ≠ v → (m.bind v s).cell u ≠ (m.bind v s).cell v := fun hu => by
      rw [cell_bind_of_ne hu, cell_bind_self]
      exact Nat.ne_of_lt (h.allocated _)
    intro u u' heq
    by_cases hu : u = v
    · subst hu
      by_contra hu'
      exact hfresh (Ne.symm hu') heq.symm
    · by_cases hu' : u' = v
      · exact absurd (hu' ▸ heq) (hfresh hu)
      · rw [cell_bind_of_ne hu, cell_bind_of_ne hu'] at heq
        exact h.apart heq
  represents u := by
    by_cases hu : u = v
    · subst hu
      rwa [read_bind_self, Function.update_self]
    · rw [read_bind_of_ne hu (h.allocated u), Function.update_of_ne hu]
      exact h.represents u

/-- A request gets the answer that finite sets give. -/
theorem Holds.serve (h : m.Holds ρ) (r : Request n k) :
    (r.onMemory m).1 = (r.onSets ρ).1 ∧ (r.onMemory m).2.Holds (r.onSets ρ).2 := by
  have hrep := h.represents
  cases r with
  | empty v => exact ⟨rfl, h.bind v (.empty n)⟩
  | full v => exact ⟨rfl, h.bind v (.full n)⟩
  | clone v w => exact ⟨rfl, h.bind w (hrep v)⟩
  | insert v i => exact ⟨rfl, h.write v ((hrep v).insert i)⟩
  | erase v i => exact ⟨rfl, h.write v ((hrep v).erase i)⟩
  | inter v w => exact ⟨rfl, h.write v ((hrep v).inter (hrep w))⟩
  | diff v w => exact ⟨rfl, h.write v ((hrep v).diff (hrep w))⟩
  | contains v i => exact ⟨congrArg Answer.truth ((hrep v).contains_eq i), h⟩
  | equal v w => exact ⟨congrArg Answer.truth (decide_eq_decide.2 ((hrep v).eq_iff (hrep w))), h⟩
  | card v => exact ⟨congrArg Answer.number (hrep v).card_eq, h⟩
  | toList v => exact ⟨congrArg Answer.indices (hrep v).toList_eq, h⟩

theorem Holds.serveAll (h : m.Holds ρ) (rs : List (Request n k)) :
    (BlockSet.serveAll Request.onMemory rs m).1 = (BlockSet.serveAll Request.onSets rs ρ).1 ∧
      (BlockSet.serveAll Request.onMemory rs m).2.Holds
        (BlockSet.serveAll Request.onSets rs ρ).2 := by
  induction rs generalizing m ρ with
  | nil => exact ⟨rfl, h⟩
  | cons r rs ih =>
    obtain ⟨hanswer, hnext⟩ := h.serve r
    obtain ⟨hanswers, hlast⟩ := ih hnext
    exact ⟨congrArg₂ List.cons hanswer hanswers, hlast⟩

end Memory

/-- Block sets answer all requests of a program as finite sets do, and every variable ends with
the members that its finite set has then. -/
theorem behaves_as_finset (n k : Nat) (rs : List (Request n k)) :
    (serveAll Request.onMemory rs (Memory.start n k)).1 =
        (serveAll Request.onSets rs fun _ => ∅).1 ∧
      (serveAll Request.onMemory rs (Memory.start n k)).2.Holds
        (serveAll Request.onSets rs fun _ => ∅).2 :=
  (Memory.holds_start n k).serveAll rs

/-- A clone keeps the members that its original had, also the one in the second word. -/
example :
    let requests : List (Request 65 2) :=
      [.full 0, .clone 0 1, .erase 0 64, .card 0, .contains 1 64, .equal 0 1]
    (serveAll Request.onMemory requests (Memory.start 65 2)).1 =
      [.done, .done, .done, .number 64, .truth true, .truth false] := by
  cbv

end StackFlow.BlockSet
