import Mathlib.Data.List.Count
import Mathlib.Logic.Relation
import Mathlib.Order.Bounds.Basic
import StackFlow.Elision.Parents

/-!
# Classes as trees

* `Represents f c` says that the trees of `f` stand for the classes that `c` names: parents are
  smaller, they have been seen, and the name of a class is its root.
* Climbing does not change what the trees stand for and ends at the root
  (`Represents.find`): the way up gets to a smaller temporary with every step, and there are
  not more of them than temporaries that have been seen.
* `Represents.track` and `Represents.unite` say what tracking and uniting do to the names:
  nothing, and `rename`.
* `Exact R c` says that the classes that `c` names are those of the equivalence that `R` generates,
  and `Exact.rename` that one pair more of `R` is one union more.
-/

namespace StackFlow.Parents

open Relation

variable {f : Parents} {c : Int64 → Int64} {t u a b : Int64}

/-! ## Keys and parents -/

@[simp] theorem mem_keys_set : u ∈ (f.set t a).keys ↔ u = t ∨ u ∈ f.keys := TempSet.mem_insert

@[simp] theorem parent_set : (f.set t a).parent u = if u = t then a else f.parent u := rfl

theorem keys_set (ht : t ∈ f.keys) : (f.set t a).keys = f.keys :=
  TempSet.ext_mem fun u => by
    rw [mem_keys_set, or_iff_right_iff_imp]
    rintro rfl
    exact ht

theorem mem_keys_track : u ∈ (f.track t).keys ↔ u = t ∨ u ∈ f.keys := by
  unfold track
  split
  · rename_i ht
    exact (or_iff_right_of_imp fun heq => heq ▸ ht).symm
  · exact mem_keys_set

/-- The number of temporaries below `t` that have been seen. -/
def below (f : Parents) (t : Int64) : Nat := f.keys.toList.countP (· < t)

theorem below_lt (ha : a ∈ f.keys) (hle : b ≤ a) (hlt : a < t) : f.below b < f.below t := by
  obtain ⟨xs, ys, hkeys⟩ := List.append_of_mem (TempSet.mem_def.1 ha)
  have hmono : ∀ zs : List Int64, zs.countP (· < b) ≤ zs.countP (· < t) := fun zs =>
    List.countP_mono_left fun u _ hu => by
      rw [decide_eq_true_eq] at hu ⊢
      exact Int64.lt_trans hu (Int64.lt_of_le_of_lt hle hlt)
  have hxs := hmono xs
  have hys := hmono ys
  have hnot : ¬ a < b := Int64.not_lt.2 hle
  simp only [below, hkeys, List.countP_append, List.countP_cons, decide_eq_true_eq, hlt, hnot,
    if_true, if_false]
  omega

theorem below_lt_length (ht : t ∈ f.keys) : f.below t < f.keys.toList.length :=
  List.countP_lt_length_iff.2 ⟨t, ht, decide_eq_false Int64.lt_irrefl⟩

/-! ## What the trees stand for -/

/-- The trees stand for the classes that `c` names. -/
structure Represents (f : Parents) (c : Int64 → Int64) : Prop where
  le : ∀ t ∈ f.keys, f.parent t ≤ t
  /-- So the 0 of a temporary that has not been seen is never taken for a parent. -/
  seen : ∀ t ∈ f.keys, f.parent t ∈ f.keys
  name : ∀ t ∈ f.keys, c (f.parent t) = c t
  root : ∀ t ∈ f.keys, f.parent t = t → c t = t
  unseen : ∀ t, t ∉ f.keys → c t = t

/-- The names after the class `b` is made part of the class `a`. -/
def absorb (c : Int64 → Int64) (a b : Int64) : Int64 → Int64 := fun x => if c x = b then a else c x

/-- The names after the classes of `t` and `u` are made one, which keeps the smaller name. -/
def rename (c : Int64 → Int64) (t u : Int64) : Int64 → Int64 :=
  if c t < c u then absorb c (c t) (c u) else absorb c (c u) (c t)

namespace Represents

theorem empty : Represents empty id := by
  refine ⟨?_, ?_, ?_, ?_, fun _ _ => rfl⟩ <;> exact fun t ht => absurd ht TempSet.not_mem_empty

/-- A temporary gets a parent from above.  No other one may lose its own name by that, and what
had the same name still has. -/
theorem set {c' : Int64 → Int64} (h : Represents f c) (hle : a ≤ t) (hseen : a = t ∨ a ∈ f.keys)
    (hname : c' a = c' t) (hroot : a = t → c' t = t) (hold : ∀ u v, c u = c v → c' u = c' v)
    (hother : ∀ u, u ≠ t → c u = u → c' u = u) : Represents (f.set t a) c' := by
  have hkeys : ∀ {u}, u ∈ (f.set t a).keys → u ≠ t → u ∈ f.keys :=
    fun hu hne => (mem_keys_set.1 hu).resolve_left hne
  refine ⟨fun u hu => ?_, fun u hu => ?_, fun u hu => ?_, fun u hu hself => ?_, fun u hu => ?_⟩
  · rw [parent_set]
    split
    · rwa [‹u = t›]
    · exact h.le u (hkeys hu ‹_›)
  · rw [parent_set, mem_keys_set]
    split
    · exact hseen
    · exact .inr (h.seen u (hkeys hu ‹_›))
  · rw [parent_set]
    split
    · rw [‹u = t›, hname]
    · exact hold _ _ (h.name u (hkeys hu ‹_›))
  · rw [parent_set] at hself
    split at hself
    · rename_i heq
      subst heq
      exact hroot hself
    · exact hother u ‹_› (h.root u (hkeys hu ‹_›) hself)
  · rw [mem_keys_set, not_or] at hu
    exact hother u hu.1 (h.unseen u hu.2)

/-- What has not been seen is a class of its own, tracked or not. -/
theorem track (h : Represents f c) (t : Int64) : Represents (f.track t) c := by
  unfold Parents.track
  split
  · exact h
  · exact h.set (Int64.le_refl t) (.inl rfl) rfl (fun _ => h.unseen t ‹_›) (fun _ _ => id)
      fun _ _ => id

/-- Above every temporary that has been seen there is a root, after which its class is named. -/
theorem name_root (h : Represents f c) (ht : t ∈ f.keys) :
    c t ∈ f.keys ∧ c (c t) = c t ∧ c t ≤ t := by
  induction hn : f.below t using Nat.strongRecOn generalizing t with
  | ind n ih =>
    subst hn
    by_cases hself : f.parent t = t
    · have hroot := h.root t ht hself
      rw [hroot]
      exact ⟨ht, hroot, Int64.le_refl t⟩
    · have hlt : f.parent t < t := Int64.lt_of_le_of_ne (h.le t ht) hself
      have hparent := h.seen t ht
      obtain ⟨hmem, hname, hle⟩ := ih _ (below_lt hparent (Int64.le_refl _) hlt) hparent rfl
      rw [h.name t ht] at hmem hname hle
      exact ⟨hmem, hname, Int64.le_trans hle (Int64.le_of_lt hlt)⟩

theorem name_mem (h : Represents f c) (ht : t ∈ f.keys) : c t ∈ f.keys := (h.name_root ht).1

theorem name_name (h : Represents f c) (t : Int64) : c (c t) = c t := by
  by_cases ht : t ∈ f.keys
  · exact (h.name_root ht).2.1
  · rw [h.unseen t ht, h.unseen t ht]

theorem name_le (h : Represents f c) (t : Int64) : c t ≤ t := by
  by_cases ht : t ∈ f.keys
  · exact (h.name_root ht).2.2
  · rw [h.unseen t ht]
    exact Int64.le_refl t

/-! ## Climbing -/

/-- A temporary is hung under its grandparent. -/
theorem halve (h : Represents f c) (ht : t ∈ f.keys) (hself : f.parent t ≠ t) :
    Represents (f.set t (f.parent (f.parent t))) c ∧ f.parent (f.parent t) ∈ f.keys ∧
      c (f.parent (f.parent t)) = c t ∧ f.below (f.parent (f.parent t)) < f.below t := by
  have hparent := h.seen t ht
  have hlt : f.parent t < t := Int64.lt_of_le_of_ne (h.le t ht) hself
  have hle := h.le _ hparent
  have hup := Int64.lt_of_le_of_lt hle hlt
  have hname := (h.name _ hparent).trans (h.name t ht)
  refine ⟨?_, h.seen _ hparent, hname, below_lt hparent hle hlt⟩
  exact h.set (Int64.le_of_lt hup) (.inr (h.seen _ hparent)) hname
    (fun heq => absurd heq (Int64.ne_of_lt hup)) (fun _ _ => id) fun _ _ => id

/-- The way up ends at the root, and the trees stand for the same classes as before. -/
theorem climb {fuel : Nat} (h : Represents f c) (ht : t ∈ f.keys) (hfuel : f.below t < fuel) :
    Represents (climb fuel f t).1 c ∧ (climb fuel f t).1.keys = f.keys ∧
      (climb fuel f t).2 = c t := by
  induction fuel generalizing f t with
  | zero => exact absurd hfuel (Nat.not_lt_zero _)
  | succ fuel ih =>
    rw [Parents.climb]
    split
    · rename_i hself
      exact ⟨h, rfl, (h.root t ht hself).symm⟩
    · rename_i hself
      obtain ⟨hset, hmem, hname, hbelow⟩ := h.halve ht hself
      have hkeys : (f.set t (f.parent (f.parent t))).keys = f.keys := keys_set ht
      have hfuel' := Nat.lt_of_lt_of_le hbelow (Nat.le_of_lt_succ hfuel)
      simp only [parent_set, if_true]
      rw [← hkeys] at hmem
      rw [below, ← hkeys] at hfuel'
      obtain ⟨hrest, hsame, hroot⟩ := ih hset hmem hfuel'
      exact ⟨hrest, hsame.trans hkeys, hroot.trans hname⟩

theorem find (h : Represents f c) (ht : t ∈ f.keys) :
    Represents (f.find t).1 c ∧ (f.find t).1.keys = f.keys ∧ (f.find t).2 = c t :=
  h.climb ht (below_lt_length ht)

/-- All temporaries, with the names of their classes. -/
theorem roots {ts : List Int64} (h : Represents f c) (hts : ∀ t ∈ ts, t ∈ f.keys) :
    f.roots ts = ts.map fun t => (t, c t) := by
  induction ts generalizing f with
  | nil => rfl
  | cons t ts ih =>
    obtain ⟨hfind, hkeys, hroot⟩ := h.find (hts t List.mem_cons_self)
    have hrest := ih hfind fun u hu => hkeys.symm ▸ hts u (List.mem_cons_of_mem _ hu)
    rw [Parents.roots, List.map_cons, ← hrest, ← hroot]

/-! ## Uniting -/

/-- The larger of two roots is hung under the smaller one. -/
theorem hang (h : Represents f c) (hle : a ≤ b) (ha : a ∈ f.keys) (hca : c a = a) (hcb : c b = b) :
    Represents (f.set b a) (absorb c a b) := by
  unfold absorb
  refine h.set hle (.inr ha) ?_ (fun heq => ?_) (fun u v huv => ?_) fun u hne hu => ?_
  · rw [hca, hcb, if_pos rfl]
    exact ite_eq_left_iff.2 fun _ => rfl
  · rw [hcb, if_pos rfl, heq]
  · rw [huv]
  · rw [hu, if_neg hne]

theorem unite (h : Represents f c) (ht : t ∈ f.keys) (hu : u ∈ f.keys) :
    Represents (f.unite t u) (rename c t u) ∧ (f.unite t u).keys = f.keys := by
  obtain ⟨hfirst, hkeys, hroot⟩ := h.find ht
  obtain ⟨hsecond, hkeys', hroot'⟩ := hfirst.find (hkeys.symm ▸ hu)
  rw [hkeys] at hkeys'
  have hseen : ∀ {v}, v ∈ f.keys → c v ∈ ((f.find t).1.find u).1.keys := by
    intro v hv
    rw [hkeys']
    exact h.name_mem hv
  simp only [Parents.unite, hroot, hroot', rename]
  split
  · rename_i hlt
    exact ⟨hsecond.hang (Int64.le_of_lt hlt) (hseen ht) (h.name_name t) (h.name_name u),
      (keys_set (hseen hu)).trans hkeys'⟩
  · rename_i hlt
    exact ⟨hsecond.hang (Int64.not_lt.1 hlt) (hseen hu) (h.name_name u) (h.name_name t),
      (keys_set (hseen ht)).trans hkeys'⟩

end Represents

/-! ## The equivalence behind the classes -/

theorem absorb_eq_iff {x y : Int64} : absorb c a b x = absorb c a b y ↔
    c x = c y ∨ (c x = a ∨ c x = b) ∧ (c y = a ∨ c y = b) := by
  simp only [absorb]
  grind

theorem rename_eq_iff : rename c t u a = rename c t u b ↔
    c a = c b ∨ (c a = c t ∨ c a = c u) ∧ (c b = c t ∨ c b = c u) := by
  unfold rename
  split
  · exact absorb_eq_iff
  · rw [absorb_eq_iff, or_comm (a := c a = c u), or_comm (a := c b = c u)]

/-- The classes that `c` names are those of the equivalence that `R` generates. -/
structure Exact (R : Int64 → Int64 → Prop) (c : Int64 → Int64) : Prop where
  eq_iff : ∀ t u, c t = c u ↔ EqvGen R t u

section Exact

variable {R S : Int64 → Int64 → Prop}

theorem Exact.congr (h : Exact R c) (hS : ∀ a b, S a b ↔ R a b) : Exact S c := by
  have heq : S = R := funext fun a => funext fun b => propext (hS a b)
  rwa [heq]

theorem exact_id (h : ∀ t u, ¬ R t u) : Exact R id := by
  refine ⟨fun t u => ⟨?_, fun hrel => ?_⟩⟩
  · rintro rfl
    exact .refl _
  · induction hrel with
    | rel t u hrel => exact absurd hrel (h t u)
    | refl => rfl
    | symm _ _ _ ih => exact ih.symm
    | trans _ _ _ _ _ ih ih' => exact ih.trans ih'

/-- One pair more makes two classes one. -/
theorem Exact.rename (h : Exact R c) (hS : ∀ a b, S a b ↔ R a b ∨ a = t ∧ b = u) :
    Exact S (rename c t u) := by
  have hmono : ∀ {a b}, c a = c b → EqvGen S a b := fun hab =>
    EqvGen.mono (fun x y hxy => (hS x y).2 (.inl hxy)) _ _ ((h.eq_iff _ _).1 hab)
  have hpair : EqvGen S t u := .rel _ _ ((hS t u).2 (.inr ⟨rfl, rfl⟩))
  have hside : ∀ {a}, c a = c t ∨ c a = c u → EqvGen S a t := by
    rintro a (ha | ha)
    · exact hmono ha
    · exact .trans _ _ _ (hmono ha) (.symm _ _ hpair)
  refine ⟨fun a b => ⟨?_, fun hrel => ?_⟩⟩
  · rw [rename_eq_iff]
    rintro (hab | ⟨ha, hb⟩)
    · exact hmono hab
    · exact .trans _ _ _ (hside ha) (.symm _ _ (hside hb))
  · induction hrel with
    | rel a b hrel =>
      rw [rename_eq_iff]
      rcases (hS a b).1 hrel with hrel | ⟨rfl, rfl⟩
      · exact .inl ((h.eq_iff a b).2 (.rel a b hrel))
      · exact .inr ⟨.inl rfl, .inr rfl⟩
    | refl => rfl
    | symm _ _ _ ih => exact ih.symm
    | trans _ _ _ _ _ ih ih' => exact ih.trans ih'

/-- The name of a class is its smallest member. -/
theorem Exact.isLeast (h : Exact R c) (hf : Represents f c) (t : Int64) :
    IsLeast {u | EqvGen R t u} (c t) := by
  constructor
  · exact (h.eq_iff t (c t)).1 (hf.name_name t).symm
  · intro u hu
    rw [(h.eq_iff t u).2 hu]
    exact hf.name_le u

end Exact

end StackFlow.Parents
