import Mathlib.Data.List.Perm.Basic
import StackFlow.Effect

/-!
# Effects of several ways to one point

Merging is a semilattice operation on effects, if a failure is not asked which two ways it has
found to differ.

* `Effect.meet` is what `Effect.merge` yields for ways that have read the same number of bytes.
  A known number of slots taken hides an unknown one, and of two of a kind the meet has the
  smaller counts; `Effect.meet_assoc` is the one law that is not plain from this.
* `Effect.joined` is a merge that may have failed before, and is commutative and associative on
  all effects; so `Effect.mergeAll` does not depend on the order of the ways.
* `Effect.merge_semilattice` is the main result.
-/

namespace StackFlow.Effect

open List (Perm)

/-- Whether the number of slots taken is unknown or a number. -/
def Proper (e : Effect) : Prop := e.consume = Count.unknown ∨ 0 ≤ e.consume

instance : DecidablePred Proper := fun _ => inferInstanceAs (Decidable (_ ∨ _))

/-- The effect of two ways that have read the same number of bytes. -/
def meet (a b : Effect) : Effect :=
  if a.consume.isKnown && b.consume.isKnown then
    ⟨a.cursor, min a.consume b.consume, min a.produce b.produce⟩
  else if a.consume.isKnown then a
  else if b.consume.isKnown then b
  else ⟨a.cursor, Count.unknown, min a.produce b.produce⟩

/-- The effect of several ways to one point, merged one after the other. -/
def mergeAll (e : Effect) (es : List Effect) : Except CursorMismatch Effect := es.foldlM merge e

variable {a b c e : Effect} {es : List Effect}

/-! ## The meet -/

theorem merge_of_eq (h : a.cursor = b.cursor) : a.merge b = .ok (a.meet b) := by
  unfold merge meet
  rw [if_neg (not_not_intro h)]
  repeat' split
  all_goals rfl

theorem merge_of_ne (h : a.cursor ≠ b.cursor) : a.merge b = .error ⟨a.cursor, b.cursor⟩ :=
  if_pos h

theorem cursor_meet (h : a.cursor = b.cursor) : (a.meet b).cursor = a.cursor := by
  unfold meet
  repeat' split
  all_goals first | rfl | exact h.symm

theorem isKnown_min (ha : a.consume.isKnown = true) (hb : b.consume.isKnown = true) :
    Count.isKnown (min a.consume b.consume) = true :=
  decide_eq_true (Std.le_min_iff.2 ⟨of_decide_eq_true ha, of_decide_eq_true hb⟩)

theorem meet_comm (h : a.cursor = b.cursor) : a.meet b = b.meet a := by
  have hmin : ∀ m n : Int64, min m n = min n m := Std.Commutative.comm
  unfold meet
  rw [h, hmin a.consume, hmin a.produce]
  cases a.consume.isKnown <;> cases b.consume.isKnown <;> rfl

theorem isKnown_unknown : Count.isKnown Count.unknown = false := rfl

/-- Whichever ways are merged first, the known numbers of slots hide the unknown ones. -/
theorem meet_assoc (a b c : Effect) : (a.meet b).meet c = a.meet (b.meet c) := by
  have hmin : ∀ k m n : Int64, min (min k m) n = min k (min m n) := Std.Associative.assoc
  cases ha : a.consume.isKnown <;> cases hb : b.consume.isKnown <;>
    cases hc : c.consume.isKnown <;>
      simp [meet, ha, hb, hc, isKnown_min, isKnown_unknown, hmin]

theorem meet_self (h : a.Proper) : a.meet a = a := by
  have hmin : ∀ n : Int64, min n n = n := Std.IdempotentOp.idempotent
  cases ha : a.consume.isKnown with
  | true => simp [meet, ha, hmin]
  | false =>
    have hconsume : a.consume = Count.unknown := h.resolve_right fun hle => by
      rw [Count.isKnown, decide_eq_true hle] at ha
      cases ha
    simp [meet, ha, hmin, ← hconsume]

/-- Merging stays within the effects whose slots taken are unknown or a number. -/
theorem Proper.meet (ha : a.Proper) (hb : b.Proper) : (a.meet b).Proper := by
  unfold Effect.meet
  split
  · rename_i hknown
    rw [Bool.and_eq_true] at hknown
    exact .inr (of_decide_eq_true (isKnown_min hknown.1 hknown.2))
  · split
    · exact ha
    · split
      · exact hb
      · exact .inl rfl

/-! ## Merges that may fail -/

/-- The effect of two ways, each of which may have failed before. -/
def joined (x y : Option Effect) : Option Effect :=
  x.bind fun a => y.bind fun b => (a.merge b).toOption

theorem toOption_merge (a b : Effect) :
    (a.merge b).toOption = if a.cursor = b.cursor then some (a.meet b) else none := by
  split
  · rename_i h
    rw [merge_of_eq h]
    rfl
  · rename_i h
    rw [merge_of_ne h]
    rfl

theorem joined_some (a b : Effect) :
    joined (some a) (some b) = if a.cursor = b.cursor then some (a.meet b) else none :=
  toOption_merge a b

theorem joined_none (x : Option Effect) : joined x none = none := by
  cases x <;> rfl

theorem joined_comm (x y : Option Effect) : joined x y = joined y x := by
  cases x with
  | none => rw [joined_none]; rfl
  | some a =>
    cases y with
    | none => rw [joined_none]; rfl
    | some b =>
      rw [joined_some, joined_some]
      by_cases h : a.cursor = b.cursor
      · rw [if_pos h, if_pos h.symm, meet_comm h]
      · rw [if_neg h, if_neg (Ne.symm h)]

theorem joined_assoc (x y z : Option Effect) : joined (joined x y) z = joined x (joined y z) := by
  cases x with
  | none => rfl
  | some a =>
    cases y with
    | none => rfl
    | some b =>
      cases z with
      | none => simp only [joined_none]
      | some c =>
        rw [joined_some, joined_some]
        by_cases hab : a.cursor = b.cursor <;> by_cases hbc : b.cursor = c.cursor
        · rw [if_pos hab, if_pos hbc, joined_some, joined_some, cursor_meet hab, cursor_meet hbc,
            if_pos (hab.trans hbc), if_pos hab, meet_assoc]
        · rw [if_pos hab, if_neg hbc, joined_some, cursor_meet hab, hab, if_neg hbc, joined_none]
        · rw [if_neg hab, if_pos hbc, joined_some, cursor_meet hbc, if_neg hab]
          rfl
        · rw [if_neg hab, if_neg hbc, joined_none]
          rfl

instance : Std.Commutative joined := ⟨joined_comm⟩

instance : Std.Associative joined := ⟨joined_assoc⟩

theorem foldl_joined_none (xs : List (Option Effect)) : xs.foldl joined none = none := by
  induction xs with
  | nil => rfl
  | cons x xs ih => exact ih

theorem toOption_mergeAll (e : Effect) (es : List Effect) :
    (mergeAll e es).toOption = (es.map some).foldl joined (some e) := by
  induction es generalizing e with
  | nil => rfl
  | cons x es ih =>
    rw [mergeAll, List.foldlM_cons, List.map_cons, List.foldl_cons, joined_some]
    by_cases h : e.cursor = x.cursor
    · rw [merge_of_eq h, if_pos h]
      exact ih (e.meet x)
    · rw [merge_of_ne h, if_neg h, foldl_joined_none]
      rfl

/-- Merging fails exactly if two of the ways have read different numbers of bytes. -/
theorem toOption_mergeAll_eq_none_iff :
    (mergeAll e es).toOption = none ↔ ∃ x ∈ es, x.cursor ≠ e.cursor := by
  rw [toOption_mergeAll]
  induction es generalizing e with
  | nil => simp
  | cons x es ih =>
    simp only [List.map_cons, List.foldl_cons, joined_some, List.mem_cons, exists_eq_or_imp]
    by_cases h : e.cursor = x.cursor
    · rw [if_pos h, ih, cursor_meet h, or_iff_right (not_not_intro h.symm)]
    · rw [if_neg h, foldl_joined_none]
      exact iff_of_true rfl (.inl (Ne.symm h))

/-- A fold over a list that is not empty does not depend on its order. -/
theorem foldl_eq_of_perm {α : Type} {op : α → α → α} [Std.Associative op] [Std.Commutative op]
    {xs ys : List α} (h : Perm xs ys) :
    ∀ {x y : α} {xs' ys' : List α}, xs = x :: xs' → ys = y :: ys' →
      xs'.foldl op x = ys'.foldl op y := by
  induction h with
  | nil => simp
  | cons z h _ =>
    intro x y xs' ys' hx hy
    cases hx
    cases hy
    exact h.foldl_op_eq
  | swap z w zs =>
    intro x y xs' ys' hx hy
    cases hx
    cases hy
    rw [List.foldl_cons, List.foldl_cons, (Std.Commutative.comm w z : op w z = op z w)]
  | @trans xs zs ys h _ ih ih' =>
    intro x y xs' ys' hx hy
    cases zs with
    | nil =>
      rw [hx] at h
      exact absurd h.length_eq (by simp)
    | cons z zs' => exact (ih hx rfl).trans (ih' rfl hy)

/-- The order of the ways does not matter. -/
theorem mergeAll_perm {f : Effect} {fs : List Effect} (h : Perm (e :: es) (f :: fs)) :
    (mergeAll e es).toOption = (mergeAll f fs).toOption := by
  rw [toOption_mergeAll, toOption_mergeAll]
  exact foldl_eq_of_perm (h.map some) (List.map_cons ..) (List.map_cons ..)

/-! ## The semilattice -/

theorem toOption_bind {ε α β : Type} (x : Except ε α) (f : α → Except ε β) :
    (x >>= f).toOption = x.toOption.bind fun a => (f a).toOption := by
  cases x <;> rfl

/-- Merging is a semilattice operation: of one way twice it is that way, and neither the order of
two ways nor that of two merges matters, be it for the effect or for whether there is one.  It
fails exactly if the ways have not all read the same number of bytes.  So the order of any number
of ways does not matter. -/
theorem merge_semilattice :
    (∀ a : Effect, a.Proper → a.merge a = .ok a) ∧
      (∀ a b c : Effect, a.Proper → b.Proper → a.merge b = .ok c → c.Proper) ∧
      (∀ a b : Effect, (a.merge b).toOption = (b.merge a).toOption) ∧
      (∀ a b c : Effect,
        (a.merge b >>= fun ab => ab.merge c).toOption =
          (b.merge c >>= fun bc => a.merge bc).toOption) ∧
      (∀ a b c : Effect, (a.merge b >>= fun ab => ab.merge c).toOption = none ↔
        ¬ (a.cursor = b.cursor ∧ b.cursor = c.cursor)) ∧
      (∀ (e : Effect) (es : List Effect),
        (mergeAll e es).toOption = none ↔ ∃ x ∈ es, x.cursor ≠ e.cursor) ∧
      ∀ (e f : Effect) (es fs : List Effect), Perm (e :: es) (f :: fs) →
        (mergeAll e es).toOption = (mergeAll f fs).toOption := by
  refine ⟨fun a ha => ?_, fun a b c ha hb hc => ?_, fun a b => ?_, fun a b c => ?_, fun a b c => ?_,
    fun e es => toOption_mergeAll_eq_none_iff, fun e f es fs => mergeAll_perm⟩
  · rw [merge_of_eq rfl, meet_self ha]
  · by_cases h : a.cursor = b.cursor
    · rw [merge_of_eq h, Except.ok.injEq] at hc
      exact hc ▸ ha.meet hb
    · rw [merge_of_ne h] at hc
      cases hc
  · exact joined_comm (some a) (some b)
  · rw [toOption_bind, toOption_bind]
    exact joined_assoc (some a) (some b) (some c)
  · rw [toOption_bind, toOption_merge]
    by_cases hab : a.cursor = b.cursor
    · rw [if_pos hab, Option.bind_some, toOption_merge, cursor_meet hab, hab]
      simp
    · simp [hab]

/-- An absolute depth among known effects is hidden, wherever it stands; another number of bytes
is not. -/
theorem merge_semilattice_mixed :
    (⟨1, 2, 3⟩ : Effect).merge ⟨1, 2, 3⟩ = .ok ⟨1, 2, 3⟩ ∧
      (mergeAll (.absolute 1 0) [⟨1, 2, 3⟩, ⟨1, 0, 7⟩]).toOption = some ⟨1, 0, 3⟩ ∧
      (mergeAll ⟨1, 0, 7⟩ [.absolute 1 0, ⟨1, 2, 3⟩]).toOption = some ⟨1, 0, 3⟩ ∧
      (mergeAll ⟨1, 0, 7⟩ [.absolute 1 0, ⟨2, 2, 3⟩]).toOption = none := by
  obtain ⟨hself, _, _, _, _, hfails, hperm⟩ := merge_semilattice
  have hmixed : (mergeAll (.absolute 1 0) [⟨1, 2, 3⟩, ⟨1, 0, 7⟩]).toOption = some ⟨1, 0, 3⟩ := rfl
  refine ⟨hself _ (by decide), hmixed, ?_, (hfails _ _).2 ⟨_, List.mem_of_getElem? (i := 1) rfl,
    by decide⟩⟩
  rw [← hmixed]
  exact hperm _ _ _ _ (by decide)

end StackFlow.Effect
