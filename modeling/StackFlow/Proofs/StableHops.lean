import StackFlow.Proofs.HopThreading

/-!
# Threaded code has nothing left to thread

All jumps are redirected at once by the chains of the given code, those that make up the chains
included.  A chain that closes on itself is cut where the search comes back to a label, so where
it is cut depends on the label it is entered at.

* `Follows` is the search without a bound on its turns.  `follows_iff` says that it ends for
  every label, with the label that `resolve` finds.
* `Settled` labels are those that a search may end at: they pass no control on, or lie on a cycle.
  `resolve_of_back` says that a search which is entered right behind a label of a cycle goes
  all the way round and ends at that label.
* `label_of_hopAt_thread` is the consequence: in the threaded code, a hop right after the target
  of a settled label hops to that very label.  So one round of threading is enough, which
  `thread_stable` puts together.
-/

namespace StackFlow.Threading

open Relation

variable {hs : List (Int64 × Int64)} {seen : List Int64} {label next z z' : Int64}

/-! ## The search ends -/

/-- The search for the end of a chain: with the labels `seen` behind it, it goes on from `label`
and ends at the last argument. -/
inductive Follows (hops : List (Int64 × Int64)) : List Int64 → Int64 → Int64 → Prop where
  /-- The label does not pass control on. -/
  | last {seen : List Int64} {label : Int64} (ends : hops.lookup label = none) :
      Follows hops seen label label
  /-- The label passes control back to one that has been seen. -/
  | back {seen : List Int64} {label next : Int64} (passes : Passes hops label next)
      (old : next ∈ seen) : Follows hops seen label label
  | on {seen : List Int64} {label next z : Int64} (passes : Passes hops label next)
      (new : next ∉ seen) (rest : Follows hops (next :: seen) next z) :
      Follows hops seen label z

theorem Follows.unique (h : Follows hs seen label z) (h' : Follows hs seen label z') :
    z = z' := by
  induction h with
  | last ends =>
    cases h' with
    | last => rfl
    | back => rfl
    | on passes => simp [Passes, ends] at passes
  | back passes old =>
    cases h' with
    | last => rfl
    | back => rfl
    | on passes' new => exact absurd (passes.unique passes' ▸ old) new
  | on passes new _ ih =>
    cases h' with
    | last ends => simp [Passes, ends] at passes
    | back passes' old => exact absurd (passes'.unique passes ▸ old) new
    | on passes' _ rest' => exact ih (passes'.unique passes ▸ rest')

/-- There is fuel for as many turns as the search takes. -/
theorem Walking.follows {fuel : Nat} (h : Walking hs fuel seen label) :
    Follows hs seen label (follow hs fuel seen label) := by
  induction fuel generalizing seen label with
  | zero => exact .last h.lookup_of_fuel_zero
  | succ fuel ih =>
    rw [follow]
    split
    · rename_i hnone
      exact .last hnone
    · rename_i next hnext
      split
      · rename_i hseen
        exact .back hnext (List.contains_iff_mem.1 hseen)
      · rename_i hseen
        have hnew : next ∉ seen := fun hmem => hseen (List.contains_iff_mem.2 hmem)
        exact .on hnext hnew (ih (h.step hnext hnew))

/-- The search from any label ends, and `resolve` says where. -/
theorem follows_iff : Follows hs [label] label z ↔ resolve hs label = z := by
  have hresolve : Follows hs [label] label (resolve hs label) := (walking_start label).follows
  constructor
  · exact hresolve.unique
  · rintro rfl
    exact hresolve

/-! ## Where it ends -/

/-- The label does not pass control on, or gets it back from where it passes it. -/
def Settled (hops : List (Int64 × Int64)) (z : Int64) : Prop :=
  hops.lookup z = none ∨
    ∃ next, Passes hops z next ∧ ReflTransGen (Passes hops) next z

theorem settled_resolve (label : Int64) : Settled hs (resolve hs label) :=
  (follow_spec _ _ _ (walking_start label)).2

/-- A search that has been everywhere between `n` and its label only comes back to what it has
seen at a label that passes control to `n`, if it gets to such a label. -/
theorem Follows.eq_of_back (h : Follows hs seen label z) {n e : Int64} (hmem : label ∈ seen)
    (hclosed : ∀ w ∈ seen, w ≠ label → ∃ v ∈ seen, Passes hs w v)
    (hleads : ReflTransGen (Passes hs) label e) (hnew : e ∈ seen → e = label)
    (hn : n ∈ seen) (hback : Passes hs e n) : z = e := by
  induction h with
  | last ends =>
    rcases hleads.cases_head with rfl | ⟨y, hy, _⟩
    · rfl
    · simp [Passes, ends] at hy
  | @back seen label next passes old =>
    -- what has been seen is closed, so `e` has been seen
    have hseen : ∀ w, ReflTransGen (Passes hs) label w → w ∈ seen := by
      intro w hw
      induction hw with
      | refl => exact hmem
      | @tail w y _ hstep ih =>
        by_cases hw : w = label
        · rw [hw] at hstep
          exact passes.unique hstep ▸ old
        · obtain ⟨v, hv, hstep'⟩ := hclosed w ih hw
          exact hstep'.unique hstep ▸ hv
    exact (hnew (hseen e hleads)).symm
  | @on seen label next z passes new rest ih =>
    have hne : e ≠ label := by
      rintro rfl
      exact new (hback.unique passes ▸ hn)
    refine ih List.mem_cons_self (fun w hw hwnext => ?_) ?_ (fun he => ?_)
      (List.mem_cons_of_mem _ hn)
    · rcases List.mem_cons.1 hw with rfl | hw
      · exact absurd rfl hwnext
      · by_cases hwl : w = label
        · exact ⟨next, List.mem_cons_self, hwl ▸ passes⟩
        · obtain ⟨v, hv, hstep⟩ := hclosed w hw hwl
          exact ⟨v, List.mem_cons_of_mem _ hv, hstep⟩
    · rcases hleads.cases_head with rfl | ⟨y, hy, hrest⟩
      · exact absurd rfl hne
      · exact passes.unique hy ▸ hrest
    · exact (List.mem_cons.1 he).resolve_right fun hmem' => hne (hnew hmem')

/-- A search that starts right behind a label of a cycle goes all the way round to it. -/
theorem resolve_of_back (hpass : Passes hs z next) (hback : ReflTransGen (Passes hs) next z) :
    resolve hs next = z :=
  (follows_iff.2 rfl).eq_of_back (List.mem_singleton_self _)
    (fun _ hw hne => absurd (List.mem_singleton.1 hw) hne) hback List.mem_singleton.1
    (List.mem_singleton_self _) hpass

/-! ## Hops of the threaded code -/

section Stable

variable {code : List Instr}

/-- If a label has one target, only a hop right after it says where the label passes control
on to. -/
theorem passes_iff (hunique : ∀ {i j l}, TargetAt code i l → TargetAt code j l → i = j)
    {a b : Int64} : Passes (hops code) a b ↔
      a ≠ b ∧ ∃ i, TargetAt code i a ∧ HopAt code (i + 1) b := by
  constructor
  · exact fun h => mem_hops.1 h.mem
  · rintro ⟨hne, i, ha, hb⟩
    cases hlook : (hops code).lookup a with
    | none =>
      have hnone := List.lookup_eq_none_iff.1 hlook (a, b) (mem_hops.2 ⟨hne, i, ha, hb⟩)
      simp at hnone
    | some b' =>
      obtain ⟨j, ha', q', hq', _, rfl⟩ := Passes.targetAt (show Passes (hops code) a b' from hlook)
      obtain rfl := hunique ha ha'
      obtain ⟨q, hq, _, rfl⟩ := hb
      rw [hq', Option.some_inj] at hq
      rw [Passes, hlook, hq]

variable (hunique : ∀ {i j l}, TargetAt code i l → TargetAt code j l → i = j)

include hunique

/-- After threading, a hop right after the target of a settled label hops to the label
itself. -/
theorem label_of_hopAt_thread {z b : Int64} (hz : Settled (hops code) z) {i : Nat}
    (hi : TargetAt (thread code) i z) (hhop : HopAt (thread code) (i + 1) b) : b = z := by
  rw [targetAt_thread] at hi
  obtain ⟨q, hq, hop, rfl⟩ := hhop
  obtain ⟨p, hp, rfl⟩ := getElem?_thread_eq_some hq
  rw [op_redirect] at hop
  rw [label_redirect_of_jumps (by rw [hop]; rfl)]
  by_cases hself : p.label = z
  · -- a hop to the label before it makes no pair
    have hnone : (hops code).lookup z = none := by
      cases hlook : (hops code).lookup z with
      | none => rfl
      | some c =>
        obtain ⟨hne, j, hj, p', hp', _, rfl⟩ := (passes_iff hunique).1 hlook
        obtain rfl := hunique hi hj
        rw [hp, Option.some_inj] at hp'
        exact absurd (hself.symm.trans (congrArg Instr.label hp')) hne
    rw [hself, resolve_eq_self hnone]
  · have hpass : Passes (hops code) z p.label :=
      (passes_iff hunique).2 ⟨Ne.symm hself, i, hi, p, hp, hop, rfl⟩
    rcases hz with hnone | ⟨next, hnext, hback⟩
    · simp [Passes, hnone] at hpass
    · obtain rfl := hpass.unique hnext
      exact resolve_of_back hpass hback

/-- After threading, a settled label does not pass control on. -/
theorem lookup_hops_thread {z : Int64} (hz : Settled (hops code) z) :
    (hops (thread code)).lookup z = none := by
  cases hlook : (hops (thread code)).lookup z with
  | none => rfl
  | some b =>
    have hunique' : ∀ {i j l}, TargetAt (thread code) i l → TargetAt (thread code) j l → i = j :=
      fun hi hj => hunique (targetAt_thread.1 hi) (targetAt_thread.1 hj)
    obtain ⟨hne, i, hi, hhop⟩ := (passes_iff hunique').1 hlook
    exact absurd (label_of_hopAt_thread hunique hz hi hhop).symm hne

/-- A redirected jump is left as it is when the code is threaded again. -/
theorem redirect_redirect (p : Instr) :
    redirect (hops (thread code)) (redirect (hops code) p) = redirect (hops code) p := by
  cases hjumps : p.op.jumps with
  | false =>
    refine redirect_eq_self ?_
    rw [op_redirect, hjumps]
  | true =>
    have hlabel : (redirect (hops code) p).label = resolve (hops code) p.label :=
      label_redirect_of_jumps hjumps
    have hsettled : Settled (hops code) (resolve (hops code) p.label) := settled_resolve p.label
    have hnone := lookup_hops_thread hunique hsettled
    rw [redirect_eq, hlabel, if_pos (resolve_eq_self hnone)]

end Stable

/-- The search ends for every label.  The threaded code stays as it is when it is threaded again,
and if a label that one of its jumps names has a target with a hop right after it, the hop is to
this label. -/
theorem thread_stable {code : List Instr}
    (hunique : ∀ i j l, TargetAt code i l → TargetAt code j l → i = j) :
    (∀ label z, Follows (hops code) [label] label z ↔ resolve (hops code) label = z) ∧
      thread (thread code) = thread code ∧
      ∀ p ∈ thread code, p.op.jumps = true → ∀ i b, TargetAt (thread code) i p.label →
        HopAt (thread code) (i + 1) b → b = p.label := by
  have hunique' : ∀ {i j l}, TargetAt code i l → TargetAt code j l → i = j :=
    fun hi hj => hunique _ _ _ hi hj
  refine ⟨fun label z => follows_iff, ?_, fun p hp hjumps i b hi hhop => ?_⟩
  · conv_lhs => rw [thread]
    rw [show (thread code).map (redirect (hops (thread code))) =
      code.map fun p => redirect (hops (thread code)) (redirect (hops code) p) by simp [thread]]
    exact List.map_congr_left fun p _ => redirect_redirect hunique' p
  · obtain ⟨q, _, rfl⟩ := List.mem_map.1 hp
    rw [op_redirect] at hjumps
    rw [label_redirect_of_jumps hjumps] at hi ⊢
    exact label_of_hopAt_thread hunique' (settled_resolve q.label) hi hhop

/-- A chain of two hops, a cycle of three, and a hop that leads into the cycle. -/
def hoppingRoutine : List Instr :=
  [.number 1, .branch 1 true, .hop 7, .target 1, .hop 2, .target 2, .hop 3, .target 3, .ret .void,
    .target 4, .hop 5, .target 5, .hop 6, .target 6, .hop 4, .target 7, .hop 5]

theorem thread_stable_hopping :
    Follows (hops hoppingRoutine) [7] 7 4 ∧
      thread (thread hoppingRoutine) = thread hoppingRoutine ∧
      ∀ i b, TargetAt (thread hoppingRoutine) i 4 → HopAt (thread hoppingRoutine) (i + 1) b →
        b = 4 := by
  have hnodup : (Scope.targetLabels hoppingRoutine).Nodup := by decide
  have hunique : ∀ i j l, TargetAt hoppingRoutine i l → TargetAt hoppingRoutine j l → i = j :=
    fun _ _ _ => Scope.targetAt_unique hnodup
  obtain ⟨hends, hagain, hhops⟩ := thread_stable hunique
  have hmem : Instr.hop 4 ∈ thread hoppingRoutine := List.mem_of_getElem? (i := 2) rfl
  exact ⟨(hends 7 4).2 (by decide), hagain, hhops (.hop 4) hmem (by decide)⟩

end StackFlow.Threading
