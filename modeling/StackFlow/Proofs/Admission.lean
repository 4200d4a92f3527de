import StackFlow.Proofs.Redirection
import StackFlow.Proofs.StaticChecks

/-!
# Which routines pass the static checks

The checks are made of the threaded list, in one pass over live and dead code.  For a list that the
constructors make, they could as well be made of the list as it was given.

* `Threading.validate_thread_iff`: a jump is refused for a negative label only, and threading hides
  or makes no such label.  A label that is replaced has a target, which is checked itself, and the
  label that takes its place is that of a hop.
* `Threading.labelled_thread_iff` and `Threading.agree_thread_iff` say that threading makes no
  difference to labels and targets, or to the uses of temporaries.
* `Graph.static_checks_iff` is the main result: what is asked of the instructions of a routine.
-/

namespace StackFlow

namespace Instr

variable {p : Instr}

theorem label_nonneg_of_validate (h : p.validate = .ok ()) (hlabelled : p.op.isLabelled = true) :
    0 ≤ p.label := by
  refine Int64.not_lt.1 fun hneg => ?_
  have hbad : p.malformation? ≠ none := by
    unfold malformation?
    split_ifs <;> simp_all
  unfold validate at h
  split at h
  · cases h
  · rename_i hnone
    exact hbad hnone

theorem PlainJump.validate_iff (h : p.PlainJump) : p.validate = .ok () ↔ 0 ≤ p.label := by
  have hop : p.op ≠ .compound := by
    rcases jumps_iff.1 h.jumps with hop | hop <;> simp [hop]
  rw [validate, h.malformation?]
  by_cases hneg : p.label < 0
  · simp [hneg, Int64.not_le.2 hneg]
  · simp [hneg, hop, Int64.not_lt.1 hneg]

end Instr

namespace Threading

open Relation

variable {code : List Instr}

/-- A label that is replaced has a target. -/
theorem exists_targetAt_of_ne {label : Int64} (h : resolve (hops code) label ≠ label) :
    ∃ i, TargetAt code i label := by
  have hleads : ReflTransGen (Passes (hops code)) label _ := leads_resolve label
  rcases hleads.cases_head with heq | ⟨next, hnext, _⟩
  · exact absurd heq.symm h
  · obtain ⟨i, hi, _⟩ := hnext.targetAt
    exact ⟨i, hi⟩

/-- The label that takes its place is that of a hop. -/
theorem exists_hopAt_of_ne {label : Int64} (h : resolve (hops code) label ≠ label) :
    ∃ i, HopAt code i (resolve (hops code) label) := by
  have hleads : ReflTransGen (Passes (hops code)) label _ := leads_resolve label
  rcases hleads.cases_tail with heq | ⟨last, _, hlast⟩
  · exact absurd heq h
  · obtain ⟨i, _, hi⟩ := hlast.targetAt
    exact ⟨i + 1, hi⟩

theorem forall_mem_thread {P : Instr → Prop} :
    (∀ p ∈ thread code, P p) ↔ ∀ p ∈ code, P (redirect (hops code) p) := by
  simp [thread]

/-- Threading neither hides an instruction that is not valid nor makes one. -/
theorem validate_thread_iff (hmade : ∀ p ∈ code, p.Constructed) :
    (∀ p ∈ thread code, p.validate = .ok ()) ↔ ∀ p ∈ code, p.validate = .ok () := by
  have hrebuilt := rebuilt_redirect (hops code)
  rw [forall_mem_thread]
  constructor
  · intro h p hp
    by_cases hlabel : (redirect (hops code) p).label = p.label
    · exact (hrebuilt p).same hlabel ▸ h p hp
    · have hjumps := ((hrebuilt p).plain hlabel).1
      rw [label_redirect_of_jumps hjumps] at hlabel
      obtain ⟨i, q, hq, hop, hql⟩ := exists_targetAt_of_ne hlabel
      have hvalid := h q (List.mem_of_getElem? hq)
      rw [redirect_eq_self (by rw [hop]; rfl)] at hvalid
      rw [((hmade p hp).plainJump hjumps).validate_iff, ← hql]
      exact Instr.label_nonneg_of_validate hvalid (by rw [hop]; rfl)
  · intro h p hp
    by_cases hlabel : (redirect (hops code) p).label = p.label
    · rw [(hrebuilt p).same hlabel]
      exact h p hp
    · obtain ⟨hjumps, hplain, -⟩ := (hrebuilt p).plain hlabel
      rw [hplain.validate_iff, label_redirect_of_jumps hjumps]
      rw [label_redirect_of_jumps hjumps] at hlabel
      obtain ⟨i, q, hq, hop, hql⟩ := exists_hopAt_of_ne hlabel
      rw [← hql]
      exact Instr.label_nonneg_of_validate (h q (List.mem_of_getElem? hq)) (by rw [hop]; rfl)

theorem labelled_thread_iff : Labelled (thread code) ↔ Labelled code := by
  refine ⟨labelled_of_thread, fun h => ⟨fun hi hj => ?_, fun {i p} hp hjumps => ?_⟩⟩
  · exact h.unique (targetAt_thread.1 hi) (targetAt_thread.1 hj)
  · obtain ⟨q, hq, rfl⟩ := getElem?_thread_eq_some hp
    rw [op_redirect] at hjumps
    simp only [label_redirect_of_jumps hjumps, targetAt_thread]
    by_cases hlabel : resolve (hops code) q.label = q.label
    · rw [hlabel]
      exact h.defined hq hjumps
    · obtain ⟨j, r, hr, hop, hrl⟩ := exists_hopAt_of_ne hlabel
      rw [← hrl]
      exact h.defined hr (by rw [hop]; rfl)

theorem accessesTemp_redirect (p : Instr) :
    (redirect (hops code) p).accessesTemp = p.accessesTemp := by
  simp [Instr.accessesTemp]

theorem redirect_of_accessesTemp {p : Instr} (h : p.accessesTemp = true) :
    redirect (hops code) p = p := by
  refine redirect_eq_self (Bool.eq_false_iff.2 fun hjumps => ?_)
  rcases jumps_iff.1 hjumps with hop | hop
  · simp [Instr.accessesTemp, hop, Opcode.accessesTemp] at h
  · simp [Instr.accessesTemp, hop, Opcode.accessesTemp] at h

/-- Threading leaves the uses of temporaries as they are. -/
theorem agree_thread_iff {ptr : Int64} :
    (∀ p ∈ thread code, ∀ q ∈ thread code, Scope.Agree ptr p q) ↔
      ∀ p ∈ code, ∀ q ∈ code, Scope.Agree ptr p q := by
  simp only [forall_mem_thread, Scope.Agree, accessesTemp_redirect]
  refine forall₂_congr fun p _ => forall₂_congr fun q _ => ?_
  refine forall₂_congr fun hp hq => ?_
  rw [redirect_of_accessesTemp hp, redirect_of_accessesTemp hq]

end Threading

namespace Graph

/-- The static checks let a routine through exactly if each of its instructions is valid, no label
has two targets, every label that a jump names has one, and any two uses of a temporary have
compatible types. -/
theorem static_checks_iff {code : List Instr} (hmade : ∀ p ∈ code, p.Constructed) (ptr : Int64) :
    Scope.check ptr (Threading.thread code) = .ok () ↔ (∀ p ∈ code, p.validate = .ok ()) ∧
      (∀ i j l, TargetAt code i l → TargetAt code j l → i = j) ∧
      (∀ p ∈ code, p.op.jumps = true → ∃ i, TargetAt code i p.label) ∧
      ∀ p ∈ code, ∀ q ∈ code, p.accessesTemp = true → q.accessesTemp = true →
        p.temp = q.temp → Ty.compatible ptr p.ty q.ty = true := by
  have hlabelled : Labelled code ↔ (∀ i j l, TargetAt code i l → TargetAt code j l → i = j) ∧
      ∀ p ∈ code, p.op.jumps = true → ∃ i, TargetAt code i p.label := by
    constructor
    · intro h
      refine ⟨fun i j l => h.unique, fun p hp hjumps => ?_⟩
      obtain ⟨i, hi⟩ := List.mem_iff_getElem?.1 hp
      exact h.defined hi hjumps
    · rintro ⟨hunique, hdefined⟩
      exact ⟨hunique _ _ _, fun hp => hdefined _ (List.mem_of_getElem? hp)⟩
  rw [Scope.check_eq_ok_iff, Threading.validate_thread_iff hmade, Threading.labelled_thread_iff,
    Threading.agree_thread_iff, hlabelled, and_assoc]
  rfl

/-- A temporary is used with two types, the second time in dead code, and a hop over it goes on
to another one. -/
def sharingRoutine : List Instr :=
  [.number 5, .tstore .int32 0, .hop 1, .tload .uint16 0, .target 1, .hop 2, .target 2, .ret .void]

/-- The two types fit together if a pointer takes eight bytes, but not if it takes two. -/
theorem static_checks_sharing : Scope.check 8 (Threading.thread sharingRoutine) = .ok () ∧
    Scope.check 2 (Threading.thread sharingRoutine) ≠ .ok () := by
  have hmade : ∀ p ∈ sharingRoutine, p.Constructed := by
    simp only [sharingRoutine, List.forall_mem_cons]
    exact ⟨.numbered (by decide) 5, .tstore _ _, .hop _, .tload _ _, .target _, .hop _, .target _,
      .ret _, by simp⟩
  have hvalid : ∀ p ∈ sharingRoutine, p.validate = .ok () := by
    simp only [sharingRoutine, List.forall_mem_cons]
    exact ⟨rfl, rfl, rfl, rfl, rfl, rfl, rfl, rfl, by simp⟩
  have hlabelled : Labelled sharingRoutine := Scope.labelled_iff.2 (by decide)
  refine ⟨(static_checks_iff hmade 8).2 ⟨hvalid, fun _ _ _ => hlabelled.unique, fun p hp => ?_,
    by decide⟩, fun h => ?_⟩
  · obtain ⟨i, hi⟩ := List.mem_iff_getElem?.1 hp
    exact hlabelled.defined hi
  · have htyped := ((static_checks_iff hmade 2).1 h).2.2.2 (.tstore .int32 0)
      (by simp [sharingRoutine]) (.tload .uint16 0) (by simp [sharingRoutine]) rfl rfl rfl
    exact absurd htyped (by decide)

end Graph

end StackFlow
