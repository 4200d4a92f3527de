import StackFlow.Proofs.Exchanges

/-!
# Temporaries that hold references

The static checks of a routine let a temporary keep its type.

* `Scope.reference_of_compatible` says that a type that holds references is compatible with itself
  only.
* `Graph.Built.reference_iff` says that whether a temporary holds references is the same
  at all places, and `Graph.Built.reference_of_class` that it is the same for all members
  of a class.
-/

namespace StackFlow

open Relation

namespace Scope

theorem reference_of_compatible {ptr : Int64} {a b : Ty} (h : Ty.compatible ptr a b = true) :
    b = .reference ↔ a = .reference := by
  unfold Ty.compatible at h
  split at h
  · rename_i hints
    rw [Bool.and_eq_true] at hints
    constructor
    · rintro rfl
      cases hints.2
    · rintro rfl
      cases hints.1
  · rw [beq_iff_eq] at h
    rw [h]

end Scope

namespace Graph.Built

variable {o : Options} {code : List Instr} {g : Graph}

/-- A temporary holds references at all places or at none. -/
theorem reference_iff (h : Built o code g) {b b' : Nat} {p p' : Instr}
    (hp : p ∈ (g.block b).code) (hp' : p' ∈ (g.block b').code) (haccess : p.accessesTemp = true)
    (haccess' : p'.accessesTemp = true) (htemp : p.temp = p'.temp) :
    p.ty = .reference ↔ p'.ty = .reference := by
  have hagree := Scope.agree_of_check h.checked p (h.instr_mem hp) p' (h.instr_mem hp')
  exact (Scope.reference_of_compatible (hagree haccess haccess' htemp)).symm

theorem accessesTemp_of_loads {p : Instr} {t : Int64} (h : p.loads t = true) :
    p.accessesTemp = true ∧ p.temp = t := by
  rw [Instr.loads_iff] at h
  exact ⟨by rw [Instr.accessesTemp, h.1]; rfl, h.2⟩

theorem accessesTemp_of_stores {p : Instr} {t : Int64} (h : p.stores t = true) :
    p.accessesTemp = true ∧ p.temp = t := by
  rw [Instr.stores_iff] at h
  exact ⟨by rw [Instr.accessesTemp, h.1]; rfl, h.2⟩

/-- Whether the temporary `t` holds references. -/
def HoldsReferences (g : Graph) (t : Int64) : Prop :=
  ∃ b p, p ∈ (g.block b).code ∧ p.accessesTemp = true ∧ p.temp = t ∧ p.ty = .reference

/-- A temporary that copies connect to one that holds references holds references. -/
theorem holdsReferences_congr (h : Built o code g) {t u : Int64}
    (hconnected : EqvGen (Copies g) t u) : HoldsReferences g t ↔ HoldsReferences g u := by
  induction hconnected with
  | refl => exact Iff.rfl
  | symm _ _ _ ih => exact ih.symm
  | trans _ _ _ _ _ ih ih' => exact ih.trans ih'
  | rel t u hcopies =>
    obtain ⟨_, _, b, j, l, p, v, hp, hstores, _, hv, hload, hty⟩ := hcopies
    have hp := List.mem_of_getElem? hp
    have hv := List.mem_of_getElem? hv
    obtain ⟨haccess, htemp⟩ := accessesTemp_of_stores hstores
    obtain ⟨haccess', htemp'⟩ := accessesTemp_of_loads hload
    constructor
    · rintro ⟨b', p', hp', haccess'', htemp'', href⟩
      refine ⟨b, v, hv, haccess', htemp', ?_⟩
      rw [hty]
      exact (h.reference_iff hp' hp haccess'' haccess (htemp''.trans htemp.symm)).1 href
    · rintro ⟨b', p', hp', haccess'', htemp'', href⟩
      refine ⟨b, p, hp, haccess, htemp, ?_⟩
      rw [← hty]
      exact (h.reference_iff hp' hv haccess'' haccess' (htemp''.trans htemp'.symm)).1 href

/-- If one member of a class is loaded as a reference, all loads of its members are loads
of references. -/
theorem reference_of_class (h : Built o code g) {b b' : Nat} {p p' : Instr} {k : Int64}
    (hp : p ∈ (g.block b).code) (hp' : p' ∈ (g.block b').code)
    (hload : p.loads p.temp = true) (hload' : p'.loads p'.temp = true)
    (hclass : g.aliases.class? p.temp = some k) (hclass' : g.aliases.class? p'.temp = some k)
    (href : p.ty = .reference) : p'.ty = .reference := by
  have hholds : HoldsReferences g p'.temp :=
    (h.holdsReferences_congr (Aliases.eqvGen_of_class? hclass hclass')).1
      ⟨b, p, hp, (accessesTemp_of_loads hload).1, rfl, href⟩
  obtain ⟨b'', q, hq, haccess, htemp, href⟩ := hholds
  exact (h.reference_iff hq hp' haccess (accessesTemp_of_loads hload').1 htemp).1 href

end Graph.Built

end StackFlow
