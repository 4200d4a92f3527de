import StackFlow.Instr.Check
import StackFlow.Proofs.HopThreading
import StackFlow.Proofs.Machine

/-!
# What a redirected jump keeps

Threading does not edit the label of a jump that it redirects: it makes the jump anew from the
label and the sense.  A jump made with a constructor has nothing else to lose.  One that was put
together field by field may have, and then takes, leaves and reads other amounts than before, and
is no longer refused for them.

* `Instr.Relabelled` says that two instructions differ in the label at most, and only if they
  jump; `Instr.PlainJump` singles out the jumps that the constructors make.
* `Threading.thread_rebuilds` says of any code what threading keeps of each instruction, and at
  which instructions it does more than relabel.
* `Threading.thread_relabels` is the consequence for code whose jumps are plain.
-/

namespace StackFlow

variable {p p' : Instr}

namespace Instr

/-- `p'` is `p` up to the label, and has another label only if `p` is a jump. -/
structure Relabelled (p p' : Instr) : Prop where
  rest : p = { p' with label := p.label }
  jumps : p'.label ≠ p.label → p.op.jumps = true

/-- The jump that a constructor makes of the label and the sense. -/
def PlainJump (p : Instr) : Prop := p = .branch p.label p.sense ∨ p = .hop p.label

/-- Whether the instruction takes, leaves and reads what its opcode says. -/
def takesRow (p : Instr) : Bool := p.sameShape (.ofOpcode p.op)

theorem Relabelled.refl (p : Instr) : p.Relabelled p :=
  ⟨by cases p; rfl, fun hne => absurd rfl hne⟩

/-- Relabelling keeps the amounts taken, left and read. -/
theorem Relabelled.sameShape (h : p.Relabelled p') : p.sameShape p' = true := by
  rw [h.rest]
  simp [Instr.sameShape]

theorem Relabelled.sense (h : p.Relabelled p') : p'.sense = p.sense :=
  (congrArg Instr.sense h.rest).symm

/-- As long as the labels are not negative, relabelling keeps what is wrong with the operands. -/
theorem Relabelled.malformation? (h : p.Relabelled p') (hp : 0 ≤ p.label) (hp' : 0 ≤ p'.label) :
    p'.malformation? = p.malformation? := by
  obtain ⟨hrest, -⟩ := h
  generalize p.label = label at hrest hp
  subst hrest
  have hlabel : ¬ label < 0 := Int64.not_lt.2 hp
  have hlabel' : ¬ p'.label < 0 := Int64.not_lt.2 hp'
  simp [Instr.malformation?, accessesTemp, hlabel, hlabel']

/-- The jumps among the instructions that the constructors make are plain. -/
theorem Constructed.plainJump (h : p.Constructed) (hjumps : p.op.jumps = true) :
    p.PlainJump := by
  cases h with
  | branch => exact .inl rfl
  | hop => exact .inr rfl
  | ret ty => rw [op_ret] at hjumps; cases hjumps
  | plain h => rcases jumps_iff.1 hjumps with rfl | rfl <;> simp at h
  | texted h => rcases jumps_iff.1 hjumps with rfl | rfl <;> simp at h
  | numbered h => rcases jumps_iff.1 hjumps with rfl | rfl <;> simp at h
  | typed h => rcases jumps_iff.1 hjumps with rfl | rfl <;> simp at h
  | _ => cases hjumps

theorem PlainJump.jumps (h : p.PlainJump) : p.op.jumps = true := by
  rcases h with h | h <;> rw [h] <;> rfl

/-- Two plain jumps of one opcode and one sense differ in the label. -/
theorem PlainJump.relabelled (h : p.PlainJump) (h' : p'.PlainJump) (hop : p'.op = p.op)
    (hsense : p.op = .branch → p'.sense = p.sense) : p.Relabelled p' := by
  refine ⟨?_, fun _ => h.jumps⟩
  rcases h with h | h <;> rcases h' with h' | h'
  · rw [h', hsense (by rw [h]; rfl)]
    exact h
  · rw [h, h'] at hop
    cases hop
  · rw [h, h'] at hop
    cases hop
  · rw [h']
    exact h

/-- Of a plain jump, the checks look at the label only. -/
theorem PlainJump.malformation? (h : p.PlainJump) :
    p.malformation? = if p.label < 0 then some (.negativeLabel p.op p.label) else none := by
  have hbranch : ∀ label sense, (branch label sense).malformation? =
      if label < 0 then some (.negativeLabel .branch label) else none := by
    intro label sense
    by_cases hneg : label < 0 <;> simp [Instr.malformation?, branch, ofOpcode, hneg, Opcode.row,
      Opcode.isValid, Opcode.accessesTemp, Opcode.isLabelled, accessesTemp]
  have hhop : ∀ label, (hop label).malformation? =
      if label < 0 then some (.negativeLabel .hop label) else none := by
    intro label
    by_cases hneg : label < 0 <;> simp [Instr.malformation?, hop, ofOpcode, hneg, Opcode.row,
      Opcode.isValid, Opcode.accessesTemp, Opcode.isLabelled, accessesTemp]
  rcases h with h | h <;> rw [h]
  · exact hbranch _ _
  · exact hhop _

end Instr

namespace Threading

open Instr

variable {hs : List (Int64 × Int64)}

/-- What threading makes of the instruction `p`. -/
structure Rebuilt (p p' : Instr) : Prop where
  op : p'.op = p.op
  sense : p.op = .branch → p'.sense = p.sense
  same : p'.label = p.label → p' = p
  /-- A new label stands in a plain jump, and nothing else of it is checked any more. -/
  plain : p'.label ≠ p.label → p.op.jumps = true ∧ p'.PlainJump ∧
    p'.malformation? = if p'.label < 0 then some (.negativeLabel p'.op p'.label) else none
  relabelled : p.Relabelled p' ↔ p'.label = p.label ∨ p.PlainJump
  sameShape : p.sameShape p' = true ↔ p'.label = p.label ∨ p.takesRow = true

/-- An instruction that is left as it is. -/
theorem Rebuilt.refl (p : Instr) : Rebuilt p p where
  op := rfl
  sense _ := rfl
  same _ := rfl
  plain hne := absurd rfl hne
  relabelled := iff_of_true (.refl p) (.inl rfl)
  sameShape := iff_of_true (Relabelled.refl p).sameShape (.inl rfl)

/-- A jump that is made anew. -/
theorem Rebuilt.of_plainJump (hne : p'.label ≠ p.label) (hplain : p'.PlainJump)
    (hop : p'.op = p.op) (hsense : p.op = .branch → p'.sense = p.sense) : Rebuilt p p' where
  op := hop
  sense := hsense
  same heq := absurd heq hne
  plain _ := ⟨hop ▸ hplain.jumps, hplain, hplain.malformation?⟩
  relabelled := by
    rw [or_iff_right hne]
    constructor
    · intro hrel
      -- the given jump is the new one with its own label, so it is plain as well
      have hrest := hrel.rest
      rcases hplain with h | h
      · rw [h] at hrest
        exact .inl (by rw [hrest]; rfl)
      · rw [h] at hrest
        exact .inr (by rw [hrest]; rfl)
    · intro hgiven
      exact hgiven.relabelled hplain hop hsense
  sameShape := by
    rw [or_iff_right hne, takesRow, ← hop]
    rcases hplain with h | h <;> rw [h] <;> exact Iff.rfl

theorem rebuilt_redirect (hs : List (Int64 × Int64)) (p : Instr) : Rebuilt p (redirect hs p) := by
  rcases redirect_cases hs p with hsame | ⟨hne, ⟨hop, hjump⟩ | ⟨hop, hjump⟩⟩
  · rw [hsame]
    exact .refl p
  · rw [hjump]
    exact .of_plainJump hne (.inl rfl) hop.symm fun _ => rfl
  · rw [hjump]
    refine .of_plainJump hne (.inr rfl) hop.symm fun hbranch => ?_
    rw [hop] at hbranch
    cases hbranch

/-- Threading keeps the number of the instructions, and what it makes of each has the same
opcode and, at a branch, the same sense.  The label differs only at a jump, and if it does not,
nothing does.  At a jump with a new label all else is as the constructor gives it, whatever it
was: so exactly the plain jumps are only relabelled, exactly those that take, leave and read what
the opcode says go on to do so, and none is refused for these amounts. -/
theorem thread_rebuilds (code : List Instr) : List.Forall₂ Rebuilt code (thread code) :=
  List.forall₂_map_right_iff.2 (List.forall₂_same.2 fun p _ => rebuilt_redirect (hops code) p)

/-- The branch of `readingBranch` is fit to enter a graph, and is redirected; what stands in its
place does not read the three bytes. -/
theorem thread_rebuilds_readingBranch :
    (∀ p ∈ readingBranch, p.malformation? = none) ∧
      ¬ List.Forall₂ Relabelled readingBranch (thread readingBranch) := by
  refine ⟨by decide, fun hrel => ?_⟩
  have hrebuilt := (thread_rebuilds readingBranch).get (i := 1) (by decide) (by decide)
  have hshape := (hrel.get (i := 1) (by decide) (by decide)).sameShape
  rcases hrebuilt.sameShape.1 hshape with hlabel | hrow
  · exact absurd hlabel (by decide)
  · exact absurd hrow (by decide)

/-- Threading only relabels code whose jumps are plain. -/
theorem thread_relabels {code : List Instr} (hplain : ∀ p ∈ code, p.op.jumps = true → p.PlainJump) :
    List.Forall₂ Relabelled code (thread code) := by
  refine List.forall₂_map_right_iff.2 (List.forall₂_same.2 fun p hp => ?_)
  have hrebuilt := rebuilt_redirect (hops code) p
  rw [hrebuilt.relabelled]
  by_cases hlabel : (redirect (hops code) p).label = p.label
  · exact .inl hlabel
  · exact .inr (hplain p hp (hrebuilt.plain hlabel).1)

/-- The branches that the constructors make have nothing to lose. -/
theorem keepsBranches_of_constructed {code : List Instr} (hmade : ∀ p ∈ code, p.Constructed) :
    KeepsBranches code := by
  intro p hp hop _
  rcases (hmade p hp).plainJump (jumps_iff.2 (.inl hop)) with h | h
  · exact h
  · rw [h] at hop
    cases hop

/-- The same of code that the constructors make. -/
theorem thread_relabels_of_constructed {code : List Instr} (hmade : ∀ p ∈ code, p.Constructed) :
    List.Forall₂ Relabelled code (thread code) :=
  thread_relabels fun p hp => (hmade p hp).plainJump

end Threading

end StackFlow
