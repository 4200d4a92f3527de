import Mathlib.Data.List.Perm.Subperm
import Mathlib.Logic.Relation
import StackFlow.Proofs.Labels

/-!
# Hop threading keeps the traces

Threading redirects a jump to the end of the chain of hops that its label starts.
There are three groups.

* Chains of hops.  `Passes` is one hop of a chain, and `Ends` says that the chain from
  a label comes to a label that does not pass control on.  `lookup_resolve_of_ends`
  says that `resolve` finds that label; a chain that closes on itself has none, and
  `resolve` then stops somewhere on the cycle.
* Redirected instructions keep everything that decides where control goes, except the
  label.  They are made anew, though, so a branch shows what it showed only if there is
  nothing to it but its label and its sense (`KeepsBranches`).  `rebuilt` is the list with
  its jumps made anew and their labels as they were.
* The traces.  A chain that ends can be walked step by step in the given list and
  at once in the threaded one.  A chain that does not end shows nothing in either.
  `hasTrace_thread_rebuilt` holds of every list, `hasTrace_thread` of those whose
  branches are kept.
-/

namespace StackFlow.Threading

open Relation

/-! ## Chains of hops -/

/-- The label `a` passes control on to the label `b`. -/
def Passes (hops : List (Int64 × Int64)) (a b : Int64) : Prop := hops.lookup a = some b

/-- The chain of hops from `a` comes to a label that does not pass control on. -/
def Ends (hops : List (Int64 × Int64)) (a : Int64) : Prop :=
  ∃ z, ReflTransGen (Passes hops) a z ∧ hops.lookup z = none

variable {hs : List (Int64 × Int64)}

theorem Passes.unique {a b b' : Int64} (h : Passes hs a b) (h' : Passes hs a b') : b = b' :=
  Option.some.inj (h.symm.trans h')

theorem Passes.mem {a b : Int64} (h : Passes hs a b) : (a, b) ∈ hs := by
  obtain ⟨l₁, l₂, heq, _⟩ := List.lookup_eq_some_iff.1 h
  rw [heq]
  simp

/-- On a cycle, every label that can be reached leads back. -/
theorem leadsBack_of_cycle {e next : Int64} (hnext : Passes hs e next)
    (hback : ReflTransGen (Passes hs) next e) {x : Int64}
    (hx : ReflTransGen (Passes hs) e x) : ReflTransGen (Passes hs) x e := by
  induction hx with
  | refl => exact .refl
  | tail _ hstep ih =>
    rcases ih.cases_head with rfl | ⟨y, hy, hrest⟩
    · exact hnext.unique hstep ▸ hback
    · exact hy.unique hstep ▸ hrest

/-- A chain that has come round to a cycle does not end. -/
theorem not_ends_of_cycle {e next : Int64} (hnext : Passes hs e next)
    (hback : ReflTransGen (Passes hs) next e) : ¬ Ends hs e := by
  rintro ⟨z, hz, hnone⟩
  rcases (leadsBack_of_cycle hnext hback hz).cases_head with rfl | ⟨y, hy, _⟩
  · simp [Passes, hnone] at hnext
  · simp [Passes, hnone] at hy

/-- The rest of a chain ends if the chain does. -/
theorem Ends.of_passes {a b : Int64} (h : Ends hs a) (hab : Passes hs a b) : Ends hs b := by
  obtain ⟨z, hz, hnone⟩ := h
  rcases hz.cases_head with rfl | ⟨y, hy, hrest⟩
  · simp [Passes, hnone] at hab
  · exact ⟨z, hab.unique hy ▸ hrest, hnone⟩

theorem Ends.of_leads {a b : Int64} (h : Ends hs a) (hab : ReflTransGen (Passes hs) a b) :
    Ends hs b := by
  induction hab with
  | refl => exact h
  | tail _ hstep ih => exact ih.of_passes hstep

/-- All chains from one label that end do so at the same label. -/
theorem end_unique {a z z' : Int64} (hz : ReflTransGen (Passes hs) a z)
    (hnone : hs.lookup z = none) (hz' : ReflTransGen (Passes hs) a z')
    (hnone' : hs.lookup z' = none) : z = z' := by
  induction hz using ReflTransGen.head_induction_on with
  | refl =>
    rcases hz'.cases_head with rfl | ⟨y, hy, _⟩
    · rfl
    · simp [Passes, hnone] at hy
  | head hstep _ ih =>
    rcases hz'.cases_head with rfl | ⟨y, hy, hrest⟩
    · simp [Passes, hnone'] at hstep
    · exact ih (hstep.unique hy ▸ hrest)

/-- What `follow` keeps while it walks a chain: the labels seen are all different, they
lead to the current one, and all but the current one pass control on.  Together with
the fuel their number is one more than the number of hops. -/
structure Walking (hops : List (Int64 × Int64)) (fuel : Nat) (seen : List Int64)
    (label : Int64) : Prop where
  nodup : seen.Nodup
  mem : label ∈ seen
  leads : ∀ x ∈ seen, ReflTransGen (Passes hops) x label
  passes : ∀ x ∈ seen, x ≠ label → hops.lookup x ≠ none
  count : seen.length + fuel = hops.length + 1

/-- With no fuel left all hops have been seen, so the current label passes no control
on. -/
theorem Walking.lookup_of_fuel_zero {seen : List Int64} {label : Int64}
    (h : Walking hs 0 seen label) : hs.lookup label = none := by
  by_contra hsome
  have hkeys : seen ⊆ hs.map (·.1) := by
    intro x hx
    have hx' : hs.lookup x ≠ none := by
      by_cases he : x = label
      · exact he ▸ hsome
      · exact h.passes x hx he
    obtain ⟨y, hy⟩ := Option.ne_none_iff_exists'.1 hx'
    obtain ⟨l₁, l₂, rfl, _⟩ := List.lookup_eq_some_iff.1 hy
    simp
  have hle := (List.subperm_of_subset h.nodup hkeys).length_le
  rw [List.length_map] at hle
  have := h.count
  omega

theorem Walking.step {fuel : Nat} {seen : List Int64} {label next : Int64}
    (h : Walking hs (fuel + 1) seen label) (hnext : Passes hs label next)
    (hnew : next ∉ seen) : Walking hs fuel (next :: seen) next where
  nodup := List.nodup_cons.2 ⟨hnew, h.nodup⟩
  mem := List.mem_cons_self
  leads x hx := by
    rcases List.mem_cons.1 hx with rfl | hx
    · exact .refl
    · exact (h.leads x hx).tail hnext
  passes x hx hne := by
    rcases List.mem_cons.1 hx with rfl | hx
    · exact absurd rfl hne
    · by_cases he : x = label
      · rw [he, hnext]
        simp
      · exact h.passes x hx he
  count := by
    have := h.count
    simp only [List.length_cons]
    omega

/-- Where `follow` stops, either the chain ends or it closes on itself. -/
theorem follow_spec (fuel : Nat) (seen : List Int64) (label : Int64)
    (h : Walking hs fuel seen label) :
    ReflTransGen (Passes hs) label (follow hs fuel seen label) ∧
      (hs.lookup (follow hs fuel seen label) = none ∨
        ∃ next, Passes hs (follow hs fuel seen label) next ∧
          ReflTransGen (Passes hs) next (follow hs fuel seen label)) := by
  induction fuel generalizing seen label with
  | zero => exact ⟨.refl, .inl h.lookup_of_fuel_zero⟩
  | succ fuel ih =>
    rw [follow]
    split
    · rename_i hnone
      exact ⟨.refl, .inl hnone⟩
    · rename_i next hnext
      split
      · rename_i hseen
        exact ⟨.refl, .inr ⟨next, hnext, h.leads _ (List.contains_iff_mem.1 hseen)⟩⟩
      · rename_i hseen
        obtain ⟨hleads, hstop⟩ :=
          ih _ _ (h.step hnext fun hmem => hseen (List.contains_iff_mem.2 hmem))
        exact ⟨.head hnext hleads, hstop⟩

theorem walking_start (label : Int64) : Walking hs hs.length [label] label where
  nodup := List.nodup_singleton label
  mem := List.mem_singleton_self label
  leads x hx := by rw [List.mem_singleton.1 hx]
  passes x hx hne := absurd (List.mem_singleton.1 hx) hne
  count := by rw [List.length_singleton, Nat.add_comm]

/-- A label leads to the one it is resolved to. -/
theorem leads_resolve (label : Int64) : ReflTransGen (Passes hs) label (resolve hs label) :=
  (follow_spec _ _ _ (walking_start label)).1

/-- A chain that ends is followed to its end. -/
theorem lookup_resolve_of_ends {label : Int64} (h : Ends hs label) :
    hs.lookup (resolve hs label) = none := by
  rcases (follow_spec _ _ _ (walking_start label)).2 with hnone | ⟨next, hnext, hback⟩
  · exact hnone
  · exact absurd (h.of_leads (leads_resolve label)) (not_ends_of_cycle hnext hback)

/-- On a chain that ends, one hop does not change where a label is resolved to. -/
theorem resolve_eq_of_passes {a b : Int64} (h : Ends hs a) (hab : Passes hs a b) :
    resolve hs b = resolve hs a :=
  end_unique ((leads_resolve b).head hab) (lookup_resolve_of_ends (h.of_passes hab))
    (leads_resolve a) (lookup_resolve_of_ends h)

theorem resolve_eq_self {label : Int64} (h : hs.lookup label = none) :
    resolve hs label = label := by
  have hleads : ReflTransGen (Passes hs) label (resolve hs label) := leads_resolve label
  rcases hleads.cases_head with he | ⟨y, hy, _⟩
  · exact he.symm
  · simp [Passes, h] at hy

/-! ## Redirected instructions -/

theorem redirect_eq (p : Instr) : redirect hs p =
    if resolve hs p.label = p.label then p
    else if p.op = .branch then .branch (resolve hs p.label) p.sense
    else if p.op = .hop then .hop (resolve hs p.label) else p :=
  rfl

/-- Either an instruction is left as it is, or it is a jump and made anew with another label. -/
theorem redirect_cases (hs : List (Int64 × Int64)) (p : Instr) :
    redirect hs p = p ∨ resolve hs p.label ≠ p.label ∧
      (p.op = .branch ∧ redirect hs p = .branch (resolve hs p.label) p.sense ∨
        p.op = .hop ∧ redirect hs p = .hop (resolve hs p.label)) := by
  rw [redirect_eq]
  split_ifs with hsame hbranch hhop
  · exact .inl rfl
  · exact .inr ⟨hsame, .inl ⟨hbranch, rfl⟩⟩
  · exact .inr ⟨hsame, .inr ⟨hhop, rfl⟩⟩
  · exact .inl rfl

@[simp] theorem op_redirect (p : Instr) : (redirect hs p).op = p.op := by
  rw [redirect_eq]
  split_ifs with h₁ h₂ h₃
  · rfl
  · rw [h₂]; rfl
  · rw [h₃]; rfl
  · rfl

theorem label_redirect_of_jumps {p : Instr} (h : p.op.jumps = true) :
    (redirect hs p).label = resolve hs p.label := by
  rw [redirect_eq]
  split_ifs with h₁ h₂ h₃
  · exact h₁.symm
  · rfl
  · rfl
  · rcases jumps_iff.1 h with h | h
    · exact absurd h h₂
    · exact absurd h h₃

/-- Only jumps are redirected. -/
theorem redirect_eq_self {p : Instr} (h : p.op.jumps = false) : redirect hs p = p := by
  rw [redirect_eq]
  split_ifs with h₁ h₂ h₃
  · rfl
  · rw [h₂] at h; cases h
  · rw [h₃] at h; cases h
  · rfl

theorem transfers_redirect (p : Instr) : (redirect hs p).transfers = p.transfers := by
  cases hj : p.op.jumps with
  | false => rw [redirect_eq_self hj]
  | true =>
    rcases jumps_iff.1 hj with h | h
    · rw [transfers_of_branch h, transfers_of_branch (by rw [op_redirect, h])]
    · rw [transfers_of_hop h, transfers_of_hop (by rw [op_redirect, h])]

theorem getElem?_thread (code : List Instr) (i : Nat) :
    (thread code)[i]? = code[i]?.map (redirect (hops code)) := by
  simp [thread]

theorem length_thread (code : List Instr) : (thread code).length = code.length := by
  simp [thread]

/-- Targets stay where they are if opcodes and their labels do. -/
theorem targetAt_map {f : Instr → Instr} (hop : ∀ p, (f p).op = p.op)
    (hlabel : ∀ p, p.op = .target → (f p).label = p.label) {code : List Instr} {i : Nat}
    {l : Int64} : TargetAt (code.map f) i l ↔ TargetAt code i l := by
  simp only [TargetAt, List.getElem?_map, Option.map_eq_some_iff]
  constructor
  · rintro ⟨_, ⟨p, hp, rfl⟩, htarget, hl⟩
    rw [hop] at htarget
    exact ⟨p, hp, htarget, hlabel p htarget ▸ hl⟩
  · rintro ⟨p, hp, htarget, hl⟩
    exact ⟨f p, ⟨p, hp, rfl⟩, by rw [hop, htarget], by rw [hlabel p htarget, hl]⟩

theorem targetAt_thread {code : List Instr} {i : Nat} {l : Int64} :
    TargetAt (thread code) i l ↔ TargetAt code i l :=
  targetAt_map op_redirect fun p hop => by rw [redirect_eq_self (by rw [hop]; rfl)]

/-! ## Branches that are made anew -/

/-- The instruction as threading makes it, with the label it had. -/
def remake (hs : List (Int64 × Int64)) (p : Instr) : Instr :=
  { redirect hs p with label := p.label }

/-- The list with the jumps that threading redirects made anew, each with its own label. -/
def rebuilt (code : List Instr) : List Instr := code.map (remake (hops code))

/-- A branch put together field by field, which reads three bytes; the hop behind its target goes
on to another. -/
def readingBranch : List Instr :=
  [.number 1, { op := .branch, label := 1, sense := true, inputs := 1, operands := 3 },
    .ret .void, .target 1, .hop 2, .target 2, .ret .void]

/-- Every branch that threading redirects is made of its label and its sense. -/
def KeepsBranches (code : List Instr) : Prop :=
  ∀ p ∈ code, p.op = .branch → resolve (hops code) p.label ≠ p.label →
    p = .branch p.label p.sense

@[simp] theorem label_remake (p : Instr) : (remake hs p).label = p.label := rfl

@[simp] theorem op_remake (p : Instr) : (remake hs p).op = p.op := op_redirect p

theorem remake_cases (hs : List (Int64 × Int64)) (p : Instr) :
    remake hs p = p ∧ redirect hs p = p ∨ resolve hs p.label ≠ p.label ∧
      (p.op = .branch ∧ remake hs p = .branch p.label p.sense ∨
        p.op = .hop ∧ remake hs p = .hop p.label) := by
  rcases redirect_cases hs p with h | ⟨hne, ⟨hop, h⟩ | ⟨hop, h⟩⟩
  · exact .inl ⟨by rw [remake, h]; cases p; rfl, h⟩
  · exact .inr ⟨hne, .inl ⟨hop, by rw [remake, h]; rfl⟩⟩
  · exact .inr ⟨hne, .inr ⟨hop, by rw [remake, h]; rfl⟩⟩

theorem transfers_remake (p : Instr) : (remake hs p).transfers = p.transfers := by
  rcases remake_cases hs p with ⟨h, -⟩ | ⟨-, ⟨hop, h⟩ | ⟨hop, h⟩⟩
  · rw [h]
  · rw [transfers_of_branch hop, h]
    rfl
  · rw [transfers_of_hop hop, h]
    rfl

theorem redirect_of_branch {p : Instr} (hop : p.op = .branch)
    (hne : resolve hs p.label ≠ p.label) :
    redirect hs p = .branch (resolve hs p.label) p.sense := by
  rw [redirect_eq, if_neg hne, if_pos hop]

theorem redirect_of_hop {p : Instr} (hop : p.op = .hop) (hne : resolve hs p.label ≠ p.label) :
    redirect hs p = .hop (resolve hs p.label) := by
  rw [redirect_eq, if_neg hne, if_neg (by simp [hop]), if_pos hop]

/-- Once made anew, a jump loses nothing more. -/
theorem redirect_remake (p : Instr) : redirect hs (remake hs p) = redirect hs p := by
  rcases remake_cases hs p with ⟨h, -⟩ | ⟨hne, ⟨hop, h⟩ | ⟨hop, h⟩⟩
  · rw [h]
  · rw [h, redirect_of_branch hop hne]
    exact redirect_of_branch rfl hne
  · rw [h, redirect_of_hop hop hne]
    exact redirect_of_hop rfl hne

theorem hops_map {f : Instr → Instr} (hop : ∀ p, (f p).op = p.op)
    (hlabel : ∀ p, (f p).label = p.label) : ∀ code : List Instr, hops (code.map f) = hops code
  | [] => rfl
  | [_] => rfl
  | p :: q :: rest => by
    have hlater := hops_map hop hlabel (q :: rest)
    rw [List.map_cons] at hlater
    simp only [List.map_cons, hops, hlater, hop, hlabel]

theorem getElem?_rebuilt (code : List Instr) (i : Nat) :
    (rebuilt code)[i]? = code[i]?.map (remake (hops code)) := by
  simp [rebuilt]

theorem targetAt_rebuilt {code : List Instr} {i : Nat} {l : Int64} :
    TargetAt (rebuilt code) i l ↔ TargetAt code i l :=
  targetAt_map op_remake fun _ _ => rfl

/-- Jumps that are made anew go where they went. -/
theorem next_rebuilt {code : List Instr} {i j : Nat} :
    (Flowchart.ofCode (rebuilt code)).next i j ↔ (Flowchart.ofCode code).next i j := by
  simp only [Flowchart.ofCode, getElem?_rebuilt, Option.map_eq_some_iff]
  constructor
  · rintro ⟨_, ⟨p, hp, rfl⟩, hway⟩
    rw [transfers_remake, op_remake, label_remake, targetAt_rebuilt] at hway
    exact ⟨p, hp, hway⟩
  · rintro ⟨p, hp, hway⟩
    refine ⟨_, ⟨p, hp, rfl⟩, ?_⟩
    rwa [transfers_remake, op_remake, label_remake, targetAt_rebuilt]

@[simp] theorem hops_rebuilt (code : List Instr) : hops (rebuilt code) = hops code :=
  hops_map op_remake label_remake code

@[simp] theorem thread_rebuilt (code : List Instr) : thread (rebuilt code) = thread code := by
  rw [thread, hops_rebuilt, rebuilt, List.map_map, thread]
  exact List.map_congr_left fun p _ => redirect_remake p

theorem keepsBranches_rebuilt (code : List Instr) : KeepsBranches (rebuilt code) := by
  intro p hp hop hne
  rw [rebuilt, List.mem_map] at hp
  obtain ⟨q, hq, rfl⟩ := hp
  rw [hops_rebuilt, label_remake] at hne
  rw [op_remake] at hop
  rcases remake_cases (hops code) q with ⟨-, h⟩ | ⟨-, ⟨-, h⟩ | ⟨hhop, -⟩⟩
  · have hlabel : (redirect (hops code) q).label = _ :=
      label_redirect_of_jumps (jumps_iff.2 (.inl hop))
    exact absurd (h ▸ hlabel).symm hne
  · rw [h]
    rfl
  · rw [hop] at hhop
    cases hhop

/-- What is shown of a branch that is kept, and of everything else, stays the same. -/
theorem shown_redirect {p : Instr}
    (hkeeps : p.op = .branch → resolve hs p.label ≠ p.label → p = .branch p.label p.sense) :
    (redirect hs p).shown = p.shown := by
  by_cases hop : p.op = .branch
  · by_cases hsame : resolve hs p.label = p.label
    · rw [redirect_eq, if_pos hsame]
    · rw [shown_of_branch hop, shown_of_branch (by rw [op_redirect, hop]),
        redirect_of_branch hop hsame]
      conv_rhs => rw [hkeeps hop hsame]
      rfl
  · by_cases hhop : p.op = .hop
    · rw [shown_of_hop hhop, shown_of_hop (by rw [op_redirect, hhop])]
    · rw [redirect_eq_self (Bool.eq_false_iff.2 fun hj => (jumps_iff.1 hj).elim hop hhop)]

/-! ## Hops in the list -/

/-- The instruction at index `i` hops to the label `l`. -/
def HopAt (code : List Instr) (i : Nat) (l : Int64) : Prop :=
  ∃ p : Instr, code[i]? = some p ∧ p.op = .hop ∧ p.label = l

/-- The pairs are made of a target and a hop to another label right after it. -/
theorem mem_hops {a b : Int64} : ∀ {code : List Instr}, (a, b) ∈ hops code ↔
    a ≠ b ∧ ∃ i, TargetAt code i a ∧ HopAt code (i + 1) b
  | [] => by simp [hops, TargetAt]
  | [_] => by simp [hops, HopAt]
  | p :: q :: rest => by
    have hlater : (a, b) ∈ hops (q :: rest) ↔
        a ≠ b ∧ ∃ i, TargetAt (q :: rest) i a ∧ HopAt (q :: rest) (i + 1) b := mem_hops
    have hfirst : (∃ i, TargetAt (p :: q :: rest) i a ∧ HopAt (p :: q :: rest) (i + 1) b) ↔
        ((p.op = .target ∧ p.label = a) ∧ q.op = .hop ∧ q.label = b) ∨
          ∃ i, TargetAt (q :: rest) i a ∧ HopAt (q :: rest) (i + 1) b := by
      constructor
      · rintro ⟨_ | i, ⟨p', hp, hop⟩, q', hq, hhop⟩
        · cases hp
          cases hq
          exact .inl ⟨hop, hhop⟩
        · exact .inr ⟨i, ⟨p', hp, hop⟩, q', hq, hhop⟩
      · rintro (⟨hop, hhop⟩ | ⟨i, ⟨p', hp, hop⟩, q', hq, hhop⟩)
        · exact ⟨0, ⟨p, rfl, hop⟩, q, rfl, hhop⟩
        · exact ⟨i + 1, ⟨p', hp, hop⟩, q', hq, hhop⟩
    rw [hops, hfirst]
    split
    · rename_i hpair
      simp only [Bool.and_eq_true, decide_eq_true_eq] at hpair
      rw [List.mem_append, hlater, List.mem_singleton, Prod.mk.injEq]
      constructor
      · rintro (⟨hne, hi⟩ | ⟨rfl, rfl⟩)
        · exact ⟨hne, .inr hi⟩
        · exact ⟨hpair.2, .inl ⟨⟨hpair.1.1, rfl⟩, hpair.1.2, rfl⟩⟩
      · rintro ⟨hne, ⟨⟨_, ha⟩, _, hb⟩ | hi⟩
        · exact .inr ⟨ha.symm, hb.symm⟩
        · exact .inl ⟨hne, hi⟩
    · rename_i hpair
      simp only [Bool.and_eq_true, decide_eq_true_eq] at hpair
      rw [hlater]
      refine and_congr_right fun hne => ⟨.inr, fun h => h.resolve_left ?_⟩
      rintro ⟨⟨hop, rfl⟩, hhop, rfl⟩
      exact hpair ⟨⟨hop, hhop⟩, hne⟩

/-- A label that passes control on has its target right before a hop. -/
theorem Passes.targetAt {code : List Instr} {a b : Int64} (h : Passes (hops code) a b) :
    ∃ i, TargetAt code i a ∧ HopAt code (i + 1) b :=
  (mem_hops.1 h.mem).2

/-! ## Labels of the threaded list -/

/-- The labels of a list and those of the threaded list fit to the same targets. -/
theorem labelled_of_thread {code : List Instr} (h : Labelled (thread code)) :
    Labelled code where
  unique hi hj := h.unique (targetAt_thread.2 hi) (targetAt_thread.2 hj)
  defined := by
    intro i p hp hjumps
    cases hlook : (hops code).lookup p.label with
    | some b =>
      obtain ⟨j, hj, _⟩ := Passes.targetAt (show Passes (hops code) p.label b from hlook)
      exact ⟨j, hj⟩
    | none =>
      have hp' : (thread code)[i]? = some (redirect (hops code) p) := by
        rw [getElem?_thread, hp, Option.map_some]
      obtain ⟨j, hj⟩ := h.defined hp' (by rw [op_redirect]; exact hjumps)
      rw [label_redirect_of_jumps hjumps, resolve_eq_self hlook, targetAt_thread] at hj
      exact ⟨j, hj⟩

/-! ## The traces -/

section Traces

open Flowchart

variable {code : List Instr}

/-- From a target, control goes on with the next index only. -/
theorem next_of_targetAt {i j : Nat} {l : Int64} (h : TargetAt code i l) :
    (ofCode code).next i j ↔ j = i + 1 := by
  obtain ⟨p, hp, hop, _⟩ := h
  constructor
  · rintro ⟨q, hq, ⟨_, hj⟩ | ⟨hjumps, _⟩⟩
    · exact hj
    · cases hp.symm.trans hq
      rw [hop] at hjumps
      cases hjumps
  · exact fun hj => ⟨p, hp, .inl ⟨transfers_of_target hop, hj⟩⟩

/-- From a hop, control goes to the target of its label only. -/
theorem next_of_hopAt {i j : Nat} {l : Int64} (h : HopAt code i l) :
    (ofCode code).next i j ↔ TargetAt code j l := by
  obtain ⟨p, hp, hop, rfl⟩ := h
  constructor
  · rintro ⟨q, hq, ⟨hfalse, _⟩ | ⟨_, hj⟩⟩
    · cases hp.symm.trans hq
      rw [transfers_of_hop hop] at hfalse
      cases hfalse
    · cases hp.symm.trans hq
      exact hj
  · exact fun hj => ⟨p, hp, .inr ⟨by rw [hop]; rfl, hj⟩⟩

theorem shownAll_of_targetAt {i : Nat} {l : Int64} (h : TargetAt code i l) :
    shownAll ((ofCode code).code i) = [] := by
  obtain ⟨p, hp, hop, _⟩ := h
  simp [ofCode, hp, shown_of_target hop]

theorem shownAll_of_hopAt {i : Nat} {l : Int64} (h : HopAt code i l) :
    shownAll ((ofCode code).code i) = [] := by
  obtain ⟨p, hp, hop, _⟩ := h
  simp [ofCode, hp, shown_of_hop hop]

theorem not_exit_of_getElem? {i : Nat} {p : Instr} (h : code[i]? = some p) :
    ¬ (ofCode code).exit i := by
  have := (List.getElem?_eq_some_iff.1 h).1
  exact Nat.ne_of_lt this

/-- In the given list, a run may walk the chain from a label step by step. -/
theorem shows_of_leads (h : Labelled code) {a b : Int64}
    (hab : ReflTransGen (Passes (hops code)) a b) {i j : Nat} (ha : TargetAt code i a)
    (hb : TargetAt code j b) {t : List Instr} {s : Status}
    (hshows : (ofCode code).Shows j ((ofCode code).code j) t s) :
    (ofCode code).Shows i ((ofCode code).code i) t s := by
  induction hab using ReflTransGen.head_induction_on generalizing i with
  | refl => exact h.unique ha hb ▸ hshows
  | head hstep _ ih =>
    obtain ⟨k, hk, hhop⟩ := hstep.targetAt
    obtain rfl := h.unique ha hk
    obtain ⟨q, hq, hop, rfl⟩ := id hhop
    obtain ⟨m, hm⟩ := h.defined hq (by rw [hop]; rfl)
    refine (shows_congr (shownAll_of_targetAt ha)).2 (.follow ((next_of_targetAt ha).2 rfl) ?_)
    exact (shows_congr (shownAll_of_hopAt hhop)).2 (.follow ((next_of_hopAt hhop).2 hm) (ih hm))

/-- In the threaded list, a hop after a target leads to where its label is resolved. -/
theorem hopAt_thread {i : Nat} {l : Int64} (h : HopAt code i l) :
    HopAt (thread code) i (resolve (hops code) l) := by
  obtain ⟨p, hp, hop, rfl⟩ := h
  refine ⟨redirect (hops code) p, ?_, ?_, ?_⟩
  · rw [getElem?_thread, hp, Option.map_some]
  · rw [op_redirect, hop]
  · exact label_redirect_of_jumps (by rw [hop]; rfl)

/-- From a chain that does not end, the threaded list shows nothing. -/
theorem quiet_of_not_ends (h : Labelled (thread code)) {l : Int64}
    (hends : ¬ Ends (hops code) l) {i : Nat} (hi : TargetAt (thread code) i l)
    {t : List Instr} {s : Status}
    (hshows : (ofCode (thread code)).Shows i ((ofCode (thread code)).code i) t s) :
    t = [] ∧ s = .running := by
  -- the targets of such labels and the hops right after them
  let S : Nat → Prop := fun i => ∃ l, ¬ Ends (hops code) l ∧
    (TargetAt (thread code) i l ∨ HopAt (thread code) i (resolve (hops code) l))
  have hnext : ∀ {l}, ¬ Ends (hops code) l → ∃ b, Passes (hops code) l b := by
    intro l hl
    cases hb : (hops code).lookup l with
    | none => exact absurd ⟨l, .refl, hb⟩ hl
    | some b => exact ⟨b, hb⟩
  have hclosed : ∀ {a b}, ¬ Ends (hops code) a → ReflTransGen (Passes (hops code)) a b →
      ¬ Ends (hops code) b := by
    rintro a b ha hab ⟨z, hz, hnone⟩
    exact ha ⟨z, hab.trans hz, hnone⟩
  refine Shows.quiet (S := S) ?_ hshows ⟨l, hends, .inl hi⟩ (shownAll_of_targetAt hi)
  rintro n ⟨a, ha, hn | hn⟩
  · obtain ⟨p, hp, _⟩ := id hn
    refine ⟨shownAll_of_targetAt hn, not_exit_of_getElem? hp, ⟨n + 1, ?_⟩, ?_⟩
    · exact (next_of_targetAt hn).2 rfl
    · intro m hm
      obtain rfl := (next_of_targetAt hn).1 hm
      obtain ⟨b, hb⟩ := hnext ha
      obtain ⟨k, hk, hhop⟩ := hb.targetAt
      obtain rfl := h.unique hn (targetAt_thread.2 hk)
      exact ⟨b, hclosed ha (.single hb), .inr (hopAt_thread hhop)⟩
  · obtain ⟨p, hp, hop, hlabel⟩ := id hn
    obtain ⟨j, hj⟩ := h.defined hp (by rw [hop]; rfl)
    refine ⟨shownAll_of_hopAt hn, not_exit_of_getElem? hp, ⟨j, ?_⟩, ?_⟩
    · exact (next_of_hopAt hn).2 (hlabel ▸ hj)
    · intro m hm
      exact ⟨_, hclosed ha (leads_resolve a), .inl ((next_of_hopAt hn).1 hm)⟩

/-- In the threaded list, what can be seen from a label can also be seen from where the
label is resolved to. -/
theorem shows_resolve (h : Labelled (thread code)) {l : Int64} {i j : Nat}
    (hi : TargetAt (thread code) i l) (hj : TargetAt (thread code) j (resolve (hops code) l))
    {t : List Instr} {s : Status}
    (hshows : (ofCode (thread code)).Shows i ((ofCode (thread code)).code i) t s) :
    (ofCode (thread code)).Shows j ((ofCode (thread code)).code j) t s := by
  by_cases hends : Ends (hops code) l
  · cases hlook : (hops code).lookup l with
    | none =>
      rw [resolve_eq_self hlook] at hj
      exact h.unique hi hj ▸ hshows
    | some b =>
      have hpass : Passes (hops code) l b := hlook
      obtain ⟨k, hk, hhop⟩ := hpass.targetAt
      obtain rfl := h.unique hi (targetAt_thread.2 hk)
      have hhop' := hopAt_thread hhop
      rw [resolve_eq_of_passes hends hpass] at hhop'
      -- the run passes the target and the hop, unless it is looked at before
      have hshows := (shows_silent_iff (shownAll_of_targetAt hi)).1 hshows
      cases hshows with
      | pause => exact .pause _ _
      | follow way rest =>
        obtain rfl := (next_of_targetAt hi).1 way
        have rest := (shows_silent_iff (shownAll_of_hopAt hhop')).1 rest
        cases rest with
        | pause => exact .pause _ _
        | follow way rest => exact h.unique ((next_of_hopAt hhop').1 way) hj ▸ rest
        | fall exit =>
          obtain ⟨p, hp, _⟩ := hhop'
          exact absurd exit (not_exit_of_getElem? hp)
        | stop noWay => exact absurd ((next_of_hopAt hhop').2 hj) (noWay j)
      | fall exit =>
        obtain ⟨p, hp, _⟩ := hi
        exact absurd exit (not_exit_of_getElem? hp)
      | stop noWay => exact absurd ((next_of_targetAt hi).2 rfl) (noWay _)
  · obtain ⟨rfl, rfl⟩ := quiet_of_not_ends h hends hi hshows
    exact .pause _ _

theorem shownAll_code_thread (hkeeps : KeepsBranches code) (i : Nat) :
    shownAll ((ofCode (thread code)).code i) = shownAll ((ofCode code).code i) := by
  simp only [ofCode, getElem?_thread]
  cases hp : code[i]? with
  | none => rfl
  | some p => simp [shown_redirect (hkeeps p (List.mem_of_getElem? hp))]

theorem getElem?_thread_eq_some {i : Nat} {p : Instr} (h : (thread code)[i]? = some p) :
    ∃ q, code[i]? = some q ∧ p = redirect (hops code) q := by
  rw [getElem?_thread, Option.map_eq_some_iff] at h
  obtain ⟨q, hq, rfl⟩ := h
  exact ⟨q, hq, rfl⟩

/-- Control can go on from an index before threading exactly if it can after. -/
theorem exists_next_thread (h : Labelled (thread code)) (i : Nat) :
    (∃ j, (ofCode (thread code)).next i j) ↔ ∃ j, (ofCode code).next i j := by
  constructor
  · rintro ⟨j, p, hp, hway⟩
    obtain ⟨q, hq, rfl⟩ := getElem?_thread_eq_some hp
    rcases hway with ⟨hfalse, _⟩ | ⟨hjumps, _⟩
    · exact ⟨i + 1, q, hq, .inl ⟨by rw [← hfalse, transfers_redirect], rfl⟩⟩
    · rw [op_redirect] at hjumps
      obtain ⟨k, hk⟩ := (labelled_of_thread h).defined hq hjumps
      exact ⟨k, q, hq, .inr ⟨hjumps, hk⟩⟩
  · rintro ⟨j, q, hq, hway⟩
    have hp : (thread code)[i]? = some (redirect (hops code) q) := by
      rw [getElem?_thread, hq, Option.map_some]
    rcases hway with ⟨hfalse, _⟩ | ⟨hjumps, _⟩
    · exact ⟨i + 1, _, hp, .inl ⟨by rw [transfers_redirect, hfalse], rfl⟩⟩
    · have hjumps' : (redirect (hops code) q).op.jumps = true := by rw [op_redirect]; exact hjumps
      obtain ⟨k, hk⟩ := h.defined hp hjumps'
      exact ⟨k, _, hp, .inr ⟨hjumps', hk⟩⟩

theorem exit_thread (i : Nat) : (ofCode (thread code)).exit i ↔ (ofCode code).exit i := by
  simp only [ofCode, length_thread]

/-- The threaded list follows the given one: a jump goes to the end of the chain at
once. -/
theorem simulates_thread (h : Labelled (thread code)) (hkeeps : KeepsBranches code) :
    Simulates (ofCode code) (ofCode (thread code)) Eq where
  code := by
    rintro n _ rfl
    exact (shownAll_code_thread hkeeps n).symm
  next := by
    rintro n _ n' rfl ⟨p, hp, hway⟩
    have hp' : (thread code)[n]? = some (redirect (hops code) p) := by
      rw [getElem?_thread, hp, Option.map_some]
    refine ⟨n', rfl, fun t s hshows => ?_⟩
    rcases hway with ⟨hfalse, hn'⟩ | ⟨hjumps, hn'⟩
    · exact .follow ⟨_, hp', .inl ⟨by rw [transfers_redirect, hfalse], hn'⟩⟩ hshows
    · have hjumps' : (redirect (hops code) p).op.jumps = true := by rw [op_redirect]; exact hjumps
      obtain ⟨j, hj⟩ := h.defined hp' hjumps'
      refine .follow ⟨_, hp', .inr ⟨hjumps', hj⟩⟩ ?_
      rw [label_redirect_of_jumps hjumps] at hj
      exact shows_resolve h (targetAt_thread.2 hn') hj hshows
  exit := by
    rintro n _ rfl hexit
    exact (exit_thread n).2 hexit
  stop := by
    rintro n _ rfl hnone hexit
    refine ⟨fun m hm => ?_, fun he => hexit ((exit_thread n).1 he)⟩
    obtain ⟨j, hj⟩ := (exists_next_thread h n).1 ⟨m, hm⟩
    exact hnone j hj

/-- The given list follows the threaded one: a jump walks the chain. -/
theorem simulates_of_thread (h : Labelled (thread code)) (hkeeps : KeepsBranches code) :
    Simulates (ofCode (thread code)) (ofCode code) Eq where
  code := by
    rintro n _ rfl
    exact shownAll_code_thread hkeeps n
  next := by
    rintro n _ n' rfl ⟨p, hp, hway⟩
    obtain ⟨q, hq, rfl⟩ := getElem?_thread_eq_some hp
    refine ⟨n', rfl, fun t s hshows => ?_⟩
    rcases hway with ⟨hfalse, hn'⟩ | ⟨hjumps, hn'⟩
    · exact .follow ⟨q, hq, .inl ⟨by rw [← hfalse, transfers_redirect], hn'⟩⟩ hshows
    · rw [op_redirect] at hjumps
      rw [label_redirect_of_jumps hjumps, targetAt_thread] at hn'
      obtain ⟨j, hj⟩ := (labelled_of_thread h).defined hq hjumps
      refine .follow ⟨q, hq, .inr ⟨hjumps, hj⟩⟩ ?_
      exact shows_of_leads (labelled_of_thread h) (leads_resolve _) hj hn' hshows
  exit := by
    rintro n _ rfl hexit
    exact (exit_thread n).1 hexit
  stop := by
    rintro n _ rfl hnone hexit
    refine ⟨fun m hm => ?_, fun he => hexit ((exit_thread n).2 he)⟩
    obtain ⟨j, hj⟩ := (exists_next_thread h n).2 ⟨m, hm⟩
    exact hnone j hj

/-- Hop threading keeps the traces of a list whose labels fit and whose branches are kept. -/
theorem hasTrace_thread (h : Labelled (thread code)) (hkeeps : KeepsBranches code)
    {t : List Instr} {s : Status} :
    (ofCode (thread code)).HasTrace t s ↔ (ofCode code).HasTrace t s :=
  ⟨HasTrace.simulate (simulates_of_thread h hkeeps) rfl,
    HasTrace.simulate (simulates_thread h hkeeps) rfl⟩

/-- The threaded list has the traces of the one whose jumps have been made anew. -/
theorem hasTrace_thread_rebuilt (h : Labelled (thread code)) {t : List Instr} {s : Status} :
    (ofCode (thread code)).HasTrace t s ↔ (ofCode (rebuilt code)).HasTrace t s := by
  rw [← thread_rebuilt] at h ⊢
  exact hasTrace_thread h (keepsBranches_rebuilt code)

end Traces

end StackFlow.Threading
