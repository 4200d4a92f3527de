import StackFlow.Proofs.Agreement
import StackFlow.Proofs.Machine
import StackFlow.Proofs.Redirection

/-!
# The summary of a nested routine

A routine sees of a compound instruction only its summary, which `Graph.compound` takes from
the finished graph of the nested code.  The summary says the same of the nested code as the
runs of its list of instructions do.

* `Flowchart.Executes` gives the runs of a chart with all instructions they execute, and
  `hasTrace_iff` what a run shows of them.
* `Instr.Constructed.silent` says that what is not shown reads no bytes and does not collect.  So
  it does not matter that the graph has other targets and hops than the list
  (`Graph.Built.exists_run_of_code` and `exists_run_of_layout`).
* `Executes.exists_path` and `Path.exists_run` translate between the runs of the blocks and the
  ways through them.
* `Graph.compound_exact` is the main result: the three parts of the summary.
-/

namespace StackFlow

/-! ## Runs with all their instructions -/

namespace Flowchart

variable {N : Type} {c : Flowchart N} {n : N} {xs ps t : List Instr} {s : Status}

/-- `c.Executes n code ps s`: a run of `c` that has `code` left to run in node `n` may execute
the instructions `ps` from here on and then have the status `s`. -/
inductive Executes (c : Flowchart N) : N → List Instr → List Instr → Status → Prop where
  /-- The run is looked at where it is. -/
  | pause (n : N) (code : List Instr) : Executes c n code [] .running
  | execute {n : N} {p : Instr} {code ps : List Instr} {s : Status}
      (rest : Executes c n code ps s) : Executes c n (p :: code) (p :: ps) s
  | follow {n m : N} {ps : List Instr} {s : Status} (way : c.next n m)
      (rest : Executes c m (c.code m) ps s) : Executes c n [] ps s
  | fall {n : N} (exit : c.exit n) : Executes c n [] [] .fellOff
  | stop {n : N} (noWay : ∀ m, ¬ c.next n m) (noExit : ¬ c.exit n) : Executes c n [] [] .stopped

/-- `c.HasRun ps s`: some run of `c` from its entry executes `ps` and then has the status
`s`. -/
def HasRun (c : Flowchart N) (ps : List Instr) (s : Status) : Prop :=
  c.Executes c.entry (c.code c.entry) ps s

theorem Executes.append (h : c.Executes n [] ps s) :
    ∀ xs : List Instr, c.Executes n xs (xs ++ ps) s
  | [] => h
  | _ :: xs => .execute (h.append xs)

theorem Executes.shows (h : c.Executes n xs ps s) : c.Shows n xs (shownAll ps) s := by
  induction h with
  | pause n code => exact .pause n code
  | execute rest ih =>
    rw [shownAll_cons]
    exact .execute ih
  | follow way rest ih => exact .follow way ih
  | fall exit => exact .fall exit
  | stop noWay noExit => exact .stop noWay noExit

theorem Shows.exists_executes (h : c.Shows n xs t s) :
    ∃ ps, c.Executes n xs ps s ∧ shownAll ps = t := by
  induction h with
  | pause n code => exact ⟨[], .pause n code, rfl⟩
  | execute rest ih =>
    obtain ⟨ps, hps, ht⟩ := ih
    exact ⟨_, .execute hps, by rw [shownAll_cons, ht]⟩
  | follow way rest ih =>
    obtain ⟨ps, hps, ht⟩ := ih
    exact ⟨ps, .follow way hps, ht⟩
  | fall exit => exact ⟨[], .fall exit, rfl⟩
  | stop noWay noExit => exact ⟨[], .stop noWay noExit, rfl⟩

/-- The traces of a chart are what its runs show. -/
theorem hasTrace_iff : c.HasTrace t s ↔ ∃ ps, c.HasRun ps s ∧ shownAll ps = t := by
  constructor
  · exact Shows.exists_executes
  · intro h
    obtain ⟨ps, hrun, ht⟩ := h
    exact ht ▸ Executes.shows hrun

/-- A run has a counterpart in a chart with the same traces. -/
theorem exists_run_of_traces {M : Type} {d : Flowchart M}
    (htraces : ∀ t, c.HasTrace t s → d.HasTrace t s) (h : c.HasRun ps s) :
    ∃ qs, d.HasRun qs s ∧ shownAll qs = shownAll ps :=
  hasTrace_iff.1 (htraces _ (hasTrace_iff.2 ⟨ps, h, rfl⟩))

theorem Executes.mem (h : c.Executes n xs ps s) :
    ∀ p ∈ ps, p ∈ xs ∨ ∃ m, p ∈ c.code m := by
  induction h with
  | pause => exact fun p hp => absurd hp List.not_mem_nil
  | execute rest ih =>
    intro p hp
    rcases List.mem_cons.1 hp with hfirst | hrest
    · exact .inl (hfirst ▸ List.mem_cons_self)
    · exact (ih p hrest).imp_left (List.mem_cons_of_mem _)
  | follow way rest ih =>
    intro p hp
    rcases ih p hp with hcode | hother
    · exact .inr ⟨_, hcode⟩
    · exact .inr hother
  | fall => exact fun p hp => absurd hp List.not_mem_nil
  | stop => exact fun p hp => absurd hp List.not_mem_nil

theorem HasRun.mem (h : c.HasRun ps s) {p : Instr} (hp : p ∈ ps) : ∃ m, p ∈ c.code m := by
  rcases Executes.mem h p hp with hcode | hother
  · exact ⟨_, hcode⟩
  · exact hother

theorem mem_of_hasRun_ofCode {code : List Instr} (h : (ofCode code).HasRun ps s) :
    ∀ p ∈ ps, p ∈ code := by
  intro p hp
  obtain ⟨i, hi⟩ := h.mem hp
  have hat : code[i]? = some p := Option.mem_toList.1 hi
  exact List.mem_of_getElem? hat

end Flowchart

/-! ## What runs read and whether they collect -/

/-- The bytes that instructions read from the operand cursor, one after the other. -/
def bytesOf (ps : List Instr) : Int64 := (ps.map Instr.cursorBytes).sum

@[simp] theorem bytesOf_nil : bytesOf [] = 0 := rfl

@[simp] theorem bytesOf_cons (p : Instr) (ps : List Instr) :
    bytesOf (p :: ps) = p.cursorBytes + bytesOf ps := rfl

@[simp] theorem bytesOf_append (ps qs : List Instr) :
    bytesOf (ps ++ qs) = bytesOf ps + bytesOf qs := by
  simp [bytesOf]

theorem Opcode.row_of_silent {op : Opcode}
    (h : op.row.isMeta = true ∨ op = .target ∨ op = .hop) :
    op.row.operands = 0 ∧ op.row.collects = false ∧ op ≠ .compound ∧ op ≠ .fetch := by
  cases op <;> simp [row] at h ⊢

namespace Instr.Constructed

variable {p : Instr} {ps qs : List Instr}

theorem operands_eq (h : p.Constructed) (hop : p.op ≠ .fetch) :
    p.operands = p.op.row.operands := by
  cases h with
  | fetch n => exact absurd rfl hop
  | ret ty =>
    unfold Instr.ret
    split <;> rfl
  | _ => rfl

/-- Debug information, targets and hops read nothing and do not collect. -/
theorem silent (h : p.Constructed) (hop : p.isMeta = true ∨ p.op = .target ∨ p.op = .hop) :
    p.cursorBytes = 0 ∧ p.collects = false := by
  obtain ⟨hoperands, hcollects, hcompound, hfetch⟩ := Opcode.row_of_silent hop
  constructor
  · rw [cursorBytes, if_neg hcompound, h.operands_eq hfetch, hoperands]
    rfl
  · rw [collects, if_neg hcompound, hcollects]

/-- What is shown of an instruction reads as many bytes as the instruction, and collects if it
does. -/
theorem shown_spec (h : p.Constructed) :
    bytesOf p.shown = p.cursorBytes ∧ p.shown.any collects = p.collects := by
  unfold shown
  split
  · rename_i hhidden
    simp only [Bool.or_eq_true, decide_eq_true_eq, or_assoc] at hhidden
    obtain ⟨hbytes, hcollects⟩ := h.silent hhidden
    rw [hbytes, hcollects]
    exact ⟨rfl, rfl⟩
  · -- neither looks at the label
    split <;> simp [bytesOf, cursorBytes, collects]

theorem shownAll_spec (h : ∀ p ∈ ps, p.Constructed) :
    bytesOf (shownAll ps) = bytesOf ps ∧ (shownAll ps).any collects = ps.any collects := by
  induction ps with
  | nil => exact ⟨rfl, rfl⟩
  | cons p ps ih =>
    obtain ⟨hbytes, hcollects⟩ := (h p List.mem_cons_self).shown_spec
    obtain ⟨hrestBytes, hrestCollects⟩ := ih fun q hq => h q (List.mem_cons_of_mem _ hq)
    rw [Flowchart.shownAll_cons]
    constructor
    · rw [bytesOf_append, hbytes, hrestBytes, bytesOf_cons]
    · rw [List.any_append, hcollects, hrestCollects, List.any_cons]

/-- Runs that show the same read as many bytes, and both collect or neither does. -/
theorem eq_of_shownAll (hps : ∀ p ∈ ps, p.Constructed) (hqs : ∀ p ∈ qs, p.Constructed)
    (h : shownAll qs = shownAll ps) :
    bytesOf qs = bytesOf ps ∧ qs.any collects = ps.any collects := by
  obtain ⟨hbytes, hcollects⟩ := shownAll_spec hps
  obtain ⟨hbytes', hcollects'⟩ := shownAll_spec hqs
  rw [← hbytes, ← hbytes', ← hcollects, ← hcollects', h]
  exact ⟨rfl, rfl⟩

end Instr.Constructed

theorem Block.cursor_factsOf (code : List Instr) : (factsOf code).effect.cursor = bytesOf code := by
  suffices hall : ∀ m : Meter, (code.foldl Instr.meter m).cursor = m.cursor + bytesOf code by
    rw [factsOf, Meter.cursor_effect, hall]
    exact Int64.zero_add _
  induction code with
  | nil => simp
  | cons p code ih =>
    intro m
    rw [List.foldl_cons, ih, Instr.cursor_meter, bytesOf_cons, Int64.add_assoc]

theorem Layout.any_eq_true_iff {layout : Layout} {f : Block → Bool} :
    layout.any f = true ↔ ∃ b < layout.size, f (layout.block b) = true := by
  rw [Array.any_eq_true]
  refine exists_congr fun b => ?_
  by_cases hb : b < layout.size
  · simp [block, hb]
  · simp [hb]

/-! ## Runs of the blocks and ways through them -/

section Ways

open Flowchart

variable {layout : Layout} {b n : Nat} {bs : List Nat} {xs ps : List Instr} {s : Status}

/-- A run that falls off the end has taken a way to a block with an exit. -/
theorem Flowchart.Executes.exists_path
    (hcursor : ∀ b, layout.cursor b = bytesOf (layout.block b).code)
    (h : (ofLayout layout).Executes n xs ps s) (hs : s = .fellOff) :
    ∃ v, bytesOf ps = bytesOf xs + v ∧ ∀ bs, layout.Path bs n →
      ∃ bs' b, layout.Path bs' b ∧ (layout.block b).exit = true ∧
        layout.cursorOver bs' + layout.cursor b = layout.cursorOver bs + layout.cursor n + v := by
  induction h with
  | pause => cases hs
  | execute rest ih =>
    obtain ⟨v, hv, hpath⟩ := ih hs
    exact ⟨v, by rw [bytesOf_cons, bytesOf_cons, hv, Int64.add_assoc], hpath⟩
  | follow way rest ih =>
    rename_i n m ps s
    obtain ⟨v, hv, hpath⟩ := ih hs
    refine ⟨bytesOf ps, (Int64.zero_add _).symm, ?_⟩
    intro bs hbs
    obtain ⟨bs', b, hbs', hexit, hsum⟩ := hpath _ (hbs.step way)
    refine ⟨bs', b, hbs', hexit, ?_⟩
    rw [hsum, hv, Layout.cursorOver_concat, hcursor m, Int64.add_assoc]
    rfl
  | fall exit => exact ⟨0, rfl, fun bs hbs => ⟨bs, _, hbs, exit, (Int64.add_zero _).symm⟩⟩
  | stop => cases hs

/-- A run can take every way, and go on from there. -/
theorem Layout.Path.exists_run (hpath : layout.Path bs b)
    (h : (ofLayout layout).Executes b (layout.block b).code ps s) :
    ∃ qs, (ofLayout layout).HasRun (qs ++ ps) s := by
  induction hpath generalizing ps with
  | entry => exact ⟨[], h⟩
  | step path way ih =>
    rename_i bs i j
    have hblock := (Executes.follow (c := ofLayout layout) way h).append (layout.block i).code
    obtain ⟨qs, hrun⟩ := ih hblock
    exact ⟨qs ++ (layout.block i).code, by rwa [List.append_assoc]⟩

end Ways

/-! ## The summary -/

namespace Graph

open Flowchart

variable {o : Options} {code ps : List Instr} {g : Graph} {s : Status}

theorem exists_build_of_compound {name : String} {qualifiers : List String} {p : Instr}
    (h : compound o name qualifiers code = .ok p) : ∃ g, build o code = .ok g ∧
      p = .compound { name, qualifiers, effect := g.effect, collects := g.mayCollect
                      terminates := !g.fallsThrough, body := some (o, code) } := by
  unfold compound at h
  split at h
  · cases h
  · split at h
    · cases h
    · cases h
    · rename_i g hbuild
      cases h
      exact ⟨g, hbuild, rfl⟩

theorem fallsThrough_iff :
    g.fallsThrough = true ↔ ∃ b < g.layout.size, (g.layout.block b).exit = true :=
  Layout.any_eq_true_iff

namespace Built

/-- Some block collects exactly if it has an instruction that does. -/
theorem mayCollect_iff (h : Built o code g) : g.mayCollect = true ↔
    ∃ b, ∃ p ∈ (g.layout.block b).code, p.collects = true := by
  have hfacts : ∀ b < g.layout.size, (g.layout.block b).facts.collects =
      (g.layout.block b).code.any (·.collects) := by
    intro b hb
    have heq : (g.layout.block b).facts = Block.factsOf (g.layout.block b).code := h.facts_eq hb
    rw [heq]
    rfl
  rw [mayCollect, Layout.any_eq_true_iff]
  constructor
  · intro hsome
    obtain ⟨b, hb, hcollects⟩ := hsome
    rw [hfacts b hb] at hcollects
    exact ⟨b, List.any_eq_true.1 hcollects⟩
  · intro hsome
    obtain ⟨b, p, hp, hcollects⟩ := hsome
    have hb : b < g.layout.size := Layout.lt_of_mem_code hp
    refine ⟨b, hb, ?_⟩
    rw [hfacts b hb]
    exact List.any_eq_true.2 ⟨p, hp, hcollects⟩

/-- The bytes that a block reads are those that its instructions read. -/
theorem cursor_eq (h : Built o code g) (b : Nat) :
    g.layout.cursor b = bytesOf (g.layout.block b).code := by
  by_cases hb : b < g.layout.size
  · have hfacts : (g.layout.block b).facts = Block.factsOf (g.layout.block b).code := h.facts_eq hb
    rw [Layout.cursor, hfacts, Block.cursor_factsOf]
  · rw [Layout.cursor, Layout.block_of_size_le (Nat.le_of_not_lt hb)]
    rfl

/-- The blocks hold only instructions that the constructors make, if the list does. -/
theorem constructed_of_hasRun (h : Built o code g) (hmade : ∀ p ∈ code, p.Constructed)
    (hrun : (ofLayout g.layout).HasRun ps s) : ∀ p ∈ ps, p.Constructed := by
  intro p hp
  obtain ⟨b, hb⟩ := hrun.mem hp
  exact Threading.constructed_thread hmade p (h.instr_mem hb)

theorem hasTrace_iff (h : Built o code g) (hmade : ∀ p ∈ code, p.Constructed) (t : List Instr) :
    (ofLayout g.layout).HasTrace t s ↔ (ofCode code).HasTrace t s := by
  rw [h.layout]
  exact Layout.hasTrace_ofCode_thread h.labelled (Threading.keepsBranches_of_constructed hmade)

/-- Every run of the list has a counterpart in the blocks. -/
theorem exists_run_of_code (h : Built o code g) (hmade : ∀ p ∈ code, p.Constructed)
    (hrun : (ofCode code).HasRun ps s) : ∃ qs, (ofLayout g.layout).HasRun qs s ∧
      bytesOf qs = bytesOf ps ∧ qs.any Instr.collects = ps.any Instr.collects := by
  obtain ⟨qs, hqs, hshown⟩ := exists_run_of_traces (fun t => (h.hasTrace_iff hmade t).2) hrun
  refine ⟨qs, hqs, Instr.Constructed.eq_of_shownAll ?_ (h.constructed_of_hasRun hmade hqs) hshown⟩
  exact fun p hp => hmade p (mem_of_hasRun_ofCode hrun p hp)

/-- Every run of the blocks has a counterpart in the list. -/
theorem exists_run_of_layout (h : Built o code g) (hmade : ∀ p ∈ code, p.Constructed)
    (hrun : (ofLayout g.layout).HasRun ps s) : ∃ qs, (ofCode code).HasRun qs s ∧
      bytesOf qs = bytesOf ps ∧ qs.any Instr.collects = ps.any Instr.collects := by
  obtain ⟨qs, hqs, hshown⟩ := exists_run_of_traces (fun t => (h.hasTrace_iff hmade t).1) hrun
  refine ⟨qs, hqs, Instr.Constructed.eq_of_shownAll (h.constructed_of_hasRun hmade hrun) ?_ hshown⟩
  exact fun p hp => hmade p (mem_of_hasRun_ofCode hqs p hp)

/-- A run of the blocks that falls off the end has left by a block with an exit, and has read
what the effect of the routine says. -/
theorem cursor_of_fellOff (h : Built o code g) (hrun : (ofLayout g.layout).HasRun ps .fellOff) :
    g.fallsThrough = true ∧ bytesOf ps = g.effect.cursor := by
  have hwf := h.wellFormed
  obtain ⟨v, hv, hpath⟩ := Executes.exists_path h.cursor_eq hrun rfl
  obtain ⟨bs, b, hbs, hexit, hsum⟩ := hpath [] .entry
  have hread : bytesOf ps = g.layout.cursorOver bs + g.layout.cursor b := by
    rw [hsum, hv]
    show bytesOf (g.layout.block 0).code + v = 0 + g.layout.cursor 0 + v
    rw [Int64.zero_add, h.cursor_eq]
  have hb : b < g.layout.size := hwf.lt_of_path h.size_pos hbs
  have hlast : b = g.layout.size - 1 := by
    have hnext := (hwf.last_of_exit b hb hexit).1
    omega
  constructor
  · exact fallsThrough_iff.2 ⟨b, hb, hexit⟩
  · have heffects := h.effects
    rw [h.junctions] at heffects
    rcases Flow.effects_spec hwf with ⟨es, e, into, hok, hbalanced⟩ | ⟨e, herror, _⟩
    · rw [heffects] at hok
      cases hok
      rw [hread, ← hbalanced.offsets.eq_cursorOver hbs, hbalanced.at_end, hlast]
    · rw [heffects] at herror
      cases herror

theorem exists_run_of_fallsThrough (h : Built o code g) (hfalls : g.fallsThrough = true) :
    ∃ ps, (ofLayout g.layout).HasRun ps .fellOff := by
  obtain ⟨b, hb, hexit⟩ := fallsThrough_iff.1 hfalls
  obtain ⟨bs, hbs⟩ := h.wellFormed.exists_path hb
  have hend : (ofLayout g.layout).Executes b [] [] .fellOff := .fall hexit
  obtain ⟨qs, hrun⟩ := hbs.exists_run (hend.append _)
  exact ⟨_, hrun⟩

theorem mayCollect_of_hasRun (h : Built o code g) (hrun : (ofLayout g.layout).HasRun ps s)
    (hcollects : ps.any Instr.collects = true) : g.mayCollect = true := by
  obtain ⟨p, hp, hpc⟩ := List.any_eq_true.1 hcollects
  obtain ⟨b, hb⟩ := hrun.mem hp
  exact h.mayCollect_iff.2 ⟨b, p, hb, hpc⟩

theorem exists_run_of_mayCollect (h : Built o code g) (hcollects : g.mayCollect = true) :
    ∃ ps, (ofLayout g.layout).HasRun ps .running ∧ ps.any Instr.collects = true := by
  obtain ⟨b, p, hp, hpc⟩ := h.mayCollect_iff.1 hcollects
  obtain ⟨bs, hbs⟩ := h.wellFormed.exists_path (Layout.lt_of_mem_code hp)
  have hend : (ofLayout g.layout).Executes b [] [] .running := .pause b []
  obtain ⟨qs, hrun⟩ := hbs.exists_run (hend.append _)
  refine ⟨_, hrun, List.any_eq_true.2 ⟨p, ?_, hpc⟩⟩
  simp [hp]

end Built

/-- The summary of a nested routine is exact.  It terminates exactly if no run of its list
falls off the end, it collects exactly if some run executes an instruction that does, and
every run that falls off the end reads as many bytes as its effect says. -/
theorem compound_exact {name : String} {qualifiers : List String} {p : Instr}
    (hmade : ∀ q ∈ code, q.Constructed) (h : compound o name qualifiers code = .ok p) :
    ∃ sub, p = .compound sub ∧
      (sub.terminates = true ↔ ∀ ps, ¬ (ofCode code).HasRun ps .fellOff) ∧
      (sub.collects = true ↔
        ∃ ps s, (ofCode code).HasRun ps s ∧ ∃ q ∈ ps, q.collects = true) ∧
      (sub.terminates = false → ∀ ps, (ofCode code).HasRun ps .fellOff →
        bytesOf ps = sub.effect.cursor) := by
  obtain ⟨g, hbuild, rfl⟩ := exists_build_of_compound h
  have hbuilt := built_of_build hbuild
  refine ⟨_, rfl, ?_, ?_, ?_⟩
  · show (!g.fallsThrough) = true ↔ _
    rw [Bool.not_eq_true', Bool.eq_false_iff]
    constructor
    · intro hnot ps hrun
      obtain ⟨qs, hqs, _⟩ := hbuilt.exists_run_of_code hmade hrun
      exact hnot (hbuilt.cursor_of_fellOff hqs).1
    · intro hnone hfalls
      obtain ⟨ps, hps⟩ := hbuilt.exists_run_of_fallsThrough hfalls
      obtain ⟨qs, hqs, _⟩ := hbuilt.exists_run_of_layout hmade hps
      exact hnone qs hqs
  · show g.mayCollect = true ↔ _
    constructor
    · intro hcollects
      obtain ⟨ps, hps, hany⟩ := hbuilt.exists_run_of_mayCollect hcollects
      obtain ⟨qs, hqs, _, heq⟩ := hbuilt.exists_run_of_layout hmade hps
      rw [← heq] at hany
      exact ⟨qs, _, hqs, List.any_eq_true.1 hany⟩
    · intro hsome
      obtain ⟨ps, s, hps, hany⟩ := hsome
      obtain ⟨qs, hqs, _, heq⟩ := hbuilt.exists_run_of_code hmade hps
      exact hbuilt.mayCollect_of_hasRun hqs (heq.trans (List.any_eq_true.2 hany))
  · intro _ ps hps
    obtain ⟨qs, hqs, hbytes, _⟩ := hbuilt.exists_run_of_code hmade hps
    rw [← hbytes]
    exact (hbuilt.cursor_of_fellOff hqs).2

/-- A routine that reads two bytes and may collect on the way. -/
def readingRoutine : List Instr := [.fetch 2, .ofOpcode .drop, .ofOpcode .gcSafe]

/-- A loop, and a nested routine after it. -/
def nestingRoutine (inner : Instr) : List Instr := [.target 0, .number 1, .branch 0 true, inner]

/-- The outer routine falls off the end with two bytes read, however often it has gone round,
and may collect because the inner one does. -/
theorem compound_exact_nesting :
    ∃ inner p, compound (Defaults.options {}) "inner" [] readingRoutine = .ok inner ∧
      compound (Defaults.options {}) "outer" [] (nestingRoutine inner) = .ok p ∧
      (∃ ps, (ofCode (nestingRoutine inner)).HasRun ps .fellOff) ∧
      (∃ ps s, (ofCode (nestingRoutine inner)).HasRun ps s ∧ ∃ q ∈ ps, q.collects = true) ∧
      ∀ ps, (ofCode (nestingRoutine inner)).HasRun ps .fellOff → bytesOf ps = 2 := by
  obtain ⟨inner, hinner, hnested⟩ := exists_ok_of_any
    (x := compound (Defaults.options {}) "inner" [] readingRoutine)
    (P := fun inner =>
      (compound (Defaults.options {}) "outer" [] (nestingRoutine inner)).toOption.any fun p =>
        p.nested.any fun sub => !sub.terminates && sub.collects && sub.effect.cursor = 2) (by cbv)
  obtain ⟨p, hp, hsummary⟩ := exists_ok_of_any hnested
  have hreading : ∀ q ∈ readingRoutine, q.Constructed := by
    simp only [readingRoutine, List.forall_mem_cons]
    exact ⟨.fetch 2, .plain (by decide), .plain (by decide), by simp⟩
  obtain ⟨inside, rfl, _⟩ := compound_exact hreading hinner
  have hnesting : ∀ q ∈ nestingRoutine (.compound inside), q.Constructed := by
    simp only [nestingRoutine, List.forall_mem_cons]
    exact ⟨.target 0, .numbered (by decide) 1, .branch 0 true, .compound inside, by simp⟩
  obtain ⟨sub, rfl, hterminates, hcollects, hcursor⟩ := compound_exact hnesting hp
  have hfalls : sub.terminates = false ∧ sub.collects = true ∧ sub.effect.cursor = 2 := by
    simpa [Instr.compound, and_assoc] using hsummary
  refine ⟨_, _, hinner, hp, ?_, hcollects.1 hfalls.2.1, ?_⟩
  · by_contra hnone
    have hnever := hterminates.2 fun ps hps => hnone ⟨ps, hps⟩
    rw [hfalls.1] at hnever
    cases hnever
  · intro ps hps
    rw [hcursor hfalls.1 ps hps, hfalls.2.2]

end Graph

end StackFlow
