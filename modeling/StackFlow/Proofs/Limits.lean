import StackFlow.Proofs.Uninitialized

/-!
# What a limit on the rounds does

The options may cap the rounds of both fixpoints.  A cap can only turn an answer into the
error that says so; it never changes an answer.

* `Rounds.Takes` counts the rounds of a fixpoint without running it: all rounds but the last
  change something.  `takes_of_run` says that this is the number a run reports, and
  `run_capped` what a cap makes of the run.
* `Graph.precheck` is what `Graph.build` does before the first fixpoint.  It does not look at
  the cap.
* `Graph.build_capped` compares the outcomes of `Graph.build` with and without a cap.
-/

namespace StackFlow

/-- The options with the rounds of each fixpoint capped at `k`. -/
def Options.capped (o : Options) (k : Int64) : Options := { o with maxRounds := k }

theorem Options.canIterate_of_unlimited {o : Options} (h : o.maxRounds = 0) (n : Int64) :
    o.canIterate n = true := by
  simp [canIterate, h]

/-- A positive cap lets the next round start as long as it is not used up. -/
theorem Options.canIterate_capped (o : Options) {k : Int64} (hk : 0 < k) {n : Nat}
    (hn : (n : Int) ≤ k.toInt) :
    (o.capped k).canIterate (Int64.ofNat n) = true ↔ (n : Int) < k.toInt := by
  have hpos : 0 < k.toInt := Int64.lt_iff_toInt_lt.1 hk
  have hmax : k.toInt < 2 ^ 63 := Int64.toInt_lt k
  have hofNat : (Int64.ofNat n).toInt = n := Int64.toInt_ofNat_of_lt (by omega)
  have hne : k ≠ 0 := by
    intro hzero
    rw [hzero] at hpos
    exact absurd hpos (by decide)
  simp [canIterate, capped, hne, Int64.lt_iff_toInt_lt, hofNat]

namespace Rounds

/-! ## Counting rounds -/

section Run

variable {σ : Type} {what : String} {o : Options} {round : σ → σ × Bool} {fuel m n : Nat}
  {s s' : σ} {k : Int64}

/-- Starting from `s`, the rounds before round `n` all change something, and round `n` does
not. -/
structure Takes (round : σ → σ × Bool) (s : σ) (n : Nat) : Prop where
  pos : 0 < n
  changes : ∀ j, j + 1 < n → (round (after round s j)).2 = true
  settles : (round (after round s (n - 1))).2 = false

theorem takes_one (h : (round s).2 = false) : Takes round s 1 where
  pos := Nat.one_pos
  changes j hj := by omega
  settles := h

theorem Takes.cons (hchanged : (round s).2 = true) (h : Takes round (round s).1 n) :
    Takes round s (n + 1) where
  pos := Nat.succ_pos n
  changes j hj := by
    cases j with
    | zero => exact hchanged
    | succ j =>
      rw [after_succ]
      exact h.changes j (by omega)
  settles := by
    have hpos := h.pos
    obtain ⟨n, rfl⟩ := Nat.exists_eq_add_of_le' hpos
    show (round (after round s (n + 1))).2 = false
    rw [after_succ]
    exact h.settles

/-- The number that a run reports is the number of its rounds. -/
theorem takes_of_run (h : run what o round fuel m s = .ok (s', n)) :
    m ≤ n ∧ Takes round s (n + 1 - m) := by
  induction fuel generalizing m s with
  | zero => cases h
  | succ fuel ih =>
    rw [run] at h
    split at h
    · cases h
    · simp only at h
      split at h
      · rename_i hchanged
        obtain ⟨hle, htakes⟩ := ih h
        refine ⟨by omega, ?_⟩
        have hcount : n + 1 - m = n + 1 - (m + 1) + 1 := by omega
        rw [hcount]
        exact htakes.cons hchanged
      · rename_i hchanged
        cases h
        rw [Nat.add_sub_cancel_left]
        exact ⟨Nat.le_refl _, takes_one (Bool.eq_false_iff.2 hchanged)⟩

/-- A run that is not limited ends the same way under a cap that it does not exceed, and with
the error that says so under a smaller one. -/
theorem run_capped (hk : 0 < k) (ho : o.maxRounds = 0) (hm : 0 < m)
    (hstart : ((m - 1 : Nat) : Int) ≤ k.toInt) (h : run what o round fuel m s = .ok (s', n)) :
    run what (o.capped k) round fuel m s =
      if (n : Int) ≤ k.toInt then .ok (s', n)
      else .error (.flow (.ofFault (.iterationLimit what k))) := by
  induction fuel generalizing m s with
  | zero => cases h
  | succ fuel ih =>
    have hle := (takes_of_run h).1
    rw [run, Options.canIterate_of_unlimited ho] at h
    rw [run]
    rcases hround : round s with ⟨t, changed⟩
    rw [hround] at h
    by_cases hlast : ((m - 1 : Nat) : Int) < k.toInt
    · have hgo := (Options.canIterate_capped o hk hstart).2 hlast
      cases changed with
      | true =>
        simp only [Bool.not_true, Bool.false_eq_true, if_false, if_true] at h
        simp only [hgo, Bool.not_true, Bool.false_eq_true, if_false, if_true]
        exact ih (by omega) (by omega) h
      | false =>
        simp only [Bool.not_true, Bool.false_eq_true, if_false] at h
        cases h
        have hn : (n : Int) ≤ k.toInt := by omega
        simp only [hgo, Bool.not_true, Bool.false_eq_true, if_false, if_pos hn]
    · -- the cap is used up, and the round about to start would be needed
      have hstop : (o.capped k).canIterate (Int64.ofNat (m - 1)) = false := by
        refine Bool.eq_false_iff.2 fun hgo => ?_
        exact hlast ((Options.canIterate_capped o hk hstart).1 hgo)
      have hn : ¬ (n : Int) ≤ k.toInt := by omega
      simp only [hstop, Bool.not_false, if_true, if_neg hn]
      rfl

theorem fixpoint_capped {blocks : Nat} (hk : 0 < k) (ho : o.maxRounds = 0)
    (h : fixpoint what o blocks round s = .ok (s', n)) :
    fixpoint what (o.capped k) blocks round s =
      if (n : Int) ≤ k.toInt then .ok (s', n)
      else .error (.flow (.ofFault (.iterationLimit what k))) := by
  have hpos : 0 < k.toInt := Int64.lt_iff_toInt_lt.1 hk
  exact run_capped hk ho Nat.one_pos (by omega) h

end Run

end Rounds

/-- The live sets take `n` rounds, the last of which changes nothing. -/
def Live.Takes (layout : Layout) (n : Nat) : Prop :=
  Rounds.Takes (round layout) (Array.replicate layout.size .none) n

/-- The dominators take `n` rounds, the last of which changes nothing. -/
def Dominance.Takes (layout : Layout) (n : Nat) : Prop :=
  Rounds.Takes (round layout) (start layout.size) n

/-- What a cap makes of the live sets. -/
theorem Live.compute_capped {o : Options} {k : Int64} {layout : Layout} {live : Array Live}
    {n : Nat} (hk : 0 < k) (ho : o.maxRounds = 0) (h : compute o layout = .ok (live, n)) :
    compute (o.capped k) layout = if (n : Int) ≤ k.toInt then .ok (live, n)
      else .error (.flow (.ofFault (.iterationLimit "liveness" k))) :=
  Rounds.fixpoint_capped hk ho h

/-- What a cap makes of the dominators. -/
theorem Dominance.compute_capped {o : Options} {k : Int64} {layout : Layout} {d : Dominance}
    (hk : 0 < k) (ho : o.maxRounds = 0) (h : compute o layout = .ok d) :
    ∃ n, Takes layout n ∧ compute (o.capped k) layout = if (n : Int) ≤ k.toInt then .ok d
      else .error (.flow (.ofFault (.iterationLimit "dominators" k))) := by
  unfold compute at h ⊢
  cases hsets : Rounds.fixpoint "dominators" o layout.size (round layout) (start layout.size) with
  | error e =>
    rw [hsets] at h
    cases h
  | ok r =>
    obtain ⟨sets, n⟩ := r
    rw [hsets] at h
    cases h
    refine ⟨n, (Rounds.takes_of_run hsets).2, ?_⟩
    rw [Rounds.fixpoint_capped hk ho hsets]
    split
    · rfl
    · rfl

namespace Graph

/-! ## Building under a cap -/

/-- What is checked before the first fixpoint: the list itself, and that all ways to a
junction have read the same number of cursor bytes. -/
def precheck (o : Options) (code : List Instr) : Except Failure Unit := do
  let code := Threading.thread code
  liftFlow (Scope.check o.platform.pointerSize code)
  let layout := Layout.ofCode code
  let junctions := Junction.ofLayout layout
  Junction.check layout junctions
  discard (Flow.effects layout junctions)

variable {o o' : Options} {code : List Instr} {g g' : Graph} {k : Int64}

/-- How the checks before the fixpoints may end. -/
theorem precheck_cases (o : Options) (code : List Instr) :
    (∃ e, Scope.check o.platform.pointerSize (Threading.thread code) = .error e ∧
      precheck o code = .error (.flow e)) ∨
    Scope.check o.platform.pointerSize (Threading.thread code) = .ok () ∧
      ((∃ e, Flow.effects (Layout.ofCode (Threading.thread code))
          (Junction.ofLayout (Layout.ofCode (Threading.thread code))) = .error e ∧
          precheck o code = .error e) ∨
        ∃ r, Flow.effects (Layout.ofCode (Threading.thread code))
          (Junction.ofLayout (Layout.ofCode (Threading.thread code))) = .ok r ∧
          precheck o code = .ok ()) := by
  simp only [precheck, Junction.check_ofLayout]
  cases Scope.check o.platform.pointerSize (Threading.thread code) with
  | error e => exact .inl ⟨e, rfl, rfl⟩
  | ok =>
    cases Flow.effects (Layout.ofCode (Threading.thread code))
        (Junction.ofLayout (Layout.ofCode (Threading.thread code))) with
    | error e => exact .inr ⟨rfl, .inl ⟨e, rfl, rfl⟩⟩
    | ok r => exact .inr ⟨rfl, .inr ⟨r, rfl, rfl⟩⟩

theorem build_of_precheck_error {e : Failure} (h : precheck o code = .error e) :
    build o code = .error e := by
  rcases precheck_cases o code with ⟨e', hcheck, hfails⟩ | ⟨hcheck, ⟨e', heffects, hfails⟩ |
    ⟨r, _, hpasses⟩⟩
  · cases hfails.symm.trans h
    exact build_of_check_error hcheck
  · cases hfails.symm.trans h
    exact build_of_effects_error hcheck heffects
  · rw [h] at hpasses
    cases hpasses

theorem checked_of_precheck (h : precheck o code = .ok ()) :
    Scope.check o.platform.pointerSize (Threading.thread code) = .ok () ∧
      ∃ r, Flow.effects (Layout.ofCode (Threading.thread code))
        (Junction.ofLayout (Layout.ofCode (Threading.thread code))) = .ok r := by
  rcases precheck_cases o code with ⟨e, _, hfails⟩ | ⟨hcheck, ⟨e, _, hfails⟩ | ⟨r, heffects, _⟩⟩
  · rw [h] at hfails
    cases hfails
  · rw [h] at hfails
    cases hfails
  · exact ⟨hcheck, r, heffects⟩

/-- Graphs of one routine differ only in the options, if the fixpoints agree. -/
theorem Built.eq_of_fixpoints (h : Built o code g) (h' : Built o' code g')
    (hlive : Live.compute o' g.layout = Live.compute o g.layout)
    (hdominance : Dominance.compute o' g.layout = Dominance.compute o g.layout) :
    g' = { g with options := o' } := by
  have hlayout : g'.layout = g.layout := by rw [h'.layout, h.layout]
  have hjunctions : g'.junctions = g.junctions := by
    rw [h'.junctions, h.junctions, hlayout]
  have heffects := h'.effects
  rw [hlayout, hjunctions, h.effects] at heffects
  have hlive' := h'.live
  rw [hlayout, hlive, h.live] at hlive'
  have hdominance' := h'.dominance
  rw [hlayout, hdominance, h.dominance] at hdominance'
  have hrefs := h'.refs
  rw [hlayout, ← h.refs] at hrefs
  have hoptions := h'.options
  obtain ⟨options, layout, junctions, junctionEffects, effect, refs, live, rounds, dominance⟩ := g'
  simp only [Except.ok.injEq, Prod.mk.injEq] at heffects hlive' hdominance'
  simp only at hlayout hjunctions hrefs hoptions
  rw [hoptions, hlayout, hjunctions, hrefs, ← heffects.1, ← heffects.2, ← hlive'.1, ← hlive'.2,
    ← hdominance']

/-- The outcome is the error for a fixpoint that needs more rounds than it may take. -/
def Exhausts (r : Except Failure Graph) : Prop :=
  ∃ e, r = .error (.flow e) ∧ e.kind = .iterationLimit

theorem exhausts_limit (what : String) (k : Int64) :
    Exhausts (.error (.flow (.ofFault (.iterationLimit what k)))) :=
  ⟨_, rfl, rfl⟩

theorem not_exhausts_ok (g : Graph) : ¬ Exhausts (.ok g) := by
  rintro ⟨e, he, _⟩
  cases he

theorem not_exhausts_uninitialized (code : List Instr) (t : Int64) :
    ¬ Exhausts (.error (.flow (Scope.uninitialized code t))) := by
  rintro ⟨e, he, hkind⟩
  cases he
  rw [(Scope.kind_uninitialized code t).1] at hkind
  cases hkind

section Fixpoints

variable {live : Array Live} {n : Nat} {d : Dominance}

/-- Where building a routine under a cap ends, if the list passes the checks and the fixpoints
take `n` and `m` rounds: at the live sets, at a temporary that is live into the entry, at the
dominators, or with the graph that is built without a cap. -/
theorem build_capped_cases (hk : 0 < k) (ho : o.maxRounds = 0)
    (hprecheck : precheck o code = .ok ())
    (hlive : Live.compute o (Layout.ofCode (Threading.thread code)) = .ok (live, n))
    (hdominance : Dominance.compute o (Layout.ofCode (Threading.thread code)) = .ok d) :
    ∃ m, Dominance.Takes (Layout.ofCode (Threading.thread code)) m ∧
      (k.toInt < n ∧ build (o.capped k) code =
          .error (.flow (.ofFault (.iterationLimit "liveness" k))) ∨
        n ≤ k.toInt ∧ (∃ t ∈ (live.getD 0 .none).liveIn, ∃ e, e = Scope.uninitialized
          (Threading.thread code) t ∧ build o code = .error (.flow e) ∧
          build (o.capped k) code = .error (.flow e)) ∨
        n ≤ k.toInt ∧ (∀ t, t ∉ (live.getD 0 .none).liveIn) ∧ k.toInt < m ∧
          build (o.capped k) code =
            .error (.flow (.ofFault (.iterationLimit "dominators" k))) ∨
        n ≤ k.toInt ∧ (∀ t, t ∉ (live.getD 0 .none).liveIn) ∧ m ≤ k.toInt ∧
          ∃ g, build o code = .ok g ∧
            build (o.capped k) code = .ok { g with options := o.capped k }) := by
  obtain ⟨hcheck, r, heffects⟩ := checked_of_precheck hprecheck
  -- the checks do not look at the cap
  have hcheck' : Scope.check (o.capped k).platform.pointerSize (Threading.thread code) = .ok () :=
    hcheck
  have hlive' := Live.compute_capped hk ho hlive
  obtain ⟨m, htakes, hdominance'⟩ := Dominance.compute_capped hk ho hdominance
  refine ⟨m, htakes, ?_⟩
  by_cases hn : (n : Int) ≤ k.toInt
  case neg =>
    rw [if_neg hn] at hlive'
    exact .inl ⟨by omega, build_of_live_error hcheck' heffects hlive'⟩
  rw [if_pos hn] at hlive'
  right
  cases hmin : (live.getD 0 .none).liveIn.min? with
  | some t =>
    exact .inl ⟨hn, t, (TempSet.min?_eq_some hmin).1, _, rfl,
      build_of_uninitialized hcheck heffects hlive hmin,
      build_of_uninitialized hcheck' heffects hlive' hmin⟩
  | none =>
    right
    have hempty : ∀ t, t ∉ (live.getD 0 .none).liveIn :=
      fun _ => TempSet.not_mem_of_min?_eq_none hmin
    by_cases hm : (m : Int) ≤ k.toInt
    case neg =>
      rw [if_neg hm] at hdominance'
      exact .inl ⟨hn, hempty, by omega,
        build_of_dominance_error hcheck' heffects hlive' hmin hdominance'⟩
    rw [if_pos hm] at hdominance'
    obtain ⟨g, hbuild⟩ := build_of_initialized hcheck heffects hlive hmin hdominance
    obtain ⟨g', hbuild'⟩ := build_of_initialized hcheck' heffects hlive' hmin hdominance'
    have hbuilt := built_of_build hbuild
    have hg' : g' = { g with options := o.capped k } := by
      apply hbuilt.eq_of_fixpoints (built_of_build hbuild')
      · rw [hbuilt.layout, hlive, hlive']
      · rw [hbuilt.layout, hdominance, hdominance']
    exact .inr ⟨hn, hempty, hm, g, hbuild, hg' ▸ hbuild'⟩

end Fixpoints

/-- A cap on the rounds only adds errors.  An error found before the fixpoints stays the same.
After that, with `n` and `m` the rounds that the two fixpoints take, the cap is reported exactly
if it is less than `n`, or if nothing is live into the entry and it is less than `m`; and
otherwise the outcome is the same but for the options kept in the graph. -/
theorem build_capped (ho : o.maxRounds = 0) (hk : 0 < k) (code : List Instr) :
    (∀ e, precheck o code = .error e →
      build o code = .error e ∧ build (o.capped k) code = .error e) ∧
    (precheck o code = .ok () → ∃ live n m,
      Live.compute o (Layout.ofCode (Threading.thread code)) = .ok (live, n) ∧
      Live.Takes (Layout.ofCode (Threading.thread code)) n ∧
      Dominance.Takes (Layout.ofCode (Threading.thread code)) m ∧
      (Exhausts (build (o.capped k) code) ↔
        k.toInt < n ∨ (n ≤ k.toInt ∧ (∀ t, t ∉ (live.getD 0 .none).liveIn) ∧ k.toInt < m)) ∧
      (¬ Exhausts (build (o.capped k) code) → build (o.capped k) code =
        (build o code).map fun g => { g with options := o.capped k })) := by
  constructor
  · intro e he
    exact ⟨build_of_precheck_error he, build_of_precheck_error (o := o.capped k) he⟩
  intro hprecheck
  have hwf := Layout.wellFormed_ofCode (Scope.labelled_of_check (checked_of_precheck hprecheck).1)
  obtain ⟨live, n, hlive, _⟩ :=
    (Live.compute_spec hwf (fun _ => Layout.facts_ofCode) o).resolve_right fun h => h.1 ho
  obtain ⟨d, hdominance, _⟩ :=
    (Dominance.compute_spec hwf o).resolve_right fun h => h.1 ho
  obtain ⟨m, htakes, hcases⟩ := build_capped_cases hk ho hprecheck hlive hdominance
  refine ⟨live, n, m, hlive, (Rounds.takes_of_run hlive).2, htakes, ?_⟩
  rcases hcases with ⟨hlt, hbuild'⟩ | ⟨hn, t, ht, e, rfl, hbuild, hbuild'⟩ |
    ⟨hn, hempty, hlt, hbuild'⟩ | ⟨hn, hempty, hm, g, hbuild, hbuild'⟩
  · rw [hbuild']
    exact ⟨iff_of_true (exhausts_limit _ _) (.inl hlt),
      fun hnot => absurd (exhausts_limit _ _) hnot⟩
  · rw [hbuild, hbuild']
    refine ⟨iff_of_false (not_exhausts_uninitialized _ _) ?_, fun _ => rfl⟩
    rintro (hlt | ⟨_, hempty, _⟩)
    · omega
    · exact hempty t ht
  · rw [hbuild']
    exact ⟨iff_of_true (exhausts_limit _ _) (.inr ⟨hn, hempty, hlt⟩),
      fun hnot => absurd (exhausts_limit _ _) hnot⟩
  · rw [hbuild, hbuild']
    exact ⟨iff_of_false (not_exhausts_ok _) (by omega), fun _ => rfl⟩

/-- Three blocks that control gets to from the last to the first. -/
def backwardRoutine : List Instr :=
  [.hop 3, .target 1, .ret .void, .target 2, .number 1, .branch 1 true, .ret .void, .target 3,
    .number 1, .branch 2 true, .ret .void]

/-- The live sets are done at once, but the dominators go backward a block a round. -/
theorem build_capped_backward :
    (Defaults.options {}).maxRounds = 0 ∧ (0 : Int64) < 1 ∧
      precheck (Defaults.options {}) backwardRoutine = .ok () ∧
      Live.Takes (Layout.ofCode (Threading.thread backwardRoutine)) 1 ∧
      ¬ Dominance.Takes (Layout.ofCode (Threading.thread backwardRoutine)) 1 ∧
      Exhausts (build ((Defaults.options {}).capped 1) backwardRoutine) := by
  have hprecheck : precheck (Defaults.options {}) backwardRoutine = .ok () := by cbv
  have hround : (Dominance.round (Layout.ofCode (Threading.thread backwardRoutine))
      (Dominance.start (Layout.ofCode (Threading.thread backwardRoutine)).size)).2 = true := by cbv
  obtain ⟨⟨live, n⟩, hlive, hcount⟩ := exists_ok_of_any
    (x := Live.compute (Defaults.options {}) (Layout.ofCode (Threading.thread backwardRoutine)))
    (P := fun r => decide (r.2 = 1) && decide ((r.1.getD 0 .none).liveIn = ∅)) (by cbv)
  simp only [Bool.and_eq_true, decide_eq_true_eq] at hcount
  obtain ⟨rfl, hempty⟩ := hcount
  obtain ⟨live', n', m, hlive', htakes, hdominance, hiff, _⟩ :=
    (build_capped (k := 1) rfl (by decide) backwardRoutine).2 hprecheck
  rw [hlive] at hlive'
  cases hlive'
  have hmany : ¬ Dominance.Takes (Layout.ofCode (Threading.thread backwardRoutine)) 1 := by
    intro h
    have hsettles := h.settles
    rw [Nat.sub_self, Rounds.after, Function.iterate_zero, id_eq, hround] at hsettles
    cases hsettles
  have hm : m ≠ 1 := fun h => hmany (h ▸ hdominance)
  have hpos := hdominance.pos
  refine ⟨rfl, by decide, hprecheck, htakes, hmany, hiff.2 (.inr ⟨by decide, ?_, ?_⟩)⟩
  · rw [hempty]
    exact fun t => TempSet.not_mem_empty
  · show (1 : Int) < m
    omega

end Graph

end StackFlow
