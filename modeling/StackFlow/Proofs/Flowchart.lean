import StackFlow.Graph.Basic

/-!
# Flowcharts and their traces

A flowchart is code in nodes with the ways between them.  The instructions of a
routine make one with a node per instruction, the drafts of its blocks make another,
and the finished graph a third; this module says what a run of any of them shows.

* `Instr.shown` is what a run shows of one instruction.  Debug information, targets
  and hops are not shown, and a branch is shown without its label.
* `Flowchart.Shows` gives the finite traces of a chart, each with the status of the
  run at that moment; `Flowchart.HasTrace` starts at the entry.
* `shows_iff` says that the code of a node matters only through what it shows, and
  `Shows.simulate` carries the traces of one chart over to another.
-/

namespace StackFlow

/-- How far a run has come. -/
inductive Status where
  | running
  /-- Control has fallen off the end of the routine. -/
  | fellOff
  /-- An instruction has transferred control out of the routine. -/
  | stopped
deriving DecidableEq

/-- What a run shows of an instruction: nothing of debug information, targets and
hops, and of a branch everything but its label. -/
def Instr.shown (p : Instr) : List Instr :=
  if p.isMeta || p.op = .target || p.op = .hop then []
  else if p.op = .branch then [{ p with label := 0 }]
  else [p]

/-- What a run shows of a list of instructions. -/
def shownAll (code : List Instr) : List Instr := code.flatMap Instr.shown

/-- Code in nodes, with the ways between them. -/
structure Flowchart (Node : Type) where
  entry : Node
  code : Node → List Instr
  /-- Where control may go from the end of a node. -/
  next : Node → Node → Prop
  /-- Whether control may fall off the end of the routine at the end of a node. -/
  exit : Node → Prop

namespace Flowchart

variable {N M : Type} {c : Flowchart N} {d : Flowchart M}

/-- `c.Shows n code t s`: a run of `c` that has `code` left to run in node `n` may show
the trace `t` from here on and then have the status `s`. -/
inductive Shows (c : Flowchart N) : N → List Instr → List Instr → Status → Prop where
  /-- The run is looked at where it is. -/
  | pause (n : N) (code : List Instr) : Shows c n code [] .running
  | execute {n : N} {p : Instr} {code t : List Instr} {s : Status}
      (rest : Shows c n code t s) : Shows c n (p :: code) (p.shown ++ t) s
  | follow {n m : N} {t : List Instr} {s : Status} (way : c.next n m)
      (rest : Shows c m (c.code m) t s) : Shows c n [] t s
  | fall {n : N} (exit : c.exit n) : Shows c n [] [] .fellOff
  | stop {n : N} (noWay : ∀ m, ¬ c.next n m) (noExit : ¬ c.exit n) :
      Shows c n [] [] .stopped

/-- `c.HasTrace t s`: some run of `c` from its entry shows `t` and then has the
status `s`. -/
def HasTrace (c : Flowchart N) (t : List Instr) (s : Status) : Prop :=
  c.Shows c.entry (c.code c.entry) t s

/-! ## Code matters only through what it shows -/

@[simp] theorem shownAll_nil : shownAll [] = [] := rfl

@[simp] theorem shownAll_cons (p : Instr) (code : List Instr) :
    shownAll (p :: code) = p.shown ++ shownAll code := by
  simp [shownAll]

@[simp] theorem shownAll_append (xs ys : List Instr) :
    shownAll (xs ++ ys) = shownAll xs ++ shownAll ys := by
  simp [shownAll]

/-- At most one instruction is shown for an instruction. -/
theorem shown_cases (p : Instr) : p.shown = [] ∨ ∃ q, p.shown = [q] := by
  unfold Instr.shown
  split
  · exact .inl rfl
  · split
    · exact .inr ⟨_, rfl⟩
    · exact .inr ⟨_, rfl⟩

theorem Shows.append {n : N} {ys t : List Instr} {s : Status} (h : c.Shows n ys t s) :
    ∀ xs : List Instr, c.Shows n (xs ++ ys) (shownAll xs ++ t) s
  | [] => h
  | p :: xs => by
    rw [shownAll_cons, List.append_assoc]
    exact .execute (h.append xs)

/-- A run may be looked at after any part of what its code shows. -/
theorem shows_running {n : N} {xs t : List Instr} (h : t <+: shownAll xs) :
    c.Shows n xs t .running := by
  induction xs generalizing t with
  | nil =>
    rw [shownAll_nil, List.prefix_nil] at h
    rw [h]
    exact .pause n []
  | cons p xs ih =>
    rw [shownAll_cons] at h
    rcases shown_cases p with hp | ⟨q, hp⟩
    · rw [hp, List.nil_append] at h
      have hrest := Shows.execute (p := p) (ih h)
      rwa [hp, List.nil_append] at hrest
    · cases t with
      | nil => exact .pause n _
      | cons x t =>
        rw [hp, List.singleton_append, List.cons_prefix_cons] at h
        have hrest := Shows.execute (p := p) (ih h.2)
        rwa [hp, List.singleton_append, ← h.1] at hrest

/-- A run either is still within the code of its node, or has shown all of it and goes
on from the end of the node. -/
theorem shows_iff {n : N} {xs t : List Instr} {s : Status} :
    c.Shows n xs t s ↔
      (s = .running ∧ t <+: shownAll xs) ∨ ∃ u, t = shownAll xs ++ u ∧ c.Shows n [] u s := by
  constructor
  · intro h
    induction h with
    | pause n code => exact .inl ⟨rfl, List.nil_prefix⟩
    | execute rest ih =>
      rename_i p code t s
      rcases ih with ⟨hs, ht⟩ | ⟨u, rfl, hu⟩
      · exact .inl ⟨hs, by rw [shownAll_cons]; exact (List.prefix_append_right_inj _).2 ht⟩
      · exact .inr ⟨u, by rw [shownAll_cons, List.append_assoc], hu⟩
    | follow way rest => exact .inr ⟨_, rfl, .follow way rest⟩
    | fall exit => exact .inr ⟨_, rfl, .fall exit⟩
    | stop noWay noExit => exact .inr ⟨_, rfl, .stop noWay noExit⟩
  · rintro (⟨rfl, ht⟩ | ⟨u, rfl, hu⟩)
    · exact shows_running ht
    · have h := hu.append xs
      rwa [List.append_nil] at h

theorem shows_congr {n : N} {xs ys t : List Instr} {s : Status}
    (h : shownAll xs = shownAll ys) : c.Shows n xs t s ↔ c.Shows n ys t s := by
  rw [shows_iff, h, ← shows_iff]

/-- Code that shows nothing may be left out. -/
theorem shows_silent_iff {n : N} {xs t : List Instr} {s : Status} (h : shownAll xs = []) :
    c.Shows n xs t s ↔ c.Shows n [] t s :=
  shows_congr h

/-- A run shows only what the code of some node shows. -/
theorem Shows.mem_shownAll {n : N} {xs t : List Instr} {s : Status} {q : Instr}
    (h : c.Shows n xs t s) : q ∈ t → q ∈ shownAll xs ∨ ∃ m, q ∈ shownAll (c.code m) := by
  induction h with
  | pause => exact nofun
  | execute rest ih =>
    intro hq
    rw [shownAll_cons, List.mem_append]
    rcases List.mem_append.1 hq with hq | hq
    · exact .inl (.inl hq)
    · exact (ih hq).imp_left .inr
  | follow way rest ih => exact fun hq => .inr ((ih hq).elim (fun hxs => ⟨_, hxs⟩) id)
  | fall => exact nofun
  | stop => exact nofun

/-- A run that is caught in nodes that show nothing never shows anything and never
ends. -/
theorem Shows.quiet {S : N → Prop}
    (hS : ∀ n, S n → shownAll (c.code n) = [] ∧ ¬ c.exit n ∧ (∃ m, c.next n m) ∧
      ∀ m, c.next n m → S m)
    {n : N} {xs t : List Instr} {s : Status} (h : c.Shows n xs t s) :
    S n → shownAll xs = [] → t = [] ∧ s = .running := by
  induction h with
  | pause n code => exact fun _ _ => ⟨rfl, rfl⟩
  | execute rest ih =>
    intro hn hxs
    rw [shownAll_cons, List.append_eq_nil_iff] at hxs
    obtain ⟨ht, hs⟩ := ih hn hxs.2
    exact ⟨by rw [hxs.1, ht]; rfl, hs⟩
  | follow way rest ih =>
    intro hn _
    have hm := (hS _ hn).2.2.2 _ way
    exact ih hm (hS _ hm).1
  | fall exit => exact fun hn _ => absurd exit (hS _ hn).2.1
  | stop noWay noExit =>
    intro hn _
    obtain ⟨m, hm⟩ := (hS _ hn).2.2.1
    exact absurd hm (noWay m)

/-! ## Carrying traces over to another chart -/

/-- What it takes for the runs of `d` to follow those of `c`, when the node `m` of `d`
stands for the node `n` of `c` as `R n m` says. -/
structure Simulates (c : Flowchart N) (d : Flowchart M) (R : N → M → Prop) : Prop where
  code : ∀ {n m}, R n m → shownAll (c.code n) = shownAll (d.code m)
  /-- A way of `c` may take `d` several ways that show nothing. -/
  next : ∀ {n m n'}, R n m → c.next n n' → ∃ m', R n' m' ∧
    ∀ t s, d.Shows m' (d.code m') t s → d.Shows m [] t s
  exit : ∀ {n m}, R n m → c.exit n → d.exit m
  stop : ∀ {n m}, R n m → (∀ n', ¬ c.next n n') → ¬ c.exit n →
    (∀ m', ¬ d.next m m') ∧ ¬ d.exit m

theorem Shows.simulate {R : N → M → Prop} (sim : Simulates c d R) {n : N}
    {xs t : List Instr} {s : Status} (h : c.Shows n xs t s) :
    ∀ {m : M}, R n m → d.Shows m xs t s := by
  induction h with
  | pause n code => exact fun _ => .pause _ _
  | execute rest ih => exact fun hR => .execute (ih hR)
  | follow way rest ih =>
    intro m hR
    obtain ⟨m', hR', hback⟩ := sim.next hR way
    exact hback _ _ ((shows_congr (sim.code hR')).1 (ih hR'))
  | fall exit => exact fun hR => .fall (sim.exit hR exit)
  | stop noWay noExit =>
    intro m hR
    have h := sim.stop hR noWay noExit
    exact .stop h.1 h.2

theorem HasTrace.simulate {R : N → M → Prop} (sim : Simulates c d R)
    (hentry : R c.entry d.entry) {t : List Instr} {s : Status} (h : c.HasTrace t s) :
    d.HasTrace t s :=
  (shows_congr (sim.code hentry)).1 (Shows.simulate sim h hentry)

/-- What it takes for two charts to follow each other step by step, when `R n m` says
that the node `m` of `d` is the node `n` of `c`. -/
structure Matches (c : Flowchart N) (d : Flowchart M) (R : N → M → Prop) : Prop where
  entry : R c.entry d.entry
  code : ∀ {n m}, R n m → shownAll (c.code n) = shownAll (d.code m)
  next : ∀ {n m n'}, R n m → c.next n n' → ∃ m', R n' m' ∧ d.next m m'
  back : ∀ {n m m'}, R n m → d.next m m' → ∃ n', R n' m' ∧ c.next n n'
  exit : ∀ {n m}, R n m → (c.exit n ↔ d.exit m)

theorem Matches.symm {R : N → M → Prop} (h : Matches c d R) :
    Matches d c fun m n => R n m :=
  ⟨h.entry, fun hR => (h.code hR).symm, fun hR => h.back hR, fun hR => h.next hR,
    fun hR => (h.exit hR).symm⟩

theorem Matches.simulates {R : N → M → Prop} (h : Matches c d R) : Simulates c d R where
  code := h.code
  next hR way := by
    obtain ⟨m', hR', way'⟩ := h.next hR way
    exact ⟨m', hR', fun _ _ => .follow way'⟩
  exit hR := (h.exit hR).1
  stop hR noWay noExit := by
    refine ⟨fun m' way => ?_, mt (h.exit hR).2 noExit⟩
    obtain ⟨n', _, way'⟩ := h.back hR way
    exact noWay n' way'

theorem Matches.hasTrace {R : N → M → Prop} (h : Matches c d R) {t : List Instr}
    {s : Status} : c.HasTrace t s ↔ d.HasTrace t s :=
  ⟨.simulate h.simulates h.entry, .simulate h.symm.simulates h.entry⟩

end Flowchart

end StackFlow
