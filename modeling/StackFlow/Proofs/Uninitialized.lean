import StackFlow.Proofs.Totality

/-!
# Temporaries that may be read before they are written

The live sets speak of the blocks, a caller thinks of the list of instructions.

* `Flowchart.Reads c t n code` says that some run of the chart `c` loads `t` before storing
  it, and `reads_iff_shows` reads that off the traces, which blocks and list share.
* `reads_ofLayout` is the side of the blocks: there it is what the live sets compute.
* `LoadsUnset` and `reads_ofCode` are the side of the list: a way from its beginning to a
  load that passes no store.
* `Graph.uninitialized_iff` puts the sides together: a routine is refused for a temporary
  exactly if the list has such a way, and the temporary named is the smallest one.
-/

namespace StackFlow

/-! ## Runs that load before they store -/

namespace Instr

variable {p : Instr} {t : Int64}

theorem shown_of_loads (h : p.loads t = true) : p.shown = [p] := by
  simp only [loads, Bool.and_eq_true, decide_eq_true_eq] at h
  simp [shown, isMeta, h.1, Opcode.row]

theorem shown_of_stores (h : p.stores t = true) : p.shown = [p] := by
  simp only [stores, Bool.and_eq_true, decide_eq_true_eq] at h
  simp [shown, isMeta, h.1, Opcode.row]

/-- What is shown of an instruction is the instruction itself, or loads and stores
nothing. -/
theorem mem_shown {q : Instr} (h : q ∈ p.shown) :
    q = p ∨ q.loads t = false ∧ q.stores t = false := by
  unfold shown at h
  split at h
  · cases h
  · split at h
    · rename_i hop
      rw [List.mem_singleton.1 h]
      exact .inr (by simp [loads, stores, hop])
    · exact .inl (List.mem_singleton.1 h)

end Instr

/-- A jump that is made anew loads and stores nothing, as before. -/
theorem Threading.loads_stores_remake (hs : List (Int64 × Int64)) (p : Instr) (t : Int64) :
    (remake hs p).loads t = p.loads t ∧ (remake hs p).stores t = p.stores t := by
  rcases remake_cases hs p with ⟨h, -⟩ | ⟨-, ⟨hop, h⟩ | ⟨hop, h⟩⟩
  · rw [h]
    exact ⟨rfl, rfl⟩
  · rw [h]
    simp [Instr.loads, Instr.stores, Instr.branch, Instr.ofOpcode, hop]
  · rw [h]
    simp [Instr.loads, Instr.stores, Instr.hop, Instr.ofOpcode, hop]

namespace Flowchart

variable {N : Type} {c : Flowchart N} {n : N} {t : Int64}

/-- `c.Reads t n code`: some run of `c` that has `code` left to run in node `n` loads `t`
before it stores it. -/
inductive Reads (c : Flowchart N) (t : Int64) : N → List Instr → Prop where
  | load {n : N} {p : Instr} {code : List Instr} (h : p.loads t = true) : Reads c t n (p :: code)
  | skip {n : N} {p : Instr} {code : List Instr} (h : p.stores t = false)
      (rest : Reads c t n code) : Reads c t n (p :: code)
  | follow {n m : N} (way : c.next n m) (rest : Reads c t m (c.code m)) : Reads c t n []

theorem needs_append_shown {p : Instr} {u : List Instr} (hstores : p.stores t = false)
    (h : Block.Needs t u) : Block.Needs t (p.shown ++ u) := by
  rcases shown_cases p with hp | ⟨q, hp⟩
  · rwa [hp]
  · have hq : q ∈ p.shown := by simp [hp]
    rw [hp]
    refine .inr ⟨?_, h⟩
    rcases Instr.mem_shown (t := t) hq with rfl | hnone
    · exact hstores
    · exact hnone.2

theorem of_needs_append_shown {p : Instr} {u : List Instr} (h : Block.Needs t (p.shown ++ u)) :
    p.loads t = true ∨ p.stores t = false ∧ Block.Needs t u := by
  by_cases hloads : p.loads t = true
  · exact .inl hloads
  by_cases hstores : p.stores t = true
  · rw [Instr.shown_of_stores hstores] at h
    rcases h with hload | ⟨hfalse, _⟩
    · exact .inl hload
    · rw [hstores] at hfalse
      cases hfalse
  · refine .inr ⟨Bool.eq_false_iff.2 hstores, ?_⟩
    rcases shown_cases p with hp | ⟨q, hp⟩
    · rwa [hp] at h
    · have hq : q ∈ p.shown := by simp [hp]
      rw [hp] at h
      rcases h with hload | ⟨_, hrest⟩
      · rcases Instr.mem_shown (t := t) hq with rfl | hnone
        · exact absurd hload hloads
        · rw [hnone.1] at hload
          cases hload
      · exact hrest

/-- A run loads before it stores if its trace does. -/
theorem reads_iff_shows {xs : List Instr} :
    c.Reads t n xs ↔ ∃ u, c.Shows n xs u .running ∧ Block.Needs t u := by
  constructor
  · intro h
    induction h with
    | load hload =>
      rename_i n p code
      refine ⟨p.shown ++ [], .execute (.pause n code), ?_⟩
      rw [Instr.shown_of_loads hload]
      exact .inl hload
    | skip hstores rest ih =>
      obtain ⟨u, hshows, hneeds⟩ := ih
      exact ⟨_, .execute hshows, needs_append_shown hstores hneeds⟩
    | follow way rest ih =>
      obtain ⟨u, hshows, hneeds⟩ := ih
      exact ⟨u, .follow way hshows, hneeds⟩
  · rintro ⟨u, hshows, hneeds⟩
    generalize Status.running = s at hshows
    induction hshows with
    | pause => exact hneeds.elim
    | execute rest ih =>
      rcases of_needs_append_shown hneeds with hload | ⟨hstores, hneeds⟩
      · exact .load hload
      · exact .skip hstores (ih hneeds)
    | follow way rest ih => exact .follow way (ih hneeds)
    | fall => exact hneeds.elim
    | stop => exact hneeds.elim

/-! ## Runs of the blocks -/

theorem reads_of_needs {xs : List Instr} (h : Block.Needs t xs) : c.Reads t n xs := by
  induction xs with
  | nil => exact h.elim
  | cons p xs ih =>
    rcases h with hload | ⟨hstores, hneeds⟩
    · exact .load hload
    · exact .skip hstores (ih hneeds)

theorem reads_of_next {xs : List Instr} {m : N} (hstores : ∀ p ∈ xs, p.stores t = false)
    (way : c.next n m) (h : c.Reads t m (c.code m)) : c.Reads t n xs := by
  induction xs with
  | nil => exact .follow way h
  | cons p xs ih =>
    have hrest := ih fun q hq => hstores q (List.mem_cons_of_mem _ hq)
    exact .skip (hstores p List.mem_cons_self) hrest

/-- Over the blocks, what a run loads before it stores is what the live sets are about. -/
theorem reads_ofLayout {layout : Layout} {i : Nat} :
    (ofLayout layout).Reads t i (layout.block i).code ↔ Live.Reads layout t i := by
  constructor
  · intro h
    suffices hall : ∀ {i xs}, (ofLayout layout).Reads t i xs → Block.Needs t xs ∨
        (∀ p ∈ xs, p.stores t = false) ∧ ∃ j ∈ layout.succ i, Live.Reads layout t j by
      rcases hall h with hneeds | ⟨hstores, j, hj, hreads⟩
      · exact Live.reads_of_needs hneeds
      · exact Live.reads_of_succ hstores hj hreads
    intro i xs h
    induction h with
    | load hload => exact .inl (.inl hload)
    | skip hstores rest ih =>
      refine ih.imp (fun hneeds => .inr ⟨hstores, hneeds⟩) fun ⟨hrest, hway⟩ => ⟨?_, hway⟩
      exact List.forall_mem_cons.2 ⟨hstores, hrest⟩
    | follow way rest ih =>
      refine .inr ⟨by simp, _, way, ?_⟩
      rcases ih with hneeds | ⟨hstores, j, hj, hreads⟩
      · exact Live.reads_of_needs hneeds
      · exact Live.reads_of_succ hstores hj hreads
  · rintro ⟨k, hk⟩
    induction k generalizing i with
    | zero => exact hk.elim
    | succ k ih =>
      rcases hk with hneeds | ⟨j, ⟨hstores, hj⟩, hk⟩
      · exact reads_of_needs hneeds
      · exact reads_of_next hstores hj (ih hk)

end Flowchart

/-! ## Ways through the list -/

/-- Some way from the beginning of the list leads to index `i` without storing `t`. -/
inductive Unset (code : List Instr) (t : Int64) : Nat → Prop where
  | start : Unset code t 0
  | step {i j : Nat} {p : Instr} (h : Unset code t i) (hp : code[i]? = some p)
      (hstores : p.stores t = false) (way : (Flowchart.ofCode code).next i j) : Unset code t j

/-- Some way from the beginning of the list leads to a load of `t` without storing it. -/
def LoadsUnset (code : List Instr) (t : Int64) : Prop :=
  ∃ (i : Nat) (p : Instr), Unset code t i ∧ code[i]? = some p ∧ p.loads t = true

/-- Over the list, a run that loads before it stores is such a way. -/
theorem Flowchart.reads_ofCode {code : List Instr} {t : Int64} :
    (ofCode code).Reads t 0 ((ofCode code).code 0) ↔ LoadsUnset code t := by
  constructor
  · intro h
    -- a run is at the beginning of a node, or at its end
    suffices hall : ∀ {i xs}, (ofCode code).Reads t i xs →
        (xs = code[i]?.toList → Unset code t i → LoadsUnset code t) ∧
        (xs = [] → (∀ j, (ofCode code).next i j → Unset code t j) → LoadsUnset code t) from
      (hall h).1 rfl .start
    intro i xs h
    induction h with
    | load hload =>
      rename_i i p rest
      refine ⟨fun hcode hunset => ?_, nofun⟩
      cases hp : code[i]? with
      | none => simp [hp] at hcode
      | some q =>
        rw [hp, Option.toList_some, List.cons.injEq] at hcode
        exact ⟨i, q, hunset, hp, hcode.1 ▸ hload⟩
    | skip hstores rest ih =>
      rename_i i p rest
      refine ⟨fun hcode hunset => ?_, nofun⟩
      cases hp : code[i]? with
      | none => simp [hp] at hcode
      | some q =>
        rw [hp, Option.toList_some, List.cons.injEq] at hcode
        exact ih.2 hcode.2 fun j way => hunset.step hp (hcode.1 ▸ hstores) way
    | follow way rest ih =>
      refine ⟨fun hcode _ => ?_, fun _ hunset => ih.1 rfl (hunset _ way)⟩
      obtain ⟨p, hp, _⟩ := way
      simp [hp] at hcode
  · rintro ⟨i, p, hunset, hp, hload⟩
    have hreads : (ofCode code).Reads t i ((ofCode code).code i) := by
      show (ofCode code).Reads t i code[i]?.toList
      rw [hp]
      exact .load hload
    clear hp hload
    induction hunset with
    | start => exact hreads
    | step hunset hq hstores way ih =>
      refine ih ?_
      show (ofCode code).Reads t _ (code[_]?.toList)
      rw [hq]
      exact .skip hstores (.follow way hreads)

section Rebuilt

open Threading

variable {code : List Instr} {t : Int64} {i : Nat}

theorem unset_rebuilt : Unset (rebuilt code) t i ↔ Unset code t i := by
  constructor
  · intro h
    induction h with
    | start => exact .start
    | step _ hp hstores way ih =>
      rw [getElem?_rebuilt, Option.map_eq_some_iff] at hp
      obtain ⟨p, hp, rfl⟩ := hp
      rw [(loads_stores_remake _ p t).2] at hstores
      exact ih.step hp hstores (next_rebuilt.1 way)
  · intro h
    induction h with
    | start => exact .start
    | @step i j p _ hp hstores way ih =>
      refine ih.step (p := remake (hops code) p) ?_ ?_ (next_rebuilt.2 way)
      · rw [getElem?_rebuilt, hp, Option.map_some]
      · rwa [(loads_stores_remake _ p t).2]

/-- Making the jumps anew changes no way to a load. -/
theorem loadsUnset_rebuilt : LoadsUnset (rebuilt code) t ↔ LoadsUnset code t := by
  simp only [LoadsUnset, unset_rebuilt, getElem?_rebuilt, Option.map_eq_some_iff]
  constructor
  · rintro ⟨i, _, hunset, ⟨p, hp, rfl⟩, hload⟩
    rw [(loads_stores_remake _ p t).1] at hload
    exact ⟨i, p, hunset, hp, hload⟩
  · rintro ⟨i, p, hunset, hp, hload⟩
    exact ⟨i, _, hunset, ⟨p, hp, rfl⟩, by rwa [(loads_stores_remake _ p t).1]⟩

end Rebuilt

/-- What is live into the first block is what some way through the list loads before it
stores it. -/
theorem reads_entry_iff {code : List Instr} {t : Int64} (h : Labelled (Threading.thread code)) :
    Live.Reads (Layout.ofCode (Threading.thread code)) t 0 ↔ LoadsUnset code t := by
  rw [← Flowchart.reads_ofLayout, ← loadsUnset_rebuilt, ← Flowchart.reads_ofCode,
    Flowchart.reads_iff_shows, Flowchart.reads_iff_shows]
  exact exists_congr fun u => and_congr_left' (Layout.hasTrace_ofCode_rebuilt h)

/-! ## The error -/

namespace TempSet

variable {s : TempSet} {t : Int64}

theorem min?_eq_some (h : s.min? = some t) : t ∈ s ∧ ∀ u ∈ s, t ≤ u := by
  obtain ⟨us, hs⟩ : ∃ us, s.toList = t :: us := by
    rw [min?, List.head?_eq_some_iff] at h
    exact h
  refine ⟨mem_def.2 (hs ▸ List.mem_cons_self), fun u hu => ?_⟩
  rw [mem_def, hs] at hu
  rcases List.mem_cons.1 hu with rfl | hu
  · exact Int64.le_refl u
  · exact Int64.le_of_lt (List.rel_of_pairwise_cons (hs ▸ s.sorted) hu)

theorem not_mem_of_min?_eq_none (h : s.min? = none) : t ∉ s := by
  rw [min?, List.head?_eq_none_iff] at h
  rw [mem_def, h]
  exact List.not_mem_nil

end TempSet

theorem FlowError.fault_locate (e : FlowError) (l : Location) : (e.locate l).fault = e.fault := by
  unfold FlowError.locate
  split <;> rfl

namespace Scope

theorem fault_uninitialized (code : List Instr) (t : Int64) :
    (uninitialized code t).fault = .uninitializedTemp t ∨
      ∃ name, (uninitialized code t).fault = .uninitializedNamed t name := by
  unfold uninitialized
  simp only
  split
  · rename_i l p _
    exact .inr ⟨p.text, FlowError.fault_locate _ l⟩
  · split
    · rename_i l _ _
      exact .inl (FlowError.fault_locate _ l)
    · exact .inl rfl

/-- With or without a name, the error is about the temporary. -/
theorem kind_uninitialized (code : List Instr) (t : Int64) :
    (uninitialized code t).kind = .uninitializedTemp ∧ (uninitialized code t).fault.temp = t := by
  unfold FlowError.kind
  rcases fault_uninitialized code t with h | ⟨name, h⟩
  · rw [h]
    exact ⟨rfl, rfl⟩
  · rw [h]
    exact ⟨rfl, rfl⟩

end Scope

namespace Graph

/-- A routine that passes the checks before it is refused for an uninitialized temporary
exactly if some way through the list loads a temporary before storing it; and the one that
is named is the smallest of these. -/
theorem uninitialized_iff {o : Options} {code : List Instr} {r : Array Effect × Effect}
    (hcheck : Scope.check o.platform.pointerSize (Threading.thread code) = .ok ())
    (heffects : Flow.effects (Layout.ofCode (Threading.thread code))
      (Junction.ofLayout (Layout.ofCode (Threading.thread code))) = .ok r)
    (hrounds : o.maxRounds = 0) :
    ((∃ e, build o code = .error (.flow e) ∧ e.kind = .uninitializedTemp) ↔
        ∃ t, LoadsUnset code t) ∧
      ∀ e, build o code = .error (.flow e) → e.kind = .uninitializedTemp →
        LoadsUnset code e.fault.temp ∧ ∀ t, LoadsUnset code t → e.fault.temp ≤ t := by
  have hlabelled := Scope.labelled_of_check hcheck
  have hwf := Layout.wellFormed_ofCode hlabelled
  obtain ⟨live, rounds, hlive, _, hexact⟩ :=
    (Live.compute_spec hwf (fun _ => Layout.facts_ofCode) o).resolve_right fun h => h.1 hrounds
  have hentry : ∀ t, t ∈ (live.getD 0 .none).liveIn ↔ LoadsUnset code t := fun t =>
    (hexact.mem_liveIn 0 (Layout.size_pos_ofCode hlabelled) t).trans (reads_entry_iff hlabelled)
  cases hmin : (live.getD 0 .none).liveIn.min? with
  | some t =>
    obtain ⟨hmem, hle⟩ := TempSet.min?_eq_some hmin
    have hbuild := build_of_uninitialized hcheck heffects hlive hmin
    obtain ⟨hkind, htemp⟩ := Scope.kind_uninitialized (Threading.thread code) t
    refine ⟨iff_of_true ⟨_, hbuild, hkind⟩ ⟨t, (hentry t).1 hmem⟩, ?_⟩
    intro e he _
    obtain rfl : Scope.uninitialized (Threading.thread code) t = e := by
      rw [hbuild] at he
      cases he
      rfl
    rw [htemp]
    exact ⟨(hentry t).1 hmem, fun u hu => hle u ((hentry u).2 hu)⟩
  | none =>
    obtain ⟨d, hdominance, _⟩ := (Dominance.compute_spec hwf o).resolve_right fun h => h.1 hrounds
    obtain ⟨g, hbuild⟩ := build_of_initialized hcheck heffects hlive hmin hdominance
    refine ⟨iff_of_false ?_ ?_, fun e he => ?_⟩
    · rintro ⟨e, he, _⟩
      rw [hbuild] at he
      cases he
    · rintro ⟨t, ht⟩
      exact TempSet.not_mem_of_min?_eq_none hmin ((hentry t).2 ht)
    · rw [hbuild] at he
      cases he

/-- A branch past the store of a temporary, to its load and the load of a larger one. -/
def skippingRoutine : List Instr :=
  [.number 1, .branch 0 true, .number 5, .tstore .int32 3, .target 0, .tload .int32 7,
    .tload .int32 3]

theorem uninitialized_iff_skipping :
    ∃ e, build (Defaults.options {}) skippingRoutine = .error (.flow e) ∧
      e.kind = .uninitializedTemp ∧ LoadsUnset skippingRoutine e.fault.temp ∧
      e.fault.temp ≤ 3 := by
  have hcheck : Scope.check 8 (Threading.thread skippingRoutine) = .ok () := by cbv
  obtain ⟨r, heffects⟩ : ∃ r, Flow.effects (Layout.ofCode (Threading.thread skippingRoutine))
      (Junction.ofLayout (Layout.ofCode (Threading.thread skippingRoutine))) = .ok r := by
    have hok : (Flow.effects (Layout.ofCode (Threading.thread skippingRoutine))
      (Junction.ofLayout (Layout.ofCode (Threading.thread skippingRoutine)))).toBool = true := by
      cbv
    cases h : Flow.effects (Layout.ofCode (Threading.thread skippingRoutine))
        (Junction.ofLayout (Layout.ofCode (Threading.thread skippingRoutine))) with
    | ok r => exact ⟨r, rfl⟩
    | error e =>
      rw [h] at hok
      cases hok
  obtain ⟨hiff, hleast⟩ := uninitialized_iff (o := Defaults.options {}) hcheck heffects rfl
  have hunset : LoadsUnset skippingRoutine 3 := by
    have htarget : TargetAt skippingRoutine 4 0 := ⟨.target 0, rfl, rfl, rfl⟩
    have hstart : Unset skippingRoutine 3 0 := .start
    have hbranch := hstart.step rfl rfl ⟨_, rfl, .inl ⟨rfl, rfl⟩⟩
    have hlabel := hbranch.step rfl rfl ⟨_, rfl, .inr ⟨rfl, htarget⟩⟩
    have hload := hlabel.step rfl rfl ⟨_, rfl, .inl ⟨rfl, rfl⟩⟩
    exact ⟨6, _, hload.step rfl rfl ⟨_, rfl, .inl ⟨rfl, rfl⟩⟩, rfl, rfl⟩
  obtain ⟨e, hbuild, hkind⟩ := hiff.2 ⟨3, hunset⟩
  obtain ⟨hloads, hsmallest⟩ := hleast e hbuild hkind
  exact ⟨e, hbuild, hkind, hloads, hsmallest 3 hunset⟩

end Graph

end StackFlow
