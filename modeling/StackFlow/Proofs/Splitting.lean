import StackFlow.Proofs.Drafts
import StackFlow.Proofs.HopThreading

/-!
# Cutting a list into drafts keeps the traces

The drafts of a routine make a chart whose nodes are their names.  This module relates
the drafts that `Draft.split` makes to the list they were cut from.

* `Covers` says which code a draft has when it reads on from some index, and where
  control goes at its end.  `placed_of_mem_cut` reads it off every draft.
* `starts_cut` gives the names of the drafts: no draft is lost, and the names are all
  different (`nodup_startsFrom`).
* `hasTrace_cut` is the result.  A point of the list, before or after an
  instruction, stands for a point of a draft, and each side follows the other.
-/

namespace StackFlow

/-- The drafts of a routine as a chart.  A way leads only to a draft that is there. -/
def Flowchart.ofDrafts (ds : List Draft) : Flowchart Start where
  entry := .entry
  code σ := ((ds.find? (·.start = σ)).map (·.code)).getD []
  next σ τ := ∃ d ∈ ds, d.start = σ ∧ τ ∈ d.succ ∧ ∃ e ∈ ds, e.start = τ
  exit σ := ∃ d ∈ ds, d.start = σ ∧ d.exit = true

/-- What the chart of drafts relies on: the names are different, the first draft is
the entry, and control falls off the end only where it goes nowhere else. -/
structure Draft.Coherent (ds : List Draft) : Prop where
  nodup : (ds.map (·.start)).Nodup
  entry : ds.head?.map (·.start) = some .entry
  exit : ∀ d ∈ ds, d.exit = true → d.succ = []

namespace Draft.Coherent

variable {ds : List Draft}

theorem eq_of_start (h : Draft.Coherent ds) {d e : Draft} (hd : d ∈ ds) (he : e ∈ ds)
    (hstart : d.start = e.start) : d = e :=
  List.inj_on_of_nodup_map h.nodup hd he hstart

theorem code_eq (h : Draft.Coherent ds) {d : Draft} (hd : d ∈ ds) :
    (Flowchart.ofDrafts ds).code d.start = d.code := by
  have hfind : ds.find? (·.start = d.start) = some d := by
    cases hfind : ds.find? (·.start = d.start) with
    | none => exact absurd (List.find?_eq_none.1 hfind d hd) (by simp)
    | some e =>
      have hstart := List.find?_some hfind
      rw [decide_eq_true_eq] at hstart
      rw [h.eq_of_start (List.mem_of_find?_eq_some hfind) hd hstart]
  simp [Flowchart.ofDrafts, hfind]

theorem next_iff (h : Draft.Coherent ds) {d : Draft} (hd : d ∈ ds) {τ : Start} :
    (Flowchart.ofDrafts ds).next d.start τ ↔ τ ∈ d.succ ∧ ∃ e ∈ ds, e.start = τ := by
  constructor
  · rintro ⟨d', hd', hstart, hτ⟩
    exact h.eq_of_start hd' hd hstart ▸ hτ
  · exact fun hτ => ⟨d, hd, rfl, hτ⟩

theorem exit_iff (h : Draft.Coherent ds) {d : Draft} (hd : d ∈ ds) :
    (Flowchart.ofDrafts ds).exit d.start ↔ d.exit = true := by
  constructor
  · rintro ⟨d', hd', hstart, hexit⟩
    exact h.eq_of_start hd' hd hstart ▸ hexit
  · exact fun hexit => ⟨d, hd, rfl, hexit⟩

end Draft.Coherent

namespace Draft

variable {code : List Instr}

/-! ## What a draft covers -/

/-- Whether the instruction ends neither a draft nor starts one. -/
def IsPlain (p : Instr) : Prop := p.op ≠ .target ∧ p.op ≠ .branch ∧ p.op ≠ .hop

/-- `Covers code i ys succ exit`: a draft that reads on from index `i` has the code `ys`
left, then goes to `succ`, and falls off the end of the routine if `exit`. -/
inductive Covers (code : List Instr) : Nat → List Instr → List Start → Bool → Prop where
  | finish : Covers code code.length [] [] true
  | target {i : Nat} {p : Instr} (at_ : code[i]? = some p) (op : p.op = .target) :
      Covers code i [] [.label p.label] false
  | branch {i : Nat} {p : Instr} (at_ : code[i]? = some p) (op : p.op = .branch) :
      Covers code i [p] [.label p.label, .after i] false
  | hop {i : Nat} {p : Instr} (at_ : code[i]? = some p) (op : p.op = .hop) :
      Covers code i [p] [.label p.label] false
  | leave {i : Nat} {p : Instr} (at_ : code[i]? = some p) (plain : IsPlain p)
      (transfers : p.transfers = true) : Covers code i [p] [] false
  | pass {i : Nat} {p : Instr} {ys : List Instr} {succ : List Start} {exit : Bool}
      (at_ : code[i]? = some p) (plain : IsPlain p) (transfers : p.transfers = false)
      (rest : Covers code (i + 1) ys succ exit) : Covers code i (p :: ys) succ exit

theorem Covers.succ_of_exit {i : Nat} {ys : List Instr} {succ : List Start} {exit : Bool}
    (h : Covers code i ys succ exit) : exit = true → succ = [] := by
  induction h with
  | finish => exact fun _ => rfl
  | target => exact fun h => absurd h (by simp)
  | branch => exact fun h => absurd h (by simp)
  | hop => exact fun h => absurd h (by simp)
  | leave => exact fun _ => rfl
  | pass _ _ _ _ ih => exact ih

/-- A draft covers the list from the place its name stands for. -/
def Placed (code : List Instr) (d : Draft) : Prop :=
  match d.start with
  | .entry => Covers code 0 d.code d.succ d.exit
  | .after i => (∃ p : Instr, code[i]? = some p ∧ p.op = .branch) ∧
      Covers code (i + 1) d.code d.succ d.exit
  | .label l => ∃ (j : Nat) (p : Instr) (ys : List Instr), code[j]? = some p ∧
      p.op = .target ∧ p.label = l ∧ d.code = p :: ys ∧ Covers code (j + 1) ys d.succ d.exit

theorem Placed.succ_of_exit {d : Draft} (h : Placed code d) (hexit : d.exit = true) :
    d.succ = [] := by
  unfold Placed at h
  split at h
  · exact h.succ_of_exit hexit
  · exact h.2.succ_of_exit hexit
  · obtain ⟨_, _, _, _, _, _, _, hcovers⟩ := h
    exact hcovers.succ_of_exit hexit

theorem Covers.mem {i : Nat} {ys : List Instr} {succ : List Start} {exit : Bool}
    (h : Covers code i ys succ exit) : ∀ p ∈ ys, p ∈ code := by
  induction h with
  | finish => simp
  | target => simp
  | branch at_ => simp [List.mem_of_getElem? at_]
  | hop at_ => simp [List.mem_of_getElem? at_]
  | leave at_ => simp [List.mem_of_getElem? at_]
  | pass at_ _ _ _ ih =>
    intro q hq
    rcases List.mem_cons.1 hq with rfl | hq
    · exact List.mem_of_getElem? at_
    · exact ih q hq

/-- A draft has only instructions of the list. -/
theorem Placed.mem {d : Draft} (h : Placed code d) : ∀ p ∈ d.code, p ∈ code := by
  unfold Placed at h
  split at h
  · exact h.mem
  · exact h.2.mem
  · obtain ⟨j, q, ys, hq, _, _, hcode, hcovers⟩ := h
    intro p hp
    rw [hcode] at hp
    rcases List.mem_cons.1 hp with rfl | hp
    · exact List.mem_of_getElem? hq
    · exact hcovers.mem p hp

/-! ## One instruction of `split` -/

section Split

variable {i : Nat} {l : Location} {cur : Option Open} {p : Instr} {rest : List Instr}

theorem split_target (h : p.op = .target) : split i l cur (p :: rest) =
    (cur.map (·.close [.label p.label] (some (.label p.label)) l)).toList
      ++ split (i + 1) l (some { start := .label p.label, code := [p] }) rest := by
  rw [split, h]

theorem split_branch (h : p.op = .branch) : split i l cur (p :: rest) =
    (cur.map fun d => (d.push p).close [.label p.label, .after i] (some (.after i)) l).toList
      ++ split (i + 1) l (some { start := .after i }) rest := by
  rw [split, h]

theorem split_hop (h : p.op = .hop) : split i l cur (p :: rest) =
    (cur.map fun d => (d.push p).close [.label p.label] none l).toList
      ++ split (i + 1) l none rest := by
  rw [split, h]

theorem split_plain (h : IsPlain p) : split i l cur (p :: rest) =
    if p.transfers then
      ((cur.map (·.push p)).map (·.close [] none l)).toList ++ split (i + 1) l none rest
    else split (i + 1) (l.after p) (cur.map (·.push p)) rest := by
  obtain ⟨h₁, h₂, h₃⟩ := h
  rw [split]
  split
  · exact absurd ‹_› h₁
  · exact absurd ‹_› h₂
  · exact absurd ‹_› h₃
  · rfl

theorem plain_cases (p : Instr) :
    p.op = .target ∨ p.op = .branch ∨ p.op = .hop ∨ IsPlain p := by
  by_cases h₁ : p.op = .target
  · exact .inl h₁
  · by_cases h₂ : p.op = .branch
    · exact .inr (.inl h₂)
    · by_cases h₃ : p.op = .hop
      · exact .inr (.inr (.inl h₃))
      · exact .inr (.inr (.inr ⟨h₁, h₂, h₃⟩))

theorem drop_succ_of_drop (h : code.drop i = p :: rest) :
    code[i]? = some p ∧ code.drop (i + 1) = rest := by
  constructor
  · rw [← List.head?_drop, h, List.head?_cons]
  · rw [← List.drop_drop, h, List.drop_succ_cons, List.drop_zero]

/-- What is known of a draft that `split` makes from index `i` on: it goes on with the
code of the draft that was open, or it covers the list from its own start. -/
def Continues (code : List Instr) (i : Nat) (cur : Option Open) (d : Draft) : Prop :=
  (∃ o, cur = some o ∧ d.start = o.start ∧ ∃ ys, d.code = o.code.reverse ++ ys ∧
    Covers code i ys d.succ d.exit) ∨ Placed code d

theorem continues_of_mem_split {rest : List Instr} (hi : i ≤ code.length)
    (hdrop : code.drop i = rest) {d : Draft} (hd : d ∈ split i l cur rest) :
    Continues code i cur d := by
  induction rest generalizing i l cur with
  | nil =>
    have hlen : i = code.length :=
      Nat.le_antisymm hi (List.drop_eq_nil_iff.1 hdrop)
    rw [split, Option.mem_toList, Option.map_eq_some_iff] at hd
    obtain ⟨o, ho, rfl⟩ := hd
    refine .inl ⟨o, ho, rfl, [], ?_, hlen ▸ .finish⟩
    simp [Open.close]
  | cons p rest ih =>
    obtain ⟨hp, hrest⟩ := drop_succ_of_drop hdrop
    have hi' : i + 1 ≤ code.length := (List.getElem?_eq_some_iff.1 hp).1
    rcases plain_cases p with hop | hop | hop | hplain
    · rw [split_target hop, List.mem_append, Option.mem_toList, Option.map_eq_some_iff] at hd
      rcases hd with ⟨o, ho, rfl⟩ | hd
      · exact .inl ⟨o, ho, rfl, [], by simp [Open.close], .target hp hop⟩
      · rcases ih hi' hrest hd with ⟨o, ho, hstart, ys, hcode, hcovers⟩ | hplaced
        · cases ho
          refine .inr ?_
          rw [Placed, hstart]
          exact ⟨i, p, ys, hp, hop, rfl, by simpa using hcode, hcovers⟩
        · exact .inr hplaced
    · rw [split_branch hop, List.mem_append, Option.mem_toList, Option.map_eq_some_iff] at hd
      rcases hd with ⟨o, ho, rfl⟩ | hd
      · exact .inl ⟨o, ho, rfl, [p], by simp [Open.close, Open.push], .branch hp hop⟩
      · rcases ih hi' hrest hd with ⟨o, ho, hstart, ys, hcode, hcovers⟩ | hplaced
        · cases ho
          refine .inr ?_
          rw [Placed, hstart]
          have hys : d.code = ys := by simpa using hcode
          exact ⟨⟨p, hp, hop⟩, hys ▸ hcovers⟩
        · exact .inr hplaced
    · rw [split_hop hop, List.mem_append, Option.mem_toList, Option.map_eq_some_iff] at hd
      rcases hd with ⟨o, ho, rfl⟩ | hd
      · exact .inl ⟨o, ho, rfl, [p], by simp [Open.close, Open.push], .hop hp hop⟩
      · rcases ih hi' hrest hd with ⟨o, ho, _⟩ | hplaced
        · cases ho
        · exact .inr hplaced
    · rw [split_plain hplain] at hd
      split at hd
      · rename_i htrans
        simp only [List.mem_append, Option.mem_toList, Option.map_eq_some_iff] at hd
        rcases hd with ⟨_, ⟨o, ho, rfl⟩, rfl⟩ | hd
        · exact .inl ⟨o, ho, rfl, [p], by simp [Open.close, Open.push],
            .leave hp hplain htrans⟩
        · rcases ih hi' hrest hd with ⟨o, ho, _⟩ | hplaced
          · cases ho
          · exact .inr hplaced
      · rename_i htrans
        rcases ih hi' hrest hd with ⟨o', ho, hstart, ys, hcode, hcovers⟩ | hplaced
        · rw [Option.map_eq_some_iff] at ho
          obtain ⟨o, ho, rfl⟩ := ho
          refine .inl ⟨o, ho, hstart, p :: ys, ?_, ?_⟩
          · rw [hcode]
            simp [Open.push]
          · exact .pass hp hplain (Bool.not_eq_true _ ▸ htrans) hcovers
        · exact .inr hplaced

/-! ## The names of the drafts -/

/-- The names of the drafts that begin in a list, when it begins at index `i`. -/
def startsFrom (i : Nat) : List Instr → List Start
  | [] => []
  | p :: rest =>
    (if p.op = .target then [.label p.label] else if p.op = .branch then [.after i] else [])
      ++ startsFrom (i + 1) rest

private theorem starts_close (cur : Option Open) {f : Open → Draft}
    (hf : ∀ o, (f o).start = o.start) :
    (cur.map f).toList.map (·.start) = (cur.map (·.start)).toList := by
  cases cur <;> simp [hf]

/-- Every place where a draft begins gets one, dead code included. -/
theorem starts_split (code : List Instr) : (split i l cur code).map (·.start) =
    (cur.map (·.start)).toList ++ startsFrom i code := by
  induction code generalizing i l cur with
  | nil =>
    rw [split, startsFrom, List.append_nil]
    exact starts_close cur fun _ => rfl
  | cons p rest ih =>
    rcases plain_cases p with hop | hop | hop | hplain
    · rw [split_target hop, List.map_append, starts_close cur fun _ => rfl, ih]
      simp [startsFrom, hop]
    · rw [split_branch hop, List.map_append, starts_close cur fun _ => rfl, ih]
      simp [startsFrom, hop]
    · rw [split_hop hop, List.map_append, starts_close cur fun _ => rfl, ih]
      simp [startsFrom, hop]
    · have hstarts : startsFrom i (p :: rest) = startsFrom (i + 1) rest := by
        simp [startsFrom, hplain.1, hplain.2.1]
      rw [split_plain hplain, hstarts]
      split
      · rw [List.map_append, Option.map_map, starts_close cur fun _ => rfl, ih]
        simp
      · rw [ih]
        cases cur <;> rfl

theorem mem_startsFrom {σ : Start} {code : List Instr} : σ ∈ startsFrom i code ↔
    (∃ (k : Nat) (p : Instr), code[k]? = some p ∧ p.op = .target ∧ σ = .label p.label) ∨
      ∃ (k : Nat) (p : Instr), code[k]? = some p ∧ p.op = .branch ∧ σ = .after (i + k) := by
  induction code generalizing i with
  | nil => simp [startsFrom]
  | cons q rest ih =>
    rw [startsFrom, List.mem_append, ih]
    constructor
    · rintro (h | ⟨k, p, hp, hop, rfl⟩ | ⟨k, p, hp, hop, rfl⟩)
      · split at h
        · exact .inl ⟨0, q, rfl, ‹_›, List.mem_singleton.1 h⟩
        · split at h
          · exact .inr ⟨0, q, rfl, ‹_›, List.mem_singleton.1 h⟩
          · cases h
      · exact .inl ⟨k + 1, p, hp, hop, rfl⟩
      · exact .inr ⟨k + 1, p, hp, hop, by rw [Nat.add_assoc, Nat.add_comm 1]⟩
    · rintro (⟨k, p, hp, hop, rfl⟩ | ⟨k, p, hp, hop, rfl⟩)
      · cases k with
        | zero =>
          cases hp
          exact .inl (by simp [hop])
        | succ k => exact .inr (.inl ⟨k, p, hp, hop, rfl⟩)
      · cases k with
        | zero =>
          cases hp
          exact .inl (by simp [hop])
        | succ k => exact .inr (.inr ⟨k, p, hp, hop, by rw [Nat.add_assoc, Nat.add_comm 1]⟩)

theorem nodup_startsFrom {code : List Instr}
    (hunique : ∀ {j k l}, TargetAt code j l → TargetAt code k l → j = k) :
    (startsFrom i code).Nodup := by
  induction code generalizing i with
  | nil => exact .nil
  | cons q rest ih =>
    have hrest : (startsFrom (i + 1) rest).Nodup :=
      ih fun {j k l} hj hk => Nat.succ.inj (hunique (j := j + 1) (k := k + 1) hj hk)
    rw [startsFrom]
    split
    · rename_i hop
      refine List.nodup_cons.2 ⟨fun hmem => ?_, hrest⟩
      rcases mem_startsFrom.1 hmem with ⟨k, p, hp, hop', hl⟩ | ⟨_, _, _, _, hσ⟩
      · have h0 : TargetAt (q :: rest) 0 q.label := ⟨q, rfl, hop, rfl⟩
        have hk : TargetAt (q :: rest) (k + 1) q.label :=
          ⟨p, hp, hop', (Start.label.inj hl).symm⟩
        exact absurd (hunique h0 hk) (by simp)
      · cases hσ
    · split
      · refine List.nodup_cons.2 ⟨fun hmem => ?_, hrest⟩
        rcases mem_startsFrom.1 hmem with ⟨_, _, _, _, hσ⟩ | ⟨k, p, _, _, hσ⟩
        · cases hσ
        · have := Start.after.inj hσ
          omega
      · exact hrest

end Split

/-! ## The drafts of a whole list -/

/-- The drafts of a list, before any of them is dropped or merged. -/
def cut (code : List Instr) : List Draft := split 0 {} (some { start := .entry }) code

theorem starts_cut (code : List Instr) :
    (cut code).map (·.start) = .entry :: startsFrom 0 code := by
  rw [cut, starts_split]
  rfl

theorem placed_of_mem_cut {d : Draft} (hd : d ∈ cut code) : Placed code d := by
  rcases continues_of_mem_split (Nat.zero_le _) List.drop_zero hd with
    ⟨o, ho, hstart, ys, hcode, hcovers⟩ | hplaced
  · cases ho
    rw [Placed, hstart]
    have hys : d.code = ys := by simpa using hcode
    exact hys ▸ hcovers
  · exact hplaced

theorem coherent_cut (h : Labelled code) : Coherent (cut code) where
  nodup := by
    rw [starts_cut]
    refine List.nodup_cons.2 ⟨fun hmem => ?_, nodup_startsFrom h.unique⟩
    rcases mem_startsFrom.1 hmem with ⟨_, _, _, _, hσ⟩ | ⟨_, _, _, _, hσ⟩ <;> cases hσ
  entry := by
    rw [← List.head?_map, starts_cut, List.head?_cons]
  exit d hd hexit := (placed_of_mem_cut hd).succ_of_exit hexit

/-- There is a draft for the target of a label, and it covers the list from there. -/
theorem exists_label (h : Labelled code) {j : Nat} {p : Instr} (hp : code[j]? = some p)
    (hop : p.op = .target) : ∃ d ∈ cut code, d.start = .label p.label ∧ ∃ ys,
      d.code = p :: ys ∧ Covers code (j + 1) ys d.succ d.exit := by
  have hmem : Start.label p.label ∈ (cut code).map (·.start) := by
    rw [starts_cut]
    exact List.mem_cons_of_mem _ (mem_startsFrom.2 (.inl ⟨j, p, hp, hop, rfl⟩))
  obtain ⟨d, hd, hstart⟩ := List.mem_map.1 hmem
  have hplaced := placed_of_mem_cut hd
  rw [Placed, hstart] at hplaced
  obtain ⟨k, q, ys, hq, hopq, hl, hcode, hcovers⟩ := hplaced
  obtain rfl := h.unique ⟨q, hq, hopq, hl⟩ ⟨p, hp, hop, rfl⟩
  cases hp.symm.trans hq
  exact ⟨d, hd, hstart, ys, hcode, hcovers⟩

/-- There is a draft for what follows a branch. -/
theorem exists_after {j : Nat} {p : Instr} (hp : code[j]? = some p) (hop : p.op = .branch) :
    ∃ d ∈ cut code, d.start = .after j ∧ Covers code (j + 1) d.code d.succ d.exit := by
  have hmem : Start.after j ∈ (cut code).map (·.start) := by
    rw [starts_cut]
    refine List.mem_cons_of_mem _ (mem_startsFrom.2 (.inr ⟨j, p, hp, hop, ?_⟩))
    rw [Nat.zero_add]
  obtain ⟨d, hd, hstart⟩ := List.mem_map.1 hmem
  have hplaced := placed_of_mem_cut hd
  rw [Placed, hstart] at hplaced
  exact ⟨d, hd, hstart, hplaced.2⟩

/-! ## The traces -/

/-- A run that has `ys` left in draft `d` is before index `i` of the list: `d` covers
the list from there, or is about to read the target that it begins with. -/
def Before (code : List Instr) (i : Nat) (d : Draft) (ys : List Instr) : Prop :=
  Covers code i ys d.succ d.exit ∨ ∃ (p : Instr) (zs : List Instr), code[i]? = some p ∧
    p.op = .target ∧ ys = p :: zs ∧ Covers code (i + 1) zs d.succ d.exit

/-- The instruction at index `i` has ended draft `d`. -/
def EndedBy (code : List Instr) (i : Nat) (d : Draft) : Prop :=
  d.exit = false ∧ ∃ p : Instr, code[i]? = some p ∧
    (p.op = .branch ∧ d.succ = [.label p.label, .after i] ∨
      p.op = .hop ∧ d.succ = [.label p.label] ∨
      IsPlain p ∧ p.transfers = true ∧ d.succ = [])

/-- A run that has `ys` left in draft `d` is after index `i` of the list. -/
def After (code : List Instr) (i : Nat) (d : Draft) (ys : List Instr) : Prop :=
  (∃ p : Instr, code[i]? = some p ∧ p.transfers = false ∧ p.op.jumps = false ∧
    Covers code (i + 1) ys d.succ d.exit) ∨ ys = [] ∧ EndedBy code i d

theorem jumps_of_plain {p : Instr} (h : IsPlain p) : p.op.jumps = false := by
  cases hj : p.op.jumps with
  | false => rfl
  | true =>
    rcases jumps_iff.1 hj with hop | hop
    · exact absurd hop h.2.1
    · exact absurd hop h.2.2

theorem jumps_of_target {p : Instr} (h : p.op = .target) : p.op.jumps = false := by
  rw [h]; rfl

/-- Before an instruction a run either has to enter the draft of a target first, or it
executes that instruction next. -/
theorem Before.cases {i : Nat} {d : Draft} {ys : List Instr} {p : Instr}
    (h : Before code i d ys) (hp : code[i]? = some p) :
    (ys = [] ∧ p.op = .target ∧ d.succ = [.label p.label] ∧ d.exit = false) ∨
      ∃ zs, ys = p :: zs ∧ After code i d zs := by
  rcases h with h | ⟨q, zs, hq, hop, rfl, hcovers⟩
  · generalize hsucc : d.succ = succ at h
    generalize hexit : d.exit = exit at h
    cases h with
    | finish => simp at hp
    | target at_ op =>
      cases hp.symm.trans at_
      exact .inl ⟨rfl, op, rfl, rfl⟩
    | branch at_ op =>
      cases hp.symm.trans at_
      exact .inr ⟨[], rfl, .inr ⟨rfl, hexit, p, hp, .inl ⟨op, hsucc⟩⟩⟩
    | hop at_ op =>
      cases hp.symm.trans at_
      exact .inr ⟨[], rfl, .inr ⟨rfl, hexit, p, hp, .inr (.inl ⟨op, hsucc⟩)⟩⟩
    | leave at_ plain transfers =>
      cases hp.symm.trans at_
      exact .inr ⟨[], rfl, .inr ⟨rfl, hexit, p, hp, .inr (.inr ⟨plain, transfers, hsucc⟩)⟩⟩
    | pass at_ plain transfers rest =>
      cases hp.symm.trans at_
      refine .inr ⟨_, rfl, .inl ⟨p, hp, transfers, jumps_of_plain plain, ?_⟩⟩
      rw [hsucc, hexit]
      exact rest
  · cases hp.symm.trans hq
    exact .inr ⟨zs, rfl, .inl ⟨p, hp, transfers_of_target hop, jumps_of_target hop, hcovers⟩⟩

/-- At the end of the list a draft has nothing left and falls off the end. -/
theorem Before.finish {i : Nat} {d : Draft} {ys : List Instr} (h : Before code i d ys)
    (hp : code[i]? = none) : i = code.length ∧ ys = [] ∧ d.exit = true := by
  rcases h with h | ⟨q, _, hq, _⟩
  · generalize d.succ = succ at h
    generalize hexit : d.exit = exit at h
    cases h with
    | finish => exact ⟨rfl, rfl, rfl⟩
    | target at_ => simp [hp] at at_
    | branch at_ => simp [hp] at at_
    | hop at_ => simp [hp] at at_
    | leave at_ => simp [hp] at at_
    | pass at_ => simp [hp] at at_
  · simp [hp] at hq

section Traces

open Flowchart

variable {t : List Instr} {s : Status}

/-- The draft of a target, as the chart of the drafts enters it. -/
theorem enter_label (h : Labelled code) {j : Nat} {l : Int64} (hj : TargetAt code j l) :
    ∃ d ∈ cut code, d.start = .label l ∧ Before code j d ((ofDrafts (cut code)).code d.start) := by
  obtain ⟨p, hp, hop, rfl⟩ := hj
  obtain ⟨d, hd, hstart, ys, hcode, hcovers⟩ := exists_label h hp hop
  refine ⟨d, hd, hstart, .inr ⟨p, ys, hp, hop, ?_, hcovers⟩⟩
  rw [(coherent_cut h).code_eq hd, hcode]

/-- The draft after a branch, as the chart of the drafts enters it. -/
theorem enter_after (h : Labelled code) {j : Nat} {p : Instr} (hp : code[j]? = some p)
    (hop : p.op = .branch) : ∃ d ∈ cut code, d.start = .after j ∧
      Before code (j + 1) d ((ofDrafts (cut code)).code d.start) := by
  obtain ⟨d, hd, hstart, hcovers⟩ := exists_after hp hop
  exact ⟨d, hd, hstart, .inl (by rw [(coherent_cut h).code_eq hd]; exact hcovers)⟩

/-- A way of the drafts from one that an instruction has ended is a way of the list. -/
theorem EndedBy.next_of_draft (h : Labelled code) {i : Nat} {d : Draft} (hd : d ∈ cut code)
    (hended : EndedBy code i d) {τ : Start} (hway : (ofDrafts (cut code)).next d.start τ) :
    ∃ j, (Flowchart.ofCode code).next i j ∧ ∃ e ∈ cut code, e.start = τ ∧
      Before code j e ((ofDrafts (cut code)).code e.start) := by
  obtain ⟨_, p, hp, hcase⟩ := hended
  have hτ := (((coherent_cut h).next_iff hd).1 hway).1
  rcases hcase with ⟨hop, hsucc⟩ | ⟨hop, hsucc⟩ | ⟨_, _, hsucc⟩
  · rw [hsucc, List.mem_cons, List.mem_singleton] at hτ
    rcases hτ with rfl | rfl
    · obtain ⟨j, hj⟩ := h.defined hp (by rw [hop]; rfl)
      exact ⟨j, ⟨p, hp, .inr ⟨by rw [hop]; rfl, hj⟩⟩, enter_label h hj⟩
    · exact ⟨i + 1, ⟨p, hp, .inl ⟨transfers_of_branch hop, rfl⟩⟩, enter_after h hp hop⟩
  · rw [hsucc, List.mem_singleton] at hτ
    obtain ⟨j, hj⟩ := h.defined hp (by rw [hop]; rfl)
    exact ⟨j, ⟨p, hp, .inr ⟨by rw [hop]; rfl, hj⟩⟩, hτ ▸ enter_label h hj⟩
  · rw [hsucc] at hτ
    cases hτ

/-- A way of the list from an instruction that has ended a draft is a way of the
drafts. -/
theorem EndedBy.next_of_code (h : Labelled code) {i j : Nat} {d : Draft} (hd : d ∈ cut code)
    (hended : EndedBy code i d) (hway : (Flowchart.ofCode code).next i j) :
    ∃ e ∈ cut code, (ofDrafts (cut code)).next d.start e.start ∧
      Before code j e ((ofDrafts (cut code)).code e.start) := by
  obtain ⟨_, p, hp, hcase⟩ := hended
  obtain ⟨q, hq, hway⟩ := hway
  cases hp.symm.trans hq
  rcases hway with ⟨hfalse, rfl⟩ | ⟨hjumps, hj⟩
  · rcases hcase with ⟨hop, hsucc⟩ | ⟨hop, _⟩ | ⟨_, htrue, _⟩
    · obtain ⟨e, he, hstart, hbefore⟩ := enter_after h hp hop
      refine ⟨e, he, ((coherent_cut h).next_iff hd).2 ⟨?_, e, he, rfl⟩, hbefore⟩
      rw [hsucc, hstart]
      simp
    · rw [transfers_of_hop hop] at hfalse
      cases hfalse
    · rw [htrue] at hfalse
      cases hfalse
  · obtain ⟨e, he, hstart, hbefore⟩ := enter_label h hj
    refine ⟨e, he, ((coherent_cut h).next_iff hd).2 ⟨?_, e, he, rfl⟩, hbefore⟩
    rcases hcase with ⟨_, hsucc⟩ | ⟨_, hsucc⟩ | ⟨hplain, _⟩
    · rw [hsucc, hstart]
      simp
    · rw [hsucc, hstart]
      simp
    · rw [jumps_of_plain hplain] at hjumps
      cases hjumps

/-- The drafts follow the list. -/
theorem shows_cut (h : Labelled code) {i : Nat} {xs : List Instr}
    (hshows : (Flowchart.ofCode code).Shows i xs t s) {d : Draft} (hd : d ∈ cut code)
    {ys : List Instr} :
    (xs = code[i]?.toList → Before code i d ys → (ofDrafts (cut code)).Shows d.start ys t s) ∧
      (xs = [] → After code i d ys → (ofDrafts (cut code)).Shows d.start ys t s) := by
  induction hshows generalizing d ys with
  | pause => exact ⟨fun _ _ => .pause _ _, fun _ _ => .pause _ _⟩
  | execute rest ih =>
    rename_i i p xs t s
    refine ⟨fun hxs hbefore => ?_, fun hxs => by cases hxs⟩
    obtain ⟨hp, hnil⟩ : code[i]? = some p ∧ xs = [] := by
      cases hq : code[i]? with
      | none => simp [hq] at hxs
      | some q =>
        rw [hq, Option.toList_some] at hxs
        cases hxs
        exact ⟨rfl, rfl⟩
    -- a target may have to be entered before it is executed
    have hexec : ∀ {d : Draft}, d ∈ cut code → ∀ {zs}, After code i d zs →
        (ofDrafts (cut code)).Shows d.start (p :: zs) (p.shown ++ t) s :=
      fun hd _ hafter => .execute ((ih hd).2 hnil hafter)
    rcases hbefore.cases hp with ⟨rfl, hop, hsucc, _⟩ | ⟨zs, rfl, hafter⟩
    · obtain ⟨e, he, hstart, ys, hcode, hcovers⟩ := exists_label h hp hop
      have hway : (ofDrafts (cut code)).next d.start e.start :=
        ((coherent_cut h).next_iff hd).2 ⟨by rw [hsucc, hstart]; simp, e, he, rfl⟩
      refine .follow hway ?_
      rw [(coherent_cut h).code_eq he, hcode]
      exact hexec he
        (.inl ⟨p, hp, transfers_of_target hop, jumps_of_target hop, hcovers⟩)
    · exact hexec hd hafter
  | follow way rest ih =>
    rename_i i j t s
    obtain ⟨p, hp, hcase⟩ := id way
    refine ⟨fun hxs => by simp [hp] at hxs, fun _ hafter => ?_⟩
    rcases hafter with ⟨q, hq, hfalse, hjumps, hcovers⟩ | ⟨rfl, hended⟩
    · cases hp.symm.trans hq
      rcases hcase with ⟨_, rfl⟩ | ⟨htrue, _⟩
      · exact (ih hd).1 rfl (.inl hcovers)
      · rw [hjumps] at htrue
        cases htrue
    · obtain ⟨e, he, hway, hbefore⟩ := hended.next_of_code h hd way
      exact .follow hway ((ih he).1 rfl hbefore)
  | fall exit =>
    have hnone : code[code.length]? = none := List.getElem?_eq_none (Nat.le_refl _)
    cases exit
    refine ⟨fun _ hbefore => ?_, fun _ hafter => ?_⟩
    · obtain ⟨_, rfl, hexit⟩ := hbefore.finish hnone
      exact .fall (((coherent_cut h).exit_iff hd).2 hexit)
    · rcases hafter with ⟨q, hq, _⟩ | ⟨_, _, q, hq, _⟩ <;> simp at hq
  | stop noWay noExit =>
    rename_i i
    refine ⟨fun hxs hbefore => ?_, fun _ hafter => ?_⟩
    · have hnone : code[i]? = none := by
        cases hq : code[i]? with
        | none => rfl
        | some q => simp [hq] at hxs
      exact absurd (hbefore.finish hnone).1 noExit
    · rcases hafter with ⟨q, hq, hfalse, _⟩ | ⟨rfl, hended⟩
      · exact absurd ⟨q, hq, .inl ⟨hfalse, rfl⟩⟩ (noWay (i + 1))
      · refine .stop (fun τ hτ => ?_) fun hexit => ?_
        · obtain ⟨j, hj, _⟩ := hended.next_of_draft h hd hτ
          exact noWay j hj
        · rw [(coherent_cut h).exit_iff hd, hended.1] at hexit
          cases hexit

/-- After an instruction that ends no draft, a run is before the next one. -/
theorem shows_of_after {i : Nat} {d : Draft} {ys : List Instr} (hafter : After code i d ys)
    (hbefore : ∀ j, Before code j d ys → (Flowchart.ofCode code).Shows j code[j]?.toList t s)
    (hended : ys = [] → EndedBy code i d → (Flowchart.ofCode code).Shows i [] t s) :
    (Flowchart.ofCode code).Shows i [] t s := by
  rcases hafter with ⟨p, hp, hfalse, _, hcovers⟩ | ⟨hnil, h⟩
  · exact .follow ⟨p, hp, .inl ⟨hfalse, rfl⟩⟩ (hbefore (i + 1) (.inl hcovers))
  · exact hended hnil h

/-- The list follows the drafts. -/
theorem shows_of_cut (h : Labelled code) {σ : Start} {ys : List Instr}
    (hshows : (ofDrafts (cut code)).Shows σ ys t s) {d : Draft} (hd : d ∈ cut code)
    (hσ : d.start = σ) :
    (∀ i, Before code i d ys → (Flowchart.ofCode code).Shows i code[i]?.toList t s) ∧
      ∀ i, After code i d ys → (Flowchart.ofCode code).Shows i [] t s := by
  induction hshows generalizing d with
  | pause => exact ⟨fun _ _ => .pause _ _, fun _ _ => .pause _ _⟩
  | execute rest ih =>
    rename_i p ys t s
    have hbefore : ∀ i, Before code i d (p :: ys) →
        (Flowchart.ofCode code).Shows i code[i]?.toList (p.shown ++ t) s := by
      intro i hi
      cases hq : code[i]? with
      | none => exact absurd (hi.finish hq).2.1 (by simp)
      | some q =>
        rcases hi.cases hq with ⟨hnil, _⟩ | ⟨zs, hzs, hafter⟩
        · cases hnil
        · cases hzs
          exact .execute ((ih hd hσ).2 i hafter)
    exact ⟨hbefore, fun i hafter => shows_of_after hafter hbefore fun hnil => by cases hnil⟩
  | follow way rest ih =>
    rename_i τ t s
    subst hσ
    have hbefore : ∀ i, Before code i d [] →
        (Flowchart.ofCode code).Shows i code[i]?.toList t s := by
      intro i hi
      have hτ := ((coherent_cut h).next_iff hd).1 way
      cases hq : code[i]? with
      | none =>
        rw [(coherent_cut h).exit d hd (hi.finish hq).2.2] at hτ
        cases hτ.1
      | some q =>
        rcases hi.cases hq with ⟨_, hop, hsucc, _⟩ | ⟨zs, hzs, _⟩
        · rw [hsucc, List.mem_singleton] at hτ
          obtain ⟨e, he, hstart, hentered⟩ := enter_label h ⟨q, hq, hop, rfl⟩
          rw [← hτ.1] at hstart
          have hrest := (ih he hstart).1 i (hstart ▸ hentered)
          rwa [hq] at hrest
        · cases hzs
    refine ⟨hbefore, fun i hafter => shows_of_after hafter hbefore fun _ hended => ?_⟩
    obtain ⟨j, hj, e, he, hstart, hentered⟩ := hended.next_of_draft h hd way
    exact .follow hj ((ih he hstart).1 j (hstart ▸ hentered))
  | fall exit =>
    subst hσ
    rw [(coherent_cut h).exit_iff hd] at exit
    have hbefore : ∀ i, Before code i d [] →
        (Flowchart.ofCode code).Shows i code[i]?.toList [] .fellOff := by
      intro i hi
      cases hq : code[i]? with
      | none => exact .fall (hi.finish hq).1
      | some q =>
        rcases hi.cases hq with ⟨_, _, _, hexit⟩ | ⟨zs, hzs, _⟩
        · rw [exit] at hexit
          cases hexit
        · cases hzs
    refine ⟨hbefore, fun i hafter => shows_of_after hafter hbefore fun _ hended => ?_⟩
    rw [hended.1] at exit
    cases exit
  | stop noWay noExit =>
    subst hσ
    rw [(coherent_cut h).exit_iff hd] at noExit
    have hbefore : ∀ i, Before code i d [] →
        (Flowchart.ofCode code).Shows i code[i]?.toList [] .stopped := by
      intro i hi
      cases hq : code[i]? with
      | none => exact absurd (hi.finish hq).2.2 noExit
      | some q =>
        rcases hi.cases hq with ⟨_, hop, hsucc, _⟩ | ⟨zs, hzs, _⟩
        · obtain ⟨e, he, hstart, _⟩ := exists_label h hq hop
          refine absurd (((coherent_cut h).next_iff hd).2 ⟨?_, e, he, rfl⟩) (noWay e.start)
          rw [hsucc, hstart]
          simp
        · cases hzs
    refine ⟨hbefore, fun i hafter => shows_of_after hafter hbefore fun _ hended => ?_⟩
    refine .stop (fun j hj => ?_) ?_
    · obtain ⟨e, _, hway, _⟩ := hended.next_of_code h hd hj
      exact noWay e.start hway
    · obtain ⟨_, p, hp, _⟩ := hended
      exact Threading.not_exit_of_getElem? hp

/-- Cutting a list into drafts keeps its traces. -/
theorem hasTrace_cut (h : Labelled code) :
    (ofDrafts (cut code)).HasTrace t s ↔ (Flowchart.ofCode code).HasTrace t s := by
  obtain ⟨d, hd, hstart⟩ : ∃ d ∈ cut code, d.start = .entry :=
    List.mem_map.1 (by rw [starts_cut]; exact List.mem_cons_self)
  have hentry : Before code 0 d ((ofDrafts (cut code)).code .entry) := by
    have hplaced := placed_of_mem_cut hd
    rw [Placed, hstart] at hplaced
    rw [← hstart, (coherent_cut h).code_eq hd]
    exact .inl hplaced
  constructor
  · exact fun htrace => (shows_of_cut h htrace hd hstart).1 0 hentry
  · intro htrace
    have hshows := (shows_cut h htrace hd).1 rfl hentry
    rwa [hstart] at hshows

end Traces

end Draft

end StackFlow
