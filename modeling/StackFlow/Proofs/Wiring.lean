import StackFlow.Proofs.Build

/-!
# How blocks are wired

What the blocks of a routine rely on of each other, whatever was dropped or merged on the
way.

* `Draft.Ends code succ`: control leaves the code only at its end, and the last
  instruction fits the ways from there.
* `Draft.Wired` is what every step from the list to the finished drafts keeps: ways lead
  to drafts and never back to the entry, a draft that is named by a label begins with its
  target, and only the last draft falls off the end of the routine.  Eliding a hop and
  merging a chain both replace two drafts in a row by one, so what they have in common is
  said of one replacement (`Wired.contract`).
* `Layout.WellFormed` is the same of the blocks, and `Layout.wellFormed_ofCode` and
  `Graph.wellFormed_of_build` say that the blocks of a routine have it.  That the two lists of
  a block fit and are in order is no matter of drafts, which have one list only: it comes from
  the nodes, by `Layout.twoSided_ofCode`.
-/

namespace StackFlow

open Relation

namespace Draft

/-! ## Where the code of a draft ends -/

/-- Whether control goes on with the next instruction and nowhere else. -/
def Inner (p : Instr) : Prop := p.op ≠ .branch ∧ p.transfers = false

theorem Inner.op_ne_hop {p : Instr} (h : Inner p) : p.op ≠ .hop := by
  intro hop
  have htransfers := h.2
  rw [transfers_of_hop hop] at htransfers
  cases htransfers

theorem inner_of_target {p : Instr} (h : p.op = .target) : Inner p := by
  refine ⟨?_, transfers_of_target h⟩
  rw [h]
  simp

/-- Control leaves the code only at its end, and then goes one of the ways `succ` as the
last instruction says. -/
structure Ends (code : List Instr) (succ : List Start) : Prop where
  nodup : succ.Nodup
  inner : ∀ p ∈ code.dropLast, Inner p
  branch : ∀ {p : Instr}, code.getLast? = some p → p.op = .branch → .label p.label ∈ succ
  hop : ∀ {p : Instr}, code.getLast? = some p → p.op = .hop → succ = [.label p.label]
  leave : ∀ {p : Instr}, code.getLast? = some p → p.op ≠ .hop → p.transfers = true → succ = []

namespace Ends

variable {xs ys : List Instr} {succ : List Start}

/-- Code that goes on with the next instruction may come before. -/
theorem append (h : Ends ys succ) (hxs : ∀ p ∈ xs, Inner p) : Ends (xs ++ ys) succ := by
  by_cases hys : ys = []
  · subst hys
    rw [List.append_nil]
    have hlast : ∀ {p : Instr}, xs.getLast? = some p → Inner p :=
      fun hp => hxs _ (List.mem_of_getLast? hp)
    refine ⟨h.nodup, fun p hp => hxs p (List.dropLast_subset _ hp), ?_, ?_, ?_⟩
    · exact fun hp hop => absurd hop (hlast hp).1
    · exact fun hp hop => absurd hop (hlast hp).op_ne_hop
    · intro p hp _ htrue
      rw [(hlast hp).2] at htrue
      cases htrue
  · have hlast : (xs ++ ys).getLast? = ys.getLast? := by
      rw [List.getLast?_append_of_ne_nil _ hys]
    refine ⟨h.nodup, fun p hp => ?_, ?_, ?_, ?_⟩
    · rw [List.dropLast_append_of_ne_nil hys] at hp
      exact (List.mem_append.1 hp).elim (hxs p) (h.inner p)
    · rw [hlast]
      exact h.branch
    · rw [hlast]
      exact h.hop
    · rw [hlast]
      exact h.leave

theorem tail {q : Instr} (h : Ends (q :: ys) succ) : Ends ys succ := by
  by_cases hys : ys = []
  · subst hys
    exact ⟨h.nodup, by simp, by simp, by simp, by simp⟩
  · have hlast : (q :: ys).getLast? = ys.getLast? := by
      rw [← List.singleton_append, List.getLast?_append_of_ne_nil _ hys]
    refine ⟨h.nodup, fun p hp => h.inner p ?_, ?_, ?_, ?_⟩
    · rw [List.dropLast_cons_of_ne_nil hys]
      exact List.mem_cons_of_mem _ hp
    · rw [← hlast]
      exact h.branch
    · rw [← hlast]
      exact h.hop
    · rw [← hlast]
      exact h.leave

/-- The label of a jump is one of the ways. -/
theorem label_mem (h : Ends xs succ) {p : Instr} (hp : p ∈ xs) (hjumps : p.op.jumps = true) :
    .label p.label ∈ succ := by
  rcases List.eq_nil_or_concat xs with rfl | ⟨init, q, rfl⟩
  · cases hp
  · rw [List.concat_eq_append] at h hp
    rcases List.mem_append.1 hp with hp | hp
    · have hinner := h.inner p (by rwa [List.dropLast_concat])
      exact (jumps_iff.1 hjumps).elim (absurd · hinner.1) (absurd · hinner.op_ne_hop)
    · obtain rfl := List.mem_singleton.1 hp
      have hlast : (init ++ [p]).getLast? = some p := List.getLast?_concat
      rcases jumps_iff.1 hjumps with hop | hop
      · exact h.branch hlast hop
      · rw [h.hop hlast hop]
        exact List.mem_singleton_self _

end Ends

/-- The last instruction of a draft, which fits the ways from there. -/
theorem ends_singleton {p : Instr} {succ : List Start} (hnodup : succ.Nodup)
    (hbranch : p.op = .branch → .label p.label ∈ succ)
    (hhop : p.op = .hop → succ = [.label p.label])
    (hleave : p.op ≠ .hop → p.transfers = true → succ = []) : Ends [p] succ := by
  refine ⟨hnodup, by simp, ?_, ?_, ?_⟩
  · intro q hq
    rw [List.getLast?_singleton, Option.some_inj] at hq
    exact hq ▸ hbranch
  · intro q hq
    rw [List.getLast?_singleton, Option.some_inj] at hq
    exact hq ▸ hhop
  · intro q hq
    rw [List.getLast?_singleton, Option.some_inj] at hq
    exact hq ▸ hleave

theorem Covers.ends {code ys : List Instr} {i : Nat} {succ : List Start} {exit : Bool}
    (h : Covers code i ys succ exit) : Ends ys succ := by
  induction h with
  | finish => exact ⟨.nil, by simp, by simp, by simp, by simp⟩
  | target => exact ⟨by simp, by simp, by simp, by simp, by simp⟩
  | branch at_ op =>
    refine ends_singleton (by simp) (fun _ => List.mem_cons_self) (fun hop => ?_) fun _ htrue => ?_
    · rw [op] at hop
      cases hop
    · rw [transfers_of_branch op] at htrue
      cases htrue
  | hop at_ op =>
    refine ends_singleton (by simp) (fun hop => ?_) (fun _ => rfl) fun hne => absurd op hne
    rw [op] at hop
    cases hop
  | leave at_ plain =>
    exact ends_singleton .nil (fun hop => absurd hop plain.2.1) (fun hop => absurd hop plain.2.2)
      fun _ _ => rfl
  | pass at_ plain transfers rest ih =>
    rename_i p ys succ exit
    have hinner : ∀ q ∈ [p], Inner q := by
      intro q hq
      rw [List.mem_singleton.1 hq]
      exact ⟨plain.2.1, transfers⟩
    exact ih.append hinner

/-! ## Drafts that fit together -/

/-- Whether the code begins with the target of the label `l`. -/
def Begins (code : List Instr) (l : Int64) : Prop :=
  ∃ p : Instr, code.head? = some p ∧ p.op = .target ∧ p.label = l

/-- What the drafts of a routine rely on of each other. -/
structure Wired (ds : List Draft) : Prop where
  ends : ∀ d ∈ ds, Ends d.code d.succ
  named : ∀ d ∈ ds, ∀ l, d.start = .label l → Begins d.code l
  /-- No way leads back to the entry. -/
  entry : ∀ d ∈ ds, Start.entry ∉ d.succ
  /-- Every way leads to a draft. -/
  there : ∀ d ∈ ds, ∀ τ ∈ d.succ, ∃ e ∈ ds, e.start = τ
  /-- A draft that another one follows does not fall off the end. -/
  exit : ds.Pairwise fun d _ => d.exit = false

section Cut

variable {code : List Instr}

/-- A draft covers the list after the target it begins with, if any. -/
theorem Placed.covers {d : Draft} (h : Placed code d) : ∃ i xs ys, d.code = xs ++ ys ∧
    (∀ p ∈ xs, p.op = .target) ∧ Covers code i ys d.succ d.exit := by
  unfold Placed at h
  split at h
  · exact ⟨0, [], d.code, rfl, by simp, h⟩
  · exact ⟨_, [], d.code, rfl, by simp, h.2⟩
  · obtain ⟨j, p, ys, _, hop, _, hcode, hcovers⟩ := h
    exact ⟨j + 1, [p], ys, hcode, by simpa using hop, hcovers⟩

/-- A draft leads only to places where a draft begins. -/
theorem Covers.succ_mem (h : Labelled code) {i : Nat} {ys : List Instr} {succ : List Start}
    {exit : Bool} (hcovers : Covers code i ys succ exit) :
    ∀ τ ∈ succ, τ ∈ startsFrom 0 code := by
  have hlabel : ∀ {j : Nat} {l : Int64}, TargetAt code j l → Start.label l ∈ startsFrom 0 code := by
    rintro j _ ⟨p, hp, hop, rfl⟩
    exact mem_startsFrom.2 (.inl ⟨j, p, hp, hop, rfl⟩)
  have hjump : ∀ {j : Nat} {p : Instr}, code[j]? = some p → p.op.jumps = true →
      Start.label p.label ∈ startsFrom 0 code := by
    intro j p hp hjumps
    obtain ⟨k, hk⟩ := h.defined hp hjumps
    exact hlabel hk
  induction hcovers with
  | finish => simp
  | target at_ op => simpa using hlabel ⟨_, at_, op, rfl⟩
  | branch at_ op =>
    rename_i j p
    intro τ hτ
    rw [List.mem_cons, List.mem_singleton] at hτ
    rcases hτ with rfl | rfl
    · exact hjump at_ (by rw [op]; rfl)
    · exact mem_startsFrom.2 (.inr ⟨j, p, at_, op, by rw [Nat.zero_add]⟩)
  | hop at_ op => simpa using hjump at_ (by rw [op]; rfl)
  | leave => simp
  | pass _ _ _ _ ih => exact ih

/-- Only the draft that is open at the end of the list falls off the end. -/
theorem exit_split {i : Nat} {l : Location} {cur : Option Open} :
    (split i l cur code).Pairwise fun d _ => d.exit = false := by
  -- what is closed before the rest does not fall off the end
  have hclosed : ∀ {cur : Option Open} {f : Open → Draft} {rest : List Draft},
      (∀ o, (f o).exit = false) → rest.Pairwise (fun d _ => d.exit = false) →
      ((cur.map f).toList ++ rest).Pairwise fun d _ => d.exit = false := by
    intro cur f rest hf hrest
    cases cur with
    | none => exact hrest
    | some o => exact List.pairwise_cons.2 ⟨fun _ _ => hf o, hrest⟩
  induction code generalizing i l cur with
  | nil =>
    rw [split]
    cases cur <;> simp
  | cons p rest ih =>
    rcases plain_cases p with hop | hop | hop | hplain
    · rw [split_target hop]
      exact hclosed (fun _ => rfl) ih
    · rw [split_branch hop]
      exact hclosed (fun _ => rfl) ih
    · rw [split_hop hop]
      exact hclosed (fun _ => rfl) ih
    · rw [split_plain hplain]
      split
      · exact hclosed (fun _ => rfl) ih
      · exact ih

theorem wired_cut (h : Labelled code) : Wired (cut code) where
  ends d hd := by
    obtain ⟨_, xs, ys, hcode, hxs, hcovers⟩ := (placed_of_mem_cut hd).covers
    rw [hcode]
    exact hcovers.ends.append fun p hp => inner_of_target (hxs p hp)
  named d hd l hstart := by
    have hplaced := placed_of_mem_cut hd
    rw [Placed, hstart] at hplaced
    obtain ⟨_, p, ys, _, hop, hl, hcode, _⟩ := hplaced
    exact ⟨p, by rw [hcode, List.head?_cons], hop, hl⟩
  entry d hd hmem := by
    obtain ⟨_, _, _, _, _, hcovers⟩ := (placed_of_mem_cut hd).covers
    rcases mem_startsFrom.1 (hcovers.succ_mem h _ hmem) with ⟨_, _, _, _, hσ⟩ | ⟨_, _, _, _, hσ⟩
    · cases hσ
    · cases hσ
  there d hd τ hτ := by
    obtain ⟨_, _, _, _, _, hcovers⟩ := (placed_of_mem_cut hd).covers
    have hmem : τ ∈ (cut code).map (·.start) := by
      rw [starts_cut]
      exact List.mem_cons_of_mem _ (hcovers.succ_mem h τ hτ)
    exact List.mem_map.1 hmem
  exit := exit_split

end Cut

/-! ## What the steps keep -/

theorem Wired.dropUnreached {ds : List Draft} (h : Wired ds) : Wired (dropUnreached ds) where
  ends d hd := h.ends d ((sublist_dropUnreached ds).subset hd)
  named d hd := h.named d ((sublist_dropUnreached ds).subset hd)
  entry d hd := h.entry d ((sublist_dropUnreached ds).subset hd)
  there d hd τ hτ := by
    obtain ⟨e, he, rfl⟩ := h.there d ((sublist_dropUnreached ds).subset hd) τ hτ
    exact ⟨e, mem_dropUnreached_of_succ hd he hτ, rfl⟩
  exit := h.exit.sublist (sublist_dropUnreached ds)

section Contraction

variable {pre post : List Draft} {x y x' : Draft}

/-- No other draft leads to a draft that only `x` leads to. -/
theorem not_mem_succ_of_ways (hways : ways (pre ++ x :: y :: post) y.start = 1)
    (hx : y.start ∈ x.succ) : ∀ d ∈ pre ++ y :: post, y.start ∉ d.succ := by
  have hcount : ways (pre ++ y :: post) y.start = 0 := by
    simp only [ways, List.countP_append, List.countP_cons] at hways ⊢
    rw [if_pos (List.contains_iff_mem.2 hx)] at hways
    omega
  intro d hd hmem
  exact List.countP_eq_zero.1 hcount d hd (List.contains_iff_mem.2 hmem)

/-- Two drafts in a row become one that leads where they led, but not to the second. -/
theorem Wired.contract (h : Coherent (pre ++ x :: y :: post))
    (hw : Wired (pre ++ x :: y :: post)) (hx : x'.start = x.start)
    (hways : ways (pre ++ x :: y :: post) y.start = 1) (hxy : y.start ∈ x.succ)
    (hends : Ends x'.code x'.succ) (hnamed : ∀ l, x.start = .label l → Begins x'.code l)
    (hsucc : ∀ τ ∈ x'.succ, τ ≠ y.start ∧ (τ ∈ x.succ ∨ τ ∈ y.succ))
    (hexit : x'.exit = true → x.exit = true ∨ y.exit = true) :
    Wired (pre ++ x' :: post) := by
  have hothers := not_mem_succ_of_ways hways hxy
  have hold : ∀ d ∈ pre ++ x' :: post, d ≠ x' →
      d ∈ pre ++ x :: y :: post ∧ d ∈ pre ++ y :: post := by
    intro d hd hne
    simp only [List.mem_append, List.mem_cons] at hd ⊢
    tauto
  refine ⟨fun d hd => ?_, fun d hd l hl => ?_, fun d hd => ?_, fun d hd τ hτ => ?_, ?_⟩
  · by_cases hdx : d = x'
    · exact hdx ▸ hends
    · exact hw.ends d (hold d hd hdx).1
  · by_cases hdx : d = x'
    · subst hdx
      exact hnamed l (hx ▸ hl)
    · exact hw.named d (hold d hd hdx).1 l hl
  · by_cases hdx : d = x'
    · subst hdx
      intro hmem
      rcases (hsucc _ hmem).2 with hmem | hmem
      · exact hw.entry x (by simp) hmem
      · exact hw.entry y (by simp) hmem
    · exact hw.entry d (hold d hd hdx).1
  · rw [exists_start_iff h hx]
    by_cases hdx : d = x'
    · subst hdx
      refine ⟨(hsucc τ hτ).1, ?_⟩
      rcases (hsucc τ hτ).2 with hmem | hmem
      · exact hw.there x (by simp) τ hmem
      · exact hw.there y (by simp) τ hmem
    · obtain ⟨hd₁, hd₂⟩ := hold d hd hdx
      refine ⟨?_, hw.there d hd₁ τ hτ⟩
      rintro rfl
      exact hothers d hd₂ hτ
  · have hpairs := hw.exit
    simp only [List.pairwise_append, List.pairwise_cons] at hpairs ⊢
    obtain ⟨hpre, ⟨hxlater, hylater, hpost⟩, hcross⟩ := hpairs
    refine ⟨hpre, ⟨fun d hd => Bool.eq_false_iff.2 fun htrue => ?_, hpost⟩, fun d hd _ _ => ?_⟩
    · rcases hexit htrue with hfalse | hfalse
      · rw [hxlater y List.mem_cons_self] at hfalse
        cases hfalse
      · rw [hylater d hd] at hfalse
        cases hfalse
    · exact hcross d hd x List.mem_cons_self

end Contraction

section Elide

variable {pre post : List Draft} {prev d next : Draft}

/-- A draft that only hops does not begin with a target. -/
theorem not_begins_of_isHopOnly (h : isHopOnly d = true) {l : Int64} : ¬ Begins d.code l := by
  rintro ⟨p, hp, hop, _⟩
  have hmem := List.mem_of_head? hp
  unfold isHopOnly at h
  split at h
  · cases h
  · rename_i q rest hcode
    rw [Bool.and_eq_true, decide_eq_true_eq, List.all_eq_true] at h
    rw [← List.mem_reverse, hcode] at hmem
    rcases List.mem_cons.1 hmem with rfl | hmem
    · rw [hop] at h
      cases h.1
    · have hmeta := h.2 p hmem
      simp [Instr.isMeta, hop, Opcode.row] at hmeta

theorem wired_reroute (h : Coherent (pre ++ prev :: d :: next :: post))
    (hw : Wired (pre ++ prev :: d :: next :: post))
    (hdetour : isDetour (pre ++ prev :: d :: next :: post) prev d next = true) :
    Wired (pre ++ prev.reroute d.start next.start :: next :: post) := by
  obtain ⟨hhop, hways, hprev, -, hsucc⟩ := isDetour_iff.1 hdetour
  have hmemp : prev ∈ pre ++ prev :: d :: next :: post := by simp
  have hmemd : d ∈ pre ++ prev :: d :: next :: post := by simp
  have hends := hw.ends prev hmemp
  have hnext : next.start ≠ d.start := start_ne h (by simp)
  have hnotLabel : ∀ l, d.start ≠ .label l :=
    fun l hl => not_begins_of_isHopOnly hhop (hw.named d hmemd l hl)
  have hnodup : (prev.reroute d.start next.start).succ.Nodup := by
    have herase := hends.nodup.erase d.start
    simp only [reroute]
    split
    · exact herase
    · rename_i hnew
      rw [List.nodup_append]
      refine ⟨herase, List.nodup_singleton _, fun τ hτ σ hσ => ?_⟩
      rw [List.mem_singleton.1 hσ]
      rintro rfl
      exact hnew (List.contains_iff_mem.2 hτ)
  have hold : d.start ∉ (prev.reroute d.start next.start).succ := by
    have herase := hends.nodup.not_mem_erase (a := d.start)
    simp only [reroute]
    split
    · exact herase
    · rw [List.mem_append, List.mem_singleton]
      exact fun hmem => hmem.elim herase hnext.symm
  refine hw.contract h rfl hways hprev ⟨hnodup, hends.inner, ?_, ?_, ?_⟩
    (fun l hl => hw.named prev hmemp l hl) (fun τ hτ => ?_) fun hexit => .inl hexit
  · intro p hp hop
    exact (mem_succ_reroute (hnotLabel _).symm).2 (.inl (hends.branch hp hop))
  · intro p hp hop
    rw [hends.hop hp hop, List.mem_singleton] at hprev
    exact absurd hprev (hnotLabel _)
  · intro p hp hop htransfers
    rw [hends.leave hp hop htransfers] at hprev
    cases hprev
  · have hne : τ ≠ d.start := by
      rintro rfl
      exact hold hτ
    refine ⟨hne, ((mem_succ_reroute hne).1 hτ).imp id ?_⟩
    rintro rfl
    rw [hsucc]
    exact List.mem_singleton_self _

theorem wired_elideAfter {rest : List Draft} (done : List Draft)
    (h : Coherent (done.reverse ++ prev :: rest)) (hw : Wired (done.reverse ++ prev :: rest)) :
    Wired (elideAfter done prev rest) := by
  fun_induction elideAfter done prev rest with
  | case1 done prev d next rest hdetour ih =>
    exact ih (coherent_reroute h hdetour) (wired_reroute h hw hdetour)
  | case2 done prev d next rest hdetour ih =>
    rw [List.reverse_cons, List.append_assoc, List.singleton_append] at ih
    exact ih h hw
  | case3 => exact hw

end Elide

section Merge

variable {pre post : List Draft} {d e : Draft}

/-- The code of a draft that always goes on with the next one goes on with it, or hops to
it. -/
theorem inner_of_chain (hends : Ends d.code d.succ) (hsucc : d.succ = [e.start])
    (hbranch : d.code.getLast?.any (·.op = .branch) = false) {p : Instr} (hp : p ∈ d.code) :
    Inner p ∨ d.code.getLast? = some p ∧ p.op = .hop ∧ e.start = .label p.label := by
  rcases List.eq_nil_or_concat d.code with hnil | ⟨init, q, hcode⟩
  · rw [hnil] at hp
    cases hp
  · rw [List.concat_eq_append] at hcode
    have hlast : d.code.getLast? = some q := by rw [hcode, List.getLast?_concat]
    rw [hcode, List.mem_append, List.mem_singleton] at hp
    rcases hp with hp | rfl
    · refine .inl (hends.inner p ?_)
      rw [hcode, List.dropLast_concat]
      exact hp
    · rw [hlast, Option.any_some, decide_eq_false_iff_not] at hbranch
      by_cases hop : p.op = .hop
      · have hway := hends.hop hlast hop
        rw [hsucc, List.cons.injEq] at hway
        exact .inr ⟨hlast, hop, hway.1⟩
      · refine .inl ⟨hbranch, Bool.eq_false_iff.2 fun htransfers => ?_⟩
        rw [hends.leave hlast hop htransfers] at hsucc
        cases hsucc

theorem ends_joinCode (hd : Ends d.code d.succ) (he : Ends e.code e.succ)
    (hnamed : ∀ l, e.start = .label l → Begins e.code l) (hsucc : d.succ = [e.start])
    (hbranch : d.code.getLast?.any (·.op = .branch) = false) :
    Ends (joinCode d.code e.code) e.succ := by
  unfold joinCode
  split
  · rename_i p q rest hlast hcode
    split
    · rw [hcode] at he
      exact he.tail.append hd.inner
    · rename_i hpair
      refine he.append fun r hr => (inner_of_chain hd hsucc hbranch hr).elim id ?_
      -- a hop to the next draft disappears together with its target
      rintro ⟨hlast', hop, hstart⟩
      obtain ⟨q', hq', htarget, hlabel⟩ := hnamed _ hstart
      rw [hcode, List.head?_cons, Option.some_inj] at hq'
      rw [hlast, Option.some_inj] at hlast'
      subst hq' hlast'
      exact absurd (by simp [hop, htarget, hlabel]) hpair
  · rename_i hnone
    refine he.append fun r hr => (inner_of_chain hd hsucc hbranch hr).elim id ?_
    rintro ⟨hlast, _, hstart⟩
    obtain ⟨q, hq, _⟩ := hnamed _ hstart
    obtain ⟨rest, hcode⟩ := List.head?_eq_some_iff.1 hq
    exact absurd hcode (hnone r q rest hlast)

theorem begins_joinCode {xs ys : List Instr} {l : Int64} (h : Begins xs l) :
    Begins (joinCode xs ys) l := by
  obtain ⟨p, hp, hop, hl⟩ := h
  obtain ⟨rest, rfl⟩ := List.head?_eq_some_iff.1 hp
  unfold joinCode
  split
  · rename_i q r ys' hlast
    split
    · rename_i hpair
      simp only [Bool.and_eq_true, decide_eq_true_eq] at hpair
      have hrest : rest ≠ [] := by
        rintro rfl
        rw [List.getLast?_singleton, Option.some_inj] at hlast
        rw [← hlast, hop] at hpair
        cases hpair.1.1
      exact ⟨p, by rw [List.dropLast_cons_of_ne_nil hrest]; rfl, hop, hl⟩
    · exact ⟨p, rfl, hop, hl⟩
  · exact ⟨p, rfl, hop, hl⟩

theorem wired_join (h : Coherent (pre ++ d :: e :: post)) (hw : Wired (pre ++ d :: e :: post))
    (hchain : isChain (pre ++ d :: e :: post) d e = true) :
    Wired (pre ++ d.join e :: post) := by
  obtain ⟨hsucc, hbranch, hways⟩ := isChain_iff.1 hchain
  have hmemd : d ∈ pre ++ d :: e :: post := by simp
  have hmeme : e ∈ pre ++ d :: e :: post := by simp
  have hde : e.start ∈ d.succ := by
    rw [hsucc]
    exact List.mem_singleton_self _
  refine hw.contract h rfl hways hde
    (ends_joinCode (hw.ends d hmemd) (hw.ends e hmeme) (hw.named e hmeme) hsucc hbranch)
    (fun l hl => begins_joinCode (hw.named d hmemd l hl)) (fun τ hτ => ⟨?_, .inr hτ⟩)
    fun hexit => by simpa [join] using hexit
  rintro rfl
  exact not_mem_succ_of_ways hways hde e (by simp) hτ

theorem wired_mergeAfter {rest : List Draft} (done : List Draft)
    (h : Coherent (done.reverse ++ d :: rest)) (hw : Wired (done.reverse ++ d :: rest)) :
    Wired (mergeAfter done d rest) := by
  fun_induction mergeAfter done d rest with
  | case1 => exact hw
  | case2 done d e rest hchain ih => exact ih (coherent_join h hchain) (wired_join h hw hchain)
  | case3 done d e rest hchain ih =>
    rw [List.reverse_cons, List.append_assoc, List.singleton_append] at ih
    exact ih h hw

end Merge

/-- The drafts before any are joined. -/
theorem wired_elideHops {code : List Instr} (h : Labelled code) :
    Coherent (elideHops (dropUnreached (cut code))) ∧
      Wired (elideHops (dropUnreached (cut code))) := by
  have hdrop := keeps_dropUnreached (coherent_cut h)
  have hw := (wired_cut h).dropUnreached
  refine ⟨(keeps_elideHops hdrop.coherent).coherent, ?_⟩
  generalize dropUnreached (cut code) = ds at hdrop hw
  cases ds with
  | nil => exact hw
  | cons d ds => exact wired_elideAfter [] hdrop.coherent hw

theorem wired_ofCode {code : List Instr} (h : Labelled code) : Wired (ofCode code) := by
  obtain ⟨hcoherent, hwired⟩ := wired_elideHops h
  rw [show ofCode code = mergeChains (elideHops (dropUnreached (cut code))) from rfl]
  generalize elideHops (dropUnreached (cut code)) = ds at hcoherent hwired
  cases ds with
  | nil => exact hwired
  | cons d ds => exact wired_mergeAfter [] hcoherent hwired

end Draft

/-! ## The blocks -/

/-- What the blocks of a routine rely on of each other. -/
structure Layout.WellFormed (layout : Layout) : Prop where
  succ_sorted : ∀ b, (layout.succ b).Pairwise (· < ·)
  pred_sorted : ∀ b, (layout.pred b).Pairwise (· < ·)
  succ_lt : ∀ b, ∀ s ∈ layout.succ b, s < layout.size
  pred_lt : ∀ b, ∀ p ∈ layout.pred b, p < layout.size
  mem_succ_iff_mem_pred : ∀ b s, s ∈ layout.succ b ↔ b ∈ layout.pred s
  /-- Control can get to every block from the entry. -/
  reachable : ∀ b < layout.size, ReflTransGen (fun i j => j ∈ layout.succ i) 0 b
  pred_entry : layout.pred 0 = []
  /-- At most one block falls off the end of the routine: the last one. -/
  last_of_exit : ∀ b < layout.size, (layout.block b).exit = true →
    b + 1 = layout.size ∧ layout.succ b = []
  /-- An instruction that does not just go on with the next one is the last of its block. -/
  last_of_leaves : ∀ (b i : Nat) (p : Instr), (layout.block b).code[i]? = some p →
    p.op = .branch ∨ p.transfers = true → i + 1 = (layout.block b).code.length
  /-- The target of a jump begins a block that the jump leads to. -/
  target_of_jumps : ∀ b, ∀ p ∈ (layout.block b).code, p.op.jumps = true →
    ∃ s ∈ layout.succ b, Draft.Begins (layout.block s).code p.label

namespace Layout

variable {code : List Instr}

theorem WellFormed.lt_of_mem_succ {layout : Layout} (h : layout.WellFormed) {i j : Nat}
    (hj : j ∈ layout.succ i) : i < layout.size :=
  h.pred_lt j i ((h.mem_succ_iff_mem_pred i j).1 hj)

theorem WellFormed.ne_entry_of_mem_succ {layout : Layout} (h : layout.WellFormed) {i j : Nat}
    (hj : j ∈ layout.succ i) : j ≠ 0 := by
  intro hzero
  have hpred := (h.mem_succ_iff_mem_pred i j).1 hj
  rw [hzero, h.pred_entry] at hpred
  exact List.not_mem_nil hpred

theorem mem_drop_indices {layout : Layout} {i : Nat} :
    i ∈ layout.indices.drop 1 ↔ 0 < i ∧ i < layout.size := by
  rw [indices, List.range_eq_range', List.drop_range', List.mem_range'_1]
  omega

/-- What the drafts of a routine rely on of each other, said of the blocks made from them. -/
theorem wellFormed_ofCode (h : Labelled code) : (ofCode code).WellFormed := by
  have hwired := Draft.wired_ofCode h
  have hcoherent := (Draft.keeps_ofCode h).coherent
  have hsided := twoSided_ofCode code
  have hblocks := ofCode_eq h
  -- a block that has code, ways or an exit is made from a draft
  have hdraft : ∀ {b}, b < (ofCode code).size → ∃ d, (Draft.ofCode code)[b]? = some d ∧
      ((ofCode code).block b).code = d.code ∧ ((ofCode code).block b).exit = d.exit := by
    intro b hb
    rw [hblocks, size_ofDrafts, List.size_toArray] at hb
    have hd := List.getElem?_eq_getElem hb
    exact ⟨_, hd, by rw [hblocks, block_ofDrafts hd], by rw [hblocks, block_ofDrafts hd]⟩
  have hsucc : ∀ {i j}, j ∈ (ofCode code).succ i ↔ ∃ d e, (Draft.ofCode code)[i]? = some d ∧
      (Draft.ofCode code)[j]? = some e ∧ e.start ∈ d.succ := by
    intro i j
    rw [hblocks, mem_succ_ofDrafts]
  have hpred := hsided.mem_succ_iff_mem_pred
  refine ⟨hsided.succ_sorted, hsided.pred_sorted, hsided.succ_lt, ?_, hpred,
    fun b hb => reachable_ofCode h hb, ?_, ?_, ?_, ?_⟩
  · intro b p hp
    obtain ⟨d, _, hd, _⟩ := hsucc.1 ((hpred p b).2 hp)
    rw [hblocks, size_ofDrafts, List.size_toArray]
    exact (List.getElem?_eq_some_iff.1 hd).1
  · refine List.eq_nil_iff_forall_not_mem.2 fun p hp => ?_
    obtain ⟨d, e, hd, he, hway⟩ := hsucc.1 ((hpred p 0).2 hp)
    have hentry := hcoherent.entry
    rw [List.head?_eq_getElem?, he, Option.map_some, Option.some_inj] at hentry
    exact hwired.entry d (List.mem_of_getElem? hd) (hentry ▸ hway)
  · intro b hb hexit
    obtain ⟨d, hd, _, hdexit⟩ := hdraft hb
    rw [hdexit] at hexit
    constructor
    · refine Nat.le_antisymm hb (Nat.le_of_not_lt fun hlt => ?_)
      rw [hblocks, size_ofDrafts, List.size_toArray] at hlt
      have hfalse := List.pairwise_iff_getElem.1 hwired.exit b (b + 1)
        (List.getElem?_eq_some_iff.1 hd).1 hlt (Nat.lt_succ_self b)
      rw [(List.getElem?_eq_some_iff.1 hd).2, hexit] at hfalse
      cases hfalse
    · refine List.eq_nil_iff_forall_not_mem.2 fun s hs => ?_
      obtain ⟨d', _, hd', _, hway⟩ := hsucc.1 hs
      rw [hd, Option.some_inj] at hd'
      subst hd'
      rw [hcoherent.exit d (List.mem_of_getElem? hd) hexit] at hway
      cases hway
  · intro b i p hp hleaves
    obtain ⟨d, hd, hcode, _⟩ := hdraft (lt_of_mem_code (List.mem_of_getElem? hp))
    rw [hcode] at hp ⊢
    have hlt := (List.getElem?_eq_some_iff.1 hp).1
    refine Nat.le_antisymm hlt (Nat.le_of_not_lt fun hearly => ?_)
    have hinner := (hwired.ends d (List.mem_of_getElem? hd)).inner p
      (List.mem_iff_getElem?.2 ⟨i, by rw [List.getElem?_dropLast, if_pos (by omega), hp]⟩)
    rcases hleaves with hop | htransfers
    · exact hinner.1 hop
    · rw [hinner.2] at htransfers
      cases htransfers
  · intro b p hp hjumps
    obtain ⟨d, hd, hcode, _⟩ := hdraft (lt_of_mem_code hp)
    rw [hcode] at hp
    have hmem := List.mem_of_getElem? hd
    have hlabel : Start.label p.label ∈ d.succ := (hwired.ends d hmem).label_mem hp hjumps
    obtain ⟨e, he, hstart⟩ := hwired.there d hmem _ hlabel
    obtain ⟨s, hs⟩ := List.mem_iff_getElem?.1 he
    refine ⟨s, hsucc.2 ⟨d, e, hd, hs, hstart ▸ hlabel⟩, ?_⟩
    rw [hblocks, block_ofDrafts hs]
    exact hwired.named e he _ hstart

end Layout

namespace Graph

variable {o : Options} {code : List Instr} {g : Graph}

theorem Built.wellFormed (h : Built o code g) : g.layout.WellFormed := by
  rw [h.layout]
  exact Layout.wellFormed_ofCode h.labelled

/-- The blocks of every graph that is built are well formed. -/
theorem wellFormed_of_build (h : build o code = .ok g) : g.layout.WellFormed :=
  (built_of_build h).wellFormed

/-- A branch around a loop, and a hop out of the loop over dead code. -/
theorem wellFormed_of_build_loop :
    ∃ g, build (Defaults.options {}) [.number 1, .branch 1 true, .target 0, .number 2,
        .branch 0 false, .hop 1, .number 9, .target 1] = .ok g ∧ g.layout.WellFormed := by
  have hok : (build (Defaults.options {}) [.number 1, .branch 1 true, .target 0, .number 2,
      .branch 0 false, .hop 1, .number 9, .target 1]).toBool = true := by cbv
  cases h : build (Defaults.options {}) [.number 1, .branch 1 true, .target 0, .number 2,
      .branch 0 false, .hop 1, .number 9, .target 1] with
  | ok g => exact ⟨g, rfl, wellFormed_of_build h⟩
  | error e =>
    rw [h] at hok
    cases hok

end Graph

end StackFlow
