import StackFlow.Proofs.Links

/-!
# The drafts of a web

Without their predecessors, the nodes of a web in layout order are drafts (`Web.drafts`).
Every step on the web is the step of the same name on its drafts, so what is known of the
steps on drafts holds of the web.

* While the list is read, the nodes behind the current one are finished, and a node that is
  not placed yet is blank (`Reading`).  `Closes` says how the current node is finished, and
  `drafts_read` is the result.
* A draft counts what leads to it among all the others, and a node has its own list for that.
  `ways_drafts` says that they agree as long as the web is sound.
* `drafts_dropUnreached`, `drafts_elideHops` and `drafts_mergeChains` follow, and
  `drafts_cleaned` puts the steps together.
-/

namespace StackFlow

/-- A draft that control is in: where it goes from there is not known yet. -/
def Draft.opening (s : Start) (code : List Instr) (l : Location) : Draft :=
  { start := s, code, succ := [], tail := l }

namespace Nodes

variable {ns : Nodes} {cur : Option Start} {f : Start → Nodes} {s : Start}

/-- The node called `s` as a draft whose code is still being collected. -/
def opened (ns : Nodes) (s : Start) : Draft.Open := ⟨s, (ns.draft s).code.reverse⟩

theorem draft_elim_of_mem (h : s ∈ cur) : (cur.elim ns f).draft s = (f s).draft s := by
  cases h
  rfl

theorem draft_elim_of_not_mem (hs : s ∉ cur) (h : ∀ c, s ≠ c → (f c).draft s = ns.draft s) :
    (cur.elim ns f).draft s = ns.draft s := by
  cases cur with
  | none => rfl
  | some c => exact h c fun heq => hs (congrArg some heq.symm)

end Nodes

namespace Web

open Draft Nodes Relation

variable {w : Web} {code : List Instr} {s : Start}

/-- The nodes in layout order, without their predecessors. -/
def drafts (w : Web) : List Draft := w.order.map w.nodes.draft

@[simp] theorem starts_drafts (w : Web) : w.drafts.map (·.start) = w.order := by
  simp [drafts, Function.comp_def]

/-! ## Reading the list -/

section Scan

variable {ns ns' : Nodes} {done : List Start} {cur : Option Start} {i : Nat} {l l' : Location}
  {next : Start} {xs : List Instr}

/-- What is known of the web while the list is read: the nodes of `done` are finished, and
control is in `cur` at location `l`. -/
structure Reading (w : Web) (done : List Start) (cur : Option Start) (l : Location) : Prop where
  order : w.order = done ++ cur.toList
  nodup : w.order.Nodup
  blank : ∀ s, s ∉ w.order → w.nodes.draft s = opening s [] {}
  current : ∀ s ∈ cur, w.nodes.draft s = opening s (w.nodes.draft s).code l

namespace Reading

theorem mem_order (h : Reading w done cur l) (hs : s ∈ cur) : s ∈ w.order := by
  rw [h.order, List.mem_append, Option.mem_toList]
  exact .inr hs

theorem not_mem_done (h : Reading w done cur l) (hs : s ∈ done) : s ∉ cur := by
  have hnodup := h.nodup
  rw [h.order] at hnodup
  intro hcur
  exact (List.nodup_append.1 hnodup).2.2 s hs s (Option.mem_toList.2 hcur) rfl

end Reading

/-- The nodes `ns` are those of the web with the current one closed as `f` says. -/
structure Closes (w : Web) (cur : Option Start) (f : Open → Draft) (ns : Nodes) : Prop where
  others : ∀ s, s ∉ cur → ns.draft s = w.nodes.draft s
  current : ∀ s ∈ cur, ns.draft s = f (w.nodes.opened s)

namespace Reading

variable {f : Open → Draft}

/-- Edits of the current node close it. -/
theorem closes (h : Reading w done cur l) {edit : Start → Nodes}
    (hothers : ∀ c s, s ≠ c → (edit c).draft s = w.nodes.draft s)
    (hcurrent : ∀ c, w.nodes.draft c = opening c (w.nodes.draft c).code l →
      (edit c).draft c = f (w.nodes.opened c)) : Closes w cur f (cur.elim w.nodes edit) where
  others s hs := draft_elim_of_not_mem hs fun c => hothers c s
  current s hs := (draft_elim_of_mem hs).trans (hcurrent s (h.current s hs))

/-- What has been placed when the current node is closed. -/
theorem map_order (h : Reading w done cur l) (hcloses : Closes w cur f ns) :
    w.order.map ns.draft = done.map w.nodes.draft ++ ((cur.map w.nodes.opened).map f).toList := by
  rw [h.order, List.map_append, List.map_congr_left fun s hs =>
    hcloses.others s (h.not_mem_done hs)]
  cases cur with
  | none => rfl
  | some c => simp [hcloses.current c rfl]

/-- Control leaves the current node. -/
theorem leave (h : Reading w done cur l) (hcloses : Closes w cur f ns) :
    Reading ⟨ns, w.order⟩ w.order none l' where
  order := (List.append_nil _).symm
  nodup := h.nodup
  blank s hs := by
    rw [hcloses.others s fun hcur => hs (h.mem_order hcur)]
    exact h.blank s hs
  current _ hs := nomatch hs

/-- Control goes on in a new node, which is placed behind the current one. -/
theorem place (h : Reading w done cur l) (hcloses : Closes w cur f ns) (hnew : next ∉ w.order)
    (hothers : ∀ s, s ≠ next → ns'.draft s = ns.draft s)
    (hnext : ns.draft next = opening next [] {} → ns'.draft next = opening next xs l') :
    Reading ⟨ns', w.order ++ [next]⟩ w.order (some next) l' ∧
      w.order.map ns'.draft = w.order.map ns.draft ∧ ns'.opened next = ⟨next, xs.reverse⟩ := by
  have hfirst : ns'.draft next = opening next xs l' := by
    refine hnext ?_
    rw [hcloses.others next fun hcur => hnew (h.mem_order hcur)]
    exact h.blank next hnew
  refine ⟨⟨rfl, ?_, fun s hs => ?_, fun s hs => ?_⟩, List.map_congr_left fun s hs => ?_, ?_⟩
  · rw [List.nodup_append]
    refine ⟨h.nodup, List.nodup_singleton _, fun a ha b hb => ?_⟩
    rw [List.mem_singleton.1 hb]
    exact fun heq => hnew (heq ▸ ha)
  · rw [List.mem_append, List.mem_singleton, not_or] at hs
    rw [hothers s hs.2, hcloses.others s fun hcur => hs.1 (h.mem_order hcur)]
    exact h.blank s hs.1
  · cases hs
    rw [hfirst]
    rfl
  · exact hothers s fun heq => hnew (heq ▸ hs)
  · rw [opened, hfirst]
    rfl

/-- Control stays in the current node. -/
theorem stay (h : Reading w done cur l) (hothers : ∀ s, s ∉ cur → ns.draft s = w.nodes.draft s)
    (hcurrent : ∀ s ∈ cur, ns.draft s = opening s (ns.draft s).code l') :
    Reading ⟨ns, w.order⟩ done cur l' where
  order := h.order
  nodup := h.nodup
  blank s hs := by
    rw [hothers s fun hcur => hs (h.mem_order hcur)]
    exact h.blank s hs
  current := hcurrent

end Reading

theorem not_mem_of_nodup_append {a : Start} {xs ys : List Start}
    (h : (xs ++ [a] ++ ys).Nodup) : a ∉ xs := by
  rw [List.append_assoc, List.singleton_append, List.nodup_middle, List.nodup_cons] at h
  exact fun hmem => h.1 (List.mem_append_left _ hmem)

/-- Only an instruction within a draft sets the location. -/
theorem after_of_not_plain {p : Instr} (h : p.op = .target ∨ p.op = .branch ∨ p.op = .hop) :
    l.after p = l := by
  rcases h with h | h | h <;> simp [Location.after, h]

theorem after_of_transfers {p : Instr} (h : p.transfers = true) : l.after p = l := by
  unfold Location.after
  split
  · rename_i hop
    simp [Instr.transfers, hop, Opcode.row] at h
  · rename_i hop
    simp [Instr.transfers, hop, Opcode.row] at h
  · rfl

/-- The web that is read so far holds the drafts that are cut so far. -/
theorem drafts_scan (h : Reading w done cur l) (hnodup : (w.order ++ startsFrom i code).Nodup) :
    (scan i l cur w code).drafts =
      done.map w.nodes.draft ++ split i l (cur.map w.nodes.opened) code := by
  fun_induction scan i l cur w code generalizing done with
  | case1 i l cur w =>
    have hcloses : Closes w cur (fun o => { o.close [] none l with exit := true })
        (cur.elim w.nodes w.nodes.finish) :=
      h.closes (fun c s hs => by rw [draft_finish, if_neg hs]) fun c hc => by
        rw [draft_finish, if_pos rfl, hc]
        simp [opened, opening, Open.close]
    rw [split]
    exact h.map_order hcloses
  | case2 i l cur w p code l' hop next ns =>
    rename_i ih
    have hl : l' = l := after_of_not_plain (.inl hop)
    rw [startsFrom, if_pos hop, List.singleton_append, List.append_cons] at hnodup
    have hcloses : Closes w cur (fun o => o.close [next] (some next) l) ns :=
      h.closes (fun c s hs => by rw [draft_fallTo, if_neg hs]) fun c hc => by
        rw [draft_fallTo, if_pos rfl, hc]
        simp [opened, opening, Open.close, Start.addTo]
    have hothers : ∀ s, s ≠ next → ((ns.push next p).locate next l').draft s = ns.draft s :=
      fun s hs => by rw [draft_locate, if_neg hs, draft_push, if_neg hs]
    have hnext : ns.draft next = opening next [] {} →
        ((ns.push next p).locate next l').draft next = opening next [p] l' := by
      intro hblank
      rw [draft_locate, if_pos rfl, draft_push, if_pos rfl, hblank]
      rfl
    obtain ⟨hreading, hsame, hopened⟩ :=
      h.place hcloses (not_mem_of_nodup_append hnodup) hothers hnext
    rw [ih hreading hnodup, hsame, h.map_order hcloses, split_target hop, List.append_assoc,
      Option.map_some, hopened, hl]
    rfl
  | case3 i l cur w p code l' hop next ns =>
    rename_i ih
    have hl : l' = l := after_of_not_plain (.inr (.inl hop))
    rw [startsFrom, if_neg (by simp [hop]), if_pos hop, List.singleton_append,
      List.append_cons] at hnodup
    have hcloses : Closes w cur
        (fun o => (o.push p).close [.label p.label, next] (some next) l) ns :=
      h.closes (fun c s hs => by
        rw [draft_fallTo, if_neg hs, draft_link, if_neg hs, draft_push, if_neg hs]) fun c hc => by
        rw [draft_fallTo, if_pos rfl, draft_link, if_pos rfl, draft_push, if_pos rfl, hc]
        simp [opened, opening, Open.close, Open.push, Start.addTo, next]
    have hothers : ∀ s, s ≠ next → (ns.locate next l').draft s = ns.draft s :=
      fun s hs => by rw [draft_locate, if_neg hs]
    have hnext : ns.draft next = opening next [] {} →
        (ns.locate next l').draft next = opening next [] l' := by
      intro hblank
      rw [draft_locate, if_pos rfl, hblank]
      rfl
    obtain ⟨hreading, hsame, hopened⟩ :=
      h.place hcloses (not_mem_of_nodup_append hnodup) hothers hnext
    rw [ih hreading hnodup, hsame, h.map_order hcloses, split_branch hop, List.append_assoc,
      Option.map_some, hopened, hl]
    rfl
  | case4 i l cur w p code l' hop ns =>
    rename_i ih
    have hl : l' = l := after_of_not_plain (.inr (.inr hop))
    rw [startsFrom, if_neg (by simp [hop]), if_neg (by simp [hop]), List.nil_append] at hnodup
    have hcloses : Closes w cur (fun o => (o.push p).close [.label p.label] none l) ns :=
      h.closes (fun c s hs => by rw [draft_link, if_neg hs, draft_push, if_neg hs]) fun c hc => by
        rw [draft_link, if_pos rfl, draft_push, if_pos rfl, hc]
        simp [opened, opening, Open.close, Open.push, Start.addTo]
    rw [ih (h.leave hcloses) hnodup, h.map_order hcloses, split_hop hop, hl, List.append_assoc]
    rfl
  | case5 i l cur w p code l' ns htransfers htarget hbranch hhop =>
    rename_i ih
    have hl : l' = l := after_of_transfers htransfers
    rw [startsFrom, if_neg htarget, if_neg hbranch, List.nil_append] at hnodup
    have hcloses : Closes w cur (fun o => (o.push p).close [] none l) ns :=
      h.closes (fun c s hs => by rw [draft_push, if_neg hs]) fun c hc => by
        rw [draft_push, if_pos rfl, hc]
        simp [opened, opening, Open.close, Open.push]
    rw [ih (h.leave hcloses) hnodup, h.map_order hcloses,
      split_plain ⟨htarget, hbranch, hhop⟩, if_pos htransfers, hl, List.append_assoc]
    cases cur <;> rfl
  | case6 i l cur w p code l' ns htransfers htarget hbranch hhop =>
    rename_i ih
    rw [startsFrom, if_neg htarget, if_neg hbranch, List.nil_append] at hnodup
    have hothers : ∀ s, s ∉ cur → (cur.elim ns (ns.locate · l')).draft s = w.nodes.draft s := by
      intro s hs
      rw [draft_elim_of_not_mem hs fun c hsc => by rw [draft_locate, if_neg hsc]]
      exact draft_elim_of_not_mem hs fun c hsc => by rw [draft_push, if_neg hsc]
    have hcurrent : ∀ s ∈ cur, (cur.elim ns (ns.locate · l')).draft s =
        opening s ((w.nodes.draft s).code ++ [p]) l' := by
      intro s hs
      rw [draft_elim_of_mem hs, draft_locate, if_pos rfl, draft_elim_of_mem hs, draft_push,
        if_pos rfl, h.current s hs]
      rfl
    rw [ih (h.stay hothers fun s hs => by rw [hcurrent s hs]; rfl) hnodup,
      split_plain ⟨htarget, hbranch, hhop⟩, if_neg htransfers]
    have hopened : cur.map (cur.elim ns (ns.locate · l')).opened =
        (cur.map w.nodes.opened).map (·.push p) := by
      rw [Option.map_map]
      refine Option.map_congr fun s hs => ?_
      simp [opened, hcurrent s hs, opening, Open.push]
    rw [hopened, List.map_congr_left fun s hs => hothers s (h.not_mem_done hs)]

theorem drafts_read (h : (read code).order.Nodup) : (read code).drafts = cut code := by
  rw [order_read] at h
  have hblank : ∀ s, Nodes.draft (Nodes.locate [] .entry {}) s = opening s [] {} := by
    intro s
    rw [draft_locate]
    split
    · rename_i hs
      rw [hs]
      rfl
    · rfl
  have hreading : Reading ⟨Nodes.locate [] .entry {}, [.entry]⟩ [] (some .entry) {} :=
    ⟨rfl, List.nodup_singleton _, fun s _ => hblank s, fun s _ => by rw [hblank]; rfl⟩
  rw [read, drafts_scan hreading h, List.map_nil, List.nil_append, Option.map_some, opened, hblank]
  rfl

end Scan

/-! ## Dropping nodes -/

theorem mem_drafts {d : Draft} : d ∈ w.drafts ↔ d.start ∈ w.order ∧ w.nodes.draft d.start = d := by
  rw [drafts, List.mem_map]
  constructor
  · rintro ⟨s, hs, rfl⟩
    rw [start_draft]
    exact ⟨hs, rfl⟩
  · rintro ⟨hs, hd⟩
    exact ⟨d.start, hs, hd⟩

/-- A node has as many predecessors as there are drafts that lead to it. -/
theorem ways_drafts (h : w.Sound) (hs : s ∈ w.order) :
    ways w.drafts s = (w.nodes.pred s).length := by
  have hperm : (w.order.filter fun a => (w.nodes.draft a).succ.contains s).Perm
      (w.nodes.pred s) := by
    refine (List.perm_ext_iff_of_nodup (h.nodup.filter _) (h.linked.pred_nodup hs)).2 fun a => ?_
    rw [List.mem_filter, List.contains_iff_mem]
    constructor
    · exact fun ⟨ha, hmem⟩ => (h.linked.mem_iff ha hs).1 hmem
    · intro ha
      have hlive := h.linked.pred_live hs ha
      exact ⟨hlive, (h.linked.mem_iff hlive hs).2 ha⟩
  rw [ways, drafts, List.countP_map, List.countP_eq_length_filter, ← hperm.length_eq]
  rfl

/-- A part of a list without repetitions is found by its members. -/
theorem filter_mem_of_sublist {α : Type} [DecidableEq α] {xs ys : List α} (hnodup : ys.Nodup)
    (h : xs.Sublist ys) : ys.filter (· ∈ xs) = xs := by
  have hxs : xs.Sublist (ys.filter (· ∈ xs)) := by
    have hfilter := h.filter (· ∈ xs)
    rwa [List.filter_eq_self.2 fun a ha => decide_eq_true ha] at hfilter
  have hperm : xs.Perm (ys.filter (· ∈ xs)) := by
    refine (List.perm_ext_iff_of_nodup (hnodup.sublist h) (hnodup.filter _)).2 fun a => ?_
    rw [List.mem_filter, decide_eq_true_eq]
    exact ⟨fun ha => ⟨h.subset ha, ha⟩, And.right⟩
  exact (hxs.eq_of_length hperm.length_eq).symm

/-- The search by name and the search by position find the same. -/
theorem mem_reached_iff (h : w.Sound) (hcoherent : Coherent w.drafts) {d : Draft}
    (hd : d ∈ w.drafts) : d.start ∈ w.reached ↔ d ∈ Draft.dropUnreached w.drafts := by
  have hsub := sublist_dropUnreached w.drafts
  obtain ⟨order, horder⟩ : ∃ order, w.order = .entry :: order := by
    have hentry := hcoherent.entry
    rw [← List.head?_map, starts_drafts] at hentry
    exact List.head?_eq_some_iff.1 hentry
  constructor
  · intro hreached
    obtain ⟨s, hs, hlive, hway⟩ := (mem_reached h.nodup).1 hreached
    rw [horder, List.take_succ_cons, List.take_zero, List.mem_singleton] at hs
    suffices hall : ∀ τ, ReflTransGen _ s τ → w.nodes.draft τ ∈ Draft.dropUnreached w.drafts from
      (mem_drafts.1 hd).2 ▸ hall _ hway
    intro τ hway
    induction hway with
    | refl =>
      obtain ⟨e, he, hstart⟩ := Option.map_eq_some_iff.1 (coherent_dropUnreached hcoherent).entry
      have hmem := List.mem_of_head? he
      rw [hs, ← hstart, (mem_drafts.1 (hsub.subset hmem)).2]
      exact hmem
    | tail _ hstep ih =>
      refine mem_dropUnreached_of_succ ih (List.mem_map_of_mem hstep.2) ?_
      rw [start_draft]
      exact hstep.1
  · intro hmem
    suffices hall : ∀ τ, ReflTransGen _ Start.entry τ → τ ∈ w.reached from
      hall _ (reached_dropUnreached hcoherent d hmem)
    intro τ hway
    induction hway with
    | refl =>
      refine (mem_reached h.nodup).2 ⟨.entry, ?_, ?_, .refl⟩
      · rw [horder, List.take_succ_cons]
        exact List.mem_cons_self
      · rw [horder]
        exact List.mem_cons_self
    | tail _ hstep ih =>
      obtain ⟨e, he, rfl, hsucc, e', he', rfl⟩ := hstep
      rw [← (mem_drafts.1 (hsub.subset he)).2] at hsucc
      exact (mem_reached h.nodup).2 (((mem_reached h.nodup).1 ih).tail hsucc
        (mem_drafts.1 (hsub.subset he')).1)

theorem drafts_dropUnreached (h : w.Sound) (hcoherent : Coherent w.drafts) :
    w.dropUnreached.drafts = Draft.dropUnreached w.drafts := by
  classical
  have hdrafts : w.dropUnreached.drafts = w.reached.map w.nodes.draft :=
    List.map_congr_left fun _ _ => draft_forget
  have hnodup : w.drafts.Nodup := hcoherent.nodup.of_map _
  rw [← filter_mem_of_sublist hnodup (sublist_dropUnreached w.drafts), hdrafts,
    ← filter_mem_of_sublist hnodup ((sublist_reached w).map _)]
  refine List.filter_congr fun d hd => ?_
  rw [decide_eq_decide, ← mem_reached_iff h hcoherent hd, List.mem_map]
  constructor
  · rintro ⟨s, hs, rfl⟩
    rwa [start_draft]
  · exact fun hs => ⟨d.start, hs, (mem_drafts.1 hd).2⟩

/-! ## Replacing two nodes in a row by one -/

section Steps

variable {ns : Nodes} {done rest : List Start} {prev d next e : Start}

/-- The drafts of the nodes before and after one of them. -/
theorem drafts_around (ns : Nodes) (done rest : List Start) (x : Start) :
    Web.drafts ⟨ns, done.reverse ++ x :: rest⟩ =
      (done.map ns.draft).reverse ++ ns.draft x :: rest.map ns.draft := by
  simp [drafts]

theorem isDetour_drafts (h : Sound ⟨ns, done.reverse ++ prev :: d :: next :: rest⟩) :
    Draft.isDetour ((done.map ns.draft).reverse ++ ns.draft prev :: ns.draft d :: ns.draft next ::
      rest.map ns.draft) (ns.draft prev) (ns.draft d) (ns.draft next) =
      ns.isDetour prev d next := by
  have haround := drafts_around ns done (d :: next :: rest) prev
  rw [List.map_cons, List.map_cons] at haround
  have hprev : prev ∈ done.reverse ++ prev :: d :: next :: rest := by simp
  have hd : d ∈ done.reverse ++ prev :: d :: next :: rest := by simp
  have hne : next ≠ d := by
    have hnodup := h.nodup.sublist (List.sublist_append_right _ _)
    rintro rfl
    simp at hnodup
  rw [← haround, Bool.eq_iff_iff, Draft.isDetour_iff, Nodes.isDetour_iff, start_draft, start_draft,
    ways_drafts h hd, h.linked.mem_iff hprev hd]
  constructor
  · rintro ⟨hhop, hways, hmem, hfall, hsucc⟩
    obtain ⟨x, hx⟩ := List.length_eq_one_iff.1 hways
    have hpred : ns.pred d = [x] := hx
    rw [hx, List.mem_singleton] at hmem
    exact ⟨hhop, hmem ▸ hpred, hfall, hsucc, hne⟩
  · rintro ⟨hhop, hpred, hfall, hsucc, -⟩
    exact ⟨hhop, by simp [hpred], by simp [hpred], hfall, hsucc⟩

theorem isChain_drafts (h : Sound ⟨ns, done.reverse ++ d :: e :: rest⟩) :
    Draft.isChain ((done.map ns.draft).reverse ++ ns.draft d :: ns.draft e :: rest.map ns.draft)
      (ns.draft d) (ns.draft e) = ns.isChain d e := by
  have haround := drafts_around ns done (e :: rest) d
  rw [List.map_cons] at haround
  have he : e ∈ done.reverse ++ d :: e :: rest := by simp
  have hne : e ≠ d := by
    have hnodup := h.nodup.sublist (List.sublist_append_right _ _)
    rintro rfl
    simp at hnodup
  rw [← haround, Bool.eq_iff_iff, Draft.isChain_iff, Nodes.isChain_iff, start_draft,
    ways_drafts h he, and_iff_right hne]

/-- Edits of a node are not seen in the nodes before and after it. -/
theorem map_draft_around (ns ns' : Nodes) (h : (done.reverse ++ d :: rest).Nodup)
    (hsame : ∀ s, s ∈ done ∨ s ∈ rest → s ≠ d → ns'.draft s = ns.draft s) :
    done.map ns'.draft = done.map ns.draft ∧ rest.map ns'.draft = rest.map ns.draft := by
  rw [List.nodup_middle, List.nodup_cons, List.mem_append, List.mem_reverse, not_or] at h
  refine ⟨List.map_congr_left fun s hs => hsame s (.inl hs) ?_,
    List.map_congr_left fun s hs => hsame s (.inr hs) ?_⟩
  · exact fun heq => h.1.1 (heq ▸ hs)
  · exact fun heq => h.1.2 (heq ▸ hs)

theorem drafts_elideAfter (done : List Start) (h : Sound ⟨ns, done.reverse ++ prev :: rest⟩) :
    (elideAfter ns done prev rest).drafts =
      Draft.elideAfter (done.map ns.draft) (ns.draft prev) (rest.map ns.draft) := by
  fun_induction elideAfter ns done prev rest with
  | case1 ns done prev d next rest hdetour ih =>
    have hsound := h.bypass hdetour
    obtain ⟨hdone, hrest⟩ := map_draft_around ns (ns.bypass prev d next) hsound.nodup
      fun s _ hs => by rw [draft_bypass, if_neg hs]
    rw [List.map_cons, List.map_cons, Draft.elideAfter, isDetour_drafts h, if_pos hdetour,
      ih hsound, hdone, hrest, draft_bypass, if_pos rfl, start_draft, start_draft]
    rfl
  | case2 ns done prev d next rest hdetour ih =>
    rw [List.reverse_cons, List.append_assoc, List.singleton_append] at ih
    rw [List.map_cons, List.map_cons, Draft.elideAfter, isDetour_drafts h, if_neg hdetour, ih h]
    rfl
  | case3 ns done prev rest hrest =>
    rw [drafts_around]
    cases rest with
    | nil => rfl
    | cons d rest =>
      cases rest with
      | nil => rfl
      | cons next rest => exact absurd rfl (hrest d next rest)

theorem drafts_elideHops (h : w.Sound) : w.elideHops.drafts = Draft.elideHops w.drafts := by
  obtain ⟨ns, order⟩ := w
  cases order with
  | nil => rfl
  | cons d rest => exact drafts_elideAfter [] h

theorem drafts_mergeAfter (done : List Start) (h : Sound ⟨ns, done.reverse ++ d :: rest⟩) :
    (mergeAfter ns done d rest).drafts =
      Draft.mergeAfter (done.map ns.draft) (ns.draft d) (rest.map ns.draft) := by
  fun_induction mergeAfter ns done d rest with
  | case1 => simp [drafts, Draft.mergeAfter]
  | case2 ns done d e rest hchain ih =>
    have hsound := h.merge hchain
    have hdraft : ∀ s ∈ done.reverse ++ d :: rest, (ns.merge d e).draft s =
        if s = d then (ns.draft d).join (ns.draft e) else ns.draft s := by
      intro s hs
      have hlive : e ∈ done.reverse ++ d :: e :: rest := by simp
      exact draft_merge (h.linked.succ_nodup hlive) ((mem_contract_order h.nodup).1 hs).2
    obtain ⟨hdone, hrest⟩ := map_draft_around ns (ns.merge d e) hsound.nodup fun s hs hsd => by
      rw [hdraft s (by simp; tauto), if_neg hsd]
    rw [List.map_cons, Draft.mergeAfter, isChain_drafts h, if_pos hchain, ih hsound, hdone, hrest,
      hdraft d (by simp), if_pos rfl]
  | case3 ns done d e rest hchain ih =>
    rw [List.reverse_cons, List.append_assoc, List.singleton_append] at ih
    rw [List.map_cons, Draft.mergeAfter, isChain_drafts h, if_neg hchain, ih h]
    rfl

theorem drafts_mergeChains (h : w.Sound) : w.mergeChains.drafts = Draft.mergeChains w.drafts := by
  obtain ⟨ns, order⟩ := w
  cases order with
  | nil => rfl
  | cons d rest => exact drafts_mergeAfter [] h

end Steps

/-- The nodes that are left of a list are its drafts that are left. -/
theorem drafts_cleaned (h : Labelled code) :
    (read code).dropUnreached.elideHops.mergeChains.drafts = Draft.ofCode code := by
  have hsound := sound_read (isWhole_read h)
  have hcut := drafts_read hsound.nodup
  have hcoherent : Coherent (read code).drafts := hcut ▸ coherent_cut h
  rw [drafts_mergeChains hsound.dropUnreached.elideHops, drafts_elideHops hsound.dropUnreached,
    drafts_dropUnreached hsound hcoherent, hcut]
  rfl

end Web

end StackFlow
