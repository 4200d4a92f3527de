import StackFlow.Proofs.Cleanup

/-!
# Both ends of a way

A node lists where control may go and where it may come from, and every step that makes,
drops or joins nodes edits the two lists one after the other.  This module shows that they
stay in step.

* Views.  A node is a draft and the list of its predecessors, and `Nodes.draft` and
  `Nodes.pred` read the two off.  Each edit has one lemma for either view, and nothing below
  looks into an edit again.
* `Nodes.Linked ns live` says that among the nodes for which `live` holds the lists are
  inverse to each other, name no node that is not live, and name none twice.  There is one
  lemma for each edit that changes a list: `Linked.link`, `Linked.forget`, `Linked.bypass` and
  `Linked.merge`.  The last three leave out nodes, and their ways are gone from both lists;
  the last two drop one node and lead past it (`Linked.rewire`).
* `Web.Sound` is the same of the nodes in layout order.  `Web.sound_read` gives it for the list
  of instructions as it has been read, and `Sound.dropUnreached`, `Sound.elideHops` and
  `Sound.mergeChains` for what the steps leave.
-/

namespace StackFlow

namespace Start

variable {s x : Start} {names : List Start}

theorem mem_addTo : x ∈ s.addTo names ↔ x ∈ names ∨ x = s := by
  unfold addTo
  split
  · rename_i hmem
    rw [List.contains_iff_mem] at hmem
    refine ⟨.inl, fun h => h.elim id ?_⟩
    rintro rfl
    exact hmem
  · simp

theorem nodup_addTo (h : names.Nodup) : (s.addTo names).Nodup := by
  unfold addTo
  split
  · exact h
  · rename_i hnew
    rw [List.contains_iff_mem] at hnew
    refine List.nodup_append.2 ⟨h, List.nodup_singleton s, fun x hx y hy => ?_⟩
    rw [List.mem_singleton.1 hy]
    rintro rfl
    exact hnew hx

end Start

/-! ## Views of the nodes -/

namespace Nodes

variable {ns : Nodes} {a b d e s x y prev next : Start} {live : Start → Prop}

/-- The node called `s` without its predecessors. -/
def draft (ns : Nodes) (s : Start) : Draft := (ns.node s).toDraft

/-- Where control may come from when it enters the node called `s`. -/
def pred (ns : Nodes) (s : Start) : List Start := (ns.node s).pred

theorem start_node (ns : Nodes) (s : Start) : (ns.node s).start = s := by
  unfold node
  cases h : ns.find? (·.start = s) with
  | none => rfl
  | some n => simpa using List.find?_some h

@[simp] theorem start_draft (ns : Nodes) (s : Start) : (ns.draft s).start = s := start_node ns s

/-- Every node that has been made has a name for which `P` holds. -/
def Within (ns : Nodes) (P : Start → Prop) : Prop := ∀ n ∈ ns, P n.start

/-- A name that no node has stands for a node that leads nowhere and that nothing leads to. -/
theorem node_of_not_within (h : ¬ live s) (hin : ns.Within live) :
    ns.node s = { start := s, code := [], succ := [], tail := {} } := by
  have hfind : ns.find? (·.start = s) = none := by
    refine List.find?_eq_none.2 fun n hn hstart => h ?_
    rw [← of_decide_eq_true hstart]
    exact hin n hn
  rw [node, hfind]
  rfl

theorem Within.of_mem_pred (hin : ns.Within live) (h : a ∈ ns.pred b) : live b := by
  by_contra hnone
  rw [pred, node_of_not_within hnone hin] at h
  exact List.not_mem_nil h

theorem Within.of_mem_succ (hin : ns.Within live) (h : b ∈ (ns.draft a).succ) : live a := by
  by_contra hnone
  rw [draft, node_of_not_within hnone hin] at h
  exact List.not_mem_nil h

section Edit

variable {change : Node → Node}

theorem node_edit (h : (change (ns.node a)).start = a) :
    (ns.edit a change).node s = if s = a then change (ns.node a) else ns.node s := by
  unfold edit
  by_cases hs : s = a
  · rw [if_pos hs, node, List.find?_cons_of_pos (by simpa [hs] using h)]
    rfl
  · have hother : ∀ n : Node, (n.start ≠ a ∧ n.start = s) ↔ n.start = s := by
      intro n
      refine and_iff_right_of_imp fun hn => ?_
      rw [hn]
      exact hs
    rw [if_neg hs, node, List.find?_cons_of_neg (by simpa [h] using Ne.symm hs), List.find?_filter]
    simp only [decide_eq_true_eq, hother]
    rfl

theorem draft_edit (h : (change (ns.node a)).start = a) :
    (ns.edit a change).draft s = if s = a then (change (ns.node a)).toDraft else ns.draft s := by
  rw [draft, node_edit h]
  split <;> rfl

theorem pred_edit (h : (change (ns.node a)).start = a) :
    (ns.edit a change).pred s = if s = a then (change (ns.node a)).pred else ns.pred s := by
  rw [pred, node_edit h]
  split <;> rfl

/-- An edit makes no other node than the one it is about. -/
theorem Within.edit (hin : ns.Within live) (ha : live a) (h : (change (ns.node a)).start = a) :
    (ns.edit a change).Within live := by
  intro n hn
  rcases List.mem_cons.1 hn with rfl | hn
  · rwa [h]
  · exact hin n (List.mem_of_mem_filter hn)

theorem Within.push (hin : ns.Within live) (ha : live a) (p : Instr) :
    (ns.push a p).Within live := hin.edit ha (start_node ns a)

theorem Within.locate (hin : ns.Within live) (ha : live a) (l : Location) :
    (ns.locate a l).Within live := hin.edit ha (start_node ns a)

theorem Within.link (hin : ns.Within live) (ha : live a) (hb : live b) :
    (ns.link a b).Within live := by
  have hsucc : (ns.addSucc a b).Within live := hin.edit ha (start_node ns a)
  rw [Nodes.link, addPred]
  exact hsucc.edit hb (start_node _ b)

theorem Within.fallTo (hin : ns.Within live) (ha : live a) (hb : live b) :
    (ns.fallTo a b).Within live :=
  (hin.link ha hb).edit ha (start_node _ a)

theorem Within.elim {cur : Option Start} {f : Start → Nodes} (hin : ns.Within live)
    (hf : ∀ s ∈ cur, (f s).Within live) : (cur.elim ns f).Within live := by
  cases cur with
  | none => exact hin
  | some s => exact hf s rfl

end Edit

/-! Edits that leave the predecessors alone. -/

section Draft

variable {p : Instr} {l : Location}

/-- An edit that keeps the predecessors of its node keeps them all. -/
theorem pred_edit_of_eq {change : Node → Node} (h : (change (ns.node a)).start = a)
    (hpred : (change (ns.node a)).pred = ns.pred a) : (ns.edit a change).pred s = ns.pred s := by
  rw [pred_edit h, hpred]
  split
  · rename_i hs
    rw [hs]
  · rfl

theorem draft_push : (ns.push a p).draft s =
    if s = a then { ns.draft a with code := (ns.draft a).code ++ [p] } else ns.draft s :=
  draft_edit (start_node ns a)

@[simp] theorem pred_push : (ns.push a p).pred s = ns.pred s :=
  pred_edit_of_eq (start_node ns a) rfl

theorem draft_locate : (ns.locate a l).draft s =
    if s = a then { ns.draft a with tail := l } else ns.draft s :=
  draft_edit (start_node ns a)

@[simp] theorem pred_locate : (ns.locate a l).pred s = ns.pred s :=
  pred_edit_of_eq (start_node ns a) rfl

theorem draft_finish : (ns.finish a).draft s =
    if s = a then { ns.draft a with exit := true } else ns.draft s :=
  draft_edit (start_node ns a)

@[simp] theorem pred_finish : (ns.finish a).pred s = ns.pred s :=
  pred_edit_of_eq (start_node ns a) rfl

theorem draft_addSucc : (ns.addSucc a b).draft s =
    if s = a then { ns.draft a with succ := b.addTo (ns.draft a).succ } else ns.draft s :=
  draft_edit (start_node ns a)

@[simp] theorem pred_addSucc : (ns.addSucc a b).pred s = ns.pred s :=
  pred_edit_of_eq (start_node ns a) rfl

theorem draft_eraseSucc : (ns.eraseSucc a b).draft s =
    if s = a then { ns.draft a with succ := (ns.draft a).succ.erase b } else ns.draft s :=
  draft_edit (start_node ns a)

@[simp] theorem pred_eraseSucc : (ns.eraseSucc a b).pred s = ns.pred s :=
  pred_edit_of_eq (start_node ns a) rfl

end Draft

/-! Edits of the predecessors. -/

/-- An edit that keeps the draft of its node keeps them all. -/
theorem draft_edit_of_eq {change : Node → Node} (h : (change (ns.node a)).toDraft = ns.draft a) :
    (ns.edit a change).draft s = ns.draft s := by
  have hstart : (change (ns.node a)).start = a := (congrArg Draft.start h).trans (start_node ns a)
  rw [draft_edit hstart, h]
  split
  · rename_i hs
    rw [hs]
  · rfl

@[simp] theorem draft_addPred : (ns.addPred b a).draft s = ns.draft s := draft_edit_of_eq rfl

theorem pred_addPred : (ns.addPred b a).pred s =
    if s = b then a.addTo (ns.pred b) else ns.pred s :=
  pred_edit (start_node ns b)

@[simp] theorem draft_erasePred : (ns.erasePred b a).draft s = ns.draft s := draft_edit_of_eq rfl

theorem pred_erasePred : (ns.erasePred b a).pred s =
    if s = b then (ns.pred b).erase a else ns.pred s :=
  pred_edit (start_node ns b)

/-! Edits of both. -/

theorem draft_link : (ns.link a b).draft s =
    if s = a then { ns.draft a with succ := b.addTo (ns.draft a).succ } else ns.draft s := by
  rw [link, draft_addPred, draft_addSucc]

theorem pred_link : (ns.link a b).pred s = if s = b then a.addTo (ns.pred b) else ns.pred s := by
  rw [link, pred_addPred, pred_addSucc, pred_addSucc]

theorem draft_fallTo : (ns.fallTo a b).draft s =
    if s = a then { ns.draft a with succ := b.addTo (ns.draft a).succ, fall := some b }
    else ns.draft s := by
  have hedit : (ns.fallTo a b).draft s =
      if s = a then { (ns.link a b).draft a with fall := some b } else (ns.link a b).draft s :=
    draft_edit (start_node _ a)
  rw [hedit, draft_link, draft_link, if_pos rfl]
  split <;> rfl

theorem pred_fallTo : (ns.fallTo a b).pred s =
    if s = b then a.addTo (ns.pred b) else ns.pred s :=
  (pred_edit_of_eq (start_node _ a) rfl).trans pred_link

theorem draft_bypass : (ns.bypass prev d next).draft s =
    if s = prev then (ns.draft prev).reroute d next else ns.draft s := by
  rw [bypass, draft_fallTo, draft_erasePred, draft_erasePred, draft_eraseSucc, draft_eraseSucc,
    if_pos rfl]
  split <;> rfl

theorem pred_bypass : (ns.bypass prev d next).pred s =
    if s = next then prev.addTo ((ns.pred next).erase d) else ns.pred s := by
  rw [bypass, pred_fallTo, pred_erasePred, pred_erasePred, pred_eraseSucc, pred_eraseSucc,
    if_pos rfl]
  split <;> rfl

/-- The nodes in a list are reached from `d` instead of `e`. -/
theorem views_takeOver {succ : List Start} (hnodup : succ.Nodup) :
    (succ.foldl (takeOver d e) ns).draft s = ns.draft s ∧
      (succ.foldl (takeOver d e) ns).pred s =
        if s ∈ succ then d.addTo ((ns.pred s).erase e) else ns.pred s := by
  induction succ generalizing ns with
  | nil => simp
  | cons x succ ih =>
    obtain ⟨hx, hrest⟩ := List.nodup_cons.1 hnodup
    obtain ⟨hdraft, hpred⟩ := @ih (takeOver d e ns x) hrest
    have hfirst : (takeOver d e ns x).pred s =
        if s = x then d.addTo ((ns.pred x).erase e) else ns.pred s := by
      rw [takeOver, pred_addPred, pred_erasePred, pred_erasePred, if_pos rfl]
      split <;> rfl
    rw [List.foldl_cons, hdraft, hpred, hfirst]
    refine ⟨by rw [takeOver, draft_addPred, draft_erasePred], ?_⟩
    by_cases hsx : s = x
    · subst hsx
      simp [hx]
    · simp [hsx]

theorem draft_merge (hnodup : (ns.draft e).succ.Nodup) (hs : s ≠ e) :
    (ns.merge d e).draft s =
      if s = d then (ns.draft d).join (ns.draft e) else ns.draft s := by
  have hnodup' : (ns.node e).succ.Nodup := hnodup
  rw [merge, draft_edit (start_node _ e), if_neg hs, (views_takeOver hnodup').1]
  exact draft_edit (start_node ns d)

theorem pred_merge (hnodup : (ns.draft e).succ.Nodup) (hs : s ≠ e) : (ns.merge d e).pred s =
    if s ∈ (ns.draft e).succ then d.addTo ((ns.pred s).erase e) else ns.pred s := by
  have hnodup' : (ns.node e).succ.Nodup := hnodup
  rw [merge, pred_edit (start_node _ e), if_neg hs, (views_takeOver hnodup').2,
    pred_edit_of_eq (start_node ns d) rfl]
  rfl

theorem node_forget {kept : List Start} : (ns.forget kept).node s =
    if s ∈ kept then { ns.node s with pred := (ns.pred s).filter kept.contains }
    else ns.node s := by
  have hstart : ∀ n : Node, (if kept.contains n.start then
      { n with pred := n.pred.filter kept.contains } else n).start = n.start := by
    intro n
    split <;> rfl
  rw [pred]
  unfold forget node
  rw [List.find?_map]
  simp only [Function.comp_def, hstart]
  cases h : ns.find? (·.start = s) with
  | none => simp
  | some n =>
    have hn : n.start = s := by simpa using List.find?_some h
    simp [hn]

@[simp] theorem draft_forget {kept : List Start} : (ns.forget kept).draft s = ns.draft s := by
  rw [draft, node_forget]
  split <;> rfl

theorem pred_forget {kept : List Start} (hs : s ∈ kept) :
    (ns.forget kept).pred s = (ns.pred s).filter kept.contains := by
  rw [pred, node_forget, if_pos hs]

/-! What the two steps look for. -/

theorem isDetour_iff : ns.isDetour prev d next = true ↔
    (ns.draft d).isHopOnly = true ∧ ns.pred d = [prev] ∧ (ns.draft prev).fall = some d ∧
      (ns.draft d).succ = [next] ∧ next ≠ d := by
  simp [isDetour, draft, pred, and_assoc]

theorem isChain_iff : ns.isChain d e = true ↔
    (ns.draft d).succ = [e] ∧ (ns.draft d).code.getLast?.any (·.op = .branch) = false ∧
      e ≠ d ∧ (ns.pred e).length = 1 := by
  simp [isChain, draft, pred, and_assoc]

/-! ## Lists that are inverse to each other -/

/-- Among the nodes for which `live` holds, each way is listed at both of its ends, once, and
leads to a live node. -/
structure Linked (ns : Nodes) (live : Start → Prop) : Prop where
  succ_nodup : ∀ {a}, live a → (ns.draft a).succ.Nodup
  pred_nodup : ∀ {b}, live b → (ns.pred b).Nodup
  succ_live : ∀ {a b}, live a → b ∈ (ns.draft a).succ → live b
  pred_live : ∀ {a b}, live b → a ∈ ns.pred b → live a
  mem_iff : ∀ {a b}, live a → live b → (b ∈ (ns.draft a).succ ↔ a ∈ ns.pred b)

namespace Linked

variable {ns' : Nodes}

/-- What does not change the ways keeps them in step. -/
theorem of_ways (h : ns.Linked live) (hsucc : ∀ s, (ns'.draft s).succ = (ns.draft s).succ)
    (hpred : ∀ s, ns'.pred s = ns.pred s) : ns'.Linked live where
  succ_nodup ha := by
    rw [hsucc]
    exact h.succ_nodup ha
  pred_nodup hb := by
    rw [hpred]
    exact h.pred_nodup hb
  succ_live ha hb := h.succ_live ha (hsucc _ ▸ hb)
  pred_live hb ha := h.pred_live hb (hpred _ ▸ ha)
  mem_iff ha hb := by
    rw [hsucc, hpred]
    exact h.mem_iff ha hb

theorem push (h : ns.Linked live) (s : Start) (p : Instr) : (ns.push s p).Linked live := by
  refine h.of_ways (fun x => ?_) fun _ => pred_push
  rw [draft_push]
  split
  · rename_i hx
    rw [hx]
  · rfl

theorem locate (h : ns.Linked live) (s : Start) (l : Location) : (ns.locate s l).Linked live := by
  refine h.of_ways (fun x => ?_) fun _ => pred_locate
  rw [draft_locate]
  split
  · rename_i hx
    rw [hx]
  · rfl

theorem finish (h : ns.Linked live) (s : Start) : (ns.finish s).Linked live := by
  refine h.of_ways (fun x => ?_) fun _ => pred_finish
  rw [draft_finish]
  split
  · rename_i hx
    rw [hx]
  · rfl

theorem mem_succ_link : y ∈ ((ns.link a b).draft x).succ ↔
    y ∈ (ns.draft x).succ ∨ x = a ∧ y = b := by
  rw [draft_link]
  split
  · rename_i hx
    simp [Start.mem_addTo, hx]
  · rename_i hx
    simp [hx]

theorem mem_pred_link : x ∈ (ns.link a b).pred y ↔ x ∈ ns.pred y ∨ x = a ∧ y = b := by
  rw [pred_link]
  split
  · rename_i hy
    simp [Start.mem_addTo, hy]
  · rename_i hy
    simp [hy]

/-- A way that is made is listed at both ends. -/
theorem link (h : ns.Linked live) (ha : live a) (hb : live b) : (ns.link a b).Linked live where
  succ_nodup hx := by
    rw [draft_link]
    split
    · exact Start.nodup_addTo (h.succ_nodup ha)
    · exact h.succ_nodup hx
  pred_nodup hy := by
    rw [pred_link]
    split
    · exact Start.nodup_addTo (h.pred_nodup hb)
    · exact h.pred_nodup hy
  succ_live hx hy := by
    rcases mem_succ_link.1 hy with hy | ⟨-, rfl⟩
    · exact h.succ_live hx hy
    · exact hb
  pred_live hy hx := by
    rcases mem_pred_link.1 hx with hx | ⟨rfl, -⟩
    · exact h.pred_live hy hx
    · exact ha
  mem_iff hx hy := by rw [mem_succ_link, mem_pred_link, h.mem_iff hx hy]

theorem fallTo (h : ns.Linked live) (ha : live a) (hb : live b) : (ns.fallTo a b).Linked live := by
  refine (h.link ha hb).of_ways (fun s => ?_) fun s => by rw [pred_fallTo, pred_link]
  rw [draft_fallTo, draft_link]
  split <;> rfl

/-- If the nodes that are kept lead only to one another, it is enough to forget the ways that
come from others. -/
theorem forget {kept : List Start} (h : ns.Linked live) (hlive : ∀ s ∈ kept, live s)
    (hclosed : ∀ a ∈ kept, ∀ b ∈ (ns.draft a).succ, b ∈ kept) :
    (ns.forget kept).Linked (· ∈ kept) where
  succ_nodup ha := by
    rw [draft_forget]
    exact h.succ_nodup (hlive _ ha)
  pred_nodup hb := by
    rw [pred_forget hb]
    exact (h.pred_nodup (hlive _ hb)).filter _
  succ_live ha hb := hclosed _ ha _ (draft_forget ▸ hb)
  pred_live hb ha := by
    rw [pred_forget hb, List.mem_filter, List.contains_iff_mem] at ha
    exact ha.2
  mem_iff ha hb := by
    rw [draft_forget, pred_forget hb, List.mem_filter, List.contains_iff_mem, and_iff_left ha]
    exact h.mem_iff (hlive _ ha) (hlive _ hb)

/-- A node is dropped, and the ways that `added` names are noted at both ends.  Nothing else
changes, and no list names the node any more. -/
theorem rewire (h : ns.Linked live) (added : Start → Start → Prop)
    (hadded : ∀ {x y}, added x y → live x ∧ live y)
    (hmemSucc : ∀ {x y}, x ≠ d → y ≠ d →
      (y ∈ (ns'.draft x).succ ↔ y ∈ (ns.draft x).succ ∨ added x y))
    (hmemPred : ∀ {x y}, x ≠ d → y ≠ d → (x ∈ ns'.pred y ↔ x ∈ ns.pred y ∨ added x y))
    (hsucc : ∀ {x}, live x → x ≠ d → (ns'.draft x).succ.Nodup ∧ d ∉ (ns'.draft x).succ)
    (hpred : ∀ {y}, live y → y ≠ d → (ns'.pred y).Nodup ∧ d ∉ ns'.pred y) :
    ns'.Linked fun s => live s ∧ s ≠ d where
  succ_nodup hx := (hsucc hx.1 hx.2).1
  pred_nodup hy := (hpred hy.1 hy.2).1
  succ_live {x y} hx hy := by
    have hyd : y ≠ d := fun heq => (hsucc hx.1 hx.2).2 (heq ▸ hy)
    rcases (hmemSucc hx.2 hyd).1 hy with hold | hnew
    · exact ⟨h.succ_live hx.1 hold, hyd⟩
    · exact ⟨(hadded hnew).2, hyd⟩
  pred_live {x y} hy hx := by
    have hxd : x ≠ d := fun heq => (hpred hy.1 hy.2).2 (heq ▸ hx)
    rcases (hmemPred hxd hy.2).1 hx with hold | hnew
    · exact ⟨h.pred_live hy.1 hold, hxd⟩
    · exact ⟨(hadded hnew).1, hxd⟩
  mem_iff hx hy := by rw [hmemSucc hx.2 hy.2, hmemPred hx.2 hy.2, h.mem_iff hx.1 hy.1]

/-- A detour that is bypassed is gone from the lists of the nodes before and after it. -/
theorem bypass (h : ns.Linked live) (hprev : live prev) (hd : live d) (hnext : live next)
    (hne : prev ≠ d) (hdetour : ns.isDetour prev d next = true) :
    (ns.bypass prev d next).Linked fun s => live s ∧ s ≠ d := by
  obtain ⟨-, hpred, -, hsucc, hnextd⟩ := isDetour_iff.1 hdetour
  refine h.rewire (fun x y => x = prev ∧ y = next) ?_ (fun {x y} _ hy => ?_) (fun {x y} hx _ => ?_)
    (fun {x} hx _ => ?_) fun {y} hy _ => ?_
  · rintro x y ⟨rfl, rfl⟩
    exact ⟨hprev, hnext⟩
  · rw [draft_bypass]
    split
    · rename_i hx
      rw [hx, Draft.mem_succ_reroute hy, and_iff_right rfl]
    · rename_i hx
      simp [hx]
  · rw [pred_bypass]
    split
    · rename_i hy
      rw [Start.mem_addTo, List.mem_erase_of_ne hx, hy, and_iff_left rfl]
    · rename_i hy
      simp [hy]
  -- only `prev` leads to the detour
  · rw [draft_bypass]
    split
    · refine ⟨Start.nodup_addTo ((h.succ_nodup hprev).erase d), fun hmem => ?_⟩
      rcases Start.mem_addTo.1 hmem with herase | hnew
      · exact (h.succ_nodup hprev).not_mem_erase herase
      · exact hnextd hnew.symm
    · rename_i hxp
      refine ⟨h.succ_nodup hx, fun hmem => ?_⟩
      have hfrom := (h.mem_iff hx hd).1 hmem
      rw [hpred, List.mem_singleton] at hfrom
      exact hxp hfrom
  -- only `next` lists it
  · rw [pred_bypass]
    split
    · refine ⟨Start.nodup_addTo ((h.pred_nodup hnext).erase d), fun hmem => ?_⟩
      rcases Start.mem_addTo.1 hmem with herase | hnew
      · exact (h.pred_nodup hnext).not_mem_erase herase
      · exact hne hnew.symm
    · rename_i hyn
      refine ⟨h.pred_nodup hy, fun hmem => ?_⟩
      have hto := (h.mem_iff hd hy).2 hmem
      rw [hsucc, List.mem_singleton] at hto
      exact hyn hto

/-- The only node that leads to the second one of a chain is the first one. -/
theorem pred_of_isChain (h : ns.Linked live) (hd : live d) (he : live e)
    (hchain : ns.isChain d e = true) : ns.pred e = [d] := by
  obtain ⟨hsucc, -, -, hone⟩ := isChain_iff.1 hchain
  obtain ⟨x, hx⟩ := List.length_eq_one_iff.1 hone
  have hmem : d ∈ ns.pred e := (h.mem_iff hd he).1 (hsucc ▸ List.mem_singleton_self e)
  rw [hx, List.mem_singleton] at hmem
  rw [hx, hmem]

/-- When a chain is joined, every node that the second one led to lists the first one. -/
theorem merge (h : ns.Linked live) (hd : live d) (he : live e) (hchain : ns.isChain d e = true) :
    (ns.merge d e).Linked fun s => live s ∧ s ≠ e := by
  obtain ⟨hsucc, -, hne, -⟩ := isChain_iff.1 hchain
  have hpred := h.pred_of_isChain hd he hchain
  have hnodup := h.succ_nodup he
  have hfrom : ∀ {x}, live x → e ∈ (ns.draft x).succ → x = d := by
    intro x hx hmem
    have hlisted := (h.mem_iff hx he).1 hmem
    rwa [hpred, List.mem_singleton] at hlisted
  have hsuccOf : ∀ {x}, x ≠ e → ((ns.merge d e).draft x).succ =
      if x = d then (ns.draft e).succ else (ns.draft x).succ := by
    intro x hx
    rw [draft_merge hnodup hx]
    split <;> rfl
  refine h.rewire (fun x y => x = d ∧ y ∈ (ns.draft e).succ) ?_ (fun {x y} hx hy => ?_)
    (fun {x y} hx hy => ?_) (fun {x} hx hxe => ?_) fun {y} hy hye => ?_
  · rintro x y ⟨rfl, hy⟩
    exact ⟨hd, h.succ_live he hy⟩
  · rw [hsuccOf hx]
    split
    · rename_i hxd
      simp [hxd, hsucc, hy]
    · rename_i hxd
      simp [hxd]
  · rw [pred_merge hnodup hy]
    split
    · rename_i hmem
      rw [Start.mem_addTo, List.mem_erase_of_ne hx, and_iff_left hmem]
    · rename_i hmem
      simp [hmem]
  -- only `d` led to `e`
  · rw [hsuccOf hxe]
    split
    · exact ⟨hnodup, fun hmem => hne (hfrom he hmem)⟩
    · rename_i hxd
      exact ⟨h.succ_nodup hx, fun hmem => hxd (hfrom hx hmem)⟩
  -- what `e` led to does not list it any more
  · rw [pred_merge hnodup hye]
    split
    · refine ⟨Start.nodup_addTo ((h.pred_nodup hy).erase e), fun hmem => ?_⟩
      rcases Start.mem_addTo.1 hmem with herase | hnew
      · exact (h.pred_nodup hy).not_mem_erase herase
      · exact hne hnew
    · rename_i hnot
      exact ⟨h.pred_nodup hy, fun hmem => hnot ((h.mem_iff he hy).2 hmem)⟩

theorem elim {cur : Option Start} {f : Start → Nodes} (h : ns.Linked live)
    (hf : ∀ s, (f s).Linked live) : (cur.elim ns f).Linked live := by
  cases cur with
  | none => exact h
  | some s => exact hf s

end Linked

end Nodes

namespace Web

open Draft Nodes

/-- What is relied on while nodes are dropped and joined: the nodes in layout order are all
different, and their lists are inverse to each other. -/
structure Sound (w : Web) : Prop where
  nodup : w.order.Nodup
  linked : w.nodes.Linked (· ∈ w.order)

/-! ## The list of instructions -/

section Read

variable {w : Web} {code : List Instr} {i : Nat} {l : Location} {cur : Option Start}
  {live : Start → Prop}

/-- While the list is read, no way is listed at one end only. -/
theorem linked_scan (h : w.nodes.Linked fun _ => True) :
    (scan i l cur w code).nodes.Linked fun _ => True := by
  fun_induction scan i l cur w code with
  | case1 => exact h.elim h.finish
  | case2 _ _ cur w p _ _ _ next ns ih =>
    have hns : ns.Linked fun _ => True := h.elim fun _ => h.fallTo trivial trivial
    exact ih ((hns.push _ p).locate _ _)
  | case3 _ _ cur w p _ _ _ next ns ih =>
    have hns : ns.Linked fun _ => True :=
      h.elim fun s => ((h.push s p).link trivial trivial).fallTo trivial trivial
    exact ih (hns.locate _ _)
  | case4 _ _ cur w p _ _ _ ns ih => exact ih (h.elim fun s => (h.push s p).link trivial trivial)
  | case5 _ _ cur w p _ _ ns _ _ _ _ ih => exact ih (h.elim fun s => h.push s p)
  | case6 _ _ cur w p _ _ ns _ _ _ _ ih =>
    have hns : ns.Linked fun _ => True := h.elim fun s => h.push s p
    exact ih (hns.elim fun s => hns.locate s _)

theorem order_scan : (scan i l cur w code).order = w.order ++ startsFrom i code := by
  fun_induction scan i l cur w code with
  | case1 => simp [startsFrom]
  | case2 _ _ _ _ _ _ _ hop next _ ih => simp [ih, startsFrom, hop, next]
  | case3 _ _ _ _ _ _ _ hop next _ ih => simp [ih, startsFrom, hop, next]
  | case4 _ _ _ _ _ _ _ hop _ ih => simp [ih, startsFrom, hop]
  | case5 _ _ _ _ p _ _ _ _ htarget hbranch _ ih =>
    have ht : p.op ≠ .target := htarget
    have hb : p.op ≠ .branch := hbranch
    simp [ih, startsFrom, ht, hb]
  | case6 _ _ _ _ p _ _ _ _ htarget hbranch _ ih =>
    have ht : p.op ≠ .target := htarget
    have hb : p.op ≠ .branch := hbranch
    simp [ih, startsFrom, ht, hb]

/-- No node is made but those that begin in the list and those that it jumps to. -/
theorem within_scan (hin : w.nodes.Within live) (hcur : ∀ s ∈ cur, live s)
    (hstarts : ∀ s ∈ startsFrom i code, live s)
    (hjumps : ∀ p ∈ code, p.op.jumps = true → live (.label p.label)) :
    (scan i l cur w code).nodes.Within live := by
  fun_induction scan i l cur w code with
  | case1 _ _ cur w =>
    exact hin.elim fun s hs => hin.edit (hcur s hs) (start_node _ s)
  | case2 _ _ cur w p _ _ hop next ns ih =>
    rw [startsFrom, if_pos hop, List.singleton_append, List.forall_mem_cons] at hstarts
    have hnext : live next := hstarts.1
    have hns : ns.Within live := hin.elim fun s hs => hin.fallTo (hcur s hs) hnext
    refine ih ?_ (by simpa using hnext) hstarts.2 fun q hq => hjumps q (.tail _ hq)
    exact (hns.push hnext p).locate hnext _
  | case3 _ _ cur w p _ _ hop next ns ih =>
    rw [startsFrom, if_neg (by simp [hop]), if_pos hop, List.singleton_append,
      List.forall_mem_cons] at hstarts
    have hnext : live next := hstarts.1
    have hlabel : live (.label p.label) := hjumps p List.mem_cons_self (by rw [hop]; rfl)
    have hns : ns.Within live := hin.elim fun s hs =>
      ((hin.push (hcur s hs) p).link (hcur s hs) hlabel).fallTo (hcur s hs) hnext
    refine ih ?_ (by simpa using hnext) hstarts.2 fun q hq => hjumps q (.tail _ hq)
    exact hns.locate hnext _
  | case4 _ _ cur w p _ _ hop ns ih =>
    rw [startsFrom, if_neg (by simp [hop]), if_neg (by simp [hop]), List.nil_append] at hstarts
    have hlabel : live (.label p.label) := hjumps p List.mem_cons_self (by rw [hop]; rfl)
    have hns : ns.Within live := hin.elim fun s hs =>
      (hin.push (hcur s hs) p).link (hcur s hs) hlabel
    exact ih hns (by simp) hstarts fun q hq => hjumps q (.tail _ hq)
  | case5 _ _ cur w p _ _ ns _ htarget hbranch _ ih =>
    rw [startsFrom, if_neg htarget, if_neg hbranch, List.nil_append] at hstarts
    have hns : ns.Within live := hin.elim fun s hs => hin.push (hcur s hs) p
    exact ih hns (by simp) hstarts fun q hq => hjumps q (.tail _ hq)
  | case6 _ _ cur w p _ _ ns _ htarget hbranch _ ih =>
    rw [startsFrom, if_neg htarget, if_neg hbranch, List.nil_append] at hstarts
    have hns : ns.Within live := hin.elim fun s hs => hin.push (hcur s hs) p
    refine ih ?_ hcur hstarts fun q hq => hjumps q (.tail _ hq)
    exact hns.elim fun s hs => hns.locate (hcur s hs) _

theorem isWhole_iff :
    w.isWhole = true ↔ w.order.Nodup ∧ w.nodes.Within (· ∈ w.order) := by
  simp [isWhole, List.nodup_iff_count_eq_one, Within]

/-- Nothing is left hanging when the list has been read. -/
theorem sound_read (h : (read code).isWhole = true) : (read code).Sound := by
  obtain ⟨hnodup, hin⟩ := isWhole_iff.1 h
  have hblank : Nodes.Linked [] fun _ => True :=
    ⟨fun _ => .nil, fun _ => .nil, fun _ _ => trivial, fun _ _ => trivial,
      fun _ _ => by simp [draft, pred, node]⟩
  have hlinked : (read code).nodes.Linked fun _ => True := linked_scan (hblank.locate _ _)
  refine ⟨hnodup, fun _ => hlinked.succ_nodup trivial, fun _ => hlinked.pred_nodup trivial,
    fun _ hb => ?_, fun _ ha => ?_, fun _ _ => hlinked.mem_iff trivial trivial⟩
  · exact hin.of_mem_pred ((hlinked.mem_iff trivial trivial).1 hb)
  · exact hin.of_mem_succ ((hlinked.mem_iff trivial trivial).2 ha)

theorem order_read : (read code).order = .entry :: startsFrom 0 code := order_scan

/-- Every node is placed once if every label has one target. -/
theorem isWhole_read (h : Labelled code) : (read code).isWhole = true := by
  refine isWhole_iff.2 ⟨?_, ?_⟩
  · rw [order_read, ← starts_cut]
    exact (coherent_cut h).nodup
  · rw [order_read]
    refine within_scan ?_ (by simp) (fun s hs => .tail _ hs) fun p hp hjumps => ?_
    · simp [Within, Nodes.locate, Nodes.edit, node]
    · obtain ⟨i, hi⟩ := List.mem_iff_getElem?.1 hp
      obtain ⟨j, q, hq, hop, hl⟩ := h.defined hi hjumps
      exact .tail _ (mem_startsFrom.2 (.inl ⟨j, q, hq, hop, by rw [hl]⟩))

end Read

/-! ## Dropping and joining nodes -/

theorem mem_reached {w : Web} (h : w.order.Nodup) {s : Start} : s ∈ w.reached ↔
    Search.Leads (fun s => (w.nodes.draft s).succ) w.order (w.order.take 1) s :=
  Search.mem_visited h

theorem sublist_reached (w : Web) : w.reached.Sublist w.order := List.filter_sublist

theorem Sound.dropUnreached {w : Web} (h : w.Sound) : w.dropUnreached.Sound := by
  refine ⟨h.nodup.sublist (sublist_reached w),
    h.linked.forget (fun s hs => (sublist_reached w).subset hs) fun a ha b hb => ?_⟩
  have hlive := h.linked.succ_live ((sublist_reached w).subset ha) hb
  exact (mem_reached h.nodup).2 (((mem_reached h.nodup).1 ha).tail hb hlive)

section Contraction

variable {ns ns' : Nodes} {pre post rest : List Start} {d x y prev : Start} {w : Web}

/-- The nodes that are left when `y` goes. -/
theorem mem_contract_order {s : Start} (h : (pre ++ x :: y :: post).Nodup) :
    s ∈ pre ++ x :: post ↔ s ∈ pre ++ x :: y :: post ∧ s ≠ y := by
  rw [List.append_cons, List.nodup_middle, List.nodup_cons, List.append_assoc,
    List.singleton_append] at h
  constructor
  · intro hs
    refine ⟨?_, fun heq => h.1 (heq ▸ hs)⟩
    simp only [List.mem_append, List.mem_cons] at hs ⊢
    tauto
  · rintro ⟨hs, hne⟩
    simp only [List.mem_append, List.mem_cons] at hs ⊢
    tauto

/-- A step that takes `y` out of the lists of the others may take it out of the order. -/
theorem Sound.contract (h : Sound ⟨ns, pre ++ x :: y :: post⟩)
    (hlinked : ns'.Linked fun s => s ∈ pre ++ x :: y :: post ∧ s ≠ y) :
    Sound ⟨ns', pre ++ x :: post⟩ := by
  have hnodup : (pre ++ x :: y :: post).Nodup := h.nodup
  refine ⟨hnodup.sublist ?_, ?_⟩
  · exact (List.Sublist.refl pre).append ((List.sublist_cons_self y post).cons_cons x)
  · rwa [funext fun s => propext (mem_contract_order hnodup)]

theorem Sound.bypass {next : Start} (h : Sound ⟨ns, pre ++ x :: y :: next :: post⟩)
    (hdetour : ns.isDetour x y next = true) :
    Sound ⟨ns.bypass x y next, pre ++ x :: next :: post⟩ := by
  have hnodup := h.nodup.sublist (List.sublist_append_right _ _)
  have hne : x ≠ y := by
    rintro rfl
    exact (List.nodup_cons.1 hnodup).1 List.mem_cons_self
  exact h.contract (h.linked.bypass (by simp) (by simp) (by simp) hne hdetour)

theorem Sound.merge (h : Sound ⟨ns, pre ++ x :: y :: post⟩) (hchain : ns.isChain x y = true) :
    Sound ⟨ns.merge x y, pre ++ x :: post⟩ :=
  h.contract (h.linked.merge (by simp) (by simp) hchain)

theorem sound_elideAfter (done : List Start) (h : Sound ⟨ns, done.reverse ++ prev :: rest⟩) :
    (elideAfter ns done prev rest).Sound := by
  fun_induction elideAfter ns done prev rest with
  | case1 ns done prev d next rest hdetour ih => exact ih (h.bypass hdetour)
  | case2 ns done prev d next rest hdetour ih =>
    rw [List.reverse_cons, List.append_assoc, List.singleton_append] at ih
    exact ih h
  | case3 => exact h

theorem Sound.elideHops (h : w.Sound) : w.elideHops.Sound := by
  obtain ⟨ns, order⟩ := w
  cases order with
  | nil => exact h
  | cons d rest => exact sound_elideAfter [] h

theorem sound_mergeAfter (done : List Start) (h : Sound ⟨ns, done.reverse ++ d :: rest⟩) :
    (mergeAfter ns done d rest).Sound := by
  fun_induction mergeAfter ns done d rest with
  | case1 => exact h
  | case2 ns done d e rest hchain ih => exact ih (h.merge hchain)
  | case3 ns done d e rest hchain ih =>
    rw [List.reverse_cons, List.append_assoc, List.singleton_append] at ih
    exact ih h

theorem Sound.mergeChains (h : w.Sound) : w.mergeChains.Sound := by
  obtain ⟨ns, order⟩ := w
  cases order with
  | nil => exact h
  | cons d rest => exact sound_mergeAfter [] h

end Contraction

/-- Both lists of every node still fit when all steps are done. -/
theorem sound_cleaned {code : List Instr} (h : (read code).isWhole = true) :
    (read code).dropUnreached.elideHops.mergeChains.Sound :=
  (sound_read h).dropUnreached.elideHops.mergeChains

end Web

end StackFlow
