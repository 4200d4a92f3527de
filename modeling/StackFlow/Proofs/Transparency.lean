import StackFlow.Proofs.Padding
import StackFlow.Proofs.Totality

/-!
# Padding and the graph

What is computed from the blocks of a routine does not see padding.

* `Flow.effects_of_alike`: the ways to each junction still agree.  Only the bytes read from
  the operand cursor are compared there, and padding reads none.  The depth of the stack may
  change: where it is absolute and below zero, padding brings it up to zero.
* `Live.compute_of_alike` and `Dominance.compute_of_alike`: the live sets and the dominators
  are the same.
* `Graph.build_padded`: so a graph is built of the padded routine too, and it is the same but
  for the padding, unless padding stands between a target and the hop that the target only
  passes control on to.
-/

namespace StackFlow

/-! ## Effects -/

namespace Effect

variable {a b a' b' e : Effect}

theorem cursor_andThen (a b : Effect) : (a.andThen b).cursor = a.cursor + b.cursor := by
  unfold andThen
  simp only
  split
  · rfl
  · split <;> rfl

theorem cursor_of_merge (h : a.merge b = .ok e) : a.cursor = b.cursor ∧ e.cursor = a.cursor := by
  unfold merge at h
  by_cases hcursor : a.cursor = b.cursor
  · refine ⟨hcursor, ?_⟩
    rw [if_neg (by simpa using hcursor)] at h
    split at h
    · cases h; rfl
    · split at h
      · cases h; rfl
      · split at h
        · cases h; exact hcursor.symm
        · cases h; rfl
  · rw [if_pos hcursor] at h
    cases h

theorem exists_merge (h : a.cursor = b.cursor) : ∃ e, a.merge b = .ok e := by
  unfold merge
  rw [if_neg (by simpa using h)]
  split
  · exact ⟨_, rfl⟩
  · split
    · exact ⟨_, rfl⟩
    · split <;> exact ⟨_, rfl⟩

/-- Whether two effects can be merged is a matter of their cursors. -/
theorem merge_of_cursor_eq (ha : a'.cursor = a.cursor) (hb : b'.cursor = b.cursor)
    (h : a.merge b = .ok e) : ∃ e', a'.merge b' = .ok e' ∧ e'.cursor = e.cursor := by
  obtain ⟨hab, he⟩ := cursor_of_merge h
  obtain ⟨e', hmerge⟩ := exists_merge (a := a') (b := b') (by rw [ha, hb, hab])
  refine ⟨e', hmerge, ?_⟩
  rw [(cursor_of_merge hmerge).2, ha, he]

end Effect

namespace Flow

/-- The bytes read on the way to each junction that is known. -/
def bytesTo (known : Known) : Array (Option Int64) := known.map (·.map (·.cursor))

/-- The bytes read on the way to each junction. -/
def bytesAt (es : Array Effect) : Array Int64 := es.map (·.cursor)

theorem getD_bytesTo (known : Known) (k : Nat) :
    (bytesTo known).getD k none = (known.getD k none).map (·.cursor) := by
  simp only [bytesTo, Array.getD_eq_getD_getElem?, Array.getElem?_map]
  cases known[k]? <;> rfl

theorem getD_bytesAt (es : Array Effect) (k : Nat) :
    (bytesAt es).getD k 0 = (es.getD k .zero).cursor := by
  simp only [bytesAt, Array.getD_eq_getD_getElem?, Array.getElem?_map]
  cases es[k]? <;> rfl

section Alike

variable {layout layout' : Layout} (h : Layout.Alike layout layout') (js : Array Junction)

include h

theorem bytesTo_carry {known known' : Known} (hknown : bytesTo known' = bytesTo known) (i : Nat) :
    bytesTo (carry layout' js known' i) = bytesTo (carry layout js known i) := by
  unfold carry
  cases passage? js i with
  | none => exact hknown
  | some way =>
    obtain ⟨p, c⟩ := way
    have hp : (known'.getD p none).map (·.cursor) = (known.getD p none).map (·.cursor) := by
      rw [← getD_bytesTo, ← getD_bytesTo, hknown]
    have hc : (known'.getD c none).map (·.cursor) = (known.getD c none).map (·.cursor) := by
      rw [← getD_bytesTo, ← getD_bytesTo, hknown]
    simp only
    generalize known.getD p none = x, known'.getD p none = x' at hp
    generalize known.getD c none = y, known'.getD c none = y' at hc
    cases x with
    | none =>
      cases x' with
      | none => exact hknown
      | some e' => cases hp
    | some e =>
      cases x' with
      | none => cases hp
      | some e' =>
        have he : e'.cursor = e.cursor := Option.some_inj.1 hp
        cases y with
        | some f =>
          cases y' with
          | none => cases hc
          | some f' => exact hknown
        | none =>
          cases y' with
          | some f' => cases hc
          | none =>
            have hway : (e'.andThen (layout'.block i).facts.effect).cursor =
                (e.andThen (layout.block i).facts.effect).cursor := by
              rw [Effect.cursor_andThen, Effect.cursor_andThen, he, (h.block i).cursor]
            simp only [bytesTo, Array.map_setIfInBounds, Option.map_some, hway] at hknown ⊢
            rw [hknown]

theorem bytesTo_spread {known known' : Known} (hknown : bytesTo known' = bytesTo known) :
    bytesTo (spread layout' js known') = bytesTo (spread layout js known) := by
  unfold spread
  rw [h.indices]
  exact List.foldl_rel (r := fun known known' => bytesTo known' = bytesTo known) hknown
    fun i _ _ _ hknown => bytesTo_carry h js hknown i

theorem bytesAt_reach (entry : Nat) :
    bytesAt (reach layout' js entry) = bytesAt (reach layout js entry) := by
  have hrounds : ∀ (n : Nat) (known known' : Known), bytesTo known' = bytesTo known →
      bytesTo (Nat.repeat (spread layout' js) n known') =
        bytesTo (Nat.repeat (spread layout js) n known) := by
    intro n
    induction n with
    | zero => exact fun _ _ hknown => hknown
    | succ n ih => exact fun _ _ hknown => bytesTo_spread h js (ih _ _ hknown)
  have hzero : ∀ known : Known,
      bytesAt (known.map (·.getD .zero)) = (bytesTo known).map (·.getD 0) := by
    intro known
    simp only [bytesAt, bytesTo, Array.map_map]
    refine Array.map_congr_left fun x _ => ?_
    cases x <;> rfl
  rw [reach, reach, hzero, hzero]
  refine congrArg _ (hrounds _ _ _ ?_)
  simp only [bytesTo, Array.map_setIfInBounds, Option.map_some, (h.block 0).cursor]

theorem reconcile_of_alike {es es' : Array Effect} (hes : bytesAt es' = bytesAt es) {i : Nat}
    {r : Array Effect} (hr : reconcile layout js es i = .ok r) :
    ∃ r', reconcile layout' js es' i = .ok r' ∧ bytesAt r' = bytesAt r := by
  unfold reconcile at hr ⊢
  cases hway : passage? js i with
  | none =>
    rw [hway] at hr
    cases hr
    exact ⟨es', rfl, hes⟩
  | some way =>
    obtain ⟨p, c⟩ := way
    rw [hway] at hr
    simp only at hr ⊢
    have hat : ∀ k, (es'.getD k .zero).cursor = (es.getD k .zero).cursor := by
      intro k
      rw [← getD_bytesAt, ← getD_bytesAt, hes]
    split at hr
    case h_2 => cases hr
    case h_1 e hmerge =>
      cases hr
      have hthrough : ((es'.getD p .zero).andThen (layout'.block i).facts.effect).cursor =
          ((es.getD p .zero).andThen (layout.block i).facts.effect).cursor := by
        rw [Effect.cursor_andThen, Effect.cursor_andThen, hat, (h.block i).cursor]
      obtain ⟨e', hmerge', he⟩ := Effect.merge_of_cursor_eq (hat c) hthrough hmerge
      rw [hmerge']
      refine ⟨_, rfl, ?_⟩
      simp only [bytesAt, Array.map_setIfInBounds, he] at hes ⊢
      rw [hes]

theorem foldlM_reconcile_of_alike {is : List Nat} {es es' r : Array Effect}
    (hes : bytesAt es' = bytesAt es) (hr : is.foldlM (reconcile layout js) es = .ok r) :
    ∃ r', is.foldlM (reconcile layout' js) es' = .ok r' := by
  induction is generalizing es es' with
  | nil => exact ⟨es', rfl⟩
  | cons i is ih =>
    rw [List.foldlM_cons] at hr ⊢
    cases hi : reconcile layout js es i with
    | error e =>
      rw [hi] at hr
      cases hr
    | ok fs =>
      rw [hi] at hr
      obtain ⟨fs', hi', hfs⟩ := reconcile_of_alike h js hes hi
      rw [hi']
      exact ih hfs hr

/-- If all ways to each junction read the same bytes, they still do. -/
theorem effects_of_alike {r : Array Effect × Effect} (hr : effects layout js = .ok r) :
    ∃ r', effects layout' js = .ok r' := by
  unfold effects at hr ⊢
  cases hjs : js.isEmpty with
  | true => exact ⟨_, rfl⟩
  | false =>
    rw [hjs] at hr
    simp only [Bool.false_eq_true, if_false] at hr ⊢
    cases hentry : Junction.childOf? js 0 with
    | none =>
      rw [hentry] at hr
      cases hr
    | some entry =>
      rw [hentry] at hr
      cases hfold : layout.indices.foldlM (reconcile layout js) (reach layout js entry) with
      | error e =>
        simp only [hfold] at hr
        cases hr
      | ok es =>
        obtain ⟨es', hfold'⟩ := foldlM_reconcile_of_alike h js (bytesAt_reach h js entry) hfold
        simp only [h.indices, hfold', liftFlow, bind, Except.bind]
        cases Junction.parentOf? js (layout'.size - 1) with
        | none => exact ⟨_, rfl⟩
        | some p => exact ⟨_, rfl⟩

end Alike

end Flow

/-! ## Junctions, live temporaries and dominators -/

section Alike

variable {layout layout' : Layout} (h : Layout.Alike layout layout')

include h

theorem Junction.ofLayout_of_alike : ofLayout layout' = ofLayout layout := by
  simp only [ofLayout, Layout.edges, h.indices, h.succ]

theorem Live.compute_of_alike (o : Options) : compute o layout' = compute o layout := by
  have hgrow : grow layout' = grow layout := by
    funext live i
    simp only [grow, (h.block i).succ, (h.block i).uses, (h.block i).defs]
  have hvisit : visit layout' = visit layout := by
    funext s i
    rw [visit, hgrow, visit]
  have hround : round layout' = round layout := by
    funext live
    rw [round, hvisit, h.indices, round]
  rw [compute, compute, hround, h.size]

theorem Dominance.compute_of_alike (o : Options) : compute o layout' = compute o layout := by
  have hnarrow : narrow layout' = narrow layout := by
    funext sets i
    rw [narrow, h.pred, h.size, narrow]
  have hvisit : visit layout' = visit layout := by
    funext s i
    rw [visit, hnarrow, visit]
  have hround : round layout' = round layout := by
    funext sets
    rw [round, hvisit, h.indices, round]
  have htree : tree layout' = tree layout := by
    funext sets
    rw [tree, h.indices, h.size, tree]
  have hfrontier : frontierOf layout' = frontierOf layout := by
    funext sets t frontier n
    rw [frontierOf, h.succ, h.indices, frontierOf]
  have hfrontiers : frontiers layout' = frontiers layout := by
    funext sets t
    have hvisit : visitFrontier layout' = visitFrontier layout := by
      funext sets t frontier n
      rw [visitFrontier, hfrontier, visitFrontier]
    rw [frontiers, hvisit, h.size, frontiers]
  have hsets : ofSets layout' = ofSets layout := by
    funext sets
    rw [ofSets, htree, hfrontiers, ofSets]
  unfold compute
  rw [hround, hsets, h.size]

end Alike

namespace Graph

/-- Padding does not change the graph.  If a graph can be built of a routine, one can be built
of the routine with padding put in anywhere, and both have the same blocks, edges and live
temporaries and, but for debug information, the same instructions, as long as no jump of
the routine is threaded differently. -/
theorem build_padded {o : Options} {xs ys : List Instr} {g : Graph} (hbuild : build o xs = .ok g)
    (hpadded : Padded xs ys) (hsame : ∀ p ∈ xs,
      Threading.redirect (Threading.hops ys) p = Threading.redirect (Threading.hops xs) p) :
    ∃ g', build o ys = .ok g' ∧ g'.size = g.size ∧ ∀ b,
      (g'.block b).succ = (g.block b).succ ∧ (g'.block b).pred = (g.block b).pred ∧
      (g'.block b).exit = (g.block b).exit ∧
      g'.liveIn b = g.liveIn b ∧ g'.liveOut b = g.liveOut b ∧
      (g'.block b).code.filter (fun p => !p.isMeta) =
        (g.block b).code.filter (fun p => !p.isMeta) := by
  have hbuilt := built_of_build hbuild
  have hthread := hpadded.thread hsame
  have halike := Layout.alike_ofCode hthread hbuilt.checked
  rw [← hbuilt.layout] at halike
  -- each step of building succeeds again
  have hchecked : Scope.check o.platform.pointerSize (Threading.thread ys) = .ok () :=
    (Scope.check_of_padded hthread _).trans hbuilt.checked
  have hjunctions := Junction.ofLayout_of_alike halike
  obtain ⟨r, heffects⟩ := Flow.effects_of_alike halike _ hbuilt.effects
  rw [hbuilt.junctions, ← hjunctions] at heffects
  have hlive := (Live.compute_of_alike halike o).trans hbuilt.live
  have hdominance := (Dominance.compute_of_alike halike o).trans hbuilt.dominance
  obtain ⟨g', hbuild'⟩ :=
    build_of_initialized hchecked heffects hlive hbuilt.initialized hdominance
  have hbuilt' := built_of_build hbuild'
  -- and comes to the same
  rw [← hbuilt'.layout] at halike hlive
  have hsets : g'.live = g.live := (Prod.mk.inj (Except.ok.inj (hbuilt'.live.symm.trans hlive))).1
  refine ⟨g', hbuild', halike.size, fun b => ?_⟩
  have hblock := halike.block b
  have hlive : g'.live.getD b .none = g.live.getD b .none := by rw [hsets]
  exact ⟨hblock.succ, hblock.pred, hblock.exit, congrArg Live.liveIn hlive,
    congrArg Live.liveOut hlive, hblock.code.filter_eq⟩

/-- A loop around a load.  Its jump back goes through a target that only hops. -/
def loopRoutine : List Instr :=
  [.number 0, .tstore .reference 0, .target 0, .tload .reference 0, .branch 1 true, .ret .void,
    .target 1, .hop 0]

/-- The same loop with padding around every instruction but that hop. -/
def paddedLoopRoutine : List Instr :=
  [.ofOpcode .nop, .number 0, .texted .comment "first", .tstore .reference 0, .ofOpcode .nop,
    .target 0, .texted .comment "again", .tload .reference 0, .ofOpcode .nop, .branch 1 true,
    .ofOpcode .nop, .ret .void, .texted .comment "back", .target 1, .hop 0, .ofOpcode .nop]

/-- The padded loop has the three blocks of the loop, and the same temporary is live into the
second one. -/
theorem build_padded_loop : Padded loopRoutine paddedLoopRoutine ∧
    (∀ p ∈ loopRoutine, Threading.redirect (Threading.hops paddedLoopRoutine) p =
      Threading.redirect (Threading.hops loopRoutine) p) ∧
    ∃ g g', build (Defaults.options {}) loopRoutine = .ok g ∧
      build (Defaults.options {}) paddedLoopRoutine = .ok g' ∧ g.size = 3 ∧ g'.size = 3 ∧
      g.liveIn 1 = .ofList [0] ∧ g'.liveIn 1 = .ofList [0] ∧
      (g'.block 1).code.filter (fun p => !p.isMeta) =
        (g.block 1).code.filter (fun p => !p.isMeta) := by
  have haside : PaddedAside loopRoutine paddedLoopRoutine :=
    .pad .nop <| .keep _ nofun <| .pad (.comment _) <| .keep _ nofun <| .pad .nop <|
      .keep _ (fun _ => rfl) <| .pad (.comment _) <| .keep _ nofun <| .pad .nop <|
      .keep _ nofun <| .pad .nop <| .keep _ nofun <| .pad (.comment _) <|
      .keep _ (fun _ => rfl) <| .keep _ nofun <| .pad .nop .nil
  have hsame : ∀ p ∈ loopRoutine, Threading.redirect (Threading.hops paddedLoopRoutine) p =
      Threading.redirect (Threading.hops loopRoutine) p := fun p _ => haside.redirect_eq p
  have hloop : (build (Defaults.options {}) loopRoutine).toOption.any (fun g =>
      g.size = 3 ∧ g.liveIn 1 = .ofList [0]) = true := by cbv
  obtain ⟨g, hbuild, hg⟩ := exists_ok_of_any hloop
  obtain ⟨hsize, hlive⟩ := of_decide_eq_true hg
  obtain ⟨g', hbuild', hsize', hblocks⟩ := build_padded hbuild haside.padded hsame
  obtain ⟨_, _, _, hlive', _, hcode⟩ := hblocks 1
  exact ⟨haside.padded, hsame, g, g', hbuild, hbuild', hsize, hsize'.trans hsize, hlive,
    hlive'.trans hlive, hcode⟩

/-- Behind a target, padding hides the hop that the target only passes control on to: without
it the jumps are threaded and one block is left of the routine, with it there are three. -/
theorem size_of_hidden_hop :
    (∃ g, build (Defaults.options {}) [.hop 1, .target 2, .ret .void, .target 1, .hop 2] = .ok g ∧
      g.size = 1) ∧
    ∃ g, build (Defaults.options {})
      [.hop 1, .target 2, .ret .void, .target 1, .ofOpcode .nop, .hop 2] = .ok g ∧
      g.size = 3 := by
  have hthreaded : (build (Defaults.options {})
      [.hop 1, .target 2, .ret .void, .target 1, .hop 2]).toOption.any (·.size = 1) = true := by
    cbv
  have hhidden : (build (Defaults.options {})
      [.hop 1, .target 2, .ret .void, .target 1, .ofOpcode .nop, .hop 2]).toOption.any
      (·.size = 3) = true := by cbv
  obtain ⟨g, hbuild, hsize⟩ := exists_ok_of_any hthreaded
  obtain ⟨g', hbuild', hsize'⟩ := exists_ok_of_any hhidden
  exact ⟨⟨g, hbuild, of_decide_eq_true hsize⟩, g', hbuild', of_decide_eq_true hsize'⟩

end Graph

end StackFlow
