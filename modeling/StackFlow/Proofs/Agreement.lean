import StackFlow.Proofs.Paths
import StackFlow.Proofs.Transparency
import StackFlow.Proofs.Uninitialized

/-!
# Ways that read the same bytes

What is read from the operand cursor on the way to a block has to be known, whatever way
control takes.  `Flow.effects` decides that without looking at ways: each junction gets the
value of one way, and each block is looked at once.

* `Layout.cursorOver` is what is read on a way through the blocks.  `Layout.Offsets` gives every
  block one number that the edges account for, and `exists_offsets` says that this is the same
  as all ways to a block agreeing.
* `Junction.Level` carries the numbers over to the junctions.  Blocks of one junction may
  have no edge between them, but a chain of edges connects them (`level_addEdge`).
* `Flow.Agrees` is what `reconcile` checks of one block: `reconcile_cases` is the step and
  `foldlM_reconcile_cases` the run over all blocks.
* `carry_cases` says what one step of the spreading does; `exists_repeat_spread` says that
  all junctions are reached and `tells_carry` that no value but that of some way gets there.
* `Flow.joinInconsistency_iff` is the main result: the effects at the junctions are refused
  exactly if two ways to one block read different numbers of bytes.
-/

namespace StackFlow

open Relation

/-! ## Ways through the blocks -/

namespace Layout

/-- The bytes that block `i` reads from the operand cursor. -/
def cursor (layout : Layout) (i : Nat) : Int64 := (layout.block i).facts.effect.cursor

/-- The bytes that the blocks `bs` read, one after the other. -/
def cursorOver (layout : Layout) (bs : List Nat) : Int64 := (bs.map layout.cursor).sum

/-- `into b` has been read when control comes to block `b`, as far as the edges tell. -/
structure Offsets (layout : Layout) (into : Nat → Int64) : Prop where
  entry : into 0 = 0
  edge : ∀ i, ∀ j ∈ layout.succ i, into j = into i + layout.cursor i

variable {layout : Layout} {into : Nat → Int64} {bs : List Nat} {b i : Nat}

@[simp] theorem cursorOver_concat :
    layout.cursorOver (bs ++ [i]) = layout.cursorOver bs + layout.cursor i := by
  simp [cursorOver]

theorem Offsets.eq_cursorOver (h : layout.Offsets into) (hpath : layout.Path bs b) :
    into b = layout.cursorOver bs := by
  induction hpath with
  | entry => exact h.entry
  | step path way ih => rw [h.edge _ _ way, ih, cursorOver_concat]

/-- If all ways to each block read the same number of bytes, the edges account for it. -/
theorem exists_offsets (h : layout.WellFormed) (hagree : ∀ b bs bs', layout.Path bs b →
    layout.Path bs' b → layout.cursorOver bs = layout.cursorOver bs') :
    ∃ into, layout.Offsets into := by
  have hsome : ∀ b, ∃ v, ∀ bs, layout.Path bs b → layout.cursorOver bs = v := by
    intro b
    by_cases hpath : ∃ bs, layout.Path bs b
    · obtain ⟨bs, hbs⟩ := hpath
      exact ⟨layout.cursorOver bs, fun bs' hbs' => hagree b bs' bs hbs' hbs⟩
    · exact ⟨0, fun bs hbs => absurd ⟨bs, hbs⟩ hpath⟩
  choose into hinto using hsome
  refine ⟨into, (hinto 0 [] .entry).symm, ?_⟩
  intro i j hj
  obtain ⟨bs, hpath⟩ := h.exists_path (h.lt_of_mem_succ hj)
  rw [← hinto j _ (hpath.step hj), cursorOver_concat, hinto i bs hpath]

end Layout

/-! ## Numbers at the junctions -/

namespace Junction

/-- All blocks before the junction have one value of `out`, and all blocks behind it have the
same value of `into`. -/
def Level (out into : Nat → Int64) (j : Junction) : Prop :=
  ∃ v, (∀ x ∈ j.parents, out x = v) ∧ ∀ x ∈ j.children, into x = v

variable {layout : Layout} {out into : Nat → Int64} {js : List Junction} {p s b k : Nat}

/-- An edge between equal numbers only connects junctions that have this number. -/
theorem level_addEdge (hedge : out p = into s) (h : ∀ j ∈ js, Level out into j) :
    ∀ j ∈ addEdge js p s, Level out into j := by
  obtain ⟨touched, joined, rest, hadds⟩ := addEdge_spec js p s
  have htouched : ∀ j ∈ touched, (∀ x ∈ j.parents, out x = out p) ∧
      ∀ x ∈ j.children, into x = out p := by
    intro j hj
    obtain ⟨v, hparents, hchildren⟩ := h j (hadds.before.mem_iff.2 (List.mem_append_left _ hj))
    have hv : v = out p := by
      rcases hadds.touches j hj with hp | hs
      · exact (hparents p hp).symm
      · rw [hedge]
        exact (hchildren s hs).symm
    exact hv ▸ ⟨hparents, hchildren⟩
  intro j hj
  rcases List.mem_cons.1 (hadds.after.mem_iff.1 hj) with hjoined | hrest
  · subst hjoined
    refine ⟨out p, ?_, ?_⟩
    · intro x hx
      rcases (hadds.parents x).1 hx with hp | ⟨k, hk, hx⟩
      · rw [hp]
      · exact (htouched k hk).1 x hx
    · intro x hx
      rcases (hadds.children x).1 hx with hs | ⟨k, hk, hx⟩
      · rw [hs, hedge]
      · exact (htouched k hk).2 x hx
  · exact h j (hadds.before.mem_iff.2 (List.mem_append_right _ hrest))

theorem level_ofLayout (h : ∀ e ∈ layout.edges, out e.1 = into e.2) :
    ∀ j ∈ (ofLayout layout).toList, Level out into j := by
  show ∀ j ∈ layout.edges.foldl (fun js e => addEdge js e.1 e.2) [], Level out into j
  refine List.foldlRecOn (motive := fun js => ∀ j ∈ js, Level out into j) _ _ ?_ ?_
  · intro j hj
    cases hj
  · intro js hjs e he
    exact level_addEdge (h e he) hjs

/-- Numbers that fit along every edge are numbers of the junctions. -/
theorem exists_values (h : ∀ i, ∀ j ∈ layout.succ i, out i = into j) :
    ∃ at_ : Nat → Int64, ∀ b k, (childOf? (ofLayout layout) b = some k → out b = at_ k) ∧
      (parentOf? (ofLayout layout) b = some k → into b = at_ k) := by
  have hlevel : ∀ j ∈ (ofLayout layout).toList, Level out into j :=
    level_ofLayout fun e he => h _ _ (Layout.mem_edges.1 he).2
  have hsome : ∀ k, ∃ v, ∀ b, (childOf? (ofLayout layout) b = some k → out b = v) ∧
      (parentOf? (ofLayout layout) b = some k → into b = v) := by
    intro k
    by_cases hk : k < (ofLayout layout).size
    · obtain ⟨v, hparents, hchildren⟩ := hlevel (ofLayout layout)[k] (by simp)
      refine ⟨v, fun b => ⟨fun hb => ?_, fun hb => ?_⟩⟩
      · obtain ⟨_, hmem, _⟩ := Array.findIdx?_eq_some_iff_getElem.1 hb
        exact hparents b (List.contains_iff_mem.1 hmem)
      · obtain ⟨_, hmem, _⟩ := Array.findIdx?_eq_some_iff_getElem.1 hb
        exact hchildren b (List.contains_iff_mem.1 hmem)
    · refine ⟨0, fun b => ⟨fun hb => ?_, fun hb => ?_⟩⟩
      · exact absurd (childOf?_lt hb) hk
      · exact absurd (parentOf?_lt hb) hk
  choose at_ hat using hsome
  exact ⟨at_, fun b k => hat k b⟩

/-- Control does not come to the entry through a junction. -/
theorem parentOf?_entry (h : layout.WellFormed) : parentOf? (ofLayout layout) 0 = none := by
  cases hk : parentOf? (ofLayout layout) 0 with
  | none => rfl
  | some k =>
    obtain ⟨hlt, hmem, _⟩ := Array.findIdx?_eq_some_iff_getElem.1 hk
    obtain ⟨⟨p, s⟩, he, hs⟩ :=
      (groups_ofLayout layout).targets (ofLayout layout)[k] (by simp) 0
        (List.contains_iff_mem.1 hmem)
    have hpred := (h.mem_succ_iff_mem_pred p s).1 (Layout.mem_edges.1 he).2
    rw [show s = 0 from hs, h.pred_entry] at hpred
    cases hpred

theorem exists_junction_of_succ (h : layout.WellFormed) (hs : s ∈ layout.succ p) :
    ∃ k, childOf? (ofLayout layout) p = some k ∧ parentOf? (ofLayout layout) s = some k := by
  obtain ⟨k, _, hk⟩ := exists_junction (Layout.mem_edges.2 ⟨h.lt_of_mem_succ hs, hs⟩)
  exact ⟨k, hk⟩

/-- Control comes to every other block through a junction that it leaves some block through. -/
theorem exists_junction_before (h : layout.WellFormed) (hpos : 0 < b) (hb : b < layout.size) :
    ∃ i < layout.size, ∃ k, childOf? (ofLayout layout) i = some k ∧
      parentOf? (ofLayout layout) b = some k := by
  rcases (h.reachable b hb).cases_tail with hzero | ⟨i, _, way⟩
  · omega
  · exact ⟨i, h.lt_of_mem_succ way, exists_junction_of_succ h way⟩

end Junction

namespace Flow

variable {layout : Layout} {js : Array Junction}

theorem passage?_eq_some {i p c : Nat} : passage? js i = some (p, c) ↔
    Junction.parentOf? js i = some p ∧ Junction.childOf? js i = some c := by
  unfold passage?
  cases Junction.parentOf? js i with
  | none => simp
  | some p' =>
    cases Junction.childOf? js i with
    | none => simp
    | some c' => simp

/-! ## Checking the blocks -/

/-- The number of bytes read on the way to junction `k`. -/
def cursorAt (es : Array Effect) (k : Nat) : Int64 := (es.getD k .zero).cursor

/-- Between the junctions before and after block `i` lie the bytes that the block reads. -/
def Agrees (layout : Layout) (js : Array Junction) (at_ : Nat → Int64) (i : Nat) : Prop :=
  ∀ p c, passage? js i = some (p, c) → at_ c = at_ p + layout.cursor i

theorem cursorAt_setIfInBounds {es : Array Effect} {c : Nat} {e : Effect}
    (h : e.cursor = cursorAt es c) : cursorAt (es.setIfInBounds c e) = cursorAt es := by
  by_cases hc : c < es.size
  · funext k
    rw [cursorAt, Rounds.getD_setIfInBounds hc]
    by_cases hck : c = k
    · rw [if_pos hck, h, hck]
    · rw [if_neg hck]
      rfl
  · rw [Array.setIfInBounds_eq_of_size_le (by omega)]

/-- Checking a block keeps the number of bytes at every junction, and succeeds exactly if the
block agrees with it. -/
theorem reconcile_cases (layout : Layout) (js : Array Junction) (es : Array Effect) (i : Nat) :
    (∃ es', reconcile layout js es i = .ok es' ∧ Agrees layout js (cursorAt es) i ∧
        cursorAt es' = cursorAt es) ∨
      ∃ e, reconcile layout js es i = .error e ∧ e.kind = .joinInconsistency ∧
        ¬ Agrees layout js (cursorAt es) i := by
  unfold reconcile
  cases hway : passage? js i with
  | none => exact .inl ⟨es, rfl, by simp [Agrees, hway], rfl⟩
  | some way =>
    obtain ⟨p, c⟩ := way
    have hagrees : Agrees layout js (cursorAt es) i ↔ (es.getD c .zero).cursor =
        ((es.getD p .zero).andThen (layout.block i).facts.effect).cursor := by
      simp [Agrees, hway, cursorAt, Layout.cursor, Effect.cursor_andThen]
    simp only
    rw [hagrees]
    cases hmerge : (es.getD c .zero).merge
        ((es.getD p .zero).andThen (layout.block i).facts.effect) with
    | ok e =>
      obtain ⟨heq, he⟩ := Effect.cursor_of_merge hmerge
      exact .inl ⟨_, rfl, heq, cursorAt_setIfInBounds he⟩
    | error m =>
      refine .inr ⟨_, rfl, ?_, ?_⟩
      · rw [FlowError.kind, FlowError.fault_locate]
        rfl
      · intro heq
        obtain ⟨e, he⟩ := Effect.exists_merge heq
        rw [he] at hmerge
        cases hmerge

theorem foldlM_reconcile_cases (layout : Layout) (js : Array Junction) (es : Array Effect)
    (is : List Nat) :
    (∃ es', is.foldlM (reconcile layout js) es = .ok es' ∧
        (∀ i ∈ is, Agrees layout js (cursorAt es) i) ∧ cursorAt es' = cursorAt es) ∨
      ∃ e, is.foldlM (reconcile layout js) es = .error e ∧ e.kind = .joinInconsistency ∧
        ∃ i ∈ is, ¬ Agrees layout js (cursorAt es) i := by
  induction is generalizing es with
  | nil => exact .inl ⟨es, rfl, by simp, rfl⟩
  | cons i is ih =>
    rw [List.foldlM_cons]
    rcases reconcile_cases layout js es i with ⟨fs, hi, hagrees, hfs⟩ | ⟨e, hi, hkind, hnot⟩
    · rw [hi]
      rcases ih fs with ⟨es', hrest, hall, hes'⟩ | ⟨e, hrest, hkind, j, hj, hnot⟩
      · rw [hfs] at hall hes'
        exact .inl ⟨es', hrest, List.forall_mem_cons.2 ⟨hagrees, hall⟩, hes'⟩
      · rw [hfs] at hnot
        exact .inr ⟨e, hrest, hkind, j, List.mem_cons_of_mem _ hj, hnot⟩
    · rw [hi]
      exact .inr ⟨e, rfl, hkind, i, List.mem_cons_self, hnot⟩

/-! ## Reaching the junctions -/

section Spread

variable {known : Known} {at_ : Nat → Int64} {e : Effect} {i k p c n : Nat}

/-- One step either tells nothing new, or the effect at the junction after block `i` from the
one before it. -/
theorem carry_cases (layout : Layout) (js : Array Junction) (known : Known) (i : Nat) :
    (carry layout js known i = known ∧ ∀ p c e, passage? js i = some (p, c) →
        known.getD p none = some e → ∃ e', known.getD c none = some e') ∨
      ∃ p c e, passage? js i = some (p, c) ∧ known.getD p none = some e ∧
        known.getD c none = none ∧ carry layout js known i =
          known.setIfInBounds c (some (e.andThen (layout.block i).facts.effect)) := by
  unfold carry
  cases hway : passage? js i with
  | none => exact .inl ⟨rfl, by simp⟩
  | some way =>
    obtain ⟨p, c⟩ := way
    simp only
    cases hp : known.getD p none with
    | none =>
      refine .inl ⟨rfl, fun p' c' e hpc he => ?_⟩
      cases hpc
      rw [hp] at he
      cases he
    | some e =>
      cases hc : known.getD c none with
      | none => exact .inr ⟨p, c, e, rfl, hp, hc, rfl⟩
      | some e' =>
        refine .inl ⟨rfl, fun p' c' _ hpc _ => ?_⟩
        cases hpc
        exact ⟨e', hc⟩

theorem size_carry : (carry layout js known i).size = known.size := by
  rcases carry_cases layout js known i with ⟨h, _⟩ | ⟨p, c, e, _, _, _, h⟩
  · rw [h]
  · rw [h, Array.size_setIfInBounds]

/-- What is known stays as it is. -/
theorem getD_carry (h : known.getD k none = some e) :
    (carry layout js known i).getD k none = some e := by
  rcases carry_cases layout js known i with ⟨hcarry, _⟩ | ⟨p, c, e', _, _, hc, hcarry⟩
  · rw [hcarry, h]
  · have hck : c ≠ k := by
      intro hck
      rw [hck, h] at hc
      cases hc
    rw [hcarry, Array.getD_eq_getD_getElem?, Array.getElem?_setIfInBounds, if_neg hck,
      ← Array.getD_eq_getD_getElem?, h]

theorem exists_carry (hc : c < known.size) (hway : passage? js i = some (p, c))
    (hp : known.getD p none = some e) : ∃ e', (carry layout js known i).getD c none = some e' := by
  rcases carry_cases layout js known i with ⟨hcarry, hknown⟩ | ⟨p', c', e', hway', _, _, hcarry⟩
  · rw [hcarry]
    exact hknown p c e hway hp
  · rw [hway] at hway'
    cases hway'
    rw [hcarry, Rounds.getD_setIfInBounds hc, if_pos rfl]
    exact ⟨_, rfl⟩

/-- Every effect that is known has as many bytes as `at_` says. -/
def Tells (known : Known) (at_ : Nat → Int64) : Prop :=
  ∀ k e, known.getD k none = some e → e.cursor = at_ k

theorem Tells.setIfInBounds (h : Tells known at_) (he : e.cursor = at_ c) :
    Tells (known.setIfInBounds c (some e)) at_ := by
  by_cases hc : c < known.size
  · intro k f hf
    rw [Rounds.getD_setIfInBounds hc] at hf
    by_cases hck : c = k
    · rw [if_pos hck, Option.some_inj] at hf
      rw [← hf, he, hck]
    · rw [if_neg hck] at hf
      exact h k f hf
  · rwa [Array.setIfInBounds_eq_of_size_le (by omega)]

theorem tells_carry (hagrees : Agrees layout js at_ i) (h : Tells known at_) :
    Tells (carry layout js known i) at_ := by
  rcases carry_cases layout js known i with ⟨hcarry, _⟩ | ⟨p, c, e, hway, hp, _, hcarry⟩
  · rwa [hcarry]
  · rw [hcarry]
    apply h.setIfInBounds
    rw [Effect.cursor_andThen, h p e hp, hagrees p c hway]
    rfl

theorem size_foldl_carry (is : List Nat) :
    (is.foldl (carry layout js) known).size = known.size :=
  List.foldlRecOn (motive := fun after : Known => after.size = known.size) _ _ rfl
    fun _ h _ _ => size_carry.trans h

theorem getD_foldl_carry (h : known.getD k none = some e) (is : List Nat) :
    (is.foldl (carry layout js) known).getD k none = some e :=
  List.foldlRecOn (motive := fun after : Known => after.getD k none = some e) _ _ h
    fun _ h _ _ => getD_carry h

/-- What every step keeps is kept by any number of rounds. -/
theorem repeat_spread_induction {P : Known → Prop}
    (step : ∀ known, P known → ∀ i ∈ layout.indices, P (carry layout js known i))
    (h : P known) (n : Nat) : P (Nat.repeat (spread layout js) n known) := by
  induction n with
  | zero => exact h
  | succ n ih => exact List.foldlRecOn _ _ ih step

theorem size_repeat_spread (n : Nat) :
    (Nat.repeat (spread layout js) n known).size = known.size :=
  repeat_spread_induction (P := fun known' => known'.size = known.size)
    (fun _ h _ _ => size_carry.trans h) rfl n

theorem getD_repeat_spread (h : known.getD k none = some e) (n : Nat) :
    (Nat.repeat (spread layout js) n known).getD k none = some e :=
  repeat_spread_induction (P := fun known => known.getD k none = some e)
    (fun _ h _ _ => getD_carry h) h n

/-- A round carries what is known over every block. -/
theorem exists_spread (hi : i ∈ layout.indices) (hc : c < known.size)
    (hway : passage? js i = some (p, c)) (hp : known.getD p none = some e) :
    ∃ e', (spread layout js known).getD c none = some e' := by
  obtain ⟨xs, ys, hsplit⟩ := List.append_of_mem hi
  rw [spread, hsplit, List.foldl_append, List.foldl_cons]
  have hc' : c < (xs.foldl (carry layout js) known).size := by rwa [size_foldl_carry]
  obtain ⟨e', he'⟩ := exists_carry hc' hway (getD_foldl_carry hp xs)
  exact ⟨e', getD_foldl_carry he' ys⟩

/-- Control may go from junction `p` over a block to junction `c`. -/
def Passes (layout : Layout) (js : Array Junction) (c p : Nat) : Prop :=
  ∃ i ∈ layout.indices, passage? js i = some (p, c)

/-- After `n` rounds, what is fewer than `n + 1` blocks away from a known junction is known. -/
theorem exists_repeat_spread {entry : Nat} (hsize : known.size = js.size)
    (hentry : known.getD entry none = some e)
    (h : Rounds.Within (· = entry) (Passes layout js) (n + 1) k) :
    ∃ e', (Nat.repeat (spread layout js) n known).getD k none = some e' := by
  induction n generalizing k with
  | zero =>
    rcases h with hk | ⟨_, _, hnever⟩
    · exact ⟨e, hk ▸ hentry⟩
    · exact hnever.elim
  | succ n ih =>
    rcases h with hk | ⟨p, ⟨i, hi, hway⟩, hp⟩
    · exact ⟨e, hk ▸ getD_repeat_spread hentry _⟩
    · obtain ⟨f, hf⟩ := ih hp
      have hc : k < (Nat.repeat (spread layout js) n known).size := by
        rw [size_repeat_spread, hsize]
        exact Junction.childOf?_lt (passage?_eq_some.1 hway).2
      exact exists_spread hi hc hway hf

end Spread

section Reach

variable {at_ : Nat → Int64} {entry k n : Nat}

/-- What is known at first: the effect of the first block, at the junction after it. -/
def seed (layout : Layout) (js : Array Junction) (entry : Nat) : Known :=
  (Array.replicate js.size none).setIfInBounds entry (some (layout.block 0).facts.effect)

theorem getD_seed (hentry : entry < js.size) :
    (seed layout js entry).getD entry none = some (layout.block 0).facts.effect := by
  rw [seed, Rounds.getD_setIfInBounds (by simpa using hentry), if_pos rfl]

theorem tells_seed (hentry : at_ entry = layout.cursor 0) : Tells (seed layout js entry) at_ := by
  apply Tells.setIfInBounds _ hentry.symm
  intro k e he
  rw [Array.getD_eq_getD_getElem?, Array.getElem?_replicate] at he
  by_cases hk : k < js.size
  · rw [if_pos hk] at he
    cases he
  · rw [if_neg hk] at he
    cases he

theorem cursorAt_reach_eq : cursorAt (reach layout js entry) k =
    (((Nat.repeat (spread layout js) js.size (seed layout js entry)).getD k none).getD
      .zero).cursor := by
  rw [cursorAt, reach, seed]
  simp only [Array.getD_eq_getD_getElem?, Array.getElem?_map]
  cases (Nat.repeat (spread layout js) js.size
    ((Array.replicate js.size none).setIfInBounds entry
      (some (layout.block 0).facts.effect)))[k]? <;> rfl

theorem cursorAt_reach_entry (hentry : entry < js.size) :
    cursorAt (reach layout js entry) entry = layout.cursor 0 := by
  rw [cursorAt_reach_eq, getD_repeat_spread (getD_seed hentry)]
  rfl

/-- Where no block disagrees with `at_`, every junction that can be reached gets its value. -/
theorem cursorAt_reach (hentry : entry < js.size) (hseed : at_ entry = layout.cursor 0)
    (hagrees : ∀ i ∈ layout.indices, Agrees layout js at_ i)
    (hk : Rounds.Within (· = entry) (Passes layout js) n k) :
    cursorAt (reach layout js entry) k = at_ k := by
  have htells : Tells (Nat.repeat (spread layout js) js.size (seed layout js entry)) at_ :=
    repeat_spread_induction (P := fun known => Tells known at_)
      (fun _ h i hi => tells_carry (hagrees i hi) h) (tells_seed hseed) js.size
  have hwithin : Rounds.Within (· = entry) (Passes layout js) (js.size + 1) k := by
    refine (Rounds.within_size ?_ ?_ hk).mono (Nat.le_succ _)
    · intro i hi
      exact hi ▸ hentry
    · intro c p hpass
      obtain ⟨i, _, hway⟩ := hpass
      exact Junction.childOf?_lt (passage?_eq_some.1 hway).2
  obtain ⟨e, he⟩ := exists_repeat_spread (by simp [seed]) (getD_seed hentry) hwithin
  rw [cursorAt_reach_eq, he]
  exact htells k e he

end Reach

/-! ## The junctions of a layout -/

section OfLayout

variable {into at_ : Nat → Int64} {entry b k p c : Nat}

/-- Control can get from the entry to every junction that it leaves a block through. -/
theorem within_of_childOf? (hwf : layout.WellFormed)
    (hentry : Junction.childOf? (Junction.ofLayout layout) 0 = some entry) (hb : b < layout.size)
    (hk : Junction.childOf? (Junction.ofLayout layout) b = some k) :
    ∃ n, Rounds.Within (· = entry) (Passes layout (Junction.ofLayout layout)) n k := by
  have hreach := hwf.reachable b hb
  induction hreach generalizing k with
  | refl =>
    rw [hk, Option.some_inj] at hentry
    exact ⟨1, .inl hentry⟩
  | tail _ way ih =>
    rename_i i b _
    obtain ⟨p, hchild, hparent⟩ := Junction.exists_junction_of_succ hwf way
    obtain ⟨n, hn⟩ := ih (hwf.lt_of_mem_succ way) hchild
    exact ⟨n + 1, .inr ⟨p, ⟨b, List.mem_range.2 hb, passage?_eq_some.2 ⟨hparent, hk⟩⟩, hn⟩⟩

/-- The number at the junction before a block. -/
def numberBefore (js : Array Junction) (at_ : Nat → Int64) (b : Nat) : Int64 :=
  (Junction.parentOf? js b).elim 0 at_

/-- Where no block disagrees with the numbers at the junctions, the edges account for them. -/
theorem offsets_of_agrees (hwf : layout.WellFormed)
    (hentry : Junction.childOf? (Junction.ofLayout layout) 0 = some entry)
    (hseed : at_ entry = layout.cursor 0)
    (hagrees : ∀ i ∈ layout.indices, Agrees layout (Junction.ofLayout layout) at_ i) :
    layout.Offsets (numberBefore (Junction.ofLayout layout) at_) where
  entry := by
    rw [numberBefore, Junction.parentOf?_entry hwf]
    rfl
  edge i j hj := by
    obtain ⟨c, hchild, hparent⟩ := Junction.exists_junction_of_succ hwf hj
    have hi : i < layout.size := hwf.lt_of_mem_succ hj
    rw [numberBefore, hparent, Option.elim_some, numberBefore]
    rcases Nat.eq_zero_or_pos i with hzero | hpos
    · subst hzero
      rw [hchild, Option.some_inj] at hentry
      rw [Junction.parentOf?_entry hwf, Option.elim_none, Int64.zero_add, hentry, hseed]
    · obtain ⟨_, _, p, _, hp⟩ := Junction.exists_junction_before hwf hpos hi
      rw [hp, Option.elim_some]
      exact hagrees i (List.mem_range.2 hi) p c (passage?_eq_some.2 ⟨hp, hchild⟩)

/-- Where the edges account for all numbers, no block disagrees with what has been spread. -/
theorem agrees_of_offsets (hwf : layout.WellFormed)
    (hentry : Junction.childOf? (Junction.ofLayout layout) 0 = some entry)
    (h : layout.Offsets into) : ∀ i ∈ layout.indices,
      Agrees layout (Junction.ofLayout layout)
        (cursorAt (reach layout (Junction.ofLayout layout) entry)) i := by
  have hfits : ∀ i, ∀ j ∈ layout.succ i, into i + layout.cursor i = into j :=
    fun i j hj => (h.edge i j hj).symm
  obtain ⟨at_, hat⟩ := Junction.exists_values hfits
  have hseed : at_ entry = layout.cursor 0 := by
    rw [← (hat 0 entry).1 hentry, h.entry, Int64.zero_add]
  have hagrees : ∀ i ∈ layout.indices, Agrees layout (Junction.ofLayout layout) at_ i := by
    intro i _ p c hway
    obtain ⟨hp, hc⟩ := passage?_eq_some.1 hway
    rw [← (hat i c).1 hc, ← (hat i p).2 hp]
  have hreach : ∀ b k, b < layout.size →
      Junction.childOf? (Junction.ofLayout layout) b = some k →
      cursorAt (reach layout (Junction.ofLayout layout) entry) k = at_ k := by
    intro b k hb hk
    obtain ⟨n, hn⟩ := within_of_childOf? hwf hentry hb hk
    exact cursorAt_reach (Junction.childOf?_lt hentry) hseed hagrees hn
  intro i hi p c hway
  obtain ⟨hp, hc⟩ := passage?_eq_some.1 hway
  have hlt : i < layout.size := List.mem_range.1 hi
  have hpos : 0 < i := by
    refine Nat.pos_of_ne_zero fun hzero => ?_
    rw [hzero, Junction.parentOf?_entry hwf] at hp
    cases hp
  obtain ⟨x, hx, k, hxk, hik⟩ := Junction.exists_junction_before hwf hpos hlt
  obtain rfl : p = k := Option.some_inj.1 (hp.symm.trans hik)
  rw [hreach i c hlt hc, hreach x p hx hxk]
  exact hagrees i hi p c hway

/-- The effect of the whole routine, once the effects at the junctions are known. -/
def atEnd (layout : Layout) (js : Array Junction) (es : Array Effect) : Effect :=
  let own := (layout.block (layout.size - 1)).facts.effect
  (Junction.parentOf? js (layout.size - 1)).elim own fun p => (es.getD p .zero).andThen own

theorem effects_of_isEmpty (hjs : js.isEmpty = true) :
    effects layout js = .ok (#[], (layout.block 0).facts.effect) := by
  rw [effects, if_pos hjs]

theorem effects_of_foldlM (hjs : js.isEmpty = false)
    (hentry : Junction.childOf? js 0 = some entry) {es : Array Effect}
    (h : layout.indices.foldlM (reconcile layout js) (reach layout js entry) = .ok es) :
    effects layout js = .ok (es, atEnd layout js es) := by
  rw [effects, if_neg (Bool.eq_false_iff.1 hjs), hentry]
  simp only [h, liftFlow, bind, Except.bind, atEnd]
  cases Junction.parentOf? js (layout.size - 1) <;> rfl

theorem effects_of_foldlM_error (hjs : js.isEmpty = false)
    (hentry : Junction.childOf? js 0 = some entry) {e : FlowError}
    (h : layout.indices.foldlM (reconcile layout js) (reach layout js entry) = .error e) :
    effects layout js = .error (.flow e) := by
  rw [effects, if_neg (Bool.eq_false_iff.1 hjs), hentry]
  simp only [h, liftFlow, bind, Except.bind]

/-- The effects `es` at the junctions and the effect `e` of the routine have as many bytes as
`into` says that have been read before each block. -/
structure Balanced (layout : Layout) (into : Nat → Int64) (es : Array Effect) (e : Effect) :
    Prop where
  offsets : layout.Offsets into
  at_junction : ∀ b k, Junction.parentOf? (Junction.ofLayout layout) b = some k →
    (es.getD k .zero).cursor = into b
  at_end : e.cursor = into (layout.size - 1) + layout.cursor (layout.size - 1)

theorem balanced_of_isEmpty (hwf : layout.WellFormed)
    (hjs : (Junction.ofLayout layout).isEmpty = true) :
    Balanced layout (fun _ => 0) #[] (layout.block 0).facts.effect := by
  have hsize : (Junction.ofLayout layout).size = 0 := by simpa using hjs
  constructor
  case offsets =>
    refine ⟨rfl, fun i j hj => ?_⟩
    obtain ⟨k, hchild, _⟩ := Junction.exists_junction_of_succ hwf hj
    have hlt := Junction.childOf?_lt hchild
    omega
  case at_junction =>
    intro b k hk
    have hlt := Junction.parentOf?_lt hk
    omega
  case at_end =>
    have hlast : layout.size - 1 = 0 := by
      by_contra hne
      obtain ⟨_, _, k, _, hk⟩ :=
        Junction.exists_junction_before hwf (b := layout.size - 1) (by omega) (by omega)
      have hlt := Junction.parentOf?_lt hk
      omega
    rw [hlast, Int64.zero_add]
    rfl

theorem balanced_of_foldlM (hwf : layout.WellFormed)
    (hentry : Junction.childOf? (Junction.ofLayout layout) 0 = some entry) {es : Array Effect}
    (hes : cursorAt es = cursorAt (reach layout (Junction.ofLayout layout) entry))
    (hagrees : ∀ i ∈ layout.indices, Agrees layout (Junction.ofLayout layout)
      (cursorAt (reach layout (Junction.ofLayout layout) entry)) i) :
    Balanced layout (numberBefore (Junction.ofLayout layout) (cursorAt es)) es
      (atEnd layout (Junction.ofLayout layout) es) := by
  have hseed : cursorAt es entry = layout.cursor 0 := by
    rw [hes]
    exact cursorAt_reach_entry (Junction.childOf?_lt hentry)
  rw [← hes] at hagrees
  constructor
  case offsets => exact offsets_of_agrees hwf hentry hseed hagrees
  case at_junction =>
    intro b k hk
    rw [numberBefore, hk]
    rfl
  case at_end =>
    rw [atEnd, numberBefore]
    cases Junction.parentOf? (Junction.ofLayout layout) (layout.size - 1) with
    | none => exact (Int64.zero_add _).symm
    | some p => exact Effect.cursor_andThen _ _

/-- The effects at the junctions are known exactly if some numbers fit along the edges. -/
theorem effects_spec (hwf : layout.WellFormed) :
    (∃ es e into, effects layout (Junction.ofLayout layout) = .ok (es, e) ∧
        Balanced layout into es e) ∨
      ∃ e, effects layout (Junction.ofLayout layout) = .error (.flow e) ∧
        e.kind = .joinInconsistency ∧ ∀ into, ¬ layout.Offsets into := by
  cases hjs : (Junction.ofLayout layout).isEmpty with
  | true => exact .inl ⟨_, _, _, effects_of_isEmpty hjs, balanced_of_isEmpty hwf hjs⟩
  | false =>
    obtain ⟨entry, _, hentry⟩ := Junction.exists_childOf?_entry hwf hjs
    rcases foldlM_reconcile_cases layout (Junction.ofLayout layout)
        (reach layout (Junction.ofLayout layout) entry) layout.indices with
      ⟨es, hfold, hagrees, hes⟩ | ⟨e, hfold, hkind, i, hi, hnot⟩
    · exact .inl ⟨es, _, _, effects_of_foldlM hjs hentry hfold,
        balanced_of_foldlM hwf hentry hes hagrees⟩
    · refine .inr ⟨e, effects_of_foldlM_error hjs hentry hfold, hkind, ?_⟩
      intro into hinto
      exact hnot (agrees_of_offsets hwf hentry hinto i hi)

end OfLayout

/-! ## The main result -/

/-- The effects at the junctions of a routine are refused exactly if two ways through its
blocks come to the same block and have read different numbers of bytes.  Otherwise the effect
at the junction before a block has the number of bytes of every way there. -/
theorem joinInconsistency_iff {ptr : Int64} {code : List Instr}
    (hcheck : Scope.check ptr code = .ok ()) :
    ((∃ e, effects (Layout.ofCode code) (Junction.ofLayout (Layout.ofCode code)) =
          .error (.flow e) ∧ e.kind = .joinInconsistency) ↔
        ∃ b bs bs', (Layout.ofCode code).Path bs b ∧ (Layout.ofCode code).Path bs' b ∧
          (Layout.ofCode code).cursorOver bs ≠ (Layout.ofCode code).cursorOver bs') ∧
      ∀ es e, effects (Layout.ofCode code) (Junction.ofLayout (Layout.ofCode code)) =
          .ok (es, e) →
        ∀ b, 0 < b → b < (Layout.ofCode code).size →
          ∃ k, Junction.parentOf? (Junction.ofLayout (Layout.ofCode code)) b = some k ∧
            ∀ bs, (Layout.ofCode code).Path bs b →
              (es.getD k .zero).cursor = (Layout.ofCode code).cursorOver bs := by
  have hwf := Layout.wellFormed_ofCode (Scope.labelled_of_check hcheck)
  rcases effects_spec hwf with ⟨es, e, into, hok, hbalanced⟩ | ⟨e, herror, hkind, hnone⟩
  · constructor
    · apply iff_of_false
      · intro hrefused
        obtain ⟨e', herror, _⟩ := hrefused
        rw [hok] at herror
        cases herror
      · intro hways
        obtain ⟨b, bs, bs', hbs, hbs', hne⟩ := hways
        apply hne
        rw [← hbalanced.offsets.eq_cursorOver hbs, ← hbalanced.offsets.eq_cursorOver hbs']
    · intro es' e' hok' b hpos hb
      rw [hok] at hok'
      cases hok'
      obtain ⟨_, _, k, _, hk⟩ := Junction.exists_junction_before hwf hpos hb
      refine ⟨k, hk, fun bs hbs => ?_⟩
      rw [hbalanced.at_junction b k hk, hbalanced.offsets.eq_cursorOver hbs]
  · constructor
    · apply iff_of_true ⟨e, herror, hkind⟩
      by_contra hways
      obtain ⟨into, hinto⟩ := Layout.exists_offsets hwf fun b bs bs' hbs hbs' => by
        by_contra hne
        exact hways ⟨b, bs, bs', hbs, hbs', hne⟩
      exact hnone into hinto
    · intro es' e' hok
      rw [herror] at hok
      cases hok

/-- A loop that reads a byte each time. -/
def readingLoop : List Instr :=
  [.number 1, .target 0, .fetch 1, .branch 0 true, .ret .void]

/-- Two ways that read two bytes each. -/
def readingBranches : List Instr :=
  [.number 1, .branch 1 true, .fetch 2, .hop 2, .target 1, .fetch 2, .target 2, .ret .int32]

/-- The loop is refused, since each time round adds a byte.  The branches are not, and two
bytes have been read where they meet. -/
theorem joinInconsistency_iff_reading :
    (∃ e, effects (Layout.ofCode readingLoop) (Junction.ofLayout (Layout.ofCode readingLoop)) =
        .error (.flow e) ∧ e.kind = .joinInconsistency) ∧
      ∃ es e, effects (Layout.ofCode readingBranches)
          (Junction.ofLayout (Layout.ofCode readingBranches)) = .ok (es, e) ∧
        ∃ k, Junction.parentOf? (Junction.ofLayout (Layout.ofCode readingBranches)) 3 = some k ∧
          (es.getD k .zero).cursor = 2 := by
  have hloop : Scope.check 8 readingLoop = .ok () := by cbv
  have hbranches : Scope.check 8 readingBranches = .ok () := by cbv
  constructor
  · have hfirst : (Layout.ofCode readingLoop).succ 0 = [1] := by cbv
    have hagain : (Layout.ofCode readingLoop).succ 1 = [1, 2] := by cbv
    have honce : (Layout.ofCode readingLoop).Path [0] 1 := .step .entry (by simp [hfirst])
    have htwice : (Layout.ofCode readingLoop).Path [0, 1] 1 := .step honce (by simp [hagain])
    have hzero : (Layout.ofCode readingLoop).cursorOver [0] = 0 := by cbv
    have hone : (Layout.ofCode readingLoop).cursorOver [0, 1] = 1 := by cbv
    apply (joinInconsistency_iff hloop).1.2
    refine ⟨1, [0], [0, 1], honce, htwice, ?_⟩
    rw [hzero, hone]
    decide
  · have hsize : 3 < (Layout.ofCode readingBranches).size := by
      rw [show (Layout.ofCode readingBranches).size = 4 by cbv]
      decide
    have hfirst : (Layout.ofCode readingBranches).succ 0 = [1, 2] := by cbv
    have hsecond : (Layout.ofCode readingBranches).succ 1 = [3] := by cbv
    have hpath : (Layout.ofCode readingBranches).Path [0, 1] 3 :=
      .step (.step .entry (by simp [hfirst])) (by simp [hsecond])
    have htwo : (Layout.ofCode readingBranches).cursorOver [0, 1] = 2 := by cbv
    obtain ⟨⟨es, e⟩, hok, _⟩ := exists_ok_of_any
      (x := effects (Layout.ofCode readingBranches)
        (Junction.ofLayout (Layout.ofCode readingBranches))) (P := fun _ => true) (by cbv)
    obtain ⟨k, hk, hways⟩ := (joinInconsistency_iff hbranches).2 es e hok 3 (by decide) hsize
    exact ⟨es, e, hok, k, hk, (hways _ hpath).trans htwo⟩

end Flow

end StackFlow
