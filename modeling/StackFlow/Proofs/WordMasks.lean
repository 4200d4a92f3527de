import StackFlow.Proofs.Optimize

/-!
# The words that the coverage pass waits for

* `Context.run_follow` and `Context.run_cover` say which words are still to be written after the
  pass has found a new object, and after a store into one.
* `Graph.accounts_coverRoots` says that the pass exchanges an allocation only after it has met
  stores to all of these words, and `Graph.WrittenBy` what it has met.
-/

namespace StackFlow

open Forest

/-! ## What the pass finds in one root -/

namespace Context

/-- The root stores a new object of class `k`, which the instruction at `i` clears and allocates
with a constant size. -/
structure Creates (c : Context) (code : List Instr) (r : Root) (k : Int64) (i : Nat)
    (size : Int64) : Prop where
  class_eq : c.allocatedClass? code r.tree = some k
  allocated : ∃ t, r.tree.operand? 0 = some t ∧ t.index = i ∧
    (code[i]?).any c.variants.isAllocate = true ∧ offset? code (t.operand? 0) = some size

/-- The root is the field store `p` into an object of class `k`, at a constant offset. -/
structure StoresField (c : Context) (code : List Instr) (r : Root) (p : Instr)
    (k offset : Int64) : Prop where
  instr : code[r.tree.index]? = some p
  stores : c.variants.isFieldStore p = true
  class_eq : c.loadedClass? code (r.tree.operand? 1) = some k
  offset_eq : offset? code (r.tree.operand? 2) = some offset

/-- The root writes all of word `w` of an object of class `k`. -/
def WritesAll (c : Context) (code : List Instr) (ptr : Int64) (r : Root) (k : Int64) (w : Nat) :
    Prop :=
  ∃ p offset size, c.StoresField code r p k offset ∧ p.ty.size? ptr = some size ∧
    Overwrites ptr offset size w

variable {c : Context} {code : List Instr} {b i : Nat} {r : Root} {p : Instr}
  {k size offset : Int64} {f : Followed} {s : Progress}

theorem offset?_nonneg {t : Option Tree} {n : Int64} (h : offset? code t = some n) :
    0 ≤ n.toInt := by
  obtain ⟨_, _, _, _, _, _, hnonneg⟩ := offset?_eq_some h
  exact hnonneg

/-- A new object of more than 64 words is passed over, and all words of a smaller one are still to
be written.  If their number wraps around, these are the first 64 words. -/
theorem run_follow (hptr : isPointerSize s.graph.pointerSize = true)
    (h : c.Creates code r k i size) :
    ∃ bits, (∀ w, HasWord bits w ↔ w < wordCount s.graph.pointerSize size ∧ w < 64) ∧
      (c.follow b code r f).run s =
        if 64 < wordCount s.graph.pointerSize size ∧ FitsInWords s.graph.pointerSize size then
          (.ok f, s)
        else (c.settle b k ⟨i, bits⟩ f).run s := by
  obtain ⟨t, ht, rfl, hclears, hsize⟩ := h.allocated
  obtain ⟨words, hmask, hwords⟩ := exists_wordsOf hptr (offset?_nonneg hsize)
  refine ⟨lowBits words, hmask, ?_⟩
  unfold follow
  simp only [h.class_eq, ht, hclears, hsize, Bool.not_true, Bool.false_eq_true, if_false]
  rw [Elision.run_get_bind, hwords]
  by_cases hlarge : 64 < wordCount s.graph.pointerSize size ∧ FitsInWords s.graph.pointerSize size
  · rw [if_pos hlarge, if_pos hlarge]
    rfl
  · rw [if_neg hlarge, if_neg hlarge]

/-- After a field store, the words that it does not write all of are still to be written. -/
theorem run_cover (hptr : isPointerSize s.graph.pointerSize = true)
    (h : c.StoresField code r p k offset) (hsize : p.ty.size? s.graph.pointerSize = some size)
    {a : Pending} (ha : f.lookup k = some a) :
    ∃ bits, (∀ w, HasWord bits w ↔
        HasWord a.bits w ∧ ¬ Overwrites s.graph.pointerSize offset size w) ∧
      ((c.cover b code r p f).run s = (c.settle b k { a with bits } f).run s ∨
        bits = a.bits ∧ (c.cover b code r p f).run s = (.ok f, s)) := by
  obtain ⟨bits, hbits, hiff⟩ := exists_writtenBits hptr (offset?_nonneg h.offset_eq) hsize
  refine ⟨a.bits &&& ~~~bits, fun w => ?_, ?_⟩
  · rw [HasWord.clear_iff, hiff]
    exact and_congr_right fun hw => not_congr (and_iff_right hw.lt)
  · unfold cover
    simp only [h.class_eq, ha, h.offset_eq]
    rw [Elision.run_get_bind, hbits]
    by_cases hzero : bits = 0
    · subst hzero
      exact .inr ⟨by simp, rfl⟩
    · left
      split
      · rename_i heq
        cases heq
      · rename_i heq
        cases heq
        exact absurd rfl hzero
      · rename_i heq
        cases heq
        rfl

/-- A word is written by a store at a constant that stands in the code, close to the word. -/
theorem WritesAll.exists_constant {ptr : Int64} {w : Nat} (hptr : isPointerSize ptr = true)
    (h : c.WritesAll code ptr r k w) : ∃ q ∈ code, q.op = .number ∧
      q.value.toInt % ptr.toInt = 0 ∧ q.value.toInt ≤ w * ptr.toInt ∧
        (w + 1) * ptr.toInt ≤ q.value.toInt + 8 := by
  obtain ⟨p, offset, size, hstores, hsize, hover⟩ := h
  obtain ⟨u, q, _, hq, hnumber, rfl, _⟩ := offset?_eq_some hstores.offset_eq
  have hsmall := (size_bounds hptr hsize).2
  exact ⟨q, List.mem_of_getElem? hq, hnumber, hover.aligned, hover.first,
    Int.le_trans hover.last (Int.add_le_add_left hsmall _)⟩

end Context

/-! ## What the pass has met when it exchanges an allocation -/

section Pass

variable {g : Graph} {b i w : Nat} {rs post : List Root} {r : Root} {k : Int64} {s s' : Progress}
  {f : Context.Followed} {need : Int64 → Nat → Prop}

/-- One of the roots `rs` stores the new object that the instruction at `i` allocates, and of the
words of the object, those which `need` asks for are written by later ones. -/
def Graph.WrittenBy (g : Graph) (b : Nat) (rs : List Root) (i : Nat)
    (need : Int64 → Nat → Prop) : Prop :=
  ∃ r₀ ∈ rs, ∃ k size, g.context.Creates (g.block b).code r₀ k i size ∧
    ∀ w < wordCount g.pointerSize size, need size w → ∃ r ∈ rs, r₀.tree.index < r.tree.index ∧
      g.context.WritesAll (g.block b).code g.pointerSize r k w

theorem Graph.WrittenBy.append (h : g.WrittenBy b rs i need) (rs' : List Root) :
    g.WrittenBy b (rs ++ rs') i need := by
  obtain ⟨r₀, hr₀, k, size, hcreates, hwords⟩ := h
  refine ⟨r₀, List.mem_append_left _ hr₀, k, size, hcreates, fun w hw hneed => ?_⟩
  obtain ⟨r, hr, hlater⟩ := hwords w hw hneed
  exact ⟨r, List.mem_append_left _ hr, hlater⟩

theorem WritesWord.writesAll (hptr : isPointerSize g.pointerSize = true)
    (h : WritesWord g b k w r) :
    g.context.WritesAll (g.block b).code g.pointerSize r k w := by
  obtain ⟨p, offset, bits, hp, hstores, hclass, hoffset, hbits, hw⟩ := h
  obtain ⟨size, hsize, hover⟩ :=
    overwrites_of_hasWord hptr (Context.offset?_nonneg hoffset) hbits hw
  exact ⟨p, offset, size, ⟨hp, (isFieldStore_standard p).trans hstores, hclass, hoffset⟩, hsize,
    hover⟩

/-- When no bit of an object is left, its words have been written. -/
theorem Follows.writtenBy (hptr : isPointerSize g.pointerSize = true)
    (h : Follows g b rs k ⟨i, 0⟩) :
    g.WrittenBy b rs i fun size w => w < 64 ∨ FitsInWords g.pointerSize size := by
  obtain ⟨r₀, t, p, size, words, hr₀, halloc, ht, hindex, hp, hop, hsize, hwords, _,
    hwritten⟩ := h
  have hindex : t.index = i := hindex
  have hclears : ((g.block b).code[i]?).any g.context.variants.isAllocate = true := by
    rw [← hindex, hp]
    exact decide_eq_true hop
  refine ⟨r₀, hr₀, k, size, ⟨halloc, t, ht, hindex, hclears, hsize⟩, fun w hw hneed => ?_⟩
  have hbit := hasWord_of_wordsOf hptr (Context.offset?_nonneg hsize) hwords
    ((lt_wordCount_iff hptr).1 hw) hneed
  obtain ⟨r, hr, hlater, hwrites⟩ := hwritten w hbit HasWord.not_zero
  exact ⟨r, hr, hlater, hwrites.writesAll hptr⟩

/-- While the pass goes through a block, it exchanges only allocations whose objects have been
written by the roots that it has met. -/
theorem Graph.accounts_coverRoots {J : Reason → Nat → Nat → Prop}
    (hptr : isPointerSize g.pointerSize = true)
    (hroots : (g.context.forest b).roots = rs ++ post) (haccounts : s.Accounts g J)
    (hyields : Elision.Yields (rs.foldlM (g.context.coverRoot b) []) s f s') :
    s'.Accounts g fun reason b' i => J reason b' i ∨ reason = .initCovered ∧ b' = b ∧
      g.WrittenBy b rs i fun size w => w < 64 ∨ FitsInWords g.pointerSize size := by
  refine (Elision.foldlM_induct (P := fun rs f s => s.Accounts g (fun reason b' i =>
    J reason b' i ∨ reason = .initCovered ∧ b' = b ∧
      g.WrittenBy b rs i fun size w => w < 64 ∨ FitsInWords g.pointerSize size) ∧
    FollowsAll g b rs f) ⟨haccounts.mono fun _ _ _ => .inl, by simp [FollowsAll]⟩ ?_ hyields).1
  intro pre r rest f f' s s' hrs ⟨haccounts, hf⟩ hyields
  rw [hrs, List.append_assoc, List.cons_append] at hroots
  refine accounts_coverRoot (fun k m hfollows => .inr ⟨rfl, rfl, hfollows.writtenBy hptr⟩) hroots
    (haccounts.mono fun _ _ _ => Or.imp_right fun ⟨hreason, hb, hwritten⟩ => ?_) hf hyields
  exact ⟨hreason, hb, hwritten.append [r]⟩

end Pass

/-- The coverage pass passes over new objects of more than 64 words and waits for all words of
smaller ones, a store to a field takes off the words which it writes all of, and an allocation is
exchanged only after all words of its object have been written.  The exception is an object
whose size cannot be rounded up to whole words: the pass waits for its first 64 words only. -/
theorem Graph.covered_words {ptr : Int64} (hptr : isPointerSize ptr = true) :
    (∀ size, ¬ FitsInWords ptr size → 64 < wordCount ptr size) ∧
    (∀ {c : Context} {code b r k i size f} {s : Progress}, s.graph.pointerSize = ptr →
      c.Creates code r k i size →
      ∃ bits, (∀ w, HasWord bits w ↔ w < wordCount ptr size ∧ w < 64) ∧
        (c.follow b code r f).run s =
          if 64 < wordCount ptr size ∧ FitsInWords ptr size then (.ok f, s)
          else (c.settle b k ⟨i, bits⟩ f).run s) ∧
    (∀ {c : Context} {code b r p k offset size f a} {s : Progress}, s.graph.pointerSize = ptr →
      c.StoresField code r p k offset → p.ty.size? ptr = some size → f.lookup k = some a →
      ∃ bits, (∀ w, HasWord bits w ↔ HasWord a.bits w ∧ ¬ Overwrites ptr offset size w) ∧
        ((c.cover b code r p f).run s = (c.settle b k { a with bits } f).run s ∨
          bits = a.bits ∧ (c.cover b code r p f).run s = (.ok f, s))) ∧
    (∀ {g : Graph} {b rs post J f} {s s' : Progress}, g.pointerSize = ptr →
      (g.context.forest b).roots = rs ++ post → s.Accounts g J →
      Elision.Yields (rs.foldlM (g.context.coverRoot b) []) s f s' →
      ∀ i : Nat, s'.report.has .initCovered ⟨b, i⟩ = true →
        s.report.has .initCovered ⟨b, i⟩ = true ∨
          g.WrittenBy b rs i fun size w => w < 64 ∨ FitsInWords ptr size) := by
  refine ⟨fun size => lt_wordCount_of_not_fits hptr, ?_, ?_, ?_⟩
  · rintro c code b r k i size f s rfl hcreates
    exact Context.run_follow hptr hcreates
  · rintro c code b r p k offset size f a s rfl hstores hsize ha
    exact Context.run_cover hptr hstores hsize ha
  · rintro g b rs post J f s s' rfl hroots haccounts hyields i hhas
    exact ((accounts_coverRoots hptr hroots haccounts.self hyields).justified_of_has hhas).imp_right
      fun hfound => hfound.2.2

/-- Stores to 64 words of two bytes, four at a time. -/
def wideStores : List Instr := (List.range 16).flatMap fun k =>
  [.number 7, .tload .reference 0, .number (Int64.ofNat (8 * k)), .typed .rstore .int64]

/-- A routine that allocates `2 ^ 63 - 1` bytes and writes the first 64 words. -/
def wideRoutine : List Instr :=
  .number 9223372036854775807 :: .ofOpcode .gcMalloc :: .tstore .reference 0 ::
    wideStores ++ [.ret .void]

/-- The root that stores its object. -/
def wideCreation : Root := ⟨.node 2 [some (.node 1 [some (.node 0 [])])], true, []⟩

/-- The root that writes the first words. -/
def wideFirstStore : Root :=
  ⟨.node 6 [some (.node 3 []), some (.node 4 []), some (.node 5 [])], false, []⟩

/-- A routine that builds, and that the pass goes through block `b` of. -/
theorem exists_coverRoots {α : Type} (o : Options) (code : List Instr) (b : Nat)
    (view : Graph → Progress → α) (x : α)
    (h : (match Graph.build o code with
      | .ok g => match ((g.context.forest b).roots.foldlM (g.context.coverRoot b) []).run
            { graph := g } with
        | (.ok _, s) => some (view g s)
        | _ => none
      | _ => none) = some x) :
    ∃ g f s, Graph.build o code = .ok g ∧
      Elision.Yields ((g.context.forest b).roots.foldlM (g.context.coverRoot b) [])
        { graph := g } f s ∧ view g s = x := by
  split at h
  · rename_i g hbuild
    split at h
    · rename_i f s hrun
      exact ⟨g, f, s, hbuild, hrun, Option.some_inj.1 h⟩
    · cases h
  · cases h

set_option maxRecDepth 2000 in
/-- Its object is exchanged although no root writes word 64. -/
theorem Graph.covered_words_wide : ∃ g f s,
    build (Defaults.options { pointerSize := 2 }) wideRoutine = .ok g ∧
    Elision.Yields ((g.context.forest 0).roots.foldlM (g.context.coverRoot 0) [])
      { graph := g } f s ∧
    s.report.has .initCovered ⟨0, 1⟩ = true ∧
    g.WrittenBy 0 (g.context.forest 0).roots 1 (fun size w => w < 64 ∨ FitsInWords 2 size) ∧
    64 < wordCount 2 Int64.maxValue ∧
    (∀ r k, ¬ g.context.WritesAll (g.block 0).code 2 r k 64) ∧
    (∃ r ∈ (g.context.forest 0).roots,
      g.context.Creates (g.block 0).code r 0 1 Int64.maxValue ∧
      ∃ bits, (∀ w, HasWord bits w ↔ w < wordCount 2 Int64.maxValue ∧ w < 64) ∧
        (g.context.follow 0 (g.block 0).code r []).run { graph := g } =
          (g.context.settle 0 0 ⟨1, bits⟩ []).run { graph := g }) ∧
    ∃ r ∈ (g.context.forest 0).roots, ∃ bits,
      (∀ w, HasWord bits w ↔ HasWord (lowBits 64) w ∧ ¬ Overwrites 2 0 8 w) ∧
      (g.context.cover 0 (g.block 0).code r (.typed .rstore .int64)
          [(0, ⟨1, lowBits 64⟩)]).run { graph := g } =
        (g.context.settle 0 0 ⟨1, bits⟩ [(0, ⟨1, lowBits 64⟩)]).run { graph := g } := by
  obtain ⟨g, f, s, hbuild, hyields, hview⟩ :=
    exists_coverRoots (Defaults.options { pointerSize := 2 }) wideRoutine 0
      (fun g s => (s.report.has .initCovered ⟨0, 1⟩, (g.block 0).code, g.context.aliases,
        (g.context.forest 0).roots.take 2))
      (true, wideRoutine, ⟨[(0, 0)]⟩, [wideCreation, wideFirstStore]) (by cbv)
  simp only [Prod.mk.injEq] at hview
  obtain ⟨hhas, hcode, haliases, hroots⟩ := hview
  have hptr : g.pointerSize = 2 := by
    rw [Graph.pointerSize, (built_of_build hbuild).options]
    rfl
  obtain ⟨hmany, hfollow, hcover, hreported⟩ := covered_words (show isPointerSize 2 = true from rfl)
  have hwraps : ¬ FitsInWords 2 Int64.maxValue := by decide
  have hcreates : g.context.Creates (g.block 0).code wideCreation 0 1 Int64.maxValue := by
    rw [hcode]
    refine ⟨?_, .node 1 [some (.node 0 [])], rfl, rfl, rfl, rfl⟩
    show g.context.aliases.class? 0 = some 0
    rw [haliases]
    rfl
  have hstores : g.context.StoresField (g.block 0).code wideFirstStore
      (.typed .rstore .int64) 0 0 := by
    rw [hcode]
    refine ⟨rfl, rfl, ?_, rfl⟩
    show g.context.aliases.class? 0 = some 0
    rw [haliases]
    rfl
  obtain ⟨bits, hbits, hrun⟩ := hfollow (s := { graph := g }) (f := []) hptr hcreates
  obtain ⟨bits', hbits', hrun'⟩ := hcover (s := { graph := g }) (f := [(0, ⟨1, lowBits 64⟩)]) hptr
    hstores rfl rfl
  have hmem : ∀ {r}, r ∈ [wideCreation, wideFirstStore] → r ∈ (g.context.forest 0).roots :=
    fun hr => List.mem_of_mem_take (hroots ▸ hr)
  have hwritten := (hreported hptr (List.append_nil _).symm (.start g fun _ _ _ => True) hyields 1
    hhas).resolve_left (by simp [Report.has])
  have hnone : ∀ r k, ¬ g.context.WritesAll (g.block 0).code 2 r k 64 := by
    intro r k hwrites
    -- all constants that are not above the word are too far below it
    have hconstants : ∀ q ∈ wideRoutine, q.op = .number →
        q.value.toInt % 2 = 0 → q.value.toInt ≤ 64 * 2 → q.value.toInt + 8 < (64 + 1) * 2 := by
      decide
    obtain ⟨q, hq, hnumber, haligned, hfirst, hlast⟩ := hwrites.exists_constant rfl
    exact absurd hlast (Int.not_le.2 (hconstants q (hcode ▸ hq) hnumber haligned hfirst))
  refine ⟨g, f, s, hbuild, hyields, hhas, hwritten, hmany _ hwraps, hnone,
    ⟨wideCreation, hmem (by simp), hcreates, bits, hbits, ?_⟩, wideFirstStore, hmem (by simp),
    bits', hbits', hrun'.resolve_right fun h => ?_⟩
  · rw [hrun, if_neg fun h => hwraps h.2]
  · -- the bit of word 0 has been cleared
    have hbit : HasWord (lowBits 64) 0 := hasWord_lowBits_iff.2 ⟨by decide, .inr (by decide)⟩
    exact ((hbits' 0).1 (h.1 ▸ hbit)).2 ⟨by decide, by decide, by decide, by decide⟩

end StackFlow
