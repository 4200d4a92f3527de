import StackFlow.Proofs.Barriers
import StackFlow.Proofs.Words

/-!
# Allocations covered by stores

* `Calm`, `WritesWord` and `Follows` say what the coverage pass has found out of an
  allocation that it follows, and `Covers` what it has found out when it exchanges one;
  `accounts_coverAllocations` says that it exchanges no other.
-/

namespace StackFlow

open Forest

/-! ## What the coverage pass finds out -/

/-- The root neither collects nor uses objects of class `k` but in the one operand in which
it may. -/
def Calm (g : Graph) (b : Nat) (k : Int64) (r : Root) : Prop :=
  r.collects = false ∧ ∀ l ∈ r.tree.indices ++ r.dropped.flatMap (·.indices),
    g.context.loadedClass? (g.block b).code (some (.node l [])) = some k →
      g.context.permitted? (g.block b).code r = some l

/-- The root writes word `w` of an object of class `k`. -/
def WritesWord (g : Graph) (b : Nat) (k : Int64) (w : Nat) (r : Root) : Prop :=
  ∃ p offset bits, (g.block b).code[r.tree.index]? = some p ∧ p.storesField = true ∧
    g.context.loadedClass? (g.block b).code (r.tree.operand? 1) = some k ∧
    Context.offset? (g.block b).code (r.tree.operand? 2) = some offset ∧
    writtenBits g.pointerSize offset p.ty = .ok bits ∧ HasWord bits w

/-- What is known of the allocation `a` that is followed in class `k`, after the roots
`rs`: one of them stores the new object, all later ones are calm, and they have written
the words whose bits are cleared. -/
def Follows (g : Graph) (b : Nat) (rs : List Root) (k : Int64) (a : Context.Pending) : Prop :=
  ∃ r₀ t p size words, r₀ ∈ rs ∧
    g.context.allocatedClass? (g.block b).code r₀.tree = some k ∧
    r₀.tree.operand? 0 = some t ∧ t.index = a.index ∧
    (g.block b).code[t.index]? = some p ∧ p.op = .gcMalloc ∧
    Context.offset? (g.block b).code (t.operand? 0) = some size ∧
    wordsOf g.pointerSize size = .ok (some words) ∧
    (∀ r ∈ rs, r₀.tree.index < r.tree.index → Calm g b k r) ∧
    ∀ w, HasWord (lowBits words) w → ¬ HasWord a.bits w →
      ∃ r ∈ rs, r₀.tree.index < r.tree.index ∧ WritesWord g b k w r

/-- What the coverage pass has found out of an allocation that it exchanges. -/
def Covers (g : Graph) (b m : Nat) : Prop :=
  ∃ n ≤ (g.block b).code.length, ∃ k,
    Follows g b (grown (g.block b).code n).roots.reverse k ⟨m, 0⟩

/-! ## What the steps of the pass do -/

section Steps

open Elision

variable {c : Context} {code : List Instr} {b : Nat} {r : Root} {k : Int64} {a : Context.Pending}
  {f f' : Context.Followed} {s s' : Progress}

theorem yields_settle (h : Yields (c.settle b k a f) s f' s') :
    a.bits = 0 ∧ Yields (Elision.replace .initCovered b a.index c.variants.allocateOnly) s () s' ∧
      f' = f.drop k ∨ a.bits ≠ 0 ∧ s' = s ∧ f' = f.put k a := by
  unfold Context.settle at h
  split at h
  · rename_i hbits
    rw [yields_bind] at h
    obtain ⟨_, s₁, hreplace, h⟩ := h
    obtain ⟨hf, hs⟩ := yields_pure.1 h
    exact .inl ⟨hbits, hs ▸ hreplace, hf⟩
  · rename_i hbits
    obtain ⟨hf, hs⟩ := yields_pure.1 h
    exact .inr ⟨hbits, hs, hf⟩

/-- A field store settles the object that it writes to, unless it writes no word of an
object that is followed. -/
theorem yields_cover {p : Instr} (h : Yields (c.cover b code r p f) s f' s') :
    (∃ k a offset bits, c.loadedClass? code (r.tree.operand? 1) = some k ∧
      f.lookup k = some a ∧ Context.offset? code (r.tree.operand? 2) = some offset ∧
      writtenBits s.graph.pointerSize offset p.ty = .ok bits ∧
      Yields (c.settle b k { a with bits := a.bits &&& ~~~bits } f) s f' s') ∨
    f' = f ∧ s' = s ∧ ∀ k a offset bits, c.loadedClass? code (r.tree.operand? 1) = some k →
      f.lookup k = some a → Context.offset? code (r.tree.operand? 2) = some offset →
      writtenBits s.graph.pointerSize offset p.ty = .ok bits → bits = 0 := by
  unfold Context.cover at h
  split at h
  · rename_i hk
    obtain ⟨hf, hs⟩ := yields_pure.1 h
    exact .inr ⟨hf, hs, fun k _ _ _ hk' => by simp [hk] at hk'⟩
  · rename_i k hk
    split at h
    · rename_i a offset ha hoffset
      rw [yields_get_bind] at h
      split at h
      · exact absurd h not_yields_throw
      · rename_i hbits
        obtain ⟨hf, hs⟩ := yields_pure.1 h
        refine .inr ⟨hf, hs, fun k' a' offset' bits' _ _ hoffset' hbits' => ?_⟩
        rw [hoffset, Option.some_inj] at hoffset'
        rw [← hoffset', hbits] at hbits'
        exact (Except.ok.inj hbits').symm
      · rename_i bits _ hbits
        exact .inl ⟨k, a, offset, bits, hk, ha, hoffset, hbits, h⟩
    · rename_i hnone
      obtain ⟨hf, hs⟩ := yields_pure.1 h
      refine .inr ⟨hf, hs, fun k' a' offset' _ hk' ha' hoffset' => ?_⟩
      rw [hk, Option.some_inj] at hk'
      exact absurd hoffset' (hnone a' offset' (hk' ▸ ha'))

/-- A root settles the object that it stores, if the object is allocated with a constant
size that can be followed. -/
theorem yields_follow (h : Yields (c.follow b code r f) s f' s') :
    (∃ k t size words, c.allocatedClass? code r.tree = some k ∧ r.tree.operand? 0 = some t ∧
      (code[t.index]?).any c.variants.isAllocate = true ∧
      Context.offset? code (t.operand? 0) = some size ∧
      wordsOf s.graph.pointerSize size = .ok (some words) ∧
      Yields (c.settle b k ⟨t.index, lowBits words⟩ f) s f' s') ∨
    f' = f ∧ s' = s ∧ ∀ k t size words, c.allocatedClass? code r.tree = some k →
      r.tree.operand? 0 = some t → (code[t.index]?).any c.variants.isAllocate = true →
      Context.offset? code (t.operand? 0) = some size →
      wordsOf s.graph.pointerSize size ≠ .ok (some words) := by
  unfold Context.follow at h
  split at h
  · rename_i k t hk ht
    have hsame : ∀ {t'}, r.tree.operand? 0 = some t' → t' = t := by
      intro t' ht'
      rw [ht, Option.some_inj] at ht'
      exact ht'.symm
    split at h
    · rename_i hclears
      obtain ⟨hf, hs⟩ := yields_pure.1 h
      refine .inr ⟨hf, hs, fun _ t' _ _ _ ht' hclears' => ?_⟩
      rw [hsame ht'] at hclears'
      simp [hclears'] at hclears
    · rename_i hclears
      rw [Bool.not_eq_true, Bool.not_eq_false'] at hclears
      split at h
      · rename_i hsize
        obtain ⟨hf, hs⟩ := yields_pure.1 h
        refine .inr ⟨hf, hs, fun _ t' _ _ _ ht' _ hsize' => ?_⟩
        rw [hsame ht', hsize] at hsize'
        cases hsize'
      · rename_i size hsize
        rw [yields_get_bind] at h
        split at h
        · exact absurd h not_yields_throw
        · rename_i hwords
          obtain ⟨hf, hs⟩ := yields_pure.1 h
          refine .inr ⟨hf, hs, fun _ t' size' _ _ ht' _ hsize' hwords' => ?_⟩
          rw [hsame ht', hsize, Option.some_inj] at hsize'
          rw [← hsize', hwords] at hwords'
          cases hwords'
        · rename_i words hwords
          exact .inl ⟨k, t, size, words, hk, ht, hclears, hsize, hwords, h⟩
  · rename_i hnone
    obtain ⟨hf, hs⟩ := yields_pure.1 h
    exact .inr ⟨hf, hs, fun k t _ _ hk ht => absurd ht (hnone k t hk)⟩

/-- What is still followed at a root. -/
def Context.survivors (c : Context) (code : List Instr) (r : Root) (f : Followed) : Followed :=
  if r.collects then [] else c.dropEscapes code r f

theorem dropEscapes_nil : c.dropEscapes code r [] = [] := by
  unfold Context.dropEscapes
  refine List.foldlRecOn (motive := fun f => f = []) _ _ rfl fun f hf l _ => ?_
  subst hf
  split
  · rfl
  · split <;> rfl

theorem coverRoot_eq : c.coverRoot b f r = (do
    let code := ((← get).graph.block b).code
    let f := c.survivors code r f
    match code[r.tree.index]? with
    | none => return f
    | some p =>
      if c.variants.isFieldStore p then c.cover b code r p f else c.follow b code r f) := by
  unfold Context.coverRoot
  congr 1
  funext s
  have hrest : (if (if r.collects = true then [] else f).isEmpty = true then
      (if r.collects = true then [] else f) else
        c.dropEscapes (s.graph.block b).code r (if r.collects = true then [] else f)) =
      c.survivors (s.graph.block b).code r f := by
    unfold Context.survivors
    split
    · rfl
    · split
      · rename_i hempty
        rw [List.isEmpty_iff.1 hempty, dropEscapes_nil]
      · rfl
  exact congrArg (fun f' : Context.Followed => match (s.graph.block b).code[r.tree.index]? with
    | none => (pure f' : Elision Context.Followed)
    | some p => if c.variants.isFieldStore p then c.cover b (s.graph.block b).code r p f'
      else c.follow b (s.graph.block b).code r f') hrest

end Steps

section Pass

variable {g : Graph} {b : Nat} {rs : List Root} {r : Root} {k : Int64} {a : Context.Pending}

theorem isFieldStore_standard (p : Instr) : Variants.standard.isFieldStore p = p.storesField := by
  unfold Variants.isFieldStore Instr.storesField
  rfl

theorem Exchanged.ty_eq_of_store {p p' : Instr} (h : Exchanged p p')
    (hstores : Variants.standard.isFieldStore p' = true) : p'.ty = p.ty := by
  rcases h with rfl | ⟨_, hty, rfl⟩ | ⟨_, rfl⟩
  · rfl
  · exact hty.symm
  · cases hstores

theorem Exchanges.permitted?_eq {code code' : List Instr} (h : Exchanges code code') (r : Root) :
    g.context.permitted? code' r = g.context.permitted? code r := by
  unfold Context.permitted?
  simp only [h.loadedClass?_eq]
  rcases h r.tree.index with ⟨hold, hnew⟩ | ⟨p, p', hold, hnew, hexchanged⟩
  · rw [hold, hnew]
  · rw [hold, hnew]
    have hfield : g.context.variants.isFieldStore p' = g.context.variants.isFieldStore p :=
      hexchanged.isFieldStore_eq
    simp only [hfield]
    rcases hexchanged with rfl | ⟨hop, _, rfl⟩ | ⟨hop, rfl⟩
    · rfl
    · simp [hop, Instr.typed, Instr.ofOpcode]
    · simp [hop, Instr.ofOpcode]

/-- What is left after a root has dropped the classes it uses. -/
theorem mem_dropEscapes {c : Context} {code : List Instr} {f : Context.Followed}
    {e : Int64 × Context.Pending} (h : e ∈ c.dropEscapes code r f) :
    e ∈ f ∧ ∀ l ∈ r.tree.indices ++ r.dropped.flatMap (·.indices),
      c.loadedClass? code (some (.node l [])) = some e.1 → c.permitted? code r = some l := by
  unfold Context.dropEscapes at h
  simp only at h
  generalize r.tree.indices ++ r.dropped.flatMap (·.indices) = ls at h
  induction ls generalizing f with
  | nil => exact ⟨h, by simp⟩
  | cons l ls ih =>
    obtain ⟨he, hrest⟩ := ih h
    simp only at he
    split at he
    · rename_i hskip
      refine ⟨he, fun l' hl' hclass => ?_⟩
      rcases List.mem_cons.1 hl' with rfl | hl'
      · exact hskip
      · exact hrest l' hl' hclass
    · split at he
      · rename_i k' hk'
        have he := List.mem_filter.1 he
        refine ⟨he.1, fun l' hl' hclass => ?_⟩
        rcases List.mem_cons.1 hl' with rfl | hl'
        · rw [hk', Option.some_inj] at hclass
          simp [hclass] at he
        · exact hrest l' hl' hclass
      · rename_i hnone
        refine ⟨he, fun l' hl' hclass => ?_⟩
        rcases List.mem_cons.1 hl' with rfl | hl'
        · rw [hnone] at hclass
          cases hclass
        · exact hrest l' hl' hclass

/-- A calm root changes nothing about what is followed. -/
theorem Follows.append (h : Follows g b rs k a) (hcalm : Calm g b k r) :
    Follows g b (rs ++ [r]) k a := by
  obtain ⟨r₀, t, p, size, words, hr₀, halloc, ht, hindex, hp, hop, hsize, hwords, hcalms,
    hwritten⟩ := h
  refine ⟨r₀, t, p, size, words, List.mem_append_left _ hr₀, halloc, ht, hindex, hp, hop, hsize,
    hwords, fun r' hr' hlt => ?_, fun w hw hnot => ?_⟩
  · rcases List.mem_append.1 hr' with hr' | hr'
    · exact hcalms r' hr' hlt
    · rwa [List.mem_singleton.1 hr']
  · obtain ⟨r', hr', hrest⟩ := hwritten w hw hnot
    exact ⟨r', List.mem_append_left _ hr', hrest⟩

/-- A store clears the bits of the words it writes. -/
theorem Follows.clear {p : Instr} {offset : Int64} {bits : UInt64} (h : Follows g b rs k a)
    (hcalm : Calm g b k r) (hlast : ∀ r' ∈ rs, r'.tree.index < r.tree.index)
    (hp : (g.block b).code[r.tree.index]? = some p) (hstores : p.storesField = true)
    (hloaded : g.context.loadedClass? (g.block b).code (r.tree.operand? 1) = some k)
    (hoffset : Context.offset? (g.block b).code (r.tree.operand? 2) = some offset)
    (hbits : writtenBits g.pointerSize offset p.ty = .ok bits) :
    Follows g b (rs ++ [r]) k { a with bits := a.bits &&& ~~~bits } := by
  obtain ⟨r₀, t, pa, size, words, hr₀, halloc, ht, hindex, hpa, hop, hsize, hwords, hcalms,
    hwritten⟩ := h.append hcalm
  refine ⟨r₀, t, pa, size, words, hr₀, halloc, ht, hindex, hpa, hop, hsize, hwords, hcalms,
    fun w hw hnot => ?_⟩
  by_cases hold : HasWord a.bits w
  · have hnew : HasWord bits w := by
      by_contra hclear
      exact hnot (hold.clear hclear)
    refine ⟨r, by simp, ?_, p, offset, bits, hp, hstores, hloaded, hoffset, hbits, hnew⟩
    rcases List.mem_append.1 hr₀ with hr₀ | hr₀
    · exact hlast r₀ hr₀
    · -- the root that stores the new object stores into no field
      obtain ⟨p', _, _, hp', hstores', _⟩ := Context.allocatedClass?_eq_some rfl halloc
      rw [List.mem_singleton.1 hr₀, hp, Option.some_inj] at hp'
      subst hp'
      simp only [Instr.stores, Instr.storesField, Bool.and_eq_true, Bool.or_eq_true,
        decide_eq_true_eq] at hstores hstores'
      rw [hstores'.1] at hstores
      simp at hstores
  · exact hwritten w hw hold

/-- An allocation is followed from the root that stores the new object. -/
theorem follows_of_root {t : Tree} {p : Instr} {size words : Int64}
    (hlast : ∀ r' ∈ rs, r'.tree.index < r.tree.index)
    (halloc : g.context.allocatedClass? (g.block b).code r.tree = some k)
    (ht : r.tree.operand? 0 = some t) (hp : (g.block b).code[t.index]? = some p)
    (hop : p.op = .gcMalloc)
    (hsize : Context.offset? (g.block b).code (t.operand? 0) = some size)
    (hwords : wordsOf g.pointerSize size = .ok (some words)) :
    Follows g b (rs ++ [r]) k ⟨t.index, lowBits words⟩ := by
  refine ⟨r, t, p, size, words, by simp, halloc, ht, rfl, hp, hop, hsize, hwords,
    fun r' hr' hlt => ?_, fun w hw hnot => absurd hw hnot⟩
  rcases List.mem_append.1 hr' with hr' | hr'
  · exact absurd hlt (Nat.not_lt.2 (Nat.le_of_lt (hlast r' hr')))
  · rw [List.mem_singleton.1 hr'] at hlt
    exact absurd hlt (Nat.lt_irrefl _)

variable {J : Reason → Nat → Nat → Prop} {s s' : Progress} {f f' : Context.Followed}

/-- The allocations that are followed after the roots `rs`. -/
def FollowsAll (g : Graph) (b : Nat) (rs : List Root) (f : Context.Followed) : Prop :=
  ∀ e ∈ f, Follows g b rs e.1 e.2

theorem accounts_settle (hJ : a.bits = 0 → J .initCovered b a.index)
    (haccounts : s.Accounts g J) (hf : FollowsAll g b rs f) (hfollows : Follows g b rs k a)
    (hyields : Elision.Yields (g.context.settle b k a f) s f' s') :
    s'.Accounts g J ∧ FollowsAll g b rs f' := by
  rcases yields_settle hyields with ⟨hbits, hreplace, rfl⟩ | ⟨_, rfl, rfl⟩
  · obtain ⟨r₀, t, p, size, words, _, _, _, hindex, hp, hop, _⟩ := hfollows
    rw [hindex] at hp
    refine ⟨(haccounts.replace hreplace hp (.inr (.inr ⟨hop, rfl⟩)) (hJ hbits)).1, ?_⟩
    exact fun e he => hf e (List.mem_filter.1 he).1
  · refine ⟨haccounts, fun e he => ?_⟩
    rcases List.mem_cons.1 he with rfl | he
    · exact hfollows
    · exact hf e (List.mem_filter.1 he).1

theorem accounts_cover (hJ : ∀ k m, Follows g b (rs ++ [r]) k ⟨m, 0⟩ → J .initCovered b m)
    (hlast : ∀ r' ∈ rs, r'.tree.index < r.tree.index) {p : Instr}
    (haccounts : s.Accounts g J) (hf : FollowsAll g b rs f) (hcalm : ∀ e ∈ f, Calm g b e.1 r)
    (hp : (s.graph.block b).code[r.tree.index]? = some p)
    (hstores : Variants.standard.isFieldStore p = true)
    (hyields : Elision.Yields (g.context.cover b (s.graph.block b).code r p f) s f' s') :
    s'.Accounts g J ∧ FollowsAll g b (rs ++ [r]) f' := by
  have hexchanges := haccounts.resembles.code b
  have hkept : FollowsAll g b (rs ++ [r]) f := fun e he => (hf e he).append (hcalm e he)
  rcases yields_cover hyields with ⟨k, a, offset, bits, hk, ha, hoffset, hbits, hsettle⟩ |
    ⟨rfl, rfl, _⟩
  · obtain ⟨q, hq, hexchanged⟩ := hexchanges.of_new hp
    rw [hexchanges.loadedClass?_eq] at hk
    rw [hexchanges.offset?_eq] at hoffset
    rw [haccounts.resembles.pointerSize_eq, hexchanged.ty_eq_of_store hstores] at hbits
    rw [hexchanged.isFieldStore_eq, isFieldStore_standard] at hstores
    have hmem : (k, a) ∈ f := by
      obtain ⟨xs, ys, hf, _⟩ := List.lookup_eq_some_iff.1 ha
      rw [hf]
      simp
    have hfollows := (hf _ hmem).clear (hcalm _ hmem) hlast hq hstores hk hoffset hbits
    refine accounts_settle (fun hzero => hJ k _ ?_) haccounts hkept hfollows hsettle
    rwa [show a.bits &&& ~~~bits = 0 from hzero] at hfollows
  · exact ⟨haccounts, hkept⟩

theorem accounts_follow (hJ : ∀ k m, Follows g b (rs ++ [r]) k ⟨m, 0⟩ → J .initCovered b m)
    (hlast : ∀ r' ∈ rs, r'.tree.index < r.tree.index)
    (haccounts : s.Accounts g J) (hf : FollowsAll g b rs f) (hcalm : ∀ e ∈ f, Calm g b e.1 r)
    (hyields : Elision.Yields (g.context.follow b (s.graph.block b).code r f) s f' s') :
    s'.Accounts g J ∧ FollowsAll g b (rs ++ [r]) f' := by
  have hexchanges := haccounts.resembles.code b
  have hkept : FollowsAll g b (rs ++ [r]) f := fun e he => (hf e he).append (hcalm e he)
  rcases yields_follow hyields with ⟨k, t, size, words, hk, ht, hclears, hsize, hwords, hsettle⟩ |
    ⟨rfl, rfl, _⟩
  · obtain ⟨p', hp', hop'⟩ := (Option.any_eq_true _ _).1 hclears
    obtain ⟨p, hp, hexchanged⟩ := hexchanges.of_new hp'
    have hop' : p'.op = .gcMalloc := of_decide_eq_true hop'
    have heq := hexchanged.eq_of_op (by simp [hop']) (by simp [hop'])
    rw [hexchanges.allocatedClass?_eq rfl] at hk
    rw [hexchanges.offset?_eq] at hsize
    rw [haccounts.resembles.pointerSize_eq] at hwords
    have hfollows := follows_of_root hlast hk ht hp (heq ▸ hop') hsize hwords
    refine accounts_settle (fun hzero => hJ k _ ?_) haccounts hkept hfollows hsettle
    rwa [show lowBits words = 0 from hzero] at hfollows
  · exact ⟨haccounts, hkept⟩

theorem accounts_coverRoot (hJ : ∀ k m, Follows g b (rs ++ [r]) k ⟨m, 0⟩ → J .initCovered b m)
    {post : List Root} (hroots : (g.context.forest b).roots = rs ++ r :: post)
    (haccounts : s.Accounts g J) (hf : FollowsAll g b rs f)
    (hyields : Elision.Yields (g.context.coverRoot b f r) s f' s') :
    s'.Accounts g J ∧ FollowsAll g b (rs ++ [r]) f' := by
  rw [Graph.forest_context, ofCode_eq] at hroots
  obtain ⟨hrs, hindex, _⟩ := roots_split (Nat.le_refl _) hroots
  have hlast : ∀ r' ∈ rs, r'.tree.index < r.tree.index := by
    intro r' hr'
    rw [hrs, List.mem_reverse] at hr'
    exact (inv_grown (Nat.le_of_lt hindex)).roots_lt r' hr'
  have hexchanges := haccounts.resembles.code b
  rw [coverRoot_eq, Elision.yields_get_bind] at hyields
  simp only at hyields
  generalize hrest : g.context.survivors (s.graph.block b).code r f = rest at hyields
  have hkept : ∀ e ∈ rest, e ∈ f ∧ Calm g b e.1 r := by
    intro e he
    rw [← hrest] at he
    unfold Context.survivors at he
    split at he
    · cases he
    · rename_i hcollects
      obtain ⟨he, hcalm⟩ := mem_dropEscapes he
      refine ⟨he, Bool.eq_false_iff.2 hcollects, fun l hl hclass => ?_⟩
      rw [← hexchanges.permitted?_eq]
      refine hcalm l hl ?_
      rw [hexchanges.loadedClass?_eq]
      exact hclass
  have hfrest : FollowsAll g b rs rest := fun e he => hf e (hkept e he).1
  split at hyields
  · obtain ⟨rfl, rfl⟩ := Elision.yields_pure.1 hyields
    exact ⟨haccounts, fun e he => (hfrest e he).append (hkept e he).2⟩
  · rename_i p hp
    split at hyields
    · rename_i hstores
      exact accounts_cover hJ hlast haccounts hfrest (fun e he => (hkept e he).2) hp hstores
        hyields
    · exact accounts_follow hJ hlast haccounts hfrest (fun e he => (hkept e he).2) hyields

theorem Follows.covers {post : List Root} {m : Nat} (h : Follows g b (rs ++ [r]) k ⟨m, 0⟩)
    (hroots : (g.context.forest b).roots = rs ++ r :: post) : Covers g b m := by
  rw [Graph.forest_context, ofCode_eq] at hroots
  obtain ⟨hrs, hindex, hroot⟩ := roots_split (Nat.le_refl _) hroots
  refine ⟨r.tree.index + 1, hindex, k, ?_⟩
  rwa [hroot, List.reverse_cons, ← hrs]

/-- The coverage pass exchanges only allocations that are covered. -/
theorem accounts_coverAllocations (hJ : ∀ b m, Covers g b m → J .initCovered b m)
    (haccounts : s.Accounts g J)
    (hyields : Elision.Yields g.context.coverAllocations s () s') : s'.Accounts g J := by
  unfold Context.coverAllocations at hyields
  rw [Elision.yields_get_bind] at hyields
  refine Elision.forM_induct (P := fun _ s => s.Accounts g J) haccounts ?_ hyields
  intro _ b _ s s' _ haccounts hyields
  obtain ⟨f, hyields⟩ := Elision.yields_discard.1 hyields
  refine (Elision.foldlM_induct (P := fun rs f s => s.Accounts g J ∧ FollowsAll g b rs f)
    ⟨haccounts, fun e he => absurd he List.not_mem_nil⟩ ?_ hyields).1
  intro rs r post f f' s s' hroots ⟨haccounts, hf⟩ hyields
  exact accounts_coverRoot (fun k m hfollows => hJ b m (hfollows.covers hroots)) hroots haccounts
    hf hyields

end Pass

end StackFlow
