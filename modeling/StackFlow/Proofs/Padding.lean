import StackFlow.Proofs.Wiring

/-!
# Padding

Instructions that do nothing and comments may be put anywhere into a routine that has been
threaded.

* `Padded xs ys` says that `ys` is `xs` with such instructions put in, and `check_of_padded`
  that the static checks do not see them.  Neither does threading, unless they are put in
  between a target and the hop behind it (`PaddedAside`).
* `Draft.Alike σ d d'` relates drafts that are the same but for padding, where `σ` turns the
  names of one list into those of the other.  Every step that makes drafts keeps it
  (`alike_split` up to `alike_mergeAfter`).
* `Layout.Alike` is what is left of it for blocks, and `Layout.alike_ofCode` is the result.
-/

namespace StackFlow

/-- An instruction that does nothing, or a comment. -/
inductive Instr.IsPadding : Instr → Prop where
  | nop : IsPadding (.ofOpcode .nop)
  | comment (text : String) : IsPadding (.texted .comment text)

/-- `Padded xs ys`: the list `ys` is `xs` with padding put in. -/
inductive Padded : List Instr → List Instr → Prop where
  | nil : Padded [] []
  | keep (p : Instr) {xs ys : List Instr} (h : Padded xs ys) : Padded (p :: xs) (p :: ys)
  | pad {m : Instr} (hm : m.IsPadding) {xs ys : List Instr} (h : Padded xs ys) :
      Padded xs (m :: ys)

namespace Instr.IsPadding

variable {m : Instr} (h : m.IsPadding)

include h

theorem isMeta : m.isMeta = true := by
  cases h <;> rfl

theorem plain : Draft.IsPlain m := by
  cases h <;> exact ⟨nofun, nofun, nofun⟩

theorem transfers_eq : m.transfers = false := by
  cases h <;> rfl

theorem after_eq (l : Location) : l.after m = l := by
  cases h <;> rfl

theorem declare_eq (ptr : Int64) (d : Scope.Declared) : Scope.declare ptr d m = .ok d := by
  cases h <;> rfl

theorem jumps_eq : m.op.jumps = false := by
  cases h <;> rfl

theorem redirect_eq (hops : List (Int64 × Int64)) : Threading.redirect hops m = m := by
  cases h <;> (unfold Threading.redirect; simp only; split <;> rfl)

end Instr.IsPadding

namespace Padded

variable {xs ys zs ws : List Instr} {m p : Instr}

theorem refl (xs : List Instr) : Padded xs xs := by
  induction xs with
  | nil => exact .nil
  | cons p xs ih => exact .keep p ih

theorem append (h : Padded xs ys) (h' : Padded zs ws) : Padded (xs ++ zs) (ys ++ ws) := by
  induction h with
  | nil => exact h'
  | keep p _ ih => exact .keep p ih
  | pad hm _ ih => exact .pad hm ih

theorem trans (h : Padded xs ys) (h' : Padded ys zs) : Padded xs zs := by
  induction h' generalizing xs with
  | nil => exact h
  | keep p _ ih =>
    cases h with
    | keep _ h => exact .keep p (ih h)
    | pad hm h => exact .pad hm (ih h)
  | pad hm _ ih => exact .pad hm (ih h)

/-- The instructions that do more than carry debug information are the same. -/
theorem filter_eq (h : Padded xs ys) :
    ys.filter (fun p => !p.isMeta) = xs.filter (fun p => !p.isMeta) := by
  induction h with
  | nil => rfl
  | keep p _ ih => simp only [List.filter_cons, ih]
  | pad hm _ ih => simp [hm.isMeta, ih]

theorem reverse (h : Padded xs ys) : Padded xs.reverse ys.reverse := by
  induction h with
  | nil => exact .nil
  | keep p _ ih =>
    rw [List.reverse_cons, List.reverse_cons]
    exact ih.append (.refl [p])
  | pad hm _ ih =>
    rw [List.reverse_cons]
    simpa using ih.append (.pad hm .nil)

/-- The first instruction can be taken from both if it is no padding. -/
theorem of_cons (h : Padded (p :: xs) (p :: ys)) (hp : ¬ p.IsPadding) : Padded xs ys := by
  cases h with
  | keep _ h => exact h
  | pad hm _ => exact absurd hm hp

/-- The last instruction can be taken from both if it is no padding. -/
theorem of_concat (h : Padded (xs ++ [p]) (ys ++ [p])) (hp : ¬ p.IsPadding) : Padded xs ys := by
  have hreverse := h.reverse
  rw [List.reverse_append, List.reverse_append] at hreverse
  simpa using (hreverse.of_cons hp).reverse

/-- Threading leaves padding alone. -/
theorem thread (h : Padded xs ys) (hsame : ∀ p ∈ xs,
    Threading.redirect (Threading.hops ys) p = Threading.redirect (Threading.hops xs) p) :
    Padded (Threading.thread xs) (Threading.thread ys) := by
  unfold Threading.thread
  generalize Threading.hops xs = hops, Threading.hops ys = hops' at hsame
  induction h with
  | nil => exact .nil
  | keep p _ ih =>
    rw [List.map_cons, List.map_cons, hsame p List.mem_cons_self]
    exact .keep _ (ih fun q hq => hsame q (List.mem_cons_of_mem _ hq))
  | pad hm _ ih =>
    rw [List.map_cons, hm.redirect_eq]
    exact .pad hm (ih hsame)

end Padded

/-! ## Threading -/

/-- `PaddedAside xs ys`: the list `ys` is `xs` with padding put in anywhere but between a target
and the hop behind it. -/
inductive PaddedAside : List Instr → List Instr → Prop where
  | nil : PaddedAside [] []
  | keep (p : Instr) {xs ys : List Instr}
      (hhop : p.op = .target → xs.head?.any (·.op = .hop) = ys.head?.any (·.op = .hop))
      (h : PaddedAside xs ys) : PaddedAside (p :: xs) (p :: ys)
  | pad {m : Instr} (hm : m.IsPadding) {xs ys : List Instr} (h : PaddedAside xs ys) :
      PaddedAside xs (m :: ys)

/-- What makes no pair with the instruction behind it leads nowhere. -/
theorem Threading.hops_cons_of_no_pair {p : Instr} {code : List Instr}
    (h : p.op = .target → code.head?.any (·.op = .hop) = false) :
    hops (p :: code) = hops code := by
  cases code with
  | nil => rfl
  | cons q rest =>
    have hpair : ¬ (p.op = .target ∧ q.op = .hop) := fun hboth => by
      simpa [hboth.2] using h hboth.1
    simp [hops, hpair]

namespace PaddedAside

variable {xs ys : List Instr}

theorem padded (h : PaddedAside xs ys) : Padded xs ys := by
  induction h with
  | nil => exact .nil
  | keep p _ _ ih => exact .keep p ih
  | pad hm _ ih => exact .pad hm ih

/-- Every hop behind a target is still there. -/
theorem hops_eq (h : PaddedAside xs ys) : Threading.hops ys = Threading.hops xs := by
  induction h with
  | nil => rfl
  | @keep p xs ys hhop h ih =>
    by_cases hpair : p.op = .target ∧ ys.head?.any (·.op = .hop) = true
    · cases h with
      | nil => rfl
      | keep q _ h => simp only [Threading.hops, ih]
      | pad hm h => simp [hm.plain.2.2] at hpair
    · have hnot : p.op = .target → ys.head?.any (·.op = .hop) = false :=
        fun hop => Bool.eq_false_iff.2 fun hys => hpair ⟨hop, hys⟩
      rw [Threading.hops_cons_of_no_pair hnot, Threading.hops_cons_of_no_pair fun hop =>
        (hhop hop).trans (hnot hop), ih]
  | pad hm h ih => rw [Threading.hops_cons_of_no_pair fun hop => absurd hop hm.plain.1, ih]

/-- So no jump is threaded differently. -/
theorem redirect_eq (h : PaddedAside xs ys) (p : Instr) :
    Threading.redirect (Threading.hops ys) p = Threading.redirect (Threading.hops xs) p := by
  rw [h.hops_eq]

end PaddedAside

/-! ## The static checks -/

namespace Scope

variable {xs ys : List Instr} {l : Location}

theorem declareAll_of_padded (h : Padded xs ys) (ptr : Int64) (d : Declared) :
    declareAll ptr d (located l ys) = declareAll ptr d (located l xs) := by
  induction h generalizing l d with
  | nil => rfl
  | keep p _ ih => simp only [located, declareAll, ih]
  | pad hm _ ih => simp only [located, declareAll, hm.declare_eq, hm.after_eq, ih]

theorem dangling?_of_padded (h : Padded xs ys) (targets : List Int64) :
    dangling? targets (located l ys) = dangling? targets (located l xs) := by
  unfold dangling?
  induction h generalizing l with
  | nil => rfl
  | keep p _ ih => simp only [located, List.find?_cons, ih]
  | pad hm _ ih =>
    simp only [located, List.find?_cons, hm.jumps_eq, hm.after_eq, Bool.false_and]
    exact ih

/-- The checks find the same. -/
theorem check_of_padded (h : Padded xs ys) (ptr : Int64) : check ptr ys = check ptr xs := by
  unfold check
  rw [declareAll_of_padded h]
  simp only [dangling?_of_padded h]

end Scope

/-! ## Drafts -/

/-- The names of drafts once an instruction has been put in before index `n`. -/
def Start.shift (n : Nat) : Start → Start
  | .after i => .after (if i < n then i else i + 1)
  | s => s

theorem Start.shift_injective (n : Nat) : Function.Injective (Start.shift n) := by
  intro s s' h
  cases s with
  | entry => cases s' with
    | entry => rfl
    | _ => cases h
  | label l => cases s' with
    | label l' => exact h
    | _ => cases h
  | after i => cases s' with
    | after j =>
      simp only [Start.shift, Start.after.injEq] at h ⊢
      split at h <;> split at h <;> omega
    | _ => cases h

namespace Draft

/-- The target that the code begins with, if it does. -/
def opening? (code : List Instr) : Option Instr := code.head?.filter (·.op = .target)

/-- The jump that the code ends with, if it does. -/
def ending? (code : List Instr) : Option Instr := code.getLast?.filter (·.op.jumps)

/-- Drafts that are the same but for padding and for their names. -/
structure Alike (σ : Start → Start) (d d' : Draft) : Prop where
  start : d'.start = σ d.start
  succ : d'.succ = d.succ.map σ
  fall : d'.fall = d.fall.map σ
  exit : d'.exit = d.exit
  code : Padded d.code d'.code
  ending : ending? d'.code = ending? d.code

/-- Drafts that are alike and that begin with the same target, if they do. -/
def Twin (σ : Start → Start) (d d' : Draft) : Prop :=
  Alike σ d d' ∧ opening? d'.code = opening? d.code

section Ends

variable {xs ys : List Instr} {p : Instr}

theorem not_isPadding_of_jumps (h : p.op.jumps = true) : ¬ p.IsPadding := by
  intro hp
  rw [hp.jumps_eq] at h
  cases h

theorem not_isPadding_of_target (h : p.op = .target) : ¬ p.IsPadding :=
  fun hp => hp.plain.1 h

theorem opening?_concat (h : p.op ≠ .target) : opening? (xs ++ [p]) = opening? xs := by
  cases xs with
  | nil => simp [opening?, h]
  | cons => rfl

theorem ending?_concat : ending? (xs ++ [p]) = if p.op.jumps then some p else none := by
  rw [ending?, List.getLast?_concat, Option.filter_some]

/-- Code that does not jump changes nothing about the end. -/
theorem ending?_append (h : ∀ p ∈ xs, p.op.jumps = false) : ending? (xs ++ ys) = ending? ys := by
  rcases List.eq_nil_or_concat ys with rfl | ⟨init, q, rfl⟩
  · rw [List.append_nil]
    rcases List.eq_nil_or_concat xs with rfl | ⟨init, q, rfl⟩
    · rfl
    · rw [List.concat_eq_append, ending?_concat, h q (by simp)]
      rfl
  · rw [List.concat_eq_append, ← List.append_assoc, ending?_concat, ending?_concat]

theorem ending?_eq_some : ending? xs = some p ↔ xs.getLast? = some p ∧ p.op.jumps = true := by
  simp [ending?, Option.filter_eq_some_iff]

theorem opening?_eq_some : opening? xs = some p ↔ xs.head? = some p ∧ p.op = .target := by
  simp [opening?, Option.filter_eq_some_iff]

end Ends

/-! ### Cutting -/

/-- Open drafts that are the same but for padding and for their names. -/
structure Open.Alike (σ : Start → Start) (d d' : Open) : Prop where
  start : d'.start = σ d.start
  code : Padded d.code.reverse d'.code.reverse
  opening : opening? d'.code.reverse = opening? d.code.reverse
  calm : ∀ p ∈ d.code ++ d'.code, p.op.jumps = false

section Split

variable {σ : Start → Start} {d d' : Open} {cur cur' : Option Open} {p m : Instr} {l : Location}

theorem Open.Alike.push (h : Open.Alike σ d d') (hp : IsPlain p) :
    Open.Alike σ (d.push p) (d'.push p) where
  start := h.start
  code := by
    simp only [Open.push, List.reverse_cons]
    exact h.code.append (.refl [p])
  opening := by
    simp only [Open.push, List.reverse_cons, opening?_concat hp.1, h.opening]
  calm q hq := by
    simp only [Open.push, List.cons_append, List.mem_cons, List.mem_append] at hq
    rcases hq with rfl | hq | rfl | hq
    · exact jumps_of_plain hp
    · exact h.calm q (List.mem_append_left _ hq)
    · exact jumps_of_plain hp
    · exact h.calm q (List.mem_append_right _ hq)

theorem Open.Alike.pad (h : Open.Alike σ d d') (hm : m.IsPadding) :
    Open.Alike σ d (d'.push m) where
  start := h.start
  code := by
    simp only [Open.push, List.reverse_cons]
    simpa using h.code.append (.pad hm .nil)
  opening := by
    simp only [Open.push, List.reverse_cons, opening?_concat hm.plain.1, h.opening]
  calm q hq := by
    simp only [Open.push, List.mem_cons, List.mem_append] at hq
    rcases hq with hq | rfl | hq
    · exact h.calm q (List.mem_append_left _ hq)
    · exact hm.jumps_eq
    · exact h.calm q (List.mem_append_right _ hq)

/-- Drafts that are finished without a jump. -/
theorem Open.Alike.close (h : Open.Alike σ d d') (succ : List Start) (fall : Option Start)
    (l : Location) : Twin σ (d.close succ fall l) (d'.close (succ.map σ) (fall.map σ) l) := by
  refine ⟨⟨h.start, rfl, rfl, rfl, h.code, ?_⟩, h.opening⟩
  have hcalm : ∀ {o : Open}, (∀ p ∈ o.code, p.op.jumps = false) →
      ending? o.code.reverse = none := by
    intro o ho
    rw [← List.append_nil o.code.reverse, ending?_append]
    · rfl
    · simpa using ho
  simp only [Open.close]
  rw [hcalm fun p hp => h.calm p (List.mem_append_right _ hp),
    hcalm fun p hp => h.calm p (List.mem_append_left _ hp)]

/-- Drafts that are finished with a jump. -/
theorem Open.Alike.closeWith (h : Open.Alike σ d d') (hp : p.op ≠ .target) (succ : List Start)
    (fall : Option Start) (l : Location) :
    Twin σ ((d.push p).close succ fall l) ((d'.push p).close (succ.map σ) (fall.map σ) l) := by
  refine ⟨⟨h.start, rfl, rfl, rfl, ?_, ?_⟩, ?_⟩
  · simp only [Open.close, Open.push, List.reverse_cons]
    exact h.code.append (.refl [p])
  · simp only [Open.close, Open.push, List.reverse_cons, ending?_concat]
  · simp only [Open.close, Open.push, List.reverse_cons, opening?_concat hp, h.opening]

/-- Finishing the open drafts, if there are any, before further ones. -/
theorem finish {f f' : Open → Draft} {ds ds' : List Draft}
    (h : Option.Rel (Open.Alike σ) cur cur')
    (hf : ∀ {d d'}, Open.Alike σ d d' → Twin σ (f d) (f' d'))
    (hds : List.Forall₂ (Twin σ) ds ds') :
    List.Forall₂ (Twin σ) ((cur.map f).toList ++ ds) ((cur'.map f').toList ++ ds') := by
  cases h with
  | none => exact hds
  | some h => exact .cons (hf h) hds

/-- One instruction that both lists have. -/
theorem alike_split_cons {i i' : Nat} {rest rest' : List Instr}
    (hlabel : ∀ l, σ (.label l) = .label l) (hafter : σ (.after i) = .after i')
    (h : Option.Rel (Open.Alike σ) cur cur')
    (ih : ∀ {l : Location} {cur cur' : Option Open}, Option.Rel (Open.Alike σ) cur cur' →
      List.Forall₂ (Twin σ) (split (i + 1) l cur rest) (split (i' + 1) l cur' rest')) :
    List.Forall₂ (Twin σ) (split i l cur (p :: rest)) (split i' l cur' (p :: rest')) := by
  rcases plain_cases p with hop | hop | hop | hplain
  · rw [split_target hop, split_target hop]
    refine finish h (fun h => ?_) (ih (.some ⟨(hlabel _).symm, .refl _, rfl, ?_⟩))
    · simpa [hlabel] using h.close [.label p.label] (some (.label p.label)) l
    · simpa using jumps_of_target hop
  · rw [split_branch hop, split_branch hop]
    refine finish h (fun h => ?_) (ih (.some ⟨hafter.symm, .refl _, rfl, by simp⟩))
    simpa [hlabel, hafter] using h.closeWith (by simp [hop]) [.label p.label, .after i]
      (some (.after i)) l
  · rw [split_hop hop, split_hop hop]
    refine finish h (fun h => ?_) (ih .none)
    simpa [hlabel] using h.closeWith (by simp [hop]) [.label p.label] none l
  · have hpush : Option.Rel (Open.Alike σ) (cur.map (·.push p)) (cur'.map (·.push p)) := by
      cases h with
      | none => exact .none
      | some h => exact .some (h.push hplain)
    rw [split_plain hplain, split_plain hplain]
    split
    · exact finish hpush (fun h => h.close [] none l) (ih .none)
    · exact ih hpush

end Split

/-! ### One more instruction -/

section Insert

variable {us vs : List Instr} {m : Instr} {n i : Nat} {l : Location} {cur cur' : Option Open}

/-- After the instruction that is put in, names are one further. -/
theorem alike_split_after (hi : n ≤ i) (h : Option.Rel (Open.Alike (.shift n)) cur cur') :
    List.Forall₂ (Twin (.shift n)) (split i l cur vs) (split (i + 1) l cur' vs) := by
  induction vs generalizing i l cur cur' with
  | nil =>
    cases h with
    | none => exact .nil
    | some h =>
      have htwin := h.close [] none l
      exact .cons ⟨{ htwin.1 with exit := rfl }, htwin.2⟩ .nil
  | cons p vs ih =>
    have hafter : Start.shift n (.after i) = .after (i + 1) := by
      simp only [Start.shift, if_neg (Nat.not_lt.2 hi)]
    exact alike_split_cons (fun _ => rfl) hafter h fun h => ih (by omega) h

/-- Before the instruction that is put in, names are the same. -/
theorem alike_split (hm : m.IsPadding) (hn : i + us.length = n)
    (h : Option.Rel (Open.Alike (.shift n)) cur cur') : List.Forall₂ (Twin (.shift n))
      (split i l cur (us ++ vs)) (split i l cur' (us ++ m :: vs)) := by
  induction us generalizing i l cur cur' with
  | nil =>
    rw [List.nil_append, List.nil_append, split_plain hm.plain, if_neg (by simp [hm.transfers_eq]),
      hm.after_eq]
    refine alike_split_after (by simp at hn; omega) ?_
    cases h with
    | none => exact .none
    | some h => exact .some (h.pad hm)
  | cons p us ih =>
    rw [List.length_cons] at hn
    have hafter : Start.shift n (.after i) = .after i := by
      simp only [Start.shift, if_pos (show i < n by omega)]
    rw [List.cons_append, List.cons_append]
    exact alike_split_cons (fun _ => rfl) hafter h fun h => ih (by omega) h

theorem alike_cut (hm : m.IsPadding) : List.Forall₂ (Twin (.shift us.length))
    (cut (us ++ vs)) (cut (us ++ m :: vs)) :=
  alike_split hm (Nat.zero_add _) (.some ⟨rfl, .refl _, rfl, by simp⟩)

end Insert

/-! ### The other steps -/

section Steps

variable {σ : Start → Start} {ds ds' : List Draft} {d d' e e' : Draft} {s : Start}

theorem Twin.alike (h : List.Forall₂ (Twin σ) ds ds') : List.Forall₂ (Alike σ) ds ds' :=
  h.imp fun _ _ h => h.1

theorem rel_getElem? {R : Draft → Draft → Prop} (h : List.Forall₂ R ds ds') (i : Nat) :
    Option.Rel R ds[i]? ds'[i]? := by
  induction h generalizing i with
  | nil => exact .none
  | cons hd _ ih =>
    cases i with
    | zero => exact .some hd
    | succ i => exact ih i

/-- A draft only hops if all else it has is debug information. -/
theorem isHopOnly_iff : isHopOnly d = true ↔ ∃ p, ending? d.code = some p ∧ p.op = .hop ∧
    d.code.filter (fun p => !p.isMeta) = [p] := by
  rcases List.eq_nil_or_concat d.code with hcode | ⟨init, q, hcode⟩
  · simp [isHopOnly, hcode, ending?]
  · rw [List.concat_eq_append] at hcode
    have hop : q.op = .hop → q.op.jumps = true ∧ q.isMeta = false := by
      intro hop
      rw [Instr.isMeta, hop]
      exact ⟨rfl, rfl⟩
    rw [isHopOnly, hcode, ending?_concat]
    simp only [List.reverse_append, List.reverse_cons, List.reverse_nil, List.nil_append,
      List.singleton_append, Bool.and_eq_true, decide_eq_true_eq, List.all_reverse,
      List.all_eq_true, List.filter_append]
    constructor
    · rintro ⟨hq, hall⟩
      obtain ⟨hjumps, hmeta⟩ := hop hq
      refine ⟨q, if_pos hjumps, hq, ?_⟩
      have hnil : init.filter (fun p => !p.isMeta) = [] := by
        simpa [List.filter_eq_nil_iff] using hall
      simp [hnil, hmeta]
    · rintro ⟨p, hend, hp, hfilter⟩
      rw [Option.ite_none_right_eq_some, Option.some_inj] at hend
      obtain ⟨_, rfl⟩ := hend
      simp only [List.filter_cons, (hop hp).2, Bool.not_false, if_true, List.filter_nil] at hfilter
      have hnil : init.filter (fun p => !p.isMeta) = [] := by
        simpa using hfilter
      exact ⟨hp, by simpa [List.filter_eq_nil_iff] using hnil⟩

theorem Alike.isHopOnly_eq (h : Alike σ d d') : isHopOnly d' = isHopOnly d := by
  rw [Bool.eq_iff_iff, isHopOnly_iff, isHopOnly_iff, h.ending, h.code.filter_eq]

variable (hσ : Function.Injective σ)

include hσ

theorem contains_map {ss : List Start} : (ss.map σ).contains (σ s) = ss.contains s := by
  rw [Bool.eq_iff_iff, List.contains_iff_mem, List.contains_iff_mem, List.mem_map_of_injective hσ]

theorem successors_eq (h : List.Forall₂ (Alike σ) ds ds') (i : Nat) :
    successors ds'.toArray i = successors ds.toArray i := by
  have hlength : ds'.length = ds.length := h.length_eq.symm
  unfold successors
  simp only [List.getElem?_toArray, List.size_toArray, hlength]
  have hi := rel_getElem? h i
  generalize ds[i]? = x, ds'[i]? = x' at hi
  cases hi with
  | none => rfl
  | some hd =>
    refine List.filter_congr fun j _ => ?_
    have hj := rel_getElem? h j
    generalize ds[j]? = y, ds'[j]? = y' at hj
    cases hj with
    | none => rfl
    | some he => simp only [Option.any_some, hd.succ, he.start, contains_map hσ]

theorem predecessors_eq (h : List.Forall₂ (Alike σ) ds ds') (j : Nat) :
    predecessors ds'.toArray j = predecessors ds.toArray j := by
  have hlength : ds'.length = ds.length := h.length_eq.symm
  unfold predecessors
  simp only [List.getElem?_toArray, List.size_toArray, hlength]
  have hj := rel_getElem? h j
  generalize ds[j]? = x, ds'[j]? = x' at hj
  cases hj with
  | none => rfl
  | some hd =>
    refine List.filter_congr fun i _ => ?_
    have hi := rel_getElem? h i
    generalize ds[i]? = y, ds'[i]? = y' at hi
    cases hi with
    | none => rfl
    | some he => simp only [Option.any_some, hd.start, he.succ, contains_map hσ]

theorem alike_dropUnreached (h : List.Forall₂ (Twin σ) ds ds') :
    List.Forall₂ (Twin σ) (dropUnreached ds) (dropUnreached ds') := by
  have hsuccessors : successors ds'.toArray = successors ds.toArray :=
    funext (successors_eq hσ (Twin.alike h))
  rw [dropUnreached_eq, dropUnreached_eq, reachedAt, reachedAt, hsuccessors, ← h.length_eq]
  generalize Search.visited (successors ds.toArray) (List.range ds.length) [0] = is
  induction is with
  | nil => exact .nil
  | cons i is ih =>
    have hi := rel_getElem? h i
    rw [List.filterMap_cons, List.filterMap_cons]
    generalize ds[i]? = x, ds'[i]? = x' at hi
    cases hi with
    | none => exact ih
    | some hd => exact .cons hd ih

theorem ways_eq (h : List.Forall₂ (Alike σ) ds ds') : ways ds' (σ s) = ways ds s := by
  unfold ways
  induction h with
  | nil => rfl
  | cons hd _ ih => simp only [List.countP_cons, ih, hd.succ, contains_map hσ]

theorem isDetour_eq {prev prev' : Draft} (h : List.Forall₂ (Alike σ) ds ds')
    (hprev : Alike σ prev prev') (hd : Alike σ d d') (he : Alike σ e e') :
    isDetour ds' prev' d' e' = isDetour ds prev d e := by
  have hfall : (prev.fall.map σ = some (σ d.start)) ↔ prev.fall = some d.start := by
    rw [← Option.map_some, (Option.map_injective hσ).eq_iff]
  have hsucc : (d.succ.map σ = [σ e.start]) ↔ d.succ = [e.start] := by
    rw [← List.map_singleton, (List.map_injective_iff.2 hσ).eq_iff]
  simp only [isDetour, hd.isHopOnly_eq, hd.start, ways_eq hσ h, hprev.succ, contains_map hσ,
    hprev.fall, hd.succ, he.start, hfall, hsucc]

theorem Alike.reroute (h : Alike σ d d') (old new : Start) :
    Alike σ (d.reroute old new) (d'.reroute (σ old) (σ new)) := by
  refine ⟨h.start, ?_, rfl, h.exit, h.code, h.ending⟩
  simp only [Draft.reroute]
  rw [h.succ, ← List.map_erase hσ, contains_map hσ]
  split
  · rfl
  · rw [List.map_append, List.map_singleton]

theorem alike_elideAfter {done done' rest rest' : List Draft} {prev prev' : Draft}
    (hdone : List.Forall₂ (Twin σ) done done') (hprev : Twin σ prev prev')
    (hrest : List.Forall₂ (Twin σ) rest rest') :
    List.Forall₂ (Twin σ) (elideAfter done prev rest) (elideAfter done' prev' rest') := by
  induction hrest generalizing done done' prev prev' with
  | nil => exact List.rel_append (List.rel_reverse hdone) (.cons hprev .nil)
  | cons hd hrest ih =>
    cases hrest with
    | nil => exact List.rel_append (List.rel_reverse hdone) (.cons hprev (.cons hd .nil))
    | cons he hrest =>
      have hall := List.rel_append (List.rel_reverse hdone)
        (.cons hprev (.cons hd (.cons he hrest)))
      rw [elideAfter, elideAfter, isDetour_eq hσ (Twin.alike hall) hprev.1 hd.1 he.1]
      split
      · have hstart := hd.1.start
        rw [hstart, he.1.start]
        exact ih hdone ⟨hprev.1.reroute hσ _ _, hprev.2⟩
      · exact ih (.cons hprev hdone) hd

theorem alike_elideHops (h : List.Forall₂ (Twin σ) ds ds') :
    List.Forall₂ (Twin σ) (elideHops ds) (elideHops ds') := by
  cases h with
  | nil => exact .nil
  | cons hd hrest => exact alike_elideAfter hσ .nil hd hrest

end Steps

/-! ### Merging -/

section Join

variable {σ : Start → Start} {ds ds' : List Draft} {d d' e e' : Draft} {xs ys : List Instr}
  {p q : Instr}

theorem joinCode_of_hop (hp : ending? xs = some p) (hop : p.op = .hop) (hq : opening? ys = some q)
    (hlabel : q.label = p.label) : joinCode xs ys = xs.dropLast ++ ys.tail := by
  obtain ⟨hlast, _⟩ := ending?_eq_some.1 hp
  obtain ⟨hhead, htarget⟩ := opening?_eq_some.1 hq
  obtain ⟨rest, rfl⟩ := List.head?_eq_some_iff.1 hhead
  unfold joinCode
  rw [hlast]
  simp [hop, htarget, hlabel]

theorem joinCode_of_not (h : ∀ p q, ending? xs = some p → p.op = .hop → opening? ys = some q →
    q.label ≠ p.label) : joinCode xs ys = xs ++ ys := by
  unfold joinCode
  split
  · rename_i p q rest hlast
    split
    · rename_i hpair
      simp only [Bool.and_eq_true, decide_eq_true_eq] at hpair
      have hp : ending? xs = some p := ending?_eq_some.2 ⟨hlast, by rw [hpair.1.1]; rfl⟩
      have hq : opening? (q :: rest) = some q := opening?_eq_some.2 ⟨rfl, hpair.1.2⟩
      exact absurd hpair.2 (h p q hp hpair.1.1 hq)
    · rfl
  · rfl

theorem Inner.jumps_eq (h : Inner p) : p.op.jumps = false := by
  rw [Bool.eq_false_iff]
  intro hjumps
  rcases jumps_iff.1 hjumps with hop | hop
  · exact h.1 hop
  · exact h.op_ne_hop hop

/-- Two drafts in a row end as the second one does. -/
theorem ending?_joinCode (hends : Ends d.code d.succ)
    (hnamed : ∀ l, e.start = .label l → Begins e.code l) (hsucc : d.succ = [e.start])
    (hbranch : d.code.getLast?.any (·.op = .branch) = false) :
    ending? (joinCode d.code e.code) = ending? e.code := by
  by_cases h : ∃ p q, ending? d.code = some p ∧ p.op = .hop ∧ opening? e.code = some q ∧
      q.label = p.label
  · obtain ⟨p, q, hp, hop, hq, hlabel⟩ := h
    rw [joinCode_of_hop hp hop hq hlabel, ending?_append fun r hr => (hends.inner r hr).jumps_eq]
    obtain ⟨hhead, htarget⟩ := opening?_eq_some.1 hq
    obtain ⟨rest, hcode⟩ := List.head?_eq_some_iff.1 hhead
    rw [hcode, List.tail_cons, ← List.singleton_append]
    exact (ending?_append (by simpa using jumps_of_target htarget)).symm
  · have hnot : ∀ p q, ending? d.code = some p → p.op = .hop → opening? e.code = some q →
        q.label ≠ p.label := fun p q hp hop hq hlabel => h ⟨p, q, hp, hop, hq, hlabel⟩
    rw [joinCode_of_not hnot]
    refine ending?_append fun r hr => ?_
    rcases inner_of_chain hends hsucc hbranch hr with hinner | ⟨hlast, hop, hstart⟩
    · exact hinner.jumps_eq
    · -- a hop to the next draft finds its target there
      obtain ⟨q, hhead, htarget, hlabel⟩ := hnamed _ hstart
      exact absurd hlabel (hnot r q (ending?_eq_some.2 ⟨hlast, by rw [hop]; rfl⟩) hop
        (opening?_eq_some.2 ⟨hhead, htarget⟩))

theorem padded_joinCode {xs' ys' : List Instr} (hxs : Padded xs xs') (hys : Padded ys ys')
    (hending : ending? xs' = ending? xs) (hopening : opening? ys' = opening? ys) :
    Padded (joinCode xs ys) (joinCode xs' ys') := by
  by_cases h : ∃ p q, ending? xs = some p ∧ p.op = .hop ∧ opening? ys = some q ∧
      q.label = p.label
  · obtain ⟨p, q, hp, hop, hq, hlabel⟩ := h
    rw [joinCode_of_hop hp hop hq hlabel,
      joinCode_of_hop (hending.trans hp) hop (hopening.trans hq) hlabel]
    obtain ⟨hlast, hjumps⟩ := ending?_eq_some.1 hp
    obtain ⟨hlast', _⟩ := ending?_eq_some.1 (hending.trans hp)
    obtain ⟨hhead, htarget⟩ := opening?_eq_some.1 hq
    obtain ⟨hhead', _⟩ := opening?_eq_some.1 (hopening.trans hq)
    obtain ⟨rest, rfl⟩ := List.head?_eq_some_iff.1 hhead
    obtain ⟨rest', rfl⟩ := List.head?_eq_some_iff.1 hhead'
    rw [← List.dropLast_append_getLast? p hlast, ← List.dropLast_append_getLast? p hlast'] at hxs
    exact (hxs.of_concat (not_isPadding_of_jumps hjumps)).append
      (hys.of_cons (not_isPadding_of_target htarget))
  · have hnot : ∀ p q, ending? xs = some p → p.op = .hop → opening? ys = some q →
        q.label ≠ p.label := fun p q hp hop hq hlabel => h ⟨p, q, hp, hop, hq, hlabel⟩
    rw [joinCode_of_not hnot, joinCode_of_not (hending ▸ hopening ▸ hnot)]
    exact hxs.append hys

theorem any_getLast?_eq (xs : List Instr) :
    xs.getLast?.any (·.op = .branch) = (ending? xs).any (·.op = .branch) := by
  unfold ending?
  cases xs.getLast? with
  | none => rfl
  | some p =>
    rw [Option.filter_some]
    split
    · rfl
    · rename_i hjumps
      have hop : p.op ≠ .branch := fun hop => hjumps (by rw [hop]; rfl)
      simp [hop]

variable (hσ : Function.Injective σ)

include hσ

theorem isChain_eq (h : List.Forall₂ (Alike σ) ds ds') (hd : Alike σ d d') (he : Alike σ e e') :
    isChain ds' d' e' = isChain ds d e := by
  have hsucc : (d.succ.map σ = [σ e.start]) ↔ d.succ = [e.start] := by
    rw [← List.map_singleton, (List.map_injective_iff.2 hσ).eq_iff]
  simp only [isChain, any_getLast?_eq, hd.ending, hd.succ, he.start, ways_eq hσ h, hsucc]

theorem alike_mergeAfter {done done' rest rest' : List Draft}
    (hdone : List.Forall₂ (Alike σ) done done') (hd : Alike σ d d')
    (hrest : List.Forall₂ (Twin σ) rest rest') (hc : Coherent (done.reverse ++ d :: rest))
    (hw : Wired (done.reverse ++ d :: rest)) (hc' : Coherent (done'.reverse ++ d' :: rest'))
    (hw' : Wired (done'.reverse ++ d' :: rest')) :
    List.Forall₂ (Alike σ) (mergeAfter done d rest) (mergeAfter done' d' rest') := by
  induction hrest generalizing done done' d d' with
  | nil => exact List.rel_append (List.rel_reverse hdone) (.cons hd .nil)
  | @cons e e' rest rest' he hrest ih =>
    have hall := List.rel_append (List.rel_reverse hdone)
      (.cons hd (.cons he.1 (Twin.alike hrest)))
    have hsame := isChain_eq hσ hall hd he.1
    rw [mergeAfter, mergeAfter, hsame]
    split
    · rename_i hchain
      have hchain' := hsame.trans hchain
      obtain ⟨hsucc, hbranch, _⟩ := isChain_iff.1 hchain
      obtain ⟨hsucc', hbranch', _⟩ := isChain_iff.1 hchain'
      have hends := ending?_joinCode (hw.ends d (by simp)) (hw.named e (by simp)) hsucc hbranch
      have hends' :=
        ending?_joinCode (hw'.ends d' (by simp)) (hw'.named e' (by simp)) hsucc' hbranch'
      refine ih hdone ⟨hd.start, he.1.succ, he.1.fall, ?_, ?_, ?_⟩ (coherent_join hc hchain)
        (wired_join hc hw hchain) (coherent_join hc' hchain') (wired_join hc' hw' hchain')
      · simp only [join, hd.exit, he.1.exit]
      · exact padded_joinCode hd.code he.1.code hd.ending he.2
      · exact hends'.trans (he.1.ending.trans hends.symm)
    · refine ih (.cons hd hdone) he.1 ?_ ?_ ?_ ?_ <;>
        simpa only [List.reverse_cons, List.append_assoc, List.singleton_append]

end Join

/-- One more instruction that is padding. -/
theorem alike_ofCode {us vs : List Instr} {m : Instr} (hm : m.IsPadding)
    (h : Labelled (us ++ vs)) (h' : Labelled (us ++ m :: vs)) :
    List.Forall₂ (Alike (.shift us.length)) (ofCode (us ++ vs)) (ofCode (us ++ m :: vs)) := by
  have hσ := Start.shift_injective us.length
  obtain ⟨hc, hw⟩ := wired_elideHops h
  obtain ⟨hc', hw'⟩ := wired_elideHops h'
  have hcut : List.Forall₂ (Twin (.shift us.length)) (cut (us ++ vs)) (cut (us ++ m :: vs)) :=
    alike_cut hm
  have htwins := alike_elideHops hσ (alike_dropUnreached hσ hcut)
  rw [show ofCode (us ++ vs) = mergeChains (elideHops (dropUnreached (cut (us ++ vs)))) from rfl,
    show ofCode (us ++ m :: vs) =
      mergeChains (elideHops (dropUnreached (cut (us ++ m :: vs)))) from rfl]
  generalize elideHops (dropUnreached (cut (us ++ vs))) = ds at hc hw htwins
  generalize elideHops (dropUnreached (cut (us ++ m :: vs))) = ds' at hc' hw' htwins
  cases htwins with
  | nil => exact .nil
  | cons hd hrest => exact alike_mergeAfter hσ .nil hd.1 hrest hc hw hc' hw'

end Draft

/-! ## Blocks -/

section Facts

variable {xs ys : List Instr}

/-- The bytes that the instruction reads from the operand cursor. -/
def Instr.cursorBytes (p : Instr) : Int64 :=
  p.operands + if p.op = .compound then p.nested.elim 0 (·.effect.cursor) else 0

theorem Instr.cursor_meter (m : Meter) (p : Instr) :
    (p.meter m).cursor = m.cursor + p.cursorBytes := by
  unfold Instr.meter Instr.cursorBytes
  simp only
  split
  · cases hnested : p.nested with
    | none => simp [Meter.fetch]
    | some sub =>
      simp only [Option.elim_some, Meter.apply]
      split
      · rw [Meter.cursor_push, Meter.cursor_pop]
        simp only [Meter.fetch, Int64.add_assoc]
      · simp only [Meter.fetch, Meter.reset, Int64.add_assoc]
  · rw [Meter.cursor_push]
    split
    · simp only [Meter.reset, Meter.cursor_pop, Meter.fetch, Int64.add_zero]
    · simp only [Meter.cursor_pop, Meter.fetch, Int64.add_zero]

/-- Padding reads nothing from the operand cursor. -/
theorem Block.cursor_of_padded (h : Padded xs ys) :
    (factsOf ys).effect.cursor = (factsOf xs).effect.cursor := by
  simp only [factsOf, Meter.cursor_effect]
  suffices hall : ∀ {m m' : Meter}, m'.cursor = m.cursor →
      (ys.foldl Instr.meter m').cursor = (xs.foldl Instr.meter m).cursor from hall rfl
  induction h with
  | nil => exact fun hm => hm
  | keep p _ ih =>
    intro m m' hm
    exact ih (by rw [Instr.cursor_meter, Instr.cursor_meter, hm])
  | pad hpadding _ ih =>
    intro m m' hm
    refine ih ?_
    have hnone : ∀ {p : Instr}, p.IsPadding → p.cursorBytes = 0 := by
      intro p hp
      cases hp <;> rfl
    rw [Instr.cursor_meter, hnone hpadding, Int64.add_zero, hm]

theorem Block.defsOf_of_padded (h : Padded xs ys) : defsOf ys = defsOf xs := by
  have hfilter : ys.filter (·.op = .tstore) = xs.filter (·.op = .tstore) := by
    induction h with
    | nil => rfl
    | keep p _ ih => simp only [List.filter_cons, ih]
    | pad hm _ ih =>
      have hop : ∀ {p : Instr}, p.IsPadding → p.op ≠ .tstore := by
        intro p hp
        cases hp <;> exact nofun
      rw [List.filter_cons_of_neg (by simpa using hop hm), ih]
  unfold defsOf
  rw [hfilter]

theorem Block.usesOf_of_padded (h : Padded xs ys) (stored : TempSet) :
    usesOf stored ys = usesOf stored xs := by
  induction h generalizing stored with
  | nil => rfl
  | keep p _ ih => simp only [usesOf, ih]
  | pad hm _ ih =>
    cases hm <;> exact ih stored

end Facts

/-- Blocks that are the same but for padding. -/
structure Block.Alike (k k' : Block) : Prop where
  pred : k'.pred = k.pred
  succ : k'.succ = k.succ
  exit : k'.exit = k.exit
  code : Padded k.code k'.code
  defs : k'.facts.defs = k.facts.defs
  uses : k'.facts.uses = k.facts.uses
  cursor : k'.facts.effect.cursor = k.facts.effect.cursor

namespace Block.Alike

variable {k k' k'' : Block}

theorem refl (k : Block) : Alike k k :=
  ⟨rfl, rfl, rfl, .refl _, rfl, rfl, rfl⟩

theorem trans (h : Alike k k') (h' : Alike k' k'') : Alike k k'' where
  pred := h'.pred.trans h.pred
  succ := h'.succ.trans h.succ
  exit := h'.exit.trans h.exit
  code := h.code.trans h'.code
  defs := h'.defs.trans h.defs
  uses := h'.uses.trans h.uses
  cursor := h'.cursor.trans h.cursor

end Block.Alike

namespace Layout

/-- Layouts whose blocks are the same but for padding. -/
structure Alike (layout layout' : Layout) : Prop where
  size : layout'.size = layout.size
  block : ∀ b, (layout.block b).Alike (layout'.block b)

namespace Alike

variable {layout layout' layout'' : Layout}

theorem refl (layout : Layout) : Alike layout layout := ⟨rfl, fun _ => .refl _⟩

theorem trans (h : Alike layout layout') (h' : Alike layout' layout'') : Alike layout layout'' :=
  ⟨h'.size.trans h.size, fun b => (h.block b).trans (h'.block b)⟩

variable (h : Alike layout layout')

include h

theorem indices : layout'.indices = layout.indices := by
  rw [Layout.indices, h.size, Layout.indices]

theorem succ : layout'.succ = layout.succ := funext fun b => (h.block b).succ

theorem pred : layout'.pred = layout.pred := funext fun b => (h.block b).pred

end Alike

/-- The blocks of drafts that are alike. -/
theorem alike_ofDrafts {σ : Start → Start} (hσ : Function.Injective σ) {ds ds' : List Draft}
    (h : List.Forall₂ (Draft.Alike σ) ds ds') :
    Alike (ofDrafts ds.toArray) (ofDrafts ds'.toArray) := by
  have hlength := h.length_eq
  refine ⟨by simp [hlength], fun b => ?_⟩
  have hb := Draft.rel_getElem? h b
  cases hd : ds[b]? with
  | none =>
    have hsize := List.getElem?_eq_none_iff.1 hd
    rw [block_of_size_le (by simpa using hsize),
      block_of_size_le (by simpa [← hlength] using hsize)]
    exact .refl _
  | some d =>
    rw [hd] at hb
    generalize hd' : ds'[b]? = x' at hb
    cases hb with
    | some halike =>
      rw [block_ofDrafts hd, block_ofDrafts hd', Draft.successors_eq hσ h,
        Draft.predecessors_eq hσ h]
      exact {
        pred := rfl
        succ := rfl
        exit := halike.exit
        code := halike.code
        defs := Block.defsOf_of_padded halike.code
        uses := Block.usesOf_of_padded halike.code ∅
        cursor := Block.cursor_of_padded halike.code }

/-- The blocks of a routine are the same but for the padding that is put into it. -/
theorem alike_ofCode {ptr : Int64} {xs ys : List Instr} (h : Padded xs ys)
    (hcheck : Scope.check ptr xs = .ok ()) : Alike (ofCode xs) (ofCode ys) := by
  -- the instructions are put in one by one, from the front on
  suffices hall : ∀ us, Scope.check ptr (us ++ xs) = .ok () →
      Alike (ofCode (us ++ xs)) (ofCode (us ++ ys)) from hall [] hcheck
  clear hcheck
  induction h with
  | nil => exact fun us _ => .refl _
  | @keep p xs ys h ih =>
    intro us hcheck
    rw [List.append_cons us p xs] at hcheck ⊢
    rw [List.append_cons us p ys]
    exact ih (us ++ [p]) hcheck
  | @pad m hm xs ys h ih =>
    intro us hcheck
    have hpadded : Padded (us ++ xs) (us ++ m :: xs) := (Padded.refl us).append (.pad hm (.refl xs))
    have hcheck' : Scope.check ptr (us ++ m :: xs) = .ok () :=
      (Scope.check_of_padded hpadded ptr).trans hcheck
    have hlabelled := Scope.labelled_of_check hcheck
    have hlabelled' := Scope.labelled_of_check hcheck'
    have hone : Alike (ofCode (us ++ xs)) (ofCode (us ++ m :: xs)) := by
      rw [ofCode_eq hlabelled, ofCode_eq hlabelled']
      exact alike_ofDrafts (Start.shift_injective us.length)
        (Draft.alike_ofCode hm hlabelled hlabelled')
    have hrest := ih (us ++ [m])
    rw [← List.append_cons us m xs, ← List.append_cons us m ys] at hrest
    exact hone.trans (hrest hcheck')

end Layout

end StackFlow
