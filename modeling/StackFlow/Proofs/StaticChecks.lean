import StackFlow.Proofs.Labels

/-!
# What the static checks let through

The checks go through a list once, and hold each instruction against what the ones before it have
declared: the first type of every temporary, and the labels that have a target.

* `Scope.declare_eq_ok_iff` is one instruction.
* `Scope.Admissible` says what the instructions of a list have to do with each other, without an
  order among them.  Only the first type of a temporary is compared, and that is enough because
  compatible types are equivalent (`Ty.compatible_equivalence`).
* `Scope.Describes` is what the declarations keep of the instructions before;
  `Scope.declareAll_eq_ok_iff` follows it through a list, and `Scope.check_eq_ok_iff` adds that
  every jump has a target.
-/

namespace StackFlow

/-- The types that may share a temporary are the classes of an equivalence. -/
theorem Ty.compatible_equivalence (ptr : Int64) :
    Equivalence fun a b => Ty.compatible ptr a b = true where
  refl a := by simp [compatible]
  symm {a b} h := by
    unfold compatible at h ⊢
    by_cases hints : a.isInt && b.isInt
    · rw [if_pos hints, beq_iff_eq] at h
      rw [Bool.and_comm, if_pos hints, h, beq_self_eq_true]
    · rw [if_neg hints, beq_iff_eq] at h
      rw [h] at hints ⊢
      rw [if_neg hints, beq_self_eq_true]
  trans {a b c} hab hbc := by
    unfold compatible at hab hbc ⊢
    cases ha : a.isInt <;> cases hb : b.isInt <;> cases hc : c.isInt <;>
      simp_all

namespace Scope

variable {ptr : Int64} {d d' : Declared} {p : Instr} {pre code : List Instr}

/-! ## One instruction -/

/-- What is declared after an instruction that has passed its checks. -/
def Declared.note (d : Declared) (p : Instr) : Declared where
  types :=
    if p.accessesTemp = true ∧ d.types.lookup p.temp = none then (p.temp, p.ty) :: d.types
    else d.types
  targets := if p.op = .target then p.label :: d.targets else d.targets

/-- What the checks of one instruction look at. -/
theorem declare_eq_ok_iff : declare ptr d p = .ok d' ↔ p.validate = .ok () ∧
    (p.accessesTemp = true →
      ∀ ty, d.types.lookup p.temp = some ty → Ty.compatible ptr ty p.ty = true) ∧
    (p.op = .target → p.label ∉ d.targets) ∧ d.note p = d' := by
  -- the target of a label comes last
  have htarget : ∀ {d₁ : Declared}, d₁.targets = d.targets →
      ((if p.op = .target then
        if d₁.targets.contains p.label then .error (.malformed (.duplicateTarget p.label))
        else .ok { d₁ with targets := p.label :: d₁.targets }
      else .ok d₁) = (Except.ok d' : Except FlowError Declared) ↔
      (p.op = .target → p.label ∉ d.targets) ∧
        { d₁ with targets := (d.note p).targets } = d') := by
    intro d₁ htargets
    by_cases hop : p.op = .target
    · by_cases hmem : p.label ∈ d.targets <;> simp [hop, htargets, hmem, Declared.note]
    · have hsame : { d₁ with targets := d.targets } = d₁ := by rw [← htargets]
      simp [hop, Declared.note, hsame]
  simp only [declare, bind, Except.bind, pure, Except.pure, throw, throwThe,
    MonadExceptOf.throw]
  cases hvalid : p.validate with
  | error e => simp
  | ok =>
    by_cases haccess : p.accessesTemp = true
    · cases hold : d.types.lookup p.temp with
      | none =>
        have htypes : ({ d with types := (p.temp, p.ty) :: d.types } : Declared).targets =
            d.targets := rfl
        simp only [haccess, if_true]
        rw [htarget htypes]
        simp [Declared.note, haccess, hold]
      | some old =>
        cases hcompatible : Ty.compatible ptr old p.ty
        · simp [haccess, hcompatible]
        · simp only [haccess, if_true, hcompatible]
          rw [htarget rfl]
          simp [Declared.note, haccess, hold, hcompatible]
    · simp only [haccess, Bool.false_eq_true, if_false]
      rw [htarget rfl]
      simp [Declared.note, haccess]

/-! ## The list -/

/-- Whether two instructions agree on the type of a temporary, should they use the same one. -/
def Agree (ptr : Int64) (p q : Instr) : Prop :=
  p.accessesTemp = true → q.accessesTemp = true → p.temp = q.temp →
    Ty.compatible ptr p.ty q.ty = true

theorem Agree.refl (ptr : Int64) (p : Instr) : Agree ptr p p :=
  fun _ _ _ => (Ty.compatible_equivalence ptr).refl _

theorem Agree.symm {q : Instr} (h : Agree ptr p q) : Agree ptr q p :=
  fun hq hp htemp => (Ty.compatible_equivalence ptr).symm (h hp hq htemp.symm)

/-- What holds of instructions that have been checked one after the other. -/
structure Admissible (ptr : Int64) (code : List Instr) : Prop where
  valid : ∀ p ∈ code, p.validate = .ok ()
  nodup : (targetLabels code).Nodup
  typed : ∀ p ∈ code, ∀ q ∈ code, Agree ptr p q

/-- The declarations `d` are those of the instructions `pre`. -/
structure Describes (d : Declared) (pre : List Instr) : Prop where
  types : ∀ t, d.types.lookup t =
    (pre.find? fun p => p.accessesTemp && p.temp = t).map (·.ty)
  targets : ∀ l, l ∈ d.targets ↔ l ∈ targetLabels pre

theorem describes_nil : Describes {} [] := ⟨fun _ => rfl, fun _ => Iff.rfl⟩

theorem Describes.note (h : Describes d pre) (p : Instr) : Describes (d.note p) (pre ++ [p]) where
  types t := by
    rw [List.find?_append, Option.map_or, ← h.types, Declared.note]
    by_cases haccess : p.accessesTemp = true
    · by_cases htemp : p.temp = t
      · subst htemp
        cases hold : d.types.lookup p.temp <;> simp [haccess, hold]
      · have hother : (t == p.temp) = false := by simpa using Ne.symm htemp
        split <;> simp [haccess, htemp, List.lookup_cons, hother]
    · simp [haccess]
  targets l := by
    rw [targetLabels_append, List.mem_append, ← h.targets, Declared.note]
    by_cases hop : p.op = .target
    · simp [targetLabels, hop, or_comm]
    · simp [targetLabels, hop]

/-- An instruction passes its checks exactly if it fits to all before it. -/
theorem admissible_concat_iff (h : Describes d pre) (hpre : Admissible ptr pre) :
    Admissible ptr (pre ++ [p]) ↔ declare ptr d p = .ok (d.note p) := by
  rw [declare_eq_ok_iff]
  constructor
  · intro hall
    refine ⟨hall.valid p (by simp), fun haccess ty hty => ?_, fun hop hmem => ?_, rfl⟩
    · rw [h.types, Option.map_eq_some_iff] at hty
      obtain ⟨q, hq, rfl⟩ := hty
      have hfirst := List.find?_some hq
      rw [Bool.and_eq_true, decide_eq_true_eq] at hfirst
      exact hall.typed q (by simp [List.mem_of_find?_eq_some hq]) p (by simp) hfirst.1 haccess
        hfirst.2
    · have hnodup := hall.nodup
      rw [targetLabels_append, List.nodup_append] at hnodup
      exact hnodup.2.2 _ ((h.targets _).1 hmem) p.label (by simp [targetLabels, hop]) rfl
  · rintro ⟨hvalid, htyped, hnew, -⟩
    -- what agrees with the first access of a temporary agrees with all accesses
    have hagree : ∀ q ∈ pre, Agree ptr q p := by
      intro q hq hqaccess haccess htemp
      cases hfirst : pre.find? fun r => r.accessesTemp && r.temp = p.temp with
      | none =>
        have hnone := List.find?_eq_none.1 hfirst q hq
        simp [hqaccess, htemp] at hnone
      | some r =>
        have hr := List.find?_some hfirst
        rw [Bool.and_eq_true, decide_eq_true_eq] at hr
        have hqr := hpre.typed q hq r (List.mem_of_find?_eq_some hfirst) hqaccess hr.1
          (htemp.trans hr.2.symm)
        refine (Ty.compatible_equivalence ptr).trans hqr (htyped haccess r.ty ?_)
        rw [h.types, hfirst, Option.map_some]
    refine ⟨fun q hq => ?_, ?_, fun q hq r hr => ?_⟩
    · rcases List.mem_append.1 hq with hq | hq
      · exact hpre.valid q hq
      · exact List.mem_singleton.1 hq ▸ hvalid
    · rw [targetLabels_append]
      by_cases hop : p.op = .target
      · have hlabel := hnew hop
        rw [h.targets] at hlabel
        have hself : targetLabels [p] = [p.label] := by simp [targetLabels, hop]
        rw [hself]
        exact List.nodup_append.2 ⟨hpre.nodup, List.nodup_singleton _, fun l hl l' hl' heq =>
          hlabel (List.mem_singleton.1 hl' ▸ heq ▸ hl)⟩
      · have hnone : targetLabels [p] = [] := by simp [targetLabels, hop]
        rw [hnone, List.append_nil]
        exact hpre.nodup
    · rw [List.mem_append, List.mem_singleton] at hq hr
      rcases hq with hq | rfl <;> rcases hr with hr | rfl
      · exact hpre.typed q hq r hr
      · exact hagree q hq
      · exact (hagree r hr).symm
      · exact Agree.refl ptr _

theorem Admissible.of_append {xs ys : List Instr} (h : Admissible ptr (xs ++ ys)) :
    Admissible ptr xs where
  valid p hp := h.valid p (List.mem_append_left _ hp)
  nodup := by
    have hnodup := h.nodup
    rw [targetLabels_append] at hnodup
    exact hnodup.of_append_left
  typed p hp q hq := h.typed p (List.mem_append_left _ hp) q (List.mem_append_left _ hq)

theorem Describes.foldl_note (h : Describes d pre) (code : List Instr) :
    Describes (code.foldl Declared.note d) (pre ++ code) := by
  induction code generalizing d pre with
  | nil => rwa [List.append_nil]
  | cons p code ih =>
    rw [List.append_cons]
    exact ih (h.note p)

/-- The checks of a list, one instruction after the other, with `pre` before it. -/
theorem declareAll_eq_ok_iff {l : Location} (h : Describes d pre) (hpre : Admissible ptr pre) :
    declareAll ptr d (located l code) = .ok d' ↔
      Admissible ptr (pre ++ code) ∧ code.foldl Declared.note d = d' := by
  induction code generalizing d pre l with
  | nil => simp [located, declareAll, hpre]
  | cons p code ih =>
    rw [located, declareAll, List.append_cons, List.foldl_cons]
    by_cases hp : Admissible ptr (pre ++ [p])
    · rw [(admissible_concat_iff h hpre).1 hp]
      exact ih (h.note p) hp
    · refine iff_of_false (fun hd' => hp ?_) fun hall => hp hall.1.of_append
      split at hd'
      · rename_i d₁ hd₁
        have hnote := (declare_eq_ok_iff.1 hd₁).2.2.2
        exact (admissible_concat_iff h hpre).2 (hnote ▸ hd₁)
      · cases hd'

/-! ## All checks -/

@[simp] theorem located_map_snd (l : Location) (code : List Instr) :
    (located l code).map (·.2) = code := by
  induction code generalizing l with
  | nil => rfl
  | cons p code ih => simp [located, ih]

theorem mem_iff_mem_located (l : Location) : p ∈ code ↔ ∃ lp ∈ located l code, lp.2 = p := by
  rw [← List.mem_map, located_map_snd]

/-- A list of instructions passes the static checks exactly if each of them is valid, labels and
targets fit together, and all uses of a temporary have compatible types. -/
theorem check_eq_ok_iff : check ptr code = .ok () ↔ (∀ p ∈ code, p.validate = .ok ()) ∧
    Labelled code ∧ ∀ p ∈ code, ∀ q ∈ code, Agree ptr p q := by
  have hdescribes : Describes (code.foldl Declared.note {}) code := describes_nil.foldl_note code
  have hrun : ∀ d, declareAll ptr {} (located {} code) = .ok d ↔
      Admissible ptr code ∧ code.foldl Declared.note {} = d := fun d =>
    declareAll_eq_ok_iff describes_nil ⟨by simp, List.nodup_nil, by simp⟩
  have hdangling : dangling? (code.foldl Declared.note {}).targets (located {} code) = none ↔
      ∀ p ∈ code, p.op.jumps = true → p.label ∈ targetLabels code := by
    simp only [dangling?, List.find?_eq_none, ← hdescribes.targets]
    constructor
    · intro hnone p hp hjumps
      obtain ⟨lp, hlp, rfl⟩ := (mem_iff_mem_located {}).1 hp
      simpa [hjumps] using hnone lp hlp
    · intro hdefined lp hlp
      simpa using hdefined lp.2 ((mem_iff_mem_located {}).2 ⟨lp, hlp, rfl⟩)
  rw [check, labelled_iff]
  constructor
  · intro h
    split at h
    · cases h
    · rename_i d hd
      obtain ⟨hall, rfl⟩ := (hrun d).1 hd
      split at h
      · cases h
      · rename_i hnone
        exact ⟨hall.valid, ⟨hall.nodup, hdangling.1 hnone⟩, hall.typed⟩
  · rintro ⟨hvalid, ⟨hnodup, hdefined⟩, htyped⟩
    rw [(hrun _).2 ⟨⟨hvalid, hnodup, htyped⟩, rfl⟩]
    simp only [hdangling.2 hdefined]

theorem validate_of_check (h : check ptr code = .ok ()) : ∀ p ∈ code, p.validate = .ok () :=
  (check_eq_ok_iff.1 h).1

theorem labelled_of_check (h : check ptr code = .ok ()) : Labelled code :=
  (check_eq_ok_iff.1 h).2.1

theorem agree_of_check (h : check ptr code = .ok ()) : ∀ p ∈ code, ∀ q ∈ code, Agree ptr p q :=
  (check_eq_ok_iff.1 h).2.2

end Scope

end StackFlow
