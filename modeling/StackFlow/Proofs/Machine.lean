import StackFlow.Proofs.Liveness

/-!
# Runs of a graph

What the elision passes promise is about objects, so this module says what a run of a
graph does with them.  A run keeps the events so far, one for each instruction that was
executed; the time of an event is its position in that list.

* `Value`, `Event`, `Machine` and `Exec` give one step.  An object is named by the time
  of its allocation.  Of an instruction whose outcome is not fixed, a run may see any
  outcome; a reference to an object only comes back out of what it was handed to.
* `Run` gives the runs of a graph, from the entry and any values on the stack.
* `Run.walk` forgets the data, `Walk.exists_run` says that every walk is that of a run, and
  `Run.before` looks at a run at an earlier time.
* `Run.loaded` says that a load yields what was stored last.
-/

namespace StackFlow

/-! ## Instructions made with the constructors -/

namespace Instr

/-- The instructions that the constructors make. -/
inductive Constructed : Instr → Prop where
  | plain {op : Opcode} (h : op ∈ [.nop, .gcMalloc, .gcAllocateOnly, .fullyInitialized, .jump,
      .farJump, .call, .pick, .stack, .flush, .gcSafe, .gcSafeCall, .drop, .dropN]) :
      Constructed (.ofOpcode op)
  | texted {op : Opcode} (h : op ∈ [.comment, .file, .nCall, .vCall, .nCallNoGc])
      (text : String) : Constructed (.texted op text)
  | numbered {op : Opcode} (h : op ∈ [.line, .number, .insert]) (value : Int64) :
      Constructed (.numbered op value)
  | typed {op : Opcode} (h : op ∈ [.rload, .rstore, .rstoreSimple, .pload, .pstore, .nativeArg,
      .alloca]) (ty : Ty) : Constructed (.typed op ty)
  | name (temp : Int64) (text : String) : Constructed (.name temp text)
  | fetch (n : Int64) : Constructed (.fetch n)
  | tload (ty : Ty) (temp : Int64) : Constructed (.tload ty temp)
  | tstore (ty : Ty) (temp : Int64) : Constructed (.tstore ty temp)
  | branch (label : Int64) (sense : Bool) : Constructed (.branch label sense)
  | hop (label : Int64) : Constructed (.hop label)
  | target (label : Int64) : Constructed (.target label)
  | ret (ty : Ty) : Constructed (.ret ty)
  | operator (text : String) (inputs outputs : Int64) :
      Constructed (.operator text inputs outputs)
  | compound (sub : Summary Instr) : Constructed (.compound sub)

/-- Whether the instruction takes and leaves what its opcode says. -/
def Shaped (p : Instr) : Prop :=
  p.op ≠ .ret → p.op ≠ .operator →
    p.inputs = p.op.row.inputs ∧ p.outputs = p.op.row.outputs

@[simp] theorem op_ret (ty : Ty) : (ret ty).op = .ret := by
  unfold ret
  split <;> rfl

theorem Constructed.shaped {p : Instr} (h : Constructed p) : p.Shaped := by
  cases h with
  | ret ty => exact fun hret => absurd (op_ret ty) hret
  | operator => exact fun _ hop => absurd rfl hop
  | _ => exact fun _ _ => ⟨rfl, rfl⟩

end Instr

theorem Threading.constructed_thread {code : List Instr} (h : ∀ p ∈ code, p.Constructed) :
    ∀ p ∈ thread code, p.Constructed := by
  intro q hq
  obtain ⟨p, hp, rfl⟩ := List.mem_map.1 hq
  simp only [redirect]
  split
  · exact h p hp
  · split
    · exact .branch _ _
    · split
      · exact .hop _
      · exact h p hp

/-- The instructions of a graph have their shapes. -/
theorem Graph.Built.shaped {o : Options} {code : List Instr} {g : Graph} (h : Built o code g)
    (hmade : ∀ p ∈ code, p.Constructed) {b : Nat} {p : Instr} (hp : p ∈ (g.block b).code) :
    p.Shaped :=
  (Threading.constructed_thread hmade p (h.instr_mem hp)).shaped

/-! ## One step -/

/-- What a stack slot or a temporary holds. -/
inductive Value where
  /-- A constant. -/
  | number (n : Int64)
  /-- A reference to the object that was allocated at the given time. -/
  | object (time : Nat)
  /-- Anything else. -/
  | other (n : Nat)
deriving DecidableEq

/-- The execution of one instruction. -/
structure Event where
  place : Place
  instr : Instr
  /-- What the instruction took from the stack, the topmost value last. -/
  operands : List Value
  /-- What the instruction left on the stack, the topmost value last. -/
  results : List Value

/-- Whether the instruction allocates an object. -/
def Instr.allocates (p : Instr) : Bool := p.op = .gcMalloc || p.op = .gcAllocateOnly

/-- Whether the instruction stores into a field of an object. -/
def Instr.storesField (p : Instr) : Bool := p.op = .rstore || p.op = .rstoreSimple

/-- The operands that the instruction hands on.  A store into a temporary keeps its
operand there, and a store into a field only writes through its target. -/
def Instr.handsOn (p : Instr) (operands : List Value) : List Value :=
  if p.op = .tstore then []
  else if p.storesField then operands.eraseIdx 1
  else operands

/-- The values that an instruction may come up with: a reference to an object only if it
was handed on before, or is handed on now. -/
def Known (h : List Event) (handed : List Value) (v : Value) : Prop :=
  ∀ k, v = .object k → v ∈ handed ∨ ∃ e ∈ h, v ∈ e.instr.handsOn e.operands

/-- The operand stack, the topmost value first, and the temporaries. -/
structure Machine where
  stack : List Value
  temps : Int64 → Value

/-- What an instruction with operands of a fixed number leaves on the stack. -/
def Leaves (h : List Event) (p : Instr) (operands results : List Value) : Prop :=
  if p.op = .number then results = [.number p.value]
  else if p.allocates then results = [.object h.length]
  else results.length = p.outputs.toInt.toNat ∧ ∀ v ∈ results, Known h (p.handsOn operands) v

/-- `Exec h p m operands results m'`: after the events `h`, the instruction `p` may take
the machine from `m` to `m'`. -/
inductive Exec (h : List Event) (p : Instr) (m : Machine) :
    List Value → List Value → Machine → Prop where
  | skip (silent : p.isMeta = true) : Exec h p m [] [] m
  | load (op : p.op = .tload) :
      Exec h p m [] [m.temps p.temp] { m with stack := m.temps p.temp :: m.stack }
  | store {v : Value} {rest : List Value} (op : p.op = .tstore) (top : m.stack = v :: rest) :
      Exec h p m [v] []
        { stack := rest, temps := fun t => if t = p.temp then v else m.temps t }
  /-- Nothing is known of how many operands there are, and of what is left. -/
  | complex {left : List Value} (complex : p.isComplex = true)
      (known : ∀ v ∈ left, Known h (p.handsOn m.stack.reverse) v) :
      Exec h p m m.stack.reverse left.reverse { m with stack := left }
  | plain {taken rest results : List Value} (spoken : p.isMeta = false)
      (paired : p.isComplex = false) (noTemp : p.accessesTemp = false)
      (stack : m.stack = taken ++ rest) (count : taken.length = p.inputs.toInt.toNat)
      (leaves : Leaves h p taken.reverse results) :
      Exec h p m taken.reverse results { m with stack := results.reverse ++ rest }

/-! ## Runs -/

/-- `Run g h b i m`: a run of `g` has executed the events `h`, and is before index `i` of
block `b` in the state `m`. -/
inductive Run (g : Graph) : List Event → Nat → Nat → Machine → Prop where
  | start {m : Machine} (stack : ∀ k, .object k ∉ m.stack)
      (temps : ∀ k t, m.temps t ≠ .object k) : Run g [] 0 0 m
  | exec {h : List Event} {b i : Nat} {m m' : Machine} {p : Instr}
      {operands results : List Value} (run : Run g h b i m)
      (at_ : (g.block b).code[i]? = some p) (step : Exec h p m operands results m') :
      Run g (h ++ [⟨⟨b, i⟩, p, operands, results⟩]) b (i + 1) m'
  | jump {h : List Event} {b i s : Nat} {m : Machine} (run : Run g h b i m)
      (done : i = (g.block b).code.length) (way : s ∈ (g.block b).succ) : Run g h s 0 m

/-- The value `v` that was stored last into `t`, at time `n`. -/
def LastStore (h : List Event) (t : Int64) (n : Nat) (v : Value) : Prop :=
  (∃ e, h[n]? = some e ∧ e.instr.stores t = true ∧ e.operands = [v]) ∧
    ∀ n' e, n < n' → h[n']? = some e → e.instr.stores t = false

namespace LastStore

variable {h : List Event} {t : Int64} {n : Nat} {v : Value} {e : Event}

theorem append (hlast : LastStore h t n v) (he : e.instr.stores t = false) :
    LastStore (h ++ [e]) t n v := by
  obtain ⟨⟨e₀, he₀, hstores, hoperands⟩, hafter⟩ := hlast
  refine ⟨⟨e₀, ?_, hstores, hoperands⟩, fun n' e' hn' he' => ?_⟩
  · rwa [List.getElem?_append_left (List.getElem?_eq_some_iff.1 he₀).1]
  · rcases Nat.lt_or_ge n' h.length with hlt | hge
    · exact hafter n' e' hn' (by rwa [List.getElem?_append_left hlt] at he')
    · rw [List.getElem?_append_right hge, List.getElem?_singleton] at he'
      split at he'
      · cases he'
        exact he
      · cases he'

theorem append_self (hstores : e.instr.stores t = true) (hoperands : e.operands = [v]) :
    LastStore (h ++ [e]) t h.length v := by
  refine ⟨⟨e, by simp, hstores, hoperands⟩, fun n' e' hn' he' => ?_⟩
  have hlt := (List.getElem?_eq_some_iff.1 he').1
  rw [List.length_append, List.length_singleton] at hlt
  omega

/-- What was stored last stays so as long as nothing else is stored. -/
theorem extend {n₀ n₁ : Nat} (hlast : LastStore (h.take n₀) t n v) (hle : n₀ ≤ n₁)
    (hnone : ∀ k e, n₀ ≤ k → k < n₁ → h[k]? = some e → e.instr.stores t = false) :
    LastStore (h.take n₁) t n v := by
  obtain ⟨⟨e, he, hstores⟩, hafter⟩ := hlast
  rw [List.getElem?_take] at he
  split at he
  · rename_i hn
    refine ⟨⟨e, ?_, hstores⟩, fun k e' hk he' => ?_⟩
    · rw [List.getElem?_take, if_pos (Nat.lt_of_lt_of_le hn hle), he]
    · rw [List.getElem?_take] at he'
      split at he'
      · rename_i hk₁
        rcases Nat.lt_or_ge k n₀ with hk₀ | hk₀
        · exact hafter k e' hk (by rw [List.getElem?_take, if_pos hk₀, he'])
        · exact hnone k e' hk₀ hk₁ he'
      · cases he'
  · cases he

theorem unique {n' : Nat} {v' : Value} (hlast : LastStore h t n v) (hlast' : LastStore h t n' v') :
    n = n' ∧ v = v' := by
  obtain ⟨⟨e, he, hstores, hoperands⟩, hafter⟩ := hlast
  obtain ⟨⟨e', he', hstores', hoperands'⟩, hafter'⟩ := hlast'
  have hn : n = n' := by
    rcases Nat.lt_trichotomy n n' with hlt | heq | hgt
    · rw [hafter n' e' hlt he'] at hstores'
      cases hstores'
    · exact heq
    · rw [hafter' n e hgt he] at hstores
      cases hstores
  subst hn
  rw [he, Option.some_inj] at he'
  subst he'
  rw [hoperands, List.cons.injEq] at hoperands'
  exact ⟨rfl, hoperands'.1⟩

end LastStore

/-! ## Opcodes and their steps -/

namespace Exec

variable {h : List Event} {p : Instr} {m m' : Machine} {operands results : List Value}

theorem of_tload (hstep : Exec h p m operands results m') (hop : p.op = .tload) :
    operands = [] ∧ results = [m.temps p.temp] ∧
      m' = { m with stack := m.temps p.temp :: m.stack } := by
  cases hstep with
  | load => exact ⟨rfl, rfl, rfl⟩
  | skip silent => simp [Instr.isMeta, hop, Opcode.row] at silent
  | store op => simp [hop] at op
  | complex complex => simp [Instr.isComplex, hop, Opcode.row] at complex
  | plain _ _ noTemp => simp [Instr.accessesTemp, hop, Opcode.accessesTemp] at noTemp

theorem of_tstore (hstep : Exec h p m operands results m') (hop : p.op = .tstore) :
    ∃ v rest, m.stack = v :: rest ∧ operands = [v] ∧ results = [] ∧
      m' = { stack := rest, temps := fun t => if t = p.temp then v else m.temps t } := by
  cases hstep with
  | store op top => exact ⟨_, _, top, rfl, rfl, rfl⟩
  | skip silent => simp [Instr.isMeta, hop, Opcode.row] at silent
  | load op => simp [hop] at op
  | complex complex => simp [Instr.isComplex, hop, Opcode.row] at complex
  | plain _ _ noTemp => simp [Instr.accessesTemp, hop, Opcode.accessesTemp] at noTemp

/-- Only a store changes a temporary. -/
theorem temps_eq (hstep : Exec h p m operands results m') {t : Int64}
    (hstores : p.stores t = false) : m'.temps t = m.temps t := by
  cases hstep with
  | store op top =>
    simp only [Instr.stores, op, decide_true, Bool.true_and, decide_eq_false_iff_not] at hstores
    exact if_neg (Ne.symm hstores)
  | _ => rfl

theorem of_allocates (hstep : Exec h p m operands results m') (hop : p.allocates = true) :
    results = [.object h.length] := by
  simp only [Instr.allocates, Bool.or_eq_true, decide_eq_true_eq] at hop
  cases hstep with
  | skip silent => rcases hop with hop | hop <;> simp [Instr.isMeta, hop, Opcode.row] at silent
  | load op => rcases hop with hop | hop <;> simp [hop] at op
  | store op => rcases hop with hop | hop <;> simp [hop] at op
  | complex complex =>
    rcases hop with hop | hop <;> simp [Instr.isComplex, hop, Opcode.row] at complex
  | plain _ _ _ _ _ leaves =>
    rcases hop with hop | hop <;> simpa [Leaves, Instr.allocates, hop] using leaves

/-- With enough values on the stack, every instruction has a step. -/
theorem exists_step (h : List Event) (p : Instr) {m : Machine} {n : Nat}
    (hn : n + p.inputs.toInt.toNat + 1 ≤ m.stack.length) :
    ∃ operands results m', Exec h p m operands results m' ∧ n ≤ m'.stack.length := by
  by_cases hmeta : p.isMeta = true
  · exact ⟨[], [], m, .skip hmeta, by omega⟩
  · by_cases hcomplex : p.isComplex = true
    · have hknown : ∀ v ∈ List.replicate n (Value.other 0),
          Known h (p.handsOn m.stack.reverse) v := by
        intro v hv k hk
        rw [List.eq_of_mem_replicate hv] at hk
        cases hk
      exact ⟨_, _, _, .complex hcomplex hknown, by simp⟩
    · rw [Bool.not_eq_true] at hmeta hcomplex
      by_cases hload : p.op = .tload
      · refine ⟨_, _, _, .load hload, ?_⟩
        simp only [List.length_cons]
        omega
      · by_cases hstore : p.op = .tstore
        · obtain ⟨v, rest, hstack⟩ : ∃ v rest, m.stack = v :: rest :=
            List.exists_cons_of_length_pos (by omega)
          refine ⟨_, _, _, .store hstore hstack, ?_⟩
          rw [hstack, List.length_cons] at hn
          exact Nat.le_trans (Nat.le_add_right _ _) (Nat.le_of_succ_le_succ hn)
        · have hnoTemp : p.accessesTemp = false := by
            unfold Instr.accessesTemp
            cases hop : p.op <;> simp_all [Opcode.accessesTemp]
          have hleaves : ∃ results, Leaves h p
              (m.stack.take p.inputs.toInt.toNat).reverse results := by
            unfold Leaves
            split
            · exact ⟨_, rfl⟩
            · split
              · exact ⟨_, rfl⟩
              · refine ⟨List.replicate _ (.other 0), List.length_replicate, fun v hv k hk => ?_⟩
                rw [List.eq_of_mem_replicate hv] at hk
                cases hk
          obtain ⟨results, hleaves⟩ := hleaves
          refine ⟨_, results, _, .plain hmeta hcomplex hnoTemp
            (List.take_append_drop p.inputs.toInt.toNat m.stack).symm ?_ hleaves, ?_⟩
          · rw [List.length_take]
            omega
          · simp only [List.length_append, List.length_drop]
            omega

end Exec

/-- Every walk is that of a run. -/
theorem Walk.exists_run {g : Graph} {ps : List Place} {q : Place} (hwalk : Walk g .start ps q)
    (n : Nat) : ∃ h m, Run g h q.block q.index m ∧ h.map (·.place) = ps ∧ n ≤ m.stack.length := by
  -- the stack at the start may be as deep as the rest of the walk needs it
  induction hwalk generalizing n with
  | refl =>
    refine ⟨[], ⟨List.replicate n (.other 0), fun _ => .other 0⟩, .start ?_ ?_, rfl, by simp⟩
    · intro k hk
      cases List.eq_of_mem_replicate hk
    · intro k t hk
      cases hk
  | step walk inside ih =>
    rename_i ps b i
    obtain ⟨h, m, hrun, hplaces, hn⟩ := ih (n + ((g.block b).code[i]).inputs.toInt.toNat + 1)
    obtain ⟨operands, results, m', hstep, hn'⟩ := Exec.exists_step h _ hn
    refine ⟨_, m', .exec hrun (List.getElem?_eq_getElem inside) hstep, ?_, hn'⟩
    rw [List.map_append, hplaces]
    rfl
  | jump walk done way ih =>
    obtain ⟨h, m, hrun, hplaces, hn⟩ := ih n
    exact ⟨h, m, .jump hrun done way, hplaces, hn⟩

namespace Run

variable {g : Graph} {h : List Event} {b i : Nat} {m : Machine}

/-- A run without its data is a walk. -/
theorem walk (hrun : Run g h b i m) : Walk g .start (h.map (·.place)) ⟨b, i⟩ := by
  induction hrun with
  | start => exact .refl _
  | exec _ at_ _ ih =>
    rw [List.map_append]
    exact .step ih (List.getElem?_eq_some_iff.1 at_).1
  | jump _ done way ih => exact .jump ih done way

/-- A run just before and just after one of its events. -/
theorem before (hrun : Run g h b i m) {n : Nat} {e : Event} (he : h[n]? = some e) :
    ∃ m₀ m₁, Run g (h.take n) e.place.block e.place.index m₀ ∧ g.at? e.place = some e.instr ∧
      Exec (h.take n) e.instr m₀ e.operands e.results m₁ ∧
      Run g (h.take (n + 1)) e.place.block (e.place.index + 1) m₁ := by
  induction hrun with
  | start => simp at he
  | exec run at_ step ih =>
    rename_i h b i m m' p operands results
    rcases Nat.lt_or_ge n h.length with hlt | hge
    · rw [List.getElem?_append_left hlt] at he
      rw [List.take_append_of_le_length (Nat.le_of_lt hlt), List.take_append_of_le_length hlt]
      exact ih he
    · rw [List.getElem?_append_right hge, List.getElem?_singleton] at he
      split at he
      · rename_i hn
        have hn : n = h.length := by omega
        cases he
        rw [hn, List.take_left, List.take_of_length_le (by simp)]
        exact ⟨m, m', run, at_, step, .exec run at_ step⟩
      · cases he
  | jump run done way ih => exact ih he

theorem at_place (hrun : Run g h b i m) {n : Nat} {e : Event} (he : h[n]? = some e) :
    g.at? e.place = some e.instr := by
  obtain ⟨_, _, _, hat, _⟩ := hrun.before he
  exact hat

/-- A run that stands within a block has just been through the block up to there. -/
theorem visit (hrun : Run g h b i m) : i ≤ h.length ∧
    (∃ m₀, Run g (h.take (h.length - i)) b 0 m₀) ∧
    ∀ j < i, ∃ e, h[h.length - i + j]? = some e ∧ e.place = ⟨b, j⟩ := by
  induction hrun with
  | start stack temps => exact ⟨Nat.le_refl _, ⟨_, .start stack temps⟩, by simp⟩
  | exec run at_ step ih =>
    rename_i h b i m m' p operands results
    obtain ⟨hle, ⟨m₀, hstart⟩, hplaces⟩ := ih
    have hbase : (h ++ [(⟨⟨b, i⟩, p, operands, results⟩ : Event)]).length - (i + 1) =
        h.length - i := by simp
    rw [hbase]
    refine ⟨by simpa using hle, ⟨m₀, ?_⟩, fun j hj => ?_⟩
    · rwa [List.take_append_of_le_length (Nat.sub_le _ _)]
    · rcases Nat.lt_succ_iff_lt_or_eq.1 hj with hj | rfl
      · obtain ⟨e, he, hplace⟩ := hplaces j hj
        exact ⟨e, by rwa [List.getElem?_append_left (by omega)], hplace⟩
      · refine ⟨⟨⟨b, j⟩, p, operands, results⟩, ?_, rfl⟩
        rw [Nat.sub_add_cancel hle]
        simp
  | jump run done way ih =>
    rename_i h b i s m
    refine ⟨Nat.zero_le _, ⟨m, ?_⟩, by simp⟩
    rw [Nat.sub_zero, List.take_length]
    exact .jump run done way

/-- The instructions of the block that a run stands in. -/
theorem instr_at (hrun : Run g h b i m) {j : Nat} (hj : j < i) {e : Event}
    (he : h[h.length - i + j]? = some e) {p : Instr} (hp : (g.block b).code[j]? = some p) :
    e.instr = p := by
  obtain ⟨e', he', hplace⟩ := hrun.visit.2.2 j hj
  rw [he, Option.some_inj] at he'
  subst he'
  have hat := hrun.at_place he
  rw [hplace, Graph.at?, hp, Option.some_inj] at hat
  exact hat.symm

/-- An allocation yields the object named by its time. -/
theorem allocated (hrun : Run g h b i m) {n : Nat} {e : Event} (he : h[n]? = some e)
    (hop : e.instr.allocates = true) : e.results = [.object n] := by
  obtain ⟨m₀, m₁, _, _, hstep, _⟩ := hrun.before he
  have hlt := (List.getElem?_eq_some_iff.1 he).1
  rw [hstep.of_allocates hop, List.length_take, Nat.min_eq_left (Nat.le_of_lt hlt)]

/-- A temporary holds what was stored last, or what it held at the start. -/
theorem lastStore (hrun : Run g h b i m) (t : Int64) :
    (∃ n, LastStore h t n (m.temps t)) ∨ ∀ e ∈ h, e.instr.stores t = false := by
  induction hrun with
  | start => exact .inr (by simp)
  | exec run at_ step ih =>
    rename_i h b i m m' p operands results
    by_cases hstores : p.stores t = true
    · have hop : p.op = .tstore ∧ p.temp = t := by simpa [Instr.stores] using hstores
      obtain ⟨v, rest, _, hoperands, _, rfl⟩ := step.of_tstore hop.1
      refine .inl ⟨h.length, LastStore.append_self hstores ?_⟩
      simpa [hop.2] using hoperands
    · rw [Bool.not_eq_true] at hstores
      rw [step.temps_eq hstores]
      rcases ih with ⟨n, hlast⟩ | hnone
      · exact .inl ⟨n, hlast.append hstores⟩
      · refine .inr fun e he => ?_
        rcases List.mem_append.1 he with he | he
        · exact hnone e he
        · rw [List.mem_singleton.1 he]
          exact hstores
  | jump run done way ih => exact ih

/-- A load yields what was stored last. -/
theorem loaded {o : Options} {code : List Instr} (hbuilt : Graph.Built o code g)
    (hrun : Run g h b i m) {n : Nat} {e : Event} (he : h[n]? = some e) {t : Int64}
    (hload : e.instr.loads t = true) : ∃ q v, LastStore (h.take n) t q v ∧ e.results = [v] := by
  obtain ⟨m₀, m₁, hbefore, hat, hstep, _⟩ := hrun.before he
  obtain ⟨hop, rfl⟩ : e.instr.op = .tload ∧ e.instr.temp = t := by
    simpa [Instr.loads] using hload
  rcases hbefore.lastStore e.instr.temp with ⟨q, hlast⟩ | hnone
  · exact ⟨q, _, hlast, (hstep.of_tload hop).2.1⟩
  · obtain ⟨q', hq', p', hp', hstores⟩ := hbuilt.stored_before_load hbefore.walk hat hload
    obtain ⟨e', he', rfl⟩ := List.mem_map.1 hq'
    obtain ⟨k, hk⟩ := List.mem_iff_getElem?.1 he'
    have hat' := hbefore.at_place hk
    rw [hp', Option.some_inj] at hat'
    rw [hat', hnone e' he'] at hstores
    cases hstores

end Run

end StackFlow
