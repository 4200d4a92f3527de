import Mathlib.Data.List.Induction
import Mathlib.Data.List.Nodup
import StackFlow.Elision.Aliases
import StackFlow.Proofs.UnionFind

/-!
# What the sites make of the classes

* `Noted singles xs f c` is what has been found out at the sites `xs`: the trees `f` stand for the
  classes that `c` names, which are those of the equivalence that the copies generate.
* `exists_names` reads the names off at the end, and `mem_entries_ofSites` says what they are.
  Nothing in it depends on the order of the sites, so that the classes do not either
  (`ofSites_congr`).
-/

namespace StackFlow.Aliases

open Relation Parents

variable {singles : TempSet} {xs ys : List Site} {x : Site} {t u k : Int64}

/-! ## Sites -/

/-- The root copies `u` to `t`. -/
def Site.Copies (singles : TempSet) (x : Site) (t u : Int64) : Prop :=
  x.found? singles = some (t, some u)

/-- The root stores `t`, or copies it. -/
def Site.Sees (singles : TempSet) (x : Site) (t : Int64) : Prop :=
  ∃ a b, x.found? singles = some (a, b) ∧ (t = a ∨ b = some t)

/-- Some root copies `u` to `t`. -/
def CopiesAt (singles : TempSet) (xs : List Site) (t u : Int64) : Prop :=
  ∃ x ∈ xs, x.Copies singles t u

/-- Some root stores `t`, or copies it. -/
def SeenAt (singles : TempSet) (xs : List Site) (t : Int64) : Prop := ∃ x ∈ xs, x.Sees singles t

theorem Site.source?_eq_some_iff {p v : Instr} : x.source? singles p = some v ↔
    ∃ w, x.root.tree.operand? 0 = some w ∧ x.code[w.index]? = some v ∧ v.op = .tload ∧
      v.ty = p.ty ∧ v.temp ∈ singles := by
  simp only [source?, Option.filter_eq_some_iff, Option.bind_eq_some_iff, Bool.and_eq_true,
    decide_eq_true_eq, TempSet.contains_iff]
  constructor
  · rintro ⟨⟨w, hw, hv⟩, ⟨hop, hty⟩, hu⟩
    exact ⟨w, hw, hv, hop, hty, hu⟩
  · rintro ⟨w, hw, hv, hop, hty, hu⟩
    exact ⟨⟨w, hw, hv⟩, ⟨hop, hty⟩, hu⟩

theorem Site.found?_eq_some_iff {s : Option Int64} : x.found? singles = some (t, s) ↔
    ∃ p, x.code[x.root.tree.index]? = some p ∧ p.stores t = true ∧ t ∈ singles ∧
      (x.source? singles p).map (·.temp) = s := by
  simp only [found?, Option.map_eq_some_iff, Option.filter_eq_some_iff, Bool.and_eq_true,
    decide_eq_true_eq, TempSet.contains_iff, Prod.mk.injEq, Instr.stores]
  constructor
  · rintro ⟨p, ⟨hp, hop, ht⟩, rfl, hs⟩
    exact ⟨p, hp, ⟨hop, rfl⟩, ht, hs⟩
  · rintro ⟨p, hp, ⟨hop, rfl⟩, ht, hs⟩
    exact ⟨p, ⟨hp, hop, ht⟩, rfl, hs⟩

/-- A root copies if it stores what was loaded from its first operand with the same type. -/
theorem Site.copies_iff : x.Copies singles t u ↔
    ∃ p w v, x.code[x.root.tree.index]? = some p ∧ p.stores t = true ∧ t ∈ singles ∧
      x.root.tree.operand? 0 = some w ∧ x.code[w.index]? = some v ∧ v.loads u = true ∧
      v.ty = p.ty ∧ u ∈ singles := by
  simp only [Copies, found?_eq_some_iff, Option.map_eq_some_iff, source?_eq_some_iff,
    Instr.loads_iff]
  constructor
  · rintro ⟨p, hp, hstores, ht, v, ⟨w, hw, hv, hop, hty, hu⟩, rfl⟩
    exact ⟨p, w, v, hp, hstores, ht, hw, hv, ⟨hop, rfl⟩, hty, hu⟩
  · rintro ⟨p, w, v, hp, hstores, ht, hw, hv, ⟨hop, rfl⟩, hty, hu⟩
    exact ⟨p, hp, hstores, ht, v, ⟨w, hw, hv, hop, hty, hu⟩, rfl⟩

/-- Only temporaries with a single store are looked at. -/
theorem Site.Sees.single (h : x.Sees singles t) : t ∈ singles := by
  obtain ⟨a, b, hfound, rfl | rfl⟩ := h
  · obtain ⟨p, -, -, ht, -⟩ := found?_eq_some_iff.1 hfound
    exact ht
  · obtain ⟨p, w, v, -, -, -, -, -, -, -, hu⟩ := copies_iff.1 hfound
    exact hu

theorem copiesAt_concat : CopiesAt singles (xs ++ [x]) t u ↔
    CopiesAt singles xs t u ∨ x.Copies singles t u := by
  simp [CopiesAt, or_and_right, exists_or]

theorem seenAt_concat : SeenAt singles (xs ++ [x]) t ↔
    SeenAt singles xs t ∨ x.Sees singles t := by
  simp [SeenAt, or_and_right, exists_or]

/-! ## Notes -/

/-- What has been found out at the sites `xs`. -/
structure Noted (singles : TempSet) (xs : List Site) (f : Parents) (c : Int64 → Int64) : Prop where
  represents : Represents f c
  exact : Exact (CopiesAt singles xs) c
  mem_keys : ∀ t, t ∈ f.keys ↔ SeenAt singles xs t

variable {f : Parents} {c d : Int64 → Int64}

theorem noted_nil : Noted singles [] .empty id where
  represents := .empty
  exact := exact_id (by simp [CopiesAt])
  mem_keys t := by simp [SeenAt, Parents.empty]

theorem Noted.note (h : Noted singles xs f c) (x : Site) :
    ∃ d, Noted singles (xs ++ [x]) (note singles f x) d := by
  unfold Aliases.note
  split
  · rename_i hfound
    refine ⟨c, h.represents, h.exact.congr fun t u => ?_, fun t => ?_⟩
    · simp [copiesAt_concat, Site.Copies, hfound]
    · simp [seenAt_concat, Site.Sees, hfound, h.mem_keys]
  · rename_i a hfound
    refine ⟨c, h.represents.track a, h.exact.congr fun t u => ?_, fun t => ?_⟩
    · simp [copiesAt_concat, Site.Copies, hfound]
    · simp [seenAt_concat, Site.Sees, hfound, mem_keys_track, h.mem_keys, or_comm, eq_comm]
  · rename_i a b hfound
    have htrack := (h.represents.track a).track b
    have ha : a ∈ ((f.track a).track b).keys := by simp [mem_keys_track]
    have hb : b ∈ ((f.track a).track b).keys := by simp [mem_keys_track]
    obtain ⟨hunite, hkeys⟩ := htrack.unite ha hb
    refine ⟨rename c a b, hunite, h.exact.rename fun t u => ?_, fun t => ?_⟩
    · simp [copiesAt_concat, Site.Copies, hfound, eq_comm]
    · have hsees : x.Sees singles t ↔ t = a ∨ t = b := by
        simp [Site.Sees, hfound, eq_comm]
      rw [hkeys, mem_keys_track, mem_keys_track, h.mem_keys, seenAt_concat, hsees, ← or_assoc,
        or_comm, or_comm (a := t = b)]

theorem noted_foldl (singles : TempSet) (xs : List Site) :
    ∃ c, Noted singles xs (xs.foldl (Aliases.note singles) .empty) c := by
  induction xs using List.reverseRecOn with
  | nil => exact ⟨id, noted_nil⟩
  | append_singleton xs x ih =>
    obtain ⟨c, hc⟩ := ih
    rw [List.foldl_concat]
    exact hc.note x

/-- Sites at which the same is found make the same classes. -/
theorem ofSites_eq_of_found (h : List.Forall₂
    (fun x y : Site => y.found? singles = x.found? singles) xs ys) :
    ofSites singles ys = ofSites singles xs := by
  have hfold : ∀ f, ys.foldl (Aliases.note singles) f = xs.foldl (Aliases.note singles) f := by
    induction h with
    | nil => exact fun _ => rfl
    | cons hfound _ ih =>
      intro f
      rw [List.foldl_cons, List.foldl_cons, ih, Aliases.note, hfound, ← Aliases.note]
  rw [ofSites, ofSites, hfold]

/-! ## Classes -/

theorem mem_members {a : Aliases} : t ∈ a.members k ↔ (t, k) ∈ a.entries := by
  simp [members]

theorem mem_classes_iff {a : Aliases} : k ∈ a.classes ↔ ∃ t, t ∈ a.members k := by
  simp [classes, mem_members]

theorem mem_of_class? {a : Aliases} (h : a.class? t = some k) : (t, k) ∈ a.entries := by
  obtain ⟨xs, ys, hxs, _⟩ := List.lookup_eq_some_iff.1 h
  rw [hxs]
  simp

/-- The entries are in the order of their temporaries. -/
def Sorted (a : Aliases) : Prop := a.entries.Pairwise fun e f => e.1 < f.1

theorem Sorted.class_unique {a : Aliases} {k' : Int64} (h : Sorted a) (hk : (t, k) ∈ a.entries)
    (hk' : (t, k') ∈ a.entries) : k = k' := by
  have hnodup : (a.entries.map (·.1)).Nodup := by
    refine List.pairwise_map.2 (h.imp fun hlt heq => ?_)
    rw [heq] at hlt
    exact Int64.lt_irrefl hlt
  exact (Prod.mk.inj (List.inj_on_of_nodup_map hnodup hk hk' rfl)).2

theorem Sorted.class?_eq_some_iff {a : Aliases} (h : Sorted a) :
    a.class? t = some k ↔ (t, k) ∈ a.entries := by
  refine ⟨mem_of_class?, fun hmem => ?_⟩
  cases hclass : a.class? t with
  | none =>
    have hnone := List.lookup_eq_none_iff.1 hclass (t, k) hmem
    simp at hnone
  | some k' => rw [h.class_unique (mem_of_class? hclass) hmem]

/-- What is left are the temporaries that have been seen, each with the name of its class. -/
theorem exists_entries_ofSites (singles : TempSet) (xs : List Site) : ∃ f c,
    Noted singles xs f c ∧ (ofSites singles xs).entries = f.keys.toList.map fun t => (t, c t) := by
  obtain ⟨c, hc⟩ := noted_foldl singles xs
  exact ⟨_, c, hc, hc.represents.roots fun _ => id⟩

theorem sorted_ofSites (singles : TempSet) (xs : List Site) : Sorted (ofSites singles xs) := by
  obtain ⟨f, c, -, hentries⟩ := exists_entries_ofSites singles xs
  rw [Sorted, hentries, List.pairwise_map]
  exact f.keys.sorted

/-- Every temporary that is seen has the name of its class. -/
theorem exists_names (singles : TempSet) (xs : List Site) : ∃ c,
    Exact (CopiesAt singles xs) c ∧ (∀ t, IsLeast {u | EqvGen (CopiesAt singles xs) t u} (c t)) ∧
      ∀ t k, (t, k) ∈ (ofSites singles xs).entries ↔ SeenAt singles xs t ∧ c t = k := by
  obtain ⟨f, c, hnoted, hentries⟩ := exists_entries_ofSites singles xs
  refine ⟨c, hnoted.exact, hnoted.exact.isLeast hnoted.represents, fun t k => ?_⟩
  rw [hentries, List.mem_map, ← hnoted.mem_keys]
  constructor
  · rintro ⟨u, hu, heq⟩
    cases heq
    exact ⟨hu, rfl⟩
  · rintro ⟨ht, rfl⟩
    exact ⟨t, ht, rfl⟩

/-- The class of a temporary is the smallest one that copies connect it with. -/
theorem mem_entries_ofSites : (t, k) ∈ (ofSites singles xs).entries ↔
    SeenAt singles xs t ∧ IsLeast {u | EqvGen (CopiesAt singles xs) t u} k := by
  obtain ⟨c, -, hleast, hmem⟩ := exists_names singles xs
  rw [hmem]
  refine and_congr_right fun _ => ⟨fun hk => hk ▸ hleast t, fun hk => ?_⟩
  exact Int64.le_antisymm ((hleast t).2 hk.1) (hk.2 (hleast t).1)

/-- The classes are the same, however often and in whichever order the sites are visited. -/
theorem ofSites_congr (h : ∀ x, x ∈ xs ↔ x ∈ ys) : ofSites singles xs = ofSites singles ys := by
  have hcopies : CopiesAt singles xs = CopiesAt singles ys := by
    funext t u
    simp only [CopiesAt, h]
  obtain ⟨f, c, hnoted, hentries⟩ := exists_entries_ofSites singles xs
  obtain ⟨f', c', hnoted', hentries'⟩ := exists_entries_ofSites singles ys
  have hkeys : f.keys = f'.keys := TempSet.ext_mem fun t => by
    simp only [hnoted.mem_keys, hnoted'.mem_keys, SeenAt, h]
  have hname : c = c' := by
    funext t
    have hleast := hnoted.exact.isLeast hnoted.represents t
    have hleast' := hnoted'.exact.isLeast hnoted'.represents t
    rw [← hcopies] at hleast'
    exact Int64.le_antisymm (hleast.2 hleast'.1) (hleast'.2 hleast.1)
  have hsame : (ofSites singles xs).entries = (ofSites singles ys).entries := by
    rw [hentries, hentries', hkeys, hname]
  exact congrArg Aliases.mk hsame

end StackFlow.Aliases
