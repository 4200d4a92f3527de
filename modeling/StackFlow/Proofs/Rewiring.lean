import Mathlib.Logic.Relation
import StackFlow.Proofs.Flowchart

/-!
# Rewiring a flowchart

Three ways to make a flowchart smaller that keep its traces, said of charts over the
same nodes.

* `Restricts c' c S`: the nodes outside of `S`, which are never reached, are gone.
* `Bypasses c' c p d n`: the node `d` that shows nothing and only leads from `p` to `n`
  is gone, and `p` leads to `n`.
* `Joins c' c d e`: the node `e` that always and only follows `d` has become part of it.

The last two also keep what can be reached from the entry.
-/

namespace StackFlow.Flowchart

open Relation

variable {N : Type} {c c' : Flowchart N} {t : List Instr} {s : Status}

/-! ## Leaving out what is never reached -/

/-- `c'` is what is left of `c` within the nodes of `S`, which no way leaves. -/
structure Restricts (c' c : Flowchart N) (S : N → Prop) : Prop where
  entry : c'.entry = c.entry
  inside : S c.entry
  code : ∀ {n}, S n → c'.code n = c.code n
  next : ∀ {n m}, S n → (c'.next n m ↔ c.next n m)
  exit : ∀ {n}, S n → (c'.exit n ↔ c.exit n)
  closed : ∀ {n m}, S n → c.next n m → S m

theorem Restricts.hasTrace {S : N → Prop} (h : Restricts c' c S) :
    c'.HasTrace t s ↔ c.HasTrace t s := by
  refine Matches.hasTrace (R := fun n m => n = m ∧ S n) ⟨⟨h.entry, h.entry ▸ h.inside⟩,
    ?_, ?_, ?_, ?_⟩
  · rintro n _ ⟨rfl, hn⟩
    rw [h.code hn]
  · rintro n _ m ⟨rfl, hn⟩ way
    have way := (h.next hn).1 way
    exact ⟨m, ⟨rfl, h.closed hn way⟩, way⟩
  · rintro n _ m ⟨rfl, hn⟩ way
    exact ⟨m, ⟨rfl, h.closed hn way⟩, (h.next hn).2 way⟩
  · rintro n _ ⟨rfl, hn⟩
    exact h.exit hn

/-! ## Leaving out a detour -/

/-- `c'` leads from `p` to `n` where `c` makes the detour through `d`. -/
structure Bypasses (c' c : Flowchart N) (p d n : N) : Prop where
  entry : c'.entry = c.entry
  entry_ne : c.entry ≠ d
  silent : shownAll (c.code d) = []
  noExit : ¬ c.exit d
  into : ∀ {m}, c.next m d ↔ m = p
  out : ∀ {m}, c.next d m ↔ m = n
  code : ∀ {m}, m ≠ d → c'.code m = c.code m
  exit : ∀ {m}, m ≠ d → (c'.exit m ↔ c.exit m)
  next : ∀ {a b}, a ≠ d → (c'.next a b ↔ b ≠ d ∧ (c.next a b ∨ a = p ∧ b = n))

namespace Bypasses

variable {p d n : N}

theorem source_ne (h : Bypasses c' c p d n) (hn : n ≠ d) : p ≠ d := by
  rintro rfl
  exact hn (h.out.1 (h.into.2 rfl)).symm

/-- A run on the detour stands at the end of `p` in the chart without it. -/
theorem shows (h : Bypasses c' c p d n) (hn : n ≠ d) {m : N} {xs : List Instr}
    (hshows : c.Shows m xs t s) :
    (m ≠ d → c'.Shows m xs t s) ∧ (m = d → shownAll xs = [] → c'.Shows p [] t s) := by
  have hp := h.source_ne hn
  induction hshows with
  | pause => exact ⟨fun _ => .pause _ _, fun _ _ => .pause _ _⟩
  | execute rest ih =>
    refine ⟨fun hm => .execute (ih.1 hm), fun hm hxs => ?_⟩
    rw [shownAll_cons, List.append_eq_nil_iff] at hxs
    rw [hxs.1]
    exact ih.2 hm hxs.2
  | follow way rest ih =>
    rename_i a b t s
    refine ⟨fun ha => ?_, fun ha _ => ?_⟩
    · by_cases hb : b = d
      · subst hb
        rw [h.into.1 way]
        exact ih.2 rfl h.silent
      · refine .follow ((h.next ha).2 ⟨hb, .inl way⟩) ?_
        rw [h.code hb]
        exact ih.1 hb
    · subst ha
      have hb := h.out.1 way
      subst hb
      refine .follow ((h.next hp).2 ⟨hn, .inr ⟨rfl, rfl⟩⟩) ?_
      rw [h.code hn]
      exact ih.1 hn
  | fall exit =>
    refine ⟨fun hm => .fall ((h.exit hm).2 exit), fun hm _ => ?_⟩
    subst hm
    exact absurd exit h.noExit
  | stop noWay noExit =>
    refine ⟨fun hm => .stop (fun b way => ?_) (mt (h.exit hm).1 noExit), fun hm _ => ?_⟩
    · rcases ((h.next hm).1 way).2 with way | ⟨rfl, _⟩
      · exact noWay b way
      · exact noWay d (h.into.2 rfl)
    · subst hm
      exact absurd (h.out.2 rfl) (noWay n)

theorem shows_of_shows (h : Bypasses c' c p d n) {m : N} {xs : List Instr}
    (hshows : c'.Shows m xs t s) : m ≠ d → c.Shows m xs t s := by
  induction hshows with
  | pause => exact fun _ => .pause _ _
  | execute rest ih => exact fun hm => .execute (ih hm)
  | follow way rest ih =>
    rename_i a b t s
    intro ha
    obtain ⟨hb, hway⟩ := (h.next ha).1 way
    have hrest := ih hb
    rw [h.code hb] at hrest
    rcases hway with way | ⟨rfl, rfl⟩
    · exact .follow way hrest
    · have hd : c.Shows d [] t s := .follow (h.out.2 rfl) hrest
      exact .follow (h.into.2 rfl) ((shows_congr h.silent).2 hd)
  | fall exit => exact fun hm => .fall ((h.exit hm).1 exit)
  | stop noWay noExit =>
    intro hm
    refine .stop (fun b way => ?_) (mt (h.exit hm).2 noExit)
    by_cases hb : b = d
    · subst hb
      have hp := h.into.1 way
      subst hp
      by_cases hn : n = b
      · subst hn
        exact absurd (h.into.1 (h.out.2 rfl)).symm hm
      · exact noWay n ((h.next hm).2 ⟨hn, .inr ⟨rfl, rfl⟩⟩)
    · exact noWay b ((h.next hm).2 ⟨hb, .inl way⟩)

theorem hasTrace (h : Bypasses c' c p d n) (hn : n ≠ d) :
    c'.HasTrace t s ↔ c.HasTrace t s := by
  have hcode := h.code h.entry_ne
  unfold HasTrace
  rw [h.entry, hcode]
  exact ⟨fun hshows => h.shows_of_shows hshows h.entry_ne,
    fun hshows => (h.shows hn hshows).1 h.entry_ne⟩

theorem reachable (h : Bypasses c' c p d n) (hn : n ≠ d) {m : N}
    (hreach : ReflTransGen c.next c.entry m) :
    (m ≠ d → ReflTransGen c'.next c'.entry m) ∧
      (m = d → ReflTransGen c'.next c'.entry p) := by
  induction hreach with
  | refl =>
    rw [h.entry]
    exact ⟨fun _ => .refl, fun hm => absurd hm h.entry_ne⟩
  | tail _ way ih =>
    rename_i a b _
    refine ⟨fun hb => ?_, fun hb => ?_⟩
    · by_cases ha : a = d
      · subst ha
        have hbn := h.out.1 way
        exact (ih.2 rfl).tail ((h.next (h.source_ne hn)).2 ⟨hb, .inr ⟨rfl, hbn⟩⟩)
      · exact (ih.1 ha).tail ((h.next ha).2 ⟨hb, .inl way⟩)
    · subst hb
      have ha := h.into.1 way
      subst ha
      exact ih.1 (h.source_ne hn)

end Bypasses

/-! ## Joining two nodes -/

/-- `c'` has the code of `d` and of the node `e` that always and only follows it in one
node. -/
structure Joins (c' c : Flowchart N) (d e : N) : Prop where
  entry : c'.entry = c.entry
  entry_ne : c.entry ≠ e
  ne : d ≠ e
  noExit : ¬ c.exit d
  into : ∀ {m}, c.next m e ↔ m = d
  out : ∀ {m}, c.next d m ↔ m = e
  joined : shownAll (c'.code d) = shownAll (c.code d ++ c.code e)
  code : ∀ {m}, m ≠ d → m ≠ e → c'.code m = c.code m
  exit_joined : c'.exit d ↔ c.exit e
  exit : ∀ {m}, m ≠ d → m ≠ e → (c'.exit m ↔ c.exit m)
  next_joined : ∀ {m}, c'.next d m ↔ c.next e m
  next : ∀ {a b}, a ≠ d → a ≠ e → (c'.next a b ↔ c.next a b)

namespace Joins

variable {d e : N}

/-- No way of the joined node leads to the part it has swallowed. -/
theorem next_ne (h : Joins c' c d e) {m : N} (way : c.next e m) : m ≠ e := by
  rintro rfl
  exact h.ne (h.into.1 way).symm

theorem shows (h : Joins c' c d e) {m : N} {xs : List Instr} (hshows : c.Shows m xs t s) :
    (m ≠ d → m ≠ e → c'.Shows m xs t s) ∧
      (m = d → c'.Shows d (xs ++ c.code e) t s) ∧ (m = e → c'.Shows d xs t s) := by
  induction hshows with
  | pause => exact ⟨fun _ _ => .pause _ _, fun _ => .pause _ _, fun _ => .pause _ _⟩
  | execute rest ih =>
    exact ⟨fun hd he => .execute (ih.1 hd he), fun hd => .execute (ih.2.1 hd),
      fun he => .execute (ih.2.2 he)⟩
  | follow way rest ih =>
    rename_i a b t s
    -- a node that is not swallowed is entered at its beginning
    have henter : b ≠ e → c'.Shows b (c'.code b) t s := by
      intro hb
      by_cases hbd : b = d
      · subst hbd
        exact (shows_congr h.joined).2 (ih.2.1 rfl)
      · rw [h.code hbd hb]
        exact ih.1 hbd hb
    refine ⟨fun hd he => ?_, fun hd => ?_, fun he => ?_⟩
    · have hb : b ≠ e := by
        rintro rfl
        exact hd (h.into.1 way)
      exact .follow ((h.next hd he).2 way) (henter hb)
    · subst hd
      have hb := h.out.1 way
      subst hb
      exact ih.2.2 rfl
    · subst he
      exact .follow (h.next_joined.2 way) (henter (h.next_ne way))
  | fall exit =>
    refine ⟨fun hd he => .fall ((h.exit hd he).2 exit), fun hd => ?_, fun he => ?_⟩
    · subst hd
      exact absurd exit h.noExit
    · subst he
      exact .fall (h.exit_joined.2 exit)
  | stop noWay noExit =>
    refine ⟨fun hd he => ?_, fun hd => ?_, fun he => ?_⟩
    · exact .stop (fun b way => noWay b ((h.next hd he).1 way)) (mt (h.exit hd he).1 noExit)
    · subst hd
      exact absurd (h.out.2 rfl) (noWay e)
    · subst he
      exact .stop (fun b way => noWay b (h.next_joined.1 way)) (mt h.exit_joined.1 noExit)

/-- A run that has the code of both nodes before it in the second one could have
started in the first. -/
theorem shows_first (h : Joins c' c d e) (hshows : c.Shows e (c.code d ++ c.code e) t s) :
    c.Shows d (c.code d) t s := by
  have hway : c.next d e := h.out.2 rfl
  rw [shows_iff, shownAll_append] at hshows
  rcases hshows with ⟨rfl, hprefix⟩ | ⟨u, rfl, hu⟩
  · rcases List.prefix_or_prefix_of_prefix hprefix (List.prefix_append _ _) with
      hfirst | ⟨u, rfl⟩
    · exact shows_running hfirst
    · have hu := (List.prefix_append_right_inj _).1 hprefix
      have hnext := (Shows.follow hway (shows_running (c := c) hu)).append (c.code d)
      rwa [List.append_nil] at hnext
  · have hnext := (Shows.follow hway (by
      have hcode := hu.append (c.code e)
      rwa [List.append_nil] at hcode)).append (c.code d)
    rwa [List.append_nil, ← List.append_assoc] at hnext

theorem shows_of_shows (h : Joins c' c d e) {m : N} {xs : List Instr}
    (hshows : c'.Shows m xs t s) :
    (m ≠ d → m ≠ e → c.Shows m xs t s) ∧ (m = d → c.Shows e xs t s) := by
  induction hshows with
  | pause => exact ⟨fun _ _ => .pause _ _, fun _ => .pause _ _⟩
  | execute rest ih => exact ⟨fun hd he => .execute (ih.1 hd he), fun hd => .execute (ih.2 hd)⟩
  | follow way rest ih =>
    rename_i a b t s
    have henter : b ≠ e → c.Shows b (c.code b) t s := by
      intro hb
      by_cases hbd : b = d
      · subst hbd
        exact h.shows_first ((shows_congr h.joined).1 (ih.2 rfl))
      · rw [← h.code hbd hb]
        exact ih.1 hbd hb
    refine ⟨fun hd he => ?_, fun hd => ?_⟩
    · have way := (h.next hd he).1 way
      have hb : b ≠ e := by
        rintro rfl
        exact hd (h.into.1 way)
      exact .follow way (henter hb)
    · subst hd
      have way := h.next_joined.1 way
      exact .follow way (henter (h.next_ne way))
  | fall exit =>
    refine ⟨fun hd he => .fall ((h.exit hd he).1 exit), fun hd => ?_⟩
    subst hd
    exact .fall (h.exit_joined.1 exit)
  | stop noWay noExit =>
    refine ⟨fun hd he => ?_, fun hd => ?_⟩
    · exact .stop (fun b way => noWay b ((h.next hd he).2 way)) (mt (h.exit hd he).2 noExit)
    · subst hd
      exact .stop (fun b way => noWay b (h.next_joined.2 way)) (mt h.exit_joined.2 noExit)

theorem hasTrace (h : Joins c' c d e) : c'.HasTrace t s ↔ c.HasTrace t s := by
  unfold HasTrace
  rw [h.entry]
  by_cases hd : c.entry = d
  · rw [hd]
    constructor
    · exact fun hshows => h.shows_first ((shows_congr h.joined).1 ((h.shows_of_shows hshows).2 rfl))
    · exact fun hshows => (shows_congr h.joined).2 ((h.shows hshows).2.1 rfl)
  · rw [h.code hd h.entry_ne]
    exact ⟨fun hshows => (h.shows_of_shows hshows).1 hd h.entry_ne,
      fun hshows => (h.shows hshows).1 hd h.entry_ne⟩

theorem reachable (h : Joins c' c d e) {m : N} (hreach : ReflTransGen c.next c.entry m) :
    (m ≠ e → ReflTransGen c'.next c'.entry m) ∧
      (m = e → ReflTransGen c'.next c'.entry d) := by
  induction hreach with
  | refl =>
    rw [h.entry]
    exact ⟨fun _ => .refl, fun hm => absurd hm h.entry_ne⟩
  | tail _ way ih =>
    rename_i a b _
    refine ⟨fun hb => ?_, fun hb => ?_⟩
    · by_cases hae : a = e
      · exact (ih.2 hae).tail (h.next_joined.2 (hae ▸ way))
      · have had : a ≠ d := by
          rintro rfl
          exact hb (h.out.1 way)
        exact (ih.1 hae).tail ((h.next had hae).2 way)
    · subst hb
      have ha := h.into.1 way
      subst ha
      exact ih.1 h.ne

end Joins

end StackFlow.Flowchart
