import Mathlib.Data.List.Induction
import Mathlib.Data.List.Infix
import Shroud.Proofs.Histories

/-!
# Versions and public writes

A version of a variable answers reads until it is forgotten, so it should be forgotten when public code writes the
variable.

**Paths.** Public code can go through a history in many ways: it takes one of two branches, passes operands over,
and repeats the items of a loop, which it may leave early. What the circuit carries out by itself is passed in order.

**Stale versions.** A version is stale at a point of a path if the variable was written since the value was last
read from it or assigned to it.

**Writes of public code.** Assignments, tuple assignments and the calls of functions without a circuit make the circuit
forget what they write (`Circuit.Told.forgets`), and so do statements that the circuit carries out as a whole.

**Where staleness comes from.** Each activity keeps the known versions current, with two exceptions: the call of a function
that has a circuit of its own leaves the versions of the variables in place that this function writes, and versions are
taken up again although the path has lost them. The versions of a path are current everywhere exactly if neither of them
happens to a version with an origin on it.
-/

namespace Shroud

/-! ## Paths -/

/-- Repeated passages, each of which may be left early. -/
inductive Rounds (W : List Moment → Prop) : List Moment → Prop
  | done : Rounds W []
  | again {q q' p : List Moment} (h : W q) (hq : q' <+: q) (k : Rounds W p) : Rounds W (q' ++ p)

mutual

/-- Public code can go through the step along these moments. -/
def Step.Path : Step → List Moment → Prop
  | .moment m, p => p = [m]
  | .scope _ _ ss, p => Step.PathAll ss p
  | .together ss, p => Step.PathAll ss p
  | .item ss, p => Step.PathAll ss p
  | .fork yes no meet, p =>
    ∃ a b c, Step.PathAll yes a ∧ Step.PathAll no b ∧ Step.PathAll meet c ∧ p = a ++ (b ++ c)
  | .branches _ yes no, p => Step.PathAll yes p ∨ Step.PathAll no p
  | .loop ss, p => Rounds (Step.PathAny ss) p

/-- Through all steps, one after the other. -/
def Step.PathAll : List Step → List Moment → Prop
  | [], p => p = []
  | s :: ss, p => ∃ a b, s.Path a ∧ Step.PathAll ss b ∧ p = a ++ b

/-- Through one of the steps. -/
def Step.PathAny : List Step → List Moment → Prop
  | [], _ => False
  | s :: ss, p => s.Path p ∨ Step.PathAny ss p

end

theorem Step.pathAll_append {S T : List Step} {p : List Moment} (h : PathAll (S ++ T) p) :
    ∃ a b, PathAll S a ∧ PathAll T b ∧ p = a ++ b := by
  induction S generalizing p with
  | nil => exact ⟨[], p, rfl, h, rfl⟩
  | cons s S ih =>
    obtain ⟨a, b, ha, hb, rfl⟩ := h
    obtain ⟨c, d, hc, hd, rfl⟩ := ih hb
    exact ⟨a ++ c, d, ⟨a, c, ha, hc, rfl⟩, hd, (List.append_assoc ..).symm⟩

theorem Step.pathAny_iff {S : List Step} {p : List Moment} : PathAny S p ↔ ∃ s ∈ S, s.Path p := by
  induction S with
  | nil => simp [PathAny]
  | cons s S ih => simp [PathAny, ih]

theorem Step.pathAll_singleton {s : Step} {p : List Moment} (h : PathAll [s] p) : s.Path p := by
  obtain ⟨a, b, ha, rfl, rfl⟩ := h
  rw [List.append_nil]
  exact ha

/-- A step that is followed by an event. -/
theorem Step.pathAll_moment {s : Step} {m : Moment} {p : List Moment} (h : PathAll [s, .moment m] p) :
    ∃ a, s.Path a ∧ p = a ++ [m] := by
  obtain ⟨a, b, ha, hb, rfl⟩ := h
  exact ⟨a, ha, congrArg (a ++ ·) (pathAll_singleton hb)⟩

/-- Public code can go through the history of the circuit along these moments. -/
def Circuit.Path (c : Circuit) (p : List Moment) : Prop := Step.PathAll c.history p

/-! ## What is known along a path -/

/-- All these versions are known there, too. -/
def Versions.Le (K L : Versions) : Prop := ∀ x v, K.current? x = some v → L.current? x = some v

/-- The event tells that the circuit holds the current value of the variable. -/
def Moment.Originates (m : Moment) (x : Variable) (v : CircuitVar) : Prop := m.event.origin? = some (x, v)

/-- What the event tells is known, and what public code writes is not. What is known was known before or is told by the
event, unless versions are taken up again. -/
structure Moment.After (K : Versions) (m : Moment) : Prop where
  told : ∀ x v, m.Originates x v → m.known.current? x = some v
  forgets : ∀ x, m.event = .write x → m.known.current? x = none
  known : m.event = .resume ∨ ∀ x v, m.known.current? x = some v → m.Originates x v ∨ K.current? x = some v

/-- The moments follow each other. -/
def Follows : Versions → List Moment → Prop
  | _, [] => True
  | K, m :: p => m.After K ∧ Follows m.known p

/-- What is known at the end of a path. -/
def knownAfter : Versions → List Moment → Versions
  | K, [] => K
  | _, m :: p => knownAfter m.known p

section Follows

variable {K L M : Versions} {p q : List Moment} {m : Moment}

theorem Versions.Le.refl : K.Le K := fun _ _ h => h

theorem Versions.Le.trans (h : K.Le L) (k : L.Le M) : K.Le M := fun x v hx => k x v (h x v hx)

theorem Moment.After.mono (h : m.After K) (hK : K.Le L) : m.After L :=
  ⟨h.told, h.forgets, h.known.imp id fun h x v hx => (h x v hx).imp id (hK x v)⟩

theorem Follows.mono (h : Follows K p) (hK : K.Le L) : Follows L p := by
  cases p with
  | nil => trivial
  | cons m p => exact ⟨h.1.mono hK, h.2⟩

theorem knownAfter_mono (p : List Moment) (hK : K.Le L) : (knownAfter K p).Le (knownAfter L p) := by
  cases p with
  | nil => exact hK
  | cons m p => exact .refl

theorem follows_append : Follows K (p ++ q) ↔ Follows K p ∧ Follows (knownAfter K p) q := by
  induction p generalizing K with
  | nil => simp [Follows, knownAfter]
  | cons m p ih => simp [Follows, knownAfter, ih, and_assoc]

theorem knownAfter_append : knownAfter K (p ++ q) = knownAfter (knownAfter K p) q := by
  induction p generalizing K with
  | nil => rfl
  | cons m p ih => exact ih

/-- What was known before does not matter for a path that starts anew. -/
theorem Follows.restart (h : Follows K p) (hp : ∀ m ∈ p.head?, m.event = .resume) : Follows L p := by
  cases p with
  | nil => trivial
  | cons m p => exact ⟨⟨h.1.told, h.1.forgets, .inl (hp m rfl)⟩, h.2⟩

theorem Follows.upTo (h : Follows K p) (hq : q <+: p) : Follows K q := by
  obtain ⟨r, rfl⟩ := hq
  exact (follows_append.mp h).1

end Follows

theorem Step.Anew.head {S : List Step} (h : Step.Anew S) {p : List Moment} (hp : Step.PathAll S p) :
    ∀ m ∈ p.head?, m.event = .resume := by
  cases S with
  | nil =>
    obtain rfl := hp
    exact nofun
  | cons s S =>
    cases s with
    | moment n =>
      obtain ⟨a, b, rfl, _, rfl⟩ := hp
      rintro _ ⟨⟩
      exact h
    | scope | together | item | fork | branches | loop => exact h.elim

/-- Items that start anew follow anything, as often as they are passed. -/
theorem follows_rounds {W : List Moment → Prop} (h : ∀ q, W q → ∀ K, Follows K q) {p : List Moment}
    (hp : Rounds W p) (K : Versions) : Follows K p := by
  induction hp generalizing K with
  | done => trivial
  | again hq hleft _ ih => exact follows_append.mpr ⟨(h _ hq K).upTo hleft, ih _⟩

/-- An event that tells nothing about variables. -/
theorem after_of_known {K : Versions} {m : Moment} (ho : m.event.origin? = none)
    (hw : ∀ x, m.event = .write x → m.known.current? x = none) (h : m.known = K) : m.After K := by
  refine ⟨fun x v hx => ?_, hw, .inr fun _ _ hx => .inr (h ▸ hx)⟩
  cases ho.symm.trans hx

theorem after_resume {K : Versions} {m : Moment} (h : m.event = .resume) : m.After K := by
  refine ⟨fun x v hx => ?_, fun x hx => ?_, .inl h⟩
  · unfold Moment.Originates at hx
    rw [h] at hx
    cases hx
  · cases h.symm.trans hx

/-- Every path through a trace follows the versions of its phases, and so does every item that starts anew. -/
theorem Traces.follows {P : List Guard} {E F : Set Asset} {s t : Phase} {S : List Step}
    (h : Traces P E s S F t) :
    (∀ p, Step.PathAll S p → Follows s.known p ∧ t.known.Le (knownAfter s.known p)) ∧
      ∀ T, .item T ∈ S → Step.Anew T → ∀ q, Step.PathAll T q → ∀ K, Follows K q := by
  induction h with
  | quiet h | aid h =>
    refine ⟨?_, nofun⟩
    rintro _ rfl
    exact ⟨trivial, h.known ▸ .refl⟩
  | declare _ _ _ _ hk =>
    refine ⟨?_, nofun⟩
    rintro _ rfl
    exact ⟨trivial, hk ▸ .refl⟩
  | lose h =>
    refine ⟨?_, nofun⟩
    rintro _ rfl
    exact ⟨trivial, h⟩
  | andThen _ _ ih₁ ih₂ =>
    constructor
    · intro p hp
      obtain ⟨a, b, ha, hb, rfl⟩ := Step.pathAll_append hp
      obtain ⟨hs, ht⟩ := ih₁.1 a ha
      obtain ⟨ht', hu⟩ := ih₂.1 b hb
      refine ⟨follows_append.mpr ⟨hs, ht'.mono ht⟩, ?_⟩
      rw [knownAfter_append]
      exact hu.trans (knownAfter_mono b ht)
    · intro T hT
      exact (List.mem_append.mp hT).elim (ih₁.2 T) (ih₂.2 T)
  | enter q | leave q =>
    refine ⟨fun p hp => ?_, by simp [Phase.now]⟩
    obtain rfl := Step.pathAll_singleton hp
    exact ⟨⟨after_of_known rfl nofun q.known, trivial⟩, .refl⟩
  | constant | serve | pass =>
    refine ⟨fun p hp => ?_, by simp [Phase.now]⟩
    obtain rfl := Step.pathAll_singleton hp
    exact ⟨⟨after_of_known rfl nofun rfl, trivial⟩, .refl⟩
  | write unknown =>
    refine ⟨fun p hp => ?_, by simp [Phase.now]⟩
    obtain rfl := Step.pathAll_singleton hp
    refine ⟨⟨after_of_known rfl (fun x hx => ?_) rfl, trivial⟩, .refl⟩
    cases hx
    exact unknown
  | know he _ h =>
    refine ⟨fun p hp => ?_, by simp [Phase.now]⟩
    obtain rfl := Step.pathAll_singleton hp
    refine ⟨⟨⟨fun y u hy => ?_, fun y hy => ?_, .inr fun y u hy => ?_⟩, trivial⟩, .refl⟩
    · cases he.symm.trans hy
      exact (h _).trans (if_pos rfl)
    · cases he.symm.trans (congrArg Event.origin? hy)
    · replace hy := (h y).symm.trans hy
      split at hy
      · rename_i hx
        subst hx
        cases hy
        exact .inl he
      · exact .inr hy
  | resume =>
    refine ⟨fun p hp => ?_, by simp [Phase.now]⟩
    obtain rfl := Step.pathAll_singleton hp
    exact ⟨⟨after_resume rfl, trivial⟩, .refl⟩
  | under _ ih => exact ih
  | scope _ _ ih =>
    refine ⟨fun p hp => ?_, by simp [Phase.now]⟩
    obtain ⟨a, ha, rfl⟩ := Step.pathAll_moment hp
    refine ⟨follows_append.mpr ⟨(ih.1 a ha).1, after_resume rfl, trivial⟩, ?_⟩
    rw [knownAfter_append]
    exact .refl
  | together _ ih =>
    exact ⟨fun p hp => ih.1 p (Step.pathAll_singleton hp), by simp⟩
  | item _ ih =>
    refine ⟨fun p hp => ih.1 p (Step.pathAll_singleton hp), fun T hT anew q hq K => ?_⟩
    cases List.mem_singleton.mp hT
    exact (ih.1 q hq).1.restart (anew.head hq)
  | fork _ _ _ ih₁ ih₂ ih₃ =>
    refine ⟨fun p hp => ?_, by simp⟩
    obtain ⟨a, b, c, ha, hb, hc, rfl⟩ := Step.pathAll_singleton hp
    obtain ⟨hs, ht⟩ := ih₁.1 a ha
    obtain ⟨ht', hu⟩ := ih₂.1 b hb
    obtain ⟨hu', hw⟩ := ih₃.1 c hc
    have known := hu.trans (knownAfter_mono b ht)
    rw [knownAfter_append, knownAfter_append]
    exact ⟨follows_append.mpr ⟨hs, follows_append.mpr ⟨ht'.mono ht, hu'.mono known⟩⟩,
      hw.trans (knownAfter_mono c known)⟩
  | paths anew _ _ ih₁ ih₂ =>
    refine ⟨fun p hp => ?_, by simp [Phase.now]⟩
    obtain ⟨a, ha, rfl⟩ := Step.pathAll_moment hp
    have here : Follows _ a := ha.elim (fun ha => (ih₁.1 a ha).1) fun ha => (ih₂.1 a ha).1.restart (anew.head ha)
    rw [knownAfter_append]
    exact ⟨follows_append.mpr ⟨here, after_resume rfl, trivial⟩, .refl⟩
  | choose _ anewYes anewNo _ _ _ _ ih₁ ih₂ =>
    refine ⟨fun p hp => ?_, by simp [Phase.now]⟩
    obtain ⟨a, ha, rfl⟩ := Step.pathAll_moment hp
    have here : Follows _ a := ha.elim (fun ha => (ih₁.1 a ha).1) fun ha => (ih₂.1 a ha).1.restart (anewNo.head ha)
    rw [knownAfter_append]
    exact ⟨follows_append.mpr ⟨here, after_resume rfl, trivial⟩, .refl⟩
  | @loop _ _ _ _ _ I laps _ ih =>
    refine ⟨fun p hp => ?_, by simp [Phase.now]⟩
    obtain ⟨a, ha, rfl⟩ := Step.pathAll_moment hp
    have each : ∀ q, Step.PathAny I q → ∀ K, Follows K q := by
      intro q hq K
      obtain ⟨i, hi, hq⟩ := Step.pathAny_iff.mp hq
      obtain ⟨T, rfl, anew⟩ := laps i hi
      exact ih.2 T hi anew q hq K
    rw [knownAfter_append]
    exact ⟨follows_append.mpr ⟨follows_rounds each ha _, after_resume rfl, trivial⟩, .refl⟩

/-! ## Stale versions -/

theorem Event.written?_eq {e : Event} {x : Variable} (h : e.written? = some x) :
    e = .write x ∨ ∃ i, e = .pass x i := by
  unfold written? at h
  split at h
  · cases h
    exact .inl rfl
  · cases h
    exact .inr ⟨_, rfl⟩
  · cases h

/-- The variable was written after the value had been read from it or assigned to it for the last time. -/
def Stale (p : List Moment) (x : Variable) (v : CircuitVar) : Prop :=
  ∃ a m b, p = a ++ m :: b ∧ m.Originates x v ∧ (∀ n ∈ b, ¬ n.Originates x v) ∧ ∃ n ∈ b, n.event.written? = some x

/-- No version is stale at the end of the path. -/
def Coherent (p : List Moment) : Prop :=
  ∀ n ∈ p.getLast?, ∀ x v, n.known.current? x = some v → ¬ Stale p x v

/-- No version is stale at any point of any path. -/
def Circuit.Coherent (c : Circuit) : Prop := ∀ p, c.Path p → ∀ q, q <+: p → Shroud.Coherent q

/-- After the path `q`, no call of a function with a circuit of its own leaves a version in place that the function makes
stale, and no version is taken up that is. -/
def Moment.Careful (q : List Moment) (n : Moment) : Prop :=
  ∀ x v, n.known.current? x = some v →
    (∀ i, n.event = .pass x i → ∀ m ∈ q, ¬ m.Originates x v) ∧ (n.event = .resume → ¬ Stale q x v)

theorem not_stale_nil {x : Variable} {v : CircuitVar} : ¬ Stale [] x v := by
  rintro ⟨a, m, b, h, _⟩
  exact List.append_ne_nil_of_right_ne_nil a (List.cons_ne_nil m b) h.symm

/-- The last origin on a path. -/
theorem exists_last_origin {p : List Moment} {x : Variable} {v : CircuitVar} (h : ∃ m ∈ p, m.Originates x v) :
    ∃ a m b, p = a ++ m :: b ∧ m.Originates x v ∧ ∀ n ∈ b, ¬ n.Originates x v := by
  induction p with
  | nil => simp at h
  | cons k p ih =>
    by_cases later : ∃ m ∈ p, m.Originates x v
    · obtain ⟨a, m, b, rfl, hm, hb⟩ := ih later
      exact ⟨k :: a, m, b, rfl, hm, hb⟩
    · obtain ⟨m, hm, ho⟩ := h
      have here : m = k := (List.mem_cons.mp hm).resolve_right fun hm => later ⟨m, hm, ho⟩
      exact ⟨[], k, p, rfl, here ▸ ho, fun n hn ho => later ⟨n, hn, ho⟩⟩

/-- Along the last step of a path. -/
theorem stale_concat {p : List Moment} {n : Moment} {x : Variable} {v : CircuitVar} :
    Stale (p ++ [n]) x v ↔
      ¬ n.Originates x v ∧ (Stale p x v ∨ n.event.written? = some x ∧ ∃ m ∈ p, m.Originates x v) := by
  constructor
  · rintro ⟨a, m, b, hp, ho, hb, k, hk, hw⟩
    obtain ⟨c, l, rfl⟩ : ∃ c l, b = c ++ [l] := by
      rcases List.eq_nil_or_concat b with rfl | ⟨c, l, rfl⟩
      · cases hk
      · exact ⟨c, l, List.concat_eq_append⟩
    rw [← List.cons_append, ← List.append_assoc] at hp
    obtain ⟨rfl, hl⟩ := List.append_inj' hp rfl
    cases hl
    refine ⟨hb n (List.mem_append_right _ (List.mem_singleton_self n)), ?_⟩
    rcases List.mem_append.mp hk with hk | hk
    · exact .inl ⟨a, m, c, rfl, ho, fun j hj => hb j (List.mem_append_left _ hj), k, hk, hw⟩
    · rw [List.mem_singleton.mp hk] at hw
      exact .inr ⟨hw, m, List.mem_append_right _ List.mem_cons_self, ho⟩
  · rintro ⟨hn, h⟩
    -- in both cases a write follows the last origin, and the last step is none
    obtain ⟨a, m, b, rfl, ho, hb, hw⟩ : ∃ a m b, p = a ++ m :: b ∧ m.Originates x v ∧
        (∀ k ∈ b, ¬ k.Originates x v) ∧ ∃ k ∈ b ++ [n], k.event.written? = some x := by
      rcases h with ⟨a, m, b, hp, ho, hb, k, hk, hw⟩ | ⟨hw, h⟩
      · exact ⟨a, m, b, hp, ho, hb, k, List.mem_append_left _ hk, hw⟩
      · obtain ⟨a, m, b, hp, ho, hb⟩ := exists_last_origin h
        exact ⟨a, m, b, hp, ho, hb, n, List.mem_append_right _ (List.mem_singleton_self n), hw⟩
    refine ⟨a, m, b ++ [n], by simp, ho, fun k hk => ?_, hw⟩
    rcases List.mem_append.mp hk with hk | hk
    · exact hb k hk
    · exact List.mem_singleton.mp hk ▸ hn

theorem knownAfter_of_getLast? {K : Versions} {p : List Moment} {n : Moment} (h : n ∈ p.getLast?) :
    knownAfter K p = n.known := by
  obtain ⟨q, rfl⟩ := List.getLast?_eq_some_iff.mp h
  rw [knownAfter_append]
  rfl

/-- A path is coherent everywhere exactly if all its events are careful. -/
theorem Follows.coherent_iff {p : List Moment} (h : Follows .empty p) :
    (∀ q, q <+: p → Coherent q) ↔ ∀ q n, q ++ [n] <+: p → n.Careful q := by
  constructor
  · intro hc q n hq x v hx
    have fresh : ¬ Stale (q ++ [n]) x v := hc _ hq n (by simp) x v hx
    refine ⟨fun i hp m hm ho => fresh (stale_concat.mpr ⟨?_, .inr ⟨congrArg Event.written? hp, m, hm, ho⟩⟩),
      fun hr hs => fresh (stale_concat.mpr ⟨?_, .inl hs⟩)⟩
    · unfold Moment.Originates
      rw [hp]
      nofun
    · unfold Moment.Originates
      rw [hr]
      nofun
  · intro hc q
    induction q using List.reverseRecOn with
    | nil => exact fun _ => nofun
    | append_singleton q n ih =>
      intro hq k hk x v hx
      obtain rfl : n = k := by simpa using hk
      have before : q <+: p := (List.prefix_append q [n]).trans hq
      have careful := hc q n hq x v hx
      have after : n.After (knownAfter .empty q) := (follows_append.mp (h.upTo hq)).2.1
      rw [stale_concat]
      rintro ⟨ho, hs | ⟨hw, m, hm, ho'⟩⟩
      · rcases after.known with hr | known
        · exact careful.2 hr hs
        · -- the version was known before, where it was not stale
          have hx := (known x v hx).resolve_left ho
          cases hl : q.getLast? with
          | none =>
            obtain rfl := List.getLast?_eq_none_iff.mp hl
            exact not_stale_nil hs
          | some k =>
            rw [knownAfter_of_getLast? hl] at hx
            exact ih before k hl x v hx hs
      · rcases Event.written?_eq hw with hw | ⟨i, hp⟩
        · -- public code only writes what is forgotten
          cases (after.forgets x hw).symm.trans hx
        · exact careful.1 i hp m hm ho'

theorem Circuit.Told.follows {c : Circuit} (h : c.Told Asset.aids) {p : List Moment} (hp : c.Path p) : Follows .empty p := by
  obtain ⟨F, ht⟩ := h.history
  exact (ht.follows.1 p hp).1

/-- On no path does public code write a variable whose version the circuit still knows. -/
theorem Circuit.Told.forgets {c : Circuit} (h : c.Told Asset.aids) {p : List Moment} (hp : c.Path p) :
    ∀ n ∈ p, ∀ x, n.event = .write x → n.known.current? x = none := by
  intro n hn
  obtain ⟨q, r, rfl⟩ := List.append_of_mem hn
  exact (follows_append.mp (h.follows hp)).2.1.forgets

/-- In a compiled program, no version is known of a variable that public code has just written. Versions are never stale
exactly if no called function with a circuit of its own writes a variable while a version is known that was read from the
variable or assigned to it before, and no version is taken up again that is stale by then. -/
theorem compile_coherent_iff {u : SourceUnit} {next : Nat} {o : Options} {t : Transcript} {r : Compilation}
    (h : (u.compile next o t).2 = .ok r) (plain : r.source.Plain) : ∀ c ∈ r.circuits,
      (∀ p, c.Path p → ∀ n ∈ p, ∀ x, n.event = .write x → n.known.current? x = none) ∧
      (c.Coherent ↔ ∀ p, c.Path p → ∀ q n, q ++ [n] <+: p → n.Careful q) := by
  intro c hc
  have told : c.Told Asset.aids := compile_plain_told h plain c hc
  exact ⟨fun p => told.forgets, forall₂_congr fun p hp => (told.follows hp).coherent_iff⟩

/-! ## A stale read -/

mutual

/-- The path that takes the first branch everywhere and no loop. -/
def Step.straight : Step → List Moment
  | .moment m => [m]
  | .scope _ _ ss => Step.straightAll ss
  | .together ss => Step.straightAll ss
  | .item ss => Step.straightAll ss
  | .fork yes no meet => Step.straightAll yes ++ (Step.straightAll no ++ Step.straightAll meet)
  | .branches _ yes _ => Step.straightAll yes
  | .loop _ => []

def Step.straightAll : List Step → List Moment
  | [] => []
  | s :: ss => s.straight ++ Step.straightAll ss

end

mutual

theorem Step.path_straight : ∀ s : Step, s.Path s.straight
  | .moment _ => rfl
  | .scope _ _ ss | .together ss | .item ss => Step.pathAll_straight ss
  | .fork yes no meet =>
    ⟨_, _, _, Step.pathAll_straight yes, Step.pathAll_straight no, Step.pathAll_straight meet, rfl⟩
  | .branches _ yes _ => .inl (Step.pathAll_straight yes)
  | .loop _ => .done

theorem Step.pathAll_straight : ∀ ss : List Step, Step.PathAll ss (Step.straightAll ss)
  | [] => rfl
  | s :: ss => ⟨_, _, s.path_straight, Step.pathAll_straight ss, rfl⟩

end

/-- The event takes up versions, or tells about the variable. -/
def Moment.disturbs (x : Variable) (n : Moment) : Bool :=
  match n.event, n.event.origin? with
  | .resume, _ => true
  | _, some (y, _) => y = x
  | _, none => false

/-- The event leaves what is known about the variable as it was. -/
theorem Moment.After.undisturbed {K : Versions} {n : Moment} {x : Variable} (h : n.After K)
    (hn : n.disturbs x = false) {v : CircuitVar} :
    (n.known.current? x = some v → K.current? x = some v) ∧ ¬ n.Originates x v := by
  have quiet : ¬ n.Originates x v := by
    intro ho
    unfold disturbs at hn
    rw [show n.event.origin? = some (x, v) from ho] at hn
    split at hn <;> simp_all
  refine ⟨fun hx => ?_, quiet⟩
  rcases h.known with hr | known
  · unfold disturbs at hn
    rw [hr] at hn
    cases hn
  · exact (known x v hx).resolve_left quiet

theorem Follows.undisturbed {K : Versions} {p : List Moment} {x : Variable} {v : CircuitVar} (h : Follows K p)
    (hp : ∀ n ∈ p, n.disturbs x = false) :
    ((knownAfter K p).current? x = some v → K.current? x = some v) ∧ ∀ n ∈ p, ¬ n.Originates x v := by
  induction p generalizing K with
  | nil => exact ⟨id, nofun⟩
  | cons n p ih =>
    have here := h.1.undisturbed (hp n List.mem_cons_self) (v := v)
    have later := ih h.2 fun k hk => hp k (List.mem_cons_of_mem _ hk)
    refine ⟨fun hx => here.1 (later.1 hx), fun k hk => ?_⟩
    rcases List.mem_cons.mp hk with rfl | hk
    · exact here.2
    · exact later.2 k hk

/-- The event writes the variable. -/
def Moment.writes (x : Variable) (n : Moment) : Bool := n.event.written? = some x

/-- A read of the variable is answered by its current version. -/
def Moment.serves (x : Variable) (n : Moment) : Bool :=
  match n.event with
  | .serve y _ => y = x && (n.known.current? x).isSome
  | _ => false

/-- A variable is written, and the version from before answers a read afterwards. -/
def servesStale (p : List Moment) : Bool := p.tails.any fun
  | [] => false
  | m :: b => m.event.origin?.any fun (x, _) =>
    b.inits.any fun c => c.all (!·.disturbs x) && c.any (·.writes x) && c.getLast?.any (·.serves x)

theorem Follows.not_coherent {p : List Moment} (h : Follows .empty p) (hp : servesStale p = true) :
    ¬ ∀ q, q <+: p → Coherent q := by
  obtain ⟨t, ht, hs⟩ := List.any_eq_true.mp hp
  obtain ⟨a, rfl⟩ := (List.mem_tails _ _).mp ht
  match t, hs with
  | m :: b, hs =>
  obtain ⟨⟨x, w⟩, origin, found⟩ := (Option.any_eq_true _ _).mp hs
  obtain ⟨c, hc, good⟩ := List.any_eq_true.mp found
  obtain ⟨e, rfl⟩ := (List.mem_inits _ _).mp hc
  simp only [Bool.and_eq_true, List.all_eq_true, List.any_eq_true, Bool.not_eq_true'] at good
  obtain ⟨⟨calm, k, hk, writes⟩, served⟩ := good
  obtain ⟨n, last, served⟩ := (Option.any_eq_true _ _).mp served
  have written : k.event.written? = some x := of_decide_eq_true writes
  obtain ⟨v, known⟩ : ∃ v, n.known.current? x = some v := by
    unfold Moment.serves at served
    split at served
    · exact Option.isSome_iff_exists.mp ((Bool.and_eq_true _ _).mp served).2
    · cases served
  -- the version is the one that the origin told, as nothing has disturbed it
  have later := (follows_append.mp h).2
  have near : Follows m.known c := later.2.upTo (List.prefix_append c e)
  have kept := near.undisturbed (v := v) calm
  have same : m.known.current? x = some v := kept.1 (by rw [knownAfter_of_getLast? last, known])
  have told : m.Originates x v := by
    have first := later.1.told x w origin
    rw [same] at first
    cases first
    exact origin
  intro coherent
  refine coherent (a ++ m :: c) ⟨e, by simp⟩ n ?_ x v known ⟨a, m, c, rfl, told, kept.2, k, hk, written⟩
  rw [List.getLast?_append_of_ne_nil _ (List.cons_ne_nil m c), List.getLast?_cons]
  rw [Option.mem_def.mp last]
  rfl

theorem Circuit.not_coherent {c : Circuit} (h : c.Told Asset.aids) (hs : servesStale (Step.straightAll c.history) = true) :
    ¬ c.Coherent := by
  intro hc
  have path : c.Path (Step.straightAll c.history) := Step.pathAll_straight c.history
  exact (h.follows path).not_coherent hs (hc _ path)

/-- A counter that is raised by a function with a circuit of its own, between two uses of the counter in another
circuit. -/
def raising : SourceUnit :=
  let bump := FunctionDef.sketch 102 "bump" "public" [.sketch 103 AnnTy.uint.mine "s"]
    [.assign default (.nameAt 110 "x") (.applyAt 111 .add [.nameAt 113 "x", .literalAt 114 1]) "+" false,
      .declareAt 104 AnnTy.uint.mine "t" (.applyAt 120 .add [.nameAt 122 "s", .literalAt 123 1])]
  let run := FunctionDef.sketch 105 "run" "public" [.sketch 106 AnnTy.uint.mine "a"]
    [.declareAt 107 AnnTy.uint.mine "y" (.applyAt 130 .add [.nameAt 132 "a", .nameAt 133 "x"]),
      .eval default (.callAt 140 (.nameAt 141 "bump") [.nameAt 142 "a"]),
      .declareAt 108 AnnTy.uint.mine "z" (.applyAt 150 .add [.nameAt 152 "a", .nameAt 153 "x"])]
  .sketch 100 "Counter" [⟨101, [], .publicUint, "x", none⟩] [bump, run]

/-- The program compiles, and a read is answered by a value from before a write. -/
theorem raising_compiled : ∃ r, (raising.compile 160 .default .empty).2 = .ok r ∧ r.source.Plain ∧
    ∃ c ∈ r.circuits, servesStale (Step.straightAll c.history) = true := by
  obtain ⟨r, hr, h⟩ := exists_ok_of_any (x := (raising.compile 160 .default .empty).2)
    (p := fun r => decide (r.source.Plain ∧ ∃ c ∈ r.circuits, servesStale (Step.straightAll c.history) = true))
    (by decide +kernel)
  exact ⟨r, hr, of_decide_eq_true h⟩

theorem raising_coherent_iff : ∃ r, (raising.compile 160 .default .empty).2 = .ok r ∧ r.source.Plain ∧
    ∀ c ∈ r.circuits, (∀ p, c.Path p → ∀ n ∈ p, ∀ x, n.event = .write x → n.known.current? x = none) ∧
      (c.Coherent ↔ ∀ p, c.Path p → ∀ q n, q ++ [n] <+: p → n.Careful q) := by
  obtain ⟨r, hr, plain, _⟩ := raising_compiled
  exact ⟨r, hr, plain, compile_coherent_iff hr plain⟩

/-- The second use of the counter is answered by the value that it had before it was raised. -/
theorem raising_not_coherent : ∃ r, (raising.compile 160 .default .empty).2 = .ok r ∧ r.source.Plain ∧
    ∃ c ∈ r.circuits, ¬ c.Coherent := by
  obtain ⟨r, hr, plain, c, hc, stale⟩ := raising_compiled
  exact ⟨r, hr, plain, c, hc, c.not_coherent (compile_plain_told hr plain c hc) stale⟩

end Shroud
