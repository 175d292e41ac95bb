import Shroud.Proofs.SourceNames

/-!
# How a history comes about

The splitter changes a circuit in few ways: values are declared, enter and leave, versions of variables are
recorded, lost or taken up again, and guards are put around all of that. `Traces P E s S F t` says that the
steps `S` tell how the circuit got from phase `s` to phase `t`.

**At hand.** `E` are the assets that expressions, versions and constraints may draw on at the start, `F` those at
the end. What becomes available in a branch of public code is not at hand after it.

**Public guards.** `P` are the guards around the statement of public code that is being worked on. All other
guards in force belong to operands and to branches that are carried out by the circuit.

**Names.** Every variable that enters, leaves or is declared bears a number of its own in its series.
-/

namespace Shroud

/-! ## Series of names -/

/-- The supplies of names that a circuit has. -/
inductive Series where
  | secret | temporary | input | output
  deriving DecidableEq

namespace Series

def base : Series → String
  | .secret => "secret"
  | .temporary => "tmp"
  | .input => Generated.inputs
  | .output => Generated.outputs

def role : Series → CircuitRole
  | .secret => .secretInput
  | .temporary => .temporary
  | .input | .output => .publicArgument

/-- No base name is the beginning of another one. -/
theorem eq_of_base_prefix (r q : Series) : r.base.toList <+: q.base.toList → r = q := by
  cases r <;> cases q <;> decide

end Series

/-- The supply of a series. -/
def Circuit.supply (c : Circuit) : Series → NameSupply
  | .secret => c.secrets
  | .temporary => c.temporaries
  | .input => c.inputs
  | .output => c.outputs

/-- The name of the variable has this number in the series. -/
def CircuitVar.Bears (v : CircuitVar) (r : Series) (k : Nat) : Prop :=
  ∃ rest, v.name = r.base ++ toString k ++ "_" ++ rest

theorem toDigits_append_inj {k n : Nat} {r s : List Char}
    (h : Nat.toDigits 10 k ++ '_' :: r = Nat.toDigits 10 n ++ '_' :: s) : k = n := by
  have stop (m : Nat) (t : List Char) :
      (Nat.toDigits 10 m ++ '_' :: t).takeWhile (· ≠ '_') = Nat.toDigits 10 m := by
    rw [List.takeWhile_append_of_pos]
    · simp
    · intro c hc
      simp only [decide_eq_true_eq, ne_eq]
      rintro rfl
      exact Nat.underscore_not_in_toDigits hc
  have digits : Nat.toDigits 10 k = Nat.toDigits 10 n := by rw [← stop k r, h, stop n s]
  simpa using congrArg (Nat.ofDigitChars 10 · 0) digits

/-- A name has one number in one series. -/
theorem CircuitVar.Bears.unique {v : CircuitVar} {r q : Series} {k n : Nat} (h : v.Bears r k)
    (h' : v.Bears q n) : r = q ∧ k = n := by
  obtain ⟨s, hs⟩ := h
  obtain ⟨t, ht⟩ := h'
  have spell (b : Series) (m : Nat) (u : String) : (b.base ++ toString m ++ "_" ++ u).toList =
      b.base.toList ++ (Nat.toDigits 10 m ++ '_' :: u.toList) := by
    simp [String.toList_append]
  have same := congrArg String.toList (hs.symm.trans ht)
  rw [spell, spell] at same
  have here : r = q := by
    rcases List.prefix_or_prefix_of_prefix (List.prefix_append ..) (same ▸ List.prefix_append ..) with h | h
    · exact (Series.eq_of_base_prefix q r h).symm
    · exact Series.eq_of_base_prefix r q h
  subst here
  exact ⟨rfl, toDigits_append_inj (List.append_cancel_left same)⟩

/-- A name handed out by a supply. -/
theorem NameSupply.fresh_bears {s : NameSupply} {r : Series} (hs : s.base = r.base) (t : Ty) (source : Option Expr)
    (suffix : String) : (s.fresh t source suffix).1.Bears r s.count :=
  ⟨t.contentName ++ suffix, by
    show s.base ++ toString s.count ++ "_" ++ t.contentName ++ suffix = _
    rw [hs]
    simp only [String.append_assoc]⟩

/-! ## Phases -/

mutual

/-- The statements that are about circuit variables, with those of blocks in place of the blocks. -/
def CircuitStmt.lines : CircuitStmt → List CircuitStmt
  | .comment _ | .call _ | .closeGuard => []
  | .block _ ss => CircuitStmt.allLines ss
  | s => [s]

def CircuitStmt.allLines : List CircuitStmt → List CircuitStmt
  | [] => []
  | s :: ss => s.lines ++ CircuitStmt.allLines ss

end

/-- The variable that a statement declares. -/
def CircuitStmt.declared? : CircuitStmt → Option CircuitVar
  | .declare v _ => some v
  | _ => none

/-- What the history tells about a circuit: the guards in force, the known versions, the statements so far, and the
names of each series that were handed out. -/
structure Phase where
  guards : List Guard
  known : Versions
  lines : List CircuitStmt
  count : Series → Nat
  names : Series → List CircuitVar

/-- The phase that a circuit has reached. -/
def Circuit.phase (c : Circuit) : Phase where
  guards := c.guards
  known := c.versions
  lines := CircuitStmt.allLines c.body
  count r := (c.supply r).count
  names r := (c.supply r).vars

/-- The supplies hand out the names of their series. -/
def Circuit.Standard (c : Circuit) : Prop := ∀ r, (c.supply r).base = r.base ∧ (c.supply r).role = r.role

/-- The asset is in the set; a value is so together with the one that it holds. -/
inductive AtHand (E : Set Asset) : Asset → Prop
  | value {v : CircuitVar} (mem : .value v ∈ E) (held : ∀ u, v.held? = some u → AtHand E (.value u)) : AtHand E (.value v)
  | aid {e : Expr} (mem : .aid e ∈ E) : AtHand E (.aid e)

theorem AtHand.mem {E : Set Asset} {a : Asset} (h : AtHand E a) : a ∈ E := by
  cases h with
  | value mem | aid mem => exact mem

theorem AtHand.held {E : Set Asset} {u v : CircuitVar} (h : AtHand E v) (hu : v.held? = some u) : AtHand E u := by
  obtain ⟨_, hh⟩ := h
  exact hh u hu

theorem AtHand.mono {E F : Set Asset} (hE : E ⊆ F) {a : Asset} (h : AtHand E a) : AtHand F a := by
  induction h with
  | value mem _ ih => exact .value (hE mem) ih
  | aid mem => exact .aid (hE mem)

/-- All versions are among these. -/
def Versions.From (vs : Versions) (B : Set (Variable × CircuitVar)) : Prop := ∀ p ∈ vs.entries, p ∈ B

/-- All versions are at hand. -/
def Versions.Within (vs : Versions) (E : Set Asset) : Prop := ∀ p ∈ vs.entries, AtHand E p.2

namespace Versions

variable {vs inner outer : Versions} {x y : Variable} {v : CircuitVar} {B C : Set (Variable × CircuitVar)}
  {E F : Set Asset}

theorem From.mono (h : vs.From B) (hB : B ⊆ C) : vs.From C := fun p hp => hB (h p hp)

theorem Within.mono (h : vs.Within E) (hE : E ⊆ F) : vs.Within F := fun p hp => (h p hp).mono hE

theorem mem_entries (h : vs.current? x = some v) : (x, v) ∈ vs.entries := by
  obtain ⟨before, after, h, _⟩ := List.lookup_eq_some_iff.mp h
  rw [h]
  exact List.mem_append_right _ List.mem_cons_self

theorem Within.current (h : vs.Within E) (hx : vs.current? x = some v) : AtHand E v := h _ (mem_entries hx)

theorem current?_set : (vs.set x v).current? y = if y = x then some v else vs.current? y := by
  have replaced (ps : List (Variable × CircuitVar)) :
      (ps.map fun p => if p.1 = x then (x, v) else p).lookup y =
        if y = x then (ps.lookup x).map fun _ => v else ps.lookup y := by
    induction ps with
    | nil => simp
    | cons p ps ih =>
      obtain ⟨z, u⟩ := p
      by_cases hz : z = x <;> by_cases hy : y = x <;> grind
  unfold set
  split
  · rename_i h
    obtain ⟨u, hu⟩ := Option.isSome_iff_exists.mp h
    unfold current? at hu ⊢
    refine (replaced _).trans ?_
    rw [hu]
    rfl
  · rename_i h
    unfold current? at h ⊢
    rw [List.lookup_append, List.lookup_cons, List.lookup_nil]
    by_cases hy : y = x
    · subst hy
      simp [Option.not_isSome_iff_eq_none.mp h]
    · rw [beq_false_of_ne hy, if_neg hy]
      exact Option.or_none

theorem current?_forget : (vs.forget x).current? y = if y = x then none else vs.current? y := by
  unfold forget current?
  induction vs.entries with
  | nil => simp
  | cons p ps ih => grind

theorem mem_set : (x, v) ∈ (vs.set x v).entries := mem_entries (by rw [current?_set, if_pos rfl])

theorem From.set (h : vs.From B) (hv : (x, v) ∈ B) : (vs.set x v).From B := by
  intro p hp
  unfold Versions.set at hp
  split at hp
  · obtain ⟨q, hq, rfl⟩ := List.mem_map.mp hp
    dsimp only
    split
    · exact hv
    · exact h q hq
  · rcases List.mem_append.mp hp with hp | hp
    · exact h p hp
    · rw [List.mem_singleton.mp hp]
      exact hv

theorem Within.set (h : vs.Within E) (hv : AtHand E v) : (vs.set x v).Within E :=
  From.set (B := { p | AtHand E p.2 }) h hv

theorem From.leave {visible : Variable → Bool} (hi : inner.From B) (ho : outer.From B) :
    (inner.leave outer visible).From B := by
  have fold (ps : List (Variable × CircuitVar)) (hps : ∀ p ∈ ps, p ∈ B) (vs : Versions) (hvs : vs.From B) :
      (ps.foldl (fun vs p => vs.set p.1 p.2) vs).From B := by
    induction ps generalizing vs with
    | nil => exact hvs
    | cons p ps ih =>
      exact ih (fun q hq => hps q (List.mem_cons_of_mem _ hq)) _ (hvs.set (hps p List.mem_cons_self))
  exact fold _ (fun p hp => hi p (List.mem_of_mem_filter hp)) outer ho

theorem Within.leave {visible : Variable → Bool} (hi : inner.Within E) (ho : outer.Within E) :
    (inner.leave outer visible).Within E :=
  From.leave (B := { p | AtHand E p.2 }) hi ho

/-- Forgetting loses versions and changes none. -/
theorem forgetAll_le (xs : List Variable) (vs : Versions) (h : (xs.foldl forget vs).current? x = some v) :
    vs.current? x = some v := by
  induction xs generalizing vs with
  | nil => exact h
  | cons y xs ih =>
    have := ih _ h
    rw [current?_forget] at this
    split at this
    · cases this
    · exact this

theorem current?_forgetAll {xs : List Variable} {vs : Versions} (h : x ∈ xs) :
    (xs.foldl forget vs).current? x = none := by
  induction xs generalizing vs with
  | nil => cases h
  | cons y xs ih =>
    rcases List.mem_cons.mp h with rfl | h
    · cases known : (xs.foldl forget (vs.forget x)).current? x with
      | none => exact known
      | some v =>
        have before := forgetAll_le xs _ known
        rw [current?_forget, if_pos rfl] at before
        cases before
    · exact ih h

theorem From.forgetAll (xs : List Variable) (h : vs.From B) : (xs.foldl forget vs).From B := by
  induction xs generalizing vs with
  | nil => exact h
  | cons y xs ih => exact ih fun p hp => h p (List.mem_of_mem_filter hp)

theorem Within.forgetAll (xs : List Variable) (h : vs.Within E) : (xs.foldl forget vs).Within E :=
  From.forgetAll (B := { p | AtHand E p.2 }) xs h

end Versions

namespace Phase

/-- Names were handed out. -/
def Advances (s t : Phase) : Prop := ∀ r, s.count r ≤ t.count r

/-- The variable enters or leaves the circuit, or holds a key that is known in advance. -/
def Registers (s : Phase) (v : CircuitVar) : Prop := (∃ r, r ≠ .temporary ∧ v ∈ s.names r) ∨ ∃ p, IsStaticKey p v

/-- Names were handed out, and something was stated about them or about what is at hand. -/
structure Quiet (E : Set Asset) (s t : Phase) : Prop where
  guards : t.guards = s.guards
  known : t.known = s.known
  lines : ∃ more, t.lines = s.lines ++ more ∧
    ∀ l ∈ more, l.declared? = none ∧ ∀ v ∈ l.constrained, .value v ∈ E ∨ t.Registers v
  count : s.Advances t
  names : ∀ r, s.names r ⊆ t.names r
  temporaries : t.names .temporary = s.names .temporary

theorem Quiet.refl {E : Set Asset} (s : Phase) : s.Quiet E s :=
  ⟨rfl, rfl, ⟨[], (List.append_nil _).symm, nofun⟩, fun _ => Nat.le_refl _, fun _ => List.Subset.refl _, rfl⟩

/-- Something is stated about what is at hand. -/
theorem Quiet.line {E : Set Asset} {s : Phase} {l : CircuitStmt} (hl : l.declared? = none)
    (hE : ∀ v ∈ l.constrained, .value v ∈ E) : s.Quiet E { s with lines := s.lines ++ [l] } := by
  refine ⟨rfl, rfl, ⟨[l], rfl, ?_⟩, fun _ => Nat.le_refl _, fun _ => List.Subset.refl _, rfl⟩
  rintro _ (_ | ⟨_, ⟨⟩⟩)
  exact ⟨hl, fun v hv => .inl (hE v hv)⟩

/-- The name of the variable is one of those that were handed out in between. -/
def Numbers (s : Phase) (r : Series) (v : CircuitVar) (t : Phase) : Prop :=
  ∃ k, v.Bears r k ∧ s.count r ≤ k ∧ k < t.count r

theorem Numbers.later {s t u : Phase} {r : Series} {v : CircuitVar} (h : s.Numbers r v t) (ht : t.Advances u) :
    s.Numbers r v u := by
  obtain ⟨n, hb, hs, hn⟩ := h
  exact ⟨n, hb, hs, Nat.lt_of_lt_of_le hn (ht r)⟩

/-- The variable is one of those that were added in between, with a name that was handed out. -/
structure Hands (s : Phase) (r : Series) (v : CircuitVar) (t : Phase) : Prop where
  mem : v ∈ t.names r
  numbers : s.Numbers r v t

/-- The moment of an event. -/
def now (s : Phase) (e : Event) : Step := .moment ⟨e, s.guards, s.known⟩

def knowing (s : Phase) (vs : Versions) : Phase := { s with known := vs }

def under (s : Phase) (gs : List Guard) : Phase := { s with guards := gs }

end Phase

/-! ## Traces -/

/-- The variable and the value, if the event tells that the circuit holds the current value of the variable. -/
def Event.origin? : Event → Option (Variable × CircuitVar)
  | .learn x v | .bind x v | .merge x v | .hand x v => some (x, v)
  | _ => none

/-- The variable that public code or a called function writes. -/
def Event.written? : Event → Option Variable
  | .write x | .pass x _ => some x
  | _ => none

/-- What was known before does not matter for these steps. -/
def Step.Anew : List Step → Prop
  | [] => True
  | .moment m :: _ => m.event = .resume
  | _ => False

/-- An item that starts anew. -/
def Step.IsLap (s : Step) : Prop := ∃ steps, s = .item steps ∧ Step.Anew steps

/-- The steps tell how a circuit got from one phase to another. -/
inductive Traces : List Guard → Set Asset → Phase → List Step → Set Asset → Phase → Prop
  | quiet {P E s t} (h : s.Quiet E t) : Traces P E s [] E t
  | andThen {P E F G s t u S T} (h : Traces P E s S F t) (k : Traces P F t T G u) : Traces P E s (S ++ T) G u
  | declare {P E s t v e} (hv : s.Hands .temporary v t) (hr : v.role = .temporary) (he : e.Draws (AtHand E))
      (hg : t.guards = s.guards) (hk : t.known = s.known) (hl : t.lines = s.lines ++ [.declare v e])
      (hc : s.Advances t) (hn : t.names = Function.update s.names .temporary (s.names .temporary ++ [v]))
      (hi : e.IsInner) : Traces P E s [] (insert (.value v) E) t
  | aid {P E s t v} (q : s.Quiet E t) (hv : t.Registers v) : Traces P E s [] (insert (.aid v.read) E) t
  | lose {P E s vs} (h : ∀ x v, vs.current? x = some v → s.known.current? x = some v) (hw : vs.Within E) :
      Traces P E s [] E (s.knowing vs)
  | enter {P E s t r e v} (q : s.Quiet E t) (hv : s.Hands r v t) (hr : r ≠ .temporary) :
      Traces P E s [t.now (.enter e v)] (insert (.value v) E) t
  | leave {P E s t} {p v : CircuitVar} (q : s.Quiet E t) (hv : s.Hands .output v t) (hp : AtHand E p) :
      Traces P E s [t.now (.leave p v)] (insert (.value v) E) t
  | constant {P E s e} {v : CircuitVar} (hv : AtHand E v) : Traces P E s [s.now (.constant e v)] E s
  | serve {P E s x v} (h : s.known.current? x = some v) : Traces P E s [s.now (.serve x v)] E s
  | know {P E s vs x v} {e : Event} (he : e.origin? = some (x, v)) (hv : AtHand E v)
      (h : ∀ y, vs.current? y = if y = x then some v else s.known.current? y) (hw : vs.Within E) :
      Traces P E s [(s.knowing vs).now e] E (s.knowing vs)
  | write {P E s x} (h : s.known.current? x = none) : Traces P E s [s.now (.write x)] E s
  | pass {P E s x i} : Traces P E s [s.now (.pass x i)] E s
  | resume {P E s vs} (h : vs.Within E) : Traces P E s [(s.knowing vs).now .resume] E (s.knowing vs)
  | under {P E F s t S g} (h : Traces P E (s.under (s.guards ++ [g])) S F t) : Traces P E s S F (t.under s.guards)
  | scope {P E F s t S isCall left vs} (h : Traces P E s S F t) (hv : vs.Within F) :
      Traces P E s [.scope isCall left S, (t.knowing vs).now .resume] F (t.knowing vs)
  | together {P E F s t S} (h : Traces P E s S F t) : Traces P E s [.together S] F t
  | item {P E F s t S} (h : Traces P E s S F t) : Traces P E s [.item S] F t
  | fork {P E F G H s t u w Y N M} (yes : Traces P E s Y F t) (no : Traces P F t N G u) (meet : Traces P G u M H w) :
      Traces P E s [.fork Y N M] H w
  | paths {P E F G s t u Y N} (anew : Step.Anew N) (yes : Traces P E s Y F t) (no : Traces P F t N G u) :
      Traces P E s [.branches none Y N, u.now .resume] G u
  | choose {P E F G s t u Y N vs} {g : CircuitVar} (hP : s.guards = P) (anewYes : Step.Anew Y)
      (anewNo : Step.Anew N)
      (yes : Traces (P ++ [⟨g.name, true⟩]) E (s.under (P ++ [⟨g.name, true⟩])) Y F t) (ht : t.known.Within E)
      (no : Traces (P ++ [⟨g.name, false⟩]) E (t.under (P ++ [⟨g.name, false⟩])) N G u) (hv : vs.Within E) :
      Traces P E s [.branches (some g) Y N, ((u.under P).knowing vs).now .resume] E ((u.under P).knowing vs)
  | loop {P E F s t I} (laps : ∀ i ∈ I, Step.IsLap i) (h : Traces P E s I F t) :
      Traces P E s [.loop I, t.now .resume] F t

namespace Traces

variable {P : List Guard} {E F : Set Asset} {s t : Phase} {S : List Step}

theorem refl : Traces P E s [] E s := .quiet (.refl s)

/-- All guards are closed again. -/
theorem guards_eq (h : Traces P E s S F t) : t.guards = s.guards := by
  induction h with
  | quiet h | aid h | enter h | leave h => exact h.guards
  | andThen _ _ h k => exact k.trans h
  | declare _ _ _ hg => exact hg
  | lose | constant | serve | know | write | pass | resume | under => rfl
  | scope _ _ ih => exact ih
  | together _ ih | item _ ih | loop _ _ ih => exact ih
  | fork _ _ _ h₁ h₂ h₃ => exact h₃.trans (h₂.trans h₁)
  | paths _ _ _ h₁ h₂ => exact h₂.trans h₁
  | choose hP => exact hP.symm

/-- Names are handed out in order. -/
theorem advances (h : Traces P E s S F t) : s.Advances t := by
  induction h with
  | quiet h | aid h | enter h | leave h => exact h.count
  | andThen _ _ h k | paths _ _ _ h k => exact fun r => Nat.le_trans (h r) (k r)
  | declare _ _ _ _ _ _ hc => exact hc
  | lose | constant | serve | know | write | pass | resume => exact fun r => Nat.le_refl _
  | under _ ih | scope _ _ ih | together _ ih | item _ ih | loop _ _ ih => exact ih
  | fork _ _ _ h₁ h₂ h₃ => exact fun r => Nat.le_trans (h₁ r) (Nat.le_trans (h₂ r) (h₃ r))
  | choose _ _ _ _ _ _ _ h₁ h₂ => exact fun r => Nat.le_trans (h₁ r) (h₂ r)

/-- What is at hand stays at hand. -/
theorem subset (h : Traces P E s S F t) : E ⊆ F := by
  induction h with
  | quiet | lose | constant | serve | know | write | pass | resume | choose => exact fun _ hv => hv
  | declare | aid | enter | leave => exact Set.subset_insert _ _
  | andThen _ _ h k | paths _ _ _ h k => exact h.trans k
  | under _ ih | scope _ _ ih | together _ ih | item _ ih | loop _ _ ih => exact ih
  | fork _ _ _ h₁ h₂ h₃ => exact h₁.trans (h₂.trans h₃)

/-- Versions are at hand. -/
theorem within (h : Traces P E s S F t) (hs : s.known.Within E) : t.known.Within F := by
  induction h with
  | quiet h => exact h.known ▸ hs
  | aid h | enter h | leave h => exact h.known ▸ hs.mono (Set.subset_insert _ _)
  | declare _ _ _ _ hk => exact hk ▸ hs.mono (Set.subset_insert _ _)
  | andThen _ _ h k | paths _ _ _ h k => exact k (h hs)
  | constant | serve | write | pass => exact hs
  | lose _ hw | know _ _ _ hw | resume hw | scope _ hw | choose _ _ _ _ _ _ hw => exact hw
  | under _ ih | together _ ih | item _ ih | loop _ _ ih => exact ih hs
  | fork _ _ _ h₁ h₂ h₃ => exact h₃ (h₂ (h₁ hs))

end Traces

end Shroud
