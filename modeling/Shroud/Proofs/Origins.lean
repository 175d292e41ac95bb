import Shroud.Proofs.Histories
import Shroud.Proofs.Activities
import Shroud.Proofs.Joining

/-!
# Where versions come from

A circuit remembers values of variables as versions. A version should be the plain value of its variable, never a
ciphertext.

**Origins.** Every version that is known at some moment was recorded by an event: it was learned from a read, bound by
the circuit, merged where branches meet, or handed over by public code. A read is remembered as a plain value only. So
ciphertexts get in exactly where variables are given them.

**Results.**

* `recalls_hereditary`: the splitter records what it makes known.
* `compile_plaintext_iff`: a circuit of a compiled program knows plain values only, exactly if variables are given plain
  values only.
* `adding_not_plaintext`: a program in which a ciphertext becomes the version of a variable and answers a read.
-/

namespace Shroud

/-! ## Moments -/

theorem Step.allMoments_append (S T : List Step) : allMoments (S ++ T) = allMoments S ++ allMoments T := by
  induction S with
  | nil => rfl
  | cons s S ih => simp only [List.cons_append, allMoments, ih, List.append_assoc]

theorem Step.allMoments_singleton (s : Step) : allMoments [s] = s.moments := List.append_nil _

theorem Event.origin?_of_served {e : Event} {p : Variable × CircuitVar} (h : e.served? = some p) :
    e.origin? = none := by
  cases e with
  | serve => rfl
  | enter | constant | leave | learn | bind | merge | hand | write | pass | resume => cases h

/-- A read is remembered as a plain value. What an event records is known at its moment, as is what answers a read. -/
structure Moment.Tells (m : Moment) : Prop where
  plain : ∀ x v, m.event = .learn x v → v.type.isCipher = false
  known : ∀ p, m.event.origin? = some p → p ∈ m.known.entries
  served : ∀ p, m.event.served? = some p → p ∈ m.known.entries

/-- The versions that events record. -/
def Moment.origins (ms : List Moment) : Set (Variable × CircuitVar) := { p | ∃ m ∈ ms, m.event.origin? = some p }

/-- What is kept where branches meet is a version of one of them. -/
theorem Versions.From.kept {vs us : Versions} {x : Variable} {v : CircuitVar} {B : Set (Variable × CircuitVar)}
    {visible : Variable → Bool} (hv : vs.From B) (hu : us.From B) (h : (x, .keep v) ∈ vs.merge us visible) :
    (x, v) ∈ B := by
  have oneSided {w : CircuitVar} {a b : Option CircuitVar}
      (h : Decision.keep v = oneSided w (.choose a b)) : v = w := by
    unfold Versions.oneSided at h
    split at h
    · exact Decision.keep.inj h
    · cases h
  rcases List.mem_append.mp h with h | h
  · obtain ⟨⟨y, w⟩, hw, h⟩ := List.mem_filterMap.mp h
    dsimp only at h
    split at h
    · cases h
    · split at h
      · split at h
        · cases h
          exact hv _ hw
        · cases h
      · obtain ⟨rfl, same⟩ := Prod.mk.inj (Option.some.inj h)
        exact oneSided same.symm ▸ hv _ hw
  · obtain ⟨⟨y, w⟩, hw, h⟩ := List.mem_filterMap.mp h
    dsimp only at h
    split at h
    · cases h
    · obtain ⟨rfl, same⟩ := Prod.mk.inj (Option.some.inj h)
      exact oneSided same.symm ▸ hu _ hw

/-- Starting with versions among `B`, the moments record every version that is known at them or after them. -/
structure Sourced (B : Set (Variable × CircuitVar)) (ms : List Moment) (vs : Versions) : Prop where
  after : vs.From (B ∪ Moment.origins ms)
  during : ∀ m ∈ ms, m.known.From (B ∪ Moment.origins ms)
  tells : ∀ m ∈ ms, m.Tells

namespace Sourced

variable {B C : Set (Variable × CircuitVar)} {ms ns : List Moment} {vs us : Versions} {m : Moment}

theorem nil (h : vs.From B) : Sourced B [] vs := ⟨h.mono Set.subset_union_left, nofun, nofun⟩

theorem origins_append : B ∪ Moment.origins (ms ++ ns) = (B ∪ Moment.origins ms) ∪ Moment.origins ns := by
  ext p
  simp only [Moment.origins, Set.mem_union, Set.mem_ofPred_eq, List.mem_append, or_and_right, exists_or, or_assoc]

theorem append (h : Sourced B ms vs) (k : Sourced (B ∪ Moment.origins ms) ns us) : Sourced B (ms ++ ns) us := by
  refine ⟨origins_append ▸ k.after, fun m hm => ?_, fun m hm => ?_⟩
  · rw [origins_append]
    rcases List.mem_append.mp hm with hm | hm
    · exact (h.during m hm).mono Set.subset_union_left
    · exact k.during m hm
  · rcases List.mem_append.mp hm with hm | hm
    · exact h.tells m hm
    · exact k.tells m hm

/-- One moment. -/
theorem single (hm : m.known.From (B ∪ Moment.origins [m])) (hv : vs.From (B ∪ Moment.origins [m])) (ht : m.Tells) :
    Sourced B [m] vs :=
  ⟨hv, List.forall_mem_singleton.mpr hm, List.forall_mem_singleton.mpr ht⟩

/-- A moment at which nothing is recorded. -/
theorem silent (hm : m.event.origin? = none) (hs : ∀ p, m.event.served? = some p → p ∈ m.known.entries)
    (hk : m.known.From B) (hv : vs.From B) : Sourced B [m] vs := by
  refine single (hk.mono Set.subset_union_left) (hv.mono Set.subset_union_left) ⟨fun x v h => ?_, fun p h => ?_, hs⟩
  · rw [h] at hm
    cases hm
  · rw [hm] at h
    cases h

end Sourced

/-- The circuit went on from the first to the second by steps that recall what they make known. -/
def Circuit.Recalls (B : Set (Variable × CircuitVar)) (c d : Circuit) : Prop :=
  ∃ S, d.history = c.history ++ S ∧ Sourced B (Step.allMoments S) d.versions

theorem Circuit.Recalls.andThen {B : Set (Variable × CircuitVar)} {c d e : Circuit} (h : c.Recalls B d)
    (k : ∀ C, B ⊆ C → d.versions.From C → d.Recalls C e) : c.Recalls B e := by
  obtain ⟨S, hS, s⟩ := h
  obtain ⟨T, hT, t⟩ := k _ Set.subset_union_left s.after
  exact ⟨S ++ T, by rw [hT, hS, List.append_assoc], Step.allMoments_append S T ▸ s.append t⟩

/-- One more step. -/
theorem Circuit.Recalls.record {B : Set (Variable × CircuitVar)} {c d : Circuit} {s : Step}
    (h : d.history = c.history) (hs : Sourced B s.moments d.versions) :
    c.Recalls B { d with history := d.history ++ [s] } :=
  ⟨[s], congrArg (· ++ [s]) h, (Step.allMoments_singleton s).symm ▸ hs⟩

namespace SplitM

variable {α β : Type} {x : SplitM α} {f : α → SplitM β} {k : SplitContext} {w w' : Workspace} {a : α}
  {B : Set (Variable × CircuitVar)}

/-- Every run of the activity recalls what it makes known. -/
def Recalls (x : SplitM α) : Prop := ∀ k w a w', Runs k x w a w' → ∀ B, w.circuit.versions.From B →
  w.circuit.Recalls B w'.circuit

theorem Recalls.bind_gives {P : α → Prop} (hx : Recalls x) (hg : Gives P x) (hf : ∀ a, P a → Recalls (f a)) :
    Recalls (x >>= f) := by
  intro k w b w' h B hw
  obtain ⟨a, v, h₁, h₂⟩ := runs_bind.mp h
  exact (hx k w a v h₁ B hw).andThen fun C _ hC => hf a (hg k w a v h₁) k v b w' h₂ C hC

theorem Recalls.bind (hx : Recalls x) (hf : ∀ a, Recalls (f a)) : Recalls (x >>= f) :=
  hx.bind_gives (P := fun _ => True) (fun _ _ _ _ _ => trivial) fun a _ => hf a

theorem QuietlyOn.recalls {V : Set CircuitVar} (hx : QuietlyOn V x) : Recalls x := by
  intro k w a w' h B hw
  have quiet := hx k w a w' h
  exact ⟨[], by rw [quiet.history, List.append_nil], .nil (quiet.versions ▸ hw)⟩

theorem Idle.recalls (hx : Idle x) : Recalls x := (hx.quietly (V := ∅)).recalls

/-- A quiet activity before another one. -/
theorem QuietlyOn.recalls_then (hx : Quietly x) (hf : ∀ a, Recalls (f a)) : Recalls (x >>= f) := hx.recalls.bind hf

theorem Idle.recalls_then (hx : Idle x) (hf : ∀ a, Recalls (f a)) : Recalls (x >>= f) := hx.recalls.bind hf

theorem Recalls.pure {a : α} : Recalls (pure a) := Idle.pure.recalls

theorem Recalls.throw {e : Error} : Recalls (throw e : SplitM α) := Idle.throw.recalls

/-! ### Changes of the circuit -/

theorem recalls_modifyCircuit {g : Circuit → Circuit} (hh : ∀ c, (g c).history = c.history)
    (hv : ∀ c, (g c).versions = c.versions) : Recalls (modifyCircuit g) := by
  intro k w a w' h B hw
  obtain rfl := runs_modifyCircuit.mp h
  refine ⟨[], by rw [hh, List.append_nil], .nil ?_⟩
  show (g w.circuit).versions.From B
  rw [hv]
  exact hw

theorem recalls_emit {s : CircuitStmt} : Recalls (emit s) := recalls_modifyCircuit (fun _ => rfl) fun _ => rfl

theorem recalls_amendComment {n : Nat} {more : String} : Recalls (Splitter.amendComment n more) :=
  recalls_modifyCircuit (fun _ => rfl) fun _ => rfl

theorem recalls_freshTemporary {t : Ty} {source : Expr} {suffix : String} :
    Recalls (freshTemporary t source suffix) := by
  refine idle_circuit.recalls_then fun _ => Recalls.bind (recalls_modifyCircuit ?_ ?_) fun _ => .pure
  · exact fun _ => rfl
  · exact fun _ => rfl

theorem Recalls.indented {name : String} (hx : Recalls x) : Recalls (indented name x) := by
  refine idle_circuit.recalls_then fun _ => hx.bind fun _ => Recalls.bind (recalls_modifyCircuit ?_ ?_) fun _ => .pure
  · exact fun _ => rfl
  · exact fun _ => rfl

/-! ### Events -/

/-- An event that records nothing. -/
theorem recalls_note {e : Event} (he : e.origin? = none) (hs : e.served? = none) : Recalls (note e) := by
  intro k w a w' h B hw
  obtain rfl := runs_note.mp h
  exact ⟨_, rfl, .silent he (fun _ h => nomatch hs.symm.trans h) hw hw⟩

/-- What answers a read is known. -/
theorem recalls_known? {x : Option Variable} : Recalls (Splitter.known? x) := by
  unfold Splitter.known?
  split
  · exact .pure
  · rename_i x
    intro k w a w' h B hw
    obtain ⟨_, _, h₁, h⟩ := runs_bind.mp h
    obtain ⟨rfl, rfl⟩ := runs_versions.mp h₁
    split at h
    · exact Recalls.pure k w a w' h B hw
    · rename_i v hv
      obtain ⟨_, _, h₁, h⟩ := runs_bind.mp h
      obtain rfl := runs_note.mp h₁
      obtain ⟨-, rfl⟩ := runs_pure.mp h
      refine ⟨_, rfl, .silent rfl (fun p hp => ?_) hw hw⟩
      cases hp
      exact Versions.mem_entries hv

theorem runs_know {e : Event} {y : Variable} {v : CircuitVar} {u : Unit} (he : e.origin? = some (y, v))
    (plain : ∀ z v, e = .learn z v → v.type.isCipher = false) {w₁ : Workspace} (h : Runs k (setVersion y v) w u w₁)
    (h' : Runs k (note e) w₁ u w') (hw : w.circuit.versions.From B) : w.circuit.Recalls B w'.circuit := by
  obtain rfl := runs_setVersion.mp h
  obtain rfl := runs_note.mp h'
  have here : (y, v) ∈ B ∪ Moment.origins [⟨e, w.circuit.guards, w.circuit.versions.set y v⟩] :=
    .inr ⟨_, List.mem_singleton_self _, he⟩
  have known := (hw.mono Set.subset_union_left).set here
  refine ⟨_, rfl, .single known known ⟨plain, fun p hp => ?_, fun p hp => ?_⟩⟩
  · obtain rfl : (y, v) = p := Option.some.inj (he.symm.trans hp)
    exact Versions.mem_set
  · rw [Event.origin?_of_served hp] at he
    cases he

/-- A variable gets a version. -/
theorem recalls_know {e : Event} {y : Variable} {v : CircuitVar} (he : e.origin? = some (y, v))
    (plain : ∀ z v, e = .learn z v → v.type.isCipher = false) : Recalls (do
      setVersion y v
      note e) := by
  intro k w a w' h B hw
  obtain ⟨_, _, h₁, h₂⟩ := runs_bind.mp h
  exact runs_know he plain h₁ h₂ hw

theorem recalls_forgetAll {xs : List Variable} : Recalls (forgetAll xs) := by
  intro k w a w' h B hw
  obtain ⟨_, _, h₁, h₂⟩ := runs_bind.mp h
  obtain ⟨rfl, rfl⟩ := runs_versions.mp h₁
  obtain rfl := runs_setVersions.mp h₂
  exact ⟨[], (List.append_nil _).symm, .nil (hw.forgetAll xs)⟩

/-- Versions that were known before are taken up again. -/
theorem runs_resume {vs : Versions} {u : Unit} {c : Circuit} {S : List Step} (h : Runs k (resume vs) w u w')
    (hh : w.circuit.history = c.history ++ S) (s : Sourced B (Step.allMoments S) w.circuit.versions)
    (hv : vs.From (B ∪ Moment.origins (Step.allMoments S))) :
    ∃ m, w'.circuit.history = c.history ++ (S ++ [.moment m]) ∧
      Sourced B (Step.allMoments (S ++ [.moment m])) w'.circuit.versions ∧ w'.circuit.versions = vs := by
  obtain ⟨_, _, h₁, h₂⟩ := runs_bind.mp h
  obtain rfl := runs_setVersions.mp h₁
  obtain rfl := runs_note.mp h₂
  refine ⟨⟨.resume, w.circuit.guards, vs⟩, ?_, ?_, rfl⟩
  · rw [← List.append_assoc, ← hh]
    rfl
  · rw [Step.allMoments_append]
    exact s.append (.silent rfl nofun hv hv)

/-! ### Groups -/

/-- The steps of a run are taken out of the history. -/
theorem captured_recalls {S : List Step} (hx : ∀ v, Runs k x w a v → w.circuit.Recalls B v.circuit)
    (h : Runs k (captured x) w (a, S) w') : w'.circuit.history = w.circuit.history ∧
      Sourced B (Step.allMoments S) w'.circuit.versions ∧ ∃ v, Runs k x w a v ∧
        v.circuit.versions = w'.circuit.versions ∧ v.circuit.history = w.circuit.history ++ S := by
  obtain ⟨_, _, h₁, h⟩ := runs_bind.mp h
  obtain ⟨rfl, rfl⟩ := runs_circuit.mp h₁
  obtain ⟨b, v, hr, h⟩ := runs_bind.mp h
  obtain ⟨_, _, h₁, h⟩ := runs_bind.mp h
  obtain ⟨rfl, rfl⟩ := runs_circuit.mp h₁
  obtain ⟨_, _, h₁, h⟩ := runs_bind.mp h
  obtain rfl := runs_modifyCircuit.mp h₁
  obtain ⟨same, rfl⟩ := runs_pure.mp h
  obtain ⟨rfl, rfl⟩ := Prod.mk.inj same
  obtain ⟨T, hT, s⟩ := hx v hr
  have steps : v.circuit.history.drop w.circuit.history.length = T := by rw [hT, List.drop_left]
  rw [steps]
  refine ⟨?_, s, v, hr, rfl, hT⟩
  show v.circuit.history.take w.circuit.history.length = w.circuit.history
  rw [hT, List.take_left]

theorem Recalls.grouped {step : List Step → Step} (hs : ∀ S, (step S).moments = Step.allMoments S) (hx : Recalls x) :
    Recalls (grouped step x) := by
  intro k w a w' h B hw
  obtain ⟨⟨b, S⟩, v, h₁, h⟩ := runs_bind.mp h
  obtain ⟨_, _, h₂, h⟩ := runs_bind.mp h
  obtain rfl := runs_record.mp h₂
  obtain ⟨rfl, rfl⟩ := runs_pure.mp h
  obtain ⟨history, s, _⟩ := captured_recalls (fun v hr => hx k w b v hr B hw) h₁
  exact .record history (hs S ▸ s)

theorem Recalls.inScope {isCall : Bool} {visible : Variable → Bool} (hx : Recalls x) :
    Recalls (inScope isCall visible x) := by
  intro k w b w' h B hw
  obtain ⟨_, _, h₁, h⟩ := runs_bind.mp h
  obtain ⟨rfl, rfl⟩ := runs_versions.mp h₁
  obtain ⟨⟨a, S⟩, v, h₁, h⟩ := runs_bind.mp h
  obtain ⟨history, s, _⟩ := captured_recalls (fun v hr => hx k w a v hr B hw) h₁
  obtain ⟨_, _, h₁, h⟩ := runs_bind.mp h
  obtain ⟨rfl, rfl⟩ := runs_versions.mp h₁
  obtain ⟨_, _, h₁, h⟩ := runs_bind.mp h
  obtain rfl := runs_record.mp h₁
  obtain ⟨_, _, h₁, h⟩ := runs_bind.mp h
  obtain ⟨rfl, rfl⟩ := runs_pure.mp h
  have before := hw.mono (C := B ∪ Moment.origins (Step.allMoments S)) Set.subset_union_left
  obtain ⟨m, hm, t, _⟩ := runs_resume (c := w.circuit) (S := [_]) h₁ (congrArg (· ++ [_]) history)
    (by rw [Step.allMoments_singleton]; exact s) (by rw [Step.allMoments_singleton]; exact s.after.leave before)
  exact ⟨_, hm, t⟩

/-- Public code takes over a value that the circuit has bound. -/
theorem recalls_hand {x : Variable} : Recalls (do
    match (← versions).current? x with
    | some v => note (.hand x v)
    | none => note (.write x)) := by
  intro k w a w' h B hw
  obtain ⟨_, _, h₁, h⟩ := runs_bind.mp h
  obtain ⟨rfl, rfl⟩ := runs_versions.mp h₁
  split at h
  · rename_i v hv
    obtain rfl := runs_note.mp h
    have known : w.circuit.versions.From (B ∪ Moment.origins [⟨.hand x v, w.circuit.guards, w.circuit.versions⟩]) :=
      hw.mono Set.subset_union_left
    refine ⟨_, rfl, .single known known ⟨nofun, fun p hp => ?_, nofun⟩⟩
    cases hp
    exact Versions.mem_entries hv
  · exact recalls_note rfl rfl k w a w' h B hw

/-! ### Branches that the circuit carries out -/

section Branches

open Splitter

variable {t : Splitter} (hold : ∀ e suffix, Recalls (t.hold e suffix)) {k : SplitContext} {w w' : Workspace}
  {B : Set (Variable × CircuitVar)}

include hold

theorem runs_settle {cond : Expr} {x : Variable} {d : Decision}
    (h : Runs k (t.settle cond (x, d)) w () w') (hw : w.circuit.versions.From B)
    (kept : ∀ v, d = .keep v → (x, v) ∈ B) : w.circuit.Recalls B w'.circuit := by
  cases d with
  | keep v =>
    obtain ⟨_, _, h₁, h⟩ := runs_bind.mp h
    obtain ⟨rfl, rfl⟩ := runs_versions.mp h₁
    have set := hw.set (kept v rfl)
    obtain ⟨m, hm, s, _⟩ := runs_resume (S := []) h (List.append_nil _).symm (.nil hw) (set.mono Set.subset_union_left)
    exact ⟨_, hm, s⟩
  | choose a b =>
    have chosen : Recalls (t.settle cond (x, .choose a b)) :=
      idle_symbols.recalls_then fun _ => (hold _ _).bind fun v => recalls_know (e := .merge x v) rfl nofun
    exact chosen k w () w' h B hw

theorem runs_settles {cond : Expr} {ds : List (Variable × Decision)}
    (h : Runs k (ds.forM (t.settle cond)) w () w') (hw : w.circuit.versions.From B)
    (kept : ∀ x v, (x, .keep v) ∈ ds → (x, v) ∈ B) : w.circuit.Recalls B w'.circuit := by
  induction ds generalizing w B with
  | nil =>
    obtain ⟨_, rfl⟩ := runs_pure.mp h
    exact ⟨[], (List.append_nil _).symm, .nil hw⟩
  | cons p ds ih =>
    obtain ⟨x, d⟩ := p
    obtain ⟨_, w₁, once, h⟩ := runs_bind.mp h
    have first (v) (hd : d = .keep v) : (x, v) ∈ B := kept x v (hd ▸ List.mem_cons_self)
    exact (runs_settle hold once hw first).andThen fun C hC hv =>
      ih h hv fun y v hy => hC (kept y v (List.mem_cons_of_mem _ hy))

theorem runs_join {c : LinkContext} {cond : CircuitVar} {taken : Versions} {u : Unit}
    (h : Runs k (t.join c cond taken) w u w') (hw : w.circuit.versions.From B) (first : taken.From B) :
    w.circuit.Recalls B w'.circuit := by
  rw [join_eq] at h
  obtain ⟨_, _, h₁, h⟩ := runs_bind.mp h
  obtain ⟨rfl, rfl⟩ := runs_circuit.mp h₁
  obtain ⟨_, v, inside, h⟩ := runs_bind.mp h
  obtain ⟨_, _, h₁, h⟩ := runs_bind.mp h
  obtain rfl := runs_modifyCircuit.mp h₁
  obtain ⟨-, rfl⟩ := runs_pure.mp h
  obtain ⟨_, _, h₁, emptied⟩ := runs_bind.mp inside
  obtain ⟨rfl, rfl⟩ := runs_versions.mp h₁
  obtain ⟨_, _, h₁, decisions⟩ := runs_bind.mp emptied
  obtain rfl := runs_setVersions.mp h₁
  exact (runs_settles (B := B) hold decisions nofun fun x v hx => first.kept hw hx :)

/-- The first branch of an if statement: its versions are handed on, and those from before are taken up again. -/
theorem runs_firstBranch {e : Expr} {branch : CircuitVar → SplitM Unit} (hb : ∀ v, Recalls (branch v))
    {p : CircuitVar × Versions} (h : Runs k (t.firstBranch e branch) w p w') (hw : w.circuit.versions.From B) :
    ∃ S, w'.circuit.history = w.circuit.history ++ S ∧ Sourced B (Step.allMoments S) w'.circuit.versions ∧
      w'.circuit.versions = w.circuit.versions ∧ p.2.From (B ∪ Moment.origins (Step.allMoments S)) := by
  obtain ⟨_, _, h₁, h⟩ := runs_bind.mp h
  obtain ⟨rfl, rfl⟩ := runs_versions.mp h₁
  obtain ⟨c, _, h₁, h⟩ := runs_bind.mp h
  obtain ⟨-, rfl⟩ := runs_circuit.mp h₁
  obtain ⟨_, w₁, h₁, h⟩ := runs_bind.mp h
  obtain ⟨v, w₂, h₂, h⟩ := runs_bind.mp h
  obtain ⟨_, w₃, h₃, h⟩ := runs_bind.mp h
  obtain ⟨_, w₄, h₄, h⟩ := runs_bind.mp h
  obtain ⟨_, _, h₅, h⟩ := runs_bind.mp h
  obtain ⟨rfl, rfl⟩ := runs_versions.mp h₅
  obtain ⟨_, w₅, h₅, h⟩ := runs_bind.mp h
  obtain ⟨rfl, rfl⟩ := runs_pure.mp h
  let inside : SplitM Unit := do
    comment ("if (" ++ e.code ++ ")")
    let v ← t.hold e ""
    amendComment c.body.length (" [" ++ v.name ++ "]")
    branch v
  have run : Runs k inside w () w₄ :=
    runs_bind.mpr ⟨_, _, h₁, runs_bind.mpr ⟨v, _, h₂, runs_bind.mpr ⟨_, _, h₃, h₄⟩⟩⟩
  have recalls : Recalls inside := quietly_comment.recalls_then fun _ => (hold _ _).bind fun v =>
    recalls_amendComment.bind fun _ => hb v
  obtain ⟨S, hS, s⟩ := recalls k w () w₄ run B hw
  obtain ⟨m, hm, r, resumed⟩ := runs_resume h₅ hS s (hw.mono Set.subset_union_left)
  refine ⟨_, hm, r, resumed, s.after.mono ?_⟩
  rw [Step.allMoments_append, Sourced.origins_append]
  exact Set.subset_union_left

/-- The first branch as part of an if statement. -/
theorem captured_firstBranch {e : Expr} {branch : CircuitVar → SplitM Unit} (hb : ∀ v, Recalls (branch v))
    {cond : CircuitVar} {taken : Versions} {S : List Step}
    (h : Runs k (captured (t.firstBranch e branch)) w ((cond, taken), S) w') (hw : w.circuit.versions.From B) :
    w'.circuit.history = w.circuit.history ∧ Sourced B (Step.allMoments S) w'.circuit.versions ∧
      taken.From (B ∪ Moment.origins (Step.allMoments S)) := by
  obtain ⟨history, s, v, hr, _, hS⟩ := captured_recalls (fun v hr => by
    obtain ⟨S, hS, s, _⟩ := runs_firstBranch hold hb hr hw
    exact ⟨S, hS, s⟩) h
  obtain ⟨T, hT, -, -, first⟩ := runs_firstBranch hold hb hr hw
  obtain rfl : S = T := List.append_cancel_left (hS.symm.trans hT)
  exact ⟨history, s, first⟩

theorem recalls_forkThen {c : LinkContext} {e : Expr} (branch : CircuitVar → SplitM Unit)
    (hb : ∀ v, Recalls (branch v)) : Recalls (do
      let ((cond, taken), yes) ← captured (t.firstBranch e branch)
      let (_, meet) ← captured (t.join c cond taken)
      record (.fork yes [] meet)) := by
  intro k w a w' h B hw
  obtain ⟨⟨⟨cond, taken⟩, yes⟩, w₁, h₁, h⟩ := runs_bind.mp h
  obtain ⟨⟨_, meet⟩, w₂, h₂, h⟩ := runs_bind.mp h
  obtain rfl := runs_record.mp h
  obtain ⟨history₁, s₁, first⟩ := captured_firstBranch hold hb h₁ hw
  have none := Sourced.nil s₁.after
  obtain ⟨history₂, s₂, _⟩ :=
    captured_recalls (fun v hr => runs_join hold hr none.after (first.mono Set.subset_union_left)) h₂
  exact .record (history₂.trans history₁) (s₁.append (none.append s₂))

theorem recalls_forkElse {c : LinkContext} {e : Expr} (branch : CircuitVar → SplitM Unit)
    (text : CircuitVar → String) (otherwise : CircuitVar → SplitM Unit) (hb : ∀ v, Recalls (branch v))
    (ho : ∀ v, Recalls (otherwise v)) : Recalls (do
      let ((cond, taken), yes) ← captured (t.firstBranch e branch)
      comment (text cond)
      let (_, no) ← captured (otherwise cond)
      let (_, meet) ← captured (t.join c cond taken)
      record (.fork yes no meet)) := by
  intro k w a w' h B hw
  obtain ⟨⟨⟨cond, taken⟩, yes⟩, w₁, h₁, h⟩ := runs_bind.mp h
  obtain ⟨_, w₂, h₂, h⟩ := runs_bind.mp h
  obtain ⟨⟨_, no⟩, w₃, h₃, h⟩ := runs_bind.mp h
  obtain ⟨⟨_, meet⟩, w₄, h₄, h⟩ := runs_bind.mp h
  obtain rfl := runs_record.mp h
  obtain ⟨history₁, s₁, first⟩ := captured_firstBranch hold hb h₁ hw
  have quiet := quietly_comment (V := ∅) k w₁ () w₂ h₂
  have known : w₂.circuit.versions.From (B ∪ Moment.origins (Step.allMoments yes)) := quiet.versions ▸ s₁.after
  obtain ⟨history₃, s₃, _⟩ := captured_recalls (fun v hr => ho cond k w₂ _ v hr _ known) h₃
  obtain ⟨history₄, s₄, _⟩ :=
    captured_recalls (fun v hr => runs_join hold hr s₃.after (first.mono Set.subset_union_left)) h₄
  have history := history₄.trans (history₃.trans (quiet.history.trans history₁))
  exact .record history (s₁.append (s₃.append s₄))

end Branches

/-! ### Branches of public code -/

section Branches

open BodySplit

variable {k : SplitContext} {w w' : Workspace} {B : Set (Variable × CircuitVar)} {x y : SplitM Block}

/-- The steps of a branch; afterwards the circuit knows what it knew before. -/
theorem captured_branch {guard : CircuitVar} {holds : Bool} {known : Versions} {body : Block} {S : List Step}
    (hx : Recalls x) (h : Runs k (branch guard holds known x) w (body, S) w') (hw : w.circuit.versions.From B)
    (hk : known.From B) :
    w'.circuit.history = w.circuit.history ∧ Sourced B (Step.allMoments S) w'.circuit.versions := by
  refine (captured_recalls (fun v h => ?_) h).imp_right And.left
  obtain ⟨_, w₁, h₁, h⟩ := runs_bind.mp h
  obtain ⟨_, w₂, h₂, h⟩ := runs_bind.mp h
  obtain ⟨_, w₃, h₃, h₂⟩ := runs_bind.mp h₂
  obtain ⟨_, w₄, h₄, h₂⟩ := runs_bind.mp h₂
  obtain ⟨_, w₅, h₅, h₂⟩ := runs_bind.mp h₂
  obtain ⟨rfl, rfl⟩ := runs_pure.mp h₂
  obtain ⟨_, w₆, h₆, h⟩ := runs_bind.mp h
  obtain ⟨rfl, rfl⟩ := runs_pure.mp h
  obtain rfl := runs_modifyCircuit.mp h₆
  let inside : SplitM Block := do
    emit (.openGuard guard holds)
    note .resume
    x
  have run : Runs k inside w _ w₄ := runs_bind.mpr ⟨_, _, h₁, runs_bind.mpr ⟨_, _, h₃, h₄⟩⟩
  have recalls : Recalls inside := recalls_emit.bind fun _ => (recalls_note rfl rfl).bind fun _ => hx
  obtain ⟨S, hS, s⟩ := recalls k w _ w₄ run B hw
  obtain ⟨m, hm, r, _⟩ := runs_resume h₅ hS s (hk.mono Set.subset_union_left)
  exact ⟨_, hm, r⟩

variable {β γ : Type} {g : SplitM CircuitVar} {check : CircuitVar → SplitM γ}

/-- Public code passes a branch over or not. -/
theorem recalls_oneBranch {f : γ → Block → SplitM β} (hg : Recalls g) (hc : ∀ v, Recalls (check v))
    (hx : Recalls x) (hf : ∀ c b, Recalls (f c b)) : Recalls (do
      let known ← versions
      let guard ← g
      let c ← check guard
      let (b, yes) ← branch guard true known x
      record (.branches (some guard) yes [])
      f c b) := by
  intro k w a w' h B hw
  obtain ⟨_, _, h₁, h⟩ := runs_bind.mp h
  obtain ⟨rfl, rfl⟩ := runs_versions.mp h₁
  obtain ⟨guard, w₁, h₁, h⟩ := runs_bind.mp h
  obtain ⟨c, w₂, h₂, h⟩ := runs_bind.mp h
  obtain ⟨⟨b, yes⟩, w₃, h₃, h⟩ := runs_bind.mp h
  obtain ⟨_, _, h₄, h⟩ := runs_bind.mp h
  obtain rfl := runs_record.mp h₄
  refine ((hg.bind hc) k w c w₂ (runs_bind.mpr ⟨_, _, h₁, h₂⟩) B hw).andThen fun C hC known => ?_
  obtain ⟨history, s⟩ := captured_branch hx h₃ known (hw.mono hC)
  have passed : Sourced C (Step.branches (some guard) yes []).moments w₃.circuit.versions := by
    rw [Step.moments, Step.allMoments, List.append_nil]
    exact s
  have recorded := Circuit.Recalls.record history passed
  exact recorded.andThen fun D _ hD => hf c b k _ a w' h D hD

/-- Public code takes one of two branches. -/
theorem recalls_twoBranches {f : γ → Block → Block → SplitM β} (hg : Recalls g) (hc : ∀ v, Recalls (check v))
    (hx : Recalls x) (hy : Recalls y) (hf : ∀ c b d, Recalls (f c b d)) : Recalls (do
      let known ← versions
      let guard ← g
      let c ← check guard
      let (b, yes) ← branch guard true known x
      let (d, no) ← branch guard false known y
      record (.branches (some guard) yes no)
      f c b d) := by
  intro k w a w' h B hw
  obtain ⟨_, _, h₁, h⟩ := runs_bind.mp h
  obtain ⟨rfl, rfl⟩ := runs_versions.mp h₁
  obtain ⟨guard, w₁, h₁, h⟩ := runs_bind.mp h
  obtain ⟨c, w₂, h₂, h⟩ := runs_bind.mp h
  obtain ⟨⟨b, yes⟩, w₃, h₃, h⟩ := runs_bind.mp h
  obtain ⟨⟨d, no⟩, w₄, h₄, h⟩ := runs_bind.mp h
  obtain ⟨_, _, h₅, h⟩ := runs_bind.mp h
  obtain rfl := runs_record.mp h₅
  refine ((hg.bind hc) k w c w₂ (runs_bind.mpr ⟨_, _, h₁, h₂⟩) B hw).andThen fun C hC known => ?_
  obtain ⟨history, s⟩ := captured_branch hx h₃ known (hw.mono hC)
  obtain ⟨history', s'⟩ := captured_branch hy h₄ s.after ((hw.mono hC).mono Set.subset_union_left)
  have recorded := Circuit.Recalls.record (s := .branches (some guard) yes no) (history'.trans history) (s.append s')
  exact recorded.andThen fun D _ hD => hf c b d k _ a w' h D hD

/-- Public code takes one of two branches that the circuit does not know apart. -/
theorem recalls_paths {α : Type} {x : SplitM α} {y : SplitM β} {f : α → β → SplitM γ} (hx : Recalls x)
    (hy : Recalls y) (hf : ∀ a b, Recalls (f a b)) : Recalls (do
      let (a, yes) ← captured x
      let (b, no) ← captured y
      record (.branches none yes no)
      f a b) := by
  intro k w c w' h B hw
  obtain ⟨⟨a, yes⟩, w₁, h₁, h⟩ := runs_bind.mp h
  obtain ⟨⟨b, no⟩, w₂, h₂, h⟩ := runs_bind.mp h
  obtain ⟨_, _, h₃, h⟩ := runs_bind.mp h
  obtain rfl := runs_record.mp h₃
  obtain ⟨history, s, _⟩ := captured_recalls (fun v hr => hx k w a v hr B hw) h₁
  obtain ⟨history', s', _⟩ := captured_recalls (fun v hr => hy k w₁ b v hr _ s.after) h₂
  have recorded := Circuit.Recalls.record (s := .branches none yes no) (history'.trans history) (s.append s')
  exact recorded.andThen fun D _ hD => hf a b k _ c w' h D hD

end Branches

/-- The splitter records what it makes known. -/
theorem recalls_hereditary : Hereditary Recalls where
  minor hx := hx.quietly.recalls
  bind hx hQ hf := hx.bind_gives hQ hf
  emit _ := recalls_emit
  indented := .indented
  temporary := recalls_freshTemporary
  decrypt {_ _ _ plain} _ _ hf := (obtains_freshInput.bind (V := {plain}) fun _ => (hf _).quietly.any.bind fun _ =>
    quietly_ensureEncryption (by simp) (by simp)).recalls
  encrypt {_ _ _ plain} := (obtains_freshOutput.bind (V := {plain}) fun _ =>
    (quietly_ensureEncryption (by simp) (by simp)).bind fun _ => Idle.pure.quietly).recalls
  givesResult := recalls_modifyCircuit (fun _ => rfl) fun _ => rfl
  call hr := by
    refine idle_symbols.recalls_then fun s => ?_
    split
    · exact .throw
    · refine Idle.ofExcept.recalls_then fun a => ?_
      dsimp only
      split
      · exact quietly_recordCall.recalls_then fun _ => hr _ _ _
      · exact hr _ _ _
  know := recalls_know
  serve := recalls_known?
  event := recalls_note
  hand := recalls_hand
  forget := recalls_forgetAll
  grouped := .grouped
  inScope := .inScope
  forkThen hold := recalls_forkThen hold
  forkElse hold := recalls_forkElse hold
  chooseThen _ _ _ _ := recalls_oneBranch
  chooseElse _ _ _ _ _ := recalls_twoBranches
  either _ _ _ := recalls_paths

end SplitM

/-! ## Compiled programs -/

open SplitM

/-- The moments of the history of a circuit. -/
def Circuit.moments (c : Circuit) : List Moment := Step.allMoments c.history

/-- What the circuit knows was recorded in its history. -/
def Circuit.IsSourced (c : Circuit) : Prop := Sourced ∅ c.moments c.versions

theorem Circuit.IsSourced.goesOn {α : Type} {k : SplitContext} {x : SplitM α} {w w' : Workspace} {a : α}
    (h : w.circuit.IsSourced) (hx : SplitM.Recalls x) (hr : Runs k x w a w') : w'.circuit.IsSourced := by
  obtain ⟨S, hS, s⟩ := hx k w a w' hr _ h.after
  unfold IsSourced moments
  rw [hS, Step.allMoments_append]
  exact h.append s

theorem sourced_lasting : Circuit.Lasting (fun _ => True) Circuit.IsSourced where
  empty _ := .nil nofun
  alike h _ hv hh _ := by
    unfold Circuit.IsSourced Circuit.moments
    rw [hv, hh]
    exact h
  quietly hx hr h := Circuit.IsSourced.goesOn h (QuietlyOn.recalls hx) hr
  renumber _ _ := trivial
  split hs _ _ hr h :=
    Circuit.IsSourced.goesOn h (recalls_hereditary.block_split (hs ▸ recalls_hereditary.bounded _) _ _) hr

/-- The variable and the value, if the event gives a value to a variable. -/
def Event.given? : Event → Option (Variable × CircuitVar)
  | .bind x v | .merge x v | .hand x v => some (x, v)
  | _ => none

/-- No ciphertext is taken for the value of a variable, neither in what is known nor in the answer to a read. -/
def Moment.Plaintext (m : Moment) : Prop :=
  (∀ p ∈ m.known.entries, p.2.type.isCipher = false) ∧ ∀ p, m.event.served? = some p → p.2.type.isCipher = false

theorem Event.origin?_of_given {e : Event} {p : Variable × CircuitVar} (h : e.given? = some p) :
    e.origin? = some p := by
  cases e with
  | bind | merge | hand => exact h
  | enter | constant | leave | learn | serve | write | pass | resume => cases h

/-- What is recorded is learned from a read or given to a variable. -/
theorem Event.learn_or_given {e : Event} {p : Variable × CircuitVar} (h : e.origin? = some p) :
    e = .learn p.1 p.2 ∨ e.given? = some p := by
  cases e with
  | learn =>
    cases h
    exact .inl rfl
  | bind | merge | hand => exact .inr h
  | enter | constant | leave | serve | write | pass | resume => cases h

section Ciphertexts

variable {c : Circuit}

/-- The ciphertexts that are known are those that variables are given. -/
theorem Circuit.IsSourced.cipher_iff (h : c.IsSourced) {p : Variable × CircuitVar} (hp : p.2.type.isCipher = true) :
    (∃ m ∈ c.moments, p ∈ m.known.entries) ↔ ∃ m ∈ c.moments, m.event.given? = some p := by
  constructor
  · rintro ⟨m, hm, known⟩
    rcases h.during m hm p known with none | ⟨n, hn, origin⟩
    · exact none.elim
    · rcases Event.learn_or_given origin with learn | given
      · rw [(h.tells n hn).plain _ _ learn] at hp
        cases hp
      · exact ⟨n, hn, given⟩
  · rintro ⟨m, hm, given⟩
    exact ⟨m, hm, (h.tells m hm).known p (Event.origin?_of_given given)⟩

theorem Circuit.IsSourced.plaintext_iff (h : c.IsSourced) : (∀ m ∈ c.moments, m.Plaintext) ↔
    ∀ m ∈ c.moments, ∀ p, m.event.given? = some p → p.2.type.isCipher = false := by
  constructor
  · intro plain m hm p given
    exact (plain m hm).1 p ((h.tells m hm).known p (Event.origin?_of_given given))
  · intro given m hm
    have known : ∀ p ∈ m.known.entries, p.2.type.isCipher = false := by
      intro p hp
      by_contra cipher
      obtain ⟨n, hn, hg⟩ := (h.cipher_iff (Bool.not_eq_false _ ▸ cipher)).mp ⟨m, hm, hp⟩
      exact cipher (given n hn p hg)
    exact ⟨known, fun p hp => known p ((h.tells m hm).served p hp)⟩

end Ciphertexts

/-- In a compiled program, the ciphertexts that a circuit ever takes for values of variables are those that variables
are given, by the circuit or by public code. So it knows plain values only, and answers reads by plain values only,
exactly if variables are given plain values only. -/
theorem compile_plaintext_iff {u : SourceUnit} {next : Nat} {o : Options} {t : Transcript} {r : Compilation}
    (h : (u.compile next o t).2 = .ok r) : ∀ c ∈ r.circuits,
      (∀ p : Variable × CircuitVar, p.2.type.isCipher = true →
        ((∃ m ∈ c.moments, p ∈ m.known.entries) ↔ ∃ m ∈ c.moments, m.event.given? = some p)) ∧
      ((∀ m ∈ c.moments, m.Plaintext) ↔
        ∀ m ∈ c.moments, ∀ p, m.event.given? = some p → p.2.type.isCipher = false) := by
  intro c hc
  have sourced : c.IsSourced := sourced_lasting.compile h (fun _ _ _ _ => trivial) c hc
  exact ⟨fun p hp => sourced.cipher_iff hp, sourced.plaintext_iff⟩

/-- A function that adds two encrypted numbers of an owner and multiplies the sum with a number of the caller, who has
to be the owner. -/
def adding : SourceUnit :=
  let word := Ty.integer false (.ofBits 32)
  let theirs (id : Nat) : AnnTy := .owned word (.nameAt id "owner") .additive
  let init : FunctionDef :=
    { FunctionDef.sketch 120 "" "public" [.sketch 121 (.plain (.address false)) "x"]
        [.set (.nameAt 122 "owner") (.nameAt 123 "x")] with name := none }
  let run := FunctionDef.sketch 140 "run" "public" [.sketch 141 word.mine "s"]
    [.set (.nameAt 142 "a") (.applyAt 143 .add [.nameAt 145 "a", .nameAt 146 "b"]),
      .require default (.applyAt 147 .eq [.nameAt 149 "owner", .me (.numbered 150)]),
      .declareAt 151 word.mine "t" (.applyAt 152 .mul [.nameAt 154 "s", .nameAt 155 "a"])]
  let state := [⟨101, ["final"], .plain (.address false), "owner", none⟩, ⟨102, [], theirs 103, "a", none⟩,
    ⟨104, [], theirs 105, "b", none⟩]
  let u := SourceUnit.sketch 100 "Sums" state [run]
  { u with contracts := u.contracts.map fun c => { c with constructors := [init] } }

/-- The program compiles, and a read is answered by a ciphertext. -/
theorem adding_compiled : ∃ r, (adding.compile 160 .default .empty).2 = .ok r ∧
    (r.circuits.any fun c => c.moments.any fun m => m.event.served?.any fun p => p.2.type.isCipher) = true :=
  exists_ok_of_any (by decide +kernel)

theorem adding_plaintext_iff : ∃ r, (adding.compile 160 .default .empty).2 = .ok r ∧ ∀ c ∈ r.circuits,
    (∀ p : Variable × CircuitVar, p.2.type.isCipher = true →
      ((∃ m ∈ c.moments, p ∈ m.known.entries) ↔ ∃ m ∈ c.moments, m.event.given? = some p)) ∧
    ((∀ m ∈ c.moments, m.Plaintext) ↔
      ∀ m ∈ c.moments, ∀ p, m.event.given? = some p → p.2.type.isCipher = false) := by
  obtain ⟨r, hr, _⟩ := adding_compiled
  exact ⟨r, hr, compile_plaintext_iff hr⟩

/-- The read of the sum is answered by the ciphertext that was assigned before. -/
theorem adding_not_plaintext : ∃ r, (adding.compile 160 .default .empty).2 = .ok r ∧ ∃ c ∈ r.circuits, ∃ m ∈ c.moments,
    ¬ m.Plaintext := by
  obtain ⟨r, hr, h⟩ := adding_compiled
  obtain ⟨c, hc, h⟩ := List.any_eq_true.mp h
  obtain ⟨m, hm, h⟩ := List.any_eq_true.mp h
  obtain ⟨p, served, cipher⟩ := (Option.any_eq_true _ _).mp h
  refine ⟨r, hr, c, hc, m, hm, fun plain => ?_⟩
  rw [plain.2 p served] at cipher
  cases cipher

end Shroud
