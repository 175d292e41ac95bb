import Shroud.Proofs.Histories

/-!
# Guards of values that are used again

A value that entered a circuit is used again when a variable is read whose version it is. The constraints on the
value need only hold if the guards hold under which it entered, so these guards should be in force at every read.

**Public guards.** Guards of branches of public code are respected: what enters in such a branch is not used after
it.

**Other guards.** Operands that need not be evaluated and branches that are carried out by the circuit are under
guards as well, but the versions recorded there stay. A read is safe exactly if these guards are in force there.
-/

namespace Shroud

/-! ## Occurrences -/

/-- An event, the guards of public code around it, and the moment it was recorded at. -/
structure Occurrence where
  around : List Guard
  moment : Moment

mutual

/-- All events of a step, in order. -/
def Step.occurrences (P : List Guard) : Step → List Occurrence
  | .moment m => [⟨P, m⟩]
  | .scope _ _ ss => Step.allOccurrences P ss
  | .together ss => Step.allOccurrences P ss
  | .item ss => Step.allOccurrences P ss
  | .fork yes no meet => Step.allOccurrences P yes ++ (Step.allOccurrences P no ++ Step.allOccurrences P meet)
  | .branches none yes no => Step.allOccurrences P yes ++ Step.allOccurrences P no
  | .branches (some g) yes no =>
    Step.allOccurrences (P ++ [⟨g.name, true⟩]) yes ++ Step.allOccurrences (P ++ [⟨g.name, false⟩]) no
  | .loop ss => Step.allOccurrences P ss

def Step.allOccurrences (P : List Guard) : List Step → List Occurrence
  | [] => []
  | s :: ss => s.occurrences P ++ Step.allOccurrences P ss

end

theorem Step.allOccurrences_append (P : List Guard) (S T : List Step) :
    allOccurrences P (S ++ T) = allOccurrences P S ++ allOccurrences P T := by
  induction S with
  | nil => rfl
  | cons s S ih => simp only [List.cons_append, allOccurrences, ih, List.append_assoc]

/-- The events of the history of a circuit. -/
def Circuit.occurrences (c : Circuit) : List Occurrence := Step.allOccurrences [] c.history

namespace Occurrence

/-- The variable that enters or leaves the circuit here. -/
def emitted? (p : Occurrence) : Option CircuitVar :=
  match p.moment.event with
  | .enter _ v | .leave _ v => some v
  | _ => none

/-- The variable that a read is answered by here. -/
def served? (p : Occurrence) : Option CircuitVar :=
  match p.moment.event with
  | .serve _ v => some v
  | _ => none

def Emits (p : Occurrence) (v : CircuitVar) : Prop := p.emitted? = some v

def Serves (p : Occurrence) (v : CircuitVar) : Prop := p.served? = some v

def guards (p : Occurrence) : List Guard := p.moment.guards

end Occurrence

/-! ## Where values come from -/

/-- What the events between two phases tell about the values that enter and leave. -/
structure Located (P : List Guard) (E : Set Asset) (s : Phase) (L : List Occurrence) (F : Set Asset) (t : Phase) :
    Prop where
  inside : ∀ p ∈ L, P <+: p.around ∧ p.around <+: p.guards
  numbered : ∀ p ∈ L, ∀ v, p.Emits v → ∃ r, s.Numbers r v t
  once : ∀ p ∈ L, ∀ q ∈ L, ∀ v, p.Emits v → q.Emits v → p = q
  gained : ∀ v, .value v ∈ F → .value v ∈ E ∨ v.isInput = false ∨ ∃ p ∈ L, p.Emits v ∧ p.around = P
  served : ∀ q ∈ L, ∀ v, q.Serves v → .value v ∈ E ∨ v.isInput = false ∨ ∃ p ∈ L, p.Emits v ∧ p.around <+: q.around

namespace Located

variable {P : List Guard} {E F G : Set Asset} {s t u : Phase} {L M : List Occurrence}

theorem nil (hF : ∀ v, .value v ∈ F → .value v ∈ E ∨ v.isInput = false) : Located P E s [] F t where
  inside := nofun
  numbered := nofun
  once := nofun
  gained v hv := (hF v hv).imp id .inl
  served := nofun

theorem append (h : Located P E s L F t) (k : Located P F t M G u) (hs : s.Advances t) (ht : t.Advances u) :
    Located P E s (L ++ M) G u where
  inside p hp := (List.mem_append.mp hp).elim (h.inside p) (k.inside p)
  numbered p hp v hv := by
    rcases List.mem_append.mp hp with hp | hp
    · obtain ⟨r, hr⟩ := h.numbered p hp v hv
      exact ⟨r, hr.later ht⟩
    · obtain ⟨r, n, hb, hn, hu⟩ := k.numbered p hp v hv
      exact ⟨r, n, hb, Nat.le_trans (hs r) hn, hu⟩
  once := by
    -- a name is handed out before the second part or in it
    have apart : ∀ p ∈ L, ∀ q ∈ M, ∀ v, p.Emits v → ¬ q.Emits v := by
      intro p hp q hq v hv hv'
      obtain ⟨r, n, hb, _, hn⟩ := h.numbered p hp v hv
      obtain ⟨r', n', hb', hn', _⟩ := k.numbered q hq v hv'
      obtain ⟨rfl, rfl⟩ := hb.unique hb'
      exact Nat.lt_irrefl _ (Nat.lt_of_lt_of_le hn hn')
    intro p hp q hq v hv hv'
    rcases List.mem_append.mp hp with hp | hp <;> rcases List.mem_append.mp hq with hq | hq
    · exact h.once p hp q hq v hv hv'
    · exact (apart p hp q hq v hv hv').elim
    · exact (apart q hq p hp v hv' hv).elim
    · exact k.once p hp q hq v hv hv'
  gained v hv := by
    rcases k.gained v hv with hv | hv | ⟨p, hp, hv⟩
    · rcases h.gained v hv with hv | hv | ⟨p, hp, hv⟩
      · exact .inl hv
      · exact .inr (.inl hv)
      · exact .inr (.inr ⟨p, List.mem_append_left _ hp, hv⟩)
    · exact .inr (.inl hv)
    · exact .inr (.inr ⟨p, List.mem_append_right _ hp, hv⟩)
  served q hq v hv := by
    rcases List.mem_append.mp hq with hq | hq
    · rcases h.served q hq v hv with hv | hv | ⟨p, hp, hv⟩
      · exact .inl hv
      · exact .inr (.inl hv)
      · exact .inr (.inr ⟨p, List.mem_append_left _ hp, hv⟩)
    · rcases k.served q hq v hv with hv | hv | ⟨p, hp, hv⟩
      · rcases h.gained v hv with hv | hv | ⟨p, hp, he, ha⟩
        · exact .inl hv
        · exact .inr (.inl hv)
        · exact .inr (.inr ⟨p, List.mem_append_left _ hp, he, ha ▸ (k.inside q hq).1⟩)
      · exact .inr (.inl hv)
      · exact .inr (.inr ⟨p, List.mem_append_right _ hp, hv⟩)

/-- An event that brings nothing in; a read is answered by what is at hand. -/
theorem silent {m : Moment} (hE : Occurrence.emitted? ⟨P, m⟩ = none)
    (hS : ∀ v, Occurrence.served? ⟨P, m⟩ = some v → .value v ∈ E) (hP : P <+: m.guards) :
    Located P E s [⟨P, m⟩] E t where
  inside p hp := by
    rw [List.mem_singleton.mp hp]
    exact ⟨List.prefix_rfl, hP⟩
  numbered p hp v hv := by
    rw [List.mem_singleton.mp hp] at hv
    cases hE.symm.trans hv
  once p hp q hq v hv := by
    rw [List.mem_singleton.mp hp] at hv
    cases hE.symm.trans hv
  gained v hv := .inl hv
  served q hq v hv := by
    rw [List.mem_singleton.mp hq] at hv
    exact .inl (hS v hv)

/-- An event that brings a value in or out. -/
theorem arrival {m : Moment} {v : CircuitVar} {r : Series} (hE : Occurrence.emitted? ⟨P, m⟩ = some v)
    (hS : Occurrence.served? ⟨P, m⟩ = none) (hP : P <+: m.guards) (hv : s.Numbers r v t) :
    Located P E s [⟨P, m⟩] (insert (.value v) E) t where
  inside p hp := by
    rw [List.mem_singleton.mp hp]
    exact ⟨List.prefix_rfl, hP⟩
  numbered p hp u hu := by
    rw [List.mem_singleton.mp hp] at hu
    cases hE.symm.trans hu
    exact ⟨r, hv⟩
  once p hp q hq u _ _ := (List.mem_singleton.mp hp).trans (List.mem_singleton.mp hq).symm
  gained u hu := by
    rcases Set.mem_insert_iff.mp hu with ⟨⟨⟩⟩ | hu
    · exact .inr (.inr ⟨_, List.mem_singleton_self _, hE, rfl⟩)
    · exact .inl hu
  served q hq u hu := by
    rw [List.mem_singleton.mp hq] at hu
    cases hS.symm.trans hu

/-- Of the phases only the names matter that were handed out. -/
theorem recount {s' t' : Phase} (h : Located P E s L F t) (hs : s'.count = s.count) (ht : t'.count = t.count) :
    Located P E s' L F t' where
  inside := h.inside
  numbered p hp v hv := by
    obtain ⟨r, n, hb, hn, hn'⟩ := h.numbered p hp v hv
    exact ⟨r, n, hb, hs ▸ hn, ht ▸ hn'⟩
  once := h.once
  gained := h.gained
  served := h.served

/-- A branch under a public guard; what it brings in is not at hand after it. -/
theorem branch {g : Guard} (h : Located (P ++ [g]) E s L F t) : Located P E s L E t where
  inside p hp := ⟨(List.prefix_append P [g]).trans (h.inside p hp).1, (h.inside p hp).2⟩
  numbered := h.numbered
  once := h.once
  gained _ hv := .inl hv
  served := h.served

/-- Afterwards something is said about what is known. -/
theorem resumed {vs : Versions} (h : Located P E s L F t) (hs : s.Advances t) (hP : P <+: t.guards) :
    Located P E s (L ++ [⟨P, ⟨.resume, t.guards, vs⟩⟩]) F t :=
  h.append (.silent rfl nofun hP) hs fun _ => Nat.le_refl _

end Located

theorem Traces.located {P : List Guard} {E F : Set Asset} {s t : Phase} {S : List Step} (h : Traces P E s S F t)
    (hs : s.known.Within E) (hP : P <+: s.guards) : Located P E s (Step.allOccurrences P S) F t := by
  induction h with
  | quiet | lose => exact .nil fun v hv => .inl hv
  | aid => exact .nil fun v hv => .inl ((Set.mem_insert_iff.mp hv).resolve_left nofun)
  | declare _ hr =>
    refine .nil fun v hv => ?_
    rcases Set.mem_insert_iff.mp hv with ⟨⟨⟩⟩ | hv
    · right
      unfold CircuitVar.isInput
      rw [hr]
      rfl
    · exact .inl hv
  | andThen h k ih₁ ih₂ =>
    rw [Step.allOccurrences_append]
    exact (ih₁ hs hP).append (ih₂ (h.within hs) (h.guards_eq ▸ hP)) h.advances k.advances
  | enter q hv => exact .arrival rfl rfl (q.guards ▸ hP) hv.numbers
  | leave q hv => exact .arrival rfl rfl (q.guards ▸ hP) hv.numbers
  | constant | write | pass | resume => exact .silent rfl nofun hP
  | serve h =>
    refine .silent rfl (fun v hv => ?_) hP
    cases hv
    exact (hs.current h).mem
  | @know _ _ _ _ _ _ e he =>
    cases e with
    | learn | bind | merge | hand => exact .silent rfl nofun hP
    | enter | constant | leave | serve | write | pass | resume => cases he
  | under _ ih => exact (ih hs (hP.trans (List.prefix_append ..))).recount rfl rfl
  | scope h _ ih => exact ((ih hs hP).resumed h.advances (h.guards_eq ▸ hP)).recount rfl rfl
  | together _ ih | item _ ih =>
    rw [Step.allOccurrences, Step.occurrences, Step.allOccurrences, List.append_nil]
    exact ih hs hP
  | fork h₁ h₂ h₃ ih₁ ih₂ ih₃ =>
    rw [Step.allOccurrences, Step.occurrences, Step.allOccurrences, List.append_nil]
    have hP₁ := h₁.guards_eq ▸ hP
    have hs₁ := h₁.within hs
    have rest := (ih₂ hs₁ hP₁).append (ih₃ (h₂.within hs₁) (h₂.guards_eq ▸ hP₁)) h₂.advances h₃.advances
    exact (ih₁ hs hP).append rest h₁.advances (h₂.andThen h₃).advances
  | paths _ h₁ h₂ ih₁ ih₂ =>
    have hP₁ := h₁.guards_eq ▸ hP
    have both := (ih₁ hs hP).append (ih₂ (h₁.within hs) hP₁) h₁.advances h₂.advances
    exact both.resumed (h₁.andThen h₂).advances (h₂.guards_eq ▸ hP₁)
  | @choose P E F G s t u Y N vs g hs' _ _ h₁ ht h₂ hv ih₁ ih₂ =>
    have yes : Located P E s _ E t := (ih₁ hs List.prefix_rfl).branch.recount rfl rfl
    have no : Located P E t _ E u := (ih₂ ht List.prefix_rfl).branch.recount rfl rfl
    have both : Located P E s _ E (u.under P) := (yes.append no h₁.advances h₂.advances).recount rfl rfl
    have advances : s.Advances u := fun r => Nat.le_trans (h₁.advances r) (h₂.advances r)
    exact (both.resumed advances List.prefix_rfl).recount rfl rfl
  | loop _ h ih => exact (ih hs hP).resumed h.advances (h.guards_eq ▸ hP)

/-! ## Reads that are answered by inputs -/

/-- Guards beyond those of the public code around. -/
def Occurrence.beyond (p : Occurrence) (gs : List Guard) : List Guard := gs.drop p.around.length

/-- Every read that is answered by a value from outside is under the guards under which the value came in. -/
def Circuit.Dominated (c : Circuit) : Prop :=
  ∀ q ∈ c.occurrences, ∀ v, v.isInput = true → q.Serves v → ∃ p ∈ c.occurrences, p.Emits v ∧ p.guards <+: q.guards

/-- The public guards of a read begin with those of the arrival, so only the others count. -/
theorem prefix_iff_beyond {p : Occurrence} {gs : List Guard} (hp : p.around <+: p.guards) (hg : p.around <+: gs) :
    p.guards <+: gs ↔ p.beyond p.guards <+: p.beyond gs := by
  obtain ⟨inner, hi⟩ := hp
  obtain ⟨rest, rfl⟩ := hg
  unfold Occurrence.beyond
  rw [← hi, List.drop_left, List.drop_left]
  exact List.prefix_append_right_inj _

theorem Circuit.Told.read {c : Circuit} (h : c.Told Asset.aids) {q : Occurrence} (hq : q ∈ c.occurrences) {v : CircuitVar}
    (hv : v.isInput = true) (hs : q.Serves v) : ∃ p ∈ c.occurrences, p.Emits v ∧
      (∀ p' ∈ c.occurrences, p'.Emits v → p' = p) ∧ p.around <+: q.around ∧
      (p.guards <+: q.guards ↔ p.beyond p.guards <+: p.beyond q.guards) := by
  obtain ⟨F, ht⟩ := h.history
  have located := ht.located nofun List.nil_prefix
  rcases located.served q hq v hs with hv' | hv' | ⟨p, hp, he, ha⟩
  · obtain ⟨_, ⟨⟩⟩ := hv'
  · rw [hv] at hv'
    cases hv'
  · refine ⟨p, hp, he, fun p' hp' he' => located.once p' hp' p hp v he' he, ha, ?_⟩
    exact prefix_iff_beyond (located.inside p hp).2 (ha.trans (located.inside q hq).2)

theorem Circuit.Told.dominated_iff {c : Circuit} (h : c.Told Asset.aids) :
    c.Dominated ↔ ∀ q ∈ c.occurrences, ∀ v, v.isInput = true → q.Serves v →
      ∀ p ∈ c.occurrences, p.Emits v → p.beyond p.guards <+: p.beyond q.guards := by
  constructor
  · intro hd q hq v hv hs p hp he
    obtain ⟨p₁, hp₁, _, once, _, iff⟩ := h.read hq hv hs
    obtain ⟨p₂, hp₂, he₂, hg⟩ := hd q hq v hv hs
    rw [once p hp he]
    rw [once p₂ hp₂ he₂] at hg
    exact iff.mp hg
  · intro hd q hq v hv hs
    obtain ⟨p, hp, he, _, _, iff⟩ := h.read hq hv hs
    exact ⟨p, hp, he, iff.mpr (hd q hq v hv hs p hp he)⟩

/-- In a compiled program, a value that answers a read came in at one place. The guards of public code around that
place are in force at the read. So the read is dominated exactly if the other guards, those of operands and of
branches that are carried out by the circuit, are in force there as well. -/
theorem compile_dominated_iff {u : SourceUnit} {next : Nat} {o : Options} {t : Transcript} {r : Compilation}
    (h : (u.compile next o t).2 = .ok r) (plain : r.source.Plain) : ∀ c ∈ r.circuits,
      (∀ q ∈ c.occurrences, ∀ v, v.isInput = true → q.Serves v → ∃ p ∈ c.occurrences, p.Emits v ∧
        (∀ p' ∈ c.occurrences, p'.Emits v → p' = p) ∧ p.around <+: q.around ∧
        (p.guards <+: q.guards ↔ p.beyond p.guards <+: p.beyond q.guards)) ∧
      (c.Dominated ↔ ∀ q ∈ c.occurrences, ∀ v, v.isInput = true → q.Serves v →
        ∀ p ∈ c.occurrences, p.Emits v → p.beyond p.guards <+: p.beyond q.guards) := by
  intro c hc
  have told : c.Told Asset.aids := compile_plain_told h plain c hc
  exact ⟨fun q hq v hv hs => told.read hq hv hs, told.dominated_iff⟩

/-- A function that compares a private number with one unless it is told not to, and adds two to the number then. -/
def skipping : SourceUnit :=
  let isOne : Expr := .reclassify (.numbered 120) .reveal (.applyAt 121 .eq [.nameAt 123 "x", .literalAt 124 1])
    (.all (.numbered 125)) none
  let run := FunctionDef.sketch 101 "run" "public" [.sketch 102 .publicBool "c", .sketch 103 AnnTy.uint.mine "x"]
    [.require default (.applyAt 110 .or [.nameAt 112 "c", isOne]),
      .declareAt 104 AnnTy.uint.mine "s" (.applyAt 130 .add [.nameAt 132 "x", .literalAt 133 2])]
  .sketch 100 "Checker" [] [run]

/-- Some read is answered by a value whose guards are not in force. -/
def Circuit.slips (c : Circuit) : Bool := c.occurrences.any fun q => q.served?.any fun v => v.isInput &&
  c.occurrences.all fun p => p.emitted?.all fun u => u.name != v.name || !p.guards.isPrefixOf q.guards

theorem Circuit.not_dominated {c : Circuit} (h : c.slips = true) : ¬ c.Dominated := by
  intro hd
  obtain ⟨q, hq, h⟩ := List.any_eq_true.mp h
  obtain ⟨v, hv, h⟩ := (Option.any_eq_true _ _).mp h
  obtain ⟨isInput, h⟩ := (Bool.and_eq_true _ _).mp h
  obtain ⟨p, hp, he, hg⟩ := hd q hq v isInput hv
  have hp := List.all_eq_true.mp h p hp
  rw [show p.emitted? = some v from he] at hp
  simp [List.isPrefixOf_iff_prefix.mpr hg] at hp

/-- The program compiles, and a read is answered by a value whose guards are not in force. -/
theorem skipping_compiled : ∃ r, (skipping.compile 140 .default .empty).2 = .ok r ∧ r.source.Plain ∧
    ∃ c ∈ r.circuits, c.slips = true := by
  obtain ⟨r, hr, h⟩ := exists_ok_of_any (x := (skipping.compile 140 .default .empty).2)
    (p := fun r => decide (r.source.Plain ∧ ∃ c ∈ r.circuits, c.slips = true)) (by decide +kernel)
  exact ⟨r, hr, of_decide_eq_true h⟩

theorem skipping_dominated_iff : ∃ r, (skipping.compile 140 .default .empty).2 = .ok r ∧ r.source.Plain ∧
    ∀ c ∈ r.circuits,
      (∀ q ∈ c.occurrences, ∀ v, v.isInput = true → q.Serves v → ∃ p ∈ c.occurrences, p.Emits v ∧
        (∀ p' ∈ c.occurrences, p'.Emits v → p' = p) ∧ p.around <+: q.around ∧
        (p.guards <+: q.guards ↔ p.beyond p.guards <+: p.beyond q.guards)) ∧
      (c.Dominated ↔ ∀ q ∈ c.occurrences, ∀ v, v.isInput = true → q.Serves v →
        ∀ p ∈ c.occurrences, p.Emits v → p.beyond p.guards <+: p.beyond q.guards) := by
  obtain ⟨r, hr, plain, _⟩ := skipping_compiled
  exact ⟨r, hr, plain, compile_dominated_iff hr plain⟩

/-- The number enters only if it is compared, but it is used afterwards in any case. -/
theorem skipping_not_dominated : ∃ r, (skipping.compile 140 .default .empty).2 = .ok r ∧ r.source.Plain ∧
    ∃ c ∈ r.circuits, ¬ c.Dominated := by
  obtain ⟨r, hr, plain, c, hc, h⟩ := skipping_compiled
  exact ⟨r, hr, plain, c, hc, c.not_dominated h⟩

end Shroud
