import Shroud.Circuit.Record
import Shroud.Proofs.Acts
import Shroud.Proofs.Sketch

/-!
# Branches that meet

After an if statement a circuit goes on with versions that stand for the values at the end of the branch that was taken.

**Values.** A valuation gives a value to every name of a circuit and to every variable of the program itself. A variable
resolves to the value of its current version, or to its own if it has none.

**Callbacks.** A join asks for a temporary for every variable that has to choose between the branches. Whoever makes it
stores the value of the expression, and may give versions to variables that have none as long as these stand for their
own values (`Valuation.Stores`).

**Steps.** `Valuation.Progress` holds before every decision: the variables that are not waiting for one resolve to the
value in the branch taken, and the others are left out or unchanged.

**Results.**

* `Valuation.meaning_merge`: each decision has the value of the branch taken.
* `VersionRecord.joined`: joining records, where the callback only writes down what it makes.
* `Splitter.join_resolves`: joining in a circuit, whatever the callback does to other variables.
-/

namespace Shroud

open SplitM

/-! ## Values of versions -/

/-- The values of the names of a circuit and of the variables of the program, and which values are true. -/
structure Valuation (α : Type) where
  circuit : String → α
  outside : Variable → α
  isTrue : α → Bool

namespace Versions

variable {vs us taken other : Versions} {x y : Variable} {v : CircuitVar}

/-- No variable is listed twice. -/
def Keyed (vs : Versions) : Prop := (vs.entries.map Prod.fst).Nodup

instance (vs : Versions) : Decidable vs.Keyed := inferInstanceAs (Decidable (List.Nodup _))

theorem keyed_empty : Keyed .empty := List.nodup_nil

theorem current?_eq_none : vs.current? x = none ↔ x ∉ vs.entries.map Prod.fst := by
  unfold current?
  rw [List.lookup_eq_none_iff, List.mem_map]
  constructor
  · rintro h ⟨p, hp, rfl⟩
    exact absurd (h p hp) (by simp)
  · intro h p hp
    rw [bne_iff_ne]
    rintro rfl
    exact h ⟨p, hp, rfl⟩

theorem Keyed.current (h : vs.Keyed) (hx : (x, v) ∈ vs.entries) : vs.current? x = some v := by
  obtain ⟨ps⟩ := vs
  unfold Keyed at h
  unfold current?
  induction ps with
  | nil => cases hx
  | cons p ps ih =>
    rw [List.map_cons, List.nodup_cons] at h
    rcases List.mem_cons.mp hx with rfl | hx
    · exact List.lookup_cons_self
    · have other : x ≠ p.1 := by
        rintro rfl
        exact h.1 (List.mem_map.mpr ⟨_, hx, rfl⟩)
      rw [List.lookup_cons, beq_false_of_ne other]
      exact ih h.2 hx

theorem Keyed.set (h : vs.Keyed) : (vs.set x v).Keyed := by
  unfold Keyed Versions.set at *
  split
  · have same : (vs.entries.map fun p => if p.1 = x then (x, v) else p).map Prod.fst = vs.entries.map Prod.fst := by
      rw [List.map_map]
      refine List.map_congr_left fun p _ => ?_
      simp only [Function.comp_apply]
      split
      · rename_i hp
        exact hp.symm
      · rfl
    exact same ▸ h
  · rename_i fresh
    rw [Option.not_isSome_iff_eq_none, current?_eq_none] at fresh
    rw [List.map_append, List.nodup_append]
    refine ⟨h, List.nodup_cons.mpr ⟨List.not_mem_nil, List.nodup_nil⟩, fun y hy z hz => ?_⟩
    rw [List.map_singleton, List.mem_singleton] at hz
    rintro rfl
    subst hz
    exact fresh hy

end Versions

namespace Valuation

variable {α : Type} (ν : Valuation α)

/-- The value of a version, or of the variable itself. -/
def side (x : Variable) (v : Option CircuitVar) : α := (v.map fun v => ν.circuit v.name).getD (ν.outside x)

/-- The value that a variable stands for. -/
def resolve (vs : Versions) (x : Variable) : α := ν.side x (vs.current? x)

/-- The value of a name or of a choice. -/
def value (ν : Valuation α) : Expr → Option α
  | .ident _ (.circuit v) _ => some (ν.circuit v.name)
  | .ident _ (.plain n) (some (.decl k i)) => some (ν.outside ⟨k, i, n⟩)
  | .call _ (.operator _ .ite _ _ _) [c, a, b] _ _ => do
    let u ← ν.value c
    if ν.isTrue u then ν.value a else ν.value b
  | _ => none

/-- The value that a decision leads to if the condition is true or false. -/
def meaning (x : Variable) (holds : Bool) : Decision → α
  | .keep v => ν.circuit v.name
  | .choose taken other => ν.side x (if holds then taken else other)

/-- An input that only the first branch has brought in has the value of the variable. -/
def Unmodified (visible : Variable → Bool) (vs us : Versions) : Prop :=
  ∀ x v, visible x = true → vs.current? x = some v → us.current? x = none → v.isInput = true →
    ν.circuit v.name = ν.outside x

theorem Unmodified.of_entries {ν : Valuation α} {visible : Variable → Bool} {vs us : Versions}
    (h : ∀ p ∈ vs.entries, visible p.1 = true → us.current? p.1 = none → p.2.isInput = true →
      ν.circuit p.2.name = ν.outside p.1) : ν.Unmodified visible vs us :=
  fun _ _ hx hv => h _ (Versions.mem_entries hv) hx

variable {ν} {visible : Variable → Bool} {taken other vs us : Versions} {x y : Variable} {v : CircuitVar} {holds : Bool}
  {d : Decision} {ds : List (Variable × Decision)}

theorem resolve_set : ν.resolve (vs.set x v) y = if y = x then ν.circuit v.name else ν.resolve vs y := by
  unfold resolve
  rw [Versions.current?_set]
  split <;> rfl

theorem value_side (symbols : Symbols) (x : Variable) (v : Option CircuitVar) :
    ν.value (match v with
      | some v => v.read
      | none => x.value symbols) = some (ν.side x v) := by
  cases v <;> rfl

/-- A choice has the value of the branch taken. -/
theorem value_choice {symbols : Symbols} {cond : Expr} {a b : Option CircuitVar} {u : α} (hu : ν.value cond = some u) :
    ν.value (x.choice symbols cond a b) = some (ν.meaning x (ν.isTrue u) (.choose a b)) := by
  have opened : ν.value (x.choice symbols cond a b) =
      (ν.value cond).bind fun u => if ν.isTrue u then some (ν.side x a) else some (ν.side x b) := by
    rw [← value_side symbols x a, ← value_side symbols x b]
    rfl
  rw [opened, hu]
  cases h : ν.isTrue u <;> simp [meaning, h]

/-! ## Decisions -/

/-- Each decision is about a visible variable and has the value of the branch taken. -/
theorem meaning_merge (ht : taken.Keyed) (ho : other.Keyed) (first : ν.Unmodified visible taken other)
    (second : ν.Unmodified visible other taken) (h : (x, d) ∈ taken.merge other visible) :
    visible x = true ∧ ν.meaning x holds d = ν.resolve (if holds then taken else other) x := by
  rcases List.mem_append.mp h with h | h
  · obtain ⟨⟨y, v⟩, hv, h⟩ := List.mem_filterMap.mp h
    have hv := ht.current hv
    dsimp only at h
    cases shown : visible y with
    | false =>
      rw [shown] at h
      cases h
    | true =>
      simp only [shown, Bool.not_true, Bool.false_eq_true, if_false] at h
      cases hw : other.current? y with
      | some w =>
        rw [hw] at h
        cases h
        refine ⟨shown, ?_⟩
        by_cases same : w.name = v.name <;> cases holds <;> simp [meaning, resolve, side, hv, hw, same]
      | none =>
        rw [hw] at h
        cases h
        refine ⟨shown, ?_⟩
        have kept := first x v shown hv hw
        unfold Versions.oneSided
        split <;> rename_i input <;> cases holds <;> simp [meaning, resolve, side, hv, hw, kept, input]
  · obtain ⟨⟨y, v⟩, hv, h⟩ := List.mem_filterMap.mp h
    have hv := ho.current hv
    dsimp only at h
    cases shown : visible y with
    | false =>
      rw [shown] at h
      cases h
    | true =>
      cases hw : taken.current? y with
      | some w =>
        rw [hw] at h
        simp at h
      | none =>
        rw [shown, hw] at h
        cases h
        refine ⟨shown, ?_⟩
        have kept := second x v shown hv hw
        unfold Versions.oneSided
        split <;> rename_i input <;> cases holds <;> simp [meaning, resolve, side, hv, hw, kept, input]

/-- A visible variable without a decision has no version in either branch. -/
theorem current?_of_not_merge (h : x ∉ (taken.merge other visible).map Prod.fst) (hx : visible x = true) :
    taken.current? x = none ∧ other.current? x = none := by
  unfold Versions.merge at h
  rw [List.map_append, List.mem_append, not_or] at h
  have first : taken.current? x = none := by
    by_contra known
    obtain ⟨v, hv⟩ := Option.ne_none_iff_exists'.mp known
    refine h.1 (List.mem_map.mpr ?_)
    cases hw : other.current? x with
    | some w => exact ⟨_, List.mem_filterMap.mpr ⟨(x, v), Versions.mem_entries hv, by simp [hx, hw]; rfl⟩, rfl⟩
    | none => exact ⟨_, List.mem_filterMap.mpr ⟨(x, v), Versions.mem_entries hv, by simp [hx, hw]; rfl⟩, rfl⟩
  refine ⟨first, ?_⟩
  by_contra known
  obtain ⟨v, hv⟩ := Option.ne_none_iff_exists'.mp known
  refine h.2 (List.mem_map.mpr ?_)
  exact ⟨_, List.mem_filterMap.mpr ⟨(x, v), Versions.mem_entries hv, by simp [hx, first]; rfl⟩, rfl⟩

/-! ## Decisions in turn -/

/-- The variables that do not wait for a decision stand for what they do in the branch taken. -/
structure Progress (ν : Valuation α) (visible : Variable → Bool) (branch : Versions)
    (ds : List (Variable × Decision)) (vs : Versions) : Prop where
  keyed : vs.Keyed
  within : ∀ x v, vs.current? x = some v → visible x = true
  settled : ∀ x, visible x = true → x ∉ ds.map Prod.fst → ν.resolve vs x = ν.resolve branch x

/-- Every visible variable stands for what it does in the branch taken, and no other has a version. -/
structure Joined (ν : Valuation α) (visible : Variable → Bool) (branch joined : Versions) : Prop where
  keyed : joined.Keyed
  within : ∀ x v, joined.current? x = some v → visible x = true
  resolves : ∀ x, visible x = true → ν.resolve joined x = ν.resolve branch x

/-- Whoever makes a temporary may give versions to variables that have none, but these stand for what they did. -/
structure Harmless (ν : Valuation α) (visible : Variable → Bool) (before after : Versions) : Prop where
  keyed : before.Keyed → after.Keyed
  within : ∀ x v, after.current? x = some v → before.current? x = none → visible x = true
  resolves : ∀ x, ν.resolve after x = ν.resolve before x

theorem Progress.start {branch : Versions}
    (h : ∀ x, visible x = true → x ∉ ds.map Prod.fst → branch.current? x = none) :
    ν.Progress visible branch ds .empty := by
  refine ⟨Versions.keyed_empty, nofun, fun x hx waiting => ?_⟩
  unfold resolve
  rw [h x hx waiting]
  rfl

theorem Progress.decide {branch : Versions} (h : ν.Progress visible branch ((x, d) :: ds) vs)
    (after : ν.Harmless visible vs us) (hx : visible x = true) (hv : ν.circuit v.name = ν.resolve branch x) :
    ν.Progress visible branch ds (us.set x v) := by
  refine ⟨(after.keyed h.keyed).set, fun y w hy => ?_, fun y hy waiting => ?_⟩
  · rw [Versions.current?_set] at hy
    split at hy
    · rename_i same
      exact same ▸ hx
    · cases known : vs.current? y with
      | none => exact after.within y w hy known
      | some u => exact h.within y u known
  · rw [resolve_set]
    split
    · rename_i same
      rw [same, hv]
    · rename_i other
      rw [after.resolves]
      refine h.settled y hy fun listed => ?_
      rcases List.mem_cons.mp listed with same | listed
      · exact other same
      · exact waiting listed

theorem Harmless.refl (ν : Valuation α) (visible : Variable → Bool) (vs : Versions) : ν.Harmless visible vs vs := by
  refine ⟨id, fun x v hx unknown => ?_, fun _ => rfl⟩
  rw [hx] at unknown
  cases unknown

/-- A variable is read for the first time. -/
theorem Harmless.read (h : us = vs.set x v) (unknown : vs.current? x = none) (hx : visible x = true)
    (hv : ν.circuit v.name = ν.outside x) : ν.Harmless visible vs us := by
  subst h
  refine ⟨fun h => h.set, fun y w hy new => ?_, fun y => ?_⟩
  · rw [Versions.current?_set] at hy
    split at hy
    · rename_i same
      exact same ▸ hx
    · rw [new] at hy
      cases hy
  · rw [resolve_set]
    split
    · rename_i same
      rw [same, hv, resolve, unknown]
      rfl
    · rfl

theorem Progress.joined {branch : Versions} (h : ν.Progress visible branch [] vs) : ν.Joined visible branch vs :=
  ⟨h.keyed, h.within, fun x hx => h.settled x hx List.not_mem_nil⟩

theorem Progress.merge {branch : Versions} (hb : branch = if holds then taken else other) :
    ν.Progress visible branch (taken.merge other visible) .empty := by
  refine .start fun x hx waiting => ?_
  obtain ⟨first, second⟩ := current?_of_not_merge waiting hx
  rw [hb]
  cases holds
  · exact second
  · exact first

end Valuation

/-! ## Records of versions -/

namespace VersionRecord

variable {α : Type} {ν : Valuation α} {symbols : Symbols} {cond : Expr} {visible : Variable → Bool}
  {ds : List (Variable × Decision)} {vs : Versions} {made : List (CircuitVar × Expr)} {branch : Versions} {u : α}

/-- One decision: the versions so far, and what has been made. -/
def settle (symbols : Symbols) (cond : Expr) (state : Versions × List (CircuitVar × Expr))
    (d : Variable × Decision) : Versions × List (CircuitVar × Expr) :=
  match d.2 with
  | .keep v => (state.1.set d.1 v, state.2)
  | .choose a b =>
    let e := d.1.choice symbols cond a b
    let v := CircuitVar.make ("join_" ++ d.1.name) (e.type?.getD default).type .temporary none none
    (state.1.set d.1 v, state.2 ++ [(v, e)])

theorem join_eq (r : VersionRecord) (taken : Versions) (ns : List Nat) :
    r.join symbols ns cond taken =
      let joined := (taken.merge r.versions fun x => ns.contains x.id).foldl (settle symbols cond) (.empty, [])
      ({ r with versions := joined.1 }, joined.2) := rfl

/-- What was made stays in the list. -/
theorem mem_decided {p : CircuitVar × Expr} (h : p ∈ made) : p ∈ (ds.foldl (settle symbols cond) (vs, made)).2 := by
  induction ds generalizing vs made with
  | nil => exact h
  | cons q ds ih =>
    obtain ⟨x, _ | _⟩ := q
    · exact ih h
    · exact ih (List.mem_append_left _ h)

theorem decided_joined (hu : ν.value cond = some u) (h : ν.Progress visible branch ds vs)
    (right : ∀ p ∈ ds, visible p.1 = true ∧ ν.meaning p.1 (ν.isTrue u) p.2 = ν.resolve branch p.1)
    (stores : ∀ p ∈ (ds.foldl (settle symbols cond) (vs, made)).2, ν.value p.2 = some (ν.circuit p.1.name)) :
    ν.Joined visible branch (ds.foldl (settle symbols cond) (vs, made)).1 := by
  induction ds generalizing vs made with
  | nil => exact h.joined
  | cons p ds ih =>
    obtain ⟨x, d⟩ := p
    obtain ⟨shown, same⟩ := right _ List.mem_cons_self
    rw [List.foldl_cons] at stores
    refine ih ?_ (fun q hq => right q (List.mem_cons_of_mem _ hq)) stores
    cases d with
    | keep v => exact h.decide (.refl ν visible vs) shown same
    | choose a b =>
      have stored := stores _ (mem_decided (List.mem_append_right made (List.mem_singleton_self _)))
      rw [Valuation.value_choice hu] at stored
      exact h.decide (.refl ν visible vs) shown ((Option.some.inj stored).symm.trans same)

/-- Joining records: the visible variables stand for what they do at the end of the branch taken. -/
theorem joined {r r' : VersionRecord} {ns : List Nat} {taken : Versions} (hu : ν.value cond = some u)
    (run : r.join symbols ns cond taken = (r', made)) (ht : taken.Keyed) (ho : r.versions.Keyed)
    (stores : ∀ p ∈ made, ν.value p.2 = some (ν.circuit p.1.name))
    (first : ν.Unmodified (fun x => ns.contains x.id) taken r.versions)
    (second : ν.Unmodified (fun x => ns.contains x.id) r.versions taken) :
    ν.Joined (fun x => ns.contains x.id) (if ν.isTrue u then taken else r.versions) r'.versions := by
  rw [join_eq] at run
  cases run
  exact decided_joined hu (.merge rfl) (fun _ hd => Valuation.meaning_merge ht ho first second hd) stores

end VersionRecord

/-! ## Joining in a circuit -/

/-- A temporary that was made for a decision, with the versions before and after. -/
structure Making where
  expr : Expr
  before : Versions
  made : CircuitVar
  after : Versions

/-- The temporary has the value of its expression, and nothing visible stands for anything else than before. -/
def Valuation.Stores {α : Type} (ν : Valuation α) (visible : Variable → Bool) (m : Making) : Prop :=
  ν.value m.expr = some (ν.circuit m.made.name) ∧ ν.Harmless visible m.before m.after

namespace Splitter

variable {α : Type} {ν : Valuation α} {t : Splitter} {k : SplitContext} {visible : Variable → Bool}
  {cond : Expr} {x : Variable} {d : Decision} {ds : List (Variable × Decision)} {branch : Versions} {u : α}
  {w w' : Workspace}

/-- One decision in a circuit. -/
def settle (t : Splitter) (cond : Expr) (d : Variable × Decision) : SplitM Unit := do
  match d.2 with
  | .keep v => resume ((← versions).set d.1 v)
  | .choose a b =>
    let v ← t.hold (d.1.choice (← symbols) cond a b) ("_" ++ d.1.name)
    setVersion d.1 v
    note (.merge d.1 v)

/-- The temporary that a decision makes. -/
def making? (t : Splitter) (k : SplitContext) (cond : Expr) (d : Variable × Decision) (w : Workspace) : Option Making :=
  match d.2 with
  | .keep _ => none
  | .choose a b =>
    let e := d.1.choice w.symbols cond a b
    match outcome k (t.hold e ("_" ++ d.1.name)) w with
    | (.ok v, w') => some ⟨e, w.circuit.versions, v, w'.circuit.versions⟩
    | (.error _, _) => none

/-- The temporaries that decisions make, one after the other. -/
def makings (t : Splitter) (k : SplitContext) (cond : Expr) : List (Variable × Decision) → Workspace → List Making
  | [], _ => []
  | d :: ds, w => (t.making? k cond d w).toList ++ t.makings k cond ds (outcome k (t.settle cond d) w).2

theorem join_eq (t : Splitter) (c : LinkContext) (cond : CircuitVar) (taken : Versions) : t.join c cond taken =
    indented ("JOIN [" ++ cond.name ++ "]") (do
      let decisions := taken.merge (← versions) c.shows
      setVersions .empty
      decisions.forM (t.settle cond.read)) := rfl

/-- One decision moves on. -/
theorem settle_progress (hu : ν.value cond = some u) (run : Runs k (t.settle cond (x, d)) w () w')
    (h : ν.Progress visible branch ((x, d) :: ds) w.circuit.versions) (shown : visible x = true)
    (same : ν.meaning x (ν.isTrue u) d = ν.resolve branch x)
    (stores : ∀ m ∈ t.making? k cond (x, d) w, ν.Stores visible m) :
    ν.Progress visible branch ds w'.circuit.versions := by
  unfold settle at run
  cases d with
  | keep v =>
    obtain ⟨_, _, hv, run⟩ := runs_bind.mp run
    obtain ⟨rfl, rfl⟩ := runs_versions.mp hv
    obtain ⟨_, _, hs, hn⟩ := runs_bind.mp run
    obtain rfl := runs_setVersions.mp hs
    obtain rfl := runs_note.mp hn
    exact h.decide (.refl ν visible _) shown same
  | choose a b =>
    obtain ⟨_, _, hv, run⟩ := runs_bind.mp run
    obtain ⟨rfl, rfl⟩ := runs_symbols.mp hv
    obtain ⟨v, w₁, held, run⟩ := runs_bind.mp run
    obtain ⟨_, _, hs, hn⟩ := runs_bind.mp run
    obtain rfl := runs_setVersion.mp hs
    obtain rfl := runs_note.mp hn
    have made : t.making? k cond (x, .choose a b) w =
        some ⟨x.choice w.symbols cond a b, w.circuit.versions, v, w₁.circuit.versions⟩ := by
      unfold making?
      dsimp only
      rw [show outcome k _ w = _ from held]
    obtain ⟨stored, harmless⟩ := stores _ made
    rw [Valuation.value_choice hu] at stored
    exact h.decide harmless shown ((Option.some.inj stored).symm.trans same)

/-- All decisions, one after the other. -/
theorem decisions_joined (hu : ν.value cond = some u) (run : Runs k (ds.forM (t.settle cond)) w () w')
    (h : ν.Progress visible branch ds w.circuit.versions)
    (right : ∀ p ∈ ds, visible p.1 = true ∧ ν.meaning p.1 (ν.isTrue u) p.2 = ν.resolve branch p.1)
    (stores : ∀ m ∈ t.makings k cond ds w, ν.Stores visible m) :
    ν.Joined visible branch w'.circuit.versions := by
  induction ds generalizing w with
  | nil =>
    obtain ⟨_, rfl⟩ := runs_pure.mp run
    exact h.joined
  | cons p ds ih =>
    obtain ⟨x, d⟩ := p
    obtain ⟨_, w₁, once, run⟩ := runs_bind.mp run
    obtain ⟨shown, same⟩ := right _ List.mem_cons_self
    have next : (outcome k (t.settle cond (x, d)) w).2 = w₁ := by rw [show outcome k _ w = _ from once]
    rw [makings, next] at stores
    refine ih run ?_ (fun q hq => right q (List.mem_cons_of_mem _ hq)) fun m hm =>
      stores m (List.mem_append_right _ hm)
    refine settle_progress hu once h shown same fun m hm => stores m (List.mem_append_left _ ?_)
    exact Option.mem_toList.mpr hm

/-- The decisions of a join, in the workspace where they are taken. -/
def joinMakings (t : Splitter) (k : SplitContext) (c : LinkContext) (cond : CircuitVar) (taken : Versions)
    (w : Workspace) : List Making :=
  t.makings k cond.read (taken.merge w.circuit.versions c.shows)
    { w with circuit := { w.circuit with versions := .empty } }

/-- Joining in a circuit: the visible variables stand for what they do at the end of the branch taken, and no other
variable has a version. -/
theorem join_resolves {c : LinkContext} {cond : CircuitVar} {taken : Versions}
    (run : Runs k (t.join c cond taken) w () w') (ht : taken.Keyed) (ho : w.circuit.versions.Keyed)
    (stores : ∀ m ∈ t.joinMakings k c cond taken w, ν.Stores c.shows m)
    (first : ν.Unmodified c.shows taken w.circuit.versions) (second : ν.Unmodified c.shows w.circuit.versions taken) :
    ν.Joined c.shows (if ν.isTrue (ν.circuit cond.name) then taken else w.circuit.versions) w'.circuit.versions := by
  rw [join_eq] at run
  obtain ⟨_, _, hc, opened⟩ := runs_bind.mp run
  obtain ⟨rfl, rfl⟩ := runs_circuit.mp hc
  obtain ⟨_, w₁, inner, closed⟩ := runs_bind.mp opened
  obtain ⟨_, _, hm, left⟩ := runs_bind.mp closed
  obtain rfl := runs_modifyCircuit.mp hm
  obtain ⟨-, rfl⟩ := runs_pure.mp left
  obtain ⟨_, _, hv, emptied⟩ := runs_bind.mp inner
  obtain ⟨rfl, rfl⟩ := runs_versions.mp hv
  obtain ⟨_, _, hs, decisions⟩ := runs_bind.mp emptied
  obtain rfl := runs_setVersions.mp hs
  have decided : ∀ p ∈ taken.merge w.circuit.versions c.shows, c.shows p.1 = true ∧
      ν.meaning p.1 (ν.isTrue (ν.circuit cond.name)) p.2 =
        ν.resolve (if ν.isTrue (ν.circuit cond.name) then taken else w.circuit.versions) p.1 :=
    fun _ hp => Valuation.meaning_merge ht ho first second hp
  exact (decisions_joined rfl decisions (.merge rfl) decided stores :)

/-- A splitter that looks at a variable without a version by making it an input. -/
def looking : Splitter where
  publicly e := pure e
  privately e := do
    match e with
    | .call _ _ [_, _, .ident _ (.plain n) (some (.decl k i))] _ _ =>
      setVersion ⟨k, i, n⟩ (.make n .bool .publicArgument none none)
    | _ => pure ()
    return e
  carryOut _ _ _ := pure ()

def bit (name : String) : CircuitVar := .make name .bool .temporary none none

/-- The circuit at the end of the branch not taken, which has written one variable and read another. -/
def arriving : Workspace where
  circuit := { Circuit.empty 0 with versions := ⟨[(⟨.parameter, 1, "kept"⟩, bit "kept"),
    (⟨.parameter, 3, "both"⟩, bit "late"), (⟨.parameter, 4, "read"⟩, .make "read" .bool .publicArgument none none)]⟩ }
  drafts := []
  symbols := ⟨[]⟩
  next := 0

/-- The end of the branch taken, which has written two variables and one of its own. -/
def leaving : Versions := ⟨[(⟨.parameter, 1, "kept"⟩, bit "kept"), (⟨.parameter, 2, "first"⟩, bit "fresh"),
  (⟨.parameter, 3, "both"⟩, bit "early"), (⟨.localVar, 5, "inner"⟩, bit "inner")]⟩

def outside : LinkContext where
  scope := ⟨[⟨[("kept", .decl .parameter 1), ("first", .decl .parameter 2), ("both", .decl .parameter 3),
    ("read", .decl .parameter 4)], none⟩], [], []⟩
  site := .detached

/-- The values if the condition holds. -/
def holding : Valuation Nat where
  circuit n := ([("cond", 1), ("kept", 10), ("first", 20), ("fresh", 21), ("early", 31), ("late", 32), ("read", 40),
    ("tmp0_plain_first", 21), ("tmp1_plain_both", 31)].lookup n).getD 0
  outside x := 10 * x.id
  isTrue n := n == 1

theorem looking_stores : ∀ m ∈ looking.joinMakings ⟨.default, [], []⟩ outside (bit "cond") leaving arriving,
    holding.Stores outside.shows m := by
  have read : holding.Harmless outside.shows ⟨[(⟨.parameter, 1, "kept"⟩, bit "kept")]⟩ _ :=
    .read (x := ⟨.parameter, 2, "first"⟩) (v := .make "first" .bool .publicArgument none none) rfl rfl rfl rfl
  exact List.forall_mem_cons.mpr ⟨⟨rfl, read⟩, List.forall_mem_cons.mpr ⟨⟨rfl, .refl _ _ _⟩, nofun⟩⟩

theorem looking_joined : ∃ w, Runs ⟨.default, [], []⟩ (looking.join outside (bit "cond") leaving) arriving () w ∧
    holding.Joined outside.shows leaving w.circuit.versions := by
  obtain ⟨_, ran, -⟩ := exists_ok_of_any
    (x := (outcome ⟨.default, [], []⟩ (looking.join outside (bit "cond") leaving) arriving).1) (p := fun _ => true)
    (by decide +kernel)
  have run := runs_of_ok ran
  exact ⟨_, run, join_resolves run (by decide) (by decide) looking_stores (.of_entries (by decide))
    (.of_entries (by decide))⟩

end Splitter

end Shroud
