import Mathlib.Data.Finset.Card
import Mathlib.Logic.Relation
import Shroud.Proofs.Numbers

/-!
# The functions that a function reaches

The calls that a function is marked with are those that it reaches by one call or more.

**One pass.** The functions are visited in order, and a function that comes later sees the marks of those before it:
some functions are already marked with all that they reach, the others only with what they call directly. The search
finds the same either way.

**Enough steps.** Every function enters the search once, so it ends within as many steps as there are functions.
-/

namespace Shroud

/-! ## The search -/

section Search

variable {calls : Nat → List Nat}

theorem mem_addOnce {xs : List Nat} {x y : Nat} : y ∈ addOnce xs x ↔ y ∈ xs ∨ y = x := by
  unfold addOnce
  split
  · rename_i h
    exact ⟨.inl, fun hy => hy.elim id fun hy => hy ▸ List.contains_iff_mem.mp h⟩
  · simp

theorem addOnce_nodup {xs : List Nat} (h : xs.Nodup) (x : Nat) : (addOnce xs x).Nodup := by
  unfold addOnce
  split
  · exact h
  · rename_i hx
    refine List.nodup_append.mpr ⟨h, List.nodup_singleton x, fun a ha b hb => ?_⟩
    rintro rfl
    rw [List.mem_singleton.mp hb] at ha
    exact hx (List.contains_iff_mem.mpr ha)

theorem mem_foldl_addOnce {ys xs : List Nat} {x : Nat} : x ∈ ys.foldl addOnce xs ↔ x ∈ xs ∨ x ∈ ys := by
  induction ys generalizing xs with
  | nil => simp
  | cons y ys ih => rw [List.foldl_cons, ih, mem_addOnce, List.mem_cons, or_assoc]

theorem foldl_addOnce_nodup {ys xs : List Nat} (h : xs.Nodup) : (ys.foldl addOnce xs).Nodup := by
  induction ys generalizing xs with
  | nil => exact h
  | cons y ys ih => exact ih (addOnce_nodup h y)

/-- The functions in a list that are not known yet, each of them once. -/
def newCalls (known found : List Nat) : List Nat :=
  found.foldl (fun acc g => if known.contains g then acc else addOnce acc g) []

theorem newCalls_eq (known found : List Nat) :
    newCalls known found = (found.filter fun g => !known.contains g).foldl addOnce [] := by
  unfold newCalls
  rw [List.foldl_filter]
  congr 1
  funext acc g
  cases known.contains g <;> rfl

theorem mem_newCalls {known found : List Nat} {g : Nat} : g ∈ newCalls known found ↔ g ∈ found ∧ g ∉ known := by
  rw [newCalls_eq, mem_foldl_addOnce]
  simp

theorem newCalls_nodup (known found : List Nat) : (newCalls known found).Nodup := by
  rw [newCalls_eq]
  exact foldl_addOnce_nodup List.nodup_nil

theorem closeCalls_succ (n : Nat) (known pending : List Nat) :
    closeCalls calls (n + 1) known pending =
      match pending.getLast? with
      | none => known
      | some f => closeCalls calls n (known ++ newCalls known (calls f))
        (pending.dropLast ++ newCalls known (calls f)) := rfl

/-- Nothing known is lost. -/
theorem subset_closeCalls (n : Nat) (known pending : List Nat) : known ⊆ closeCalls calls n known pending := by
  induction n generalizing known pending with
  | zero => exact fun _ h => h
  | succ n ih =>
    rw [closeCalls_succ]
    split
    · exact fun _ h => h
    · exact fun x hx => ih _ _ (List.mem_append_left _ hx)

/-- Everything that is found has a property that goes over to the called functions. -/
theorem closeCalls_sound {P : Nat → Prop} (step : ∀ i, P i → ∀ j ∈ calls i, P j) {n : Nat}
    {known pending : List Nat} (hk : ∀ i ∈ known, P i) (hp : ∀ i ∈ pending, P i) :
    ∀ i ∈ closeCalls calls n known pending, P i := by
  induction n generalizing known pending with
  | zero => exact hk
  | succ n ih =>
    rw [closeCalls_succ]
    split
    · exact hk
    · rename_i f hf
      have new : ∀ i ∈ newCalls known (calls f), P i := fun i hi =>
        step f (hp f (List.mem_of_getLast? hf)) i (mem_newCalls.mp hi).1
      refine ih (fun i hi => ?_) fun i hi => ?_
      · exact (List.mem_append.mp hi).elim (hk i) (new i)
      · exact (List.mem_append.mp hi).elim (fun h => hp i (List.dropLast_subset _ h)) (new i)

/-- What the search knows: every known function is pending, or all its calls are known. -/
structure Searching (calls : Nat → List Nat) (all : Finset Nat) (known pending : List Nat) : Prop where
  nodup : known.Nodup
  bounded : ∀ i ∈ known, i ∈ all
  listed : pending ⊆ known
  done : ∀ i ∈ known, i ∈ pending ∨ calls i ⊆ known

theorem Searching.step {all : Finset Nat} {known pending : List Nat} {f : Nat}
    (h : Searching calls all known pending) (hf : pending.getLast? = some f) (hall : ∀ j ∈ calls f, j ∈ all) :
    Searching calls all (known ++ newCalls known (calls f)) (pending.dropLast ++ newCalls known (calls f)) := by
  refine ⟨?_, ?_, ?_, ?_⟩
  · refine List.nodup_append.mpr ⟨h.nodup, newCalls_nodup _ _, fun i hi j hj => ?_⟩
    rintro rfl
    exact (mem_newCalls.mp hj).2 hi
  · intro i hi
    rcases List.mem_append.mp hi with hi | hi
    · exact h.bounded i hi
    · exact hall i (mem_newCalls.mp hi).1
  · intro i hi
    rcases List.mem_append.mp hi with hi | hi
    · exact List.mem_append_left _ (h.listed (List.dropLast_subset _ hi))
    · exact List.mem_append_right _ hi
  · intro i hi
    rcases List.mem_append.mp hi with hi | hi
    · rcases h.done i hi with hp | hc
      · by_cases last : i = f
        · subst last
          refine .inr fun j hj => List.mem_append.mpr ?_
          by_cases hk : j ∈ known
          · exact .inl hk
          · exact .inr (mem_newCalls.mpr ⟨hj, hk⟩)
        · rw [← List.dropLast_append_getLast? f hf, List.mem_append] at hp
          exact .inl (List.mem_append_left _ (hp.resolve_right fun h => last (List.mem_singleton.mp h)))
      · exact .inr fun j hj => List.mem_append_left _ (hc hj)
    · exact .inl (List.mem_append_right _ hi)

/-- With enough steps, the calls of all functions that are found are found. -/
theorem Searching.closed {all : Finset Nat} (hall : ∀ i ∈ all, ∀ j ∈ calls i, j ∈ all) {n : Nat}
    {known pending : List Nat} (h : Searching calls all known pending)
    (hn : pending.length + (all.card - known.length) < n) :
    ∀ i ∈ closeCalls calls n known pending, calls i ⊆ closeCalls calls n known pending := by
  induction n generalizing known pending with
  | zero => omega
  | succ n ih =>
    rw [closeCalls_succ]
    split
    · rename_i hf
      rw [List.getLast?_eq_none_iff] at hf
      subst hf
      exact fun i hi => (h.done i hi).resolve_left List.not_mem_nil
    · rename_i f hf
      have mem := List.mem_of_getLast? hf
      have next := h.step hf (hall f (h.bounded f (h.listed mem)))
      have bound : (known ++ newCalls known (calls f)).length ≤ all.card := by
        rw [← List.toFinset_card_of_nodup next.nodup]
        exact Finset.card_le_card fun i hi => next.bounded i (List.mem_toFinset.mp hi)
      have positive : 0 < pending.length := List.length_pos_of_mem mem
      refine ih next ?_
      rw [List.length_append] at bound ⊢
      rw [List.length_append, List.length_dropLast]
      omega

end Search

/-! ## Looking up marks -/

/-- The calls that a function is marked with. -/
def Symbols.calls (s : Symbols) (i : Nat) : List Nat := ((s.function? i).map (·.facts.calls)).getD []

namespace Symbols

variable {s : Symbols} {g : FunctionDef} {i : Nat}

theorem find?_modify {k : Nat} {f : Decl → Decl} :
    (s.modify k f).find? i = if i = k then (s.find? i).map f else s.find? i := by
  obtain ⟨entries⟩ := s
  unfold modify find?
  induction entries with
  | nil => simp
  | cons e entries ih =>
    obtain ⟨j, d⟩ := e
    rw [List.map_cons, List.lookup_cons]
    by_cases hj : j = k <;> by_cases hi : i = j <;> simp_all [List.lookup_cons] <;> grind

/-- A function that is set is found instead of the one before. -/
theorem function?_setFunction :
    (s.setFunction g).function? i = if i = g.id then (s.function? i).map fun _ => g else s.function? i := by
  unfold setFunction function?
  rw [find?_modify]
  split
  · cases s.find? i with
    | none => rfl
    | some d => cases d <;> rfl
  · rfl

theorem callee?_eq_some {f : Expr} (h : s.callee? f = some g) : ∃ i, s.function? i = some g := by
  unfold callee? at h
  cases ht : f.target? with
  | none =>
    rw [ht] at h
    cases h
  | some r =>
    rw [ht] at h
    cases r with
    | decl k i => exact ⟨i, h⟩
    | element | keyLabel => cases h

end Symbols

theorem Builtin.methods_calls {f : FunctionDef} (h : f ∈ Builtin.methods) : f.facts.calls = [] := by
  simp only [Builtin.methods, List.mem_cons, List.not_mem_nil, or_false] at h
  rcases h with rfl | rfl <;> rfl

/-! ## Direct calls -/

/-- The function calls the function with this number. -/
def FunctionDef.Calls (symbols : Symbols) (f : FunctionDef) (j : Nat) : Prop :=
  ∃ ids, symbols.directCalls (Node.outsideParams 0 f.body.nodes) = .ok ids ∧ j ∈ ids

/-- The function with the first number calls the one with the second. -/
def SourceUnit.Calls (u : SourceUnit) (i j : Nat) : Prop := ∃ f ∈ u.allFunctions, f.id = i ∧ f.Calls u.symbols j

theorem Symbols.directCalls_found {s : Symbols} {ns : List Node} {ids : List Nat} (h : s.directCalls ns = .ok ids) :
    ∀ j ∈ ids, ∃ i g, s.function? i = some g ∧ g.id = j := by
  induction ns generalizing ids with
  | nil =>
    cases h
    exact fun j hj => nomatch hj
  | cons n ns ih =>
    obtain ⟨here, hh, h⟩ := except_bind_ok h
    obtain ⟨rest, hr, h⟩ := except_bind_ok h
    have found : ∀ j, here = some j → ∃ i g, s.function? i = some g ∧ g.id = j := by
      rintro j rfl
      split at hh
      · split at hh
        · cases hh
        · rw [if_neg Bool.false_ne_true] at hh
          split at hh
          · cases hh
          · split at hh
            · rename_i g hg
              split at hh
              · cases hh
              · cases hh
                obtain ⟨i, hi⟩ := Symbols.callee?_eq_some hg
                exact ⟨i, g, hi, rfl⟩
            · cases hh
      · cases hh
    cases here with
    | none =>
      cases h
      exact ih hr
    | some k =>
      cases h
      intro j hj
      rcases List.mem_cons.mp hj with rfl | hj
      · exact found j rfl
      · exact ih hr j hj

namespace SourceUnit

/-- The numbers of all functions, the built-in ones included. -/
def functionNumbers (u : SourceUnit) : Finset Nat := ((u.allFunctions ++ Builtin.methods).map (·.id)).toFinset

theorem mem_functionNumbers {u : SourceUnit} {i : Nat} {f : FunctionDef} (h : u.symbols.function? i = some f) :
    f.id ∈ u.functionNumbers := by
  rw [functionNumbers, List.mem_toFinset]
  exact List.mem_map_of_mem (List.mem_append.mpr (function?_found h).1)

theorem functionNumbers_card (u : SourceUnit) :
    u.functionNumbers.card ≤ u.allFunctions.length + Builtin.methods.length := by
  refine (List.toFinset_card_le _).trans ?_
  rw [List.length_map, List.length_append]

/-- Only functions are called. -/
theorem Calls.mem {u : SourceUnit} {i j : Nat} (h : u.Calls i j) : j ∈ u.functionNumbers := by
  obtain ⟨f, _, _, ids, hids, hj⟩ := h
  obtain ⟨k, g, hg, rfl⟩ := Symbols.directCalls_found hids j hj
  exact mem_functionNumbers hg

theorem allFunctions_pointwise {R : FunctionDef → FunctionDef → Prop} {u v : SourceUnit} (h : u.Pointwise R v) :
    List.Forall₂ R u.allFunctions v.allFunctions :=
  List.rel_flatMap h fun _ _ hc => List.rel_append hc.constructors hc.functions

/-- A pass over the facts that learns on the way. -/
theorem mapFacts_keeping {u : SourceUnit} {F : Symbols → FunctionDef → FunctionFacts}
    {R : FunctionDef → FunctionFacts → Prop} {I : Symbols → Prop}
    (h : ∀ g ∈ u.allFunctions, ∀ s, I s → R g (F s g) ∧ I (s.setFunction { g with facts := F s g }))
    (start : I u.symbols) :
    u.Pointwise (fun g k => k = { g with facts := k.facts } ∧ R g k.facts) (u.mapFacts F) := by
  refine (mapFunctions_keeping (I := I) (fun c hc g hg s hs => ?_) start).1
  obtain ⟨hR, hI⟩ := h g (List.mem_flatMap.mpr ⟨c, hc, hg⟩) s hs
  exact ⟨⟨rfl, hR⟩, hI⟩

/-- Nothing is known about the calls of the functions. -/
def Uncalled (u : SourceUnit) : Prop := ∀ f ∈ u.allFunctions, f.facts.calls = []

instance (u : SourceUnit) : Decidable u.Uncalled :=
  inferInstanceAs (Decidable (∀ f ∈ u.allFunctions, f.facts.calls = []))

/-- The function is marked with the functions that it calls directly. -/
structure MarkedDirectly (u : SourceUnit) (f g : FunctionDef) : Prop where
  id : g.id = f.id
  nodup : g.facts.calls.Nodup
  calls : ∀ j, j ∈ g.facts.calls ↔ f.Calls u.symbols j

theorem markDirectCalls_marked {u v : SourceUnit} (fresh : u.Uncalled) (h : u.markDirectCalls = .ok v) :
    List.Forall₂ (u.MarkedDirectly) u.allFunctions v.allFunctions := by
  obtain ⟨contracts, hm, hv⟩ := except_bind_ok h
  cases hv
  have marked : u.Pointwise (fun f g => f.facts.calls = [] → u.MarkedDirectly f g) { u with contracts } := by
    refine visit_pointwise (fun c f g hg unknown => ?_) hm
    obtain ⟨ids, hids, hg⟩ := except_bind_ok hg
    cases hg
    refine ⟨rfl, ?_, fun j => ?_⟩
    · exact foldl_addOnce_nodup (unknown ▸ List.nodup_nil)
    · simp only [mem_foldl_addOnce, unknown, List.not_mem_nil, false_or]
      refine ⟨fun hj => ⟨ids, hids, hj⟩, fun ⟨ids', hids', hj⟩ => ?_⟩
      rw [hids] at hids'
      cases hids'
      exact hj
  exact ((List.forall₂_and_left _ _).mpr ⟨fresh, allFunctions_pointwise marked⟩).imp fun _ _ h => h.2 h.1

/-- A function is reached by one call or more. -/
def Reaches (u : SourceUnit) : Nat → Nat → Prop := Relation.TransGen u.Calls

theorem Reaches.mem {u : SourceUnit} {i j : Nat} (h : u.Reaches i j) : j ∈ u.functionNumbers := by
  cases h with
  | single h => exact h.mem
  | tail _ h => exact h.mem

/-- All marks lie between what is called directly and what is reached. -/
structure Between (u : SourceUnit) (s : Symbols) : Prop where
  direct : ∀ i j, u.Calls i j → j ∈ s.calls i
  reached : ∀ i, ∀ j ∈ s.calls i, u.Reaches i j

/-- From such marks the search finds what is reached. -/
theorem Between.mem_closeCalls {u : SourceUnit} {s : Symbols} (h : u.Between s) {i n : Nat} {direct : List Nat}
    (nodup : direct.Nodup) (hd : ∀ j, j ∈ direct ↔ u.Calls i j)
    (hn : 2 * (u.allFunctions.length + Builtin.methods.length) < n) (j : Nat) :
    j ∈ closeCalls s.calls n direct direct ↔ u.Reaches i j := by
  have first : ∀ j ∈ direct, u.Reaches i j := fun j hj => .single ((hd j).mp hj)
  have searching : Searching s.calls u.functionNumbers direct direct :=
    ⟨nodup, fun k hk => (first k hk).mem, fun _ hk => hk, fun _ hk => .inl hk⟩
  have enough : direct.length + (u.functionNumbers.card - direct.length) < n := by
    have few : direct.length ≤ u.functionNumbers.card := by
      rw [← List.toFinset_card_of_nodup nodup]
      exact Finset.card_le_card fun k hk => searching.bounded k (List.mem_toFinset.mp hk)
    have bound := u.functionNumbers_card
    omega
  constructor
  · exact closeCalls_sound (P := u.Reaches i) (fun k hk l hl => hk.trans (h.reached k l hl)) first first j
  · intro hj
    induction hj with
    | single hc => exact subset_closeCalls n _ _ ((hd _).mpr hc)
    | tail _ hc ih =>
      exact searching.closed (fun k _ l hl => (h.reached k l hl).mem) enough _ ih (h.direct _ _ hc)

theorem Between.setFunction {u : SourceUnit} {s : Symbols} (h : u.Between s) {g : FunctionDef}
    (hg : ∀ j, j ∈ g.facts.calls ↔ u.Reaches g.id j) : u.Between (s.setFunction g) := by
  have calls (i : Nat) : (s.setFunction g).calls i = s.calls i ∨
      i = g.id ∧ (s.setFunction g).calls i = g.facts.calls := by
    unfold Symbols.calls
    rw [Symbols.function?_setFunction]
    split
    · rename_i hi
      cases s.function? i with
      | none => exact .inl rfl
      | some f => exact .inr ⟨hi, rfl⟩
    · exact .inl rfl
  constructor
  · intro i j hc
    rcases calls i with same | ⟨rfl, new⟩
    · rw [same]
      exact h.direct i j hc
    · rw [new]
      exact (hg j).mpr (.single hc)
  · intro i j hj
    rcases calls i with same | ⟨rfl, new⟩
    · rw [same] at hj
      exact h.reached i j hj
    · rw [new] at hj
      exact (hg j).mp hj

theorem between_directly {u v : SourceUnit} (distinct : v.numbers.Nodup)
    (h : List.Forall₂ u.MarkedDirectly u.allFunctions v.allFunctions) : u.Between v.symbols := by
  constructor
  · rintro i j ⟨f, hf, rfl, hc⟩
    obtain ⟨g, hg, marked⟩ := exists_mem_of_forall₂_left h hf
    unfold Symbols.calls
    rw [← marked.id, function?_own distinct hg]
    exact (marked.calls j).mpr hc
  · intro i j hj
    unfold Symbols.calls at hj
    cases hg : v.symbols.function? i with
    | none =>
      rw [hg] at hj
      cases hj
    | some g =>
      rw [hg] at hj
      obtain ⟨own | builtin, rfl⟩ := function?_found hg
      · obtain ⟨f, hf, marked⟩ := exists_mem_of_forall₂_right h own
        exact .single ⟨f, hf, marked.id.symm, (marked.calls j).mp hj⟩
      · rw [Option.map_some, Option.getD_some, Builtin.methods_calls builtin] at hj
        cases hj

/-- The facts of a function when the calls that the other functions are marked with are followed. -/
def closedFacts (n : Nat) (s : Symbols) (g : FunctionDef) : FunctionFacts :=
  let calls := closeCalls s.calls n g.facts.calls g.facts.calls
  { g.facts with
    calls := calls
    recursive := g.facts.recursive || calls.contains g.id
    staticBody := g.facts.staticBody && !calls.contains g.id }

/-- The calls of the second function, followed from those of the first. -/
structure Followed (u : SourceUnit) (g k : FunctionDef) : Prop where
  same : k = { g with facts := k.facts }
  calls : ∀ j, j ∈ k.facts.calls ↔ u.Reaches g.id j
  recursive : k.facts.recursive = (g.facts.recursive || k.facts.calls.contains g.id)
  staticBody : k.facts.staticBody = (g.facts.staticBody && !k.facts.calls.contains g.id)

/-- From the direct calls, following them finds what is reached. -/
theorem mapFacts_closed {u w : SourceUnit} (distinct : u.numbers.Nodup) (fresh : u.Uncalled)
    (h : u.markDirectCalls = .ok w) {n : Nat} (hn : 2 * (w.allFunctions.length + Builtin.methods.length) < n) :
    w.Pointwise u.Followed (w.mapFacts (closedFacts n)) := by
  have direct := markDirectCalls_marked fresh h
  have between : u.Between w.symbols := between_directly (markDirectCalls_numbers h ▸ distinct) direct
  refine (mapFacts_keeping (I := u.Between)
    (R := fun g facts => (∀ j, j ∈ facts.calls ↔ u.Reaches g.id j) ∧ ∃ s, facts = closedFacts n s g)
    (fun g hg s hs => ?_) between).mono ?_
  · obtain ⟨f, hf, marked⟩ := exists_mem_of_forall₂_right direct hg
    have own (j : Nat) : j ∈ g.facts.calls ↔ u.Calls g.id j := by
      rw [marked.calls]
      refine ⟨fun hc => ⟨f, hf, marked.id.symm, hc⟩, fun ⟨f', hf', hi, hc⟩ => ?_⟩
      rwa [eq_of_id distinct hf hf' (marked.id.symm.trans hi.symm)]
    have reached := hs.mem_closeCalls marked.nodup own (n := n) (by rw [direct.length_eq]; omega)
    exact ⟨⟨reached, s, rfl⟩, hs.setFunction reached⟩
  · rintro g k ⟨same, calls, s, facts⟩
    exact ⟨same, calls, by rw [facts]; rfl, by rw [facts]; rfl⟩

/-- The functions are marked with what they reach. -/
theorem markCalls_reaches {u v : SourceUnit} (distinct : u.numbers.Nodup) (fresh : u.Uncalled)
    (h : u.markCalls = .ok v) : ∀ f ∈ v.allFunctions, ∀ j, j ∈ f.facts.calls ↔ u.Reaches f.id j := by
  obtain ⟨w, hw, hv⟩ := except_bind_ok h
  cases hv
  have closed := mapFacts_closed distinct fresh hw
    (n := 2 * (w.allFunctions.length + Builtin.methods.length) + 1) (Nat.lt_succ_self _)
  suffices h : w.Pointwise (fun _ k => ∀ j, j ∈ k.facts.calls ↔ u.Reaches k.id j) _ by
    intro f hf
    obtain ⟨_, _, reached⟩ := exists_mem_of_forall₂_right (allFunctions_pointwise h) hf
    exact reached
  refine .trans (R := u.Followed) (S := fun f g => g.id = f.id ∧ g.facts.calls = f.facts.calls) ?_ closed
    (mapFacts_pointwise (fun _ g => ⟨rfl, rfl⟩) _)
  intro f g k followed same j
  rw [same.1, same.2, followed.same]
  exact followed.calls j

/-- What a function reaches, its callers reach as well. -/
def CallsClosed (u : SourceUnit) : Prop :=
  ∀ f ∈ u.allFunctions, ∀ g ∈ u.allFunctions, g.id ∈ f.facts.calls → g.facts.calls ⊆ f.facts.calls

/-- The second function has the number and the calls of the first. -/
structure SameCalls (f g : FunctionDef) : Prop where
  id : g.id = f.id
  calls : g.facts.calls = f.facts.calls

theorem sameCalls_coarse : Coarse SameCalls where
  refl _ := ⟨rfl, rfl⟩
  trans _ _ _ h₁ h₂ := ⟨h₂.id.trans h₁.id, h₂.calls.trans h₁.calls⟩
  code _ _ _ _ := ⟨rfl, rfl⟩
  summary _ _ _ _ := ⟨rfl, rfl⟩

theorem CallsClosed.of_sameCalls {u v : SourceUnit} (h : u.Pointwise SameCalls v) (hu : u.CallsClosed) :
    v.CallsClosed := by
  intro f hf g hg called
  obtain ⟨f', hf', sf⟩ := exists_mem_of_forall₂_right (allFunctions_pointwise h) hf
  obtain ⟨g', hg', sg⟩ := exists_mem_of_forall₂_right (allFunctions_pointwise h) hg
  rw [sg.id, sf.calls] at called
  rw [sf.calls, sg.calls]
  exact hu f' hf' g' hg' called

theorem Uncalled.of_sameCalls {u v : SourceUnit} (h : u.Pointwise SameCalls v) (hu : u.Uncalled) : v.Uncalled := by
  intro f hf
  obtain ⟨f', hf', same⟩ := exists_mem_of_forall₂_right (allFunctions_pointwise h) hf
  rw [same.calls, hu f' hf']

theorem markCalls_closed {u v : SourceUnit} (distinct : u.numbers.Nodup) (fresh : u.Uncalled)
    (h : u.markCalls = .ok v) : v.CallsClosed := by
  intro f hf g hg called j hj
  have reaches := markCalls_reaches distinct fresh h
  rw [reaches f hf] at called ⊢
  rw [reaches g hg] at hj
  exact called.trans hj

end SourceUnit

end Shroud
