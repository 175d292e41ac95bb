import Mathlib.Order.Defs.PartialOrder
import Shroud.Proofs.CallTotals

/-!
# Sections of circuit values

The values of a circuit and of all circuits below it share three arrays: secret inputs, public inputs and outputs.
`Circuit.Sections` lists where each of these circuits has its own values, given where the calls are told to start.

**Tiling.** The list is in the order of the arrays: a section starts where the one before it ends, the first one where
the circuit itself starts, and the last one ends where the circuit with all called ones ends.

**Overlaps.** Sections share no words and stay inside of the arrays as long as no circuit has a negative size.

**Results.**

* `Circuit.layOut_eq`: what calls are told.
* `Circuit.Arranged.tiling`: the sections below a circuit.
* `Circuit.Tiling.apart_iff`: when they are disjoint and fit.
-/

namespace Shroud

/-! ## The arrays -/

/-- The arrays that circuit values are held in. -/
inductive IoArray where
  | secret
  | input
  | output
  deriving DecidableEq, Repr

namespace CircuitSizes

/-- The words in one of the arrays. -/
def words (a : CircuitSizes) : IoArray → Int
  | .secret => a.secret
  | .input => a.input
  | .output => a.output

/-- Nowhere more words. -/
instance : Preorder CircuitSizes where
  le a b := ∀ i, a.words i ≤ b.words i
  le_refl _ _ := Int.le_refl _
  le_trans _ _ _ h k i := Int.le_trans (h i) (k i)

variable {a b c : CircuitSizes} {i : IoArray}

theorem le_def : a ≤ b ↔ ∀ i, a.words i ≤ b.words i := Iff.rfl

theorem le_iff : a ≤ b ↔ a.secret ≤ b.secret ∧ a.input ≤ b.input ∧ a.output ≤ b.output := by
  refine ⟨fun h => ⟨h .secret, h .input, h .output⟩, fun h i => ?_⟩
  cases i with
  | secret => exact h.1
  | input => exact h.2.1
  | output => exact h.2.2

instance (a b : CircuitSizes) : Decidable (a ≤ b) := decidable_of_iff _ le_iff.symm

@[simp]
theorem words_add : (a + b).words i = a.words i + b.words i := by cases i <;> rfl

@[simp]
theorem words_zero : (0 : CircuitSizes).words i = 0 := by cases i <;> rfl

theorem le_add_right_iff : a ≤ a + b ↔ 0 ≤ b := by
  simp only [le_def, words_add, words_zero]
  exact forall_congr' fun i => ⟨fun h => by omega, fun h => by omega⟩

end CircuitSizes

/-- The place of the values of a circuit: where they start, the words they take up, and the words that the circuit
takes up together with all below it. -/
structure Section where
  function : Nat
  start : CircuitSizes
  own : CircuitSizes
  whole : CircuitSizes
  deriving DecidableEq, Repr

namespace Section

/-- The word of the array belongs to the section. -/
def Covers (s : Section) (i : IoArray) (n : Int) : Prop := s.start.words i ≤ n ∧ n < (s.start + s.own).words i

instance (s : Section) (i : IoArray) (n : Int) : Decidable (s.Covers i n) := inferInstanceAs (Decidable (_ ∧ _))

/-- No word of any array belongs to both sections. -/
def Apart (s t : Section) : Prop := ∀ i n, ¬ (s.Covers i n ∧ t.Covers i n)

/-- The section lies between these places, and so do those of the circuits below. -/
structure Fits (a b : CircuitSizes) (s : Section) : Prop where
  lower : a ≤ s.start
  own : s.start ≤ s.start + s.own
  whole : s.start + s.own ≤ s.start + s.whole
  upper : s.start + s.whole ≤ b

/-- The sections follow each other, from the one place to the other. -/
def Consecutive : CircuitSizes → List Section → CircuitSizes → Prop
  | a, [], b => a = b
  | a, s :: ss, b => s.start = a ∧ Consecutive (a + s.own) ss b

variable {a b c : CircuitSizes} {s t : Section} {ss ts : List Section}

theorem Consecutive.append (h : Consecutive a ss b) (k : Consecutive b ts c) : Consecutive a (ss ++ ts) c := by
  induction ss generalizing a with
  | nil =>
    obtain rfl := h
    exact k
  | cons s ss ih => exact ⟨h.1, ih h.2⟩

/-- Sections without negative sizes lie between the ends. -/
theorem Consecutive.bounds (h : Consecutive a ss b) (sizes : ∀ s ∈ ss, 0 ≤ s.own) :
    a ≤ b ∧ ∀ s ∈ ss, a ≤ s.start ∧ s.start + s.own ≤ b := by
  induction ss generalizing a with
  | nil =>
    obtain rfl := h
    exact ⟨le_refl _, by simp⟩
  | cons s ss ih =>
    obtain ⟨rfl, h⟩ := h
    rw [List.forall_mem_cons] at sizes
    obtain ⟨upper, rest⟩ := ih h sizes.2
    have first : s.start ≤ s.start + s.own := CircuitSizes.le_add_right_iff.mpr sizes.1
    refine ⟨le_trans first upper, List.forall_mem_cons.mpr ⟨⟨le_refl _, upper⟩, fun t ht => ?_⟩⟩
    exact ⟨le_trans first (rest t ht).1, (rest t ht).2⟩

theorem apart_of_le (h : s.start + s.own ≤ t.start) : s.Apart t := by
  rintro i n ⟨hs, ht⟩
  have := h i
  exact absurd (Int.lt_of_lt_of_le hs.2 this) (Int.not_lt.mpr ht.1)

/-- Sections without negative sizes share no words. -/
theorem Consecutive.apart (h : Consecutive a ss b) (sizes : ∀ s ∈ ss, 0 ≤ s.own) : ss.Pairwise Apart := by
  induction ss generalizing a with
  | nil => exact .nil
  | cons s ss ih =>
    obtain ⟨rfl, h⟩ := h
    rw [List.forall_mem_cons] at sizes
    exact .cons (fun t ht => apart_of_le ((h.bounds sizes.2).2 t ht).1) (ih h sizes.2)

theorem Fits.mono {a' b' : CircuitSizes} (h : s.Fits a b) (ha : a' ≤ a) (hb : b ≤ b') : s.Fits a' b' :=
  ⟨le_trans ha h.lower, h.own, h.whole, le_trans h.upper hb⟩

end Section

/-! ## What calls are told -/

namespace Circuit

/-- The words for the circuit of a function and all circuits below it. -/
def sizesAt (cs : List Circuit) (function : Nat) : CircuitSizes := ((find? cs function).map sizes).getD 0

/-- Places for the circuits of functions, one after the other. -/
def placesFrom (cs : List Circuit) : CircuitSizes → List Nat → List CircuitSizes
  | _, [] => []
  | start, g :: gs => start :: placesFrom cs (start + sizesAt cs g) gs

/-- Where the sections of calls start, counted from the start of the caller's. -/
def places (cs : List Circuit) (c : Circuit) : List CircuitSizes :=
  placesFrom cs c.ownSizes (c.calls.map CircuitCall.callee)

/-- The words for all called circuits. -/
def callsSizes (cs : List Circuit) (c : Circuit) : CircuitSizes :=
  ((c.calls.map CircuitCall.callee).map (sizesAt cs)).sum

section LayOut

variable {cs ds : List Circuit} {c d k : Circuit}

theorem placesFrom_length (start : CircuitSizes) (gs : List Nat) : (placesFrom cs start gs).length = gs.length := by
  induction gs generalizing start with
  | nil => rfl
  | cons g gs ih => rw [placesFrom, List.length_cons, ih, List.length_cons]

theorem placesFrom_congr {gs : List Nat} (h : ∀ g ∈ gs, sizesAt ds g = sizesAt cs g) (start : CircuitSizes) :
    placesFrom ds start gs = placesFrom cs start gs := by
  induction gs generalizing start with
  | nil => rfl
  | cons g gs ih =>
    rw [List.forall_mem_cons] at h
    rw [placesFrom, placesFrom, h.1, ih h.2]

theorem places_congr (callees : d.calls.map CircuitCall.callee = c.calls.map CircuitCall.callee)
    (own : d.ownSizes = c.ownSizes) (h : ∀ call ∈ c.calls, sizesAt ds call.callee = sizesAt cs call.callee) :
    d.places ds = c.places cs := by
  unfold places
  rw [callees, own]
  exact placesFrom_congr (List.forall_mem_map.mpr h) _

theorem callsSizes_congr (callees : d.calls.map CircuitCall.callee = c.calls.map CircuitCall.callee)
    (h : ∀ call ∈ c.calls, sizesAt ds call.callee = sizesAt cs call.callee) : d.callsSizes ds = c.callsSizes cs := by
  unfold callsSizes
  rw [callees]
  exact congrArg List.sum (List.map_congr_left (List.forall_mem_map.mpr h))

/-- Every call is told where its sections start: behind the caller's own values and behind the sections of the calls
before it. -/
theorem layOut_eq (cs : List Circuit) (c : Circuit) : c.layOut cs =
    ({ c with calls := List.zipWith (fun call p => { call with offset := p.secret }) c.calls (c.places cs) },
      List.zipWith (fun call p => (call.node, sectionArgs p.input p.output)) c.calls (c.places cs),
      c.callsSizes cs) := by
  have fold (calls done : List CircuitCall) (args : List (Nat × List Expr)) (used : CircuitSizes) :
      calls.foldl (fun (p : List CircuitCall × List (Nat × List Expr) × CircuitSizes) call =>
        (p.1 ++ [{ call with offset := (c.ownSizes + p.2.2).secret }],
          p.2.1 ++ [(call.node, sectionArgs (c.ownSizes + p.2.2).input (c.ownSizes + p.2.2).output)],
          p.2.2 + sizesAt cs call.callee)) (done, args, used) =
      (done ++ List.zipWith (fun call p => { call with offset := p.secret }) calls
          (placesFrom cs (c.ownSizes + used) (calls.map CircuitCall.callee)),
        args ++ List.zipWith (fun call p => (call.node, sectionArgs p.input p.output)) calls
          (placesFrom cs (c.ownSizes + used) (calls.map CircuitCall.callee)),
        used + ((calls.map CircuitCall.callee).map (sizesAt cs)).sum) := by
    induction calls generalizing done args used with
    | nil => simp [placesFrom]
    | cons call calls ih =>
      rw [List.foldl_cons, ih]
      simp only [placesFrom, List.zipWith_cons_cons, List.map_cons, List.sum_cons, List.append_assoc,
        List.singleton_append, add_assoc]
  have start := fold c.calls [] [] 0
  rw [add_zero, zero_add] at start
  unfold layOut
  exact congrArg (fun p : List CircuitCall × List (Nat × List Expr) × CircuitSizes =>
    (({ c with calls := p.1 } : Circuit), p.2.1, p.2.2)) start

end LayOut

/-! ## The sections below a circuit -/

mutual

/-- The sections of a circuit and of all circuits below it, given where the circuit starts. -/
inductive Sections (cs : List Circuit) : Circuit → CircuitSizes → List Section → Prop
  | intro {c start ss} (below : CallSections cs start c.calls (c.places cs) ss) :
    Sections cs c start (⟨c.function, start, c.ownSizes, c.sizes⟩ :: ss)

/-- The sections below a circuit that starts at this place, given where its calls are told to start. -/
inductive CallSections (cs : List Circuit) : CircuitSizes → List CircuitCall → List CircuitSizes → List Section → Prop
  | nil {start} : CallSections cs start [] [] []
  | cons {start call calls place places k ss rest} (find : find? cs call.callee = some k)
    (here : Sections cs k (start + place) ss) (below : CallSections cs start calls places rest) :
    CallSections cs start (call :: calls) (place :: places) (ss ++ rest)

end

/-- The sections below a circuit, if calls are nested no deeper than this. -/
def sections? (cs : List Circuit) : Nat → Circuit → CircuitSizes → Option (List Section)
  | 0, _, _ => none
  | n + 1, c, start => do
    let below ← (c.calls.zip (c.places cs)).mapM fun p => do sections? cs n (← find? cs p.1.callee) (start + p.2)
    return ⟨c.function, start, c.ownSizes, c.sizes⟩ :: below.flatten

theorem sections?_sound {cs : List Circuit} {n : Nat} {c : Circuit} {start : CircuitSizes} {ss : List Section}
    (h : sections? cs n c start = some ss) : Sections cs c start ss := by
  induction n generalizing c start ss with
  | zero => cases h
  | succ n ih =>
    have calls (calls : List CircuitCall) (places : List CircuitSizes) (length : places.length = calls.length)
        (tss : List (List Section)) (ht : (calls.zip places).mapM (fun p => do
          sections? cs n (← find? cs p.1.callee) (start + p.2)) = some tss) :
        CallSections cs start calls places tss.flatten := by
      induction calls generalizing places tss with
      | nil =>
        obtain rfl := List.length_eq_zero_iff.mp length
        cases ht
        exact .nil
      | cons call calls ihc =>
        cases places with
        | nil => cases length
        | cons place places =>
          rw [List.zip_cons_cons, List.mapM_cons] at ht
          obtain ⟨ts, hts, ht⟩ := Option.bind_eq_some_iff.mp ht
          obtain ⟨rest, hrest, ht⟩ := Option.bind_eq_some_iff.mp ht
          cases ht
          obtain ⟨k, hk, hts⟩ := Option.bind_eq_some_iff.mp hts
          exact .cons hk (ih hts) (ihc places (Nat.succ.inj length) rest hrest)
    obtain ⟨below, hb, h⟩ := Option.bind_eq_some_iff.mp h
    cases h
    refine .intro (calls _ _ ?_ below hb)
    unfold places
    rw [placesFrom_length, List.length_map]

/-- The circuit knows the size and the functions of all circuits below it, and its calls are told where their sections
start. -/
structure Tidy (cs : List Circuit) (c : Circuit) : Prop where
  total : c.called = some (c.callsSizes cs)
  offsets : c.calls.map CircuitCall.offset = (c.places cs).map CircuitSizes.secret
  callees : ∀ g, g ∈ c.callees.getD [] ↔ ∃ call ∈ c.calls, g = call.callee ∨
    ∃ k, find? cs call.callee = some k ∧ g ∈ k.callees.getD []
  resolved : ∀ call ∈ c.calls, ∃ k, find? cs call.callee = some k

/-- The circuit and all circuits below it are tidy, and no chain of calls goes on forever. -/
inductive Arranged (cs : List Circuit) : Circuit → Prop
  | intro {c} (tidy : Tidy cs c) (below : ∀ call ∈ c.calls, ∀ k, find? cs call.callee = some k → Arranged cs k) :
    Arranged cs c

section Arranged

variable {cs : List Circuit} {c k : Circuit} {start : CircuitSizes} {calls : List CircuitCall} {ss : List Section}

theorem Tidy.sizes_eq (h : Tidy cs c) : c.sizes = c.ownSizes + c.callsSizes cs := by
  unfold sizes
  rw [h.total]
  rfl

/-- The section of the circuit itself comes first. -/
theorem Sections.head (h : Sections cs c start ss) : ∃ rest, ss = ⟨c.function, start, c.ownSizes, c.sizes⟩ :: rest := by
  cases h
  exact ⟨_, rfl⟩

/-- What the sections of a circuit and of those below it have to do with the circuit. -/
structure Tiling (cs : List Circuit) (c : Circuit) (start : CircuitSizes) (ss : List Section) : Prop where
  sections : Sections cs c start ss
  consecutive : Section.Consecutive start ss (start + c.sizes)
  fits : (∀ s ∈ ss, 0 ≤ s.own) → ∀ s ∈ ss, s.Fits start (start + c.sizes)
  functions : ∀ g, g ∈ c.callees.getD [] ↔ ∃ s ∈ ss.tail, s.function = g

/-- What the sections below a circuit have to do with its calls. -/
structure CallTiling (cs : List Circuit) (start place : CircuitSizes) (calls : List CircuitCall) (ss : List Section) :
    Prop where
  sections : CallSections cs start calls (placesFrom cs place (calls.map CircuitCall.callee)) ss
  consecutive : Section.Consecutive (start + place) ss (start + (place + ((calls.map CircuitCall.callee).map (sizesAt cs)).sum))
  fits : (∀ s ∈ ss, 0 ≤ s.own) →
    ∀ s ∈ ss, s.Fits (start + place) (start + (place + ((calls.map CircuitCall.callee).map (sizesAt cs)).sum))
  functions : ∀ g, (∃ call ∈ calls, g = call.callee ∨ ∃ k, find? cs call.callee = some k ∧ g ∈ k.callees.getD []) ↔
    ∃ s ∈ ss, s.function = g

theorem CallTiling.nil {place : CircuitSizes} : CallTiling cs start place [] [] := by
  refine ⟨.nil, ?_, by simp, by simp⟩
  rw [List.map_nil, List.map_nil, List.sum_nil, add_zero]
  rfl

theorem CallTiling.cons {place : CircuitSizes} {call : CircuitCall} {ts : List Section}
    (hk : find? cs call.callee = some k) (first : Tiling cs k (start + place) ss)
    (rest : CallTiling cs start (place + sizesAt cs call.callee) calls ts) :
    CallTiling cs start place (call :: calls) (ss ++ ts) := by
  have size : sizesAt cs call.callee = k.sizes := by
    unfold sizesAt
    rw [hk]
    rfl
  have last : start + (place + sizesAt cs call.callee + ((calls.map CircuitCall.callee).map (sizesAt cs)).sum) =
      start + (place + (((call :: calls).map CircuitCall.callee).map (sizesAt cs)).sum) := by
    rw [List.map_cons, List.map_cons, List.sum_cons, add_assoc place]
  have here := first.consecutive
  have later := rest.consecutive
  rw [last] at later
  rw [← size, add_assoc start] at here
  refine ⟨.cons hk first.sections rest.sections, here.append later, fun sizes s hs => ?_, fun g => ?_⟩
  · have sizes₁ := fun s h => sizes s (List.mem_append_left _ h)
    have sizes₂ := fun s h => sizes s (List.mem_append_right _ h)
    rcases List.mem_append.mp hs with hs | hs
    · have fits := first.fits sizes₁ s hs
      rw [← size, add_assoc start] at fits
      exact fits.mono (le_refl _) (later.bounds sizes₂).1
    · have fits := rest.fits sizes₂ s hs
      rw [last] at fits
      exact fits.mono (here.bounds sizes₁).1 (le_refl _)
  · obtain ⟨tail, rfl⟩ := first.sections.head
    have inside : (∃ j, find? cs call.callee = some j ∧ g ∈ j.callees.getD []) ↔ ∃ s ∈ tail, s.function = g := by
      rw [← show _ ↔ ∃ s ∈ tail, s.function = g from first.functions g, hk]
      simp
    rw [List.exists_mem_cons_iff, rest.functions g, inside]
    simp only [List.mem_append, or_and_right, exists_or]
    rw [List.exists_mem_cons_iff, find?_function hk, eq_comm]

/-- The sections below a circuit follow each other, and the circuits there belong to the functions that are called. -/
theorem Arranged.tiling (h : Arranged cs c) (start : CircuitSizes) : ∃ ss, Tiling cs c start ss := by
  induction h generalizing start with
  | @intro c tidy below ih =>
    have all (calls : List CircuitCall) (sub : calls ⊆ c.calls) (place : CircuitSizes) :
        ∃ ss, CallTiling cs start place calls ss := by
      induction calls generalizing place with
      | nil => exact ⟨[], .nil⟩
      | cons call calls ihc =>
        have hc := sub List.mem_cons_self
        obtain ⟨k, hk⟩ := tidy.resolved call hc
        obtain ⟨ss, first⟩ := ih call hc k hk (start + place)
        obtain ⟨ts, rest⟩ := ihc (List.subset_of_cons_subset sub) (place + sizesAt cs call.callee)
        exact ⟨ss ++ ts, .cons hk first rest⟩
    obtain ⟨ss, tiles⟩ := all c.calls (List.Subset.refl _) c.ownSizes
    have consecutive := tiles.consecutive
    have fits := tiles.fits
    rw [show c.ownSizes + ((c.calls.map CircuitCall.callee).map (sizesAt cs)).sum = c.sizes from tidy.sizes_eq.symm] at consecutive fits
    refine ⟨_, .intro tiles.sections, ⟨rfl, consecutive⟩, fun sizes => ?_, fun g =>
      (tidy.callees g).trans (tiles.functions g)⟩
    rw [List.forall_mem_cons] at sizes
    have own : start ≤ start + c.ownSizes := CircuitSizes.le_add_right_iff.mpr sizes.1
    refine List.forall_mem_cons.mpr ⟨⟨le_refl _, own, (consecutive.bounds sizes.2).1, le_refl _⟩, fun s hs => ?_⟩
    exact (fits sizes.2 s hs).mono own (le_refl _)

/-- Sections are disjoint and lie inside of the circuit's exactly if no circuit has a negative size. -/
theorem Tiling.apart_iff (h : Tiling cs c start ss) :
    (ss.Pairwise Section.Apart ∧ ∀ s ∈ ss, s.Fits start (start + c.sizes)) ↔ ∀ s ∈ ss, 0 ≤ s.own :=
  ⟨fun fits s hs => CircuitSizes.le_add_right_iff.mp (fits.2 s hs).own,
    fun sizes => ⟨h.consecutive.apart sizes, h.fits sizes⟩⟩

end Arranged

end Circuit

end Shroud
