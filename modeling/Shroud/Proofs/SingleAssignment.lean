import Shroud.Proofs.Histories
import Shroud.Proofs.Sketch

/-!
# Single assignment

A circuit declares its temporaries one after the other, and whatever it computes or states is about variables that are
there by then. Scopes, branches that join, states taken up again and bodies that are carried out several times do not
get in the way.

**Lines.** The statements of a circuit are taken one after the other, whatever blocks they stand in.

**Sources of variables.** A variable is declared by a line before, it enters or leaves the circuit, or it holds the key
of an owner that is known in advance.

**Names of the program.** Array literals are taken over as they stand. So a circuit may be left with names of the program
in the elements of an array literal, and nowhere else.

**Results.** `SourceUnit.compile_singleAssignment_iff`: all circuits of a compiled program.
-/

namespace Shroud

/-! ## Variables of expressions and lines -/

mutual

/-- The circuit variables in an expression, with keys and randomness. -/
def Expr.circuitVars : Expr → List CircuitVar
  | .operator _ _ _ _ (some r) => r.circuitVars
  | .call _ f as _ k => f.circuitVars ++ Expr.allCircuitVars as ++ k.toList
  | .new _ as | .arrayLit _ as _ | .tuple _ as => Expr.allCircuitVars as
  | .cast _ _ e _ => e.circuitVars
  | .ident _ (.circuit v) _ => [v]
  | .member _ b (.circuit v) _ => v :: b.circuitVars
  | .member _ b (.plain _) _ => b.circuitVars
  | .index _ b k _ => b.circuitVars ++ k.circuitVars
  | .reclassify _ _ e p _ => e.circuitVars ++ p.circuitVars
  | _ => []

def Expr.allCircuitVars : List Expr → List CircuitVar
  | [] => []
  | e :: es => e.circuitVars ++ Expr.allCircuitVars es

/-- The names of the program in the elements of array literals. -/
def Expr.literalNames : Expr → List String
  | .call _ f as _ _ => (if f.namesEnum then [] else f.literalNames) ++ Expr.allLiteralNames as
  | .new _ as | .tuple _ as => Expr.allLiteralNames as
  | .arrayLit _ as _ => Expr.allSourceNames true as
  | .cast _ _ e _ => e.literalNames
  | .member _ b _ _ => b.literalNames
  | .index _ b k _ => b.literalNames ++ k.literalNames
  | .reclassify _ _ e p _ => e.literalNames ++ p.literalNames
  | _ => []

def Expr.allLiteralNames : List Expr → List String
  | [] => []
  | e :: es => e.literalNames ++ Expr.allLiteralNames es

end

theorem Expr.mem_allCircuitVars {v : CircuitVar} {es : List Expr} :
    v ∈ Expr.allCircuitVars es ↔ ∃ e ∈ es, v ∈ e.circuitVars := by
  induction es with
  | nil => simp [Expr.allCircuitVars]
  | cons e es ih => simp [Expr.allCircuitVars, ih]

theorem CircuitVar.circuitVars_read (v : CircuitVar) : v.read.circuitVars = [v] := rfl

/-- All circuit variables of an expression are among the assets that it draws on. -/
theorem Expr.Draws.circuitVars {Q : Asset → Prop} {P : CircuitVar → Prop} (value : ∀ v, Q (.value v) → P v)
    (aid : ∀ e, Q (.aid e) → ∀ v ∈ e.circuitVars, P v) (e : Expr) : e.Draws Q → ∀ v ∈ e.circuitVars, P v := by
  have all (es : List Expr) (ih : ∀ a ∈ es, a.Draws Q → ∀ v ∈ a.circuitVars, P v) (hes : Expr.AllDraws Q es) :
      ∀ v ∈ Expr.allCircuitVars es, P v := by
    intro v hv
    obtain ⟨a, ha, hv⟩ := Expr.mem_allCircuitVars.mp hv
    exact ih a ha (Expr.allDraws_iff.mp hes a ha) v hv
  have both {xs ys : List CircuitVar} (hx : ∀ v ∈ xs, P v) (hy : ∀ v ∈ ys, P v) : ∀ v ∈ xs ++ ys, P v :=
    fun v hv => (List.mem_append.mp hv).elim (hx v) (hy v)
  induction e using Expr.inductOn with
  | call i f as o k ihf ihas =>
    rintro ⟨hf, has, hk⟩
    refine both (both (ihf hf) (all as ihas has)) fun v hv => ?_
    exact aid _ (hk v (Option.mem_toList.mp hv)) v (List.mem_singleton_self v)
  | new i as ih | tuple i as ih => exact all as ih
  | arrayLit i vs k ih => exact all vs ih
  | cast i t e b ih => exact ih
  | member i e n t ih =>
    rintro ⟨he, hn⟩
    cases n with
    | plain s => exact ih he
    | circuit v => exact List.forall_mem_cons.mpr ⟨value v hn, ih he⟩
  | index i e k t ihe ihk => exact fun h => both (ihe h.1) (ihk h.2)
  | reclassify i m e p k ihe ihp => exact fun h => both (ihe h.1) (ihp h.2)
  | leaf e hl =>
    cases e with
    | ident i n t =>
      cases n with
      | plain s => exact fun _ => nofun
      | circuit v =>
        rintro (h | ⟨_, h⟩)
        · exact List.forall_mem_singleton.mpr (value v h)
        · exact fun u hu => aid v.read h u hu
    | operator i o p d r =>
      cases r with
      | none => exact fun _ => nofun
      | some r => exact fun h => aid r (h r rfl)
    | boolLit | numLit | me | all => exact fun _ => nofun
    | call | new | cast | arrayLit | tuple | member | index | reclassify => cases hl

/-- Names of the program stand inside the elements of array literals or outside of them. -/
theorem Expr.sourceNames_nil_iff (e : Expr) :
    e.sourceNames true = [] ↔ e.sourceNames false = [] ∧ e.literalNames = [] := by
  have all (es : List Expr) (ih : ∀ a ∈ es, a.sourceNames true = [] ↔ a.sourceNames false = [] ∧ a.literalNames = []) :
      Expr.allSourceNames true es = [] ↔ Expr.allSourceNames false es = [] ∧ Expr.allLiteralNames es = [] := by
    induction es with
    | nil => simp [Expr.allSourceNames, Expr.allLiteralNames]
    | cons e es ihes =>
      have rest := ihes fun a ha => ih a (List.mem_cons_of_mem _ ha)
      simp only [Expr.allSourceNames, Expr.allLiteralNames, List.append_eq_nil_iff, rest, ih e List.mem_cons_self]
      tauto
  induction e using Expr.inductOn with
  | call i f as o k ihf ihas =>
    simp only [Expr.sourceNames, Expr.literalNames, List.append_eq_nil_iff, all as ihas]
    split
    · simp
    · simp only [ihf]
      tauto
  | new i as ih | tuple i as ih => exact all as ih
  | arrayLit i vs k ih => simp [Expr.sourceNames, Expr.literalNames]
  | cast i t e b ih => exact ih
  | member i e n t ih => exact ih
  | index i e k t ihe ihk =>
    simp only [Expr.sourceNames, Expr.literalNames, List.append_eq_nil_iff, ihe, ihk]
    tauto
  | reclassify i m e p k ihe ihp =>
    simp only [Expr.sourceNames, Expr.literalNames, List.append_eq_nil_iff, ihe, ihp]
    tauto
  | leaf e hl =>
    cases e with
    | ident i n t => cases n <;> simp [Expr.sourceNames, Expr.literalNames]
    | operator | boolLit | numLit | me | all => simp [Expr.sourceNames, Expr.literalNames]
    | call | new | cast | arrayLit | tuple | member | index | reclassify => cases hl

namespace CircuitStmt

/-- The circuit variables that a line takes for granted. -/
def reads : CircuitStmt → List CircuitVar
  | .declare _ e => e.circuitVars
  | s => s.constrained

/-- The names of the program in a line, with those in array literals if asked for. -/
def sourceNames (literals : Bool) : CircuitStmt → List String
  | .declare _ e => e.sourceNames literals
  | _ => []

/-- The names of the program in the array literals of a line. -/
def literalNames : CircuitStmt → List String
  | .declare _ e => e.literalNames
  | _ => []

theorem reads_eq {s : CircuitStmt} (h : s.declared? = none) : s.reads = s.constrained := by
  cases s with
  | declare => cases h
  | comment | block | call | openGuard | closeGuard | encrypt | encryptShared | equal => rfl

theorem sourceNames_eq {s : CircuitStmt} (h : s.declared? = none) (literals : Bool) : s.sourceNames literals = [] := by
  cases s with
  | declare => cases h
  | comment | block | call | openGuard | closeGuard | encrypt | encryptShared | equal => rfl

theorem sourceNames_nil_iff (s : CircuitStmt) :
    s.sourceNames true = [] ↔ s.sourceNames false = [] ∧ s.literalNames = [] := by
  cases s with
  | declare v e => exact e.sourceNames_nil_iff
  | comment | block | call | openGuard | closeGuard | encrypt | encryptShared | equal => simp [sourceNames, literalNames]

end CircuitStmt

/-! ## Circuits -/

namespace Circuit

/-- All lines of the circuit. -/
def lines (c : Circuit) : List CircuitStmt := CircuitStmt.allLines c.body

/-- All variables that the circuit declares. -/
def declared (c : Circuit) : List CircuitVar := c.lines.filterMap CircuitStmt.declared?

/-- Each temporary is assigned once, before it is read, and nothing else is assigned or read but what comes from outside
the circuit. No name of the program is left. -/
structure SingleAssignment (c : Circuit) : Prop where
  once : ∀ v ∈ c.temporaries.vars, (c.declared.map CircuitVar.name).count v.name = 1
  temporary : ∀ v ∈ c.declared, v ∈ c.temporaries.vars
  before : ∀ earlier s later, c.lines = earlier ++ s :: later → ∀ v ∈ s.reads,
    (∃ d ∈ earlier, d.declared? = some v) ∨ c.Registers v
  inner : ∀ s ∈ c.lines, s.sourceNames true = []

end Circuit

/-! ## Phases -/

theorem split_of_append_eq {α : Type} {xs ys before after : List α} {a : α} (h : xs ++ ys = before ++ a :: after) :
    (∃ rest, xs = before ++ a :: rest) ∨ a ∈ ys ∧ xs <+: before := by
  rcases List.append_eq_append_iff.mp h with ⟨rest, rfl, rfl⟩ | ⟨rest, rfl, same⟩
  · exact .inr ⟨List.mem_append_right _ List.mem_cons_self, List.prefix_append ..⟩
  · cases rest with
    | nil =>
      exact .inr ⟨(show a :: after = ys from same) ▸ List.mem_cons_self, [], by simp⟩
    | cons b rest =>
      obtain ⟨rfl, _⟩ := List.cons_eq_cons.mp same
      exact .inl ⟨rest, rfl⟩

namespace Phase

variable {E F : Set Asset} {s t : Phase} {v : CircuitVar} {before after : List CircuitStmt}

/-- The variable is declared by one of these lines, or it comes from outside the circuit. -/
def Knows (s : Phase) (before : List CircuitStmt) (v : CircuitVar) : Prop :=
  (∃ d ∈ before, d.declared? = some v) ∨ s.Registers v

/-- What is at hand is known, and so is all that was read so far by the line that read it. -/
structure Sound (E : Set Asset) (s : Phase) : Prop where
  values : ∀ v, Asset.value v ∈ E → s.Knows s.lines v
  aids : ∀ e, Asset.aid e ∈ E → ∀ v ∈ e.circuitVars, s.Registers v
  declared : s.lines.filterMap CircuitStmt.declared? = s.names .temporary
  numbered : ∀ v ∈ s.names .temporary, ∃ k, v.Bears .temporary k ∧ k < s.count .temporary
  once : ((s.names .temporary).map CircuitVar.name).Nodup
  before : ∀ earlier l later, s.lines = earlier ++ l :: later → ∀ v ∈ l.reads, s.Knows earlier v
  inner : ∀ l ∈ s.lines, l.sourceNames false = []

theorem Registers.mono (names : ∀ r, s.names r ⊆ t.names r) (h : s.Registers v) : t.Registers v := by
  obtain ⟨r, hr, hv⟩ | key := h
  · exact .inl ⟨r, hr, names r hv⟩
  · exact .inr key

theorem Knows.mono (names : ∀ r, s.names r ⊆ t.names r) (lines : before ⊆ after) (h : s.Knows before v) :
    t.Knows after v := by
  obtain ⟨d, hd, hv⟩ | reg := h
  · exact .inl ⟨d, lines hd, hv⟩
  · exact .inr (reg.mono names)

namespace Sound

theorem mono (h : s.Sound F) (hE : E ⊆ F) : s.Sound E :=
  { h with values := fun v hv => h.values v (hE hv), aids := fun e he => h.aids e (hE he) }

/-- Guards and versions do not matter. -/
theorem alike (h : s.Sound E) (hl : t.lines = s.lines) (hc : t.count = s.count) (hn : t.names = s.names) : t.Sound E := by
  obtain ⟨gs, vs, lines, count, names⟩ := s
  obtain ⟨gs', vs', lines', count', names'⟩ := t
  cases hl
  cases hc
  cases hn
  exact ⟨h.values, h.aids, h.declared, h.numbered, h.once, h.before, h.inner⟩

theorem quiet (h : s.Sound E) (q : s.Quiet E t) : t.Sound E := by
  obtain ⟨more, hl, stated⟩ := q.lines
  have none : more.filterMap CircuitStmt.declared? = [] :=
    List.filterMap_eq_nil_iff.mpr fun l hm => (stated l hm).1
  refine ⟨fun v hv => ?_, fun e he v hv => (h.aids e he v hv).mono q.names, ?_, ?_, ?_, ?_, ?_⟩
  · exact (h.values v hv).mono q.names (hl ▸ List.subset_append_left _ _)
  · rw [hl, List.filterMap_append, none, List.append_nil, q.temporaries]
    exact h.declared
  · rw [q.temporaries]
    intro v hv
    obtain ⟨k, bears, hk⟩ := h.numbered v hv
    exact ⟨k, bears, Nat.lt_of_lt_of_le hk (q.count _)⟩
  · rw [q.temporaries]
    exact h.once
  · intro earlier l later split v hv
    rcases split_of_append_eq (hl.symm.trans split) with ⟨rest, old⟩ | ⟨new, here⟩
    · exact (h.before earlier l rest old v hv).mono q.names (List.Subset.refl _)
    · obtain ⟨quiet, known⟩ := stated l new
      rw [CircuitStmt.reads_eq quiet] at hv
      rcases known v hv with given | reg
      · exact (h.values v given).mono q.names here.subset
      · exact .inr reg
  · intro l hm
    rcases List.mem_append.mp (hl ▸ hm) with hm | hm
    · exact h.inner l hm
    · exact CircuitStmt.sourceNames_eq (stated l hm).1 _

theorem declare {e : Expr} (h : s.Sound E) (hv : s.Numbers .temporary v t) (he : e.Draws (AtHand E))
    (hl : t.lines = s.lines ++ [.declare v e]) (hc : s.Advances t)
    (hn : t.names = Function.update s.names .temporary (s.names .temporary ++ [v])) (hi : e.IsInner) :
    t.Sound (insert (.value v) E) := by
  obtain ⟨n, bears, new, used⟩ := hv
  have temporaries : t.names .temporary = s.names .temporary ++ [v] := by rw [hn, Function.update_self]
  have names (r : Series) : s.names r ⊆ t.names r := by
    by_cases hr : r = .temporary
    · rw [hr, temporaries]
      exact List.subset_append_left _ _
    · rw [hn, Function.update_of_ne hr]
      exact List.Subset.refl _
  have old {u : CircuitVar} (hu : s.Knows s.lines u) : t.Knows t.lines u :=
    hu.mono names (hl ▸ List.subset_append_left _ _)
  refine ⟨?_, ?_, ?_, ?_, ?_, ?_, ?_⟩
  · rintro u (⟨⟨⟩⟩ | hu)
    · exact .inl ⟨.declare v e, hl ▸ List.mem_append_right _ List.mem_cons_self, rfl⟩
    · exact old (h.values u hu)
  · rintro a (⟨⟨⟩⟩ | ha)
    exact fun u hu => (h.aids a ha u hu).mono names
  · rw [hl, List.filterMap_append, h.declared, temporaries]
    rfl
  · rw [temporaries]
    intro u hu
    rcases List.mem_append.mp hu with hu | hu
    · obtain ⟨k, bears, hk⟩ := h.numbered u hu
      exact ⟨k, bears, Nat.lt_of_lt_of_le hk (hc _)⟩
    · rw [List.mem_singleton.mp hu]
      exact ⟨n, bears, used⟩
  · rw [temporaries, List.map_append, List.map_singleton, List.nodup_append]
    refine ⟨h.once, List.nodup_singleton _, fun x hx y hy same => ?_⟩
    obtain ⟨u, hu, rfl⟩ := List.mem_map.mp hx
    obtain ⟨k, older, hk⟩ := h.numbered u hu
    -- a temporary with the same name would bear the new number
    have renamed : v.Bears .temporary k := by
      unfold CircuitVar.Bears at older ⊢
      rwa [same, List.mem_singleton.mp hy] at older
    have := (renamed.unique bears).2
    omega
  · intro earlier l later split u hu
    rcases split_of_append_eq (hl.symm.trans split) with ⟨rest, older⟩ | ⟨this, here⟩
    · exact (h.before earlier l rest older u hu).mono names (List.Subset.refl _)
    · rw [List.mem_singleton.mp this] at hu
      refine Expr.Draws.circuitVars (fun u hu => ?_) (fun a ha u hu => ?_) e he u hu
      · exact (h.values u hu.mem).mono names here.subset
      · exact .inr ((h.aids a ha.mem u hu).mono names)
  · intro l hm
    rcases List.mem_append.mp (hl ▸ hm) with hm | hm
    · exact h.inner l hm
    · rw [List.mem_singleton.mp hm]
      exact hi

/-- A variable from outside the circuit is at hand as a value. -/
theorem enter (h : s.Sound E) (hv : s.Registers v) : s.Sound (insert (.value v) E) := by
  refine { h with values := ?_, aids := ?_ }
  · rintro u (⟨⟨⟩⟩ | hu)
    · exact .inr hv
    · exact h.values u hu
  · rintro a (⟨⟨⟩⟩ | ha)
    exact h.aids a ha

/-- A variable from outside the circuit is at hand as an aid. -/
theorem aid (h : s.Sound E) (hv : s.Registers v) : s.Sound (insert (.aid v.read) E) := by
  refine { h with values := ?_, aids := ?_ }
  · rintro u (⟨⟨⟩⟩ | hu)
    exact h.values u hu
  · rintro a (⟨⟨⟩⟩ | ha)
    · exact List.forall_mem_singleton.mpr hv
    · exact h.aids a ha

end Sound

end Phase

/-- All phases are sound. -/
theorem Traces.sound {P : List Guard} {E F : Set Asset} {s t : Phase} {S : List Step} (h : Traces P E s S F t)
    (hs : s.Sound E) : t.Sound F := by
  induction h with
  | quiet q => exact hs.quiet q
  | andThen _ _ ih₁ ih₂ | paths _ _ _ ih₁ ih₂ => exact ih₂ (ih₁ hs)
  | declare hv _ he _ _ hl hc hn hi => exact hs.declare hv.numbers he hl hc hn hi
  | aid q hv => exact (hs.quiet q).aid hv
  | enter q hv hr => exact (hs.quiet q).enter (.inl ⟨_, hr, hv.mem⟩)
  | leave q hv => exact (hs.quiet q).enter (.inl ⟨.output, nofun, hv.mem⟩)
  | constant | serve | write | pass => exact hs
  | lose | know | resume => exact hs.alike rfl rfl rfl
  | under _ ih => exact (ih (hs.alike rfl rfl rfl)).alike rfl rfl rfl
  | scope _ _ ih => exact (ih hs).alike rfl rfl rfl
  | together _ ih | item _ ih | loop _ _ ih => exact ih hs
  | fork _ _ _ ih₁ ih₂ ih₃ => exact ih₃ (ih₂ (ih₁ hs))
  | choose _ _ _ yes _ no _ ihYes ihNo =>
    -- what one branch has at hand is not at hand in the other one
    have afterYes := (ihYes (hs.alike rfl rfl rfl)).mono yes.subset
    have afterNo := (ihNo (afterYes.alike rfl rfl rfl)).mono no.subset
    exact afterNo.alike rfl rfl rfl

/-! ## Compiled programs -/

namespace Circuit

theorem registers_iff {c : Circuit} {v : CircuitVar} : c.phase.Registers v ↔ c.Registers v := by
  constructor
  · rintro (⟨r, hr, hv⟩ | key)
    · cases r with
      | secret => exact .inl hv
      | temporary => exact (hr rfl).elim
      | input => exact .inr (.inl hv)
      | output => exact .inr (.inr (.inl hv))
    · exact .inr (.inr (.inr key))
  · rintro (hv | hv | hv | key)
    · exact .inl ⟨.secret, nofun, hv⟩
    · exact .inl ⟨.input, nofun, hv⟩
    · exact .inl ⟨.output, nofun, hv⟩
    · exact .inr key

theorem sound_empty (id : Nat) : (Circuit.empty id).phase.Sound ∅ :=
  ⟨nofun, nofun, rfl, nofun, List.nodup_nil, fun earlier _ _ h => by simp [phase, empty, CircuitStmt.allLines] at h, nofun⟩

/-- A circuit that came about from nothing is in single assignment form, up to names in array literals. -/
theorem Told.singleAssignment_iff {c : Circuit} (h : c.Told ∅) :
    c.SingleAssignment ↔ ∀ s ∈ c.lines, s.literalNames = [] := by
  obtain ⟨F, traces⟩ := h.history
  have sound : c.phase.Sound F := traces.sound (sound_empty 0)
  have declared : c.declared = c.temporaries.vars := sound.declared
  constructor
  · exact fun single s hs => ((s.sourceNames_nil_iff).mp (single.inner s hs)).2
  · intro none
    refine ⟨fun v hv => ?_, fun v hv => declared ▸ hv, fun earlier s later split v hv => ?_, fun s hs => ?_⟩
    · rw [declared]
      exact List.count_eq_one_of_mem sound.once (List.mem_map_of_mem hv)
    · exact (sound.before earlier s later split v hv).imp id registers_iff.mp
    · exact (s.sourceNames_nil_iff).mpr ⟨sound.inner s hs, none s hs⟩

end Circuit

/-- The circuits of a compiled program are in single assignment form exactly if no array literal in them is left with a
name of the program. -/
theorem SourceUnit.compile_singleAssignment_iff {u : SourceUnit} {next : Nat} {o : Options} {t : Transcript}
    {r : Compilation} (h : (u.compile next o t).2 = .ok r) (bare : r.source.Bare) :
    ∀ c ∈ r.circuits, c.SingleAssignment ↔ ∀ s ∈ c.lines, s.literalNames = [] :=
  fun c hc => (compile_bare_told h bare c hc).singleAssignment_iff

/-! ## An array literal with a name of the program -/

/-- The circuit of one function carries out another one, which is given an array with an argument of the first. -/
def listing : SourceUnit :=
  let numbers : AnnTy := .plain (.array (.plain AnnTy.uint) none)
  let one : Expr := .reclassify (.numbered 105) .reveal (.literalAt 106 1) .meLabel none
  let list : Expr := .new { Info.numbered 114 with type := some numbers } [.arrayLit (.numbered 115) [.nameAt 116 "y"] false]
  .sketch 100 "C" []
    [{ FunctionDef.sketch 102 "f" "internal" [.sketch 103 numbers "a"] [.ret default (some one)] with
        returns := [⟨104, [], AnnTy.uint.mine, none, none, none⟩], modifiers := ["internal", "pure"] },
      .sketch 107 "run" "public" [.sketch 108 AnnTy.uint.mine "x", .sketch 109 (.plain AnnTy.uint) "y"]
        [.declareAt 110 AnnTy.uint.mine "z"
          (.applyAt 111 .add [.nameAt 113 "x", .callAt 117 (.nameAt 118 "f") [list]])]]

/-- In the circuit of the first function, the argument is left in the array. -/
theorem listing_compiled : ∃ r, (listing.compile 130 .default .empty).2 = .ok r ∧ r.source.Bare ∧
    (∃ c ∈ r.circuits, c.declared ≠ [] ∧ ∀ s ∈ c.lines, s.literalNames = []) ∧
      ∃ c ∈ r.circuits, ∃ s ∈ c.lines, s.literalNames ≠ [] := by
  obtain ⟨r, hr, h⟩ := exists_ok_of_any (x := (listing.compile 130 .default .empty).2)
    (p := fun r => decide (r.source.Bare ∧ (∃ c ∈ r.circuits, c.declared ≠ [] ∧ ∀ s ∈ c.lines, s.literalNames = []) ∧
      ∃ c ∈ r.circuits, ∃ s ∈ c.lines, s.literalNames ≠ [])) (by decide +kernel)
  exact ⟨r, hr, of_decide_eq_true h⟩

theorem listing_singleAssignment_iff : ∃ r, (listing.compile 130 .default .empty).2 = .ok r ∧ r.source.Bare ∧
    (∃ c ∈ r.circuits, c.declared ≠ [] ∧ c.SingleAssignment) ∧
      ∀ c ∈ r.circuits, c.SingleAssignment ↔ ∀ s ∈ c.lines, s.literalNames = [] := by
  obtain ⟨r, hr, bare, ⟨c, hc, declares, none⟩, _⟩ := listing_compiled
  have single := SourceUnit.compile_singleAssignment_iff hr bare
  exact ⟨r, hr, bare, ⟨c, hc, declares, (single c hc).mpr none⟩, single⟩

/-- So that circuit is not in single assignment form. -/
theorem listing_not_singleAssignment : ∃ r, (listing.compile 130 .default .empty).2 = .ok r ∧
    ∃ c ∈ r.circuits, ¬ c.SingleAssignment := by
  obtain ⟨r, hr, _, _, c, hc, s, hs, left⟩ := listing_compiled
  exact ⟨r, hr, c, hc, fun single => left (s.sourceNames_nil_iff.mp (single.inner s hs)).2⟩

end Shroud
