import Mathlib.Data.List.TakeWhile
import Shroud.Options
import Shroud.Proofs.Pointwise

/-!
# Updates of several options

Several options are set by giving a list of names and values, either to override them or to take over exported settings.

**Reachable options** are those that setting options one by one leads to from the usual ones. Each option takes the same
values in all of them (`Options.accepts`), and reading an option gives the value that it was set to.

**Updates.** The entries are looked at one after the other, and each one is stored before the next is looked at. So the
entries before the first illegal one are stored and those from it on are not (`Options.Updated`). What is imported is
searched for unknown names first.

**Results.** `Options.Reachable.whole_iff`: an update that fails leaves all options alone exactly if the entries before the
illegal one give options the values that they have anyway. `halfway_not_whole`: this is not always so.
-/

namespace Shroud

namespace Datum

/-- A text among the given ones. -/
def isOneOf (names : List String) : Datum → Bool
  | .text s => names.contains s
  | _ => false

def isFlag : Datum → Bool
  | .bool _ => true
  | _ => false

def isInt : Datum → Bool
  | .int _ => true
  | _ => false

end Datum

namespace Options

variable {o p q : Options} {n : String} {v : Datum}

/-- The option exists and takes the value. The directory of the logs is left out. -/
def accepts (n : String) (v : Datum) : Bool :=
  match n with
  | "proving_scheme" => v.isOneOf ["groth16", "gm17"]
  | "main_crypto_backend" => v.isOneOf ((Backend.supporting .nonHomomorphic).map Backend.name)
  | "addhom_crypto_backend" => v.isOneOf ((Backend.supporting .additive).map Backend.name)
  | "opt_eval_constexpr_in_circuit" | "opt_cache_circuit_inputs" | "opt_cache_circuit_outputs" => v.isFlag
  | "verbosity" => v.isInt || v.isFlag
  | "is_unit_test" => true
  | _ => false

/-! ## Reachable options -/

/-- Setting options one by one leads there from the usual ones. -/
inductive Reachable : Options → Prop
  | usual : Reachable default
  | set {o p : Options} {n : String} {v : Datum} (h : Reachable o) (option : n ∈ settable) (set : o.set n v = .ok p) :
    Reachable p
  | chosen {o p : Options} {k : Hom} {v : Datum} (h : Reachable o) (set : o.setBackend k v = .ok p) : Reachable p

/-- Backends are chosen, and nothing is stored under other names than the directory of the logs. -/
structure Regular (o : Options) : Prop where
  main : o.mainBackend.isSome = true
  additive : o.additiveBackend.isSome = true
  extra : ∀ e ∈ o.extra, e.1 = "_log_dir"

/-- The value that an option has. -/
def held (o : Options) (n : String) : Option Datum :=
  match n with
  | "proving_scheme" => some o.provingScheme
  | "main_crypto_backend" => o.mainBackend.map fun b => .text b.name
  | "addhom_crypto_backend" => o.additiveBackend.map fun b => .text b.name
  | "opt_eval_constexpr_in_circuit" => some o.foldConstants
  | "opt_cache_circuit_inputs" => some o.cacheInputs
  | "opt_cache_circuit_outputs" => some o.cacheOutputs
  | "log_dir" => o.extra.lookup "_log_dir"
  | "verbosity" => some o.verbosity
  | "is_unit_test" => some o.quiet
  | _ => none

theorem settable_cases (h : n ∈ settable) : n = "proving_scheme" ∨ n = "main_crypto_backend" ∨
    n = "addhom_crypto_backend" ∨ n = "opt_eval_constexpr_in_circuit" ∨ n = "opt_cache_circuit_inputs" ∨
    n = "opt_cache_circuit_outputs" ∨ n = "log_dir" ∨ n = "verbosity" ∨ n = "is_unit_test" := by
  simpa only [settable, compilerSettings, List.cons_append, List.nil_append, List.mem_cons, List.not_mem_nil,
    or_false] using h

theorem Regular.lookup_extra (h : o.Regular) (other : n ≠ "_log_dir") : o.extra.lookup n = none :=
  List.lookup_eq_none_iff.mpr fun e he => by simpa [h.extra e he] using other

theorem Regular.get_slot (h : o.Regular) (main : n ≠ "main_crypto_backend") (additive : n ≠ "addhom_crypto_backend")
    (dir : n ≠ "_log_dir") (slot : o.slots.lookup n = some v) : o.get n = .ok v := by
  unfold get
  split
  · exact absurd rfl main
  · exact absurd rfl additive
  · simp only [List.lookup_append, h.lookup_extra dir, slot, Option.none_or, Option.some_or]

/-- Reading an option gives the value that it has. -/
theorem Regular.get_eq (h : o.Regular) (option : n ∈ settable) :
    o.get n = match o.held n with
      | some v => .ok v
      | none => .error .undefinedState := by
  obtain ⟨b, hb⟩ := Option.isSome_iff_exists.mp h.main
  obtain ⟨c, hc⟩ := Option.isSome_iff_exists.mp h.additive
  rcases settable_cases option with rfl | rfl | rfl | rfl | rfl | rfl | rfl | rfl | rfl
  · exact h.get_slot (by decide) (by decide) (by decide) rfl
  · simp only [get, held, backendName, chosen?, hb]
    rfl
  · simp only [get, held, backendName, chosen?, hc]
    rfl
  · exact h.get_slot (by decide) (by decide) (by decide) rfl
  · exact h.get_slot (by decide) (by decide) (by decide) rfl
  · exact h.get_slot (by decide) (by decide) (by decide) rfl
  · -- the directory has no usual value
    have extra := h.lookup_extra (n := "log_dir") (by decide)
    cases hd : o.extra.lookup "_log_dir" <;>
      simp [get, held, slots, List.lookup_append, List.lookup_cons, extra, fixed, changeable, hd]
  · exact h.get_slot (by decide) (by decide) (by decide) rfl
  · exact h.get_slot (by decide) (by decide) (by decide) rfl

/-! ## Setting one option -/

theorem requireChoice_texts {names : List String} :
    requireChoice v (.list (names.map .text)) = .ok () ↔ v.isOneOf names = true := by
  have same : (names.map Datum.text).any (fun y => v.same y) = v.isOneOf names := by
    rw [List.any_map]
    cases v with
    | text s => exact List.any_beq
    | real => simp [Datum.same, Datum.number?, Datum.isOneOf]
    | _ => exact List.any_eq_false.mpr fun _ _ => Bool.false_ne_true
  unfold requireChoice
  simp only [Datum.holdsItem?, same]
  cases v.isOneOf names <;> simp

theorem requireFlag_ok : requireFlag v = .ok () ↔ v.isFlag = true := by
  cases v <;> simp [requireFlag, Datum.isFlag]

theorem checked_ok {x : Except Error Unit} : (x >>= fun _ => pure q) = .ok p ↔ x = .ok () ∧ p = q := by
  rcases x with e | ⟨⟨⟩⟩
  · exact iff_of_false nofun (fun h => nomatch h.1)
  · exact ⟨fun h => ⟨rfl, (Except.ok.inj h).symm⟩, fun h => h.2 ▸ rfl⟩

theorem Regular.provingSchemes_eq (h : o.Regular) :
    o.provingSchemes = .list (["groth16", "gm17"].map .text) := by
  unfold provingSchemes storedOr
  rw [h.lookup_extra (by decide)]
  rfl

/-- The options after the choice of a backend. -/
def choose (o : Options) (k : Hom) (b : Option Backend) : Options :=
  match k with
  | .nonHomomorphic => { o with mainBackend := b }
  | .additive => { o with additiveBackend := b }

theorem setBackend_ok {k : Hom} : o.setBackend k v = .ok p ↔
    v.isOneOf ((Backend.supporting k).map Backend.name) = true ∧ p = o.choose k (Backend.ofName? v.inText) := by
  rw [← requireChoice_texts, List.map_map]
  exact checked_ok

/-- Give an option a value, without looking at the value. -/
def put (o : Options) (n : String) (v : Datum) : Options :=
  match n with
  | "proving_scheme" => { o with provingScheme := v }
  | "main_crypto_backend" => o.choose .nonHomomorphic (Backend.ofName? v.inText)
  | "addhom_crypto_backend" => o.choose .additive (Backend.ofName? v.inText)
  | "opt_eval_constexpr_in_circuit" => { o with foldConstants := v }
  | "opt_cache_circuit_inputs" => { o with cacheInputs := v }
  | "opt_cache_circuit_outputs" => { o with cacheOutputs := v }
  | "verbosity" => { o with verbosity := v }
  | "is_unit_test" => { o with quiet := v }
  | _ => o

/-- In regular options an option can be set exactly to the values that it accepts. -/
theorem Regular.set_ok_iff (h : o.Regular) (option : n ∈ settable) (dir : n ≠ "log_dir") :
    o.set n v = .ok p ↔ accepts n v = true ∧ p = o.put n v := by
  have flag {q : Options} : (requireFlag v >>= fun _ => pure q) = .ok p ↔ v.isFlag = true ∧ p = q :=
    checked_ok.trans (and_congr_left fun _ => requireFlag_ok)
  rcases settable_cases option with rfl | rfl | rfl | rfl | rfl | rfl | rfl | rfl | rfl
  · refine checked_ok.trans (and_congr_left fun _ => ?_)
    rw [h.provingSchemes_eq]
    exact requireChoice_texts
  · exact setBackend_ok
  · exact setBackend_ok
  · exact flag
  · exact flag
  · exact flag
  · exact absurd rfl dir
  · cases v with
    | int | bool => exact ⟨fun h => ⟨rfl, (Except.ok.inj h).symm⟩, fun h => h.2 ▸ rfl⟩
    | _ => exact iff_of_false nofun fun h => nomatch h.1
  · exact ⟨fun h => ⟨rfl, (Except.ok.inj h).symm⟩, fun h => h.2 ▸ rfl⟩

/-- Names of backends are read as the backends that they are names of. -/
theorem name_of_isOneOf {bs : List Backend} (h : v.isOneOf (bs.map Backend.name) = true) :
    (Backend.ofName? v.inText).map (fun b => Datum.text b.name) = some v := by
  cases v with
  | text s =>
    obtain ⟨b, -, rfl⟩ := List.mem_map.mp (List.contains_iff_mem.mp h)
    rw [Datum.inText, Backend.ofName?_name]
    rfl
  | _ => cases h

theorem isSome_of_isOneOf {bs : List Backend} (h : v.isOneOf (bs.map Backend.name) = true) :
    (Backend.ofName? v.inText).isSome = true := by
  simpa using congrArg Option.isSome (name_of_isOneOf h)

theorem held_put_self (legal : accepts n v = true) : (o.put n v).held n = some v := by
  unfold accepts at legal
  split at legal
  case h_2 | h_3 => exact name_of_isOneOf legal
  all_goals first | rfl | cases legal

theorem held_put_other {m : String} (other : m ≠ n) : (o.put n v).held m = o.held m := by
  unfold put
  split <;> unfold held <;> split <;> first | rfl | exact absurd rfl other

theorem Regular.put (h : o.Regular) (legal : accepts n v = true) : (o.put n v).Regular := by
  unfold accepts at legal
  split at legal
  case h_2 => exact ⟨isSome_of_isOneOf legal, h.additive, h.extra⟩
  case h_3 => exact ⟨h.main, isSome_of_isOneOf legal, h.extra⟩
  all_goals first | exact ⟨h.main, h.additive, h.extra⟩ | cases legal

theorem Regular.setLogDir (h : o.Regular) (set : o.setLogDir v = .ok p) : p.Regular := by
  have stored (e : String × Datum) (he : e ∈ (o.store "_log_dir" v).extra) : e.1 = "_log_dir" := by
    unfold store Datum.setEntry at he
    split at he
    · obtain ⟨d, hd, rfl⟩ := List.mem_map.mp he
      have name := h.extra d hd
      dsimp only
      split <;> exact name
    · rcases List.mem_append.mp he with he | he
      · exact h.extra e he
      · rw [List.mem_singleton.mp he]
  unfold Options.setLogDir at set
  split at set
  · split at set
    · cases set
    · cases set
      exact ⟨h.main, h.additive, stored⟩
  · cases set

theorem Reachable.regular (h : o.Reachable) : o.Regular := by
  induction h with
  | usual => exact ⟨rfl, rfl, nofun⟩
  | @set o p n v _ option set ih =>
    by_cases dir : n = "log_dir"
    · subst dir
      exact ih.setLogDir set
    · obtain ⟨legal, rfl⟩ := (ih.set_ok_iff option dir).mp set
      exact ih.put legal
  | @chosen o p k v _ set ih =>
    obtain ⟨legal, rfl⟩ := setBackend_ok.mp set
    cases k with
    | nonHomomorphic => exact ⟨isSome_of_isOneOf legal, ih.additive, ih.extra⟩
    | additive => exact ⟨ih.main, isSome_of_isOneOf legal, ih.extra⟩

/-! ## Setting several options -/

/-- Give several options values, one after the other. -/
def putAll (o : Options) (es : List (String × Datum)) : Options := es.foldl (fun o e => o.put e.1 e.2) o

/-- The entries before the first one that is not accepted. -/
def acceptedPart (es : List (String × Datum)) : List (String × Datum) := es.takeWhile fun e => accepts e.1 e.2

/-- Setting options one after the other stores the entries before the first one that is not accepted. -/
theorem Regular.setAll {step : Options → String × Datum → Except Error Options} {es : List (String × Datum)}
    (h : o.Regular)
    (one : ∀ o : Options, o.Regular → ∀ e ∈ es, ∀ p, step o e = .ok p ↔ accepts e.1 e.2 = true ∧ p = o.put e.1 e.2) :
    (o.setAll step es).1 = o.putAll (acceptedPart es) ∧
      ((o.setAll step es).2 = .ok () ↔ ∀ e ∈ es, accepts e.1 e.2 = true) := by
  induction es generalizing o with
  | nil => exact ⟨rfl, iff_of_true rfl nofun⟩
  | cons e es ih =>
    have here := one o h e List.mem_cons_self
    cases hs : step o e with
    | error =>
      have refused : ¬accepts e.1 e.2 = true := fun legal => by
        rw [(here _).mpr ⟨legal, rfl⟩] at hs
        cases hs
      unfold Options.setAll acceptedPart
      rw [List.takeWhile_cons, if_neg refused, hs]
      exact ⟨rfl, iff_of_false nofun fun all => refused (all e List.mem_cons_self)⟩
    | ok p =>
      obtain ⟨legal, rfl⟩ := (here p).mp hs
      obtain ⟨stored, complete⟩ := ih (h.put legal) fun o ho d hd => one o ho d (List.mem_cons_of_mem _ hd)
      unfold Options.setAll acceptedPart
      rw [List.takeWhile_cons, if_pos legal, hs]
      exact ⟨stored, complete.trans (by rw [List.forall_mem_cons, and_iff_right legal])⟩

theorem Regular.putAll {es : List (String × Datum)} (h : o.Regular) (legal : ∀ e ∈ es, accepts e.1 e.2 = true) :
    (o.putAll es).Regular := by
  induction es generalizing o with
  | nil => exact h
  | cons e es ih =>
    exact ih (h.put (legal e List.mem_cons_self)) fun d hd => legal d (List.mem_cons_of_mem _ hd)

theorem held_putAll_other {es : List (String × Datum)} (other : n ∉ es.map (·.1)) : (o.putAll es).held n = o.held n := by
  induction es generalizing o with
  | nil => rfl
  | cons e es ih =>
    rw [List.map_cons, List.mem_cons, not_or] at other
    exact (ih other.2).trans (held_put_other other.1)

theorem held_putAll {es : List (String × Datum)} (legal : ∀ e ∈ es, accepts e.1 e.2 = true)
    (distinct : (es.map (·.1)).Nodup) : ∀ e ∈ es, (o.putAll es).held e.1 = some e.2 := by
  induction es generalizing o with
  | nil => nofun
  | cons d es ih =>
    rw [List.map_cons, List.nodup_cons] at distinct
    intro e he
    rcases List.mem_cons.mp he with rfl | he
    · exact (held_putAll_other distinct.1).trans (held_put_self (legal e List.mem_cons_self))
    · exact ih (fun d hd => legal d (List.mem_cons_of_mem _ hd)) distinct.2 e he

/-- The options that the entries name have the given values, and all others have the values they had. -/
structure Updated (o : Options) (es : List (String × Datum)) (p : Options) : Prop where
  named : ∀ e ∈ es, p.get e.1 = .ok e.2
  others : ∀ m ∈ settable, m ∉ es.map (·.1) → p.get m = o.get m

/-- All entries were stored, or the update failed and all options have the values they had. -/
def Whole (o : Options) (es : List (String × Datum)) (r : Options × Except Error Unit) : Prop :=
  match r.2 with
  | .ok _ => o.Updated es r.1
  | .error _ => o.Updated [] r.1

theorem settable_of_accepts (h : accepts n v = true) : n ∈ settable := by
  unfold accepts at h
  split at h
  all_goals first | decide | cases h

theorem Regular.updated {es : List (String × Datum)} (h : o.Regular) (legal : ∀ e ∈ es, accepts e.1 e.2 = true)
    (distinct : (es.map (·.1)).Nodup) : o.Updated es (o.putAll es) := by
  have regular := h.putAll legal
  refine ⟨fun e he => ?_, fun m option other => ?_⟩
  · rw [regular.get_eq (settable_of_accepts (legal e he)), held_putAll legal distinct e he]
  · rw [regular.get_eq option, h.get_eq option, held_putAll_other other]

theorem acceptedPart_accepts (es : List (String × Datum)) : ∀ e ∈ acceptedPart es, accepts e.1 e.2 = true :=
  fun _ he => List.mem_takeWhile_imp (p := fun e : String × Datum => accepts e.1 e.2) he

theorem acceptedPart_eq_self {es : List (String × Datum)} (h : ∀ e ∈ es, accepts e.1 e.2 = true) :
    acceptedPart es = es :=
  List.takeWhile_eq_self_iff.mpr h

theorem acceptedPart_nodup {es : List (String × Datum)} (distinct : (es.map (·.1)).Nodup) :
    ((acceptedPart es).map (·.1)).Nodup :=
  distinct.sublist ((List.takeWhile_sublist _).map _)

/-- An update stores the entries before the first one that is not accepted, and it succeeds if there is none. It is whole
if it succeeds, and otherwise exactly if the entries that were stored name values that the options had anyway. -/
structure Applied (o : Options) (es : List (String × Datum)) (r : Options × Except Error Unit) : Prop where
  stored : o.Updated (acceptedPart es) r.1
  complete : r.2 = .ok () ↔ ∀ e ∈ es, accepts e.1 e.2 = true
  whole : o.Whole es r ↔ (∀ e ∈ es, accepts e.1 e.2 = true) ∨ ∀ e ∈ acceptedPart es, o.get e.1 = .ok e.2

theorem Regular.applied {es : List (String × Datum)} {r : Options × Except Error Unit} (h : o.Regular)
    (distinct : (es.map (·.1)).Nodup) (result : r.1 = o.putAll (acceptedPart es))
    (complete : r.2 = .ok () ↔ ∀ e ∈ es, accepts e.1 e.2 = true) : o.Applied es r := by
  have stored : o.Updated (acceptedPart es) r.1 :=
    result ▸ h.updated (acceptedPart_accepts es) (acceptedPart_nodup distinct)
  refine ⟨stored, complete, ?_⟩
  unfold Whole
  cases outcome : r.2 with
  | ok =>
    have all := complete.mp outcome
    rw [acceptedPart_eq_self all] at stored
    exact iff_of_true stored (.inl all)
  | error =>
    have refused : ¬∀ e ∈ es, accepts e.1 e.2 = true := fun all => by
      rw [complete.mpr all] at outcome
      cases outcome
    refine Iff.trans ⟨fun same e he => ?_, fun same => ⟨nofun, fun m option _ => ?_⟩⟩ (or_iff_right refused).symm
    · rw [← same.others _ (settable_of_accepts (acceptedPart_accepts es e he)) List.not_mem_nil]
      exact stored.named e he
    · by_cases named : m ∈ (acceptedPart es).map (·.1)
      · obtain ⟨e, he, rfl⟩ := List.mem_map.mp named
        rw [stored.named e he, same e he]
      · exact stored.others m option named

theorem Regular.override {es : List (String × Datum)} (h : o.Regular) (distinct : (es.map (·.1)).Nodup)
    (dir : "log_dir" ∉ es.map (·.1)) : o.Applied es (o.override es) := by
  refine And.elim (h.applied distinct) (h.setAll fun o ho e he p => ?_)
  obtain ⟨n, v⟩ := e
  dsimp only
  by_cases option : n ∈ settable
  · rw [← ho.set_ok_iff option fun same => dir (same ▸ List.mem_map_of_mem he), List.contains_iff_mem.mpr option]
    simp only [Bool.not_true, Bool.false_eq_true, if_false]
    split
    · rename_i failed
      rw [failed]
      constructor <;> intro h <;> cases h
    · exact Iff.rfl
  · have unknown : settable.contains n = false := by simpa using option
    simp only [unknown, Bool.not_false, if_true]
    refine ⟨fun h => ?_, fun h => absurd (settable_of_accepts h.1) option⟩
    cases h

theorem Regular.exported_eq (h : o.Regular) : o.exported = .list (compilerSettings.map .text) := by
  unfold exported storedOr
  rw [h.lookup_extra (by decide)]
  rfl

theorem Regular.imports (h : o.Regular) (n : String) :
    o.exported.holdsItem? (.text n) = some (compilerSettings.contains n) := by
  rw [h.exported_eq]
  simp only [Datum.holdsItem?, List.any_map]
  exact congrArg some List.any_beq

theorem Regular.importSettings {es : List (String × Datum)} (h : o.Regular) (distinct : (es.map (·.1)).Nodup) :
    ((∀ e ∈ es, e.1 ∈ compilerSettings) → o.Applied es (o.importSettings es)) ∧
    ((∃ e ∈ es, e.1 ∉ compilerSettings) → ∃ error, o.importSettings es = (o, .error error)) := by
  have unknown (e : String × Datum) : (o.exported.holdsItem? (.text e.1) != some true) = true ↔ e.1 ∉ compilerSettings := by
    rw [h.imports]
    simp
  unfold Options.importSettings
  split
  · rename_i found
    have foreign := (unknown _).mp
      (List.find?_some (p := fun e : String × Datum => o.exported.holdsItem? (.text e.1) != some true) found)
    exact ⟨fun known => absurd (known _ (List.mem_of_find?_eq_some found)) foreign, fun _ => ⟨_, rfl⟩⟩
  · rename_i none
    have known (e : String × Datum) (he : e ∈ es) : e.1 ∈ compilerSettings := by
      have := List.find?_eq_none.mp none e he
      rwa [unknown, not_not] at this
    refine ⟨fun _ => ?_, fun ⟨e, he, foreign⟩ => absurd (known e he) foreign⟩
    have one (o : Options) (ho : o.Regular) (e : String × Datum) (he : e ∈ es) (p : Options) :
        o.set e.1 e.2 = .ok p ↔ accepts e.1 e.2 = true ∧ p = o.put e.1 e.2 :=
      ho.set_ok_iff (List.mem_append_left _ (known e he)) fun same => by
        have := known e he
        rw [same] at this
        exact absurd this (by decide)
    obtain ⟨result, complete⟩ := h.setAll one
    exact h.applied distinct result complete

/-- Both ways of setting several options store the entries before the first one that is not accepted and succeed if there
is none. So an update that fails leaves all options alone exactly if these entries give options the values that they have.
Unknown names among settings that are imported are found before anything is stored. -/
theorem Reachable.whole_iff (h : o.Reachable) {es : List (String × Datum)} (distinct : (es.map (·.1)).Nodup)
    (dir : "log_dir" ∉ es.map (·.1)) :
    o.Applied es (o.override es) ∧
    ((∀ e ∈ es, e.1 ∈ compilerSettings) → o.Applied es (o.importSettings es)) ∧
    ((∃ e ∈ es, e.1 ∉ compilerSettings) →
      (∃ error, o.importSettings es = (o, .error error)) ∧ o.Whole es (o.importSettings es)) := by
  obtain ⟨known, unknown⟩ := h.regular.importSettings distinct
  refine ⟨h.regular.override distinct dir, known, fun foreign => ?_⟩
  obtain ⟨error, same⟩ := unknown foreign
  refine ⟨⟨error, same⟩, ?_⟩
  rw [same]
  exact ⟨nofun, fun _ _ _ => rfl⟩

/-- A legal value for one option, and another option that does not exist. -/
def halfway : List (String × Datum) := [("opt_cache_circuit_inputs", .bool false), ("unknown_option", .int 1)]

/-- The first value is what the option has from the beginning. -/
theorem repeating_whole : default.Whole [("verbosity", .int 1), ("proving_scheme", .text "none")]
    (default.override [("verbosity", .int 1), ("proving_scheme", .text "none")]) := by
  refine (Reachable.usual.whole_iff (by decide) (by decide)).1.whole.mpr (.inr fun e he => ?_)
  rw [List.mem_singleton.mp (show e ∈ [("verbosity", Datum.int 1)] from he)]
  rfl

/-- The legal value stays although the update fails. -/
theorem halfway_not_whole : Reachable default ∧ ¬default.Whole halfway (default.override halfway) := by
  refine ⟨.usual, fun whole => ?_⟩
  have same := whole.others "opt_cache_circuit_inputs" (by decide) List.not_mem_nil
  cases same

end Options

end Shroud
