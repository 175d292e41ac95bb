import Mathlib.Data.Finset.Prod
import Mathlib.Logic.Relation
import Shroud.Proofs.CallGraph
import Shroud.Proofs.Sketch

/-!
# Homomorphisms that functions share

A function uses the homomorphisms of its own private values and those of all functions that it reaches by calls. They
travel against the calls: a waiting function tells its callers, and a caller that hears something new waits in turn.

**Exact.** What a function is known to use comes from functions that it reaches at all times (`HomSpread.Partial`).
A callee of whose homomorphisms a caller does not know yet is waiting or about to tell it (`HomSpread.Heard`), so nothing is
missing at the end.

**Finite.** Whoever waits a second time has heard of a homomorphism that it did not know of before
(`HomSpread.left_tell`), whatever cycles the calls form.

## Results

- `spreadHoms_exact`: the search ends, with what each function reaches and whatever the order of the functions.
- `SourceUnit.markHoms_homs`: what the functions of a program are marked with.
-/

namespace Shroud

namespace Hom

theorem mem_ordered {hs : List Hom} {h : Hom} : h ∈ ordered hs ↔ h ∈ hs := by
  simp [ordered, mem_all]

theorem ordered_congr {hs ks : List Hom} (same : ∀ h, h ∈ hs ↔ h ∈ ks) : ordered hs = ordered ks :=
  List.filter_congr fun h _ => by rw [Bool.eq_iff_iff, List.contains_iff_mem, List.contains_iff_mem, same]

theorem ordered_ordered (hs : List Hom) : ordered (ordered hs) = ordered hs := ordered_congr fun _ => mem_ordered

end Hom

/-! ## Calls within a list of functions -/

section Calls

variable (fs : List FunctionDef)

/-- Both functions are in the list, and the first one calls the second one. -/
def CallsIn (f g : FunctionDef) : Prop := f ∈ fs ∧ g ∈ fs ∧ g.id ∈ f.facts.calls

/-- The function or one that it reaches within the list has the homomorphism. -/
def UsesIn (f : FunctionDef) (h : Hom) : Prop := ∃ g, Relation.ReflTransGen (CallsIn fs) f g ∧ h ∈ g.facts.homs

/-- Functions with the same number are the same. -/
def Identified : Prop := ∀ f ∈ fs, ∀ g ∈ fs, f.id = g.id → f = g

variable {fs}

theorem UsesIn.caller {f g : FunctionDef} {h : Hom} (call : CallsIn fs f g) (uses : UsesIn fs g h) : UsesIn fs f h :=
  uses.imp fun _ u => u.imp_left (.head call)

theorem mem_callersIn {i j : Nat} : i ∈ callersIn fs j ↔ i ≠ j ∧ ∃ f ∈ fs, f.id = i ∧ j ∈ f.facts.calls := by
  simp only [callersIn, List.mem_map, List.mem_filter, Bool.and_eq_true, List.contains_iff_mem, bne_iff_ne]
  constructor
  · rintro ⟨f, ⟨hf, calls, other⟩, rfl⟩
    exact ⟨other, f, hf, rfl, calls⟩
  · rintro ⟨other, f, hf, rfl, calls⟩
    exact ⟨f, ⟨hf, calls, other⟩, rfl⟩

theorem Identified.of_nodup (h : (fs.map (·.id)).Nodup) : Identified fs :=
  fun _ hf _ hg same => List.inj_on_of_nodup_map h hf hg same

theorem Identified.perm {gs : List FunctionDef} (same : Identified fs) (h : gs.Perm fs) : Identified gs :=
  fun f hf g hg => same f (h.subset hf) g (h.subset hg)

theorem UsesIn.perm {gs : List FunctionDef} (p : gs.Perm fs) {f : FunctionDef} {h : Hom} :
    UsesIn gs f h ↔ UsesIn fs f h := by
  have calls : CallsIn gs = CallsIn fs := by
    funext f g
    rw [CallsIn, CallsIn, p.mem_iff, p.mem_iff]
  rw [UsesIn, UsesIn, calls]

end Calls

namespace HomSpread

variable {fs : List FunctionDef} {s : HomSpread} {i j : Nat} {h : Hom}

/-! ## One caller -/

theorem lookup_map_snd {α : Type} (entries : List (Nat × α)) (update : Nat → α → α) (i : Nat) :
    (entries.map fun e => (e.1, update e.1 e.2)).lookup i = (entries.lookup i).map (update i) := by
  induction entries with
  | nil => rfl
  | cons e entries ih =>
    rw [List.map_cons, List.lookup_cons, List.lookup_cons, ih]
    cases same : i == e.1 with
    | false => rfl
    | true => rw [eq_of_beq same]; rfl

theorem tell_of_subset (known : s.homs j ⊆ s.homs i) : s.tell j i = s :=
  if_pos (List.all_eq_true.mpr fun _ hh => List.contains_iff_mem.mpr (known hh))

theorem tell_of_new (new : ¬s.homs j ⊆ s.homs i) : s.tell j i =
    { known := s.known.map fun e => (e.1, if e.1 == i then Hom.ordered (e.2 ++ s.homs j) else e.2)
      pending := s.pending ++ [i] } :=
  if_neg fun all => new fun _ hh => List.contains_iff_mem.mp (List.all_eq_true.mp all _ hh)

theorem homs_of_unknown (hi : i ∉ s.known.map (·.1)) : s.homs i = [] := by
  unfold homs
  rw [List.lookup_eq_none_iff.mpr fun e he => by
    simpa using fun same : i = e.1 => hi (same ▸ List.mem_map_of_mem he)]
  rfl

@[simp] theorem keys_tell (i j : Nat) : (s.tell j i).known.map (·.1) = s.known.map (·.1) := by
  by_cases new : s.homs j ⊆ s.homs i
  · rw [tell_of_subset new]
  · rw [tell_of_new new, List.map_map]
    rfl

theorem homs_tell_of_new (new : ¬s.homs j ⊆ s.homs i) (k : Nat) : (s.tell j i).homs k =
    ((s.known.lookup k).map fun hs => if k == i then Hom.ordered (hs ++ s.homs j) else hs).getD [] := by
  rw [tell_of_new new]
  exact congrArg (·.getD []) (lookup_map_snd s.known (fun g hs => if g == i then Hom.ordered (hs ++ s.homs j) else hs) k)

theorem homs_tell_of_ne {k : Nat} (other : k ≠ i) : (s.tell j i).homs k = s.homs k := by
  by_cases new : s.homs j ⊆ s.homs i
  · rw [tell_of_subset new]
  · rw [homs_tell_of_new new, beq_false_of_ne other]
    simp [homs]

/-- The caller knows of what it used before and what the callee uses. -/
theorem homs_tell_self (hi : i ∈ s.known.map (·.1)) (listed : Hom.ordered (s.homs i) = s.homs i) :
    (s.tell j i).homs i = Hom.ordered (s.homs i ++ s.homs j) := by
  by_cases new : s.homs j ⊆ s.homs i
  · rw [tell_of_subset new, ← listed]
    refine Hom.ordered_congr fun h => ?_
    rw [listed, List.mem_append]
    exact ⟨.inl, fun hh => hh.elim id (new ·)⟩
  · obtain ⟨hs, found⟩ : ∃ hs, s.known.lookup i = some hs := by
      rw [← Option.ne_none_iff_exists']
      obtain ⟨e, he, rfl⟩ := List.mem_map.mp hi
      exact fun none => by simpa using List.lookup_eq_none_iff.mp none e he
    have mine : s.homs i = hs := by rw [homs, found]; rfl
    rw [homs_tell_of_new new, found, mine]
    exact if_pos (beq_self_eq_true i)

theorem pending_tell_subset : s.pending ⊆ (s.tell j i).pending := by
  by_cases new : s.homs j ⊆ s.homs i
  · rw [tell_of_subset new]
    exact List.Subset.refl _
  · rw [tell_of_new new]
    exact List.subset_append_left _ _

/-! ## What holds at all times -/

/-- Everything a function is known to use comes from a function that it reaches, its own homomorphisms are among it, and
only functions of the list wait. -/
structure Partial (fs : List FunctionDef) (s : HomSpread) : Prop where
  keys : s.known.map (·.1) = fs.map (·.id)
  waiting : s.pending ⊆ fs.map (·.id)
  listed : ∀ i, Hom.ordered (s.homs i) = s.homs i
  own : ∀ f ∈ fs, f.facts.homs ⊆ s.homs f.id
  used : ∀ f ∈ fs, ∀ h ∈ s.homs f.id, UsesIn fs f h

/-- A caller knows of all that its callee is known to use, unless the callee is waiting or is about to tell it. -/
def Heard (fs : List FunctionDef) (untold : Nat → Nat → Prop) (s : HomSpread) : Prop :=
  ∀ f g, CallsIn fs f g → s.homs g.id ⊆ s.homs f.id ∨ g.id ∈ s.pending ∨ untold g.id f.id

section Tell

variable {f g : FunctionDef}

theorem Partial.homs_self (p : Partial fs s) (hf : f ∈ fs) :
    (s.tell j f.id).homs f.id = Hom.ordered (s.homs f.id ++ s.homs j) :=
  homs_tell_self (p.keys ▸ List.mem_map_of_mem hf) (p.listed _)

theorem Partial.homs_subset (p : Partial fs s) (hf : f ∈ fs) (k : Nat) : s.homs k ⊆ (s.tell j f.id).homs k := by
  by_cases mine : k = f.id
  · rw [mine, p.homs_self hf]
    exact fun h hh => Hom.mem_ordered.mpr (List.mem_append_left _ hh)
  · rw [homs_tell_of_ne mine]
    exact List.Subset.refl _

theorem Partial.tell (same : Identified fs) (p : Partial fs s) (call : CallsIn fs f g) :
    Partial fs (s.tell g.id f.id) where
  keys := by rw [keys_tell, p.keys]
  waiting := by
    by_cases new : s.homs g.id ⊆ s.homs f.id
    · rw [tell_of_subset new]
      exact p.waiting
    · rw [tell_of_new new]
      refine List.append_subset.mpr ⟨p.waiting, List.cons_subset.mpr ⟨List.mem_map_of_mem call.1, List.nil_subset _⟩⟩
  listed i := by
    by_cases mine : i = f.id
    · rw [mine, p.homs_self call.1, Hom.ordered_ordered]
    · rw [homs_tell_of_ne mine, p.listed]
  own k hk := List.Subset.trans (p.own k hk) (p.homs_subset call.1 _)
  used k hk h hh := by
    by_cases mine : k.id = f.id
    · rw [mine, p.homs_self call.1, Hom.mem_ordered, List.mem_append] at hh
      rw [same k hk f call.1 mine]
      exact hh.elim (p.used f call.1 h) fun hh => (p.used g call.2.1 h hh).caller call
    · rw [homs_tell_of_ne mine] at hh
      exact p.used k hk h hh

/-- A caller that learns something waits, so its own callers need not have heard of it. -/
theorem Heard.tell {callers : List Nat} (p : Partial fs s) (hf : f ∈ fs) (other : f.id ≠ g.id)
    (heard : Heard fs (fun j i => j = g.id ∧ i ∈ f.id :: callers) s) :
    Heard fs (fun j i => j = g.id ∧ i ∈ callers) (s.tell g.id f.id) := by
  intro k l call
  have grown {ls : List Hom} (known : ls ⊆ s.homs k.id) : ls ⊆ (s.tell g.id f.id).homs k.id :=
    List.Subset.trans known (p.homs_subset hf _)
  by_cases mine : l.id = f.id
  · by_cases new : s.homs g.id ⊆ s.homs f.id
    · rw [tell_of_subset new]
      exact (heard k l call).imp_right (Or.imp_right fun untold => absurd (mine.symm.trans untold.1) other)
    · refine .inr (.inl ?_)
      rw [tell_of_new new, mine]
      exact List.mem_append_right _ List.mem_cons_self
  · rw [homs_tell_of_ne mine]
    rcases heard k l call with known | waiting | ⟨hl, hk⟩
    · exact .inl (grown known)
    · exact .inr (.inl (pending_tell_subset waiting))
    · rcases List.mem_cons.mp hk with told | hk
      · rw [hl, told, p.homs_self hf]
        exact .inl fun h hh => Hom.mem_ordered.mpr (List.mem_append_right _ hh)
      · exact .inr (.inr ⟨hl, hk⟩)

/-- The homomorphisms that functions are not known to use. -/
def missing (fs : List FunctionDef) (s : HomSpread) : Finset (Nat × Hom) :=
  ((fs.map (·.id)).toFinset ×ˢ Hom.all.toFinset).filter fun e => e.2 ∉ s.homs e.1

/-- How often functions can still wait. -/
def left (fs : List FunctionDef) (s : HomSpread) : Nat := s.pending.length + (s.missing fs).card

theorem mem_missing {e : Nat × Hom} : e ∈ s.missing fs ↔ e.1 ∈ fs.map (·.id) ∧ e.2 ∉ s.homs e.1 := by
  simp [missing, Hom.mem_all]

theorem Partial.left_tell (p : Partial fs s) (hf : f ∈ fs) : (s.tell j f.id).left fs ≤ s.left fs := by
  by_cases new : s.homs j ⊆ s.homs f.id
  · rw [tell_of_subset new]
  · have fewer : ((s.tell j f.id).missing fs).card < (s.missing fs).card := by
      obtain ⟨h, hh, lacking⟩ : ∃ h ∈ s.homs j, h ∉ s.homs f.id := by simpa [List.subset_def] using new
      have fewer : (s.tell j f.id).missing fs ⊆ s.missing fs := fun e he => by
        rw [mem_missing] at he ⊢
        exact he.imp_right fun fresh known => fresh (p.homs_subset hf _ known)
      refine Finset.card_lt_card ((Finset.ssubset_iff_of_subset fewer).mpr ⟨(f.id, h), ?_, ?_⟩)
      · exact mem_missing.mpr ⟨List.mem_map_of_mem hf, lacking⟩
      · rw [mem_missing, p.homs_self hf, Hom.mem_ordered]
        exact fun still => still.2 (List.mem_append_right _ hh)
    have longer : (s.tell j f.id).pending.length = s.pending.length + 1 := by
      rw [tell_of_new new, List.length_append]
      rfl
    unfold left
    omega

end Tell

/-! ## All callers of a function -/

section Step

variable {g : FunctionDef} {callers : List Nat}

/-- The callers of a function hear from it one after the other. -/
theorem Partial.tellAll (same : Identified fs) (hg : g ∈ fs) (p : Partial fs s)
    (calling : ∀ i ∈ callers, i ∈ callersIn fs g.id) (heard : Heard fs (fun j i => j = g.id ∧ i ∈ callers) s) :
    Partial fs (callers.foldl (·.tell g.id ·) s) ∧
      Heard fs (fun _ _ => False) (callers.foldl (·.tell g.id ·) s) ∧
      (callers.foldl (·.tell g.id ·) s).left fs ≤ s.left fs := by
  induction callers generalizing s with
  | nil => exact ⟨p, fun f g call => by simpa using heard f g call, Nat.le_refl _⟩
  | cons i callers ih =>
    obtain ⟨other, f, hf, rfl, calls⟩ := mem_callersIn.mp (calling i List.mem_cons_self)
    obtain ⟨p', heard', less⟩ := ih (p.tell same ⟨hf, hg, calls⟩) (fun i hi => calling i (List.mem_cons_of_mem _ hi))
      (heard.tell p hf other)
    exact ⟨p', heard', less.trans (p.left_tell hf)⟩

/-- A step keeps what holds at all times, and one function less waits in the end. -/
theorem Partial.step {s' : HomSpread} (same : Identified fs) (p : Partial fs s) (heard : Heard fs (fun _ _ => False) s)
    (hs : s.step (callersIn fs) = some s') :
    Partial fs s' ∧ Heard fs (fun _ _ => False) s' ∧ s'.left fs < s.left fs := by
  obtain ⟨j, last, rfl⟩ := Option.map_eq_some_iff.mp hs
  have waits : s.pending = s.pending.dropLast ++ [j] := (List.dropLast_append_getLast? j last).symm
  obtain ⟨g, hg, rfl⟩ := List.mem_map.mp (p.waiting (List.mem_of_getLast? last))
  have popped : Partial fs { s with pending := s.pending.dropLast } :=
    ⟨p.keys, fun i hi => p.waiting (List.dropLast_subset _ hi), p.listed, p.own, p.used⟩
  have heard : Heard fs (fun j i => j = g.id ∧ i ∈ callersIn fs g.id) { s with pending := s.pending.dropLast } := by
    intro f k call
    rcases heard f k call with known | waiting | none
    · exact .inl known
    · rw [waits, List.mem_append, List.mem_singleton] at waiting
      rcases waiting with waiting | popped
      · exact .inr (.inl waiting)
      · by_cases self : f.id = k.id
        · rw [self]
          exact .inl (List.Subset.refl _)
        · exact .inr (.inr ⟨popped, popped ▸ mem_callersIn.mpr ⟨self, f, call.1, rfl, call.2.2⟩⟩)
    · exact none.elim
  obtain ⟨p', heard', less⟩ := popped.tellAll same hg (fun _ hi => hi) heard
  have shorter : s.pending.length = s.pending.dropLast.length + 1 := by
    conv_lhs => rw [waits, List.length_append]
    rfl
  exact ⟨p', heard', lt_of_le_of_lt less (by rw [left, left, shorter]; exact Nat.add_lt_add_right (Nat.lt_succ_self _) _)⟩

end Step

/-! ## The whole search -/

theorem Partial.run (same : Identified fs) {n : Nat} (p : Partial fs s) (heard : Heard fs (fun _ _ => False) s)
    (enough : s.left fs ≤ n) :
    Partial fs (s.run (callersIn fs) n) ∧ Heard fs (fun _ _ => False) (s.run (callersIn fs) n) ∧
      (s.run (callersIn fs) n).pending = [] := by
  induction n generalizing s with
  | zero =>
    rw [Nat.le_zero, left, Nat.add_eq_zero_iff] at enough
    exact ⟨p, heard, List.length_eq_zero_iff.mp enough.1⟩
  | succ n ih =>
    unfold HomSpread.run
    split
    · rename_i none
      exact ⟨p, heard, List.getLast?_eq_none_iff.mp (Option.map_eq_none_iff.mp none)⟩
    · rename_i s' hs
      obtain ⟨p', heard', less⟩ := p.step same heard hs
      exact ih p' heard' (by omega)

theorem homs_ofFunctions {f : FunctionDef} (same : Identified fs) (hf : f ∈ fs) :
    (ofFunctions fs).homs f.id = Hom.ordered f.facts.homs := by
  have known : ((ofFunctions fs).known.lookup f.id).isSome = true := by
    rw [List.lookup_isSome_iff]
    exact ⟨_, List.mem_map_of_mem hf, beq_self_eq_true _⟩
  obtain ⟨hs, found⟩ := Option.isSome_iff_exists.mp known
  obtain ⟨g, hg, entry⟩ := List.mem_map.mp (mem_of_lookup found)
  rw [Prod.mk.injEq] at entry
  rw [homs, found, ← entry.2, same g hg f hf entry.1]
  rfl

theorem Partial.first (same : Identified fs) : Partial fs (ofFunctions fs) where
  keys := by simp [ofFunctions]
  waiting := by
    intro i hi
    obtain ⟨f, hf, rfl⟩ := List.mem_map.mp hi
    exact List.mem_map_of_mem (List.mem_of_mem_filter hf)
  listed i := by
    by_cases hi : i ∈ fs.map (·.id)
    · obtain ⟨f, hf, rfl⟩ := List.mem_map.mp hi
      rw [homs_ofFunctions same hf, Hom.ordered_ordered]
    · rw [homs_of_unknown (by simpa [ofFunctions] using hi)]
      rfl
  own f hf h hh := by
    rw [homs_ofFunctions same hf]
    exact Hom.mem_ordered.mpr hh
  used f hf h hh := by
    rw [homs_ofFunctions same hf, Hom.mem_ordered] at hh
    exact ⟨f, .refl, hh⟩

/-- Whoever does not wait at the beginning has nothing to tell. -/
theorem heard_first (same : Identified fs) : Heard fs (fun _ _ => False) (ofFunctions fs) := by
  intro f g call
  by_cases none : g.facts.homs = []
  · rw [homs_ofFunctions same call.2.1, none]
    exact .inl (List.nil_subset _)
  · refine .inr (.inl (List.mem_map_of_mem (List.mem_filter.mpr ⟨call.2.1, ?_⟩)))
    simpa using none

theorem left_first (fs : List FunctionDef) : (ofFunctions fs).left fs ≤ (Hom.all.length + 1) * fs.length := by
  have waiting : (ofFunctions fs).pending.length ≤ fs.length := by
    rw [ofFunctions, List.length_map]
    exact List.length_filter_le _ _
  have lacking : ((ofFunctions fs).missing fs).card ≤ fs.length * Hom.all.length := by
    refine (Finset.card_filter_le _ _).trans ?_
    rw [Finset.card_product]
    refine Nat.mul_le_mul ?_ (List.toFinset_card_le _)
    simpa using List.toFinset_card_le (fs.map (·.id))
  rw [left, Nat.succ_mul, Nat.mul_comm Hom.all.length]
  omega

/-- When nobody waits, a function knows of everything that those it reaches have. -/
theorem Partial.homs_iff {f : FunctionDef} (p : Partial fs s) (heard : Heard fs (fun _ _ => False) s)
    (rest : s.pending = []) (hf : f ∈ fs) : h ∈ s.homs f.id ↔ UsesIn fs f h := by
  refine ⟨p.used f hf h, fun ⟨g, reaches, hh⟩ => ?_⟩
  induction reaches using Relation.ReflTransGen.head_induction_on with
  | refl => exact p.own g hf hh
  | head call onward ih =>
    rcases heard _ _ call with known | waiting | none
    · exact known (ih call.2.1 ⟨g, onward, hh⟩)
    · rw [rest] at waiting
      cases waiting
    · exact none.elim

end HomSpread

/-- When the search is over, nobody waits, and all that holds at all times holds. -/
theorem HomSpread.last {fs : List FunctionDef} (same : Identified fs) : HomSpread.Partial fs (spreadHoms fs) ∧
    HomSpread.Heard fs (fun _ _ => False) (spreadHoms fs) ∧ (spreadHoms fs).pending = [] :=
  (HomSpread.Partial.first same).run same (HomSpread.heard_first same) (HomSpread.left_first fs)

theorem mem_homs_spreadHoms {fs : List FunctionDef} (same : Identified fs) {f : FunctionDef} (hf : f ∈ fs) {h : Hom} :
    h ∈ (spreadHoms fs).homs f.id ↔ UsesIn fs f h :=
  have ⟨p, heard, rest⟩ := HomSpread.last same
  p.homs_iff heard rest hf

/-- Functions in a list learn of exactly those homomorphisms that they or functions they reach within the list have. The
search ends for all calls, cycles included, and finds the same in whatever order the functions are listed. -/
theorem spreadHoms_exact {fs : List FunctionDef} (same : Identified fs) :
    (spreadHoms fs).pending = [] ∧
    (∀ f ∈ fs, ∀ h, h ∈ (spreadHoms fs).homs f.id ↔
      ∃ g, Relation.ReflTransGen (CallsIn fs) f g ∧ h ∈ g.facts.homs) ∧
    ∀ gs, gs.Perm fs → ∀ i, (spreadHoms gs).homs i = (spreadHoms fs).homs i := by
  refine ⟨(HomSpread.last same).2.2, fun f hf h => mem_homs_spreadHoms same hf, fun gs order i => ?_⟩
  obtain ⟨p, -, -⟩ := HomSpread.last same
  obtain ⟨q, -, -⟩ := HomSpread.last (same.perm order)
  by_cases hi : i ∈ fs.map (·.id)
  · obtain ⟨f, hf, rfl⟩ := List.mem_map.mp hi
    have equal (h : Hom) : h ∈ (spreadHoms gs).homs f.id ↔ h ∈ (spreadHoms fs).homs f.id :=
      calc h ∈ (spreadHoms gs).homs f.id
        _ ↔ UsesIn gs f h := mem_homs_spreadHoms (same.perm order) (order.mem_iff.mpr hf)
        _ ↔ UsesIn fs f h := UsesIn.perm order
        _ ↔ h ∈ (spreadHoms fs).homs f.id := (mem_homs_spreadHoms same hf).symm
    calc (spreadHoms gs).homs f.id
      _ = Hom.ordered ((spreadHoms gs).homs f.id) := (q.listed _).symm
      _ = Hom.ordered ((spreadHoms fs).homs f.id) := Hom.ordered_congr equal
      _ = (spreadHoms fs).homs f.id := p.listed _
  · have unknown : i ∉ gs.map (·.id) := fun listed => hi ((order.map _).subset listed)
    rw [← p.keys] at hi
    rw [← q.keys] at unknown
    exact (HomSpread.homs_of_unknown unknown).trans (HomSpread.homs_of_unknown hi).symm

/-- A function that calls others and has these homomorphisms from the beginning. -/
def FunctionDef.calling (id : Nat) (calls : List Nat) (homs : List Hom) : FunctionDef :=
  let f := FunctionDef.sketch id "step" "internal" [] []
  { f with facts := { f.facts with calls := calls, homs := homs } }

/-- Two functions that call each other, and two more that one of them calls; the last one calls itself and a function
that is not in the list. -/
def mutualCalls : List FunctionDef :=
  [.calling 1 [2] [], .calling 2 [1, 3, 4] [], .calling 3 [] [.nonHomomorphic], .calling 4 [4, 5] [.additive]]

theorem mutualCalls_exact : Identified mutualCalls ∧ (spreadHoms mutualCalls).homs 1 = [.nonHomomorphic, .additive] ∧
    (spreadHoms mutualCalls).homs 3 = [.nonHomomorphic] ∧ (spreadHoms mutualCalls).pending = [] ∧
    (∀ f ∈ mutualCalls, ∀ h, h ∈ (spreadHoms mutualCalls).homs f.id ↔
      ∃ g, Relation.ReflTransGen (CallsIn mutualCalls) f g ∧ h ∈ g.facts.homs) ∧
    ∀ gs, gs.Perm mutualCalls → ∀ i, (spreadHoms gs).homs i = (spreadHoms mutualCalls).homs i := by
  have same : Identified mutualCalls := Identified.of_nodup (by decide)
  exact ⟨same, by decide, by decide, spreadHoms_exact same⟩

/-! ## Programs -/

section Program

variable {fs : List FunctionDef} {f : FunctionDef} {h : Hom}

theorem usesIn_withOwnHoms (hf : f ∈ fs) :
    UsesIn (fs.map FunctionDef.withOwnHoms) f.withOwnHoms h ↔
      ∃ g, Relation.ReflTransGen (CallsIn fs) f g ∧ h ∈ g.ownHoms := by
  constructor
  · rintro ⟨k, reaches, hh⟩
    suffices ∃ g, k = g.withOwnHoms ∧ Relation.ReflTransGen (CallsIn fs) f g ∧ g ∈ fs by
      obtain ⟨g, rfl, reaches, -⟩ := this
      exact ⟨g, reaches, Hom.mem_ordered.mp hh⟩
    clear hh
    induction reaches with
    | refl => exact ⟨f, rfl, .refl, hf⟩
    | tail _ call ih =>
      obtain ⟨g, rfl, reaches, hg⟩ := ih
      obtain ⟨_, callee, calls⟩ := call
      obtain ⟨k, hk, rfl⟩ := List.mem_map.mp callee
      exact ⟨k, rfl, reaches.tail ⟨hg, hk, calls⟩, hk⟩
  · rintro ⟨g, reaches, hh⟩
    refine ⟨g.withOwnHoms, reaches.lift _ fun k l call => ?_, Hom.mem_ordered.mpr hh⟩
    exact ⟨List.mem_map_of_mem call.1, List.mem_map_of_mem call.2.1, call.2.2⟩

/-- The functions of a program are marked with the homomorphisms of their own private values and of those of all
functions that they reach. -/
theorem SourceUnit.markHoms_homs {u : SourceUnit} (o : Options) (distinct : u.numbers.Nodup) :
    ∀ g ∈ (u.markHoms o).allFunctions, ∃ f ∈ u.allFunctions, g.id = f.id ∧
      ∀ h, h ∈ g.facts.homs ↔ ∃ k, Relation.ReflTransGen (CallsIn u.allFunctions) f k ∧ h ∈ k.ownHoms := by
  intro g hg
  have bodies : u.Pointwise (fun f g => g.id = f.id ∧
      g.facts.homs = (spreadHoms (u.allFunctions.map FunctionDef.withOwnHoms)).homs f.id) (u.markHoms o) :=
    SourceUnit.mapFacts_pointwise (fun _ _ => ⟨rfl, rfl⟩) _
  obtain ⟨f, hf, same, homs⟩ := exists_mem_of_forall₂_right (SourceUnit.allFunctions_pointwise bodies) hg
  refine ⟨f, hf, same, fun h => ?_⟩
  have own : Identified (u.allFunctions.map FunctionDef.withOwnHoms) := by
    intro a ha b hb equal
    obtain ⟨k, hk, rfl⟩ := List.mem_map.mp ha
    obtain ⟨l, hl, rfl⟩ := List.mem_map.mp hb
    rw [SourceUnit.eq_of_id distinct hk hl equal]
  rw [homs, ← usesIn_withOwnHoms hf]
  exact mem_homs_spreadHoms own (List.mem_map_of_mem hf)

end Program

end Shroud
