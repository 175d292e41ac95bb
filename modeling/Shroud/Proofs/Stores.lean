import Shroud.Analysis.Alias
import Shroud.Proofs.Nodes
import Shroud.Proofs.Pointwise

/-!
# Stores and what is known about them

A store says what every label holds. It meets what is known if labels of one class hold the same address.

**Updates.** Most updates of what is known only forget: every pair of labels that stands in one class afterwards did so
before (`Partition.Finer`). A comparison adds pairs, and they agree if the condition came out that way.

**Side effects.** They leave alone what fixed labels hold, which is all that is still known after `Knowledge.havoc`.
-/

namespace Shroud

/-! ## Pairs of labels -/

namespace Partition

variable {α : Type} {p q r : Partition α} {x y a b : α}

/-- Some class lists both labels. -/
def Linked (p : Partition α) (x y : α) : Prop := ∃ c ∈ p.classes, x ∈ c ∧ y ∈ c

instance [DecidableEq α] (p : Partition α) (x y : α) : Decidable (p.Linked x y) := by
  unfold Linked
  infer_instance

/-- Pairs of different labels of the first state are pairs of the second. -/
def Finer (p q : Partition α) : Prop := ∀ x y, p.Linked x y → x = y ∨ q.Linked x y

theorem mem_members : x ∈ p.members ↔ ∃ c ∈ p.classes, x ∈ c := by
  simp [members]

theorem Linked.symm (h : p.Linked x y) : p.Linked y x := by
  obtain ⟨c, hc, hx, hy⟩ := h
  exact ⟨c, hc, hy, hx⟩

theorem Finer.refl (p : Partition α) : p.Finer p := by
  intro x y h
  exact .inr h

theorem Finer.trans (h : p.Finer q) (h' : q.Finer r) : p.Finer r := by
  intro x y hl
  rcases h x y hl with heq | hl
  · exact .inl heq
  · exact h' x y hl

/-- It is enough that every class is part of an earlier one, or lists a single label. -/
theorem finer_of_classes (h : ∀ c ∈ p.classes, (∃ d ∈ q.classes, c ⊆ d) ∨ ∃ x, c = [x]) : p.Finer q := by
  rintro x y ⟨c, hc, hx, hy⟩
  rcases h c hc with ⟨d, hd, hsub⟩ | ⟨z, rfl⟩
  · exact .inr ⟨d, hd, hsub hx, hsub hy⟩
  · rw [List.mem_singleton] at hx hy
    exact .inl (hx.trans hy.symm)

theorem insert_finer (p : Partition α) (x : α) : (p.insert x).Finer p := by
  refine finer_of_classes fun c hc => ?_
  rcases List.mem_append.mp hc with hc | hc
  · exact .inl ⟨c, hc, List.Subset.refl c⟩
  · exact .inr ⟨x, List.mem_singleton.mp hc⟩

theorem members_insert (p : Partition α) (x : α) : (p.insert x).members = p.members ++ [x] := by
  simp [members, insert]

theorem separate_classes {fixed : α → Bool} {c : List α} (hc : c ∈ (p.separate fixed).classes) :
    (∃ d ∈ p.classes, c = d.filter fixed) ∨ ∃ x ∈ p.members, c = [x] := by
  simp only [separate, List.mem_flatten, List.mem_map] at hc
  obtain ⟨_, ⟨d, hd, rfl⟩, hc⟩ := hc
  rw [splitClass, List.mem_append, List.mem_map] at hc
  rcases hc with ⟨x, hx, rfl⟩ | hc
  · exact .inr ⟨x, mem_members.mpr ⟨d, hd, (List.mem_filter.mp hx).1⟩, rfl⟩
  · split at hc
    · cases hc
    · exact .inl ⟨d, hd, List.mem_singleton.mp hc⟩

/-- After a side effect, only fixed labels stand in one class with others. -/
theorem separate_linked {fixed : α → Bool} (h : (p.separate fixed).Linked x y) :
    x = y ∨ (fixed x = true ∧ fixed y = true ∧ p.Linked x y) := by
  obtain ⟨c, hc, hx, hy⟩ := h
  rcases separate_classes hc with ⟨d, hd, rfl⟩ | ⟨z, -, rfl⟩
  · rw [List.mem_filter] at hx hy
    exact .inr ⟨hx.2, hy.2, d, hd, hx.1, hy.1⟩
  · rw [List.mem_singleton] at hx hy
    exact .inl (hx.trans hy.symm)

theorem members_separate (fixed : α → Bool) : (p.separate fixed).members ⊆ p.members := by
  intro y hy
  obtain ⟨c, hc, hy⟩ := mem_members.mp hy
  rcases separate_classes hc with ⟨d, hd, rfl⟩ | ⟨z, hz, rfl⟩
  · exact mem_members.mpr ⟨d, hd, (List.mem_filter.mp hy).1⟩
  · rw [List.mem_singleton.mp hy]
    exact hz

variable [DecidableEq α]

/-- All that the second state knows follows from the first. -/
def entails (p q : Partition α) : Bool :=
  q.classes.all fun c => c.all fun x => c.all fun y => x == y || decide (p.Linked x y)

theorem finer_of_entails (h : p.entails q = true) : q.Finer p := by
  rintro x y ⟨c, hc, hx, hy⟩
  simp only [entails, List.all_eq_true, Bool.or_eq_true, beq_iff_eq, decide_eq_true_eq] at h
  exact h c hc x hx y hy

/-! ### Updates that forget -/

theorem index?_eq_some {i : Nat} (h : p.index? x = some i) :
    p.classes.getD i [] ∈ p.classes ∧ x ∈ p.classes.getD i [] := by
  unfold index? at h
  obtain ⟨hi, hx, -⟩ := List.findIdx?_eq_some_iff_getElem.mp h
  have class_eq : p.classes.getD i [] = p.classes[i] := by simp [hi]
  rw [class_eq]
  exact ⟨List.getElem_mem hi, List.contains_iff_mem.mp hx⟩

/-- Labels that stand in one class are the same or linked. -/
theorem linked_of_same (h : p.same x y = true) : x = y ∨ p.Linked x y := by
  rw [same, Bool.or_eq_true, beq_iff_eq] at h
  rcases h with rfl | h
  · exact .inl rfl
  · split at h
    · rename_i i j hi hj
      obtain rfl := beq_iff_eq.mp h
      exact .inr ⟨_, (index?_eq_some hi).1, (index?_eq_some hi).2, (index?_eq_some hj).2⟩
    · cases h

/-- The classes after a removal: those before, one of them without the label. -/
theorem remove_classes (h : p.remove x = .ok q) {c : List α} (hc : c ∈ q.classes) : ∃ d ∈ p.classes, c ⊆ d := by
  unfold remove at h
  split at h
  · cases h
  · rename_i i hi
    have found := index?_eq_some hi
    cases h
    split at hc
    · exact ⟨c, List.mem_of_mem_eraseIdx hc, List.Subset.refl c⟩
    · rcases List.mem_or_eq_of_mem_set hc with hc | rfl
      · exact ⟨c, hc, List.Subset.refl c⟩
      · exact ⟨_, found.1, List.filter_subset_self _⟩

theorem remove_finer (h : p.remove x = .ok q) : q.Finer p :=
  finer_of_classes fun _ hc => .inl (remove_classes h hc)

theorem members_remove (h : p.remove x = .ok q) : q.members ⊆ p.members := by
  intro y hy
  obtain ⟨c, hc, hy⟩ := mem_members.mp hy
  obtain ⟨d, hd, hsub⟩ := remove_classes h hc
  exact mem_members.mpr ⟨d, hd, hsub hy⟩

theorem isolate_ok (h : p.isolate x = .ok q) : ∃ r, p.remove x = .ok r ∧ q = r.insert x := by
  unfold isolate at h
  split at h
  · cases h
  · rename_i r hr
    cases h
    exact ⟨r, hr, rfl⟩

theorem isolate_finer (h : p.isolate x = .ok q) : q.Finer p := by
  obtain ⟨r, hr, rfl⟩ := isolate_ok h
  exact (insert_finer r x).trans (remove_finer hr)

theorem mem_of_has (h : p.has x = true) : x ∈ p.members := by
  obtain ⟨i, hi⟩ := Option.isSome_iff_exists.mp h
  have found := index?_eq_some hi
  exact mem_members.mpr ⟨_, found.1, found.2⟩

theorem members_isolate (hx : p.has x = true) (h : p.isolate x = .ok q) : q.members ⊆ p.members := by
  obtain ⟨r, hr, rfl⟩ := isolate_ok h
  rw [members_insert]
  intro y hy
  rcases List.mem_append.mp hy with hy | hy
  · exact members_remove hr hy
  · rw [List.mem_singleton.mp hy]
    exact mem_of_has hx

theorem classOf_subset (p : Partition α) (x : α) : p.classOf x = [] ∨ p.classOf x ∈ p.classes := by
  unfold classOf
  split
  · rename_i i hi
    exact .inr (index?_eq_some hi).1
  · exact .inl rfl

theorem mem_dedupClasses {c : List α} {cs : List (List α)} (h : c ∈ dedupClasses cs) : c ∈ cs := by
  induction cs with
  | nil => exact h
  | cons d cs ih =>
    rcases List.mem_cons.mp h with rfl | h
    · exact List.mem_cons_self
    · exact List.mem_cons_of_mem _ (ih (List.mem_filter.mp h).1)

/-- A class of a joined state is part of a class of either state. -/
theorem join_classes (h : p.join q = .ok r) {c : List α} (hc : c ∈ r.classes) :
    ∃ x, c ⊆ p.classOf x ∧ c ⊆ q.classOf x := by
  unfold join at h
  split at h
  · cases h
    obtain ⟨x, -, rfl⟩ := List.mem_map.mp (mem_dedupClasses hc)
    refine ⟨x, List.filter_subset_self _, fun y hy => ?_⟩
    exact List.contains_iff_mem.mp (List.mem_filter.mp hy).2
  · cases h

theorem linked_of_classOf (hx : x ∈ p.classOf a) (hy : y ∈ p.classOf a) : p.Linked x y := by
  rcases classOf_subset p a with h | h
  · rw [h] at hx
    cases hx
  · exact ⟨_, h, hx, hy⟩

theorem join_finer_left (h : p.join q = .ok r) : r.Finer p := by
  rintro x y ⟨c, hc, hx, hy⟩
  obtain ⟨a, hp, -⟩ := join_classes h hc
  exact .inr (linked_of_classOf (hp hx) (hp hy))

theorem join_finer_right (h : p.join q = .ok r) : r.Finer q := by
  rintro x y ⟨c, hc, hx, hy⟩
  obtain ⟨a, -, hq⟩ := join_classes h hc
  exact .inr (linked_of_classOf (hq hx) (hq hy))

theorem members_join (h : p.join q = .ok r) : r.members ⊆ p.members := by
  intro x hx
  obtain ⟨c, hc, hx⟩ := mem_members.mp hx
  obtain ⟨a, hp, -⟩ := join_classes h hc
  obtain ⟨d, hd, hx, -⟩ := linked_of_classOf (hp hx) (hp hx)
  exact mem_members.mpr ⟨d, hd, hx⟩

/-! ### Updates that add pairs -/

theorem mem_union {xs ys : List α} : a ∈ union xs ys ↔ a ∈ xs ∨ a ∈ ys := by
  unfold union
  simp only [List.mem_append, List.mem_filter, Bool.not_eq_true', List.contains_eq_mem, decide_eq_false_iff_not]
  by_cases ha : a ∈ xs <;> simp [ha]

/-- A pair that a merge adds has one label of either class. -/
theorem merge_linked (h : (p.merge x y).1 = .ok ()) (hab : (p.merge x y).2.Linked a b) :
    p.Linked a b ∨ (p.Linked a x ∧ p.Linked y b) ∨ (p.Linked a y ∧ p.Linked x b) := by
  unfold merge at h hab
  split at h
  · rename_i i j hi hj
    have hx := index?_eq_some hi
    have hy := index?_eq_some hj
    rw [hi, hj] at hab
    dsimp only at hab
    split at hab
    · exact .inl hab
    · obtain ⟨c, hc, ha, hb⟩ := hab
      rcases List.mem_or_eq_of_mem_set (List.mem_of_mem_eraseIdx hc) with hc | rfl
      · exact .inl ⟨c, hc, ha, hb⟩
      · rcases mem_union.mp ha with ha | ha <;> rcases mem_union.mp hb with hb | hb
        · exact .inl ⟨_, hx.1, ha, hb⟩
        · exact .inr (.inl ⟨⟨_, hx.1, ha, hx.2⟩, ⟨_, hy.1, hy.2, hb⟩⟩)
        · exact .inr (.inr ⟨⟨_, hy.1, ha, hy.2⟩, ⟨_, hx.1, hx.2, hb⟩⟩)
        · exact .inl ⟨_, hy.1, ha, hb⟩
  · cases h
  · cases h
  · rename_i hi hj
    rw [hi, hj] at hab
    exact .inl hab

theorem members_merge (h : (p.merge x y).1 = .ok ()) : (p.merge x y).2.members ⊆ p.members := by
  intro a ha
  obtain ⟨c, hc, ha⟩ := mem_members.mp ha
  rcases merge_linked h ⟨c, hc, ha, ha⟩ with ⟨d, hd, ha, -⟩ | ⟨⟨d, hd, ha, -⟩, -⟩ | ⟨⟨d, hd, ha, -⟩, -⟩ <;>
    exact mem_members.mpr ⟨d, hd, ha⟩

/-- What a move leads to: nothing changes, or the label is taken out and added to another class. -/
theorem moveTo_cases (h : (p.moveTo x y).1 = .ok ()) :
    (p.same x y = true ∧ (p.moveTo x y).2 = p) ∨ ∃ q j, p.remove x = .ok q ∧ q.index? y = some j ∧
      (p.moveTo x y).2 = ⟨q.classes.set j (union (q.classes.getD j []) [x])⟩ := by
  unfold moveTo at h ⊢
  by_cases same : p.same x y = true
  · exact .inl ⟨same, by rw [if_pos same]⟩
  · rw [if_neg same] at h ⊢
    cases hq : p.remove x with
    | error e =>
      rw [hq] at h
      cases h
    | ok q =>
      rw [hq] at h
      dsimp only at h ⊢
      cases hj : q.index? y with
      | none =>
        rw [hj] at h
        cases h
      | some j => exact .inr ⟨q, j, rfl, hj, rfl⟩

theorem members_moveTo (hx : p.has x = true) (h : (p.moveTo x y).1 = .ok ()) :
    (p.moveTo x y).2.members ⊆ p.members := by
  rcases moveTo_cases h with ⟨-, hp⟩ | ⟨q, j, hq, hj, hp⟩
  · rw [hp]
    exact List.Subset.refl _
  · rw [hp]
    intro a ha
    obtain ⟨c, hc, ha⟩ := mem_members.mp ha
    rcases List.mem_or_eq_of_mem_set hc with hc | rfl
    · exact members_remove hq (mem_members.mpr ⟨c, hc, ha⟩)
    · rcases mem_union.mp ha with ha | ha
      · exact members_remove hq (mem_members.mpr ⟨_, (index?_eq_some hj).1, ha⟩)
      · rw [List.mem_singleton.mp ha]
        exact mem_of_has hx

/-! ### Updates succeed for labels that are listed -/

theorem has_iff : p.has x = true ↔ x ∈ p.members := by
  refine ⟨mem_of_has, fun h => ?_⟩
  obtain ⟨c, hc, hx⟩ := mem_members.mp h
  rw [has, index?, List.findIdx?_isSome, List.any_eq_true]
  exact ⟨c, hc, List.contains_iff_mem.mpr hx⟩

theorem index?_of_has (h : p.has x = true) : ∃ i, p.index? x = some i := Option.isSome_iff_exists.mp h

theorem remove_of_has (h : p.has x = true) : ∃ q, p.remove x = .ok q := by
  obtain ⟨i, hi⟩ := index?_of_has h
  rw [remove, hi]
  exact ⟨_, rfl⟩

theorem isolate_of_has (h : p.has x = true) : ∃ q, p.isolate x = .ok q := by
  obtain ⟨q, hq⟩ := remove_of_has h
  exact ⟨q.insert x, by rw [isolate, hq]⟩

theorem merge_of_has (hx : p.has x = true) (hy : p.has y = true) : (p.merge x y).1 = .ok () := by
  obtain ⟨i, hi⟩ := index?_of_has hx
  obtain ⟨j, hj⟩ := index?_of_has hy
  rw [merge, hi, hj]
  dsimp only
  split <;> rfl

/-- A removal concerns the first class that lists the label. -/
theorem remove_parts (h : p.remove x = .ok q) : ∃ before c after, p.classes = before ++ c :: after ∧
    (∀ d ∈ before, x ∉ d) ∧ x ∈ c ∧
    q.classes = before ++ [c.filter (· ≠ x)].filter (fun d => !d.isEmpty) ++ after := by
  unfold remove at h
  split at h
  · cases h
  · rename_i i hi
    obtain ⟨bound, found, first⟩ := List.findIdx?_eq_some_iff_getElem.mp hi
    have class_eq : p.classes.getD i [] = p.classes[i] := by simp [bound]
    rw [class_eq] at h
    cases h
    refine ⟨p.classes.take i, p.classes[i], p.classes.drop (i + 1), by simp, ?_, List.contains_iff_mem.mp found, ?_⟩
    · intro d hd hx
      obtain ⟨j, hj, rfl⟩ := List.getElem_of_mem hd
      rw [List.length_take, Nat.lt_min] at hj
      rw [List.getElem_take, ← List.contains_iff_mem] at hx
      exact first j hj.1 hx
    · generalize p.classes[i].filter (· ≠ x) = rest
      cases rest with
      | nil => simp [List.eraseIdx_eq_take_drop_succ]
      | cons a rest => simp [List.set_eq_take_append_cons_drop, bound]

/-- Other labels stay. -/
theorem mem_remove (h : p.remove x = .ok q) (hy : y ∈ p.members) (other : y ≠ x) : y ∈ q.members := by
  obtain ⟨before, c, after, hp, -, -, hq⟩ := remove_parts h
  obtain ⟨d, hd, hy⟩ := mem_members.mp hy
  rw [hp, List.mem_append, List.mem_cons] at hd
  rw [mem_members, hq]
  rcases hd with hd | rfl | hd
  · exact ⟨d, by simp [hd], hy⟩
  · have kept : y ∈ d.filter (· ≠ x) := List.mem_filter.mpr ⟨hy, by simpa using other⟩
    refine ⟨_, ?_, kept⟩
    have nonempty := List.ne_nil_of_mem kept
    generalize d.filter (· ≠ x) = rest at nonempty ⊢
    simp [nonempty]
  · exact ⟨d, by simp [hd], hy⟩

theorem moveTo_of_has (hx : p.has x = true) (hy : p.has y = true) : (p.moveTo x y).1 = .ok () := by
  unfold moveTo
  split
  · rfl
  · rename_i apart
    have other : y ≠ x := by
      rintro rfl
      exact apart (same_refl p y)
    obtain ⟨q, hq⟩ := remove_of_has hx
    obtain ⟨j, hj⟩ := index?_of_has (has_iff.mpr (mem_remove hq (has_iff.mp hy) other))
    rw [hq]
    dsimp only
    rw [hj]

end Partition

/-! ## Stores -/

/-- What every label holds. A variable that is fixed at construction holds nothing before it is assigned. -/
abbrev Store (α : Type) := Label → Option α

namespace Store

variable {α : Type} {σ τ ρ : Store α} {x y z : Label} {k k' : Knowledge} {symbols : Symbols}

/-- The labels are the same or hold the same address. -/
def Agree (σ : Store α) (x y : Label) : Prop := x = y ∨ ∃ a, σ x = some a ∧ σ y = some a

/-- Labels of one class hold the same address. -/
def Meets (σ : Store α) (k : Knowledge) : Prop := ∀ x y, k.Linked x y → σ.Agree x y

/-- A fixed label that holds something keeps it. -/
def Keeps (symbols : Symbols) (σ τ : Store α) : Prop :=
  ∀ x a, symbols.isFixedLabel x = true → σ x = some a → τ x = some a

/-- The number of the local variable that a label names. -/
def localId? : Label → Option Nat
  | .var .localVar i _ => some i
  | _ => none

/-- Only local variables with these numbers may have changed. -/
def Framed (ids : List Nat) (σ τ : Store α) : Prop := ∀ x, (∀ i ∈ ids, localId? x ≠ some i) → τ x = σ x

theorem Agree.symm (h : σ.Agree x y) : σ.Agree y x := by
  rcases h with rfl | ⟨a, hx, hy⟩
  · exact .inl rfl
  · exact .inr ⟨a, hy, hx⟩

theorem Agree.trans (h : σ.Agree x y) (h' : σ.Agree y z) : σ.Agree x z := by
  rcases h with rfl | ⟨a, hx, hy⟩
  · exact h'
  · rcases h' with rfl | ⟨b, hy', hz⟩
    · exact .inr ⟨a, hx, hy⟩
    · rw [hy] at hy'
      cases hy'
      exact .inr ⟨a, hx, hz⟩

theorem Meets.finer (h : σ.Meets k) (hf : k'.Finer k) : σ.Meets k' := by
  intro x y hl
  rcases hf x y hl with heq | hl
  · exact .inl heq
  · exact h x y hl

theorem Keeps.refl (symbols : Symbols) (σ : Store α) : σ.Keeps symbols σ := by
  intro x a _ h
  exact h

/-- A merge is justified if the two labels agree, which connects the labels of the two classes. -/
theorem Meets.merge (h : σ.Meets k) (agree : σ.Agree x y) (hk : (k.merge x y).1 = .ok ()) :
    σ.Meets (k.merge x y).2 := by
  intro a b hab
  rcases Partition.merge_linked hk hab with hab | ⟨hax, hyb⟩ | ⟨hay, hxb⟩
  · exact h a b hab
  · exact (h a x hax).trans (agree.trans (h y b hyb))
  · exact (h a y hay).trans (agree.symm.trans (h x b hxb))

theorem Meets.havoc (h : σ.Meets k) (symbols : Symbols) : σ.Meets (k.havoc symbols) := by
  refine h.finer fun x y hl => ?_
  exact (Partition.separate_linked hl).imp_right fun h => h.2.2

/-- What is known about fixed labels outlasts side effects. -/
theorem Meets.kept (h : σ.Meets (k.havoc symbols)) (hτ : σ.Keeps symbols τ) : τ.Meets (k.havoc symbols) := by
  intro x y hl
  rcases Partition.separate_linked hl with heq | ⟨fx, fy, -⟩
  · exact .inl heq
  · rcases h x y hl with heq | ⟨a, hx, hy⟩
    · exact .inl heq
    · exact .inr ⟨a, hτ x a fx hx, hτ y a fy hy⟩

/-- Variables that nothing is known about may change. -/
theorem Meets.framed {ids : List Nat} (h : σ.Meets k) (hτ : σ.Framed ids τ)
    (silent : ∀ x y, k.Linked x y → x = y ∨ ∀ i ∈ ids, localId? x ≠ some i) : τ.Meets k := by
  intro x y hl
  rcases silent x y hl with heq | hx
  · exact .inl heq
  · rcases silent y x hl.symm with heq | hy
    · exact .inl heq.symm
    · rcases h x y hl with heq | ⟨a, hσx, hσy⟩
      · exact .inl heq
      · refine .inr ⟨a, ?_, ?_⟩
        · rw [hτ x hx, hσx]
        · rw [hτ y hy, hσy]

end Store

/-! ## Conditions -/

section Conditions

variable {α : Type}

mutual

/-- The owners that a comparison of two values compares, part by part for tuples. -/
def Expr.pairs : Expr → Expr → List (Option Label × Option Label)
  | .tuple i ls, r =>
    match r with
    | .tuple _ rs => Expr.pairsAll ls rs
    | r => [((Expr.tuple i ls).label?, r.label?)]
  | l, r => [(l.label?, r.label?)]

def Expr.pairsAll : List Expr → List Expr → List (Option Label × Option Label)
  | l :: ls, r :: rs => l.pairs r ++ Expr.pairsAll ls rs
  | _, _ => []

end

/-- The two values may be equal: the owners that are compared agree. -/
def Expr.Agrees (σ : Store α) (l r : Expr) : Prop :=
  ∀ p ∈ l.pairs r, ∀ x y, p.1 = some x → p.2 = some y → σ.Agree x y

/-- The condition may come out as `result`. Comparisons of labels depend on the store, all else may be true or false. -/
def Expr.MayBe (σ : Store α) : Expr → Bool → Prop
  | .call _ (.operator _ op _ _ _) args _ _, result =>
    match op, args with
    | .not, a :: _ => a.MayBe σ (!result)
    | .paren, a :: _ => a.MayBe σ result
    | .and, a :: b :: _ => if result then a.MayBe σ true ∧ b.MayBe σ true else a.MayBe σ false ∨ b.MayBe σ false
    | .or, a :: b :: _ => if result then a.MayBe σ true ∨ b.MayBe σ true else a.MayBe σ false ∧ b.MayBe σ false
    | .eq, a :: b :: _ => if result then a.Agrees σ b else True
    | .ne, a :: b :: _ => if result then True else a.Agrees σ b
    | _, _ => True
  | _, _ => True

/-- Evaluating a condition. One with side effects may change every label that is not fixed. -/
def Expr.Evaluates (symbols : Symbols) (c : Expr) (result : Bool) (σ τ : Store α) : Prop :=
  (c.hasEffects symbols = .ok false ∧ τ = σ ∧ c.MayBe σ result) ∨
    (c.hasEffects symbols ≠ .ok false ∧ σ.Keeps symbols τ)

/-- A condition leaves fixed labels alone. -/
theorem Expr.Evaluates.keeps {symbols : Symbols} {c : Expr} {result : Bool} {σ τ : Store α}
    (h : c.Evaluates symbols result σ τ) : σ.Keeps symbols τ := by
  rcases h with ⟨-, rfl, -⟩ | ⟨-, h⟩
  · exact .refl symbols τ
  · exact h

end Conditions

namespace Knowledge

variable {k k' : Knowledge}

theorem ofResult_ok {r : Except PartitionError Knowledge} (h : ofResult r = .ok k) : r = .ok k := by
  unfold ofResult at h
  split at h
  · cases h
    rfl
  · cases h

theorem ofUpdate_ok {r : Except PartitionError Unit × Knowledge} (h : ofUpdate r = .ok k) :
    r.1 = .ok () ∧ r.2 = k := by
  unfold ofUpdate at h
  split at h
  · rename_i done
    cases h
    exact ⟨done, rfl⟩
  · cases h

/-- What can happen to a label that is compared or assigned. -/
theorem equateLabels_cases {how : Equating} {l r : Option Label} (h : k.equateLabels how l r = .ok k') :
    ((∀ x, l = some x → k.has x = false) ∧ k' = k) ∨
      ∃ x, l = some x ∧ k.has x = true ∧ (k.isolate x = .ok k' ∨ ∃ y, r = some y ∧
        (how = .compared ∧ ofUpdate (k.merge x y) = .ok k' ∨ how = .assigned ∧ ofUpdate (k.moveTo x y) = .ok k')) := by
  cases l with
  | none =>
    cases h
    exact .inl ⟨nofun, rfl⟩
  | some x =>
    unfold equateLabels at h
    cases hx : k.has x with
    | false =>
      simp only [hx] at h
      cases h
      exact .inl ⟨fun _ same => Option.some.inj same ▸ hx, rfl⟩
    | true =>
      simp only [hx] at h
      refine .inr ⟨x, rfl, hx, ?_⟩
      cases r with
      | none => exact .inl (ofResult_ok h)
      | some y =>
        cases hy : k.has y with
        | false =>
          simp only [hy] at h
          exact .inl (ofResult_ok h)
        | true =>
          simp only [hy] at h
          cases how with
          | compared => exact .inr ⟨y, rfl, .inl ⟨rfl, h⟩⟩
          | assigned => exact .inr ⟨y, rfl, .inr ⟨rfl, h⟩⟩

/-- Comparing or assigning adds no label. -/
theorem equateLabels_members {how : Equating} {l r : Option Label} (h : k.equateLabels how l r = .ok k') :
    k'.members ⊆ k.members := by
  rcases equateLabels_cases h with ⟨-, rfl⟩ | ⟨x, -, hx, h | ⟨y, -, ⟨-, h⟩ | ⟨-, h⟩⟩⟩
  · exact List.Subset.refl _
  · exact Partition.members_isolate hx h
  · obtain ⟨done, rfl⟩ := ofUpdate_ok h
    exact Partition.members_merge done
  · obtain ⟨done, rfl⟩ := ofUpdate_ok h
    exact Partition.members_moveTo hx done

/-- A comparison that found no difference justifies what is known after it. -/
theorem equateLabels_meets {α : Type} {σ : Store α} {l r : Option Label} (h : k.equateLabels .compared l r = .ok k')
    (agree : ∀ x y, l = some x → r = some y → σ.Agree x y) (hk : σ.Meets k) : σ.Meets k' := by
  rcases equateLabels_cases h with ⟨-, rfl⟩ | ⟨x, hl, -, h | ⟨y, hr, ⟨-, h⟩ | ⟨how, -⟩⟩⟩
  · exact hk
  · exact hk.finer (Partition.isolate_finer h)
  · obtain ⟨done, rfl⟩ := ofUpdate_ok h
    exact hk.merge (agree x y hl hr) done
  · cases how

/-- Comparing and assigning always succeed, since they are about labels that are listed. -/
theorem equateLabels_total (k : Knowledge) (how : Equating) (l r : Option Label) :
    ∃ k', k.equateLabels how l r = .ok k' := by
  cases l with
  | none => exact ⟨k, rfl⟩
  | some x =>
    unfold equateLabels
    cases hx : k.has x with
    | false => exact ⟨k, by simp [hx]⟩
    | true =>
      obtain ⟨q, hq⟩ := Partition.isolate_of_has hx
      have alone : ∃ k', ofResult (k.isolate x) = .ok k' := ⟨q, by rw [hq]; rfl⟩
      cases r with
      | none => simpa [hx] using alone
      | some y =>
        cases hy : k.has y with
        | false => simpa [hx, hy] using alone
        | true =>
          cases how with
          | compared => simp [hx, hy, ofUpdate, Partition.merge_of_has hx hy]
          | assigned => simp [hx, hy, ofUpdate, Partition.moveTo_of_has hx hy]

end Knowledge

namespace Expr

variable {α : Type} {σ τ : Store α} {k k' : Knowledge} {symbols : Symbols}

mutual

theorem equate_eq {how : Equating} {k : Knowledge} : ∀ l r : Expr,
    l.equate how k r = (l.pairs r).foldlM (fun k p => k.equateLabels how p.1 p.2) k
  | .tuple i ls, r => by
    cases r with
    | tuple j rs => exact equateAll_eq ls rs
    | _ => exact (bind_pure _).symm
  | .operator .., _ | .call .., _ | .new .., _ | .cast .., _ | .boolLit .., _ | .numLit .., _ | .arrayLit .., _
  | .ident .., _ | .member .., _ | .index .., _ | .me _, _ | .all _, _ | .reclassify .., _ => (bind_pure _).symm

theorem equateAll_eq {how : Equating} {k : Knowledge} : ∀ ls rs : List Expr,
    equateAll how k ls rs = (pairsAll ls rs).foldlM (fun k p => k.equateLabels how p.1 p.2) k
  | [], _ => rfl
  | _ :: _, [] => rfl
  | l :: ls, r :: rs => by
    rw [equateAll, pairsAll, List.foldlM_append, equate_eq l r]
    exact bind_congr fun k => equateAll_eq ls rs

end

/-- A property of what is known that every comparison keeps. -/
theorem equate_keeps {P : Knowledge → Prop} {how : Equating} {l r : Expr} (h : l.equate how k r = .ok k')
    (step : ∀ p ∈ l.pairs r, ∀ k k' : Knowledge, k.equateLabels how p.1 p.2 = .ok k' → P k → P k') (hk : P k) :
    P k' := by
  rw [equate_eq] at h
  generalize l.pairs r = ps at h step
  induction ps generalizing k with
  | nil =>
    cases h
    exact hk
  | cons p ps ih =>
    rw [List.foldlM_cons] at h
    obtain ⟨q, hq, h⟩ := except_bind_ok h
    exact ih (step p List.mem_cons_self k q hq hk) h fun p hp => step p (List.mem_cons_of_mem _ hp)

theorem equate_members {how : Equating} {l r : Expr} (h : l.equate how k r = .ok k') : k'.members ⊆ k.members := by
  refine equate_keeps (P := fun q => q.members ⊆ k.members) h ?_ (List.Subset.refl _)
  intro p _ q q' hq sub
  exact List.Subset.trans (Knowledge.equateLabels_members hq) sub

theorem equate_meets {l r : Expr} (h : l.equate .compared k r = .ok k') (agree : l.Agrees σ r) (hk : σ.Meets k) :
    σ.Meets k' := by
  refine equate_keeps (P := σ.Meets) h ?_ hk
  intro p hp q q' hq hm
  exact Knowledge.equateLabels_meets hq (agree p hp) hm

theorem implies_members {c : Expr} {negated : Bool} (h : c.implies negated k = .ok k') : k'.members ⊆ k.members := by
  fun_induction Expr.implies negated k c generalizing k' with
  | case1 _ _ _ _ _ _ _ _ _ _ _ ih => exact ih h
  | case2 _ _ _ _ _ _ _ _ _ _ _ ih => exact ih h
  | case4 _ _ _ _ _ _ _ _ _ _ _ _ _ iha ihb =>
    obtain ⟨p, hp, h⟩ := except_bind_ok h
    exact List.Subset.trans (ihb p h) (iha hp)
  | case5 _ _ _ _ _ _ _ _ _ _ _ iha ihb =>
    obtain ⟨p, hp, h⟩ := except_bind_ok h
    exact List.Subset.trans (ihb p h) (iha hp)
  | case8 => exact equate_members h
  | case9 => exact equate_members h
  | case3 | case6 | case7 | case10 | case11 | case12 =>
    cases h
    exact List.Subset.refl _

/-- What a condition implies holds if the condition came out that way. -/
theorem implies_meets {c : Expr} {negated : Bool} (h : c.implies negated k = .ok k') (hc : c.MayBe σ (!negated))
    (hk : σ.Meets k) : σ.Meets k' := by
  fun_induction Expr.implies negated k c generalizing k' with
  | case1 negated _ _ _ _ _ _ _ _ a _ ih => exact ih h hc hk
  | case2 _ _ _ _ _ _ _ _ _ _ _ ih => exact ih h hc hk
  | case4 negated _ _ _ _ _ _ _ _ a b _ positive iha ihb =>
    -- A true conjunction has true operands, a false disjunction false ones.
    rw [Bool.not_eq_true] at positive
    subst positive
    obtain ⟨p, hp, h⟩ := except_bind_ok h
    obtain ⟨ha, hb⟩ : a.MayBe σ true ∧ b.MayBe σ true := hc
    exact ihb p h hb (iha hp ha hk)
  | case5 _ _ _ _ _ _ _ _ a b _ iha ihb =>
    obtain ⟨p, hp, h⟩ := except_bind_ok h
    obtain ⟨ha, hb⟩ : a.MayBe σ false ∧ b.MayBe σ false := hc
    exact ihb p h hb (iha hp ha hk)
  | case8 negated _ _ _ _ _ _ _ _ a b _ positive =>
    rw [Bool.not_eq_true] at positive
    subst positive
    exact equate_meets h hc hk
  | case9 => exact equate_meets h hc hk
  | case3 | case6 | case7 | case10 | case11 | case12 =>
    cases h
    exact hk

theorem equate_total (k : Knowledge) (how : Equating) (l r : Expr) : ∃ k', l.equate how k r = .ok k' := by
  rw [equate_eq]
  generalize l.pairs r = ps
  induction ps generalizing k with
  | nil => exact ⟨k, rfl⟩
  | cons p ps ih =>
    obtain ⟨q, hq⟩ := k.equateLabels_total how p.1 p.2
    rw [List.foldlM_cons, hq]
    exact ih q

theorem implies_total (k : Knowledge) (c : Expr) (negated : Bool) : ∃ k', c.implies negated k = .ok k' := by
  fun_induction Expr.implies negated k c with
  | case1 _ _ _ _ _ _ _ _ _ _ _ ih => exact ih
  | case2 _ _ _ _ _ _ _ _ _ _ _ ih => exact ih
  | case4 _ _ _ _ _ _ _ _ _ _ _ _ _ iha ihb =>
    obtain ⟨p, hp⟩ := iha
    obtain ⟨q, hq⟩ := ihb p
    exact ⟨q, by rw [hp]; exact hq⟩
  | case5 _ _ _ _ _ _ _ _ _ _ _ iha ihb =>
    obtain ⟨p, hp⟩ := iha
    obtain ⟨q, hq⟩ := ihb p
    exact ⟨q, by rw [hp]; exact hq⟩
  | case8 => exact equate_total _ _ _ _
  | case9 => exact equate_total _ _ _ _
  | case3 | case6 | case7 | case10 | case11 | case12 => exact ⟨_, rfl⟩

end Expr

/-! ## What is known after a condition, a side effect or a loop -/

namespace Knowledge

variable {α : Type} {σ τ : Store α} {k k' : Knowledge} {symbols : Symbols} {c : Expr}

theorem assuming_cases {negated : Bool} (h : k.assuming symbols c negated = .ok k') :
    (c.hasEffects symbols = .ok true ∧ k' = k.havoc symbols) ∨
      (c.hasEffects symbols = .ok false ∧ c.implies negated k = .ok k') := by
  obtain ⟨effects, he, h⟩ := except_bind_ok h
  cases effects with
  | true =>
    cases h
    exact .inl ⟨he, rfl⟩
  | false => exact .inr ⟨he, h⟩

theorem assuming_members {negated : Bool} (h : k.assuming symbols c negated = .ok k') : k'.members ⊆ k.members := by
  rcases assuming_cases h with ⟨-, rfl⟩ | ⟨-, h⟩
  · exact Partition.members_separate _
  · exact Expr.implies_members h

/-- Only the effects of a condition may remain undecided. -/
theorem assuming_error {k : Knowledge} {c : Expr} {negated : Bool} {e : Error} :
    k.assuming symbols c negated = .error e ↔ c.hasEffects symbols = .error e := by
  unfold assuming
  cases c.hasEffects symbols with
  | error d =>
    constructor
    · rintro ⟨⟩
      rfl
    · rintro ⟨⟩
      rfl
  | ok effects =>
    cases effects with
    | true => exact ⟨nofun, nofun⟩
    | false =>
      obtain ⟨k', h⟩ := Expr.implies_total k c negated
      constructor
      · intro failed
        cases h.symm.trans failed
      · nofun

/-- What is known once a condition came out holds in the store it leaves behind. -/
theorem assuming_meets {result : Bool} (h : k.assuming symbols c (!result) = .ok k')
    (hc : c.Evaluates symbols result σ τ) (hk : σ.Meets k) : τ.Meets k' := by
  rcases assuming_cases h with ⟨effects, rfl⟩ | ⟨quiet, h⟩
  · exact (hk.havoc symbols).kept hc.keeps
  · rcases hc with ⟨-, rfl, hc⟩ | ⟨effects, -⟩
    · rw [← Bool.not_not result] at hc
      exact Expr.implies_meets h hc hk
    · exact absurd quiet effects

/-- Side effects of the parts are forgotten, or there are none. -/
theorem past_cases {parts : List (List Node)} (h : k.past symbols parts = .ok k') :
    k' = k.havoc symbols ∨ (k' = k ∧ ∀ ns ∈ parts, symbols.haveEffects ns = .ok false) := by
  induction parts with
  | nil =>
    cases h
    exact .inr ⟨rfl, nofun⟩
  | cons ns parts ih =>
    obtain ⟨effects, he, h⟩ := except_bind_ok h
    cases effects with
    | true =>
      cases h
      exact .inl rfl
    | false =>
      rcases ih h with hk | ⟨hk, quiet⟩
      · exact .inl hk
      · refine .inr ⟨hk, fun ms hm => ?_⟩
        rcases List.mem_cons.mp hm with rfl | hm
        · exact he
        · exact quiet ms hm

theorem past_meets {parts : List (List Node)} (h : k.past symbols parts = .ok k') (hk : σ.Meets k) : σ.Meets k' := by
  rcases past_cases h with rfl | ⟨rfl, -⟩
  · exact hk.havoc symbols
  · exact hk

theorem past_members {parts : List (List Node)} (h : k.past symbols parts = .ok k') : k'.members ⊆ k.members := by
  rcases past_cases h with rfl | ⟨rfl, -⟩
  · exact Partition.members_separate _
  · exact List.Subset.refl _

theorem enter_finer (k : Knowledge) (vs : List LocalVar) : (k.enter vs).Finer k := by
  unfold enter
  induction vs generalizing k with
  | nil => exact .refl k
  | cons v vs ih => exact (ih _).trans (Partition.insert_finer k _)

theorem leave_finer {vs : List LocalVar} (h : k.leave vs = .ok k') : k'.Finer k := by
  induction vs generalizing k with
  | nil =>
    cases h
    exact .refl k'
  | cons v vs ih =>
    obtain ⟨p, hp, h⟩ := except_bind_ok h
    exact (ih h).trans (Partition.remove_finer (ofResult_ok hp))

theorem leave_members {vs : List LocalVar} (h : k.leave vs = .ok k') : k'.members ⊆ k.members := by
  induction vs generalizing k with
  | nil =>
    cases h
    exact List.Subset.refl _
  | cons v vs ih =>
    obtain ⟨p, hp, h⟩ := except_bind_ok h
    exact List.Subset.trans (ih h) (Partition.members_remove (ofResult_ok hp))

theorem enter_members {vs : List LocalVar} {x : Label} (h : x ∈ (k.enter vs).members) :
    x ∈ k.members ∨ ∃ v ∈ vs, x = .var .localVar v.id v.name := by
  unfold enter at h
  induction vs generalizing k with
  | nil => exact .inl h
  | cons v vs ih =>
    rcases ih h with h | ⟨w, hw, rfl⟩
    · rw [Partition.members_insert, List.mem_append, List.mem_singleton] at h
      rcases h with h | rfl
      · exact .inl h
      · exact .inr ⟨v, List.mem_cons_self, rfl⟩
    · exact .inr ⟨w, List.mem_cons_of_mem _ hw, rfl⟩

/-- After a loop, the store is as it was without any round or as after the last one. -/
theorem afterLoop_meets {skipped iterated : Knowledge} (h : afterLoop symbols c skipped iterated = .ok k')
    (hc : c.Evaluates symbols false σ τ) (hk : σ.Meets skipped ∨ σ.Meets iterated) : τ.Meets k' := by
  obtain ⟨p, hp, h⟩ := except_bind_ok h
  obtain ⟨q, hq, h⟩ := except_bind_ok h
  rcases hk with hk | hk
  · exact (assuming_meets hp hc hk).finer (Partition.join_finer_left (ofResult_ok h))
  · exact (assuming_meets hq hc hk).finer (Partition.join_finer_right (ofResult_ok h))

theorem afterLoop_members {skipped iterated : Knowledge} (h : afterLoop symbols c skipped iterated = .ok k') :
    k'.members ⊆ skipped.members := by
  obtain ⟨p, hp, h⟩ := except_bind_ok h
  obtain ⟨q, hq, h⟩ := except_bind_ok h
  exact List.Subset.trans (Partition.members_join (ofResult_ok h)) (assuming_members hp)

end Knowledge

end Shroud
