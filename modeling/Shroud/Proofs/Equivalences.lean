import Mathlib.Data.List.Pairwise
import Mathlib.Logic.Relation
import Shroud.Proofs.Labels

/-!
# The relation of a state

What is known about labels is an equivalence between those that are listed. The list of classes represents it as long
as it is sound: its classes are sets, none is empty, and no two overlap. A label is then in the class that the search
finds, and nowhere else.

**One relation for both questions.** Whether a label is listed and which labels are known to be equal are the diagonal
and the rest of `Partition.Linked`. Every update is therefore described by a single equivalence that says which pairs
are linked afterwards; what `has` and `same` answer follows (`Partition.Sound.relates`).

**Results.**

* `Partition.Sound.same_iff`: on a sound state, labels are the same exactly if they are equal or linked.
* `Partition.Sound.merge`, `Partition.Sound.moveTo`, …: every update keeps a state sound, also one that fails.
* `Partition.linked_insert`, `Partition.Sound.linked_merge`, …: what an update makes of the relation.
* `Partition.Sound.join_comm`, `Partition.Sound.join_assoc`, `Partition.Sound.join_self`: the laws of a meet.
* `Partition.Sound.specified`: all of this in terms of what `has` and `same` answer.
-/

namespace Shroud

namespace Partition

/-! ## Sound states -/

section Sound

variable {α : Type} {p q : Partition α} {x y z : α}

/-- The classes are sets, none of them empty, and no two of them overlap. -/
structure Sound (p : Partition α) : Prop where
  nonempty : ∀ c ∈ p.classes, c ≠ []
  nodup : ∀ c ∈ p.classes, c.Nodup
  disjoint : p.classes.Pairwise List.Disjoint

theorem Sound.members_nodup (h : p.Sound) : p.members.Nodup := List.nodup_flatten.mpr ⟨h.nodup, h.disjoint⟩

theorem sound_of_nodup (nonempty : ∀ c ∈ p.classes, c ≠ []) (h : p.members.Nodup) : p.Sound :=
  ⟨nonempty, (List.nodup_flatten.mp h).1, (List.nodup_flatten.mp h).2⟩

theorem sound_empty : (empty : Partition α).Sound := by
  refine sound_of_nodup (fun c hc => ?_) List.nodup_nil
  cases hc

/-- Classes may be dropped. -/
theorem Sound.of_sublist (h : p.Sound) (fewer : q.classes.Sublist p.classes) : q.Sound where
  nonempty c hc := h.nonempty c (fewer.subset hc)
  nodup c hc := h.nodup c (fewer.subset hc)
  disjoint := h.disjoint.sublist fewer

theorem Sound.eq_of_mem (h : p.Sound) {c d : List α} (hc : c ∈ p.classes) (hd : d ∈ p.classes) (hx : x ∈ c)
    (hx' : x ∈ d) : c = d := by
  by_contra apart
  have : Std.Symm (List.Disjoint (α := α)) := ⟨fun _ _ disjoint => disjoint.symm⟩
  exact h.disjoint.forall hc hd apart hx hx'

theorem Sound.linked_trans (h : p.Sound) (hxy : p.Linked x y) (hyz : p.Linked y z) : p.Linked x z := by
  obtain ⟨c, hc, hx, hy⟩ := hxy
  obtain ⟨d, hd, hy', hz⟩ := hyz
  obtain rfl := h.eq_of_mem hc hd hy hy'
  exact ⟨c, hc, hx, hz⟩

/-- Whatever is linked to a label of a class belongs to that class. -/
theorem Sound.mem_of_linked (h : p.Sound) {c : List α} (hc : c ∈ p.classes) (hx : x ∈ c) (hxy : p.Linked x y) :
    y ∈ c := by
  obtain ⟨d, hd, hx', hy⟩ := hxy
  obtain rfl := h.eq_of_mem hc hd hx hx'
  exact hy

theorem mem_members_iff_linked : x ∈ p.members ↔ p.Linked x x := by
  rw [mem_members]
  exact ⟨fun ⟨c, hc, hx⟩ => ⟨c, hc, hx, hx⟩, fun ⟨c, hc, hx, _⟩ => ⟨c, hc, hx⟩⟩

theorem Linked.self (h : p.Linked x y) : p.Linked x x := by
  obtain ⟨c, hc, hx, -⟩ := h
  exact ⟨c, hc, hx, hx⟩

end Sound

/-! ## Opening classes and leaving labels out -/

section Classes

variable {α : Type} {p : Partition α} {x a b : α}

theorem linked_insert : (p.insert x).Linked a b ↔ p.Linked a b ∨ (a = x ∧ b = x) := by
  unfold Linked insert
  simp only [List.mem_append, List.mem_singleton]
  constructor
  · rintro ⟨c, hc | rfl, ha, hb⟩
    · exact .inl ⟨c, hc, ha, hb⟩
    · exact .inr ⟨List.mem_singleton.mp ha, List.mem_singleton.mp hb⟩
  · rintro (⟨c, hc, ha, hb⟩ | ⟨rfl, rfl⟩)
    · exact ⟨c, .inl hc, ha, hb⟩
    · exact ⟨_, .inr rfl, List.mem_singleton_self _, List.mem_singleton_self _⟩

theorem members_project (p : Partition α) (keep : α → Bool) : (p.project keep).members = p.members.filter keep := by
  unfold members project
  induction p.classes with
  | nil => rfl
  | cons c cs ih =>
    rw [List.flatten_cons, List.filter_append, ← ih, List.map_cons]
    cases c.filter keep with
    | nil => simp
    | cons x xs => simp

theorem Sound.project (h : p.Sound) (keep : α → Bool) : (p.project keep).Sound := by
  refine sound_of_nodup (fun c hc => ?_) ?_
  · simpa using (List.mem_filter.mp hc).2
  · rw [members_project]
    exact h.members_nodup.filter keep

theorem linked_project {keep : α → Bool} :
    (p.project keep).Linked a b ↔ p.Linked a b ∧ keep a = true ∧ keep b = true := by
  unfold Linked Partition.project
  simp only [List.mem_filter, List.mem_map]
  constructor
  · rintro ⟨_, ⟨⟨c, hc, rfl⟩, -⟩, ha, hb⟩
    rw [List.mem_filter] at ha hb
    exact ⟨⟨c, hc, ha.1, hb.1⟩, ha.2, hb.2⟩
  · rintro ⟨⟨c, hc, ha, hb⟩, hka, hkb⟩
    have kept : a ∈ c.filter keep := List.mem_filter.mpr ⟨ha, hka⟩
    refine ⟨c.filter keep, ⟨⟨c, hc, rfl⟩, ?_⟩, kept, List.mem_filter.mpr ⟨hb, hkb⟩⟩
    simpa using List.ne_nil_of_mem kept

end Classes

variable {α : Type} [DecidableEq α] {p q r : Partition α} {x y a b : α}

theorem has_iff_linked : p.has x = true ↔ p.Linked x x := has_iff.trans mem_members_iff_linked

namespace Sound

/-- The search finds the only class with the label. -/
theorem index?_eq (h : p.Sound) {i : Nat} (hi : i < p.classes.length) (hx : x ∈ p.classes[i]) :
    p.index? x = some i := by
  obtain ⟨j, hj⟩ := index?_of_has (has_iff.mpr (mem_members.mpr ⟨_, List.getElem_mem hi, hx⟩))
  have hj' := index?_lt hj
  have found := (index?_eq_some hj).2
  rw [getD_eq hj'] at found
  have apart := List.pairwise_iff_getElem.mp h.disjoint
  rcases lt_trichotomy i j with before | rfl | behind
  · exact absurd found fun hx' => apart i j hi hj' before hx hx'
  · exact hj
  · exact absurd found fun hx' => apart j i hj' hi behind hx' hx

/-- Labels are the same exactly if they are equal or stand in one class. -/
theorem same_iff (h : p.Sound) : p.same x y = true ↔ x = y ∨ p.Linked x y := by
  refine ⟨linked_of_same, ?_⟩
  rintro (rfl | ⟨c, hc, hx, hy⟩)
  · exact same_refl p x
  · obtain ⟨i, hi, rfl⟩ := List.getElem_of_mem hc
    simp [same, h.index?_eq hi hx, h.index?_eq hi hy]

theorem count_le (h : p.Sound) (z : α) : p.members.count z ≤ 1 := List.nodup_iff_count_le_one.mp h.members_nodup z

theorem of_count (nonempty : ∀ c ∈ q.classes, c ≠ []) (once : ∀ z, q.members.count z ≤ 1) : q.Sound :=
  sound_of_nodup nonempty (List.nodup_iff_count_le_one.mpr once)

theorem of_relists (h : p.Sound) (kept : q.Relists p) (nonempty : ∀ c ∈ q.classes, c ≠ []) : q.Sound :=
  of_count nonempty fun z => kept.once z (h.count_le z)

end Sound

/-! ## What a state answers -/

/-- These labels are known, and of them those are known to be equal that are related. -/
def Relates (p : Partition α) (known : α → Prop) (related : α → α → Prop) : Prop :=
  (∀ z, p.has z = true ↔ known z) ∧ ∀ a b, known a → known b → (p.same a b = true ↔ related a b)

/-- The states know the same labels and the same pairs of them. -/
def Agrees (p q : Partition α) : Prop := (∀ z, p.has z = q.has z) ∧ ∀ a b, p.same a b = q.same a b

/-- Both answers follow from the pairs that are linked. -/
theorem Sound.relates {linked : α → α → Prop} (h : p.Sound) (hl : ∀ a b, p.Linked a b ↔ linked a b) :
    p.Relates (fun z => linked z z) linked := by
  refine ⟨fun z => has_iff_linked.trans (hl z z), fun a b ha _ => ?_⟩
  rw [h.same_iff, hl]
  refine ⟨?_, .inr⟩
  rintro (rfl | hab)
  · exact ha
  · exact hab

theorem Relates.congr {known known' : α → Prop} {related related' : α → α → Prop} (h : p.Relates known related)
    (hk : ∀ z, known z ↔ known' z) (hr : ∀ a b, known' a → known' b → (related a b ↔ related' a b)) :
    p.Relates known' related' :=
  ⟨fun z => (h.1 z).trans (hk z), fun a b ha hb => (h.2 a b ((hk a).mpr ha) ((hk b).mpr hb)).trans (hr a b ha hb)⟩

theorem Sound.agrees (hp : p.Sound) (hq : q.Sound) (h : ∀ a b, p.Linked a b ↔ q.Linked a b) : p.Agrees q := by
  refine ⟨fun z => Bool.eq_iff_iff.mpr ?_, fun a b => Bool.eq_iff_iff.mpr ?_⟩
  · rw [has_iff_linked, has_iff_linked, h]
  · rw [hp.same_iff, hq.same_iff, h]

theorem Sound.insert (h : p.Sound) (unknown : p.has x = false) : (p.insert x).Sound := by
  refine sound_of_nodup (fun c hc => ?_) ?_
  · rcases List.mem_append.mp hc with hc | hc
    · exact h.nonempty c hc
    · rw [List.mem_singleton.mp hc]
      exact List.cons_ne_nil x []
  · have new : x ∉ p.members := fun hx => by simp [has_iff.mpr hx] at unknown
    rw [members_insert]
    exact List.nodup_append.mpr ⟨h.members_nodup, List.nodup_singleton x, by
      rintro a ha b hb rfl
      exact new (List.mem_singleton.mp hb ▸ ha)⟩

/-! ## Merging -/

theorem union_ne_nil {xs ys : List α} (h : xs ≠ []) : union xs ys ≠ [] := by
  unfold union
  exact List.append_ne_nil_of_left_ne_nil h _

theorem Sound.merge (h : p.Sound) (x y : α) : (p.merge x y).2.Sound := by
  by_cases done : (p.merge x y).1 = .ok ()
  · refine h.of_relists (merge_relists done) fun c hc => ?_
    unfold Partition.merge at hc
    split at hc
    · rename_i i j hi hj
      dsimp only at hc
      split at hc
      · exact h.nonempty c hc
      · rcases List.mem_or_eq_of_mem_set (List.mem_of_mem_eraseIdx hc) with hc | rfl
        · exact h.nonempty c hc
        · exact union_ne_nil (h.nonempty _ (index?_eq_some hi).1)
    · exact h.nonempty c (List.mem_of_mem_eraseIdx hc)
    · exact h.nonempty c hc
    · exact h.nonempty c hc
  · unfold Partition.merge at done ⊢
    split at done
    · split at done <;> exact absurd rfl done
    · exact h.of_sublist (List.eraseIdx_sublist _ _)
    · exact h
    · exact absurd rfl done

/-- A merge adds the pairs with one label of either class. -/
theorem Sound.linked_merge (h : p.Sound) (hx : p.has x = true) (hy : p.has y = true) :
    (p.merge x y).2.Linked a b ↔
      p.Linked a b ∨ (p.Linked a x ∧ p.Linked y b) ∨ (p.Linked a y ∧ p.Linked x b) := by
  refine ⟨merge_linked (merge_of_has hx hy), ?_⟩
  obtain ⟨i, hi⟩ := index?_of_has hx
  obtain ⟨j, hj⟩ := index?_of_has hy
  have ci := index?_eq_some hi
  have cj := index?_eq_some hj
  have hi' := index?_lt hi
  have hj' := index?_lt hj
  unfold Partition.merge
  rw [hi, hj]
  dsimp only
  by_cases same : i = j
  · -- Nothing is to be merged, and the pairs to be added are there.
    subst same
    rw [if_pos rfl]
    have linked : p.Linked x y := ⟨_, ci.1, ci.2, cj.2⟩
    rintro (hab | ⟨ha, hb⟩ | ⟨ha, hb⟩)
    · exact hab
    · exact h.linked_trans (h.linked_trans ha linked) hb
    · exact h.linked_trans (h.linked_trans ha linked.symm) hb
  · rw [if_neg same]
    generalize joined_eq : Partition.union (p.classes.getD i []) (p.classes.getD j []) = joined
    have joined_mem : joined ∈ (p.classes.set i joined).eraseIdx j :=
      List.mem_eraseIdx_iff_getElem?.mpr ⟨i, same, List.getElem?_set_self hi'⟩
    rintro (⟨c, hc, ha, hb⟩ | ⟨ha, hb⟩ | ⟨ha, hb⟩)
    · obtain ⟨k, hk, rfl⟩ := List.getElem_of_mem hc
      rw [getD_eq hi', getD_eq hj'] at joined_eq
      by_cases first : k = i
      · subst first
        exact ⟨joined, joined_mem, joined_eq ▸ mem_union.mpr (.inl ha), joined_eq ▸ mem_union.mpr (.inl hb)⟩
      by_cases second : k = j
      · subst second
        exact ⟨joined, joined_mem, joined_eq ▸ mem_union.mpr (.inr ha), joined_eq ▸ mem_union.mpr (.inr hb)⟩
      refine ⟨p.classes[k], List.mem_eraseIdx_iff_getElem?.mpr ⟨k, second, ?_⟩, ha, hb⟩
      rw [List.getElem?_set_ne (Ne.symm first), List.getElem?_eq_getElem hk]
    · have left := h.mem_of_linked ci.1 ci.2 ha.symm
      have right := h.mem_of_linked cj.1 cj.2 hb
      exact ⟨joined, joined_mem, joined_eq ▸ mem_union.mpr (.inl left), joined_eq ▸ mem_union.mpr (.inr right)⟩
    · have left := h.mem_of_linked cj.1 cj.2 ha.symm
      have right := h.mem_of_linked ci.1 ci.2 hb
      exact ⟨joined, joined_mem, joined_eq ▸ mem_union.mpr (.inr left), joined_eq ▸ mem_union.mpr (.inl right)⟩

/-- What a merge leads to is the least equivalence that extends the state and has the new pair. -/
theorem Sound.merge_relates (h : p.Sound) (hx : p.has x = true) (hy : p.has y = true) :
    (p.merge x y).2.Relates (fun z => p.has z = true)
      (Relation.EqvGen fun a b => p.same a b = true ∨ (a = x ∧ b = y)) := by
  have after := h.merge x y
  have linked (a b : α) := h.linked_merge (a := a) (b := b) hx hy
  refine ⟨fun z => ?_, fun a b ha hb => ⟨fun hab => ?_, fun hab => ?_⟩⟩
  · refine (has_iff_linked.trans (linked z z)).trans (Iff.trans ⟨?_, .inl⟩ has_iff_linked.symm)
    rintro (hz | ⟨hz, -⟩ | ⟨hz, -⟩)
    · exact hz
    · exact hz.self
    · exact hz.self
  · have old {c d : α} (hcd : p.Linked c d) :
        Relation.EqvGen (fun a b => p.same a b = true ∨ (a = x ∧ b = y)) c d :=
      .rel _ _ (.inl (h.same_iff.mpr (.inr hcd)))
    have new : Relation.EqvGen (fun a b => p.same a b = true ∨ (a = x ∧ b = y)) x y := .rel _ _ (.inr ⟨rfl, rfl⟩)
    rw [after.same_iff, linked] at hab
    rcases hab with rfl | hab | ⟨ha, hb⟩ | ⟨ha, hb⟩
    · exact .refl a
    · exact old hab
    · exact ((old ha).trans _ _ _ new).trans _ _ _ (old hb)
    · exact ((old ha).trans _ _ _ (new.symm _ _)).trans _ _ _ (old hb)
  · -- `same` is an equivalence and contains both kinds of generating pairs.
    clear ha hb
    induction hab with
    | rel a b step =>
      rw [after.same_iff, linked]
      rcases step with hab | ⟨rfl, rfl⟩
      · exact (h.same_iff.mp hab).imp_right .inl
      · exact .inr (.inr (.inl ⟨has_iff_linked.mp hx, has_iff_linked.mp hy⟩))
    | refl a => exact same_refl _ a
    | symm a b _ ih => exact same_comm _ a b ▸ ih
    | trans a b c _ _ ihab ihbc => exact same_trans _ ihab ihbc

/-! ## Removing -/

theorem Sound.remove (h : p.Sound) (hr : p.remove x = .ok q) : q.Sound := by
  refine Sound.of_count (fun c hc => ?_) fun z => ?_
  · obtain ⟨before, d, after, hp, -, -, hq⟩ := remove_parts hr
    rw [hq, List.mem_append, List.mem_append] at hc
    rcases hc with (hc | hc) | hc
    · exact h.nonempty c (hp ▸ List.mem_append_left _ hc)
    · simpa using (List.mem_filter.mp hc).2
    · exact h.nonempty c (hp ▸ List.mem_append_right _ (List.mem_cons_of_mem _ hc))
  · have once := h.count_le z
    by_cases same : z = x
    · subst same
      have fewer := remove_count_self hr
      omega
    · rw [remove_count hr same]
      exact once

theorem Sound.linked_remove (h : p.Sound) (hr : p.remove x = .ok q) :
    q.Linked a b ↔ p.Linked a b ∧ a ≠ x ∧ b ≠ x := by
  constructor
  · rintro ⟨c, hc, ha, hb⟩
    obtain ⟨d, hd, kept⟩ := remove_classes hr hc
    have gone {z : α} (hz : z ∈ c) : z ≠ x :=
      ((remove_lists hr (h.count_le x)).mp (mem_members.mpr ⟨c, hc, hz⟩)).2
    exact ⟨⟨d, hd, kept ha, kept hb⟩, gone ha, gone hb⟩
  · rintro ⟨⟨c, hc, ha, hb⟩, hax, hbx⟩
    obtain ⟨before, d, after, hp, -, -, hq⟩ := remove_parts hr
    rw [hp, List.mem_append, List.mem_cons] at hc
    rcases hc with hc | rfl | hc
    · exact ⟨c, by simp [hq, hc], ha, hb⟩
    · have kept : a ∈ c.filter (· ≠ x) := List.mem_filter.mpr ⟨ha, by simpa using hax⟩
      have kept' : b ∈ c.filter (· ≠ x) := List.mem_filter.mpr ⟨hb, by simpa using hbx⟩
      refine ⟨_, ?_, kept, kept'⟩
      have nonempty := List.ne_nil_of_mem kept
      rw [hq]
      generalize c.filter (· ≠ x) = rest at nonempty ⊢
      simp [nonempty]
    · exact ⟨c, by simp [hq, hc], ha, hb⟩

/-! ## Moving -/

theorem Sound.moveTo (h : p.Sound) (x y : α) : (p.moveTo x y).2.Sound := by
  unfold Partition.moveTo
  split
  · exact h
  · cases hr : p.remove x with
    | error e => exact h
    | ok q =>
      have rest := h.remove hr
      dsimp only
      cases hj : q.index? y with
      | none => exact rest
      | some j =>
        dsimp only
        have hj' := index?_lt hj
        refine Sound.of_count (fun c hc => ?_) fun z => ?_
        · rcases List.mem_or_eq_of_mem_set hc with hc | rfl
          · exact rest.nonempty c hc
          · exact union_ne_nil (rest.nonempty _ (index?_eq_some hj).1)
        · have replaced := count_set hj' (Partition.union q.classes[j] [x]) z
          have joined := count_union_le q.classes[j] [x] z
          have once := rest.count_le z
          rw [getD_eq hj']
          unfold members at once ⊢
          dsimp only
          by_cases moved : z = x
          · subst moved
            have gone : q.members.count z = 0 := by
              have fewer := remove_count_self hr
              have once := h.count_le z
              omega
            unfold members at gone
            rw [List.count_singleton_self] at joined
            omega
          · rw [List.count_singleton, if_neg (by simpa using Ne.symm moved)] at joined
            omega

/-- A label that joins a class is linked to what the class lists. -/
theorem Sound.linked_add (h : p.Sound) {j : Nat} (hj : p.index? y = some j) :
    Linked ⟨p.classes.set j (union (p.classes.getD j []) [x])⟩ a b ↔
      p.Linked a b ∨ (a = x ∧ p.Linked y b) ∨ (b = x ∧ p.Linked a y) ∨ (a = x ∧ b = x) := by
  have hj' := index?_lt hj
  have found := index?_eq_some hj
  have joined_mem := List.mem_set hj' (union (p.classes.getD j []) [x])
  constructor
  · rintro ⟨c, hc, ha, hb⟩
    rcases List.mem_or_eq_of_mem_set hc with hc | rfl
    · exact .inl ⟨c, hc, ha, hb⟩
    · rw [mem_union, List.mem_singleton] at ha hb
      rcases ha with ha | rfl <;> rcases hb with hb | rfl
      · exact .inl ⟨_, found.1, ha, hb⟩
      · exact .inr (.inr (.inl ⟨rfl, _, found.1, ha, found.2⟩))
      · exact .inr (.inl ⟨rfl, _, found.1, found.2, hb⟩)
      · exact .inr (.inr (.inr ⟨rfl, rfl⟩))
  · rintro (⟨c, hc, ha, hb⟩ | ⟨rfl, hb⟩ | ⟨rfl, ha⟩ | ⟨rfl, rfl⟩)
    · obtain ⟨k, hk, rfl⟩ := List.getElem_of_mem hc
      by_cases there : k = j
      · subst there
        rw [← getD_eq hj'] at ha hb
        exact ⟨_, joined_mem, mem_union.mpr (.inl ha), mem_union.mpr (.inl hb)⟩
      · refine ⟨p.classes[k], List.mem_of_getElem? (i := k) ?_, ha, hb⟩
        rw [List.getElem?_set_ne (Ne.symm there), List.getElem?_eq_getElem hk]
    · have right := h.mem_of_linked found.1 found.2 hb
      exact ⟨_, joined_mem, mem_union.mpr (.inr (List.mem_singleton_self _)), mem_union.mpr (.inl right)⟩
    · have left := h.mem_of_linked found.1 found.2 ha.symm
      exact ⟨_, joined_mem, mem_union.mpr (.inl left), mem_union.mpr (.inr (List.mem_singleton_self _))⟩
    · exact ⟨_, joined_mem, mem_union.mpr (.inr (List.mem_singleton_self _)),
        mem_union.mpr (.inr (List.mem_singleton_self _))⟩

/-- A label that was moved is linked to what the other label was linked to. -/
theorem Sound.linked_moveTo (h : p.Sound) (hx : p.has x = true) (hy : p.has y = true) :
    (p.moveTo x y).2.Linked a b ↔ p.Linked (if a = x then y else a) (if b = x then y else b) := by
  have known := has_iff_linked.mp hy
  rcases moveTo_cases (moveTo_of_has hx hy) with ⟨same, unchanged⟩ | ⟨q, j, hq, hj, moved⟩
  · have linked : p.Linked x y := by
      rcases h.same_iff.mp same with rfl | linked
      · exact known
      · exact linked
    have other {c d : α} : p.Linked (if c = x then y else c) d ↔ p.Linked c d := by
      split
      · rename_i this
        subst this
        exact ⟨h.linked_trans linked, h.linked_trans linked.symm⟩
      · exact Iff.rfl
    rw [unchanged, other]
    exact ⟨fun hab => (other.mpr hab.symm).symm, fun hab => (other.mp hab.symm).symm⟩
  · have apart : y ≠ x := by
      rintro rfl
      have gone := (mem_members_iff_linked.trans (h.linked_remove hq)).mp
        (mem_members.mpr ⟨_, (index?_eq_some hj).1, (index?_eq_some hj).2⟩)
      exact gone.2.1 rfl
    rw [moved, (h.remove hq).linked_add hj]
    simp only [h.linked_remove hq]
    by_cases hax : a = x <;> by_cases hbx : b = x <;> simp [hax, hbx, apart, known]

theorem Sound.isolate (h : p.Sound) (hi : p.isolate x = .ok q) : q.Sound := by
  obtain ⟨r, hr, rfl⟩ := isolate_ok hi
  refine (h.remove hr).insert ?_
  have gone := (remove_lists (z := x) hr (h.count_le x)).mp
  by_contra listed
  exact (gone (has_iff.mp (by simpa using listed))).2 rfl

theorem Sound.linked_isolate (h : p.Sound) (hi : p.isolate x = .ok q) :
    q.Linked a b ↔ (p.Linked a b ∧ a ≠ x ∧ b ≠ x) ∨ (a = x ∧ b = x) := by
  obtain ⟨r, hr, rfl⟩ := isolate_ok hi
  rw [linked_insert, h.linked_remove hr]

/-! ## Forgetting -/

theorem Sound.separate (h : p.Sound) (fixed : α → Bool) : (p.separate fixed).Sound := by
  refine h.of_relists (separate_relists p fixed) fun c hc => ?_
  simp only [Partition.separate, List.mem_flatten, List.mem_map] at hc
  obtain ⟨_, ⟨d, -, rfl⟩, hc⟩ := hc
  rw [splitClass, List.mem_append, List.mem_map] at hc
  rcases hc with ⟨x, -, rfl⟩ | hc
  · exact List.cons_ne_nil x []
  · split at hc
    · cases hc
    · rename_i nonempty
      rw [List.mem_singleton.mp hc]
      simpa using nonempty

/-- Of the pairs of different labels, those of fixed labels stay. -/
theorem linked_separate {fixed : α → Bool} :
    (p.separate fixed).Linked a b ↔ p.Linked a b ∧ (a = b ∨ (fixed a = true ∧ fixed b = true)) := by
  constructor
  · intro hab
    refine ⟨?_, (separate_linked hab).imp_right fun ⟨ha, hb, _⟩ => ⟨ha, hb⟩⟩
    rcases separate_linked hab with rfl | ⟨-, -, linked⟩
    · exact mem_members_iff_linked.mp
        (((separate_relists p fixed).members a).mp (mem_members_iff_linked.mpr hab))
    · exact linked
  · rintro ⟨linked, rfl | ⟨ha, hb⟩⟩
    · exact mem_members_iff_linked.mp
        (((separate_relists p fixed).members a).mpr (mem_members_iff_linked.mpr linked))
    · obtain ⟨c, hc, hac, hbc⟩ := linked
      have kept : a ∈ c.filter fixed := List.mem_filter.mpr ⟨hac, ha⟩
      refine ⟨c.filter fixed, ?_, kept, List.mem_filter.mpr ⟨hbc, hb⟩⟩
      have nonempty : (c.filter fixed).isEmpty = false := by
        simpa using List.ne_nil_of_mem kept
      refine List.mem_flatten.mpr ⟨_, List.mem_map.mpr ⟨c, hc, rfl⟩, ?_⟩
      simp [splitClass, nonempty]

/-! ## Joining -/

theorem Sound.mem_classOf (h : p.Sound) : b ∈ p.classOf a ↔ p.Linked a b := by
  refine ⟨fun hb => ?_, fun hab => ?_⟩
  · have listed : p.has a = true := by
      by_contra unknown
      have none : p.index? a = Option.none := by simpa [has] using unknown
      rw [classOf, none] at hb
      cases hb
    exact linked_of_classOf (Partition.mem_classOf (has_iff.mp listed)) hb
  · have self := Partition.mem_classOf (mem_members_iff_linked.mpr hab.self)
    rcases classOf_subset p a with none | found
    · rw [none] at self
      cases self
    · exact h.mem_of_linked found self hab

theorem Sound.join (hp : p.Sound) (hq : q.Sound) (hj : p.join q = .ok r) : r.Sound := by
  refine Sound.of_count (fun c hc => ?_) fun z => join_count hj (hp.count_le z) (hq.count_le z)
  obtain ⟨known, rfl⟩ := join_ok hj
  obtain ⟨x, hx, rfl⟩ := List.mem_map.mp (mem_dedupClasses hc)
  refine List.ne_nil_of_mem (a := x) (List.mem_filter.mpr ⟨Partition.mem_classOf hx, ?_⟩)
  exact List.contains_iff_mem.mpr (Partition.mem_classOf (known x hx))

/-- A join knows what both states know. -/
theorem Sound.linked_join (hp : p.Sound) (hq : q.Sound) (hj : p.join q = .ok r) :
    r.Linked a b ↔ p.Linked a b ∧ q.Linked a b := by
  constructor
  · rintro ⟨c, hc, ha, hb⟩
    obtain ⟨x, left, right⟩ := join_classes hj hc
    exact ⟨linked_of_classOf (left ha) (left hb), linked_of_classOf (right ha) (right hb)⟩
  · rintro ⟨linked, linked'⟩
    obtain ⟨-, rfl⟩ := join_ok hj
    have both {z : α} (hz : p.Linked a z) (hz' : q.Linked a z) :
        z ∈ (p.classOf a).filter (q.classOf a).contains :=
      List.mem_filter.mpr ⟨hp.mem_classOf.mpr hz, List.contains_iff_mem.mpr (hq.mem_classOf.mpr hz')⟩
    obtain ⟨d, hd, covers⟩ := dedupClasses_covers
      (List.mem_map.mpr ⟨a, mem_members_iff_linked.mpr linked.self, rfl⟩ :
        (p.classOf a).filter (q.classOf a).contains ∈
          p.members.map fun x => (p.classOf x).filter (q.classOf x).contains)
    exact ⟨d, hd, covers a (both linked.self linked'.self), covers b (both linked linked')⟩

theorem join_of_agree (same : ∀ z, p.has z = q.has z) : ∃ r, p.join q = .ok r := by
  refine join_total fun z => ?_
  rw [← has_iff, ← has_iff, same]

theorem has_join (hj : p.join q = .ok r) (z : α) : r.has z = p.has z := by
  rw [Bool.eq_iff_iff, has_iff, has_iff]
  exact mem_join hj

namespace Sound

variable {s : Partition α}

theorem join_comm (hp : p.Sound) (hq : q.Sound) (same : ∀ z, p.has z = q.has z) :
    ∃ r r', p.join q = .ok r ∧ q.join p = .ok r' ∧ r.Agrees r' := by
  obtain ⟨r, hr⟩ := join_of_agree same
  obtain ⟨r', hr'⟩ := join_of_agree fun z => (same z).symm
  refine ⟨r, r', hr, hr', (hp.join hq hr).agrees (hq.join hp hr') fun a b => ?_⟩
  rw [hp.linked_join hq hr, hq.linked_join hp hr', and_comm]

theorem join_assoc (hp : p.Sound) (hq : q.Sound) (hs : s.Sound) (same : ∀ z, p.has z = q.has z)
    (same' : ∀ z, q.has z = s.has z) :
    ∃ l l' r r', p.join q = .ok l ∧ l.join s = .ok l' ∧ q.join s = .ok r ∧ p.join r = .ok r' ∧ l'.Agrees r' := by
  obtain ⟨l, hl⟩ := join_of_agree same
  obtain ⟨r, hr⟩ := join_of_agree same'
  obtain ⟨l', hl'⟩ := join_of_agree fun z => (has_join hl z).trans ((same z).trans (same' z))
  obtain ⟨r', hr'⟩ := join_of_agree fun z => (same z).trans (has_join hr z).symm
  have soundl := hp.join hq hl
  have soundr := hq.join hs hr
  refine ⟨l, l', r, r', hl, hl', hr, hr', (soundl.join hs hl').agrees (hp.join soundr hr') fun a b => ?_⟩
  rw [soundl.linked_join hs hl', hp.linked_join hq hl, hp.linked_join soundr hr', hq.linked_join hs hr, and_assoc]

theorem join_self (hp : p.Sound) : ∃ r, p.join p = .ok r ∧ r.Agrees p := by
  obtain ⟨r, hr⟩ := join_of_agree fun z => (rfl : p.has z = p.has z)
  refine ⟨r, hr, (hp.join hp hr).agrees hp fun a b => ?_⟩
  rw [hp.linked_join hp hr, and_self]

end Sound

/-! ## The updates together -/

/-- What every update makes of what is known, where `fixed` are the labels that keep their address. -/
structure Specified (fixed : α → Bool) (p : Partition α) : Prop where
  equivalence : Equivalence fun a b : {z // p.has z = true} => p.same a b = true
  insert x : p.has x = false →
    (p.insert x).Relates (fun z => p.has z = true ∨ z = x) (fun a b => p.same a b = true)
  merge x y : p.has x = true → p.has y = true → (p.merge x y).1 = .ok () ∧
    (p.merge x y).2.Relates (fun z => p.has z = true)
      (Relation.EqvGen fun a b => p.same a b = true ∨ (a = x ∧ b = y))
  remove x : p.has x = true → ∃ q, p.remove x = .ok q ∧
    q.Relates (fun z => p.has z = true ∧ z ≠ x) (fun a b => p.same a b = true)
  moveTo x y : p.has x = true → p.has y = true → (p.moveTo x y).1 = .ok () ∧
    (p.moveTo x y).2.Relates (fun z => p.has z = true)
      (fun a b => p.same (if a = x then y else a) (if b = x then y else b) = true)
  isolate x : p.has x = true → ∃ q, p.isolate x = .ok q ∧
    q.Relates (fun z => p.has z = true) (fun a b => a = b ∨ (a ≠ x ∧ b ≠ x ∧ p.same a b = true))
  separate : (p.separate fixed).Relates (fun z => p.has z = true)
    (fun a b => a = b ∨ (fixed a = true ∧ fixed b = true ∧ p.same a b = true))
  project keep : (p.project keep).Relates (fun z => p.has z = true ∧ keep z = true) (fun a b => p.same a b = true)
  join q : q.Sound → (∀ z, p.has z = q.has z) → ∃ r, p.join q = .ok r ∧
    r.Relates (fun z => p.has z = true) (fun a b => p.same a b = true ∧ q.same a b = true)
  join_comm q : q.Sound → (∀ z, p.has z = q.has z) →
    ∃ r r', p.join q = .ok r ∧ q.join p = .ok r' ∧ r.Agrees r'
  join_assoc q s : q.Sound → s.Sound → (∀ z, p.has z = q.has z) → (∀ z, q.has z = s.has z) →
    ∃ l l' r r', p.join q = .ok l ∧ l.join s = .ok l' ∧ q.join s = .ok r ∧ p.join r = .ok r' ∧ l'.Agrees r'
  join_self : ∃ r, p.join p = .ok r ∧ r.Agrees p

theorem same_equivalence (p : Partition α) : Equivalence fun a b : {z // p.has z = true} => p.same a b = true where
  refl a := same_refl p a
  symm h := same_comm p _ _ ▸ h
  trans := same_trans p

namespace Sound

theorem insert_relates (h : p.Sound) (unknown : p.has x = false) :
    (p.insert x).Relates (fun z => p.has z = true ∨ z = x) (fun a b => p.same a b = true) := by
  refine ((h.insert unknown).relates fun a b => linked_insert).congr (fun z => ?_) fun a b ha hb => ?_
  · rw [and_self, has_iff_linked]
  · have other {c d : α} (hcd : p.Linked c d) : c ≠ x := by
      rintro rfl
      rw [has_iff_linked.mpr hcd.self] at unknown
      cases unknown
    rw [h.same_iff]
    constructor
    · rintro (linked | ⟨rfl, rfl⟩)
      · exact .inr linked
      · exact .inl rfl
    · rintro (rfl | linked)
      · exact ha.imp has_iff_linked.mp fun same => ⟨same, same⟩
      · exact .inl linked

theorem remove_relates (h : p.Sound) (hr : p.remove x = .ok q) :
    q.Relates (fun z => p.has z = true ∧ z ≠ x) (fun a b => p.same a b = true) := by
  refine ((h.remove hr).relates fun a b => h.linked_remove hr).congr (fun z => ?_) fun a b ha hb => ?_
  · rw [and_self, has_iff_linked]
  · rw [h.same_iff, and_iff_left ⟨ha.2, hb.2⟩]
    exact ⟨.inr, fun same => same.elim (fun equal => equal ▸ has_iff_linked.mp ha.1) id⟩

theorem moveTo_relates (h : p.Sound) (hx : p.has x = true) (hy : p.has y = true) :
    (p.moveTo x y).2.Relates (fun z => p.has z = true)
      (fun a b => p.same (if a = x then y else a) (if b = x then y else b) = true) := by
  have known (z : α) : p.Linked (if z = x then y else z) (if z = x then y else z) ↔ p.has z = true := by
    by_cases moved : z = x
    · rw [if_pos moved, moved, ← has_iff_linked, hx, hy]
    · rw [if_neg moved, has_iff_linked]
  refine ((h.moveTo x y).relates fun a b => h.linked_moveTo hx hy).congr known fun a b ha hb => ?_
  rw [h.same_iff]
  exact ⟨.inr, fun same => same.elim (fun equal => equal ▸ (known a).mpr ha) id⟩

theorem isolate_relates (h : p.Sound) (hx : p.has x = true) (hi : p.isolate x = .ok q) :
    q.Relates (fun z => p.has z = true) (fun a b => a = b ∨ (a ≠ x ∧ b ≠ x ∧ p.same a b = true)) := by
  refine ((h.isolate hi).relates fun a b => h.linked_isolate hi).congr (fun z => ?_) fun a b ha hb => ?_
  · rw [has_iff_linked]
    by_cases own : z = x
    · subst own
      simp [has_iff_linked.mp hx]
    · simp [own]
  · rw [h.same_iff]
    constructor
    · rintro (⟨linked, hax, hbx⟩ | ⟨rfl, rfl⟩)
      · exact .inr ⟨hax, hbx, .inr linked⟩
      · exact .inl rfl
    · rintro (rfl | ⟨hax, hbx, rfl | linked⟩)
      · by_cases own : a = x
        · exact .inr ⟨own, own⟩
        · exact .inl ⟨has_iff_linked.mp ha, own, own⟩
      · exact .inl ⟨has_iff_linked.mp ha, hax, hbx⟩
      · exact .inl ⟨linked, hax, hbx⟩

theorem separate_relates (h : p.Sound) (fixed : α → Bool) :
    (p.separate fixed).Relates (fun z => p.has z = true)
      (fun a b => a = b ∨ (fixed a = true ∧ fixed b = true ∧ p.same a b = true)) := by
  refine ((h.separate fixed).relates fun a b => linked_separate).congr (fun z => ?_) fun a b ha hb => ?_
  · rw [has_iff_linked]
    exact and_iff_left (.inl rfl)
  · rw [h.same_iff]
    constructor
    · rintro ⟨linked, equal | ⟨hfa, hfb⟩⟩
      · exact .inl equal
      · exact .inr ⟨hfa, hfb, .inr linked⟩
    · rintro (rfl | ⟨hfa, hfb, rfl | linked⟩)
      · exact ⟨has_iff_linked.mp ha, .inl rfl⟩
      · exact ⟨has_iff_linked.mp ha, .inl rfl⟩
      · exact ⟨linked, .inr ⟨hfa, hfb⟩⟩

theorem project_relates (h : p.Sound) (keep : α → Bool) :
    (p.project keep).Relates (fun z => p.has z = true ∧ keep z = true) (fun a b => p.same a b = true) := by
  refine ((h.project keep).relates fun a b => linked_project).congr (fun z => ?_) fun a b ha hb => ?_
  · rw [and_self, has_iff_linked]
  · rw [h.same_iff, and_iff_left ⟨ha.2, hb.2⟩]
    exact ⟨.inr, fun same => same.elim (fun equal => equal ▸ has_iff_linked.mp ha.1) id⟩

theorem join_relates (hp : p.Sound) (hq : q.Sound) (same : ∀ z, p.has z = q.has z) (hj : p.join q = .ok r) :
    r.Relates (fun z => p.has z = true) (fun a b => p.same a b = true ∧ q.same a b = true) := by
  refine ((hp.join hq hj).relates fun a b => hp.linked_join hq hj).congr (fun z => ?_) fun a b ha hb => ?_
  · rw [← has_iff_linked, ← has_iff_linked, ← same, and_self]
  · rw [hp.same_iff, hq.same_iff]
    refine ⟨fun ⟨linked, linked'⟩ => ⟨.inr linked, .inr linked'⟩, ?_⟩
    have self : p.Linked a a ∧ q.Linked a a := ⟨has_iff_linked.mp ha, has_iff_linked.mp (same a ▸ ha)⟩
    rintro ⟨rfl | linked, equal | linked'⟩
    · exact self
    · exact self
    · exact equal ▸ self
    · exact ⟨linked, linked'⟩

theorem specified (h : p.Sound) (fixed : α → Bool) : p.Specified fixed where
  equivalence := same_equivalence p
  insert _ unknown := h.insert_relates unknown
  merge _ _ hx hy := ⟨merge_of_has hx hy, h.merge_relates hx hy⟩
  remove _ hx := (remove_of_has hx).imp fun _ hr => ⟨hr, h.remove_relates hr⟩
  moveTo _ _ hx hy := ⟨moveTo_of_has hx hy, h.moveTo_relates hx hy⟩
  isolate _ hx := (isolate_of_has hx).imp fun _ hi => ⟨hi, h.isolate_relates hx hi⟩
  separate := h.separate_relates fixed
  project keep := h.project_relates keep
  join _ hq same := (join_of_agree same).imp fun _ hj => ⟨hj, h.join_relates hq same hj⟩
  join_comm _ hq same := h.join_comm hq same
  join_assoc _ _ hq hs same same' := h.join_assoc hq hs same same'
  join_self := h.join_self

end Sound

end Partition

end Shroud
