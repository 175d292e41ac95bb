import Mathlib.Data.Fintype.EquivFin
import Shroud.Proofs.Evaluation
import Shroud.Proofs.Guards

/-!
# Simultaneous assignments

An assignment to a tuple writes its components at once: all contents on the right are computed before the first label
is written. What is known about labels is updated component by component. These are not the same.

**Contents.** Once the right-hand side is evaluated its names and tuples have contents (`Expr.Stands`); of anything else,
such as a call, nothing is known. `Expr.writes` says which label gets which content, however tuples are nested.

**Out of order.** A component may read a label that an earlier component has written. The knowledge then takes the two
labels for equal, while the store holds what the label was before. In order is every assignment in which this does not
happen, or only with a label that is assigned to itself.

**Overlooked labels.** If a tuple on the left faces a call, its labels get contents that are not known, but they stay
where they were.

**Results.**

* `Store.Meets.assigned`: moving one label follows the store.
* `Expr.meets_of_inOrder`: so does a list of moves that is in order.
* `Expr.equate_assigned_iff`: an assignment is treated soundly exactly if it is in order and overlooks no label.
* `exchanging_misleads`: a program in which two labels change places.
-/

namespace Shroud

/-! ## Values and assignments -/

section Values

variable {α : Type}

mutual

/-- The content that an evaluated expression has in the store. Of anything but names and tuples it is not known. -/
def Expr.Stands (σ : Store (Content α)) : Expr → Content α → Prop
  | .tuple _ es, v => ∃ vs, v = .tuple vs ∧ Expr.StandAll σ es vs
  | e, v => ∀ x, e.label? = some x → σ x = some v

def Expr.StandAll (σ : Store (Content α)) : List Expr → List (Content α) → Prop
  | [], vs => vs = []
  | e :: es, vs => ∃ w ws, vs = w :: ws ∧ e.Stands σ w ∧ Expr.StandAll σ es ws

end

mutual

/-- What is written to the labels on the left when the content is assigned, part by part for tuples. -/
def Expr.writes : Expr → Content α → List (Label × Content α)
  | .tuple _ ls, v =>
    match v with
    | .tuple vs => Expr.writesAll ls vs
    | _ => []
  | l, v => (l.label?.map fun x => (x, v)).toList

def Expr.writesAll : List Expr → List (Content α) → List (Label × Content α)
  | l :: ls, v :: vs => l.writes v ++ Expr.writesAll ls vs
  | _, _ => []

end

/-- Write to labels, the first one first. -/
def Store.write (σ : Store α) (ws : List (Label × α)) : Store α :=
  ws.foldl (fun σ w => Function.update σ w.1 (some w.2)) σ

end Values

/-- The labels that an assignment to the expression writes. -/
def Expr.written (l : Expr) : List Label := l.assignees.filterMap Expr.label?

mutual

/-- The labels in tuples on the left whose counterpart on the right is not written as a tuple. -/
def Expr.overlooked : Expr → Expr → List Label
  | .tuple i ls, r =>
    match r with
    | .tuple _ rs => Expr.overlookedAll ls rs
    | _ => (Expr.tuple i ls).written
  | _, _ => []

def Expr.overlookedAll : List Expr → List Expr → List Label
  | l :: ls, r :: rs => l.overlooked r ++ Expr.overlookedAll ls rs
  | _, _ => []

end

/-- No pair takes its value from a label that an earlier pair has changed. -/
def Expr.InOrder (ps : List (Option Label × Option Label)) : Prop :=
  ps.Pairwise fun p q => p.1 ≠ none → q.1 ≠ none → q.2 = p.1 → p.2 = p.1

instance (ps : List (Option Label × Option Label)) : Decidable (Expr.InOrder ps) := by
  unfold Expr.InOrder
  infer_instance


/-! ## Moving one label -/

namespace Partition

variable {α : Type} [DecidableEq α] {p q : Partition α} {x y z : α}

/-- At most one class lists the label. -/
def ListsOnce (p : Partition α) (x : α) : Prop := p.classes.countP (x ∈ ·) ≤ 1

theorem listsOnce_pair (apart : x ≠ y) : (⟨[[x], [y]]⟩ : Partition α).ListsOnce z := by
  unfold ListsOnce
  rw [List.countP_cons, List.countP_singleton]
  by_cases hx : z = x
  · subst hx
    simp [apart]
  · simp only [List.mem_singleton, hx, decide_false]
    split <;> simp

theorem not_mem_remove (once : p.ListsOnce x) (h : p.remove x = .ok q) : x ∉ q.members := by
  obtain ⟨before, c, after, hp, first, found, hq⟩ := remove_parts h
  have later : ∀ d ∈ after, x ∉ d := by
    unfold ListsOnce at once
    rw [hp, List.countP_append, List.countP_cons_of_pos (by simpa using found)] at once
    have none : after.countP (x ∈ ·) = 0 := by omega
    simpa [List.countP_eq_zero] using none
  intro hx
  obtain ⟨d, hd, hx⟩ := mem_members.mp hx
  rw [hq, List.mem_append, List.mem_append] at hd
  rcases hd with (hd | hd) | hd
  · exact first d hd hx
  · obtain rfl := List.mem_singleton.mp (List.mem_filter.mp hd).1
    simp at hx
  · exact later d hd hx

theorem ListsOnce.remove (once : p.ListsOnce x) (h : p.remove z = .ok q) : q.ListsOnce x := by
  obtain ⟨before, c, after, hp, -, -, hq⟩ := remove_parts h
  have fewer : ([c.filter (· ≠ z)].filter fun d => !d.isEmpty).countP (x ∈ ·) ≤ [c].countP (x ∈ ·) := by
    refine Nat.le_trans (List.filter_sublist.countP_le) ?_
    by_cases hx : x ∈ c <;> by_cases hz : x = z <;> simp [List.countP_singleton, hx, hz]
  unfold ListsOnce at once ⊢
  rw [hp, ← List.singleton_append, List.countP_append, List.countP_append] at once
  rw [hq, List.countP_append, List.countP_append]
  omega

theorem ListsOnce.insert (once : p.ListsOnce x) (other : x ≠ z) : (p.insert z).ListsOnce x := by
  unfold ListsOnce Partition.insert at *
  simpa [List.countP_append, other] using once

theorem ListsOnce.isolate (once : p.ListsOnce x) (other : x ≠ z) (h : p.isolate z = .ok q) : q.ListsOnce x := by
  obtain ⟨r, hr, rfl⟩ := isolate_ok h
  exact (once.remove hr).insert other

theorem ListsOnce.moveTo (once : p.ListsOnce x) (other : x ≠ z) (h : (p.moveTo z y).1 = .ok ()) :
    (p.moveTo z y).2.ListsOnce x := by
  rcases moveTo_cases h with ⟨-, hp⟩ | ⟨q, j, hq, hj, hp⟩
  · rw [hp]
    exact once
  · rw [hp]
    have once := once.remove hq
    obtain ⟨bound, -⟩ := List.findIdx?_eq_some_iff_getElem.mp hj
    have same : x ∈ union (q.classes.getD j []) [z] ↔ x ∈ q.classes[j] := by
      simp [mem_union, other, bound]
    unfold ListsOnce at once ⊢
    simp only [List.countP_set bound, same]
    split <;> omega

end Partition

namespace Knowledge

variable {α : Type} {σ : Store α} {k k' : Knowledge} {x : Label} {y : Option Label} {v : α}

/-- Assign the values of all pairs, one after the other. -/
def transfer (k : Knowledge) (ps : List (Option Label × Option Label)) : Except Error Knowledge :=
  ps.foldlM (fun k p => k.equateLabels .assigned p.1 p.2) k

/-- Only an assigned label may come to stand in another class. -/
theorem equateLabels_listsOnce {l r : Option Label} (once : k.ListsOnce x) (other : l ≠ some x)
    (h : k.equateLabels .assigned l r = .ok k') : k'.ListsOnce x := by
  rcases equateLabels_cases h with ⟨-, rfl⟩ | ⟨z, rfl, -, h | ⟨y, -, ⟨how, -⟩ | ⟨-, h⟩⟩⟩
  · exact once
  · exact once.isolate (fun same => other (same ▸ rfl)) h
  · cases how
  · obtain ⟨done, rfl⟩ := ofUpdate_ok h
    exact once.moveTo (fun same => other (same ▸ rfl)) done

end Knowledge

namespace Store

variable {α : Type} {σ : Store α} {k k' : Knowledge} {x : Label} {v : α}

theorem Agree.update {a b : Label} (h : σ.Agree a b) (ha : a ≠ x) (hb : b ≠ x) :
    Store.Agree (Function.update σ x (some v)) a b := by
  rcases h with rfl | ⟨w, hσa, hσb⟩
  · exact .inl rfl
  · exact .inr ⟨w, by rw [Function.update_of_ne ha, hσa], by rw [Function.update_of_ne hb, hσb]⟩

/-- A label that nothing is known about may get any content. -/
theorem Meets.write_unlisted (hk : σ.Meets k) (hx : x ∉ k.members) : Store.Meets (Function.update σ x (some v)) k := by
  rintro a b ⟨c, hc, ha, hb⟩
  refine (hk a b ⟨c, hc, ha, hb⟩).update ?_ ?_
  · rintro rfl
    exact hx (Partition.mem_members.mpr ⟨c, hc, ha⟩)
  · rintro rfl
    exact hx (Partition.mem_members.mpr ⟨c, hc, hb⟩)

/-- Moving the assigned label to the class of the label that its content comes from. -/
theorem Meets.assigned {y : Option Label} (hk : σ.Meets k) (once : k.ListsOnce x)
    (h : k.equateLabels .assigned (some x) y = .ok k') (hv : ∀ z, y = some z → σ z = some v) :
    Store.Meets (Function.update σ x (some v)) k' := by
  have alone {q : Knowledge} (hq : k.remove x = .ok q) {a b : Label} (hab : q.Linked a b) :
      a ≠ x ∧ b ≠ x ∧ σ.Agree a b := by
    have gone := Partition.not_mem_remove once hq
    obtain ⟨c, hc, ha, hb⟩ := hab
    refine ⟨?_, ?_, (hk.finer (Partition.remove_finer hq)) a b ⟨c, hc, ha, hb⟩⟩
    · rintro rfl
      exact gone (Partition.mem_members.mpr ⟨c, hc, ha⟩)
    · rintro rfl
      exact gone (Partition.mem_members.mpr ⟨c, hc, hb⟩)
  rcases Knowledge.equateLabels_cases h with ⟨unlisted, rfl⟩ | ⟨_, ⟨⟩, -, h | ⟨y, rfl, ⟨how, -⟩ | ⟨-, h⟩⟩⟩
  · refine hk.write_unlisted fun listed => ?_
    rw [← Partition.has_iff, unlisted x rfl] at listed
    cases listed
  · obtain ⟨q, hq, rfl⟩ := Partition.isolate_ok h
    rintro a b ⟨c, hc, ha, hb⟩
    rcases List.mem_append.mp hc with hc | hc
    · obtain ⟨hax, hbx, agree⟩ := alone hq ⟨c, hc, ha, hb⟩
      exact agree.update hax hbx
    · rw [List.mem_singleton.mp hc, List.mem_singleton] at ha hb
      exact .inl (ha.trans hb.symm)
  · cases how
  · obtain ⟨done, rfl⟩ := Knowledge.ofUpdate_ok h
    have hy := hv y rfl
    rcases Partition.moveTo_cases done with ⟨same, hp⟩ | ⟨q, j, hq, hj, hp⟩
    · -- The label holds the content already.
      have kept : σ x = some v := by
        rcases Partition.linked_of_same same with rfl | linked
        · exact hy
        · rcases hk x y linked with rfl | ⟨w, hx, hw⟩
          · exact hy
          · rw [hx, ← hw, hy]
      rw [hp, ← kept, Function.update_eq_self]
      exact hk
    · rw [hp]
      have found := Partition.index?_eq_some hj
      have joins {a : Label} (ha : a ∈ Partition.union (q.classes.getD j []) [x]) :
          Function.update σ x (some v) a = some v := by
        rcases Partition.mem_union.mp ha with ha | ha
        · obtain ⟨hax, -, rfl | ⟨w, hσa, hσy⟩⟩ := alone hq ⟨_, found.1, ha, found.2⟩
          · rw [Function.update_of_ne hax, hy]
          · rw [Function.update_of_ne hax, hσa, ← hσy, hy]
        · rw [List.mem_singleton.mp ha, Function.update_self]
      rintro a b ⟨c, hc, ha, hb⟩
      rcases List.mem_or_eq_of_mem_set hc with hc | rfl
      · obtain ⟨hax, hbx, agree⟩ := alone hq ⟨c, hc, ha, hb⟩
        exact agree.update hax hbx
      · exact .inr ⟨v, joins ha, joins hb⟩

end Store

/-! ## Pairs in order -/

namespace Expr

variable {α : Type} {σ : Store (Content α)}

/-- The writes of pairs, each with its content. -/
def stores (ts : List ((Option Label × Option Label) × Content α)) : List (Label × Content α) :=
  ts.filterMap fun t => t.1.1.map fun x => (x, t.2)

/-- The content is that of the label that it is taken from. -/
def Read (σ : Store (Content α)) (t : (Option Label × Option Label) × Content α) : Prop :=
  ∀ x y, t.1.1 = some x → t.1.2 = some y → σ y = some t.2

/-- A content that goes to no label is that of any. -/
theorem read_nowhere {y : Option Label} {v : Content α} : Read σ ((none, y), v) := fun _ _ h => by cases h

/-- The labels written by the expressions in turn. -/
def writtenAll (ls : List Expr) : List Label := (assignees.assigneesAll ls).filterMap label?

theorem writtenAll_cons (l : Expr) (ls : List Expr) : writtenAll (l :: ls) = l.written ++ writtenAll ls :=
  List.filterMap_append

section Single

variable {l : Expr} (single : ∀ i es, l ≠ .tuple i es)

include single

theorem written_single : l.written = l.label?.toList := by
  have one : l.assignees = [l] := by
    cases l with
    | tuple i es => exact absurd rfl (single i es)
    | _ => rfl
  rw [written, one]
  cases h : l.label? <;> simp [h]

theorem writes_single (v : Content α) : l.writes v = (l.label?.map fun x => (x, v)).toList := by
  cases l with
  | tuple i es => exact absurd rfl (single i es)
  | _ => rfl

theorem overlooked_single (r : Expr) : l.overlooked r = [] := by
  cases l with
  | tuple i es => exact absurd rfl (single i es)
  | _ => rfl

end Single

/-- Labels are written in the order in which they stand on the left. -/
theorem writes_sublist (l : Expr) (v : Content α) : ((l.writes v).map Prod.fst).Sublist l.written := by
  induction l using Expr.tupleOn generalizing v with
  | tuple i ls ih =>
    cases v with
    | tuple vs =>
      change ((writesAll ls vs).map Prod.fst).Sublist (writtenAll ls)
      induction ls generalizing vs with
      | nil => exact List.nil_sublist _
      | cons l ls ihl =>
        cases vs with
        | nil => exact List.nil_sublist _
        | cons v vs =>
          rw [writesAll, List.map_append, writtenAll_cons]
          exact (ih l List.mem_cons_self v).append (ihl (fun l hl => ih l (List.mem_cons_of_mem _ hl)) vs)
    | word | truth => exact List.nil_sublist _
  | single l single =>
    rw [written_single single, writes_single single]
    cases l.label? <;> simp

/-- Nothing is written if no label is. -/
theorem writes_nil {l : Expr} {v : Content α} (h : l.written = []) : l.writes v = [] := by
  have none := writes_sublist l v
  rw [h, List.sublist_nil, List.map_eq_nil_iff] at none
  exact none

/-- If nothing is overlooked, each pair stands for one write of the content on its right. -/
theorem writes_eq {l r : Expr} {v : Content α} (hl : l.overlooked r = []) (hr : r.Stands σ v) :
    ∃ ts, ts.map Prod.fst = l.pairs r ∧ (∀ t ∈ ts, Read σ t) ∧ l.writes v = stores ts := by
  induction l using Expr.tupleOn generalizing r v with
  | tuple i ls ih =>
    cases r with
    | tuple j rs =>
      obtain ⟨vs, rfl, hr⟩ := hr
      change ∃ ts, ts.map Prod.fst = pairsAll ls rs ∧ (∀ t ∈ ts, Read σ t) ∧ writesAll ls vs = stores ts
      change overlookedAll ls rs = [] at hl
      induction ls generalizing rs vs with
      | nil => exact ⟨[], rfl, List.forall_mem_nil _, rfl⟩
      | cons l ls ihl =>
        cases rs with
        | nil =>
          obtain rfl := hr
          exact ⟨[], rfl, List.forall_mem_nil _, rfl⟩
        | cons r rs =>
          obtain ⟨w, ws, rfl, hr, hrs⟩ := hr
          rw [overlookedAll, List.append_eq_nil_iff] at hl
          obtain ⟨ts, hts, read, here⟩ := ih l List.mem_cons_self hl.1 hr
          obtain ⟨us, hus, read', rest⟩ := ihl (fun l hl => ih l (List.mem_cons_of_mem _ hl)) rs ws hrs hl.2
          refine ⟨ts ++ us, ?_, List.forall_mem_append.mpr ⟨read, read'⟩, ?_⟩
          · rw [List.map_append, hts, hus, pairsAll]
          · rw [writesAll, here, rest]
            exact List.filterMap_append.symm
    | _ =>
      refine ⟨[((none, _), v)], rfl, List.forall_mem_singleton.mpr read_nowhere, ?_⟩
      rw [writes_nil hl]
      rfl
  | single l single =>
    rw [pairs_single single, writes_single single]
    refine ⟨[((l.label?, r.label?), v)], rfl, List.forall_mem_singleton.mpr fun _ y _ => ?_, ?_⟩
    · cases r with
      | tuple => nofun
      | _ => exact hr y
    · cases h : l.label? <;> simp [stores]

/-- Labels that are overlooked are written, but in no pair. -/
theorem count_pairs (x : Label) (l r : Expr) :
    ((l.pairs r).filterMap Prod.fst).count x + (l.overlooked r).count x ≤ l.written.count x := by
  induction l using Expr.tupleOn generalizing r with
  | tuple i ls ih =>
    cases r with
    | tuple j rs =>
      change ((pairsAll ls rs).filterMap Prod.fst).count x + (overlookedAll ls rs).count x ≤ (writtenAll ls).count x
      induction ls generalizing rs with
      | nil => exact Nat.zero_le _
      | cons l ls ihl =>
        cases rs with
        | nil => exact Nat.zero_le _
        | cons r rs =>
          have here := ih l List.mem_cons_self r
          have rest := ihl (fun l hl => ih l (List.mem_cons_of_mem _ hl)) rs
          rw [pairsAll, overlookedAll, writtenAll_cons, List.filterMap_append]
          simp only [List.count_append]
          omega
    | _ => exact Nat.le_of_eq (Nat.zero_add _)
  | single l single =>
    rw [pairs_single single, overlooked_single single, written_single single]
    cases l.label? <;> simp

/-- Knowledge that is updated pair by pair follows a store that is written label by label. -/
theorem meets_of_inOrder {ts : List ((Option Label × Option Label) × Content α)} {k k' : Knowledge}
    (read : ∀ t ∈ ts, Read σ t) (order : InOrder (ts.map Prod.fst))
    (distinct : ((ts.map Prod.fst).filterMap Prod.fst).Nodup)
    (once : ∀ x ∈ (ts.map Prod.fst).filterMap Prod.fst, k.ListsOnce x) (hk : σ.Meets k)
    (h : k.transfer (ts.map Prod.fst) = .ok k') :
    (σ.write (stores ts)).Meets k' := by
  induction ts generalizing σ k with
  | nil =>
    cases h
    exact hk
  | cons t ts ih =>
    rw [List.map_cons] at order distinct once h
    rw [Knowledge.transfer, List.foldlM_cons] at h
    obtain ⟨q, hq, rest⟩ := except_bind_ok h
    obtain ⟨now, later⟩ := List.pairwise_cons.mp order
    obtain ⟨here, others⟩ := List.forall_mem_cons.mp read
    obtain ⟨⟨x, y⟩, w⟩ := t
    cases x with
    | none =>
      cases hq
      exact ih others later distinct once hk rest
    | some x =>
      have split : ((some x, y) :: ts.map Prod.fst).filterMap Prod.fst =
          x :: (ts.map Prod.fst).filterMap Prod.fst := rfl
      rw [split] at distinct once
      obtain ⟨fresh, apart⟩ := List.nodup_cons.mp distinct
      obtain ⟨first, listed⟩ := List.forall_mem_cons.mp once
      have step : Store.Meets (Function.update σ x (some w)) q := hk.assigned first hq fun z hz => here x z rfl hz
      refine ih (fun t ht z u hz hu => ?_) later apart (fun z hz => ?_) step rest
      · change Function.update σ x (some w) u = some t.2
        by_cases same : u = x
        · -- What was written to the label is what it held before.
          subst same
          have held := here u u rfl (now t.1 (List.mem_map_of_mem ht) nofun (by simp [hz]) hu)
          rw [Function.update_self, ← held]
          exact others t ht z u hz hu
        · rw [Function.update_of_ne same]
          exact others t ht z u hz hu
      · refine Knowledge.equateLabels_listsOnce (listed z hz) ?_ hq
        rintro ⟨⟩
        exact fresh hz

end Expr

/-! ## Stores that contradict -/

namespace Store

variable {α : Type} {σ : Store α} {x : Label} {w : α} {ws : List (Label × α)}

theorem write_of_not_mem (h : x ∉ ws.map Prod.fst) : σ.write ws x = σ x := by
  induction ws generalizing σ with
  | nil => rfl
  | cons u ws ih =>
    rw [List.map_cons, List.mem_cons, not_or] at h
    have rest : (Store.write (Function.update σ u.1 (some u.2)) ws) x = Function.update σ u.1 (some u.2) x := ih h.2
    rw [Function.update_of_ne h.1] at rest
    exact rest

theorem write_of_mem (distinct : (ws.map Prod.fst).Nodup) (h : (x, w) ∈ ws) : σ.write ws x = some w := by
  induction ws generalizing σ with
  | nil => cases h
  | cons u ws ih =>
    rw [List.map_cons, List.nodup_cons] at distinct
    rcases List.mem_cons.mp h with rfl | h
    · have rest : (Store.write (Function.update σ x (some w)) ws) x = Function.update σ x (some w) x :=
        write_of_not_mem distinct.1
      rw [Function.update_self] at rest
      exact rest
    · exact ih distinct.2 h

end Store

namespace Expr

variable {α : Type}

mutual

/-- The content of an expression if `d` is that of everything but names and tuples. -/
def reading (σ : Label → Content α) (d : Content α) : Expr → Content α
  | .tuple _ es => .tuple (readingAll σ d es)
  | e => (e.label?.map σ).getD d

def readingAll (σ : Label → Content α) (d : Content α) : List Expr → List (Content α)
  | [] => []
  | e :: es => e.reading σ d :: readingAll σ d es

end

mutual

/-- A content that can be assigned to the expression. -/
def fitting : Expr → Content α
  | .tuple _ es => .tuple (fittingAll es)
  | _ => .truth true

def fittingAll : List Expr → List (Content α)
  | [] => []
  | e :: es => e.fitting :: fittingAll es

end

section Single

variable {e : Expr} (single : ∀ i es, e ≠ .tuple i es)

include single

theorem stands_single {σ : Store (Content α)} {v : Content α} :
    e.Stands σ v ↔ ∀ x, e.label? = some x → σ x = some v := by
  cases e with
  | tuple i es => exact absurd rfl (single i es)
  | _ => exact Iff.rfl

theorem reading_single (σ : Label → Content α) (d : Content α) : e.reading σ d = (e.label?.map σ).getD d := by
  cases e with
  | tuple i es => exact absurd rfl (single i es)
  | _ => rfl

theorem reading_const (v : Content α) : e.reading (fun _ => v) v = v := by
  rw [reading_single single]
  cases e.label? <;> rfl

theorem tuple_overlooked (i : Info) (ls : List Expr) : (Expr.tuple i ls).overlooked e = (Expr.tuple i ls).written := by
  cases e with
  | tuple j es => exact absurd rfl (single j es)
  | _ => rfl

theorem fitting_single : e.fitting = (.truth true : Content α) := by
  cases e with
  | tuple i es => exact absurd rfl (single i es)
  | _ => rfl

end Single

theorem reading_label {σ : Label → Content α} {d : Content α} {e : Expr} {x : Label} (h : e.label? = some x) :
    e.reading σ d = σ x := by
  have single : ∀ i es, e ≠ .tuple i es := by
    rintro i es rfl
    cases h
  rw [reading_single single, h]
  rfl

theorem reading_unknown (σ : Label → Content α) (d : Content α) {e : Expr} (h : e.label? = none) :
    e.reading σ d = d ∨ ∃ vs, e.reading σ d = .tuple vs := by
  induction e using Expr.tupleOn with
  | tuple i es => exact .inr ⟨_, rfl⟩
  | single e single =>
    rw [reading_single single, h]
    exact .inl rfl

theorem stands_reading (σ : Label → Content α) (d : Content α) (e : Expr) :
    e.Stands (fun x => some (σ x)) (e.reading σ d) := by
  induction e using Expr.tupleOn with
  | tuple i es ih =>
    refine ⟨readingAll σ d es, rfl, ?_⟩
    induction es with
    | nil => rfl
    | cons e es ihe =>
      exact ⟨_, _, rfl, ih e List.mem_cons_self, ihe fun e he => ih e (List.mem_cons_of_mem _ he)⟩
  | single e single =>
    refine (stands_single single).mpr fun x hx => ?_
    rw [reading_single single, hx]
    rfl

/-- The content that a pair writes. -/
theorem mem_writes_reading {σ : Label → Content α} {d : Content α} {l r : Expr} {p : Option Label × Option Label}
    {x : Label} (hp : p ∈ l.pairs r) (hx : p.1 = some x) :
    ∃ w, (x, w) ∈ l.writes (r.reading σ d) ∧ (∀ y, p.2 = some y → w = σ y) ∧
      (p.2 = none → w = d ∨ ∃ ws, w = .tuple ws) := by
  induction l using Expr.tupleOn generalizing r with
  | tuple i ls ih =>
    cases r with
    | tuple j rs =>
      change ∃ w, (x, w) ∈ writesAll ls (readingAll σ d rs) ∧ _
      change p ∈ pairsAll ls rs at hp
      induction ls generalizing rs with
      | nil => cases hp
      | cons l ls ihl =>
        cases rs with
        | nil => cases hp
        | cons r rs =>
          rw [readingAll, writesAll]
          rcases List.mem_append.mp hp with hp | hp
          · obtain ⟨w, hw, found⟩ := ih l List.mem_cons_self hp
            exact ⟨w, List.mem_append_left _ hw, found⟩
          · obtain ⟨w, hw, found⟩ := ihl (fun l hl => ih l (List.mem_cons_of_mem _ hl)) rs hp
            exact ⟨w, List.mem_append_right _ hw, found⟩
    | _ =>
      rw [List.mem_singleton.mp hp] at hx
      cases hx
  | single l single =>
    rw [pairs_single single, List.mem_singleton] at hp
    subst hp
    have hx : l.label? = some x := hx
    refine ⟨r.reading σ d, ?_, fun y hy => reading_label hy, fun unknown => reading_unknown σ d unknown⟩
    simp [writes_single single, hx]

theorem mem_writes_fitting {l : Expr} {x : Label} (h : x ∈ l.written) :
    (x, .truth true) ∈ l.writes (l.fitting : Content α) := by
  induction l using Expr.tupleOn with
  | tuple i ls ih =>
    change (x, .truth true) ∈ writesAll ls (fittingAll ls)
    change x ∈ writtenAll ls at h
    induction ls with
    | nil => cases h
    | cons l ls ihl =>
      rw [writtenAll_cons] at h
      rw [fittingAll, writesAll]
      rcases List.mem_append.mp h with h | h
      · exact List.mem_append_left _ (ih l List.mem_cons_self h)
      · exact List.mem_append_right _ (ihl (fun l hl => ih l (List.mem_cons_of_mem _ hl)) h)
  | single l single =>
    rw [written_single single, Option.mem_toList] at h
    simp [writes_single single, fitting_single single, h]

/-- A label that is overlooked may get any content. -/
theorem mem_writes_overlooked {l r : Expr} {x : Label} (h : x ∈ l.overlooked r) :
    ∃ vs : List (Content α), (x, .truth true) ∈ l.writes (r.reading (fun _ => .tuple vs) (.tuple vs)) := by
  induction l using Expr.tupleOn generalizing r with
  | tuple i ls ih =>
    induction r using Expr.tupleOn with
    | tuple j rs ihr =>
      clear ihr
      change ∃ vs : List (Content α), (x, _) ∈ writesAll ls (readingAll (fun _ => .tuple vs) (.tuple vs) rs)
      change x ∈ overlookedAll ls rs at h
      induction ls generalizing rs with
      | nil => cases h
      | cons l ls ihl =>
        cases rs with
        | nil => cases h
        | cons r rs =>
          rcases List.mem_append.mp h with h | h
          · obtain ⟨vs, hw⟩ := ih l List.mem_cons_self h
            exact ⟨vs, List.mem_append_left _ hw⟩
          · obtain ⟨vs, hw⟩ := ihl (fun l hl => ih l (List.mem_cons_of_mem _ hl)) rs h
            exact ⟨vs, List.mem_append_right _ hw⟩
    | single r single =>
      rw [tuple_overlooked single] at h
      refine ⟨fittingAll ls, ?_⟩
      rw [reading_const single]
      exact mem_writes_fitting h
  | single l single =>
    rw [overlooked_single single] at h
    cases h

end Expr

/-! ## Knowledge that is contradicted -/

namespace Knowledge

variable {k k' : Knowledge} {ps as bs cs : List (Option Label × Option Label)} {x z : Label} {y : Option Label}

/-- Labels that are not listed are passed over. -/
theorem transfer_unlisted (h : ∀ p ∈ ps, ∀ x, p.1 = some x → x ∉ k.members) : k.transfer ps = .ok k := by
  induction ps with
  | nil => rfl
  | cons p ps ih =>
    obtain ⟨here, rest⟩ := List.forall_mem_cons.mp h
    have passed : k.equateLabels .assigned p.1 p.2 = .ok k := by
      obtain ⟨x, y⟩ := p
      cases x with
      | none => rfl
      | some x =>
        have unlisted : k.has x = false := by
          rw [Bool.eq_false_iff, ne_eq, Partition.has_iff]
          exact here x rfl
        simp [equateLabels, unlisted]
    rw [transfer, List.foldlM_cons, passed]
    exact ih rest

theorem transfer_append : k.transfer (as ++ bs) = k.transfer as >>= fun q => q.transfer bs :=
  List.foldlM_append

/-- A label that takes its value from one that was changed before is taken for equal to it. -/
theorem transfer_linked (changed : y ≠ some x)
    (distinct : ((as ++ (some x, y) :: (bs ++ (some z, some x) :: cs)).filterMap Prod.fst).Nodup) :
    ∃ k', transfer ⟨[[x], [z]]⟩ (as ++ (some x, y) :: (bs ++ (some z, some x) :: cs)) = .ok k' ∧ k'.Linked x z := by
  simp only [List.filterMap_append, List.filterMap_cons, List.nodup_append, List.nodup_cons, List.mem_append,
    List.mem_cons, not_or] at distinct
  have apart : x ≠ z := by grind
  have passed {k : Knowledge} {ds : List (Option Label × Option Label)} (hk : k.members ⊆ [x, z])
      (hx : x ∉ ds.filterMap Prod.fst) (hz : z ∉ ds.filterMap Prod.fst) : k.transfer ds = .ok k := by
    refine transfer_unlisted fun p hp u hu listed => ?_
    have assigned : u ∈ ds.filterMap Prod.fst := List.mem_filterMap.mpr ⟨p, hp, hu⟩
    rcases List.mem_cons.mp (hk listed) with rfl | same
    · exact hx assigned
    · rw [List.mem_singleton.mp same] at assigned
      exact hz assigned
  have first : ∃ k, equateLabels .assigned ⟨[[x], [z]]⟩ (some x) y = .ok k ∧ k.members ⊆ [x, z] ∧
      ∃ k', equateLabels .assigned k (some z) (some x) = .ok k' ∧ k'.members ⊆ [x, z] ∧ k'.Linked x z := by
    by_cases other : y = some z
    · refine ⟨⟨[[z, x]]⟩, ?_, by simp [Partition.members], ⟨[[z, x]]⟩, ?_, by simp [Partition.members], ?_⟩
      · simp [other, equateLabels, Partition.has, Partition.index?, Partition.moveTo, Partition.same, Partition.remove,
          Partition.union, ofUpdate, apart, apart.symm, List.findIdx?_cons]
      · simp [equateLabels, Partition.has, Partition.index?, Partition.moveTo, Partition.same, ofUpdate,
          apart, apart.symm, List.findIdx?_cons]
      · exact ⟨[z, x], by simp, by simp, by simp⟩
    · refine ⟨⟨[[z], [x]]⟩, ?_, by simp [Partition.members], ⟨[[x, z]]⟩, ?_, by simp [Partition.members], ?_⟩
      · have unlisted : ∀ u, y = some u → Partition.has (⟨[[x], [z]]⟩ : Knowledge) u = false := by
          rintro u rfl
          have hx : u ≠ x := fun same => changed (same ▸ rfl)
          have hz : u ≠ z := fun same => other (same ▸ rfl)
          simp [Partition.has, Partition.index?, List.findIdx?_cons, hx, hz]
        cases y <;> simp_all [equateLabels, Partition.has, Partition.index?, Partition.isolate, Partition.remove,
          Partition.insert, ofResult, List.findIdx?_cons]
      · simp [equateLabels, Partition.has, Partition.index?, Partition.moveTo, Partition.same, Partition.remove,
          Partition.union, ofUpdate, apart, apart.symm, List.findIdx?_cons]
      · exact ⟨[x, z], by simp, by simp, by simp⟩
  obtain ⟨k, hk, sub, k', hk', sub', linked⟩ := first
  refine ⟨k', ?_, linked⟩
  rw [transfer_append, passed (by simp [Partition.members]) (by grind) (by grind)]
  change transfer _ _ = _
  rw [transfer, List.foldlM_cons, hk]
  change transfer _ _ = _
  rw [transfer_append, passed sub (by grind) (by grind)]
  change transfer _ _ = _
  rw [transfer, List.foldlM_cons, hk']
  exact passed sub' (by grind) (by grind)

end Knowledge

namespace Expr

variable {α : Type} {l r : Expr} {x : Label} {ps : List (Option Label × Option Label)}

/-- Two pairs that are out of order. -/
theorem exists_of_not_inOrder (h : ¬ InOrder ps) : ∃ as x y bs z cs,
    ps = as ++ (some x, y) :: (bs ++ (some z, some x) :: cs) ∧ y ≠ some x := by
  induction ps with
  | nil => exact absurd List.Pairwise.nil h
  | cons p ps ih =>
    by_cases later : InOrder ps
    · rw [InOrder, List.pairwise_cons] at h
      obtain ⟨q, hq, hp, hz, hx, changed⟩ : ∃ q ∈ ps, p.1 ≠ none ∧ q.1 ≠ none ∧ q.2 = p.1 ∧ p.2 ≠ p.1 := by
        by_contra none
        push Not at none
        exact h ⟨none, later⟩
      obtain ⟨bs, cs, rfl⟩ := List.append_of_mem hq
      obtain ⟨x, hx'⟩ := Option.ne_none_iff_exists'.mp hp
      obtain ⟨z, hz'⟩ := Option.ne_none_iff_exists'.mp hz
      obtain ⟨_, y⟩ := p
      obtain ⟨_, _⟩ := q
      cases hx'
      cases hz'
      cases hx
      exact ⟨[], x, y, bs, z, cs, rfl, changed⟩
    · obtain ⟨as, x, y, bs, z, cs, rfl, changed⟩ := ih later
      exact ⟨p :: as, x, y, bs, z, cs, rfl, changed⟩

theorem equate_eq_transfer (k : Knowledge) (l r : Expr) : l.equate .assigned k r = k.transfer (l.pairs r) :=
  equate_eq l r

theorem mem_written_of_pairs (h : x ∈ (l.pairs r).filterMap Prod.fst) : x ∈ l.written := by
  have found := List.count_pos_iff.mpr h
  have bound := count_pairs x l r
  exact List.count_pos_iff.mp (by omega)

theorem mem_written_of_overlooked (h : x ∈ l.overlooked r) : x ∈ l.written := by
  have found := List.count_pos_iff.mpr h
  have bound := count_pairs x l r
  exact List.count_pos_iff.mp (by omega)

section Distinct

variable (distinct : l.written.Nodup)

include distinct

theorem pairs_nodup (r : Expr) : ((l.pairs r).filterMap Prod.fst).Nodup := by
  rw [List.nodup_iff_count_le_one] at distinct ⊢
  intro x
  have bound := count_pairs x l r
  have once := distinct x
  omega

theorem not_overlooked_of_pairs (h : x ∈ (l.pairs r).filterMap Prod.fst) : x ∉ l.overlooked r := by
  intro missed
  have found := List.count_pos_iff.mpr h
  have found' := List.count_pos_iff.mpr missed
  have bound := count_pairs x l r
  have once := List.nodup_iff_count_le_one.mp distinct x
  omega

theorem writes_nodup (v : Content α) : ((l.writes v).map Prod.fst).Nodup :=
  (writes_sublist l v).nodup distinct

end Distinct

/-- What is known after every assignment of this form holds in the store it leaves behind. -/
def AssignedSoundly (α : Type) (l r : Expr) : Prop :=
  ∀ (k : Knowledge) (σ : Store (Content α)) (v : Content α), (∀ x ∈ l.written, k.ListsOnce x) → σ.Meets k →
    r.Stands σ v → ∃ k', l.equate .assigned k r = .ok k' ∧ (σ.write (l.writes v)).Meets k'

/-- There are more labels than are written. -/
theorem exists_not_written (l : Expr) : ∃ y, y ∉ l.written := by
  have numbered : Function.Injective fun n => Label.var .stateVar n "" := by
    rintro m n ⟨⟩
    rfl
  have := Infinite.of_injective _ numbered
  obtain ⟨y, hy⟩ := Infinite.exists_notMem_finset l.written.toFinset
  exact ⟨y, fun written => hy (List.mem_toFinset.mpr written)⟩

/-- A label that is overlooked keeps the company that it had before. -/
theorem AssignedSoundly.nothing_overlooked (distinct : l.written.Nodup) (h : l.AssignedSoundly α r) :
    l.overlooked r = [] := by
  rw [List.eq_nil_iff_forall_not_mem]
  intro x hx
  obtain ⟨vs, written⟩ := mem_writes_overlooked (α := α) hx
  obtain ⟨y, hy⟩ := l.exists_not_written
  have apart : x ≠ y := fun same => hy (same ▸ mem_written_of_overlooked hx)
  obtain ⟨k', hk', meets⟩ := h ⟨[[x, y]]⟩ (fun _ => some (.tuple vs)) (r.reading (fun _ => .tuple vs) (.tuple vs))
    (fun _ _ => List.countP_le_length) (fun _ _ _ => .inr ⟨_, rfl, rfl⟩) (stands_reading _ _ r)
  have passed : Knowledge.transfer ⟨[[x, y]]⟩ (l.pairs r) = .ok ⟨[[x, y]]⟩ := by
    refine Knowledge.transfer_unlisted fun p hp u hu listed => ?_
    have assigned : u ∈ (l.pairs r).filterMap Prod.fst := List.mem_filterMap.mpr ⟨p, hp, hu⟩
    have same : u = x ∨ u = y := by simpa [Partition.members] using listed
    rcases same with rfl | rfl
    · exact not_overlooked_of_pairs distinct assigned hx
    · exact hy (mem_written_of_pairs assigned)
  rw [equate_eq_transfer, passed] at hk'
  cases hk'
  rcases meets x y ⟨[x, y], by simp, by simp, by simp⟩ with same | ⟨w, hx, hw⟩
  · exact apart same
  · rw [Store.write_of_mem (writes_nodup distinct _) written] at hx
    rw [Store.write_of_not_mem fun hy' => hy ((writes_sublist _ _).subset hy')] at hw
    cases hx
    cases hw

/-- A label is taken for equal to one that it got its value from, which was changed meanwhile. -/
theorem AssignedSoundly.inOrder (distinct : l.written.Nodup) (h : l.AssignedSoundly α r) : InOrder (l.pairs r) := by
  by_contra disorder
  obtain ⟨as, x, y, bs, z, cs, split, changed⟩ := exists_of_not_inOrder disorder
  have once := pairs_nodup distinct r
  rw [split] at once
  obtain ⟨k', hk', linked⟩ := Knowledge.transfer_linked changed once
  have apart : x ≠ z := by
    simp only [List.filterMap_append, List.filterMap_cons, List.nodup_append, List.nodup_cons, List.mem_append,
      List.mem_cons, not_or] at once
    exact once.2.1.1.2.1
  let σ : Label → Content α := fun u => .truth (u != x)
  obtain ⟨k, hk, meets⟩ := h ⟨[[x], [z]]⟩ (fun u => some (σ u)) (r.reading σ (.truth true))
    (fun _ _ => Partition.listsOnce_pair apart) (Store.meets_of_apart (by simp)) (stands_reading _ _ r)
  rw [equate_eq_transfer, split, hk'] at hk
  cases hk
  have first : (some x, y) ∈ l.pairs r := by simp [split]
  have second : (some z, some x) ∈ l.pairs r := by simp [split]
  obtain ⟨u, hu, known, unknown⟩ := mem_writes_reading (σ := σ) (d := .truth true) first rfl
  obtain ⟨w, hw, same, -⟩ := mem_writes_reading (σ := σ) (d := .truth true) second rfl
  have unique := writes_nodup (α := α) distinct (r.reading σ (.truth true))
  rcases meets x z linked with same' | ⟨v, hx, hz⟩
  · exact apart same'
  · rw [Store.write_of_mem unique hu] at hx
    rw [Store.write_of_mem unique hw, same x rfl] at hz
    have before : v = .truth false := by
      cases hz
      simp [σ]
    have after : u ≠ .truth false := by
      cases y with
      | none =>
        rcases unknown rfl with rfl | ⟨ws, rfl⟩ <;> simp
      | some y =>
        have other : y ≠ x := fun same => changed (same ▸ rfl)
        simp [known y rfl, σ, other]
    cases hx
    exact after before

/-- An assignment is treated soundly exactly if no label is overlooked and no label is read after it was changed. -/
theorem equate_assigned_iff {α : Type} {l r : Expr} (distinct : l.written.Nodup) :
    l.AssignedSoundly α r ↔ l.overlooked r = [] ∧ InOrder (l.pairs r) := by
  refine ⟨fun h => ⟨h.nothing_overlooked distinct, h.inOrder distinct⟩, fun ⟨whole, order⟩ k σ v once hk hr => ?_⟩
  obtain ⟨k', hk'⟩ := equate_total k .assigned l r
  obtain ⟨ts, pairs, read, writes⟩ := writes_eq whole hr
  rw [equate_eq_transfer, ← pairs] at hk'
  rw [← pairs] at order
  refine ⟨k', by rw [equate_eq_transfer, ← pairs, hk'], ?_⟩
  rw [writes]
  refine meets_of_inOrder read order ?_ (fun x hx => once x ?_) hk hk'
  · rw [pairs]
    exact pairs_nodup distinct r
  · rw [pairs] at hx
    exact mem_written_of_pairs hx

/-- Three labels are passed on, each to the one before it. -/
theorem shifting_sound :
    (Expr.tuple default [.party 1 "a", .tuple default [.party 2 "b", .party 3 "c"]]).AssignedSoundly Bool
      (.tuple default [.party 2 "b", .tuple default [.party 3 "c", .me default]]) :=
  (equate_assigned_iff (by decide)).mpr ⟨by decide, by decide⟩

end Expr

/-! ## Two labels change places -/

/-- Two owners change places: what each of them gets is computed before either is written. -/
def exchanging : SourceUnit :=
  let owner := AnnTy.plain (.address false)
  .sketch 100 "Owners" [] [.sketch 101 "run" "public" [.sketch 102 owner "a", .sketch 103 owner "b"]
    [.assign default (.tuple (.numbered 110) [.nameAt 111 "a", .nameAt 112 "b"])
      (.tuple (.numbered 113) [.nameAt 114 "b", .nameAt 115 "a"]) "" false]]

/-- The assignment hands two labels to each other and claims that they are equal, although nothing was known before. -/
def Stmt.exchanges (a b : Label) : Stmt → Bool
  | .assign i l r _ _ =>
    decide (l.written.Nodup ∧ (some a, some b) ∈ l.pairs r ∧ (some b, some a) ∈ l.pairs r) &&
      i.before.any (fun k : Knowledge => Partition.entails .empty k) && i.after.any fun k => decide (k.Linked a b)
  | _ => false

/-- The assignment can lead from a store that meets what is known before it to one that does not meet what is claimed
after it. -/
def Stmt.Misleads (s : Stmt) : Prop := ∃ i l r o b, s = .assign i l r o b ∧ ∃ k k', i.before = some k ∧
  i.after = some k' ∧ ∃ (σ : Store (Content Bool)) (v : Content Bool), σ.Meets k ∧ r.Stands σ v ∧
    ¬ (σ.write (l.writes v)).Meets k'

theorem Stmt.exchanges_misleads {s : Stmt} {a b : Label} (h : s.exchanges a b = true) (apart : a ≠ b) : s.Misleads := by
  unfold exchanges at h
  split at h
  case h_2 => cases h
  rename_i i l r o m
  simp only [Bool.and_eq_true, decide_eq_true_eq, Option.any_eq_true] at h
  obtain ⟨⟨⟨distinct, hab, hba⟩, k, hk, unknown⟩, k', hk', linked⟩ := h
  let σ : Label → Content Bool := fun u => .truth (u != a)
  refine ⟨i, l, r, o, m, rfl, k, k', hk, hk', fun u => some (σ u), r.reading σ (.truth true), ?_,
    Expr.stands_reading σ _ r, fun meets => ?_⟩
  · exact Store.Meets.finer (k := .empty) (Store.meets_of_apart nofun) (Partition.finer_of_entails unknown)
  obtain ⟨u, hu, first, -⟩ := Expr.mem_writes_reading (σ := σ) (d := .truth true) hab rfl
  obtain ⟨w, hw, second, -⟩ := Expr.mem_writes_reading (σ := σ) (d := .truth true) hba rfl
  have unique := Expr.writes_nodup (α := Bool) distinct (r.reading σ (.truth true))
  rcases meets a b linked with same | ⟨v, ha, hb⟩
  · exact apart same
  · rw [Store.write_of_mem unique hu, first b rfl] at ha
    rw [Store.write_of_mem unique hw, second a rfl, ← ha] at hb
    simp [σ, apart.symm] at hb

theorem exchanging_misleads : ∃ u n v, exchanging.link 120 = .ok (u, n) ∧ u.markAliases = .ok v ∧
    ∃ f ∈ v.allFunctions, ∃ s ∈ f.body.stmts, s.Misleads := by
  obtain ⟨_, h, tested⟩ := exists_ok_of_any
    (x := do let l ← exchanging.link 120; let v ← l.1.markAliases; return (l.1, l.2, v))
    (p := fun r => decide (∃ f ∈ r.2.2.allFunctions, ∃ s ∈ f.body.stmts,
      s.exchanges (.var .parameter 102 "a") (.var .parameter 103 "b") = true))
    (by decide +kernel)
  obtain ⟨⟨u, n⟩, link, h⟩ := except_bind_ok h
  obtain ⟨v, aliases, h⟩ := except_bind_ok h
  cases h
  obtain ⟨f, hf, s, hs, exchanges⟩ := of_decide_eq_true tested
  exact ⟨u, n, v, link, aliases, f, hf, s, hs, Stmt.exchanges_misleads exchanges (by decide)⟩

end Shroud
