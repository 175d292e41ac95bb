import Mathlib.Data.List.Count
import Mathlib.Data.List.Flatten
import Shroud.Proofs.Simultaneous

/-!
# Which labels a state lists

An update of what is known moves labels between classes. It neither loses a label nor makes one up.

**Once.** A label that is listed once stays listed once. Labels that are listed more often are the parameters without
names, which share one label; those of variables are taken out again when the variable goes out of scope, and only a
label that is listed once is gone afterwards.

**Results.**

* `Partition.Relists`: the updates keep the set of labels, and what is listed at most once.
* `Knowledge.Lists`: exactly these labels are listed, variables of statements once. Comparisons, assignments and side
  effects keep this; `enter` and `leave` add and take away the variables of a block.
* `Knowledge.Lists.join_total`: two states that list the same labels can be joined.
-/

namespace Shroud

namespace Partition

variable {α : Type} [DecidableEq α] {p q r : Partition α} {x y z : α}

/-- The first state lists the labels of the second one, and none of them more than once that was listed once. -/
structure Relists (q p : Partition α) : Prop where
  members : ∀ z, z ∈ q.members ↔ z ∈ p.members
  once : ∀ z, p.members.count z ≤ 1 → q.members.count z ≤ 1

namespace Relists

theorem refl (p : Partition α) : p.Relists p := ⟨fun _ => Iff.rfl, fun _ h => h⟩

theorem trans (h : r.Relists q) (h' : q.Relists p) : r.Relists p :=
  ⟨fun z => (h.members z).trans (h'.members z), fun z once => h.once z (h'.once z once)⟩

theorem of_perm (h : q.members.Perm p.members) : q.Relists p :=
  ⟨fun _ => h.mem_iff, fun z once => h.count_eq z ▸ once⟩

end Relists

/-! ## Forgetting, removing, isolating -/

theorem splitClass_perm {α : Type} (fixed : α → Bool) (c : List α) : (splitClass fixed c).flatten.Perm c := by
  have kept : (if (c.filter fixed).isEmpty then [] else [c.filter fixed]).flatten = c.filter fixed := by
    cases c.filter fixed <;> simp
  have single : ((c.filter fun x => !fixed x).map fun x => [x]).flatten = c.filter fun x => !fixed x := by
    induction c.filter fun x => !fixed x with
    | nil => rfl
    | cons x xs ih => rw [List.map_cons, List.flatten_cons, ih, List.singleton_append]
  rw [splitClass, List.flatten_append, kept, single]
  exact List.perm_append_comm.trans (List.filter_append_perm fixed c)

theorem separate_relists (p : Partition α) (fixed : α → Bool) : (p.separate fixed).Relists p := by
  refine .of_perm ?_
  unfold members separate
  induction p.classes with
  | nil => exact .refl _
  | cons c cs ih =>
    rw [List.map_cons, List.flatten_cons, List.flatten_append, List.flatten_cons]
    exact (splitClass_perm fixed c).append ih

/-- A removal drops a label from a single class. -/
theorem remove_members (h : p.remove x = .ok q) : ∃ front c back,
    p.members = front ++ c ++ back ∧ x ∈ c ∧ q.members = front ++ c.filter (· ≠ x) ++ back := by
  obtain ⟨before, c, after, hp, -, hx, hq⟩ := remove_parts h
  refine ⟨before.flatten, c, after.flatten, ?_, hx, ?_⟩
  · rw [members, hp, List.flatten_append, List.flatten_cons, List.append_assoc]
  · have kept : ([c.filter (· ≠ x)].filter fun d => !d.isEmpty).flatten = c.filter (· ≠ x) := by
      cases c.filter (· ≠ x) <;> simp
    rw [members, hq, List.flatten_append, List.flatten_append, kept]

theorem remove_count (h : p.remove x = .ok q) (other : z ≠ x) : q.members.count z = p.members.count z := by
  obtain ⟨front, c, back, hp, -, hq⟩ := remove_members h
  have kept : (c.filter (· ≠ x)).count z = c.count z := List.count_filter (by simpa using other)
  simp only [hp, hq, List.count_append, kept]

theorem remove_count_self (h : p.remove x = .ok q) : q.members.count x + 1 ≤ p.members.count x := by
  obtain ⟨front, c, back, hp, hx, hq⟩ := remove_members h
  have gone : (c.filter (· ≠ x)).count x = 0 := List.count_eq_zero.mpr (by simp)
  have found : 0 < c.count x := List.count_pos_iff.mpr hx
  simp only [hp, hq, List.count_append, gone]
  omega

/-- A label that was listed once is gone. -/
theorem remove_lists (h : p.remove x = .ok q) (once : p.members.count x ≤ 1) :
    z ∈ q.members ↔ z ∈ p.members ∧ z ≠ x := by
  have fewer := remove_count_self h
  have gone : x ∉ q.members := List.count_eq_zero.mp (by omega)
  refine ⟨fun hz => ⟨members_remove h hz, fun same => gone (same ▸ hz)⟩, fun ⟨hz, other⟩ => mem_remove h hz other⟩

theorem isolate_relists (hx : p.has x = true) (h : p.isolate x = .ok q) : q.Relists p := by
  obtain ⟨r, hr, rfl⟩ := isolate_ok h
  refine ⟨fun z => ⟨fun hz => members_isolate hx h hz, fun hz => ?_⟩, fun z once => ?_⟩
  · rw [members_insert, List.mem_append, List.mem_singleton]
    by_cases same : z = x
    · exact .inr same
    · exact .inl (mem_remove hr hz same)
  · rw [members_insert, List.count_append]
    by_cases same : z = x
    · subst same
      have fewer := remove_count_self hr
      rw [List.count_singleton_self]
      omega
    · rw [remove_count hr same, List.count_singleton, if_neg (by simpa using Ne.symm same)]
      exact once

/-! ## Merging and moving -/

/-- The labels before a class, in it, and after it. -/
theorem count_split {cs : List (List α)} {i : Nat} (hi : i < cs.length) (z : α) :
    cs.flatten.count z = (cs.take i).flatten.count z + (cs[i].count z + (cs.drop (i + 1)).flatten.count z) := by
  have split : cs = cs.take i ++ cs[i] :: cs.drop (i + 1) := by simp
  conv_lhs => rw [split]
  rw [List.flatten_append, List.flatten_cons, List.count_append, List.count_append]

/-- A class that is replaced takes its labels along. -/
theorem count_set {cs : List (List α)} {i : Nat} (hi : i < cs.length) (c : List α) (z : α) :
    (cs.set i c).flatten.count z + cs[i].count z = c.count z + cs.flatten.count z := by
  have before := count_split hi z
  have after : (cs.set i c).flatten.count z =
      (cs.take i).flatten.count z + (c.count z + (cs.drop (i + 1)).flatten.count z) := by
    rw [List.set_eq_take_append_cons_drop, if_pos hi, List.flatten_append, List.flatten_cons, List.count_append,
      List.count_append]
  omega

theorem count_eraseIdx {cs : List (List α)} {j : Nat} (hj : j < cs.length) (z : α) :
    (cs.eraseIdx j).flatten.count z + cs[j].count z = cs.flatten.count z := by
  have before := count_split hj z
  have after : (cs.eraseIdx j).flatten.count z =
      (cs.take j).flatten.count z + (cs.drop (j + 1)).flatten.count z := by
    rw [List.eraseIdx_eq_take_drop_succ, List.flatten_append, List.count_append]
  omega

theorem count_union_le (xs ys : List α) (z : α) : (union xs ys).count z ≤ xs.count z + ys.count z := by
  rw [union, List.count_append]
  exact Nat.add_le_add_left (List.filter_sublist.count_le z) _

theorem getD_eq {α : Type} {cs : List (List α)} {i : Nat} (hi : i < cs.length) : cs.getD i [] = cs[i] := by simp [hi]

theorem index?_lt {i : Nat} (h : p.index? x = some i) : i < p.classes.length :=
  (List.findIdx?_eq_some_iff_getElem.mp h).1

theorem merge_relists (h : (p.merge x y).1 = .ok ()) : (p.merge x y).2.Relists p := by
  unfold merge at h ⊢
  split at h
  · rename_i i j hi hj
    dsimp only
    by_cases same : i = j
    · rw [if_pos same]
      exact .refl p
    · rw [if_neg same]
      have hi' := index?_lt hi
      have hj' := index?_lt hj
      rw [getD_eq hi', getD_eq hj']
      refine ⟨fun z => ⟨fun hz => ?_, fun hz => ?_⟩, fun z once => ?_⟩
      · obtain ⟨c, hc, hz⟩ := mem_members.mp hz
        rcases List.mem_or_eq_of_mem_set (List.mem_of_mem_eraseIdx hc) with hc | rfl
        · exact mem_members.mpr ⟨c, hc, hz⟩
        · rcases mem_union.mp hz with hz | hz
          · exact mem_members.mpr ⟨_, List.getElem_mem hi', hz⟩
          · exact mem_members.mpr ⟨_, List.getElem_mem hj', hz⟩
      · obtain ⟨c, hc, hz⟩ := mem_members.mp hz
        obtain ⟨k, hk, rfl⟩ := List.getElem_of_mem hc
        rw [mem_members]
        -- The labels of both classes stand in the joined one, which keeps the place of the first.
        by_cases joined : k = i ∨ k = j
        · refine ⟨_, List.mem_eraseIdx_iff_getElem?.mpr ⟨i, same, List.getElem?_set_self hi'⟩, mem_union.mpr ?_⟩
          rcases joined with rfl | rfl
          · exact .inl hz
          · exact .inr hz
        · rw [not_or] at joined
          refine ⟨p.classes[k], List.mem_eraseIdx_iff_getElem?.mpr ⟨k, joined.2, ?_⟩, hz⟩
          rw [List.getElem?_set_ne (Ne.symm joined.1), List.getElem?_eq_getElem hk]
      · have replaced := count_set hi' (union p.classes[i] p.classes[j]) z
        have length : j < (p.classes.set i (union p.classes[i] p.classes[j])).length := by
          rw [List.length_set]
          exact hj'
        have erased := count_eraseIdx length z
        rw [List.getElem_set_ne same] at erased
        have joined := count_union_le p.classes[i] p.classes[j] z
        unfold members at once ⊢
        dsimp only
        omega
  · cases h
  · cases h
  · exact .refl p

theorem moveTo_relists (hx : p.has x = true) (h : (p.moveTo x y).1 = .ok ()) : (p.moveTo x y).2.Relists p := by
  rcases moveTo_cases h with ⟨-, hp⟩ | ⟨q, j, hq, hj, hp⟩
  · rw [hp]
    exact .refl p
  · refine ⟨fun z => ⟨fun hz => members_moveTo hx h hz, fun hz => ?_⟩, fun z once => ?_⟩ <;> rw [hp]
    · have hj' := index?_lt hj
      rw [mem_members, getD_eq hj']
      by_cases moved : z = x
      · exact ⟨_, List.mem_set hj' _, mem_union.mpr (.inr (List.mem_singleton.mpr moved))⟩
      · obtain ⟨c, hc, hz⟩ := mem_members.mp (mem_remove hq hz moved)
        obtain ⟨k, hk, rfl⟩ := List.getElem_of_mem hc
        by_cases there : k = j
        · subst there
          exact ⟨_, List.mem_set hj' _, mem_union.mpr (.inl hz)⟩
        · refine ⟨q.classes[k], List.mem_of_getElem? (i := k) ?_, hz⟩
          rw [List.getElem?_set_ne (Ne.symm there), List.getElem?_eq_getElem hk]
    · have hj' := index?_lt hj
      have replaced := count_set hj' (union q.classes[j] [x]) z
      have joined := count_union_le q.classes[j] [x] z
      rw [getD_eq hj']
      unfold members at once ⊢
      dsimp only
      by_cases moved : z = x
      · subst moved
        have fewer := remove_count_self hq
        rw [List.count_singleton_self] at joined
        unfold members at fewer
        omega
      · have kept := remove_count hq moved
        rw [List.count_singleton, if_neg (by simpa using Ne.symm moved)] at joined
        unfold members at kept
        omega

/-! ## Joining -/

theorem mem_classOf (hx : x ∈ p.members) : x ∈ p.classOf x := by
  obtain ⟨i, hi⟩ := index?_of_has (has_iff.mpr hx)
  unfold classOf
  rw [hi]
  exact (index?_eq_some hi).2

/-- Among the classes that are kept there is one with the same labels. -/
theorem dedupClasses_covers {cs : List (List α)} {c : List α} (hc : c ∈ cs) :
    ∃ d ∈ dedupClasses cs, ∀ x ∈ c, x ∈ d := by
  induction cs with
  | nil => cases hc
  | cons d cs ih =>
    rcases List.mem_cons.mp hc with rfl | hc
    · exact ⟨c, List.mem_cons_self, fun _ h => h⟩
    · obtain ⟨e, he, covers⟩ := ih hc
      by_cases same : sameElements d e = true
      · refine ⟨d, List.mem_cons_self, fun x hx => ?_⟩
        rw [sameElements, Bool.and_eq_true, List.all_eq_true, List.all_eq_true] at same
        exact List.contains_iff_mem.mp (same.2 x (covers x hx))
      · exact ⟨e, List.mem_cons_of_mem _ (List.mem_filter.mpr ⟨he, by simpa using same⟩), covers⟩

/-- If all classes that list a label are one and the same, it is kept once. -/
theorem dedupClasses_count {cs : List (List α)} {e : List α} (same : ∀ c ∈ cs, z ∈ c → c = e) (once : e.count z ≤ 1) :
    (dedupClasses cs).flatten.count z ≤ 1 := by
  induction cs with
  | nil => exact Nat.zero_le 1
  | cons c cs ih =>
    have later := ih fun d hd => same d (List.mem_cons_of_mem _ hd)
    rw [dedupClasses, List.flatten_cons, List.count_append]
    by_cases hz : z ∈ c
    · have first := same c List.mem_cons_self hz
      have others : ((dedupClasses cs).filter fun d => !sameElements c d).flatten.count z = 0 := by
        refine List.count_eq_zero.mpr fun hm => ?_
        obtain ⟨d, hd, hz⟩ := List.mem_flatten.mp hm
        obtain ⟨hd, apart⟩ := List.mem_filter.mp hd
        have equal := same d (List.mem_cons_of_mem _ (mem_dedupClasses hd)) hz
        have reflexive : sameElements e e = true := by simp [sameElements]
        rw [first, equal, reflexive] at apart
        cases apart
      rw [others, first]
      exact once
    · have fewer : ((dedupClasses cs).filter fun d => !sameElements c d).flatten.count z ≤
          (dedupClasses cs).flatten.count z := (List.filter_sublist.flatten).count_le z
      rw [List.count_eq_zero.mpr hz]
      omega

/-- A label that is listed once has one class. -/
theorem classOf_unique (once : p.members.count z ≤ 1) (hz : z ∈ p.classOf x) : p.classOf x = p.classOf z := by
  unfold classOf at hz ⊢
  cases hi : p.index? x with
  | none =>
    rw [hi] at hz
    cases hz
  | some i =>
    have hi' := index?_lt hi
    rw [hi] at hz
    dsimp only at hz ⊢
    rw [getD_eq hi'] at hz ⊢
    have listed : z ∈ p.members := mem_members.mpr ⟨_, List.getElem_mem hi', hz⟩
    obtain ⟨j, hj⟩ := index?_of_has (has_iff.mpr listed)
    have hj' := index?_lt hj
    have found := (index?_eq_some hj).2
    rw [hj]
    dsimp only
    rw [getD_eq hj'] at found ⊢
    by_cases same : i = j
    · subst same
      rfl
    · -- Two classes with the label would list it twice.
      have emptied := count_set hi' [] z
      have length : j < (p.classes.set i []).length := by
        rw [List.length_set]
        exact hj'
      have erased := count_eraseIdx length z
      rw [List.getElem_set_ne same] at erased
      have first : 0 < p.classes[i].count z := List.count_pos_iff.mpr hz
      have second : 0 < p.classes[j].count z := List.count_pos_iff.mpr found
      unfold members at once
      rw [List.count_nil] at emptied
      omega

theorem join_ok (h : p.join q = .ok r) : (∀ z ∈ p.members, z ∈ q.members) ∧
    r = ⟨dedupClasses (p.members.map fun x => (p.classOf x).filter (q.classOf x).contains)⟩ := by
  unfold join at h
  split at h
  · rename_i same
    cases h
    simp only [sameElements, Bool.and_eq_true, List.all_eq_true, List.contains_iff_mem] at same
    exact ⟨same.1, rfl⟩
  · cases h

theorem mem_join (h : p.join q = .ok r) : z ∈ r.members ↔ z ∈ p.members := by
  refine ⟨fun hz => members_join h hz, fun hz => ?_⟩
  obtain ⟨known, rfl⟩ := join_ok h
  have both : z ∈ (p.classOf z).filter (q.classOf z).contains :=
    List.mem_filter.mpr ⟨mem_classOf hz, List.contains_iff_mem.mpr (mem_classOf (known z hz))⟩
  have part : (p.classOf z).filter (q.classOf z).contains ∈
      p.members.map fun x => (p.classOf x).filter (q.classOf x).contains := List.mem_map.mpr ⟨z, hz, rfl⟩
  obtain ⟨d, hd, covers⟩ := dedupClasses_covers part
  exact mem_members.mpr ⟨d, hd, covers z both⟩

theorem join_count (h : p.join q = .ok r) (hp : p.members.count z ≤ 1) (hq : q.members.count z ≤ 1) :
    r.members.count z ≤ 1 := by
  obtain ⟨-, rfl⟩ := join_ok h
  refine dedupClasses_count (e := (p.classOf z).filter (q.classOf z).contains) (fun c hc hm => ?_) ?_
  · obtain ⟨a, -, rfl⟩ := List.mem_map.mp hc
    obtain ⟨left, right⟩ := List.mem_filter.mp hm
    rw [classOf_unique hp left, classOf_unique hq (List.contains_iff_mem.mp right)]
  · refine Nat.le_trans ((List.filter_sublist).count_le z) ?_
    rcases classOf_subset p z with none | found
    · rw [none]
      exact Nat.zero_le 1
    · have part : (p.classOf z).Sublist p.members := List.sublist_flatten_of_mem found
      exact Nat.le_trans (part.count_le z) hp

/-- Two states with the same labels can be joined. -/
theorem join_total (same : ∀ z, z ∈ p.members ↔ z ∈ q.members) : ∃ r, p.join q = .ok r := by
  have equal : sameElements p.members q.members = true := by
    simp only [sameElements, Bool.and_eq_true, List.all_eq_true, List.contains_iff_mem]
    exact ⟨fun z => (same z).mp, fun z => (same z).mpr⟩
  unfold join
  rw [if_pos equal]
  exact ⟨_, rfl⟩

end Partition

/-! ## Labels in what is known -/

/-- The label under which a variable of a statement is known. -/
def LocalVar.label (v : LocalVar) : Label := .var .localVar v.id v.name

section Updates

variable {k k' : Knowledge} {symbols : Symbols} {c : Expr}

theorem Knowledge.equateLabels_relists {how : Equating} {l r : Option Label} (h : k.equateLabels how l r = .ok k') :
    Partition.Relists k' k := by
  rcases Knowledge.equateLabels_cases h with ⟨-, rfl⟩ | ⟨x, -, hx, h | ⟨y, -, ⟨-, h⟩ | ⟨-, h⟩⟩⟩
  · exact .refl k'
  · exact Partition.isolate_relists hx h
  · obtain ⟨done, rfl⟩ := Knowledge.ofUpdate_ok h
    exact Partition.merge_relists done
  · obtain ⟨done, rfl⟩ := Knowledge.ofUpdate_ok h
    exact Partition.moveTo_relists hx done

theorem Expr.equate_relists {how : Equating} {l r : Expr} (h : l.equate how k r = .ok k') :
    Partition.Relists k' k := by
  refine Expr.equate_keeps (P := fun q => Partition.Relists q k) h ?_ (.refl k)
  intro p _ q q' hq listed
  exact (Knowledge.equateLabels_relists hq).trans listed

theorem Expr.implies_relists {negated : Bool} (h : c.implies negated k = .ok k') : Partition.Relists k' k := by
  fun_induction Expr.implies negated k c generalizing k' with
  | case1 _ _ _ _ _ _ _ _ _ _ _ ih => exact ih h
  | case2 _ _ _ _ _ _ _ _ _ _ _ ih => exact ih h
  | case4 _ _ _ _ _ _ _ _ _ _ _ _ _ iha ihb =>
    obtain ⟨p, hp, h⟩ := except_bind_ok h
    exact (ihb p h).trans (iha hp)
  | case5 _ _ _ _ _ _ _ _ _ _ _ iha ihb =>
    obtain ⟨p, hp, h⟩ := except_bind_ok h
    exact (ihb p h).trans (iha hp)
  | case8 => exact Expr.equate_relists h
  | case9 => exact Expr.equate_relists h
  | case3 | case6 | case7 | case10 | case11 | case12 =>
    cases h
    exact .refl _

theorem Knowledge.assuming_relists {negated : Bool} (h : k.assuming symbols c negated = .ok k') :
    Partition.Relists k' k := by
  rcases Knowledge.assuming_cases h with ⟨-, rfl⟩ | ⟨-, h⟩
  · exact Partition.separate_relists k _
  · exact Expr.implies_relists h

end Updates

/-- Exactly these labels are listed, those of variables of statements once. -/
structure Knowledge.Lists (k : Knowledge) (ls : List Label) : Prop where
  members : ∀ z, z ∈ k.members ↔ z ∈ ls
  once : ∀ i n, k.members.count (.var .localVar i n) ≤ 1

namespace Knowledge.Lists

variable {k k' : Knowledge} {symbols : Symbols} {c : Expr} {ls : List Label}

theorem has (h : k.Lists ls) (z : Label) : k.has z = true ↔ z ∈ ls := Partition.has_iff.trans (h.members z)

theorem relisted (h : k.Lists ls) (kept : Partition.Relists k' k) : k'.Lists ls :=
  ⟨fun z => (kept.members z).trans (h.members z), fun i n => kept.once _ (h.once i n)⟩

theorem join_total (h : k.Lists ls) (h' : k'.Lists ls) : ∃ r : Knowledge, k.join k' = .ok r ∧ r.Lists ls := by
  obtain ⟨r, hr⟩ := Partition.join_total fun z => (h.members z).trans (h'.members z).symm
  refine ⟨r, hr, fun z => (Partition.mem_join hr).trans (h.members z), fun i n => ?_⟩
  exact Partition.join_count hr (h.once i n) (h'.once i n)

end Knowledge.Lists

theorem Knowledge.members_enter (k : Knowledge) (vs : List LocalVar) :
    (k.enter vs).members = k.members ++ vs.map LocalVar.label := by
  unfold Knowledge.enter
  induction vs generalizing k with
  | nil => exact (List.append_nil _).symm
  | cons v vs ih =>
    rw [List.foldl_cons, ih, Partition.members_insert, List.map_cons, List.append_assoc]
    rfl

theorem LocalVar.labels_nodup {vs : List LocalVar} (ids : (vs.map (·.id)).Nodup) : (vs.map LocalVar.label).Nodup := by
  refine List.Nodup.of_map Store.localId? ?_
  have numbers : (vs.map LocalVar.label).map Store.localId? = (vs.map (·.id)).map some := by
    rw [List.map_map, List.map_map]
    rfl
  rw [numbers]
  exact ids.map (Option.some_injective Nat)

/-- None of the labels is that of a variable of a statement with one of these numbers. -/
def Label.Apart (ls : List Label) (ids : List Nat) : Prop := ∀ i ∈ ids, ∀ n, Label.var .localVar i n ∉ ls

namespace Knowledge.Lists

variable {k : Knowledge} {ls : List Label} {vs : List LocalVar}

theorem enter (h : k.Lists ls) (ids : (vs.map (·.id)).Nodup) (apart : Label.Apart ls (vs.map (·.id))) :
    (k.enter vs).Lists (ls ++ vs.map LocalVar.label) := by
  refine ⟨fun z => ?_, fun i n => ?_⟩ <;> rw [Knowledge.members_enter]
  · rw [List.mem_append, List.mem_append, h.members z]
  · have own := List.nodup_iff_count_le_one.mp (LocalVar.labels_nodup ids) (.var .localVar i n)
    have outer := h.once i n
    rw [List.count_append]
    by_cases new : Label.var .localVar i n ∈ vs.map LocalVar.label
    · obtain ⟨v, hv, same⟩ := List.mem_map.mp new
      cases same
      have old : Label.var .localVar v.id v.name ∉ k.members := fun hm =>
        apart v.id (List.mem_map.mpr ⟨v, hv, rfl⟩) v.name ((h.members _).mp hm)
      rw [List.count_eq_zero.mpr old]
      omega
    · rw [List.count_eq_zero.mpr new]
      omega

/-- Variables that came into scope can go out of it. -/
theorem leave (h : k.Lists (ls ++ vs.map LocalVar.label)) (ids : (vs.map (·.id)).Nodup)
    (apart : Label.Apart ls (vs.map (·.id))) : ∃ k', k.leave vs = .ok k' ∧ k'.Lists ls := by
  induction vs generalizing k with
  | nil =>
    rw [List.map_nil, List.append_nil] at h
    exact ⟨k, rfl, h⟩
  | cons v vs ih =>
    have own : v.label ∈ k.members := (h.members _).mpr (by simp)
    obtain ⟨q, hq⟩ := Partition.remove_of_has (Partition.has_iff.mpr own)
    have others : v.label ∉ ls ++ vs.map LocalVar.label := by
      have different := (List.nodup_cons.mp (LocalVar.labels_nodup ids)).1
      have old : v.label ∉ ls := apart v.id List.mem_cons_self v.name
      simp only [List.mem_append, old, different, or_self, not_false_eq_true]
    have listed : Knowledge.Lists q (ls ++ vs.map LocalVar.label) := by
      refine ⟨fun z => ?_, fun i n => ?_⟩
      · rw [Partition.remove_lists hq (h.once _ _), h.members z]
        by_cases same : z = v.label
        · subst same
          simp [others]
        · simp [same]
      · by_cases same : Label.var .localVar i n = v.label
        · have fewer := Partition.remove_count_self hq
          have once := h.once v.id v.name
          unfold LocalVar.label at fewer same
          rw [same]
          omega
        · rw [Partition.remove_count hq same]
          exact h.once i n
    obtain ⟨k', hk, rest⟩ := ih listed (List.nodup_cons.mp ids).2 fun i hi => apart i (List.mem_cons_of_mem _ hi)
    refine ⟨k', ?_, rest⟩
    unfold LocalVar.label at hq
    rw [Knowledge.leave, hq]
    exact hk

end Knowledge.Lists

end Shroud
