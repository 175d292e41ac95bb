import Mathlib.Data.List.Nodup
import Mathlib.Data.List.Perm.Subperm
import Mathlib.Algebra.Group.Defs
import Shroud.Proofs.Pointwise
import Shroud.Split.Layout

/-!
# Totals over called circuits

What is found out about the circuits of called functions: their keys, their numbers and their sizes.

**Totals.** `Circuit.Totals` says what following the calls of a circuit finds. It speaks neither of a bound on the
depth nor of what was found before, so it does not depend on the order in which circuits are followed.

**Bound.** Following calls ends if every chain of calls ends, and as many levels as there are circuits, and one more,
always are enough.

**Results.**

* `Circuit.complete_ok_iff`: when all calls can be followed, and what every circuit then knows.
* `Circuit.complete_congr`: the order of the functions does not matter.
-/

namespace Shroud

section Inclusion

variable {α : Type} [BEq α] [LawfulBEq α] {xs ys zs : List α} {x y : α}

theorem mem_includeOnce : y ∈ includeOnce xs x ↔ y ∈ xs ∨ y = x := by
  unfold includeOnce
  split
  · rename_i h
    refine ⟨.inl, ?_⟩
    rintro (h' | rfl)
    · exact h'
    · exact List.contains_iff_mem.mp h
  · simp

theorem includeOnce_of_mem (h : x ∈ xs) : includeOnce xs x = xs := if_pos (List.contains_iff_mem.mpr h)

theorem includeOnce_of_not_mem (h : x ∉ xs) : includeOnce xs x = xs ++ [x] :=
  if_neg fun hx => h (List.contains_iff_mem.mp hx)

theorem includeOnce_nodup (h : xs.Nodup) : (includeOnce xs x).Nodup := by
  by_cases hx : x ∈ xs
  · rwa [includeOnce_of_mem hx]
  · rw [includeOnce_of_not_mem hx]
    rw [← List.concat_eq_append]
    exact h.concat hx

theorem includeAll_nodup (h : xs.Nodup) : (includeAll xs ys).Nodup := by
  unfold includeAll
  induction ys generalizing xs with
  | nil => exact h
  | cons y ys ih => exact ih (includeOnce_nodup h)

theorem mem_includeAll : x ∈ includeAll xs ys ↔ x ∈ xs ∨ x ∈ ys := by
  unfold includeAll
  induction ys generalizing xs with
  | nil => simp
  | cons y ys ih => rw [List.foldl_cons, ih, mem_includeOnce, List.mem_cons, or_assoc]

omit [LawfulBEq α] in
theorem includeAll_concat : includeAll xs (ys ++ [y]) = includeOnce (includeAll xs ys) y := List.foldl_concat ..

theorem includeAll_includeOnce : includeAll xs (includeOnce ys y) = includeOnce (includeAll xs ys) y := by
  by_cases hy : y ∈ ys
  · rw [includeOnce_of_mem hy, includeOnce_of_mem (mem_includeAll.mpr (.inr hy))]
  · rw [includeOnce_of_not_mem hy, includeAll_concat]

theorem includeAll_assoc : includeAll xs (includeAll ys zs) = includeAll (includeAll xs ys) zs := by
  show includeAll xs (zs.foldl includeOnce ys) = zs.foldl includeOnce (includeAll xs ys)
  induction zs generalizing ys with
  | nil => rfl
  | cons z zs ih => rw [List.foldl_cons, ih, includeAll_includeOnce, List.foldl_cons]

end Inclusion

namespace CircuitSizes

variable {a b c : CircuitSizes}

@[simp]
theorem secret_add : (a + b).secret = a.secret + b.secret := rfl

@[simp]
theorem input_add : (a + b).input = a.input + b.input := rfl

@[simp]
theorem output_add : (a + b).output = a.output + b.output := rfl

@[ext]
theorem ext (hs : a.secret = b.secret) (hi : a.input = b.input) (ho : a.output = b.output) : a = b := by
  cases a
  cases b
  simp_all

instance : Zero CircuitSizes := ⟨zero⟩

instance : AddCommMonoid CircuitSizes where
  add_assoc a b c := by ext <;> simp [Int.add_assoc]
  zero_add a := by ext <;> exact Int.zero_add _
  add_zero a := by ext <;> exact Int.add_zero _
  nsmul := nsmulRec
  add_comm a b := by ext <;> simp [Int.add_comm]

end CircuitSizes

/-! ## What following calls finds -/

namespace Reach

/-- Nothing was found yet. -/
def none : Reach := ⟨[], []⟩

/-- What was found in the one place and then in the other. -/
def and (r t : Reach) : Reach := ⟨includeAll r.keys t.keys, includeAll r.callees t.callees⟩

theorem and_assoc (r s t : Reach) : (r.and s).and t = r.and (s.and t) := by
  unfold and
  rw [includeAll_assoc, includeAll_assoc]

end Reach

namespace Circuit

/-- What a circuit itself adds. -/
def ownReach (c : Circuit) : Reach := Reach.none.and ⟨c.keys, (c.called.map fun _ => c.callees.getD []).getD []⟩

theorem mem_ownReach_keys {c : Circuit} {p : Label × Backend} : p ∈ c.ownReach.keys ↔ p ∈ c.keys :=
  mem_includeAll.trans (by simp [Reach.none])

mutual

/-- What is found below a circuit, and the size of all circuits there. -/
inductive Totals (cs : List Circuit) : Circuit → Reach → CircuitSizes → Prop
  | known {c sizes} (h : c.called = some sizes) : Totals cs c c.ownReach sizes
  | calls {c t sizes} (h : c.called = none) (below : CallTotals cs c.calls t sizes) :
    Totals cs c (c.ownReach.and t) sizes

/-- What is found by following calls, and the size of all circuits there. -/
inductive CallTotals (cs : List Circuit) : List CircuitCall → Reach → CircuitSizes → Prop
  | nil : CallTotals cs [] .none .zero
  | cons {call calls k t ts sizes rest} (find : find? cs call.callee = some k) (here : Totals cs k t sizes)
      (below : CallTotals cs calls ts rest) :
    CallTotals cs (call :: calls) ((Reach.mk [] [call.callee]).and (t.and ts)) (sizes + k.ownSizes + rest)

end

/-! ## Following calls -/

section Follow

variable {cs : List Circuit} {name : Nat → String} {c k : Circuit} {r r' t : Reach} {sizes start : CircuitSizes}
  {n : Nat} {calls : List CircuitCall}

/-- Follow a single call. -/
def followCall (cs : List Circuit) (name : Nat → String) (n : Nat) (p : Reach × CircuitSizes) (call : CircuitCall) :
    Except Error (Reach × CircuitSizes) :=
  match find? cs call.callee with
  | none => .error (.defect (.calleeWithoutCircuit (name call.callee)))
  | some k => do
    let q ← k.follow cs name n { p.1 with callees := includeOnce p.1.callees call.callee }
    return (q.1, p.2 + (q.2 + k.ownSizes))

theorem follow_known (h : c.called = some sizes) : c.follow cs name (n + 1) r = .ok (r.and c.ownReach, sizes) := by
  unfold follow
  dsimp only
  rw [h]
  unfold ownReach
  rw [← Reach.and_assoc, h]
  rfl

theorem follow_open (h : c.called = none) :
    c.follow cs name (n + 1) r = c.calls.foldlM (followCall cs name n) (r.and c.ownReach, 0) := by
  have own : r.and c.ownReach = { r with keys := includeAll r.keys c.keys } := by
    unfold ownReach
    rw [← Reach.and_assoc, h]
    rfl
  rw [own]
  unfold follow
  dsimp only
  rw [h]
  rfl

/-- Following calls finds the totals, in addition to what was found before. -/
theorem foldlM_totals (ih : ∀ {k : Circuit} {r r' : Reach} {sizes : CircuitSizes},
      k.follow cs name n r = .ok (r', sizes) → ∃ t, k.Totals cs t sizes ∧ r' = r.and t)
    (h : calls.foldlM (followCall cs name n) (r, start) = .ok (r', sizes)) :
    ∃ t rest, CallTotals cs calls t rest ∧ r' = r.and t ∧ sizes = start + rest := by
  induction calls generalizing r start with
  | nil =>
    cases h
    exact ⟨.none, 0, .nil, rfl, (add_zero _).symm⟩
  | cons call calls ihc =>
    rw [List.foldlM_cons] at h
    obtain ⟨⟨r₁, s₁⟩, h₁, h⟩ := except_bind_ok h
    unfold followCall at h₁
    split at h₁
    · cases h₁
    · rename_i k hk
      obtain ⟨⟨r₂, below⟩, hf, h₁⟩ := except_bind_ok h₁
      cases h₁
      obtain ⟨t, ht, rfl⟩ := ih hf
      obtain ⟨ts, rest, hts, rfl, rfl⟩ := ihc h
      refine ⟨_, _, .cons hk ht hts, ?_, ?_⟩
      · rw [← Reach.and_assoc, ← Reach.and_assoc]
        rfl
      · exact add_assoc ..

theorem follow_totals (h : c.follow cs name n r = .ok (r', sizes)) : ∃ t, c.Totals cs t sizes ∧ r' = r.and t := by
  induction n generalizing c r r' sizes with
  | zero => cases h
  | succ n ih =>
    cases hc : c.called with
    | some s =>
      rw [follow_known hc] at h
      cases h
      exact ⟨_, .known hc, rfl⟩
    | none =>
      rw [follow_open hc] at h
      obtain ⟨t, rest, ht, rfl, rfl⟩ := foldlM_totals ih h
      refine ⟨_, .calls hc ?_, Reach.and_assoc ..⟩
      rwa [zero_add]

end Follow

/-! ## The bound -/

/-- Calls can be followed from the circuit with this many levels. -/
def Settles (cs : List Circuit) : Nat → Circuit → Prop
  | 0, _ => False
  | n + 1, c => c.called = none → ∀ call ∈ c.calls, ∃ k, find? cs call.callee = some k ∧ Settles cs n k

section Settles

variable {cs : List Circuit} {name : Nat → String} {c k : Circuit} {r t : Reach} {sizes : CircuitSizes} {n m : Nat}

theorem Settles.mono (h : Settles cs n c) : Settles cs (n + 1) c := by
  induction n generalizing c with
  | zero => exact h.elim
  | succ n ih =>
    intro hc call hm
    obtain ⟨k, hk, below⟩ := h hc call hm
    exact ⟨k, hk, ih below⟩

theorem Settles.le (h : Settles cs n c) (hn : n ≤ m) : Settles cs m c := by
  induction hn with
  | refl => exact h
  | step _ ih => exact ih.mono

/-- If one level less does not suffice, it does not suffice for one of the called circuits either. -/
theorem Settles.called (h : Settles cs (n + 2) c) (hn : ¬ Settles cs (n + 1) c) :
    ∃ k ∈ cs, Settles cs (n + 1) k ∧ ¬ Settles cs n k := by
  unfold Settles at hn
  rw [Classical.not_imp] at hn
  obtain ⟨hc, hn⟩ := hn
  simp only [not_forall] at hn
  obtain ⟨call, hm, hn⟩ := hn
  obtain ⟨k, hk, below⟩ := h hc call hm
  exact ⟨k, List.mem_of_find?_eq_some hk, below, fun h => hn ⟨k, hk, h⟩⟩

/-- Below a circuit that needs a number of levels there are circuits that need each smaller number. -/
theorem Settles.levels (h : Settles cs (n + 1) c) (hn : ¬ Settles cs n c) :
    ∃ ks : List Circuit, ks.length = n ∧ ks ⊆ cs ∧ ks.Nodup ∧ ∀ k ∈ ks, Settles cs n k := by
  induction n generalizing c with
  | zero => exact ⟨[], rfl, List.nil_subset _, List.nodup_nil, by simp⟩
  | succ n ih =>
    obtain ⟨k, hk, below, hb⟩ := h.called hn
    obtain ⟨ks, length, sub, distinct, all⟩ := ih below hb
    refine ⟨k :: ks, by rw [List.length_cons, length], List.cons_subset.mpr ⟨hk, sub⟩, ?_, ?_⟩
    · exact List.nodup_cons.mpr ⟨fun hm => hb (all k hm), distinct⟩
    · exact List.forall_mem_cons.mpr ⟨below, fun j hj => (all j hj).mono⟩

/-- As many levels as there are circuits, and one more, are enough if any number is. -/
theorem Settles.bounded (h : Settles cs n c) : Settles cs (cs.length + 1) c := by
  by_contra hn
  have exists_last : ∃ m, cs.length + 1 ≤ m ∧ Settles cs (m + 1) c ∧ ¬ Settles cs m c := by
    induction n with
    | zero => exact h.elim
    | succ n ih =>
      by_cases hs : Settles cs n c
      · exact ih hs
      · refine ⟨n, ?_, h, hs⟩
        by_contra hl
        exact hn (h.le (by omega))
  obtain ⟨m, hm, hs, hs'⟩ := exists_last
  obtain ⟨ks, length, sub, distinct, _⟩ := hs.levels hs'
  have := (List.subperm_of_subset distinct sub).length_le
  omega

end Settles

/-! ## Totals exist and are unique -/

section Totals

variable {cs : List Circuit} {name : Nat → String} {c k : Circuit} {r t u : Reach} {s v : CircuitSizes} {n : Nat}

/-- Every key is found once. -/
theorem Totals.keys_nodup (h : Totals cs c t s) : t.keys.Nodup := by
  have own : c.ownReach.keys.Nodup := includeAll_nodup List.nodup_nil
  cases h with
  | known => exact own
  | calls => exact includeAll_nodup own

theorem Settles.follow (h : Settles cs n c) (name : Nat → String) (r : Reach) :
    ∃ t s, c.follow cs name n r = .ok (t, s) := by
  induction n generalizing c r with
  | zero => exact h.elim
  | succ n ih =>
    cases hc : c.called with
    | some s => exact ⟨_, _, follow_known hc⟩
    | none =>
      rw [follow_open hc]
      have all : ∀ calls, calls ⊆ c.calls → ∀ p, ∃ t s, calls.foldlM (followCall cs name n) p = .ok (t, s) := by
        intro calls sub
        induction calls with
        | nil => exact fun p => ⟨_, _, rfl⟩
        | cons call calls ihc =>
          intro p
          obtain ⟨k, hk, below⟩ := h hc call (sub List.mem_cons_self)
          obtain ⟨t, s, hf⟩ := ih below { p.1 with callees := includeOnce p.1.callees call.callee }
          obtain ⟨t', s', rest⟩ := ihc (List.subset_of_cons_subset sub) (t, p.2 + (s + k.ownSizes))
          refine ⟨t', s', ?_⟩
          rw [List.foldlM_cons]
          unfold followCall
          rw [hk]
          dsimp only
          rw [hf]
          exact rest
      exact all _ (List.Subset.refl _) _

mutual

theorem Totals.unique {cs : List Circuit} {c : Circuit} {t u : Reach} {s v : CircuitSizes} :
    Totals cs c t s → Totals cs c u v → t = u ∧ s = v
  | .known h, .known h' => ⟨rfl, Option.some.inj (h.symm.trans h')⟩
  | .known h, .calls h' _ => (Option.some_ne_none _ (h.symm.trans h')).elim
  | .calls h _, .known h' => (Option.some_ne_none _ (h'.symm.trans h)).elim
  | .calls _ below, .calls _ below' =>
    have same := CallTotals.unique below below'
    ⟨congrArg _ same.1, same.2⟩

theorem CallTotals.unique {cs : List Circuit} {calls : List CircuitCall} {t u : Reach} {s v : CircuitSizes} :
    CallTotals cs calls t s → CallTotals cs calls u v → t = u ∧ s = v
  | .nil, .nil => ⟨rfl, rfl⟩
  | .cons find here below, .cons find' here' below' =>
    have same := Option.some.inj (find.symm.trans find')
    have first := Totals.unique here (same ▸ here')
    have rest := CallTotals.unique below below'
    ⟨by rw [first.1, rest.1], by rw [first.2, rest.2, same]⟩

end

theorem Settles.totals (h : Settles cs n c) : ∃ t s, Totals cs c t s := by
  obtain ⟨_, s, hf⟩ := h.follow (fun _ => "") .none
  obtain ⟨t, ht, _⟩ := follow_totals hf
  exact ⟨t, s, ht⟩

/-- All calls lead to circuits with totals. -/
theorem CallTotals.called {cs : List Circuit} {calls : List CircuitCall} {t : Reach} {s : CircuitSizes} :
    CallTotals cs calls t s → ∀ call ∈ calls, ∃ k u v, find? cs call.callee = some k ∧ Totals cs k u v
  | .nil, _, h => (List.not_mem_nil h).elim
  | .cons find here below, _, h => by
    rcases List.mem_cons.mp h with rfl | h
    · exact ⟨_, _, _, find, here⟩
    · exact CallTotals.called below _ h

/-- What is true of the totals of a circuit that is found. -/
theorem Totals.found_iff {q : Reach → Prop} {i : Nat} (find : find? cs i = some k) (here : Totals cs k u v) :
    (∃ k t s, find? cs i = some k ∧ Totals cs k t s ∧ q t) ↔ q u := by
  refine ⟨?_, fun h => ⟨k, u, v, find, here, h⟩⟩
  rintro ⟨k', t, s, find', here', h⟩
  obtain rfl := Option.some.inj (find.symm.trans find')
  rwa [(here.unique here').1]

theorem CallTotals.mem_callees {cs : List Circuit} {calls : List CircuitCall} {t : Reach} {s : CircuitSizes} {g : Nat} :
    CallTotals cs calls t s → (g ∈ t.callees ↔ ∃ call ∈ calls, g = call.callee ∨
      ∃ k u v, find? cs call.callee = some k ∧ Totals cs k u v ∧ g ∈ u.callees)
  | .nil => by simp [Reach.none]
  | .cons find here below => by
    have rest := CallTotals.mem_callees (g := g) below
    have first := here.found_iff (q := (g ∈ ·.callees)) find
    simp only [Reach.and, mem_includeAll, List.mem_singleton, List.exists_mem_cons_iff, rest, first, or_assoc]

theorem CallTotals.mem_keys {cs : List Circuit} {calls : List CircuitCall} {t : Reach} {s : CircuitSizes}
    {p : Label × Backend} : CallTotals cs calls t s → (p ∈ t.keys ↔ ∃ call ∈ calls,
      ∃ k u v, find? cs call.callee = some k ∧ Totals cs k u v ∧ p ∈ u.keys)
  | .nil => by simp [Reach.none]
  | .cons find here below => by
    have rest := CallTotals.mem_keys (p := p) below
    have first := here.found_iff (q := (p ∈ ·.keys)) find
    simp only [Reach.and, mem_includeAll, List.not_mem_nil, false_or, List.exists_mem_cons_iff, rest, first]

/-- Totals start from nothing. -/
theorem Totals.none_and (h : Totals cs c t s) : Reach.none.and t = t := by
  have own : Reach.none.and c.ownReach = c.ownReach := by
    unfold ownReach
    rw [← Reach.and_assoc]
    rfl
  cases h with
  | known => exact own
  | calls => rw [← Reach.and_assoc, own]

mutual

theorem Totals.settles {cs : List Circuit} {c : Circuit} {t : Reach} {s : CircuitSizes} :
    Totals cs c t s → ∃ n, Settles cs n c
  | .known h => ⟨1, fun hc => (Option.some_ne_none _ (h.symm.trans hc)).elim⟩
  | .calls _ below =>
    have ⟨n, hn⟩ := CallTotals.settle below
    ⟨n + 1, fun _ => hn⟩

theorem CallTotals.settle {cs : List Circuit} {calls : List CircuitCall} {t : Reach} {s : CircuitSizes} :
    CallTotals cs calls t s → ∃ n, ∀ call ∈ calls, ∃ k, find? cs call.callee = some k ∧ Settles cs n k
  | .nil => ⟨0, fun _ h => (List.not_mem_nil h).elim⟩
  | .cons (k := k) find here below => by
    obtain ⟨n, hn⟩ := Totals.settles here
    obtain ⟨m, hm⟩ := CallTotals.settle below
    refine ⟨n + m, List.forall_mem_cons.mpr ⟨⟨k, find, hn.le (by omega)⟩, fun call h => ?_⟩⟩
    obtain ⟨j, hj, hs⟩ := hm call h
    exact ⟨j, hj, hs.le (by omega)⟩

end

/-- With the bound that is used, following calls finds the totals whenever they exist. -/
theorem Totals.follow (h : Totals cs c t s) : c.follow cs name (cs.length + 1) r = .ok (r.and t, s) := by
  obtain ⟨n, hs⟩ := h.settles
  obtain ⟨_, v, hf⟩ := hs.bounded.follow name r
  obtain ⟨u, hu, rfl⟩ := follow_totals hf
  obtain ⟨rfl, rfl⟩ := h.unique hu
  exact hf

end Totals

/-! ## Circuits that know their totals -/

/-- The circuit with what following its calls finds. -/
def completed (cs : List Circuit) (c : Circuit) : Circuit :=
  match c.follow cs (fun _ => "") (cs.length + 1) .none with
  | .ok (r, sizes) => { c with keys := r.keys, callees := some r.callees, called := some sizes }
  | .error _ => c

section Complete

variable {cs ks : List Circuit} {name : Nat → String} {c d k : Circuit} {r t u : Reach} {s v : CircuitSizes} {f n : Nat}
  {fs gs : List Nat}

theorem Totals.completed_eq (h : Totals cs c t s) :
    c.completed cs = { c with keys := t.keys, callees := some t.callees, called := some s } := by
  unfold completed
  rw [h.follow, h.none_and]

theorem completed_function (cs : List Circuit) (c : Circuit) : (c.completed cs).function = c.function := by
  unfold completed
  split <;> rfl

theorem completed_ownSizes (cs : List Circuit) (c : Circuit) : (c.completed cs).ownSizes = c.ownSizes := by
  unfold completed
  split <;> rfl

theorem find?_function (h : find? cs f = some c) : c.function = f := by
  simpa using List.find?_some h

theorem find?_map {g : Circuit → Circuit} (hg : ∀ c, (g c).function = c.function) :
    find? (cs.map g) f = (find? cs f).map g := by
  unfold find?
  rw [List.find?_map]
  have same : ((fun c : Circuit => c.function == f) ∘ g) = fun c => c.function == f := by
    funext c
    simp [hg]
  rw [same]

/-- Different circuits belong to different functions. -/
abbrev Distinct (cs : List Circuit) : Prop := (cs.map Circuit.function).Nodup

theorem Distinct.eq (distinct : Distinct cs) (hc : c ∈ cs) (hd : d ∈ cs) (h : c.function = d.function) : c = d :=
  List.inj_on_of_nodup_map distinct hc hd h

theorem Distinct.find? (distinct : Distinct cs) (hc : c ∈ cs) : find? cs c.function = some c := by
  cases h : Circuit.find? cs c.function with
  | none => exact absurd (beq_self_eq_true c.function) (List.find?_eq_none.mp h c hc)
  | some d => rw [distinct.eq hc (List.mem_of_find?_eq_some h) (find?_function h).symm]

/-- Put the circuit in the place of another one. -/
def replace (d c : Circuit) : Circuit := if c.function == d.function then d else c

theorem update_eq : update cs d = cs.map (replace d) := rfl

theorem replace_function : (replace d c).function = c.function := by
  unfold replace
  split
  · rename_i h
    exact (beq_iff_eq.mp h).symm
  · rfl

theorem find?_update : find? (update cs d) f = (find? cs f).map (replace d) := find?_map fun _ => replace_function

theorem replace_completed_ownSizes (distinct : Distinct cs) (hc : c ∈ cs) (hk : k ∈ cs) :
    (replace (c.completed cs) k).ownSizes = k.ownSizes := by
  unfold replace
  split
  · rename_i h
    rw [completed_ownSizes, distinct.eq hk hc ((beq_iff_eq.mp h).trans (completed_function cs c))]
  · rfl

/-- A circuit that knows its totals is not followed again. -/
theorem Totals.of_completed (h : Totals cs c t s) : Totals ks (c.completed cs) t s := by
  rw [h.completed_eq]
  have known : Totals ks { c with keys := t.keys, callees := some t.callees, called := some s } _ s := .known rfl
  have own : ownReach { c with keys := t.keys, callees := some t.callees, called := some s } = t := h.none_and
  rwa [own] at known

/-- What happens to the circuit itself. -/
theorem Totals.replaced (distinct : Distinct cs) (hc : c ∈ cs) (total : Totals cs c t s)
    (hk : k ∈ cs) (h : Totals cs k u v) (other : k.function ≠ c.function → Totals ks k u v) :
    Totals ks (replace (c.completed cs) k) u v := by
  unfold replace
  split
  · rename_i hf
    obtain rfl := distinct.eq hk hc ((beq_iff_eq.mp hf).trans (completed_function cs c))
    obtain ⟨rfl, rfl⟩ := h.unique total
    exact h.of_completed
  · rename_i hf
    exact other fun same => hf (beq_iff_eq.mpr (same.trans (completed_function cs c).symm))

mutual

/-- The totals of all circuits stay the same when one of them knows its own. -/
theorem Totals.update {cs : List Circuit} {c k : Circuit} {t u : Reach} {s v : CircuitSizes}
    (distinct : Distinct cs) (hc : c ∈ cs) (total : Totals cs c t s) (hk : k ∈ cs) :
    Totals cs k u v → Totals (update cs (c.completed cs)) (replace (c.completed cs) k) u v
  | .known h => .replaced distinct hc total hk (.known h) fun _ => .known h
  | .calls h below =>
    have rest := CallTotals.update distinct hc total below
    .replaced distinct hc total hk (.calls h below) fun _ => .calls h rest

theorem CallTotals.update {cs : List Circuit} {c : Circuit} {calls : List CircuitCall} {t u : Reach} {s v : CircuitSizes}
    (distinct : Distinct cs) (hc : c ∈ cs) (total : Totals cs c t s) :
    CallTotals cs calls u v → CallTotals (update cs (c.completed cs)) calls u v
  | .nil => .nil
  | .cons find here below => by
    have hk := List.mem_of_find?_eq_some find
    have first := Totals.update distinct hc total hk here
    have rest := CallTotals.update distinct hc total below
    rw [← replace_completed_ownSizes distinct hc hk]
    exact .cons (by rw [find?_update, find]; rfl) first rest

end

/-- Circuits can be followed before one of them knows its totals if they can be afterwards. -/
theorem Settles.of_update (distinct : Distinct cs) (hc : c ∈ cs) (hs : Settles cs n c) {m : Nat} (hk : k ∈ cs)
    (h : Settles (update cs (c.completed cs)) m (replace (c.completed cs) k)) : Settles cs (m + n) k := by
  induction m generalizing k with
  | zero => exact h.elim
  | succ m ih =>
    by_cases hf : k.function = c.function
    · obtain rfl := distinct.eq hk hc hf
      exact hs.le (by omega)
    · have same : replace (c.completed cs) k = k :=
        if_neg fun h => hf ((beq_iff_eq.mp h).trans (completed_function cs c))
      rw [same] at h
      rw [Nat.succ_add]
      intro hn call hm
      obtain ⟨j, hj, below⟩ := h hn call hm
      rw [find?_update] at hj
      obtain ⟨i, hi, rfl⟩ := Option.map_eq_some_iff.mp hj
      exact ⟨i, hi, ih (List.mem_of_find?_eq_some hi) below⟩

/-- A circuit knows the same totals, whether or not another one knew its own before. -/
theorem completed_update (distinct : Distinct cs) (hc : c ∈ cs) (total : Totals cs c t s) (hk : k ∈ cs)
    (h : Totals cs k u v) :
    (replace (c.completed cs) k).completed (update cs (c.completed cs)) = k.completed cs := by
  rw [(Totals.update distinct hc total hk h).completed_eq, h.completed_eq]
  unfold replace
  split
  · rename_i hf
    obtain rfl := distinct.eq hk hc ((beq_iff_eq.mp hf).trans (completed_function cs c))
    rw [total.completed_eq]
  · rfl

/-- The first of several functions is completed, then the others. -/
theorem complete_cons_ok : complete name (f :: fs) cs = .ok ks ↔
    ∃ c t s, find? cs f = some c ∧ Totals cs c t s ∧ complete name fs (update cs (c.completed cs)) = .ok ks := by
  unfold complete
  rw [List.foldlM_cons]
  constructor
  · intro h
    obtain ⟨next, hn, h⟩ := except_bind_ok h
    split at hn
    · cases hn
    · rename_i c hc
      obtain ⟨⟨r, s⟩, hf, hn⟩ := except_bind_ok hn
      cases hn
      obtain ⟨t, ht, rfl⟩ := follow_totals hf
      refine ⟨c, t, s, hc, ht, ?_⟩
      have start : Reach.and ⟨[], []⟩ t = t := ht.none_and
      rw [start] at h
      rw [ht.completed_eq]
      exact h
  · rintro ⟨c, t, s, hc, ht, h⟩
    dsimp only
    rw [hc]
    dsimp only
    rw [ht.follow, show Reach.and ⟨[], []⟩ t = t from ht.none_and]
    rw [ht.completed_eq] at h
    exact h

/-- When all calls can be followed, and what every circuit then knows. -/
theorem complete_ok_iff (distinct : Distinct cs) : complete name fs cs = .ok ks ↔
    (∀ f ∈ fs, ∃ c t s, find? cs f = some c ∧ Totals cs c t s) ∧
      ks = cs.map fun c => if c.function ∈ fs then c.completed cs else c := by
  induction fs generalizing cs with
  | nil => simpa [complete, pure, Except.pure] using eq_comm
  | cons f fs ih =>
    have distinct' (c : Circuit) : Distinct (update cs c) := by
      unfold Distinct
      rw [update_eq, List.map_map]
      have same : Circuit.function ∘ replace c = Circuit.function := funext fun _ => replace_function
      rwa [same]
    have found {g : Nat} {c k : Circuit} (hc : find? cs g = some c) (hk : k ∈ cs) (h : k.function = g) : k = c :=
      distinct.eq hk (List.mem_of_find?_eq_some hc) (h.trans (find?_function hc).symm)
    rw [complete_cons_ok, List.forall_mem_cons]
    have maps {c : Circuit} {t : Reach} {s : CircuitSizes} (hc : find? cs f = some c) (ht : Totals cs c t s)
        (all : ∀ g ∈ fs, ∃ c t s, find? cs g = some c ∧ Totals cs c t s) :
        ((update cs (c.completed cs)).map fun k =>
          if k.function ∈ fs then k.completed (update cs (c.completed cs)) else k) =
        cs.map fun k => if k.function ∈ f :: fs then k.completed cs else k := by
      rw [update_eq, List.map_map]
      refine List.map_congr_left fun k hk => ?_
      have mem := List.mem_of_find?_eq_some hc
      rw [Function.comp_apply, replace_function]
      by_cases hf : k.function ∈ fs
      · obtain ⟨c', u, v, hc', hu⟩ := all _ hf
        obtain rfl := found hc' hk rfl
        rw [if_pos hf, if_pos (List.mem_cons_of_mem _ hf), ← update_eq]
        exact completed_update distinct mem ht hk hu
      · rw [if_neg hf]
        by_cases hkf : k.function = f
        · obtain rfl := found hc hk hkf
          rw [if_pos (List.mem_cons.mpr (.inl hkf))]
          exact if_pos (beq_iff_eq.mpr (completed_function cs k).symm)
        · rw [if_neg (fun h => (List.mem_cons.mp h).elim hkf hf)]
          refine if_neg fun h => hkf ?_
          rw [beq_iff_eq.mp h, completed_function, find?_function hc]
    constructor
    · rintro ⟨c, t, s, hc, ht, h⟩
      obtain ⟨all, rfl⟩ := (ih (distinct' _)).mp h
      have all : ∀ g ∈ fs, ∃ c t s, find? cs g = some c ∧ Totals cs c t s := by
        intro g hg
        obtain ⟨j, u, v, hj, hu⟩ := all g hg
        rw [find?_update] at hj
        obtain ⟨k, hk, rfl⟩ := Option.map_eq_some_iff.mp hj
        obtain ⟨n, hn⟩ := ht.settles
        obtain ⟨m, hm⟩ := hu.settles
        have mem := List.mem_of_find?_eq_some hc
        obtain ⟨u, v, hu⟩ := (hn.of_update distinct mem (List.mem_of_find?_eq_some hk) hm).totals
        exact ⟨k, u, v, hk, hu⟩
      exact ⟨⟨⟨c, t, s, hc, ht⟩, all⟩, maps hc ht all⟩
    · rintro ⟨⟨⟨c, t, s, hc, ht⟩, all⟩, rfl⟩
      refine ⟨c, t, s, hc, ht, (ih (distinct' _)).mpr ⟨fun g hg => ?_, (maps hc ht all).symm⟩⟩
      obtain ⟨k, u, v, hk, hu⟩ := all g hg
      have mem := List.mem_of_find?_eq_some hk
      refine ⟨_, u, v, ?_, Totals.update distinct (List.mem_of_find?_eq_some hc) ht mem hu⟩
      rw [find?_update, hk]
      rfl

/-- The order in which functions are completed does not matter, nor what they are called. -/
theorem complete_congr {name' : Nat → String} (distinct : Distinct cs) (same : ∀ f, f ∈ gs ↔ f ∈ fs)
    (h : complete name fs cs = .ok ks) : complete name' gs cs = .ok ks := by
  obtain ⟨all, rfl⟩ := (complete_ok_iff distinct).mp h
  refine (complete_ok_iff distinct).mpr ⟨fun f hf => all f ((same f).mp hf), ?_⟩
  simp only [same]

end Complete

end Circuit

end Shroud
