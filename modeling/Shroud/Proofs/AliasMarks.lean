import Shroud.Proofs.Behaviour

/-!
# How statements are marked

Marking a statement with what is known, taken apart case by case, and what it does besides: the new labels are variables
that the statement declares, and a statement without side effects is still one.
-/

namespace Shroud

/-! ## Marking, statement by statement -/

section Marking

variable {symbols : Symbols} {k : Knowledge} {i : StmtInfo} {c : Expr} {s' : Stmt}

theorem Stmt.markAliases_ifThen {t : Block} (h : (Stmt.ifThen i c t none).markAliases symbols k = .ok s') :
    ∃ p t' after, k.assuming symbols c false = .ok p ∧ t.markAliases symbols p = .ok t' ∧
      (t'.info.after.getD k).join k = .ok after ∧ s' = .ifThen (i.known k after) c t' none := by
  obtain ⟨p, hp, h⟩ := except_bind_ok h
  obtain ⟨t', ht, h⟩ := except_bind_ok h
  obtain ⟨after, ha, h⟩ := except_bind_ok h
  cases h
  exact ⟨p, t', after, hp, ht, Knowledge.ofResult_ok ha, rfl⟩

theorem Stmt.markAliases_ifElse {t e : Block} (h : (Stmt.ifThen i c t (some e)).markAliases symbols k = .ok s') :
    ∃ p t' q e' after, k.assuming symbols c false = .ok p ∧ t.markAliases symbols p = .ok t' ∧
      k.assuming symbols c true = .ok q ∧ e.markAliases symbols q = .ok e' ∧
      (t'.info.after.getD k).join (e'.info.after.getD k) = .ok after ∧
      s' = .ifThen (i.known k after) c t' (some e') := by
  obtain ⟨p, hp, h⟩ := except_bind_ok h
  obtain ⟨t', ht, h⟩ := except_bind_ok h
  obtain ⟨q, hq, h⟩ := except_bind_ok h
  obtain ⟨e', he, h⟩ := except_bind_ok h
  obtain ⟨after, ha, h⟩ := except_bind_ok h
  cases h
  exact ⟨p, t', q, e', after, hp, ht, hq, he, Knowledge.ofResult_ok ha, rfl⟩

theorem Stmt.markAliases_whileLoop {b : Block} (h : (Stmt.whileLoop i c b).markAliases symbols k = .ok s') :
    ∃ head p b' after, k.past symbols [c.nodes, b.nodes] = .ok head ∧ head.assuming symbols c false = .ok p ∧
      b.markAliases symbols p = .ok b' ∧
      Knowledge.afterLoop symbols c head (b'.info.after.getD head) = .ok after ∧
      s' = .whileLoop (i.known head after) c b' := by
  obtain ⟨head, hh, h⟩ := except_bind_ok h
  obtain ⟨p, hp, h⟩ := except_bind_ok h
  obtain ⟨b', hb, h⟩ := except_bind_ok h
  obtain ⟨after, ha, h⟩ := except_bind_ok h
  cases h
  exact ⟨head, p, b', after, hh, hp, hb, ha, rfl⟩

theorem Stmt.markAliases_doWhile {b : Block} (h : (Stmt.doWhile i b c).markAliases symbols k = .ok s') :
    ∃ head b' after, k.past symbols [c.nodes, b.nodes] = .ok head ∧ b.markAliases symbols head = .ok b' ∧
      Knowledge.assuming symbols (b'.info.after.getD head) c true = .ok after ∧
      s' = .doWhile (i.known (b'.info.after.getD head) after) b' c := by
  obtain ⟨head, hh, h⟩ := except_bind_ok h
  obtain ⟨b', hb, h⟩ := except_bind_ok h
  obtain ⟨after, ha, h⟩ := except_bind_ok h
  cases h
  exact ⟨head, b', after, hh, hb, ha, rfl⟩

/-- Marking a part that may be missing; it also tells what is known afterwards. -/
def Stmt.MarksAliases? (symbols : Symbols) (k : Knowledge) : Option Stmt → Option Stmt → Knowledge → Prop
  | none, a', after => a' = none ∧ after = k
  | some s, a', after => ∃ s', s.markAliases symbols k = .ok s' ∧ a' = some s' ∧ after = s'.info.after.getD k

theorem Stmt.markAliases_forLoop {a u : Option Stmt} {b : Block}
    (h : (Stmt.forLoop i a c u b).markAliases symbols k = .ok s') :
    ∃ a' state head p b' u' last after after',
      Stmt.MarksAliases? symbols (k.enter (Stmt.declared? a ++ Stmt.declared? u)) a a' state ∧
      state.past symbols [c.nodes, b.nodes, (u.map Stmt.nodes).getD []] = .ok head ∧
      head.assuming symbols c false = .ok p ∧ b.markAliases symbols p = .ok b' ∧
      Stmt.MarksAliases? symbols (b'.info.after.getD head) u u' last ∧
      Knowledge.afterLoop symbols c state last = .ok after ∧
      after.leave (Stmt.declared? a ++ Stmt.declared? u) = .ok after' ∧
      s' = .forLoop (i.known head after') a' c u' b' := by
  unfold Stmt.markAliases at h
  obtain ⟨a', ha, h⟩ := except_bind_ok h
  obtain ⟨head, hh, h⟩ := except_bind_ok h
  obtain ⟨p, hp, h⟩ := except_bind_ok h
  obtain ⟨b', hb, h⟩ := except_bind_ok h
  obtain ⟨u', hu, h⟩ := except_bind_ok h
  obtain ⟨after, hl, h⟩ := except_bind_ok h
  obtain ⟨after', hr, h⟩ := except_bind_ok h
  cases h
  have part (a : Option Stmt) (k : Knowledge) {a' : Option Stmt} {x : Except Error (Option Stmt)}
      (missing : a = none → x = .ok none)
      (present : ∀ s, a = some s → x = (do return some (← s.markAliases symbols k))) (h : x = .ok a') :
      Stmt.MarksAliases? symbols k a a' (((a'.map Stmt.info).bind (·.after)).getD k) := by
    cases a with
    | none =>
      cases (missing rfl).symm.trans h
      exact ⟨rfl, rfl⟩
    | some s =>
      obtain ⟨t, ht, h⟩ := except_bind_ok ((present s rfl).symm.trans h)
      cases h
      exact ⟨t, ht, rfl, rfl⟩
  have first := part a (k.enter (Stmt.declared? a ++ Stmt.declared? u)) (by rintro rfl; rfl)
    (by rintro s rfl; rfl) ha
  have last := part u (b'.info.after.getD head) (by rintro rfl; rfl) (by rintro s rfl; rfl) hu
  exact ⟨a', _, head, p, b', u', _, after, after', first, hh, hp, hb, last, hl, hr, rfl⟩

theorem Block.markAliases_mk {ss : List Stmt} {x : Bool} {b' : Block}
    (h : (⟨i, ss, x⟩ : Block).markAliases symbols k = .ok b') :
    ∃ ss' after after', Stmt.markAliasesAll symbols (k.enter (Stmt.declaredAll ss)) ss = .ok (ss', after) ∧
      after.leave (Stmt.declaredAll ss) = .ok after' ∧ b' = ⟨i.known k after', ss', x⟩ := by
  obtain ⟨⟨ss', after⟩, hs, h⟩ := except_bind_ok h
  obtain ⟨after', ha, h⟩ := except_bind_ok h
  cases h
  exact ⟨ss', after, after', hs, ha, rfl⟩

theorem Stmt.markAliases_seq {ss : List Stmt} {x : Bool} (h : (Stmt.seq i ss x).markAliases symbols k = .ok s') :
    ∃ ss' after, Stmt.markAliasesAll symbols k ss = .ok (ss', after) ∧ s' = .seq (i.known k after) ss' x := by
  obtain ⟨⟨ss', after⟩, hs, h⟩ := except_bind_ok h
  cases h
  exact ⟨ss', after, hs, rfl⟩

theorem Stmt.markAliasesAll_cons {s : Stmt} {ss ss' : List Stmt} {after : Knowledge}
    (h : Stmt.markAliasesAll symbols k (s :: ss) = .ok (ss', after)) :
    ∃ s' rest, s.markAliases symbols k = .ok s' ∧
      Stmt.markAliasesAll symbols (s'.info.after.getD k) ss = .ok (rest, after) ∧ ss' = s' :: rest := by
  obtain ⟨s', hs, h⟩ := except_bind_ok h
  obtain ⟨⟨rest, after⟩, hr, h⟩ := except_bind_ok h
  cases h
  exact ⟨s', rest, hs, hr, rfl⟩

/-- A statement that is executed in one step. -/
def Stmt.isSimple : Stmt → Bool
  | .eval .. | .require .. | .assign .. | .declare .. => true
  | _ => false

/-- A simple statement is marked with what is known past its side effects. -/
theorem Stmt.markAliases_simple {s : Stmt} (simple : s.isSimple = true) (h : s.markAliases symbols k = .ok s') :
    ∃ parts before after, k.past symbols parts = .ok before ∧ after.members ⊆ before.members ∧
      s'.info.before = some before ∧ s'.info.after = some after ∧ s'.isSimple = true ∧
      (∃ ns, s.nodes = .stmt s :: ns ∧ s'.nodes = .stmt s' :: ns) ∧
      ((Node.stmt s).Quiet symbols → (Node.stmt s').Quiet symbols) := by
  cases s with
  | eval i e =>
    obtain ⟨before, hb, h⟩ := except_bind_ok h
    cases h
    exact ⟨_, before, before, hb, List.Subset.refl _, rfl, rfl, rfl, ⟨_, rfl, rfl⟩, fun h => h⟩
  | require i e =>
    obtain ⟨before, hb, h⟩ := except_bind_ok h
    obtain ⟨after, ha, h⟩ := except_bind_ok h
    cases h
    exact ⟨_, before, after, hb, Knowledge.assuming_members ha, rfl, rfl, rfl, ⟨_, rfl, rfl⟩, fun h => h⟩
  | assign i l r o x =>
    obtain ⟨before, hb, h⟩ := except_bind_ok h
    obtain ⟨after, ha, h⟩ := except_bind_ok h
    cases h
    exact ⟨_, before, after, hb, Expr.equate_members ha, rfl, rfl, rfl, ⟨_, rfl, rfl⟩, fun h => h⟩
  | declare i v e =>
    obtain ⟨before, hb, h⟩ := except_bind_ok h
    dsimp only at h
    split at h
    · cases h
    · split at h
      · cases h
        exact ⟨_, before, before, hb, List.Subset.refl _, rfl, rfl, rfl, ⟨_, rfl, rfl⟩, fun h => h⟩
      · obtain ⟨after, ha, h⟩ := except_bind_ok h
        cases h
        obtain ⟨done, rfl⟩ := Knowledge.ofUpdate_ok ha
        exact ⟨_, before, _, hb, Partition.members_merge done, rfl, rfl, rfl, ⟨_, rfl, rfl⟩, fun h => h⟩
  | _ => cases simple

/-! ## Labels and side effects of marked statements -/

/-- Labels of the second state and local variables with these numbers are all that the first state lists. -/
def Knowledge.Within (k' k : Knowledge) (ids : List Nat) : Prop :=
  ∀ x ∈ k'.members, x ∈ k.members ∨ ∃ i ∈ ids, Store.localId? x = some i

theorem Knowledge.Within.of_subset {k k' : Knowledge} {ids : List Nat} (h : k'.members ⊆ k.members) :
    k'.Within k ids := by
  intro x hx
  exact .inl (h hx)

theorem Knowledge.Within.trans {k k' k'' : Knowledge} {ids : List Nat} (h : k''.Within k' ids)
    (h' : k'.Within k ids) : k''.Within k ids := by
  intro x hx
  rcases h x hx with hx | new
  · exact h' x hx
  · exact .inr new

theorem Knowledge.Within.mono {k k' : Knowledge} {ids ids' : List Nat} (h : k'.Within k ids) (sub : ids ⊆ ids') :
    k'.Within k ids' := by
  intro x hx
  exact (h x hx).imp_right fun ⟨i, hi, hx⟩ => ⟨i, sub hi, hx⟩

mutual

theorem Stmt.declared_numbers : ∀ s : Stmt, s.declared.map (·.id) ⊆ s.numbers
  | .declare i v e => by
    rw [Stmt.numbers_declare]
    exact List.Subset.refl _
  | .seq i ss x => by
    rw [Stmt.numbers_seq]
    exact Stmt.declaredAll_numbers ss
  | .ifThen .. | .whileLoop .. | .doWhile .. | .forLoop .. | .breakLoop _ | .continueLoop _ | .ret .. | .eval ..
  | .require .. | .assign .. | .block _ | .compute .. | .enterKey .. | .comment _ | .blank => List.nil_subset _

theorem Stmt.declaredAll_numbers : ∀ ss : List Stmt, (Stmt.declaredAll ss).map (·.id) ⊆ ss.flatMap Stmt.numbers
  | [] => List.nil_subset _
  | s :: ss => by
    rw [Stmt.declaredAll, List.map_append, List.flatMap_cons]
    exact List.append_subset.mpr ⟨List.subset_append_of_subset_left _ s.declared_numbers,
      List.subset_append_of_subset_right _ (Stmt.declaredAll_numbers ss)⟩

end

/-- Variables that come into scope are the only new labels. -/
theorem Knowledge.enter_within (k : Knowledge) (vs : List LocalVar) : (k.enter vs).Within k (vs.map (·.id)) := by
  intro x hx
  rcases Knowledge.enter_members hx with hx | ⟨v, hv, rfl⟩
  · exact .inl hx
  · exact .inr ⟨v.id, List.mem_map_of_mem hv, rfl⟩

/-- What marking does besides noting what is known: no side effects appear, and the new labels are variables that the
statement declares. -/
structure Stmt.Marked (symbols : Symbols) (k : Knowledge) (s s' : Stmt) : Prop where
  grows : Knowledge.Within (s'.info.after.getD k) k s.numbers
  quiet : (∀ n ∈ s.nodes, n.Quiet symbols) → ∀ n ∈ s'.nodes, n.Quiet symbols

theorem Stmt.markAliases_marked (s : Stmt) : ∀ k s', s.markAliases symbols k = .ok s' → s.Marked symbols k s' := by
  have all (ss : List Stmt) (ih : ∀ s ∈ ss, ∀ k s', s.markAliases symbols k = .ok s' → s.Marked symbols k s') :
      ∀ k ss' after, Stmt.markAliasesAll symbols k ss = .ok (ss', after) →
        after.Within k (ss.flatMap Stmt.numbers) ∧
          ((∀ n ∈ Stmt.nodesAll ss, n.Quiet symbols) → ∀ n ∈ Stmt.nodesAll ss', n.Quiet symbols) := by
    induction ss with
    | nil =>
      intro k ss' after h
      cases h
      exact ⟨.of_subset (List.Subset.refl _), fun _ _ hn => (List.not_mem_nil hn).elim⟩
    | cons s ss hss =>
      intro k ss' after h
      obtain ⟨s', rest, hs, hr, rfl⟩ := Stmt.markAliasesAll_cons h
      have first := ih s List.mem_cons_self k s' hs
      obtain ⟨grows, quiet⟩ := hss (fun t ht => ih t (List.mem_cons_of_mem _ ht)) _ _ _ hr
      rw [List.flatMap_cons]
      refine ⟨(grows.mono (List.subset_append_right _ _)).trans
        (first.grows.mono (List.subset_append_left _ _)), fun h n hn => ?_⟩
      simp only [Stmt.nodesAll, List.mem_append] at h hn
      rcases hn with hn | hn
      · exact first.quiet (fun n hn => h n (.inl hn)) n hn
      · exact quiet (fun n hn => h n (.inr hn)) n hn
  have body (b : Block) (ih : ∀ s ∈ b.stmts, ∀ k s', s.markAliases symbols k = .ok s' → s.Marked symbols k s') :
      ∀ k b', b.markAliases symbols k = .ok b' →
        ∃ after : Knowledge, b'.info.after = some after ∧ after.Within k b.numbers ∧
        ((∀ n ∈ b.nodes, n.Quiet symbols) → ∀ n ∈ b'.nodes, n.Quiet symbols) := by
    intro k b' h
    obtain ⟨i, ss, x⟩ := b
    obtain ⟨ss', after, after', hs, ha, rfl⟩ := Block.markAliases_mk h
    obtain ⟨grows, quiet⟩ := all ss ih _ _ _ hs
    refine ⟨after', rfl, ?_, fun h n hn => ?_⟩
    · rw [Block.numbers_mk]
      have entered := (k.enter_within (Stmt.declaredAll ss)).mono (Stmt.declaredAll_numbers ss)
      exact .trans (.of_subset (Knowledge.leave_members ha)) (grows.trans entered)
    · simp only [Block.nodes, List.mem_cons] at h hn
      rcases hn with rfl | hn
      · trivial
      · exact quiet (fun n hn => h n (.inr hn)) n hn
  have part (a : Option Stmt) (ih : ∀ s, a = some s → ∀ k s', s.markAliases symbols k = .ok s' → s.Marked symbols k s')
      {k : Knowledge} {a' : Option Stmt} {after : Knowledge} (h : Stmt.MarksAliases? symbols k a a' after) :
      after.Within k (Stmt.numbers? a) ∧ ((∀ n ∈ (a.map Stmt.nodes).getD [], n.Quiet symbols) →
        ∀ n ∈ (a'.map Stmt.nodes).getD [], n.Quiet symbols) := by
    cases a with
    | none =>
      obtain ⟨rfl, rfl⟩ := h
      exact ⟨.of_subset (List.Subset.refl _), fun _ _ hn => (List.not_mem_nil hn).elim⟩
    | some s =>
      obtain ⟨s', hs, rfl, rfl⟩ := h
      have marked := ih s rfl k s' hs
      exact ⟨marked.grows, marked.quiet⟩
  induction s using Stmt.inductOn with
  | ifThen i c t e ht he =>
    intro k s' h
    cases e with
    | none =>
      obtain ⟨p, t', after, hp, hmt, hj, rfl⟩ := Stmt.markAliases_ifThen h
      obtain ⟨afterThen, hat, grows, quiet⟩ := body t ht p t' hmt
      rw [hat, Option.getD_some] at hj
      refine ⟨?_, fun hq n hn => ?_⟩
      · rw [Stmt.numbers_ifThen]
        refine .trans (.of_subset (Partition.members_join hj)) ?_
        exact (grows.mono (List.subset_append_left _ _)).trans (.of_subset (Knowledge.assuming_members hp))
      · simp only [Stmt.nodes, List.mem_cons, List.mem_append] at hq hn
        grind [Node.Quiet]
    | some e =>
      obtain ⟨p, t', q, e', after, hp, hmt, hq, hme, hj, rfl⟩ := Stmt.markAliases_ifElse h
      obtain ⟨afterThen, hat, grows, quiet⟩ := body t ht p t' hmt
      obtain ⟨-, -, -, quiet'⟩ := body e (he e rfl) q e' hme
      rw [hat, Option.getD_some] at hj
      refine ⟨?_, fun hq n hn => ?_⟩
      · rw [Stmt.numbers_ifThen]
        refine .trans (.of_subset (Partition.members_join hj)) ?_
        exact (grows.mono (List.subset_append_left _ _)).trans (.of_subset (Knowledge.assuming_members hp))
      · simp only [Stmt.nodes, List.mem_cons, List.mem_append] at hq hn
        grind [Node.Quiet]
  | whileLoop i c b hb =>
    intro k s' h
    obtain ⟨head, p, b', after, hh, hp, hmb, ha, rfl⟩ := Stmt.markAliases_whileLoop h
    obtain ⟨afterBody, hab, grows, quiet⟩ := body b hb p b' hmb
    refine ⟨.of_subset (List.Subset.trans (Knowledge.afterLoop_members ha) (Knowledge.past_members hh)),
      fun hq n hn => ?_⟩
    simp only [Stmt.nodes, List.mem_cons, List.mem_append] at hq hn
    grind [Node.Quiet]
  | doWhile i b c hb =>
    intro k s' h
    obtain ⟨head, b', after, hh, hmb, ha, rfl⟩ := Stmt.markAliases_doWhile h
    obtain ⟨afterBody, hab, grows, quiet⟩ := body b hb head b' hmb
    rw [hab, Option.getD_some] at ha
    refine ⟨?_, fun hq n hn => ?_⟩
    · rw [Stmt.numbers_doWhile]
      refine .trans (.of_subset (Knowledge.assuming_members ha)) ?_
      exact grows.trans (.of_subset (Knowledge.past_members hh))
    · simp only [Stmt.nodes, List.mem_cons, List.mem_append] at hq hn
      grind [Node.Quiet]
  | forLoop i a c u b ha hu hb =>
    intro k s' h
    obtain ⟨a', state, head, p, b', u', last, after, after', hma, hh, hp, hmb, hmu, hl, hr, rfl⟩ :=
      Stmt.markAliases_forLoop h
    obtain ⟨growsInit, quietInit⟩ := part a ha hma
    obtain ⟨afterBody, hab, grows, quiet⟩ := body b hb p b' hmb
    obtain ⟨growsUpdate, quietUpdate⟩ := part u hu hmu
    refine ⟨?_, fun hq n hn => ?_⟩
    · rw [Stmt.numbers_forLoop]
      have entered : (k.enter (Stmt.declared? a ++ Stmt.declared? u)).Within k
          (Stmt.numbers? a ++ (Stmt.numbers? u ++ b.numbers)) := by
        refine (k.enter_within _).mono ?_
        rw [List.map_append]
        have sub (a : Option Stmt) : (Stmt.declared? a).map (·.id) ⊆ Stmt.numbers? a := by
          cases a with
          | none => exact List.nil_subset _
          | some s => exact s.declared_numbers
        have := sub a
        have := sub u
        grind
      refine .trans (.of_subset (List.Subset.trans (Knowledge.leave_members hr) (Knowledge.afterLoop_members hl))) ?_
      exact (growsInit.mono (List.subset_append_left _ _)).trans entered
    · simp only [Stmt.nodes_forLoop, List.mem_cons, List.mem_append] at hq hn
      grind [Node.Quiet]
  | block b hb =>
    intro k s' h
    obtain ⟨b', hmb, h⟩ := except_bind_ok h
    cases h
    obtain ⟨after, ha, grows, quiet⟩ := body b hb k b' hmb
    refine ⟨?_, quiet⟩
    show Knowledge.Within (b'.info.after.getD k) k _
    rw [ha]
    exact grows
  | seq i ss x hs =>
    intro k s' h
    obtain ⟨ss', after, hms, rfl⟩ := Stmt.markAliases_seq h
    obtain ⟨grows, quiet⟩ := all ss hs _ _ _ hms
    refine ⟨?_, fun hq n hn => ?_⟩
    · rw [Stmt.numbers_seq]
      exact grows
    · simp only [Stmt.nodes, List.mem_cons] at hq hn
      grind [Node.Quiet]
  | simple s hs =>
    intro k s' h
    cases s with
    | breakLoop | continueLoop | comment | blank =>
      cases h
      exact ⟨.of_subset (List.Subset.refl _), fun _ n hn => by rw [List.mem_singleton.mp hn]; trivial⟩
    | ret i e =>
      cases h
      refine ⟨.of_subset (List.Subset.refl _), fun hq n hn => ?_⟩
      simp only [Stmt.nodes, List.mem_cons] at hq hn
      grind [Node.Quiet]
    | compute | enterKey => cases h
    | eval | require | assign | declare =>
      obtain ⟨parts, before, after, hb, ha, -, hia, -, ⟨ns, hn, hn'⟩, own⟩ := Stmt.markAliases_simple rfl h
      refine ⟨?_, fun hq n hm => ?_⟩
      · rw [hia]
        exact .of_subset (List.Subset.trans ha (Knowledge.past_members hb))
      · rw [hn] at hq
        rw [hn'] at hm
        rcases List.mem_cons.mp hm with rfl | hm
        · exact own (hq _ List.mem_cons_self)
        · exact hq n (List.mem_cons_of_mem _ hm)
    | ifThen | whileLoop | doWhile | forLoop | block | seq => cases hs

end Marking

end Shroud
