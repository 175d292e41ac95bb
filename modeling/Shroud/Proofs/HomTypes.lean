import Shroud.Proofs.Sources

/-!
# Types of operations on ciphertexts

An operation on ciphertexts has a homomorphic type, and its operands are converted to that type, apart from the factor of a
product that everybody can see. This module is about what that leaves of the operands (`Op.Operates.shares`).

**Homomorphism.** A converted operand has the homomorphism of the operation, unless everybody can see it
(`Expr.Converted.sharesHom`).

**Products.** A ciphertext can only be multiplied by a plain value. Either everybody can see one of the factors, or just one
of them is handed to another owner, so that its sender knows it. Converting the factors changes neither
(`Expr.Converted.isPublic`, `Expr.Converted.isReclassify`).
-/

namespace Shroud

/-! ## Converted operands -/

section Conversions

variable {k : Option Knowledge} {t expected : AnnTy} {e x : Expr} {u : Ty}

/-- A cast changes the data only. -/
theorem Expr.IsCast.checkedType (h : IsCast u e x) : x.checkedType.privacy = e.checkedType.privacy ∧
    x.checkedType.hom = e.checkedType.hom ∧ (u.isTuple = false → x.checkedType.type.isTuple = false) := by
  induction h with
  | around => exact ⟨rfl, rfl, fun single => single⟩
  | @inside i _ _ _ _ _ _ _ ih =>
    cases ht : i.type with
    | none =>
      obtain ⟨_, _, _, _, _⟩ := i
      cases ht
      exact ⟨rfl, rfl, fun _ => rfl⟩
    | some a => simpa [Expr.checkedType, type?, info, ht] using ih.2.2

theorem Expr.ChangesHom.hidden (h : ChangesHom k expected e x) : e.checkedType.isPublic = false := by
  cases h <;> assumption

/-- Another homomorphism changes nothing about the data. -/
theorem Expr.ChangesHom.checkedType (h : ChangesHom k expected e x) :
    x.checkedType.hom = expected.hom ∧ x.checkedType.type = e.checkedType.type := by
  cases h with
  | again _ _ rehom =>
    obtain ⟨_, -, -, rfl⟩ := rehomTo_ok rehom
    exact ⟨rfl, rfl⟩
  | handed | cast | choice => exact ⟨rfl, rfl⟩

/-- An operand that is converted to a type has its homomorphism, unless everybody can see it. -/
theorem Expr.Converted.sharesHom (h : Converted k e t x) (single : t.type.isTuple = false) : x.SharesHom t.hom := by
  obtain ⟨_, h⟩ := h.single single
  obtain ⟨_, _, y, used, tried, cast, steps⟩ := coercePlain_steps h
  have simple : e.checkedType.type.isTuple = false := by
    rw [← Ty.isTuple_of_convertsTo (tried.convertsTo used)]
    exact single
  obtain ⟨privacy, hom, data⟩ : y.checkedType.privacy = e.checkedType.privacy ∧ y.checkedType.hom = e.checkedType.hom ∧
      y.checkedType.type.isTuple = false := by
    obtain ⟨-, rfl⟩ | ⟨-, cast⟩ := castStep_cases cast
    · exact ⟨rfl, rfl, simple⟩
    · exact ⟨cast.checkedType.1, cast.checkedType.2.1, cast.checkedType.2.2 single⟩
  obtain ⟨-, encrypt⟩ | ⟨-, rfl, rfl⟩ | ⟨-, -, change⟩ := steps
  · obtain ⟨_, -, -, rfl⟩ := reclassifyTo_ok encrypt
    exact ⟨data, fun _ => rfl⟩
  · refine ⟨data, fun hidden => hom.trans (((tried.simple used simple).1 rfl).resolve_left fun visible => ?_)⟩
    unfold AnnTy.isPublic at hidden visible
    rw [privacy, visible] at hidden
    cases hidden
  · exact ⟨change.checkedType.2 ▸ data, fun _ => change.checkedType.1⟩

/-- What everybody can see stays so where everybody is to see it. -/
theorem Expr.Converted.isPublic (h : Converted k e t x) (visible : e.checkedType.isPublic = true)
    (everybody : t.isPublic = true) (single : t.type.isTuple = false) : x.checkedType.isPublic = true := by
  obtain ⟨_, h⟩ := h.single single
  obtain ⟨_, _, y, used, tried, cast, steps⟩ := coercePlain_steps h
  have simple : e.checkedType.type.isTuple = false := by
    rw [← Ty.isTuple_of_convertsTo (tried.convertsTo used)]
    exact single
  have stays : y.checkedType.isPublic = true := by
    obtain ⟨-, rfl⟩ | ⟨-, cast⟩ := castStep_cases cast
    · exact visible
    · unfold AnnTy.isPublic
      rw [cast.checkedType.1]
      exact visible
  obtain ⟨rfl, encrypt⟩ | ⟨-, rfl, rfl⟩ | ⟨-, -, change⟩ := steps
  · obtain ⟨⟨⟩, -⟩ | ⟨-, -, l, label, other⟩ := (tried.simple used simple).2
    cases (label?_of_isAll everybody).symm.trans label
    exact absurd rfl other
  · exact stays
  · rw [change.hidden] at stays
    cases stays

theorem Expr.ChangesHom.isReclassify (h : ChangesHom k expected e x) (foreign : e.checkedType.isMine k = false) :
    x.isReclassify = e.isReclassify := by
  cases h with
  | again _ mine =>
    rw [foreign] at mine
    cases mine
  | handed | cast | choice => rfl

/-- A private value that is handed to another owner is still handed over after its conversion, and no other is. -/
theorem Expr.Converted.isReclassify (h : Converted k e t x) (grounded : e.Grounded e.checkedType)
    (hidden : e.checkedType.isPublic = false) (foreign : e.checkedType.isMine k = false)
    (single : t.type.isTuple = false) : x.isReclassify = e.isReclassify := by
  obtain ⟨_, h⟩ := h.single single
  obtain ⟨_, _, y, used, tried, cast, steps⟩ := coercePlain_steps h
  have simple : e.checkedType.type.isTuple = false := by
    rw [← Ty.isTuple_of_convertsTo (tried.convertsTo used)]
    exact single
  obtain ⟨privacy, form⟩ : y.checkedType.privacy = e.checkedType.privacy ∧ y.isReclassify = e.isReclassify := by
    obtain ⟨-, rfl⟩ | ⟨-, cast⟩ := castStep_cases cast
    · exact ⟨rfl, rfl⟩
    · refine ⟨cast.checkedType.1, ?_⟩
      cases cast with
      | inside => rfl
      | around _ here =>
        cases e with
        | reclassify i m a p g =>
          have everybody : p.isAll = true := by simpa [castsInside] using here
          rw [grounded.operands.everybody _ _ _ _ _ rfl everybody] at hidden
          cases hidden
        | _ => rfl
  obtain ⟨rfl, -⟩ | ⟨-, -, rfl⟩ | ⟨-, -, change⟩ := steps
  · obtain ⟨⟨⟩, -⟩ | ⟨-, visible, -⟩ := (tried.simple used simple).2
    rw [hidden] at visible
    cases visible
  · exact form
  · exact (change.isReclassify ((AnnTy.isMine_congr privacy).trans foreign)).trans form

end Conversions

/-! ## Operations -/

section Operations

variable {k : Option Knowledge} {op : Op} {as xs : List Expr} {r : HomOperation} {t u : Ty}

/-- An operation of the table fits its operands. -/
theorem Hom.overload?_fits {n : String} {h : Hom} {ps : List Bool} {o : HomOverload} (found : overload? n h ps = some o) :
    o ∈ HomOverload.table ∧ o.op = n ∧ o.publicArgs.length = ps.length ∧
      ∀ p ∈ o.publicArgs.zip ps, p.1 = true → p.2 = true := by
  have fits := List.find?_some found
  simp only [HomOverload.fits, Bool.and_eq_true, beq_iff_eq, List.all_eq_true, Bool.or_eq_true, Bool.not_eq_true'] at fits
  obtain ⟨⟨name, -⟩, length, each⟩ := fits
  refine ⟨List.mem_of_find?_eq_some found, name, length, fun p hp needed => (each p hp).resolve_right ?_⟩
  rw [needed]
  exact Bool.noConfusion

/-- The operators that work on ciphertexts take numbers. -/
theorem Op.inputType?_of_name (h : op.name ∈ HomOverload.table.map (·.op)) :
    op.inputType? = some .number ∧ 0 < op.arity := by
  cases op with
  | plus | minus | add | sub | mul => exact ⟨rfl, by decide⟩
  | _ => exact absurd h (by decide)

theorem combineAll_isTuple {ts : List Ty} (h : combineAll (t :: ts) = .ok (some u)) : u.isTuple = t.isTuple := by
  refine except_foldlM_ok (P := fun r : Option Ty => ∀ c, r = some c → c.isTuple = t.isTuple)
    (fun acc v _ next same step => ?_) (fun c first => Option.some.inj first ▸ rfl) h u rfl
  split at step
  · cases step
    nofun
  · rename_i s
    obtain ⟨common, hcommon, step⟩ := except_bind_ok step
    split at step
    · rename_i c
      cases step
      rintro _ ⟨⟩
      unfold Ty.combine? at hcommon
      split at hcommon
      · cases hcommon
      · exact (Ty.combine_isTuple true (Except.ok.inj hcommon)).trans (same s rfl)
    · cases step
      nofun

/-- What the check finds of an operation on ciphertexts. -/
structure Op.Operates (op : Op) (k : Option Knowledge) (as : List Expr) (r : HomOperation) : Prop where
  name : op.name ∈ HomOverload.table.map (·.op)
  data : ∀ a rest, as = a :: rest → r.result.type.isTuple = a.checkedType.type.isTuple
  length : r.publicArgs.length = as.length
  visible : ∀ p ∈ r.publicArgs.zip as, p.1 = true → p.2.checkedType.isPublic = true
  product : op = .mul → ∃ a b p q, as = [a, b] ∧ r.publicArgs = [p, q] ∧ (p = true ∨ q = true ∨
    a.checkedType.isAccessible k = false ∧ b.checkedType.isAccessible k = false ∧ a.isReclassify ≠ b.isReclassify)

/-- A product in the table has a factor that everybody can see. -/
theorem HomOverload.product {o : HomOverload} (h : o ∈ table) (product : o.op = Op.mul.name) :
    o.publicArgs = [false, true] ∨ o.publicArgs = [true, false] := by
  revert product
  revert o
  decide

theorem Op.operates (h : op.homOperation k as = .ok (some r)) : op.Operates k as r := by
  unfold homOperation at h
  dsimp only at h
  split at h
  · cases h
  · rename_i owner rest foreign
    obtain ⟨common, hcommon, h⟩ := except_bind_ok h
    split at h
    · cases h
    · rename_i t
      have data : ∀ a rest, as = a :: rest → t.isTuple = a.checkedType.type.isTuple := by
        rintro a rest rfl
        exact combineAll_isTuple hcommon
      split at h
      · rename_i o found
        cases h
        obtain ⟨mem, name, length, visible⟩ := Hom.overload?_fits found
        rw [List.length_map] at length
        refine ⟨name ▸ List.mem_map_of_mem mem, data, length, fun p hp needed => ?_, fun product => ?_⟩
        · refine visible (p.1, p.2.checkedType.isPublic) ?_ needed
          rw [List.zip_map_right]
          exact List.mem_map_of_mem hp
        · subst product
          rcases HomOverload.product mem name with flags | flags
          all_goals
            rw [flags] at length
            obtain ⟨a, b, rfl⟩ := List.length_eq_two.mp length.symm
          · exact ⟨a, b, _, _, rfl, flags, .inr (.inl rfl)⟩
          · exact ⟨a, b, _, _, rfl, flags, .inl rfl⟩
      · split at h
        · rename_i a b _ _
          replace h := Except.ok.inj h
          split at h
          · rename_i handed
            cases h
            simp only [Bool.and_eq_true, beq_iff_eq, bne_iff_ne] at handed
            obtain ⟨⟨rfl, both⟩, one⟩ := handed
            have foreigners : ∀ c ∈ [a, b].map Expr.checkedType, (!c.isAccessible k) = true :=
              List.length_filter_eq_length_iff.mp both
            simp only [List.map_cons, List.map_nil, List.forall_mem_cons, Bool.not_eq_true'] at foreigners
            refine ⟨by decide, data, rfl, fun p hp needed => ?_, fun _ => ?_⟩
            · simp only [List.zip_cons_cons, List.mem_cons] at hp
              obtain rfl | rfl | hp := hp
              · cases needed
              · cases needed
              · cases hp
            · exact ⟨a, b, _, _, rfl, rfl, .inr (.inr ⟨foreigners.1, foreigners.2.1, one⟩)⟩
          · cases h
        · cases h

/-- Operands that are numbers are no tuples. -/
theorem Op.Operates.single {c : CheckContext} {e : Expr} {v : Unit} (h : op.Operates k as r)
    (numbers : checkOperands c e op as = .ok v) (some : as ≠ []) : r.result.type.isTuple = false := by
  obtain ⟨type, takes⟩ := Op.inputType?_of_name h.name
  cases as with
  | nil => exact absurd rfl some
  | cons a rest =>
    rw [h.data a rest rfl]
    unfold checkOperands at numbers
    rw [type] at numbers
    dsimp only at numbers
    split at numbers
    · rename_i none
      have mem : a ∈ (a :: rest).take op.arity := by
        obtain ⟨n, hn⟩ := Nat.exists_eq_add_of_lt takes
        rw [hn, Nat.zero_add, List.take_succ_cons]
        exact List.mem_cons_self
      have number : a.checkedType.type.convertsTo .number = true := by
        simpa [Expr.convertsTo] using List.find?_eq_none.mp none a mem
      exact (Ty.isTuple_of_convertsTo number).symm
    · cases numbers

theorem Expr.AllConverted.each {es : List Expr} {ts : List AnnTy} (h : AllConverted k es ts xs) :
    ∀ x ∈ xs, ∃ p ∈ ts.zip es, Converted k p.2 p.1 x := by
  induction es generalizing ts xs with
  | nil =>
    cases h
    exact List.forall_mem_nil _
  | cons e es ih =>
    cases h with
    | noTypes => exact List.forall_mem_nil _
    | cons first rest =>
      refine List.forall_mem_cons.mpr ⟨⟨_, List.mem_cons_self, first⟩, fun y hy => ?_⟩
      obtain ⟨p, hp, converted⟩ := ih rest y hy
      exact ⟨p, List.mem_cons_of_mem _ hp, converted⟩

/-- The type that an operand is brought to. -/
def HomOperation.input (r : HomOperation) (isPublic : Bool) : AnnTy :=
  if isPublic then .owned r.result.type .allLabel .nonHomomorphic else r.result

theorem HomOperation.input_type (r : HomOperation) (isPublic : Bool) : (r.input isPublic).type = r.result.type := by
  cases isPublic <;> rfl

/-- The operands of an operation on ciphertexts after their conversion. -/
theorem Op.Operates.shares {i j : Info} {q : Bool} {g : Option Expr} {o : Int} {key : Option CircuitVar}
    (h : op.Operates k as r) (single : as ≠ [] → r.result.type.isTuple = false)
    (grounded : ∀ a ∈ as, a.Grounded a.checkedType) (converted : Expr.AllConverted k as r.inputs xs) :
    (Expr.call i (.operator j op q r.result.hom g) xs o key).Shares r.result := by
  refine .ofCall ?_
  rintro _ _ _ _ _ ⟨⟩ - - -
  refine ⟨rfl, fun x hx _ => ?_, fun product => ?_⟩
  · obtain ⟨⟨t, a⟩, hp, converted⟩ := converted.each x hx
    rw [show r.inputs = r.publicArgs.map r.input from rfl, List.zip_map_left] at hp
    obtain ⟨⟨p, b⟩, mem, same⟩ := List.mem_map.mp hp
    cases same
    have one : (r.input p).type.isTuple = false := by
      rw [r.input_type]
      exact single (List.ne_nil_of_mem (List.of_mem_zip mem).2)
    cases p with
    | false => exact converted.sharesHom one
    | true =>
      refine ⟨(converted.sharesHom one).single, fun hidden => ?_⟩
      rw [converted.isPublic (h.visible _ mem rfl) rfl one] at hidden
      cases hidden
  · obtain ⟨a, b, p, q, rfl, flags, factors⟩ := h.product product
    have one (p : Bool) : (r.input p).type.isTuple = false := by
      rw [r.input_type]
      exact single (List.cons_ne_nil _ _)
    rw [show r.inputs = [r.input p, r.input q] by unfold HomOperation.inputs; rw [flags]; rfl] at converted
    have visible := h.visible
    rw [flags] at visible
    cases converted with
    | @cons _ x _ _ _ _ first rest =>
      cases rest with
      | @cons _ y _ _ _ _ second none =>
        cases none
        refine ⟨x, y, rfl, ?_⟩
        obtain rfl | rfl | ⟨foreign, foreign', one'⟩ := factors
        · exact .inr (.inr (.inl (first.isPublic (visible _ List.mem_cons_self rfl) rfl (one true))))
        · exact .inr (.inr (.inr (.inl (second.isPublic (visible (true, b) (by simp) rfl) rfl (one true)))))
        · have hidden {t : AnnTy} (h : t.isAccessible k = false) : t.isPublic = false ∧ t.isMine k = false :=
            Bool.or_eq_false_iff.mp h
          have same := first.isReclassify (grounded a (by simp)) (hidden foreign).1 (hidden foreign).2 (one p)
          have same' := second.isReclassify (grounded b (by simp)) (hidden foreign').1 (hidden foreign').2 (one q)
          rw [same, same']
          exact .inr (.inr (.inr (.inr one')))

end Operations

end Shroud
