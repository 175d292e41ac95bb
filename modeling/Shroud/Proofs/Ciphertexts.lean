import Shroud.Proofs.Lawful
import Shroud.Proofs.Origins
import Shroud.Proofs.SourceNames

/-!
# Operands of operations on ciphertexts

An operation on ciphertexts stays one in the circuit. Its private operands are typed as ciphertexts before they enter, but
only names, elements, results of other such operations and values for other owners look at that type. Any other operator
around them, such as parentheses or a conversion, is entered like in a plain operation, and what is inside is decrypted.

**Backends.** A ciphertext enters under the backend of the operation. What is handed to another owner is encrypted under the
backend of its own homomorphism, which the check has made the one of the operation (`Expr.Shares`).

**Plain factors.** What everybody can see enters in plain, and so does a factor that is handed over, before it is encrypted.
The circuit may know a ciphertext as the value of a variable, though. So what is said of backends and of plain values may
fail where a read was answered by a ciphertext (`Circuit.ServesCipher`).

**Main results.**
* `gives_operand`: how a private operand enters, one case for each form of expression.
* `privately_encrypted_iff`: the operands that an operation needs as ciphertexts are ciphertexts exactly if they stay
  encrypted, and of its backend; the others are plain.
* `SourceUnit.check_encrypted_iff`: so it is for the operations of accepted programs.
* `enclosing_plain_summand`: a compiled program with a circuit that adds a plain number to a ciphertext.
-/

namespace Shroud

open SplitM

/-! ## Places -/

mutual

/-- Containers of the type hold no values of literal types. -/
def Ty.IsStored : Ty → Prop
  | .mapping _ _ _ v | .array v _ => v.IsStored
  | _ => True

def AnnTy.IsStored : AnnTy → Prop
  | ⟨t, _, _, _, _⟩ => t.literal? = none ∧ t.IsStored

end

theorem Ty.IsStored.value {t : Ty} {v : AnnTy} (h : t.IsStored) (hv : t.valueType? = some v) :
    v.type.literal? = none ∧ v.type.IsStored := by
  cases t with
  | mapping | array =>
    cases hv
    cases v
    exact h
  | cipher | publicKey | randomness =>
    cases hv
    exact ⟨rfl, trivial⟩
  | _ => cases hv

/-- The expression is an element of a container. -/
def Expr.isElement : Expr → Bool
  | .index .. => true
  | _ => false

/-- A variable or a member, or an element of one. -/
def Expr.IsPlace : Expr → Prop
  | .ident i n r => (Expr.ident i n r).checkedType.type.IsStored
  | .member i e n r => (Expr.member i e n r).checkedType.type.IsStored
  | .index _ e _ _ => e.IsPlace
  | _ => False

/-- An expression whose value is read in public code when it enters the circuit. -/
def Expr.IsInput : Expr → Prop
  | .ident _ (.plain _) _ | .member .. | .me _ => True
  | .index _ e _ _ => e.IsPlace
  | _ => False

/-! ## Ciphertexts -/

/-- The backend of the ciphertexts that the type holds. -/
def Ty.cipher? : Ty → Option Backend
  | .cipher _ b => some b
  | _ => none

/-- The backend of the ciphertext that an expression of the circuit is. Variables hold ciphertexts, and operations on
ciphertexts compute them. -/
def Expr.cipher? (o : Options) : Expr → Option Backend
  | .ident _ (.circuit v) _ => v.type.cipher?
  | .call _ (.operator _ _ _ h _) _ _ (some _) => if h = .nonHomomorphic then none else some (o.backend h)
  | _ => none

/-- The place of a circuit variable that holds a ciphertext of the backend, if it is the place of a circuit variable at
all. -/
def Expr.PlacesCipher (b : Backend) (p : Expr) : Prop :=
  ∀ i x v r, p = .member i x (.circuit v) r → v.type.cipher? = some b

/-- How a private operand of an operation on ciphertexts of a backend enters the circuit, apart from results of
functions. -/
def Expr.Enters (o : Options) (b : Backend) (a : Expr) (entered : Option Backend) : Prop :=
  match a with
  | .ident _ (.plain _) _ | .member .. | .index .. | .me _ => entered = some b
  | .reclassify .. => entered.isSome = true
  | .call _ (.operator _ _ _ h _) _ _ _ => entered = if h = .nonHomomorphic then none else some (o.backend h)
  | .call .. | .ident _ (.circuit _) _ => True
  | _ => entered = none

/-- The operand is the result of a function, or a variable of the circuit already. -/
def Expr.isComputed : Expr → Bool
  | .call _ (.operator ..) _ _ _ => false
  | .call .. | .ident _ (.circuit _) _ => true
  | _ => false

/-- As an operand of an operation on ciphertexts, the expression is not decrypted. -/
def Expr.StaysEncrypted : Expr → Prop
  | .ident .. | .member .. | .index .. | .me _ | .reclassify .. => True
  | .call _ (.operator _ _ _ h _) _ _ _ => h ≠ .nonHomomorphic
  | _ => False

/-- The expression is a name, an element, a constant, or composed by operators and conversions that work on plain values. -/
def Expr.HasPlainForm : Expr → Prop
  | .ident i (.plain n) r => (Expr.ident i (.plain n) r).checkedType.type.literal? = none
  | .member i e n r => (Expr.member i e n r).checkedType.type.literal? = none
  | .me i => (Expr.me i).checkedType.type.literal? = none
  | .index _ e _ _ => e.IsPlace
  | .call _ (.operator _ _ _ h _) _ _ _ => h = .nonHomomorphic
  | .call .. | .ident _ (.circuit _) _ | .reclassify .. => False
  | _ => True

/-- The expression has a plain value in public code. -/
structure Expr.IsPlain (e : Expr) : Prop where
  form : e.HasPlainForm
  data : e.checkedType.isCipher = false

/-- If the expression is handed to another owner, a plain value is: one that is computed in the circuit, or that enters it
as an input. -/
def Expr.HandsPlain : Expr → Prop
  | .reclassify _ _ e _ _ => e.IsPlain ∧ ((e.checkedType.isPrivate || e.info.privately) = true ∨ e.IsInput)
  | _ => True

/-- The operand is needed as a ciphertext. Operands that everybody can see are not, and a factor that is handed to another
owner is used in plain. -/
def Expr.entersEncrypted (op : Op) (a : Expr) : Bool := a.checkedType.isPrivate && !(op == .mul && a.isReclassify)

/-- What the operand is when it is used in plain. -/
def Expr.usedPlain (op : Op) : Expr → Expr
  | .reclassify i m e p h => if op = .mul then e else .reclassify i m e p h
  | e => e

/-- How an operand of an operation on ciphertexts is found in the circuit. Of results of functions nothing is known, and
what is said of backends and of plain values may fail where a read was answered by a ciphertext. -/
structure OperandEnters (o : Options) (h : Hom) (op : Op) (served : Prop) (a a' : Expr) : Prop where
  encrypted : a.entersEncrypted op = true → a.isComputed = false → ((a'.cipher? o).isSome = true ↔ a.StaysEncrypted)
  backend : a.entersEncrypted op = true → a.isComputed = false → a.HandsPlain →
    served ∨ ∀ b, a'.cipher? o = some b → b = o.backend h
  plain : a.entersEncrypted op = false → (a.usedPlain op).IsPlain → served ∨ a'.cipher? o = none

theorem OperandEnters.imp {o : Options} {h : Hom} {op : Op} {p q : Prop} {a a' : Expr} (enters : OperandEnters o h op p a a')
    (later : p → q) : OperandEnters o h op q a a' :=
  ⟨enters.encrypted, fun needed source handed => (enters.backend needed source handed).imp_left later,
    fun unneeded form => (enters.plain unneeded form).imp_left later⟩

section Operands

variable {o : Options} {b : Backend} {a : Expr} {entered : Option Backend}

theorem Expr.Enters.isSome_iff (enters : a.Enters o b entered) (source : a.isComputed = false) :
    entered.isSome = true ↔ a.StaysEncrypted := by
  cases a with
  | ident i n r =>
    cases n with
    | plain =>
      obtain rfl := enters
      exact iff_of_true rfl trivial
    | circuit => cases source
  | member | index | me =>
    obtain rfl := enters
    exact iff_of_true rfl trivial
  | reclassify => exact iff_of_true enters trivial
  | call i f as n key =>
    cases f with
    | operator j op p h r =>
      obtain rfl := enters
      by_cases plain : h = .nonHomomorphic
      · rw [if_pos plain]
        exact iff_of_false Bool.false_ne_true fun stays => stays plain
      · rw [if_neg plain]
        exact iff_of_true rfl plain
    | _ => cases source
  | tuple | new | cast | operator | boolLit | numLit | arrayLit | all =>
    obtain rfl := enters
    exact iff_of_false Bool.false_ne_true fun h => h

end Operands

/-! ## Reads of ciphertexts -/

/-- A read of a variable was answered by a ciphertext. -/
def Circuit.ServesCipher (c : Circuit) : Prop :=
  ∃ m ∈ c.moments, ∃ p, m.event.served? = some p ∧ p.2.type.isCipher = true

theorem Expr.link_index (c : LinkContext) (i : Info) (e k : Expr) (r : Option Ref) :
    Yields (fun x => x.checkedType = (Expr.index i e k r).checkedType) ((Expr.index i e k r).link c) := by
  unfold Expr.link
  exact .after fun _ => .after fun _ => .after fun _ => .pure rfl

theorem Expr.checkedType_withType (e : Expr) (t : AnnTy) : (e.withType t).checkedType = t := by
  cases e <;> rfl

/-- How an operand enters does not depend on its type. -/
theorem Expr.enters_withType {o : Options} {b : Backend} {a : Expr} {t : AnnTy} {entered : Option Backend} :
    (a.withType t).Enters o b entered ↔ a.Enters o b entered := by
  cases a with
  | ident i n r => cases n <;> exact Iff.rfl
  | call i f as n key => cases f <;> exact Iff.rfl
  | _ => exact Iff.rfl

theorem Expr.checkedType_withPos (e : Expr) (p : Pos) : (e.withPos p).checkedType = e.checkedType := by
  cases e <;> rfl

namespace Splitter

variable {P : Expr → Prop} {t : Splitter} {e : Expr}

theorem gives_relink (h : ∀ c, Yields P (e.link c)) : Gives P (relink e) :=
  .after fun c _ _ _ _ hr => runs_linking (h c) hr

/-- Elements are looked up in their containers, which hold no literals. -/
theorem gives_place (n : Nat) (place : e.IsPlace) : Gives (fun x => x.checkedType.type.IsStored ∧
    (e.isElement = true → x.checkedType.type.literal? = none)) ((bounded n).publicly e) := by
  induction n generalizing e with
  | zero => exact .throw
  | succ n ih =>
    cases e with
    | ident => exact .pure ⟨place, fun h => by cases h⟩
    | member => exact .after fun _ => .put ⟨place, fun h => by cases h⟩
    | index i b key r =>
      refine (ih (e := b) place).bind fun base hb => .after fun key => ?_
      refine Gives.bind (P := fun p => ∃ v, base.checkedType.type.valueType? = some v ∧
        ∃ i key r, p = .index i base key r ∧ i.type = some v) (.ofExcept fun p hp => ?_) fun p hp => ?_
      · unfold Expr.indexedBy at hp
        split at hp
        · rename_i v hv
          cases hp
          exact ⟨v, hv, _, _, _, rfl, rfl⟩
        · cases hp
      · obtain ⟨v, hv, i, key, r, rfl, type⟩ := hp
        refine (gives_relink fun c => Expr.link_index c i base key r).bind fun x hx => .pure ?_
        have value : x.checkedType = v := hx.trans (congrArg (·.getD default) type)
        have stored := hb.1.value hv
        rw [← value] at stored
        exact ⟨(x.checkedType_withPos _).symm ▸ stored.2, fun _ => (x.checkedType_withPos _).symm ▸ stored.1⟩
    | _ => exact place.elim

/-- What is shown of an input in public code is no literal. -/
theorem gives_shown (n : Nat) (input : e.IsInput) (word : e.isElement = false → e.checkedType.type.literal? = none) :
    Gives (fun x => x.checkedType.type.literal? = none) ((bounded n).publicly e) := by
  cases n with
  | zero => exact .throw
  | succ n =>
    cases e with
    | ident => exact .pure (word rfl)
    | member => exact .after fun _ => .put (word rfl)
    | me => exact .after fun x => .pure (by cases x <;> rfl)
    | index i b key r => exact (gives_place (n + 1) (e := .index i b key r) input).imp fun x hx => hx.2 rfl
    | _ => exact input.elim

theorem gives_freshInput {u : Ty} {source : Option Expr} {suffix : String} :
    Gives (fun v => v.type = u.abstract) (freshInput u source suffix) := fun k w v w' hr => by
  obtain ⟨rfl, -⟩ := (runs_handOut (fun c => c.inputs.fresh u source suffix) (fun s c => { c with inputs := s })).mp hr
  rfl

theorem gives_freshOutput {u : Ty} {source : Expr} {suffix : String} :
    Gives (fun v => v.type = u.abstract) (freshOutput u source suffix) := fun k w v w' hr => by
  obtain ⟨rfl, -⟩ := (runs_handOut (fun c => c.outputs.fresh u (some source) suffix)
    (fun s c => { c with outputs := s })).mp hr
  rfl

/-- What is typed as a ciphertext enters as one. -/
theorem gives_input (n : Nat) (input : e.IsInput) {p : AnnTy} {b : Backend} (type : e.checkedType = .cipherOf p b) :
    Gives (fun v => v.type = .cipher p b) ((bounded n).input e) := by
  have cipher : e.checkedType.isCipher = true := by
    rw [type]
    rfl
  have unnamed : cachedAs? e = none := if_pos cipher
  have word : e.checkedType.type.literal? = none := by
    rw [type]
    rfl
  unfold Splitter.input
  rw [unnamed]
  refine (gives_shown n input fun _ => word).bind fun shown hshown => ?_
  rw [hshown]
  refine Gives.bind (P := fun r => r = none) (.pure rfl) fun r hr => ?_
  cases hr
  refine Gives.bind (P := fun v => v.type = .cipher p b) ?_ fun v hv => .pure hv
  unfold bringIn
  rw [type]
  refine gives_freshInput.bind fun v hv => ?_
  exact .after fun _ => .after fun _ => .after fun _ => .after fun _ => .pure hv

theorem location_member {v u : CircuitVar} {i : Info} {x : Expr} {r : Option Ref}
    (h : v.location = .ok (.member i x (.circuit u) r)) : u = v := by
  unfold CircuitVar.location at h
  split at h
  · rename_i constant
    unfold CircuitVar.constant? at constant
    split at constant
    · split at constant <;> cases constant <;> cases h
    · cases constant
  · split at h
    · cases h
      rfl
    · cases h

theorem placesCipher_location {v : CircuitVar} {b : Backend} (cipher : v.type.cipher? = some b) :
    Gives (Expr.PlacesCipher b) (ofExcept v.location) :=
  .ofExcept fun p hp i x u r named => by
    rw [named] at hp
    rw [location_member hp]
    exact cipher

theorem runs_backend {k : SplitContext} {w w' : Workspace} {h : Hom} {b : Backend} :
    Runs k (backend h) w b w' ↔ k.options.backend h = b ∧ w = w' := by
  unfold backend options
  simp only [runs_bind, runs_read, runs_pure]
  constructor
  · rintro ⟨_, _, ⟨_, _, ⟨rfl, rfl⟩, rfl, rfl⟩, rfl, rfl⟩
    exact ⟨rfl, rfl⟩
  · rintro ⟨rfl, rfl⟩
    exact ⟨_, _, ⟨_, _, ⟨rfl, rfl⟩, rfl, rfl⟩, rfl, rfl⟩

/-- What is handed to an owner leaves the circuit as a ciphertext: as the one that it is already, or under the backend of
the homomorphism it is handed over with. -/
theorem runs_takeOut {k : SplitContext} {w w' : Workspace} {plain : CircuitVar} {owner : Label} {hom : Hom} {p : Expr}
    (other : owner ≠ .all) (run : Runs k (takeOut e plain owner hom) w p w') :
    ∃ b, (plain.type.isCipher = false → b = k.options.backend hom) ∧ p.PlacesCipher b := by
  unfold takeOut at run
  dsimp only at run
  split at run
  · rename_i known
    have cipher : plain.type.isCipher = true := ((Bool.or_eq_true _ _).mp known).resolve_left fun all =>
      other (of_decide_eq_true all)
    obtain ⟨b, held⟩ : ∃ b, plain.type.abstract.cipher? = some b := by
      generalize plain.type = u at cipher
      cases u with
      | cipher => exact ⟨_, rfl⟩
      | _ => cases cipher
    refine ⟨b, fun differs => ?_, ?_⟩
    · rw [cipher] at differs
      cases differs
    · refine (?_ : Gives (Expr.PlacesCipher b) _) _ _ _ _ run
      rw [if_pos cipher, cipher]
      refine gives_freshOutput.bind fun v hv => .after fun _ => .after fun _ => ?_
      have held : v.type.cipher? = some b := hv ▸ held
      exact (placesCipher_location held).bind fun p hp => .bind (.pure hp) fun p hp => .after fun _ => .pure hp
  · obtain ⟨owner, _, -, run⟩ := runs_bind.mp run
    obtain ⟨b, _, hb, run⟩ := runs_bind.mp run
    obtain ⟨rfl, rfl⟩ := runs_backend.mp hb
    refine ⟨k.options.backend hom, fun _ => rfl, ?_⟩
    refine (?_ : Gives (Expr.PlacesCipher (k.options.backend hom)) _) _ _ _ _ run
    split
    · exact .bind (P := fun _ => False) .throw fun _ h => h.elim
    · refine gives_freshOutput.bind fun v hv => .after fun _ => .after fun _ => ?_
      have held : v.type.cipher? = some (k.options.backend hom) := by
        rw [hv]
        rfl
      exact (placesCipher_location held).bind fun p hp => .after fun _ => .pure hp

/-- A value that is computed for an owner has been brought into the circuit before. -/
theorem runs_evaluate {k : SplitContext} {w w' : Workspace} {owner : Label} {hom : Hom} {p : Expr}
    (run : Runs k (t.evaluate e owner hom) w p w') : ∃ v w₁ w₂ w₃,
      (Runs k (t.hold e "") w₁ v w₂ ∨
        (e.checkedType.isPrivate || e.info.privately) = false ∧ Runs k (t.input e) w₁ v w₂) ∧
        Runs k (takeOut e v owner hom) w₂ p w₃ ∧ w'.circuit.history = w₃.circuit.history := by
  obtain ⟨_, w₁, -, rest⟩ := runs_bind.mp run
  obtain ⟨q, w₃, output, rest⟩ := runs_bind.mp rest
  obtain ⟨_, _, changed, rest⟩ := runs_bind.mp rest
  obtain rfl := runs_modifyCircuit.mp changed
  obtain ⟨rfl, rfl⟩ := runs_pure.mp rest
  unfold Splitter.output at output
  dsimp only at output
  split at output
  · obtain ⟨v, w₂, held, taken⟩ := runs_bind.mp output
    exact ⟨v, w₁, w₂, w₃, .inl held, taken, rfl⟩
  · rename_i outside
    obtain ⟨v, w₂, entered, taken⟩ := runs_bind.mp output
    rw [Bool.or_assoc, Bool.not_eq_true, Bool.or_eq_false_iff] at outside
    exact ⟨v, w₁, w₂, w₃, .inr ⟨outside.2, entered⟩, taken, rfl⟩

theorem gives_evaluate {owner : Label} {hom : Hom} (other : owner ≠ .all) :
    Gives (fun p => ∃ b, p.PlacesCipher b) (t.evaluate e owner hom) := fun k w p w' run => by
  obtain ⟨_, _, _, _, -, taken, -⟩ := runs_evaluate run
  obtain ⟨b, -, hp⟩ := runs_takeOut other taken
  exact ⟨b, hp⟩

theorem gives_homOperation {i func : Info} {op : Op} {p : Bool} {h : Hom} {r : Option Expr}
    {args : List Expr} {n : Int} :
    Gives (fun x => ∃ j r' args' key, x = .call j (.operator func op p h r') args' n (some key))
      (t.homOperation i func op p h r args n) := by
  unfold homOperation
  refine .after fun b => ?_
  dsimp only
  split
  · exact .throw
  · exact .after fun key => .after fun operands => .after fun _ => .after fun args' => .put ⟨_, _, _, _, rfl⟩

/-- A private operand, which is typed as a ciphertext, in the circuit. -/
theorem gives_operand (o : Options) (n : Nat) (a : Expr) {p : AnnTy} {b : Backend} (owned : p.privacy.label? ≠ some .all)
    (type : a.checkedType = .cipherOf p b) (place : ∀ i e k r, a = .index i e k r → e.IsPlace) :
    Gives (fun x => a.Enters o b (x.cipher? o)) ((bounded n).privately a) := by
  cases n with
  | zero => exact .throw
  | succ n =>
  show Gives _ ((bounded n).privateStep a)
  have cipher : a.checkedType.isCipher = true := by
    rw [type]
    rfl
  have read (input : a.IsInput) : Gives (fun x => x.cipher? o = some b) (do return (← (bounded n).input a).read) := by
    refine (gives_input n input type).bind fun v hv => .pure ?_
    show v.type.cipher? = some b
    rw [hv]
    rfl
  cases a with
  | ident i m r =>
    cases m with
    | circuit => exact fun _ _ _ _ _ => trivial
    | plain m =>
      have unnamed : cachedAs? (.ident i (.plain m) r) = none := if_pos cipher
      show Gives _ ((bounded n).privateIdent (.ident i (.plain m) r) (.plain m))
      unfold privateIdent
      dsimp only
      rw [unnamed]
      split
      · exact .bind (P := fun _ => False) .throw fun _ h => h.elim
      · exact .bind (P := fun r => r = none) (.pure rfl) fun _ hr => hr ▸ read trivial
  | member | me => exact read trivial
  | index i e k r => exact read (place i e k r rfl)
  | reclassify i m arg q g =>
    show Gives _ ((bounded n).privateReclassify (Expr.reclassify i m arg q g).checkedType arg)
    unfold privateReclassify
    rw [if_pos cipher, type]
    dsimp only
    split
    · exact .throw
    · rename_i owner label
      refine (gives_evaluate fun all => owned (label.trans (congrArg some all))).bind fun p ⟨b, hp⟩ => ?_
      split
      · exact .pure (Option.isSome_of_eq_some (hp _ _ _ _ rfl))
      · exact .throw
  | call i f as c key =>
    show Gives _ ((bounded n).privateStep (.call i f as c key))
    unfold privateStep
    dsimp only
    rw [type]
    cases f with
    | operator j op q h r =>
      dsimp only
      split
      · rename_i literal
        cases literal
      · rename_i literal
        cases literal
      · split
        · rename_i plain
          refine .after fun as' => .put ?_
          show Expr.cipher? o _ = if h = .nonHomomorphic then none else some (o.backend h)
          rw [if_pos plain]
          cases key with
          | none => rfl
          | some => exact if_pos plain
        · exact gives_homOperation.imp fun x ⟨_, _, _, _, hx⟩ => by rw [hx]; rfl
    | _ => exact fun _ _ _ _ _ => trivial
  | tuple | new => exact .after fun _ => .put rfl
  | cast => exact .after fun _ => .put rfl
  | operator | boolLit | numLit | arrayLit | all => exact .pure rfl

/-! ### Plain values -/

section Plain

variable {k : SplitContext} {w w' : Workspace} {v : CircuitVar} {x : Expr} {n : Nat}

theorem serves_goesOn {α : Type} {y : SplitM α} {a : α} (served : w.circuit.ServesCipher) (hy : Recalls y)
    (run : Runs k y w a w') : w'.circuit.ServesCipher := by
  obtain ⟨S, hS, -⟩ := hy k w a w' run Set.univ fun _ _ => trivial
  obtain ⟨m, hm, cipher⟩ := served
  refine ⟨m, ?_, cipher⟩
  unfold Circuit.moments
  rw [hS, Step.allMoments_append]
  exact List.mem_append_left _ hm

/-- A read that is answered is noted. -/
theorem runs_known {y : Option Variable} (run : Runs k (known? y) w (some v) w') :
    w'.circuit.ServesCipher ∨ v.type.isCipher = false := by
  unfold Splitter.known? at run
  split at run
  · cases (runs_pure.mp run).1
  · rename_i y
    obtain ⟨vs, _, hvs, run⟩ := runs_bind.mp run
    obtain ⟨rfl, rfl⟩ := runs_versions.mp hvs
    split at run
    · cases (runs_pure.mp run).1
    · obtain ⟨_, _, noted, run⟩ := runs_bind.mp run
      obtain rfl := runs_note.mp noted
      obtain ⟨same, rfl⟩ := runs_pure.mp run
      cases same
      refine or_iff_not_imp_right.mpr fun cipher =>
        ⟨⟨.serve y v, w.circuit.guards, w.circuit.versions⟩, ?_, (y, v), rfl, Bool.not_eq_false _ ▸ cipher⟩
      unfold Circuit.moments
      rw [Step.allMoments_append]
      exact List.mem_append_right _ (List.mem_singleton_self _)

theorem Ty.isCipher_abstract (t : Ty) : t.abstract.isCipher = t.isCipher := by cases t <;> rfl

theorem gives_freshSecret {u : Ty} {suffix : String} : Gives (fun v => v.type = u.abstract) (freshSecret u suffix) :=
  fun k w v w' run => by
    obtain ⟨rfl, -⟩ := (runs_handOut (fun c => c.secrets.fresh u none suffix) (fun s c => { c with secrets := s })).mp run
    rfl

theorem gives_freshTemporary {u : Ty} {source : Expr} {suffix : String} :
    Gives (fun v => v.type = u.abstract) (freshTemporary u source suffix) := fun k w v w' run => by
  obtain ⟨rfl, -⟩ := (runs_handOut (fun c => c.temporaries.fresh u (some source) suffix)
    (fun s c => { c with temporaries := s })).mp run
  rfl

/-- What is no ciphertext in public code enters in plain. -/
theorem gives_bringIn_plain {shown : Expr} {text : String} (plain : e.checkedType.isCipher = false) :
    Gives (fun v => v.type.isCipher = false) (bringIn e shown text) := by
  have fresh {u : CircuitVar} (h : u.type = e.checkedType.type.abstract) : u.type.isCipher = false := by
    rw [h, Ty.isCipher_abstract]
    exact plain
  unfold bringIn
  dsimp only
  split
  · refine gives_freshInput.bind fun v hv => ?_
    exact .after fun _ => .after fun _ => .after fun _ => .after fun _ => .pure (fresh hv)
  · refine .after fun b => gives_freshSecret.bind fun v hv => ?_
    split
    · exact .bind (P := fun _ => False) .throw fun _ h => h.elim
    · exact .after fun _ => .after fun _ => .after fun _ => .after fun _ => .after fun _ => .after fun _ =>
        .pure (fresh hv)

theorem runs_input (input : e.IsInput) (word : e.isElement = false → e.checkedType.type.literal? = none)
    (plain : e.checkedType.isCipher = false) (run : Runs k ((bounded n).input e) w v w') :
    w'.circuit.ServesCipher ∨ v.type.isCipher = false := by
  unfold Splitter.input at run
  dsimp only at run
  obtain ⟨shown, _, hshown, run⟩ := runs_bind.mp run
  rw [gives_shown n input word _ _ _ _ hshown] at run
  obtain ⟨r, _, hr, run⟩ := runs_bind.mp run
  cases r with
  | some u =>
    obtain ⟨rfl, rfl⟩ := runs_pure.mp run
    exact runs_known hr
  | none =>
    refine .inr ((?_ : Gives (fun v : CircuitVar => v.type.isCipher = false) _) _ _ _ _ run)
    refine (gives_bringIn_plain plain).bind fun v hv => ?_
    split
    · refine .after fun _ => ?_
      split
      · exact .after fun _ => .after fun _ => .pure hv
      · exact .pure hv
    · exact .pure hv

/-- The value of the expression in the circuit, which is no ciphertext unless a read was answered by one. -/
def Computes (o : Options) (served : Prop) (x : Expr) : Prop :=
  served ∨ x.cipher? o = none ∧ x.checkedType.isCipher = false

/-- What is plain in public code is plain in the circuit. -/
theorem runs_plain (form : e.HasPlainForm) (plain : e.checkedType.isCipher = false)
    (run : Runs k ((bounded n).privately e) w x w') : Computes k.options w'.circuit.ServesCipher x := by
  have reading {v : CircuitVar} (h : w'.circuit.ServesCipher ∨ v.type.isCipher = false) :
      Computes k.options w'.circuit.ServesCipher v.read := by
    refine h.imp_right fun (here : v.type.isCipher = false) => ⟨?_, here⟩
    show v.type.cipher? = none
    generalize v.type = u at here
    cases u with
    | cipher => cases here
    | _ => rfl
  have read {m : Nat} {w₁ : Workspace} (input : e.IsInput) (word : e.isElement = false → e.checkedType.type.literal? = none)
      (run : Runs k (do return (← (bounded m).input e).read) w₁ x w') : Computes k.options w'.circuit.ServesCipher x := by
    obtain ⟨v, _, entered, run⟩ := runs_bind.mp run
    obtain ⟨rfl, rfl⟩ := runs_pure.mp run
    exact reading (runs_input input word plain entered)
  cases n with
  | zero => exact (runs_throw run).elim
  | succ n =>
  replace run : Runs k ((bounded n).privateStep e) w x w' := run
  cases e with
  | ident i m r =>
    cases m with
    | circuit => exact form.elim
    | plain m =>
      replace run : Runs k ((bounded n).privateIdent (.ident i (.plain m) r) (.plain m)) w x w' := run
      unfold privateIdent at run
      dsimp only at run
      split at run
      · obtain ⟨_, _, failed, _⟩ := runs_bind.mp run
        exact (runs_throw failed).elim
      · obtain ⟨known, _, hr, run⟩ := runs_bind.mp run
        cases known with
        | some v =>
          obtain ⟨rfl, rfl⟩ := runs_pure.mp run
          exact (reading (runs_known hr)).imp_right fun here => ⟨here.1, plain⟩
        | none => exact read trivial (fun _ => form) run
  | member => exact read trivial (fun _ => form) run
  | me => exact read trivial (fun _ => form) run
  | index i e k r => exact read form nofun run
  | reclassify => exact form.elim
  | call i f as c key =>
    unfold privateStep at run
    dsimp only at run
    cases f with
    | operator j op q h r =>
      obtain rfl : h = .nonHomomorphic := form
      dsimp only at run
      split at run
      · obtain ⟨rfl, rfl⟩ := runs_pure.mp run
        exact .inr ⟨rfl, rfl⟩
      · obtain ⟨rfl, rfl⟩ := runs_pure.mp run
        exact .inr ⟨rfl, rfl⟩
      · rw [if_pos rfl] at run
        obtain ⟨as', _, _, run⟩ := runs_bind.mp run
        rw [runs_put run]
        refine .inr ⟨?_, plain⟩
        cases key <;> rfl
    | _ => exact form.elim
  | tuple | new =>
    obtain ⟨_, _, _, run⟩ := runs_bind.mp run
    rw [runs_put run]
    exact .inr ⟨rfl, plain⟩
  | cast =>
    obtain ⟨_, _, _, run⟩ := runs_bind.mp run
    rw [runs_put run]
    exact .inr ⟨rfl, plain⟩
  | operator | boolLit | numLit | arrayLit | all =>
    obtain ⟨rfl, rfl⟩ := runs_pure.mp run
    exact .inr ⟨rfl, plain⟩

/-- A value that is held in a variable of the circuit. -/
theorem runs_hold {suffix : String} (form : e.HasPlainForm) (plain : e.checkedType.isCipher = false)
    (run : Runs k ((bounded n).hold e suffix) w v w') : w'.circuit.ServesCipher ∨ v.type.isCipher = false := by
  have outside : e.circuitValue? = none := by
    cases e with
    | ident i m r =>
      cases m with
      | circuit => exact form.elim
      | plain => rfl
    | _ => rfl
  unfold Splitter.hold at run
  rw [outside] at run
  split at run
  · exact (runs_throw run).elim
  · rename_i known
    cases known
  · obtain ⟨value, w₁, hvalue, run⟩ := runs_bind.mp run
    obtain served | ⟨-, typed⟩ := runs_plain form plain hvalue
    · refine .inl (serves_goesOn served ?_ run)
      exact recalls_freshTemporary.bind fun _ => recalls_emit.bind fun _ => .pure
    · refine .inr ((?_ : Gives (fun v : CircuitVar => v.type.isCipher = false) _) _ _ _ _ run)
      refine gives_freshTemporary.bind fun v hv => .after fun _ => .pure ?_
      rw [hv, Ty.isCipher_abstract]
      exact typed

end Plain

/-- A value that is handed to another owner enters under the backend of its homomorphism. -/
theorem runs_handed {k : SplitContext} {w w' : Workspace} {n : Nat} {x : Expr} {p : AnnTy} {b : Backend}
    (owned : p.privacy.label? ≠ some .all) (plain : e.IsPlain)
    (inside : (e.checkedType.isPrivate || e.info.privately) = true ∨ e.IsInput)
    (run : Runs k ((bounded n).privateReclassify (.cipherOf p b) e) w x w') :
    w'.circuit.ServesCipher ∨ x.cipher? k.options = some (k.options.backend p.hom) := by
  unfold privateReclassify at run
  rw [if_pos (show (AnnTy.cipherOf p b).isCipher = true from rfl)] at run
  dsimp only at run
  split at run
  · exact (runs_throw run).elim
  · rename_i owner label
    obtain ⟨q, w₄, evaluated, run⟩ := runs_bind.mp run
    obtain ⟨v, w₁, w₂, w₃, entered, taken, history⟩ := runs_evaluate evaluated
    obtain ⟨c, backend, hq⟩ := runs_takeOut (fun all => owned (label.trans (congrArg some all))) taken
    have value : w₂.circuit.ServesCipher ∨ v.type.isCipher = false := by
      rcases entered with held | ⟨outside, entered⟩
      · exact runs_hold plain.form plain.data held
      · have input : e.IsInput := inside.resolve_left (Bool.eq_false_iff.mp outside)
        refine runs_input input (fun other => ?_) plain.data entered
        have form := plain.form
        cases e with
        | ident i m r =>
          cases m with
          | plain => exact form
          | circuit => exact form.elim
        | member | me => exact form
        | index => cases other
        | _ => exact input.elim
    split at run
    · obtain ⟨rfl, rfl⟩ := runs_pure.mp run
      rcases value with served | value
      · have kept := serves_goesOn served recalls_hereditary.takeOut taken
        refine .inl ?_
        unfold Circuit.ServesCipher Circuit.moments
        rw [history]
        exact kept
      · rw [backend value] at hq
        exact .inr (hq _ _ _ _ rfl)
    · exact (runs_throw run).elim

/-- A private operand is typed as a ciphertext before it enters. -/
theorem gives_homOperand {b : Backend} {u : AnnTy} {op : Op} {a : Expr} : Gives (fun p =>
    (a.entersEncrypted op = true → p.1 = a.withType (.cipherOf a.checkedType b)) ∧
      (a.entersEncrypted op = false → p.1 = a.usedPlain op)) (homOperand b u (op == .mul) a) := by
  unfold homOperand
  split
  · rename_i product
    refine .after fun r => .pure ⟨fun encrypted => ?_, fun _ => ?_⟩
    · simp [Expr.entersEncrypted, product, Expr.isReclassify] at encrypted
    · rw [Expr.usedPlain, if_pos (eq_of_beq product)]
  · rename_i a _ _ other
    have whole : a.usedPlain op = a ∧ a.entersEncrypted op = a.checkedType.isPrivate := by
      cases a with
      | reclassify i m e p h =>
        have sum : (op == .mul) = false := Bool.eq_false_iff.mpr fun product => other i m e p h product rfl
        exact ⟨if_neg (beq_eq_false_iff_ne.mp sum), by simp [Expr.entersEncrypted, sum]⟩
      | _ => exact ⟨rfl, by simp [Expr.entersEncrypted, Expr.isReclassify]⟩
    rw [whole.1, whole.2]
    split
    · rename_i hidden
      refine (Gives.put (P := (· = _)) rfl).bind fun x hx => .pure ⟨fun _ => hx, fun visible => ?_⟩
      rw [hidden] at visible
      cases visible
    · rename_i visible
      exact .pure ⟨fun hidden => absurd hidden visible, fun _ => rfl⟩

/-- Each result is related to what it was made of, unless a read was answered by a ciphertext. -/
theorem runs_mapM {α β : Type} {k : SplitContext} {R : Prop → α → β → Prop} {f : α → SplitM β} {as : List α} {bs : List β}
    {w w' : Workspace} (later : ∀ {p q : Prop} {a b}, (p → q) → R p a b → R q a b) (kept : ∀ a, Recalls (f a))
    (each : ∀ a ∈ as, ∀ w b w', Runs k (f a) w b w' → R w'.circuit.ServesCipher a b)
    (run : Runs k (as.mapM f) w bs w') : List.Forall₂ (R w'.circuit.ServesCipher) as bs := by
  induction as generalizing w bs with
  | nil =>
    rw [List.mapM_nil] at run
    obtain ⟨rfl, rfl⟩ := runs_pure.mp run
    exact .nil
  | cons a as ih =>
    rw [List.mapM_cons] at run
    obtain ⟨b, w₁, first, run⟩ := runs_bind.mp run
    obtain ⟨cs, w₂, rest, run⟩ := runs_bind.mp run
    obtain ⟨rfl, rfl⟩ := runs_pure.mp run
    obtain ⟨here, others⟩ := List.forall_mem_cons.mp each
    refine .cons (later (fun served => ?_) (here _ _ _ first)) (ih others rest)
    exact serves_goesOn served (recalls_hereditary.mapM kept as) rest

section Operations

variable {k : SplitContext} {w w' : Workspace} {i func : Info} {op : Op} {q : Bool} {h : Hom} {r : Option Expr}
  {args : List Expr} {c : Int} {x : Expr} {n : Nat}

/-- Backends are those of homomorphisms, of which only one allows operations. -/
theorem hom_eq {h g : Hom} (hh : h ≠ .nonHomomorphic) (hg : g ≠ .nonHomomorphic) : h = g := by
  cases h <;> cases g <;> first | rfl | exact absurd rfl hh | exact absurd rfl hg

/-- An operand that has been prepared, in the circuit. -/
theorem runs_operand {a y a' : Expr} (hom : h ≠ .nonHomomorphic)
    (shares : a.isReclassify = true → a.checkedType.isPrivate = true → a.checkedType.hom = h)
    (owned : a.checkedType.isPrivate = true → a.checkedType.privacy.label? ≠ some .all)
    (place : ∀ i e key r, a = .index i e key r → e.IsPlace)
    (encrypted : a.entersEncrypted op = true → y = a.withType (.cipherOf a.checkedType (k.options.backend h)))
    (plain : a.entersEncrypted op = false → y = a.usedPlain op) (run : Runs k ((bounded n).privately y) w a' w') :
    OperandEnters k.options h op w'.circuit.ServesCipher a a' := by
  have enters (needed : a.entersEncrypted op = true) :
      a.Enters k.options (k.options.backend h) (a'.cipher? k.options) := by
    obtain rfl := encrypted needed
    have hidden : a.checkedType.isPrivate = true := ((Bool.and_eq_true _ _).mp needed).1
    refine Expr.enters_withType.mp (gives_operand k.options n _ (owned hidden) (Expr.checkedType_withType _ _) ?_ _ _ _ _ run)
    intro i e key r index
    cases a with
    | index j e' key' r' =>
      cases index
      exact place j _ _ _ rfl
    | _ => cases index
  refine ⟨fun needed source => (enters needed).isSome_iff source, fun needed source handed => ?_, fun unneeded form => ?_⟩
  · have enters := enters needed
    cases a with
    | reclassify i m e p g =>
      obtain rfl := encrypted needed
      have hidden := ((Bool.and_eq_true _ _).mp needed).1
      cases n with
      | zero => exact (runs_throw run).elim
      | succ n =>
        refine (runs_handed (owned hidden) handed.1 handed.2 run).imp_right fun here b hb => ?_
        rw [here, shares rfl hidden] at hb
        exact (Option.some.inj hb).symm
    | ident i m g =>
      cases m with
      | plain => exact .inr fun b hb => (Option.some.inj (enters.symm.trans hb)).symm
      | circuit => cases source
    | member | index | me => exact .inr fun b hb => (Option.some.inj (enters.symm.trans hb)).symm
    | call j f as m key =>
      cases f with
      | operator _ _ _ g =>
        refine .inr fun b hb => ?_
        have enters := enters.symm.trans hb
        split at enters
        · cases enters
        · rename_i other
          rw [hom_eq hom other]
          exact (Option.some.inj enters).symm
      | _ => cases source
    | tuple | new | cast | operator | boolLit | numLit | arrayLit | all =>
      refine .inr fun b hb => ?_
      cases enters.symm.trans hb
  · obtain rfl := plain unneeded
    exact (runs_plain form.form form.data run).imp_right And.left

/-- How the operands of an operation on ciphertexts enter. -/
theorem runs_homOperation (hom : h ≠ .nonHomomorphic)
    (shares : ∀ a ∈ args, a.isReclassify = true → a.checkedType.isPrivate = true → a.checkedType.hom = h)
    (owned : ∀ a ∈ args, a.checkedType.isPrivate = true → a.checkedType.privacy.label? ≠ some .all)
    (places : ∀ a ∈ args, ∀ i e key r, a = .index i e key r → e.IsPlace)
    (run : Runs k ((bounded n).homOperation i func op q h r args c) w x w') :
    ∃ j r' args' key, x = .call j (.operator func op q h r') args' c (some key) ∧
      List.Forall₂ (OperandEnters k.options h op w'.circuit.ServesCipher) args args' := by
  unfold homOperation at run
  obtain ⟨b, _, hb, run⟩ := runs_bind.mp run
  obtain ⟨rfl, rfl⟩ := runs_backend.mp hb
  dsimp only at run
  split at run
  · exact (runs_throw run).elim
  obtain ⟨key, _, -, run⟩ := runs_bind.mp run
  obtain ⟨operands, _, prepared, run⟩ := runs_bind.mp run
  obtain ⟨_, _, -, run⟩ := runs_bind.mp run
  obtain ⟨args', w₁, entered, run⟩ := runs_bind.mp run
  refine ⟨_, _, args', key, runs_put run, ?_⟩
  rw [idle_put _ _ _ _ run]
  replace prepared := Gives.mapM_forall₂ (fun a ha => gives_homOperand.imp fun p hp => And.intro ha hp) _ _ _ _ prepared
  rw [List.mapM_map] at entered
  let Enters (served : Prop) (p : Expr × Option Expr) (a' : Expr) : Prop := ∀ a ∈ args,
    (a.entersEncrypted op = true → p.1 = a.withType (.cipherOf a.checkedType (k.options.backend h))) →
      (a.entersEncrypted op = false → p.1 = a.usedPlain op) → OperandEnters k.options h op served a a'
  have operands : List.Forall₂ (Enters w₁.circuit.ServesCipher) operands args' := by
    refine runs_mapM (fun later enters a ha encrypted plain => (enters a ha encrypted plain).imp later)
      (fun p => (recalls_hereditary.bounded n).privately p.1) (fun p _ v a' v' run a ha encrypted plain => ?_) entered
    exact runs_operand hom (shares a ha) (owned a ha) (places a ha) encrypted plain run
  exact forall₂_comp (fun a p a' prepared enters => enters a prepared.1 prepared.2.1 prepared.2.2) prepared operands

/-- An operation on ciphertexts becomes one in the circuit. The operands that it needs as ciphertexts are ciphertexts there
exactly if they stay encrypted, and of its backend. The others are plain values. -/
theorem privately_encrypted_iff {key : Option CircuitVar} (hom : h ≠ .nonHomomorphic)
    (shares : ∀ a ∈ args, a.isReclassify = true → a.checkedType.isPrivate = true → a.checkedType.hom = h)
    (worded : (Expr.call i (.operator func op q h r) args c key).checkedType.type.literal? = none)
    (owned : ∀ a ∈ args, a.checkedType.isPrivate = true → a.checkedType.privacy.label? ≠ some .all)
    (places : ∀ a ∈ args, ∀ i e key r, a = .index i e key r → e.IsPlace)
    (run : Runs k ((bounded n).privately (.call i (.operator func op q h r) args c key)) w x w') :
    ∃ j r' args' key', x = .call j (.operator func op q h r') args' c (some key') ∧
      x.cipher? k.options = some (k.options.backend h) ∧
      List.Forall₂ (OperandEnters k.options h op w'.circuit.ServesCipher) args args' := by
  cases n with
  | zero => exact (runs_throw run).elim
  | succ n =>
    have run : Runs k ((bounded n).homOperation i func op q h r args c) w x w' := by
      change Runs k ((bounded n).privateStep (.call i (.operator func op q h r) args c key)) w x w' at run
      unfold privateStep at run
      dsimp only at run
      split at run
      · rename_i literal
        rw [literal] at worded
        cases worded
      · rename_i literal
        rw [literal] at worded
        cases worded
      · rwa [if_neg hom] at run
    obtain ⟨j, r', args', key', rfl, entered⟩ := runs_homOperation hom shares owned places run
    exact ⟨j, r', args', key', rfl, if_neg hom, entered⟩

end Operations

end Splitter

/-! ## Accepted programs -/

/-- In an accepted program, an operation on ciphertexts that is no constant becomes one in the circuit. The operands that it
needs as ciphertexts are ciphertexts there exactly if they stay encrypted, and of its backend. The others are plain values,
and one of the factors of a product is, unless both are in parentheses. -/
theorem SourceUnit.check_encrypted_iff {u : SourceUnit} (fresh : Node.Fresh u.nodes) (accepted : u.check.failure = none)
    {i func : Info} {op : Op} {q : Bool} {h : Hom} {r : Option Expr} {args : List Expr} {c : Int} {key : Option CircuitVar}
    (checked : Expr.call i (.operator func op q h r) args c key ∈ u.check.unit.bodyExprs) (paren : op ≠ .paren)
    (choice : op ≠ .ite)
    (hom : (Expr.call i (.operator func op q h r) args c key).checkedType.hom ≠ .nonHomomorphic)
    (worded : (Expr.call i (.operator func op q h r) args c key).checkedType.type.literal? = none)
    (places : ∀ a ∈ args, ∀ i e key r, a = .index i e key r → e.IsPlace) {k : SplitContext} {w w' : Workspace} {x : Expr}
    {n : Nat} (run : Runs k ((Splitter.bounded n).privately (.call i (.operator func op q h r) args c key)) w x w') :
    ∃ j r' args' key', x = .call j (.operator func op q h r') args' c (some key') ∧
      x.cipher? k.options = some (k.options.backend h) ∧
      List.Forall₂ (OperandEnters k.options h op w'.circuit.ServesCipher) args args' ∧
      (op = .mul → ∃ a ∈ args, a.isEnclosed = true ∨ a.entersEncrypted op = false) := by
  have lawful := bodyExprs_lawful fresh accepted _ checked
  obtain ⟨same, shares, product⟩ := lawful.grounded.operands.operation _ _ _ _ _ _ _ _ _ rfl paren choice hom
  have parts : ∀ a ∈ args, a.HasSound := fun a ha => ((Expr.each_call.mp lawful).2.2 a ha a a.mem_subexprs).1
  have handedOver : ∀ a ∈ args, a.isReclassify = true → a.checkedType.isPrivate = true → a.checkedType.hom = h := by
    intro a ha handed hidden
    have outside : a.isEnclosed = false := by
      cases a with
      | reclassify => rfl
      | _ => cases handed
    exact (shares a ha outside).hom (by simpa [AnnTy.isPrivate] using hidden)
  have owned : ∀ a ∈ args, a.checkedType.isPrivate = true → a.checkedType.privacy.label? ≠ some .all := by
    intro a ha hidden all
    rw [AnnTy.isPrivate, (parts a ha).checkedType.2.keyword all] at hidden
    cases hidden
  obtain ⟨j, r', args', key', rfl, cipher, operands⟩ :=
    Splitter.privately_encrypted_iff (same ▸ hom) handedOver worded owned places run
  refine ⟨j, r', args', key', rfl, cipher, operands, fun mul => ?_⟩
  subst mul
  obtain ⟨a, b, rfl, factors⟩ := product rfl
  have visible {a : Expr} (h : a.checkedType.isPublic = true) : a.entersEncrypted .mul = false := by
    simp [Expr.entersEncrypted, AnnTy.isPrivate, h]
  have handed {a : Expr} (h : a.isReclassify = true) : a.entersEncrypted .mul = false := by
    simp [Expr.entersEncrypted, h]
  obtain enclosed | enclosed | first | second | one := factors
  · exact ⟨a, by simp, .inl enclosed⟩
  · exact ⟨b, by simp, .inl enclosed⟩
  · exact ⟨a, by simp, .inr (visible first)⟩
  · exact ⟨b, by simp, .inr (visible second)⟩
  · cases ha : a.isReclassify with
    | true => exact ⟨a, by simp, .inr (handed ha)⟩
    | false =>
      refine ⟨b, by simp, .inr (handed ?_)⟩
      rw [ha] at one
      simpa using one.symm

namespace Splitter

/-! ## Sums of numbers of `bob` -/

/-- A number of `bob` under encryption. -/
def bobs : AnnTy := .owned (.integer false (.ofBits 32)) (.ofLabel (.var .stateVar 1 "bob")) .additive

/-- `b` and `(a)`. -/
def summands : List Expr :=
  let name (x : String) (d : Nat) := (Expr.ident .synthetic (.plain x) (some (.decl .stateVar d))).withType bobs
  [name "b" 2, (Expr.applyOp .paren [name "a" 3]).withType bobs]

/-- In `b + (a)`, the second summand is decrypted. -/
theorem summands_halfEncrypted : let k : SplitContext := ⟨.default, [.var .stateVar 1 "bob"], []⟩
    let w : Workspace := ⟨.empty 4, [⟨none, [], ⟨.empty, .detached⟩⟩], ⟨[]⟩, 10⟩
    let sum := Expr.call { Info.synthetic with type := some bobs } (.operator .synthetic .add false .additive none) summands 0 none
    ∃ x w', Runs k ((bounded 5).privately sum) w x w' ∧
      ∃ j r' args' key', x = .call j (.operator .synthetic .add false .additive r') args' 0 (some key') ∧
        x.cipher? .default = some .paillier ∧
        List.Forall₂ (OperandEnters .default .additive .add w'.circuit.ServesCipher) summands args' := by
  intro k w sum
  obtain ⟨x, hx, -⟩ := exists_ok_of_any (x := (outcome k ((bounded 5).privately sum) w).1) (p := fun _ => true)
    (by decide +kernel)
  obtain ⟨w', run⟩ : ∃ w', Runs k ((bounded 5).privately sum) w x w' := ⟨_, runs_of_ok hx⟩
  refine ⟨x, w', run, privately_encrypted_iff (by decide) ?_ rfl ?_ ?_ run⟩
  · exact List.forall_mem_cons.mpr ⟨nofun, List.forall_mem_singleton.mpr nofun⟩
  · exact List.forall_mem_cons.mpr ⟨fun _ => by decide, List.forall_mem_singleton.mpr fun _ => by decide⟩
  · refine List.forall_mem_cons.mpr ⟨?named, List.forall_mem_singleton.mpr ?enclosed⟩
    all_goals
      intro i e key r h
      cases h

end Splitter

/-- A sum of ciphertexts in a circuit, one of which is not encrypted. -/
def Expr.hasPlainSummand (o : Options) : Expr → Bool
  | .call _ (.operator _ .add _ .additive _) args _ (some _) => args.any fun a => (a.cipher? o).isNone
  | _ => false

/-- A function that adds two encrypted numbers of an owner, one of them in parentheses. -/
def enclosing : SourceUnit :=
  let theirs (id : Nat) : AnnTy := .owned (.integer false (.ofBits 32)) (.nameAt id "owner") .additive
  let init : FunctionDef :=
    { FunctionDef.sketch 120 "" "public" [.sketch 121 (.plain (.address false)) "x"]
        [.set (.nameAt 122 "owner") (.nameAt 123 "x")] with name := none }
  let run := FunctionDef.sketch 140 "run" "public" []
    [.set (.nameAt 142 "a") (.applyAt 143 .add [.applyAt 145 .paren [.nameAt 147 "a"], .nameAt 148 "b"])]
  let state := [⟨101, ["final"], .plain (.address false), "owner", none⟩, ⟨102, [], theirs 103, "a", none⟩,
    ⟨104, [], theirs 105, "b", none⟩]
  let u := SourceUnit.sketch 100 "Sums" state [run]
  { u with contracts := u.contracts.map fun c => { c with constructors := [init] } }

theorem enclosing_plain_summand : ∃ r, (enclosing.compile 150 .default .empty).2 = .ok r ∧ ∃ c ∈ r.circuits,
    ∃ v ∈ c.temporaries.vars, v.source.any (Expr.hasPlainSummand .default) = true := by
  obtain ⟨r, hr, h⟩ := exists_ok_of_any (x := (enclosing.compile 150 .default .empty).2)
    (p := fun r => r.circuits.any fun c => c.temporaries.vars.any fun v => v.source.any (Expr.hasPlainSummand .default))
    (by decide +kernel)
  obtain ⟨c, hc, h⟩ := List.any_eq_true.mp h
  obtain ⟨v, hv, h⟩ := List.any_eq_true.mp h
  exact ⟨r, hr, c, hc, v, hv, h⟩

end Shroud
