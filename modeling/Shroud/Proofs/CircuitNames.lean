import Shroud.Proofs.Assembly
import Shroud.Proofs.Sketch

/-!
# Names in circuits

The variables of a circuit are told apart by their names.

**Bodies.** All names in the circuit of a body are different, whatever names the program uses: they start with numbers of
their own.

**External parts.** The circuit of an external part takes names from the arguments of the function: the name of a private
argument for its value, and the same name with a suffix for the randomness of its ciphertext. Two arguments may give
the same name.

**Keys** are named after their owners. Only keys of the sender and of final addresses are asked for by name, so names of
state variables tell them apart.

**Results.**

* `SourceUnit.compile_names_iff`: all names in the circuit of a body are different, and those in the circuit of an
  external part exactly if those are that it takes from arguments.
* `SourceUnit.compile_ownersApart`: in programs without two state variables of one name, owners of keys are told apart.
-/

namespace Shroud

/-! ## Beginnings of names -/

/-- The name starts with these letters. -/
def StartsWith (p n : String) : Prop := p.toList <+: n.toList

instance (p n : String) : Decidable (StartsWith p n) := inferInstanceAs (Decidable (p.toList <+: n.toList))

section StartsWith

variable {p q n s : String} {xs ys : List String}

theorem startsWith_append (p n : String) : StartsWith p (p ++ n) := by
  unfold StartsWith
  rw [String.toList_append]
  exact List.prefix_append ..

theorem StartsWith.trans (h : StartsWith p q) (k : StartsWith q n) : StartsWith p n := List.IsPrefix.trans h k

/-- A beginning that leaves room for a suffix is one of the name without the suffix. -/
theorem StartsWith.before_suffix (h : StartsWith p (n ++ s)) (hq : StartsWith q p)
    (room : q.toList.length + s.toList.length ≤ p.toList.length) : StartsWith q n := by
  unfold StartsWith at h hq ⊢
  rw [String.toList_append] at h
  refine List.prefix_of_prefix_length_le (hq.trans h) (List.prefix_append ..) ?_
  have := h.length_le
  rw [List.length_append] at this
  omega

/-- Names with different beginnings are different. -/
theorem disjoint_of_startsWith (hp : ∀ x ∈ xs, StartsWith p x) (hq : ∀ y ∈ ys, StartsWith q y)
    (other : ¬ StartsWith p q ∧ ¬ StartsWith q p) : xs.Disjoint ys := by
  intro x hx hy
  exact (List.prefix_or_prefix_of_prefix (hp x hx) (hq x hy)).elim other.1 other.2

end StartsWith

/-! ## Names of keys -/

theorem Backend.secretKeyName_injective {a b : Backend} (h : a.secretKeyName = b.secretKeyName) : a = b := by
  have all : ∀ a ∈ Backend.all, ∀ b ∈ Backend.all, a.secretKeyName = b.secretKeyName → a = b := by decide +kernel
  exact all a (mem_all a) b (mem_all b) h

/-- No identifier of a backend is the beginning of another one, up to the end that is marked in names of keys. -/
theorem Backend.identifier_prefix {a b : Backend} (h : StartsWith (a.identifier ++ "__") (b.identifier ++ "__")) :
    a = b := by
  have all : ∀ a ∈ Backend.all, ∀ b ∈ Backend.all,
      StartsWith (a.identifier ++ "__") (b.identifier ++ "__") → a = b := by decide +kernel
  exact all a (mem_all a) b (mem_all b) h

theorem Label.keyName_ok {l : Label} {b : Backend} {n : String} (h : l.keyName b = .ok n) :
    n = "glob_key_" ++ ((b.identifier ++ "__") ++ l.name) := by
  unfold Label.keyName at h
  split at h
  · cases h
  · cases h
    simp only [String.append_assoc]

/-- The name of a key tells the name of its owner and the backend. -/
theorem Label.keyName_injective {l m : Label} {a b : Backend} {n : String} (h : l.keyName a = .ok n)
    (h' : m.keyName b = .ok n) : l.name = m.name ∧ a = b := by
  have spell (i s : String) : ("glob_key_" ++ (i ++ s)).toList = "glob_key_".toList ++ (i.toList ++ s.toList) := by
    simp only [String.toList_append]
  have same := congrArg String.toList ((keyName_ok h).symm.trans (keyName_ok h'))
  rw [spell, spell] at same
  have tails := List.append_cancel_left same
  have backends : a = b := by
    rcases List.prefix_or_prefix_of_prefix ⟨_, tails⟩ ⟨_, rfl⟩ with h | h
    · exact Backend.identifier_prefix h
    · exact (Backend.identifier_prefix h).symm
  subst backends
  exact ⟨String.toList_inj.mp (List.append_cancel_left tails), rfl⟩

/-- Owners whose keys are asked for are told apart by their names. -/
def Circuit.OwnersApart (c : Circuit) : Prop := ∀ p ∈ c.keys, ∀ q ∈ c.keys, p.1.name = q.1.name → p.1 = q.1

instance (c : Circuit) : Decidable c.OwnersApart :=
  inferInstanceAs (Decidable (∀ p ∈ c.keys, ∀ q ∈ c.keys, p.1.name = q.1.name → p.1 = q.1))

/-- Different elements of a list are related to variables with different names. -/
theorem nodup_names {α : Type} {R : α → CircuitVar → Prop} {as : List α} {vs : List CircuitVar}
    (h : List.Forall₂ R as vs) (nodup : as.Nodup)
    (injective : ∀ a ∈ as, ∀ b ∈ as, ∀ v u, R a v → R b u → v.name = u.name → a = b) :
    (vs.map CircuitVar.name).Nodup := by
  induction h with
  | nil => exact List.nodup_nil
  | @cons a v as vs first rest ih =>
    rw [List.nodup_cons] at nodup
    rw [List.map_cons, List.nodup_cons]
    refine ⟨fun again => ?_, ih nodup.2 fun a ha b hb => injective a (List.mem_cons_of_mem _ ha) b
      (List.mem_cons_of_mem _ hb)⟩
    obtain ⟨u, hu, same⟩ := List.mem_map.mp again
    obtain ⟨b, hb, related⟩ := exists_mem_of_forall₂_right rest hu
    exact nodup.1 (injective a List.mem_cons_self b (List.mem_cons_of_mem _ hb) v u first related same.symm ▸ hb)

/-! ## Names of a circuit -/

/-- All supplies. -/
def Series.all : List Series := [.secret, .temporary, .input, .output]

/-- The names of all variables of the circuit. -/
def Circuit.names (c : Circuit) : List String := Series.all.flatMap fun r => (c.supply r).vars.map CircuitVar.name

theorem Supplies.Apart.nodup {c : Circuit} (h : Supplies.Apart c.supply) : c.names.Nodup := by
  refine List.nodup_flatMap.mpr ⟨fun r _ => h.once r, ?_⟩
  refine (by decide : Series.all.Nodup).imp fun different => ?_
  rintro n hr hq
  obtain ⟨v, hv, rfl⟩ := List.mem_map.mp hr
  obtain ⟨u, hu, same⟩ := List.mem_map.mp hq
  exact different (h.disjoint _ _ v hv u hu same.symm)

theorem Supplies.apart_empty (id : Nat) : Supplies.Apart (Circuit.empty id).supply := by
  have none (r : Series) : ((Circuit.empty id).supply r).vars = [] := by cases r <;> rfl
  refine ⟨fun r => by cases r <;> rfl, fun r => ?_, fun r => ?_, fun r q => ?_⟩
  · simp [none]
  · simp [none]
  · simp [none]

theorem CircuitVar.Bears.startsWith {v : CircuitVar} {r : Series} {k : Nat} (h : v.Bears r k) :
    StartsWith r.base v.name := by
  obtain ⟨rest, spelled⟩ := h
  rw [spelled, String.append_assoc, String.append_assoc]
  exact startsWith_append ..

/-! ## External parts -/

/-- Names like these are given to circuit variables of an external part that hold no arguments. -/
def IsReserved (n : String) : Prop := StartsWith "glob_sk_" n ∨ StartsWith Generated.inputs n ∨ StartsWith "glob_key_" n

/-- The names of parameters do not start like reserved names and names of keys. -/
def FunctionDef.Unreserved (f : FunctionDef) : Prop :=
  ∀ p ∈ f.params, ∀ n ∈ p.name, ¬ StartsWith "zk__" n ∧ ¬ StartsWith "glob_" n

instance (f : FunctionDef) : Decidable f.Unreserved :=
  inferInstanceAs (Decidable (∀ p ∈ f.params, ∀ n ∈ p.name, ¬ StartsWith "zk__" n ∧ ¬ StartsWith "glob_" n))

theorem Param.mem_secretNames {p : Param} {x : String} (h : x ∈ p.secretNames) :
    ∃ n, p.name = some n ∧ (x = n ∨ x = n ++ "_R") := by
  unfold secretNames at h
  split at h
  · rename_i n _ _ _ hn _
    refine ⟨n, hn, ?_⟩
    split at h
    · cases h
    · split at h
      · exact .inl (List.mem_singleton.mp h)
      · simpa using h
  · cases h

/-- Neither the name of a value nor that of its randomness is reserved then. -/
theorem FunctionDef.Unreserved.argumentNames {f : FunctionDef} (h : f.Unreserved) (o : Options) :
    ∀ x ∈ f.argumentNames o, ¬ IsReserved x := by
  intro x hx
  obtain ⟨q, hq, hx⟩ := List.mem_flatMap.mp hx
  obtain ⟨p, hp, rfl⟩ := List.mem_map.mp hq
  obtain ⟨n, hn, spelled⟩ := Param.mem_secretNames hx
  obtain ⟨zk, glob⟩ := h p hp n hn
  have sk : StartsWith "glob_" "glob_sk_" := by decide
  have key : StartsWith "glob_" "glob_key_" := by decide
  have input : StartsWith "zk__" Generated.inputs := by decide
  rcases spelled with rfl | rfl
  · rintro (starts | starts | starts)
    · exact glob (sk.trans starts)
    · exact zk (input.trans starts)
    · exact glob (key.trans starts)
  · rintro (starts | starts | starts)
    · exact glob (starts.before_suffix sk (by decide))
    · exact zk (starts.before_suffix input (by decide))
    · exact glob (starts.before_suffix key (by decide))

/-- The names in the circuit of an external part are different exactly if those of its arguments are. -/
theorem Circuit.External.names_iff {os : List Label} {c own : Circuit} {needs : Bool} {w : FunctionDef}
    (h : c.External os needs w own)
    (keys : c.keys.Nodup) (secretKeys : c.secretKeys.Nodup) (unreserved : ∀ x ∈ w.secretNames, ¬ IsReserved x)
    (owners : own.OwnersApart) : own.names.Nodup ↔ w.secretNames.Nodup := by
  obtain @⟨d, grows, -, -, requests⟩ := h
  obtain ⟨args, sks, secrets, spelled, isSecretKey⟩ := requests.secrets
  obtain ⟨s, ks, extends', inputs, isKey⟩ := requests.inputs
  obtain ⟨-, inputsOnce, numbers⟩ := extends'.fresh_names (r := .input) rfl rfl
  have ownersApart : d.OwnersApart := by rwa [calling_eq] at owners
  -- the names of the arguments, and all others
  let others := sks.map CircuitVar.name ++ (s.vars.map CircuitVar.name ++ ks.map CircuitVar.name)
  have names : (d.calling needs c.function).names = w.secretNames ++ others := by
    rw [calling_eq]
    have temporaries : d.temporaries.vars = [] := congrArg NameSupply.vars requests.temporaries
    have outputs : d.outputs.vars = [] := congrArg NameSupply.vars requests.outputs
    have secrets : d.secrets.vars = args ++ sks := secrets
    simp [Circuit.names, Series.all, supply, secrets, temporaries, inputs, outputs, spelled, others]
  have startSk : ∀ x ∈ sks.map CircuitVar.name, StartsWith "glob_sk_" x := by
    refine List.forall_mem_map.mpr fun v hv => ?_
    obtain ⟨b, -, name, -⟩ := exists_mem_of_forall₂_right isSecretKey hv
    rw [name, Backend.secretKeyName, String.append_assoc]
    exact startsWith_append ..
  have startIn : ∀ x ∈ s.vars.map CircuitVar.name, StartsWith Generated.inputs x := by
    refine List.forall_mem_map.mpr fun v hv => ?_
    obtain ⟨k, -, bears⟩ := numbers v hv
    exact bears.startsWith
  have startKey : ∀ x ∈ ks.map CircuitVar.name, StartsWith "glob_key_" x := by
    refine List.forall_mem_map.mpr fun v hv => ?_
    obtain ⟨p, -, name, -⟩ := exists_mem_of_forall₂_right isKey hv
    rw [Label.keyName_ok name]
    exact startsWith_append ..
  have different : others.Nodup := by
    refine List.Nodup.append ?_ (List.Nodup.append inputsOnce ?_ ?_) ?_
    · exact nodup_names isSecretKey (grows.secretKeysOnce secretKeys) fun a _ b _ v u hv hu same =>
        Backend.secretKeyName_injective (hv.1.symm.trans (same.trans hu.1))
    · refine nodup_names isKey (grows.keysOnce keys) fun p hp q hq v u hv hu same => ?_
      obtain ⟨name, backend⟩ := Label.keyName_injective hv.1 (same ▸ hu.1)
      exact Prod.ext (ownersApart p hp q hq name) backend
    · exact disjoint_of_startsWith startIn startKey (by decide)
    · exact List.disjoint_append_right.mpr ⟨disjoint_of_startsWith startSk startIn (by decide),
        disjoint_of_startsWith startSk startKey (by decide)⟩
  have disjoint : w.secretNames.Disjoint others := by
    intro x hx hy
    refine unreserved x hx ?_
    rcases List.mem_append.mp hy with hy | hy
    · exact .inl (startSk x hy)
    · rcases List.mem_append.mp hy with hy | hy
      · exact .inr (.inl (startIn x hy))
      · exact .inr (.inr (startKey x hy))
  rw [names]
  exact ⟨fun h => h.of_append_left, fun h => h.append different disjoint⟩

/-! ## Compiled programs -/

/-! ## Owners of keys -/

/-- The keys that the circuit asks for are those of these owners. -/
def Circuit.AsksOnly (os : List Label) (c : Circuit) : Prop := ∀ p ∈ c.keys, p.1 ∈ os

section Owners

variable {o : Options} {P : Nat → Prop} {c d : Contract} {cs ks built ready : List Circuit} {os : List Label}

mutual

/-- What is found by following calls are keys of circuits on the way. -/
theorem Circuit.Totals.asksOnly {c : Circuit} {t : Reach} {s : CircuitSizes} (all : ∀ k ∈ cs, k.AsksOnly os) :
    Totals cs c t s → c.AsksOnly os → ∀ p ∈ t.keys, p.1 ∈ os
  | .known _, own, p, hp => own p (Circuit.mem_ownReach_keys.mp hp)
  | .calls _ below, own, p, hp =>
    (mem_includeAll.mp hp).elim (fun hp => own p (Circuit.mem_ownReach_keys.mp hp)) (below.asksOnly all p)

theorem Circuit.CallTotals.asksOnly {calls : List CircuitCall} {t : Reach} {s : CircuitSizes}
    (all : ∀ k ∈ cs, k.AsksOnly os) : CallTotals cs calls t s → ∀ p ∈ t.keys, p.1 ∈ os
  | .nil => List.forall_mem_nil _
  | .cons found here below => by
    intro p hp
    rcases mem_includeAll.mp hp with hp | hp
    · cases hp
    · exact (mem_includeAll.mp hp).elim (here.asksOnly all (all _ (List.mem_of_find?_eq_some found)) p)
        (below.asksOnly all p)

end

theorem Contract.Prepared.asksOnly (h : c.Prepared P cs built ready) (own : c.knownOwners ⊆ os)
    (before : ∀ k ∈ cs, k.AsksOnly os) : ∀ k ∈ ready, k.AsksOnly os := by
  have split : ∀ k ∈ built, k.AsksOnly os := by
    intro k hk
    rcases h.of_built hk with ⟨old, _⟩ | ⟨f, _, _, made⟩
    · exact before k old
    · intro p hp
      exact own ((made.split.grows.known p hp).resolve_left List.not_mem_nil)
  intro k hk
  rcases h.of_ready hk with old | ⟨f, b, hb, made⟩
  · exact before k old
  · by_cases proved : b.function ∈ c.functionsWith (·.facts.needsProof)
    · obtain ⟨t, s, totals, keys, -⟩ := made.later.proved proved
      exact fun p hp => totals.asksOnly split (split b hb) p (keys ▸ hp)
    · exact fun p hp => split b hb p ((made.later.unproved proved).1 ▸ hp)

theorem Contract.Traced.asksOnly (h : c.Traced o P d cs built ready ks) (own : c.knownOwners ⊆ os)
    (before : ∀ k ∈ cs, k.AsksOnly os) : ∀ k ∈ ks, k.AsksOnly os := by
  have all := h.prepared.asksOnly own before
  intro k hk p hp
  cases h.origin k hk with
  | old mem => exact before k mem p hp
  | internal mem _ _ rekeyed => exact (rekeyed.known p hp).elim (all _ mem p) fun known => own known
  | external mem _ _ _ _ _ external => exact (external.keys.2 p hp).elim (all _ mem p) fun known => own known

/-- If the state variables of a program have different names, and none is called like the sender, then the owners whose
keys a circuit asks for have different names. -/
theorem SourceUnit.compile_ownersApart {u : SourceUnit} {next : Nat} {t : Transcript} {r : Compilation}
    (distinct : u.numbers.Nodup) (bounded : ∀ i ∈ u.numbers, i < next) (h : (u.compile next o t).2 = .ok r)
    (named : (Label.me.name :: u.contracts.flatMap fun c => c.stateVars.map (·.name)).Nodup) :
    ∀ c ∈ r.circuits, c.OwnersApart := by
  obtain ⟨_, _, _, _, asks⟩ := SourceUnit.compile_assembled
    (I := fun _ cs => ∀ c ∈ cs, c.AsksOnly ((r.source.markHoms o).contracts.flatMap Contract.knownOwners)) distinct bounded h
    (fun c hc _ _ _ _ _ _ traced before =>
      traced.asksOnly (fun l hl => List.mem_flatMap.mpr ⟨c, hc, hl⟩) before) (by simp)
  obtain ⟨_, p, _, hp, source, _⟩ := SourceUnit.compile_split h
  have marked : u.SameNumbers (r.source.markHoms o) :=
    source ▸ (SourceUnit.process_accepted hp).same.trans (SourceUnit.mapFacts_numbers _)
  let entries := u.contracts.flatMap fun c => c.stateVars.map fun x => (x.name, x.ref)
  have names : u.contracts.flatMap (fun c => c.stateVars.map (·.name)) = entries.map Prod.fst := by
    simp only [entries, List.map_flatMap, List.map_map]
    rfl
  rw [names, List.nodup_cons] at named
  have owner : ∀ c ∈ r.circuits, ∀ q ∈ c.keys, q.1 = .me ∨ ∃ i n, q.1 = .var .stateVar i n ∧
      (n, .decl .stateVar i) ∈ entries := by
    intro c hc q hq
    obtain ⟨d, hd, known⟩ := List.mem_flatMap.mp (asks c hc q hq)
    refine (List.mem_cons.mp known).imp_right fun known => ?_
    obtain ⟨v, hv, label⟩ := List.mem_map.mp known
    refine ⟨v.id, v.name, label.symm, ?_⟩
    rw [show entries = _ from marked.stateVars.symm]
    exact List.mem_flatMap.mpr ⟨d, hd, List.mem_map.mpr ⟨v, List.mem_of_mem_filter hv, rfl⟩⟩
  intro c hc p hp q hq spelled
  rcases owner c hc p hp with first | ⟨i, n, first, hi⟩ <;> rcases owner c hc q hq with second | ⟨j, m, second, hj⟩
  · rw [first, second]
  · rw [first, second] at spelled
    exact (named.1 (List.mem_map.mpr ⟨_, hj, spelled.symm⟩)).elim
  · rw [first, second] at spelled
    exact (named.1 (List.mem_map.mpr ⟨_, hi, spelled⟩)).elim
  · rw [first, second] at spelled ⊢
    cases List.inj_on_of_nodup_map named.2 hi hj spelled
    rfl

end Owners

/-- All names in the circuit of a body are different. Those in the circuit of an external part are different exactly if
the names are that this part takes from its private arguments, which are those of a function of the program. -/
structure Circuit.NamesArguments (o : Options) (fs code : List FunctionDef) (c : Circuit) : Prop where
  body : c.verifier = none → c.names.Nodup
  outer : c.verifier ≠ none → ∃ w ∈ code, w.id = c.function ∧
    (∃ f ∈ fs, f.facts.needsProofExternally = true ∧ w.secretNames = f.argumentNames o) ∧
    (c.OwnersApart → (c.names.Nodup ↔ w.secretNames.Nodup))

section Compiled

variable {o : Options} {P : Nat → Prop} {c d : Contract} {cs ks built ready : List Circuit} {fs : List FunctionDef}
  {f : FunctionDef} {b r : Circuit} {ds : List Contract}

/-- A circuit with a body that was split asks for every key once. -/
theorem Contract.Made.keys_nodup (h : c.Made P built ready f b r) : r.keys.Nodup ∧ r.secretKeys.Nodup := by
  refine ⟨?_, h.later.secretKeys ▸ h.split.grows.secretKeysOnce List.nodup_nil⟩
  by_cases proved : b.function ∈ c.functionsWith (·.facts.needsProof)
  · obtain ⟨t, s, totals, keys, -⟩ := h.later.proved proved
    exact keys ▸ totals.keys_nodup
  · exact (h.later.unproved proved).1 ▸ h.split.grows.keysOnce List.nodup_nil

/-- All names in such a circuit are different. -/
theorem Contract.Made.names_nodup (h : c.Made P built ready f b r) : r.names.Nodup :=
  Supplies.Apart.nodup (h.later.supply ▸ h.split.names (Supplies.apart_empty f.id))

theorem Contract.Traced.names (h : c.Traced o P d cs built ready ks) (mine : c.allFunctions ⊆ fs)
    (unreserved : ∀ f ∈ fs, f.Unreserved) (before : ∀ k ∈ cs, k.NamesArguments o fs (ds.flatMap Contract.allFunctions)) :
    ∀ k ∈ ks, k.NamesArguments o fs ((ds ++ [d]).flatMap Contract.allFunctions) := by
  intro k hk
  rw [List.flatMap_append, List.flatMap_singleton]
  cases h.origin k hk with
  | old mem =>
    refine ⟨(before k mem).body, fun outer => ?_⟩
    obtain ⟨w, hw, rest⟩ := (before k mem).outer outer
    exact ⟨w, List.mem_append_left _ hw, rest⟩
  | internal mem made _ rekeyed verifier =>
    refine ⟨fun _ => ?_, fun outer => (outer verifier).elim⟩
    rw [rekeyed.same]
    exact made.names_nodup
  | @external f w b r mem made _ _ code arguments external =>
    refine ⟨fun inner => (external.verifier inner).elim, fun _ => ?_⟩
    obtain ⟨g, hg, outer, spelled⟩ := arguments
    refine ⟨w, List.mem_append_right _ code, external.function.symm, ⟨g, mine hg, outer, spelled⟩,
      external.names_iff made.keys_nodup.1 made.keys_nodup.2 ?_⟩
    rw [spelled]
    exact (unreserved g (mine hg)).argumentNames o

/-- Marking homomorphisms leaves the signatures of functions alone. -/
theorem SourceUnit.markHoms_source {u : SourceUnit} {g : FunctionDef} (hg : g ∈ (u.markHoms o).allFunctions) :
    ∃ f ∈ u.allFunctions, g.params = f.params ∧ g.facts.needsProofExternally = f.facts.needsProofExternally := by
  have marked : u.Pointwise (fun f g => g.params = f.params ∧
      g.facts.needsProofExternally = f.facts.needsProofExternally) (u.markHoms o) :=
    SourceUnit.mapFacts_pointwise (fun _ _ => ⟨rfl, rfl⟩) _
  obtain ⟨d, hd, hg⟩ := List.mem_flatMap.mp hg
  obtain ⟨c, hc, same⟩ := exists_mem_of_forall₂_right marked hd
  obtain ⟨f, hf, hb⟩ := exists_mem_of_forall₂_right (List.rel_append same.constructors same.functions) hg
  exact ⟨f, List.mem_flatMap.mpr ⟨c, hc, hf⟩, hb⟩

theorem Ty.link_cipher (c : LinkContext) (t : Ty) :
    Yields (fun t' => ∀ q b, t' = .cipher q b ↔ t = .cipher q b) (t.link c) := by
  cases t with
  | named s ns target =>
    refine .after fun found => ?_
    cases found <;> exact .pure fun _ _ => by simp
  | mapping => exact .after fun _ => .after fun _ => .pure fun _ _ => by simp
  | array v n =>
    cases n with
    | none => exact .after fun _ => .pure fun _ _ => by simp
    | some n => exact .after fun _ => .after fun _ => .pure fun _ _ => by simp
  | function => exact .after fun _ => .after fun _ => .pure fun _ _ => by simp
  | _ => exact .pure fun _ _ => Iff.rfl

theorem Param.secretNames_congr {p q : Param} (source : q.source = p.source) (name : q.name = p.name)
    (type : ∀ t b, q.type.type = .cipher t b ↔ p.type.type = .cipher t b) : q.secretNames = p.secretNames := by
  unfold secretNames
  rw [source, name]
  cases p.source with
  | none => rfl
  | some source =>
    cases p.name with
    | none => rfl
    | some name =>
      by_cases cipher : ∃ t b, p.type.type = .cipher t b
      · obtain ⟨t, b, same⟩ := cipher
        rw [(type t b).mpr same, same]
      · have other : ¬ ∃ t b, q.type.type = .cipher t b := fun ⟨t, b, same⟩ => cipher ⟨t, b, (type t b).mp same⟩
        split
        · exact (other ⟨_, _, ‹_›⟩).elim
        · split
          · exact (cipher ⟨_, _, ‹_›⟩).elim
          · rfl

/-- Linking does not change which names private arguments give. -/
theorem Param.linkAll_secretNames (c : LinkContext) (ps : List Param) :
    Yields (fun qs => qs.flatMap Param.secretNames = ps.flatMap Param.secretNames) (Param.linkAll c ps) := by
  induction ps with
  | nil => exact .pure rfl
  | cons p ps ih =>
    obtain ⟨i, k, ⟨t, l, h, a, d⟩, n, s, o⟩ := p
    refine .bind (P := fun q : Param => q.secretNames = Param.secretNames ⟨i, k, ⟨t, l, h, a, d⟩, n, s, o⟩) ?_
      fun q first => ih.bind fun qs rest => .pure ?_
    · refine .bind (P := fun t' : AnnTy => ∀ q b, t'.type = .cipher q b ↔ t = .cipher q b) ?_ fun t' same =>
        .after fun _ => .pure (Param.secretNames_congr rfl rfl same)
      exact (t.link_cipher _).bind fun t' same => .after fun _ => .pure same
    · rw [List.flatMap_cons, List.flatMap_cons, first, rest]

theorem FunctionDef.link_secretNames (c : LinkContext) (f : FunctionDef) (s : LinkState) (g : FunctionDef)
    (t : LinkState) (h : f.link c s = .ok (g, t)) : g.id = f.id ∧ g.secretNames = f.secretNames := by
  obtain ⟨params, s₁, hp, h⟩ := state_bind_ok h
  obtain ⟨returns, s₂, _, h⟩ := state_bind_ok h
  obtain ⟨body, s₃, _, h⟩ := state_bind_ok h
  obtain ⟨_, s₄, _, h⟩ := state_bind_ok h
  cases state_pure_ok h
  exact ⟨rfl, Param.linkAll_secretNames _ _ _ _ hp⟩

/-- In a compiled program all names in the circuit of a body are different. Those in the circuit of an external part are
different exactly if its private arguments give different names, provided that no parameter has a name that starts like
reserved ones or like names of keys and that owners with different keys have different names. -/
theorem SourceUnit.compile_names_iff {u : SourceUnit} {next : Nat} {t : Transcript} {r : Compilation}
    (distinct : u.numbers.Nodup) (bounded : ∀ i ∈ u.numbers, i < next) (h : (u.compile next o t).2 = .ok r)
    (unreserved : ∀ f ∈ r.source.allFunctions, f.Unreserved) :
    ∀ c ∈ r.circuits, c.NamesArguments o r.source.allFunctions r.code.allFunctions := by
  obtain ⟨w, _, _, linked, names⟩ := SourceUnit.compile_assembled
    (I := fun ds cs => ∀ c ∈ cs, c.NamesArguments o (r.source.markHoms o).allFunctions (ds.flatMap Contract.allFunctions))
    distinct bounded h
    (fun c hc _ _ _ _ _ _ traced before => by
      refine traced.names (fun f hf => List.mem_flatMap.mpr ⟨c, hc, hf⟩) (fun g hg => ?_) before
      obtain ⟨f, hf, params, -⟩ := SourceUnit.markHoms_source hg
      rw [FunctionDef.Unreserved, params]
      exact unreserved f hf) (by simp)
  intro c hc
  refine ⟨(names c hc).body, fun outer => ?_⟩
  obtain ⟨w, hw, id, ⟨g, hg, external, spelled⟩, iff⟩ := (names c hc).outer outer
  obtain ⟨f, hf, params, same⟩ := SourceUnit.markHoms_source hg
  obtain ⟨d, hd, hw⟩ := List.mem_flatMap.mp hw
  obtain ⟨e, he, functions⟩ := exists_mem_of_forall₂_left (SourceUnit.link_each FunctionDef.link_secretNames linked) hd
  obtain ⟨v, hv, number, secret⟩ := exists_mem_of_forall₂_left
    (List.rel_append functions.constructors functions.functions) hw
  refine ⟨v, List.mem_flatMap.mpr ⟨e, he, hv⟩, number.trans id, ⟨f, hf, same ▸ external, ?_⟩, secret ▸ iff⟩
  rw [secret, spelled, FunctionDef.argumentNames, params]
  rfl

end Compiled

/-- A function that adds two encrypted numbers, of which the second one has this name. -/
def summing (second : String) : SourceUnit :=
  let word : AnnTy := .owned (.integer false (.ofBits 32)) .meLabel .additive
  .sketch 100 "Sums" [] [.sketch 101 "run" "public" [.sketch 102 word "x", .sketch 103 word second]
    [.declareAt 104 word "sum" (.applyAt 105 .add [.nameAt 107 "x", .nameAt 108 second])]]

theorem summing_names_iff : ∃ r, ((summing "y").compile 110 .default .empty).2 = .ok r ∧
    (∀ f ∈ r.source.allFunctions, f.Unreserved) ∧
    ∀ c ∈ r.circuits, c.OwnersApart ∧
      c.NamesArguments .default r.source.allFunctions r.code.allFunctions := by
  obtain ⟨r, hr, h⟩ := exists_ok_of_any (x := ((summing "y").compile 110 .default .empty).2)
    (p := fun r => decide (∀ f ∈ r.source.allFunctions, f.Unreserved) && decide (∀ c ∈ r.circuits, c.OwnersApart))
    (by decide +kernel)
  obtain ⟨unreserved, owners⟩ := Bool.and_eq_true_iff.mp h
  have unreserved := of_decide_eq_true unreserved
  have owners := of_decide_eq_true owners
  have names := SourceUnit.compile_names_iff (by decide +kernel) (by decide +kernel) hr unreserved
  exact ⟨r, hr, unreserved, fun c hc => ⟨owners c hc, names c hc⟩⟩

/-- The second number is called like the randomness of the first one. -/
theorem summing_not_nodup : ∃ r, ((summing "x_R").compile 110 .default .empty).2 = .ok r ∧
    ∃ c ∈ r.circuits, ¬ c.names.Nodup := by
  obtain ⟨r, hr, h⟩ := exists_ok_of_any (x := ((summing "x_R").compile 110 .default .empty).2)
    (p := fun r => decide (∃ c ∈ r.circuits, ¬ c.names.Nodup)) (by decide +kernel)
  exact ⟨r, hr, of_decide_eq_true h⟩

end Shroud
