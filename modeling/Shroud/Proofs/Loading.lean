import Mathlib.Algebra.Ring.Int.Defs
import Shroud.Proofs.Arrangement
import Shroud.Proofs.Splitting

/-!
# Loading of outputs

The internal part of a function starts by copying the outputs of its circuit from a section of the array that all
circuits of the transaction share. The statements are read off here: which word of the section each of them reads, and
which place it fills.

**Words.** Every word of the section is read exactly once, in order.

**Places.** A plain output is filled as a whole, an encrypted one word by word. Only the words that a circuit
transmits are there to be copied, so a stored ciphertext is complete unless its backend is symmetric: then the last
word, which names the sender, stays empty.

**Results.**

* `FunctionDef.withSections_loaded`: what the statements read and fill.
* `CircuitVar.InData.senderKey`: a decryption takes the key from the word behind those that are transmitted.
* `SourceUnit.compile_outputs`: the outputs of all circuits of a compiled program are of the kind that this is about.
-/

namespace Shroud

/-! ## Words and places -/

/-- A place of a circuit value in public code: the whole value, or one of its words. -/
structure Slot where
  name : String
  word : Option Int
  deriving DecidableEq, Repr

namespace Expr

/-- The place that an expression denotes. -/
def slot? : Expr → Option Slot
  | .member _ (.ident _ (.plain c) _) (.circuit v) _ => if c = Generated.data then some ⟨v.name, none⟩ else none
  | .index _ (.member _ (.ident _ (.plain c) _) (.circuit v) _) (.numLit _ n _) _ =>
    if c = Generated.data then some ⟨v.name, some n⟩ else none
  | _ => none

/-- How far an index is behind the start of the array's section. -/
def offset? (array : String) : Expr → Option Int
  | .call _ (.operator _ .add _ _ _) [.ident _ (.plain s) _, .numLit _ n _] _ _ =>
    if s = startIndex array then some n else none
  | _ => none

/-- The expression is an element of the array; the result tells which word of the section, if it is one. -/
def word? (array : String) : Expr → Option (Option Int)
  | .index _ (.ident _ (.plain a) _) key _ => if a = array then some (key.offset? array) else none
  | _ => none

end Expr

/-- The words of the array's section that are read on the way to the value of an expression. -/
def Expr.wordsRead (array : String) (e : Expr) : List (Option Int) := (Node.exprs e.nodes).filterMap (Expr.word? array)

namespace Stmt

/-- The place that the statement fills. -/
def filled? : Stmt → Option Slot
  | .assign _ place _ op _ => if op = "" then place.slot? else none
  | _ => none

/-- The words of the array's section that the statement reads. -/
def wordsRead (array : String) (s : Stmt) : List (Option Int) := (Node.exprs s.nodes).filterMap (Expr.word? array)

theorem wordsRead_set (array : String) (place e : Expr) :
    (Stmt.set place e).wordsRead array = place.wordsRead array ++ e.wordsRead array := by
  unfold Stmt.wordsRead Stmt.set Stmt.nodes Expr.wordsRead
  rw [List.cons_append, Node.exprs_stmt, Node.exprs_append, List.filterMap_append]

end Stmt

namespace CircuitVar

/-- Public code holds the value with all others that a circuit shares with it. -/
def InData (v : CircuitVar) : Prop := v.role = .publicArgument ∧ v.container = some Generated.data

/-- Where public code holds an output. -/
def place (v : CircuitVar) : Expr :=
  .member { Info.synthetic with type := some (.plain v.type) } (.name Generated.data) (.circuit v) none

/-- Where public code holds a word of an output. -/
def wordPlace (v : CircuitVar) (n : Int) : Expr :=
  .index { Info.synthetic with type := some .publicUint } v.place (.literal n) none

/-- The places that the value takes up. -/
def slots (v : CircuitVar) : List Slot :=
  if v.type.isCryptoArray then (List.range v.size.toNat).map fun (n : Nat) => ⟨v.name, some n⟩ else [⟨v.name, none⟩]

/-- A word of the value is filled this many times. -/
def timesFilled (v : CircuitVar) (word : Int) (ss : List Stmt) : Nat :=
  (ss.filterMap Stmt.filled?).count ⟨v.name, some word⟩

/-- The words that are stored of a ciphertext; other values have none. -/
def storedWords (v : CircuitVar) : Nat :=
  match v.type with
  | .cipher _ b => b.cipherLen
  | _ => 0

/-- All words that are stored of a ciphertext are filled exactly once. -/
def Complete (v : CircuitVar) (ss : List Stmt) : Prop := ∀ n < v.storedWords, v.timesFilled n ss = 1

instance (v : CircuitVar) (ss : List Stmt) : Decidable (v.Complete ss) :=
  inferInstanceAs (Decidable (∀ n < v.storedWords, v.timesFilled n ss = 1))

variable {v : CircuitVar} {array : String} {start : Int} {ss : List Stmt}

theorem slots_name {p : Slot} (h : p ∈ v.slots) : p.name = v.name := by
  unfold slots at h
  split at h
  · obtain ⟨n, _, rfl⟩ := List.mem_map.mp h
    rfl
  · rw [List.mem_singleton.mp h]

@[simp]
theorem slot?_place (v : CircuitVar) : v.place.slot? = some ⟨v.name, none⟩ := rfl

@[simp]
theorem slot?_wordPlace (v : CircuitVar) (n : Int) : (v.wordPlace n).slot? = some ⟨v.name, some n⟩ := rfl

@[simp]
theorem wordsRead_place (v : CircuitVar) : v.place.wordsRead array = [] := rfl

@[simp]
theorem wordsRead_wordPlace (v : CircuitVar) (n : Int) : (v.wordPlace n).wordsRead array = [] := rfl

theorem InData.location (h : v.InData) : v.location = .ok v.place := by
  unfold CircuitVar.location constant?
  rw [h.1, h.2]
  rfl

theorem elementAt_place (crypto : v.type.isCryptoArray = true) (n : Int) :
    v.place.elementAt n = .ok (v.wordPlace n) := by
  unfold Expr.elementAt Expr.indexedBy
  rw [show v.place.checkedType.type = v.type from rfl]
  unfold wordPlace
  revert crypto
  cases v.type <;> intro crypto <;> first | rfl | cases crypto

/-! ## One output -/

theorem wordsRead_sectionWord (array : String) (n : Int) : (sectionWord array n).wordsRead array = [some n] := by
  simp [sectionWord, wordAt, sectionPlace, Expr.applyOp, Expr.name, Expr.literal, Expr.withType, Expr.mapInfo, Expr.nodes,
    Expr.nodesAll, Node.exprs, Expr.word?, Expr.offset?, Expr.wordsRead]

/-- A word is converted to types that are a word wide, and read once. -/
theorem converted_sectionWord {n : Int} {t : Ty} {e : Expr} (h : (sectionWord array n).converted t = .ok e) :
    t.sizeInWords = 1 ∧ e.wordsRead array = [some n] := by
  have type : (sectionWord array n).checkedType = .publicUint := rfl
  have bool : (sectionWord array n).convertsTo .bool = false := rfl
  have read := wordsRead_sectionWord array n
  unfold Expr.converted at h
  simp only [bool, type, Bool.not_false, Bool.and_true, Bool.and_false, Bool.false_eq_true, if_false] at h
  split at h
  · rename_i ht
    cases h
    refine ⟨?_, ?_⟩
    · cases t <;> first | rfl | cases ht
    · unfold Expr.wordsRead at read ⊢
      simp only [Expr.applyOp, Expr.withType, Expr.mapInfo, Expr.nodes, Expr.nodesAll, Expr.literal, List.append_nil,
        List.cons_append, List.nil_append, Node.exprs_expr, Node.exprs_append, List.filterMap_cons, Expr.word?,
        List.filterMap_append, read]
      rfl
  · split at h
    · rename_i same
      cases h
      refine ⟨?_, read⟩
      cases t <;> first | rfl | cases same
    · split at h
      · rename_i casts
        cases h
        have single : t.sizeInWords = 1 ∧ Node.exprs t.nodes = [] := by
          cases t <;> first | cases casts; done | exact ⟨rfl, by simp only [Ty.nodes]; rfl⟩
        refine ⟨single.1, ?_⟩
        unfold Expr.wordsRead at read ⊢
        rw [Expr.nodes, List.cons_append, Node.exprs_expr, Node.exprs_append, single.2]
        exact read
      · split at h <;> cases h

/-- The statements that load an output read one word after the other and fill the places of the output. -/
theorem InData.load (output : v.InData) (h : v.load array start = .ok ss) :
    ss.map Stmt.filled? = v.slots.map some ∧
      ss.map (Stmt.wordsRead array) = (List.range v.size.toNat).map fun (n : Nat) => [some (start + n)] := by
  unfold CircuitVar.load at h
  rw [output.location] at h
  obtain ⟨_, hp, h⟩ := except_bind_ok h
  cases hp
  split at h
  · rename_i crypto
    have each (n : Nat) : (do return Stmt.set (← v.place.elementAt n) (sectionWord array (start + n)) : Except Error Stmt) =
        pure (.set (v.wordPlace n) (sectionWord array (start + n))) := by
      rw [elementAt_place crypto]
      rfl
    simp only [each, List.mapM_pure] at h
    cases h
    rw [slots, if_pos crypto, List.map_map, List.map_map, List.map_map]
    refine ⟨List.map_congr_left fun n _ => rfl, List.map_congr_left fun n _ => ?_⟩
    rw [Function.comp_apply, Stmt.wordsRead_set, wordsRead_wordPlace, wordsRead_sectionWord, List.nil_append]
  · rename_i plain
    obtain ⟨e, he, h⟩ := except_bind_ok h
    cases h
    obtain ⟨size, read⟩ := converted_sectionWord he
    have one : v.size = 1 := size
    rw [slots, if_neg plain, one]
    refine ⟨rfl, ?_⟩
    simp [Stmt.wordsRead_set, read]

/-- The key for a decryption is read off the word behind those that are transmitted. -/
theorem InData.senderKey {k : SplitContext} {w w' : Workspace} {key : CircuitVar} {p : AnnTy} {b : Backend}
    (held : v.InData) (type : v.type = .cipher p b) (h : SplitM.Runs k (senderKey v b) w key w') :
    ∃ d i place, w'.drafts.head? = some d ∧
      d.before.getLast? = some (.set place (.arrayLit i [v.wordPlace b.payloadLen] true)) := by
  obtain ⟨_, w₁, _, h⟩ := SplitM.runs_bind.mp h
  obtain ⟨_, w₂, h₂, h⟩ := SplitM.runs_bind.mp h
  obtain ⟨word, w₃, h₃, h⟩ := SplitM.runs_bind.mp h
  obtain ⟨place, w₄, _, h⟩ := SplitM.runs_bind.mp h
  obtain ⟨_, w₅, h₅, h⟩ := SplitM.runs_bind.mp h
  obtain ⟨_, rfl⟩ := SplitM.runs_pure.mp h
  obtain ⟨hl, _⟩ := SplitM.runs_ofExcept.mp h₂
  obtain ⟨hw, _⟩ := SplitM.runs_ofExcept.mp h₃
  cases held.location.symm.trans hl
  cases (elementAt_place (by rw [type]; rfl) b.payloadLen).symm.trans hw
  unfold SplitM.precede at h₅
  obtain ⟨d, w₆, hd, h₅⟩ := SplitM.runs_bind.mp h₅
  obtain ⟨head, rfl⟩ := SplitM.runs_gets.mp hd
  cases d with
  | none => exact (SplitM.runs_throw h₅).elim
  | some d =>
    obtain rfl := SplitM.runs_modify.mp h₅
    obtain ⟨ds, hds⟩ := List.head?_eq_some_iff.mp head
    rw [hds]
    exact ⟨_, _, place, rfl, List.getLast?_concat ..⟩

end CircuitVar

/-! ## All outputs -/

section All

variable {v : CircuitVar} {vs : List CircuitVar} {array : String} {start : Int} {ss : List Stmt}

theorem copySection_filled (outputs : ∀ v ∈ vs, v.InData)
    (h : copySection CircuitVar.load array start vs = .ok ss) :
    ss.filterMap Stmt.filled? = vs.flatMap CircuitVar.slots := by
  induction vs generalizing start ss with
  | nil =>
    cases h
    rfl
  | cons v vs ih =>
    rw [List.forall_mem_cons] at outputs
    obtain ⟨here, hh, h⟩ := except_bind_ok h
    obtain ⟨rest, hr, h⟩ := except_bind_ok h
    cases h
    have filled : here.filterMap Stmt.filled? = v.slots := by
      have := congrArg (List.filterMap id) (outputs.1.load hh).1
      rwa [List.filterMap_map, List.filterMap_map, Function.id_comp, Function.id_comp, List.filterMap_some] at this
    rw [List.filterMap_append, List.flatMap_cons, filled, ih outputs.2 hr]

theorem CircuitVar.sizes_nonneg (h : ∀ v ∈ vs, 0 ≤ v.size) : 0 ≤ (vs.map CircuitVar.size).sum := by
  induction vs with
  | nil => exact Int.le_refl 0
  | cons v vs ih =>
    rw [List.forall_mem_cons] at h
    rw [List.map_cons, List.sum_cons]
    exact Int.add_nonneg h.1 (ih h.2)

theorem copySection_read (outputs : ∀ v ∈ vs, v.InData) (sizes : ∀ v ∈ vs, 0 ≤ v.size)
    (h : copySection CircuitVar.load array start vs = .ok ss) : ss.map (Stmt.wordsRead array) =
      (List.range (vs.map CircuitVar.size).sum.toNat).map fun (n : Nat) => [some (start + n)] := by
  induction vs generalizing start ss with
  | nil =>
    cases h
    rfl
  | cons v vs ih =>
    rw [List.forall_mem_cons] at outputs sizes
    obtain ⟨here, hh, h⟩ := except_bind_ok h
    obtain ⟨rest, hr, h⟩ := except_bind_ok h
    cases h
    have total : ((v :: vs).map CircuitVar.size).sum.toNat = v.size.toNat + (vs.map CircuitVar.size).sum.toNat := by
      have := CircuitVar.sizes_nonneg sizes.2
      have := sizes.1
      rw [List.map_cons, List.sum_cons]
      omega
    rw [List.map_append, (outputs.1.load hh).2, ih outputs.2 sizes.2 hr, total, List.range_add, List.map_append,
      List.map_map]
    refine congrArg _ (List.map_congr_left fun n _ => ?_)
    have := sizes.1
    rw [Function.comp_apply, show start + ((v.size.toNat + n : Nat) : Int) = start + v.size + n by omega]

/-- The places of an output are its own. -/
theorem count_slots (names : (vs.map CircuitVar.name).Nodup) (hv : v ∈ vs) (n : Option Int) :
    (vs.flatMap CircuitVar.slots).count ⟨v.name, n⟩ = v.slots.count ⟨v.name, n⟩ := by
  have apart {u : CircuitVar} (h : u.name ≠ v.name) : u.slots.count ⟨v.name, n⟩ = 0 :=
    List.count_eq_zero.mpr fun hp => h (CircuitVar.slots_name hp).symm
  induction vs with
  | nil => cases hv
  | cons u us ih =>
    rw [List.map_cons, List.nodup_cons] at names
    rw [List.flatMap_cons, List.count_append]
    rcases List.mem_cons.mp hv with rfl | hv
    · have rest : (us.flatMap CircuitVar.slots).count ⟨v.name, n⟩ = 0 := by
        refine List.count_eq_zero.mpr fun hp => ?_
        obtain ⟨u, hu, hp⟩ := List.mem_flatMap.mp hp
        exact names.1 (List.mem_map.mpr ⟨u, hu, (CircuitVar.slots_name hp).symm⟩)
      rw [rest, Nat.add_zero]
    · have other : u.name ≠ v.name := fun same => names.1 (same ▸ List.mem_map_of_mem hv)
      rw [apart other, Nat.zero_add, ih names.2 hv]

/-- The words of a ciphertext that a circuit transmits. -/
theorem CircuitVar.count_slots_cipher {p : AnnTy} {b : Backend} (type : v.type = .cipher p b) (n : Nat) :
    v.slots.count ⟨v.name, some (n : Int)⟩ = if n < b.payloadLen then 1 else 0 := by
  have size : v.size.toNat = b.payloadLen := by
    unfold CircuitVar.size
    rw [type]
    rfl
  have crypto : v.type.isCryptoArray = true := by
    rw [type]
    rfl
  rw [slots, if_pos crypto, size]
  have injective : Function.Injective fun (n : Nat) => (⟨v.name, some n⟩ : Slot) := fun n m h =>
    Int.ofNat.inj (Option.some.inj (congrArg Slot.word h))
  rw [List.count_map_of_injective _ _ injective, List.nodup_range.count]
  simp only [List.mem_range]

end All

/-! ## Lists of outputs -/

namespace NameSupply

/-- The supply of a circuit's outputs, at any moment. -/
def Outputs (s : NameSupply) : Prop := (Circuit.empty 0).outputs.Extends s

/-- What is known about the outputs so far. -/
structure Tidy (s : NameSupply) : Prop where
  base : s.base = Generated.outputs
  role : s.role = .publicArgument
  container : s.container = some Generated.data
  size : s.size = (s.vars.map CircuitVar.size).sum
  outputs : ∀ v ∈ s.vars, v.InData
  numbers : ∀ v ∈ s.vars, ∃ k, v.Bears .output k ∧ k < s.count
  names : (s.vars.map CircuitVar.name).Nodup

theorem sizeInWords_abstract (t : Ty) : t.abstract.sizeInWords = t.sizeInWords := by cases t <;> rfl

theorem Outputs.tidy {s : NameSupply} (h : s.Outputs) : s.Tidy := by
  obtain ⟨base, names, numbers⟩ := h.fresh_names (r := .output) rfl rfl
  obtain ⟨role, container, size, outputs⟩ : s.role = .publicArgument ∧ s.container = some Generated.data ∧
      s.size = (s.vars.map CircuitVar.size).sum ∧ ∀ v ∈ s.vars, v.InData := by
    clear base names numbers
    induction h with
    | refl => exact ⟨rfl, rfl, rfl, List.forall_mem_nil _⟩
    | @fresh s _ t source suffix ih =>
      obtain ⟨role, container, size, outputs⟩ := ih
      let v := (s.fresh t source suffix).1
      have vars : (s.fresh t source suffix).2.vars = s.vars ++ [v] := rfl
      rw [vars]
      refine ⟨role, container, ?_, List.forall_mem_append.mpr ⟨outputs, List.forall_mem_singleton.mpr ⟨role, container⟩⟩⟩
      rw [List.map_append, List.sum_append, ← size]
      show s.size + t.sizeInWords = s.size + ([v.type.sizeInWords] : List Int).sum
      rw [List.sum_singleton, show v.type = t.abstract from rfl, sizeInWords_abstract]
  refine ⟨base, role, container, size, outputs, fun v hv => ?_, names⟩
  obtain ⟨k, lower, bears⟩ := numbers v hv
  exact ⟨k, bears, lower⟩

/-- What statements do that load the outputs of a circuit from a section that starts this far behind the start of the
caller's. They read the words of the section, each of them once and in order. They fill every word of a ciphertext that
a circuit transmits once, and no other, so the ciphertexts that end up complete are those without a symmetric backend. -/
structure Loaded (s : NameSupply) (array : String) (start : Int) (ss : List Stmt) : Prop where
  read : (∀ v ∈ s.vars, 0 ≤ v.size) →
    ss.map (Stmt.wordsRead array) = (List.range s.size.toNat).map fun (n : Nat) => [some (start + n)]
  filled : ∀ v ∈ s.vars, ∀ p b, v.type = .cipher p b →
    ∀ n : Nat, v.timesFilled n ss = if n < b.payloadLen then 1 else 0
  complete_iff : ∀ v ∈ s.vars, v.Complete ss ↔ ∀ p b, v.type = .cipher p b → b.symmetric = false

theorem Outputs.loaded {s : NameSupply} (h : s.Outputs) {array : String} {start : Int} {ss : List Stmt}
    (loaded : copySection CircuitVar.load array start s.vars = .ok ss) : s.Loaded array start ss := by
  have tidy := h.tidy
  have words {v : CircuitVar} (hv : v ∈ s.vars) {p : AnnTy} {b : Backend} (type : v.type = .cipher p b) (n : Nat) :
      v.timesFilled n ss = if n < b.payloadLen then 1 else 0 := by
    rw [CircuitVar.timesFilled, copySection_filled tidy.outputs loaded, count_slots tidy.names hv,
      CircuitVar.count_slots_cipher type]
  refine ⟨fun sizes => ?_, fun v hv p b type n => words hv type n, fun v hv => ⟨fun complete p b type => ?_,
    fun asymmetric n hn => ?_⟩⟩
  · rw [copySection_read tidy.outputs sizes loaded, tidy.size]
  · -- the word after those that are transmitted is the sender's
    by_contra symmetric
    have symmetric : b.symmetric = true := by simpa using symmetric
    have last := complete b.payloadLen (by simp [CircuitVar.storedWords, type, Backend.cipherLen, symmetric])
    rw [words hv type, if_neg (Nat.lt_irrefl _)] at last
    cases last
  · unfold CircuitVar.storedWords at hn
    split at hn
    · rename_i p b type
      rw [Backend.cipherLen, asymmetric p b type, if_neg Bool.false_ne_true] at hn
      rw [words hv type, if_pos hn]
    · cases hn

end NameSupply

/-! ## Functions -/

/-- The internal part of a function with a circuit loads all outputs of the circuit before the code of the function. -/
theorem FunctionDef.withSections_loaded {f g : FunctionDef} {c : Circuit} {results : List LocalVar} {n m : Nat}
    (outputs : c.outputs.Outputs) (h : f.withSections c results n = .ok (g, m)) : ∃ before loads after,
      g.body.stmts = before ++ (if loads.isEmpty then []
        else [.seq default (Stmt.framed "Deserialize output values" loads) true]) ++ f.body.stmts ++ after ∧
      c.outputs.Loaded Generated.outputs 0 loads := by
  obtain ⟨f₁, n₁, h₁, h⟩ := state_bind_ok h
  obtain ⟨f₂, n₂, h₂, h⟩ := state_bind_ok h
  obtain ⟨f₃, n₃, h₃, h⟩ := state_bind_ok h
  obtain ⟨f₄, n₄, h₄, h⟩ := state_bind_ok h
  obtain ⟨data, n₅, _, h⟩ := state_bind_ok h
  obtain ⟨loads, n₆, hl, h⟩ := state_bind_ok h
  obtain ⟨stores, n₇, _, h⟩ := state_bind_ok h
  cases state_pure_ok h
  rw [← addParam_body h₁, ← addParam_body h₂, ← addParam_body h₃, ← addParam_body h₄]
  exact ⟨_, loads, _, List.append_assoc _ _ _, outputs.loaded (state_lift_ok hl)⟩

/-! ## Compiled programs -/

section Compiled

variable {o : Options} {P : Nat → Prop} {c d : Contract} {cs ks built ready : List Circuit}

/-- Splitting a contract hands out outputs one after the other. -/
theorem Contract.Traced.outputs (h : c.Traced o P d cs built ready ks) (before : ∀ k ∈ cs, k.outputs.Outputs) :
    ∀ k ∈ ks, k.outputs.Outputs := by
  intro k hk
  cases h.origin k hk with
  | old mem => exact before k mem
  | @internal f b r _ made _ rekeyed =>
    rw [rekeyed.same]
    show r.outputs.Outputs
    rw [made.later.outputs]
    exact made.split.grows.outputs
  | external _ _ _ _ _ _ external =>
    obtain ⟨grows⟩ := external
    rw [Circuit.calling_eq]
    exact grows.outputs

theorem SourceUnit.compile_outputs {u : SourceUnit} {next : Nat} {o : Options} {t : Transcript} {r : Compilation}
    (distinct : u.numbers.Nodup) (bounded : ∀ i ∈ u.numbers, i < next) (h : (u.compile next o t).2 = .ok r) :
    ∀ c ∈ r.circuits, c.outputs.Outputs := by
  obtain ⟨_, _, _, _, outputs⟩ := SourceUnit.compile_assembled (I := fun _ cs => ∀ c ∈ cs, c.outputs.Outputs)
    distinct bounded h (fun _ _ _ _ _ _ _ _ traced before => traced.outputs before) (by simp)
  exact outputs

end Compiled

/-- A function that adds one to a private number. -/
def incrementing : SourceUnit :=
  .sketch 100 "Counter" [] [.sketch 101 "run" "public" [.sketch 102 AnnTy.uint.mine "x"]
    [.declareAt 103 AnnTy.uint.mine "y" (.applyAt 104 .add [.nameAt 106 "x", .literalAt 107 1])]]

theorem incrementing_loaded : ∃ r, (incrementing.compile 110 .default .empty).2 = .ok r ∧
    ∃ f ∈ incrementing.allFunctions, ∃ c ∈ r.circuits, c.outputs.Outputs ∧ c.outputs.vars ≠ [] ∧
      ∃ g m, f.withSections c [] 200 = .ok (g, m) ∧ ∃ before loads after,
        g.body.stmts = before ++ (if loads.isEmpty then []
          else [.seq default (Stmt.framed "Deserialize output values" loads) true]) ++ f.body.stmts ++ after ∧
        c.outputs.Loaded Generated.outputs 0 loads := by
  obtain ⟨r, hr, h⟩ := exists_ok_of_any (x := (incrementing.compile 110 .default .empty).2)
    (p := fun r => incrementing.allFunctions.any fun f => r.circuits.any fun c =>
      !c.outputs.vars.isEmpty && (f.withSections c [] 200).toOption.any fun _ => true) (by decide +kernel)
  obtain ⟨f, hf, h⟩ := List.any_eq_true.mp h
  obtain ⟨c, hc, h⟩ := List.any_eq_true.mp h
  obtain ⟨nonempty, h⟩ := Bool.and_eq_true_iff.mp h
  obtain ⟨⟨g, m⟩, hg, _⟩ := exists_ok_of_any h
  have outputs := SourceUnit.compile_outputs (by decide +kernel) (by decide +kernel) hr c hc
  exact ⟨r, hr, f, hf, c, hc, outputs, by simpa using nonempty, g, m, hg, FunctionDef.withSections_loaded outputs hg⟩

/-- The stored ciphertext of the sum has a word that is never filled. -/
theorem incrementing_incomplete : ∃ r, (incrementing.compile 110 .default .empty).2 = .ok r ∧
    ∃ c ∈ r.circuits, ∃ loads, copySection CircuitVar.load Generated.outputs 0 c.outputs.vars = .ok loads ∧
      ∃ v ∈ c.outputs.vars, ¬ v.Complete loads := by
  obtain ⟨r, hr, h⟩ := exists_ok_of_any (x := (incrementing.compile 110 .default .empty).2)
    (p := fun r => r.circuits.any fun c =>
      (copySection CircuitVar.load Generated.outputs 0 c.outputs.vars).toOption.any fun loads =>
        decide (∃ v ∈ c.outputs.vars, ¬ v.Complete loads)) (by decide +kernel)
  obtain ⟨c, hc, h⟩ := List.any_eq_true.mp h
  obtain ⟨loads, hl, h⟩ := exists_ok_of_any h
  exact ⟨r, hr, c, hc, loads, hl, of_decide_eq_true h⟩

end Shroud
