import Shroud.Proofs.Resolution

/-!
# Linking inside further declarations

A name that stands for nothing would stand for something if the program were written inside further declarations. So
linking it there tells what else is wrong with the program: whatever goes wrong there as well has nothing to do with
unknown names.

**Scopes around the program.** `c.beyond outer` is the context `c` inside the scopes `outer`. Their names may hide
nothing but they may be found where nothing was found before. Type names are looked up in the same scopes, and unknown
ones are left alone; the names of `outer` have to be apart from them (`SourceUnit.TypesApart`).

**Results.** `SourceUnit.link_follows`: linking a program gives what it gives inside the further declarations, or it
complains about an unknown name.
-/

namespace Shroud

/-! ## Further scopes -/

/-- The scope inside further ones. -/
def Scope.beyond (s : Scope) (outer : List Frame) : Scope := { s with frames := s.frames ++ outer }

/-- Where the linker stands if the whole program is inside further scopes. -/
def LinkContext.beyond (c : LinkContext) (outer : List Frame) : LinkContext :=
  { c with scope := c.scope.beyond outer }

/-- The names that the scopes declare. -/
def Frame.namesAll (outer : List Frame) : List String := outer.flatMap fun f => f.names.map Prod.fst

/-- Link the members of a contract in these surroundings. -/
def Contract.linkIn (ctx : LinkContext) (c : Contract) : LinkM Contract := do
  let structs ← c.structs.mapM (StructDef.link ctx)
  let state ← c.state.mapM (StateItem.link ctx)
  let constructors ← c.constructors.mapM (FunctionDef.link ctx)
  let functions ← c.functions.mapM (FunctionDef.link ctx)
  return { c with structs, state, constructors, functions }

theorem Contract.link_eq (u : SourceUnit) (c : Contract) : c.link u = c.linkIn (c.context u) := rfl

/-- Link a whole program inside further scopes. -/
def SourceUnit.linkBeyond (u : SourceUnit) (outer : List Frame) (next : Nat) : Except Error (SourceUnit × Nat) := do
  u.checkNames
  let (contracts, s) ← (u.contracts.mapM fun c : Contract => c.linkIn ((c.context u).beyond outer)).run ⟨u.symbols, next⟩
  return ({ u with contracts := contracts }, s.next)

theorem LinkContext.beyond_nil (c : LinkContext) : c.beyond [] = c := by
  rw [beyond, Scope.beyond, List.append_nil]

/-- Without further scopes nothing changes. -/
theorem SourceUnit.linkBeyond_nil (u : SourceUnit) (next : Nat) : u.linkBeyond [] next = u.link next := by
  simp only [linkBeyond, LinkContext.beyond_nil, link, ← Contract.link_eq]

theorem LinkContext.withKey_beyond (c : LinkContext) (outer : List Frame) (i : Nat) (l : Option String) :
    (c.beyond outer).withKey i l = (c.withKey i l).beyond outer := by
  cases l <;> rfl

namespace Scope

/-- What is found inside is found from further inside, too. -/
theorem searchValue_append {later own : List Nat} {name : String} {outer : List Frame} :
    ∀ {fs : List Frame} {blamed : Option Pos} {r : Ref}, searchValue later own name fs blamed = .ok r →
      searchValue later own name (fs ++ outer) blamed = .ok r
  | [], _, _, h => by cases h
  | f :: fs, blamed, r, h => by
    rw [List.cons_append]
    unfold searchValue at h ⊢
    split at h
    · exact searchValue_append h
    · split at h
      · rename_i own
        rw [if_pos own]
        exact searchValue_append h
      · rename_i own
        rw [if_neg own]
        split at h
        · rename_i late
          rw [if_pos late]
          exact searchValue_append h
        · rename_i late
          rw [if_neg late]
          exact h

/-- Further scopes without the name add no type of that name. -/
theorem type?_beyond {s : Scope} {outer : List Frame} {n : String} (h : n ∉ Frame.namesAll outer) :
    (s.beyond outer).type? n = s.type? n := by
  have without : outer.findSome? (fun f =>
      (f.names.lookup n).bind fun r => if s.own.contains r.id then none else some r) = none := by
    rw [List.findSome?_eq_none_iff]
    intro f hf
    have missing : f.names.lookup n = none := by
      rw [List.lookup_eq_none_iff]
      intro p hp
      rw [bne_iff_ne]
      rintro rfl
      exact h (List.mem_flatMap.mpr ⟨f, hf, List.mem_map.mpr ⟨p, hp, rfl⟩⟩)
    rw [missing, Option.bind_none]
  unfold type? beyond
  rw [List.findSome?_append, without, Option.or_none]

end Scope

/-! ## Type names -/

mutual

/-- The first part of the type name behind arrays and mappings; addresses have names of their own. -/
def Ty.typeName? : Ty → Option String
  | .named _ ns _ => ns.head?
  | .mapping _ _ _ v => v.typeName?
  | .array v _ => v.typeName?
  | .address p => some (addressName p)
  | _ => none

def AnnTy.typeName? : AnnTy → Option String
  | ⟨t, _, _, _, _⟩ => t.typeName?

end

theorem AnnTy.typeName?_eq (t : AnnTy) : t.typeName? = t.type.typeName? := by
  cases t
  rfl

/-- The type name behind an element is that behind the container. -/
theorem Ty.valueType?_typeName {t : Ty} {v : AnnTy} (h : t.valueType? = some v) {n : String}
    (hn : v.type.typeName? = some n) : t.typeName? = some n := by
  rw [← v.typeName?_eq] at hn
  cases t <;> simp only [Ty.valueType?, Option.some.injEq, reduceCtorEq] at h <;> subst h
  case mapping => exact hn
  case array => exact hn
  all_goals cases hn

/-- The type name behind the type is none of these. -/
def Ty.IsApart (t : Ty) (names : List String) : Prop := ∀ n ∈ t.typeName?, n ∉ names

/-- The declared types are called by none of the names. -/
def Symbols.Apart (s : Symbols) (names : List String) : Prop :=
  ∀ e ∈ s.entries, ∀ t ∈ e.2.type?, t.type.IsApart names

/-- The first part of the type name that the node is. -/
def Node.typeName? : Node → Option String
  | .ty (.named _ ns _) => ns.head?
  | .ty (.address p) => some (addressName p)
  | _ => none

/-- No type among the nodes is called by one of the names. -/
def Node.Apart (ns : List Node) (names : List String) : Prop := ∀ n ∈ ns, ∀ t ∈ n.typeName?, t ∉ names

instance (ns : List Node) (names : List String) : Decidable (Node.Apart ns names) :=
  inferInstanceAs (Decidable (∀ n ∈ ns, ∀ t ∈ n.typeName?, t ∉ names))

instance (s : Symbols) (names : List String) : Decidable (s.Apart names) :=
  inferInstanceAs (Decidable (∀ e ∈ s.entries, ∀ t ∈ e.2.type?, ∀ n ∈ t.type.typeName?, n ∉ names))

section Apart

variable {names : List String}

@[simp]
theorem Node.apart_cons {n : Node} {ns : List Node} : Apart (n :: ns) names ↔ (∀ t ∈ n.typeName?, t ∉ names) ∧ Apart ns names :=
  List.forall_mem_cons

@[simp]
theorem Node.apart_append {ns ms : List Node} : Apart (ns ++ ms) names ↔ Apart ns names ∧ Apart ms names :=
  List.forall_mem_append

mutual

theorem Ty.isApart_of_nodes : ∀ t : Ty, Node.Apart t.nodes names → t.IsApart names
  | .named s ns t, h => (Node.apart_cons.mp h).1
  | .address p, h => (Node.apart_cons.mp h).1
  | .mapping i k l v, h => by
    simp only [Ty.nodes, List.cons_append, Node.apart_cons, Node.apart_append] at h
    exact v.isApart_of_nodes h.2.2
  | .array v none, h => v.isApart_of_nodes (Node.apart_cons.mp h).2
  | .array v (some n), h => by
    simp only [Ty.nodes, List.cons_append, Node.apart_cons, Node.apart_append] at h
    exact v.isApart_of_nodes h.2.1
  | .elementary .., _ | .bool, _ | .boolLit .., _ | .number, _ | .numLit .., _ | .integer .., _ | .cipher .., _
  | .publicKey .., _ | .randomness .., _ | .tuple .., _ | .function .., _ => fun _ hn => by cases hn

theorem AnnTy.isApart_of_nodes : ∀ t : AnnTy, Node.Apart t.nodes names → ∀ n ∈ t.typeName?, n ∉ names
  | ⟨t, p, m, a, d⟩, h => by
    simp only [AnnTy.nodes, List.cons_append, Node.apart_cons, Node.apart_append] at h
    exact t.isApart_of_nodes h.2.1

end

/-- The linked type has the type name of the type that was linked. -/
theorem AnnTy.isApart_of_linked {t t' : AnnTy} (h : Node.Apart t.nodes names)
    (same : t'.type.typeName? = t.type.typeName?) : t'.type.IsApart names := by
  intro n hn
  rw [same, ← t.typeName?_eq] at hn
  exact t.isApart_of_nodes h n hn

theorem elementType?_typeName {n : String} : ∀ {d : Nat} {t v : AnnTy}, Symbols.elementType? d t = some v →
    v.type.typeName? = some n → t.type.typeName? = some n
  | 0, _, _, h, hn => by
    cases h
    exact hn
  | d + 1, t, v, found, hn => by
    unfold Symbols.elementType? at found
    obtain ⟨w, hw, rest⟩ := Option.bind_eq_some_iff.mp found
    exact Ty.valueType?_typeName hw (elementType?_typeName rest hn)

/-- What a reference leads to has a declared type, or is reached from it by indexing. -/
theorem Symbols.Apart.type? {s : Symbols} (h : s.Apart names) {r : Ref} {t : AnnTy}
    (ht : s.type? r = some t) : t.type.IsApart names := by
  have declared {i : Nat} {t : AnnTy} (ht : (s.find? i).bind Decl.type? = some t) : t.type.IsApart names := by
    obtain ⟨d, hd, ht⟩ := Option.bind_eq_some_iff.mp ht
    exact h (i, d) (mem_of_lookup hd) t ht
  cases r with
  | decl k i => exact declared ht
  | element b d i =>
    obtain ⟨v, hv, ht⟩ := Option.bind_eq_some_iff.mp ht
    exact fun n hn => declared hv n (elementType?_typeName ht hn)
  | keyLabel m o => cases ht

/-- Changing declarations one by one keeps their types apart. -/
theorem Symbols.Apart.modify {s : Symbols} (h : s.Apart names) {i : Nat} {f : Decl → Decl}
    (hf : ∀ d, (∀ t ∈ d.type?, t.type.IsApart names) → ∀ t ∈ (f d).type?, t.type.IsApart names) :
    (s.modify i f).Apart names := by
  intro e he t ht
  obtain ⟨⟨j, d⟩, hd, rfl⟩ := List.mem_map.mp he
  dsimp only at ht
  split at ht
  · exact hf d (h (j, d) hd) t ht
  · exact h (j, d) hd t ht

theorem Symbols.Apart.setType {s : Symbols} (h : s.Apart names) (i : Nat) {t : AnnTy} (ht : t.type.IsApart names) :
    (s.setType i t).Apart names := by
  refine h.modify fun d hd u hu => ?_
  cases d
  case function => exact hd u hu
  all_goals
    cases hu
    exact ht

end Apart

/-! ## Two runs -/

/-- From every state that is apart from the names, the first activity complains about an unknown name or ends like the
second one. -/
def LinkM.Follows {α : Type} (names : List String) (x y : LinkM α) (P : α → Prop) : Prop :=
  ∀ s : LinkState, s.symbols.Apart names →
    (∃ e, x s = .error e ∧ e.undefined?.isSome) ∨
      (y s = x s ∧ ∀ r, x s = .ok r → r.2.symbols.Apart names ∧ P r.1)

namespace LinkM

section Follows

variable {α β : Type} {names : List String} {x y : LinkM α} {P : α → Prop} {Q : β → Prop}

theorem Follows.mono {P' : α → Prop} (h : Follows names x y P) (weaker : ∀ a, P a → P' a) : Follows names x y P' := by
  intro s hs
  refine (h s hs).imp id fun ⟨same, after⟩ => ⟨same, fun r hr => ?_⟩
  exact ⟨(after r hr).1, weaker _ (after r hr).2⟩

theorem Follows.bind {f g : α → LinkM β} (hx : Follows names x y P) (hf : ∀ a, P a → Follows names (f a) (g a) Q) :
    Follows names (x >>= f) (y >>= g) Q := by
  intro s hs
  have failed {z : LinkM α} {h : α → LinkM β} {e : Error} (hz : z s = .error e) : (z >>= h) s = .error e := by
    show (z s >>= fun r => h r.1 r.2) = _
    rw [hz]
    rfl
  have done {z : LinkM α} {h : α → LinkM β} {r : α × LinkState} (hz : z s = .ok r) : (z >>= h) s = h r.1 r.2 := by
    show (z s >>= fun r => h r.1 r.2) = _
    rw [hz]
    rfl
  rcases hx s hs with ⟨e, he, unknown⟩ | ⟨same, after⟩
  · exact .inl ⟨e, failed he, unknown⟩
  · cases hx : x s with
    | error e =>
      rw [failed hx, failed (same.trans hx)]
      exact .inr ⟨rfl, fun r hr => by cases hr⟩
    | ok r =>
      obtain ⟨apart, holds⟩ := after r hx
      rw [done hx, done (same.trans hx)]
      exact hf r.1 holds r.2 apart

/-- The same activity twice, which leaves the declarations as they are. -/
theorem Follows.same (h : ∀ s r, x s = .ok r → r.2.symbols = s.symbols) : Follows names x x fun _ => True := by
  intro s hs
  refine .inr ⟨rfl, fun r hr => ⟨?_, trivial⟩⟩
  rw [h s r hr]
  exact hs

theorem Follows.pure {a : α} (h : P a) : Follows names (pure a) (pure a) P := by
  intro s hs
  refine .inr ⟨rfl, fun r hr => ?_⟩
  cases hr
  exact ⟨hs, h⟩

theorem Follows.throw {e : Error} : Follows names (throw e : LinkM α) (throw e) P :=
  fun _ _ => .inr ⟨rfl, fun _ hr => by cases hr⟩

/-- The known declarations, whose types are apart from the names. -/
theorem follows_get : Follows names (get : LinkM LinkState) get fun s => s.symbols.Apart names := by
  intro s hs
  refine .inr ⟨rfl, fun r hr => ?_⟩
  cases hr
  exact ⟨hs, hs⟩

theorem follows_fresh : Follows names fresh fresh fun _ => True :=
  .same fun s r hr => by
    cases hr
    rfl

theorem follows_lift {r : Except Error α} : Follows names (liftM r : LinkM α) (liftM r) fun _ => True :=
  .same fun s p hp => by
    cases r with
    | error e => cases hp
    | ok a =>
      cases hp
      rfl

theorem follows_record {i : Nat} {t : AnnTy} (ht : t.type.IsApart names) :
    Follows names (record i t) (record i t) fun _ => True := by
  intro s hs
  refine .inr ⟨rfl, fun r hr => ?_⟩
  cases hr
  exact ⟨hs.setType i ht, trivial⟩

theorem Follows.mapM {f g : α → LinkM β} : ∀ {as : List α}, (∀ a ∈ as, Follows names (f a) (g a) fun _ => True) →
    Follows names (as.mapM f) (as.mapM g) fun _ => True
  | [], _ => by
    simp only [List.mapM_nil]
    exact .pure trivial
  | a :: as, h => by
    simp only [List.mapM_cons]
    refine (h a List.mem_cons_self).bind fun b _ => ?_
    exact (Follows.mapM fun a' ha' => h a' (List.mem_cons_of_mem _ ha')).bind fun _ _ => .pure trivial

end Follows

end LinkM

open LinkM

/-! ## Types and expressions -/

/-- The statement around the place has a written form, so complaints can be worded. -/
def LinkContext.Worded (c : LinkContext) : Prop := ∀ s ∈ c.site.stmt, s.isPrintable = true

section Expressions

variable {outer : List Frame} {c : LinkContext}

theorem Site.complain_unknown {site : Site} (worded : ∀ s ∈ site.stmt, s.isPrintable = true) (name : String)
    (place : Place) : site.complain (.undefined name) place = .fault (.undefined name) place := by
  unfold complain
  refine if_pos ?_
  rw [Bool.and_eq_true]
  refine ⟨rfl, ?_⟩
  split
  · exact worded _ ‹_›
  · rfl

theorem linkType_beyond {ns : List String} (h : ∀ n ∈ ns.head?, n ∉ Frame.namesAll outer) :
    linkType (c.beyond outer) ns = linkType c ns := by
  unfold linkType
  cases ns with
  | nil => rfl
  | cons n ns =>
    have same : (c.beyond outer).scope.type? n = c.scope.type? n := Scope.type?_beyond (h n rfl)
    simp only [same]

theorem follows_linkType {ns : List String} (h : ∀ n ∈ ns.head?, n ∉ Frame.namesAll outer) :
    Follows (Frame.namesAll outer) (linkType c ns) (linkType (c.beyond outer) ns) fun _ => True := by
  rw [linkType_beyond h]
  unfold linkType
  split
  · exact .pure trivial
  · split
    · exact .pure trivial
    · exact follows_get.bind fun _ _ => follows_lift.bind fun _ _ => .pure trivial

/-- A name is found inside, or it is complained about. -/
theorem follows_linkValue (worded : c.Worded) (e : Expr) (name : String) :
    Follows (Frame.namesAll outer) (linkValue c e name) (linkValue (c.beyond outer) e name) fun _ => True := by
  have unknown (p : Place) : ∃ f, c.site.complain (.undefined name) p = f ∧ f.undefined?.isSome :=
    ⟨_, Site.complain_unknown worded name p, rfl⟩
  unfold linkValue
  cases found : c.scope.value name with
  | ok r =>
    have same : (c.beyond outer).scope.value name = .ok r := Scope.searchValue_append found
    rw [same]
    exact .pure trivial
  | error blamed =>
    intro s _
    left
    cases blamed with
    | none =>
      obtain ⟨f, hf, some⟩ := unknown (c.site.place e.pos)
      exact ⟨f, congrArg Except.error hf, some⟩
    | some pos =>
      obtain ⟨f, hf, some⟩ := unknown (c.site.placeOfStmt pos)
      exact ⟨f, congrArg Except.error hf, some⟩

theorem follows_linkSpace {t : Ty} (apart : t.IsApart (Frame.namesAll outer)) :
    Follows (Frame.namesAll outer) (linkSpace c t) (linkSpace (c.beyond outer) t) fun _ => True := by
  have members {names : List String} {target : Option NamedTarget} :
      Follows (Frame.namesAll outer) (do
        let symbols := (← get).symbols
        return target.map fun t => symbols.membersOf (names.getLastD "") t.ref : LinkM _) (do
        let symbols := (← get).symbols
        return target.map fun t => symbols.membersOf (names.getLastD "") t.ref : LinkM _) fun _ => True :=
    follows_get.bind fun _ _ => .pure trivial
  unfold linkSpace
  dsimp only
  split
  · exact members
  · exact (follows_linkType apart).bind fun _ _ => members
  · rename_i p
    have named : ∀ n ∈ [addressName p].head?, n ∉ Frame.namesAll outer := apart
    exact (follows_linkType named).bind fun _ _ => members
  · exact .throw

theorem follows_linkMember {e base : Expr} {name : String} {old : Option Ref} :
    Follows (Frame.namesAll outer) (linkMember c e base name old) (linkMember (c.beyond outer) e base name old)
      fun _ => True := by
  unfold linkMember
  refine follows_get.bind fun s hs => ?_
  dsimp only
  split
  iterate 4
    split
    · exact .pure trivial
    · exact .throw
  · split
    · exact .throw
    · rename_i t ht
      split
      · split
        · exact .pure trivial
        · exact .throw
      · refine (follows_linkSpace (hs.type? ht)).bind fun _ _ => ?_
        split
        · exact .pure trivial
        · split
          · exact .pure trivial
          · exact .throw
  · exact .throw

theorem follows_linkElement {names : List String} {base : Expr} :
    Follows names (linkElement base) (linkElement base) fun _ => True := by
  unfold linkElement
  refine follows_get.bind fun _ _ => ?_
  dsimp only
  split
  · split
    · exact .throw
    · refine follows_fresh.bind fun _ _ => ?_
      split <;> exact .pure trivial
  · exact .throw

theorem LinkContext.Worded.withKey (h : c.Worded) (i : Nat) (l : Option String) : (c.withKey i l).Worded := by
  cases l <;> exact h

variable (outer)

mutual

theorem Ty.link_follows : ∀ (t : Ty) (c : LinkContext), c.Worded → Node.Apart t.nodes (Frame.namesAll outer) →
    Follows (Frame.namesAll outer) (t.link c) (t.link (c.beyond outer)) fun t' => t'.typeName? = t.typeName?
  | .named s ns t, c, _, h => by
    simp only [Ty.nodes, Node.apart_cons] at h
    simp only [Ty.link]
    refine (follows_linkType h.1).bind fun target _ => ?_
    split <;> exact .pure rfl
  | .mapping i k l v, c, worded, h => by
    simp only [Ty.nodes, List.cons_append, Node.apart_cons, Node.apart_append] at h
    simp only [Ty.link, LinkContext.withKey_beyond]
    refine (k.link_follows _ (worded.withKey i l) h.2.1.1).bind fun k' _ => ?_
    refine (v.link_follows _ (worded.withKey i l) h.2.2).bind fun v' hv => .pure ?_
    simp only [Ty.typeName?, AnnTy.typeName?_eq, hv]
  | .array v none, c, worded, h => by
    simp only [Ty.nodes, Node.apart_cons] at h
    simp only [Ty.link]
    refine (v.link_follows c worded h.2).bind fun v' hv => .pure ?_
    simp only [Ty.typeName?, AnnTy.typeName?_eq, hv]
  | .array v (some n), c, worded, h => by
    simp only [Ty.nodes, List.cons_append, Node.apart_cons, Node.apart_append] at h
    simp only [Ty.link]
    refine (v.link_follows c worded h.2.1).bind fun v' hv => ?_
    refine (n.link_follows c worded h.2.2).bind fun n' _ => .pure ?_
    simp only [Ty.typeName?, AnnTy.typeName?_eq, hv]
  | .function ps ms rs, c, worded, h => by
    simp only [Ty.nodes, List.cons_append, Node.apart_cons, Node.apart_append] at h
    simp only [Ty.link]
    refine (Param.linkAll_follows ps c worded h.2.1).bind fun ps' _ => ?_
    exact (Param.linkAll_follows rs c worded h.2.2).bind fun rs' _ => .pure rfl
  | .elementary .., _, _, _ | .bool, _, _, _ | .boolLit .., _, _, _ | .number, _, _, _ | .numLit .., _, _, _
  | .integer .., _, _, _ | .address .., _, _, _ | .cipher .., _, _, _ | .publicKey .., _, _, _
  | .randomness .., _, _, _ | .tuple .., _, _, _ => by
    simp only [Ty.link]
    exact .pure rfl

theorem AnnTy.link_follows : ∀ (t : AnnTy) (c : LinkContext), c.Worded → Node.Apart t.nodes (Frame.namesAll outer) →
    Follows (Frame.namesAll outer) (t.link c) (t.link (c.beyond outer)) fun t' => t'.type.typeName? = t.type.typeName?
  | ⟨t, p, m, a, d⟩, c, worded, h => by
    simp only [AnnTy.nodes, List.cons_append, Node.apart_cons, Node.apart_append] at h
    simp only [AnnTy.link]
    refine (t.link_follows c worded h.2.1).bind fun t' ht => ?_
    exact (p.link_follows c worded h.2.2).bind fun p' _ => .pure ht

theorem Param.link_follows : ∀ (p : Param) (c : LinkContext), c.Worded → Node.Apart p.nodes (Frame.namesAll outer) →
    Follows (Frame.namesAll outer) (p.link c) (p.link (c.beyond outer)) fun _ => True
  | ⟨i, k, t, n, s, o⟩, c, worded, h => by
    simp only [Param.nodes, List.cons_append, Node.apart_cons, Node.apart_append] at h
    simp only [Param.link]
    refine (t.link_follows c worded h.2.1).bind fun t' ht => ?_
    exact (follows_record (AnnTy.isApart_of_linked h.2.1 ht)).bind fun _ _ => .pure trivial

theorem Param.linkAll_follows : ∀ (ps : List Param) (c : LinkContext), c.Worded →
    Node.Apart (Param.nodesAll ps) (Frame.namesAll outer) →
    Follows (Frame.namesAll outer) (Param.linkAll c ps) (Param.linkAll (c.beyond outer) ps) fun _ => True
  | [], _, _, _ => by
    simp only [Param.linkAll]
    exact .pure trivial
  | p :: ps, c, worded, h => by
    simp only [Param.nodesAll, Node.apart_append] at h
    simp only [Param.linkAll]
    refine (p.link_follows c worded h.1).bind fun p' _ => ?_
    exact (Param.linkAll_follows ps c worded h.2).bind fun ps' _ => .pure trivial

theorem Info.linkType_follows : ∀ (i : Info) (c : LinkContext), c.Worded →
    Node.Apart i.typeNodes (Frame.namesAll outer) →
    Follows (Frame.namesAll outer) (i.linkType c) (i.linkType (c.beyond outer)) fun _ => True
  | ⟨i, p, some t, b, x⟩, c, worded, h => by
    simp only [Info.typeNodes] at h
    simp only [Info.linkType]
    exact (t.link_follows c worded h).bind fun t' _ => .pure trivial
  | ⟨i, p, none, b, x⟩, _, _, _ => by
    simp only [Info.linkType]
    exact .pure trivial

theorem Expr.link_follows : ∀ (e : Expr) (c : LinkContext), c.Worded → Node.Apart e.nodes (Frame.namesAll outer) →
    Follows (Frame.namesAll outer) (e.link c) (e.link (c.beyond outer)) fun _ => True
  | .call i f as o k, c, worded, h => by
    simp only [Expr.nodes, List.cons_append, Node.apart_cons, Node.apart_append] at h
    simp only [Expr.link]
    refine (f.link_follows c worded h.2.1).bind fun f' _ => ?_
    exact (Expr.linkAll_follows as c worded h.2.2).bind fun as' _ => .pure trivial
  | .new i as, c, worded, h => by
    simp only [Expr.nodes, List.cons_append, Node.apart_cons, Node.apart_append] at h
    simp only [Expr.link]
    refine (i.linkType_follows c worded h.2.1).bind fun i' _ => ?_
    exact (Expr.linkAll_follows as c worded h.2.2).bind fun as' _ => .pure trivial
  | .cast i t e b, c, worded, h => by
    simp only [Expr.nodes, List.cons_append, Node.apart_cons, Node.apart_append] at h
    simp only [Expr.link]
    refine (t.link_follows c worded h.2.1).bind fun t' _ => ?_
    exact (e.link_follows c worded h.2.2).bind fun e' _ => .pure trivial
  | .arrayLit i es k, c, worded, h => by
    simp only [Expr.nodes, Node.apart_cons] at h
    simp only [Expr.link]
    exact (Expr.linkAll_follows es c worded h.2).bind fun es' _ => .pure trivial
  | .tuple i es, c, worded, h => by
    simp only [Expr.nodes, Node.apart_cons] at h
    simp only [Expr.link]
    exact (Expr.linkAll_follows es c worded h.2).bind fun es' _ => .pure trivial
  | .ident i n t, c, worded, _ => by
    simp only [Expr.link]
    exact (follows_linkValue worded _ _).bind fun r _ => .pure trivial
  | .member i e n t, c, worded, h => by
    simp only [Expr.nodes, List.cons_append, Node.apart_cons, Node.apart_append] at h
    simp only [Expr.link]
    refine (e.link_follows c worded h.2.1).bind fun e' _ => ?_
    exact follows_linkMember.bind fun _ _ => .pure trivial
  | .index i e k t, c, worded, h => by
    simp only [Expr.nodes, List.cons_append, Node.apart_cons, Node.apart_append] at h
    simp only [Expr.link]
    refine (e.link_follows c worded h.2.1).bind fun e' _ => ?_
    refine (k.link_follows c worded h.2.2).bind fun k' _ => ?_
    exact follows_linkElement.bind fun _ _ => .pure trivial
  | .reclassify i m e p x, c, worded, h => by
    simp only [Expr.nodes, List.cons_append, Node.apart_cons, Node.apart_append] at h
    simp only [Expr.link]
    refine (e.link_follows c worded h.2.1).bind fun e' _ => ?_
    exact (p.link_follows c worded h.2.2).bind fun p' _ => .pure trivial
  | .operator .., _, _, _ | .boolLit .., _, _, _ | .numLit .., _, _, _ | .me .., _, _, _ | .all .., _, _, _ => by
    simp only [Expr.link]
    exact .pure trivial

theorem Expr.linkAll_follows : ∀ (es : List Expr) (c : LinkContext), c.Worded →
    Node.Apart (Expr.nodesAll es) (Frame.namesAll outer) →
    Follows (Frame.namesAll outer) (Expr.linkAll c es) (Expr.linkAll (c.beyond outer) es) fun _ => True
  | [], _, _, _ => by
    simp only [Expr.linkAll]
    exact .pure trivial
  | e :: es, c, worded, h => by
    simp only [Expr.nodesAll, Node.apart_append] at h
    simp only [Expr.linkAll]
    refine (e.link_follows c worded h.1).bind fun e' _ => ?_
    exact (Expr.linkAll_follows es c worded h.2).bind fun es' _ => .pure trivial

end

end Expressions

/-! ## Statements -/

/-- An optional part of a loop is linked if it is there. -/
def Stmt.link? (c : LinkContext) : Option Stmt → LinkM (Option Stmt)
  | none => return none
  | some s => do return some (← s.link c)

theorem Stmt.link_forLoop (c : LinkContext) (i : StmtInfo) (init update : Option Stmt) (e : Expr) (b : Block) :
    (Stmt.forLoop i init e update b).link c = (do
      let outer := { c with scope := c.scope.enterBlock i.pos (Stmt.declared? init ++ Stmt.declared? update) }
      let init' ← Stmt.link? outer init
      let inner := { outer with scope := outer.scope.declare (Stmt.declared? init) }
      let e' ← e.link (inner.withStmt (.forLoop i init e update b))
      let update' ← Stmt.link? inner update
      return .forLoop i init' e' update' (← b.link inner)) := by
  cases init <;> cases update <;> simp only [Stmt.link] <;> rfl

section Statements

variable {outer : List Frame} {c : LinkContext}

theorem LinkContext.worded_withStmt {s : Stmt} (h : s.isPrintable = true) (c : LinkContext) : (c.withStmt s).Worded := by
  intro t ht
  cases ht
  exact h

variable (outer)

theorem Expr.link?_follows (worded : c.Worded) (e : Option Expr)
    (h : Node.Apart (Expr.nodes? e) (Frame.namesAll outer)) :
    Follows (Frame.namesAll outer) (Expr.link? c e) (Expr.link? (c.beyond outer) e) fun _ => True := by
  cases e with
  | none => exact .pure trivial
  | some e => exact (e.link_follows outer c worded h).bind fun _ _ => .pure trivial

theorem LocalVar.link_follows (worded : c.Worded) (v : LocalVar) (h : Node.Apart v.nodes (Frame.namesAll outer)) :
    Follows (Frame.namesAll outer) (v.link c) (v.link (c.beyond outer)) fun _ => True := by
  simp only [LocalVar.nodes, List.cons_append, Node.apart_cons, Node.apart_append] at h
  unfold LocalVar.link
  refine (v.type.link_follows outer c worded h.2.1).bind fun t ht => ?_
  exact (follows_record (AnnTy.isApart_of_linked h.2.1 ht)).bind fun _ _ => .pure trivial

/-- Linking the statement inside the further scopes ends alike, or a name is unknown without them. -/
def Stmt.LinksAlike (s : Stmt) : Prop :=
  ∀ c : LinkContext, c.Worded → s.isPrintable = true → Node.Apart s.nodes (Frame.namesAll outer) →
    Follows (Frame.namesAll outer) (s.link c) (s.link (c.beyond outer)) fun _ => True

variable {outer}

theorem Stmt.link?_follows {s : Option Stmt} (each : ∀ t, s = some t → t.LinksAlike outer) (worded : c.Worded)
    (written : (s.map Stmt.isPrintable).getD true = true)
    (h : Node.Apart ((s.map Stmt.nodes).getD []) (Frame.namesAll outer)) :
    Follows (Frame.namesAll outer) (Stmt.link? c s) (Stmt.link? (c.beyond outer) s) fun _ => True := by
  cases s with
  | none => exact .pure trivial
  | some s => exact (each s rfl c worded written h).bind fun _ _ => .pure trivial

theorem Stmt.linkAll_follows : ∀ {ss : List Stmt}, (∀ s ∈ ss, s.LinksAlike outer) → ∀ {c : LinkContext}, c.Worded →
    Stmt.arePrintable ss = true → Node.Apart (Stmt.nodesAll ss) (Frame.namesAll outer) →
    Follows (Frame.namesAll outer) (Stmt.linkAll c ss) (Stmt.linkAll (c.beyond outer) ss) fun _ => True
  | [], _, _, _, _, _ => by
    simp only [Stmt.linkAll]
    exact .pure trivial
  | s :: ss, each, c, worded, written, h => by
    simp only [Stmt.arePrintable, Bool.and_eq_true] at written
    simp only [Stmt.nodesAll, Node.apart_append] at h
    simp only [Stmt.linkAll]
    refine (each s List.mem_cons_self c worded written.1 h.1).bind fun s' _ => ?_
    have others : ∀ t ∈ ss, t.LinksAlike outer := fun t ht => each t (List.mem_cons_of_mem _ ht)
    have rest := Stmt.linkAll_follows others (c := { c with scope := c.scope.declare s.declared }) worded written.2 h.2
    exact rest.bind fun ss' _ => .pure trivial

theorem Block.link_follows {b : Block} (each : ∀ s ∈ b.stmts, s.LinksAlike outer) (worded : c.Worded)
    (written : b.isPrintable = true) (h : Node.Apart b.nodes (Frame.namesAll outer)) :
    Follows (Frame.namesAll outer) (b.link c) (b.link (c.beyond outer)) fun _ => True := by
  obtain ⟨i, ss, b⟩ := b
  simp only [Block.nodes, Node.apart_cons] at h
  simp only [Block.link]
  have inner := Stmt.linkAll_follows each
    (c := { c with scope := c.scope.enterBlock i.pos (Stmt.declaredAll ss) }) worded written h.2
  exact inner.bind fun _ _ => .pure trivial

theorem Stmt.isPrintable_forLoop (i : StmtInfo) (init update : Option Stmt) (e : Expr) (b : Block) :
    (Stmt.forLoop i init e update b).isPrintable = ((init.map Stmt.isPrintable).getD true && e.isPrintable &&
      (update.map Stmt.isPrintable).getD true && b.isPrintable) := by
  cases init <;> cases update <;> rfl

variable (outer)

theorem Stmt.link_follows (s : Stmt) : s.LinksAlike outer := by
  induction s using Stmt.inductOn with
  | ifThen i e t f thens elses =>
    intro c worded written h
    have whole := LinkContext.worded_withStmt written c
    cases f with
    | none =>
      simp only [Stmt.isPrintable, Bool.and_eq_true] at written
      simp only [Stmt.nodes, List.cons_append, Node.apart_cons, Node.apart_append] at h
      simp only [Stmt.link]
      refine (e.link_follows outer _ whole h.2.1).bind fun e' _ => ?_
      exact (Block.link_follows thens worded written.2 h.2.2).bind fun t' _ => .pure trivial
    | some f =>
      simp only [Stmt.isPrintable, Bool.and_eq_true] at written
      simp only [Stmt.nodes, List.cons_append, Node.apart_cons, Node.apart_append] at h
      simp only [Stmt.link]
      refine (e.link_follows outer _ whole h.2.1.1).bind fun e' _ => ?_
      refine (Block.link_follows thens worded written.1.2 h.2.1.2).bind fun t' _ => ?_
      exact (Block.link_follows (elses f rfl) worded written.2 h.2.2).bind fun f' _ => .pure trivial
  | whileLoop i e b body =>
    intro c worded written h
    have whole := LinkContext.worded_withStmt written c
    simp only [Stmt.isPrintable, Bool.and_eq_true] at written
    simp only [Stmt.nodes, List.cons_append, Node.apart_cons, Node.apart_append] at h
    simp only [Stmt.link]
    refine (e.link_follows outer _ whole h.2.1).bind fun e' _ => ?_
    exact (Block.link_follows body worded written.2 h.2.2).bind fun b' _ => .pure trivial
  | doWhile i b e body =>
    intro c worded written h
    have whole := LinkContext.worded_withStmt written c
    simp only [Stmt.isPrintable, Bool.and_eq_true] at written
    simp only [Stmt.nodes, List.cons_append, Node.apart_cons, Node.apart_append] at h
    simp only [Stmt.link]
    refine (Block.link_follows body worded written.1 h.2.1).bind fun b' _ => ?_
    exact (e.link_follows outer _ whole h.2.2).bind fun e' _ => .pure trivial
  | forLoop i init e update b inits updates body =>
    intro c worded written h
    have whole (c : LinkContext) := LinkContext.worded_withStmt written c
    simp only [Stmt.isPrintable_forLoop, Bool.and_eq_true] at written
    simp only [Stmt.nodes_forLoop, Node.apart_cons, Node.apart_append] at h
    obtain ⟨⟨⟨first, -⟩, last⟩, writtenBody⟩ := written
    obtain ⟨-, ⟨⟨hinit, he⟩, hupdate⟩, hb⟩ := h
    rw [Stmt.link_forLoop, Stmt.link_forLoop]
    let opened : LinkContext :=
      { c with scope := c.scope.enterBlock i.pos (Stmt.declared? init ++ Stmt.declared? update) }
    let inner : LinkContext := { opened with scope := opened.scope.declare (Stmt.declared? init) }
    have begin : Follows (Frame.namesAll outer) (Stmt.link? opened init) (Stmt.link? (opened.beyond outer) init) _ :=
      Stmt.link?_follows inits worded first hinit
    refine begin.bind fun init' _ => ?_
    refine (e.link_follows outer (inner.withStmt _) (whole inner) he).bind fun e' _ => ?_
    have step : Follows (Frame.namesAll outer) (Stmt.link? inner update) (Stmt.link? (inner.beyond outer) update) _ :=
      Stmt.link?_follows updates worded last hupdate
    refine step.bind fun update' _ => ?_
    have rest : Follows (Frame.namesAll outer) (b.link inner) (b.link (inner.beyond outer)) _ :=
      Block.link_follows body worded writtenBody hb
    exact rest.bind fun b' _ => .pure trivial
  | block b body =>
    intro c worded written h
    simp only [Stmt.link]
    exact (Block.link_follows body worded written h).bind fun _ _ => .pure trivial
  | seq i ss x each =>
    intro c worded written h
    simp only [Stmt.nodes, Node.apart_cons] at h
    simp only [Stmt.link]
    exact (Stmt.linkAll_follows each worded written h.2).bind fun _ _ => .pure trivial
  | simple s single =>
    intro c worded written h
    have whole := LinkContext.worded_withStmt written c
    cases s with
    | ret i e =>
      simp only [Stmt.nodes, Node.apart_cons] at h
      simp only [Stmt.link]
      exact (Expr.link?_follows outer whole e h.2).bind fun _ _ => .pure trivial
    | eval i e | require i e =>
      simp only [Stmt.nodes, Node.apart_cons] at h
      simp only [Stmt.link]
      exact (e.link_follows outer _ whole h.2).bind fun _ _ => .pure trivial
    | assign i l r o b =>
      simp only [Stmt.nodes, List.cons_append, Node.apart_cons, Node.apart_append] at h
      simp only [Stmt.link]
      refine (l.link_follows outer _ whole h.2.1).bind fun l' _ => ?_
      exact (r.link_follows outer _ whole h.2.2).bind fun r' _ => .pure trivial
    | declare i v e =>
      simp only [Stmt.nodes, List.cons_append, Node.apart_cons, Node.apart_append] at h
      simp only [Stmt.link]
      have declaring : LinkContext.Worded ((c.withStmt (.declare i v e)).declaring v) := whole
      refine (v.link_follows outer declaring h.2.1).bind fun v' _ => ?_
      exact (Expr.link?_follows outer declaring e h.2.2).bind fun e' _ => .pure trivial
    | breakLoop i | continueLoop i | compute i v | enterKey i b | comment t | blank =>
      simp only [Stmt.link]
      exact .pure trivial
    | ifThen | whileLoop | doWhile | forLoop | block | seq => cases single

end Statements

/-! ## Programs -/

section Programs

variable (outer : List Frame) {c : LinkContext}

theorem FunctionDef.link_follows (worded : c.Worded) {f : FunctionDef} (written : f.body.isPrintable = true)
    (h : Node.Apart f.nodes (Frame.namesAll outer)) :
    Follows (Frame.namesAll outer) (f.link c) (f.link (c.beyond outer)) fun _ => True := by
  simp only [FunctionDef.nodes, List.cons_append, Node.apart_cons, Node.apart_append] at h
  obtain ⟨-, ⟨⟨-, hparams⟩, hreturns⟩, hbody⟩ := h
  have worded' : (c.ofParams f).Worded := worded
  unfold FunctionDef.link
  refine (Param.linkAll_follows outer f.params (c.ofParams f) worded' hparams).bind fun ps _ => ?_
  refine (Param.linkAll_follows outer f.returns (c.ofParams f) worded' hreturns).bind fun rs _ => ?_
  have body : Follows (Frame.namesAll outer) (f.body.link (c.ofBody f)) (f.body.link ((c.ofBody f).beyond outer)) _ :=
    Block.link_follows (fun s _ => s.link_follows outer) worded' written hbody
  refine body.bind fun b _ => ?_
  refine Follows.bind (P := fun _ => True) (fun s hs => ?_) fun _ _ => .pure trivial
  refine .inr ⟨rfl, fun r hr => ?_⟩
  cases hr
  refine ⟨hs.modify fun d hd t ht => ?_, trivial⟩
  cases d
  case function =>
    cases ht
    intro n hn
    cases hn
  all_goals exact hd t ht

theorem StateItem.link_follows (worded : c.Worded) {i : StateItem} (h : Node.Apart i.nodes (Frame.namesAll outer)) :
    Follows (Frame.namesAll outer) (i.link c) (i.link (c.beyond outer)) fun _ => True := by
  cases i with
  | var v =>
    simp only [StateItem.nodes, List.cons_append, List.append_assoc, Node.apart_cons, Node.apart_append] at h
    unfold StateItem.link
    refine (v.type.link_follows outer c worded h.2.1).bind fun t ht => ?_
    refine (follows_record (AnnTy.isApart_of_linked h.2.1 ht)).bind fun _ _ => ?_
    exact (Expr.link?_follows outer worded v.init h.2.2.2.2).bind fun _ _ => .pure trivial
  | comment | blank => exact .pure trivial

theorem StructDef.link_follows (worded : c.Worded) {d : StructDef} (h : Node.Apart d.nodes (Frame.namesAll outer)) :
    Follows (Frame.namesAll outer) (d.link c) (d.link (c.beyond outer)) fun _ => True := by
  simp only [StructDef.nodes, Node.apart_cons] at h
  unfold StructDef.link
  refine Follows.bind (Follows.mapM fun m hm => ?_) fun _ _ => .pure trivial
  have inner : LinkContext.Worded
      { c with scope := (c.scope.enter d.names).enter [(m.name, m.ref)] } := worded
  exact m.link_follows outer inner fun n hn => h.2.2 n (List.mem_flatMap.mpr ⟨m, hm, hn⟩)

theorem Contract.linkIn_follows (worded : c.Worded) {k : Contract} (written : k.isPrintable = true)
    (h : Node.Apart k.nodes (Frame.namesAll outer)) :
    Follows (Frame.namesAll outer) (k.linkIn c) (k.linkIn (c.beyond outer)) fun _ => True := by
  simp only [Contract.nodes, List.cons_append, List.append_assoc, Node.apart_cons, Node.apart_append] at h
  obtain ⟨-, -, -, hstructs, hstate, hconstructors, hfunctions⟩ := h
  have bodies : ∀ f ∈ k.allFunctions, f.body.isPrintable = true := by
    intro f hf
    simp only [Contract.isPrintable, Bool.and_eq_true, List.all_eq_true] at written
    have whole := written.2 f hf
    simp only [FunctionDef.isPrintable, Bool.and_eq_true] at whole
    exact whole.2
  have within {α : Type} {g : α → List Node} {as : List α} (hs : Node.Apart (as.flatMap g) (Frame.namesAll outer))
      {a : α} (ha : a ∈ as) : Node.Apart (g a) (Frame.namesAll outer) :=
    fun n hn => hs n (List.mem_flatMap.mpr ⟨a, ha, hn⟩)
  unfold Contract.linkIn
  refine Follows.bind (Follows.mapM fun d hd => StructDef.link_follows outer worded (within hstructs hd)) fun _ _ => ?_
  refine Follows.bind (Follows.mapM fun i hi => StateItem.link_follows outer worded (within hstate hi)) fun _ _ => ?_
  refine Follows.bind (Follows.mapM fun f hf => FunctionDef.link_follows outer worded
    (bodies f (List.mem_append_left _ hf)) (within hconstructors hf)) fun _ _ => ?_
  exact Follows.bind (Follows.mapM fun f hf => FunctionDef.link_follows outer worded
    (bodies f (List.mem_append_right _ hf)) (within hfunctions hf)) fun _ _ => .pure trivial

/-- No type of the program and no built-in one is called by one of the names. -/
structure SourceUnit.TypesApart (u : SourceUnit) (names : List String) : Prop where
  nodes : Node.Apart u.nodes names
  symbols : u.symbols.Apart names

theorem SourceUnit.contracts_follow {u : SourceUnit} (written : u.isPrintable = true)
    (apart : u.TypesApart (Frame.namesAll outer)) :
    Follows (Frame.namesAll outer) (u.contracts.mapM (Contract.link u))
      (u.contracts.mapM fun c : Contract => c.linkIn ((c.context u).beyond outer)) fun _ => True := by
  refine Follows.mapM fun c hc => ?_
  have worded : (c.context u).Worded := fun s hs => by cases hs
  rw [Contract.link_eq]
  refine Contract.linkIn_follows outer worded (List.all_eq_true.mp written c hc) fun n hn => ?_
  exact apart.nodes n (List.mem_cons_of_mem _ (List.mem_flatMap.mpr ⟨c, hc, hn⟩))

/-- Linking a program gives what it gives inside further declarations, or it complains about an unknown name. -/
theorem SourceUnit.link_follows {u : SourceUnit} (written : u.isPrintable = true) (next : Nat)
    (apart : u.TypesApart (Frame.namesAll outer)) :
    (∃ e, u.link next = .error e ∧ e.undefined?.isSome) ∨ u.linkBeyond outer next = u.link next := by
  have whole := contracts_follow outer written apart ⟨u.symbols, next⟩ apart.symbols
  unfold link linkBeyond
  generalize u.contracts.mapM (Contract.link u) = x at whole ⊢
  generalize u.contracts.mapM (fun c : Contract => c.linkIn ((c.context u).beyond outer)) = y at whole ⊢
  cases u.checkNames with
  | error e =>
    right
    show Except.error e = Except.error e
    rfl
  | ok _ =>
    show (∃ e, (x ⟨u.symbols, next⟩ >>= _) = .error e ∧ e.undefined?.isSome) ∨
      (y ⟨u.symbols, next⟩ >>= _) = (x ⟨u.symbols, next⟩ >>= _)
    rcases whole with ⟨e, he, unknown⟩ | ⟨same, -⟩
    · refine .inl ⟨e, ?_, unknown⟩
      rw [he]
      rfl
    · rw [same]
      exact .inr rfl

end Programs

end Shroud
