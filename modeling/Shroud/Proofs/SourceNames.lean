import Shroud.Proofs.Run

/-!
# Names of the program inside a circuit

Turning an expression into one over circuit variables replaces every name that stands for a value. What may be
left is the name of an enum that a value is converted to.

**Array literals** are taken over as they stand, whatever they consist of. So `Expr.sourceNames` comes in two
versions: with the elements of array literals and without them.
-/

namespace Shroud

open SplitM

/-- The reference leads to an enum. -/
def Ref.isEnum : Ref → Bool
  | .decl .enum _ => true
  | _ => false

/-- The expression names an enum, as the function of a call that converts a value to it. -/
def Expr.namesEnum (e : Expr) : Bool := (e.target?.map Ref.isEnum).getD false

mutual

/-- The names of the program in an expression, those of enums aside; `literals` tells whether the elements of array
literals count. -/
def Expr.sourceNames (literals : Bool) : Expr → List String
  | .ident _ (.plain s) _ => [s]
  | .call _ f as _ _ => (if f.namesEnum then [] else f.sourceNames literals) ++ Expr.allSourceNames literals as
  | .new _ as | .tuple _ as => Expr.allSourceNames literals as
  | .arrayLit _ as _ => if literals then Expr.allSourceNames literals as else []
  | .cast _ _ e _ => e.sourceNames literals
  | .member _ b _ _ => b.sourceNames literals
  | .index _ b k _ => b.sourceNames literals ++ k.sourceNames literals
  | .reclassify _ _ e p _ => e.sourceNames literals ++ p.sourceNames literals
  | .me _ => ["me"]
  | _ => []

def Expr.allSourceNames (literals : Bool) : List Expr → List String
  | [] => []
  | e :: es => e.sourceNames literals ++ Expr.allSourceNames literals es

end

/-- All names that stand for values are circuit variables. -/
def Expr.IsInner (e : Expr) : Prop := e.sourceNames false = []

theorem Expr.allSourceNames_nil {es : List Expr} (h : ∀ e ∈ es, e.IsInner) : Expr.allSourceNames false es = [] := by
  induction es with
  | nil => rfl
  | cons e es ih =>
    rw [Expr.allSourceNames, h e List.mem_cons_self, ih fun a ha => h a (List.mem_cons_of_mem _ ha)]
    rfl

theorem Expr.isInner_mapInfo {f : Info → Info} {e : Expr} (h : e.IsInner) : (e.mapInfo f).IsInner := by
  cases e with
  | ident i n t => cases n <;> exact h
  | _ => exact h

theorem CircuitVar.isInner_read (v : CircuitVar) : v.read.IsInner := rfl

/-! ## Expressions inside a circuit -/

namespace Splitter

variable {t : Splitter}

/-- Every expression that is turned into one over circuit variables has lost the names of its values. -/
def Inner (t : Splitter) : Prop := ∀ e, Gives Expr.IsInner (t.privately e)

theorem inner_args (ht : t.Inner) (es : List Expr) :
    Gives (fun es => Expr.allSourceNames false es = []) (es.mapM t.privately) :=
  fun k w es' w' hr => Expr.allSourceNames_nil (Gives.mapM ht es k w es' w' hr)

theorem inner_inputRead {e : Expr} : Gives Expr.IsInner (do return (← t.input e).read) :=
  .after fun v => .pure v.isInner_read

theorem inner_privateIdent {e : Expr} {n : Ident} (he : ∀ v, n = .circuit v → e.IsInner) :
    Gives Expr.IsInner (t.privateIdent e n) := by
  cases n with
  | circuit v =>
    unfold privateIdent
    dsimp only
    split
    · exact .after fun _ => .pure (he v rfl)
    · exact .pure (he v rfl)
  | plain s =>
    unfold privateIdent
    dsimp only
    split
    -- Both branches end by asking for the cached value; the first does something else before.
    on_goal 1 => refine .after fun _ => ?_
    all_goals
      refine .after fun r => ?_
      cases r with
      | some v => exact .pure (Expr.isInner_mapInfo v.isInner_read)
      | none => exact inner_inputRead

theorem inner_privateReclassify (ht : t.Inner) {type : AnnTy} {arg : Expr} :
    Gives Expr.IsInner (t.privateReclassify type arg) := by
  unfold privateReclassify
  split
  · dsimp only
    split
    · exact .throw
    · refine .after fun p => ?_
      split
      · exact .pure (CircuitVar.isInner_read _)
      · exact .throw
  · split
    · exact ht arg
    · split
      · exact .throw
      · exact inner_inputRead

theorem inner_homOperation (ht : t.Inner) {i func : Info} {op : Op} {p : Bool} {h : Hom} {r : Option Expr}
    {args : List Expr} {offset : Int} : Gives Expr.IsInner (t.homOperation i func op p h r args offset) := by
  unfold homOperation
  refine .after fun b => ?_
  dsimp only
  split
  · exact .throw
  · exact .after fun _ => .after fun _ => .after fun _ => (inner_args ht _).bind fun es hes => .put hes

theorem inner_inline {f : Callee} {text : Option String} {args : List Expr} :
    Gives Expr.IsInner (t.inline f text args) := by
  have result (v : LocalVar) : Gives Expr.IsInner (result v) := by
    refine .after fun r => ?_
    cases r with
    | none => exact .throw
    | some v => exact .pure v.isInner_read
  unfold inline
  extract_lets activity
  suffices h : Gives Expr.IsInner activity by
    cases text with
    | none => exact h.inScope
    | some s => exact h.indented.inScope
  refine .after fun _ => ?_
  split
  · exact .throw
  · refine .after fun _ => .after fun _ => (Gives.mapM result _).bind fun es hes => ?_
    split
    · exact .pure (List.forall_mem_singleton.mp hes)
    · exact .pure (Expr.allSourceNames_nil hes)

theorem inner_privateCall {e func : Expr} {args : List Expr} :
    Gives Expr.IsInner (t.privateCall e func args) := by
  unfold privateCall
  refine .after fun symbols => ?_
  split
  · exact .throw
  · split
    on_goal 1 => refine .after fun _ => ?_
    all_goals
      refine .after fun k => ?_
      split
      · exact inner_inline
      · exact .throw

theorem inner_privateStep (ht : t.Inner) (e : Expr) : Gives Expr.IsInner (t.privateStep e) := by
  cases e with
  | ident i n r => exact inner_privateIdent (by rintro v rfl; rfl)
  | index | member | me => exact inner_inputRead
  | reclassify i m arg p h => exact inner_privateReclassify ht
  | call i f args o key =>
    have same (hf : (if f.namesEnum then [] else f.sourceNames false) = []) :
        Gives Expr.IsInner (do put (.call i f (← args.mapM t.privately) o key)) := by
      refine (inner_args ht args).bind fun es hes => .put ?_
      unfold Expr.IsInner
      rw [Expr.sourceNames, hf, hes]
      rfl
    unfold privateStep
    dsimp only
    split
    · exact .pure rfl
    · exact .pure rfl
    · split
      · split
        · exact same rfl
        · exact inner_homOperation ht
      · split
        · split
          · rename_i h
            exact same (by rw [Expr.namesEnum, h]; rfl)
          · exact .throw
        · exact inner_privateCall
  | tuple i es => exact (inner_args ht es).bind fun _ h => .put h
  | cast i type arg b => exact (ht arg).bind fun _ h => .put h
  | new i args => exact (inner_args ht args).bind fun _ h => .put h
  | operator | boolLit | numLit | arrayLit | all => exact .pure rfl

theorem bounded_inner (n : Nat) : (bounded n).Inner := by
  induction n with
  | zero => exact fun _ => .throw
  | succ n ih => exact inner_privateStep ih

end Splitter

end Shroud
