import Shroud.Analysis.Alias

/-!
# Owners of locations

A location belongs to the owner its declared type names. Parts of a mapping with a key label belong to
their key.
-/

namespace Shroud

/-- Who owns a location. `unsettled` is the owner of a part of a mapping whose key is not known. -/
inductive LocOwner where
  | label (l : Option Label)
  | unsettled
  deriving DecidableEq

/-- The owner a type names. -/
def AnnTy.locOwner (t : AnnTy) : LocOwner :=
  match t.privacy with
  | .ident _ _ (some (.keyLabel _ none)) | .ident _ _ none => .unsettled
  | p => .label p.label?

/-- The owner of a location: of a mapping with a key label the key itself, else the one its type names. -/
def Loc.owner (symbols : Symbols) (l : Loc) : LocOwner :=
  match symbols.type? l.target with
  | none => .unsettled
  | some t =>
    match l.key, t.type with
    | some k, .mapping _ _ _ _ =>
      match t.sourceType.type with
      | .mapping _ _ (some _) _ =>
        match k with
        | .keyword label => .label (some label)
        | .index _ label => .label label
        | .member _ _ => .unsettled
      | .mapping _ _ none v => v.locOwner
      | _ => .unsettled
    | _, _ => t.sourceType.locOwner

/-- The location is known to belong to the sender. -/
def Loc.isMine (symbols : Symbols) (k : Option Knowledge) (l : Loc) : Bool :=
  match k, l.owner symbols with
  | some k, .label (some o) => k.same o .me
  | _, _ => false

end Shroud
