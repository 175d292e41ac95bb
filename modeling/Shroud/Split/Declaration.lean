import Shroud.Options
import Shroud.Syntax.Copy

/-!
# Declarations of public code

Public code stores ciphertexts in place of private values. The type of a private variable is therefore
replaced by the type of its ciphertexts; the source type stays known next to it.
-/

namespace Shroud

mutual

/-- The type with private parts replaced by ciphertexts. -/
def Ty.encrypted (o : Options) : Ty → Ty
  | .mapping i k l v => .mapping i k l (v.encrypted o)
  | .array v n => .array (v.encrypted o) n
  | t => t

def AnnTy.encrypted (o : Options) : AnnTy → AnnTy
  | ⟨t, p, h, a, d⟩ =>
    let source : AnnTy := ⟨t, p, h, a, d⟩
    if source.isPrivate then .cipherOf source (o.backend h)
    else { AnnTy.plain (t.encrypted o) with declared := some source }

end

/-- Keywords that only the source has are dropped. -/
def withoutKeywords (dropped keywords : List String) : List String := keywords.filter fun k => !dropped.contains k

def LocalVar.encrypted (o : Options) (v : LocalVar) : LocalVar :=
  { v with
    keywords := withoutKeywords ["final"] v.keywords
    type := v.type.encrypted o
    storage := if v.type.isPrivate then some "memory" else v.storage }

def Param.encrypted (o : Options) (p : Param) : Param :=
  let type := p.type.encrypted o
  { p with
    keywords := withoutKeywords ["final"] p.keywords
    type := type
    source := some p.type
    storage := if type.type.isPrimitive then p.storage else some "memory" }

/-- State is read through public getters. -/
def StateVar.encrypted (o : Options) (v : StateVar) : StateVar :=
  { v with
    keywords := withoutKeywords ["final", "public"] v.keywords ++ ["public"]
    type := v.type.encrypted o }

/-- A variable with its usual place of storage. -/
def LocalVar.stored (id : Nat) (type : AnnTy) (name : String) : LocalVar :=
  ⟨id, [], type, name, some (if type.type.isPrimitive then "" else "memory")⟩

/-- A parameter of generated code. -/
def Param.generated (id : Nat) (type : AnnTy) (name storage : String) : Param :=
  ⟨id, [], type, some name, some (if type.type.isPrimitive then "" else storage), some type⟩

/-- The array of words that circuit values are handed over in. -/
def wordArray : Ty := .array .publicUint none

end Shroud
