import Shroud.Datum.Reader
import Shroud.Diagnostic.Error
import Shroud.Generated

/-!
# Compiler options

Options are checked when they are set; an illegal value is refused and leaves the option as it was. Behind an
option stands a slot of the same name with an underscore in front, which takes any value.

**Sequences of settings** are applied one after the other, so those before an illegal one stay.

**Other names** can be given values too. Some of them have a meaning: the proof systems to choose from, the
options that are exported, and the mark of generated names.
-/

namespace Shroud

/-- The options of the compiler. A backend is absent if the slot of the backends was emptied; `extra` holds
values that were stored under other names. -/
structure Options where
  provingScheme : Datum
  mainBackend : Option Backend
  additiveBackend : Option Backend
  foldConstants : Datum
  cacheInputs : Datum
  cacheOutputs : Datum
  verbosity : Datum
  quiet : Datum
  extra : List (String × Datum)

namespace Options

/-- The options that are used unless others are set. -/
def default : Options :=
  { provingScheme := .text "groth16", mainBackend := some .ecdhAes, additiveBackend := some .paillier
    foldConstants := .bool true, cacheInputs := .bool true, cacheOutputs := .bool true
    verbosity := .int 1, quiet := .bool false, extra := [] }

instance : Inhabited Options := ⟨default⟩

/-- The backend that was chosen for values of a homomorphism. -/
def chosen? (o : Options) : Hom → Option Backend
  | .nonHomomorphic => o.mainBackend
  | .additive => o.additiveBackend

/-- The backend for values of a homomorphism. -/
def backend (o : Options) (h : Hom) : Backend :=
  (o.chosen? h).getD (match h with
    | .nonHomomorphic => .ecdhAes
    | .additive => .paillier)

/-- The name of the chosen backend. -/
def backendName (o : Options) (h : Hom) : Except Error String :=
  match o.chosen? h with
  | some b => .ok b.name
  | none => .error (.missing h.mark)

/-- The directive at the start of generated code. -/
def pragma : String := "pragma solidity ^0.6.0;"

/-- The options that affect generated code. -/
def compilerSettings : List String :=
  ["proving_scheme", "main_crypto_backend", "addhom_crypto_backend", "opt_eval_constexpr_in_circuit",
   "opt_cache_circuit_inputs", "opt_cache_circuit_outputs"]

/-- All options that can be set. -/
def settable : List String := compilerSettings ++ ["log_dir", "verbosity", "is_unit_test"]

/-- A value stored under a name, or the usual one. -/
def storedOr (o : Options) (name : String) (usual : Datum) : Datum := (o.extra.lookup name).getD usual

/-- The proof systems that generated contracts can be meant for. -/
def provingSchemes (o : Options) : Datum :=
  o.storedOr "proving_schemes" (.list [.text "groth16", .text "gm17"])

/-- The options that are exported. -/
def exported (o : Options) : Datum :=
  o.storedOr "compiler_settings" (.list (compilerSettings.map Datum.text))

/-- How generated code is named. -/
def naming (o : Options) : Naming :=
  ⟨(o.storedOr "reserved_name_prefix" (.text Naming.standard.mark)).inText⟩

/-! ## Setting -/

/-- The value has to be among the legal ones. -/
def requireChoice (v legal : Datum) : Except Error Unit :=
  match legal.holdsItem? v with
  | some true => .ok ()
  | some false => .error (.badValue (.illegalChoice v legal))
  | none => .error .undefinedState

/-- A truth value. -/
def requireFlag (v : Datum) : Except Error Unit :=
  match v with
  | .bool _ => .ok ()
  | v => .error (.badValue (.illegalType v "bool"))

/-- Choose the backend for values of a homomorphism. -/
def setBackend (o : Options) (h : Hom) (v : Datum) : Except Error Options := do
  requireChoice v (.list ((Backend.supporting h).map fun b => .text b.name))
  let b := Backend.ofName? v.inText
  return match h with
    | .nonHomomorphic => { o with mainBackend := b }
    | .additive => { o with additiveBackend := b }

/-- Put a value under a name that has no meaning of its own. -/
def store (o : Options) (name : String) (v : Datum) : Options :=
  { o with extra := Datum.setEntry o.extra name v }

/-- The directory of the logs is a path. -/
def setLogDir (o : Options) (v : Datum) : Except Error Options :=
  match v with
  | .text s =>
    if s.toList.contains (Char.ofNat 0) then .error (.badValue .brokenPath) else .ok (o.store "_log_dir" v)
  | v => .error (.badValue (.illegalType v "str"))

/-- Fixed names that depend on the mark of generated names, and the versions; they cannot be set. -/
def fixed (o : Options) : List (String × Datum) :=
  let n := o.naming
  [("zkay_version", .text "0.3.0"), ("pragma_directive", .text pragma), ("zk_in_name", .text n.inputs),
   ("zk_out_name", .text n.outputs), ("proof_param_name", .text n.proof),
   ("return_var_name", .text n.returned), ("zk_struct_prefix", .text n.data),
   ("zk_data_var_name", .text n.data)]

/-- Set one option or slot. Values under unknown names are just kept. -/
def set (o : Options) (name : String) (v : Datum) : Except Error Options :=
  match name with
  | "proving_scheme" => do
    requireChoice v o.provingSchemes
    return { o with provingScheme := v }
  | "_proving_scheme" => .ok { o with provingScheme := v }
  | "main_crypto_backend" => o.setBackend .nonHomomorphic v
  | "addhom_crypto_backend" => o.setBackend .additive v
  | "_backend_for" =>
    match v with
    | .object es => .ok { o.store name (.object es) with mainBackend := none, additiveBackend := none }
    | _ => .error .undefinedState
  | "opt_eval_constexpr_in_circuit" => do
    requireFlag v
    return { o with foldConstants := v }
  | "_opt_eval_constexpr_in_circuit" => .ok { o with foldConstants := v }
  | "opt_cache_circuit_inputs" => do
    requireFlag v
    return { o with cacheInputs := v }
  | "_opt_cache_circuit_inputs" => .ok { o with cacheInputs := v }
  | "opt_cache_circuit_outputs" => do
    requireFlag v
    return { o with cacheOutputs := v }
  | "_opt_cache_circuit_outputs" => .ok { o with cacheOutputs := v }
  | "log_dir" => o.setLogDir v
  | "verbosity" =>
    match v with
    | .int _ | .bool _ => .ok { o with verbosity := v }
    | v => .error (.badValue (.illegalType v "int"))
  | "_verbosity" => .ok { o with verbosity := v }
  | "is_unit_test" | "_is_unit_test" => .ok { o with quiet := v }
  | name => if (o.fixed.lookup name).isSome then .error .undefinedState else .ok (o.store name v)

/-- Set options in order. The options set before a failure stay set. -/
def setAll (step : Options → String × Datum → Except Error Options) (o : Options) :
    List (String × Datum) → Options × Except Error Unit
  | [] => (o, .ok ())
  | e :: es =>
    match step o e with
    | .error error => (o, .error error)
    | .ok o => setAll step o es

/-- Set options by name, refusing names that stand for no option. -/
def override (o : Options) (entries : List (String × Datum)) : Options × Except Error Unit :=
  o.setAll (fun o (name, v) =>
    if !settable.contains name then .error (.badValue (.unknownSetting name))
    else match o.set name v with
      | .error (.badValue b) => .error (.badValue (.inEntry b name))
      | r => r) entries

/-- Take over settings that were exported before. -/
def importSettings (o : Options) (entries : List (String × Datum)) : Options × Except Error Unit :=
  match entries.find? fun e => o.exported.holdsItem? (.text e.1) != some true with
  | some (name, _) => (o, .error (.missing ("vals contains unknown option \"" ++ name ++ "\"")))
  | none => o.setAll (fun o (name, v) => o.set name v) entries

/-- Take over the settings of a file. -/
def load (o : Options) (text : Option String) : Options × Except Error Unit :=
  match text with
  | none => (o, .ok ())
  | some s =>
    match Datum.read? s with
    | some (.object es) => o.override es
    | some _ => (o, .error .undefinedState)
    | none => (o, .error (.badValue .unreadableSettings))

/-! ## Reading -/

/-- The slots that stand behind options, and the options without a check of their own. -/
def slots (o : Options) : List (String × Datum) :=
  [("proving_scheme", o.provingScheme), ("opt_eval_constexpr_in_circuit", o.foldConstants),
   ("opt_cache_circuit_inputs", o.cacheInputs), ("opt_cache_circuit_outputs", o.cacheOutputs),
   ("verbosity", o.verbosity), ("is_unit_test", o.quiet)] ++
  ((o.extra.lookup "_log_dir").map fun v => ("log_dir", v)).toList

/-- The names with a usual value that can be given another one. -/
def changeable (o : Options) : List (String × Datum) :=
  [("proving_schemes", o.provingSchemes), ("compiler_settings", o.exported),
   ("reserved_name_prefix", o.storedOr "reserved_name_prefix" (.text Naming.standard.mark)),
   ("verification_function_name", .text Generated.verify)]

/-- The value of an option, a slot or another name. -/
def get (o : Options) (name : String) : Except Error Datum :=
  match name with
  | "main_crypto_backend" => do return .text (← o.backendName .nonHomomorphic)
  | "addhom_crypto_backend" => do return .text (← o.backendName .additive)
  | name =>
    let behind := o.slots.map fun (n, v) => ("_" ++ n, v)
    match (o.extra ++ o.slots ++ behind ++ o.fixed ++ o.changeable).lookup name with
    | some v => .ok v
    | none => .error .undefinedState

/-- The options that are exported, with their values. -/
def settings (o : Options) : Except Error (List (String × Datum)) := do
  let names ← (match o.exported with
    | .list xs => xs.mapM fun
      | .text n => .ok n
      | _ => .error Error.undefinedState
    | .object es => .ok (es.map (·.1))
    | .text s => .ok (s.toList.map fun c => String.ofList [c])
    | _ => .error .undefinedState)
  names.mapM fun n => do return (n, ← o.get n)

/-! ## Printing -/

/-- Is text of this level printed? -/
def prints (o : Options) (level : Datum) : Bool :=
  !o.quiet.holds && decide (level.number?.getD 0 ≤ o.verbosity.number?.getD 0)

/-- What is printed for some words on a line of their own. -/
def printed (o : Options) (level : Datum) (words : List Datum) : String :=
  if o.prints level then " ".intercalate (words.map Datum.inText) ++ "\n" else ""

end Options

end Shroud
