import Shroud.Homomorphism

/-!
# Encryption backends

The compiler needs only the sizes of a backend: how many 256-bit words its keys, ciphertexts and
randomness occupy. Sizes are given in bytes and rounded up to whole chunks.

**Symmetric backends** derive the key from the parties' key pairs. Their ciphertexts carry one extra word
with the sender's public key, and they need no randomness of their own.
-/

namespace Shroud

/-- The supported encryption backends, in the order in which they are listed to the user. -/
inductive Backend where
  | dummy
  | dummyHom
  | rsaOaep
  | rsaPkcs
  | ecdhAes
  | ecdhChaskey
  | paillier
  | elgamal
  deriving DecidableEq, Repr, Inhabited

/-- Static sizes of a backend, in bytes unless noted. -/
structure BackendSizes where
  keyBits : Nat
  payloadBytes : Nat
  chunkBytes : Nat
  symmetric : Bool
  rndBytes : Nat
  rndChunkBytes : Nat
  signedAsUnsigned : Bool
  homs : List Hom
  deriving DecidableEq, Repr

namespace Backend

def all : List Backend :=
  [.dummy, .dummyHom, .rsaOaep, .rsaPkcs, .ecdhAes, .ecdhChaskey, .paillier, .elgamal]

theorem mem_all (b : Backend) : b ∈ all := by cases b <;> decide

def name : Backend → String
  | .dummy => "dummy"
  | .dummyHom => "dummy-hom"
  | .rsaOaep => "rsa-oaep"
  | .rsaPkcs => "rsa-pkcs1.5"
  | .ecdhAes => "ecdh-aes"
  | .ecdhChaskey => "ecdh-chaskey"
  | .paillier => "paillier"
  | .elgamal => "elgamal"

/-- The backend with this name. -/
def ofName? (s : String) : Option Backend := all.find? (·.name == s)

def sizes : Backend → BackendSizes
  | .dummy => ⟨248, 31, 31, false, 31, 31, true, [.nonHomomorphic]⟩
  | .dummyHom => ⟨248, 32, 32, false, 32, 32, false, [.nonHomomorphic, .additive]⟩
  | .rsaOaep => ⟨2048, 256, 29, false, 32, 16, true, [.nonHomomorphic]⟩
  | .rsaPkcs => ⟨2048, 256, 29, false, 221, 28, true, [.nonHomomorphic]⟩
  | .ecdhAes => ⟨253, 48, 24, true, 0, 0, true, [.nonHomomorphic]⟩
  | .ecdhChaskey => ⟨253, 48, 24, true, 0, 0, true, [.nonHomomorphic]⟩
  | .paillier => ⟨320, 80, 15, false, 40, 15, false, [.nonHomomorphic, .additive]⟩
  | .elgamal => ⟨506, 128, 32, false, 32, 32, false, [.additive]⟩

/-- Chunks of size `c` needed for `n` bytes. -/
def chunks (n c : Nat) : Nat := (n + (c - 1)) / c

def symmetric (b : Backend) : Bool := b.sizes.symmetric

/-- Words of a public key. -/
def keyLen (b : Backend) : Nat :=
  if b.symmetric then 1 else chunks (b.sizes.keyBits / 8) b.sizes.chunkBytes

/-- Words of the encryption randomness. -/
def randomnessLen (b : Backend) : Nat :=
  if b.symmetric then 0 else chunks b.sizes.rndBytes b.sizes.rndChunkBytes

/-- Words of a ciphertext that enter a circuit. -/
def payloadLen (b : Backend) : Nat := chunks b.sizes.payloadBytes b.sizes.chunkBytes

/-- Words of a stored ciphertext. -/
def cipherLen (b : Backend) : Nat := if b.symmetric then b.payloadLen + 1 else b.payloadLen

/-- The backends able to encrypt values of this homomorphism. -/
def supporting (h : Hom) : List Backend := all.filter fun b => b.sizes.homs.contains h

/-- Capitalise the first letter of every run of letters and put the others in lower case. -/
def titleCase : Bool → List Char → List Char
  | _, [] => []
  | inWord, c :: cs =>
    if c.isAlpha then (if inWord then c.toLower else c.toUpper) :: titleCase true cs
    else c :: titleCase false cs

/-- The backend's name as part of an identifier: foreign characters become underscores, words are
capitalised. -/
def identifier (b : Backend) : String :=
  let plain := b.name.toList.map fun c =>
    if c.isAlphanum || c == '$' || c == '_' then c else '_'
  String.ofList (titleCase false plain)

theorem ofName?_name (b : Backend) : ofName? b.name = some b := by cases b <;> decide

end Backend

end Shroud
