import PnyxDB.Consensus.Structures

/-!
The keyring of `keyring/` (`keyring.go` and `web.go`): the public keys of the members with their
local trust and the signatures they made on each other, and the web of trust `buildTrustWeb`
computes from them.

Maps are functions; a loop over a Go map takes the order it visits the map in as an argument. Keys
are pointers in the Go code, shared by the map and the queue of `buildTrustWeb`; every key is stored
under its own identity, so here a key is named by its identity. The crypto engine is a parameter:
`Validate` and `Verify` as functions, `Sign` with the unlocked private key as `sign`, which fails
when the keyring is locked.
-/

namespace PnyxDB.Keyring

open PnyxDB.Consensus (Bytes)

/-! ### Trust levels -/

/-- `TrustLevel`, a byte. -/
abbrev TrustLevel := UInt8

def trustNONE : TrustLevel := 0x00
def trustLOW : TrustLevel := 0x01
def trustHIGH : TrustLevel := 0x03
def trustULTIMATE : TrustLevel := 0xff

/-- `TrustThreshold`, the level from which an identity is trusted. -/
def trustThreshold : TrustLevel := trustHIGH

/-- `TrustLevel.Min`. -/
def TrustLevel.min (t t2 : TrustLevel) : TrustLevel := if t < t2 then t else t2

/-- `TrustLevel.Add`: the sum, saturated at `TrustThreshold`, or `TrustULTIMATE` if either is. -/
def TrustLevel.add (t t2 : TrustLevel) : TrustLevel :=
  if t = trustULTIMATE ∨ t2 = trustULTIMATE then trustULTIMATE
  else if t ≥ trustThreshold ∨ t2 ≥ trustThreshold then trustThreshold
  else t + t2

/-- `ParseTrust`, whose error `importUnsafe` ignores: the level named, `TrustNONE` otherwise. -/
def parseTrust (trust : String) : TrustLevel :=
  match trust.toLower with
  | "none" => trustNONE
  | "low" => trustLOW
  | "high" => trustHIGH
  | "ultimate" => trustULTIMATE
  | _ => trustNONE

/-! ### Keys and keyrings -/

/-- `Signature`: the signer's signature over the signee's public bytes followed by `trust`. -/
structure Signature where
  data : Bytes
  trust : TrustLevel
  deriving DecidableEq, Repr

/-- `Key`: its public bytes, the signatures it made (by signee), its local trust and the trust the
web of trust computed. The field `signedBy`, read only by `GetSignatures`, is left out. -/
structure Key where
  public : Bytes
  signatures : String → Option Signature
  trust : TrustLevel
  effectiveTrust : TrustLevel

/-- The zero `Key{}`. -/
def Key.zero : Key := ⟨[], fun _ => none, trustNONE, trustNONE⟩

/-- A PEM block, `pem.Block`: its type, its header map and its bytes. The header map is the list of
its entries in the order `pem.Encode` writes them: `Proc-Type` first, then by key. -/
structure PemBlock where
  type : String
  headers : List (String × String)
  bytes : Bytes
  deriving DecidableEq, Repr

/-- `KeyRing`: the keys, the armored (encrypted) private key, if any, and the staleness of the web of
trust. The unlocked private key is left out. -/
structure KeyRing where
  selfIdentity : String
  keys : String → Option Key
  armoredSecret : Option PemBlock
  stale : Bool

/-- The crypto engine: `Validate` and `Verify(public, cleartext, signature)`. -/
structure CryptoEngine where
  validate : Bytes → Bool
  verify : Bytes → Bytes → Bytes → Bool

/-- The errors of the keyring. -/
inductive KeyRingError
  | invalidIdentity
  | invalidPublicKey
  | unknownIdentity (i : String)
  | keyRingLocked
  | invalidSignature
  deriving DecidableEq, Repr

/-- `NewKeyRing(selfIdentity, crypto)`: the self key, trusted ultimately, with no public bytes until
`CreatePrivate`. -/
def newKeyRing (selfIdentity : String) : KeyRing :=
  ⟨selfIdentity, Function.update (fun _ => none) selfIdentity
    (some { Key.zero with trust := trustULTIMATE, effectiveTrust := trustULTIMATE }), none, false⟩

/-- `k.keys[identity] = key`. -/
def KeyRing.setKey (k : KeyRing) (identity : String) (key : Key) : KeyRing :=
  { k with keys := Function.update k.keys identity (some key) }

@[simp] theorem KeyRing.setKey_keys (k : KeyRing) (u v : String) (key : Key) :
    (k.setKey u key).keys v = if v = u then some key else k.keys v := by
  simp only [setKey, Function.update_apply]

/-- `AddPublic(identity, trust, data)`: store the key, resetting the signatures it made if its public
bytes change. -/
def KeyRing.addPublic (ce : CryptoEngine) (k : KeyRing) (identity : String) (trust : TrustLevel)
    (data : Bytes) : Except KeyRingError KeyRing :=
  if identity = k.selfIdentity then .error .invalidIdentity
  else if !ce.validate data then .error .invalidPublicKey
  else
    let key := (k.keys identity).getD Key.zero
    let key := if key.public = data then key else { key with public := data, signatures := fun _ => none }
    .ok { k.setKey identity { key with trust := trust } with stale := true }

/-- `key.Signatures[identity] = signature`. -/
def Key.setSignature (key : Key) (identity : String) (signature : Signature) : Key :=
  { key with signatures := Function.update key.signatures identity (some signature) }

/-- The message a signature covers: the signee's public bytes followed by the trust byte. -/
def signedMessage (public : Bytes) (trust : TrustLevel) : Bytes := public ++ [trust]

/-- `AddSignature(identity, from, signature)`, with `sign` for `k.Sign`: the signature of `signer` on
`identity` is made locally if `signer` is the keyring's own identity, and verified otherwise. -/
def KeyRing.addSignature (ce : CryptoEngine) (sign : Bytes → Option Bytes) (k : KeyRing)
    (identity signer : String) (signature : Signature) : Except KeyRingError KeyRing :=
  match k.keys identity, k.keys signer with
  | none, _ => .error (.unknownIdentity identity)
  | some _, none => .error (.unknownIdentity signer)
  | some key, some signerKey => do
    let signature ← if signer = k.selfIdentity then
        match sign (signedMessage key.public key.trust) with
        | none => .error .keyRingLocked
        | some data => pure ⟨data, key.trust⟩
      else if ce.verify signerKey.public (signedMessage key.public signature.trust) signature.data
      then pure signature
      else .error .invalidSignature
    return { k.setKey signer (signerKey.setSignature identity signature) with stale := true }

/-- `RemovePublic(identity)`. -/
def KeyRing.removePublic (k : KeyRing) (identity : String) : KeyRing :=
  if identity = k.selfIdentity then k
  else { k with keys := Function.update k.keys identity none, stale := true }

/-- A PEM block as `importUnsafe` reads it: the private key block itself; the headers `identity` and
`trust` of a public block with the key its JSON body decodes to, which sets the exported fields
`Public` and `Signatures` of the key, or fails to decode (`none`); any other block. -/
inductive Block
  | privateKey (block : PemBlock)
  | publicKey (identityHeader trustHeader : String) (body : Option (Bytes × (String → Option Signature)))
  | other

/-- `importUnsafe(block, identity, trust)`: a private block becomes the armored private key, unless an
identity other than the keyring's own is given; a public block's key is stored as it comes, its
signatures unverified, under `identity` if given, under its `identity` header otherwise, and under
the keyring's own identity, trusted ultimately, if neither is. -/
def KeyRing.importUnsafe (k : KeyRing) (block : Block) (identity : String) (trust : TrustLevel) :
    Except KeyRingError KeyRing :=
  match block with
  | .privateKey block =>
    if identity ≠ "" ∧ identity ≠ k.selfIdentity then .error .invalidIdentity
    else .ok { k with armoredSecret := some block, stale := true }
  | .other => .ok { k with stale := true }
  | .publicKey id trustHeader body =>
    match body with
    | none => .error .invalidSignature
    | some (public, signatures) =>
      let key : Key := ⟨public, signatures, parseTrust trustHeader, trustNONE⟩
      if identity ≠ "" then
        if id ≠ "" ∧ id ≠ identity then .error .invalidIdentity
        else .ok { k.setKey identity { key with trust := trust } with stale := true }
      else if id = "" then
        .ok { k.setKey k.selfIdentity { key with trust := trustULTIMATE } with stale := true }
      else .ok { k.setKey id key with stale := true }

/-- `Import(data, identity, trust)` of one block. -/
def KeyRing.importKey (k : KeyRing) (block : Block) (identity : String) (trust : TrustLevel) :
    Except KeyRingError KeyRing :=
  if identity = k.selfIdentity ∨ identity = "" then .error .invalidIdentity
  else k.importUnsafe block identity trust

/-- One iteration of `UnmarshalBinary`: a block that fails to import is skipped. -/
def KeyRing.importNext (k : KeyRing) (block : Block) : KeyRing :=
  match k.importUnsafe block "" trustNONE with
  | .ok k' => k'
  | .error _ => k

/-- `UnmarshalBinary`: every block is imported in turn. -/
def KeyRing.unmarshalBinary (k : KeyRing) (blocks : List Block) : KeyRing :=
  blocks.foldl KeyRing.importNext k

/-! ### The web of trust -/

/-- The state of the loop of `buildTrustWeb`: the keys, the queue and the visited identities. -/
structure Web where
  keys : String → Option Key
  queue : List String
  visited : String → Bool

/-- One signature of the dequeued key `current` (whose signatures are `signatures`), on `signee`:
credit the signee with the signature's trust, capped by the current key's effective trust, and
enqueue it the first time it reaches the threshold. -/
def credit (current : String) (signatures : String → Option Signature) (w : Web) (signee : String) :
    Web :=
  match signatures signee, w.keys signee, w.keys current with
  | some signature, some signeeKey, some currentKey =>
    let effectiveTrust :=
      TrustLevel.add signeeKey.effectiveTrust (TrustLevel.min signature.trust currentKey.effectiveTrust)
    let keys := Function.update w.keys signee (some { signeeKey with effectiveTrust })
    if effectiveTrust ≥ trustThreshold ∧ w.visited signee = false then
      ⟨keys, w.queue ++ [signee], Function.update w.visited signee true⟩
    else { w with keys }
  | _, _, _ => w

/-- The queue loop of `buildTrustWeb`, visiting the signatures of each key in the order
`signatureOrder` gives; `fuel` bounds its iterations. -/
def processQueue (signatureOrder : String → List String) : Nat → Web → Option Web
  | _, ⟨keys, [], visited⟩ => some ⟨keys, [], visited⟩
  | 0, _ => none
  | n + 1, ⟨keys, current :: queue, visited⟩ =>
    match keys current with
    | none => processQueue signatureOrder n ⟨keys, queue, visited⟩
    | some currentKey => processQueue signatureOrder n
        ((signatureOrder current).foldl (credit current currentKey.signatures) ⟨keys, queue, visited⟩)

/-- The initial loop of `buildTrustWeb`, visiting the key map in the order `keyOrder`: every
effective trust is reset to the local trust, and the locally trusted keys start the queue. -/
def initialWeb (k : KeyRing) (keyOrder : List String) : Web :=
  let queue := keyOrder.filter fun u => ((k.keys u).map fun key => decide (key.trust ≥ trustThreshold)).getD false
  ⟨fun u => (k.keys u).map fun key => { key with effectiveTrust := key.trust }, queue,
    fun u => decide (u ∈ queue)⟩

/-- `buildTrustWeb()`. -/
def KeyRing.buildTrustWeb (keyOrder : List String) (signatureOrder : String → List String)
    (fuel : Nat) (k : KeyRing) : Option KeyRing :=
  (processQueue signatureOrder fuel (initialWeb k keyOrder)).map fun w =>
    { k with keys := w.keys, stale := false }

/-- `trustedUnsafe(key)`: the effective trust reaches the threshold. -/
def Key.trusted (key : Key) : Bool := decide (key.effectiveTrust ≥ trustThreshold)

/-- `Trusted(identity)` once the web is built: `none` for an unknown identity. -/
def KeyRing.trusted (k : KeyRing) (identity : String) : Option Bool := (k.keys identity).map Key.trusted

end PnyxDB.Keyring
