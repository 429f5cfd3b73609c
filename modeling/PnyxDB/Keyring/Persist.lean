import PnyxDB.Keyring.Pem
import PnyxDB.Keyring.Fixpoint
import PnyxDB.Keyring.Operations
import Mathlib.Data.String.Basic
import Mathlib.Logic.Equiv.List

/-!
`MarshalBinary` and `UnmarshalBinary` of the keyring (`keyring/keyring.go`): the keyring saved as
PEM text, and read back into a fresh `NewKeyRing`. `MarshalBinary` writes the armored private key,
then `exportUnsafe` of every key: its JSON, with the headers `identity` and `trust`, or with no
header for the keyring's own key. `UnmarshalBinary` imports the blocks in turn with
`importUnsafe(block, "", 0)`, which files a public block under its `identity` header, or under the
keyring's own identity, trusted ultimately, when that header is missing or empty. JSON is a
parameter (`KeyJson`), as base64 is.

* `unmarshalBinaryText_encoded` — on a text of encoded blocks, the loop of `UnmarshalBinary` imports
  the blocks `Decode` reads back: it is `KeyRing.unmarshalBinary` over them.
* `unmarshal_marshal_restores` — when every identity is one line without white space at its ends, a
  keyring saved and read back has the same keys (public bytes, signatures and local trust under
  the same identities), the same armored private key and the same trusted identities.
* `unmarshal_marshal_trims_identity` — `Decode` trims the `identity` header, so a key stored under
  `bob `, with a trailing space, comes back under `bob`.
-/

namespace PnyxDB.Keyring

open PnyxDB.Consensus (Bytes)

/-- `encoding/json` on a `Key`: `marshal` writes its exported fields `Public` and `Signatures`, the
entries of the signature map in the order given; `unmarshal` reads them back, or fails. -/
structure KeyJson where
  marshal : Bytes → List (String × Signature) → Bytes
  unmarshal : Bytes → Option (Bytes × List (String × Signature))

/-- A JSON codec reads back what it writes. -/
def KeyJson.Exact (json : KeyJson) : Prop :=
  ∀ public entries, json.unmarshal (json.marshal public entries) = some (public, entries)

def pemPublicType : String := "PNYXDB PUBLIC KEY"
def pemPrivateType : String := "PNYXDB PRIVATE KEY"

/-- `TrustLevel.String()`: the name of a named level, the decimal value of any other. -/
def TrustLevel.string (t : TrustLevel) : String :=
  if t = trustNONE then "none" else if t = trustLOW then "low" else if t = trustHIGH then "high"
  else if t = trustULTIMATE then "ultimate" else toString t.toNat

/-- The four levels `TrustLevel.String` names. -/
def TrustLevel.Named (t : TrustLevel) : Prop :=
  t = trustNONE ∨ t = trustLOW ∨ t = trustHIGH ∨ t = trustULTIMATE

/-- The entries of a key's signature map, in the order `order` visits it. -/
def Key.signatureEntries (key : Key) (order : List String) : List (String × Signature) :=
  order.filterMap fun u => (key.signatures u).map fun signature => (u, signature)

/-- What `MarshalBinary` saves of a key: its public bytes, its signatures and its local trust. -/
def Key.persisted (key : Key) : Bytes × (String → Option Signature) × TrustLevel :=
  (key.public, key.signatures, key.trust)

/-- The block `importUnsafe` reads from a decoded PEM block: a private key block as it is; the
`identity` and `trust` headers, empty when missing, and the key `json.Unmarshal` reads from the
bytes of a public key block; nothing of another block. -/
def Block.ofPem (json : KeyJson) (b : PemBlock) : Block :=
  if b.type = pemPrivateType then .privateKey b
  else if b.type = pemPublicType then
    .publicKey ((b.header "identity").getD "") ((b.header "trust").getD "")
      ((json.unmarshal b.bytes).map fun r => (r.1, mapValue r.2))
  else .other

/-- `x509.EncryptPEMBlock(rand, blockType, data, password, PEMCipherAES256)`: `dekInfo` names the
cipher and the IV drawn from `rand`, and `encrypt` is the encryption of the padded data under the
key derived from the password. -/
def encryptPEMBlock (dekInfo : String) (encrypt : Bytes → Bytes) (blockType : String)
    (data : Bytes) : PemBlock :=
  ⟨blockType, [("Proc-Type", "4,ENCRYPTED"), ("DEK-Info", dekInfo)], encrypt data⟩

namespace KeyRing

/-- `CreatePrivate(password)`: `generate` is the key pair `Generate` returns; its public half
becomes the keyring's own public key, and its private half the armored private key, through
`armor` (`x509.EncryptPEMBlock` under the password). `none` when the keyring has no key of its
own, whose nil key Go dereferences. -/
def createPrivate (generate : Bytes × Bytes) (armor : String → Bytes → PemBlock) (k : KeyRing) :
    Option KeyRing :=
  (k.keys k.selfIdentity).map fun selfKey =>
    { k.setKey k.selfIdentity { selfKey with public := generate.1 } with
      armoredSecret := some (armor pemPrivateType generate.2) }

/-- The block `exportUnsafe(identity)` encodes for the key `key`: its JSON, of type
`PNYXDB PUBLIC KEY`, with the headers `identity` and `trust`, except for the keyring's own key. -/
def exportBlock (json : KeyJson) (signatureOrder : String → List String) (k : KeyRing)
    (identity : String) (key : Key) : PemBlock :=
  ⟨pemPublicType,
    if identity = k.selfIdentity then [] else [("identity", identity), ("trust", key.trust.string)],
    json.marshal key.public (key.signatureEntries (signatureOrder identity))⟩

/-- `exportUnsafe(identity)`: `none` for an identity without a key, whose nil key Go dereferences. -/
def exportUnsafe (json : KeyJson) (b64 : Base64) (signatureOrder : String → List String)
    (k : KeyRing) (identity : String) : Option (List Char) :=
  (k.keys identity).map fun key => Pem.encodeToMemory b64 (k.exportBlock json signatureOrder identity key)

/-- `MarshalBinary()`, visiting the key map in the order `keyOrder`: the armored private key, then
every key; `none` without an armored private key, whose nil block `pem.EncodeToMemory`
dereferences. -/
def marshalBinary (json : KeyJson) (b64 : Base64) (keyOrder : List String)
    (signatureOrder : String → List String) (k : KeyRing) : Option (List Char) :=
  k.armoredSecret.map fun secret =>
    Pem.encodeToMemory b64 secret ++ (keyOrder.filterMap (k.exportUnsafe json b64 signatureOrder)).flatten

/-- The loop of `UnmarshalBinary` from `buffer`: `importUnsafe(buffer, "", 0)` until the buffer is
empty or `pem.Decode` finds no block (`io.EOF`); a block that fails to import is skipped. A block
consumes at least one character, so the length of the text bounds the iterations. -/
def unmarshalLoop (json : KeyJson) (b64 : Base64) : Nat → KeyRing → List Char → KeyRing
  | 0, k, _ => k
  | fuel + 1, k, buffer =>
    if buffer = [] then k
    else match Pem.decode b64 buffer with
      | (none, _) => k
      | (some block, remaining) =>
        unmarshalLoop json b64 fuel (k.importNext (Block.ofPem json block)) remaining

/-- `UnmarshalBinary(data)`, which returns `nil` whatever it reads. -/
def unmarshalBinaryText (json : KeyJson) (b64 : Base64) (k : KeyRing) (data : List Char) : KeyRing :=
  unmarshalLoop json b64 data.length k data

end KeyRing

/-! ### Reading encoded blocks -/

theorem encodeToMemory_ne_nil (b64 : Base64) {b : PemBlock} (hr : b.Readable) :
    Pem.encodeToMemory b64 b ≠ [] := by
  simp [Pem.encodeToMemory_eq b64 hr.key_colon, Pem.pemStart]

namespace KeyRing

variable {json : KeyJson} {b64 : Base64}

theorem unmarshalLoop_encoded (hb : b64.Exact) :
    ∀ (bs : List PemBlock) (fuel : Nat) (k : KeyRing), (∀ b ∈ bs, b.Readable) → bs.length ≤ fuel →
      unmarshalLoop json b64 fuel k (bs.flatMap (Pem.encodeToMemory b64)) =
        k.unmarshalBinary (bs.map fun b => Block.ofPem json b.trimHeaders)
  | [], 0, _, _, _ => rfl
  | [], _ + 1, _, _, _ => by simp [unmarshalLoop, unmarshalBinary]
  | b :: bs, fuel + 1, k, hr, hf => by
    have hb0 := hr b (List.mem_cons_self _ _)
    rw [List.flatMap_cons, unmarshalLoop, if_neg (by simp [encodeToMemory_ne_nil b64 hb0]),
      Pem.decode_encodeToMemory hb hb0]
    exact unmarshalLoop_encoded hb bs fuel _ (fun b h => hr b (List.mem_cons_of_mem _ h))
      (by simpa using hf)

/-- On a text of encoded blocks, `UnmarshalBinary` imports the blocks `Decode` reads back. -/
theorem unmarshalBinaryText_encoded (hb : b64.Exact) {bs : List PemBlock} (hr : ∀ b ∈ bs, b.Readable)
    (k : KeyRing) : k.unmarshalBinaryText json b64 (bs.flatMap (Pem.encodeToMemory b64)) =
      k.unmarshalBinary (bs.map fun b => Block.ofPem json b.trimHeaders) := by
  refine unmarshalLoop_encoded hb bs _ k hr ?_
  clear k
  induction bs with
  | nil => exact Nat.zero_le _
  | cons b bs ih =>
    have := List.length_pos.mpr (encodeToMemory_ne_nil b64 (hr b (List.mem_cons_self _ _)))
    simp only [List.flatMap_cons, List.length_append, List.length_cons]
    have := ih fun b h => hr b (List.mem_cons_of_mem _ h)
    omega

end KeyRing

/-! ### What `UnmarshalBinary` files for each block -/

/-- An identity that `MarshalBinary` writes in a header `Decode` reads back as it is: one line, not
empty, without white space at either end. -/
def HeaderSafe (identity : String) : Prop :=
  identity ≠ "" ∧ '\n' ∉ identity.toList ∧ Pem.trimSpace identity.toList = identity.toList

theorem lookup_filterMap {α : Type} (f : String → Option α) (u : String) :
    ∀ order : List String, (order.filterMap fun v => (f v).map fun s => (v, s)).lookup u =
      if u ∈ order then f u else none
  | [] => rfl
  | v :: order => by
    have ih := lookup_filterMap f u order
    by_cases huv : u = v
    · subst huv
      cases hf : f u <;> simp [hf, ih]
    · have hne : (u == v) = false := by simpa using huv
      cases hf : f v <;> simp [hf, huv, ih, List.lookup_cons, hne]

/-- Read back into a Go map, the entries JSON wrote for a signature map are the map. -/
theorem mapValue_signatureEntries (key : Key) {order : List String}
    (h : ∀ u, (key.signatures u).isSome → u ∈ order) :
    mapValue (key.signatureEntries order) = key.signatures := by
  funext u
  rw [mapValue, Key.signatureEntries, ← List.filterMap_reverse, lookup_filterMap]
  simp only [List.mem_reverse]
  split_ifs with hu
  · rfl
  · cases hk : key.signatures u
    · rfl
    · exact absurd (h u (by simp [hk])) hu

theorem TrustLevel.parseTrust_string {t : TrustLevel} (h : t.Named) :
    parseTrust ⟨Pem.trimSpace t.string.toList⟩ = t := by
  rcases h with rfl | rfl | rfl | rfl <;> simp only [parseTrust, String.toLower, String.map_eq] <;>
    decide

theorem TrustLevel.string_newline {t : TrustLevel} (h : t.Named) : '\n' ∉ t.string.toList := by
  rcases h with rfl | rfl | rfl | rfl <;> decide

namespace KeyRing

variable {json : KeyJson} {b64 : Base64} {signatureOrder : String → List String} {k : KeyRing}

/-- The key `UnmarshalBinary` files for the key `key` of `identity` that `MarshalBinary` wrote: its
public bytes and signatures, with its local trust, or `TrustULTIMATE` for the keyring's own key. -/
def restoredKey (signatureOrder : String → List String) (k : KeyRing) (identity : String)
    (key : Key) : Key :=
  ⟨key.public, mapValue (key.signatureEntries (signatureOrder identity)),
    if identity = k.selfIdentity then trustULTIMATE else key.trust, trustNONE⟩

theorem exportBlock_readable {identity : String} (key : Key)
    (h : identity ≠ k.selfIdentity → '\n' ∉ identity.toList ∧ key.trust.Named) :
    (k.exportBlock json signatureOrder identity key).Readable := by
  have h1 : '\n' ∉ pemPublicType.toList := by decide
  have h2 : ':' ∉ pemPublicType.toList := by decide
  unfold exportBlock
  split_ifs with hs
  · exact ⟨h1, h2, by simp, by simp, by simp⟩
  · obtain ⟨hn, ht⟩ := h hs
    have hk : ∀ h ∈ [("identity", identity), ("trust", key.trust.string)],
        '\n' ∉ h.1.toList ∧ ':' ∉ h.1.toList ∧ '\n' ∉ h.2.toList := by
      simp only [List.mem_cons, List.mem_singleton, List.not_mem_nil, or_false]
      rintro _ (rfl | rfl)
      · exact ⟨show '\n' ∉ "identity".toList by decide, show ':' ∉ "identity".toList by decide, hn⟩
      · exact ⟨show '\n' ∉ "trust".toList by decide, show ':' ∉ "trust".toList by decide,
          TrustLevel.string_newline ht⟩
    exact ⟨h1, h2, fun h hh => (hk h hh).1, fun h hh => (hk h hh).2.1, fun h hh => (hk h hh).2.2⟩

/-- The keyring's own key, read back, is filed under the own identity of the keyring it is read
into, trusted ultimately. -/
theorem importNext_exportBlock_self (hj : json.Exact) (key : Key) (k' : KeyRing) :
    k'.importNext (Block.ofPem json (k.exportBlock json signatureOrder k.selfIdentity key).trimHeaders) =
      { k'.setKey k'.selfIdentity (k.restoredKey signatureOrder k.selfIdentity key) with
        stale := true } := by
  unfold KeyJson.Exact at hj
  simp [importNext, importUnsafe, Block.ofPem, exportBlock, PemBlock.trimHeaders, PemBlock.header,
    mapValue, hj, restoredKey, pemPublicType, pemPrivateType]

/-- Another key is filed under its identity as `Decode` reads it back: trimmed. -/
theorem importNext_exportBlock_other (hj : json.Exact) {identity : String}
    (h : identity ≠ k.selfIdentity) (hne : Pem.trimSpace identity.toList ≠ []) {key : Key}
    (ht : key.trust.Named) (k' : KeyRing) :
    k'.importNext (Block.ofPem json (k.exportBlock json signatureOrder identity key).trimHeaders) =
      { k'.setKey ⟨Pem.trimSpace identity.toList⟩ (k.restoredKey signatureOrder identity key) with
        stale := true } := by
  have hid : (⟨Pem.trimSpace identity.toList⟩ : String) ≠ "" := fun he => hne (congrArg String.data he)
  have hkeys : trimEntry ("identity", identity) = ("identity", ⟨Pem.trimSpace identity.toList⟩) ∧
      trimEntry ("trust", key.trust.string) = ("trust", ⟨Pem.trimSpace key.trust.string.toList⟩) :=
    ⟨Prod.ext (show String.mk (Pem.trimSpace "identity".toList) = "identity" by decide) rfl,
      Prod.ext (show String.mk (Pem.trimSpace "trust".toList) = "trust" by decide) rfl⟩
  have hit : ("identity" == "trust") = false := by decide
  unfold KeyJson.Exact at hj
  have hblock : Block.ofPem json (k.exportBlock json signatureOrder identity key).trimHeaders =
      .publicKey ⟨Pem.trimSpace identity.toList⟩ ⟨Pem.trimSpace key.trust.string.toList⟩
        (some (key.public, mapValue (key.signatureEntries (signatureOrder identity)))) := by
    simp [Block.ofPem, exportBlock, PemBlock.trimHeaders, h, hkeys, PemBlock.header, mapValue,
      List.lookup_cons, hit, hj, pemPublicType, pemPrivateType]
  have hid' : (⟨Pem.trimSpace identity.data⟩ : String) ≠ "" := hid
  have hp : parseTrust ⟨Pem.trimSpace key.trust.string.data⟩ = key.trust := TrustLevel.parseTrust_string ht
  rw [hblock]
  simp [importNext, importUnsafe, hid', hp, restoredKey, h]

theorem importNext_exportBlock (hj : json.Exact) {identity : String} {key : Key}
    (h : identity = k.selfIdentity ∨ HeaderSafe identity ∧ key.trust.Named) {k' : KeyRing}
    (hself : k'.selfIdentity = k.selfIdentity) :
    k'.importNext (Block.ofPem json (k.exportBlock json signatureOrder identity key).trimHeaders) =
      { k'.setKey identity (k.restoredKey signatureOrder identity key) with stale := true } := by
  by_cases hs : identity = k.selfIdentity
  · subst hs
    rw [importNext_exportBlock_self hj, hself]
  · obtain ⟨⟨hne, -, htrim⟩, ht⟩ := h.resolve_left hs
    rw [importNext_exportBlock_other hj hs (by rw [htrim]; exact fun e => hne (String.ext e)) ht, htrim]
    rfl

theorem importNext_ofPem_private {b : PemBlock} (h : b.type = pemPrivateType) (k' : KeyRing) :
    k'.importNext (Block.ofPem json b) = { k' with armoredSecret := some b, stale := true } := by
  simp [importNext, importUnsafe, Block.ofPem, h]

/-- The blocks `MarshalBinary` writes for the keys of the identities that `order` lists. -/
def exportBlocks (json : KeyJson) (signatureOrder : String → List String) (k : KeyRing)
    (order : List String) : List PemBlock :=
  order.filterMap fun u => (k.keys u).map (k.exportBlock json signatureOrder u)

theorem marshalBinary_eq {secret : PemBlock} (hs : k.armoredSecret = some secret)
    (keyOrder : List String) :
    k.marshalBinary json b64 keyOrder signatureOrder =
      some ((secret :: k.exportBlocks json signatureOrder keyOrder).flatMap (Pem.encodeToMemory b64)) := by
  simp [marshalBinary, hs, exportBlocks, List.flatMap, List.map_filterMap]
  rfl

/-- Reading back the blocks `MarshalBinary` wrote for the identities of `order` files each restored
key under its identity, and leaves the rest of the keyring. -/
theorem unmarshalBinary_exportBlocks (hj : json.Exact)
    (hid : ∀ u key, k.keys u = some key → u ≠ k.selfIdentity → HeaderSafe u ∧ key.trust.Named)
    (signatureOrder : String → List String) :
    ∀ (order : List String) (k' k'' : KeyRing), order.Nodup → k'.selfIdentity = k.selfIdentity →
      k'.unmarshalBinary ((k.exportBlocks json signatureOrder order).map fun b =>
        Block.ofPem json b.trimHeaders) = k'' →
      k''.selfIdentity = k.selfIdentity ∧ k''.armoredSecret = k'.armoredSecret ∧
        ∀ v, k''.keys v = if v ∈ order then
          ((k.keys v).map (k.restoredKey signatureOrder v)).or (k'.keys v) else k'.keys v
  | [], k', k'', _, hs, h => by
    subst h
    exact ⟨hs, rfl, fun v => by simp [unmarshalBinary, exportBlocks]⟩
  | u :: order, k', k'', hn, hs, h => by
    obtain ⟨hu, hn⟩ := List.nodup_cons.mp hn
    cases hk : k.keys u with
    | none =>
      have h' : k'.unmarshalBinary ((k.exportBlocks json signatureOrder order).map fun b =>
          Block.ofPem json b.trimHeaders) = k'' := by
        simpa [exportBlocks, hk] using h
      obtain ⟨h1, h2, h3⟩ := unmarshalBinary_exportBlocks hj hid signatureOrder order k' k'' hn hs h'
      refine ⟨h1, h2, fun v => ?_⟩
      rw [h3]
      by_cases hv : v = u
      · subst hv
        simp [hu, hk]
      · simp [hv]
    | some key =>
      have himp : k'.importNext (Block.ofPem json (k.exportBlock json signatureOrder u key).trimHeaders) =
          { k'.setKey u (k.restoredKey signatureOrder u key) with stale := true } :=
        importNext_exportBlock hj ((em (u = k.selfIdentity)).imp_right (hid u key hk)) hs
      have h' : KeyRing.unmarshalBinary { k'.setKey u (k.restoredKey signatureOrder u key) with stale := true }
          ((k.exportBlocks json signatureOrder order).map fun b => Block.ofPem json b.trimHeaders) = k'' := by
        rw [← himp]
        simpa [exportBlocks, hk, unmarshalBinary] using h
      obtain ⟨h1, h2, h3⟩ := unmarshalBinary_exportBlocks hj hid signatureOrder order
        { k'.setKey u (k.restoredKey signatureOrder u key) with stale := true } k'' hn hs h'
      refine ⟨h1, h2, fun v => ?_⟩
      rw [h3]
      by_cases hv : v = u
      · subst hv
        simp [hu, hk]
      · simp [hv]

/-- Saving a keyring and reading the text into `k'` imports the armored private key as `Decode`
reads it back, then the blocks of the keys. -/
theorem unmarshalBinaryText_marshalBinary (hb : b64.Exact) {secret : PemBlock}
    (hs : k.armoredSecret = some secret) (hst : secret.type = pemPrivateType) (hsr : secret.Readable)
    (hexp : ∀ u key, k.keys u = some key → u ≠ k.selfIdentity → '\n' ∉ u.toList ∧ key.trust.Named)
    (json : KeyJson) (keyOrder : List String) (signatureOrder : String → List String) (k' : KeyRing) :
    ∃ text, k.marshalBinary json b64 keyOrder signatureOrder = some text ∧
      k'.unmarshalBinaryText json b64 text =
        KeyRing.unmarshalBinary { k' with armoredSecret := some secret.trimHeaders, stale := true }
          ((k.exportBlocks json signatureOrder keyOrder).map fun b => Block.ofPem json b.trimHeaders) := by
  have hr : ∀ b ∈ secret :: k.exportBlocks json signatureOrder keyOrder, b.Readable := by
    intro b hb'
    rcases List.mem_cons.mp hb' with rfl | hb'
    · exact hsr
    · obtain ⟨u, -, hu⟩ := List.mem_filterMap.mp hb'
      obtain ⟨key, hk, rfl⟩ := Option.map_eq_some'.mp hu
      exact exportBlock_readable key (hexp u key hk)
  refine ⟨_, marshalBinary_eq hs keyOrder, ?_⟩
  rw [unmarshalBinaryText_encoded hb hr, List.map_cons, unmarshalBinary, List.foldl_cons,
    importNext_ofPem_private (by rwa [PemBlock.trimHeaders]), ← unmarshalBinary]

end KeyRing

/-! ### The keyring read back -/

theorem contribution_congr {k k' : KeyRing}
    (h : ∀ u, (k.keys u).map Key.persisted = (k'.keys u).map Key.persisted) (s u : String) :
    k.contribution s u = k'.contribution s u := by
  have := h s
  unfold KeyRing.contribution
  cases hk : k.keys s <;> cases hk' : k'.keys s <;> simp_all [Key.persisted]

/-- Two keyrings with the same persisted keys trust the same identities. -/
theorem KeyRing.Trusted.of_persisted {k k' : KeyRing}
    (h : ∀ u, (k.keys u).map Key.persisted = (k'.keys u).map Key.persisted) {u : String}
    (hu : k.Trusted u) : k'.Trusted u := by
  have hkey : ∀ {v key}, k.keys v = some key → ∃ key', k'.keys v = some key' ∧ key'.trust = key.trust :=
    fun {v key} hv => by
      have := h v
      rw [hv, Option.map_some'] at this
      obtain ⟨key', hk', he⟩ := Option.map_eq_some'.mp this.symm
      exact ⟨key', hk', congrArg (fun p => p.2.2) he⟩
  induction hu with
  | root hk ht =>
    obtain ⟨key', hk', htr⟩ := hkey hk
    exact .root hk' (htr ▸ ht)
  | signed signers hk hn _ hc ih =>
    obtain ⟨key', hk', htr⟩ := hkey hk
    refine .signed signers hk' hn ih ?_
    simpa only [contribution_congr h, htr] using hc

/-- Saving a keyring with `MarshalBinary` and reading it back with `UnmarshalBinary` into
`NewKeyRing` of its identity restores its armored private key, and every key under its identity
with its public bytes, signatures and local trust, so that the same identities are trusted, when
every other identity is one line without white space at its ends and every other local trust is a
named level. The codecs read back what they write, the orders visit the key map and each signature
map, and the keyring's own key is trusted ultimately, as in every keyring `NewKeyRing` starts. -/
theorem unmarshal_marshal_restores {json : KeyJson} {b64 : Base64} (hj : json.Exact)
    (hb : b64.Exact) {k : KeyRing} {keyOrder : List String} {signatureOrder : String → List String}
    (hko : k.IsKeyOrder keyOrder) (hso : k.SignatureOrders signatureOrder) {secret : PemBlock}
    (hs : k.armoredSecret = some secret) (hst : secret.type = pemPrivateType)
    (hsr : secret.Readable) (hsh : secret.trimHeaders = secret) {selfKey : Key}
    (hself : k.keys k.selfIdentity = some selfKey) (hselft : selfKey.trust = trustULTIMATE)
    (hid : ∀ u key, k.keys u = some key → u ≠ k.selfIdentity → HeaderSafe u ∧ key.trust.Named) :
    ∃ text, k.marshalBinary json b64 keyOrder signatureOrder = some text ∧
      ((newKeyRing k.selfIdentity).unmarshalBinaryText json b64 text).armoredSecret = some secret ∧
      (∀ u, (((newKeyRing k.selfIdentity).unmarshalBinaryText json b64 text).keys u).map
        Key.persisted = (k.keys u).map Key.persisted) ∧
      ∀ u, ((newKeyRing k.selfIdentity).unmarshalBinaryText json b64 text).Trusted u ↔ k.Trusted u := by
  obtain ⟨text, htext, hread⟩ := KeyRing.unmarshalBinaryText_marshalBinary hb hs hst hsr
    (fun u key hk hu => ⟨(hid u key hk hu).1.2.1, (hid u key hk hu).2⟩) json keyOrder signatureOrder
    (newKeyRing k.selfIdentity)
  obtain ⟨-, hsec, hkeys⟩ := KeyRing.unmarshalBinary_exportBlocks hj hid signatureOrder keyOrder _ _
    hko.1 (by rfl) hread.symm
  have hpersisted : ∀ u, (((newKeyRing k.selfIdentity).unmarshalBinaryText json b64 text).keys u).map
      Key.persisted = (k.keys u).map Key.persisted := fun u => by
    rw [hkeys u]
    cases hk : k.keys u with
    | none =>
      have hu : u ≠ k.selfIdentity := fun h => by rw [h, hself] at hk; cases hk
      split_ifs <;> simp [newKeyRing, hu]
    | some key =>
      have hsig := mapValue_signatureEntries key fun v hv => (hso u key hk).2 v hv
      rw [if_pos (hko.2 u (by simp [hk]))]
      by_cases hu : u = k.selfIdentity
      · subst hu
        rw [hself, Option.some.injEq] at hk
        subst hk
        simp [KeyRing.restoredKey, Key.persisted, hsig, hselft]
      · simp [KeyRing.restoredKey, Key.persisted, hsig, hu]
  refine ⟨text, htext, by rw [hsec, hsh], hpersisted, fun u =>
    ⟨KeyRing.Trusted.of_persisted hpersisted, KeyRing.Trusted.of_persisted fun v => (hpersisted v).symm⟩⟩

/-! ### A saved keyring -/

/-- Bytes as a list of `Fin 256`, which `Encodable` codes. -/
def bytesCode (b : Bytes) : List (Fin UInt8.size) := b.map UInt8.val

def ofBytesCode (l : List (Fin UInt8.size)) : Bytes := l.map fun f => ⟨⟨f⟩⟩

theorem ofBytesCode_bytesCode (b : Bytes) : ofBytesCode (bytesCode b) = b := by
  induction b with
  | nil => rfl
  | cons x b ih =>
    simp only [bytesCode, ofBytesCode, List.map_cons] at ih ⊢
    rw [ih]
    rfl

/-- A JSON codec for concrete runs: the bytes of a key are as many zeros as the `Encodable` code
of its fields. -/
def KeyJson.unary : KeyJson where
  marshal public entries := List.replicate (Encodable.encode (bytesCode public,
    entries.map fun e => (e.1.toList.map Char.toNat, bytesCode e.2.data, e.2.trust.val))) 0
  unmarshal b := (Encodable.decode b.length :
      Option (List (Fin UInt8.size) × List (List ℕ × List (Fin UInt8.size) × Fin UInt8.size))).map
    fun r => (ofBytesCode r.1, r.2.map fun e => (⟨e.1.map Char.ofNat⟩, ⟨ofBytesCode e.2.1, ⟨⟨e.2.2⟩⟩⟩))

theorem KeyJson.unary_exact : KeyJson.unary.Exact := fun public entries => by
  simp only [KeyJson.unary, List.length_replicate, Encodable.encodek, Option.map_some',
    ofBytesCode_bytesCode, List.map_map, Option.some.injEq, Prod.mk.injEq, true_and]
  conv_rhs => rw [← List.map_id entries]
  exact List.map_congr_left fun e _ =>
    Prod.ext (String.ext (by simp [Function.comp_def, Char.ofNat_toNat]))
      (by simp only [Function.comp_apply, ofBytesCode_bytesCode, id]; rfl)

/-- A base64 codec for concrete runs: as many `A`s as the `Encodable` code of the bytes. -/
def Base64.unary : Base64 where
  encode b := List.replicate (Encodable.encode (bytesCode b)) 'A'
  decode s := (Encodable.decode s.length : Option (List (Fin UInt8.size))).map ofBytesCode

theorem Base64.unary_exact : Base64.unary.Exact := fun b =>
  ⟨by simp [Base64.unary, Encodable.encodek, ofBytesCode_bytesCode],
    fun c hc => .inl (by rw [List.eq_of_mem_replicate hc]; decide)⟩

/-- The keyring `self` after `CreatePrivate` and `AddPublic(identity, TrustHIGH, [4])`, with a crypto
engine whose public keys are one byte. -/
def savedRing (identity : String) : Option KeyRing :=
  ((newKeyRing "self").createPrivate ([1], [2]) (encryptPEMBlock "AES-256-CBC,00" id)).bind fun k =>
    (k.addPublic echoEngine identity trustHIGH [4]).toOption

theorem savedRing_eq {identity : String} (h : identity ≠ "self") :
    savedRing identity = some ⟨"self", Function.update (Function.update (fun _ => none) "self"
        (some ⟨[1], fun _ => none, trustULTIMATE, trustULTIMATE⟩)) identity
        (some ⟨[4], fun _ => none, trustHIGH, trustNONE⟩),
      some (encryptPEMBlock "AES-256-CBC,00" id pemPrivateType [2]), true⟩ := by
  simp [savedRing, KeyRing.createPrivate, newKeyRing, KeyRing.setKey, KeyRing.addPublic, h,
    echoEngine, Key.zero, Except.toOption]

theorem savedRing_spec {identity : String} (h : identity ≠ "self") {k : KeyRing}
    (hk : savedRing identity = some k) :
    k.selfIdentity = "self" ∧
      k.armoredSecret = some (encryptPEMBlock "AES-256-CBC,00" id pemPrivateType [2]) ∧
      ∀ u, k.keys u = if u = identity then some ⟨[4], fun _ => none, trustHIGH, trustNONE⟩
        else if u = "self" then some ⟨[1], fun _ => none, trustULTIMATE, trustULTIMATE⟩ else none := by
  rw [savedRing_eq h, Option.some.injEq] at hk
  subst hk
  exact ⟨rfl, rfl, fun u => by simp only [Function.update_apply]⟩

theorem encryptPEMBlock_readable :
    (encryptPEMBlock "AES-256-CBC,00" id pemPrivateType [2]).Readable :=
  ⟨by decide, by decide, by decide, by decide, by decide⟩

/-- The keyring that stores `bob`, saved and read back, is restored. -/
theorem unmarshal_marshal_restores_savedRing :
    ∃ k text, savedRing "bob" = some k ∧
      k.marshalBinary KeyJson.unary Base64.unary ["self", "bob"] (fun _ => []) = some text ∧
      ((newKeyRing "self").unmarshalBinaryText KeyJson.unary Base64.unary text).armoredSecret =
        k.armoredSecret ∧
      (∀ u, (((newKeyRing "self").unmarshalBinaryText KeyJson.unary Base64.unary text).keys u).map
        Key.persisted = (k.keys u).map Key.persisted) ∧
      ∀ u, ((newKeyRing "self").unmarshalBinaryText KeyJson.unary Base64.unary text).Trusted u ↔
        k.Trusted u := by
  obtain ⟨k, hk⟩ : ∃ k, savedRing "bob" = some k := ⟨_, savedRing_eq (by decide)⟩
  obtain ⟨hself, hsec, hkeys⟩ := savedRing_spec (by decide) hk
  have hko : k.IsKeyOrder ["self", "bob"] := ⟨by decide, fun u hu => by
    rw [hkeys] at hu
    split_ifs at hu <;> simp_all⟩
  have hso : k.SignatureOrders fun _ => [] := fun v key hv => by
    refine ⟨List.nodup_nil, fun u hu => ?_⟩
    rw [hkeys] at hv
    split_ifs at hv <;> simp only [Option.some.injEq, reduceCtorEq] at hv <;> subst hv <;>
      simp at hu
  have hselfKey : k.keys k.selfIdentity = some ⟨[1], fun _ => none, trustULTIMATE, trustULTIMATE⟩ := by
    rw [hself, hkeys]
    simp
  have hid : ∀ u key, k.keys u = some key → u ≠ k.selfIdentity → HeaderSafe u ∧ key.trust.Named :=
    fun u key hu hne => by
      rw [hkeys] at hu
      rw [hself] at hne
      split_ifs at hu with h1
      · subst h1
        simp only [Option.some.injEq] at hu
        subst hu
        exact ⟨⟨by decide, by decide, by decide⟩, .inr (.inr (.inl rfl))⟩
  obtain ⟨text, htext, hsec', hp, ht⟩ := unmarshal_marshal_restores KeyJson.unary_exact
    Base64.unary_exact hko hso hsec rfl encryptPEMBlock_readable (by decide) hselfKey rfl hid
  rw [hself] at hsec' hp ht
  exact ⟨k, text, hk, htext, hsec'.trans hsec.symm, hp, ht⟩

/-- `MarshalBinary` writes the identity `bob `, with a trailing space, in the `identity` header of its
key; `Decode` trims the header, so `UnmarshalBinary` files the key under `bob`. Read back, the
keyring no longer knows, nor trusts, `bob `. -/
theorem unmarshal_marshal_trims_identity :
    ∃ k text, savedRing "bob " = some k ∧ k.armoredSecret.isSome ∧ k.Trusted "bob " ∧
      k.marshalBinary KeyJson.unary Base64.unary ["self", "bob "] (fun _ => []) = some text ∧
      ((newKeyRing "self").unmarshalBinaryText KeyJson.unary Base64.unary text).keys "bob " = none ∧
      ¬((newKeyRing "self").unmarshalBinaryText KeyJson.unary Base64.unary text).Trusted "bob " ∧
      (((newKeyRing "self").unmarshalBinaryText KeyJson.unary Base64.unary text).keys "bob").map
        Key.persisted = (k.keys "bob ").map Key.persisted := by
  obtain ⟨k, hk⟩ : ∃ k, savedRing "bob " = some k := ⟨_, savedRing_eq (by decide)⟩
  obtain ⟨hself, hsec, hkeys⟩ := savedRing_spec (by decide) hk
  have hbob : k.keys "bob " = some ⟨[4], fun _ => none, trustHIGH, trustNONE⟩ := by simp [hkeys]
  have hselfKey : k.keys "self" = some ⟨[1], fun _ => none, trustULTIMATE, trustULTIMATE⟩ := by
    simp [hkeys]
  have hexp : ∀ u key, k.keys u = some key → u ≠ k.selfIdentity → '\n' ∉ u.toList ∧ key.trust.Named :=
    fun u key hu hne => by
      rw [hkeys] at hu
      rw [hself] at hne
      split_ifs at hu with h1
      · subst h1
        simp only [Option.some.injEq] at hu
        subst hu
        exact ⟨by decide, .inr (.inr (.inl rfl))⟩
  obtain ⟨text, htext, hread⟩ := KeyRing.unmarshalBinaryText_marshalBinary Base64.unary_exact hsec rfl
    encryptPEMBlock_readable hexp KeyJson.unary ["self", "bob "] (fun _ => []) (newKeyRing "self")
  have hblocks : k.exportBlocks KeyJson.unary (fun _ => []) ["self", "bob "] =
      [k.exportBlock KeyJson.unary (fun _ => []) "self" ⟨[1], fun _ => none, trustULTIMATE, trustULTIMATE⟩,
        k.exportBlock KeyJson.unary (fun _ => []) "bob " ⟨[4], fun _ => none, trustHIGH, trustNONE⟩] := by
    simp [KeyRing.exportBlocks, hbob, hselfKey]
  have hbobSelf : "bob " ≠ k.selfIdentity := by rw [hself]; decide
  rw [hblocks, List.map_cons, List.map_cons, List.map_nil, KeyRing.unmarshalBinary, List.foldl_cons,
    List.foldl_cons, List.foldl_nil, KeyRing.importNext_exportBlock KeyJson.unary_exact
      (.inl hself.symm) hself.symm,
    KeyRing.importNext_exportBlock_other KeyJson.unary_exact hbobSelf (by decide) (.inr (.inr (.inl rfl)))] at hread
  have htrim : (⟨Pem.trimSpace "bob ".toList⟩ : String) = "bob" := by decide
  have hnone : ((newKeyRing "self").unmarshalBinaryText KeyJson.unary Base64.unary text).keys "bob " =
      none := by
    rw [hread, htrim]
    simp [newKeyRing]
  refine ⟨k, text, hk, by simp [hsec], .root hbob (by decide), htext, hnone, fun h => ?_, ?_⟩
  · cases h with
    | root hk' => simp [hnone] at hk'
    | signed _ hk' => simp [hnone] at hk'
  · rw [hread, htrim, hbob]
    simp [KeyRing.restoredKey, hbobSelf, Key.persisted, mapValue, Key.signatureEntries]
    rfl

end PnyxDB.Keyring
