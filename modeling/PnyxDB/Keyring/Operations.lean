import PnyxDB.Keyring.TrustWeb

/-!
What the operations of the keyring do to its stored signatures. `AddSignature` stores only a
signature that verifies, or one the keyring makes itself, and `RemovePublic` only forgets keys, so
both keep every stored signature verifying (`SignaturesVerify`). `AddPublic` keeps it when the
public bytes stay the same or nobody has signed the identity; otherwise the signatures made on the
old bytes stay in their signers' keys, and the web of trust credits them: a key replaced by
`AddPublic` is trusted on the strength of a signature over the bytes it replaced
(`trusted_without_verified_chain`). Along runs of `AddSignature` and `RemovePublic` alone, the web
of trust stays sound (`trustWeb_sound_after_signing`).
-/

namespace PnyxDB.Keyring

open PnyxDB.Consensus (Bytes)

namespace KeyRing

variable {ce : CryptoEngine} {k k' : KeyRing}

theorem removePublic_signaturesVerify (hv : k.SignaturesVerify ce) (identity : String) :
    (k.removePublic identity).SignaturesVerify ce := by
  unfold removePublic
  split
  · exact hv
  · intro s t ks kt sig hs hsig ht
    simp only [Function.update_apply] at hs ht
    split_ifs at hs ht
    exact hv s t ks kt sig hs hsig ht

/-- What `AddSignature` does when it succeeds: both identities are known, and the signer's key stores
a signature on the identity, made by the keyring if the signer is its own identity and the given
one, verified, otherwise. -/
theorem addSignature_cases {sign : Bytes → Option Bytes} {identity signer : String}
    {signature : Signature} (h : k.addSignature ce sign identity signer signature = .ok k') :
    ∃ key signerKey stored, k.keys identity = some key ∧ k.keys signer = some signerKey ∧
      ((signer = k.selfIdentity ∧ stored.trust = key.trust ∧
          sign (signedMessage key.public key.trust) = some stored.data) ∨
        (signer ≠ k.selfIdentity ∧ stored = signature ∧
          ce.verify signerKey.public (signedMessage key.public signature.trust) signature.data)) ∧
      k' = { k.setKey signer (signerKey.setSignature identity stored) with stale := true } := by
  unfold addSignature at h
  split at h
  · cases h
  · cases h
  rename_i key signerKey hkey hsigner
  split at h
  · split at h
    · cases h
    · rename_i hd
      simp only [pure, Except.pure, bind, Except.bind, Except.ok.injEq] at h
      exact ⟨key, signerKey, _, hkey, hsigner, .inl ⟨‹_›, rfl, hd⟩, h.symm⟩
  · split at h
    · simp only [pure, Except.pure, bind, Except.bind, Except.ok.injEq] at h
      exact ⟨key, signerKey, _, hkey, hsigner, .inr ⟨‹_›, rfl, ‹_›⟩, h.symm⟩
    · cases h

/-- `AddSignature` keeps every stored signature verifying, when the signatures the keyring makes
itself verify under its own public key. -/
theorem addSignature_signaturesVerify {sign : Bytes → Option Bytes} {identity signer : String}
    {signature : Signature} (hv : k.SignaturesVerify ce)
    (hsign : ∀ selfKey m d, k.keys k.selfIdentity = some selfKey → sign m = some d →
      ce.verify selfKey.public m d)
    (h : k.addSignature ce sign identity signer signature = .ok k') : k'.SignaturesVerify ce := by
  obtain ⟨key, signerKey, stored, hkey, hsigner, hmade, rfl⟩ := addSignature_cases h
  -- the signature stored for `identity` verifies under the signer's key over the signee's key
  have hstored : ce.verify signerKey.public (signedMessage key.public stored.trust) stored.data := by
    rcases hmade with ⟨hself, htrust, hd⟩ | ⟨-, rfl, hver⟩
    · exact htrust ▸ hsign signerKey _ _ (hself ▸ hsigner) hd
    · exact hver
  intro s t ks kt sig hs hsig ht
  simp only [setKey_keys] at hs ht
  -- the signee kept its public bytes
  obtain ⟨kt0, hkt0, hpubt⟩ : ∃ kt0, k.keys t = some kt0 ∧ kt0.public = kt.public := by
    split_ifs at ht with hts
    · simp only [Option.some.injEq] at ht
      subst ht hts
      exact ⟨signerKey, hsigner, rfl⟩
    · exact ⟨kt, ht, rfl⟩
  rw [← hpubt]
  split_ifs at hs with hss
  · simp only [Option.some.injEq] at hs
    subst hs hss
    simp only [Key.setSignature, Function.update_apply] at hsig
    split_ifs at hsig with hti
    · simp only [Option.some.injEq] at hsig
      subst hsig hti
      rw [hkey, Option.some.injEq] at hkt0
      exact hkt0 ▸ hstored
    · exact hv _ _ signerKey _ _ hsigner hsig hkt0
  · exact hv _ _ _ _ _ hs hsig hkt0

/-- What `AddPublic` does when it succeeds: it stores under `identity` a key with the public bytes
`data` and the given trust, whose signatures are some the identity made under the same bytes. -/
theorem addPublic_cases {identity : String} {trust : TrustLevel} {data : Bytes}
    (h : k.addPublic ce identity trust data = .ok k') :
    ∃ key : Key, key.public = data ∧ (∀ t sig, key.signatures t = some sig →
      ∃ key0, k.keys identity = some key0 ∧ key0.public = data ∧ key0.signatures t = some sig) ∧
      k' = { k.setKey identity { key with trust := trust } with stale := true } := by
  unfold addPublic at h
  split_ifs at h
  simp only [Except.ok.injEq] at h
  refine ⟨_, ?_, fun t sig hs => ?_, h.symm⟩
  · split_ifs with hd
    · exact hd
    · rfl
  · split_ifs at hs with hd
    cases hk : k.keys identity with
    | none => simp [hk, Key.zero] at hs
    | some key0 =>
      simp only [hk, Option.getD_some] at hs hd
      exact ⟨key0, rfl, hd, hs⟩

/-- `AddPublic` keeps every stored signature verifying when the identity keeps its public bytes, or
when no stored signature is on it. -/
theorem addPublic_signaturesVerify {identity : String} {trust : TrustLevel} {data : Bytes}
    (hv : k.SignaturesVerify ce)
    (hsafe : (k.keys identity).map Key.public = some data ∨
      ∀ s ks, k.keys s = some ks → ks.signatures identity = none)
    (h : k.addPublic ce identity trust data = .ok k') : k'.SignaturesVerify ce := by
  obtain ⟨key', hkey', hsig', rfl⟩ := addPublic_cases h
  intro s t ks kt sig hs hsig ht
  simp only [setKey_keys] at hs ht
  -- the signer had the signature, under the same public bytes
  obtain ⟨ks0, hks0, hpubs, hsig0⟩ : ∃ ks0, k.keys s = some ks0 ∧ ks0.public = ks.public ∧
      ks0.signatures t = some sig := by
    split_ifs at hs with hsi
    · simp only [Option.some.injEq] at hs
      subst hs hsi
      obtain ⟨key0, hk0, hpub0, hs0⟩ := hsig' _ _ hsig
      exact ⟨key0, hk0, hpub0.trans hkey'.symm, hs0⟩
    · exact ⟨ks, hs, rfl, hsig⟩
  -- the signee kept its public bytes: a signed identity keeps them under `hsafe`
  obtain ⟨kt0, hkt0, hpubt⟩ : ∃ kt0, k.keys t = some kt0 ∧ kt0.public = kt.public := by
    split_ifs at ht with hti
    · subst hti
      simp only [Option.some.injEq] at ht
      subst ht
      rcases hsafe with hsame | hnone
      · obtain ⟨kt0, hkt0, hp⟩ := Option.map_eq_some'.mp hsame
        exact ⟨kt0, hkt0, hp.trans hkey'.symm⟩
      · simp [hnone _ _ hks0] at hsig0
    · exact ⟨kt, ht, rfl⟩
  rw [← hpubs, ← hpubt]
  exact hv _ _ _ _ _ hks0 hsig0 hkt0

/-- `AddSignature` keeps the keyring's own identity and every key's public bytes. -/
theorem addSignature_public {sign : Bytes → Option Bytes} {identity signer : String}
    {signature : Signature} (h : k.addSignature ce sign identity signer signature = .ok k') :
    k'.selfIdentity = k.selfIdentity ∧ ∀ u, (k'.keys u).map Key.public = (k.keys u).map Key.public := by
  obtain ⟨-, signerKey, stored, -, hsigner, -, rfl⟩ := addSignature_cases h
  refine ⟨rfl, fun u => ?_⟩
  by_cases hu : u = signer
  · subst hu
    simp [hsigner, Key.setSignature]
  · simp [hu]

/-- `RemovePublic` keeps the keyring's own key. -/
theorem removePublic_self (identity : String) :
    (k.removePublic identity).selfIdentity = k.selfIdentity ∧
      (k.removePublic identity).keys k.selfIdentity = k.keys k.selfIdentity := by
  unfold removePublic
  split
  · exact ⟨rfl, rfl⟩
  · exact ⟨rfl, Function.update_noteq (Ne.symm ‹_›) _ _⟩

end KeyRing

/-! ### Runs of the keyring -/

/-- The operations of the keyring that change it. -/
inductive RingOp
  | addPublic (identity : String) (trust : TrustLevel) (data : Bytes)
  | addSignature (identity signer : String) (signature : Signature)
  | removePublic (identity : String)
  | importKey (block : Block) (identity : String) (trust : TrustLevel)
  | unmarshalBinary (blocks : List Block)

def RingOp.run (ce : CryptoEngine) (sign : Bytes → Option Bytes) (k : KeyRing) :
    RingOp → Except KeyRingError KeyRing
  | .addPublic identity trust data => k.addPublic ce identity trust data
  | .addSignature identity signer signature => k.addSignature ce sign identity signer signature
  | .removePublic identity => .ok (k.removePublic identity)
  | .importKey block identity trust => k.importKey block identity trust
  | .unmarshalBinary blocks => .ok (k.unmarshalBinary blocks)

/-- One operation; one that fails leaves the keyring as it was. -/
def RingOp.step (ce : CryptoEngine) (sign : Bytes → Option Bytes) (k : KeyRing) (op : RingOp) :
    KeyRing :=
  match op.run ce sign k with
  | .ok k' => k'
  | .error _ => k

/-- The keyring after `ops`. -/
def runRing (ce : CryptoEngine) (sign : Bytes → Option Bytes) (k : KeyRing) (ops : List RingOp) :
    KeyRing :=
  ops.foldl (RingOp.step ce sign) k

/-- The identities whose keys an operation may write, besides the keyring's own. -/
def RingOp.writes : RingOp → List String
  | .addPublic identity _ _ => [identity]
  | .addSignature _ signer _ => [signer]
  | .removePublic identity => [identity]
  | .importKey _ identity _ => [identity]
  | .unmarshalBinary blocks => blocks.filterMap fun
    | .publicKey id _ _ => some id
    | _ => none

theorem importUnsafe_keys {k k' : KeyRing} {block : Block} {identity : String} {trust : TrustLevel}
    (h : k.importUnsafe block identity trust = .ok k') :
    k'.selfIdentity = k.selfIdentity ∧ ∀ u, k'.keys u ≠ k.keys u →
      (identity ≠ "" ∧ u = identity) ∨
        (identity = "" ∧ (u = k.selfIdentity ∨ ∃ t b, block = .publicKey u t b)) := by
  unfold KeyRing.importUnsafe at h
  split at h
  · split_ifs at h
    simp only [Except.ok.injEq] at h
    exact h ▸ ⟨rfl, fun u hu => absurd rfl hu⟩
  · simp only [Except.ok.injEq] at h
    exact h ▸ ⟨rfl, fun u hu => absurd rfl hu⟩
  · split at h
    · cases h
    · split_ifs at h <;> simp only [Except.ok.injEq] at h <;> subst h <;>
        refine ⟨rfl, fun u hu => ?_⟩ <;> simp only [KeyRing.setKey_keys] at hu <;>
        split_ifs at hu <;> simp_all

theorem unmarshalBinary_keys : ∀ (blocks : List Block) (k : KeyRing),
    (k.unmarshalBinary blocks).selfIdentity = k.selfIdentity ∧
      ∀ u, (k.unmarshalBinary blocks).keys u ≠ k.keys u →
        u = k.selfIdentity ∨ u ∈ (RingOp.unmarshalBinary blocks).writes
  | [], k => ⟨rfl, fun u hu => absurd rfl hu⟩
  | b :: blocks, k => by
    have h1 : (k.importNext b).selfIdentity = k.selfIdentity ∧ ∀ u,
        (k.importNext b).keys u ≠ k.keys u → u = k.selfIdentity ∨ ∃ t body, b = .publicKey u t body := by
      unfold KeyRing.importNext
      split
      · rename_i k' h
        obtain ⟨hs, hu⟩ := importUnsafe_keys h
        exact ⟨hs, fun u h' => by rcases hu u h' with ⟨h, -⟩ | ⟨-, h⟩ <;> simp_all⟩
      · exact ⟨rfl, fun u hu => absurd rfl hu⟩
    obtain ⟨hs2, hu2⟩ := unmarshalBinary_keys blocks (k.importNext b)
    refine ⟨hs2.trans h1.1, fun u hu => ?_⟩
    by_cases hk : ((k.importNext b).unmarshalBinary blocks).keys u = (k.importNext b).keys u
    · rcases h1.2 u (hk ▸ hu) with h | ⟨t, body, rfl⟩
      · exact .inl h
      · exact .inr (by simp [RingOp.writes])
    · rcases hu2 u hk with h | h
      · exact .inl (h.trans h1.1)
      · exact .inr (by simp only [RingOp.writes, List.filterMap_cons] at h ⊢; split <;> simp_all)

/-- An operation writes only the keys of the identities it names, and the keyring's own. -/
theorem RingOp.keys_frame {ce : CryptoEngine} {sign : Bytes → Option Bytes} {k k' : KeyRing}
    {op : RingOp} (h : op.run ce sign k = .ok k') :
    k'.selfIdentity = k.selfIdentity ∧
      ∀ u, u ≠ k.selfIdentity → u ∉ op.writes → k'.keys u = k.keys u := by
  cases op with
  | addPublic identity trust data =>
    obtain ⟨-, -, -, rfl⟩ := KeyRing.addPublic_cases h
    exact ⟨rfl, fun u _ hu => by simp_all [writes]⟩
  | addSignature identity signer signature =>
    obtain ⟨-, -, -, -, -, -, rfl⟩ := KeyRing.addSignature_cases h
    exact ⟨rfl, fun u _ hu => by simp_all [writes]⟩
  | removePublic identity =>
    simp only [run, KeyRing.removePublic, Except.ok.injEq] at h
    subst h
    split
    · exact ⟨rfl, fun _ _ _ => rfl⟩
    · exact ⟨rfl, fun u _ hu => by simp_all [writes]⟩
  | importKey block identity trust =>
    simp only [run, KeyRing.importKey] at h
    split_ifs at h with hid
    obtain ⟨hs, hu⟩ := importUnsafe_keys h
    refine ⟨hs, fun u hself hw => ?_⟩
    by_contra hne
    rcases hu u hne with ⟨-, rfl⟩ | ⟨hempty, -⟩
    · simp [writes] at hw
    · exact hid (.inr hempty)
  | unmarshalBinary blocks =>
    simp only [run, Except.ok.injEq] at h
    subst h
    obtain ⟨hs, hu⟩ := unmarshalBinary_keys blocks k
    exact ⟨hs, fun u hself hw => by_contra fun hne => (hu u hne).elim hself hw⟩

/-- A run writes only the keys of the identities its operations name, and the keyring's own. -/
theorem runRing_keys_frame {ce : CryptoEngine} {sign : Bytes → Option Bytes} :
    ∀ (ops : List RingOp) (k : KeyRing),
      (runRing ce sign k ops).selfIdentity = k.selfIdentity ∧
      ∀ u, u ≠ k.selfIdentity → (∀ op ∈ ops, u ∉ op.writes) →
        (runRing ce sign k ops).keys u = k.keys u
  | [], k => ⟨rfl, fun _ _ _ => rfl⟩
  | op :: ops, k => by
    have h1 : (op.step ce sign k).selfIdentity = k.selfIdentity ∧
        ∀ u, u ≠ k.selfIdentity → u ∉ op.writes → (op.step ce sign k).keys u = k.keys u := by
      unfold RingOp.step
      split
      · rename_i k' h
        exact RingOp.keys_frame h
      · exact ⟨rfl, fun _ _ _ => rfl⟩
    obtain ⟨hs2, hu2⟩ := runRing_keys_frame ops (op.step ce sign k)
    refine ⟨hs2.trans h1.1, fun u hself hw => ?_⟩
    rw [runRing, List.foldl_cons, ← runRing, hu2 u (h1.1 ▸ hself) fun op' h' =>
      hw op' (List.mem_cons_of_mem _ h'), h1.2 u hself (hw op (List.mem_cons_self _ _))]

/-! ### A replaced key keeps the signatures made on its old bytes -/

/-- A crypto engine where a public key is one byte and a signature verifies exactly one message:
it is the key followed by the message. -/
def echoEngine : CryptoEngine :=
  ⟨fun public => decide (public.length = 1), fun public message signature =>
    decide (signature = public ++ message)⟩

/-- `A`, trusted locally, signs `X`'s key `[2]`; `X`'s key is then replaced by `[4]`. -/
def rekeyRun : List RingOp :=
  [.addPublic "A" trustHIGH [1], .addPublic "X" trustNONE [2],
    .addSignature "X" "A" ⟨[1, 2, 3], trustHIGH⟩, .addPublic "X" trustNONE [4]]

def rekeyed : KeyRing := runRing echoEngine (fun _ => none) (newKeyRing "self") rekeyRun

/-- After `rekeyRun`, the web of trust trusts `X`, although no chain of verifying signatures reaches
it: the only signature on `X`, by `A`, covers the bytes `X` had before. -/
theorem trusted_without_verified_chain :
    (rekeyed.buildTrustWeb ["self", "A", "X"] (fun _ => ["self", "A", "X"]) 4).map
      (·.trusted "X") = some (some true) ∧ ¬rekeyed.VerifiedChain echoEngine "X" := by
  refine ⟨by decide, fun h => ?_⟩
  have hother : ∀ u, u ∉ ["self", "A", "X"] → rekeyed.keys u = none := fun u hu => by
    simp only [List.mem_cons, List.mem_singleton, List.not_mem_nil, or_false, not_or] at hu
    rw [rekeyed, (runRing_keys_frame rekeyRun _).2 u hu.1 (by simp [rekeyRun, RingOp.writes, hu])]
    simp [newKeyRing, hu.1]
  cases h with
  | root hk ht =>
    have hx : (rekeyed.keys "X").map Key.trust = some trustNONE := by decide
    rw [hk, Option.map_some', Option.some.injEq] at hx
    exact absurd (hx ▸ ht) (by decide)
  | @signed signer _ signerKey signeeKey signature _ hs hsig hx hv =>
    have hsigned : ∀ u ∈ ["self", "A", "X"], ((rekeyed.keys u).bind fun key =>
        (key.signatures "X").map fun sig =>
          echoEngine.verify key.public (signedMessage [4] sig.trust) sig.data) ≠ some true := by
      decide
    have hxk : (rekeyed.keys "X").map Key.public = some [4] := by decide
    rw [hx, Option.map_some', Option.some.injEq] at hxk
    by_cases hsu : signer ∈ ["self", "A", "X"]
    · exact hsigned signer hsu (by simp [hs, hsig, ← hxk, hv])
    · simp [hother signer hsu] at hs

/-! ### Signing keeps the web of trust sound -/

/-- The operations that only sign and forget keys: `AddSignature` and `RemovePublic`. -/
def RingOp.keepsSignatures : RingOp → Bool
  | .addSignature _ _ _ => true
  | .removePublic _ => true
  | _ => false

/-- The signatures `sign` makes verify under the public key of the keyring's own identity. -/
def SelfSigns (ce : CryptoEngine) (sign : Bytes → Option Bytes) (k : KeyRing) : Prop :=
  ∀ selfKey m d, k.keys k.selfIdentity = some selfKey → sign m = some d → ce.verify selfKey.public m d

theorem RingOp.step_signaturesVerify {ce : CryptoEngine} {sign : Bytes → Option Bytes} {k : KeyRing}
    {op : RingOp} (hop : op.keepsSignatures) (hv : k.SignaturesVerify ce) (hs : SelfSigns ce sign k) :
    (op.step ce sign k).SignaturesVerify ce ∧ SelfSigns ce sign (op.step ce sign k) := by
  cases op with
  | addSignature identity signer signature =>
    unfold step
    split
    · rename_i k' h
      obtain ⟨hself, hpub⟩ := KeyRing.addSignature_public h
      refine ⟨KeyRing.addSignature_signaturesVerify hv hs h, fun selfKey m d hk hd => ?_⟩
      have := hpub k'.selfIdentity
      rw [hk, hself] at this
      obtain ⟨key, hkey, hp⟩ := Option.map_eq_some'.mp this.symm
      exact hp ▸ hs key m d hkey hd
    · exact ⟨hv, hs⟩
  | removePublic identity =>
    obtain ⟨hself, hkey⟩ := KeyRing.removePublic_self (k := k) identity
    refine ⟨KeyRing.removePublic_signaturesVerify hv identity, fun selfKey m d hk hd => ?_⟩
    rw [step, run, hself, hkey] at hk
    exact hs selfKey m d hk hd
  | addPublic | importKey | unmarshalBinary => simp [keepsSignatures] at hop

theorem runRing_signaturesVerify {ce : CryptoEngine} {sign : Bytes → Option Bytes} :
    ∀ (ops : List RingOp) (k : KeyRing), (∀ op ∈ ops, op.keepsSignatures) →
      k.SignaturesVerify ce → SelfSigns ce sign k → (runRing ce sign k ops).SignaturesVerify ce
  | [], _, _, hv, _ => hv
  | op :: ops, k, hops, hv, hs => by
    have h1 := RingOp.step_signaturesVerify (hops op (List.mem_cons_self _ _)) hv hs
    exact runRing_signaturesVerify ops _ (fun o ho => hops o (List.mem_cons_of_mem _ ho)) h1.1 h1.2

/-- From a keyring whose stored signatures verify, along any run of `AddSignature` and
`RemovePublic`, the web of trust stays sound: every identity it trusts is reached from a locally
trusted key by signatures that verify. -/
theorem trustWeb_sound_after_signing {ce : CryptoEngine} {sign : Bytes → Option Bytes}
    {ops : List RingOp} {k k' : KeyRing} {keyOrder : List String}
    {signatureOrder : String → List String} {fuel : Nat}
    (hops : ∀ op ∈ ops, op.keepsSignatures) (hv : k.SignaturesVerify ce) (hs : SelfSigns ce sign k)
    (h : (runRing ce sign k ops).buildTrustWeb keyOrder signatureOrder fuel = some k')
    {u : String} {key : Key} (hu : k'.keys u = some key) (ht : key.trusted = true) :
    (runRing ce sign k ops).VerifiedChain ce u :=
  buildTrustWeb_sound (runRing_signaturesVerify ops k hops hv hs) h hu ht

/-- A keyring where `A` is trusted locally and `C` is not, and nobody has signed anything yet. -/
def signingRing : KeyRing :=
  ((newKeyRing "self").setKey "A" ⟨[1], fun _ => none, trustHIGH, trustNONE⟩).setKey "C"
    ⟨[3], fun _ => none, trustNONE, trustNONE⟩

/-- `A` signs `C`'s key `[3]`; the web of trust then trusts `C`, through that signature. -/
theorem trustWeb_sound_after_signing_signee :
    (∀ op ∈ [RingOp.addSignature "C" "A" ⟨[1, 3, 3], trustHIGH⟩], op.keepsSignatures) ∧
    signingRing.SignaturesVerify echoEngine ∧ SelfSigns echoEngine (fun _ => none) signingRing ∧
    ∃ k' key, (runRing echoEngine (fun _ => none) signingRing
        [.addSignature "C" "A" ⟨[1, 3, 3], trustHIGH⟩]).buildTrustWeb ["self", "A", "C"]
        (fun _ => ["self", "A", "C"]) 4 = some k' ∧ k'.keys "C" = some key ∧ key.trusted = true ∧
      (runRing echoEngine (fun _ => none) signingRing
        [.addSignature "C" "A" ⟨[1, 3, 3], trustHIGH⟩]).VerifiedChain echoEngine "C" := by
  have hops : ∀ op ∈ [RingOp.addSignature "C" "A" ⟨[1, 3, 3], trustHIGH⟩], op.keepsSignatures := by
    decide
  have hv : signingRing.SignaturesVerify echoEngine := fun s t ks kt sig hs hsig _ => by
    simp only [signingRing, KeyRing.setKey_keys, newKeyRing, Function.update_apply] at hs
    split_ifs at hs <;> simp only [Option.some.injEq, reduceCtorEq] at hs <;> subst hs <;>
      simp [Key.zero] at hsig
  have hs : SelfSigns echoEngine (fun _ => none) signingRing := fun _ _ _ _ hd => by simp at hd
  have hrun : ((runRing echoEngine (fun _ => none) signingRing
      [.addSignature "C" "A" ⟨[1, 3, 3], trustHIGH⟩]).buildTrustWeb ["self", "A", "C"]
      (fun _ => ["self", "A", "C"]) 4).map (fun k' => (k'.keys "C").map Key.trusted) =
      some (some true) := by decide
  obtain ⟨k', hk', hc⟩ := Option.map_eq_some'.mp hrun
  obtain ⟨key, hkey, ht⟩ := Option.map_eq_some'.mp hc
  exact ⟨hops, hv, hs, k', key, hk', hkey, ht, trustWeb_sound_after_signing hops hv hs hk' hkey ht⟩

end PnyxDB.Keyring
