import PnyxDB.Keyring.Basic

/-!
What `buildTrustWeb` computes. The loop credits an identity only through a signature stored in the
key of an identity it dequeued, and it dequeues only identities that are locally trusted or were
credited that way: every identity it ends up trusting is `Reached` from the locally trusted keys by
stored signatures (`buildTrustWeb_reached`). The signatures are not verified again, so the web is
sound for the keyring's current public keys (`VerifiedChain`) exactly as far as every stored
signature still verifies (`SignaturesVerify`, `buildTrustWeb_sound`). The loop ends: each
iteration dequeues one identity, and an identity is enqueued at most once, so fuel twice the number
of keys suffices (`buildTrustWeb_isSome`).

`AddSignature` and `RemovePublic` keep the stored signatures verifying. `AddPublic` does not: it
replaces an identity's public bytes and resets the signatures that identity made, but not those
made on it over the old bytes (`trusted_without_verified_chain`). `Import` stores the signatures of
a PEM block without verifying them.
-/

namespace PnyxDB.Keyring

namespace KeyRing

/-- The identities reached from the locally trusted keys by stored signatures. -/
inductive Reached (k : KeyRing) : String → Prop
  | root {u : String} {key : Key} : k.keys u = some key → trustThreshold ≤ key.trust → Reached k u
  | signed {signer signee : String} {signerKey signeeKey : Key} {signature : Signature} :
      Reached k signer → k.keys signer = some signerKey →
      signerKey.signatures signee = some signature → k.keys signee = some signeeKey →
      Reached k signee

/-- The identities reached from the locally trusted keys by signatures that verify under the
signer's current public key over the signee's current public key and the signature's trust byte. -/
inductive VerifiedChain (ce : CryptoEngine) (k : KeyRing) : String → Prop
  | root {u : String} {key : Key} : k.keys u = some key → trustThreshold ≤ key.trust →
      VerifiedChain ce k u
  | signed {signer signee : String} {signerKey signeeKey : Key} {signature : Signature} :
      VerifiedChain ce k signer → k.keys signer = some signerKey →
      signerKey.signatures signee = some signature → k.keys signee = some signeeKey →
      ce.verify signerKey.public (signedMessage signeeKey.public signature.trust) signature.data →
      VerifiedChain ce k signee

/-- Every stored signature between two known identities verifies. -/
def SignaturesVerify (ce : CryptoEngine) (k : KeyRing) : Prop :=
  ∀ signer signee signerKey signeeKey signature, k.keys signer = some signerKey →
    signerKey.signatures signee = some signature → k.keys signee = some signeeKey →
    ce.verify signerKey.public (signedMessage signeeKey.public signature.trust) signature.data

theorem Reached.verifiedChain {ce : CryptoEngine} {k : KeyRing} (hv : k.SignaturesVerify ce)
    {u : String} (h : k.Reached u) : k.VerifiedChain ce u := by
  induction h with
  | root hk ht => exact .root hk ht
  | signed _ hs hsig hx ih => exact .signed ih hs hsig hx (hv _ _ _ _ _ hs hsig hx)

end KeyRing

/-! ### The loop keeps what it credits reached -/

/-- What the loop of `buildTrustWeb` keeps, for the keyring `k` it started from: the keys differ from
those of `k` in their effective trust only, and every queued or trusted identity is reached. -/
structure WebInv (k : KeyRing) (w : Web) : Prop where
  frame : ∀ u key', w.keys u = some key' → ∃ key, k.keys u = some key ∧
    key'.public = key.public ∧ key'.signatures = key.signatures ∧ key'.trust = key.trust
  known : ∀ u, k.keys u ≠ none → w.keys u ≠ none
  queue : ∀ u ∈ w.queue, k.Reached u
  trusted : ∀ u key', w.keys u = some key' → trustThreshold ≤ key'.effectiveTrust → k.Reached u

section
variable {k : KeyRing} {w : Web}

/-- What one `credit` does: nothing, or it rewrites the signee's effective trust, enqueueing the
signee if it was not visited yet. -/
theorem credit_cases (current : String) (signatures : String → Option Signature) (w : Web)
    (signee : String) :
    credit current signatures w signee = w ∨
      ∃ signature signeeKey e, signatures signee = some signature ∧ w.keys signee = some signeeKey ∧
        (credit current signatures w signee =
            ⟨Function.update w.keys signee (some { signeeKey with effectiveTrust := e }), w.queue,
              w.visited⟩ ∨
          w.visited signee = false ∧ credit current signatures w signee =
            ⟨Function.update w.keys signee (some { signeeKey with effectiveTrust := e }),
              w.queue ++ [signee], Function.update w.visited signee true⟩) := by
  unfold credit
  split
  · rename_i signature signeeKey currentKey hs hsk _
    refine .inr ⟨signature, signeeKey, TrustLevel.add signeeKey.effectiveTrust
      (TrustLevel.min signature.trust currentKey.effectiveTrust), hs, hsk, ?_⟩
    dsimp only
    split
    · exact .inr ⟨(‹_ ∧ _›).2, rfl⟩
    · exact .inl rfl
  · exact .inl rfl

theorem webInv_credit (hw : WebInv k w) {current : String} {currentKey : Key}
    {signatures : String → Option Signature} (hc : k.Reached current)
    (hck : k.keys current = some currentKey) (hsig : currentKey.signatures = signatures)
    (signee : String) : WebInv k (credit current signatures w signee) := by
  rcases credit_cases current signatures w signee with h | ⟨signature, signeeKey, e, hs, hsk, h⟩
  · rw [h]; exact hw
  obtain ⟨key, hk, hpub, hsigs, htrust⟩ := hw.frame signee signeeKey hsk
  have hr : k.Reached signee := .signed hc hck (hsig ▸ hs) hk
  set keys := Function.update w.keys signee (some { signeeKey with effectiveTrust := e })
  have frame : ∀ u key', keys u = some key' → ∃ key, k.keys u = some key ∧
      key'.public = key.public ∧ key'.signatures = key.signatures ∧ key'.trust = key.trust :=
    fun u key' h => by
      by_cases hu : u = signee
      · subst hu
        simp only [keys, Function.update_same, Option.some.injEq] at h
        exact ⟨key, hk, h ▸ hpub, h ▸ hsigs, h ▸ htrust⟩
      · exact hw.frame u key' (by simpa [keys, hu] using h)
  have known : ∀ u, k.keys u ≠ none → keys u ≠ none := fun u h => by
    by_cases hu : u = signee
    · simp [keys, hu]
    · simpa [keys, hu] using hw.known u h
  have trusted : ∀ u key', keys u = some key' → trustThreshold ≤ key'.effectiveTrust →
      k.Reached u := fun u key' h ht => by
    by_cases hu : u = signee
    · exact hu ▸ hr
    · exact hw.trusted u key' (by simpa [keys, hu] using h) ht
  rcases h with h | ⟨-, h⟩ <;> rw [h]
  · exact ⟨frame, known, hw.queue, trusted⟩
  · refine ⟨frame, known, fun u hu => ?_, trusted⟩
    rcases List.mem_append.mp hu with hu | hu
    · exact hw.queue u hu
    · exact (List.mem_singleton.mp hu) ▸ hr

theorem webInv_foldl_credit {current : String} {currentKey : Key}
    {signatures : String → Option Signature} (hc : k.Reached current)
    (hck : k.keys current = some currentKey) (hsig : currentKey.signatures = signatures) :
    ∀ (signees : List String) (w : Web), WebInv k w →
      WebInv k (signees.foldl (credit current signatures) w)
  | [], _, hw => hw
  | signee :: signees, _, hw =>
    webInv_foldl_credit hc hck hsig signees _ (webInv_credit hw hc hck hsig signee)

theorem webInv_processQueue {signatureOrder : String → List String} :
    ∀ (n : Nat) (w w' : Web), WebInv k w → processQueue signatureOrder n w = some w' → WebInv k w'
  | n, ⟨keys, [], visited⟩, w', hw, h => by
    cases n <;> (simp only [processQueue, Option.some.injEq] at h; exact h ▸ hw)
  | 0, ⟨_, _ :: _, _⟩, _, _, h => by simp [processQueue] at h
  | n + 1, ⟨keys, current :: queue, visited⟩, w', hw, h => by
    have hc : k.Reached current := hw.queue current (List.mem_cons_self _ _)
    have hw' : WebInv k ⟨keys, queue, visited⟩ :=
      ⟨hw.frame, hw.known, fun u hu => hw.queue u (List.mem_cons_of_mem _ hu), hw.trusted⟩
    simp only [processQueue] at h
    split at h
    · exact webInv_processQueue n _ w' hw' h
    · rename_i currentKey hcur
      obtain ⟨key, hk, -, hsig, -⟩ := hw.frame current currentKey hcur
      exact webInv_processQueue n _ w' (webInv_foldl_credit hc hk hsig.symm _ _ hw') h

theorem webInv_initialWeb (k : KeyRing) (keyOrder : List String) : WebInv k (initialWeb k keyOrder) where
  frame u key' h := by
    simp only [initialWeb, Option.map_eq_some'] at h
    obtain ⟨key, hk, rfl⟩ := h
    exact ⟨key, hk, rfl, rfl, rfl⟩
  known u h := by simpa [initialWeb] using h
  queue u hu := by
    simp only [initialWeb, List.mem_filter] at hu
    cases hk : k.keys u with
    | none => simp [hk] at hu
    | some key => exact .root hk (by simpa [hk] using hu.2)
  trusted u key' h ht := by
    simp only [initialWeb, Option.map_eq_some'] at h
    obtain ⟨key, hk, rfl⟩ := h
    exact .root hk ht

end

/-- Every identity the web of trust trusts is reached from the locally trusted keys by stored
signatures. -/
theorem buildTrustWeb_reached {keyOrder : List String} {signatureOrder : String → List String}
    {fuel : Nat} {k k' : KeyRing} (h : k.buildTrustWeb keyOrder signatureOrder fuel = some k')
    {u : String} {key : Key} (hu : k'.keys u = some key) (ht : key.trusted = true) : k.Reached u := by
  simp only [KeyRing.buildTrustWeb, Option.map_eq_some'] at h
  obtain ⟨w, hw, rfl⟩ := h
  exact (webInv_processQueue fuel _ w (webInv_initialWeb k keyOrder) hw).trusted u key hu
    (by simpa [Key.trusted] using ht)

/-- The web of trust is sound on a keyring whose stored signatures all verify. -/
theorem buildTrustWeb_sound {ce : CryptoEngine} {keyOrder : List String}
    {signatureOrder : String → List String} {fuel : Nat} {k k' : KeyRing}
    (hv : k.SignaturesVerify ce) (h : k.buildTrustWeb keyOrder signatureOrder fuel = some k')
    {u : String} {key : Key} (hu : k'.keys u = some key) (ht : key.trusted = true) :
    k.VerifiedChain ce u :=
  (buildTrustWeb_reached h hu ht).verifiedChain hv

/-! ### The loop ends

An identity is enqueued only when it is known and not yet visited, and it is then marked visited, so
the length of the queue plus the number of known identities not yet visited falls at each
iteration: the loop ends after at most twice as many iterations as there are keys. -/

/-- The identities of `dom` that are known and not yet visited: each can still be enqueued once. -/
def Web.unvisited (dom : List String) (w : Web) : Nat :=
  dom.countP fun u => (w.keys u).isSome && !w.visited u

/-- The web `w` has its known identities in `dom` and at most `n` iterations of the loop left. -/
structure WebBound (dom : List String) (n : Nat) (w : Web) : Prop where
  covered : ∀ u, (w.keys u).isSome → u ∈ dom
  measure : w.queue.length + w.unvisited dom ≤ n

theorem countP_lt_countP_of_imp {p q : String → Bool} {l : List String} (hpq : ∀ x, p x → q x)
    {a : String} (ha : a ∈ l) (hq : q a) (hp : ¬p a) : l.countP p < l.countP q := by
  simp only [List.countP_eq_length_filter]
  have hsub := List.monotone_filter_right l hpq
  refine lt_of_le_of_ne hsub.length_le fun h => hp ?_
  have ha' : a ∈ l.filter p := hsub.eq_of_length h ▸ List.mem_filter.mpr ⟨ha, hq⟩
  exact (List.mem_filter.mp ha').2

section
variable {dom : List String} {n : Nat}

theorem webBound_credit {w : Web} (hw : WebBound dom n w) (current : String)
    (signatures : String → Option Signature) (signee : String) :
    WebBound dom n (credit current signatures w signee) := by
  rcases credit_cases current signatures w signee with h | ⟨-, signeeKey, e, -, hsk, h⟩
  · rw [h]; exact hw
  set keys := Function.update w.keys signee (some { signeeKey with effectiveTrust := e })
  have hsome : ∀ u, (keys u).isSome = (w.keys u).isSome := fun u => by
    by_cases hu : u = signee
    · simp [keys, hu, hsk]
    · simp [keys, hu]
  have covered : ∀ u, (keys u).isSome → u ∈ dom := fun u h => hw.covered u (hsome u ▸ h)
  rcases h with h | ⟨hv, h⟩ <;> rw [h]
  · exact ⟨covered, by simpa only [Web.unvisited, hsome] using hw.measure⟩
  · refine ⟨covered, ?_⟩
    have hlt : Web.unvisited dom ⟨keys, w.queue ++ [signee], Function.update w.visited signee true⟩ <
        w.unvisited dom := by
      refine countP_lt_countP_of_imp (fun u hu => ?_) (hw.covered signee (by simp [hsk]))
        (by simp [hsk, hv]) (by simp [keys])
      by_cases he : u = signee
      · subst he
        simp at hu
      · simpa [keys, he] using hu
    have := hw.measure
    simp only [List.length_append, List.length_singleton]
    omega

theorem webBound_foldl_credit (current : String) (signatures : String → Option Signature) :
    ∀ (signees : List String) (w : Web), WebBound dom n w →
      WebBound dom n (signees.foldl (credit current signatures) w)
  | [], _, hw => hw
  | signee :: signees, _, hw =>
    webBound_foldl_credit current signatures signees _ (webBound_credit hw current signatures signee)

/-- The loop returns within its fuel from a web within that bound. -/
theorem processQueue_isSome (signatureOrder : String → List String) :
    ∀ (n : Nat) (w : Web), WebBound dom n w → (processQueue signatureOrder n w).isSome
  | n, ⟨keys, [], visited⟩, _ => by cases n <;> rfl
  | 0, ⟨_, _ :: _, _⟩, hw => by simpa using hw.measure
  | n + 1, ⟨keys, current :: queue, visited⟩, hw => by
    have hw' : WebBound dom n ⟨keys, queue, visited⟩ :=
      ⟨hw.covered, by simpa [Nat.add_right_comm _ 1] using hw.measure⟩
    simp only [processQueue]
    split
    · exact processQueue_isSome signatureOrder n _ hw'
    · exact processQueue_isSome signatureOrder n _ (webBound_foldl_credit _ _ _ _ hw')

end

theorem webBound_initialWeb {k : KeyRing} {keyOrder : List String}
    (hk : ∀ u, (k.keys u).isSome → u ∈ keyOrder) :
    WebBound keyOrder (2 * keyOrder.length) (initialWeb k keyOrder) where
  covered u h := hk u (by simpa [initialWeb] using h)
  measure := by
    have h1 : (initialWeb k keyOrder).queue.length ≤ keyOrder.length := List.length_filter_le _ _
    have h2 : (initialWeb k keyOrder).unvisited keyOrder ≤ keyOrder.length := List.countP_le_length _
    omega

/-- `buildTrustWeb` returns when its fuel is twice the number of keys, `keyOrder` visiting each key. -/
theorem buildTrustWeb_isSome {k : KeyRing} {keyOrder : List String}
    (signatureOrder : String → List String) {fuel : Nat}
    (hk : ∀ u, (k.keys u).isSome → u ∈ keyOrder) (hfuel : 2 * keyOrder.length ≤ fuel) :
    (k.buildTrustWeb keyOrder signatureOrder fuel).isSome := by
  have hw := webBound_initialWeb hk
  simpa [KeyRing.buildTrustWeb] using
    processQueue_isSome signatureOrder fuel _ ⟨hw.covered, hw.measure.trans hfuel⟩

/-- A signature chain: `self` signs `A`'s key with trust HIGH, `A` signs `B`'s with trust HIGH, and
`B` signs `C`'s with trust LOW; no key but `self`'s is trusted locally. -/
def chainRing : KeyRing :=
  ((((newKeyRing "self").setKey "self"
    ⟨[], fun u => if u = "A" then some ⟨[0], trustHIGH⟩ else none, trustULTIMATE, trustULTIMATE⟩).setKey
    "A" ⟨[1], fun u => if u = "B" then some ⟨[1], trustHIGH⟩ else none, trustNONE, trustNONE⟩).setKey
    "B" ⟨[2], fun u => if u = "C" then some ⟨[2], trustLOW⟩ else none, trustNONE, trustNONE⟩).setKey
    "C" ⟨[3], fun _ => none, trustNONE, trustNONE⟩

theorem chainRing_keys : ∀ u, (chainRing.keys u).isSome → u ∈ ["self", "A", "B", "C"] :=
  fun u h => by
    simp only [chainRing, KeyRing.setKey_keys, newKeyRing, Function.update_apply] at h
    split_ifs at h <;> simp_all

/-- `chainRing` holds four keys, and fuel eight suffices. -/
theorem buildTrustWeb_isSome_chainRing :
    (∀ u, (chainRing.keys u).isSome → u ∈ ["self", "A", "B", "C"]) ∧
      2 * ["self", "A", "B", "C"].length ≤ 8 ∧
      (chainRing.buildTrustWeb ["self", "A", "B", "C"] (fun _ => ["self", "A", "B", "C"]) 8).isSome :=
  ⟨chainRing_keys, by decide, buildTrustWeb_isSome _ chainRing_keys (by decide)⟩

end PnyxDB.Keyring
