import PnyxDB.Keyring.TrustWeb
import Mathlib.Data.List.Nodup
import Mathlib.Data.List.Perm.Subperm
import Mathlib.Algebra.Order.BigOperators.Group.List
import Mathlib.Algebra.Order.Ring.Nat

/-!
The web of trust as a least fixpoint. An identity is trusted when its local trust reaches
`TrustThreshold`, or when its local trust, combined by `TrustLevel.Add` with the trust of the
signatures made on it by trusted identities (each capped at `TrustThreshold`), reaches it
(`KeyRing.Trusted`, the least set closed under these two rules).

Toward the threshold a trust level is worth its value capped at the threshold (`TrustLevel.worth`),
and `TrustLevel.Add` adds worths, capped (`TrustLevel.worth_add`): the order in which contributions
are combined does not matter. The queue loop of `buildTrustWeb` keeps, for every key, its effective
trust worth its local trust plus the signatures of the identities it dequeued so far, and it
enqueues an identity the first time that worth reaches the threshold (`FixInv`). When the queue is
empty, the dequeued identities are the trusted ones: the loop trusts exactly `KeyRing.Trusted`,
whatever the order it visits the key map and each signature map in (`buildTrustWeb_trusted_iff`).
-/

namespace PnyxDB.Keyring

/-! ### Worth toward the threshold -/

/-- What a trust level is worth toward `TrustThreshold`: its value, capped at the threshold. -/
def TrustLevel.worth (t : TrustLevel) : Nat := Min.min t.toNat 3

namespace TrustLevel

theorem le_iff_toNat_le (a b : TrustLevel) : a ≤ b ↔ a.toNat ≤ b.toNat := by
  rw [UInt8.le_def, BitVec.le_def]
  rfl

theorem toNat_add (a b : TrustLevel) : (a + b).toNat = (a.toNat + b.toNat) % 256 := by
  show (a.toBitVec + b.toBitVec).toNat = _
  rw [BitVec.toNat_add]
  rfl

theorem worth_le (t : TrustLevel) : t.worth ≤ 3 := Nat.min_le_right _ _

theorem threshold_le_iff_worth (t : TrustLevel) : trustThreshold ≤ t ↔ t.worth = 3 := by
  rw [le_iff_toNat_le, worth, show trustThreshold.toNat = 3 from rfl]
  omega

/-- `TrustLevel.Add` adds worths, capped at the threshold. -/
theorem worth_add (a b : TrustLevel) : (TrustLevel.add a b).worth = Min.min (a.worth + b.worth) 3 := by
  have ha := a.toNat_lt_size
  have hb := b.toNat_lt_size
  have h3 : trustThreshold.toNat = 3 := rfl
  have hu : trustULTIMATE.toNat = 255 := rfl
  unfold TrustLevel.add worth
  split_ifs with h1 h2
  · rcases h1 with rfl | rfl <;> simp only [hu] <;> omega
  · simp only [ge_iff_le, le_iff_toNat_le, h3] at h2
    simp only [h3]
    omega
  · simp only [ge_iff_le, le_iff_toNat_le, h3, not_or, not_le] at h2
    rw [toNat_add]
    simp only [UInt8.size] at ha hb
    omega

/-- A signature's trust capped by a trusted signer's effective trust is worth the trust alone. -/
theorem worth_min_of_threshold_le (t : TrustLevel) {e : TrustLevel} (he : trustThreshold ≤ e) :
    (TrustLevel.min t e).worth = t.worth := by
  rw [le_iff_toNat_le, show trustThreshold.toNat = 3 from rfl] at he
  unfold TrustLevel.min worth
  split_ifs with h
  · rfl
  · rw [UInt8.lt_def, BitVec.lt_def] at h
    change ¬t.toNat < e.toNat at h
    omega

end TrustLevel

/-! ### The least set of trusted identities -/

namespace KeyRing

/-- The trust `signer`'s signature on `signee` contributes, capped at `TrustThreshold`;
`TrustNONE` without a signature. -/
def contribution (k : KeyRing) (signer signee : String) : TrustLevel :=
  match k.keys signer with
  | some key =>
    match key.signatures signee with
    | some signature => TrustLevel.min signature.trust trustThreshold
    | none => trustNONE
  | none => trustNONE

/-- The worth of the signatures the identities `signers` made on `signee`. -/
def credited (k : KeyRing) (signers : List String) (signee : String) : Nat :=
  (signers.map fun s => (k.contribution s signee).worth).sum

/-- The identities the web of trust should trust: the least set that holds every key whose local
trust reaches `TrustThreshold`, and every key whose local trust, combined by `TrustLevel.Add` with
the contributions of the signatures made on it by some of its members, reaches it. -/
inductive Trusted (k : KeyRing) : String → Prop
  | root {u : String} {key : Key} : k.keys u = some key → trustThreshold ≤ key.trust → Trusted k u
  | signed {u : String} {key : Key} (signers : List String) : k.keys u = some key → signers.Nodup →
      (∀ s ∈ signers, Trusted k s) →
      trustThreshold ≤ signers.foldl (fun acc s => TrustLevel.add acc (k.contribution s u)) key.trust →
      Trusted k u

theorem worth_foldl_contribution (k : KeyRing) (u : String) :
    ∀ (signers : List String) (a : TrustLevel),
      (signers.foldl (fun acc s => TrustLevel.add acc (k.contribution s u)) a).worth =
        Min.min (a.worth + k.credited signers u) 3
  | [], a => by simp [credited, Nat.min_eq_left a.worth_le]
  | s :: signers, a => by
    rw [List.foldl_cons, worth_foldl_contribution k u signers, TrustLevel.worth_add]
    simp only [credited, List.map_cons, List.sum_cons]
    omega

theorem credited_append (k : KeyRing) (l l' : List String) (u : String) :
    k.credited (l ++ l') u = k.credited l u + k.credited l' u := by
  simp [credited]

/-- More signers never credit less. -/
theorem credited_le_of_subset (k : KeyRing) {l l' : List String} (hn : l.Nodup) (hs : l ⊆ l')
    (u : String) : k.credited l u ≤ k.credited l' u := by
  obtain ⟨l₀, hp, hsub⟩ := hn.subperm hs
  unfold credited
  rw [← (hp.map _).sum_eq]
  exact (hsub.map _).sum_le_sum fun _ _ => Nat.zero_le _

/-- A key whose local trust and the signatures of some trusted identities are worth the threshold
is `Trusted`. -/
theorem trusted_of_credited {k : KeyRing} {seen : List String} (hn : seen.Nodup)
    (hs : ∀ s ∈ seen, k.Trusted s) {u : String} {key : Key} (hk : k.keys u = some key)
    (hc : 3 ≤ key.trust.worth + k.credited seen u) : k.Trusted u := by
  refine .signed seen hk hn hs ?_
  rw [TrustLevel.threshold_le_iff_worth, worth_foldl_contribution]
  omega

/-! ### The queue loop -/

/-- What the queue loop keeps, for the keyring `k` it started from: `seen` are the identities it
dequeued, and `cred u` the worth credited to `u` so far, at most what the signatures of `seen` on
`u` are worth. Every key's effective trust is worth its local trust plus what was credited to it; an
identity is visited exactly when its effective trust reaches the threshold, and it is then queued
or dequeued, once; every such identity is `Trusted`. -/
structure FixInv (k : KeyRing) (seen : List String) (cred : String → Nat) (w : Web) : Prop where
  frame : ∀ u key', w.keys u = some key' → ∃ key, k.keys u = some key ∧
    key'.signatures = key.signatures ∧ key'.trust = key.trust
  known : ∀ u, k.keys u ≠ none → w.keys u ≠ none
  worth : ∀ u key', w.keys u = some key' →
    key'.effectiveTrust.worth = Min.min (key'.trust.worth + cred u) 3
  visited : ∀ u, w.visited u = true ↔
    ∃ key', w.keys u = some key' ∧ trustThreshold ≤ key'.effectiveTrust
  queued : ∀ u, w.visited u = true ↔ u ∈ seen ∨ u ∈ w.queue
  nodup : (seen ++ w.queue).Nodup
  sound : ∀ u ∈ seen ++ w.queue, k.Trusted u
  credited : ∀ u, cred u ≤ k.credited seen u

namespace FixInv

variable {k : KeyRing} {seen : List String} {cred : String → Nat} {w : Web}

/-- Crediting nothing, or an identity without a key, keeps the invariant. -/
theorem update_cred (h : FixInv k seen cred w) (signee : String) (d : Nat)
    (hd : d = 0 ∨ w.keys signee = none) (hle : cred signee + d ≤ k.credited seen signee) :
    FixInv k seen (Function.update cred signee (cred signee + d)) w := by
  refine { h with worth := fun u key' hu => ?_, credited := fun u => ?_ }
  · by_cases hus : u = signee
    · subst hus
      rcases hd with rfl | hn
      · simpa using h.worth u key' hu
      · simp [hn] at hu
    · rw [Function.update_noteq hus]
      exact h.worth u key' hu
  · by_cases hus : u = signee
    · subst hus
      simpa using hle
    · rw [Function.update_noteq hus]
      exact h.credited u

/-- Raising the effective trust of a keyed `signee` to the worth of its new credit keeps the
invariant, with any visited marks and queue that agree with the new keys. -/
theorem of_setKey (h : FixInv k seen cred w) {signee : String} {signeeKey : Key}
    (hv : w.keys signee = some signeeKey) {d : Nat} {e : TrustLevel}
    (he : e.worth = Min.min (signeeKey.trust.worth + (cred signee + d)) 3)
    (hle : cred signee + d ≤ k.credited seen signee) {queue : List String}
    {visited : String → Bool}
    (hvisited : ∀ u, visited u = true ↔ ∃ key', Function.update w.keys signee
      (some { signeeKey with effectiveTrust := e }) u = some key' ∧ trustThreshold ≤ key'.effectiveTrust)
    (hqueued : ∀ u, visited u = true ↔ u ∈ seen ∨ u ∈ queue) (hnodup : (seen ++ queue).Nodup)
    (hsound : ∀ u ∈ seen ++ queue, k.Trusted u) :
    FixInv k seen (Function.update cred signee (cred signee + d))
      ⟨Function.update w.keys signee (some { signeeKey with effectiveTrust := e }), queue, visited⟩ := by
  refine ⟨fun u key' hu => ?_, fun u hu => ?_, fun u key' hu => ?_, hvisited, hqueued, hnodup,
    hsound, fun u => ?_⟩ <;> dsimp only at *
  · rcases eq_or_ne u signee with rfl | hus
    · rw [Function.update_same, Option.some.injEq] at hu
      subst hu
      obtain ⟨key, hk, hsg, htr⟩ := h.frame _ _ hv
      exact ⟨key, hk, hsg, htr⟩
    · exact h.frame u key' (by rwa [Function.update_noteq hus] at hu)
  · rcases eq_or_ne u signee with rfl | hus
    · simp
    · rw [Function.update_noteq hus]
      exact h.known u hu
  · rcases eq_or_ne u signee with rfl | hus
    · rw [Function.update_same, Option.some.injEq] at hu
      subst hu
      simpa using he
    · rw [Function.update_noteq hus] at hu ⊢
      exact h.worth u key' hu
  · rcases eq_or_ne u signee with rfl | hus
    · simpa using hle
    · rw [Function.update_noteq hus]
      exact h.credited u

/-- One `credit` of the dequeued identity `current` on `signee`: the signee is credited with the
worth of `current`'s signature on it, and enqueued when its effective trust first reaches the
threshold. -/
theorem credit (h : FixInv k seen cred w) {current : String}
    {signatures : String → Option Signature} (hcur : current ∈ seen)
    (hsig : ∀ key, k.keys current = some key → key.signatures = signatures) (signee : String)
    (hle : cred signee + (k.contribution current signee).worth ≤ k.credited seen signee) :
    FixInv k seen (Function.update cred signee (cred signee + (k.contribution current signee).worth))
      (Keyring.credit current signatures w signee) := by
  obtain ⟨currentKey, hck, hct⟩ := (h.visited current).mp ((h.queued current).mpr (.inl hcur))
  obtain ⟨ckey, hk, -, -⟩ := h.frame current currentKey hck
  have hsigs := hsig ckey hk
  unfold Keyring.credit
  cases hs : signatures signee with
  | none =>
    have hz : (k.contribution current signee).worth = 0 := by
      simp [contribution, hk, hsigs, hs, TrustLevel.worth, trustNONE]
    exact h.update_cred signee _ (.inl hz) hle
  | some signature =>
    cases hv : w.keys signee with
    | none => exact h.update_cred signee _ (.inr hv) hle
    | some signeeKey =>
      simp only [hck]
      set d := (k.contribution current signee).worth
      have hd : d = signature.trust.worth := by
        simp only [d, contribution, hk, hsigs, hs]
        exact TrustLevel.worth_min_of_threshold_le _ (by decide)
      set e := TrustLevel.add signeeKey.effectiveTrust
        (TrustLevel.min signature.trust currentKey.effectiveTrust)
      have hold := h.worth signee signeeKey hv
      have he : e.worth = Min.min (signeeKey.trust.worth + (cred signee + d)) 3 := by
        rw [TrustLevel.worth_add, TrustLevel.worth_min_of_threshold_le _ hct, hold, hd]
        omega
      have hother : ∀ u, u ≠ signee → ((∃ key', Function.update w.keys signee
          (some { signeeKey with effectiveTrust := e }) u = some key' ∧
            trustThreshold ≤ key'.effectiveTrust) ↔ ∃ key', w.keys u = some key' ∧
          trustThreshold ≤ key'.effectiveTrust) := fun u hus => by rw [Function.update_noteq hus]
      split_ifs with hen
      · -- `signee` reaches the threshold for the first time: it is enqueued
        have hns : signee ∉ seen ++ w.queue := fun hm => by
          have := (h.queued signee).mpr (List.mem_append.mp hm)
          simp [hen.2] at this
        have hseen : seen.Nodup := List.Nodup.sublist (List.sublist_append_left _ _) h.nodup
        obtain ⟨key, hk', -, htr⟩ := h.frame _ _ hv
        have htrusted : k.Trusted signee := by
          refine trusted_of_credited hseen (fun s hs => h.sound s (List.mem_append_left _ hs)) hk' ?_
          have h3 := (TrustLevel.threshold_le_iff_worth e).mp hen.1
          rw [← htr]
          omega
        refine h.of_setKey hv he hle (fun u => ?_) (fun u => ?_) ?_ (fun u hu => ?_)
        · rcases eq_or_ne u signee with rfl | hus
          · simpa using hen.1
          · rw [Function.update_noteq hus, h.visited u, hother u hus]
        · rcases eq_or_ne u signee with rfl | hus
          · simp
          · simp [Function.update_noteq hus, h.queued u, hus]
        · rw [← List.append_assoc]
          exact List.nodup_append.mpr ⟨h.nodup, List.nodup_singleton _, by simpa using hns⟩
        · rw [← List.append_assoc, List.mem_append, List.mem_singleton] at hu
          rcases hu with hu | rfl
          · exact h.sound u hu
          · exact htrusted
      · -- no new identity reaches the threshold
        refine h.of_setKey hv he hle (fun u => ?_) h.queued h.nodup h.sound
        rcases eq_or_ne u signee with rfl | hus
        · simp only [Function.update_same, Option.some.injEq, exists_eq_left', h.visited]
          constructor
          · rintro ⟨key', hk', ht'⟩
            rw [hv, Option.some.injEq] at hk'
            subst hk'
            rw [TrustLevel.threshold_le_iff_worth] at ht' ⊢
            omega
          · intro hte
            by_contra hnv
            exact hen ⟨hte, Bool.eq_false_iff.mpr fun hvis => hnv ((h.visited u).mp hvis)⟩
        · rw [h.visited u, hother u hus]

/-- The credits of `current` on each of `signees`, once each. -/
theorem foldl_credit {current : String} {signatures : String → Option Signature}
    (hcur : current ∈ seen) (hsig : ∀ key, k.keys current = some key → key.signatures = signatures) :
    ∀ (signees : List String) (cred : String → Nat) (w : Web), signees.Nodup →
      FixInv k seen cred w →
      (∀ v ∈ signees, cred v + (k.contribution current v).worth ≤ k.credited seen v) →
      FixInv k seen (fun u => cred u + if u ∈ signees then (k.contribution current u).worth else 0)
        (signees.foldl (Keyring.credit current signatures) w)
  | [], cred, w, _, h, _ => by simpa using h
  | v :: vs, cred, w, hn, h, hle => by
    obtain ⟨hv, hvs⟩ := List.nodup_cons.mp hn
    have h2 := foldl_credit hcur hsig vs _ _ hvs (h.credit hcur hsig v (hle v (List.mem_cons_self _ _)))
      fun v' hv' => by
        rw [Function.update_noteq fun e => hv (by rw [← e]; exact hv')]
        exact hle v' (List.mem_cons_of_mem _ hv')
    have hcred : (fun u => Function.update cred v (cred v + (k.contribution current v).worth) u +
          if u ∈ vs then (k.contribution current u).worth else 0) =
        fun u => cred u + if u ∈ v :: vs then (k.contribution current u).worth else 0 := by
      funext u
      by_cases huv : u = v
      · subst huv
        simp [hv]
      · simp [Function.update_noteq huv, huv]
    rw [List.foldl_cons, ← hcred]
    exact h2

end FixInv

/-- `order` visits every key of the keyring once: a possible iteration order of Go's map. -/
def IsKeyOrder (k : KeyRing) (order : List String) : Prop :=
  order.Nodup ∧ ∀ u, (k.keys u).isSome → u ∈ order

/-- `signatureOrder s` visits the signature map of the key of `s`, each signee once. -/
def SignatureOrders (k : KeyRing) (signatureOrder : String → List String) : Prop :=
  ∀ s key, k.keys s = some key → (signatureOrder s).Nodup ∧
    ∀ u, (key.signatures u).isSome → u ∈ signatureOrder s

section
variable {k : KeyRing} {signatureOrder : String → List String}

/-- One iteration of the queue loop: the dequeued identity credits every signee of its key. -/
theorem FixInv.dequeue (hso : k.SignatureOrders signatureOrder) {done queue : List String}
    {keys : String → Option Key} {visited : String → Bool} {current : String} {currentKey : Key}
    (h : FixInv k done (k.credited done) ⟨keys, current :: queue, visited⟩)
    (hck : keys current = some currentKey) :
    FixInv k (done ++ [current]) (k.credited (done ++ [current]))
      ((signatureOrder current).foldl (Keyring.credit current currentKey.signatures)
        ⟨keys, queue, visited⟩) := by
  obtain ⟨key₀, hk₀, hsg₀, -⟩ := h.frame current currentKey hck
  obtain ⟨hnd, hcov⟩ := hso current key₀ hk₀
  have hsig : ∀ key, k.keys current = some key → key.signatures = currentKey.signatures :=
    fun key hk => by rw [hk₀, Option.some.injEq] at hk; rw [← hk, hsg₀]
  have hone : ∀ u, k.credited [current] u = (k.contribution current u).worth := fun u => by
    simp [KeyRing.credited]
  have h1 : FixInv k (done ++ [current]) (k.credited done) ⟨keys, queue, visited⟩ :=
    { h with
      queued := fun u => by simpa [or_assoc] using h.queued u
      nodup := by simpa using h.nodup
      sound := fun u hu => h.sound u (by simpa [or_assoc] using hu)
      credited := fun u => by rw [credited_append]; omega }
  have h2 := FixInv.foldl_credit (List.mem_append_right _ (List.mem_singleton_self _)) hsig _ _ _
    hnd h1 fun v _ => by rw [credited_append, hone]
  have hcred : (fun u => k.credited done u +
      if u ∈ signatureOrder current then (k.contribution current u).worth else 0) =
      k.credited (done ++ [current]) := by
    funext u
    rw [credited_append, hone]
    split_ifs with hu
    · rfl
    · have hn : key₀.signatures u = none := by
        by_contra hs
        exact hu (hcov u (Option.ne_none_iff_isSome.mp hs))
      simp [contribution, hk₀, hn, TrustLevel.worth, trustNONE]
  rw [← hcred]
  exact h2

/-- The queue loop, run to its end, keeps the invariant for the identities it dequeued. -/
theorem fixInv_processQueue (hso : k.SignatureOrders signatureOrder) :
    ∀ (n : Nat) (w w' : Web) (done : List String), FixInv k done (k.credited done) w →
      processQueue signatureOrder n w = some w' →
      ∃ done', FixInv k done' (k.credited done') w' ∧ w'.queue = []
  | n, ⟨keys, [], visited⟩, w', done, h, hp => by
    cases n <;>
      (simp only [processQueue, Option.some.injEq] at hp; exact ⟨done, hp ▸ h, hp ▸ rfl⟩)
  | 0, ⟨_, _ :: _, _⟩, _, _, _, hp => by simp [processQueue] at hp
  | n + 1, ⟨keys, current :: queue, visited⟩, w', done, h, hp => by
    obtain ⟨currentKey, hck, -⟩ :=
      (h.visited current).mp ((h.queued current).mpr (.inr (List.mem_cons_self _ _)))
    simp only [processQueue] at hp
    simp only at hck
    rw [hck] at hp
    exact fixInv_processQueue hso n _ w' _ (h.dequeue hso hck) hp

theorem fixInv_initialWeb {keyOrder : List String} (hko : k.IsKeyOrder keyOrder) :
    FixInv k [] (k.credited []) (initialWeb k keyOrder) := by
  have hw := webInv_initialWeb k keyOrder
  have hq : ∀ u, u ∈ (initialWeb k keyOrder).queue ↔
      ∃ key, k.keys u = some key ∧ trustThreshold ≤ key.trust := fun u => by
    simp only [initialWeb, List.mem_filter]
    cases hk : k.keys u with
    | none => simp
    | some key => simp [hko.2 u (by simp [hk])]
  refine ⟨fun u key' hu => ?_, hw.known, fun u key' hu => ?_, fun u => ?_, fun u => ?_, ?_,
    fun u hu => ?_, fun u => le_rfl⟩
  · obtain ⟨key, hk, -, hsg, htr⟩ := hw.frame u key' hu
    exact ⟨key, hk, hsg, htr⟩
  · simp only [initialWeb, Option.map_eq_some'] at hu
    obtain ⟨key, -, rfl⟩ := hu
    simp [credited, Nat.min_eq_left (TrustLevel.worth_le _)]
  · rw [show (initialWeb k keyOrder).visited u = decide (u ∈ (initialWeb k keyOrder).queue) from rfl,
      decide_eq_true_iff, hq]
    simp [initialWeb]
  · simp [show (initialWeb k keyOrder).visited u = decide (u ∈ (initialWeb k keyOrder).queue) from rfl]
  · exact hko.1.filter _
  · obtain ⟨key, hk, ht⟩ := (hq u).mp (by simpa using hu)
    exact .root hk ht

end

/-- After `buildTrustWeb`, the keyring trusts exactly the identities of `Trusted`, whatever the
orders in which the loops visit the key map and the signature maps. -/
theorem buildTrustWeb_trusted_iff {k k' : KeyRing} {keyOrder : List String}
    {signatureOrder : String → List String} {fuel : Nat} (hko : k.IsKeyOrder keyOrder)
    (hso : k.SignatureOrders signatureOrder)
    (h : k.buildTrustWeb keyOrder signatureOrder fuel = some k') (u : String) :
    k'.trusted u = some true ↔ k.Trusted u := by
  simp only [KeyRing.buildTrustWeb, Option.map_eq_some'] at h
  obtain ⟨w, hw, hk'⟩ := h
  have hkeys : k'.keys = w.keys := by rw [← hk']
  obtain ⟨done, hinv, hq⟩ := fixInv_processQueue hso fuel _ w [] (fixInv_initialWeb hko) hw
  have hdone : ∀ v, (∃ key', w.keys v = some key' ∧ trustThreshold ≤ key'.effectiveTrust) ↔
      v ∈ done := fun v => by rw [← hinv.visited, hinv.queued, hq]; simp
  have htr : k'.trusted u = some true ↔ ∃ key', w.keys u = some key' ∧
      trustThreshold ≤ key'.effectiveTrust := by
    simp [KeyRing.trusted, Key.trusted, hkeys]
  rw [htr, hdone]
  clear htr
  refine ⟨fun hu => hinv.sound u (List.mem_append_left _ hu), fun ht => ?_⟩
  induction ht with
  | @root v key hk ht =>
    obtain ⟨key', hk'⟩ := Option.ne_none_iff_exists'.mp (hinv.known v (by simp [hk]))
    obtain ⟨key₀, hk₀, -, htrust⟩ := hinv.frame v key' hk'
    rw [hk, Option.some.injEq] at hk₀
    subst hk₀
    refine (hdone v).mp ⟨key', hk', ?_⟩
    rw [TrustLevel.threshold_le_iff_worth] at ht ⊢
    have := hinv.worth v key' hk'
    rw [htrust, ht] at this
    omega
  | @signed v key signers hk hn _ hthr ih =>
    obtain ⟨key', hk'⟩ := Option.ne_none_iff_exists'.mp (hinv.known v (by simp [hk]))
    obtain ⟨key₀, hk₀, -, htrust⟩ := hinv.frame v key' hk'
    rw [hk, Option.some.injEq] at hk₀
    subst hk₀
    refine (hdone v).mp ⟨key', hk', ?_⟩
    rw [TrustLevel.threshold_le_iff_worth, worth_foldl_contribution] at hthr
    have hle := credited_le_of_subset k hn (fun s hs => ih s hs) v
    have := hinv.worth v key' hk'
    rw [htrust] at this
    rw [TrustLevel.threshold_le_iff_worth]
    omega

theorem chainRing_signatureOrders :
    chainRing.SignatureOrders fun _ => ["self", "A", "B", "C"] := fun s key hk => by
  refine ⟨(by decide : ["self", "A", "B", "C"].Nodup), fun u hu => ?_⟩
  simp only [chainRing, KeyRing.setKey_keys, newKeyRing, Function.update_apply] at hk
  split_ifs at hk <;> (obtain rfl := Option.some.inj hk) <;> simp [Key.zero] at hu <;> simp [hu]

/-- Along the chain of `chainRing`, the web of trust trusts `B`, signed with trust HIGH by `A`,
whom `self` signed with trust HIGH, and not `C`, whose one signature carries trust LOW. -/
theorem buildTrustWeb_trusted_iff_chainRing :
    ∃ k', chainRing.buildTrustWeb ["self", "A", "B", "C"] (fun _ => ["self", "A", "B", "C"]) 8 =
        some k' ∧ k'.trusted "B" = some true ∧ k'.trusted "C" = some false ∧
      ∀ u, (k'.trusted u = some true ↔ chainRing.Trusted u) := by
  have hko : chainRing.IsKeyOrder ["self", "A", "B", "C"] := ⟨by decide, chainRing_keys⟩
  have hrun : (chainRing.buildTrustWeb ["self", "A", "B", "C"] (fun _ => ["self", "A", "B", "C"])
      8).map (fun k => (k.trusted "B", k.trusted "C")) = some (some true, some false) := by
    decide
  obtain ⟨k', hk', hbc⟩ := Option.map_eq_some'.mp hrun
  simp only [Prod.mk.injEq] at hbc
  exact ⟨k', hk', hbc.1, hbc.2,
    fun u => buildTrustWeb_trusted_iff hko chainRing_signatureOrders hk' u⟩

end KeyRing

end PnyxDB.Keyring
