import PnyxDB.Consensus.QueryStore.Memo
import PnyxDB.Consensus.QueryStore.Remove

/-!
The operations built from `isApplicable` calls: `CheckState`, `CheckpointChoice` and
`OutdatedQueries`, with the flag writes of `checkSpeculativeState` and `Endorse`. A relation that
every `isApplicable` call establishes and that composes (`ApplyRel`) holds across each of their
loops; two are used, the content being kept on every store and the cache being filled in on a store
with the invariant (`Memoizes`). With them each operation has an `Effect`; for `CheckState` the
query it commits was just found applicable, which is what `commit` needs.
-/

namespace PnyxDB.Consensus

namespace QueryStore

/-- A relation between stores that every `isApplicable` call with fuel `fuel` establishes and that
composes. -/
structure ApplyRel (fuel : Nat) (R : QueryStore → QueryStore → Prop) : Prop where
  refl : ∀ s, R s s
  trans : ∀ {a b c}, R a b → R b c → R a c
  app : ∀ s u r, isApplicable fuel s u = some r → R s r.2

section
variable {fuel : Nat} {R : QueryStore → QueryStore → Prop}

theorem definitelyValid_rel (hR : ApplyRel fuel R) (now : Int) :
    ∀ (s : QueryStore) (cs cp : List String) (r : (Bool × List String) × QueryStore),
      s.definitelyValid fuel now cs cp = some r → R s r.2
  | s, [], cp, r, h => by
    simp only [definitelyValid, Option.some.injEq] at h
    exact h ▸ hR.refl s
  | s, c :: cs, cp, r, h => by
    simp only [definitelyValid] at h
    split at h
    · simp only [Option.some.injEq] at h
      exact h ▸ hR.refl s
    · split at h
      · exact definitelyValid_rel hR now s cs cp r h
      · obtain ⟨⟨app, s1⟩, h1, rfl⟩ := Option.map_eq_some'.mp h
        exact hR.app s c _ h1

theorem countDefinitelyValid_rel (hR : ApplyRel fuel R) (now : Int) :
    ∀ (s : QueryStore) (es : List EndorsementInfo) (n : Nat) (cp : List String)
      (r : (Nat × List String) × QueryStore),
      s.countDefinitelyValid fuel now es n cp = some r → R s r.2
  | s, [], n, cp, r, h => by
    simp only [countDefinitelyValid, Option.some.injEq] at h
    exact h ▸ hR.refl s
  | s, e :: es, n, cp, r, h => by
    simp only [countDefinitelyValid] at h
    cases h1 : s.definitelyValid fuel now e.endorsement.conditions cp with
    | none => simp [h1] at h
    | some p =>
      simp only [h1, Option.bind_eq_bind, Option.some_bind] at h
      exact hR.trans (definitelyValid_rel hR now s _ _ p h1)
        (countDefinitelyValid_rel hR now _ es _ _ r h)

theorem checkpointChoice_rel (hR : ApplyRel fuel R) :
    ∀ (s : QueryStore) (uuids : List String) (r : (Bool × List Proof) × QueryStore),
      s.checkpointChoice fuel uuids = some r → R s r.2
  | s, [], r, h => by
    simp only [checkpointChoice, Option.some.injEq] at h
    exact h ▸ hR.refl s
  | s, uuid :: us, r, h => by
    simp only [checkpointChoice] at h
    cases h1 : isApplicable fuel s uuid with
    | none => simp [h1] at h
    | some p =>
      obtain ⟨app, s1⟩ := p
      have hs1 := hR.app s uuid _ h1
      simp only [h1, Option.bind_eq_bind, Option.some_bind] at h
      cases app
      · exact hR.trans hs1 (checkpointChoice_rel hR s1 us r (by simpa using h))
      · simp only [if_true] at h
        split at h <;> (simp only [pure, Option.some.injEq] at h; exact h ▸ hs1)

theorem outdatedQueries_rel (hR : ApplyRel fuel R) (now : Int) :
    ∀ (s : QueryStore) (order : List String) (r : List String × QueryStore),
      s.outdatedQueries fuel now order = some r → R s r.2
  | s, [], r, h => by
    simp only [outdatedQueries, Option.some.injEq] at h
    exact h ▸ hR.refl s
  | s, u :: us, r, h => by
    simp only [outdatedQueries] at h
    split at h
    · exact outdatedQueries_rel hR now s us r h
    · split at h
      · exact outdatedQueries_rel hR now s us r h
      · rename_i qi _ _
        cases h1 : isApplicable fuel s qi.uuid with
        | none => simp [h1] at h
        | some p =>
          obtain ⟨app, s1⟩ := p
          have hs1 := hR.app s qi.uuid _ h1
          simp only [h1, Option.bind_eq_bind, Option.some_bind] at h
          cases app
          · simp only [Bool.false_eq_true, if_false] at h
            cases ht : qi.query.getTimeout now with
            | none => simp [ht] at h
            | some t =>
              simp only [ht, Option.some_bind] at h
              cases h2 : s1.outdatedQueries fuel now us with
              | none => simp [h2] at h
              | some p =>
                simp only [h2, Option.some_bind, pure, Option.some.injEq] at h
                exact h ▸ hR.trans hs1 (outdatedQueries_rel hR now s1 us p h2)
          · exact hR.trans hs1 (outdatedQueries_rel hR now s1 us r (by simpa using h))

end

theorem CacheWrites.applyRel {R : QueryStore → QueryStore → Prop} (hR : CacheWrites R)
    (fuel : Nat) : ApplyRel fuel R :=
  ⟨hR.refl, hR.trans, isApplicable_rel hR fuel⟩

theorem sameContent_applyRel (fuel : Nat) : ApplyRel fuel SameContent :=
  CacheWrites.sameContent.applyRel fuel

/-- On a store with the cache invariant, the cache is filled in from `s` to `s'`. -/
def Memoizes (s s' : QueryStore) : Prop := s.CacheInv → Memo s s'

theorem memoizes_applyRel (fuel : Nat) : ApplyRel fuel Memoizes where
  refl _ hi := .refl hi
  trans h h' hi := (h hi).trans (h' (h hi).inv)
  app s u r h hi := (isApplicable_memo fuel s u r.1 r.2 hi h).2.1

/-- A finite acyclic store has a rank and an applicability function. -/
theorem exists_ranked_isApp {s : QueryStore} (hk : ∃ keys, s.KeysIn keys) (hac : s.Acyclic) :
    ∃ rank f, s.Ranked rank ∧ s.IsApp f :=
  let ⟨_, hk⟩ := hk
  let ⟨rank, hr⟩ := exists_rank hk hac
  let ⟨f, hf⟩ := exists_isApp hr
  ⟨rank, f, hr, hf⟩

/-- Rewriting the local flags of an entry keeps the content, the vouched values and the
invariant. -/
theorem memo_setFlags {s : QueryStore} {u : String} {qi qi' : QueryInfo} (hi : s.CacheInv)
    (hu : s.queries u = some qi) (hq : qi'.erase = qi.erase) (hca : qi'.cached = qi.cached)
    (he : qi'.endorsements = qi.endorsements) : Memo s (s.setQuery u qi') := by
  have hst : qi'.state = qi.state := QueryInfo.state_eq_of_erase hq
  have hset : (s.setQuery u qi').settled u = s.settled u := by simp [settled, hu, hst, hca]
  refine memo_setQuery hi hu hq (fun b hb => hset ▸ hb) (fun hp hf => ?_)
    (fun e he' hf => hi.coherent.endorsement u qi hu e (he ▸ he') hf)
    (fun b hb => hi.sound u b (hset ▸ hb))
  simpa [NodeCached, he, hca] using hi.coherent.node u qi hu (hst ▸ hp) (hca ▸ hf)

theorem checkSpeculativeState_memo {s : QueryStore} (u : String) (a : Bool) (hi : s.CacheInv) :
    Memo s (s.checkSpeculativeState u a) := by
  unfold checkSpeculativeState
  split
  · exact .refl hi
  · rename_i hu
    exact memo_setFlags hi hu rfl rfl rfl

theorem checkSpeculativeState_sameContent (s : QueryStore) (u : String) (a : Bool) :
    s.SameContent (s.checkSpeculativeState u a) := by
  unfold checkSpeculativeState
  split
  · exact .refl s
  · rename_i hu
    exact sameContent_setQuery hu rfl

/-- An operation that keeps the content, and fills in the cache on a store with the invariant, has
an effect. -/
theorem effect_of_memo {s s' : QueryStore} (hw : s.WellKeyed) (hsame : s.SameContent s')
    (hm : Memoizes s s') : Effect s s' :=
  .of_sameContent hsame hw fun hi => ⟨(hm hi).inv.coherent, (hm hi).inv.sound⟩

theorem endorse_effect {s : QueryStore} (u : String) (hw : s.WellKeyed) :
    Effect s (s.endorse u) := by
  unfold endorse
  split
  · exact .refl hw
  · rename_i qi hu
    exact effect_of_memo hw (sameContent_setQuery hu rfl) fun hi => memo_setFlags hi hu rfl rfl rfl

theorem checkpointChoice_effect {s : QueryStore} {fuel : Nat} {uuids : List String}
    {r : (Bool × List Proof) × QueryStore} (hw : s.WellKeyed)
    (h : s.checkpointChoice fuel uuids = some r) : Effect s r.2 :=
  effect_of_memo hw (checkpointChoice_rel (sameContent_applyRel fuel) s uuids r h)
    (checkpointChoice_rel (memoizes_applyRel fuel) s uuids r h)

theorem outdatedQueries_effect {s : QueryStore} {fuel : Nat} {now : Int} {order : List String}
    {r : List String × QueryStore} (hw : s.WellKeyed)
    (h : s.outdatedQueries fuel now order = some r) : Effect s r.2 :=
  effect_of_memo hw (outdatedQueries_rel (sameContent_applyRel fuel) now s order r h)
    (outdatedQueries_rel (memoizes_applyRel fuel) now s order r h)

/-- What `CheckState` does: it computes the applicability of `uuid` and records it; then, for an
applicable query it holds and has not committed, it may count the definitely valid endorsements and
commit when they reach the threshold. It reports `true` only when it commits. -/
theorem checkState_cases {s s' : QueryStore} {n : Nat} {now : Int} {uuid : String}
    {r : Bool × List String} (h : s.checkState n now uuid = some (r, s')) :
    ∃ app s1, isApplicable n s uuid = some (app, s1) ∧
      ((s' = s1.checkSpeculativeState uuid app ∧ r.1 = false) ∨
        ∃ qi m cp s3, app = true ∧ (s1.checkSpeculativeState uuid app).queries uuid = some qi ∧
          qi.state ≠ .committed ∧
          (s1.checkSpeculativeState uuid app).countDefinitelyValid n now qi.endorsements 0 [] =
            some ((m, cp), s3) ∧
          ((s' = s3 ∧ r.1 = false) ∨ s3.threshold ≤ m ∧ s3.commit n uuid = some s' ∧ r = (true, cp))) := by
  unfold checkState at h
  cases h1 : isApplicable n s uuid with
  | none => simp [h1] at h
  | some p =>
    obtain ⟨app, s1⟩ := p
    refine ⟨app, s1, rfl, ?_⟩
    simp only [h1, Option.bind_eq_bind, Option.some_bind] at h
    cases app
    · simp only [Bool.not_false, if_true, pure, Option.some.injEq, Prod.mk.injEq] at h
      exact .inl ⟨h.2.symm, by rw [← h.1]⟩
    simp only [Bool.not_true, Bool.false_eq_true, if_false, pure, Option.some_bind] at h
    cases hq : (s1.checkSpeculativeState uuid true).queries uuid with
    | none =>
      simp only [hq, Option.some.injEq, Prod.mk.injEq] at h
      exact .inl ⟨h.2.symm, by rw [← h.1]⟩
    | some qi =>
      simp only [hq] at h
      split_ifs at h with hc
      · simp only [Option.some.injEq, Prod.mk.injEq] at h
        exact .inl ⟨h.2.symm, by rw [← h.1]⟩
      cases h3 : (s1.checkSpeculativeState uuid true).countDefinitelyValid n now qi.endorsements 0 [] with
      | none => simp [h3] at h
      | some p =>
        obtain ⟨⟨m, cp⟩, s3⟩ := p
        simp only [h3, Option.some_bind] at h
        refine .inr ⟨qi, m, cp, s3, rfl, rfl, hc, h3, ?_⟩
        split_ifs at h with hth
        · cases h4 : s3.commit n uuid with
          | none => simp [h4] at h
          | some s4 =>
            simp only [h4, Option.some_bind, Option.some.injEq, Prod.mk.injEq] at h
            exact .inr ⟨hth, congrArg some h.2, h.1.symm⟩
        · simp only [Option.some.injEq, Prod.mk.injEq] at h
          exact .inl ⟨h.2.symm, by rw [← h.1]⟩

theorem checkState_effect {s s' : QueryStore} {n : Nat} {now : Int} {uuid : String}
    {r : Bool × List String} (hw : s.WellKeyed) (h : s.checkState n now uuid = some (r, s')) :
    Effect s s' := by
  obtain ⟨app, s1, h1, hs'⟩ := checkState_cases h
  set s2 := s1.checkSpeculativeState uuid app
  have hs2 : s.SameContent s2 := (isApplicable_sameContent n s uuid _ h1).trans
    (checkSpeculativeState_sameContent s1 uuid app)
  -- with the invariant, `s2` has the cache filled in and vouches for the value found
  have hm2 : s.CacheInv → Memo s s2 ∧ s2.settled uuid = some app := fun hi =>
    let ⟨_, hm1, hset, _⟩ := isApplicable_memo n s uuid app s1 hi h1
    let hm := checkSpeculativeState_memo uuid app hm1.inv
    ⟨hm1.trans hm, hm.settled _ _ hset⟩
  have hE2 : Effect s s2 := effect_of_memo hw hs2 fun hi => (hm2 hi).1
  rcases hs' with ⟨rfl, -⟩ | ⟨qi, m, cp, s3, rfl, -, -, h3, hs'⟩
  · exact hE2
  -- the counting loop fills the cache further, so `uuid` is still vouched applicable
  have hm3 : s.CacheInv → Memo s s3 ∧ s3.settled uuid = some true := fun hi =>
    let ⟨hm, hset⟩ := hm2 hi
    let hm' := countDefinitelyValid_rel (memoizes_applyRel n) now s2 _ _ _ _ h3 hm.inv
    ⟨hm.trans hm', hm'.settled _ _ hset⟩
  have hE3 : Effect s s3 := effect_of_memo hw
    (hs2.trans (countDefinitelyValid_rel (sameContent_applyRel n) now s2 _ _ _ _ h3))
    fun hi => (hm3 hi).1
  rcases hs' with ⟨rfl, -⟩ | ⟨-, h4, -⟩
  · exact hE3
  exact ⟨hE3.toFrame.trans (commit_frame hE3.wellKeyed h4), fun hi =>
    (commit_effect hE3.wellKeyed (fun v hv => by simpa [(hm3 hi).2] using hv.symm) h4).cache
      (hE3.cache hi)⟩

end QueryStore

end PnyxDB.Consensus
