import PnyxDB.Consensus.QueryStore.Run
import PnyxDB.Consensus.QueryStore.Lifecycle

/-!
The flag `Endorsed` of an entry: `Endorse` sets it once the engine has signed an endorsement of the
query, and `GetConflicting` reads it. No other operation writes it. Every write of an entry copies
the flag of the entry it rewrites (`isApplicable` puts back the copy it took when it started, the
cascade the entry it read), and the one new entry, that of `AddQuery`, goes under a uuid that had
none. So a query endorsed locally stays stored and endorsed along every run
(`StoreOp.keepsEndorsed`).
-/

namespace PnyxDB.Consensus

namespace QueryStore

/-- The query stored under `u` was endorsed locally. -/
def endorsedAt (s : QueryStore) (u : String) : Bool := (s.queries u).any QueryInfo.endorsed

@[simp] theorem endorsedAt_setQuery (s : QueryStore) (u v : String) (qi : QueryInfo) :
    (s.setQuery u qi).endorsedAt v = if v = u then qi.endorsed else s.endorsedAt v := by
  by_cases h : v = u <;> simp [endorsedAt, h]

theorem endorsedAt_of_eq {s : QueryStore} {u : String} {qi : QueryInfo} (h : s.queries u = some qi) :
    s.endorsedAt u = qi.endorsed := by
  simp [endorsedAt, h]

/-- Every query endorsed locally in `s` is stored, and endorsed, in `s'`. -/
def KeepsEndorsed (s s' : QueryStore) : Prop := ∀ u, s.endorsedAt u = true → s'.endorsedAt u = true

namespace KeepsEndorsed

variable {s s' s'' : QueryStore}

theorem refl (s : QueryStore) : KeepsEndorsed s s := fun _ => id

theorem trans (h : KeepsEndorsed s s') (h' : KeepsEndorsed s' s'') : KeepsEndorsed s s'' :=
  fun u hu => h' u (h u hu)

/-- Writing, after `s'`, an entry that is endorsed if the entry of `s` was. -/
theorem setQuery (h : KeepsEndorsed s s') {u : String} {qi : QueryInfo}
    (hqi : s.endorsedAt u = true → qi.endorsed = true) : KeepsEndorsed s (s'.setQuery u qi) :=
  fun v hv => by
    by_cases hvu : v = u
    · subst hvu
      simpa using hqi hv
    · simpa [hvu] using h v hv

theorem of_queries (hq : s'.queries = s.queries) : KeepsEndorsed s s' :=
  fun u hu => by simpa [endorsedAt, hq] using hu

theorem links (h : Links s s') : KeepsEndorsed s s' := fun u hu => by
  cases hu' : s'.queries u with
  | none => simp [endorsedAt, (h.none u).mpr hu'] at hu
  | some qi' =>
    obtain ⟨qi, hs, ds, rfl⟩ := h.some u qi' hu'
    simpa [endorsedAt, hu', hs] using hu

end KeepsEndorsed

theorem keepsEndorsed_setEndorsement (s : QueryStore) (u : String) (i : Nat) (e : EndorsementInfo) :
    KeepsEndorsed s (s.setEndorsement u i e) := by
  unfold setEndorsement
  split
  · rename_i qi hu
    exact (KeepsEndorsed.refl s).setQuery fun h => by rwa [endorsedAt_of_eq hu] at h
  · exact .refl s

theorem WellKeyed.setQuery {s : QueryStore} (hw : s.WellKeyed) (qi : QueryInfo) :
    (s.setQuery qi.uuid qi).WellKeyed := fun u qu hu => by
  by_cases hux : u = qi.uuid
  · simp only [hux, setQuery_queries, if_true, Option.some.injEq] at hu ⊢
    exact hu ▸ rfl
  · simp only [setQuery_queries, hux, if_false] at hu
    exact hw u qu hu

theorem cascadeMark_wellKeyed {s s' : QueryStore} {n : Nat} {qi : QueryInfo} (hw : s.WellKeyed)
    (h : cascadeMark n s qi = some s') : s'.WellKeyed :=
  (cascadeMark_spec n s qi s' hw h).marked.same.wellKeyed (hw.setQuery qi)

/-! ### `isApplicable` -/

/-- `isApplicable` writes caches only: its last write puts back the flags of the entry it read
first. -/
theorem CacheWrites.keepsEndorsed : CacheWrites KeepsEndorsed where
  refl := KeepsEndorsed.refl
  trans h h' := h.trans h'
  setEndorsement _ _ _ := keepsEndorsed_setEndorsement _ _ _ _
  setQuery hs hu _ := hs.setQuery fun h => by rwa [endorsedAt_of_eq hu] at h

theorem keepsEndorsed_applyRel (fuel : Nat) : ApplyRel fuel KeepsEndorsed :=
  CacheWrites.keepsEndorsed.applyRel fuel

/-! ### The cascade -/

/-- A cascade from an entry that keeps the flag of the one it replaces keeps every flag: it writes
the dependents it reads back with their own flags. -/
theorem cascadeMark_keepsEndorsed :
    ∀ (n : Nat) {s s' : QueryStore} {qi : QueryInfo}, s.WellKeyed →
      (s.endorsedAt qi.uuid = true → qi.endorsed = true) → cascadeMark n s qi = some s' →
      KeepsEndorsed s s'
  | 0, _, _, _, _, _, h => by simp [cascadeMark] at h
  | n + 1, s, s', qi, hw, hqi, h => by
    have h1 : KeepsEndorsed s (s.setQuery qi.uuid { qi with cached := qi.cached.mark }) :=
      (KeepsEndorsed.refl s).setQuery hqi
    simp only [cascadeMark] at h
    split_ifs at h
    · simp only [Option.some.injEq] at h
      exact h ▸ h1
    refine h1.trans (foldlM_rel KeepsEndorsed.refl KeepsEndorsed.trans (fun t d t' hwt ht => ?_)
      _ _ _ (hw.setQuery { qi with cached := qi.cached.mark }) h).1
    unfold cascadeDependent at ht
    split at ht
    · simp only [Option.some.injEq] at ht
      exact ht ▸ ⟨.refl t, hwt⟩
    · rename_i qid hd
      have hx : qid.uuid = d := hwt d qid hd
      refine ⟨cascadeMark_keepsEndorsed n hwt (fun h => ?_) ht, cascadeMark_wellKeyed hwt ht⟩
      show qid.endorsed = true
      rw [← endorsedAt_of_eq hd, ← hwt d qid hd]
      exact h

/-! ### Each operation -/

section
variable {s s' : QueryStore} {n : Nat}

theorem drop_keepsEndorsed {u : String} (hw : s.WellKeyed) (h : s.drop n u = some s') :
    KeepsEndorsed s s' := by
  unfold drop at h
  split at h
  · simp only [Option.some.injEq] at h
    exact h ▸ .refl s
  · rename_i qi hu
    refine cascadeMark_keepsEndorsed n hw (fun h => ?_) h
    show qi.endorsed = true
    rw [← endorsedAt_of_eq hu, ← hw u qi hu]
    exact h

theorem dropAll_keepsEndorsed {us : List String} (hw : s.WellKeyed)
    (h : us.foldlM (fun s u => s.drop n u) s = some s') : KeepsEndorsed s s' :=
  (foldlM_rel KeepsEndorsed.refl KeepsEndorsed.trans
    (fun _ _ _ hw h => ⟨drop_keepsEndorsed hw h, (drop_effect hw h).wellKeyed⟩) us s s' hw h).1

theorem commit_keepsEndorsed {u : String} (hw : s.WellKeyed) (h : s.commit n u = some s') :
    KeepsEndorsed s s' := by
  unfold commit at h
  split at h
  · simp only [Option.some.injEq] at h
    exact h ▸ .refl s
  · rename_i qi hu
    exact ((KeepsEndorsed.refl s).setQuery fun h => by rwa [endorsedAt_of_eq hu] at h).trans
      (dropAll_keepsEndorsed (setCommitted_frame hw hu).wellKeyed h)

theorem checkState_keepsEndorsed {now : Int} {uuid : String} {r : Bool × List String}
    (hw : s.WellKeyed) (h : s.checkState n now uuid = some (r, s')) : KeepsEndorsed s s' := by
  obtain ⟨app, s1, h1, hs'⟩ := checkState_cases h
  have hk2 : KeepsEndorsed s (s1.checkSpeculativeState uuid app) := by
    have hk1 := (keepsEndorsed_applyRel n).app s uuid _ h1
    unfold checkSpeculativeState
    split
    · exact hk1
    · rename_i qi hu
      exact hk1.setQuery fun h => by rw [← endorsedAt_of_eq hu]; exact hk1 uuid h
  rcases hs' with ⟨rfl, -⟩ | ⟨qi, m, cp, s3, rfl, -, -, h3, hs'⟩
  · exact hk2
  have hk3 := hk2.trans (countDefinitelyValid_rel (keepsEndorsed_applyRel n) now _ _ _ _ _ h3)
  rcases hs' with ⟨rfl, -⟩ | ⟨-, h4, -⟩
  · exact hk3
  have hw3 : s3.WellKeyed := ((isApplicable_sameContent n s uuid _ h1).trans
    (checkSpeculativeState_sameContent s1 uuid true) |>.trans
    (countDefinitelyValid_rel (sameContent_applyRel n) now _ _ _ _ _ h3)).wellKeyed hw
  exact hk3.trans (commit_keepsEndorsed hw3 h4)

theorem addEndorsement_keepsEndorsed {e : Endorsement} {r : Bool × Bool} (hw : s.WellKeyed)
    (h : s.addEndorsement n e = some (r, s')) : KeepsEndorsed s s' := by
  rcases addEndorsement_cases h with ⟨hq, -, rfl⟩ | ⟨qi, ins', qi', s1, hq, hr, -, hc⟩
  · exact .of_queries rfl
  obtain ⟨hl, hqi⟩ := addEndorsementInternal_spec hr
  have hflag : qi'.endorsed = qi.endorsed := by rcases hqi with rfl | ⟨rfl, -⟩ <;> rfl
  refine (KeepsEndorsed.links hl).trans (cascadeMark_keepsEndorsed n (hl.wellKeyed hw) ?_ hc)
  rw [(addEndorsement_base hw hq hr).1, hflag]
  intro h1
  cases h1' : s1.queries e.uuid with
  | none => simp [endorsedAt, h1'] at h1
  | some qi1 =>
    obtain ⟨qi0, h0, ds, rfl⟩ := hl.some e.uuid qi1 h1'
    rw [hq] at h0
    cases h0
    simpa [endorsedAt, h1'] using h1

theorem addQuery_keepsEndorsed {q : Query} {r : Bool} (hw : s.WellKeyed)
    (h : s.addQuery n q = some (r, s')) : KeepsEndorsed s s' := by
  rcases addQuery_cases h with ⟨-, -, rfl⟩ | ⟨hq, -, es, t, s'', -, ⟨hl, -⟩, hc, rfl⟩
  · exact .refl _
  have hwt : ({ t with pendingDependencies := Function.update t.pendingDependencies q.uuid [] }
      : QueryStore).WellKeyed := fun u qi hu => hl.wellKeyed hw u qi hu
  have hnone : t.queries q.uuid = none := (hl.none q.uuid).mp hq
  have ht : KeepsEndorsed t
      { t with pendingDependencies := Function.update t.pendingDependencies q.uuid [] } :=
    .of_queries rfl
  refine ((KeepsEndorsed.links hl).trans (ht.trans
    (cascadeMark_keepsEndorsed n hwt (fun h1 => ?_) hc))).trans (.of_queries rfl)
  simp [endorsedAt, QueryInfo.uuid, hnone] at h1

theorem endorse_keepsEndorsed (s : QueryStore) (u : String) : KeepsEndorsed s (s.endorse u) := by
  unfold endorse
  split
  · exact .refl s
  · exact (KeepsEndorsed.refl s).setQuery fun _ => rfl
end

/-- Every operation keeps the queries endorsed locally stored and endorsed. -/
theorem StoreOp.keepsEndorsed {s s' : QueryStore} {op : StoreOp} {fuel : Nat} (hw : s.WellKeyed)
    (h : op.run fuel s = some s') : KeepsEndorsed s s' := by
  cases op with
  | addQuery q =>
    obtain ⟨⟨_, _⟩, h1, rfl⟩ := Option.map_eq_some'.mp h
    exact addQuery_keepsEndorsed hw h1
  | addEndorsement e =>
    obtain ⟨⟨_, _⟩, h1, rfl⟩ := Option.map_eq_some'.mp h
    exact addEndorsement_keepsEndorsed hw h1
  | checkState uuid now =>
    obtain ⟨⟨_, _⟩, h1, rfl⟩ := Option.map_eq_some'.mp h
    exact checkState_keepsEndorsed hw h1
  | checkpointChoice uuids =>
    obtain ⟨_, h1, rfl⟩ := Option.map_eq_some'.mp h
    exact checkpointChoice_rel (keepsEndorsed_applyRel fuel) s uuids _ h1
  | checkpointDrop uuids => exact dropAll_keepsEndorsed hw h
  | endorse uuid =>
    simp only [StoreOp.run, Option.some.injEq] at h
    exact h ▸ endorse_keepsEndorsed s uuid
  | outdatedQueries order now =>
    obtain ⟨_, h1, rfl⟩ := Option.map_eq_some'.mp h
    exact outdatedQueries_rel (keepsEndorsed_applyRel fuel) now s order _ h1


end QueryStore

end PnyxDB.Consensus
