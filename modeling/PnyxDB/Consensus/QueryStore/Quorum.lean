import PnyxDB.Consensus.QueryStore.Lifecycle

/-!
A query is committed only with a quorum of endorsements. `CheckState` commits a query when at least
`threshold` of its endorsements are definitely valid, and no operation commits it otherwise or takes
an endorsement away (`Grows`). So in every store the operations reach, each committed query holds at
least `threshold` endorsements (`Quorate`, `Reachable.quorate`).
-/

namespace PnyxDB.Consensus

namespace QueryStore

/-- Every committed query holds at least `threshold` endorsements. -/
def Quorate (s : QueryStore) : Prop :=
  ∀ u qi, s.queries u = some qi → qi.state = .committed → s.threshold ≤ qi.endorsements.length

/-- `s'` commits no query that `s` had not committed, takes no endorsement from a committed query,
and keeps the threshold. -/
structure Grows (s s' : QueryStore) : Prop where
  committed : ∀ u qi', s'.queries u = some qi' → qi'.state = .committed →
    ∃ qi, s.queries u = some qi ∧ qi.state = .committed ∧
      qi.endorsements.length ≤ qi'.endorsements.length
  threshold : s'.threshold = s.threshold

namespace Grows

variable {s s' s'' : QueryStore}

theorem refl (s : QueryStore) : Grows s s := ⟨fun _ qi h hc => ⟨qi, h, hc, le_rfl⟩, rfl⟩

theorem trans (h : Grows s s') (h' : Grows s' s'') : Grows s s'' := by
  refine ⟨fun u qi'' hu hc => ?_, h'.threshold.trans h.threshold⟩
  obtain ⟨qi', h1, hc1, hle1⟩ := h'.committed u qi'' hu hc
  obtain ⟨qi, h0, hc0, hle0⟩ := h.committed u qi' h1 hc1
  exact ⟨qi, h0, hc0, hle0.trans hle1⟩

theorem quorate (h : Grows s s') (hq : s.Quorate) : s'.Quorate := fun u qi' hu hc => by
  obtain ⟨qi, h0, hc0, hle⟩ := h.committed u qi' hu hc
  rw [h.threshold]
  exact (hq u qi h0 hc0).trans (by exact_mod_cast hle)

theorem of_queries (hq : s'.queries = s.queries) (ht : s'.threshold = s.threshold) : Grows s s' :=
  ⟨fun _ qi hu hc => ⟨qi, hq ▸ hu, hc, le_rfl⟩, ht⟩

end Grows

/-- `s'` keeps the threshold of `s`, and is quorate if `s` is. -/
structure KeepsQuorum (s s' : QueryStore) : Prop where
  threshold : s'.threshold = s.threshold
  quorate : s.Quorate → s'.Quorate

theorem KeepsQuorum.refl (s : QueryStore) : KeepsQuorum s s := ⟨rfl, id⟩

theorem KeepsQuorum.trans {s s' s'' : QueryStore} (h : KeepsQuorum s s') (h' : KeepsQuorum s' s'') :
    KeepsQuorum s s'' :=
  ⟨h'.threshold.trans h.threshold, h'.quorate ∘ h.quorate⟩

theorem Grows.keepsQuorum {s s' : QueryStore} (h : Grows s s') : KeepsQuorum s s' :=
  ⟨h.threshold, h.quorate⟩

theorem SameContent.grows {s s' : QueryStore} (h : s.SameContent s') : Grows s s' := by
  refine ⟨fun u qi' hu hc => ?_, h.threshold.symm⟩
  have he := h.queries u
  rw [hu, Option.map_some'] at he
  obtain ⟨qi, h0, he⟩ := Option.map_eq_some'.mp he
  have hlen := congrArg (fun qi : QueryInfo => qi.endorsements.length) he
  refine ⟨qi, h0, ?_, by simpa using hlen.le⟩
  simpa [hc] using congrArg QueryInfo.state he

theorem Links.grows {s s' : QueryStore} (h : Links s s') : Grows s s' := by
  refine ⟨fun u qi' hu hc => ?_, h.threshold⟩
  obtain ⟨qi, h0, ds, rfl⟩ := h.some u qi' hu
  exact ⟨qi, h0, hc, le_rfl⟩

/-- Rewriting an entry grows the store when the new entry is committed only if the old one was, with
no more endorsements. -/
theorem grows_setQuery {s : QueryStore} {u : String} {qi : QueryInfo}
    (h : qi.state = .committed → ∃ qi0, s.queries u = some qi0 ∧ qi0.state = .committed ∧
      qi0.endorsements.length ≤ qi.endorsements.length) : Grows s (s.setQuery u qi) := by
  refine ⟨fun v qi' hv hc => ?_, rfl⟩
  by_cases hvu : v = u
  · subst hvu
    simp only [setQuery_queries, if_true, Option.some.injEq] at hv
    exact hv ▸ h (hv ▸ hc)
  · simp only [setQuery_queries, hvu, if_false] at hv
    exact ⟨qi', hv, hc, le_rfl⟩

theorem cascadeMark_grows {s s' : QueryStore} {n : Nat} {qi : QueryInfo} (hw : s.WellKeyed)
    (h : cascadeMark n s qi = some s')
    (hqi : qi.state = .committed → ∃ qi0, s.queries qi.uuid = some qi0 ∧
      qi0.state = .committed ∧ qi0.endorsements.length ≤ qi.endorsements.length) :
    Grows s s' :=
  (grows_setQuery hqi).trans (cascadeMark_spec n s qi s' hw h).marked.same.grows

/-! ### Each operation -/

theorem drop_grows {s s' : QueryStore} {n : Nat} {u : String} (hw : s.WellKeyed)
    (h : s.drop n u = some s') : Grows s s' := by
  unfold drop at h
  cases hu : s.queries u with
  | none =>
    simp only [hu, Option.some.injEq] at h
    exact h ▸ .refl s
  | some qi =>
    simp only [hu] at h
    exact cascadeMark_grows hw h fun hc => by simp at hc

theorem dropAll_grows {s s' : QueryStore} {n : Nat} {us : List String} (hw : s.WellKeyed)
    (h : us.foldlM (fun s u => s.drop n u) s = some s') : Grows s s' ∧ s'.WellKeyed :=
  foldlM_rel Grows.refl Grows.trans
    (fun _ _ _ hw h => ⟨drop_grows hw h, (drop_effect hw h).wellKeyed⟩) us s s' hw h

/-- Committing an entry that holds `threshold` endorsements keeps every committed query quorate. -/
theorem commit_keepsQuorum {s s' : QueryStore} {n : Nat} {u : String} {qi : QueryInfo}
    (hw : s.WellKeyed) (hu : s.queries u = some qi) (hlen : s.threshold ≤ qi.endorsements.length)
    (h : s.commit n u = some s') : KeepsQuorum s s' := by
  simp only [commit, hu] at h
  have hg := (dropAll_grows (setCommitted_frame hw hu).wellKeyed h).1
  refine ⟨hg.threshold, fun hq => hg.quorate fun v qv hv hc => ?_⟩
  by_cases hvu : v = u
  · subst hvu
    simp only [setQuery_queries, if_true, Option.some.injEq] at hv
    exact hv ▸ hlen
  · simp only [setQuery_queries, hvu, if_false] at hv
    exact hq v qv hv hc

/-- The counting loop of `CheckState` counts at most one per endorsement. -/
theorem countDefinitelyValid_le {fuel : Nat} {now : Int} :
    ∀ (es : List EndorsementInfo) (s : QueryStore) (k : Nat) (cp : List String) {m : Nat}
      {cp' : List String} {s' : QueryStore},
      s.countDefinitelyValid fuel now es k cp = some ((m, cp'), s') → m ≤ k + es.length
  | [], s, k, cp, m, cp', s', h => by
    simp only [countDefinitelyValid, Option.some.injEq, Prod.mk.injEq] at h
    omega
  | e :: es, s, k, cp, m, cp', s', h => by
    simp only [countDefinitelyValid, Option.bind_eq_bind, Option.bind_eq_some] at h
    obtain ⟨⟨⟨dv, cp1⟩, s1⟩, -, h2⟩ := h
    have := countDefinitelyValid_le es s1 _ cp1 h2
    simp only [List.length_cons]
    split at this <;> omega

theorem checkState_keepsQuorum {s s' : QueryStore} {n : Nat} {now : Int} {uuid : String}
    {r : Bool × List String} (hw : s.WellKeyed) (h : s.checkState n now uuid = some (r, s')) :
    KeepsQuorum s s' := by
  obtain ⟨app, s1, h1, hs'⟩ := checkState_cases h
  have hs2 : s.SameContent (s1.checkSpeculativeState uuid app) :=
    (isApplicable_sameContent n s uuid _ h1).trans (checkSpeculativeState_sameContent s1 uuid app)
  rcases hs' with ⟨rfl, -⟩ | ⟨qi, m, cp, s3, rfl, hqi, -, h3, hs'⟩
  · exact hs2.grows.keepsQuorum
  have h23 : (s1.checkSpeculativeState uuid true).SameContent s3 :=
    countDefinitelyValid_rel (sameContent_applyRel n) now _ _ _ _ _ h3
  have hk3 : KeepsQuorum s s3 := (hs2.trans h23).grows.keepsQuorum
  rcases hs' with ⟨rfl, -⟩ | ⟨hth, h4, -⟩
  · exact hk3
  -- the entry of `uuid` in `s3` holds the endorsements just counted
  obtain ⟨qi3, hu3, he3⟩ := Option.map_eq_some'.mp ((h23.queries uuid).symm.trans
    (by rw [hqi, Option.map_some']))
  have hlen : qi3.endorsements.length = qi.endorsements.length := by
    simpa using congrArg (fun qi : QueryInfo => qi.endorsements.length) he3
  have hm := countDefinitelyValid_le _ _ _ _ h3
  exact hk3.trans (commit_keepsQuorum ((hs2.trans h23).wellKeyed hw) hu3 (by omega) h4)

theorem addEndorsement_grows {s s' : QueryStore} {n : Nat} {e : Endorsement} {r : Bool × Bool}
    (hw : s.WellKeyed) (h : s.addEndorsement n e = some (r, s')) : Grows s s' := by
  rcases addEndorsement_cases h with ⟨hq, -, rfl⟩ | ⟨qi, ins', qi', s1, hq, hr, -, hc⟩
  · exact .of_queries rfl rfl
  obtain ⟨hl, hqi⟩ := addEndorsementInternal_spec hr
  -- the entry keeps its state and gains endorsements only
  have hkeep : qi'.state = qi.state ∧ qi.endorsements.length ≤ qi'.endorsements.length := by
    rcases hqi with rfl | ⟨rfl, -⟩
    · exact ⟨rfl, le_rfl⟩
    · simp
  refine hl.grows.trans (cascadeMark_grows (hl.wellKeyed hw) hc fun hcq => ?_)
  rw [(addEndorsement_base hw hq hr).1]
  cases hs1 : s1.queries e.uuid with
  | none => simp [(hl.none e.uuid).mpr hs1] at hq
  | some qi1 =>
    obtain ⟨qi0, h0, ds, rfl⟩ := hl.some e.uuid qi1 hs1
    rw [hq, Option.some.injEq] at h0
    subst h0
    exact ⟨_, rfl, hkeep.1 ▸ hcq, hkeep.2⟩

theorem addQuery_grows {s s' : QueryStore} {n : Nat} {q : Query} {r : Bool}
    (hw : s.WellKeyed) (h : s.addQuery n q = some (r, s')) : Grows s s' := by
  rcases addQuery_cases h with ⟨-, -, rfl⟩ | ⟨-, -, es, t, s'', -, ⟨hl, -⟩, hc, rfl⟩
  · exact .refl _
  have hwt : ({ t with pendingDependencies := Function.update t.pendingDependencies q.uuid [] }
      : QueryStore).WellKeyed := fun u qi hu => hl.wellKeyed hw u qi hu
  have hgt : Grows s
      { t with pendingDependencies := Function.update t.pendingDependencies q.uuid [] } :=
    hl.grows.trans (.of_queries rfl rfl)
  -- the new entry is pending
  have hgc := cascadeMark_grows hwt hc fun hcq => by simp at hcq
  exact (hgt.trans hgc).trans (.of_queries rfl rfl)

/-- Every operation of the store keeps every committed query quorate. -/
theorem StoreOp.keepsQuorum {s s' : QueryStore} {op : StoreOp} {fuel : Nat} (hw : s.WellKeyed)
    (h : op.run fuel s = some s') : KeepsQuorum s s' := by
  cases op with
  | addQuery q =>
    obtain ⟨⟨_, _⟩, h1, rfl⟩ := Option.map_eq_some'.mp h
    exact (addQuery_grows hw h1).keepsQuorum
  | addEndorsement e =>
    obtain ⟨⟨_, _⟩, h1, rfl⟩ := Option.map_eq_some'.mp h
    exact (addEndorsement_grows hw h1).keepsQuorum
  | checkState uuid now =>
    obtain ⟨⟨_, _⟩, h1, rfl⟩ := Option.map_eq_some'.mp h
    exact checkState_keepsQuorum hw h1
  | checkpointChoice uuids =>
    obtain ⟨⟨_, _⟩, h1, rfl⟩ := Option.map_eq_some'.mp h
    exact (checkpointChoice_rel (sameContent_applyRel fuel) s uuids _ h1).grows.keepsQuorum
  | checkpointDrop uuids => exact (dropAll_grows hw h).1.keepsQuorum
  | endorse uuid =>
    simp only [StoreOp.run, Option.some.injEq] at h
    subst h
    unfold endorse
    split
    · exact .refl s
    · rename_i qi hu
      exact (sameContent_setQuery hu (by rfl)).grows.keepsQuorum
  | outdatedQueries order now =>
    obtain ⟨⟨_, _⟩, h1, rfl⟩ := Option.map_eq_some'.mp h
    exact (outdatedQueries_rel (sameContent_applyRel fuel) now s order _ h1).grows.keepsQuorum

theorem init_quorate (t : Int) : (init t).Quorate := fun _ _ h => by
  simp [init, newQueryStore] at h

theorem Reachable.keepsQuorum {t : Int} {s : QueryStore} (h : s.Reachable t) :
    KeepsQuorum (init t) s := by
  induction h with
  | refl => exact .refl _
  | tail hr hstep ih =>
    obtain ⟨op, fuel, -, hrun⟩ := hstep
    exact ih.trans (StoreOp.keepsQuorum (Reachable.wellFormed hr).1 hrun)

/-- In every store the operations reach from `NewEngine`'s store of quorum `t`, each committed query
holds at least `t` endorsements. -/
theorem committed_has_quorum {t : Int} {s : QueryStore} (h : s.Reachable t) {u : String}
    {qi : QueryInfo} (hu : s.queries u = some qi) (hc : qi.state = .committed) :
    t ≤ qi.endorsements.length := by
  have hk := h.keepsQuorum
  have := hk.quorate (init_quorate t) u qi hu hc
  rwa [hk.threshold] at this

/-- After `commitRun`, `r` is committed with its one endorsement, at quorum 1. -/
theorem committed_has_quorum_commitRun :
    ∃ (s : QueryStore) (qi : QueryInfo), s.Reachable 1 ∧ s.queries "r" = some qi ∧
      qi.state = .committed ∧ (1 : Int) ≤ qi.endorsements.length := by
  have hrun : (runOps 1 (init 1) commitRun).map (fun s => (s.queries "r").map (·.state)) =
      some (some .committed) := by decide
  obtain ⟨s, hs, hst⟩ := Option.map_eq_some'.mp hrun
  obtain ⟨qi, hqi, hc⟩ := Option.map_eq_some'.mp hst
  have hr : s.Reachable 1 :=
    reachable_runOps _ _ _ .refl (by simp [commitRun, StoreOp.Admissible]) hs
  exact ⟨s, qi, hr, hqi, hc, committed_has_quorum hr hqi hc⟩

end QueryStore

end PnyxDB.Consensus
