import PnyxDB.Consensus.QueryStore.Termination

/-!
Committed is not terminal. `drop` rewrites the state of the query it is given without looking at it
(`drop_state`), and neither `CheckpointDrop` nor `commit`, which drops every dependent of the query
it commits, skips a committed query. A checkpoint chosen before a commit and applied after it
therefore demotes the committed query to dropped.

Nor is a drop remembered for a uuid the store does not know yet: `drop` builds the zero `queryInfo{}`
for it, and `cascadeMark` stops at its nil query without storing anything (`checkpointDrop_unknown`).
The query can arrive afterwards, pending, and be committed like any other
(`checkpointDrop_forgets_unknown`).
-/

namespace PnyxDB.Consensus

namespace QueryStore

/-- The state of the query stored under `u`. -/
def stateOf (s : QueryStore) (u : String) : Option QueryState := (s.queries u).map (·.state)

/-- `drop(u)` leaves a known `u` dropped, whatever its state before. -/
theorem drop_state {s s' : QueryStore} {n : Nat} {u : String} {qi : QueryInfo}
    (hw : s.WellKeyed) (hu : s.queries u = some qi) (h : s.drop n u = some s') :
    s'.stateOf u = some .dropped := by
  simp only [drop, hu] at h
  have hc := cascadeMark_spec n s _ s' hw h
  have hx : qi.uuid = u := hw u qi hu
  simp only [QueryInfo.uuid] at hc hx
  rw [hx] at hc
  have hb : (s.setQuery u { qi with state := .dropped, cached := CachedInfo.set false }).queries u =
      some { qi with state := .dropped, cached := CachedInfo.set false } := by simp
  obtain ⟨qi', h', he⟩ := hc.marked.same.some_iff hb
  simpa [stateOf, h'] using congrArg QueryInfo.state he

/-- `r` gathers its quorum of one and `CheckState(r)` commits it. -/
def commitRun : List StoreOp :=
  [.addQuery (emptyQuery "r"), .addEndorsement ⟨"r", "a", [], []⟩, .checkState "r" 0]

/-- After `commitRun`, `r` is committed, and a `CheckpointDrop` of `r` (a checkpoint chosen before
the commit) leaves it dropped. -/
theorem checkpointDrop_demotes_committed :
    ∃ s, runOps 1 (init 1) commitRun = some s ∧ s.Reachable 1 ∧ s.stateOf "r" = some .committed ∧
      ∃ s', (StoreOp.checkpointDrop ["r"]).run 1 s = some s' ∧ s'.stateOf "r" = some .dropped := by
  have hrun : (runOps 1 (init 1) commitRun).map (fun s => (s.stateOf "r",
      ((StoreOp.checkpointDrop ["r"]).run 1 s).map (stateOf · "r"))) =
      some (some .committed, some (some .dropped)) := by
    decide
  obtain ⟨s, hs, hst⟩ := Option.map_eq_some'.mp hrun
  simp only [Prod.mk.injEq, Option.map_eq_some'] at hst
  obtain ⟨hc, s', hs', hd⟩ := hst
  exact ⟨s, hs, reachable_runOps _ _ _ .refl (by simp [commitRun, StoreOp.Admissible]) hs, hc,
    s', hs', hd⟩

/-- `CheckpointDrop` of uuids the store does not know leaves it as it is. -/
theorem checkpointDrop_unknown {s : QueryStore} {n : Nat} :
    ∀ {us : List String}, (∀ u ∈ us, s.queries u = none) → s.checkpointDrop n us = some s
  | [], _ => rfl
  | u :: us, h => by
    have hu := h u (List.mem_cons_self _ _)
    simpa [checkpointDrop, drop, hu] using
      checkpointDrop_unknown (n := n) fun v hv => h v (List.mem_cons_of_mem _ hv)

/-- A checkpoint drops `u` before `u` arrives; `u` then arrives and gathers its quorum of one. -/
def forgottenDropRun : List StoreOp :=
  [.checkpointDrop ["u"], .addQuery (emptyQuery "u"), .addEndorsement ⟨"u", "a", [], []⟩]

/-- After `CheckpointDrop(["u"])` on `NewEngine`'s store, nothing records the drop: an endorsement
conditioned on `u` alone is not definitely valid, and `u` is nominated for a checkpoint again.
When `u` then arrives and is endorsed, it is pending and applicable. -/
theorem checkpointDrop_forgets_unknown :
    (StoreOp.checkpointDrop ["u"]).run 1 (init 1) = some (init 1) ∧
      (∀ fuel now, (init 1).definitelyValid fuel now ["u"] [] = some ((false, ["u"]), init 1)) ∧
      ∃ s, runOps 1 (init 1) forgottenDropRun = some s ∧ s.Reachable 1 ∧
        s.stateOf "u" = some .pending ∧ ∃ s', isApplicable 2 s "u" = some (true, s') := by
  have hrun : (runOps 1 (init 1) forgottenDropRun).map
      (fun s => (s.stateOf "u", (isApplicable 2 s "u").map Prod.fst)) =
      some (some .pending, some true) := by
    decide
  obtain ⟨s, hs, hst⟩ := Option.map_eq_some'.mp hrun
  simp only [Prod.mk.injEq, Option.map_eq_some'] at hst
  obtain ⟨hp, ⟨b, s'⟩, ha, rfl⟩ := hst
  refine ⟨checkpointDrop_unknown fun u hu => by simp_all [init, newQueryStore],
    fun fuel now => by simp [definitelyValid, init, newQueryStore, addToSet],
    s, hs, reachable_runOps _ _ _ .refl (by simp [forgottenDropRun, StoreOp.Admissible]) hs, hp,
    s', ha⟩

end QueryStore

end PnyxDB.Consensus
