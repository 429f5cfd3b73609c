import PnyxDB.Consensus.QueryStore.Run

/-!
`isApplicable` does not terminate on every reachable store. The endorsement conditions are chosen by
the emitter, and nothing stops an endorsement on `q` from listing `q` itself. Once `q` is stale,
pending and has enough endorsements, and its first endorsement is stale and conditioned first on `q`,
`isApplicable q` calls itself on the same store before writing anything (`isApplicable_selfLoop`):
the Go recursion overflows the stack, which kills the process. One such store is reached from
`NewEngine`'s store of quorum `3` (four nodes, one fault) by four insertions.
-/

namespace PnyxDB.Consensus

namespace QueryStore

/-- `u` is stale and pending with at least `threshold` endorsements, the first of which is stale and
lists `u` as its first condition. -/
def SelfConditioned (s : QueryStore) (u : String) : Bool :=
  match s.queries u with
  | none => false
  | some q =>
    q.state = .pending && !q.cached.fresh && decide (s.threshold ≤ q.endorsements.length) &&
      match q.endorsements with
      | [] => false
      | e :: _ => !e.cached.fresh && e.endorsement.conditions.head? = some u

/-- On a self-conditioned query, `isApplicable` runs out of every fuel. -/
theorem isApplicable_selfLoop {s : QueryStore} {u : String} (h : s.SelfConditioned u = true) :
    ∀ n, isApplicable n s u = none
  | 0 => rfl
  | n + 1 => by
    have h' := h
    unfold SelfConditioned at h'
    cases hu : s.queries u with
    | none => simp [hu] at h'
    | some q =>
      obtain ⟨e, es, hq⟩ : ∃ e es, q.endorsements = e :: es := by
        cases hq : q.endorsements with
        | nil => simp [hu, hq] at h'
        | cons e es => exact ⟨e, es, rfl⟩
      simp only [hu, hq, Bool.and_eq_true, decide_eq_true_eq, Bool.not_eq_true'] at h'
      obtain ⟨⟨⟨hp, hf⟩, hlen⟩, hef, hc⟩ := h'
      rw [← hq] at hlen
      obtain ⟨cs, hcs⟩ : ∃ cs, e.endorsement.conditions = u :: cs := by
        cases hcs : e.endorsement.conditions with
        | nil => simp [hcs] at hc
        | cons c cs => simp only [hcs, List.head?_cons, Option.some.injEq] at hc; exact ⟨cs, hc ▸ rfl⟩
      have hloop : endorsementsLoop (isApplicable n) u (List.range q.endorsements.length) 0 s =
          none := by
        rw [hq, List.length_cons, List.range_succ_eq_map]
        simp [endorsementsLoop, endorsementsOf, hu, hq, hef, conditionsValid, hcs,
          isApplicable_selfLoop h n]
      simp [isApplicable, hu, hp, hf, not_lt.mpr hlen, hloop]

/-- Hence `CheckState` on it runs out of every fuel. -/
theorem checkState_selfLoop {s : QueryStore} {u : String} (h : s.SelfConditioned u = true)
    (fuel : Nat) (now : Int) : s.checkState fuel now u = none := by
  simp [checkState, isApplicable_selfLoop h fuel]

/-- Four nodes, quorum three: `q` arrives, then an endorsement of `q` conditioned on `q` itself,
then two unconditional ones. -/
def selfLoopRun : List StoreOp :=
  [.addQuery (emptyQuery "q"), .addEndorsement ⟨"q", "a", ["q"], []⟩,
    .addEndorsement ⟨"q", "b", [], []⟩, .addEndorsement ⟨"q", "c", [], []⟩]

/-- After `selfLoopRun`, a store reached from `NewEngine`'s, `CheckState(q)` never returns. -/
theorem checkState_diverges_after_selfLoopRun :
    ∃ s, runOps 1 (init 3) selfLoopRun = some s ∧ s.Reachable 3 ∧
      ∀ fuel now, (StoreOp.checkState "q" now).run fuel s = none := by
  have hrun : (runOps 1 (init 3) selfLoopRun).map (SelfConditioned · "q") = some true := by
    decide
  obtain ⟨s, hs, hself⟩ := Option.map_eq_some'.mp hrun
  refine ⟨s, hs, reachable_runOps _ _ _ .refl (by simp [selfLoopRun, StoreOp.Admissible]) hs,
    fun fuel now => ?_⟩
  simp [StoreOp.run, checkState_selfLoop hself]

end QueryStore

end PnyxDB.Consensus
