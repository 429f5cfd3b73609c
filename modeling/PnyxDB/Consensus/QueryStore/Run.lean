import PnyxDB.Consensus.QueryStore.Check

/-!
Runs of the store. Every operation that returns has an `Effect` (`StoreOp.effect`). Hence every
reachable store is well keyed and finite (`Reachable.wellFormed`) and satisfies the cache invariant
(`Reachable.cacheInv`), so `isApplicable` returns there exactly the values of the evaluation
without cache (`isApplicable_iff_evaluates`). On a reachable store whose condition graph is acyclic
that evaluation is the uncached predicate `app` of the specification (`isApplicable_eq_app`).
-/

namespace PnyxDB.Consensus

namespace QueryStore

theorem StoreOp.effect {s s' : QueryStore} {op : StoreOp} {fuel : Nat} (hw : s.WellKeyed)
    (h : op.run fuel s = some s') : Effect s s' := by
  cases op with
  | addQuery q =>
    obtain ⟨⟨_, _⟩, h1, rfl⟩ := Option.map_eq_some'.mp h
    exact addQuery_effect hw h1
  | addEndorsement e =>
    obtain ⟨⟨_, _⟩, h1, rfl⟩ := Option.map_eq_some'.mp h
    exact addEndorsement_effect hw h1
  | checkState uuid now =>
    obtain ⟨⟨_, _⟩, h1, rfl⟩ := Option.map_eq_some'.mp h
    exact checkState_effect hw h1
  | checkpointChoice uuids =>
    obtain ⟨_, h1, rfl⟩ := Option.map_eq_some'.mp h
    exact checkpointChoice_effect hw h1
  | checkpointDrop uuids => exact checkpointDrop_effect hw h
  | endorse uuid =>
    simp only [StoreOp.run, Option.some.injEq] at h
    exact h ▸ endorse_effect uuid hw
  | outdatedQueries order now =>
    obtain ⟨_, h1, rfl⟩ := Option.map_eq_some'.mp h
    exact outdatedQueries_effect hw h1

theorem init_acyclic (t : Int) : (init t).Acyclic := fun u hu => by
  cases hu with
  | single h => simp [DependsOn, init, newQueryStore] at h
  | tail _ h => simp [DependsOn, init, newQueryStore] at h

theorem init_cacheInv (t : Int) : (init t).CacheInv :=
  ⟨⟨fun _ _ h => by simp [init, newQueryStore] at h, fun _ _ h => by simp [init, newQueryStore] at h⟩,
    fun _ _ ⟨_, h, _⟩ _ => by simp [init, newQueryStore] at h,
    sound_of_stale fun _ _ h => by simp [init, newQueryStore] at h⟩

/-- Every reachable store is well keyed and has finitely many queries. -/
theorem Reachable.wellFormed {t : Int} {s : QueryStore} (h : s.Reachable t) :
    s.WellKeyed ∧ ∃ keys, s.KeysIn keys := by
  induction h with
  | refl => exact ⟨fun _ _ h => by simp [init, newQueryStore] at h, [], fun _ h => by
      simp [init, newQueryStore] at h⟩
  | tail _ hstep ih =>
    obtain ⟨op, fuel, -, hrun⟩ := hstep
    have he := StoreOp.effect ih.1 hrun
    exact ⟨he.wellKeyed, let ⟨k, hk⟩ := ih.2; he.keys k hk⟩

/-- Every reachable store satisfies the cache invariant. -/
theorem Reachable.cacheInv {t : Int} {s : QueryStore} (h : s.Reachable t) : s.CacheInv := by
  induction h with
  | refl => exact init_cacheInv t
  | tail hr hstep ih =>
    obtain ⟨op, fuel, -, hrun⟩ := hstep
    exact (StoreOp.effect (Reachable.wellFormed hr).1 hrun).cache ih

/-- On every reachable store, cyclic condition graphs included, `isApplicable u` returns exactly the
values `u` evaluates to without cache, and a call that returns writes caches only, keeps the
invariant and leaves `u` vouched for. -/
theorem isApplicable_evaluates_of_reachable {t : Int} {s : QueryStore} (hr : s.Reachable t)
    (u : String) :
    (∀ b, (∃ fuel s', isApplicable fuel s u = some (b, s')) ↔ s.Evaluates u b) ∧
      ∀ fuel b s', isApplicable fuel s u = some (b, s') →
        s.SameContent s' ∧ s'.CacheInv ∧ s'.settled u = some b := by
  have hi := hr.cacheInv
  refine ⟨isApplicable_iff_evaluates hi u, fun fuel b s' h => ?_⟩
  obtain ⟨-, hm, hset, -⟩ := isApplicable_memo fuel s u b s' hi h
  exact ⟨hm.same, hm.inv, hset⟩

/-- On a reachable store with an acyclic condition graph, the recursive definition of `app` has a
solution, and for each one every `isApplicable u` returns `app u` (given enough fuel, and whenever
it returns) and changes nothing but caches. -/
theorem isApplicable_eq_app {t : Int} {s : QueryStore} (hr : s.Reachable t) (hac : s.Acyclic) :
    (∃ app, s.IsApp app) ∧ ∀ app, s.IsApp app → ∀ u,
      (∃ fuel s', isApplicable fuel s u = some (app u, s')) ∧
      ∀ fuel b s', isApplicable fuel s u = some (b, s') → b = app u ∧ s.SameContent s' := by
  obtain ⟨rank, f, hrank, hf⟩ := exists_ranked_isApp hr.wellFormed.2 hac
  have hi := hr.cacheInv
  refine ⟨⟨f, hf⟩, fun app happ u => ⟨?_, fun fuel b s' h => ?_⟩⟩
  · obtain ⟨s', h, -⟩ := isApplicable_spec hrank happ hi.indexComplete (rank u) u rfl (rank u + 1)
      (by omega) s (.refl s) hi.coherent
    exact ⟨_, s', h⟩
  · obtain ⟨hb, hR, -⟩ := isApplicable_sound hrank happ hi.indexComplete (.refl s) hi.coherent h
    exact ⟨hb, hR.same⟩

/-- The store after the operations `ops`, each run with `fuel`. -/
def runOps (fuel : Nat) : QueryStore → List StoreOp → Option QueryStore
  | s, [] => some s
  | s, op :: ops => (op.run fuel s).bind fun s => runOps fuel s ops

theorem runOps_append {fuel : Nat} :
    ∀ (ops ops' : List StoreOp) (s : QueryStore),
      runOps fuel s (ops ++ ops') = (runOps fuel s ops).bind fun s => runOps fuel s ops'
  | [], _, _ => rfl
  | op :: ops, ops', s => by
    simp only [List.cons_append, runOps, Option.bind_assoc]
    congr 1
    funext s1
    exact runOps_append ops ops' s1

theorem runOps_wellKeyed {fuel : Nat} :
    ∀ (ops : List StoreOp) (s s' : QueryStore), s.WellKeyed → runOps fuel s ops = some s' →
      s'.WellKeyed
  | [], s, s', hw, h => by
    simp only [runOps, Option.some.injEq] at h
    exact h ▸ hw
  | op :: ops, s, s', hw, h => by
    simp only [runOps, Option.bind_eq_some] at h
    obtain ⟨s1, h1, h2⟩ := h
    exact runOps_wellKeyed ops s1 s' (StoreOp.effect hw h1).wellKeyed h2

/-- Steps folded over a list, each a run of operations of `P`, make a run of operations of `P`. -/
theorem runOps_foldlM {fuel : Nat} {α : Type} {P : StoreOp → Prop}
    {f : QueryStore → α → Option QueryStore}
    (hf : ∀ s a s', f s a = some s' → ∃ ops, runOps fuel s ops = some s' ∧ ∀ op ∈ ops, P op) :
    ∀ (l : List α) (s s' : QueryStore), l.foldlM f s = some s' →
      ∃ ops, runOps fuel s ops = some s' ∧ ∀ op ∈ ops, P op
  | [], s, s', h => ⟨[], by simpa [runOps] using h, by simp⟩
  | a :: l, s, s', h => by
    simp only [List.foldlM_cons, Option.bind_eq_bind, Option.bind_eq_some] at h
    obtain ⟨s1, h1, h2⟩ := h
    obtain ⟨ops1, hr1, hp1⟩ := hf s a s1 h1
    obtain ⟨ops2, hr2, hp2⟩ := runOps_foldlM hf l s1 s' h2
    refine ⟨ops1 ++ ops2, by rw [runOps_append, hr1]; exact hr2, fun op hop => ?_⟩
    rcases List.mem_append.mp hop with hop | hop
    · exact hp1 op hop
    · exact hp2 op hop

/-- A run of operations that constrain nothing reaches a store. -/
theorem reachable_runOps {t : Int} {fuel : Nat} :
    ∀ (ops : List StoreOp) (s s' : QueryStore), s.Reachable t →
      (∀ op ∈ ops, ∀ s, op.Admissible s) → runOps fuel s ops = some s' → s'.Reachable t
  | [], s, s', hr, _, h => by
    simp only [runOps, Option.some.injEq] at h
    exact h ▸ hr
  | op :: ops, s, s', hr, hadm, h => by
    simp only [runOps, Option.bind_eq_some] at h
    obtain ⟨s1, h1, h2⟩ := h
    exact reachable_runOps ops s1 s' (hr.tail ⟨op, fuel, hadm op (List.mem_cons_self _ _) s, h1⟩)
      (fun op' h' => hadm op' (List.mem_cons_of_mem _ h')) h2

/-- A query of uuid `u` with no deadline, requirements or operations. -/
def emptyQuery (u : String) : Query := ⟨u, "", "", none, [], [], []⟩

/-- Quorum one: queries `q` and `r` arrive, then an endorsement of `r` conditioned on `q`, then an
unconditional endorsement of `q`. -/
def conditionRun : List StoreOp :=
  [.addQuery (emptyQuery "q"), .addQuery (emptyQuery "r"), .addEndorsement ⟨"r", "a", ["q"], []⟩,
    .addEndorsement ⟨"q", "b", [], []⟩]

theorem isApplicable_evaluates_of_reachable_conditionRun :
    ∃ s, runOps 1 (init 1) conditionRun = some s ∧ s.Reachable 1 ∧
      ((∀ b, (∃ fuel s', isApplicable fuel s "r" = some (b, s')) ↔ s.Evaluates "r" b) ∧
        ∀ fuel b s', isApplicable fuel s "r" = some (b, s') →
          s.SameContent s' ∧ s'.CacheInv ∧ s'.settled "r" = some b) := by
  obtain ⟨s, hs⟩ := Option.isSome_iff_exists.mp
    (show (runOps 1 (init 1) conditionRun).isSome by decide)
  have hr : s.Reachable 1 :=
    reachable_runOps conditionRun _ s .refl (by simp [conditionRun, StoreOp.Admissible]) hs
  exact ⟨s, hs, hr, isApplicable_evaluates_of_reachable hr "r"⟩

end QueryStore

end PnyxDB.Consensus
