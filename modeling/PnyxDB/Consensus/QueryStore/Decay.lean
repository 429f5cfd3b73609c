import PnyxDB.Consensus.QueryStore.Cascade

/-!
The stores an operation leaves behind. `Decays s s'` says what the cache of `s'` may have that `s`
did not: nothing. Every fresh entry of `s'` was already in `s`, and whenever the value `s` vouched
for a query changed, the endorsements conditioned on it were marked on its indexed dependents. This
is the monotone, cascading invalidation of the specification, and it keeps `Coherent`
(`Decays.coherent`). An operation that rewrites one entry and then cascades from it decays the store
(`Prepared.decays`).
-/

namespace PnyxDB.Consensus

namespace QueryStore

/-- The cache of `s'` holds nothing that `s` did not justify. -/
structure Decays (s s' : QueryStore) : Prop where
  node : ∀ d qi', s'.queries d = some qi' → qi'.state = .pending → qi'.cached.fresh = true →
    ∃ qi, s.queries d = some qi ∧ qi.state = .pending ∧ qi.cached = qi'.cached ∧
      qi.endorsements = qi'.endorsements
  endorsement : ∀ d qi', s'.queries d = some qi' → ∀ e ∈ qi'.endorsements,
    e.cached.fresh = true → ∃ qi, s.queries d = some qi ∧ e ∈ qi.endorsements
  settled : ∀ c d v, s.Indexed d c → s.settled c = some v → s'.settled c ≠ some v →
    Propagated s' c [d]
  indexed : ∀ d c, s.Indexed d c → s'.Indexed d c
  threshold : s'.threshold = s.threshold

namespace Decays

variable {s s' s'' : QueryStore}

/-- An operation that touches neither the query map nor the index decays the store. -/
theorem of_eq (hq : s'.queries = s.queries) (hp : s'.pendingDependencies = s.pendingDependencies)
    (ht : s'.threshold = s.threshold) : Decays s s' := by
  have hi : ∀ d c, s.Indexed d c ↔ s'.Indexed d c := fun d c => by unfold Indexed; rw [hq, hp]
  have hs : ∀ c, s'.settled c = s.settled c := fun c => by unfold QueryStore.settled; rw [hq]
  refine ⟨fun d qi hd hp hf => ⟨qi, hq ▸ hd, hp, rfl, rfl⟩, fun d qi hd e he _ => ⟨qi, hq ▸ hd, he⟩,
    fun c d v _ hv hne => absurd (hs c ▸ hv) hne, fun d c => (hi d c).mp, ht⟩

theorem refl (s : QueryStore) : Decays s s := of_eq rfl rfl rfl

theorem propagated {c : String} {ds : List String} (h : Decays s s') (hp : Propagated s c ds) :
    Propagated s' c ds := by
  intro d hd qd' hd' e he hce
  by_contra hf
  obtain ⟨qd, h1, he1⟩ := h.endorsement d qd' hd' e he (by simpa using hf)
  exact hf (hp d hd qd h1 e he1 hce)

theorem trans (h : Decays s s') (h' : Decays s' s'') : Decays s s'' := by
  refine ⟨fun d qi hd hp hf => ?_, fun d qi hd e he hf => ?_, fun c d v hi hv hne => ?_,
    fun d c hi => h'.indexed d c (h.indexed d c hi), h'.threshold.trans h.threshold⟩
  · obtain ⟨qi1, h1, hp1, hc1, he1⟩ := h'.node d qi hd hp hf
    obtain ⟨qi0, h0, hp0, hc0, he0⟩ := h.node d qi1 h1 hp1 (hc1 ▸ hf)
    exact ⟨qi0, h0, hp0, hc0.trans hc1, he0.trans he1⟩
  · obtain ⟨qi1, h1, he1⟩ := h'.endorsement d qi hd e he hf
    exact h.endorsement d qi1 h1 e he1 hf
  · by_cases hv' : s'.settled c = some v
    · exact h'.settled c d v (h.indexed d c hi) hv' hne
    · exact h'.propagated (h.settled c d v hi hv hv')

/-- A fresh endorsement of `s'` still has the values `s` vouched for on its conditions: had one
changed, the endorsement would have been marked. -/
theorem vouched (h : Decays s s') {d : String} {qi' : QueryInfo} (hd : s'.queries d = some qi')
    {e : EndorsementInfo} (he : e ∈ qi'.endorsements) (hf : e.cached.fresh = true) {c : String}
    (hce : c ∈ e.endorsement.conditions) {v : Bool} (hv : s.Vouched d c v) : s'.Vouched d c v :=
  ⟨h.indexed d c hv.1, by_contra fun hne => by
    simp [h.settled c d v hv.1 hv.2 hne d (List.mem_singleton_self d) qi' hd e he hce] at hf⟩

/-- A decayed store is coherent: what its cache still holds was justified in `s`, and every
justification that no longer holds has had its endorsement marked. -/
theorem coherent (h : Decays s s') (hc : s.Coherent) : s'.Coherent := by
  refine ⟨fun d qi' hd hp hf => ?_, fun d qi' hd e he hf => ?_⟩
  · obtain ⟨qi, hs, hp0, hca, hes⟩ := h.node d qi' hd hp hf
    have := hc.node d qi hs hp0 (hca ▸ hf)
    simpa [NodeCached, h.threshold, hca, hes] using this
  · obtain ⟨qi, hs, he0⟩ := h.endorsement d qi' hd e he hf
    exact (hc.endorsement d qi hs e he0 hf).of_vouched fun c hce v => h.vouched hd he hf hce

end Decays

/-- A change of the vouched value between marked stores is a query marked stale. -/
theorem Marked.settled_change {s s' : QueryStore} {c : String} {v : Bool} (h : Marked s s')
    (hv : s.settled c = some v) (hne : s'.settled c ≠ some v) :
    ∃ qc qc', s.queries c = some qc ∧ qc.cached.fresh = true ∧ s'.queries c = some qc' ∧
      qc'.cached.fresh = false := by
  cases hc' : s'.queries c with
  | none =>
    have hs : s.queries c = none := (h.same.none_iff).mpr hc'
    simp only [settled, hs, hc'] at hv hne
    exact absurd hv hne
  | some qc' =>
    obtain ⟨qc, hc, he⟩ := h.same.symm.some_iff hc'
    cases hf' : qc'.cached.fresh
    · refine ⟨qc, qc', hc, ?_, rfl, hf'⟩
      have hst : qc.state = qc'.state := QueryInfo.state_eq_of_erase he
      by_contra hf
      cases hq : qc'.state <;> simp_all [settled]
    · have hs : s.settled c = s'.settled c := by simp only [settled, h.node c qc' hc' hf', hc']
      exact absurd (hs ▸ hv) hne

/-- A marking closed under propagation decays the store. -/
theorem Marked.decays {s s' : QueryStore} (h : Marked s s') (hc : Closed s s') : Decays s s' := by
  refine ⟨fun d qi hd hp hf => ⟨qi, h.node d qi hd hf, hp, rfl, rfl⟩, h.endorsement,
    fun c d v hi hv hne => ?_, fun d c => h.same.indexed, h.same.threshold.symm⟩
  obtain ⟨qc, qc', hs, hf, hs', hf'⟩ := h.settled_change hv hne
  have hdep : d ∈ qc'.dependents := by simpa [Indexed, hs'] using h.same.indexed hi
  intro d' hd'
  rw [List.mem_singleton.mp hd']
  exact hc c qc qc' hs hf hs' hf' d hdep

/-- `b` is `s` just before a cascade from `x`: the entries other than that of `x` keep their
state, cache and endorsements, the entry of `x` has no new fresh endorsement, a vouched value
changes only at `x` and only if `x` is fresh (so that the cascade marks it), and the index only
grows. -/
structure Prepared (s b : QueryStore) (x : String) : Prop where
  frame : ∀ d, d ≠ x → ∀ qb, b.queries d = some qb → ∃ qi, s.queries d = some qi ∧
    qi.state = qb.state ∧ qi.cached = qb.cached ∧ qi.endorsements = qb.endorsements
  fresh : ∀ qb, b.queries x = some qb → ∀ e ∈ qb.endorsements, e.cached.fresh = true →
    ∃ qi, s.queries x = some qi ∧ e ∈ qi.endorsements
  settled : ∀ c v, s.settled c = some v → b.settled c = some v ∨
    c = x ∧ ∃ qb, b.queries x = some qb ∧ qb.cached.fresh = true
  indexed : ∀ d c, s.Indexed d c → b.Indexed d c
  threshold : b.threshold = s.threshold

theorem Prepared.decays {s b s' : QueryStore} {x : String} (hp : Prepared s b x)
    (hc : Cascaded b s' x) : Decays s s' := by
  have hd := hc.marked.decays hc.closed
  refine ⟨fun d qi' hd' hpend hf => ?_, fun d qi' hd' e he hf => ?_, fun c d v hi hv hne => ?_,
    fun d c hi => hd.indexed d c (hp.indexed d c hi), hd.threshold.trans hp.threshold⟩
  · have hdx : d ≠ x := by rintro rfl; simp [hc.stale qi' hd'] at hf
    obtain ⟨qi, hs, hst, hca, hes⟩ := hp.frame d hdx qi' (hc.marked.node d qi' hd' hf)
    exact ⟨qi, hs, hst ▸ hpend, hca, hes⟩
  · obtain ⟨qb, hb, heb⟩ := hc.marked.endorsement d qi' hd' e he hf
    by_cases hdx : d = x
    · subst hdx
      exact hp.fresh qb hb e heb hf
    · obtain ⟨qi, hs, -, -, hes⟩ := hp.frame d hdx qb hb
      exact ⟨qi, hs, hes ▸ heb⟩
  · rcases hp.settled c v hv with hbv | ⟨rfl, qb, hb, hfb⟩
    · exact hd.settled c d v (hp.indexed d c hi) hbv hne
    · obtain ⟨qc', hc', -⟩ := hc.marked.same.some_iff hb
      have hdep : d ∈ qc'.dependents := by simpa [Indexed, hc'] using hd.indexed d c (hp.indexed d c hi)
      intro d' hd'
      rw [List.mem_singleton.mp hd']
      exact hc.closed c qb qc' hb hfb hc' (hc.stale qc' hc') d hdep

end QueryStore

end PnyxDB.Consensus
