import PnyxDB.Consensus.QueryStore.Content

/-!
What `cascadeMark` does: it only marks cache entries stale, and whenever it marks a fresh query it
also marks, on each of its dependents, the endorsements conditioned on that query
(`cascadeMark_spec`). The proof follows the recursion: the dependents loop keeps `CascadeInv`, one
iteration at a time, using the statement for the smaller fuel on the dependent it cascades into.
-/

namespace PnyxDB.Consensus

theorem mem_markConditioned {c : String} {es : List EndorsementInfo} {e : EndorsementInfo}
    (he : e ∈ markConditioned c es) (hf : e.cached.fresh = true) : e ∈ es := by
  obtain ⟨e0, he0, rfl⟩ := List.mem_map.mp he
  by_cases hc : c ∈ e0.endorsement.conditions
  · simp [hc] at hf
  · simpa [hc] using he0

theorem stale_of_mem_markConditioned {c : String} {es : List EndorsementInfo} {e : EndorsementInfo}
    (he : e ∈ markConditioned c es) (hc : c ∈ e.endorsement.conditions) : e.cached.fresh = false := by
  obtain ⟨e0, -, rfl⟩ := List.mem_map.mp he
  by_cases h : c ∈ e0.endorsement.conditions
  · simp [h]
  · simp [h] at hc

theorem erase_markConditioned (c : String) (qi : QueryInfo) :
    { qi with endorsements := markConditioned c qi.endorsements }.erase = qi.erase := by
  have he : ∀ e : EndorsementInfo, (if c ∈ e.endorsement.conditions then
      { e with cached := e.cached.mark } else e).erase = e.erase := fun e => by split <;> rfl
  simp [QueryInfo.erase, markConditioned, Function.comp_def, he]

namespace QueryStore

/-- `s'` is `s` with some cache entries marked stale: the same content, every fresh query of `s'`
untouched, and every fresh endorsement of `s'` one of `s`. -/
structure Marked (s s' : QueryStore) : Prop where
  same : s.SameContent s'
  node : ∀ u qi', s'.queries u = some qi' → qi'.cached.fresh = true → s.queries u = some qi'
  endorsement : ∀ u qi', s'.queries u = some qi' → ∀ e ∈ qi'.endorsements,
    e.cached.fresh = true → ∃ qi, s.queries u = some qi ∧ e ∈ qi.endorsements

/-- On each query of `ds`, the endorsements conditioned on `c` are stale. -/
def Propagated (s : QueryStore) (c : String) (ds : List String) : Prop :=
  ∀ d ∈ ds, ∀ qd, s.queries d = some qd → ∀ e ∈ qd.endorsements, c ∈ e.endorsement.conditions →
    e.cached.fresh = false

/-- If `c` is fresh in `s` and stale in `s'`, the stale mark has reached its dependents. -/
def ClosedAt (s s' : QueryStore) (c : String) : Prop :=
  ∀ qc qc', s.queries c = some qc → qc.cached.fresh = true → s'.queries c = some qc' →
    qc'.cached.fresh = false → Propagated s' c qc'.dependents

/-- Every query that went from fresh to stale has propagated. -/
def Closed (s s' : QueryStore) : Prop := ∀ c, ClosedAt s s' c

/-- What a cascade from `x` over the base store `s` guarantees. -/
structure Cascaded (s s' : QueryStore) (x : String) : Prop where
  marked : Marked s s'
  closed : Closed s s'
  stale : ∀ qi, s'.queries x = some qi → qi.cached.fresh = false

theorem dependents_of_same {s s' : QueryStore} (h : s.SameContent s') {u : String}
    {qi qi' : QueryInfo} (hu : s.queries u = some qi) (hu' : s'.queries u = some qi') :
    qi'.dependents = qi.dependents := by
  obtain ⟨qi1, h1, he⟩ := h.some_iff hu
  rw [hu'] at h1
  cases h1
  simpa using congrArg QueryInfo.dependents he

namespace Marked

variable {s s' s'' : QueryStore}

theorem refl (s : QueryStore) : Marked s s :=
  ⟨.refl s, fun _ _ h _ => h, fun _ qi h _ he _ => ⟨qi, h, he⟩⟩

theorem trans (h : Marked s s') (h' : Marked s' s'') : Marked s s'' := by
  refine ⟨h.same.trans h'.same, fun u qi hu hf => h.node u qi (h'.node u qi hu hf) hf,
    fun u qi hu e he hf => ?_⟩
  obtain ⟨qi1, h1, he1⟩ := h'.endorsement u qi hu e he hf
  exact h.endorsement u qi1 h1 e he1 hf

/-- A stale query stays stale. -/
theorem stale {u : String} (h : Marked s s')
    (hs : ∀ qi, s.queries u = some qi → qi.cached.fresh = false) :
    ∀ qi', s'.queries u = some qi' → qi'.cached.fresh = false := by
  intro qi' hu'
  by_contra hf
  exact hf (hs qi' (h.node u qi' hu' (by simpa using hf)))

theorem propagated {c : String} {ds : List String} (h : Marked s s') (hp : Propagated s c ds) :
    Propagated s' c ds := by
  intro d hd qd' hd' e he hce
  by_contra hf
  obtain ⟨qd, h1, he1⟩ := h.endorsement d qd' hd' e he (by simpa using hf)
  exact hf (hp d hd qd h1 e he1 hce)

end Marked

/-- Replacing an entry by a stale one with the same content and no new fresh endorsement marks the
store. -/
theorem marked_setQuery {s : QueryStore} {u : String} {qi qi' : QueryInfo}
    (hu : s.queries u = some qi) (he : qi'.erase = qi.erase) (hf : qi'.cached.fresh = false)
    (hes : ∀ e ∈ qi'.endorsements, e.cached.fresh = true → e ∈ qi.endorsements) :
    Marked s (s.setQuery u qi') := by
  refine ⟨sameContent_setQuery hu he, fun w qw hw hfw => ?_, fun w qw hw e hew hfe => ?_⟩
  · by_cases hwu : w = u
    · simp only [hwu, setQuery_queries, if_true, Option.some.injEq] at hw
      simp [← hw, hf] at hfw
    · simpa [hwu] using hw
  · by_cases hwu : w = u
    · simp only [hwu, setQuery_queries, if_true, Option.some.injEq] at hw ⊢
      exact ⟨qi, hu, hes e (hw ▸ hew) hfe⟩
    · simp only [setQuery_queries, hwu, if_false] at hw
      exact ⟨qw, hw, hew⟩

/-- Invariant of the dependents loop of a cascade from `x` over the base store `b`: `t` is `b`
marked, closed except at `x`, and the queries of `done` have their endorsements on `x` marked. -/
structure CascadeInv (b : QueryStore) (x : String) (t : QueryStore) (done : List String) :
    Prop where
  marked : Marked b t
  closed : ∀ c, c ≠ x → ClosedAt b t c
  propagated : Propagated t x done
  stale : ∀ qi, t.queries x = some qi → qi.cached.fresh = false

/-- Marking the endorsements of `uuid` and cascading into it marks `t`, provided the cascade left
`uuid` stale. -/
theorem marked_of_cascadeDependent {t t' : QueryStore} {x uuid : String} {qid : QueryInfo}
    (hq : t.queries uuid = some qid)
    (hm : Marked (t.setQuery uuid { qid with endorsements := markConditioned x qid.endorsements }) t')
    (hst : ∀ qi, t'.queries uuid = some qi → qi.cached.fresh = false) : Marked t t' := by
  refine ⟨(sameContent_setQuery hq (erase_markConditioned x qid)).trans hm.same,
    fun w qi hw hf => ?_, fun w qi hw e he hf => ?_⟩
  · have hwu : w ≠ uuid := by rintro rfl; simp [hst qi hw] at hf
    simpa [hwu] using hm.node w qi hw hf
  · obtain ⟨qi1, h1, he1⟩ := hm.endorsement w qi hw e he hf
    by_cases hwu : w = uuid
    · subst hwu
      simp only [setQuery_queries, if_true, Option.some.injEq] at h1
      subst h1
      exact ⟨qid, hq, mem_markConditioned he1 hf⟩
    · simp only [setQuery_queries, hwu, if_false] at h1
      exact ⟨qi1, h1, he1⟩

section
variable {n : Nat} {x : String} {b : QueryStore}

/-- One iteration of the dependents loop keeps the invariant. -/
theorem cascadeInv_step
    (ih : ∀ s qi s', s.WellKeyed → cascadeMark n s qi = some s' →
      Cascaded (s.setQuery qi.uuid qi) s' qi.uuid)
    (hw : b.WellKeyed) {t t' : QueryStore} {done : List String} {uuid : String}
    (hinv : CascadeInv b x t done) (h : cascadeDependent (cascadeMark n) x t uuid = some t') :
    CascadeInv b x t' (done ++ [uuid]) := by
  unfold cascadeDependent at h
  cases hq : t.queries uuid with
  | none =>
    rw [hq, Option.some.injEq] at h
    subst h
    refine { hinv with propagated := fun d hd => ?_ }
    rcases List.mem_append.mp hd with hd | hd
    · exact hinv.propagated d hd
    · rw [List.mem_singleton.mp hd, hq]
      simp
  | some qid =>
    rw [hq] at h
    have hwt := hinv.marked.same.wellKeyed hw
    have hkey : qid.uuid = uuid := hwt uuid qid hq
    have hc := ih t _ t' hwt h
    simp only [QueryInfo.uuid] at hc hkey
    rw [hkey] at hc
    have hm := marked_of_cascadeDependent hq hc.marked hc.stale
    refine ⟨hinv.marked.trans hm, fun c hcx qc qc' hb hf ht' hs => ?_, fun d hd => ?_,
      hm.stale hinv.stale⟩
    · obtain ⟨qt, ht, -⟩ := hinv.marked.same.some_iff hb
      cases hft : qt.cached.fresh
      · rw [dependents_of_same hm.same ht ht']
        exact hm.propagated (hinv.closed c hcx qc qt hb hf ht hft)
      · let qm := { qid with endorsements := markConditioned x qid.endorsements }
        refine hc.closed c (if c = uuid then qm else qt) qc' ?_ ?_ ht' hs
        · by_cases hcu : c = uuid <;> simp [hcu, ht]
        · by_cases hcu : c = uuid
          · subst hcu
            rw [ht] at hq
            cases hq
            simpa [qm] using hft
          · simpa [hcu] using hft
    · rcases List.mem_append.mp hd with hd | hd
      · exact hm.propagated hinv.propagated d hd
      · refine hc.marked.propagated (fun d hd qd hqd e he hce => ?_) d hd
        rw [List.mem_singleton.mp hd] at hqd
        simp only [setQuery_queries, if_true, Option.some.injEq] at hqd
        subst hqd
        exact stale_of_mem_markConditioned he hce

/-- The dependents loop keeps the invariant. -/
theorem cascadeInv_loop
    (ih : ∀ s qi s', s.WellKeyed → cascadeMark n s qi = some s' →
      Cascaded (s.setQuery qi.uuid qi) s' qi.uuid)
    (hw : b.WellKeyed) : ∀ (ds done : List String) (t t' : QueryStore), CascadeInv b x t done →
      ds.foldlM (cascadeDependent (cascadeMark n) x) t = some t' → CascadeInv b x t' (done ++ ds)
  | [], done, t, t', hinv, h => by
    simp only [List.foldlM_nil, Option.pure_def, Option.some.injEq] at h
    simpa [← h] using hinv
  | d :: ds, done, t, t', hinv, h => by
    simp only [List.foldlM_cons, Option.bind_eq_bind, Option.bind_eq_some] at h
    obtain ⟨t1, h1, h2⟩ := h
    simpa using cascadeInv_loop ih hw ds (done ++ [d]) t1 t' (cascadeInv_step ih hw hinv h1) h2

end

/-- A cascade from `qi` marks the store with `qi` written back, leaves `qi` stale, and propagates
every stale mark it sets. -/
theorem cascadeMark_spec : ∀ (n : Nat) (s : QueryStore) (qi : QueryInfo) (s' : QueryStore),
    s.WellKeyed → cascadeMark n s qi = some s' → Cascaded (s.setQuery qi.uuid qi) s' qi.uuid
  | 0, _, _, _, _, h => by simp [cascadeMark] at h
  | n + 1, s, qi, s', hw, h => by
    set x := qi.uuid
    set b := s.setQuery x qi
    have hb : b.queries x = some qi := by simp [b]
    have hwb : b.WellKeyed := fun u qu hu => by
      by_cases hux : u = x
      · simp only [b, hux, setQuery_queries, if_true, Option.some.injEq] at hu ⊢
        exact hu ▸ rfl
      · simp only [b, setQuery_queries, hux, if_false] at hu
        exact hw u qu hu
    have hm : Marked b (b.setQuery x { qi with cached := qi.cached.mark }) :=
      marked_setQuery hb rfl rfl fun e he _ => he
    simp only [b, setQuery_setQuery] at hm
    simp only [cascadeMark] at h
    by_cases hf : qi.cached.fresh = true
    · simp only [hf, Bool.not_true, Bool.false_eq_true, if_false] at h
      have h0 : CascadeInv b x (s.setQuery x { qi with cached := qi.cached.mark }) [] := by
        refine ⟨hm, fun c hcx qc qc' hc hfc hc' hsc => ?_, fun d hd => by simp at hd,
          fun qi' hx => ?_⟩
        swap
        · simp only [setQuery_queries, if_true, Option.some.injEq] at hx
          rw [← hx]
          rfl
        simp only [b, setQuery_queries, hcx, if_false] at hc hc'
        rw [hc] at hc'
        cases hc'
        simp_all
      have hfin := cascadeInv_loop (cascadeMark_spec n) hwb qi.dependents [] _ s' h0 h
      refine ⟨hfin.marked, fun c => ?_, hfin.stale⟩
      by_cases hcx : c = x
      · subst hcx
        intro qc qc' hc _ hc' _
        rw [hb] at hc
        cases hc
        rw [dependents_of_same hfin.marked.same hb hc']
        simpa using hfin.propagated
      · exact hfin.closed c hcx
    · have hqi : { qi with cached := qi.cached.mark } = qi := by
        rw [CachedInfo.mark_of_stale (by simpa using hf)]
      simp only [hf, hqi, Bool.not_false, if_true, Option.some.injEq] at h
      subst h
      refine ⟨Marked.refl _, fun c qc qc' hc hfc hc' hsc => ?_, fun qi' hx => ?_⟩
      · rw [hc] at hc'
        cases hc'
        simp_all
      · rw [hb] at hx
        cases hx
        simpa using hf

end QueryStore

end PnyxDB.Consensus
