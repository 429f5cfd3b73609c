import PnyxDB.Consensus.QueryStore.Effect

/-!
Insertion: `AddEndorsement` and `AddQuery`. Both record dependency edges, which only add
dependents (`Links`), then rewrite the entry of one query and cascade from it. The store before the
cascade is `Prepared`, so both operations decay the store.
-/

namespace PnyxDB.Consensus

namespace QueryStore

@[simp] theorem indexed_setQuery (s : QueryStore) (u : String) (qi : QueryInfo) (d c : String) :
    (s.setQuery u qi).Indexed d c ↔ if c = u then d ∈ qi.dependents else s.Indexed d c := by
  unfold Indexed
  by_cases h : c = u <;> simp [h]

theorem settled_setQuery_ne {s : QueryStore} {u c : String} {qi : QueryInfo} (hc : c ≠ u) :
    (s.setQuery u qi).settled c = s.settled c := by
  simp [settled, hc]

/-- `s'` is `s` with more dependency edges: the entries differ at most in their dependents, the
same queries are known, and the index only grows. -/
structure Links (s s' : QueryStore) : Prop where
  some : ∀ u qi', s'.queries u = some qi' →
    ∃ qi, s.queries u = some qi ∧ ∃ ds, qi' = { qi with dependents := ds }
  none : ∀ u, s.queries u = none ↔ s'.queries u = none
  indexed : ∀ d c, s.Indexed d c → s'.Indexed d c
  pendingEndorsements : s'.pendingEndorsements = s.pendingEndorsements
  threshold : s'.threshold = s.threshold

namespace Links

variable {s s' s'' : QueryStore}

theorem refl (s : QueryStore) : Links s s :=
  ⟨fun _ qi h => ⟨qi, h, qi.dependents, rfl⟩, fun _ => Iff.rfl, fun _ _ => id, rfl, rfl⟩

theorem trans (h : Links s s') (h' : Links s' s'') : Links s s'' := by
  refine ⟨fun u qi hu => ?_, fun u => (h.none u).trans (h'.none u),
    fun d c hi => h'.indexed d c (h.indexed d c hi), h'.pendingEndorsements.trans
    h.pendingEndorsements, h'.threshold.trans h.threshold⟩
  obtain ⟨qi1, h1, ds, rfl⟩ := h'.some u qi hu
  obtain ⟨qi0, h0, ds0, rfl⟩ := h.some u qi1 h1
  exact ⟨qi0, h0, ds, rfl⟩

theorem settled_eq (h : Links s s') (c : String) : s'.settled c = s.settled c := by
  cases hc : s'.queries c with
  | none => simp [settled, hc, (h.none c).mpr hc]
  | some qi' =>
    obtain ⟨qi, hs, ds, rfl⟩ := h.some c qi' hc
    simp [settled, hc, hs]

theorem dependsOn_iff (h : Links s s') {d c : String} : s'.DependsOn d c ↔ s.DependsOn d c := by
  constructor
  · rintro ⟨qi', hd, hc⟩
    obtain ⟨qi, hs, ds, rfl⟩ := h.some d qi' hd
    exact ⟨qi, hs, hc⟩
  · rintro ⟨qi, hd, hc⟩
    cases hd' : s'.queries d with
    | none => simp [(h.none d).mpr hd'] at hd
    | some qi' =>
      obtain ⟨qi0, hs, ds, rfl⟩ := h.some d qi' hd'
      rw [hd, Option.some.injEq] at hs
      subst hs
      exact ⟨_, hd', hc⟩

theorem wellKeyed (h : Links s s') (hw : s.WellKeyed) : s'.WellKeyed := fun u qi' hu => by
  obtain ⟨qi, hs, ds, rfl⟩ := h.some u qi' hu
  exact hw u qi hs

theorem keysIn (h : Links s s') {keys : List String} (hk : s.KeysIn keys) : s'.KeysIn keys :=
  fun u hu => hk u (by cases hs : s.queries u <;> simp_all [(h.none u).mp])

end Links

/-- Adding dependents to a known query only adds edges. -/
theorem links_setQuery {s : QueryStore} {u : String} {qi : QueryInfo} (hu : s.queries u = some qi)
    {ds : List String} (hds : qi.dependents ⊆ ds) :
    Links s (s.setQuery u { qi with dependents := ds }) := by
  refine ⟨fun v qv hv => ?_, fun v => ?_, fun d c hi => ?_, rfl, rfl⟩
  · by_cases hvu : v = u
    · simp only [hvu, setQuery_queries, if_true, Option.some.injEq] at hv
      exact ⟨qi, hvu ▸ hu, ds, hv.symm⟩
    · simp only [setQuery_queries, hvu, if_false] at hv
      exact ⟨qv, hv, qv.dependents, rfl⟩
  · by_cases hvu : v = u <;> simp [hvu, hu]
  · rw [indexed_setQuery]
    split
    · subst c
      exact hds (by simpa [Indexed, hu] using hi)
    · exact hi

/-- Adding to the parked dependents of an unknown query only adds edges. -/
theorem links_pending {s : QueryStore} {c : String} {l : List String}
    (hl : s.pendingDependencies c ⊆ l) :
    Links s { s with pendingDependencies := Function.update s.pendingDependencies c l } := by
  refine ⟨fun v qv hv => ⟨qv, hv, qv.dependents, rfl⟩, fun _ => Iff.rfl, fun d c' hi => ?_, rfl, rfl⟩
  unfold Indexed at hi ⊢
  split at hi
  · simp [*]
  · by_cases hc : c' = c
    · subst hc
      simpa [*] using hl hi
    · simp [*, Function.update_noteq hc]

theorem links_addDependency (s : QueryStore) (uuid c : String) :
    Links s (s.addDependency uuid c) ∧ (s.addDependency uuid c).Indexed uuid c := by
  unfold addDependency
  cases hc : s.queries c with
  | some qic =>
    refine ⟨links_setQuery hc fun d hd => by simp [hd], ?_⟩
    simp
  | none =>
    refine ⟨links_pending fun d hd => by simp [hd], ?_⟩
    simp [Indexed, hc]

/-- The condition loop of `addEndorsementInternal`. -/
theorem links_foldl_addDependency (uuid : String) :
    ∀ (cs : List String) (s : QueryStore),
      Links s (cs.foldl (fun s c => s.addDependency uuid c) s) ∧
        ∀ c ∈ cs, (cs.foldl (fun s c => s.addDependency uuid c) s).Indexed uuid c
  | [], s => ⟨.refl s, by simp⟩
  | c :: cs, s => by
    obtain ⟨h1, hi1⟩ := links_addDependency s uuid c
    obtain ⟨h2, hi2⟩ := links_foldl_addDependency uuid cs (s.addDependency uuid c)
    refine ⟨h1.trans h2, fun c' hc' => ?_⟩
    rcases List.mem_cons.mp hc' with rfl | hc'
    · exact h2.indexed _ _ hi1
    · exact hi2 c' hc'

/-- `addEndorsementInternal` either changes nothing or appends a stale endorsement to the copy and
indexes each of its conditions. -/
theorem addEndorsementInternal_spec {s s1 : QueryStore} {e : Endorsement} {qi qi' : QueryInfo}
    {ins : Bool} (h : s.addEndorsementInternal e qi = (ins, qi', s1)) :
    Links s s1 ∧ (qi' = qi ∨ qi' = { qi with endorsements := qi.endorsements ++ [⟨e, .zero⟩] } ∧
      ∀ c ∈ e.conditions, s1.Indexed qi.uuid c) := by
  unfold addEndorsementInternal at h
  split at h
  · simp only [Prod.mk.injEq] at h
    obtain ⟨-, rfl, rfl⟩ := h
    exact ⟨.refl s, .inl rfl⟩
  · simp only [Prod.mk.injEq] at h
    obtain ⟨-, rfl, rfl⟩ := h
    obtain ⟨hl, hi⟩ := links_foldl_addDependency qi.uuid e.conditions s
    exact ⟨hl, .inr ⟨rfl, hi⟩⟩

/-- `AddEndorsement` on a known query: the store it cascades from. -/
theorem addEndorsement_base {s s1 : QueryStore} {e : Endorsement} {qi qi' : QueryInfo}
    {ins : Bool} (hw : s.WellKeyed) (hq : s.queries e.uuid = some qi)
    (h : s.addEndorsementInternal e qi = (ins, qi', s1)) :
    qi'.uuid = e.uuid ∧ CascadeBase s (s1.setQuery e.uuid qi') e.uuid := by
  obtain ⟨hl, hqi⟩ := addEndorsementInternal_spec h
  have hx : qi.uuid = e.uuid := hw _ qi hq
  -- the entry of `x` keeps its state, cache and dependents and gains only stale, indexed
  -- endorsements
  obtain ⟨es, hes, hnew⟩ : ∃ es, qi' = { qi with endorsements := qi.endorsements ++ es } ∧
      ∀ e' ∈ es, e'.cached.fresh = false ∧ ∀ c ∈ e'.endorsement.conditions, s1.Indexed e.uuid c := by
    rcases hqi with rfl | ⟨rfl, hi⟩
    · exact ⟨[], by simp, by simp⟩
    · exact ⟨_, rfl, by simpa [← hx] using hi⟩
  subst hes
  set b := s1.setQuery e.uuid { qi with endorsements := qi.endorsements ++ es }
  have hind : ∀ d c, s.Indexed d c → b.Indexed d c := fun d c hi => by
    rw [indexed_setQuery]
    split
    · subst c
      simpa [Indexed, hq] using hi
    · exact hl.indexed d c hi
  have hdep : ∀ d c, d ≠ e.uuid → b.DependsOn d c → s.DependsOn d c := fun d c hdx ⟨qd, hd, hc⟩ =>
    hl.dependsOn_iff.mp ⟨qd, by simpa [b, hdx] using hd, hc⟩
  refine ⟨hx, ⟨⟨fun d hd qb hb => ?_, fun qb hb e' he' hf => ?_, fun c v hv => .inl ?_, hind,
    hl.threshold⟩, fun u qu hu => ?_, fun keys hk u hu => ?_, fun d c hdc => ?_,
    fun hi d c hdc hne => ?_⟩⟩
  · simp only [b, setQuery_queries, hd, if_false] at hb
    obtain ⟨qi0, h0, ds, rfl⟩ := hl.some d qb hb
    exact ⟨qi0, h0, rfl, rfl, rfl⟩
  · simp only [b, setQuery_queries, if_true, Option.some.injEq] at hb
    subst hb
    rcases List.mem_append.mp he' with he' | he'
    · exact ⟨qi, hq, he'⟩
    · simp [(hnew e' he').1] at hf
  · by_cases hc : c = e.uuid
    · subst hc
      simpa [b, settled, hq] using hv
    · rw [settled_setQuery_ne hc, hl.settled_eq c]
      exact hv
  · by_cases hux : u = e.uuid
    · simp only [b, hux, setQuery_queries, if_true, Option.some.injEq] at hu
      subst hu
      exact hx.trans hux.symm
    · simp only [b, setQuery_queries, hux, if_false] at hu
      exact hl.wellKeyed hw u qu hu
  · by_cases hux : u = e.uuid
    · exact hux ▸ List.mem_cons_self _ _
    · exact List.mem_cons_of_mem _ (hl.keysIn hk u (by simpa [b, hux] using hu))
  · obtain ⟨qd, hd, e', he', hc⟩ := hdc
    by_cases hdx : d = e.uuid
    · subst hdx
      rw [hq, Option.some.injEq] at hd
      subst hd
      exact ⟨{ qi with endorsements := qi.endorsements ++ es }, by simp [b], e', by simp [he'], hc⟩
    · obtain ⟨qd1, hd1, hc1⟩ := hl.dependsOn_iff.mpr ⟨qd, hd, e', he', hc⟩
      exact ⟨qd1, by simp [b, hdx, hd1], hc1⟩
  · by_cases hdx : d = e.uuid
    · subst hdx
      obtain ⟨qd, hd, e', he', hc⟩ := hdc
      have hqd : qd = { qi with endorsements := qi.endorsements ++ es } := by
        simpa [b] using hd.symm
      subst hqd
      rcases List.mem_append.mp he' with he2 | he2
      · exact hind _ c (hi _ c ⟨qi, hq, e', he2, hc⟩ hne)
      · simpa [b, Ne.symm hne] using (hnew e' he2).2 c hc
    · exact hind d c (hi d c (hdep d c hdx hdc) hne)

/-- The entry `AddQuery` builds for `q` while it re-injects the parked endorsements: stale
endorsements whose conditions are indexed, in a store that has only gained edges. -/
def Hydrated (s : QueryStore) (q : Query) (acc : QueryInfo × QueryStore) : Prop :=
  Links s acc.2 ∧ ∃ es, acc.1 = ⟨q, es, [], .pending, false, false, CachedInfo.zero⟩ ∧
    ∀ e ∈ es, e.cached.fresh = false ∧ ∀ c ∈ e.endorsement.conditions, acc.2.Indexed q.uuid c

theorem hydrated_hydrate {s : QueryStore} {q : Query} {acc : QueryInfo × QueryStore}
    (h : Hydrated s q acc) (pe : Endorsement) : Hydrated s q (hydrate q.uuid acc pe) := by
  obtain ⟨qi, t⟩ := acc
  obtain ⟨hl, es, hqi, hes⟩ := h
  dsimp only at hqi
  subst hqi
  unfold hydrate
  split
  · exact ⟨hl, es, rfl, hes⟩
  · generalize hr : t.addEndorsementInternal pe _ = r
    obtain ⟨ins, qi', t'⟩ := r
    obtain ⟨hl', hqi'⟩ := addEndorsementInternal_spec hr
    have hkeep : ∀ e ∈ es, e.cached.fresh = false ∧
        ∀ c ∈ e.endorsement.conditions, t'.Indexed q.uuid c :=
      fun e he => ⟨(hes e he).1, fun c hc => hl'.indexed _ _ ((hes e he).2 c hc)⟩
    rcases hqi' with rfl | ⟨rfl, hi⟩
    · exact ⟨hl.trans hl', es, rfl, hkeep⟩
    · refine ⟨hl.trans hl', es ++ [⟨pe, .zero⟩], rfl, fun e he => ?_⟩
      rcases List.mem_append.mp he with he | he
      · exact hkeep e he
      · rw [List.mem_singleton.mp he]
        exact ⟨rfl, hi⟩

theorem hydrated_foldl {s : QueryStore} {q : Query} :
    ∀ (pes : List Endorsement) (acc : QueryInfo × QueryStore), Hydrated s q acc →
      Hydrated s q (pes.foldl (hydrate q.uuid) acc)
  | [], _, h => h
  | pe :: pes, _, h => hydrated_foldl pes _ (hydrated_hydrate h pe)

/-- What `AddQuery` does: nothing when the uuid is taken; otherwise it builds the entry of `q`
from the parked endorsements (`Hydrated`), cascades from it, and clears the parking of `q`. -/
theorem addQuery_cases {s s' : QueryStore} {n : Nat} {q : Query} {r : Bool}
    (h : s.addQuery n q = some (r, s')) :
    (s.queries q.uuid ≠ none ∧ r = false ∧ s' = s) ∨
    (s.queries q.uuid = none ∧ r = true ∧ ∃ es t s'',
      s.pendingEndorsements.foldl (hydrate q.uuid) (⟨q, [], [], .pending, false, false, .zero⟩, s) =
        (⟨q, es, [], .pending, false, false, .zero⟩, t) ∧
      Hydrated s q (⟨q, es, [], .pending, false, false, .zero⟩, t) ∧
      cascadeMark n { t with pendingDependencies := Function.update t.pendingDependencies q.uuid [] }
        ⟨q, es, t.pendingDependencies q.uuid, .pending, false, false, CachedInfo.set false⟩ =
          some s'' ∧
      s' = { s'' with pendingEndorsements := s.pendingEndorsements.filter (·.uuid ≠ q.uuid) }) := by
  unfold addQuery at h
  cases hq : s.queries q.uuid with
  | some _ =>
    simp only [hq, Option.some.injEq, Prod.mk.injEq] at h
    exact .inl ⟨by simp, h.1.symm, h.2.symm⟩
  | none =>
    simp only [hq] at h
    have hh := hydrated_foldl s.pendingEndorsements _
      (⟨.refl s, [], rfl, by simp⟩ : Hydrated s q (⟨q, [], [], .pending, false, false, .zero⟩, s))
    generalize s.pendingEndorsements.foldl (hydrate q.uuid) _ = acc at h hh
    obtain ⟨qi, t⟩ := acc
    obtain ⟨hl, es, hqi, hes⟩ := hh
    dsimp only at hqi hl hes
    subst hqi
    simp only [Option.map_eq_some', Prod.mk.injEq] at h
    obtain ⟨s'', hc, hr, rfl⟩ := h
    exact .inr ⟨rfl, hr.symm, es, t, s'', rfl, ⟨hl, es, rfl, hes⟩, hc, rfl⟩

/-- `AddQuery` of a new query: the store it cascades from. -/
theorem addQuery_base {s t : QueryStore} {q : Query} {es : List EndorsementInfo}
    (hw : s.WellKeyed) (hq : s.queries q.uuid = none)
    (h : Hydrated s q (⟨q, es, [], .pending, false, false, CachedInfo.zero⟩, t)) :
    CascadeBase s (({ t with pendingDependencies := Function.update t.pendingDependencies q.uuid [] }
      : QueryStore).setQuery q.uuid
        ⟨q, es, t.pendingDependencies q.uuid, .pending, false, false, CachedInfo.set false⟩) q.uuid := by
  obtain ⟨hl, es', heq, hes⟩ := h
  simp only [Prod.mk.injEq, QueryInfo.mk.injEq, true_and, and_true] at heq
  subst heq
  set x := q.uuid
  set qi : QueryInfo := ⟨q, es, t.pendingDependencies x, .pending, false, false, CachedInfo.set false⟩
  set b := ({ t with pendingDependencies := Function.update t.pendingDependencies x [] }
      : QueryStore).setQuery x qi
  have htx : t.queries x = none := (hl.none x).mp hq
  have hbq : ∀ d, d ≠ x → b.queries d = t.queries d := fun d hd => by simp [b, hd]
  have hind : ∀ d c, t.Indexed d c → b.Indexed d c := fun d c hi => by
    simp only [b, indexed_setQuery]
    split
    · subst c
      simpa [Indexed, htx, qi] using hi
    · simpa [Indexed, Function.update_noteq ‹c ≠ x›] using hi
  have hdep : ∀ d c, d ≠ x → b.DependsOn d c → s.DependsOn d c := fun d c hdx ⟨qd, hd, hc⟩ =>
    hl.dependsOn_iff.mp ⟨qd, hbq d hdx ▸ hd, hc⟩
  refine ⟨⟨fun d hd qb hb => ?_, fun qb hb e he hf => ?_, fun c v hv => ?_,
    fun d c hi => hind d c (hl.indexed d c hi), hl.threshold⟩, fun u qu hu => ?_,
    fun keys hk u hu => ?_, fun d c hdc => ?_, fun hi d c hdc hne => ?_⟩
  · obtain ⟨qi0, h0, ds, rfl⟩ := hl.some d qb (hbq d hd ▸ hb)
    exact ⟨qi0, h0, rfl, rfl, rfl⟩
  · simp only [b, setQuery_queries, if_true, Option.some.injEq] at hb
    subst hb
    simp [(hes e he).1] at hf
  · by_cases hc : c = x
    · exact .inr ⟨hc, qi, by simp [b], rfl⟩
    · refine .inl ?_
      rw [← hv, ← hl.settled_eq c]
      simp [b, settled, hc]
  · by_cases hux : u = x
    · simp only [b, hux, setQuery_queries, if_true, Option.some.injEq] at hu
      rw [← hu, hux]
      rfl
    · exact hl.wellKeyed hw u qu (hbq u hux ▸ hu)
  · by_cases hux : u = x
    · exact hux ▸ List.mem_cons_self _ _
    · exact List.mem_cons_of_mem _ (hl.keysIn hk u (by simpa [hbq u hux] using hu))
  · obtain ⟨qd, hd, e, he, hc⟩ := hdc
    have hdx : d ≠ x := by rintro rfl; simp [hq] at hd
    obtain ⟨qd1, hd1, hc1⟩ := hl.dependsOn_iff.mpr ⟨qd, hd, e, he, hc⟩
    exact ⟨qd1, hbq d hdx ▸ hd1, hc1⟩
  · by_cases hdx : d = x
    · subst hdx
      obtain ⟨qd, hd, e, he, hc⟩ := hdc
      simp only [b, setQuery_queries, if_true, Option.some.injEq] at hd
      subst hd
      exact hind _ c ((hes e he).2 c hc)
    · exact hind d c (hl.indexed d c (hi d c (hdep d c hdx hdc) hne))

/-- What `AddEndorsement` does: it parks an endorsement of an unknown query; otherwise it adds it
to the entry (`addEndorsementInternal`) and cascades from the entry. -/
theorem addEndorsement_cases {s s' : QueryStore} {n : Nat} {e : Endorsement} {r : Bool × Bool}
    (h : s.addEndorsement n e = some (r, s')) :
    (s.queries e.uuid = none ∧ r = (true, false) ∧
      s' = { s with pendingEndorsements := s.pendingEndorsements ++ [e] }) ∨
    ∃ qi ins qi' s1, s.queries e.uuid = some qi ∧ s.addEndorsementInternal e qi = (ins, qi', s1) ∧
      r = (false, ins) ∧ cascadeMark n s1 qi' = some s' := by
  unfold addEndorsement at h
  cases hq : s.queries e.uuid with
  | none =>
    simp only [hq, Option.some.injEq, Prod.mk.injEq] at h
    exact .inl ⟨rfl, h.1.symm, h.2.symm⟩
  | some qi =>
    simp only [hq] at h
    generalize hr : s.addEndorsementInternal e qi = ri at h
    obtain ⟨ins, qi', s1⟩ := ri
    simp only [Option.map_eq_some', Prod.mk.injEq] at h
    obtain ⟨s'', hc, rfl, rfl⟩ := h
    exact .inr ⟨qi, ins, qi', s1, rfl, hr, rfl, hc⟩

theorem addEndorsement_effect {s s' : QueryStore} {n : Nat} {e : Endorsement} {r : Bool × Bool}
    (hw : s.WellKeyed) (h : s.addEndorsement n e = some (r, s')) : Effect s s' := by
  rcases addEndorsement_cases h with ⟨hq, -, rfl⟩ | ⟨qi, ins, qi', s1, hq, hr, -, hc⟩
  · exact .of_eq hw rfl rfl rfl
  obtain ⟨hu, hb⟩ := addEndorsement_base hw hq hr
  exact cascadeMark_effect (hu ▸ hb) ((addEndorsementInternal_spec hr).1.wellKeyed hw) hc

theorem addQuery_effect {s s' : QueryStore} {n : Nat} {q : Query} {r : Bool}
    (hw : s.WellKeyed) (h : s.addQuery n q = some (r, s')) : Effect s s' := by
  rcases addQuery_cases h with ⟨-, -, rfl⟩ | ⟨hq, -, es, t, s'', -, hh, hc, rfl⟩
  · exact .refl hw
  have he := cascadeMark_effect (addQuery_base hw hq hh)
    (by exact fun u qi hu => hh.1.wellKeyed hw u qi hu) hc
  exact he.trans (.of_eq he.wellKeyed rfl rfl rfl)

end QueryStore

end PnyxDB.Consensus
