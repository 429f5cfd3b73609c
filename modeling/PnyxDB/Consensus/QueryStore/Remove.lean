import PnyxDB.Consensus.QueryStore.Insert

/-!
Removal: `drop` rewrites the entry of a query as dropped and fresh, then cascades; `commit` marks a
query committed and drops each of its dependents; `CheckpointDrop` drops a list of queries. Each
has an `Effect`; `commit` keeps the cache invariant only when the store does not vouch that the
committed query is not applicable, which `CheckState` ensures.
-/

namespace PnyxDB.Consensus

namespace QueryStore

/-- Operations folded over a list compose their effects. -/
theorem effect_foldlM {α : Type} {f : QueryStore → α → Option QueryStore}
    (hf : ∀ s a s', s.WellKeyed → f s a = some s' → Effect s s') :
    ∀ (l : List α) (s s' : QueryStore), s.WellKeyed → l.foldlM f s = some s' → Effect s s'
  | [], s, s', hw, h => by
    simp only [List.foldlM_nil, Option.pure_def, Option.some.injEq] at h
    exact h ▸ .refl hw
  | a :: l, s, s', hw, h => by
    simp only [List.foldlM_cons, Option.bind_eq_bind, Option.bind_eq_some] at h
    obtain ⟨s1, h1, h2⟩ := h
    have he := hf s a s1 hw h1
    exact he.trans (effect_foldlM hf l s1 s' he.wellKeyed h2)

/-- Rewriting the entry of `x` as a fresh one with the same query, endorsements and dependents
prepares a cascade. -/
theorem cascadeBase_setQuery {s : QueryStore} {x : String} {qi qi' : QueryInfo}
    (hw : s.WellKeyed) (hx : s.queries x = some qi) (hq : qi'.query = qi.query)
    (he : qi'.endorsements = qi.endorsements) (hd : qi'.dependents = qi.dependents)
    (hf : qi'.cached.fresh = true) : CascadeBase s (s.setQuery x qi') x := by
  have hdep : ∀ d c, (s.setQuery x qi').DependsOn d c ↔ s.DependsOn d c := fun d c => by
    by_cases hdx : d = x
    · subst hdx
      simp [DependsOn, hx, he]
    · simp [DependsOn, hdx]
  have hind : ∀ d c, (s.setQuery x qi').Indexed d c ↔ s.Indexed d c := fun d c => by
    rw [indexed_setQuery]
    split
    · subst c
      simp [Indexed, hx, hd]
    · rfl
  refine ⟨⟨fun d hdx qb hb => ?_, fun qb hb e he' _ => ?_, fun c v hv => ?_,
    fun d c => (hind d c).mpr, rfl⟩, fun u qu hu => ?_, fun keys hk u hu => ?_,
    fun d c => (hdep d c).mpr, fun hi d c hdc hne => (hind d c).mpr (hi d c ((hdep d c).mp hdc) hne)⟩
  · simp only [setQuery_queries, hdx, if_false] at hb
    exact ⟨qb, hb, rfl, rfl, rfl⟩
  · simp only [setQuery_queries, if_true, Option.some.injEq] at hb
    subst hb
    exact ⟨qi, hx, he ▸ he'⟩
  · by_cases hc : c = x
    · exact .inr ⟨hc, qi', by simp, hf⟩
    · exact .inl (by rw [settled_setQuery_ne hc]; exact hv)
  · by_cases hux : u = x
    · simp only [hux, setQuery_queries, if_true, Option.some.injEq] at hu
      subst hu
      rw [hux, ← hw x qi hx]
      exact congrArg Query.uuid hq
    · simp only [setQuery_queries, hux, if_false] at hu
      exact hw u qu hu
  · by_cases hux : u = x
    · exact hux ▸ List.mem_cons_self _ _
    · exact List.mem_cons_of_mem _ (hk u (by simpa [hux] using hu))

theorem drop_effect {s s' : QueryStore} {n : Nat} {uuid : String} (hw : s.WellKeyed)
    (h : s.drop n uuid = some s') : Effect s s' := by
  unfold drop at h
  cases hq : s.queries uuid with
  | none =>
    simp only [hq, Option.some.injEq] at h
    exact h ▸ .refl hw
  | some qi =>
    simp only [hq] at h
    have hb : CascadeBase s (s.setQuery uuid
        { qi with state := .dropped, cached := CachedInfo.set false }) uuid :=
      cascadeBase_setQuery hw hq rfl rfl rfl rfl
    rw [← hw uuid qi hq] at hb
    exact cascadeMark_effect hb hw h

theorem checkpointDrop_effect {s s' : QueryStore} {n : Nat} {uuids : List String}
    (hw : s.WellKeyed) (h : s.checkpointDrop n uuids = some s') : Effect s s' :=
  effect_foldlM (fun _ _ _ hw h => drop_effect hw h) uuids s s' hw h

/-- Marking committed a query the store does not vouch to be inapplicable decays the store. -/
theorem decays_setCommitted {s : QueryStore} {x : String} {qi : QueryInfo}
    (hx : s.queries x = some qi) (hset : ∀ v, s.settled x = some v → v = true) :
    Decays s (s.setQuery x { qi with state := .committed }) := by
  refine ⟨fun d qd hd hp _ => ?_, fun d qd hd e he _ => ?_, fun c d v _ hv hne => ?_,
    fun d c hi => ?_, rfl⟩
  · by_cases hdx : d = x
    · simp only [hdx, setQuery_queries, if_true, Option.some.injEq] at hd
      simp [← hd] at hp
    · simp only [setQuery_queries, hdx, if_false] at hd
      exact ⟨qd, hd, hp, rfl, rfl⟩
  · by_cases hdx : d = x
    · simp only [hdx, setQuery_queries, if_true, Option.some.injEq] at hd
      subst hd
      exact ⟨qi, hdx ▸ hx, he⟩
    · simp only [setQuery_queries, hdx, if_false] at hd
      exact ⟨qd, hd, he⟩
  · by_cases hcx : c = x
    · subst hcx
      obtain rfl := hset v hv
      simp [settled] at hne
    · exact absurd (by rw [settled_setQuery_ne hcx]; exact hv) hne
  · rw [indexed_setQuery]
    split
    · subst c
      simpa [Indexed, hx] using hi
    · exact hi

theorem setCommitted_frame {s : QueryStore} {x : String} {qi : QueryInfo} (hw : s.WellKeyed)
    (hx : s.queries x = some qi) : Frame s (s.setQuery x { qi with state := .committed }) where
  wellKeyed u qu hu := by
    by_cases hux : u = x
    · simp only [hux, setQuery_queries, if_true, Option.some.injEq] at hu
      subst hu
      rw [hux]
      exact hw x qi hx
    · simp only [setQuery_queries, hux, if_false] at hu
      exact hw u qu hu
  keys keys hk := ⟨keys, fun u hu => hk u (by by_cases hux : u = x <;> simp_all)⟩
  grows d c hdc := by
    obtain ⟨qd, hd, hc⟩ := hdc
    by_cases hdx : d = x
    · subst hdx
      rw [hx, Option.some.injEq] at hd
      subst hd
      exact ⟨{ qi with state := .committed }, by simp, hc⟩
    · exact ⟨qd, by simp [hdx, hd], hc⟩

theorem setCommitted_effect {s : QueryStore} {x : String} {qi : QueryInfo} (hw : s.WellKeyed)
    (hx : s.queries x = some qi) (hset : ∀ v, s.settled x = some v → v = true) :
    Effect s (s.setQuery x { qi with state := .committed }) where
  toFrame := setCommitted_frame hw hx
  cache hi := ⟨(decays_setCommitted hx hset).coherent hi.coherent, fun d c hdc hne => by
    have hdc' : s.DependsOn d c := by
      obtain ⟨qd, hd, hc⟩ := hdc
      by_cases hdx : d = x
      · subst hdx
        simp only [setQuery_queries, if_true, Option.some.injEq] at hd
        subst hd
        exact ⟨qi, hx, hc⟩
      · exact ⟨qd, by simpa [hdx] using hd, hc⟩
    have := hi.indexComplete d c hdc' hne
    rw [indexed_setQuery]
    split
    · subst c
      simpa [Indexed, hx] using this
    · exact this, (decays_setCommitted hx hset).sound hi.coherent hi.sound⟩

theorem commit_frame {s s' : QueryStore} {n : Nat} {uuid : String} (hw : s.WellKeyed)
    (h : s.commit n uuid = some s') : Frame s s' := by
  unfold commit at h
  cases hq : s.queries uuid with
  | none =>
    simp only [hq, Option.some.injEq] at h
    exact h ▸ (Effect.refl hw).toFrame
  | some qi =>
    simp only [hq] at h
    have he := setCommitted_frame hw hq
    exact he.trans (effect_foldlM (fun _ _ _ hw h => drop_effect hw h) _ _ _ he.wellKeyed h).toFrame

/-- `commit` keeps the cache invariant when the store does not vouch that the query it commits is
not applicable. -/
theorem commit_effect {s s' : QueryStore} {n : Nat} {uuid : String} (hw : s.WellKeyed)
    (hset : ∀ v, s.settled uuid = some v → v = true) (h : s.commit n uuid = some s') :
    Effect s s' := by
  unfold commit at h
  cases hq : s.queries uuid with
  | none =>
    simp only [hq, Option.some.injEq] at h
    exact h ▸ .refl hw
  | some qi =>
    simp only [hq] at h
    have he := setCommitted_effect hw hq hset
    exact he.trans (effect_foldlM (fun _ _ _ hw h => drop_effect hw h) _ _ _ he.wellKeyed h)

end QueryStore

end PnyxDB.Consensus
