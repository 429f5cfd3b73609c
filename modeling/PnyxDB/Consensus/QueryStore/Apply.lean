import PnyxDB.Consensus.QueryStore.Refresh

/-!
Two facts about `isApplicable` that hold on every store. More fuel never changes a result that was
returned (`isApplicable_succ`), and a call never changes the content of the store
(`isApplicable_sameContent`): only caches are written. With them, `isApplicable_sound` turns the
specification of `isApplicable_spec`, stated for enough fuel, into one about every call that returns.
-/

namespace PnyxDB.Consensus

namespace QueryStore

section
variable {isApp isApp' : QueryStore → String → Option (Bool × QueryStore)}

theorem conditionsValid_mono (h : ∀ s c r, isApp s c = some r → isApp' s c = some r) :
    ∀ (s : QueryStore) (cs : List String) (r : Bool × QueryStore),
      conditionsValid isApp s cs = some r → conditionsValid isApp' s cs = some r
  | _, [], _, hr => hr
  | s, c :: cs, r, hr => by
    cases h1 : isApp s c with
    | none => simp [conditionsValid, h1] at hr
    | some p =>
      obtain ⟨b, s1⟩ := p
      rw [conditionsValid_cons h1] at hr
      rw [conditionsValid_cons (h s c _ h1)]
      cases b
      · exact conditionsValid_mono h s1 cs r hr
      · exact hr

theorem endorsementsLoop_mono (h : ∀ s c r, isApp s c = some r → isApp' s c = some r)
    (uuid : String) :
    ∀ (is : List Nat) (valid : Nat) (s : QueryStore) (r : Nat × QueryStore),
      endorsementsLoop isApp uuid is valid s = some r →
        endorsementsLoop isApp' uuid is valid s = some r
  | [], _, _, _, hr => hr
  | i :: is, valid, s, r, hr => by
    simp only [endorsementsLoop] at hr ⊢
    cases he : (s.endorsementsOf uuid)[i]? with
    | none =>
      simp only [he] at hr ⊢
      exact endorsementsLoop_mono h uuid is valid s r hr
    | some e =>
      simp only [he] at hr ⊢
      by_cases hf : e.cached.fresh = true
      · simp only [hf, if_true] at hr ⊢
        exact endorsementsLoop_mono h uuid is _ s r hr
      · simp only [hf, if_false] at hr ⊢
        cases h1 : conditionsValid isApp s e.endorsement.conditions with
        | none => simp [h1] at hr
        | some p =>
          simp only [h1, conditionsValid_mono h s _ _ h1] at hr ⊢
          exact endorsementsLoop_mono h uuid is _ _ r hr

end

/-- Writing back the `i`-th endorsement of `u` read in an earlier store of the same content, with
another cache entry, keeps the content. -/
theorem sameContent_setEndorsement {s s' : QueryStore} {u : String} {i : Nat}
    {e e' : EndorsementInfo} (hs : s.SameContent s') (he : (s.endorsementsOf u)[i]? = some e)
    (he' : e'.erase = e.erase) : s'.SameContent (s'.setEndorsement u i e') := by
  cases hu : s.queries u with
  | none => simp [endorsementsOf, hu] at he
  | some q =>
    obtain ⟨qi, hu', hq⟩ := hs.some_iff hu
    have hmap := QueryInfo.map_erase_of_erase hq
    obtain ⟨e0, he0, he0e⟩ : ∃ e0, qi.endorsements[i]? = some e0 ∧ e0.erase = e.erase := by
      have := congrArg (·[i]?) hmap
      simp only [List.getElem?_map, endorsementsOf_of_eq hu ▸ he, Option.map_some'] at this
      exact Option.map_eq_some'.mp this
    rw [setEndorsement_of_eq i e' hu']
    refine sameContent_setQuery hu' ?_
    simp only [QueryInfo.erase, erase_set_of_getElem? he0 (he'.trans he0e.symm)]

/-- A relation between stores kept by the writes of `isApplicable`, which are cache writes: an
endorsement read before, written back with a new cache entry, and the entry of `u` read before,
written back with the endorsements now stored and a new cache entry. -/
structure CacheWrites (R : QueryStore → QueryStore → Prop) : Prop where
  refl : ∀ s, R s s
  trans : ∀ {s1 s2 s3}, R s1 s2 → R s2 s3 → R s1 s3
  setEndorsement : ∀ {s s' : QueryStore} {u : String} {i : Nat} {e : EndorsementInfo}, R s s' →
    (s.endorsementsOf u)[i]? = some e → ∀ b,
      R s' (s'.setEndorsement u i { e with cached := CachedInfo.set b })
  setQuery : ∀ {s s' : QueryStore} {u : String} {q : QueryInfo}, R s s' → s.queries u = some q →
    ∀ b, R s (s'.setQuery u { q with endorsements := s'.endorsementsOf u, cached := CachedInfo.set b })

section
variable {R : QueryStore → QueryStore → Prop} (hR : CacheWrites R)
  {isApp : QueryStore → String → Option (Bool × QueryStore)}
  (happ : ∀ s c r, isApp s c = some r → R s r.2)
include hR happ

theorem conditionsValid_rel :
    ∀ (s : QueryStore) (cs : List String) (r : Bool × QueryStore),
      conditionsValid isApp s cs = some r → R s r.2
  | s, [], r, hr => by
    simp only [conditionsValid, Option.some.injEq] at hr
    exact hr ▸ hR.refl s
  | s, c :: cs, r, hr => by
    cases h1 : isApp s c with
    | none => simp [conditionsValid, h1] at hr
    | some p =>
      obtain ⟨b, s1⟩ := p
      rw [conditionsValid_cons h1] at hr
      have hs1 := happ s c _ h1
      cases b
      · exact hR.trans hs1 (conditionsValid_rel s1 cs r hr)
      · simp only [if_true, Option.some.injEq] at hr
        exact hr ▸ hs1

theorem endorsementsLoop_rel (uuid : String) :
    ∀ (is : List Nat) (valid : Nat) (s : QueryStore) (r : Nat × QueryStore),
      endorsementsLoop isApp uuid is valid s = some r → R s r.2
  | [], _, s, r, hr => by
    simp only [endorsementsLoop, Option.some.injEq] at hr
    exact hr ▸ hR.refl s
  | i :: is, valid, s, r, hr => by
    simp only [endorsementsLoop] at hr
    cases he : (s.endorsementsOf uuid)[i]? with
    | none =>
      simp only [he] at hr
      exact endorsementsLoop_rel uuid is valid s r hr
    | some e =>
      simp only [he] at hr
      by_cases hf : e.cached.fresh = true
      · simp only [hf, if_true] at hr
        exact endorsementsLoop_rel uuid is _ s r hr
      · simp only [hf, Bool.false_eq_true, if_false] at hr
        cases h1 : conditionsValid isApp s e.endorsement.conditions with
        | none => simp [h1] at hr
        | some p =>
          simp only [h1, Option.bind_eq_bind, Option.some_bind] at hr
          have hs1 := conditionsValid_rel hR happ s _ _ h1
          exact hR.trans (hR.trans hs1 (hR.setEndorsement hs1 he _))
            (endorsementsLoop_rel uuid is _ _ r hr)

end

/-- `isApplicable` keeps every relation its cache writes keep. -/
theorem isApplicable_rel {R : QueryStore → QueryStore → Prop} (hR : CacheWrites R) :
    ∀ (n : Nat) (s : QueryStore) (u : String) (r : Bool × QueryStore),
      isApplicable n s u = some r → R s r.2
  | 0, _, _, _, hr => by simp [isApplicable] at hr
  | n + 1, s, u, r, hr => by
    unfold isApplicable at hr
    split at hr
    · simp only [Option.some.injEq] at hr
      exact hr ▸ hR.refl s
    · rename_i q hu
      split_ifs at hr
      iterate 3
        simp only [Option.some.injEq] at hr
        exact hr ▸ hR.refl s
      · simp only [Option.some.injEq] at hr
        have h := hR.setQuery (hR.refl s) hu false
        rw [endorsementsOf_of_eq hu] at h
        exact hr ▸ h
      · simp only [Option.bind_eq_bind, Option.bind_eq_some, Option.some.injEq] at hr
        obtain ⟨⟨valid, s1⟩, h1, rfl⟩ := hr
        exact hR.setQuery (endorsementsLoop_rel hR (isApplicable_rel hR n) u _ _ _ _ h1) hu _

/-- More fuel returns the same result. -/
theorem isApplicable_succ :
    ∀ (n : Nat) (s : QueryStore) (u : String) (r : Bool × QueryStore),
      isApplicable n s u = some r → isApplicable (n + 1) s u = some r
  | 0, _, _, _, hr => by simp [isApplicable] at hr
  | n + 1, s, u, r, hr => by
    unfold isApplicable at hr ⊢
    split at hr
    · exact hr
    · split_ifs at hr ⊢
      all_goals try exact hr
      simp only [Option.bind_eq_bind, Option.bind_eq_some] at hr ⊢
      obtain ⟨p, h1, h2⟩ := hr
      exact ⟨p, endorsementsLoop_mono (isApplicable_succ n) _ _ _ _ _ h1, h2⟩

theorem isApplicable_le {n m : Nat} (hnm : n ≤ m) {s : QueryStore} {u : String}
    {r : Bool × QueryStore} (hr : isApplicable n s u = some r) : isApplicable m s u = some r := by
  induction hnm with
  | refl => exact hr
  | step _ ih => exact isApplicable_succ _ s u r ih

/-- `isApplicable` writes caches only. -/
theorem CacheWrites.sameContent : CacheWrites SameContent where
  refl := SameContent.refl
  trans h h' := h.trans h'
  setEndorsement hs he _ := sameContent_setEndorsement hs he rfl
  setQuery {s s' u q} hs hu _ := by
    obtain ⟨qi, hu1, hq⟩ := hs.some_iff hu
    refine hs.trans (sameContent_setQuery hu1 ?_)
    have hmap := QueryInfo.map_erase_of_erase hq
    rw [endorsementsOf_of_eq hu1, hq]
    simp only [QueryInfo.erase, hmap]

theorem isApplicable_sameContent :
    ∀ (n : Nat) (s : QueryStore) (u : String) (r : Bool × QueryStore),
      isApplicable n s u = some r → s.SameContent r.2 :=
  isApplicable_rel CacheWrites.sameContent

/-- Every call of `isApplicable` that returns, whatever its fuel, returns `app u`, refreshes the
store and leaves `u` settled. -/
theorem isApplicable_sound {s₀ : QueryStore} {rank : String → Nat} {f : String → Bool}
    (hr : s₀.Ranked rank) (hf : s₀.IsApp f) (hi : s₀.IndexComplete) {n : Nat} {s s' : QueryStore}
    {u : String} {b : Bool} (hs : s₀.SameContent s) (hc : s.Coherent)
    (h : isApplicable n s u = some (b, s')) :
    b = f u ∧ Refresh rank (rank u + 1) s s' ∧ s'.settled u = some (f u) := by
  obtain ⟨s'', h', hR, hset⟩ :=
    isApplicable_spec hr hf hi (rank u) u rfl (n + rank u + 1) (by omega) s hs hc
  rw [isApplicable_le (by omega) h, Option.some.injEq, Prod.mk.injEq] at h'
  obtain ⟨rfl, rfl⟩ := h'
  exact ⟨rfl, hR, hset⟩

end QueryStore

end PnyxDB.Consensus
