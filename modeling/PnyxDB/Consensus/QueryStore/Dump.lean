import PnyxDB.Consensus.QueryStore.Termination

/-!
`Dump` and `Load` of the query store (`consensus/query_test.go`). `Dump` writes the maps `queries`
and `pendingDependencies` and the slice `pendingEndorsements` with `encoding/gob`, which skips
unexported fields: the embedded `cachedInfo` of each entry and of each endorsement is not written.
`Load` decodes them into the store of a fresh engine; a cache entry that was not written reads as
the zero `cachedInfo{}`, which is stale.

* `load_dump_content` — loading a dump gives back every entry's query, endorsements in order,
  dependents, state and flags `Endorsed` and `Applied`, and the two other maps, for every store.
* `cacheInv_load_dump` — the loaded store has no fresh cache, so it satisfies the cache invariant
  as soon as the dumped store's index is complete.
* `load_dump_round_trip` — on every reachable store, cyclic condition graphs included,
  `isApplicable` returns the same values on the loaded store as on the store that was dumped: on
  both it returns exactly the values of the evaluation without cache, which reads the content only.
* `load_dump_isApplicable` — on a reachable store with an acyclic condition graph both calls
  return, given enough fuel.
-/

namespace PnyxDB.Consensus

/-- The entry as gob writes it: without its cache entries. -/
def QueryInfo.uncache (qi : QueryInfo) : QueryInfo :=
  { qi with endorsements := qi.endorsements.map EndorsementInfo.erase, cached := .zero }

@[simp] theorem QueryInfo.uncache_query (qi : QueryInfo) : qi.uncache.query = qi.query := rfl
@[simp] theorem QueryInfo.uncache_state (qi : QueryInfo) : qi.uncache.state = qi.state := rfl
@[simp] theorem QueryInfo.uncache_dependents (qi : QueryInfo) :
    qi.uncache.dependents = qi.dependents := rfl
@[simp] theorem QueryInfo.uncache_endorsed (qi : QueryInfo) : qi.uncache.endorsed = qi.endorsed :=
  rfl
@[simp] theorem QueryInfo.uncache_applied (qi : QueryInfo) : qi.uncache.applied = qi.applied := rfl
@[simp] theorem QueryInfo.uncache_cached (qi : QueryInfo) : qi.uncache.cached = .zero := rfl
@[simp] theorem QueryInfo.uncache_endorsements (qi : QueryInfo) :
    qi.uncache.endorsements = qi.endorsements.map EndorsementInfo.erase := rfl
@[simp] theorem QueryInfo.erase_uncache (qi : QueryInfo) : qi.uncache.erase = qi.erase := by
  simp [QueryInfo.uncache, QueryInfo.erase, EndorsementInfo.erase, Function.comp_def]

/-- What `Dump` writes. -/
structure DumpImage where
  queries : String → Option QueryInfo
  pendingDependencies : String → List String
  pendingEndorsements : List Endorsement

namespace QueryStore

/-- `Dump`: the three collections, the entries without their caches. -/
def dump (s : QueryStore) : DumpImage :=
  ⟨fun u => (s.queries u).map QueryInfo.uncache, s.pendingDependencies, s.pendingEndorsements⟩

end QueryStore

/-- `Load` into the store `NewEngine` builds for quorum `t`: gob fills its empty maps and slice with
what the dump holds. -/
def DumpImage.load (t : Int) (d : DumpImage) : QueryStore :=
  ⟨d.queries, d.pendingDependencies, d.pendingEndorsements, t⟩

namespace QueryStore

variable {s : QueryStore} {t : Int}

@[simp] theorem load_dump_queries (s : QueryStore) (t : Int) (u : String) :
    ((s.dump).load t).queries u = (s.queries u).map QueryInfo.uncache := rfl

/-- What a dump keeps of an entry: query, endorsements in order, dependents, state and the two
local flags. -/
def entryContent (qi : QueryInfo) :
    Query × List Endorsement × List String × QueryState × Bool × Bool :=
  (qi.query, qi.endorsements.map (·.endorsement), qi.dependents, qi.state, qi.endorsed, qi.applied)

theorem load_dump_content (s : QueryStore) (t : Int) :
    (∀ u, (((s.dump).load t).queries u).map entryContent = (s.queries u).map entryContent) ∧
      ((s.dump).load t).pendingDependencies = s.pendingDependencies ∧
      ((s.dump).load t).pendingEndorsements = s.pendingEndorsements := by
  refine ⟨fun u => ?_, rfl, rfl⟩
  rw [load_dump_queries]
  cases s.queries u <;> simp [entryContent, Function.comp_def]

/-- A loaded store has the content of the dumped one, and no fresh cache entry. -/
theorem sameContent_load_dump (s : QueryStore) : s.SameContent ((s.dump).load s.threshold) :=
  ⟨fun u => by rw [load_dump_queries]; cases s.queries u <;> simp, rfl, rfl, rfl⟩

theorem coherent_load (t : Int) (d : DumpImage)
    (h : ∀ u qi, d.queries u = some qi → qi = qi.uncache) : (d.load t).Coherent := by
  refine ⟨fun u qi hu _ hf => ?_, fun u qi hu e he hf => ?_⟩
  · rw [h u qi hu] at hf
    simp at hf
  · rw [h u qi hu] at he
    obtain ⟨e', -, rfl⟩ := List.mem_map.mp (by simpa using he)
    simp [EndorsementInfo.erase] at hf

theorem uncache_uncache (qi : QueryInfo) : qi.uncache.uncache = qi.uncache := by
  simp [QueryInfo.uncache, EndorsementInfo.erase, Function.comp_def]

/-- The loaded store has no fresh cache: it is coherent and sound, and its index is the dumped
one. -/
theorem cacheInv_load_dump (s : QueryStore) (hi : s.IndexComplete) :
    ((s.dump).load s.threshold).CacheInv := by
  have hsame := sameContent_load_dump s
  refine ⟨coherent_load _ _ fun u qi hu => ?_, hsame.indexComplete hi, sound_of_stale ?_⟩
  · obtain ⟨qi', -, rfl⟩ := Option.map_eq_some'.mp hu
    exact (uncache_uncache qi').symm
  · intro u qi hu _
    obtain ⟨qi', -, rfl⟩ := Option.map_eq_some'.mp hu
    rfl

/-- Loading the dump of a reachable store gives back its content, and `isApplicable` returns the
same values on both stores. -/
theorem load_dump_round_trip (hr : s.Reachable t) :
    ((∀ u, (((s.dump).load s.threshold).queries u).map entryContent =
        (s.queries u).map entryContent) ∧
      ((s.dump).load s.threshold).pendingDependencies = s.pendingDependencies ∧
      ((s.dump).load s.threshold).pendingEndorsements = s.pendingEndorsements) ∧
    ∀ u, (∀ b, (∃ fuel s', isApplicable fuel s u = some (b, s')) ↔
        ∃ fuel s', isApplicable fuel ((s.dump).load s.threshold) u = some (b, s')) ∧
      ∀ fuel fuel' b b' s₁ s₂, isApplicable fuel s u = some (b, s₁) →
        isApplicable fuel' ((s.dump).load s.threshold) u = some (b', s₂) → b = b' := by
  have hi := hr.cacheInv
  have hl := cacheInv_load_dump s hi.indexComplete
  have hsame := sameContent_load_dump s
  refine ⟨load_dump_content s s.threshold, fun u => ⟨fun b => ?_, fun _ _ b b' _ _ h₁ h₂ => ?_⟩⟩
  · rw [isApplicable_iff_evaluates hi, isApplicable_iff_evaluates hl, hsame.evaluates]
  · exact (isApplicable_memo _ s u b _ hi h₁).1.unique
      (hsame.evaluates.mpr (isApplicable_memo _ _ u b' _ hl h₂).1)

/-- The store of `selfLoopRun`, whose condition graph has a cycle, is one of them. -/
theorem load_dump_round_trip_selfLoopRun :
    ∃ s, runOps 1 (init 3) selfLoopRun = some s ∧ s.Reachable 3 ∧
      ((∀ u, (((s.dump).load s.threshold).queries u).map entryContent =
          (s.queries u).map entryContent) ∧
        ((s.dump).load s.threshold).pendingDependencies = s.pendingDependencies ∧
        ((s.dump).load s.threshold).pendingEndorsements = s.pendingEndorsements) ∧
      ∀ u, (∀ b, (∃ fuel s', isApplicable fuel s u = some (b, s')) ↔
          ∃ fuel s', isApplicable fuel ((s.dump).load s.threshold) u = some (b, s')) ∧
        ∀ fuel fuel' b b' s₁ s₂, isApplicable fuel s u = some (b, s₁) →
          isApplicable fuel' ((s.dump).load s.threshold) u = some (b', s₂) → b = b' := by
  obtain ⟨s, hs⟩ := Option.isSome_iff_exists.mp
    (show (runOps 1 (init 3) selfLoopRun).isSome = true by decide)
  have hr : s.Reachable 3 :=
    reachable_runOps _ _ _ .refl (by simp [selfLoopRun, StoreOp.Admissible]) hs
  exact ⟨s, hs, hr, load_dump_round_trip hr⟩

/-- On a reachable acyclic store, `isApplicable` gives the dumped and the loaded store the same
value, whenever it returns, and returns on both given enough fuel. -/
theorem load_dump_isApplicable (hr : s.Reachable t) (hac : s.Acyclic) (u : String) :
    ∃ b, (∃ fuel s', isApplicable fuel s u = some (b, s')) ∧
      (∃ fuel s', isApplicable fuel ((s.dump).load s.threshold) u = some (b, s')) ∧
      (∀ fuel b' s', isApplicable fuel s u = some (b', s') → b' = b) ∧
      ∀ fuel b' s', isApplicable fuel ((s.dump).load s.threshold) u = some (b', s') → b' = b := by
  obtain ⟨rank, f, hrank, hf⟩ := exists_ranked_isApp hr.wellFormed.2 hac
  have hi := hr.cacheInv
  have hsame := sameContent_load_dump s
  have hcoh : ((s.dump).load s.threshold).Coherent :=
    coherent_load _ _ fun u qi hu => by
      obtain ⟨qi', -, rfl⟩ := Option.map_eq_some'.mp hu
      exact (uncache_uncache qi').symm
  obtain ⟨s₁, h₁, -⟩ := isApplicable_spec hrank hf hi.indexComplete (rank u) u rfl (rank u + 1)
    (by omega) s (.refl s) hi.coherent
  obtain ⟨s₂, h₂, -⟩ := isApplicable_spec hrank hf hi.indexComplete (rank u) u rfl (rank u + 1)
    (by omega) _ hsame hcoh
  exact ⟨f u, ⟨_, _, h₁⟩, ⟨_, _, h₂⟩,
    fun _ _ _ h => (isApplicable_sound hrank hf hi.indexComplete (.refl s) hi.coherent h).1,
    fun _ _ _ h => (isApplicable_sound hrank hf hi.indexComplete hsame hcoh h).1⟩

end QueryStore

end PnyxDB.Consensus
