import PnyxDB.Consensus.QueryStore.Coherence

/-!
Two stores with the same content: they differ at most in their cache entries and in the flags
`Endorsed` and `Applied`, which only the engine reads. The condition graph, the dependency index and
the uncached predicate read the content only, so they are the same on both.
-/

namespace PnyxDB.Consensus

/-- The endorsement without its cache entry. -/
def EndorsementInfo.erase (e : EndorsementInfo) : EndorsementInfo := { e with cached := .zero }

/-- The query entry without its cache entries and its local flags `Endorsed` and `Applied`. -/
def QueryInfo.erase (qi : QueryInfo) : QueryInfo :=
  let es := qi.endorsements.map EndorsementInfo.erase
  { qi with endorsements := es, endorsed := false, applied := false, cached := .zero }

@[simp] theorem EndorsementInfo.erase_endorsement (e : EndorsementInfo) :
    e.erase.endorsement = e.endorsement := rfl

@[simp] theorem QueryInfo.erase_query (qi : QueryInfo) : qi.erase.query = qi.query := rfl
@[simp] theorem QueryInfo.erase_state (qi : QueryInfo) : qi.erase.state = qi.state := rfl
@[simp] theorem QueryInfo.erase_dependents (qi : QueryInfo) :
    qi.erase.dependents = qi.dependents := rfl
@[simp] theorem QueryInfo.erase_endorsements (qi : QueryInfo) :
    qi.erase.endorsements = qi.endorsements.map EndorsementInfo.erase := rfl

theorem QueryInfo.state_eq_of_erase {qi qi' : QueryInfo} (h : qi.erase = qi'.erase) :
    qi.state = qi'.state :=
  (congrArg QueryInfo.state h : qi.erase.state = qi'.erase.state)

theorem QueryInfo.map_erase_of_erase {qi qi' : QueryInfo} (h : qi.erase = qi'.erase) :
    qi.endorsements.map EndorsementInfo.erase = qi'.endorsements.map EndorsementInfo.erase :=
  (congrArg QueryInfo.endorsements h : qi.erase.endorsements = qi'.erase.endorsements)

theorem QueryInfo.conditions_of_erase {qi qi' : QueryInfo} (h : qi.erase = qi'.erase) {c : String} :
    (∃ e ∈ qi.endorsements, c ∈ e.endorsement.conditions) ↔
      ∃ e ∈ qi'.endorsements, c ∈ e.endorsement.conditions := by
  have hm := congrArg (fun qi => qi.endorsements.map EndorsementInfo.endorsement) h
  simp only [QueryInfo.erase_endorsements, List.map_map] at hm
  have key : ∀ qi : QueryInfo, (∃ e ∈ qi.endorsements, c ∈ e.endorsement.conditions) ↔
      ∃ en ∈ qi.endorsements.map (EndorsementInfo.endorsement ∘ EndorsementInfo.erase),
        c ∈ en.conditions := fun qi => by simp
  rw [key, key, hm]

/-- The validity of an endorsement reads its conditions only. -/
@[simp] theorem QueryStore.validFor_erase (f : String → Bool) (e : EndorsementInfo) :
    QueryStore.validFor f e.erase = QueryStore.validFor f e := rfl

namespace QueryStore

/-- Every entry is stored under the uuid of its query. -/
def WellKeyed (s : QueryStore) : Prop := ∀ u qi, s.queries u = some qi → qi.uuid = u

/-- `s'` has the content of `s`: only cache entries and local flags may differ. -/
structure SameContent (s s' : QueryStore) : Prop where
  queries : ∀ u, (s.queries u).map QueryInfo.erase = (s'.queries u).map QueryInfo.erase
  pendingDependencies : s.pendingDependencies = s'.pendingDependencies
  pendingEndorsements : s.pendingEndorsements = s'.pendingEndorsements
  threshold : s.threshold = s'.threshold

namespace SameContent

variable {s s' s'' : QueryStore}

theorem refl (s : QueryStore) : s.SameContent s := ⟨fun _ => rfl, rfl, rfl, rfl⟩

theorem symm (h : s.SameContent s') : s'.SameContent s :=
  ⟨fun u => (h.queries u).symm, h.pendingDependencies.symm, h.pendingEndorsements.symm,
    h.threshold.symm⟩

theorem trans (h : s.SameContent s') (h' : s'.SameContent s'') : s.SameContent s'' :=
  ⟨fun u => (h.queries u).trans (h'.queries u), h.pendingDependencies.trans h'.pendingDependencies,
    h.pendingEndorsements.trans h'.pendingEndorsements, h.threshold.trans h'.threshold⟩

theorem some_iff (h : s.SameContent s') {u : String} {qi : QueryInfo}
    (hu : s.queries u = some qi) : ∃ qi', s'.queries u = some qi' ∧ qi'.erase = qi.erase := by
  have := h.queries u
  rw [hu] at this
  cases hu' : s'.queries u with
  | none => simp [hu'] at this
  | some qi' => exact ⟨qi', rfl, by simpa [hu'] using this.symm⟩

theorem none_iff (h : s.SameContent s') {u : String} :
    s.queries u = none ↔ s'.queries u = none := by
  have := h.queries u
  cases h1 : s.queries u <;> cases h2 : s'.queries u <;> simp_all

theorem dependsOn (h : s.SameContent s') {d c : String} : s.DependsOn d c → s'.DependsOn d c := by
  rintro ⟨qi, hd, hc⟩
  obtain ⟨qi', hd', he⟩ := h.some_iff hd
  exact ⟨qi', hd', (QueryInfo.conditions_of_erase he).mpr hc⟩

theorem indexed (h : s.SameContent s') {d c : String} : s.Indexed d c → s'.Indexed d c := by
  unfold Indexed
  cases hc : s.queries c with
  | none => rw [(h.none_iff).mp hc, ← h.pendingDependencies]; exact id
  | some qi =>
    obtain ⟨qi', hc', he⟩ := h.some_iff hc
    rw [hc']
    simpa using congrArg (d ∈ ·.dependents) he.symm |>.mp

theorem ranked (h : s.SameContent s') {rank : String → Nat} (hr : s.Ranked rank) :
    s'.Ranked rank := fun d c hdc => hr d c (h.symm.dependsOn hdc)

theorem indexComplete (h : s.SameContent s') (hi : s.IndexComplete) : s'.IndexComplete :=
  fun d c hdc hne => h.indexed (hi d c (h.symm.dependsOn hdc) hne)

theorem appStep_eq (h : s.SameContent s') (f : String → Bool) (u : String) :
    s.appStep f u = s'.appStep f u := by
  unfold appStep
  cases hu : s.queries u with
  | none => rw [(h.none_iff).mp hu]
  | some qi =>
    obtain ⟨qi', hu', he⟩ := h.some_iff hu
    have hcount : qi.endorsements.countP (validFor f) = qi'.endorsements.countP (validFor f) := by
      have := congrArg (fun qi => qi.endorsements.countP (validFor f)) he
      simpa [List.countP_map, Function.comp_def] using this.symm
    have hst : qi.state = qi'.state := QueryInfo.state_eq_of_erase he.symm
    rw [hu']
    dsimp only
    rw [hst, hcount, h.threshold]

theorem isApp (h : s.SameContent s') {f : String → Bool} (hf : s.IsApp f) : s'.IsApp f :=
  fun u => (hf u).trans (h.appStep_eq f u)

theorem wellKeyed (h : s.SameContent s') (hw : s.WellKeyed) : s'.WellKeyed := fun u qi' hu => by
  obtain ⟨qi, hu0, he⟩ := h.symm.some_iff hu
  have hq : qi.query = qi'.query := by simpa using congrArg QueryInfo.query he
  exact (congrArg Query.uuid hq).symm.trans (hw u qi hu0)

end SameContent

theorem sameContent_setQuery {s : QueryStore} {u : String} {qi qi' : QueryInfo}
    (hu : s.queries u = some qi) (h : qi'.erase = qi.erase) : s.SameContent (s.setQuery u qi') :=
  ⟨fun v => by by_cases hv : v = u <;> simp [hv, hu, h], rfl, rfl, rfl⟩

end QueryStore

end PnyxDB.Consensus
