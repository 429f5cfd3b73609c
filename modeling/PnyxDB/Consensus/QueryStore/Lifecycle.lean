import PnyxDB.Consensus.QueryStore.Terminal

/-!
The lifecycle of an entry of the store. An operation changes what is stored under a uuid only by
`EntryStep`s: a new entry holds a query `AddQuery` was given, under its own uuid, and is pending; a
pending query can be committed; any stored query can be dropped. The query of an entry never
changes, and a dropped query stays dropped, whereas a committed one can still be dropped
(`checkpointDrop_demotes_committed`).

Each operation is followed along the lifecycle (`StoreOp.lives`), hence every run is
(`runOps_lives`).
-/

namespace PnyxDB.Consensus

namespace QueryStore

/-- The query stored under `u` and its state. -/
def entry (s : QueryStore) (u : String) : Option (Query × QueryState) :=
  (s.queries u).map fun qi => (qi.query, qi.state)

@[simp] theorem entry_setQuery (s : QueryStore) (u v : String) (qi : QueryInfo) :
    (s.setQuery u qi).entry v = if v = u then some (qi.query, qi.state) else s.entry v := by
  by_cases h : v = u <;> simp [entry, h]

theorem stateOf_eq_of_entry {s s' : QueryStore} {u : String} (h : s'.entry u = s.entry u) :
    s'.stateOf u = s.stateOf u := by
  have := congrArg (Option.map Prod.snd) h
  simpa [entry, stateOf, Option.map_map, Function.comp_def] using this

/-- One change of an entry; `ins` holds of the queries that may be inserted. -/
inductive EntryStep (ins : Query → Prop) : Option (Query × QueryState) → Option (Query × QueryState) → Prop
  | insert {q : Query} : ins q → EntryStep ins none (some (q, .pending))
  | commit (q : Query) : EntryStep ins (some (q, .pending)) (some (q, .committed))
  | drop (q : Query) (st : QueryState) : EntryStep ins (some (q, st)) (some (q, .dropped))

/-- `s'` follows `s` along the lifecycle: each entry changes by `EntryStep`s, and a query of `ins`
is the only kind that can be inserted, under its own uuid. -/
def Lives (ins : Query → Prop) (s s' : QueryStore) : Prop :=
  ∀ u, Relation.ReflTransGen (EntryStep fun q => q.uuid = u ∧ ins q) (s.entry u) (s'.entry u)

namespace Lives

variable {ins ins' : Query → Prop} {s s' s'' : QueryStore}

theorem refl (s : QueryStore) : Lives ins s s := fun _ => .refl

theorem trans (h : Lives ins s s') (h' : Lives ins s' s'') : Lives ins s s'' :=
  fun u => (h u).trans (h' u)

theorem mono (hi : ∀ q, ins q → ins' q) (h : Lives ins s s') : Lives ins' s s' :=
  fun u => Relation.ReflTransGen.mono (fun _ _ hst => by
    cases hst with
    | insert hq => exact .insert ⟨hq.1, hi _ hq.2⟩
    | commit q => exact .commit q
    | drop q st => exact .drop q st) (h u)

theorem of_entry_eq (h : ∀ u, s'.entry u = s.entry u) : Lives ins s s' :=
  fun u => h u ▸ .refl

end Lives

theorem SameContent.entry_eq {s s' : QueryStore} (h : s.SameContent s') (u : String) :
    s'.entry u = s.entry u := by
  have := congrArg (Option.map fun qi => (qi.query, qi.state)) (h.queries u)
  simpa [entry, Option.map_map, Function.comp_def] using this.symm

theorem Links.entry_eq {s s' : QueryStore} (h : Links s s') (u : String) :
    s'.entry u = s.entry u := by
  cases hu : s'.queries u with
  | none => simp [entry, hu, (h.none u).mpr hu]
  | some qi' =>
    obtain ⟨qi, hs, ds, rfl⟩ := h.some u qi' hu
    simp [entry, hu, hs]

/-- Rewriting one entry along the lifecycle. -/
theorem lives_setQuery {ins : Query → Prop} {s : QueryStore} {u : String} {qi : QueryInfo}
    (h : Relation.ReflTransGen (EntryStep fun q => q.uuid = u ∧ ins q) (s.entry u)
      (some (qi.query, qi.state))) : Lives ins s (s.setQuery u qi) := fun v => by
  by_cases hv : v = u
  · subst hv
    simpa using h
  · simpa [hv] using Relation.ReflTransGen.refl

/-- A cascade writes `qi` and then only caches. -/
theorem cascadeMark_entry {s s' : QueryStore} {n : Nat} {qi : QueryInfo} (hw : s.WellKeyed)
    (h : cascadeMark n s qi = some s') (u : String) :
    s'.entry u = (s.setQuery qi.uuid qi).entry u :=
  (cascadeMark_spec n s qi s' hw h).marked.same.entry_eq u

theorem lives_cascadeMark {ins : Query → Prop} {s s' : QueryStore} {n : Nat} {qi : QueryInfo}
    (hw : s.WellKeyed) (h : cascadeMark n s qi = some s')
    (hstep : Relation.ReflTransGen (EntryStep fun q => q.uuid = qi.uuid ∧ ins q) (s.entry qi.uuid)
      (some (qi.query, qi.state))) : Lives ins s s' :=
  (lives_setQuery hstep).trans (.of_entry_eq (cascadeMark_entry hw h))

/-! ### Each operation -/

section
variable {ins : Query → Prop}

theorem drop_lives {s s' : QueryStore} {n : Nat} {u : String} (hw : s.WellKeyed)
    (h : s.drop n u = some s') : Lives ins s s' := by
  unfold drop at h
  cases hu : s.queries u with
  | none =>
    simp only [hu, Option.some.injEq] at h
    exact h ▸ .refl s
  | some qi =>
    simp only [hu] at h
    have hx : ({ qi with state := .dropped, cached := CachedInfo.set false } : QueryInfo).uuid = u :=
      hw u qi hu
    refine lives_cascadeMark hw h (.single ?_)
    simp only [hx, entry, hu, Option.map_some']
    exact .drop _ _

/-- Operations folded over a list, each related to its result by the preorder `R` and keeping the
store well keyed. -/
theorem foldlM_rel {α : Type} {R : QueryStore → QueryStore → Prop} (hrefl : ∀ s, R s s)
    (htrans : ∀ {s1 s2 s3}, R s1 s2 → R s2 s3 → R s1 s3) {f : QueryStore → α → Option QueryStore}
    (hf : ∀ s a s', s.WellKeyed → f s a = some s' → R s s' ∧ s'.WellKeyed) :
    ∀ (l : List α) (s s' : QueryStore), s.WellKeyed → l.foldlM f s = some s' →
      R s s' ∧ s'.WellKeyed
  | [], s, s', hw, h => by
    simp only [List.foldlM_nil, Option.pure_def, Option.some.injEq] at h
    exact h ▸ ⟨hrefl s, hw⟩
  | a :: l, s, s', hw, h => by
    simp only [List.foldlM_cons, Option.bind_eq_bind, Option.bind_eq_some] at h
    obtain ⟨s1, h1, h2⟩ := h
    obtain ⟨hr, hw1⟩ := hf s a s1 hw h1
    exact (foldlM_rel hrefl htrans hf l s1 s' hw1 h2).imp_left (htrans hr)

/-- Operations folded over a list, each followed along the lifecycle and keeping the store well
keyed. -/
theorem lives_foldlM {α : Type} {f : QueryStore → α → Option QueryStore}
    (hf : ∀ s a s', s.WellKeyed → f s a = some s' → Lives ins s s' ∧ s'.WellKeyed) :
    ∀ (l : List α) (s s' : QueryStore), s.WellKeyed → l.foldlM f s = some s' →
      Lives ins s s' ∧ s'.WellKeyed :=
  foldlM_rel Lives.refl Lives.trans hf

theorem checkpointDrop_lives {s s' : QueryStore} {n : Nat} {uuids : List String}
    (hw : s.WellKeyed) (h : s.checkpointDrop n uuids = some s') : Lives ins s s' :=
  (lives_foldlM (fun _ _ _ hw h => ⟨drop_lives hw h, (drop_effect hw h).wellKeyed⟩) uuids s s' hw
    h).1

/-- `commit` of a query that is not dropped. -/
theorem commit_lives {s s' : QueryStore} {n : Nat} {u : String} (hw : s.WellKeyed)
    (hst : s.stateOf u ≠ some .dropped) (h : s.commit n u = some s') : Lives ins s s' := by
  unfold commit at h
  cases hu : s.queries u with
  | none =>
    simp only [hu, Option.some.injEq] at h
    exact h ▸ .refl s
  | some qi =>
    simp only [hu] at h
    have hstep : Relation.ReflTransGen (EntryStep fun q => q.uuid = u ∧ ins q) (s.entry u)
        (some (qi.query, QueryState.committed)) := by
      simp only [entry, hu, Option.map_some']
      cases hq : qi.state with
      | pending => exact .single (.commit qi.query)
      | committed => exact .refl
      | dropped => simp [stateOf, hu, hq] at hst
    exact (lives_setQuery hstep).trans (lives_foldlM
      (fun _ _ _ hw h => ⟨drop_lives hw h, (drop_effect hw h).wellKeyed⟩) _ _ s'
      (setCommitted_frame hw hu).wellKeyed h).1

theorem isApplicable_not_dropped {n : Nat} {s s' : QueryStore} {u : String}
    (h : isApplicable n s u = some (true, s')) : s.stateOf u ≠ some .dropped := by
  cases n with
  | zero => simp [isApplicable] at h
  | succ n =>
    unfold isApplicable at h
    cases hu : s.queries u with
    | none => simp [hu] at h
    | some qi =>
      intro hd
      simp only [stateOf, hu, Option.map_some', Option.some.injEq] at hd
      simp [hu, hd] at h

theorem checkState_lives {s s' : QueryStore} {n : Nat} {now : Int} {uuid : String}
    {r : Bool × List String} (hw : s.WellKeyed) (h : s.checkState n now uuid = some (r, s')) :
    Lives ins s s' := by
  obtain ⟨app, s1, h1, hs'⟩ := checkState_cases h
  have hs2 : s.SameContent (s1.checkSpeculativeState uuid app) :=
    (isApplicable_sameContent n s uuid _ h1).trans (checkSpeculativeState_sameContent s1 uuid app)
  rcases hs' with ⟨rfl, -⟩ | ⟨qi, m, cp, s3, rfl, -, -, h3, hs'⟩
  · exact .of_entry_eq hs2.entry_eq
  have hs3 : s.SameContent s3 :=
    hs2.trans (countDefinitelyValid_rel (sameContent_applyRel n) now _ _ _ _ _ h3)
  rcases hs' with ⟨rfl, -⟩ | ⟨-, h4, -⟩
  · exact .of_entry_eq hs3.entry_eq
  have hst : s3.stateOf uuid ≠ some .dropped := by
    rw [stateOf_eq_of_entry (hs3.entry_eq uuid)]
    exact isApplicable_not_dropped h1
  exact (Lives.of_entry_eq hs3.entry_eq).trans (commit_lives (hs3.wellKeyed hw) hst h4)

theorem addEndorsement_lives {s s' : QueryStore} {n : Nat} {e : Endorsement} {r : Bool × Bool}
    (hw : s.WellKeyed) (h : s.addEndorsement n e = some (r, s')) : Lives ins s s' := by
  rcases addEndorsement_cases h with ⟨hq, -, rfl⟩ | ⟨qi, ins', qi', s1, hq, hr, -, hc⟩
  · exact .of_entry_eq fun _ => rfl
  obtain ⟨hl, hqi⟩ := addEndorsementInternal_spec hr
  have hx : qi'.uuid = e.uuid := (addEndorsement_base hw hq hr).1
  have hkeep : (qi'.query, qi'.state) = (qi.query, qi.state) := by
    rcases hqi with rfl | ⟨rfl, -⟩ <;> rfl
  refine .of_entry_eq fun u => ?_
  rw [cascadeMark_entry (hl.wellKeyed hw) hc, entry_setQuery, hx]
  split
  · simp_all [entry]
  · exact hl.entry_eq u

theorem addQuery_lives {s s' : QueryStore} {n : Nat} {q : Query} {r : Bool}
    (hw : s.WellKeyed) (h : s.addQuery n q = some (r, s')) : Lives (· = q) s s' := by
  rcases addQuery_cases h with ⟨-, -, rfl⟩ | ⟨hq, -, es, t, s'', -, ⟨hl, -⟩, hc, rfl⟩
  · exact .refl _
  have hwt : ({ t with pendingDependencies := Function.update t.pendingDependencies q.uuid [] }
      : QueryStore).WellKeyed := fun u qi hu => hl.wellKeyed hw u qi hu
  have hst : Lives (· = q) s
      { t with pendingDependencies := Function.update t.pendingDependencies q.uuid [] } :=
    .of_entry_eq fun u => hl.entry_eq u
  refine (hst.trans (lives_cascadeMark hwt hc (.single ?_))).trans (.of_entry_eq fun _ => rfl)
  show EntryStep _ (t.entry q.uuid) (some (q, .pending))
  rw [hl.entry_eq, entry, hq, Option.map_none']
  exact .insert ⟨rfl, rfl⟩

/-- The query `AddQuery` reports inserted was new, and is stored. -/
theorem addQuery_inserted {s s' : QueryStore} {n : Nat} {q : Query} (hw : s.WellKeyed)
    (h : s.addQuery n q = some (true, s')) :
    s.queries q.uuid = none ∧ ∃ qi, s'.queries q.uuid = some qi ∧ qi.query = q := by
  rcases addQuery_cases h with ⟨-, h1, -⟩ | ⟨hq, -, es, t, s'', -, ⟨hl, -⟩, hc, rfl⟩
  · cases h1
  have hwt : ({ t with pendingDependencies := Function.update t.pendingDependencies q.uuid [] }
      : QueryStore).WellKeyed := fun u qi hu => hl.wellKeyed hw u qi hu
  have he := cascadeMark_entry hwt hc q.uuid
  simp only [entry_setQuery, QueryInfo.uuid, if_true] at he
  cases hs : s''.queries q.uuid with
  | none => simp [entry, hs] at he
  | some qi' => exact ⟨hq, qi', rfl, (by simpa [entry, hs] using he : _ ∧ _).1⟩

end

/-! ### Runs -/

/-- The queries an operation may insert. -/
def StoreOp.inserts : StoreOp → Query → Prop
  | .addQuery q => (· = q)
  | _ => fun _ => False

theorem StoreOp.lives {s s' : QueryStore} {op : StoreOp} {fuel : Nat} (hw : s.WellKeyed)
    (h : op.run fuel s = some s') : Lives (StoreOp.inserts op) s s' := by
  cases op with
  | addQuery q =>
    obtain ⟨⟨_, _⟩, h1, rfl⟩ := Option.map_eq_some'.mp h
    exact addQuery_lives hw h1
  | addEndorsement e =>
    obtain ⟨⟨_, _⟩, h1, rfl⟩ := Option.map_eq_some'.mp h
    exact addEndorsement_lives hw h1
  | checkState uuid now =>
    obtain ⟨⟨_, _⟩, h1, rfl⟩ := Option.map_eq_some'.mp h
    exact checkState_lives hw h1
  | checkpointChoice uuids =>
    obtain ⟨⟨_, _⟩, h1, rfl⟩ := Option.map_eq_some'.mp h
    exact .of_entry_eq (checkpointChoice_rel (sameContent_applyRel fuel) s uuids _ h1).entry_eq
  | checkpointDrop uuids => exact checkpointDrop_lives hw h
  | endorse uuid =>
    simp only [StoreOp.run, Option.some.injEq] at h
    subst h
    unfold endorse
    split
    · exact .refl s
    · rename_i qi hu
      exact .of_entry_eq (sameContent_setQuery hu (by rfl)).entry_eq
  | outdatedQueries order now =>
    obtain ⟨⟨_, _⟩, h1, rfl⟩ := Option.map_eq_some'.mp h
    exact .of_entry_eq (outdatedQueries_rel (sameContent_applyRel fuel) now s order _ h1).entry_eq

/-- A run is followed along the lifecycle, with insertions only by its `AddQuery`s. -/
theorem runOps_lives {fuel : Nat} :
    ∀ (ops : List StoreOp) (s s' : QueryStore), s.WellKeyed → runOps fuel s ops = some s' →
      Lives (fun q => StoreOp.addQuery q ∈ ops) s s'
  | [], s, s', _, h => by
    simp only [runOps, Option.some.injEq] at h
    exact h ▸ .refl s
  | op :: ops, s, s', hw, h => by
    simp only [runOps, Option.bind_eq_some] at h
    obtain ⟨s1, h1, h2⟩ := h
    have hop : Lives (fun q => StoreOp.addQuery q ∈ op :: ops) s s1 :=
      (StoreOp.lives hw h1).mono fun q hq => by
        cases op <;> simp_all [StoreOp.inserts]
    exact hop.trans ((runOps_lives ops s1 s' (StoreOp.effect hw h1).wellKeyed h2).mono
      fun q hq => List.mem_cons_of_mem _ hq)

/-! ### What the lifecycle keeps -/

section
variable {ins : Query → Prop}

/-- The query of an entry never changes. -/
theorem entrySteps_query {q : Query} {st : QueryState} {e : Option (Query × QueryState)}
    (h : Relation.ReflTransGen (EntryStep ins) (some (q, st)) e) : ∃ st', e = some (q, st') := by
  induction h with
  | refl => exact ⟨st, rfl⟩
  | tail _ hstep ih =>
    obtain ⟨st', rfl⟩ := ih
    cases hstep with
    | commit => exact ⟨_, rfl⟩
    | drop => exact ⟨_, rfl⟩

/-- A dropped query stays dropped. -/
theorem entrySteps_dropped {q : Query} {e : Option (Query × QueryState)}
    (h : Relation.ReflTransGen (EntryStep ins) (some (q, .dropped)) e) : e = some (q, .dropped) := by
  induction h with
  | refl => rfl
  | tail _ hstep ih =>
    subst ih
    cases hstep with
    | drop => rfl

/-- An entry that was absent holds an inserted query. -/
theorem entrySteps_inserted {q : Query} {st : QueryState}
    (h : Relation.ReflTransGen (EntryStep ins) none (some (q, st))) : ins q := by
  obtain ⟨e, h0, h1⟩ := Relation.ReflTransGen.cases_head_iff.mp h |>.resolve_left (by simp)
  cases h0 with
  | insert hq =>
    obtain ⟨st', he⟩ := entrySteps_query h1
    simp only [Option.some.injEq, Prod.mk.injEq] at he
    exact he.1 ▸ hq

/-- Along a run followed by the lifecycle, the query stored under a uuid stays. -/
theorem Lives.query_stays {s s' : QueryStore} (h : Lives ins s s') {u : String} {qi : QueryInfo}
    (hu : s.queries u = some qi) : ∃ qi', s'.queries u = some qi' ∧ qi'.query = qi.query := by
  have := h u
  rw [entry, hu, Option.map_some'] at this
  obtain ⟨st', he⟩ := entrySteps_query this
  cases hu' : s'.queries u with
  | none => simp [entry, hu'] at he
  | some qi' =>
    simp only [entry, hu', Option.map_some', Option.some.injEq, Prod.mk.injEq] at he
    exact ⟨qi', rfl, he.1⟩

/-- Along a run followed by the lifecycle, a dropped query stays dropped. -/
theorem Lives.dropped_stays {s s' : QueryStore} (h : Lives ins s s') {u : String}
    (hd : s.stateOf u = some .dropped) : s'.stateOf u = some .dropped := by
  obtain ⟨qi, hu, hst⟩ : ∃ qi, s.queries u = some qi ∧ qi.state = .dropped := by
    simpa [stateOf] using hd
  have := h u
  rw [entry, hu, Option.map_some', hst] at this
  have he := entrySteps_dropped this
  cases hu' : s'.queries u with
  | none => simp [entry, hu'] at he
  | some qi' =>
    simp only [entry, hu', Option.map_some', Option.some.injEq, Prod.mk.injEq] at he
    simp [stateOf, hu', he.2]

/-- A query stored under a uuid that was free was inserted, under its own uuid. -/
theorem Lives.inserted {s s' : QueryStore} (h : Lives ins s s') {u : String} {qi : QueryInfo}
    (hu : s.queries u = none) (hu' : s'.queries u = some qi) : qi.query.uuid = u ∧ ins qi.query := by
  have := h u
  rw [entry, hu, Option.map_none', entry, hu', Option.map_some'] at this
  exact entrySteps_inserted this

end

/-- A store that operations reach from `NewEngine`'s store knows only the uuids of the queries they
add. -/
theorem keysIn_runOps {fuel : Nat} {t : Int} {ops : List StoreOp} {s : QueryStore}
    (h : runOps fuel (init t) ops = some s) :
    s.KeysIn (ops.filterMap fun | .addQuery q => some q.uuid | _ => none) := fun u hu => by
  obtain ⟨qi, hqi⟩ := Option.isSome_iff_exists.mp hu
  obtain ⟨huid, hadd⟩ := (runOps_lives ops _ s (Reachable.wellFormed .refl).1 h).inserted rfl hqi
  exact List.mem_filterMap.2 ⟨_, hadd, by simp [huid]⟩

/-- After `conditionRun`, `r` depends on `q` and nothing depends on `r`: the graph is acyclic, and
`isApplicable` computes `app`, which holds of `q` and fails for `r`. -/
theorem isApplicable_eq_app_conditionRun :
    ∃ s, runOps 1 (init 1) conditionRun = some s ∧ s.Reachable 1 ∧ s.Acyclic ∧
      ((∃ app, s.IsApp app) ∧ ∀ app, s.IsApp app → ∀ u,
        (∃ fuel s', isApplicable fuel s u = some (app u, s')) ∧
        ∀ fuel b s', isApplicable fuel s u = some (b, s') → b = app u ∧ s.SameContent s') := by
  have hrun : (runOps 1 (init 1) conditionRun).map (fun s =>
      ((s.endorsementsOf "q").flatMap (·.endorsement.conditions),
        (s.endorsementsOf "r").flatMap (·.endorsement.conditions))) = some ([], ["q"]) := by
    decide
  obtain ⟨s, hs, hcond⟩ := Option.map_eq_some'.mp hrun
  simp only [Prod.mk.injEq] at hcond
  have hr : s.Reachable 1 :=
    reachable_runOps conditionRun _ s .refl (by simp [conditionRun, StoreOp.Admissible]) hs
  have hac : s.Acyclic := Ranked.acyclic (show s.Ranked fun u => if u = "q" then 0 else 1 from
    fun d c ⟨qi, hd, e, he, hc⟩ => by
      have hmem : c ∈ (s.endorsementsOf d).flatMap (·.endorsement.conditions) :=
        List.mem_flatMap.2 ⟨e, by simpa [endorsementsOf, hd] using he, hc⟩
      have hkey := keysIn_runOps hs d (by simp [hd])
      simp only [conditionRun, emptyQuery, List.filterMap_cons, List.filterMap_nil,
        List.mem_cons, List.mem_singleton, List.not_mem_nil, or_false] at hkey
      rcases hkey with rfl | rfl
      · simp [hcond.1] at hmem
      · simp only [hcond.2, List.mem_singleton] at hmem
        simp [hmem])
  exact ⟨s, hs, hr, hac, isApplicable_eq_app hr hac⟩

end QueryStore

end PnyxDB.Consensus
