import PnyxDB.Consensus.QueryStore.Terminal

/-!
Arrival orders. A query and its endorsements reach a node in any order: an endorsement of an unknown
query is parked, and `AddQuery` re-injects the parked ones in the order they came. Whatever the order,
the endorsements stored for a query are the first of each emitter, in arrival order
(`stored_first_by_emitter`), and `AddEndorsement` reports `inserted` exactly when it appends its
argument.

The dependency index is not exact. `AddEndorsement` writes back its copy of the endorsed query after
`addEndorsementInternal` has recorded the query among the dependents of each condition, so the
dependent it records on the query itself is lost (`dependents_miss_self_condition`).
-/

namespace PnyxDB.Consensus

namespace QueryStore

/-- The endorsements stored for `u`, without their cache entries; `none` for an unknown `u`. -/
def endorsementsBy (s : QueryStore) (u : String) : Option (List Endorsement) :=
  (s.queries u).map fun qi => qi.endorsements.map (·.endorsement)

@[simp] theorem endorsementsBy_setQuery (s : QueryStore) (u v : String) (qi : QueryInfo) :
    (s.setQuery u qi).endorsementsBy v =
      if v = u then some (qi.endorsements.map (·.endorsement)) else s.endorsementsBy v := by
  by_cases h : v = u <;> simp [endorsementsBy, h]

theorem SameContent.endorsementsBy {s s' : QueryStore} (h : s.SameContent s') (u : String) :
    s'.endorsementsBy u = s.endorsementsBy u := by
  have := congrArg (Option.map fun qi : QueryInfo => qi.endorsements.map (·.endorsement))
    (h.queries u)
  simpa [QueryStore.endorsementsBy, Option.map_map, Function.comp_def] using this.symm

theorem Links.endorsementsBy {s s' : QueryStore} (h : Links s s') (u : String) :
    s'.endorsementsBy u = s.endorsementsBy u := by
  cases hu : s'.queries u with
  | none => simp [QueryStore.endorsementsBy, hu, (h.none u).mpr hu]
  | some qi' =>
    obtain ⟨qi, hs, ds, rfl⟩ := h.some u qi' hu
    simp [QueryStore.endorsementsBy, hu, hs]

/-! ### The first endorsement of each emitter -/

/-- Keep `e` unless an endorsement of its emitter was kept before. -/
def keepFirst (kept : List Endorsement) (e : Endorsement) : List Endorsement :=
  if kept.any (fun k => e.emitter = k.emitter) then kept else kept ++ [e]

/-- The first endorsement of each emitter, in arrival order. -/
def firstByEmitter (es : List Endorsement) : List Endorsement := es.foldl keepFirst []

theorem firstByEmitter_append_singleton (es : List Endorsement) (e : Endorsement) :
    firstByEmitter (es ++ [e]) = keepFirst (firstByEmitter es) e := by
  simp [firstByEmitter, List.foldl_append]

theorem mem_keepFirst {kept : List Endorsement} {e k : Endorsement} :
    k ∈ keepFirst kept e ↔ k ∈ kept ∨ k = e ∧ ¬kept.any (fun k => e.emitter = k.emitter) := by
  unfold keepFirst
  split <;> simp_all

/-- Every emitter that sent an endorsement has one kept. -/
theorem firstByEmitter_covers {es : List Endorsement} {e : Endorsement} (he : e ∈ es) :
    ∃ k ∈ firstByEmitter es, k.emitter = e.emitter := by
  induction es using List.reverseRecOn with
  | nil => simp at he
  | append_singleton es x ih =>
    rw [firstByEmitter_append_singleton]
    have hsub : ∀ k, k ∈ firstByEmitter es → k ∈ keepFirst (firstByEmitter es) x :=
      fun k hk => mem_keepFirst.mpr (.inl hk)
    rcases List.mem_append.mp he with he | he
    · obtain ⟨k, hk, hke⟩ := ih he
      exact ⟨k, hsub k hk, hke⟩
    · rw [List.mem_singleton.mp he]
      by_cases hany : (firstByEmitter es).any (fun k => x.emitter = k.emitter)
      · obtain ⟨k, hk, hke⟩ := List.any_eq_true.mp hany
        exact ⟨k, hsub k hk, (of_decide_eq_true hke).symm⟩
      · exact ⟨x, mem_keepFirst.mpr (.inr ⟨rfl, hany⟩), rfl⟩

/-- The kept endorsements have pairwise distinct emitters. -/
theorem firstByEmitter_nodup (es : List Endorsement) :
    ((firstByEmitter es).map (·.emitter)).Nodup := by
  induction es using List.reverseRecOn with
  | nil => simp [firstByEmitter]
  | append_singleton es x ih =>
    rw [firstByEmitter_append_singleton, keepFirst]
    split
    · exact ih
    · rename_i hany
      rw [List.map_append, List.nodup_append]
      refine ⟨ih, List.nodup_singleton _, fun a ha hb => hany ?_⟩
      obtain ⟨k, hk, rfl⟩ := List.mem_map.mp ha
      simp only [List.map_cons, List.map_nil, List.mem_singleton] at hb
      exact List.any_eq_true.mpr ⟨k, hk, by simp [hb]⟩

/-- Each kept endorsement is the first of its emitter. -/
theorem firstByEmitter_first {es : List Endorsement} {e : Endorsement}
    (he : e ∈ firstByEmitter es) :
    ∃ pre post, es = pre ++ e :: post ∧ ∀ e' ∈ pre, e'.emitter ≠ e.emitter := by
  induction es using List.reverseRecOn with
  | nil => simp [firstByEmitter] at he
  | append_singleton es x ih =>
    rw [firstByEmitter_append_singleton] at he
    rcases mem_keepFirst.mp he with he | ⟨rfl, hany⟩
    · obtain ⟨pre, post, rfl, hpre⟩ := ih he
      exact ⟨pre, post ++ [x], by simp, hpre⟩
    · refine ⟨es, [], rfl, fun e' he' heq => hany ?_⟩
      obtain ⟨k, hk, hke⟩ := firstByEmitter_covers he'
      exact List.any_eq_true.mpr ⟨k, hk, by simp [hke, heq]⟩

/-! ### What the two insertions do to the stored endorsements -/

theorem addEndorsementInternal_content {s s1 : QueryStore} {e : Endorsement} {qi qi' : QueryInfo}
    {ins : Bool} (h : s.addEndorsementInternal e qi = (ins, qi', s1)) :
    qi'.uuid = qi.uuid ∧
      qi'.endorsements.map (·.endorsement) = keepFirst (qi.endorsements.map (·.endorsement)) e ∧
      (ins = true ↔ (qi.endorsements.map (·.endorsement)).any (fun k => e.emitter = k.emitter) =
        false) := by
  have hany : (qi.endorsements.map (·.endorsement)).any (fun k => e.emitter = k.emitter) =
      qi.endorsements.any fun e2 => e.emitter = e2.endorsement.emitter := by
    induction qi.endorsements with
    | nil => rfl
    | cons x xs ih => simp only [List.map_cons, List.any_cons, ih]
  unfold addEndorsementInternal at h
  rw [keepFirst, hany]
  split at h <;> rename_i hdup <;> simp only [Prod.mk.injEq] at h <;> obtain ⟨rfl, rfl, rfl⟩ := h
  · simp [hdup]
  · simp [hdup, QueryInfo.uuid]

theorem foldl_hydrate_content (x : String) :
    ∀ (pes : List Endorsement) (acc : QueryInfo × QueryStore),
      (pes.foldl (hydrate x) acc).1.endorsements.map (·.endorsement) =
        (pes.filter (·.uuid = x)).foldl keepFirst (acc.1.endorsements.map (·.endorsement))
  | [], _ => rfl
  | pe :: pes, (qi, t) => by
    rw [List.foldl_cons, foldl_hydrate_content x pes, List.filter_cons]
    by_cases hx : pe.uuid = x
    · generalize hr : t.addEndorsementInternal pe qi = r
      obtain ⟨ins, qi', t'⟩ := r
      simp [hydrate, hx, hr, (addEndorsementInternal_content hr).2.1]
    · simp [hydrate, hx]

/-- `AddEndorsement`, on the stored endorsements: an unknown query's endorsement is parked; a known
query's is kept if its emitter is new, and `inserted` says which. -/
theorem addEndorsement_content {s s' : QueryStore} {n : Nat} {e : Endorsement} {r : Bool × Bool}
    (hw : s.WellKeyed) (h : s.addEndorsement n e = some (r, s')) :
    (s.queries e.uuid = none ∧ r = (true, false) ∧
      s' = { s with pendingEndorsements := s.pendingEndorsements ++ [e] }) ∨
    ∃ es, s.endorsementsBy e.uuid = some es ∧ r.1 = false ∧
      (r.2 = true ↔ es.any (fun k => e.emitter = k.emitter) = false) ∧
      (∀ v, s'.endorsementsBy v = if v = e.uuid then some (keepFirst es e) else s.endorsementsBy v) ∧
      s'.pendingEndorsements = s.pendingEndorsements ∧
      ∀ v, s'.queries v = none ↔ s.queries v = none := by
  rcases addEndorsement_cases h with hpark | ⟨qi, ins, qi', s1, hq, hr, rfl, hc⟩
  · exact .inl hpark
  obtain ⟨hu, hcon, hins⟩ := addEndorsementInternal_content hr
  have hl := (addEndorsementInternal_spec hr).1
  have hx : qi'.uuid = e.uuid := hu.trans (hw _ qi hq)
  have hsame := (cascadeMark_spec n s1 qi' s' (hl.wellKeyed hw) hc).marked.same
  rw [hx] at hsame
  refine .inr ⟨_, by simp [endorsementsBy, hq], rfl, hins, fun v => ?_, ?_, fun v => ?_⟩
  · rw [hsame.endorsementsBy, endorsementsBy_setQuery, hl.endorsementsBy, hcon]
  · rw [← hsame.pendingEndorsements, setQuery_pendingEndorsements, hl.pendingEndorsements]
  · rw [← hsame.none_iff]
    by_cases hv : v = e.uuid
    · simp [hv, hq]
    · simpa [hv] using (hl.none v).symm

/-- `AddQuery`, on the stored endorsements: a new query takes the first of each emitter among the
endorsements parked for it, which leave the parking. -/
theorem addQuery_content {s s' : QueryStore} {n : Nat} {q : Query} {r : Bool}
    (hw : s.WellKeyed) (h : s.addQuery n q = some (r, s')) :
    s' = s ∨ s.queries q.uuid = none ∧
      (∀ v, s'.endorsementsBy v = if v = q.uuid then
        some (firstByEmitter (s.pendingEndorsements.filter (·.uuid = q.uuid)))
        else s.endorsementsBy v) ∧
      s'.pendingEndorsements = s.pendingEndorsements.filter (·.uuid ≠ q.uuid) ∧
      ∀ v, s'.queries v = none ↔ s.queries v = none ∧ v ≠ q.uuid := by
  rcases addQuery_cases h with ⟨-, -, rfl⟩ | ⟨hq, -, es, t, s'', hfold, ⟨hl, -⟩, hc, rfl⟩
  · exact .inl rfl
  have hcon := foldl_hydrate_content q.uuid s.pendingEndorsements
    (⟨q, [], [], .pending, false, false, .zero⟩, s)
  rw [hfold] at hcon
  dsimp only at hcon
  have hwt : t.WellKeyed := hl.wellKeyed hw
  have hsame := (cascadeMark_spec n
    { t with pendingDependencies := Function.update t.pendingDependencies q.uuid [] } _ s''
    (fun u qi hu => hwt u qi hu) hc).marked.same
  refine .inr ⟨hq, fun v => ?_, rfl, fun v => ?_⟩
  · change s''.endorsementsBy v = _
    rw [hsame.endorsementsBy]
    simp only [QueryInfo.uuid, endorsementsBy_setQuery]
    split
    · simp [hcon, firstByEmitter]
    · exact hl.endorsementsBy v
  · change s''.queries v = none ↔ _
    rw [← hsame.none_iff]
    by_cases hv : v = q.uuid
    · simp [hv, QueryInfo.uuid]
    · simp [hv, QueryInfo.uuid, hl.none v]

theorem keepFirst_eq_append_iff (es : List Endorsement) (e : Endorsement) :
    keepFirst es e = es ++ [e] ↔ es.any (fun k => e.emitter = k.emitter) = false := by
  unfold keepFirst
  split <;> simp_all

/-- `AddEndorsement` reports `inserted` exactly when it appends its argument to the stored
endorsements of a known query. -/
theorem addEndorsement_inserted {s s' : QueryStore} {n : Nat} {e : Endorsement} {r : Bool × Bool}
    (hw : s.WellKeyed) (h : s.addEndorsement n e = some (r, s')) :
    r.2 = true ↔ ∃ es, s.endorsementsBy e.uuid = some es ∧ s'.endorsementsBy e.uuid = some (es ++ [e]) := by
  rcases addEndorsement_content hw h with ⟨hq, rfl, -⟩ | ⟨es, hes, -, hins, hby, -, -⟩
  · simp [endorsementsBy, hq]
  · rw [hins, hby, if_pos rfl, ← keepFirst_eq_append_iff]
    simp [hes]

/-! ### Runs of insertions -/

/-- `s` is reached from a store `NewEngine` builds by calls of `AddQuery` and `AddEndorsement`
that returned, the endorsements delivered being `arr`, in this order. -/
inductive Arrived : QueryStore → List Endorsement → Prop
  | init (t : Int) : Arrived (init t) []
  | addQuery {s s' : QueryStore} {arr : List Endorsement} (q : Query) (fuel : Nat) (r : Bool) :
      Arrived s arr → s.addQuery fuel q = some (r, s') → Arrived s' arr
  | addEndorsement {s s' : QueryStore} {arr : List Endorsement} (e : Endorsement) (fuel : Nat)
      (r : Bool × Bool) :
      Arrived s arr → s.addEndorsement fuel e = some (r, s') → Arrived s' (arr ++ [e])

/-- The endorsements a run of store operations delivers, in order. -/
def arrivals : List StoreOp → List Endorsement
  | [] => []
  | .addEndorsement e :: ops => e :: arrivals ops
  | _ :: ops => arrivals ops

/-- `AddQuery` or `AddEndorsement`. -/
def StoreOp.IsArrival : StoreOp → Prop
  | .addQuery _ | .addEndorsement _ => True
  | _ => False

theorem arrived_runOps {fuel : Nat} :
    ∀ (ops : List StoreOp) (s s' : QueryStore) (arr : List Endorsement),
      (∀ op ∈ ops, StoreOp.IsArrival op) → Arrived s arr → runOps fuel s ops = some s' →
        Arrived s' (arr ++ arrivals ops)
  | [], s, s', arr, _, ha, h => by
    simp only [runOps, Option.some.injEq] at h
    simpa [arrivals, ← h] using ha
  | op :: ops, s, s', arr, hops, ha, h => by
    simp only [runOps, Option.bind_eq_some] at h
    obtain ⟨s1, h1, h2⟩ := h
    have hrest := fun (arr' : List Endorsement) (ha1 : Arrived s1 arr') => arrived_runOps ops s1 s'
      arr' (fun op' h' => hops op' (List.mem_cons_of_mem _ h')) ha1 h2
    cases op with
    | addQuery q =>
      obtain ⟨⟨r, _⟩, hq, rfl⟩ := Option.map_eq_some'.mp h1
      simpa [arrivals] using hrest _ (.addQuery q fuel r ha hq)
    | addEndorsement e =>
      obtain ⟨⟨r, _⟩, he, rfl⟩ := Option.map_eq_some'.mp h1
      simpa [arrivals] using hrest _ (.addEndorsement e fuel r ha he)
    | _ => exact absurd (hops _ (List.mem_cons_self _ _)) id

/-- The stored endorsements of each known query are the first of each emitter among those
delivered for it; the parked ones of each unknown query are all those delivered for it. -/
structure ArrivalInv (s : QueryStore) (arr : List Endorsement) : Prop where
  wellKeyed : s.WellKeyed
  stored : ∀ u es, s.endorsementsBy u = some es → es = firstByEmitter (arr.filter (·.uuid = u))
  parked : ∀ u, s.queries u = none →
    s.pendingEndorsements.filter (·.uuid = u) = arr.filter (·.uuid = u)

theorem filter_append_singleton_uuid (arr : List Endorsement) (e : Endorsement) (u : String) :
    (arr ++ [e]).filter (·.uuid = u) =
      if e.uuid = u then arr.filter (·.uuid = u) ++ [e] else arr.filter (·.uuid = u) := by
  by_cases h : e.uuid = u <;> simp [List.filter_append, h]

theorem ArrivalInv.addEndorsement {s s' : QueryStore} {arr : List Endorsement} {n : Nat}
    {e : Endorsement} {r : Bool × Bool} (hi : ArrivalInv s arr)
    (h : s.addEndorsement n e = some (r, s')) : ArrivalInv s' (arr ++ [e]) := by
  have hw' := (addEndorsement_effect hi.wellKeyed h).wellKeyed
  rcases addEndorsement_content hi.wellKeyed h with ⟨hq, -, rfl⟩ | ⟨es, hes, -, -, hby, hpe, hnone⟩
  · refine ⟨hw', fun u es' hu => ?_, fun u hu => ?_⟩
    · have hne : e.uuid ≠ u := by rintro rfl; simp [endorsementsBy, hq] at hu
      rw [filter_append_singleton_uuid, if_neg hne]
      exact hi.stored u es' hu
    · rw [List.filter_append, hi.parked u hu, filter_append_singleton_uuid, List.filter_singleton]
      by_cases he : e.uuid = u <;> simp [he]
  · have hk : s.queries e.uuid ≠ none := fun hq => by simp [endorsementsBy, hq] at hes
    refine ⟨hw', fun u es' hu => ?_, fun u hu => ?_⟩
    · rw [hby] at hu
      rw [filter_append_singleton_uuid]
      split at hu
      · subst u
        rw [if_pos rfl, firstByEmitter_append_singleton, ← hi.stored _ es hes]
        exact (Option.some.inj hu).symm
      · rw [if_neg (Ne.symm ‹_›)]
        exact hi.stored u es' hu
    · have hu0 := (hnone u).mp hu
      have hne : e.uuid ≠ u := fun he => hk (he ▸ hu0)
      rw [hpe, filter_append_singleton_uuid, if_neg hne]
      exact hi.parked u hu0

theorem ArrivalInv.addQuery {s s' : QueryStore} {arr : List Endorsement} {n : Nat} {q : Query}
    {r : Bool} (hi : ArrivalInv s arr) (h : s.addQuery n q = some (r, s')) : ArrivalInv s' arr := by
  have hw' := (addQuery_effect hi.wellKeyed h).wellKeyed
  rcases addQuery_content hi.wellKeyed h with rfl | ⟨hq, hby, hpe, hnone⟩
  · exact hi
  refine ⟨hw', fun u es' hu => ?_, fun u hu => ?_⟩
  · rw [hby] at hu
    split at hu
    · subst u
      rw [← hi.parked _ hq]
      exact (Option.some.inj hu).symm
    · exact hi.stored u es' hu
  · obtain ⟨hu0, hne⟩ := (hnone u).mp hu
    rw [hpe, List.filter_filter, ← hi.parked u hu0]
    exact List.filter_congr fun e _ => by by_cases he : e.uuid = u <;> simp [he, hne]

theorem Arrived.arrivalInv {s : QueryStore} {arr : List Endorsement} (h : Arrived s arr) :
    ArrivalInv s arr := by
  induction h with
  | init t => exact ⟨fun _ _ h => by simp [QueryStore.init, newQueryStore] at h,
      fun _ _ h => by simp [endorsementsBy, QueryStore.init, newQueryStore] at h, fun _ _ => rfl⟩
  | addQuery _ _ _ _ h ih => exact ih.addQuery h
  | addEndorsement _ _ _ _ h ih => exact ih.addEndorsement h

/-- Whatever the order in which a query and its endorsements arrive, the endorsements stored for it
are the first endorsement of each emitter delivered for the query, in arrival order: every emitter
that sent one has one stored, their emitters are pairwise distinct, and each is the first of its
emitter. `AddEndorsement` reports `inserted` exactly when it stores its argument. -/
theorem stored_first_by_emitter {s : QueryStore} {arr : List Endorsement} (h : Arrived s arr) :
    (∀ u es, s.endorsementsBy u = some es →
      es = firstByEmitter (arr.filter (·.uuid = u)) ∧
      (∀ e ∈ arr.filter (·.uuid = u), ∃ k ∈ es, k.emitter = e.emitter) ∧
      (es.map (·.emitter)).Nodup ∧
      ∀ e ∈ es, ∃ pre post, arr.filter (·.uuid = u) = pre ++ e :: post ∧
        ∀ e' ∈ pre, e'.emitter ≠ e.emitter) ∧
    ∀ n e r s', s.addEndorsement n e = some (r, s') →
      (r.2 = true ↔ ∃ es, s.endorsementsBy e.uuid = some es ∧
        s'.endorsementsBy e.uuid = some (es ++ [e])) := by
  have hi := h.arrivalInv
  refine ⟨fun u es hu => ?_, fun n e r s' he => addEndorsement_inserted hi.wellKeyed he⟩
  rw [hi.stored u es hu]
  exact ⟨rfl, fun e he => firstByEmitter_covers he, firstByEmitter_nodup _,
    fun e he => firstByEmitter_first he⟩

/-- Two endorsements of `a` parked for `q`, then `q`, then one of `b` and a third of `a`. -/
def dupArrivals : List StoreOp :=
  [.addEndorsement ⟨"q", "a", [], []⟩, .addEndorsement ⟨"q", "a", ["x"], []⟩,
    .addQuery (emptyQuery "q"), .addEndorsement ⟨"q", "b", [], []⟩,
    .addEndorsement ⟨"q", "a", ["y"], []⟩]

/-- After `dupArrivals`, `q` holds the first endorsement of `a` and that of `b`. -/
theorem stored_first_by_emitter_dupArrivals :
    ∃ s, Arrived s (arrivals dupArrivals) ∧
      s.endorsementsBy "q" = some [⟨"q", "a", [], []⟩, ⟨"q", "b", [], []⟩] ∧
      ([⟨"q", "a", [], []⟩, ⟨"q", "b", [], []⟩].map (·.emitter : Endorsement → String)).Nodup := by
  have hrun : (runOps 1 (init 1) dupArrivals).map (endorsementsBy · "q") =
      some (some [⟨"q", "a", [], []⟩, ⟨"q", "b", [], []⟩]) := by
    decide
  obtain ⟨s, hs, hq⟩ := Option.map_eq_some'.mp hrun
  have ha : Arrived s (arrivals dupArrivals) := by
    simpa using arrived_runOps dupArrivals _ s [] (by simp [dupArrivals, StoreOp.IsArrival])
      (.init 1) hs
  exact ⟨s, ha, hq, ((stored_first_by_emitter ha).1 "q" _ hq).2.2.1⟩

/-- After `selfLoopRun`, reached by insertions alone, `q` holds an endorsement conditioned on `q`,
yet `q` is not among its own dependents: `AddEndorsement` wrote back its copy of `q`, taken before
`addEndorsementInternal` recorded the dependent. -/
theorem dependents_miss_self_condition :
    ∃ s, runOps 1 (init 3) selfLoopRun = some s ∧ Arrived s (arrivals selfLoopRun) ∧
      s.DependsOn "q" "q" ∧ ¬s.Indexed "q" "q" := by
  have hrun : (runOps 1 (init 3) selfLoopRun).map (fun s => (s.queries "q").map fun qi =>
      (qi.dependents, qi.endorsements.map (·.endorsement.conditions))) =
      some (some ([], [["q"], [], []])) := by
    decide
  obtain ⟨s, hs, hst⟩ := Option.map_eq_some'.mp hrun
  obtain ⟨qi, hqi, hpair⟩ := Option.map_eq_some'.mp hst
  simp only [Prod.mk.injEq] at hpair
  obtain ⟨hdep, hcond⟩ := hpair
  have ha : Arrived s (arrivals selfLoopRun) := by
    simpa using arrived_runOps selfLoopRun _ s [] (by simp [selfLoopRun, StoreOp.IsArrival])
      (.init 3) hs
  have hmem : ["q"] ∈ qi.endorsements.map (·.endorsement.conditions) := by simp [hcond]
  obtain ⟨e, he, hec⟩ := List.mem_map.mp hmem
  exact ⟨s, hs, ha, ⟨qi, hqi, e, he, by simp [hec]⟩, by simp [Indexed, hqi, hdep]⟩

end QueryStore

end PnyxDB.Consensus
