import PnyxDB.Consensus.Engine
import PnyxDB.Consensus.Veto

/-!
The end of `Engine.handleCheckpoint`: the goroutine it starts once `CheckpointChoice` has given the
node's choice. `Execute` runs the veto agreement for the checkpoint's identifier; a decision `true`
drops the checkpoint's uuids with `CheckpointDrop`, and an unexpected veto (the node chose `true`,
the decision is `false`) makes the node process the proofs the veto carries, each with
`handleQuery` or `handleEndorsement`.

* `veto_keeps_checkpoint` — a participant that signs only a veto for the identifier keeps every
  node whose agreement ends on a message from running `CheckpointDrop`: a quorum needs the `true`
  of every participant. Only a stream that closes first lets a node decide `true` past the veto
  (`execute_closed_decides_true`).
* `veto_replays_vetoed_query` — a veto that a node's `CheckpointChoice` produced carries the
  applicable query it found and that query's endorsements; a node that chose `true` and hears it
  ends the checkpoint holding a query under that query's uuid: the vetoed one if it held none, and
  the one it held otherwise.

The goroutine runs concurrently with the node's handlers, so `afterAgreement` starts from any
store, not from the one `CheckpointChoice` left. `markActive` and the log lines are left out; a
proof whose signature check fails is skipped, as `handleQuery` and `handleEndorsement` return at
once on it. A proof with neither content is only logged; the `Proof` of the model always has one.
-/

namespace PnyxDB.Consensus

/-- The message a checkpoint proof is processed as. -/
def Proof.message : Proof → Engine.Message
  | .query q => .query q
  | .endorsement e => .endorsement e

namespace Engine

open QueryStore

/-- The loop over the proofs of an unexpected veto: `handleQuery` of each query and
`handleEndorsement` of each endorsement, in order, skipping those `verified` rejects. -/
def replay (verified : Proof → Bool) (order : QueryStore → List String) (fuel : Nat) (now : Int)
    (s : QueryStore) (proofs : List Proof) : Option QueryStore :=
  receive order fuel now s ((proofs.filter verified).map Proof.message)

/-- The goroutine `handleCheckpoint` starts for the sorted uuids `queries`, after `Execute` ended
with `e`, at a node whose `CheckpointChoice` gave `choice`. -/
def afterAgreement (verified : Proof → Bool) (order : QueryStore → List String) (fuel : Nat)
    (now : Int) (s : QueryStore) (queries : List String) (choice : Bool) (e : BBC.Ending) :
    Option QueryStore := do
  let s ← if !e.decision && choice then replay verified order fuel now s e.proofs else some s
  if e.decision then s.checkpointDrop fuel queries else some s

section
variable {verified : Proof → Bool} {order : QueryStore → List String} {fuel : Nat} {now : Int}
  {s : QueryStore} {queries : List String}

/-- A decision `false` runs no `CheckpointDrop`: the node at most replays the veto's proofs. -/
theorem afterAgreement_of_decision_false {choice : Bool} {e : BBC.Ending}
    (hd : e.decision = false) :
    afterAgreement verified order fuel now s queries choice e =
      if choice then replay verified order fuel now s e.proofs else some s := by
  cases choice <;> simp [afterAgreement, hd]

/-- A participant that signs only a veto for `id` keeps every node whose `Execute(id, …)` ends on a
message from dropping the checkpoint's uuids, when the threshold is the number of participants and
only participants' signatures verify. -/
theorem veto_keeps_checkpoint {verify : BBC.Choice → Bool} {participants : List String}
    {id P : String} {choice ok : Bool} {d : List BBC.Choice} {e : BBC.Ending}
    (hverify : ∀ c, verify c = true → c.emitter ∈ participants) (hP : P ∈ participants)
    (hveto : ∀ c, verify c = true → c.identifier = id → c.emitter = P → c.choice = false)
    (he : (BBC.execute verify participants.length id choice ok d).1 = e)
    (hend : e.onMessage = true) :
    afterAgreement verified order fuel now s queries choice e =
      if choice then replay verified order fuel now s e.proofs else some s := by
  apply afterAgreement_of_decision_false
  cases e with
  | failed | closed => simp [BBC.Ending.onMessage] at hend
  | veto c => rfl
  | quorum =>
    obtain ⟨c, hc, hcv, hct, hce⟩ :=
      BBC.quorum_hears_every_participant hverify (BBC.execute_eq_receive he (by simp)) hP
    have hcid : c.identifier = id := by simpa using (List.mem_filter.mp hc).2
    simp [hveto c hcv hcid hce] at hct

/-- Two participants; `B` vetoes the checkpoint `"cp"`, and `A`, which chose `true`, hears the
veto and runs no `CheckpointDrop`. -/
theorem veto_keeps_checkpoint_two :
    (∀ c, decide (c ∈ [BBC.vote "A" true, BBC.vote "B" false]) = true → c.emitter ∈ ["A", "B"]) ∧
      "B" ∈ ["A", "B"] ∧
      (∀ c, decide (c ∈ [BBC.vote "A" true, BBC.vote "B" false]) = true → c.identifier = "cp" →
        c.emitter = "B" → c.choice = false) ∧
      (BBC.execute (decide <| · ∈ [BBC.vote "A" true, BBC.vote "B" false]) ["A", "B"].length "cp"
        true true [BBC.vote "A" true, BBC.vote "B" false]).1 = .veto (BBC.vote "B" false) ∧
      (BBC.Ending.veto (BBC.vote "B" false)).onMessage = true ∧
      afterAgreement (fun _ => true) (fun _ => []) 1 0 (.init 2) ["u"] true
          (.veto (BBC.vote "B" false)) =
        if true then replay (fun _ => true) (fun _ => []) 1 0 (.init 2)
          (BBC.Ending.veto (BBC.vote "B" false)).proofs else some (.init 2) := by
  have hv : ∀ c, decide (c ∈ [BBC.vote "A" true, BBC.vote "B" false]) = true →
      c = BBC.vote "A" true ∨ c = BBC.vote "B" false := by simp
  have hverify : ∀ c, decide (c ∈ [BBC.vote "A" true, BBC.vote "B" false]) = true →
      c.emitter ∈ ["A", "B"] := fun c hc => by rcases hv c hc with rfl | rfl <;> decide
  have hveto : ∀ c, decide (c ∈ [BBC.vote "A" true, BBC.vote "B" false]) = true →
      c.identifier = "cp" → c.emitter = "B" → c.choice = false := fun c hc _ he => by
    rcases hv c hc with rfl | rfl
    · simp [BBC.vote] at he
    · rfl
  have he : (BBC.execute (decide <| · ∈ [BBC.vote "A" true, BBC.vote "B" false]) ["A", "B"].length
      "cp" true true [BBC.vote "A" true, BBC.vote "B" false]).1 = .veto (BBC.vote "B" false) := by
    decide
  exact ⟨hverify, by decide, hveto, he, rfl, veto_keeps_checkpoint hverify (by decide) hveto he rfl⟩

/-! ### The replay of a veto -/

/-- An `isApplicable` call that answers `true` leaves a query stored under the uuid. -/
theorem isApplicable_true_stored {n : Nat} {s s' : QueryStore} {u : String}
    (h : isApplicable n s u = some (true, s')) : s'.queries u ≠ none := by
  have hs : s.queries u ≠ none := fun hu => by cases n <;> simp [isApplicable, hu] at h
  exact fun hu' => hs ((isApplicable_sameContent n s u _ h).none_iff.mpr hu')

/-- A veto of `CheckpointChoice` names the first applicable uuid: its proofs are the query stored
under that uuid, then the query's endorsements. -/
theorem checkpointChoice_veto :
    ∀ {s s' : QueryStore} {uuids : List String} {ps : List Proof},
      s.checkpointChoice fuel uuids = some ((false, ps), s') →
        ∃ u ∈ uuids, ∃ qi, s'.queries u = some qi ∧
          ps = .query qi.query :: qi.endorsements.map fun ei => .endorsement ei.endorsement
  | _, _, [], _, h => by simp [checkpointChoice] at h
  | s, s', uuid :: us, ps, h => by
    simp only [checkpointChoice] at h
    cases h1 : isApplicable fuel s uuid with
    | none => simp [h1] at h
    | some p =>
      obtain ⟨app, s1⟩ := p
      simp only [h1, Option.bind_eq_bind, Option.some_bind] at h
      cases app
      · obtain ⟨u, hu, rest⟩ := checkpointChoice_veto (by simpa using h)
        exact ⟨u, List.mem_cons_of_mem _ hu, rest⟩
      · cases hq : s1.queries uuid with
        | none => exact absurd hq (isApplicable_true_stored h1)
        | some qi =>
          simp only [hq, if_true, pure, Option.some.injEq, Prod.mk.injEq] at h
          obtain ⟨⟨-, rfl⟩, rfl⟩ := h
          exact ⟨uuid, List.mem_cons_self _ _, qi, hq, rfl⟩

/-- A node that chose `true` and hears a veto that a node's `CheckpointChoice` produced ends the
checkpoint holding a query under a uuid the vetoing node found applicable: the vetoed query if it
held none there, and the query it held otherwise. The vetoed query's signature must check; its
endorsements' need not. -/
theorem veto_replays_vetoed_query {sP sP' s' : QueryStore} {ps : List Proof} {v : BBC.Choice}
    (hwP : sP.WellKeyed) (hw : s.WellKeyed)
    (hP : sP.checkpointChoice fuel queries = some ((false, ps), sP')) (hv : v.proofs = ps)
    (hq : ∀ q, Proof.query q ∈ ps → verified (.query q) = true)
    (h : afterAgreement verified order fuel now s queries true (.veto v) = some s') :
    ∃ u ∈ queries, ∃ qi, sP'.queries u = some qi ∧ ∃ qi', s'.queries u = some qi' ∧
      (s.queries u = none → qi'.query = qi.query) ∧
      ∀ qi0, s.queries u = some qi0 → qi'.query = qi0.query := by
  obtain ⟨u, hu, qi, hqi, rfl⟩ := checkpointChoice_veto hP
  have huuid : qi.query.uuid = u := (checkpointChoice_effect hwP hP).wellKeyed u qi hqi
  simp only [afterAgreement, BBC.Ending.decision, BBC.Ending.proofs, hv, Bool.not_false,
    Bool.and_true, if_true, Option.bind_eq_bind, replay, List.filter_cons,
    hq _ (List.mem_cons_self _ _), List.map_cons, Proof.message, receive, List.foldlM_cons,
    Option.bind_eq_some, Bool.false_eq_true, if_false, Option.some.injEq] at h
  obtain ⟨s2, ⟨s1, h1, h2⟩, rfl⟩ := h
  obtain ⟨qi1, hu1, hq1⟩ := handle_query_stores hw h1
  have hw1 := (receive_lives [.query qi.query] s s1 hw (by simpa [receive] using h1)).2
  obtain ⟨qi', hu', hq'⟩ := (receive_lives _ s1 s2 hw1 h2).1.query_stays hu1
  refine ⟨u, hu, qi, hqi, qi', huuid ▸ hu', fun hn => ?_, fun qi0 h0 => ?_⟩
  · rw [hq', hq1, huuid, hn]
    rfl
  · rw [hq', hq1, huuid, h0]
    rfl

/-- A store holding `original` committed under `"u"`. -/
def committedOriginal : QueryStore :=
  (QueryStore.init 2).setQuery "u" ⟨original, [], [], .committed, false, false, .zero⟩

/-- The veto `B` sends for `committedOriginal`. -/
def vetoOfOriginal : BBC.Choice := ⟨"cp", "B", false, [.query original], []⟩

/-- A node holding nothing hears the veto of `committedOriginal` and ends holding `original`. -/
theorem veto_replays_vetoed_query_committed :
    committedOriginal.WellKeyed ∧ (QueryStore.init 2).WellKeyed ∧
      committedOriginal.checkpointChoice 2 ["u"] =
        some ((false, [.query original]), committedOriginal) ∧
      vetoOfOriginal.proofs = [.query original] ∧
      (∀ q, Proof.query q ∈ [Proof.query original] → (fun _ => true : Proof → Bool) (.query q) = true) ∧
      ∃ s', afterAgreement (fun _ => true) (keyOrder ["u"]) 2 0 (.init 2) ["u"] true
          (.veto vetoOfOriginal) = some s' ∧
        ∃ u ∈ ["u"], ∃ qi, committedOriginal.queries u = some qi ∧ ∃ qi', s'.queries u = some qi' ∧
          ((QueryStore.init 2).queries u = none → qi'.query = qi.query) ∧
          ∀ qi0, (QueryStore.init 2).queries u = some qi0 → qi'.query = qi0.query := by
  have hwP : committedOriginal.WellKeyed := fun u qi h => by
    by_cases hu : u = "u"
    · subst hu
      simp only [committedOriginal, setQuery_queries, if_true, Option.some.injEq] at h
      exact h ▸ rfl
    · simp [committedOriginal, hu, QueryStore.init, newQueryStore] at h
  have hP : committedOriginal.checkpointChoice 2 ["u"] =
      some ((false, [.query original]), committedOriginal) := rfl
  have hrun : (afterAgreement (fun _ => true) (keyOrder ["u"]) 2 0 (.init 2) ["u"] true
      (.veto vetoOfOriginal)).isSome = true := by decide
  obtain ⟨s', hs'⟩ := Option.isSome_iff_exists.mp hrun
  exact ⟨hwP, init_wellKeyed 2, hP, rfl, fun _ _ => rfl, s', hs',
    veto_replays_vetoed_query hwP (init_wellKeyed 2) hP rfl (fun _ _ => rfl) hs'⟩

end

end Engine

end PnyxDB.Consensus
