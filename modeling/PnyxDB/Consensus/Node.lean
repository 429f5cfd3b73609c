import PnyxDB.Consensus.Engine
import PnyxDB.Consensus.Operations
import PnyxDB.Consensus.QueryStore.Dump

/-!
A node with its persistent key-value store, its dumper and its crashes. The events of a node are
the critical sections of its goroutines: `AddQuery` and `AddEndorsement` of the message handlers,
`Endorse` of `handleQuery` once it has signed its endorsement, `Engine.checkState` (which a handler
calls after its insertion, and the sweep of the garbage collection loop calls on every pending
query every 100 ms), `CheckpointChoice` and `CheckpointDrop` of `handleCheckpoint`, a `Dump` of the
dumper, and a crash followed by the restart of `main`, which `Load`s the last completed dump into a
fresh engine while the key-value store keeps every `SetBatch`. When a checkpoint decides against
the node's choice, `handleCheckpoint` replays the proofs through `handleQuery` and
`handleEndorsement`, whose sections are the events above. A handler's insertion and its
`checkState` are two events, and the dumper may run between them. `writes` records, as a ghost, the uuid of each query
whose operations `apply` wrote to the store.

* `checkState_qs` — on the query store, `checkState` with its applies is `Engine.checkState`.
* `writes_nodup_of_no_crash` — in a run without a crash, `apply` writes a query at most once: it
  writes right after `CheckState` commits the query, and a committed query is never pending again.
* `apply_twice_across_crash` — a dump taken between `AddEndorsement` and the `checkState` of the
  same handler holds the query pending with its quorum; after a crash that follows the commit, the
  sweep commits it again, and `apply` appends its operand a second time.
-/

namespace PnyxDB.Consensus

/-- A node: its query store, its key-value store, the last dump it completed, and the uuids of the
queries whose operations `apply` wrote, in order. -/
structure Node where
  qs : QueryStore
  kv : Store
  lastDump : Option DumpImage
  writes : List String

namespace Node

/-- What a node is run with: the codec of the runners, SHA-512, the quorum, the iteration order of
the query map, the fuel of the store's recursions and the clock. -/
structure Env where
  codec : Codec
  sha512 : Bytes → Bytes
  quorum : Int
  order : QueryStore → List String
  fuel : Nat
  now : Int

/-- The node `main` starts: the store of `NewEngine`, an empty key-value store, no dump. -/
def init (env : Env) : Node := ⟨QueryStore.init env.quorum, fun _ => none, none, []⟩

/-- `Engine.apply(uuid)`: the query `GetQuery` returns, run on the key-value store; `SetBatch` is
called, and the write recorded, only when every operation succeeds. -/
def apply (env : Env) (n : Node) (uuid : String) : Node :=
  match n.qs.queries uuid with
  | none => n
  | some qi =>
    if (execOps env.codec n.kv (fun _ => none) qi.query.operations).toOption.isSome then
      { n with kv := applyQuery env.codec env.sha512 n.kv qi.query, writes := n.writes ++ [uuid] }
    else n

@[simp] theorem apply_qs (env : Env) (n : Node) (uuid : String) : (n.apply env uuid).qs = n.qs := by
  unfold apply
  split
  · rfl
  · split_ifs <;> rfl

theorem apply_writes (env : Env) (n : Node) (uuid : String) :
    (n.apply env uuid).writes = n.writes ∨ (n.apply env uuid).writes = n.writes ++ [uuid] := by
  unfold apply
  split
  · exact .inl rfl
  · split_ifs
    · exact .inr rfl
    · exact .inl rfl

/-- `Engine.checkState(uuid)`: `CheckState`; after a commit, `apply`, then the same for each pending
query, in the order `order` visits the query map. The checkpoint candidates go to the checkpoint
loop and leave the node alone. -/
def checkState (env : Env) : Nat → Node → String → Option Node
  | 0, _, _ => none
  | depth + 1, n, uuid => do
    let ((commit, _), qs) ← n.qs.checkState env.fuel env.now uuid
    let n := { n with qs }
    if commit then
      (qs.pendingQueries (env.order qs)).foldlM (checkState env depth) (n.apply env uuid)
    else some n

/-- A fold over the node that projects to a fold over its query store. -/
theorem foldlM_qs {f : Node → String → Option Node} {g : QueryStore → String → Option QueryStore}
    (h : ∀ n u, (f n u).map Node.qs = g n.qs u) :
    ∀ (l : List String) (n : Node), (l.foldlM f n).map Node.qs = l.foldlM g n.qs
  | [], _ => rfl
  | u :: l, n => by
    simp only [List.foldlM_cons, Option.bind_eq_bind]
    cases hf : f n u with
    | none =>
      have := h n u
      rw [hf] at this
      rw [← this]
      rfl
    | some n' =>
      have := h n u
      rw [hf, Option.map_some'] at this
      rw [← this, Option.some_bind, Option.some_bind]
      exact foldlM_qs h l n'

/-- The query store of a node goes through `Engine.checkState`. -/
theorem checkState_qs (env : Env) :
    ∀ (depth : Nat) (n : Node) (uuid : String),
      (checkState env depth n uuid).map Node.qs =
        Engine.checkState env.order env.fuel env.now depth n.qs uuid
  | 0, _, _ => rfl
  | depth + 1, n, uuid => by
    simp only [checkState, Engine.checkState, Option.bind_eq_bind]
    cases n.qs.checkState env.fuel env.now uuid with
    | none => rfl
    | some r =>
      obtain ⟨⟨commit, cp⟩, qs⟩ := r
      simp only [Option.some_bind]
      cases commit
      · rfl
      · simp only [if_true]
        rw [foldlM_qs (fun n u => checkState_qs env depth n u), apply_qs]

/-- An event of a node: a critical section of one of its goroutines, or a crash. -/
inductive Event
  | addQuery (q : Query)
  | addEndorsement (e : Endorsement)
  | endorse (uuid : String)
  | checkState (uuid : String)
  | checkpointChoice (uuids : List String)
  | checkpointDrop (uuids : List String)
  | dump
  | crash

/-- The node after `ev`; `none` when a recursion of the store runs out of fuel. A crash keeps the
key-value store and the dump file; the restarted node `Load`s the dump into a fresh engine, or
starts from the fresh engine when there is no dump. -/
def step (env : Env) (n : Node) : Event → Option Node
  | .addQuery q => (n.qs.addQuery env.fuel q).map fun r => { n with qs := r.2 }
  | .addEndorsement e => (n.qs.addEndorsement env.fuel e).map fun r => { n with qs := r.2 }
  | .endorse uuid => some { n with qs := n.qs.endorse uuid }
  | .checkState uuid => checkState env env.fuel n uuid
  | .checkpointChoice uuids =>
    (n.qs.checkpointChoice env.fuel uuids).map fun r => { n with qs := r.2 }
  | .checkpointDrop uuids => (n.qs.checkpointDrop env.fuel uuids).map fun qs => { n with qs }
  | .dump => some { n with lastDump := some n.qs.dump }
  | .crash => some { n with qs := match n.lastDump with
      | some d => d.load env.quorum
      | none => QueryStore.init env.quorum }

/-- The node after the events `evs`, in order. -/
def run (env : Env) (n : Node) (evs : List Event) : Option Node := evs.foldlM (step env) n

/-! ### Without a crash, a query is written at most once -/

/-- Every written query is stored and no longer pending; no query was written twice. -/
structure WritesSettled (n : Node) : Prop where
  wellKeyed : n.qs.WellKeyed
  nodup : n.writes.Nodup
  settled : ∀ u ∈ n.writes, ∃ st, n.qs.stateOf u = some st ∧ st ≠ .pending

end Node

namespace QueryStore

/-- An entry that is no longer pending stays so. -/
theorem entrySteps_not_pending {ins : Query → Prop} {q : Query} {st : QueryState}
    {e : Option (Query × QueryState)} (hst : st ≠ .pending)
    (h : Relation.ReflTransGen (EntryStep ins) (some (q, st)) e) :
    ∃ st', e = some (q, st') ∧ st' ≠ .pending := by
  induction h with
  | refl => exact ⟨st, rfl, hst⟩
  | tail _ hstep ih =>
    obtain ⟨st', rfl, hst'⟩ := ih
    cases hstep with
    | commit => exact absurd rfl hst'
    | drop => exact ⟨_, rfl, by decide⟩

theorem Lives.not_pending_stays {ins : Query → Prop} {s s' : QueryStore} (h : Lives ins s s')
    {u : String} {st : QueryState} (hst : st ≠ .pending) (hu : s.stateOf u = some st) :
    ∃ st', s'.stateOf u = some st' ∧ st' ≠ .pending := by
  obtain ⟨qi, hqi, rfl⟩ : ∃ qi, s.queries u = some qi ∧ qi.state = st := by
    simpa [stateOf] using hu
  have := h u
  rw [entry, hqi, Option.map_some'] at this
  obtain ⟨st', he, hst'⟩ := entrySteps_not_pending hst this
  obtain ⟨qi', hqi', -, rfl⟩ : ∃ qi', s'.queries u = some qi' ∧ qi'.query = qi.query ∧
      qi'.state = st' := by
    cases hu' : s'.queries u with
    | none => simp [entry, hu'] at he
    | some qi' => simpa [entry, hu'] using he
  exact ⟨qi'.state, by simp [stateOf, hqi'], hst'⟩

/-- What `CheckState` did when it reports a commit. -/
theorem checkState_true_cases {s s' : QueryStore} {n : Nat} {now : Int} {uuid : String}
    {cp : List String} (h : s.checkState n now uuid = some ((true, cp), s')) :
    ∃ s1 qi m s3, isApplicable n s uuid = some (true, s1) ∧
      (s1.checkSpeculativeState uuid true).queries uuid = some qi ∧ qi.state ≠ .committed ∧
      (s1.checkSpeculativeState uuid true).countDefinitelyValid n now qi.endorsements 0 [] =
        some ((m, cp), s3) ∧ s3.commit n uuid = some s' := by
  obtain ⟨_, s1, h1, ⟨-, hr⟩ | ⟨qi, m, cp', s3, rfl, hq, hnc, h3, ⟨-, hr⟩ | ⟨-, h4, hr⟩⟩⟩ :=
    checkState_cases h
  · cases hr
  · cases hr
  · cases hr
    exact ⟨s1, qi, m, s3, h1, hq, hnc, h3, h4⟩

/-- `CheckState` commits only a pending query, and leaves it committed, or dropped when it is one of
its own dependents. -/
theorem checkState_commit {s s' : QueryStore} {n : Nat} {now : Int} {uuid : String}
    {cp : List String} (hw : s.WellKeyed) (h : s.checkState n now uuid = some ((true, cp), s')) :
    s.stateOf uuid = some .pending ∧ ∃ st, s'.stateOf uuid = some st ∧ st ≠ .pending := by
  obtain ⟨s1, qi, m, s3, h1, hq, hnc, h3, h4⟩ := checkState_true_cases h
  have hs2 : s.SameContent (s1.checkSpeculativeState uuid true) :=
    (isApplicable_sameContent n s uuid _ h1).trans (checkSpeculativeState_sameContent s1 uuid true)
  have hs3 : s.SameContent s3 :=
    hs2.trans (countDefinitelyValid_rel (sameContent_applyRel n) now _ _ _ _ _ h3)
  have hst : s.stateOf uuid = some qi.state := by
    rw [← stateOf_eq_of_entry (hs2.entry_eq uuid)]
    simp [stateOf, hq]
  have hpend : qi.state = .pending := by
    have hnd := isApplicable_not_dropped h1
    rw [hst] at hnd
    cases hqs : qi.state <;> simp_all
  obtain ⟨qi3, hq3, hqs3⟩ : ∃ qi3, s3.queries uuid = some qi3 ∧ qi3.state = .pending := by
    have := stateOf_eq_of_entry (hs3.entry_eq uuid)
    rw [hst, hpend] at this
    cases hq3 : s3.queries uuid <;> simp_all [stateOf]
  refine ⟨hst.trans (congrArg some hpend), ?_⟩
  unfold commit at h4
  rw [hq3] at h4
  have hl : Lives (fun _ => True) _ s' := (lives_foldlM
    (fun _ _ _ hw h => ⟨drop_lives hw h, (drop_effect hw h).wellKeyed⟩) _ _ s'
    (setCommitted_frame (hs3.wellKeyed hw) hq3).wellKeyed h4).1
  exact hl.not_pending_stays (by decide : QueryState.committed ≠ .pending) (by simp [stateOf])

end QueryStore

namespace Node

variable {env : Env}

theorem WritesSettled.of_lives {ins : Query → Prop} {n : Node} {qs : QueryStore}
    (h : n.WritesSettled) (hl : QueryStore.Lives ins n.qs qs) (hw : qs.WellKeyed) :
    WritesSettled { n with qs } :=
  ⟨hw, h.nodup, fun u hu =>
    let ⟨_, hs, hst⟩ := h.settled u hu
    hl.not_pending_stays hst hs⟩

/-- An operation of the query store alone keeps `WritesSettled`. -/
theorem WritesSettled.storeOp {n : Node} (op : StoreOp) (fuel : Nat) {qs : QueryStore}
    (h : n.WritesSettled) (hop : op.run fuel n.qs = some qs) : WritesSettled { n with qs } :=
  h.of_lives (QueryStore.StoreOp.lives h.wellKeyed hop)
    (QueryStore.StoreOp.effect h.wellKeyed hop).wellKeyed

/-- `apply` after `CheckState` committed `uuid`: the write is the first of `uuid`. -/
theorem WritesSettled.apply {n : Node} {qs : QueryStore} {uuid : String} (h : n.WritesSettled)
    (hpend : n.qs.stateOf uuid = some .pending) (hl : QueryStore.Lives (fun _ => True) n.qs qs)
    (hw : qs.WellKeyed) (hafter : ∃ st, qs.stateOf uuid = some st ∧ st ≠ .pending) :
    WritesSettled ({ n with qs }.apply env uuid) := by
  have hm := h.of_lives hl hw
  rcases apply_writes env { n with qs } uuid with hwr | hwr
  · refine ⟨by simpa using hm.wellKeyed, by rw [hwr]; exact hm.nodup, ?_⟩
    rw [hwr, apply_qs]
    exact hm.settled
  have hnot : uuid ∉ n.writes := fun hu => by
    obtain ⟨st, hs, hst⟩ := h.settled uuid hu
    rw [hpend, Option.some.injEq] at hs
    exact hst hs.symm
  refine ⟨by simpa using hm.wellKeyed, ?_, fun u hu => ?_⟩
  · rw [hwr]
    exact List.nodup_append.mpr ⟨h.nodup, List.nodup_singleton _, by simpa using hnot⟩
  · rw [hwr, List.mem_append, List.mem_singleton] at hu
    rw [apply_qs]
    rcases hu with hu | rfl
    · exact hm.settled u hu
    · exact hafter

/-- Each step of a fold keeps `P`, hence the fold does. -/
theorem foldlM_inv {α β : Type} {P : α → Prop} {f : α → β → Option α}
    (hf : ∀ a b a', f a b = some a' → P a → P a') :
    ∀ (l : List β) (a a' : α), l.foldlM f a = some a' → P a → P a'
  | [], _, _, h, hp => by
    simp only [List.foldlM_nil, Option.pure_def, Option.some.injEq] at h
    exact h ▸ hp
  | b :: l, a, a', h, hp => by
    simp only [List.foldlM_cons, Option.bind_eq_bind, Option.bind_eq_some] at h
    obtain ⟨a1, h1, h2⟩ := h
    exact foldlM_inv hf l a1 a' h2 (hf a b a1 h1 hp)

theorem WritesSettled.checkState :
    ∀ (depth : Nat) (n n' : Node) (uuid : String), checkState env depth n uuid = some n' →
      n.WritesSettled → n'.WritesSettled
  | 0, _, _, _, h, _ => by simp [Node.checkState] at h
  | depth + 1, n, n', uuid, h, hn => by
    simp only [Node.checkState, Option.bind_eq_bind, Option.bind_eq_some] at h
    obtain ⟨⟨⟨commit, cp⟩, qs⟩, h1, h2⟩ := h
    have hl : QueryStore.Lives (fun _ => True) n.qs qs := QueryStore.checkState_lives hn.wellKeyed h1
    have hw := (QueryStore.checkState_effect hn.wellKeyed h1).wellKeyed
    cases commit
    · simp only [Bool.false_eq_true, if_false, Option.some.injEq] at h2
      exact h2 ▸ hn.of_lives hl hw
    · simp only [if_true] at h2
      obtain ⟨hpend, hafter⟩ := QueryStore.checkState_commit hn.wellKeyed h1
      exact foldlM_inv (fun _ _ _ h hp => WritesSettled.checkState depth _ _ _ h hp) _ _ _ h2
        (hn.apply hpend hl hw hafter)

theorem WritesSettled.step {n n' : Node} {ev : Event} (hc : ev ≠ .crash) (h : step env n ev = some n')
    (hn : n.WritesSettled) : n'.WritesSettled := by
  cases ev with
  | addQuery q =>
    obtain ⟨⟨_, _⟩, h1, rfl⟩ := Option.map_eq_some'.mp h
    exact hn.storeOp (.addQuery q) env.fuel (by simp [StoreOp.run, h1])
  | addEndorsement e =>
    obtain ⟨⟨_, _⟩, h1, rfl⟩ := Option.map_eq_some'.mp h
    exact hn.storeOp (.addEndorsement e) env.fuel (by simp [StoreOp.run, h1])
  | endorse uuid =>
    simp only [Node.step, Option.some.injEq] at h
    exact h ▸ hn.storeOp (.endorse uuid) env.fuel rfl
  | checkState uuid => exact hn.checkState _ _ _ _ h
  | checkpointChoice uuids =>
    obtain ⟨⟨_, _⟩, h1, rfl⟩ := Option.map_eq_some'.mp h
    exact hn.storeOp (.checkpointChoice uuids) env.fuel (by simp [StoreOp.run, h1])
  | checkpointDrop uuids =>
    obtain ⟨_, h1, rfl⟩ := Option.map_eq_some'.mp h
    exact hn.storeOp (.checkpointDrop uuids) env.fuel h1
  | dump =>
    simp only [Node.step, Option.some.injEq] at h
    exact h ▸ ⟨hn.wellKeyed, hn.nodup, hn.settled⟩
  | crash => exact absurd rfl hc

/-- In a run of a node without a crash, `apply` writes each query at most once. -/
theorem writes_nodup_of_no_crash (env : Env) (evs : List Event) (hc : Event.crash ∉ evs)
    (n : Node) (h : run env (init env) evs = some n) : n.writes.Nodup := by
  have key : ∀ (evs : List Event) (n n' : Node), Event.crash ∉ evs →
      evs.foldlM (step env) n = some n' → n.WritesSettled → n'.WritesSettled := by
    intro evs
    induction evs with
    | nil =>
      intro n n' _ h hn
      simp only [List.foldlM_nil, Option.pure_def, Option.some.injEq] at h
      exact h ▸ hn
    | cons ev evs ih =>
      intro n n' hc h hn
      simp only [List.foldlM_cons, Option.bind_eq_bind, Option.bind_eq_some] at h
      obtain ⟨n1, h1, h2⟩ := h
      simp only [List.mem_cons, not_or] at hc
      exact ih n1 n' hc.2 h2 (hn.step (Ne.symm hc.1) h1)
  exact (key evs _ n hc h ⟨Engine.init_wellKeyed _, List.nodup_nil, by simp [init]⟩).nodup

/-! ### Across a crash, a query is written twice -/

/-- Quorum 1, one pending query at a time, ample fuel. -/
def crashEnv : Env := ⟨Codec.unary, id, 1, fun _ => ["q"], 3, 0⟩

/-- A query that appends the byte 1 to the key k, and its one endorsement. -/
def appendQuery : Query := ⟨"q", "a", "p", none, [], [⟨"k", .concat, [1]⟩], []⟩
def appendEndorsement : Endorsement := ⟨"q", "a", [], []⟩

/-- `handleQuery`; `handleEndorsement`, with the dumper between its `AddEndorsement` and its
`checkState`; no crash. -/
def appendRun : List Event :=
  [.addQuery appendQuery, .checkState "q", .addEndorsement appendEndorsement, .dump, .checkState "q"]

theorem writes_nodup_appendRun :
    ∃ n, run crashEnv (init crashEnv) appendRun = some n ∧ n.writes.Nodup := by
  obtain ⟨n, hn⟩ := Option.isSome_iff_exists.mp
    (show (run crashEnv (init crashEnv) appendRun).isSome by decide)
  exact ⟨n, hn, writes_nodup_of_no_crash crashEnv appendRun (by simp [appendRun]) n hn⟩

/-- `appendRun`, then a crash, the restart from the dump, and the sweep's `checkState`. -/
def crashRun : List Event := appendRun ++ [.crash, .checkState "q"]

theorem apply_twice_across_crash :
    ∃ n, run crashEnv (init crashEnv) crashRun = some n ∧ n.writes = ["q", "q"] ∧
      (n.kv "k").map Prod.fst = some [1, 1] := by
  have h : (run crashEnv (init crashEnv) crashRun).map
      (fun n => (n.writes, (n.kv "k").map Prod.fst)) = some (["q", "q"], some [1, 1]) := by decide
  obtain ⟨n, hn, he⟩ := Option.map_eq_some'.mp h
  simp only [Prod.mk.injEq] at he
  exact ⟨n, hn, he.1, he.2⟩

end Node

end PnyxDB.Consensus
