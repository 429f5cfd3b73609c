import PnyxDB.Consensus.KeyValue
import PnyxDB.Consensus.Node
import PnyxDB.Consensus.QueryStore.Flags

/-!
The endorsement loop of `Engine.handleQuery` at one node, under every interleaving of its
goroutines.

Each query that `AddQuery` inserts gets a task. A task takes `endorsementMutex`, runs
`canEndorse`, then `GetConflicting`, and either endorses its query with the conflicting queries as
conditions (there are none, or all have expired) or releases the mutex and retries after a sleep.
Endorsing signs the endorsement, sets the query's flag `Endorsed` (`qs.Endorse`) and broadcasts it;
the mutex is released after the broadcast. Between any two of these steps the other goroutines
(the handling of endorsements and checkpoints, the maintenance sweep, the `CheckState` of other
tasks) run operations of the store.

The clock, the key-value store `canEndorse` reads, the order in which `GetConflicting` visits the
map and the outcome of signing belong to the environment: each step takes them as arguments. A
run also records, with each broadcast, the store its task decided on and the endorsements
broadcast before that decision (`Decision`); this is history of the run, not state of the program.

The mutex covers the decision and the broadcast, so an endorsement broadcast before a decision had
its flag set in the store the decision reads, and no store operation clears a flag
(`StoreOp.keepsEndorsed`). Hence each broadcast lists among its conditions every query that
conflicts with its own, was endorsed before its decision and was then pending, and no two
conflicting queries that are pending both hold an unconditional endorsement of the node
(`broadcast_lists_conflicting`). Along the way: at most one task is past the lock, the holder
(`endorsementMutex_exclusive`), and since `AddQuery` inserts a uuid once and a task returns after
its broadcast, the node endorses each query at most once (`endorses_each_query_once`).
-/

namespace PnyxDB.Consensus

namespace Endorsing

open QueryStore

/-- What a task knew when it decided to endorse: the store `GetConflicting` read, and the uuids
of the endorsements broadcast before. -/
structure Decision where
  store : QueryStore
  sentBefore : List String

/-- Where a task of `handleQuery` stands in its endorsement loop. -/
inductive Phase
  /-- Before `endorsementMutex.Lock()`: at the start, or after a sleep. -/
  | waiting
  /-- Holding the mutex, about to run `canEndorse`. -/
  | checking
  /-- `canEndorse` held: about to run `GetConflicting`. -/
  | deciding
  /-- Decided to endorse with the conditions `conds`: about to sign. -/
  | signing (conds : List Query) (d : Decision)
  /-- Signed `e`: about to run `qs.Endorse`. -/
  | endorsing (e : Endorsement) (d : Decision)
  /-- `qs.Endorse` done: about to broadcast `e` and release the mutex. -/
  | broadcasting (e : Endorsement) (d : Decision)
  /-- Returned. -/
  | done

/-- The phases that hold the mutex. -/
def Phase.Locked : Phase → Prop
  | .waiting | .done => False
  | _ => True

/-- The decision a task has taken, with the uuids it lists as conditions. -/
def Phase.decided : Phase → Option (List String × Decision)
  | .signing conds d => some (conds.map Query.uuid, d)
  | .endorsing e d | .broadcasting e d => some (e.conditions, d)
  | _ => none

/-- The endorsement a task has signed. -/
def Phase.endorsement : Phase → Option Endorsement
  | .endorsing e _ | .broadcasting e _ => some e
  | _ => none

theorem Phase.locked_of_decided {p : Phase} {x : List String × Decision} (h : p.decided = some x) :
    p.Locked := by
  cases p <;> simp_all [Phase.decided, Phase.Locked]

/-- The task of `handleQuery(query)`. -/
structure Task where
  query : Query
  phase : Phase

/-- An endorsement of `query` the node broadcast, with the decision it came from. -/
structure Broadcast where
  query : Query
  endorsement : Endorsement
  decision : Decision

/-- The node: its query store, the tasks of `handleQuery`, the task holding `endorsementMutex`, and
the endorsements broadcast so far, oldest first. -/
structure EndorsingNode where
  qs : QueryStore
  tasks : List Task
  holder : Option Nat
  sent : List Broadcast

/-- `NewEngine` with quorum `t`: no task, no endorsement. -/
def EndorsingNode.init (t : Int) : EndorsingNode := ⟨QueryStore.init t, [], none, []⟩

/-- The uuids of the endorsements broadcast so far. -/
def EndorsingNode.sentUuids (σ : EndorsingNode) : List String :=
  σ.sent.map fun b => b.endorsement.uuid

/-- The decision of `handleQuery` on the conflicting queries `conds`: endorse when there are none
or all have expired at `now`. -/
def endorses (conds : List Query) (now : Int) : Bool :=
  conds.isEmpty || conds.all fun c => c.expired now

/-- One step of the node `me`: an operation of another goroutine on the store, or one step of a
task. -/
inductive Step (me : String) : EndorsingNode → EndorsingNode → Prop
  /-- Another goroutine runs an operation of the store. -/
  | store {σ : EndorsingNode} {s' : QueryStore} (op : StoreOp) (fuel : Nat) :
      op.Admissible σ.qs → op.run fuel σ.qs = some s' → Step me σ { σ with qs := s' }
  /-- `handleQuery(r)`: `AddQuery` inserts `r`, and its task enters the loop. -/
  | spawn {σ : EndorsingNode} {s' : QueryStore} (r : Query) (fuel : Nat) :
      σ.qs.addQuery fuel r = some (true, s') →
      Step me σ { σ with qs := s', tasks := σ.tasks ++ [⟨r, .waiting⟩] }
  /-- `endorsementMutex.Lock()`. -/
  | lock {σ : EndorsingNode} (i : Nat) (r : Query) :
      σ.tasks[i]? = some ⟨r, .waiting⟩ → σ.holder = none →
      Step me σ { σ with tasks := σ.tasks.set i ⟨r, .checking⟩, holder := some i }
  /-- `canEndorse(r)` holds, on the key-value store `kv` at the time `now`. -/
  | checkPass {σ : EndorsingNode} (i : Nat) (r : Query) (now : Int) (kv : Store)
      (fault : String → Option String) :
      σ.tasks[i]? = some ⟨r, .checking⟩ → canEndorse now kv fault r = true →
      Step me σ { σ with tasks := σ.tasks.set i ⟨r, .deciding⟩ }
  /-- `canEndorse(r)` fails: the task releases the mutex and returns. -/
  | checkFail {σ : EndorsingNode} (i : Nat) (r : Query) (now : Int) (kv : Store)
      (fault : String → Option String) :
      σ.tasks[i]? = some ⟨r, .checking⟩ → canEndorse now kv fault r = false →
      Step me σ { σ with tasks := σ.tasks.set i ⟨r, .done⟩, holder := none }
  /-- `GetConflicting(r)`, visiting the map in the order `order`, returns queries the task may
  endorse against: it decides to endorse with them as conditions. -/
  | decideEndorse {σ : EndorsingNode} (i : Nat) (r : Query) (order : List String) (now : Int) :
      σ.tasks[i]? = some ⟨r, .deciding⟩ → σ.qs.IsKeyOrder order →
      endorses (σ.qs.getConflicting order r) now = true →
      Step me σ { σ with tasks := (σ.tasks.set i
        ⟨r, .signing (σ.qs.getConflicting order r) ⟨σ.qs, σ.sentUuids⟩⟩) }
  /-- `GetConflicting(r)` returns a query that has not expired: the task releases the mutex and
  sleeps. -/
  | decideRetry {σ : EndorsingNode} (i : Nat) (r : Query) (order : List String) (now : Int) :
      σ.tasks[i]? = some ⟨r, .deciding⟩ → σ.qs.IsKeyOrder order →
      endorses (σ.qs.getConflicting order r) now = false →
      Step me σ { σ with tasks := σ.tasks.set i ⟨r, .waiting⟩, holder := none }
  /-- `signEndorsement` signs the endorsement of `r` with the signature `sig`. -/
  | signOk {σ : EndorsingNode} (i : Nat) (r : Query) (conds : List Query) (d : Decision)
      (sig : Bytes) :
      σ.tasks[i]? = some ⟨r, .signing conds d⟩ →
      Step me σ { σ with tasks := (σ.tasks.set i
        ⟨r, .endorsing ⟨r.uuid, me, conds.map Query.uuid, sig⟩ d⟩) }
  /-- `signEndorsement` fails: `endorse` returns, and the task releases the mutex and returns. -/
  | signFail {σ : EndorsingNode} (i : Nat) (r : Query) (conds : List Query) (d : Decision) :
      σ.tasks[i]? = some ⟨r, .signing conds d⟩ →
      Step me σ { σ with tasks := σ.tasks.set i ⟨r, .done⟩, holder := none }
  /-- `qs.Endorse(r.Uuid)`. -/
  | endorse {σ : EndorsingNode} (i : Nat) (r : Query) (e : Endorsement) (d : Decision) :
      σ.tasks[i]? = some ⟨r, .endorsing e d⟩ →
      Step me σ { σ with qs := σ.qs.endorse r.uuid, tasks := σ.tasks.set i ⟨r, .broadcasting e d⟩ }
  /-- `Network.Broadcast(e)`; the task releases the mutex and returns. -/
  | broadcast {σ : EndorsingNode} (i : Nat) (r : Query) (e : Endorsement) (d : Decision) :
      σ.tasks[i]? = some ⟨r, .broadcasting e d⟩ →
      Step me σ
        { σ with tasks := σ.tasks.set i ⟨r, .done⟩, holder := none, sent := σ.sent ++ [⟨r, e, d⟩] }

/-- The states of the node `me` that its runs from `NewEngine` with quorum `t` reach. -/
def Reachable (t : Int) (me : String) (σ : EndorsingNode) : Prop :=
  Relation.ReflTransGen (Step me) (EndorsingNode.init t) σ

/-! ### The invariant -/

/-- What a decision guarantees for the conditions `conds` of an endorsement of `r`: the
endorsements broadcast before it were flagged in the store it read, and every query of that store
that conflicts with `r`, was endorsed before and was pending is among the conditions. -/
structure Decided (r : Query) (conds : List String) (d : Decision) : Prop where
  flagged : ∀ u ∈ d.sentBefore, d.store.endorsedAt u = true
  lists : ∀ u qi, d.store.queries u = some qi → (r.checkConflict qi.query).isSome →
    u ∈ d.sentBefore → qi.state = .pending → u ∈ conds

/-- What holds of the task `tk` at index `i`. -/
structure TaskInv (σ : EndorsingNode) (i : Nat) (tk : Task) : Prop where
  stored : ∃ qi, σ.qs.queries tk.query.uuid = some qi ∧ qi.query = tk.query
  holder : tk.phase.Locked → σ.holder = some i
  decided : ∀ conds d, tk.phase.decided = some (conds, d) →
    Decided tk.query conds d ∧ d.sentBefore = σ.sentUuids ∧ Lives (fun _ => True) d.store σ.qs
  uuid : ∀ e, tk.phase.endorsement = some e → e.uuid = tk.query.uuid
  flag : ∀ e d, tk.phase = .broadcasting e d → σ.qs.endorsedAt tk.query.uuid = true

/-- What holds of a broadcast endorsement. -/
structure SentInv (σ : EndorsingNode) (b : Broadcast) : Prop where
  flagged : σ.qs.endorsedAt b.endorsement.uuid = true
  uuid : b.endorsement.uuid = b.query.uuid
  task : ∃ (j : Nat) (tk : Task), σ.tasks[j]? = some tk ∧ tk.query = b.query ∧ tk.phase = .done
  decided : Decided b.query b.endorsement.conditions b.decision
  lives : Lives (fun _ => True) b.decision.store σ.qs

/-- The invariant of the runs: the store stays well keyed, each task and each broadcast keeps what
its decision established, tasks have distinct queries, and each broadcast records as sent before
its decision exactly the endorsements broadcast before it. -/
structure Inv (σ : EndorsingNode) : Prop where
  wellKeyed : σ.qs.WellKeyed
  tasks : ∀ (i : Nat) (tk : Task), σ.tasks[i]? = some tk → TaskInv σ i tk
  distinct : ∀ (i j : Nat) (ti tj : Task), σ.tasks[i]? = some ti → σ.tasks[j]? = some tj →
    ti.query.uuid = tj.query.uuid → i = j
  sent : ∀ b ∈ σ.sent, SentInv σ b
  before : ∀ (n : Nat) (b : Broadcast), σ.sent[n]? = some b →
    b.decision.sentBefore = (σ.sent.take n).map fun b => b.endorsement.uuid

theorem Inv.init (t : Int) : Inv (EndorsingNode.init t) where
  wellKeyed _ _ h := by simp [EndorsingNode.init, QueryStore.init, newQueryStore] at h
  tasks _ _ h := by simp [EndorsingNode.init] at h
  distinct _ _ _ _ h := by simp [EndorsingNode.init] at h
  sent _ h := by simp [EndorsingNode.init] at h
  before _ _ h := by simp [EndorsingNode.init] at h

/-- `GetConflicting(r)` returns every pending, locally endorsed query of another uuid that
conflicts with `r`. -/
theorem mem_getConflicting {s : QueryStore} {order : List String} {r : Query} {u : String}
    {qi : QueryInfo} (ho : s.IsKeyOrder order) (hu : s.queries u = some qi) (hne : u ≠ r.uuid)
    (hp : qi.state = .pending) (he : qi.endorsed = true) (hc : (r.checkConflict qi.query).isSome) :
    qi.query ∈ s.getConflicting order r :=
  List.mem_filterMap.2 ⟨u, (ho.2 u).2 (by simp [hu]), by simp [hu, hne, hp, he, hc]⟩

theorem endorsedAt_endorse {s : QueryStore} {u : String} (h : (s.queries u).isSome) :
    (s.endorse u).endorsedAt u = true := by
  obtain ⟨qi, hq⟩ := Option.isSome_iff_exists.1 h
  simp [QueryStore.endorse, hq]

/-- A task before any decision: only the entry of its query and the mutex matter. -/
theorem TaskInv.of_undecided {σ : EndorsingNode} {i : Nat} {r : Query} {p : Phase}
    (hs : ∃ qi, σ.qs.queries r.uuid = some qi ∧ qi.query = r) (hl : p.Locked → σ.holder = some i)
    (hd : p.decided = none) (he : p.endorsement = none) : TaskInv σ i ⟨r, p⟩ where
  stored := hs
  holder := hl
  decided _ _ h := by simp [hd] at h
  uuid _ h := by simp [he] at h
  flag _ _ h := by simp only at h; simp [h, Phase.endorsement] at he

section
variable {σ : EndorsingNode}

/-- Only the holder of the mutex is past the lock. -/
theorem Inv.locked_unique (hI : Inv σ) {i j : Nat} {ti tj : Task} (hi : σ.tasks[i]? = some ti)
    (hti : ti.phase.Locked) (hj : σ.tasks[j]? = some tj) (htj : tj.phase.Locked) : i = j :=
  Option.some_injective _ (((hI.tasks i ti hi).holder hti).symm.trans ((hI.tasks j tj hj).holder htj))

/-- A task that has not returned has no endorsement broadcast yet. -/
theorem Inv.not_sent (hI : Inv σ) {i : Nat} {tk : Task} (hi : σ.tasks[i]? = some tk)
    (hd : tk.phase ≠ .done) : tk.query.uuid ∉ σ.sentUuids := by
  simp only [EndorsingNode.sentUuids, List.mem_map, not_exists, not_and]
  intro b hb hu
  obtain ⟨j, tj, hj, hq, hdone⟩ := (hI.sent b hb).task
  have hij := hI.distinct i j tk tj hi hj (by rw [hq, ← (hI.sent b hb).uuid, hu])
  subst hij
  rw [hi] at hj
  cases hj
  exact hd hdone

/-- The endorsements broadcast so far are flagged in the store. -/
theorem Inv.sent_flagged (hI : Inv σ) {u : String} (hu : u ∈ σ.sentUuids) :
    σ.qs.endorsedAt u = true := by
  obtain ⟨b, hb, rfl⟩ := List.mem_map.1 hu
  exact (hI.sent b hb).flagged

/-- The query of a broadcast endorsement is stored under its uuid. -/
theorem Inv.sent_stored (hI : Inv σ) {b : Broadcast} (hb : b ∈ σ.sent) :
    ∃ qi, σ.qs.queries b.query.uuid = some qi ∧ qi.query = b.query := by
  obtain ⟨j, tk, hj, hq, -⟩ := (hI.sent b hb).task
  exact hq ▸ (hI.tasks j tk hj).stored

/-- Another operation on the store keeps the invariant when it keeps the store well keyed, its
entries alive and its flags. -/
theorem Inv.withStore (hI : Inv σ) {s' : QueryStore} (hw : s'.WellKeyed)
    (hl : Lives (fun _ => True) σ.qs s') (hk : KeepsEndorsed σ.qs s') : Inv { σ with qs := s' } where
  wellKeyed := hw
  tasks i tk hi := by
    have h := hI.tasks i tk hi
    refine ⟨?_, h.holder, fun conds d hd => ?_, h.uuid, fun e d he => hk _ (h.flag e d he)⟩
    · obtain ⟨qi, hq, hqq⟩ := h.stored
      obtain ⟨qi', hq', hqq'⟩ := hl.query_stays hq
      exact ⟨qi', hq', hqq'.trans hqq⟩
    · obtain ⟨hdec, hs, hlv⟩ := h.decided conds d hd
      exact ⟨hdec, hs, hlv.trans hl⟩
  distinct := hI.distinct
  sent b hb := by
    have h := hI.sent b hb
    exact ⟨hk _ h.flagged, h.uuid, h.task, h.decided, h.lives.trans hl⟩
  before := hI.before

theorem Inv.storeOp (hI : Inv σ) {op : StoreOp} {fuel : Nat} {s' : QueryStore}
    (h : op.run fuel σ.qs = some s') : Inv { σ with qs := s' } :=
  hI.withStore (StoreOp.effect hI.wellKeyed h).wellKeyed
    ((StoreOp.lives hI.wellKeyed h).mono fun _ _ => trivial) (StoreOp.keepsEndorsed hI.wellKeyed h)

/-- Task `i` moves from a phase that has not returned to `p'`, and the mutex to `h'`. -/
theorem Inv.setTask (hI : Inv σ) {i : Nat} {r : Query} {p p' : Phase} {h' : Option Nat}
    (hi : σ.tasks[i]? = some ⟨r, p⟩) (hp : p ≠ .done)
    (hother : ∀ (j : Nat) (tk : Task), j ≠ i → σ.tasks[j]? = some tk → tk.phase.Locked → h' = some j)
    (hnew : TaskInv { σ with tasks := σ.tasks.set i ⟨r, p'⟩, holder := h' } i ⟨r, p'⟩) :
    Inv { σ with tasks := σ.tasks.set i ⟨r, p'⟩, holder := h' } where
  wellKeyed := hI.wellKeyed
  tasks j tk hj := by
    rcases getElem?_set_eq_some hj with ⟨rfl, rfl⟩ | ⟨hij, hj⟩
    · exact hnew
    · have h := hI.tasks j tk hj
      exact ⟨h.stored, fun hl => hother j tk (Ne.symm hij) hj hl, h.decided, h.uuid, h.flag⟩
  distinct j k tj tk hj hk hu := by
    have key : ∀ {j : Nat} {tj : Task}, (σ.tasks.set i ⟨r, p'⟩)[j]? = some tj →
        ∃ tj0 : Task, σ.tasks[j]? = some tj0 ∧ tj0.query = tj.query := fun hj => by
      rcases getElem?_set_eq_some hj with ⟨rfl, rfl⟩ | ⟨-, hj⟩
      exacts [⟨_, hi, rfl⟩, ⟨_, hj, rfl⟩]
    obtain ⟨tj0, hj0, hq0⟩ := key hj
    obtain ⟨tk0, hk0, hq1⟩ := key hk
    exact hI.distinct j k tj0 tk0 hj0 hk0 (by rw [hq0, hq1, hu])
  sent b hb := by
    have h := hI.sent b hb
    refine ⟨h.flagged, h.uuid, ?_, h.decided, h.lives⟩
    obtain ⟨j, tk, hj, hq, hdone⟩ := h.task
    have hij : i ≠ j := by
      rintro rfl
      rw [hi] at hj
      cases hj
      exact hp hdone
    exact ⟨j, tk, by rw [List.getElem?_set_ne hij]; exact hj, hq, hdone⟩
  before := hI.before

/-- Task `i`, holding the mutex, moves on to `p'` and keeps the mutex. -/
theorem Inv.advance (hI : Inv σ) {i : Nat} {r : Query} {p p' : Phase}
    (hi : σ.tasks[i]? = some ⟨r, p⟩) (hp : p.Locked)
    (hd : ∀ conds d, p'.decided = some (conds, d) →
      Decided r conds d ∧ d.sentBefore = σ.sentUuids ∧ Lives (fun _ => True) d.store σ.qs)
    (hu : ∀ e, p'.endorsement = some e → e.uuid = r.uuid)
    (hf : ∀ e d, p' = .broadcasting e d → σ.qs.endorsedAt r.uuid = true) :
    Inv { σ with tasks := σ.tasks.set i ⟨r, p'⟩ } :=
  hI.setTask hi (by rintro rfl; exact hp) (fun j tk _ hj hl => (hI.tasks j tk hj).holder hl)
    ⟨(hI.tasks i _ hi).stored, fun _ => (hI.tasks i _ hi).holder hp, hd, hu, hf⟩

/-- Task `i`, holding the mutex, releases it, and waits again or returns. -/
theorem Inv.release (hI : Inv σ) {i : Nat} {r : Query} {p p' : Phase}
    (hi : σ.tasks[i]? = some ⟨r, p⟩) (hp : p.Locked) (hp' : p' = .waiting ∨ p' = .done) :
    Inv { σ with tasks := σ.tasks.set i ⟨r, p'⟩, holder := none } := by
  rcases hp' with rfl | rfl <;>
    exact hI.setTask hi (by rintro rfl; exact hp)
      (fun j tk hji hj hl => absurd (hI.locked_unique hi hp hj hl).symm hji)
      (TaskInv.of_undecided (hI.tasks i _ hi).stored False.elim rfl rfl)

/-- A new task that is waiting, for a query stored under a uuid no task has. -/
theorem Inv.addTask (hI : Inv σ) {r : Query}
    (hstored : ∃ qi, σ.qs.queries r.uuid = some qi ∧ qi.query = r)
    (hfresh : ∀ (j : Nat) (tk : Task), σ.tasks[j]? = some tk → tk.query.uuid ≠ r.uuid) :
    Inv { σ with tasks := σ.tasks ++ [⟨r, .waiting⟩] } where
  wellKeyed := hI.wellKeyed
  tasks j tk hj := by
    rcases getElem?_concat_eq_some hj with hj | ⟨-, rfl⟩
    · have h := hI.tasks j tk hj
      exact ⟨h.stored, h.holder, h.decided, h.uuid, h.flag⟩
    · exact TaskInv.of_undecided hstored False.elim rfl rfl
  distinct j k tj tk hj hk hu := by
    rcases getElem?_concat_eq_some hj with hj | ⟨rfl, rfl⟩ <;>
      rcases getElem?_concat_eq_some hk with hk | ⟨rfl, rfl⟩
    · exact hI.distinct j k tj tk hj hk hu
    · exact absurd hu (hfresh j tj hj)
    · exact absurd hu.symm (hfresh k tk hk)
    · rfl
  sent b hb := by
    have h := hI.sent b hb
    obtain ⟨j, tk, hj, hq, hdone⟩ := h.task
    exact ⟨h.flagged, h.uuid, ⟨j, tk, List.getElem?_append_left
      (List.getElem?_eq_some_iff.mp hj).1 ▸ hj, hq, hdone⟩, h.decided, h.lives⟩
  before := hI.before

/-- A broadcast recorded while no task is past a decision, whose decision saw every endorsement
broadcast before it. -/
theorem Inv.addSent (hI : Inv σ) {b : Broadcast}
    (hnone : ∀ (i : Nat) (tk : Task), σ.tasks[i]? = some tk → tk.phase.decided = none)
    (hb : SentInv σ b) (hbefore : b.decision.sentBefore = σ.sentUuids) :
    Inv { σ with sent := σ.sent ++ [b] } where
  wellKeyed := hI.wellKeyed
  tasks i tk hi := by
    have h := hI.tasks i tk hi
    exact ⟨h.stored, h.holder, fun conds d hd => by simp [hnone i tk hi] at hd, h.uuid, h.flag⟩
  distinct := hI.distinct
  sent b' hb' := by
    rcases List.mem_append.mp hb' with hb' | hb'
    · have h := hI.sent b' hb'
      exact ⟨h.flagged, h.uuid, h.task, h.decided, h.lives⟩
    · obtain rfl : b' = b := by simpa using hb'
      exact ⟨hb.flagged, hb.uuid, hb.task, hb.decided, hb.lives⟩
  before n b' hn := by
    rcases getElem?_concat_eq_some hn with hn | ⟨rfl, rfl⟩
    · rw [hI.before n b' hn, List.take_append_of_le_length
        (List.getElem?_eq_some_iff.mp hn).1.le]
    · rw [hbefore, List.take_left]
      rfl

/-- What the decision of task `i` on `GetConflicting` establishes. -/
theorem Inv.decided_now (hI : Inv σ) {i : Nat} {r : Query} {p : Phase} {order : List String}
    (hi : σ.tasks[i]? = some ⟨r, p⟩) (hp : p ≠ .done) (ho : σ.qs.IsKeyOrder order) :
    Decided r ((σ.qs.getConflicting order r).map Query.uuid) ⟨σ.qs, σ.sentUuids⟩ where
  flagged _ hu := hI.sent_flagged hu
  lists u qi hq hc hu hpend := by
    have hne : u ≠ r.uuid := fun h => hI.not_sent hi hp (h ▸ hu)
    have he : qi.endorsed = true := by rw [← endorsedAt_of_eq hq]; exact hI.sent_flagged hu
    exact List.mem_map.2 ⟨qi.query, mem_getConflicting ho hq hne hpend he hc, hI.wellKeyed u qi hq⟩

/-- One step of the node keeps the invariant. -/
theorem Inv.step (hI : Inv σ) {me : String} {σ' : EndorsingNode} (h : Step me σ σ') : Inv σ' := by
  cases h with
  | store op fuel _ hr => exact hI.storeOp hr
  | @spawn s' r fuel ha =>
    obtain ⟨hfree, hstored⟩ := addQuery_inserted hI.wellKeyed ha
    have hrun : (StoreOp.addQuery r).run fuel σ.qs = some s' := by simp [StoreOp.run, ha]
    refine (hI.storeOp hrun).addTask hstored fun j tk hj hu => ?_
    obtain ⟨qi, hq, -⟩ := (hI.tasks j tk hj).stored
    rw [hu, hfree] at hq
    cases hq
  | lock i r hi hh =>
    refine hI.setTask hi nofun (fun j tk _ hj hl => ?_)
      (TaskInv.of_undecided (hI.tasks i _ hi).stored (fun _ => rfl) rfl rfl)
    rw [(hI.tasks j tk hj).holder hl] at hh
    cases hh
  | checkPass i r _ _ _ hi _ =>
    exact hI.advance hi trivial (fun _ _ h => nomatch h) (fun _ h => nomatch h) nofun
  | checkFail i r _ _ _ hi _ => exact hI.release hi trivial (.inr rfl)
  | decideEndorse i r order _ hi ho _ =>
    refine hI.advance hi trivial (fun conds d h => ?_) (fun _ h => nomatch h) nofun
    cases h
    exact ⟨hI.decided_now hi nofun ho, rfl, .refl _⟩
  | decideRetry i r _ _ hi _ _ => exact hI.release hi trivial (.inl rfl)
  | signOk i r _ _ _ hi =>
    exact hI.advance hi trivial (hI.tasks i _ hi).decided (fun _ h => by cases h; rfl) nofun
  | signFail i r _ _ hi => exact hI.release hi trivial (.inr rfl)
  | endorse i r e d hi =>
    have h1 := hI.storeOp (show (StoreOp.endorse r.uuid).run 0 σ.qs = some (σ.qs.endorse r.uuid)
      from rfl)
    have h := h1.tasks i _ hi
    obtain ⟨qi, hq, -⟩ := (hI.tasks i _ hi).stored
    exact h1.advance hi trivial h.decided h.uuid fun _ _ _ => endorsedAt_endorse (by simp [hq])
  | broadcast i r e d hi =>
    have h := hI.tasks i _ hi
    obtain ⟨hdec, hsb, hlv⟩ := h.decided _ _ rfl
    have hlt : i < σ.tasks.length := (List.getElem?_eq_some_iff.mp hi).1
    refine (hI.release hi trivial (.inr rfl)).addSent (fun j tk hj => ?_)
      ⟨?_, h.uuid e rfl, ⟨i, _, List.getElem?_set_self hlt, rfl, rfl⟩, hdec, hlv⟩ hsb
    · rcases getElem?_set_eq_some hj with ⟨-, rfl⟩ | ⟨hij, hj⟩
      · rfl
      · cases hd : tk.phase.decided with
        | none => rfl
        | some x => exact absurd (hI.locked_unique hi trivial hj (Phase.locked_of_decided hd)) hij
    · rw [h.uuid e rfl]
      exact h.flag e d rfl

/-- A later broadcast lists, among its conditions, a conflicting query endorsed earlier and still
pending now. -/
theorem Inv.listed_earlier (hI : Inv σ) {n1 n2 : Nat} {b1 b2 : Broadcast} (hlt : n1 < n2)
    (h1 : σ.sent[n1]? = some b1) (h2 : σ.sent[n2]? = some b2)
    (hc : (b2.query.checkConflict b1.query).isSome)
    (hp : σ.qs.stateOf b1.query.uuid = some .pending) :
    b1.query.uuid ∈ b2.endorsement.conditions := by
  have hb1 := hI.sent b1 (List.mem_iff_getElem?.2 ⟨n1, h1⟩)
  have hb2 := hI.sent b2 (List.mem_iff_getElem?.2 ⟨n2, h2⟩)
  have hbefore : b1.query.uuid ∈ b2.decision.sentBefore := by
    rw [hI.before n2 b2 h2, ← hb1.uuid]
    exact List.mem_map.2 ⟨b1, List.mem_iff_getElem?.2 ⟨n1, by rw [List.getElem?_take_of_lt hlt, h1]⟩,
      rfl⟩
  obtain ⟨qi, hq⟩ : ∃ qi, b2.decision.store.queries b1.query.uuid = some qi := by
    have := hb2.decided.flagged _ hbefore
    cases hq : b2.decision.store.queries b1.query.uuid
    · simp [endorsedAt, hq] at this
    · exact ⟨_, rfl⟩
  have hqq : qi.query = b1.query := by
    obtain ⟨qi', hq', hqq'⟩ := hb2.lives.query_stays hq
    obtain ⟨qi1, hq1, hqq1⟩ := hI.sent_stored (List.mem_iff_getElem?.2 ⟨n1, h1⟩)
    rw [hq1, Option.some.injEq] at hq'
    rw [← hqq', ← hq', hqq1]
  have hpend : qi.state = .pending := by
    by_contra hst
    obtain ⟨st', hst', hne⟩ := hb2.lives.not_pending_stays hst
      (show b2.decision.store.stateOf b1.query.uuid = some qi.state by simp [stateOf, hq])
    exact hne (Option.some.inj (hst'.symm.trans hp))
  exact hb2.decided.lists _ qi hq (hqq ▸ hc) hbefore hpend

end

/-- Every run from `NewEngine` keeps the invariant. -/
theorem Reachable.inv {t : Int} {me : String} {σ : EndorsingNode} (h : Reachable t me σ) : Inv σ := by
  induction h with
  | refl => exact Inv.init t
  | tail _ hs ih => exact ih.step hs

/-- In every state a run reaches, each endorsement the node has broadcast lists, among its
conditions, every query that conflicts with its own, whose endorsement the node broadcast before,
and that was pending in the store its decision read; so no two conflicting queries the node
endorsed without conditions are pending together. -/
theorem broadcast_lists_conflicting {t : Int} {me : String} {σ : EndorsingNode}
    (h : Reachable t me σ) :
    (∀ (n : Nat) (b : Broadcast), σ.sent[n]? = some b → ∀ u qi,
      b.decision.store.queries u = some qi → (b.query.checkConflict qi.query).isSome →
      u ∈ (σ.sent.take n).map (fun b => b.endorsement.uuid) → qi.state = .pending →
      u ∈ b.endorsement.conditions) ∧
    (∀ b1 ∈ σ.sent, ∀ b2 ∈ σ.sent, b1.endorsement.conditions = [] →
      b2.endorsement.conditions = [] → b1.query.uuid ≠ b2.query.uuid →
      (b1.query.checkConflict b2.query).isSome →
      ¬(σ.qs.stateOf b1.query.uuid = some .pending ∧ σ.qs.stateOf b2.query.uuid = some .pending)) := by
  have hI := h.inv
  refine ⟨fun n b hb u qi hq hc hu hp => ?_, fun b1 hb1 b2 hb2 hc1 hc2 hne hc ⟨hp1, hp2⟩ => ?_⟩
  · exact (hI.sent b (List.mem_iff_getElem?.2 ⟨n, hb⟩)).decided.lists u qi hq hc
      (hI.before n b hb ▸ hu) hp
  · obtain ⟨n1, h1⟩ := List.mem_iff_getElem?.1 hb1
    obtain ⟨n2, h2⟩ := List.mem_iff_getElem?.1 hb2
    rcases Nat.lt_trichotomy n1 n2 with hlt | rfl | hlt
    · simpa [hc2] using hI.listed_earlier hlt h1 h2 (Query.checkConflict_isSome_comm _ _ ▸ hc) hp1
    · rw [h1, Option.some.injEq] at h2
      exact hne (h2 ▸ rfl)
    · simpa [hc1] using hI.listed_earlier hlt h2 h1 hc hp2

/-- Mutual exclusion of `endorsementMutex`: in every state a run reaches, at most one task is
past the lock, and it is the holder. -/
theorem endorsementMutex_exclusive {t : Int} {me : String} {σ : EndorsingNode} (h : Reachable t me σ)
    {i j : Nat} {ti tj : Task} (hi : σ.tasks[i]? = some ti) (hj : σ.tasks[j]? = some tj)
    (hti : ti.phase.Locked) (htj : tj.phase.Locked) : i = j ∧ σ.holder = some i :=
  ⟨h.inv.locked_unique hi hti hj htj, (h.inv.tasks i ti hi).holder hti⟩

/-- The node broadcasts at most one endorsement of each query. -/
theorem endorses_each_query_once {t : Int} {me : String} {σ : EndorsingNode}
    (h : Reachable t me σ) : (σ.sent.map fun b => b.endorsement.uuid).Nodup := by
  induction h with
  | refl => exact List.nodup_nil
  | @tail σ0 _ hr hs ih =>
    have hI : Inv σ0 := Reachable.inv hr
    cases hs with
    | broadcast i r e d hi =>
      refine List.map_append _ _ _ ▸ List.nodup_append.2 ⟨ih, List.nodup_singleton _, ?_⟩
      intro u hu hu'
      obtain rfl : u = e.uuid := List.mem_singleton.1 hu'
      rw [(hI.tasks i _ hi).uuid e rfl] at hu
      exact hI.not_sent hi nofun hu
    | _ => exact ih

/-- A query with one operation and a deadline one second after the epoch. -/
def deadlineQuery : Query := { opsQuery "r" "p" [⟨"k", .set, [1]⟩] with deadline := some ⟨1, 0⟩ }

/-- A query that sets the same key as `deadlineQuery` to another value, so that the two conflict,
with a deadline three seconds after the epoch. -/
def laterQuery : Query := { opsQuery "s" "p" [⟨"k", .set, [2]⟩] with deadline := some ⟨3, 0⟩ }

/-- A run of the node `n` at quorum `1`: the task of `deadlineQuery` takes the mutex and endorses it
without conditions; at two seconds, once `deadlineQuery` has expired, the task of the conflicting
`laterQuery` endorses it on the condition `deadlineQuery`. Also the state of that run where the
first task holds the mutex. -/
theorem conflicting_queries_run :
    (∃ σ : EndorsingNode, Reachable 1 "n" σ ∧ σ.tasks[0]? = some ⟨deadlineQuery, .checking⟩) ∧
      ∃ σ : EndorsingNode, Reachable 1 "n" σ ∧
        σ.sent.map (fun b => (b.query, b.endorsement.conditions)) =
          [(deadlineQuery, []), (laterQuery, ["r"])] := by
  have hrun : ((QueryStore.init 1).addQuery 1 deadlineQuery).bind (fun p1 =>
      ((p1.2.endorse "r").addQuery 1 laterQuery).map fun p2 =>
        let c1 := p1.2.getConflicting ["r"] deadlineQuery
        let c2 := p2.2.getConflicting ["r", "s"] laterQuery
        ((p1.1, p2.1), ((p1.2.queries "r").isSome, c1.map Query.uuid, endorses c1 0),
          (["r", "s"].all (fun u => (p2.2.queries u).isSome), c2.map Query.uuid,
            endorses c2 2000000000))) =
      some ((true, true), (true, [], true), (true, ["r"], true)) := by
    decide
  obtain ⟨⟨_, s1⟩, hs1, hrun⟩ := Option.bind_eq_some.mp hrun
  obtain ⟨⟨_, s2⟩, hs2, h⟩ := Option.map_eq_some'.mp hrun
  simp only [Prod.mk.injEq] at h
  obtain ⟨⟨rfl, rfl⟩, ⟨hin1, hc1, he1⟩, hin2, hc2, he2⟩ := h
  have hkeys1 : s1.IsKeyOrder ["r"] := by
    have hk := keysIn_runOps
      (show runOps 1 (init 1) [.addQuery deadlineQuery] = some s1 by simp [runOps, StoreOp.run, hs1])
    refine ⟨List.nodup_singleton _, fun u => ⟨fun hu => ?_, hk u⟩⟩
    rwa [List.mem_singleton.1 hu]
  have hkeys2 : s2.IsKeyOrder ["r", "s"] := by
    have hk := keysIn_runOps (show runOps 1 (init 1)
      [.addQuery deadlineQuery, .endorse "r", .addQuery laterQuery] = some s2 by
        simp [runOps, StoreOp.run, hs1, hs2])
    exact ⟨by decide, fun u => ⟨fun hu => List.all_eq_true.1 hin2 u hu, hk u⟩⟩
  have h0 : Relation.ReflTransGen (Step "n") (EndorsingNode.init 1) (EndorsingNode.init 1) := .refl
  have hlock := (h0.tail (Step.spawn deadlineQuery 1 hs1)).tail (Step.lock 0 deadlineQuery rfl rfl)
  have hrun1 := ((((hlock.tail
    (Step.checkPass 0 deadlineQuery 0 (fun _ => none) (fun _ => none) rfl (by decide))).tail
    (Step.decideEndorse 0 deadlineQuery ["r"] 0 rfl hkeys1 he1)).tail
    (Step.signOk 0 deadlineQuery _ _ [] rfl)).tail
    (Step.endorse 0 deadlineQuery _ _ rfl)).tail
    (Step.broadcast 0 deadlineQuery _ _ rfl)
  obtain ⟨sent1, hr1, hsent1⟩ : ∃ sent1 : List Broadcast,
      Reachable 1 "n" ⟨s1.endorse "r", [⟨deadlineQuery, .done⟩], none, sent1⟩ ∧
        sent1.map (fun b => (b.query, b.endorsement.conditions)) = [(deadlineQuery, [])] :=
    ⟨_, hrun1, by simp [EndorsingNode.init, hc1]⟩
  have hrun2 := ((((((hr1.tail (Step.spawn laterQuery 1 hs2)).tail
    (Step.lock 1 laterQuery rfl rfl)).tail
    (Step.checkPass 1 laterQuery 2000000000 (fun _ => none) (fun _ => none) rfl (by decide))).tail
    (Step.decideEndorse 1 laterQuery ["r", "s"] 2000000000 rfl hkeys2 he2)).tail
    (Step.signOk 1 laterQuery _ _ [] rfl)).tail
    (Step.endorse 1 laterQuery _ _ rfl)).tail
    (Step.broadcast 1 laterQuery _ _ rfl)
  exact ⟨⟨_, hlock, rfl⟩, _, hrun2, by simp [hsent1, hc2]⟩

theorem broadcast_lists_conflicting_run :
    (deadlineQuery.checkConflict laterQuery).isSome ∧ ∃ σ : EndorsingNode, Reachable 1 "n" σ ∧
    σ.sent.map (fun b => (b.query, b.endorsement.conditions)) =
      [(deadlineQuery, []), (laterQuery, ["r"])] ∧
    (∀ (n : Nat) (b : Broadcast), σ.sent[n]? = some b → ∀ u qi,
      b.decision.store.queries u = some qi → (b.query.checkConflict qi.query).isSome →
      u ∈ (σ.sent.take n).map (fun b => b.endorsement.uuid) → qi.state = .pending →
      u ∈ b.endorsement.conditions) ∧
    (∀ b1 ∈ σ.sent, ∀ b2 ∈ σ.sent, b1.endorsement.conditions = [] →
      b2.endorsement.conditions = [] → b1.query.uuid ≠ b2.query.uuid →
      (b1.query.checkConflict b2.query).isSome →
      ¬(σ.qs.stateOf b1.query.uuid = some .pending ∧ σ.qs.stateOf b2.query.uuid = some .pending)) :=
  let ⟨σ, hr, hsent⟩ := conflicting_queries_run.2
  ⟨by decide, σ, hr, hsent, broadcast_lists_conflicting hr⟩

theorem endorsementMutex_exclusive_checking :
    ∃ σ : EndorsingNode, Reachable 1 "n" σ ∧ σ.tasks[0]? = some ⟨deadlineQuery, .checking⟩ ∧
      (0 = 0 ∧ σ.holder = some 0) :=
  let ⟨σ, hr, h0⟩ := conflicting_queries_run.1
  ⟨σ, hr, h0, endorsementMutex_exclusive hr h0 h0 trivial trivial⟩

theorem endorses_each_query_once_run :
    (deadlineQuery.checkConflict laterQuery).isSome ∧ ∃ σ : EndorsingNode, Reachable 1 "n" σ ∧
      σ.sent.map (fun b => (b.query, b.endorsement.conditions)) =
        [(deadlineQuery, []), (laterQuery, ["r"])] ∧
      (σ.sent.map fun b => b.endorsement.uuid).Nodup :=
  let ⟨σ, hr, hsent⟩ := conflicting_queries_run.2
  ⟨by decide, σ, hr, hsent, endorses_each_query_once hr⟩

end Endorsing

end PnyxDB.Consensus
