import PnyxDB.Consensus.Structures
import Mathlib.Logic.Function.Basic
import Mathlib.Logic.Relation
import Mathlib.Data.List.Nodup

/-!
The query store of `consensus/query_store.go`: the dependency graph of the pending queries, their
endorsements, and the memoised applicability predicate.

The store is threaded as an explicit state. A Go map is a function to `Option`; a missing key of
`pendingDependencies` reads as the nil slice `[]`, and `addToSet` never stores an empty list, so a
key is present exactly when its list is non-empty. The mutual recursions of `isApplicable` and
`cascadeMark` do not terminate on every store, so both take a fuel argument and return `none` when it
runs out; each Go call is one unit of fuel. A panic of the Go code is `none` as well.

`queryInfo` and `endorsementInfo` are copied by value, but their `Endorsements` slice shares its
backing array with the map entry it was read from: a write `q.Endorsements[i] = e` is at once visible
in the map. The loop of `isApplicable` therefore reads and writes the endorsements of the stored
entry, while its deferred write puts back the fields of the copy taken when the call started.
-/

namespace PnyxDB.Consensus

inductive QueryState
  | pending | committed | dropped
  deriving DecidableEq, Repr

/-- `cachedInfo`: a memoised boolean and whether it is fresh. -/
structure CachedInfo where
  result : Bool
  fresh : Bool
  deriving DecidableEq, Repr

/-- The zero `cachedInfo{}`: stale. -/
def CachedInfo.zero : CachedInfo := ⟨false, false⟩

/-- `cachedInfo.Set(r)`. -/
def CachedInfo.set (r : Bool) : CachedInfo := ⟨r, true⟩

/-- `cachedInfo.Mark()`. -/
def CachedInfo.mark (ci : CachedInfo) : CachedInfo := { ci with fresh := false }

@[simp] theorem CachedInfo.set_fresh (r : Bool) : (CachedInfo.set r).fresh = true := rfl
@[simp] theorem CachedInfo.set_result (r : Bool) : (CachedInfo.set r).result = r := rfl
@[simp] theorem CachedInfo.mark_fresh (ci : CachedInfo) : ci.mark.fresh = false := rfl
@[simp] theorem CachedInfo.mark_result (ci : CachedInfo) : ci.mark.result = ci.result := rfl
theorem CachedInfo.mark_of_stale {ci : CachedInfo} (h : ci.fresh = false) : ci.mark = ci := by
  cases ci
  simp_all [CachedInfo.mark]
@[simp] theorem CachedInfo.zero_fresh : CachedInfo.zero.fresh = false := rfl

structure EndorsementInfo where
  endorsement : Endorsement
  cached : CachedInfo
  deriving DecidableEq, Repr

structure QueryInfo where
  query : Query
  endorsements : List EndorsementInfo
  dependents : List String
  state : QueryState
  endorsed : Bool
  applied : Bool
  cached : CachedInfo
  deriving DecidableEq, Repr

/-- `qi.Uuid`, read through the embedded query. -/
def QueryInfo.uuid (qi : QueryInfo) : String := qi.query.uuid

structure QueryStore where
  queries : String → Option QueryInfo
  pendingDependencies : String → List String
  pendingEndorsements : List Endorsement
  threshold : Int

/-- `newQueryStore()`; `NewEngine` then sets the threshold to the quorum. -/
def newQueryStore : QueryStore := ⟨fun _ => none, fun _ => [], [], 0⟩

/-- The store `NewEngine` builds for quorum `t`. -/
def QueryStore.init (t : Int) : QueryStore := { newQueryStore with threshold := t }

/-! ### Writing the maps -/

/-- `qs.queries[u] = qi`. -/
def QueryStore.setQuery (s : QueryStore) (u : String) (qi : QueryInfo) : QueryStore :=
  { s with queries := Function.update s.queries u (some qi) }

@[simp] theorem QueryStore.setQuery_queries (s : QueryStore) (u v : String) (qi : QueryInfo) :
    (s.setQuery u qi).queries v = if v = u then some qi else s.queries v := by
  simp only [setQuery, Function.update_apply]

@[simp] theorem QueryStore.setQuery_pendingDependencies (s : QueryStore) (u : String)
    (qi : QueryInfo) : (s.setQuery u qi).pendingDependencies = s.pendingDependencies := rfl

@[simp] theorem QueryStore.setQuery_pendingEndorsements (s : QueryStore) (u : String)
    (qi : QueryInfo) : (s.setQuery u qi).pendingEndorsements = s.pendingEndorsements := rfl

@[simp] theorem QueryStore.setQuery_setQuery (s : QueryStore) (u : String) (qi qi' : QueryInfo) :
    (s.setQuery u qi).setQuery u qi' = s.setQuery u qi' := by
  simp only [setQuery, Function.update_idem]

@[simp] theorem QueryStore.setQuery_threshold (s : QueryStore) (u : String) (qi : QueryInfo) :
    (s.setQuery u qi).threshold = s.threshold := rfl

/-- The endorsements stored for `u` (none for an unknown uuid). -/
def QueryStore.endorsementsOf (s : QueryStore) (u : String) : List EndorsementInfo :=
  match s.queries u with
  | some qi => qi.endorsements
  | none => []

/-- `q.Endorsements[i] = e`, through the backing array shared with the entry of `u`. -/
def QueryStore.setEndorsement (s : QueryStore) (u : String) (i : Nat) (e : EndorsementInfo) :
    QueryStore :=
  match s.queries u with
  | some qi => s.setQuery u { qi with endorsements := qi.endorsements.set i e }
  | none => s

/-- `addToSet`. -/
def addToSet (set : List String) (value : String) : List String :=
  if value ∈ set then set else set ++ [value]

@[simp] theorem mem_addToSet {set : List String} {value a : String} :
    a ∈ addToSet set value ↔ a ∈ set ∨ a = value := by
  unfold addToSet
  split <;> simp_all [or_iff_left_of_imp]

theorem nodup_addToSet {l : List String} (h : l.Nodup) (v : String) : (addToSet l v).Nodup := by
  unfold addToSet
  split
  · exact h
  · exact List.nodup_append.mpr ⟨h, List.nodup_singleton v, by simpa⟩

/-! ### Insertion -/

/-- One iteration of the condition loop of `addEndorsementInternal`: record that `uuid` depends on
`c`, in the entry of `c` or, while `c` is unknown, in `pendingDependencies`. -/
def QueryStore.addDependency (s : QueryStore) (uuid c : String) : QueryStore :=
  match s.queries c with
  | some qic => s.setQuery c { qic with dependents := addToSet qic.dependents uuid }
  | none => { s with pendingDependencies :=
      Function.update s.pendingDependencies c (addToSet (s.pendingDependencies c) uuid) }

/-- `addEndorsementInternal(e, qi)`: whether `e` was appended, the updated copy of `qi`, and the
store with the new dependency edges. The copy is not written back: the caller does that. -/
def QueryStore.addEndorsementInternal (s : QueryStore) (e : Endorsement) (qi : QueryInfo) :
    Bool × QueryInfo × QueryStore :=
  if qi.endorsements.any fun e2 => e.emitter = e2.endorsement.emitter then (false, qi, s)
  else (true, { qi with endorsements := qi.endorsements ++ [⟨e, CachedInfo.zero⟩] },
    e.conditions.foldl (fun s c => s.addDependency qi.uuid c) s)

/-- Mark every endorsement that lists `c` among its conditions. -/
def markConditioned (c : String) (es : List EndorsementInfo) : List EndorsementInfo :=
  es.map fun e => if c ∈ e.endorsement.conditions then { e with cached := e.cached.mark } else e

/-- One iteration of the dependents loop of `cascadeMark` from `x`: mark the endorsements of the
dependent `uuid` that are conditioned on `x`, then cascade into it. -/
def cascadeDependent (cascade : QueryStore → QueryInfo → Option QueryStore) (x : String)
    (s : QueryStore) (uuid : String) : Option QueryStore :=
  match s.queries uuid with
  | none => some s
  | some qid => cascade s { qid with endorsements := markConditioned x qid.endorsements }

/-- `cascadeMark(qi)`: store `qi` marked stale and, if it was fresh, mark the endorsements of its
dependents that are conditioned on it and cascade into those dependents. -/
def cascadeMark : Nat → QueryStore → QueryInfo → Option QueryStore
  | 0, _, _ => none
  | n + 1, s, qi =>
    let s := s.setQuery qi.uuid { qi with cached := qi.cached.mark }
    if !qi.cached.fresh then some s
    else qi.dependents.foldlM (cascadeDependent (cascadeMark n) qi.uuid) s

/-! ### Applicability -/

/-- The condition loop of `isApplicable`: an endorsement is valid when none of its conditions is
applicable; the loop stops at the first applicable one. -/
def conditionsValid (isApp : QueryStore → String → Option (Bool × QueryStore)) :
    QueryStore → List String → Option (Bool × QueryStore)
  | s, [] => some (true, s)
  | s, c :: cs => do
    let (r, s) ← isApp s c
    if r then some (false, s) else conditionsValid isApp s cs

/-- The endorsement loop of `isApplicable uuid` over the indices `is`, counting in `valid` the
endorsements whose (possibly recomputed) cache says valid. -/
def endorsementsLoop (isApp : QueryStore → String → Option (Bool × QueryStore)) (uuid : String) :
    List Nat → Nat → QueryStore → Option (Nat × QueryStore)
  | [], valid, s => some (valid, s)
  | i :: is, valid, s =>
    match (s.endorsementsOf uuid)[i]? with
    | none => endorsementsLoop isApp uuid is valid s
    | some e =>
      if e.cached.fresh then
        endorsementsLoop isApp uuid is (if e.cached.result then valid + 1 else valid) s
      else do
        let (ok, s) ← conditionsValid isApp s e.endorsement.conditions
        endorsementsLoop isApp uuid is (if ok then valid + 1 else valid)
          (s.setEndorsement uuid i { e with cached := CachedInfo.set ok })

/-- `isApplicable(uuid)`. -/
def isApplicable : Nat → QueryStore → String → Option (Bool × QueryStore)
  | 0, _, _ => none
  | n + 1, s, uuid =>
    match s.queries uuid with
    | none => some (false, s)
    | some q =>
      if q.state = .dropped then some (false, s)
      else if q.state = .committed then some (true, s)
      else if q.cached.fresh then some (q.cached.result, s)
      else if (q.endorsements.length : Int) < s.threshold then
        some (false, s.setQuery uuid { q with cached := CachedInfo.set false })
      else do
        let (valid, s') ←
          endorsementsLoop (isApplicable n) uuid (List.range q.endorsements.length) 0 s
        let result := decide (s.threshold ≤ valid)
        some (result, s'.setQuery uuid
          { q with endorsements := s'.endorsementsOf uuid, cached := CachedInfo.set result })

/-! ### Operations -/

/-- One iteration of the loop of `AddQuery` over the parked endorsements: those for `uuid` are
added to the new entry, the others stay parked. -/
def hydrate (uuid : String) (acc : QueryInfo × QueryStore) (pe : Endorsement) :
    QueryInfo × QueryStore :=
  if pe.uuid ≠ uuid then acc else (acc.2.addEndorsementInternal pe acc.1).2

/-- `AddQuery(q)`: whether `q` was inserted. The parked endorsements of `q` are re-injected in
arrival order, the parked dependencies become its dependents, and the new entry is set fresh so
that the cascade runs. -/
def QueryStore.addQuery (fuel : Nat) (s : QueryStore) (q : Query) : Option (Bool × QueryStore) :=
  match s.queries q.uuid with
  | some _ => some (false, s)
  | none =>
    let (qi, s') := s.pendingEndorsements.foldl (hydrate q.uuid)
      (⟨q, [], [], .pending, false, false, CachedInfo.zero⟩, s)
    let qi := { qi with dependents := s'.pendingDependencies q.uuid, cached := CachedInfo.set false }
    let s' := { s' with pendingDependencies := Function.update s'.pendingDependencies q.uuid [] }
    (cascadeMark fuel s' qi).map fun s'' =>
      (true, { s'' with pendingEndorsements := s.pendingEndorsements.filter (·.uuid ≠ q.uuid) })

/-- `AddEndorsement(e)`: `(pending, inserted)`. -/
def QueryStore.addEndorsement (fuel : Nat) (s : QueryStore) (e : Endorsement) :
    Option ((Bool × Bool) × QueryStore) :=
  match s.queries e.uuid with
  | none => some ((true, false), { s with pendingEndorsements := s.pendingEndorsements ++ [e] })
  | some qi =>
    let (inserted, qi, s) := s.addEndorsementInternal e qi
    (cascadeMark fuel s qi).map fun s => ((false, inserted), s)

/-- `drop(uuid)`. For an unknown uuid the Go code builds the zero `queryInfo{}`, whose nil query
stops `cascadeMark` at its first line: nothing is stored. -/
def QueryStore.drop (fuel : Nat) (s : QueryStore) (uuid : String) : Option QueryStore :=
  match s.queries uuid with
  | none => some s
  | some qi => cascadeMark fuel s { qi with state := .dropped, cached := CachedInfo.set false }

/-- `commit(uuid)`: mark committed, then drop every dependent. `CheckState` commits only a uuid that
`isApplicable` found applicable, hence a known one; the zero-value branch of the Go code is not
reached and leaves the store as it is here. -/
def QueryStore.commit (fuel : Nat) (s : QueryStore) (uuid : String) : Option QueryStore :=
  match s.queries uuid with
  | none => some s
  | some qi =>
    qi.dependents.foldlM (fun s dep => s.drop fuel dep)
      (s.setQuery uuid { qi with state := .committed })

/-- `checkSpeculativeState(uuid, applicable)`: its two branches set `Applied` to `applicable`. -/
def QueryStore.checkSpeculativeState (s : QueryStore) (uuid : String) (applicable : Bool) :
    QueryStore :=
  match s.queries uuid with
  | none => s
  | some qi => s.setQuery uuid { qi with applied := applicable }

/-- `deltaOld`, one second. -/
def deltaOld : Int := 1000000000

/-- The condition loop of the counting loop of `CheckState`: whether every condition is dropped
("definitely valid"), with the checkpoint candidates found on the way. The loop stops at the first
condition that is unknown or not dropped; it is a candidate when unknown, or when it is not
applicable and expired for `deltaOld`. -/
def QueryStore.definitelyValid (fuel : Nat) (now : Int) :
    QueryStore → List String → List String → Option ((Bool × List String) × QueryStore)
  | s, [], cp => some ((true, cp), s)
  | s, c :: cs, cp =>
    match s.queries c with
    | none => some ((false, addToSet cp c), s)
    | some qi =>
      if qi.state = .dropped then s.definitelyValid fuel now cs cp
      else (isApplicable fuel s c).map fun (app, s) =>
        ((false, if !app && qi.query.expiredSince now deltaOld then addToSet cp c else cp), s)

/-- The counting loop of `CheckState` over the endorsements of the query. -/
def QueryStore.countDefinitelyValid (fuel : Nat) (now : Int) :
    QueryStore → List EndorsementInfo → Nat → List String → Option ((Nat × List String) × QueryStore)
  | s, [], n, cp => some ((n, cp), s)
  | s, e :: es, n, cp => do
    let ((dv, cp), s) ← s.definitelyValid fuel now e.endorsement.conditions cp
    s.countDefinitelyValid fuel now es (if dv then n + 1 else n) cp

/-- `CheckState(uuid)`: `(commit, checkpoint)`. -/
def QueryStore.checkState (fuel : Nat) (now : Int) (s : QueryStore) (uuid : String) :
    Option ((Bool × List String) × QueryStore) := do
  let (applicable, s) ← isApplicable fuel s uuid
  let s := s.checkSpeculativeState uuid applicable
  if !applicable then return ((false, []), s)
  match s.queries uuid with
  | none => return ((false, []), s)
  | some qi =>
    if qi.state = .committed then return ((false, []), s)
    let ((n, cp), s) ← s.countDefinitelyValid fuel now qi.endorsements 0 []
    if s.threshold ≤ n then
      let s ← s.commit fuel uuid
      return ((true, cp), s)
    return ((false, cp), s)

/-- A checkpoint proof, the `Proof` message: a query or an endorsement. -/
inductive Proof
  | query (q : Query)
  | endorsement (e : Endorsement)
  deriving DecidableEq, Repr

/-- `CheckpointChoice(queries)`: `(choice, proofs)`; the first applicable uuid is a veto. -/
def QueryStore.checkpointChoice (fuel : Nat) :
    QueryStore → List String → Option ((Bool × List Proof) × QueryStore)
  | s, [] => some ((true, []), s)
  | s, uuid :: us => do
    let (app, s) ← isApplicable fuel s uuid
    if app then
      match s.queries uuid with
      | some qi => return ((false, .query qi.query ::
          qi.endorsements.map fun ei => .endorsement ei.endorsement), s)
      | none => return ((false, []), s)
    s.checkpointChoice fuel us

/-- `CheckpointDrop(queries)`. -/
def QueryStore.checkpointDrop (fuel : Nat) (s : QueryStore) (uuids : List String) :
    Option QueryStore :=
  uuids.foldlM (fun s uuid => s.drop fuel uuid) s

/-- `Endorse(uuid)`: the query was endorsed locally. -/
def QueryStore.endorse (s : QueryStore) (uuid : String) : QueryStore :=
  match s.queries uuid with
  | none => s
  | some qi => s.setQuery uuid { qi with endorsed := true }

/-- `PendingQueries()`, visiting the map in the order `order`. -/
def QueryStore.pendingQueries (s : QueryStore) (order : List String) : List String :=
  order.filterMap fun u => (s.queries u).bind fun qi =>
    if qi.state = .pending then some qi.uuid else none

/-- `OutdatedQueries()`, visiting the map in the order `order`: the pending queries that are not
applicable and whose deadline passed ten seconds ago. `GetTimeout` panics on a query without a
deadline. -/
def QueryStore.outdatedQueries (fuel : Nat) (now : Int) :
    QueryStore → List String → Option (List String × QueryStore)
  | s, [] => some ([], s)
  | s, u :: us =>
    match s.queries u with
    | none => s.outdatedQueries fuel now us
    | some qi =>
      if qi.state ≠ .pending then s.outdatedQueries fuel now us
      else do
        let (app, s) ← isApplicable fuel s qi.uuid
        if app then s.outdatedQueries fuel now us
        else
          let t ← qi.query.getTimeout now
          let (out, s) ← s.outdatedQueries fuel now us
          return (if t < -10000000000 then qi.uuid :: out else out, s)

/-- `GetConflicting(q)`, visiting the map in the order `order`: the pending, locally endorsed
queries other than `q` that conflict with it. -/
def QueryStore.getConflicting (s : QueryStore) (order : List String) (q : Query) : List Query :=
  order.filterMap fun u => (s.queries u).bind fun q2 =>
    if u ≠ q.uuid ∧ q2.state = .pending ∧ q2.endorsed = true ∧ (q.checkConflict q2.query).isSome
    then some q2.query else none

/-! ### Runs of the store

Every operation holds the store's write lock (or its read lock, for those that only read), so a run
of the store is a sequence of operations. -/

inductive StoreOp
  | addQuery (q : Query)
  | addEndorsement (e : Endorsement)
  | checkState (uuid : String) (now : Int)
  | checkpointChoice (uuids : List String)
  | checkpointDrop (uuids : List String)
  | endorse (uuid : String)
  | outdatedQueries (order : List String) (now : Int)

/-- The store after `op`, or `none` when the operation does not return within `fuel`. -/
def StoreOp.run (fuel : Nat) (s : QueryStore) : StoreOp → Option QueryStore
  | .addQuery q => (s.addQuery fuel q).map Prod.snd
  | .addEndorsement e => (s.addEndorsement fuel e).map Prod.snd
  | .checkState uuid now => (s.checkState fuel now uuid).map Prod.snd
  | .checkpointChoice uuids => (s.checkpointChoice fuel uuids).map Prod.snd
  | .checkpointDrop uuids => s.checkpointDrop fuel uuids
  | .endorse uuid => some (s.endorse uuid)
  | .outdatedQueries order now => (s.outdatedQueries fuel now order).map Prod.snd

/-- `order` visits every key of the query map once: a possible iteration order of Go's map. -/
def QueryStore.IsKeyOrder (s : QueryStore) (order : List String) : Prop :=
  order.Nodup ∧ ∀ u, u ∈ order ↔ (s.queries u).isSome

/-- An operation is possible in `s`; only map iterations constrain their argument. -/
def StoreOp.Admissible (s : QueryStore) : StoreOp → Prop
  | .outdatedQueries order _ => s.IsKeyOrder order
  | _ => True

/-- One operation of the store that returns. -/
inductive StoreOp.Step : QueryStore → QueryStore → Prop
  | mk {s s' : QueryStore} (op : StoreOp) (fuel : Nat) :
      op.Admissible s → op.run fuel s = some s' → StoreOp.Step s s'

/-- The stores reachable from `NewEngine`'s store of quorum `t` by operations that return. -/
def QueryStore.Reachable (t : Int) (s : QueryStore) : Prop :=
  Relation.ReflTransGen StoreOp.Step (QueryStore.init t) s

end PnyxDB.Consensus
