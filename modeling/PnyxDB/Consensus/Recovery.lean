import PnyxDB.Storage.Bolt
import PnyxDB.Network.Recovery

/-!
Key recovery from end to end. `Engine.recoveryHandler` answers a request with `Get` of the key;
the stream handler of `AcceptRecovery` writes the answer back only when the handler returned no
error; `RequestRecovery` collects a quorum of answers and checks that they agree; and
`recoveryWorker` stores the response it accepted with `Set`.

* `recovery_copies_honest_entry` — when the accepted quorum holds the answer of one peer that
  answers from its own store, the worker writes that peer's entry, byte for byte, and no other
  key. The other answers must agree with it, so faulty peers can stop a recovery but not steer it.
* `recovery_blocked_by_missing_key` — a peer that does not hold the key (or holds fewer than
  `VersionBytes` bytes under it) does not answer, and a recovery whose quorum picks it fails and
  writes nothing.
* `recovery_without_quorum_erases` — on a network with no recovery quorum, `RequestRecovery`
  returns nil and no error, and the worker overwrites the key with the empty value and a version of
  `VersionBytes` zero bytes. The server sets a positive quorum (3 by default), so only a network
  built with a zero `RecoveryQuorum` does this.

The queue `pendingRecovery` and the retries that go back to it are left out: a turn of the worker
is one key with what `RequestRecovery` returned for it.
-/

namespace PnyxDB.Consensus.Engine

open PnyxDB.Consensus PnyxDB.Storage PnyxDB.Storage.Bolt PnyxDB.Network.Recovery

/-- `Engine.recoveryHandler(req)`: `Get` of the requested key, returned as a response with the
error of `Get`. -/
def recoveryHandler (b : Bucket) (fault : String → Option String) (key : String) :
    RecoveryResponse × Option String :=
  let r := Bolt.get b fault key
  (⟨key, r.version, r.value⟩, r.err)

/-- What the stream handler of `AcceptRecovery` writes back to a request for `key`: the handler's
response if it returned no error, and nothing otherwise. Packing and writing the response are taken
to succeed. -/
def acceptRecovery (b : Bucket) (fault : String → Option String) (key : String) :
    Option RecoveryResponse :=
  match recoveryHandler b fault key with
  | (res, none) => some res
  | (_, some _) => none

/-- One turn of `recoveryWorker` on a key taken from `pendingRecovery`, given what
`RequestRecovery` returned: the bucket after it and whether the key was recovered (`false`: it goes
back to the queue), or `none` if `Set` panicked. An error writes nothing; a response, nil when the
network has no recovery quorum, is stored by `Set` with its data and version (`GetData` and
`GetVersion` of nil are nil). -/
def recoverKey (put : String → Bytes → Option String) (b : Bucket) (key : String)
    (res : Except String (Option RecoveryResponse)) : Option (Bucket × Bool) :=
  match res with
  | .error _ => some (b, false)
  | .ok r =>
    match Bolt.set put b key ((r.map RecoveryResponse.data).getD []) (r.bind RecoveryResponse.version) with
    | .committed b' => some (b', true)
    | .rolledBack _ => some (b, false)
    | .panicked => none

/-- A peer answers for a key it holds at least `VersionBytes` bytes under, and its answer makes
those bytes again when `SetBatch` puts it. -/
theorem entry_of_acceptRecovery {b : Bucket} {fault : String → Option String} {key : String}
    {a : RecoveryResponse} (h : acceptRecovery b fault key = some a) :
    ∃ data, b key = some data ∧ entry a.data a.version = some data := by
  unfold acceptRecovery recoveryHandler Bolt.get at h
  cases hf : fault key with
  | some e => simp [hf, GetResult.err] at h
  | none =>
    cases hb : b key with
    | none => simp [hf, hb, versionBytes, GetResult.err] at h
    | some data =>
      by_cases hl : data.length < versionBytes
      · simp [hf, hb, hl, GetResult.err] at h
      · simp only [hf, hb, hl, Option.getD_some, if_false, GetResult.err, GetResult.version,
          GetResult.value, Option.some.injEq] at h
        subst h
        have hlen : (data.take versionBytes).length = versionBytes := by
          simp only [List.length_take]
          omega
        refine ⟨data, rfl, ?_⟩
        rw [entry_of_length (v := Version.unmarshalBinary _) hlen]
        simp [Version.unmarshalBinary]

/-- A peer that does not hold `VersionBytes` bytes under the key does not answer. -/
theorem acceptRecovery_of_short {b : Bucket} {fault : String → Option String} {key : String}
    (h : ((b key).getD []).length < versionBytes) : acceptRecovery b fault key = none := by
  unfold acceptRecovery recoveryHandler Bolt.get
  cases fault key <;> simp [h, GetResult.err]

/-- A peer holding the key `"k"` with a version of `VersionBytes` bytes and the value `[7]`. -/
def keyHolder : Bucket := fun k => if k = "k" then some (List.replicate versionBytes 1 ++ [7]) else none

/-- The answer of `keyHolder` to a request for `"k"`, then a faulty copy of it under another key. -/
def keyHolderAnswers : List (Option RecoveryResponse) :=
  [some ⟨"k", some ⟨List.replicate versionBytes 1⟩, [7]⟩,
    some ⟨"j", some ⟨List.replicate versionBytes 1⟩, [7]⟩]

section
variable {put : String → Bytes → Option String} {b : Bucket} {quorum peers : Nat} {key : String}
  {arrivals : List (Option RecoveryResponse)} {r : Option RecoveryResponse}

/-- A recovery accepted with the answer of one peer that answers from its own store `pb` in its
quorum writes that peer's entry for the key, byte for byte, and leaves every other key alone,
whatever the other peers answered; unless `Put` refuses the key, the key is recovered. -/
theorem recovery_copies_honest_entry {pb : Bucket} {pfault : String → Option String}
    {a : RecoveryResponse} (hreq : requestRecovery quorum peers key arrivals = .ok r)
    (hhonest : some a ∈ arrivals.take quorum) (ha : acceptRecovery pb pfault key = some a)
    (hput : ∀ data, put key data = none) :
    recoverKey put b key (.ok r) = some (Function.update b key (pb key), true) := by
  have hq : quorum ≠ 0 := by
    rintro rfl
    simp at hhonest
  obtain ⟨r, rs, rfl, htake, hc⟩ := requestRecovery_eq_ok hq hreq
  obtain ⟨a', ha', h⟩ := List.mem_map.1 (htake ▸ hhonest)
  cases h
  obtain ⟨hv, hd⟩ := checkRecoveryResponses_agree hc a ha'
  obtain ⟨data, hb, he⟩ := entry_of_acceptRecovery ha
  rw [hv, hd] at he
  simp [recoverKey, Bolt.set, setBatch, he, hb, hput]

theorem recovery_copies_honest_entry_keyHolder :
    requestRecovery 2 3 "k" keyHolderAnswers =
        .ok (some ⟨"k", some ⟨List.replicate versionBytes 1⟩, [7]⟩) ∧
      some ⟨"k", some ⟨List.replicate versionBytes 1⟩, [7]⟩ ∈ keyHolderAnswers.take 2 ∧
      acceptRecovery keyHolder (fun _ => none) "k" =
        some ⟨"k", some ⟨List.replicate versionBytes 1⟩, [7]⟩ ∧
      recoverKey (fun _ _ => none) (fun _ => none) "k"
          (.ok (some ⟨"k", some ⟨List.replicate versionBytes 1⟩, [7]⟩)) =
        some (Function.update (fun _ => none) "k" (keyHolder "k"), true) := by
  have hreq : requestRecovery 2 3 "k" keyHolderAnswers =
      .ok (some ⟨"k", some ⟨List.replicate versionBytes 1⟩, [7]⟩) := rfl
  have hmem : some ⟨"k", some ⟨List.replicate versionBytes 1⟩, [7]⟩ ∈ keyHolderAnswers.take 2 := by
    decide
  have ha : acceptRecovery keyHolder (fun _ => none) "k" =
      some ⟨"k", some ⟨List.replicate versionBytes 1⟩, [7]⟩ := by decide
  exact ⟨hreq, hmem, ha, recovery_copies_honest_entry hreq hmem ha fun _ => rfl⟩

/-- A recovery whose quorum picks a peer that holds fewer than `VersionBytes` bytes under the key
fails, and the worker writes nothing. -/
theorem recovery_blocked_by_missing_key {pb : Bucket} {pfault : String → Option String}
    (hpicked : acceptRecovery pb pfault key ∈ arrivals.take quorum)
    (hshort : ((pb key).getD []).length < versionBytes) :
    recoverKey put b key (requestRecovery quorum peers key arrivals) = some (b, false) := by
  rw [acceptRecovery_of_short hshort] at hpicked
  have hq : quorum ≠ 0 := by
    rintro rfl
    simp at hpicked
  cases hreq : requestRecovery quorum peers key arrivals with
  | error e => rfl
  | ok r =>
    obtain ⟨-, rs, -, htake, -⟩ := requestRecovery_eq_ok hq hreq
    simp [htake] at hpicked

theorem recovery_blocked_by_missing_key_empty :
    acceptRecovery (fun _ => none) (fun _ => none) "k" ∈
        (keyHolderAnswers.take 1 ++ [acceptRecovery (fun _ => none) (fun _ => none) "k"]).take 2 ∧
      (((fun _ => none : Bucket) "k").getD []).length < versionBytes ∧
      recoverKey (fun _ _ => none) keyHolder "k" (requestRecovery 2 3 "k"
          (keyHolderAnswers.take 1 ++ [acceptRecovery (fun _ => none) (fun _ => none) "k"])) =
        some (keyHolder, false) := by
  have hp : acceptRecovery (fun _ => none) (fun _ => none) "k" ∈
      (keyHolderAnswers.take 1 ++ [acceptRecovery (fun _ => none) (fun _ => none) "k"]).take 2 := by
    decide
  have hs : (((fun _ => none : Bucket) "k").getD []).length < versionBytes := by decide
  exact ⟨hp, hs, recovery_blocked_by_missing_key hp hs⟩

/-- Without a recovery quorum, a recovery overwrites the key with the empty value and a version
of `VersionBytes` zero bytes, whatever the peers hold, unless `Put` refuses the key. -/
theorem recovery_without_quorum_erases (hput : ∀ data, put key data = none) :
    recoverKey put b key (requestRecovery 0 peers key arrivals) =
        some (Function.update b key (some (List.replicate versionBytes 0)), true) ∧
      Bolt.get (Function.update b key (some (List.replicate versionBytes 0))) (fun _ => none) key =
        .found [] ⟨List.replicate versionBytes 0⟩ := by
  constructor
  · simp [requestRecovery, recoverKey, Bolt.set, setBatch, entry_none, hput]
  · simp [Bolt.get, versionBytes, Version.unmarshalBinary]

end

end PnyxDB.Consensus.Engine
