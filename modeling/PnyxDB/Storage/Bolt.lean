import PnyxDB.Consensus.KeyValue

/-!
The BoltDB driver (`storage/boltdb`) under the engine's `Store`. Every key of the bucket `pnyxdb`
holds the marshalled version, `VersionBytes` bytes, followed by the value; `Get`, `SetBatch`, `Set`
and `List` read and write that layout.

* `get_eq_store_get` — `Get` is `Store.get` of the pairs the entries decode to: the store the
  engine's model reads is the one the bytes hold.
* `setBatch_eq_committed` — `SetBatch` of keys whose values and versions are functions of the key
  commits the bucket with each key's entry, whatever the order of the keys.
* `applyBolt_store` — `Engine.apply` against the driver writes what `applyGet` writes, whatever
  order Go ranges over its map of values in, when SHA-512 gives `VersionBytes` bytes and `Put`
  takes the query's keys; `applyBolt_of_refused` — one key that `Put` refuses and the transaction
  writes none of them.

`Put` belongs to bbolt, which is not part of the sources: whether it refuses a key and an entry (an
empty key, a key or a value over bbolt's limits) is the argument `put`. The commit of the
transaction is taken to succeed. `rv[:VersionBytes]` on a marshalled version shorter than
`VersionBytes` reslices into the capacity of the slice, which the code does not control: the model
takes it for the panic it is on the empty hash of `NoVersion`.
-/

namespace PnyxDB.Consensus

/-- `VersionBytes`: `sha512.Size`. -/
def versionBytes : Nat := 64

/-- `Version.MarshalBinary`: `VersionBytes` zero bytes for a nil version, the hash otherwise,
whatever its length. -/
def Version.marshalBinary : Option Version → Bytes
  | none => List.replicate versionBytes 0
  | some v => v.hash

/-- `Version.UnmarshalBinary` on a fresh version: a copy of the data. -/
def Version.unmarshalBinary (data : Bytes) : Version := ⟨data⟩

end PnyxDB.Consensus

namespace PnyxDB.Storage.Bolt

open PnyxDB.Consensus PnyxDB.Consensus.Operations

/-- The bucket `pnyxdb`: the bytes each key holds. -/
abbrev Bucket := String → Option Bytes

/-- What the bytes of an entry hold for the engine: the value after the first `VersionBytes` bytes
and the version those make; an entry shorter than `VersionBytes` holds nothing. -/
def decode (data : Bytes) : Option (Bytes × Version) :=
  if data.length < versionBytes then none
  else some (data.drop versionBytes, Version.unmarshalBinary (data.take versionBytes))

/-- The engine's `Store` that a bucket holds. -/
def Bucket.store (b : Bucket) : Store := fun k => (b k).bind decode

/-- `store.Get(key)`: in a read transaction, which fails with `fault key` if that is set, the entry
of `key`; nil, `NoVersion` and `errNotFound` if it is missing or shorter than `VersionBytes`, and
otherwise a copy of the bytes after the version, with the version read from the first
`VersionBytes`. -/
def get (b : Bucket) (fault : String → Option String) (key : String) : GetResult :=
  match fault key with
  | some e => .failed e
  | none =>
    let data := (b key).getD []
    if data.length < versionBytes then .notFound
    else .found (data.drop versionBytes) (Version.unmarshalBinary (data.take versionBytes))

/-- `Get` reads the store the bucket holds: the engine's `Store.get` is the driver's `Get`. -/
theorem get_eq_store_get (b : Bucket) (fault : String → Option String) (key : String) :
    get b fault key = Store.get b.store fault key := by
  unfold get Store.get Bucket.store
  cases fault key with
  | some e => rfl
  | none =>
    cases b key with
    | none => rfl
    | some data =>
      by_cases h : data.length < versionBytes <;> simp [decode, h]

/-- `store.List()`: the version of every entry of at least `VersionBytes` bytes. -/
def list (b : Bucket) (key : String) : Option Version :=
  (b key).bind fun data =>
    if data.length < versionBytes then none else some (Version.unmarshalBinary (data.take versionBytes))

/-- `List` names the keys the store holds, with their versions. -/
theorem list_eq (b : Bucket) (key : String) : list b key = (b.store key).map Prod.snd := by
  unfold list Bucket.store
  cases b key with
  | none => rfl
  | some data => by_cases h : data.length < versionBytes <;> simp [decode, h]

/-! ### Writes -/

/-- How the `Update` transaction of `SetBatch` ends. -/
inductive Outcome
  /-- The transaction commits the bucket. -/
  | committed (b : Bucket)
  /-- `Put` failed with `err`: the transaction rolls back, and `SetBatch` returns the error. -/
  | rolledBack (err : String)
  /-- An index or a slice expression is out of range: the goroutine panics, and the process with
  it. -/
  | panicked

/-- The bucket once `SetBatch` has returned, `none` if it panicked: a rolled back transaction
leaves the bucket as it was. -/
def Outcome.after (b : Bucket) : Outcome → Option Bucket
  | .committed b' => some b'
  | .rolledBack _ => some b
  | .panicked => none

/-- The bytes `SetBatch` puts for a value and its version, `append(rv[:VersionBytes], value...)`
with `rv` the marshalled version; `none` where the slice expression panics. -/
def entry (value : Bytes) (v : Option Version) : Option Bytes :=
  let rv := Version.marshalBinary v
  if rv.length < versionBytes then none else some (rv.take versionBytes ++ value)

/-- `store.SetBatch(keys, values, versions)`: in one write transaction, `Put` of each key with the
entry of `values[i]` and `versions[i]`, in the order of `keys`. -/
def setBatch (put : String → Bytes → Option String) (b : Bucket) :
    List String → List Bytes → List (Option Version) → Outcome
  | [], _, _ => .committed b
  | k :: keys, value :: values, v :: versions =>
    match entry value v with
    | none => .panicked
    | some data =>
      match put k data with
      | some e => .rolledBack e
      | none => setBatch put (Function.update b k (some data)) keys values versions
  | _ :: _, _, _ => .panicked

/-- `store.Set(key, value, v)`: `SetBatch` of the one key. -/
def set (put : String → Bytes → Option String) (b : Bucket) (key : String) (value : Bytes)
    (v : Option Version) : Outcome :=
  setBatch put b [key] [value] [v]

/-- Bytes that start with a hash of `VersionBytes` bytes read back as the rest and that hash. -/
theorem decode_append {hash value : Bytes} (h : hash.length = versionBytes) :
    decode (hash ++ value) = some (value, ⟨hash⟩) := by
  simp [decode, h, List.drop_left' h, List.take_left' h, Version.unmarshalBinary]

/-- The entry of a version of exactly `VersionBytes` bytes is the hash followed by the value. -/
theorem entry_of_length {value : Bytes} {v : Version} (h : v.hash.length = versionBytes) :
    entry value (some v) = some (v.hash ++ value) := by
  simp [entry, Version.marshalBinary, h, List.take_of_length_le (le_of_eq h)]

/-- The entry of a nil version is `VersionBytes` zero bytes followed by the value. -/
theorem entry_none (value : Bytes) :
    entry value none = some (List.replicate versionBytes 0 ++ value) := by
  simp [entry, Version.marshalBinary]

/-- `SetBatch` of keys whose values and versions are functions of the key, each making an entry
`Put` takes, commits every key with its entry, in whatever order, and repeated, the keys come. -/
theorem setBatch_eq_committed {put : String → Bytes → Option String} {f : String → Bytes}
    {g : String → Option Version} {d : String → Bytes} :
    ∀ {keys : List String} {b : Bucket},
      (∀ k ∈ keys, entry (f k) (g k) = some (d k) ∧ put k (d k) = none) →
        setBatch put b keys (keys.map f) (keys.map g) =
          .committed fun k => if k ∈ keys then some (d k) else b k
  | [], b, _ => by simp [setBatch]
  | k :: keys, b, h => by
    obtain ⟨he, hp⟩ := h k (List.mem_cons_self _ _)
    simp only [List.map_cons, setBatch, he, hp]
    rw [setBatch_eq_committed fun k' hk' => h k' (List.mem_cons_of_mem _ hk')]
    congr 1
    funext k'
    by_cases hk : k' = k
    · subst hk
      simp
    · simp [hk, Function.update_noteq]

/-- `SetBatch` of keys whose values and versions are functions of the key, each making an entry,
rolls back when `Put` refuses one of the keys, whatever entry it is given. -/
theorem setBatch_eq_rolledBack {put : String → Bytes → Option String} {f : String → Bytes}
    {g : String → Option Version} (hentry : ∀ k, (entry (f k) (g k)).isSome) :
    ∀ {keys : List String} {b : Bucket}, (∃ k ∈ keys, ∀ data, (put k data).isSome) →
      ∃ e, setBatch put b keys (keys.map f) (keys.map g) = .rolledBack e
  | [], _, ⟨_, hk, _⟩ => absurd hk (List.not_mem_nil _)
  | k :: keys, b, ⟨k', hk', hput⟩ => by
    obtain ⟨data, hd⟩ := Option.isSome_iff_exists.mp (hentry k)
    simp only [List.map_cons, setBatch, hd]
    cases hp : put k data with
    | some e => exact ⟨e, rfl⟩
    | none =>
      have hne : k' ≠ k := fun h => by simpa [h, hp] using hput data
      exact setBatch_eq_rolledBack hentry ⟨k', by simpa [hne] using hk', hput⟩

/-! ### `Engine.apply` against the driver -/

/-- `Engine.apply(uuid)` against the driver, for the query `q` that `GetQuery` returns. The reads
are `Get`, that is `Store.get` of the bucket's store (`get_eq_store_get`); `apply` returns before
writing when a read or an operation fails, and otherwise calls `SetBatch` with the keys in the order
`visit` in which Go ranges over its map of values, each with its raw value and `NewVersion` of that
value. `none` if `SetBatch` panics. -/
def applyBolt (c : Codec) (sha512 : Bytes → Bytes) (put : String → Bytes → Option String)
    (b : Bucket) (fault : String → Option String) (q : Query) (visit : List String) :
    Option Bucket :=
  match execOpsGet c b.store fault (fun _ => none) q.operations with
  | .error _ => some b
  | .ok values =>
    let raw k := ((values k).map Value.raw).getD []
    (setBatch put b visit (visit.map raw)
      (visit.map fun k => some (newVersion sha512 (raw k)))).after b

/-- The loop of `apply` holds a value for each key it started with and each key an operation
names, and for no other. -/
theorem execOpsGet_isSome {c : Codec} {kv : Store} {fault : String → Option String} :
    ∀ {ops : List Operation} {values values' : String → Option Value},
      execOpsGet c kv fault values ops = .ok values' →
        ∀ k, (values' k).isSome ↔ (values k).isSome ∨ k ∈ ops.map Operation.key
  | [], values, values', h, k => by
    cases h
    simp
  | op :: ops, values, values', h, k => by
    simp only [execOpsGet, List.foldlM_cons, execStep] at h
    cases hv : valueOf kv fault values op.key with
    | error e => simp [hv] at h
    | ok value =>
      cases hx : op.exec c value with
      | error e => simp [hv, hx] at h
      | ok v =>
        simp only [hv, hx] at h
        rw [execOpsGet_isSome h k]
        by_cases hk : k = op.key
        · subst hk
          simp
        · simp [Function.update_noteq hk, hk]

section
variable {c : Codec} {sha512 : Bytes → Bytes} {put : String → Bytes → Option String} {b : Bucket}
  {fault : String → Option String} {q : Query} {visit : List String}

/-- `Engine.apply` against the driver refines `applyGet` on the bucket's store: whatever order Go
visits the map of values in, the bucket it commits holds what `applyGet` writes, as long as SHA-512
gives `VersionBytes` bytes and `Put` takes every key of the query. -/
theorem applyBolt_store (hsha : ∀ data, (sha512 data).length = versionBytes)
    (hput : ∀ k ∈ q.operations.map Operation.key, ∀ data, put k data = none)
    (hvisit : visit.Perm (q.operations.map Operation.key).dedup) :
    (applyBolt c sha512 put b fault q visit).map Bucket.store =
      some (applyGet c sha512 b.store fault q) := by
  have hmem : ∀ k, k ∈ visit ↔ k ∈ q.operations.map Operation.key := fun k => by
    rw [hvisit.mem_iff, List.mem_dedup]
  unfold applyBolt applyGet
  cases hr : execOpsGet c b.store fault (fun _ => none) q.operations with
  | error e => rfl
  | ok values =>
    have hdom := execOpsGet_isSome hr
    simp only [Option.isSome_none, Bool.false_eq_true, false_or] at hdom
    dsimp only
    set raw : String → Bytes := fun k => ((values k).map Value.raw).getD []
    rw [setBatch_eq_committed (g := fun k => some (newVersion sha512 (raw k)))
      (d := fun k => sha512 (raw k) ++ raw k) fun k hk =>
        ⟨entry_of_length (hsha _), hput k ((hmem k).1 hk) _⟩]
    simp only [Outcome.after, Option.map_some', Option.some.injEq]
    funext k
    by_cases hk : k ∈ visit
    · obtain ⟨v, hv⟩ := Option.isSome_iff_exists.mp ((hdom k).2 ((hmem k).1 hk))
      simp [Bucket.store, hk, hv, raw, decode_append (hsha _), newVersion]
    · have hv : values k = none := by
        simpa [Option.not_isSome_iff_eq_none] using mt (hdom k).1 (by simpa [hmem] using hk)
      simp [Bucket.store, hk, hv]

theorem applyBolt_store_two_keys :
    (applyBolt Codec.unary (fun _ => List.replicate versionBytes 0) (fun _ _ => none)
        (fun _ => none) (fun _ => none)
        (opsQuery "q" "p" [⟨"k", .set, [1]⟩, ⟨"j", .concat, [2]⟩]) ["j", "k"]).map Bucket.store =
      some (applyGet Codec.unary (fun _ => List.replicate versionBytes 0)
        (Bucket.store fun _ => none) (fun _ => none)
        (opsQuery "q" "p" [⟨"k", .set, [1]⟩, ⟨"j", .concat, [2]⟩])) :=
  applyBolt_store (fun _ => List.length_replicate _ _) (fun _ _ _ => rfl) (by decide)

/-- `SetBatch` is one transaction: when `Put` refuses one key of the query, whatever its entry,
`apply` writes none of the keys, though every operation succeeded. -/
theorem applyBolt_of_refused (hsha : ∀ data, (sha512 data).length = versionBytes)
    (hvisit : visit.Perm (q.operations.map Operation.key).dedup)
    (hrefused : ∃ k ∈ q.operations.map Operation.key, ∀ data, (put k data).isSome) :
    applyBolt c sha512 put b fault q visit = some b := by
  unfold applyBolt
  cases execOpsGet c b.store fault (fun _ => none) q.operations with
  | error e => rfl
  | ok values =>
    obtain ⟨k, hk, hp⟩ := hrefused
    obtain ⟨e, he⟩ := setBatch_eq_rolledBack (b := b)
      (f := fun k => ((values k).map Value.raw).getD [])
      (g := fun k => some (newVersion sha512 (((values k).map Value.raw).getD [])))
      (fun k => by rw [entry_of_length (v := newVersion sha512 _) (hsha _)]; rfl)
      ⟨k, by rw [hvisit.mem_iff, List.mem_dedup]; exact hk, hp⟩
    simp only [he, Outcome.after]

/-- bbolt refuses the empty key (`ErrKeyRequired`): a query that also sets `"k"` writes nothing. -/
theorem applyBolt_of_refused_empty_key :
    applyBolt Codec.unary (fun _ => List.replicate versionBytes 0)
        (fun k _ => if k = "" then some "key required" else none) (fun _ => none) (fun _ => none)
        (opsQuery "q" "p" [⟨"k", .set, [1]⟩, ⟨"", .set, [2]⟩]) ["k", ""] = some fun _ => none :=
  applyBolt_of_refused (fun _ => List.length_replicate _ _) (by decide) ⟨"", by decide, fun _ => rfl⟩
end

end PnyxDB.Storage.Bolt
