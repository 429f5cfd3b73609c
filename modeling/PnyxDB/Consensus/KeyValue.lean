import PnyxDB.Consensus.Operations

/-!
The engine against the key-value store: `Store.Get` of the bolt driver (`storage/boltdb`), and the
two engine functions that read with it, `Engine.canEndorse` and `Engine.apply`.

`Get` has three outcomes. A missing key, or an entry shorter than `VersionBytes`, returns
`errNotFound` with the variable `NoVersion`; a failed read transaction returns its error with a
nil version; otherwise the value and a copy of its version come back (`UnmarshalBinary` never
fails). Whether a read transaction fails is not the program's choice: `Store.get` takes it as the
argument `fault`.

`canEndorse` tests `err != nil` before it compares versions, so a requirement is met only by a key
that is present with the required version (`canEndorse_eq_true_iff`); a requirement of `NoVersion`
on a missing key, which `Get` reports with `NoVersion`, is never met
(`canEndorse_rejects_missing_key`).

`apply` reads each key once, the first time an operation names it, and runs the operations on one
`Value` per key. It writes nothing when a read fails or a runner fails, and otherwise the run of
each key from its stored bytes (`applyGet_eq`). The runners cache the number or set they decode,
and an `ADD` or `MUL` keeps the cached set (an `SADD` or `SREM` the cached number): on a key that
carries both kinds, a later operation can read a cache that no longer matches the bytes. Where the
codec reads back what it writes, and either no key mixes the two kinds or the codec never reads one
form as the other, `apply` is the run that re-reads and re-decodes before every operation
(`applyGet_eq_oneAtATime`). With a codec that reads the bytes of a set as a number, the two part
(`apply_stale_set_of`).
-/

namespace PnyxDB.Consensus

open Operations

/-- `errNotFound` of the bolt driver. -/
def errNotFound : String := "key corrupted or unknown"

/-- The outcome of `Store.Get(key)`. -/
inductive GetResult
  /-- `(value, v, nil)`: the stored value and a copy of its version. -/
  | found (value : Bytes) (version : Version)
  /-- `(nil, NoVersion, errNotFound)`: no entry of at least `VersionBytes` bytes. -/
  | notFound
  /-- `(nil, nil, err)`: the read transaction failed. -/
  | failed (err : String)
  deriving DecidableEq, Repr

namespace GetResult

/-- The value `Get` returns, nil unless the key was found. -/
def value : GetResult → Bytes
  | .found value _ => value
  | _ => []

/-- The version `Get` returns. -/
def version : GetResult → Option Version
  | .found _ v => some v
  | .notFound => some noVersion
  | .failed _ => none

/-- The error `Get` returns. -/
def err : GetResult → Option String
  | .found _ _ => none
  | .notFound => some errNotFound
  | .failed e => some e

/-- `v == NoVersion` compares pointers: only a missing key returns the variable `NoVersion` itself;
a found version is a fresh copy, also when its hash is empty. -/
def isNoVersion : GetResult → Bool
  | .notFound => true
  | _ => false

end GetResult

/-- `Store.Get(key)` on the store `kv`, whose read transaction fails with `fault key` if that is
set. -/
def Store.get (kv : Store) (fault : String → Option String) (key : String) : GetResult :=
  match fault key, kv key with
  | some e, _ => .failed e
  | none, some (value, v) => .found value v
  | none, none => .notFound

/-! ### Requirements -/

/-- The test of one requirement `(k, v)` in `Engine.canEndorse`: `Get(k)` returns no error and
a version that matches `v`. -/
def requirementMet (kv : Store) (fault : String → Option String) (req : String × Version) : Bool :=
  let r := kv.get fault req.1
  !(r.err.isSome || (Version.matches r.version (some req.2)).isSome)

/-- `Engine.canEndorse`: the query has not expired and every requirement is met. The policy is not
checked. -/
def canEndorse (now : Int) (kv : Store) (fault : String → Option String) (q : Query) : Bool :=
  if q.expired now then false
  else q.requirements.all (requirementMet kv fault)

/-- A requirement is met when its key reads without a fault and is present with the required
version. -/
theorem requirementMet_iff {kv : Store} {fault : String → Option String} {req : String × Version} :
    requirementMet kv fault req = true ↔ fault req.1 = none ∧ ∃ value, kv req.1 = some (value, req.2) := by
  unfold requirementMet Store.get
  cases hf : fault req.1 with
  | some e => simp [GetResult.err]
  | none =>
    rcases hk : kv req.1 with _ | ⟨value, v⟩
    · simp [GetResult.err]
    · simp [GetResult.err, GetResult.version, Option.isSome_iff_ne_none]

/-- `canEndorse` holds exactly when the query has not expired and every required key reads
without a fault and is present with the required version. A missing key never passes. -/
theorem canEndorse_eq_true_iff {now : Int} {kv : Store} {fault : String → Option String}
    {q : Query} :
    canEndorse now kv fault q = true ↔ q.expired now = false ∧
      ∀ req ∈ q.requirements, fault req.1 = none ∧ ∃ value, kv req.1 = some (value, req.2) := by
  unfold canEndorse
  cases q.expired now <;> simp [List.all_eq_true, requirementMet_iff]

/-- A query that requires `NoVersion` of a missing key: `Get` reports the key's version as
`NoVersion`, but `canEndorse` fails on the error that comes with it. -/
theorem canEndorse_rejects_missing_key :
    let q : Query :=
      { opsQuery "q" "p" [] with deadline := some ⟨1, 0⟩, requirements := [("k", noVersion)] }
    q.expired 0 = false ∧
      (∀ req ∈ q.requirements,
        (Store.get (fun _ => none) (fun _ => none) req.1).version = some req.2) ∧
      canEndorse 0 (fun _ => none) (fun _ => none) q = false :=
  ⟨by decide, by simp [Store.get, GetResult.version, opsQuery], by decide⟩

/-! ### `apply` with its reads -/

/-- The first read of a key in `apply`: `NewValue(data)`, unless `Get` fails with an error that
does not come with `NoVersion`. -/
def readValue (kv : Store) (fault : String → Option String) (key : String) :
    Except String Value :=
  let r := kv.get fault key
  match r.err with
  | some e => if r.isNoVersion then .ok (Value.new r.value) else .error e
  | none => .ok (Value.new r.value)

/-- The value of `key` in the loop of `apply`: the one met before, or the stored one, read now. -/
def valueOf (kv : Store) (fault : String → Option String) (values : String → Option Value)
    (key : String) : Except String Value :=
  match values key with
  | some value => .ok value
  | none => readValue kv fault key

/-- One pass of the operation loop of `apply`: the operation runs on the value of its key. -/
def execStep (c : Codec) (kv : Store) (fault : String → Option String)
    (values : String → Option Value) (op : Operation) :
    Except String (String → Option Value) :=
  match valueOf kv fault values op.key with
  | .error e => .error e
  | .ok value =>
    match op.exec c value with
    | .error e => .error e
    | .ok v => .ok (Function.update values op.key (some v))

/-- The operation loop of `apply`. -/
def execOpsGet (c : Codec) (kv : Store) (fault : String → Option String)
    (values : String → Option Value) (ops : List Operation) :
    Except String (String → Option Value) :=
  ops.foldlM (execStep c kv fault) values

/-- `Engine.apply` of the query `q`: nothing is written if a read or an operation fails;
otherwise `SetBatch` writes each key met with its new value and that value's version. -/
def applyGet (c : Codec) (sha512 : Bytes → Bytes) (kv : Store) (fault : String → Option String)
    (q : Query) : Store :=
  match execOpsGet c kv fault (fun _ => none) q.operations with
  | .error _ => kv
  | .ok values => fun k =>
    match values k with
    | some v => some (v.raw, newVersion sha512 v.raw)
    | none => kv k

section
variable {c : Codec} {kv : Store} {fault : String → Option String}

theorem readValue_of_fault {k e : String} (h : fault k = some e) :
    readValue kv fault k = .error e := by
  simp [readValue, Store.get, h, GetResult.err, GetResult.isNoVersion]

theorem readValue_of_no_fault {k : String} (h : fault k = none) :
    readValue kv fault k = .ok (Value.new (kv.getData k)) := by
  unfold readValue Store.get
  cases hk : kv k <;> simp [h, hk, GetResult.err, GetResult.isNoVersion, GetResult.value,
    Store.getData]

theorem valueOf_of_no_fault {values : String → Option Value} {k : String} (h : fault k = none) :
    valueOf kv fault values k = .ok ((values k).getD (Value.new (kv.getData k))) := by
  unfold valueOf
  cases values k
  · exact readValue_of_no_fault h
  · rfl

/-- Without faults, the loop of `apply` is `execOps`, which reads the stored bytes. -/
theorem execOpsGet_of_no_fault : ∀ {ops : List Operation} {values : String → Option Value},
    (∀ k ∈ ops.map Operation.key, fault k = none) →
      execOpsGet c kv fault values ops = execOps c kv values ops
  | [], _, _ => rfl
  | op :: ops, values, h => by
    simp only [execOpsGet, List.foldlM_cons, execStep,
      valueOf_of_no_fault (h op.key (List.mem_cons_self _ _)), execOps]
    cases op.exec c ((values op.key).getD (Value.new (kv.getData op.key))) with
    | error e => rfl
    | ok v => exact execOpsGet_of_no_fault fun k hk => h k (List.mem_cons_of_mem _ hk)

/-- A key met for the first time whose read fails ends the loop of `apply`. -/
theorem execOpsGet_of_fault : ∀ {ops : List Operation} {values : String → Option Value},
    (∃ k ∈ ops.map Operation.key, values k = none ∧ (fault k).isSome) →
      (execOpsGet c kv fault values ops).toOption = none
  | [], _, ⟨_, hk, _⟩ => absurd hk (List.not_mem_nil _)
  | op :: ops, values, ⟨k, hk, hv, hf⟩ => by
    simp only [execOpsGet, List.foldlM_cons, execStep]
    by_cases hko : op.key = k
    · subst hko
      obtain ⟨e, he⟩ := Option.isSome_iff_exists.mp hf
      simp only [valueOf, hv, readValue_of_fault he]
      rfl
    have hk' : k ∈ ops.map Operation.key := by simpa [Ne.symm hko] using hk
    cases valueOf kv fault values op.key with
    | error e => rfl
    | ok value =>
      dsimp only
      cases op.exec c value with
      | error e => rfl
      | ok v =>
        exact execOpsGet_of_fault ⟨k, hk', by simp [Function.update_noteq (Ne.symm hko), hv], hf⟩
end

/-- `apply` writes nothing when a key of the query cannot be read, and is `applyQuery`, the run
from the stored bytes, otherwise. -/
theorem applyGet_eq (c : Codec) (sha512 : Bytes → Bytes) (kv : Store)
    (fault : String → Option String) (q : Query) :
    applyGet c sha512 kv fault q =
      if ∃ k ∈ q.operations.map Operation.key, (fault k).isSome then kv
      else applyQuery c sha512 kv q := by
  split_ifs with h
  · obtain ⟨k, hk, hf⟩ := h
    have he : (execOpsGet c kv fault (fun _ => none) q.operations).toOption = none :=
      execOpsGet_of_fault ⟨k, hk, rfl, hf⟩
    unfold applyGet
    cases hr : execOpsGet c kv fault (fun _ => none) q.operations with
    | error e => rfl
    | ok values => simp [hr, Except.toOption] at he
  · push_neg at h
    unfold applyGet applyQuery
    exact execOpsGet_of_no_fault (fun k hk => Option.not_isSome_iff_eq_none.mp (by simpa using h k hk))
      ▸ rfl

/-! ### One operation at a time -/

/-- The opcodes of `floatGeneric`. -/
def IsNumOp (op : Op) : Prop := op = .add ∨ op = .mul

instance instDecidableIsNumOp (op : Op) : Decidable (IsNumOp op) :=
  inferInstanceAs (Decidable (op = .add ∨ op = .mul))

instance instDecidableIsElemOp (op : Op) : Decidable (IsElemOp op) :=
  inferInstanceAs (Decidable (op = .sadd ∨ op = .srem))

/-- No key of the query carries both an `ADD` or `MUL` and an `SADD` or `SREM`. -/
def Query.Unmixed (q : Query) : Prop :=
  ∀ o1 ∈ q.operations, ∀ o2 ∈ q.operations, o1.key = o2.key → IsNumOp o1.op → ¬IsElemOp o2.op

instance instDecidableUnmixed (q : Query) : Decidable q.Unmixed :=
  inferInstanceAs (Decidable (∀ o1 ∈ q.operations, ∀ o2 ∈ q.operations,
    o1.key = o2.key → IsNumOp o1.op → ¬IsElemOp o2.op))

/-- The one-at-a-time semantics of the spec's atomic `SetBatch`: the value an operation works on,
re-read with `Get` from the working store `w` and decoded afresh. -/
def freshValue (w : Store) (fault : String → Option String) (key : String) : Except String Value :=
  match w.get fault key with
  | .failed e => .error e
  | r => .ok (Value.new r.value)

/-- One operation of the run one at a time: it works on its key's freshly read value and writes
its result back with its version. -/
def stepFresh (c : Codec) (sha512 : Bytes → Bytes) (fault : String → Option String) (w : Store)
    (op : Operation) : Except String Store :=
  match freshValue w fault op.key with
  | .error e => .error e
  | .ok value =>
    match op.exec c value with
    | .error e => .error e
    | .ok v => .ok (Function.update w op.key (some (v.raw, newVersion sha512 v.raw)))

/-- The operations of `q` one at a time, each on the store the previous one left; on the first
failure everything is rolled back. -/
def oneAtATime (c : Codec) (sha512 : Bytes → Bytes) (kv : Store) (fault : String → Option String)
    (q : Query) : Store :=
  match q.operations.foldlM (stepFresh c sha512 fault) kv with
  | .ok w => w
  | .error _ => kv

@[simp] theorem ok_bind {ε α β : Type} (a : α) (f : α → Except ε β) : (Except.ok a >>= f) = f a :=
  rfl

@[simp] theorem error_bind {ε α β : Type} (e : ε) (f : α → Except ε β) :
    (Except.error e >>= f) = Except.error e :=
  rfl

/-- Two outcomes that both fail, or both succeed with results related by `R`. -/
def ExceptRel {ε ε' σ τ : Type} (R : σ → τ → Prop) : Except ε σ → Except ε' τ → Prop
  | .ok s, .ok t => R s t
  | .error _, .error _ => True
  | _, _ => False

theorem ExceptRel.imp {ε ε' σ τ : Type} {R R' : σ → τ → Prop} (h : ∀ s t, R s t → R' s t) :
    ∀ {x : Except ε σ} {y : Except ε' τ}, ExceptRel R x y → ExceptRel R' x y
  | .ok _, .ok _, hr => h _ _ hr
  | .error _, .error _, _ => trivial
  | .ok _, .error _, hr => hr.elim
  | .error _, .ok _, hr => hr.elim

/-- Two runs of `foldlM` over one list whose steps fail together and keep `R`. -/
theorem foldlM_exceptRel {α ε σ τ : Type} (R : σ → τ → Prop) {f : σ → α → Except ε σ}
    {g : τ → α → Except ε τ} :
    ∀ {l : List α}, (∀ a ∈ l, ∀ s t, R s t → ExceptRel R (f s a) (g t a)) →
      ∀ {s t}, R s t → ExceptRel R (l.foldlM f s) (l.foldlM g t)
  | [], _, _, _, h => h
  | a :: l, hstep, s, t, h => by
    have ha := hstep a (List.mem_cons_self _ _) s t h
    simp only [List.foldlM_cons]
    cases hf : f s a <;> cases hg : g t a <;> rw [hf, hg] at ha
    · trivial
    · exact ha.elim
    · exact ha.elim
    · exact foldlM_exceptRel R (fun b hb => hstep b (List.mem_cons_of_mem _ hb)) ha

/-- A value the operations `ops` of one key can leave: the number and the set it caches are what
its bytes decode to, and it caches a set (a number) only if `ops` has an `SADD` or `SREM` (an `ADD`
or `MUL`). -/
structure Operations.Value.Fits (c : Codec) (ops : List Operation) (v : Value) : Prop where
  float : ∀ x, v.vfloat = some x → c.parseFloat v.raw = some x
  set : ∀ S, v.vset = some S → c.parseSet v.raw = some S
  vfloat : v.vfloat.isSome → ∃ o ∈ ops, IsNumOp o.op
  vset : v.vset.isSome → ∃ o ∈ ops, IsElemOp o.op

@[simp] theorem Operations.Value.new_raw (raw : Bytes) : (Value.new raw).raw = raw := rfl

@[simp] theorem Operations.Value.fits_new (c : Codec) (ops : List Operation) (raw : Bytes) :
    (Value.new raw).Fits c ops :=
  ⟨by simp [Value.new], by simp [Value.new], by simp [Value.new], by simp [Value.new]⟩

section
variable {c : Codec} (hc : c.Exact) {ops : List Operation}
include hc

/-- A run of `floatGeneric` on a value whose cached number is what its bytes decode to leaves the
bytes the run on the freshly read bytes leaves; its result caches the number it wrote. -/
theorem floatGeneric_fresh {v : Value} (hf : ∀ x, v.vfloat = some x → c.parseFloat v.raw = some x)
    (input : Bytes) (add : Bool) :
    ExceptRel (fun v' v'' => v'.raw = v''.raw ∧ v'.vset = v.vset ∧ v'.vfloat.isSome ∧
        ∀ x, v'.vfloat = some x → c.parseFloat v'.raw = some x)
      (floatGeneric c input v add) (floatGeneric c input (Value.new v.raw) add) := by
  unfold floatGeneric Value.float
  dsimp only [Value.new]
  cases hv : v.vfloat with
  | none => cases c.parseFloat v.raw <;> cases c.parseFloat input <;> simp [ExceptRel, hv, hc.float]
  | some x =>
    rw [hf x hv]
    cases c.parseFloat input <;> simp [ExceptRel, hc.float]

theorem setGeneric_fresh {v : Value} (hs : ∀ S, v.vset = some S → c.parseSet v.raw = some S)
    (input : Bytes) (add : Bool) :
    ExceptRel (fun v' v'' => v'.raw = v''.raw ∧ v'.vfloat = v.vfloat ∧ v'.vset.isSome ∧
        ∀ S, v'.vset = some S → c.parseSet v'.raw = some S)
      (setGeneric c input v add) (setGeneric c input (Value.new v.raw) add) := by
  unfold setGeneric Value.set
  dsimp only [Value.new]
  cases hv : v.vset with
  | none => cases c.parseSet v.raw <;> simp [ExceptRel, hv, hc.set]
  | some S => simp [hs S hv, ExceptRel, hc.set]

/-- The step of the refinement: on a key whose operations do not mix numbers and sets, an
operation run on the cached value leaves the bytes it leaves when run on the freshly read bytes,
and a value that still fits. -/
theorem exec_fresh (hu : ∀ o1 ∈ ops, ∀ o2 ∈ ops, IsNumOp o1.op → ¬IsElemOp o2.op) {o : Operation}
    (ho : o ∈ ops) {v : Value} (hv : v.Fits c ops) :
    ExceptRel (fun v' v'' => v'.raw = v''.raw ∧ v'.Fits c ops)
      (o.exec c v) (o.exec c (Value.new v.raw)) := by
  have hnum : IsNumOp o.op → v.vset = none := fun hn =>
    Option.not_isSome_iff_eq_none.mp fun hs =>
      let ⟨o2, ho2, he⟩ := hv.vset hs
      hu o ho o2 ho2 hn he
  have helem : IsElemOp o.op → v.vfloat = none := fun he =>
    Option.not_isSome_iff_eq_none.mp fun hf =>
      let ⟨o1, ho1, hn⟩ := hv.vfloat hf
      hu o1 ho1 o ho hn he
  unfold Operation.exec
  split
  case h_1 | h_2 =>
    exact ⟨rfl, Value.fits_new c ops _⟩
  case h_3 hop | h_4 hop =>
    have hn : IsNumOp o.op := by simp [IsNumOp, hop]
    exact (floatGeneric_fresh hc hv.float o.data _).imp fun _ _ ⟨hraw, hset, hfl, hflv⟩ =>
      ⟨hraw, hflv, by simp [hset, hnum hn], fun _ => ⟨o, ho, hn⟩, by simp [hset, hnum hn]⟩
  case h_5 hop | h_6 hop =>
    have he : IsElemOp o.op := by simp [IsElemOp, hop]
    exact (setGeneric_fresh hc hv.set o.data _).imp fun _ _ ⟨hraw, hfl, hset, hsetv⟩ =>
      ⟨hraw, by simp [hfl, helem he], hsetv, by simp [hfl, helem he], fun _ => ⟨o, ho, he⟩⟩
  case h_7 => trivial
end

/-- A value whose cached number, or set, is the one its bytes were written from. -/
structure Operations.Value.Written (c : Codec) (v : Value) : Prop where
  float : ∀ x, v.vfloat = some x → v.raw = c.formatFloat x
  set : ∀ S, v.vset = some S → v.raw = c.formatSet S

@[simp] theorem Operations.Value.written_new (c : Codec) (raw : Bytes) : (Value.new raw).Written c :=
  ⟨by simp [Value.new], by simp [Value.new]⟩

section
variable {c : Codec} (hd : c.Disjoint) {v : Value}
include hd

/-- Where no form reads as the other, bytes that read as a number were not written from a set:
after a number is written, the value caches it and no set. -/
theorem Operations.Value.Written.writeFloat (hv : v.Written c) {x : ℚ}
    (hx : c.parseFloat v.raw = some x) (r : ℚ) :
    ({ v with vfloat := some r, raw := c.formatFloat r } : Value).Written c := by
  refine ⟨fun y hy => by cases hy; rfl, fun S hS => ?_⟩
  rw [hv.set S hS, hd.set] at hx
  cases hx

theorem Operations.Value.Written.writeSet (hv : v.Written c) {T : Finset Bytes}
    (hT : c.parseSet v.raw = some T) (S' : Finset Bytes) :
    ({ v with vset := some S', raw := c.formatSet S' } : Value).Written c := by
  refine ⟨fun x hx => ?_, fun S hS => by cases hS; rfl⟩
  rw [hv.float x hx, hd.float] at hT
  cases hT

variable (hc : c.Exact)
include hc

theorem floatGeneric_written (hv : v.Written c) (input : Bytes) (add : Bool) :
    ExceptRel (fun v' v'' => v'.raw = v''.raw ∧ v'.Written c)
      (floatGeneric c input v add) (floatGeneric c input (Value.new v.raw) add) := by
  unfold floatGeneric Value.float
  dsimp only [Value.new]
  cases hv' : v.vfloat with
  | none =>
    cases hp : c.parseFloat v.raw <;> cases c.parseFloat input <;> simp only [ExceptRel, Option.map, true_and]
    exact hv.writeFloat hd hp _
  | some x =>
    have hp : c.parseFloat v.raw = some x := by rw [hv.float x hv', hc.float]
    rw [hp]
    cases c.parseFloat input <;> simp only [ExceptRel, Option.map, true_and]
    exact hv.writeFloat hd hp _

theorem setGeneric_written (hv : v.Written c) (input : Bytes) (add : Bool) :
    ExceptRel (fun v' v'' => v'.raw = v''.raw ∧ v'.Written c)
      (setGeneric c input v add) (setGeneric c input (Value.new v.raw) add) := by
  unfold setGeneric Value.set
  dsimp only [Value.new]
  cases hv' : v.vset with
  | none =>
    cases hp : c.parseSet v.raw <;> simp only [ExceptRel, Option.map, true_and]
    exact hv.writeSet hd hp _
  | some S =>
    have hp : c.parseSet v.raw = some S := by rw [hv.set S hv', hc.set]
    simp only [hp, ExceptRel, Option.map, true_and]
    exact hv.writeSet hd hp _

/-- The step of the refinement where no form reads as the other: an operation run on a value whose
caches are what its bytes were written from leaves the bytes it leaves on the freshly read bytes,
and such a value again. -/
theorem exec_written {o : Operation} (hv : v.Written c) :
    ExceptRel (fun v' v'' => v'.raw = v''.raw ∧ v'.Written c)
      (o.exec c v) (o.exec c (Value.new v.raw)) := by
  unfold Operation.exec
  split
  case h_1 | h_2 => exact ⟨rfl, Value.written_new c _⟩
  case h_3 | h_4 => exact floatGeneric_written hd hc hv o.data _
  case h_5 | h_6 => exact setGeneric_written hd hc hv o.data _
  case h_7 => trivial
end

/-- The operations of `q` on one key do not mix numbers and sets. -/
theorem Query.Unmixed.opsOn {q : Query} (hq : q.Unmixed) (k : String) :
    ∀ o1 ∈ q.opsOn k, ∀ o2 ∈ q.opsOn k, IsNumOp o1.op → ¬IsElemOp o2.op := fun o1 h1 o2 h2 => by
  rw [mem_opsOn] at h1 h2
  exact hq o1 h1.1 o2 h2.1 (h1.2.trans h2.2.symm)

/-! ### The refinement -/

/-- How the values of `apply`'s loop stand to the working store of the run one at a time: a key
not met yet is as stored; a key met was read without a fault, holds the bytes of its value with
their version, and its value satisfies `P`. -/
structure Tracks (P : String → Value → Prop) (sha512 : Bytes → Bytes) (kv : Store)
    (fault : String → Option String) (values : String → Option Value) (w : Store) : Prop where
  unmet : ∀ k, values k = none → w k = kv k
  met : ∀ k v, values k = some v →
    fault k = none ∧ w k = some (v.raw, newVersion sha512 v.raw) ∧ P k v

section
variable {c : Codec} {sha512 : Bytes → Bytes} {kv : Store} {fault : String → Option String}
  {q : Query} {values : String → Option Value} {w : Store} {P : String → Value → Prop}

theorem tracks_init : Tracks P sha512 kv fault (fun _ => none) kv :=
  ⟨fun _ _ => rfl, fun _ _ h => Option.noConfusion h⟩

/-- Both runs read the same bytes for a key: `apply` its value, which satisfies `P`, and the run
one at a time the bytes of that value. -/
theorem Tracks.read (hnew : ∀ k raw, P k (Value.new raw)) (ht : Tracks P sha512 kv fault values w)
    (k : String) :
    ExceptRel (fun v0 v1 => v1 = Value.new v0.raw ∧ P k v0 ∧ fault k = none)
      (valueOf kv fault values k) (freshValue w fault k) := by
  cases hv : values k with
  | none =>
    unfold valueOf readValue freshValue Store.get
    rw [hv, ht.unmet k hv]
    rcases hk : kv k with _ | ⟨b, ver⟩ <;> cases hf : fault k <;>
      simp [ExceptRel, GetResult.err, GetResult.isNoVersion, GetResult.value, hnew]
  | some v0 =>
    obtain ⟨hf, hwk, hfit⟩ := ht.met k v0 hv
    simp [valueOf, hv, freshValue, Store.get, hf, hwk, GetResult.value, ExceptRel, hfit]

theorem Tracks.update (ht : Tracks P sha512 kv fault values w) {k : String} {v : Value}
    (hfit : P k v) (hf : fault k = none) :
    Tracks P sha512 kv fault (Function.update values k (some v))
      (Function.update w k (some (v.raw, newVersion sha512 v.raw))) := by
  constructor
  · intro k' hk'
    by_cases h : k' = k
    · subst h
      simp at hk'
    · rw [Function.update_noteq h] at hk' ⊢
      exact ht.unmet k' hk'
  · intro k' v' hk'
    by_cases h : k' = k
    · subst h
      obtain rfl : v = v' := by simpa using hk'
      simp [hf, hfit]
    · rw [Function.update_noteq h] at hk' ⊢
      exact ht.met k' v' hk'

/-- One operation keeps `Tracks`, and fails in `apply` exactly when it fails in the run one at a
time, provided it leaves, run on a value that satisfies `P`, the bytes it leaves on the freshly read
bytes, and a value that satisfies `P`. -/
theorem tracks_step (hnew : ∀ k raw, P k (Value.new raw)) {op : Operation}
    (hexec : ∀ v, P op.key v → ExceptRel (fun v' v'' => v'.raw = v''.raw ∧ P op.key v')
      (op.exec c v) (op.exec c (Value.new v.raw)))
    (ht : Tracks P sha512 kv fault values w) :
    ExceptRel (Tracks P sha512 kv fault) (execStep c kv fault values op)
      (stepFresh c sha512 fault w op) := by
  have hr := ht.read hnew op.key
  unfold execStep stepFresh
  revert hr
  cases valueOf kv fault values op.key <;> cases freshValue w fault op.key <;>
    simp only [ExceptRel, imp_self, IsEmpty.forall_iff, and_imp]
  rintro rfl hfit hf
  have hx := hexec _ hfit
  revert hx
  cases op.exec c _ <;> cases op.exec c (Value.new _) <;> simp only [ExceptRel, imp_self, and_imp]
  intro hraw hfit'
  rw [← hraw]
  exact ht.update hfit' hf

/-- `apply` is the run that re-reads and re-decodes before every operation and rolls back on the
first failure, for any property `P` of the values that the values first read have and that every
operation of `q` keeps, leaving the bytes it leaves on the freshly read bytes. -/
theorem applyGet_eq_oneAtATime_of (hnew : ∀ k raw, P k (Value.new raw))
    (hexec : ∀ op ∈ q.operations, ∀ v, P op.key v →
      ExceptRel (fun v' v'' => v'.raw = v''.raw ∧ P op.key v')
        (op.exec c v) (op.exec c (Value.new v.raw))) :
    applyGet c sha512 kv fault q = oneAtATime c sha512 kv fault q := by
  have h : ExceptRel (Tracks P sha512 kv fault)
      (q.operations.foldlM (execStep c kv fault) (fun _ => none))
      (q.operations.foldlM (stepFresh c sha512 fault) kv) :=
    foldlM_exceptRel _ (fun op hop _ _ ht => by exact tracks_step hnew (hexec op hop) ht) tracks_init
  unfold applyGet oneAtATime execOpsGet
  revert h
  cases q.operations.foldlM (execStep c kv fault) (fun _ => none) with
  | error e => cases q.operations.foldlM (stepFresh c sha512 fault) kv <;> simp [ExceptRel]
  | ok values =>
    cases q.operations.foldlM (stepFresh c sha512 fault) kv with
    | error e => simp [ExceptRel]
    | ok w =>
      intro ht
      funext k
      dsimp only
      cases hv : values k with
      | none => exact (ht.unmet k hv).symm
      | some v => exact (ht.met k v hv).2.1.symm

/-- Where the codec reads back what it writes, and either never reads one form as the other or no
key of `q` mixes numbers and sets, `apply` is the run that re-reads and re-decodes before every
operation and rolls back on the first failure. -/
theorem applyGet_eq_oneAtATime (hc : c.Exact) (hq : c.Disjoint ∨ q.Unmixed) :
    applyGet c sha512 kv fault q = oneAtATime c sha512 kv fault q := by
  rcases hq with hd | hq
  · exact applyGet_eq_oneAtATime_of (P := fun _ v => v.Written c)
      (fun _ raw => Value.written_new c raw) fun _ _ _ hv => exec_written hd hc hv
  · exact applyGet_eq_oneAtATime_of (P := fun k v => v.Fits c (q.opsOn k))
      (fun k raw => Value.fits_new c _ raw)
      fun op hop _ hv => exec_fresh hc (hq.opsOn op.key) (mem_opsOn.mpr ⟨hop, rfl⟩) hv
end

/-- `SADD e`, `ADD five`, `SADD seven` on a key the store does not have, with a codec that reads
the bytes of `{e}` as the number 0 and cannot read the text of 5 as a set: the `ADD` of `apply`
keeps the set cached by the first `SADD`, and the second `SADD` adds to it and succeeds; the run
one at a time reads the text of 5 as a set, fails, and rolls back. -/
theorem apply_stale_set_of {c : Codec} {e five seven : Bytes} (hempty : c.parseSet [] = some ∅)
    (hzero : c.parseFloat (c.formatSet {e}) = some 0) (hfive : c.parseFloat five = some 5)
    (hbad : c.parseSet (c.formatFloat 5) = none) :
    applyGet c id (fun _ => none) (fun _ => none)
        (opsQuery "q" "p" [⟨"k", .sadd, e⟩, ⟨"k", .add, five⟩, ⟨"k", .sadd, seven⟩]) "k" ≠ none ∧
      oneAtATime c id (fun _ => none) (fun _ => none)
        (opsQuery "q" "p" [⟨"k", .sadd, e⟩, ⟨"k", .add, five⟩, ⟨"k", .sadd, seven⟩]) =
        fun _ => none := by
  constructor
  · simp [applyGet, execOpsGet, execStep, valueOf, readValue, Store.get, GetResult.err,
      GetResult.isNoVersion, GetResult.value, opsQuery, Operation.exec, setGeneric, floatGeneric,
      Value.set, Value.float, Value.new, combine, hempty, hzero, hfive]
  · simp [oneAtATime, stepFresh, freshValue, Store.get, GetResult.value, opsQuery, Operation.exec,
      setGeneric, floatGeneric, Value.set, Value.float, Value.new, combine, hempty, hzero, hfive,
      hbad]

end PnyxDB.Consensus
