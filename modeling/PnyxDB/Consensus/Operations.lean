import PnyxDB.Consensus.Structures
import Mathlib.Algebra.Ring.Rat
import Mathlib.Data.Finset.Basic
import Mathlib.Data.Rat.Encodable
import Mathlib.Logic.Equiv.List

/-!
The operations of a query and their application to the key-value store: the runners of
`consensus/operations` (`Value`, `Set`, `Append`, `Add`, `Mul`), `Operation.Exec` of
`consensus/bbc/veto.go`, and the loop of `Engine.apply`.

`encoding.Float` and `encoding.Set`, and the runners `Sadd` and `Srem`, are not part of the sources.
Following §4.9 of the spec, a number is an exact rational and a set is a finite set of byte strings;
their text and binary forms are a parameter (`Codec`), assumed to read back what they write
(`Codec.Exact`) where a statement needs it. The store is a map from keys to a value and its
version; `Store.Get` of a missing key returns `NoVersion`, which `apply` accepts, and no other error.

Two queries of one policy whose operations pass `CheckConflict` give the same store in either
order, also when one of them aborts (`apply_commutes_of_parallel`). The run of a query splits key
by key (`applyQuery_eq`): the operations on one key see only that key's value, and a query writes
all its keys or none. On a key both queries write, the conflict matrix leaves four cases: `SET`s of
one operand, `ADD`s, `MUL`s, or `SADD`s and `SREM`s that never add and remove one element; in each
the two lists of operations commute. `CheckConflict` does not compare queries of two policies, and
those do not commute (`apply_policies_do_not_commute`).
-/

namespace PnyxDB.Consensus

/-- The text form of `encoding.Float` and the binary form of `encoding.Set`. -/
structure Codec where
  parseFloat : Bytes → Option ℚ
  formatFloat : ℚ → Bytes
  parseSet : Bytes → Option (Finset Bytes)
  formatSet : Finset Bytes → Bytes

/-- What a codec writes, it reads back: the exact arithmetic and finite sets of §4.9. -/
structure Codec.Exact (c : Codec) : Prop where
  float : ∀ x, c.parseFloat (c.formatFloat x) = some x
  set : ∀ S, c.parseSet (c.formatSet S) = some S

/-- The two forms never read as each other: a number's text is not the bytes of a set, nor are a
set's bytes the text of a number. The package `encoding` is not in the sources; its helper
`uint64ToBytes` writes 8-byte little-endian integers, and a length written so holds a zero byte,
which is not decimal text, unless it is at least `2^56`. -/
structure Codec.Disjoint (c : Codec) : Prop where
  float : ∀ x, c.parseSet (c.formatFloat x) = none
  set : ∀ S, c.parseFloat (c.formatSet S) = none

/-- Bytes are numbers below 256. -/
instance instEncodableUInt8 : Encodable UInt8 :=
  Encodable.ofEquiv (Fin UInt8.size) ⟨UInt8.val, fun f => ⟨⟨f⟩⟩, fun _ => rfl, fun _ => rfl⟩

/-- An exact codec: a value is written as as many zero bytes as its code number. -/
def Codec.unary : Codec where
  parseFloat b := Encodable.decode b.length
  formatFloat x := List.replicate (Encodable.encode x) 0
  parseSet b := Encodable.decode b.length
  formatSet S := List.replicate (Encodable.encode S) 0

theorem Codec.unary_exact : Codec.unary.Exact :=
  ⟨fun x => by simp [Codec.unary], fun S => by simp [Codec.unary]⟩

namespace Operations

/-- `Value`: the raw bytes and the number or set last read from them, if any. -/
structure Value where
  raw : Bytes
  vfloat : Option ℚ
  vset : Option (Finset Bytes)

/-- `NewValue(raw)`. -/
def Value.new (raw : Bytes) : Value := ⟨raw, none, none⟩

/-- `Value.Float()`: the cached number, or the raw bytes read as one and cached. -/
def Value.float (c : Codec) (v : Value) : Option (ℚ × Value) :=
  match v.vfloat with
  | some x => some (x, v)
  | none => (c.parseFloat v.raw).map fun x => (x, { v with vfloat := some x })

/-- `Value.Set()`: the cached set, or the raw bytes read as one and cached. -/
def Value.set (c : Codec) (v : Value) : Option (Finset Bytes × Value) :=
  match v.vset with
  | some S => some (S, v)
  | none => (c.parseSet v.raw).map fun S => (S, { v with vset := some S })

def errNotNumeric : String := "non-numeric value"
def errNotValidSet : String := "non-valid set"

/-- `Set`: the value becomes the input. -/
def set (input : Bytes) (_current : Value) : Except String Value := .ok ⟨input, none, none⟩

/-- `Append`: the input is appended to the raw value. -/
def append (input : Bytes) (current : Value) : Except String Value :=
  .ok ⟨current.raw ++ input, none, none⟩

/-- `a.Add(b)` or `a.Mul(b)`. -/
def combine (add : Bool) (a b : ℚ) : ℚ := if add then a + b else a * b

/-- `floatGeneric`: the input read as a number is added to, or multiplies, the current number. -/
def floatGeneric (c : Codec) (input : Bytes) (current : Value) (add : Bool) :
    Except String Value :=
  match current.float c, c.parseFloat input with
  | some (b, current), some a =>
    let r := combine add a b
    .ok { current with vfloat := some r, raw := c.formatFloat r }
  | _, _ => .error errNotNumeric

/-- Modelled from the spec: `Sadd` and `Srem`, which add the input to, or remove it from, the current
value read as a set. -/
def setGeneric (c : Codec) (input : Bytes) (current : Value) (add : Bool) : Except String Value :=
  match current.set c with
  | some (S, current) =>
    let S := if add then insert input S else S.erase input
    .ok { current with vset := some S, raw := c.formatSet S }
  | none => .error errNotValidSet

end Operations

open Operations

/-- `Operation.Exec(v)`: the runner of the opcode, if there is one. -/
def Operation.exec (c : Codec) (o : Operation) (v : Value) : Except String Value :=
  match o.op with
  | .set => Operations.set o.data v
  | .concat => append o.data v
  | .add => floatGeneric c o.data v true
  | .mul => floatGeneric c o.data v false
  | .sadd => setGeneric c o.data v true
  | .srem => setGeneric c o.data v false
  | .other _ => .error "operation not yet implemented"

/-- The key-value store: the value and version stored under each key. -/
abbrev Store := String → Option (Bytes × Version)

/-- The data `Store.Get(key)` gives `apply`: the stored value, nil for a missing key. -/
def Store.getData (kv : Store) (key : String) : Bytes := ((kv key).map Prod.fst).getD []

/-- `NewVersion(data)`: the SHA-512 digest of the data. -/
def newVersion (sha512 : Bytes → Bytes) (data : Bytes) : Version := ⟨sha512 data⟩

/-- The operation loop of `apply`: `values` holds the value of each key met so far; a key is read
from the store the first time it is met. -/
def execOps (c : Codec) (kv : Store) :
    (String → Option Value) → List Operation → Except String (String → Option Value)
  | values, [] => .ok values
  | values, op :: ops =>
    match op.exec c ((values op.key).getD (Value.new (kv.getData op.key))) with
    | .error e => .error e
    | .ok v => execOps c kv (Function.update values op.key (some v)) ops

/-- `apply` of the query `q` on the store `kv`: nothing is written if an operation fails; otherwise
`SetBatch` writes each key met with its new value and that value's version. -/
def applyQuery (c : Codec) (sha512 : Bytes → Bytes) (kv : Store) (q : Query) : Store :=
  match execOps c kv (fun _ => none) q.operations with
  | .error _ => kv
  | .ok values => fun k =>
    match values k with
    | some v => some (v.raw, newVersion sha512 v.raw)
    | none => kv k

/-! ### A query's run, key by key -/

/-- The operations `ops` run in order from `v`; `none` if one fails. -/
def runOn (c : Codec) (ops : List Operation) (v : Value) : Option Value :=
  ops.foldlM (fun v op => (op.exec c v).toOption) v

/-- The operations of `q` on `key`. -/
def Query.opsOn (q : Query) (key : String) : List Operation := q.operations.filter (·.key = key)

/-- The raw value the operations `ops` leave when run on the raw value `r`. -/
def rawRun (c : Codec) (ops : List Operation) (r : Bytes) : Option Bytes :=
  (runOn c ops (Value.new r)).map (·.raw)

@[simp] theorem runOn_nil (c : Codec) (v : Value) : runOn c [] v = some v := rfl

theorem runOn_cons (c : Codec) (op : Operation) (ops : List Operation) (v : Value) :
    runOn c (op :: ops) v = (op.exec c v).toOption.bind (runOn c ops) := rfl

section
variable (c : Codec) (kv : Store)

/-- The value the loop of `apply` runs the next operation on `key` on. -/
def startValue (values : String → Option Value) (key : String) : Value :=
  (values key).getD (Value.new (kv.getData key))

theorem runOn_filter_of_not_mem {ops : List Operation} {key : String}
    (h : key ∉ ops.map Operation.key) (v : Value) : runOn c (ops.filter (·.key = key)) v = some v := by
  rw [List.filter_eq_nil_iff.mpr fun op hop => by
    simpa using fun he => h (List.mem_map.mpr ⟨op, hop, he⟩)]
  rfl

/-- After a successful operation, each key's remaining run starts where the loop left it. -/
theorem runOn_filter_cons {op : Operation} (ops : List Operation) {values : String → Option Value}
    {v : Value} (hv : op.exec c (startValue kv values op.key) = .ok v) (k : String) :
    runOn c ((op :: ops).filter (·.key = k)) (startValue kv values k) =
      runOn c (ops.filter (·.key = k)) (startValue kv (Function.update values op.key (some v)) k) := by
  by_cases hk : op.key = k
  · subst hk
    rw [List.filter_cons_of_pos (by simp), runOn_cons, hv]
    simp [Except.toOption, startValue]
  · simp [List.filter_cons, hk, startValue, Function.update_noteq (Ne.symm hk)]

/-- The loop of `apply` succeeds exactly when the run of each key succeeds, and then holds the
result of each key's run. -/
theorem execOps_toOption : ∀ (ops : List Operation) (values : String → Option Value),
    (execOps c kv values ops).toOption =
      if ∀ k ∈ ops.map Operation.key, (runOn c (ops.filter (·.key = k)) (startValue kv values k)).isSome
      then some fun k => if k ∈ ops.map Operation.key then
        runOn c (ops.filter (·.key = k)) (startValue kv values k) else values k
      else none
  | [], values => by simp [execOps, Except.toOption]
  | op :: ops, values => by
    cases hv : op.exec c (startValue kv values op.key) with
    | error e =>
      have hfail : runOn c ((op :: ops).filter (·.key = op.key)) (startValue kv values op.key) =
          none := by
        simp [List.filter_cons, runOn_cons, hv, Except.toOption]
      rw [if_neg fun h => absurd (h op.key (List.mem_cons_self _ _)) (by rw [hfail]; simp)]
      simp only [execOps]
      rw [show (values op.key).getD (Value.new (kv.getData op.key)) =
        startValue kv values op.key from rfl, hv]
      rfl
    | ok v =>
      obtain ⟨values', hvals⟩ : ∃ values', values' = Function.update values op.key (some v) :=
        ⟨_, rfl⟩
      have hstep := runOn_filter_cons c kv ops hv
      rw [← hvals] at hstep
      have hexec : execOps c kv values (op :: ops) = execOps c kv values' ops := by
        simp only [execOps]
        rw [show (values op.key).getD (Value.new (kv.getData op.key)) =
          startValue kv values op.key from rfl, hv, hvals]
      rw [hexec, execOps_toOption ops values']
      simp only [hstep]
      have hself : op.key ∉ ops.map Operation.key →
          runOn c (ops.filter (·.key = op.key)) (startValue kv values' op.key) = some v := by
        intro h
        rw [runOn_filter_of_not_mem c h]
        simp [startValue, hvals]
      have hcond : (∀ k ∈ ops.map Operation.key,
          (runOn c (ops.filter (·.key = k)) (startValue kv values' k)).isSome) ↔
          ∀ k ∈ (op :: ops).map Operation.key,
            (runOn c (ops.filter (·.key = k)) (startValue kv values' k)).isSome := by
        refine ⟨fun h k hk => ?_, fun h k hk => h k (List.mem_cons_of_mem _ hk)⟩
        by_cases hm : k ∈ ops.map Operation.key
        · exact h k hm
        · obtain rfl : k = op.key := by simpa [hm] using hk
          simp [hself hm]
      have hfun : (fun k => if k ∈ ops.map Operation.key then
            runOn c (ops.filter (·.key = k)) (startValue kv values' k) else values' k) =
          fun k => if k ∈ (op :: ops).map Operation.key then
            runOn c (ops.filter (·.key = k)) (startValue kv values' k) else values k := by
        funext k
        by_cases hm : k ∈ ops.map Operation.key
        · simp [hm]
        · by_cases hk : k = op.key
          · subst hk
            rw [if_neg hm, List.map_cons, if_pos (List.mem_cons_self _ _), hself hm, hvals,
              Function.update_same]
          · simp [hm, hk, hvals, Function.update_noteq hk]
      by_cases hc : ∀ k ∈ ops.map Operation.key,
          (runOn c (ops.filter (·.key = k)) (startValue kv values' k)).isSome
      · rw [if_pos hc, if_pos (hcond.mp hc), hfun]
      · rw [if_neg hc, if_neg (mt hcond.mpr hc)]
end

/-- `apply` of a query, key by key: if the run of each of its keys succeeds, every key it names is
written with the value its own run leaves and that value's version; otherwise nothing is. -/
theorem applyQuery_eq (c : Codec) (sha512 : Bytes → Bytes) (kv : Store) (q : Query) :
    applyQuery c sha512 kv q =
      if ∀ k ∈ q.operations.map Operation.key, (rawRun c (q.opsOn k) (kv.getData k)).isSome then
        fun k => if k ∈ q.operations.map Operation.key then
          (rawRun c (q.opsOn k) (kv.getData k)).map fun r => (r, newVersion sha512 r) else kv k
      else kv := by
  have h := execOps_toOption c kv q.operations (fun _ => none)
  simp only [startValue, Option.getD_none] at h
  simp only [rawRun, Option.isSome_map', Query.opsOn]
  unfold applyQuery
  cases he : execOps c kv (fun _ => none) q.operations with
  | error e =>
    rw [he] at h
    split_ifs at h ⊢ with hc
    · simp [Except.toOption] at h
    · rfl
  | ok values =>
    rw [he] at h
    split_ifs at h ⊢ with hc
    · simp only [Except.toOption, Option.some.injEq] at h
      subst h
      funext k
      by_cases hk : k ∈ q.operations.map Operation.key
      · obtain ⟨v, hv⟩ := Option.isSome_iff_exists.mp (hc k hk)
        simp [hk, hv]
      · simp [hk]
    · simp [Except.toOption] at h

/-! ### Two lists of operations on one key -/

/-- Two lists of operations on one key commute: each succeeds after the other exactly when it
succeeds alone, and the two orders leave the same raw value. -/
structure KeyCommute (c : Codec) (L1 L2 : List Operation) : Prop where
  left : ∀ r r2, rawRun c L2 r = some r2 → ((rawRun c L1 r2).isSome ↔ (rawRun c L1 r).isSome)
  right : ∀ r r1, rawRun c L1 r = some r1 → ((rawRun c L2 r1).isSome ↔ (rawRun c L2 r).isSome)
  comm : ∀ r r1 r2, rawRun c L1 r = some r1 → rawRun c L2 r = some r2 →
    rawRun c L1 r2 = rawRun c L2 r1

/-- `SET`s of one operand `x`: the key ends with `x` whatever it held. -/
theorem runOn_sets (c : Codec) {x : Bytes} :
    ∀ {L : List Operation}, (∀ o ∈ L, o.op = .set ∧ o.data = x) → L ≠ [] →
      ∀ v, runOn c L v = some ⟨x, none, none⟩
  | [], _, hne, _ => absurd rfl hne
  | o :: L, h, _, v => by
    obtain ⟨hop, hd⟩ := h o (List.mem_cons_self _ _)
    have hL : ∀ o ∈ L, o.op = .set ∧ o.data = x := fun o' ho' => h o' (List.mem_cons_of_mem _ ho')
    have hexec : o.exec c v = .ok ⟨x, none, none⟩ := by
      simp [Operation.exec, hop, Operations.set, hd]
    rw [runOn_cons, hexec]
    by_cases hne : L = []
    · subst hne
      rfl
    · exact runOn_sets c hL hne _

theorem keyCommute_sets (c : Codec) {x : Bytes} {L1 L2 : List Operation}
    (h1 : ∀ o ∈ L1, o.op = .set ∧ o.data = x) (h2 : ∀ o ∈ L2, o.op = .set ∧ o.data = x)
    (hne1 : L1 ≠ []) (hne2 : L2 ≠ []) : KeyCommute c L1 L2 := by
  have hr : ∀ L : List Operation, (∀ o ∈ L, o.op = .set ∧ o.data = x) → L ≠ [] →
      ∀ r, rawRun c L r = some x := fun L h hne r => by simp [rawRun, runOn_sets c h hne]
  refine ⟨fun r r2 _ => ?_, fun r r1 _ => ?_, fun r r1 r2 _ _ => ?_⟩ <;>
    simp [hr L1 h1 hne1, hr L2 h2 hne2]

/-- The numbers an `ADD` (`add`) or `MUL` list makes of `y`, if every operand reads as a number. -/
def floatFold (c : Codec) (add : Bool) (L : List Operation) (y : ℚ) : Option ℚ :=
  L.foldlM (fun y o => (c.parseFloat o.data).map fun a => combine add a y) y

/-- The opcode of `floatGeneric add`. -/
def floatOp (add : Bool) : Op := if add then .add else .mul

theorem combine_left_comm (add : Bool) (a b y : ℚ) :
    combine add a (combine add b y) = combine add b (combine add a y) := by
  cases add
  · exact mul_left_comm a b y
  · exact add_left_comm a b y

theorem floatFold_isSome (c : Codec) (add : Bool) :
    ∀ (L : List Operation) (y y' : ℚ), (floatFold c add L y).isSome = (floatFold c add L y').isSome
  | [], _, _ => rfl
  | o :: L, y, y' => by
    simp only [floatFold, List.foldlM_cons]
    cases c.parseFloat o.data with
    | none => rfl
    | some a => exact floatFold_isSome c add L _ _

theorem floatFold_combine (c : Codec) (add : Bool) (a : ℚ) :
    ∀ (L : List Operation) (y : ℚ),
      floatFold c add L (combine add a y) = (floatFold c add L y).map (combine add a)
  | [], _ => rfl
  | o :: L, y => by
    simp only [floatFold, List.foldlM_cons]
    cases c.parseFloat o.data with
    | none => rfl
    | some b =>
      simp only [Option.map_some', Option.some_bind]
      rw [combine_left_comm]
      exact floatFold_combine c add a L _

theorem floatFold_comm (c : Codec) (add : Bool) (L1 : List Operation) :
    ∀ (L2 : List Operation) (y z1 z2 : ℚ), floatFold c add L1 y = some z1 →
      floatFold c add L2 y = some z2 → floatFold c add L1 z2 = floatFold c add L2 z1
  | [], _, _, _, h1, h2 => by
    simp only [floatFold, List.foldlM_nil, Option.pure_def, Option.some.injEq] at h2
    subst h2
    rw [h1]
    rfl
  | o :: L2, y, z1, z2, h1, h2 => by
    simp only [floatFold, List.foldlM_cons] at h2 ⊢
    cases hb : c.parseFloat o.data with
    | none => simp [hb] at h2
    | some b =>
      simp only [hb, Option.map_some', Option.some_bind] at h2 ⊢
      have h1' : floatFold c add L1 (combine add b y) = some (combine add b z1) := by
        rw [floatFold_combine, h1]
        rfl
      exact floatFold_comm c add L1 L2 _ _ _ h1' h2

/-- A list of `ADD`s or of `MUL`s reads the current number, then each operand. -/
theorem runOn_floats (c : Codec) {add : Bool} :
    ∀ {L : List Operation}, (∀ o ∈ L, o.op = floatOp add) → L ≠ [] → ∀ v,
      runOn c L v = (v.float c).bind fun p =>
        (floatFold c add L p.1).map fun z => ⟨c.formatFloat z, some z, p.2.vset⟩
  | [], _, hne, _ => absurd rfl hne
  | o :: L, h, _, v => by
    have hop := h o (List.mem_cons_self _ _)
    have hL : ∀ o ∈ L, o.op = floatOp add := fun o' ho' => h o' (List.mem_cons_of_mem _ ho')
    have hexec : o.exec c v = floatGeneric c o.data v add := by
      cases add <;> simp [Operation.exec, hop, floatOp]
    rw [runOn_cons, hexec]
    unfold floatGeneric
    cases hv : v.float c with
    | none => rfl
    | some p =>
      obtain ⟨y, v'⟩ := p
      cases ha : c.parseFloat o.data with
      | none => simp [floatFold, ha, Except.toOption]
      | some a =>
        simp only [Except.toOption, Option.some_bind, floatFold, List.foldlM_cons, ha,
          Option.map_some']
        by_cases hne : L = []
        · subst hne
          rfl
        · rw [runOn_floats c hL hne]
          rfl

theorem rawRun_floats (c : Codec) {add : Bool} {L : List Operation}
    (h : ∀ o ∈ L, o.op = floatOp add) (hne : L ≠ []) (r : Bytes) :
    rawRun c L r = (c.parseFloat r).bind fun y => (floatFold c add L y).map c.formatFloat := by
  simp only [rawRun, runOn_floats c h hne, Value.float, Value.new]
  cases c.parseFloat r <;> simp [Option.map_map, Function.comp_def]

theorem keyCommute_floats {c : Codec} (hc : c.Exact) (add : Bool) {L1 L2 : List Operation}
    (h1 : ∀ o ∈ L1, o.op = floatOp add) (h2 : ∀ o ∈ L2, o.op = floatOp add)
    (hne1 : L1 ≠ []) (hne2 : L2 ≠ []) : KeyCommute c L1 L2 := by
  have hout : ∀ {L : List Operation} {r r' : Bytes}, (∀ o ∈ L, o.op = floatOp add) → L ≠ [] →
      rawRun c L r = some r' → ∃ y z, c.parseFloat r = some y ∧
        floatFold c add L y = some z ∧ r' = c.formatFloat z := by
    intro L r r' h hne hr
    rw [rawRun_floats c h hne] at hr
    obtain ⟨y, hy, hr⟩ := Option.bind_eq_some.mp hr
    obtain ⟨z, hz, rfl⟩ := Option.map_eq_some'.mp hr
    exact ⟨y, z, hy, hz, rfl⟩
  have hafter : ∀ {L : List Operation} (z : ℚ), (∀ o ∈ L, o.op = floatOp add) → L ≠ [] →
      rawRun c L (c.formatFloat z) = (floatFold c add L z).map c.formatFloat := by
    intro L z h hne
    rw [rawRun_floats c h hne, hc.float, Option.some_bind]
  refine ⟨fun r r2 hr2 => ?_, fun r r1 hr1 => ?_, fun r r1 r2 hr1 hr2 => ?_⟩
  · obtain ⟨y, z, hy, hz, rfl⟩ := hout h2 hne2 hr2
    rw [hafter z h1 hne1, rawRun_floats c h1 hne1, hy, Option.some_bind, Option.isSome_map',
      Option.isSome_map', floatFold_isSome c add L1 z y]
  · obtain ⟨y, z, hy, hz, rfl⟩ := hout h1 hne1 hr1
    rw [hafter z h2 hne2, rawRun_floats c h2 hne2, hy, Option.some_bind, Option.isSome_map',
      Option.isSome_map', floatFold_isSome c add L2 z y]
  · obtain ⟨y, z1, hy, hz1, rfl⟩ := hout h1 hne1 hr1
    obtain ⟨y', z2, hy', hz2, rfl⟩ := hout h2 hne2 hr2
    obtain rfl : y = y' := Option.some_injective _ (hy.symm.trans hy')
    rw [hafter z2 h1 hne1, hafter z1 h2 hne2, floatFold_comm c add L1 L2 y z1 z2 hz1 hz2]

/-- The opcodes of `setGeneric`. -/
def IsElemOp (op : Op) : Prop := op = .sadd ∨ op = .srem

/-- What an `SADD` or `SREM` does to a set. -/
def elemStep (o : Operation) (S : Finset Bytes) : Finset Bytes :=
  if o.op = .sadd then insert o.data S else S.erase o.data

/-- The set an `SADD`/`SREM` list makes of `S`. -/
def setFold (L : List Operation) (S : Finset Bytes) : Finset Bytes :=
  L.foldl (fun S o => elemStep o S) S

theorem exec_elem (c : Codec) {o : Operation} (h : IsElemOp o.op) (v : Value) :
    o.exec c v = match v.set c with
      | some (S, v') => .ok { v' with vset := some (elemStep o S), raw := c.formatSet (elemStep o S) }
      | none => .error errNotValidSet := by
  rcases h with h | h <;> simp [Operation.exec, h, setGeneric, elemStep]

/-- A list of `SADD`s and `SREM`s reads the current set, then adds or removes each operand. -/
theorem runOn_elems (c : Codec) :
    ∀ {L : List Operation}, (∀ o ∈ L, IsElemOp o.op) → L ≠ [] → ∀ v,
      runOn c L v = (v.set c).map fun p =>
        ⟨c.formatSet (setFold L p.1), p.2.vfloat, some (setFold L p.1)⟩
  | [], _, hne, _ => absurd rfl hne
  | o :: L, h, _, v => by
    have hL : ∀ o ∈ L, IsElemOp o.op := fun o' ho' => h o' (List.mem_cons_of_mem _ ho')
    rw [runOn_cons, exec_elem c (h o (List.mem_cons_self _ _))]
    cases v.set c with
    | none => rfl
    | some p =>
      by_cases hne : L = []
      · subst hne
        rfl
      · rw [Except.toOption, Option.some_bind, runOn_elems c hL hne]
        rfl

theorem rawRun_elems (c : Codec) {L : List Operation} (h : ∀ o ∈ L, IsElemOp o.op) (hne : L ≠ [])
    (r : Bytes) : rawRun c L r = (c.parseSet r).map fun S => c.formatSet (setFold L S) := by
  simp only [rawRun, runOn_elems c h hne, Value.set, Value.new]
  cases c.parseSet r <;> rfl

/-- Two `SADD`/`SREM`s commute unless they add and remove one element. -/
theorem elemStep_comm {o1 o2 : Operation} (h1 : IsElemOp o1.op) (h2 : IsElemOp o2.op)
    (hx : o1.data = o2.data → o1.op = o2.op) (S : Finset Bytes) :
    elemStep o1 (elemStep o2 S) = elemStep o2 (elemStep o1 S) := by
  rcases h1 with h1 | h1 <;> rcases h2 with h2 | h2 <;> simp only [elemStep, h1, h2, if_true]
  · exact Finset.Insert.comm _ _ _
  · have hne : o1.data ≠ o2.data := fun he => by simp [h1, h2] at hx; exact hx he
    simp only [reduceCtorEq, if_false]
    exact (Finset.erase_insert_of_ne hne).symm
  · have hne : o2.data ≠ o1.data := fun he => by simp [h1, h2] at hx; exact hx he.symm
    simp only [reduceCtorEq, if_false]
    exact Finset.erase_insert_of_ne hne
  · simp only [reduceCtorEq, if_false]
    exact Finset.erase_right_comm

theorem elemStep_setFold {o : Operation} :
    ∀ {L : List Operation}, (∀ o' ∈ L, ∀ S, elemStep o (elemStep o' S) = elemStep o' (elemStep o S)) →
      ∀ S, elemStep o (setFold L S) = setFold L (elemStep o S)
  | [], _, _ => rfl
  | o' :: L, h, S => by
    rw [setFold, List.foldl_cons, ← setFold,
      elemStep_setFold (fun o'' ho'' => h o'' (List.mem_cons_of_mem _ ho'')),
      h o' (List.mem_cons_self _ _)]
    rfl

theorem setFold_comm {L1 : List Operation} :
    ∀ {L2 : List Operation}, (∀ o1 ∈ L1, ∀ o2 ∈ L2, ∀ S,
      elemStep o1 (elemStep o2 S) = elemStep o2 (elemStep o1 S)) →
      ∀ S, setFold L1 (setFold L2 S) = setFold L2 (setFold L1 S)
  | [], _, _ => rfl
  | o :: L2, h, S => by
    have hL2 : ∀ o1 ∈ L1, ∀ o2 ∈ L2, ∀ S,
        elemStep o1 (elemStep o2 S) = elemStep o2 (elemStep o1 S) :=
      fun o1 h1 o2 h2 => h o1 h1 o2 (List.mem_cons_of_mem _ h2)
    have ho : ∀ o1 ∈ L1, ∀ S, elemStep o (elemStep o1 S) = elemStep o1 (elemStep o S) :=
      fun o1 h1 S => (h o1 h1 o (List.mem_cons_self _ _) S).symm
    calc setFold L1 (setFold (o :: L2) S) = setFold L2 (setFold L1 (elemStep o S)) :=
          setFold_comm hL2 _
      _ = setFold (o :: L2) (setFold L1 S) := by
          rw [← elemStep_setFold ho]
          rfl

theorem keyCommute_elems {c : Codec} (hc : c.Exact) {L1 L2 : List Operation}
    (h1 : ∀ o ∈ L1, IsElemOp o.op) (h2 : ∀ o ∈ L2, IsElemOp o.op)
    (hx : ∀ o1 ∈ L1, ∀ o2 ∈ L2, o1.data = o2.data → o1.op = o2.op)
    (hne1 : L1 ≠ []) (hne2 : L2 ≠ []) : KeyCommute c L1 L2 := by
  have hout : ∀ {L : List Operation} {r r' : Bytes}, (∀ o ∈ L, IsElemOp o.op) → L ≠ [] →
      rawRun c L r = some r' → ∃ S, c.parseSet r = some S ∧ r' = c.formatSet (setFold L S) := by
    intro L r r' h hne hr
    rw [rawRun_elems c h hne] at hr
    obtain ⟨S, hS, rfl⟩ := Option.map_eq_some'.mp hr
    exact ⟨S, hS, rfl⟩
  have hafter : ∀ {L : List Operation} (S : Finset Bytes), (∀ o ∈ L, IsElemOp o.op) → L ≠ [] →
      rawRun c L (c.formatSet S) = some (c.formatSet (setFold L S)) := by
    intro L S h hne
    rw [rawRun_elems c h hne, hc.set]
    rfl
  refine ⟨fun r r2 hr2 => ?_, fun r r1 hr1 => ?_, fun r r1 r2 hr1 hr2 => ?_⟩
  · obtain ⟨S, hS, rfl⟩ := hout h2 hne2 hr2
    simp [hafter _ h1 hne1, rawRun_elems c h1 hne1, hS]
  · obtain ⟨S, hS, rfl⟩ := hout h1 hne1 hr1
    simp [hafter _ h2 hne2, rawRun_elems c h2 hne2, hS]
  · obtain ⟨S, hS, rfl⟩ := hout h1 hne1 hr1
    obtain ⟨S', hS', rfl⟩ := hout h2 hne2 hr2
    obtain rfl : S = S' := Option.some_injective _ (hS.symm.trans hS')
    rw [hafter _ h1 hne1, hafter _ h2 hne2,
      setFold_comm (fun o1 ho1 o2 ho2 => elemStep_comm (h1 o1 ho1) (h2 o2 ho2) (hx o1 ho1 o2 ho2))]

/-! ### What the conflict matrix allows -/

/-- The pairs of operations on one key that `ParallelMatrix` lets run in parallel. -/
def Operation.Parallel (o1 o2 : Operation) : Prop :=
  (o1.op = .set ∧ o2.op = .set ∧ o1.data = o2.data) ∨ (o1.op = .add ∧ o2.op = .add) ∨
    (o1.op = .mul ∧ o2.op = .mul) ∨
    (IsElemOp o1.op ∧ IsElemOp o2.op ∧ (o1.data = o2.data → o1.op = o2.op))

theorem Operation.parallel_of_checkConflict {o1 o2 : Operation} (hk : o1.key = o2.key)
    (h : o1.checkConflict o2 = none) : o1.Parallel o2 := by
  have h24 : (2 &&& 4 : Nat) = 0 := by decide
  have h42 : (4 &&& 2 : Nat) = 0 := by decide
  obtain ⟨k1, op1, d1⟩ := o1
  obtain ⟨k2, op2, d2⟩ := o2
  cases op1 <;> cases op2 <;>
    simp_all [Operation.checkConflict, Operation.Parallel, parallelMatrix, IsElemOp,
      parallelTypeDEFAULT, parallelTypeDISALLOWDIFFERENT, parallelTypeDISALLOWEQUAL]

namespace Operation.Parallel

variable {o1 o2 : Operation} (h : o1.Parallel o2)
include h

theorem op_eq_of_data (hd : o1.data = o2.data) : o1.op = o2.op := by
  rcases h with ⟨h1, h2, -⟩ | ⟨h1, h2⟩ | ⟨h1, h2⟩ | ⟨-, -, h⟩
  iterate 3 rw [h1, h2]
  exact h hd

theorem isElemOp_iff : IsElemOp o1.op ↔ IsElemOp o2.op := by
  rcases h with ⟨h1, h2, -⟩ | ⟨h1, h2⟩ | ⟨h1, h2⟩ | ⟨h1, h2, -⟩
  iterate 3 rw [h1, h2]
  exact iff_of_true h1 h2

theorem op_eq (hn : ¬IsElemOp o1.op) : o1.op = o2.op := by
  rcases h with ⟨h1, h2, -⟩ | ⟨h1, h2⟩ | ⟨h1, h2⟩ | ⟨h1, -, -⟩
  iterate 3 rw [h1, h2]
  exact absurd h1 hn

theorem data_eq_of_set (hs : o1.op = .set) : o1.data = o2.data := by
  rcases h with ⟨-, -, hd⟩ | ⟨h1, -⟩ | ⟨h1, -⟩ | ⟨h1 | h1, -, -⟩ <;> simp_all

end Operation.Parallel

/-- Lists of operations that are pairwise parallel commute: all are `SET`s of one operand, or all
`ADD`s, or all `MUL`s, or all `SADD`s and `SREM`s. -/
theorem keyCommute_of_parallel {c : Codec} (hc : c.Exact) {L1 L2 : List Operation}
    (hne1 : L1 ≠ []) (hne2 : L2 ≠ []) (hp : ∀ o1 ∈ L1, ∀ o2 ∈ L2, o1.Parallel o2) :
    KeyCommute c L1 L2 := by
  obtain ⟨p, hpm⟩ := List.exists_mem_of_ne_nil _ hne1
  obtain ⟨o, hom⟩ := List.exists_mem_of_ne_nil _ hne2
  have hpo := hp p hpm o hom
  by_cases he : IsElemOp o.op
  · exact keyCommute_elems hc (fun o1 h1 => (hp o1 h1 o hom).isElemOp_iff.2 he)
      (fun o2 h2 => (hp p hpm o2 h2).isElemOp_iff.1 (hpo.isElemOp_iff.2 he))
      (fun o1 h1 o2 h2 => (hp o1 h1 o2 h2).op_eq_of_data) hne1 hne2
  have hpe : ¬IsElemOp p.op := fun h => he (hpo.isElemOp_iff.1 h)
  have h1 : ∀ o1 ∈ L1, o1.op = p.op := fun o1 h1 =>
    ((hp o1 h1 o hom).op_eq fun h => he ((hp o1 h1 o hom).isElemOp_iff.1 h)).trans
      (hpo.op_eq hpe).symm
  have h2 : ∀ o2 ∈ L2, o2.op = p.op := fun o2 h2 => ((hp p hpm o2 h2).op_eq hpe).symm
  rcases hpo with ⟨hs, -, -⟩ | ⟨ha, -⟩ | ⟨hm, -⟩ | ⟨hpe', -⟩
  · -- `SET`s, all of the operand of `p`
    refine keyCommute_sets c (x := p.data) (fun o1 h1' => ⟨(h1 o1 h1').trans hs, ?_⟩)
      (fun o2 h2' => ⟨(h2 o2 h2').trans hs, ((hp p hpm o2 h2').data_eq_of_set hs).symm⟩) hne1 hne2
    exact ((hp o1 h1' o hom).data_eq_of_set ((h1 o1 h1').trans hs)).trans
      (hp p hpm o hom |>.data_eq_of_set hs).symm
  · exact keyCommute_floats hc true (fun o1 h => (h1 o1 h).trans ha)
      (fun o2 h => (h2 o2 h).trans ha) hne1 hne2
  · exact keyCommute_floats hc false (fun o1 h => (h1 o1 h).trans hm)
      (fun o2 h => (h2 o2 h).trans hm) hne1 hne2
  · exact absurd hpe' hpe

theorem KeyCommute.symm {c : Codec} {L1 L2 : List Operation} (h : KeyCommute c L1 L2) :
    KeyCommute c L2 L1 :=
  ⟨h.right, h.left, fun r r1 r2 h1 h2 => (h.comm r r2 r1 h2 h1).symm⟩

/-! ### Two queries -/

/-- The runs of all keys of `q` succeed on `kv`: `apply` writes them. -/
def Query.Succeeds (c : Codec) (kv : Store) (q : Query) : Prop :=
  ∀ k ∈ q.operations.map Operation.key, (rawRun c (q.opsOn k) (kv.getData k)).isSome

section
variable {c : Codec} {sha512 : Bytes → Bytes} {kv : Store} {q q1 q2 : Query} {k : String}

theorem applyQuery_of_not_succeeds (h : ¬q.Succeeds c kv) : applyQuery c sha512 kv q = kv := by
  rw [applyQuery_eq]
  exact if_neg h

theorem applyQuery_of_not_mem (hk : k ∉ q.operations.map Operation.key) :
    applyQuery c sha512 kv q k = kv k := by
  rw [applyQuery_eq]
  split_ifs <;> simp [hk]

theorem applyQuery_of_mem (sha512 : Bytes → Bytes) (h : q.Succeeds c kv) (hk : k ∈ q.operations.map Operation.key) :
    ∃ r, rawRun c (q.opsOn k) (kv.getData k) = some r ∧
      applyQuery c sha512 kv q k = some (r, newVersion sha512 r) := by
  obtain ⟨r, hr⟩ := Option.isSome_iff_exists.mp (h k hk)
  refine ⟨r, hr, ?_⟩
  rw [applyQuery_eq, if_pos (show ∀ k ∈ _, _ from h)]
  simp [hk, hr]

theorem getData_of_some {r : Bytes} {ver : Version} (h : kv k = some (r, ver)) :
    kv.getData k = r := by
  simp [Store.getData, h]

/-- The keys both queries name, and their runs commute there. -/
def KeysCommute (c : Codec) (q1 q2 : Query) : Prop :=
  ∀ k ∈ q1.operations.map Operation.key, k ∈ q2.operations.map Operation.key →
    KeyCommute c (q1.opsOn k) (q2.opsOn k)

theorem KeysCommute.symm (h : KeysCommute c q1 q2) : KeysCommute c q2 q1 :=
  fun k h2 h1 => (h k h1 h2).symm

/-- After a successful `q1`, `q2` succeeds exactly when it succeeds on the store `q1` found. -/
theorem succeeds_applyQuery_iff (sha512 : Bytes → Bytes) (hkc : KeysCommute c q1 q2)
    (h1 : q1.Succeeds c kv) :
    q2.Succeeds c (applyQuery c sha512 kv q1) ↔ q2.Succeeds c kv := by
  refine forall₂_congr fun k hk2 => ?_
  by_cases hk1 : k ∈ q1.operations.map Operation.key
  · obtain ⟨r1, hr1, hA⟩ := applyQuery_of_mem sha512 h1 hk1
    rw [getData_of_some hA]
    exact (hkc k hk1 hk2).right _ _ hr1
  · simp only [Store.getData, applyQuery_of_not_mem hk1]

/-- Queries whose runs commute on every key both name give the same store in either order. -/
theorem applyQuery_comm_of_keysCommute (hkc : KeysCommute c q1 q2) :
    applyQuery c sha512 (applyQuery c sha512 kv q1) q2 =
      applyQuery c sha512 (applyQuery c sha512 kv q2) q1 := by
  by_cases h1 : q1.Succeeds c kv
  · by_cases h2 : q2.Succeeds c kv
    · have h21 := (succeeds_applyQuery_iff sha512 hkc h1).mpr h2
      have h12 := (succeeds_applyQuery_iff sha512 hkc.symm h2).mpr h1
      funext k
      by_cases hk1 : k ∈ q1.operations.map Operation.key <;>
        by_cases hk2 : k ∈ q2.operations.map Operation.key
      · -- a key of both: the two runs commute
        obtain ⟨r1, hr1, hA1⟩ := applyQuery_of_mem sha512 h1 hk1
        obtain ⟨r2, hr2, hA2⟩ := applyQuery_of_mem sha512 h2 hk2
        obtain ⟨r, hr, hL⟩ := applyQuery_of_mem sha512 h21 hk2
        obtain ⟨r', hr', hR⟩ := applyQuery_of_mem sha512 h12 hk1
        rw [getData_of_some hA1] at hr
        rw [getData_of_some hA2] at hr'
        have hrr : r' = r := Option.some_injective _ <| by
          rw [← hr, ← hr', (hkc k hk1 hk2).comm _ _ _ hr1 hr2]
        rw [hL, hR, hrr]
      · obtain ⟨r1, hr1, hA1⟩ := applyQuery_of_mem sha512 h1 hk1
        obtain ⟨r', hr', hR⟩ := applyQuery_of_mem sha512 h12 hk1
        rw [Store.getData, applyQuery_of_not_mem hk2, ← Store.getData, hr1] at hr'
        rw [applyQuery_of_not_mem hk2, hR, hA1, ← Option.some_injective _ hr']
      · obtain ⟨r2, hr2, hA2⟩ := applyQuery_of_mem sha512 h2 hk2
        obtain ⟨r, hr, hL⟩ := applyQuery_of_mem sha512 h21 hk2
        rw [Store.getData, applyQuery_of_not_mem hk1, ← Store.getData, hr2] at hr
        rw [applyQuery_of_not_mem hk1, hL, hA2, ← Option.some_injective _ hr]
      · rw [applyQuery_of_not_mem hk2, applyQuery_of_not_mem hk1, applyQuery_of_not_mem hk1,
          applyQuery_of_not_mem hk2]
    · -- `q2` aborts before and after `q1`
      rw [applyQuery_of_not_succeeds h2,
        applyQuery_of_not_succeeds (mt (succeeds_applyQuery_iff _ hkc h1).mp h2)]
  · -- `q1` aborts before and after `q2`
    rw [applyQuery_of_not_succeeds h1]
    by_cases h2 : q2.Succeeds c kv
    · rw [applyQuery_of_not_succeeds (mt (succeeds_applyQuery_iff _ hkc.symm h2).mp h1)]
    · rw [applyQuery_of_not_succeeds h2, applyQuery_of_not_succeeds h1]
end

theorem mem_opsOn {q : Query} {k : String} {o : Operation} :
    o ∈ q.opsOn k ↔ o ∈ q.operations ∧ o.key = k := by
  simp [Query.opsOn]

theorem opsOn_ne_nil {q : Query} {k : String} (hk : k ∈ q.operations.map Operation.key) :
    q.opsOn k ≠ [] := by
  obtain ⟨o, ho, rfl⟩ := List.mem_map.mp hk
  exact List.ne_nil_of_mem (mem_opsOn.mpr ⟨ho, rfl⟩)

/-- Two queries of one policy that pass `CheckConflict` give the same values and versions in
either order, also when one or both abort, for a codec with exact numbers and sets. -/
theorem apply_commutes_of_parallel {c : Codec} (hc : c.Exact) (sha512 : Bytes → Bytes)
    {q1 q2 : Query} (hpol : q1.policy = q2.policy) (hcon : q1.checkConflict q2 = none)
    (kv : Store) :
    applyQuery c sha512 (applyQuery c sha512 kv q1) q2 =
      applyQuery c sha512 (applyQuery c sha512 kv q2) q1 := by
  simp only [Query.checkConflict, hpol, ne_eq, not_true_eq_false, if_false,
    List.findSome?_eq_none_iff] at hcon
  refine applyQuery_comm_of_keysCommute fun k hk1 hk2 =>
    keyCommute_of_parallel hc (opsOn_ne_nil hk1) (opsOn_ne_nil hk2) fun o1 h1 o2 h2 => ?_
  obtain ⟨hm1, rfl⟩ := mem_opsOn.mp h1
  obtain ⟨hm2, hk⟩ := mem_opsOn.mp h2
  exact Operation.parallel_of_checkConflict hk.symm (hcon o1 hm1 o2 hm2)

/-- A query of the policy `policy` with the operations `ops`. -/
def opsQuery (uuid policy : String) (ops : List Operation) : Query :=
  ⟨uuid, "a", policy, none, [], ops, []⟩

theorem apply_commutes_of_parallel_adds :
    (opsQuery "q1" "p" [⟨"k", .add, [1]⟩, ⟨"j", .sadd, [1]⟩]).policy =
        (opsQuery "q2" "p" [⟨"k", .add, [2]⟩, ⟨"j", .srem, [2]⟩]).policy ∧
      (opsQuery "q1" "p" [⟨"k", .add, [1]⟩, ⟨"j", .sadd, [1]⟩]).checkConflict
        (opsQuery "q2" "p" [⟨"k", .add, [2]⟩, ⟨"j", .srem, [2]⟩]) = none ∧
      applyQuery Codec.unary id (applyQuery Codec.unary id (fun _ => none)
          (opsQuery "q1" "p" [⟨"k", .add, [1]⟩, ⟨"j", .sadd, [1]⟩]))
          (opsQuery "q2" "p" [⟨"k", .add, [2]⟩, ⟨"j", .srem, [2]⟩]) =
        applyQuery Codec.unary id (applyQuery Codec.unary id (fun _ => none)
          (opsQuery "q2" "p" [⟨"k", .add, [2]⟩, ⟨"j", .srem, [2]⟩]))
          (opsQuery "q1" "p" [⟨"k", .add, [1]⟩, ⟨"j", .sadd, [1]⟩]) :=
  have hcon : (opsQuery "q1" "p" [⟨"k", .add, [1]⟩, ⟨"j", .sadd, [1]⟩]).checkConflict
      (opsQuery "q2" "p" [⟨"k", .add, [2]⟩, ⟨"j", .srem, [2]⟩]) = none := by decide
  ⟨rfl, hcon, apply_commutes_of_parallel Codec.unary_exact id (by rfl) hcon _⟩

/-- `CheckConflict` passes queries of two policies without comparing them: two `SET`s of one key
leave the operand of the one applied last. -/
theorem apply_policies_do_not_commute :
    (opsQuery "q1" "p1" [⟨"k", .set, [1]⟩]).checkConflict (opsQuery "q2" "p2" [⟨"k", .set, [2]⟩]) =
        none ∧
      applyQuery Codec.unary id (applyQuery Codec.unary id (fun _ => none)
          (opsQuery "q1" "p1" [⟨"k", .set, [1]⟩])) (opsQuery "q2" "p2" [⟨"k", .set, [2]⟩]) ≠
        applyQuery Codec.unary id (applyQuery Codec.unary id (fun _ => none)
          (opsQuery "q2" "p2" [⟨"k", .set, [2]⟩])) (opsQuery "q1" "p1" [⟨"k", .set, [1]⟩]) := by
  refine ⟨by decide, fun h => ?_⟩
  have hk := congrFun h "k"
  simp [applyQuery, execOps, opsQuery, Operation.exec, Operations.set] at hk

end PnyxDB.Consensus
