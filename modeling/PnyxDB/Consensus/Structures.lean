import Mathlib.Data.List.Basic

/-!
The messages of the consensus core and the conflict relation between queries
(`consensus/endorsement.go` and the `Operation` part of `consensus/bbc/veto.go`, which holds
`consensus/operations.go`).

The messages are the protobuf structures of `consensus/structures.proto`. That file is not part of
the sources; the fields below are the ones the Go code reads or writes. A protobuf map is a list of
entries: Go does not fix the order in which a map is visited, so a function of this development that
visits a map takes the order as an argument. Pointers to messages are never nil here: the nil guards
of the Go methods are the identity on the values that reach them.
-/

namespace PnyxDB.Consensus

/-- Raw bytes, Go's `[]byte`. -/
abbrev Bytes := List UInt8

/-- A version is the SHA-512 digest of a stored value; `NoVersion` is the empty one. -/
structure Version where
  hash : Bytes
  deriving DecidableEq, Repr

def noVersion : Version := ⟨[]⟩

/-- `ErrVersionMismatch`. -/
def errVersionMismatch : String := "the stored version does not match with required version"

/-- `Version.Matches`: an error unless both versions are set and their hashes are equal. A version
read from a message field, or returned with an error by `Store.Get`, may be nil. -/
def Version.matches : Option Version → Option Version → Option String
  | some v, some v2 => if v.hash ≠ v2.hash then some errVersionMismatch else none
  | _, _ => some "only accepts non-nil version"

@[simp] theorem Version.matches_eq_none_iff {v v2 : Option Version} :
    Version.matches v v2 = none ↔ v.isSome ∧ v = v2 := by
  rcases v with _ | ⟨⟨h⟩⟩ <;> rcases v2 with _ | ⟨⟨h2⟩⟩ <;> simp [Version.matches]

/-- `google.protobuf.Timestamp`. -/
structure Timestamp where
  seconds : Int
  nanos : Int
  deriving DecidableEq, Repr

/-- `time.Unix(seconds, nanos)`, counted in nanoseconds. -/
def Timestamp.toNanos (t : Timestamp) : Int := t.seconds * 1000000000 + t.nanos

/-- The opcodes of `Operation_Op`. A protobuf enum is open: any other `int32` survives decoding,
and neither the conflict matrix nor the runners know it. -/
inductive Op
  | set | concat | add | mul | sadd | srem
  | other (code : Int)
  deriving DecidableEq, Repr

/-- `Operation_Op.String()`: the enum name, or the number for an unknown value. -/
def Op.toString : Op → String
  | .set => "SET"
  | .concat => "CONCAT"
  | .add => "ADD"
  | .mul => "MUL"
  | .sadd => "SADD"
  | .srem => "SREM"
  | .other code => ToString.toString code

structure Operation where
  key : String
  op : Op
  data : Bytes
  deriving DecidableEq, Repr

structure Query where
  uuid : String
  emitter : String
  policy : String
  deadline : Option Timestamp
  requirements : List (String × Version)
  operations : List Operation
  signature : Bytes
  deriving DecidableEq, Repr

structure Endorsement where
  uuid : String
  emitter : String
  conditions : List String
  signature : Bytes
  deriving DecidableEq, Repr

/-! ### Conflicts -/

/-- The flags of `ParallelType`; they combine bitwise. -/
def parallelTypeDEFAULT : Nat := 1
def parallelTypeDISALLOWDIFFERENT : Nat := 2
def parallelTypeDISALLOWEQUAL : Nat := 4

/-- `ParallelMatrix[o][o2]`, `0` where the table has no entry (a missing row reads as a nil map,
whose entries are `0` as well). -/
def parallelMatrix : Op → Op → Nat
  | .set, .set => parallelTypeDISALLOWDIFFERENT
  | .add, .add => parallelTypeDEFAULT
  | .mul, .mul => parallelTypeDEFAULT
  | .sadd, .sadd => parallelTypeDEFAULT
  | .sadd, .srem => parallelTypeDISALLOWEQUAL
  | .srem, .srem => parallelTypeDEFAULT
  | .srem, .sadd => parallelTypeDISALLOWEQUAL
  | _, _ => 0

/-- `Operation.CheckConflict`: the error, if the two operations cannot run in parallel. -/
def Operation.checkConflict (o o2 : Operation) : Option String :=
  let err := "non-parallel operations " ++ o.op.toString ++ " / " ++ o2.op.toString
  if o.key ≠ o2.key then none
  else
    let t := parallelMatrix o.op o2.op
    if t = 0 then some err
    else if parallelTypeDEFAULT &&& t > 0 then none
    else
      let equal := o.data = o2.data
      if equal ∧ parallelTypeDISALLOWEQUAL &&& t > 0 then some err
      else if ¬equal ∧ parallelTypeDISALLOWDIFFERENT &&& t > 0 then some err
      else none

/-- `Query.CheckConflict`: the first conflicting pair of operations, for queries of one policy. -/
def Query.checkConflict (q q2 : Query) : Option String :=
  if q.policy ≠ q2.policy then none
  else q.operations.findSome? fun op => q2.operations.findSome? fun op2 => op.checkConflict op2

theorem parallelMatrix_comm (a b : Op) : parallelMatrix a b = parallelMatrix b a := by
  cases a <;> cases b <;> rfl

/-- Whether two operations conflict does not depend on their order; only the text of the error
names them in order. -/
theorem Operation.checkConflict_isSome_comm (o o2 : Operation) :
    (o.checkConflict o2).isSome = (o2.checkConflict o).isSome := by
  simp only [Operation.checkConflict, parallelMatrix_comm o.op, ne_eq, @eq_comm _ o2.key,
    @eq_comm _ o2.data]
  split_ifs <;> rfl

/-- Two queries conflict when they share their policy and some pair of their operations
conflicts. -/
theorem Query.checkConflict_isSome_iff (q q2 : Query) :
    (q.checkConflict q2).isSome ↔ q.policy = q2.policy ∧
      ∃ o ∈ q.operations, ∃ o2 ∈ q2.operations, (o.checkConflict o2).isSome := by
  by_cases hp : q.policy = q2.policy <;> simp [Query.checkConflict, hp]

/-- Whether two queries conflict does not depend on their order. -/
theorem Query.checkConflict_isSome_comm (q1 q2 : Query) :
    (q1.checkConflict q2).isSome = (q2.checkConflict q1).isSome := by
  rw [Bool.eq_iff_iff, Query.checkConflict_isSome_iff, Query.checkConflict_isSome_iff,
    @eq_comm _ q2.policy]
  refine and_congr_right fun _ => ⟨?_, ?_⟩ <;> rintro ⟨o, ho, o2, ho2, h⟩ <;>
    exact ⟨o2, ho2, o, ho, Operation.checkConflict_isSome_comm o o2 ▸ h⟩

theorem Query.checkConflict_symm (q1 q2 : Query) :
    (q1.checkConflict q2).isSome ↔ (q2.checkConflict q1).isSome := by
  rw [Query.checkConflict_isSome_comm]

/-! ### Deadlines

The clock is read by `time.Now()`; the functions that read it take the current time `now`, in
nanoseconds. -/

/-- `Query.ExpiredSince(d)`: the deadline is missing or is not after `now - d`. -/
def Query.expiredSince (q : Query) (now d : Int) : Bool :=
  match q.deadline with
  | none => true
  | some t => !decide (t.toNanos > now - d)

/-- `Query.Expired()`. -/
def Query.expired (q : Query) (now : Int) : Bool := q.expiredSince now 0

/-- `Query.GetTimeout()`: the time left before the deadline. It dereferences the deadline, so a
query without one makes it panic (`none`). -/
def Query.getTimeout (q : Query) (now : Int) : Option Int :=
  q.deadline.map fun t => t.toNanos - now

/-! ### Lists indexed as slices -/

/-- An entry of `l.set i a` is `a` at `i`, and the entry of `l` elsewhere. -/
theorem getElem?_set_eq_some {α : Type} {l : List α} {i j : Nat} {a x : α}
    (h : (l.set i a)[j]? = some x) : (i = j ∧ x = a) ∨ (i ≠ j ∧ l[j]? = some x) := by
  rw [List.getElem?_set] at h
  split_ifs at h with hij
  · exact .inl ⟨hij, (Option.some.inj h).symm⟩
  · exact .inr ⟨hij, h⟩

/-- An entry of `l ++ [a]` is an entry of `l` or the new last one. -/
theorem getElem?_concat_eq_some {α : Type} {l : List α} {a x : α} {n : Nat}
    (h : (l ++ [a])[n]? = some x) : l[n]? = some x ∨ (n = l.length ∧ x = a) := by
  rcases Nat.lt_or_ge n l.length with hlt | hge
  · rw [List.getElem?_append_left hlt] at h
    exact .inl h
  · rw [List.getElem?_append_right hge] at h
    obtain ⟨h1, rfl⟩ := List.getElem?_eq_some_iff.mp h
    exact .inr ⟨by simp only [List.length_singleton] at h1; omega, List.getElem_singleton _ _⟩

end PnyxDB.Consensus
