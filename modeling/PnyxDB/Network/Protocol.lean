import Mathlib.Data.Fintype.Basic
import Mathlib.Tactic.DeriveFintype
import Mathlib.Tactic.NormNum
import Mathlib.Tactic.Ring

/-!
The envelope of `network/protocol/protocol.go`: one type byte, the body length as an unsigned
varint, then the protobuf body.

The decoder reads a stream; here the stream is the list of its remaining bytes, and `Unpack`
returns the message with the bytes it left unread, an error, or a panic of the Go run time. The
protobuf codec itself is a parameter: `Unpack` hands it the body and `Pack` takes its output.

`Unpack` checks the type byte against the length of `typeIdentifiers` with `>` where `≥` was meant,
and does not check that the name it finds is registered: the byte `11` indexes past the end of the
table and the bytes `4`, `5`, `6` and `9` name `"reserved"`, whose message type is nil
(`unpack_panics_iff`).
-/

namespace PnyxDB.Network.Protocol

/-- `typeIdentifiers`: the message name of each type byte. -/
def typeIdentifiers : List String :=
  ["", "consensus.Query", "consensus.Endorsement", "consensus.StartCheckpoint", "reserved",
    "reserved", "reserved", "consensus.RecoveryRequest", "consensus.RecoveryResponse", "reserved",
    "bbc.Choice"]

/-- The message types of the protocol. -/
inductive MessageKind
  | query | endorsement | startCheckpoint | recoveryRequest | recoveryResponse | choice
  deriving DecidableEq, Repr, Fintype

/-- `proto.MessageName` of each message type. -/
def MessageKind.name : MessageKind → String
  | .query => "consensus.Query"
  | .endorsement => "consensus.Endorsement"
  | .startCheckpoint => "consensus.StartCheckpoint"
  | .recoveryRequest => "consensus.RecoveryRequest"
  | .recoveryResponse => "consensus.RecoveryResponse"
  | .choice => "bbc.Choice"

/-- Modelled from the spec: `proto.MessageType`, the registry of the generated protobuf code (not
part of the source), which knows the six message types and returns nil for any other name. -/
def messageType (name : String) : Option MessageKind :=
  [MessageKind.query, .endorsement, .startCheckpoint, .recoveryRequest, .recoveryResponse,
    .choice].find? (·.name = name)

/-- `getTypeFromName`: the first index holding `name`, or `0`. -/
def getTypeFromName (name : String) : UInt8 :=
  ((typeIdentifiers.findIdx? (· = name)).getD 0).toUInt8

/-- The errors `Unpack` returns. -/
inductive UnpackError
  | eof | unexpectedEOF | badWireType | overflow | invalidLength
  | unmarshal (reason : String)
  deriving DecidableEq, Repr

/-- How a call of `Unpack` ends. -/
inductive Outcome (α : Type)
  | ok (m : α) (rest : List UInt8)
  | error (e : UnpackError)
  | panic (reason : String)
  deriving DecidableEq, Repr

/-- `binary.ReadUvarint` of the Go library of the time, from the `i`-th byte of the varint on, with
`x` read so far at shift `s`. Go ORs `uint64` payloads shifted left by `s`; the payloads occupy
disjoint bits and `s ≤ 63` whenever a value is returned, so the sum on `Nat` is the same number. -/
def readUvarintFrom (x s i : Nat) : List UInt8 → Except UnpackError (Nat × List UInt8)
  | [] => .error .eof
  | b :: rest =>
    if b.toNat < 0x80 then
      if i > 9 ∨ (i = 9 ∧ b.toNat > 1) then .error .overflow
      else .ok (x + b.toNat * 2 ^ s, rest)
    else readUvarintFrom (x + b.toNat % 0x80 * 2 ^ s) (s + 7) (i + 1) rest

/-- `binary.ReadUvarint`. -/
def readUvarint (input : List UInt8) : Except UnpackError (Nat × List UInt8) :=
  readUvarintFrom 0 0 0 input

/-- `io.ReadFull` of `l` bytes: the bytes and the rest, `EOF` if the stream is empty, and
`ErrUnexpectedEOF` if it ends early. -/
def readFull (l : Nat) (input : List UInt8) : Except UnpackError (List UInt8 × List UInt8) :=
  if l ≤ input.length then .ok (input.take l, input.drop l)
  else if input = [] then .error .eof
  else .error .unexpectedEOF

/-- The part of `Unpack(in)` after the type lookup: read the length, check it, read the body and
decode it. -/
def unpackBody {Msg : Type} (unmarshal : MessageKind → List UInt8 → Except String Msg)
    (kind : MessageKind) (input : List UInt8) : Outcome Msg :=
  match readUvarint input with
  | .error e => .error e
  | .ok (l, input) =>
    if l > 2 ^ 30 then .error .invalidLength
    else match readFull l input with
      | .error e => .error e
      | .ok (buf, input) =>
        match unmarshal kind buf with
        | .error e => .error (.unmarshal e)
        | .ok m => .ok m input

/-- `Unpack(in)`, with `unmarshal` for `proto.Unmarshal`. -/
def unpack {Msg : Type} (unmarshal : MessageKind → List UInt8 → Except String Msg) :
    List UInt8 → Outcome Msg
  | [] => .error .eof
  | b :: input =>
    if b = 0 ∨ b.toNat > typeIdentifiers.length then .error .badWireType
    else match typeIdentifiers[b.toNat]? with
      | none => .panic "index out of range"
      | some name =>
        match messageType name with
        | none => .panic "invalid memory address or nil pointer dereference"
        | some kind => unpackBody unmarshal kind input

/-- `binary.PutUvarint`: seven bits a byte, low bits first, the high bit set on every byte but the
last. -/
def putUvarint (x : Nat) : List UInt8 :=
  if x < 0x80 then [x.toUInt8] else (x % 0x80 + 0x80).toUInt8 :: putUvarint (x / 0x80)
termination_by x
decreasing_by omega

theorem putUvarint_of_lt {x : Nat} (h : x < 0x80) : putUvarint x = [x.toUInt8] := by
  rw [putUvarint, if_pos h]

theorem putUvarint_of_ge {x : Nat} (h : ¬x < 0x80) :
    putUvarint x = (x % 0x80 + 0x80).toUInt8 :: putUvarint (x / 0x80) := by
  rw [putUvarint, if_neg h]

theorem toNat_toUInt8 {n : Nat} (h : n < 256) : n.toUInt8.toNat = n := UInt8.toNat_ofNat_of_lt h

theorem putUvarint_ne_nil (x : Nat) : putUvarint x ≠ [] := by
  by_cases h : x < 0x80
  · simp [putUvarint_of_lt h]
  · simp [putUvarint_of_ge h]

/-- A varint is prefix free: its last byte is the first one without the high bit, so the bytes
that follow it are not read as part of it. -/
theorem putUvarint_append_inj {x y : Nat} {r r' : List UInt8}
    (h : putUvarint x ++ r = putUvarint y ++ r') : x = y ∧ r = r' := by
  induction x using Nat.strong_induction_on generalizing y with
  | _ x ih =>
    by_cases hx : x < 0x80 <;> by_cases hy : y < 0x80
    · rw [putUvarint_of_lt hx, putUvarint_of_lt hy] at h
      obtain ⟨hb, rfl⟩ := List.cons.inj h
      have := congrArg UInt8.toNat hb
      rw [toNat_toUInt8 (by omega), toNat_toUInt8 (by omega)] at this
      exact ⟨this, rfl⟩
    · rw [putUvarint_of_lt hx, putUvarint_of_ge hy] at h
      have := congrArg UInt8.toNat (List.cons.inj h).1
      rw [toNat_toUInt8 (by omega), toNat_toUInt8 (by omega)] at this
      omega
    · rw [putUvarint_of_ge hx, putUvarint_of_lt hy] at h
      have := congrArg UInt8.toNat (List.cons.inj h).1
      rw [toNat_toUInt8 (by omega), toNat_toUInt8 (by omega)] at this
      omega
    · rw [putUvarint_of_ge hx, putUvarint_of_ge hy, List.cons_append, List.cons_append] at h
      obtain ⟨hb, ht⟩ := List.cons.inj h
      have hlow := congrArg UInt8.toNat hb
      rw [toNat_toUInt8 (by omega), toNat_toUInt8 (by omega)] at hlow
      obtain ⟨hhigh, rfl⟩ := ih (x / 0x80) (by omega) ht
      exact ⟨by omega, rfl⟩

/-- `ReadUvarint` reads back a varint written as the `i`-th byte on, while it fits in 64 bits. -/
theorem readUvarintFrom_putUvarint (rest : List UInt8) (x : Nat) :
    ∀ (acc i : Nat), i ≤ 9 → x * 2 ^ (7 * i) < 2 ^ 64 →
      readUvarintFrom acc (7 * i) i (putUvarint x ++ rest) = .ok (acc + x * 2 ^ (7 * i), rest) := by
  induction x using Nat.strong_induction_on with
  | _ x ih =>
    intro acc i hi hfit
    by_cases hx : x < 0x80
    · have hlast : i = 9 → x ≤ 1 := by
        rintro rfl
        norm_num at hfit
        omega
      rw [putUvarint_of_lt hx, List.singleton_append, readUvarintFrom, toNat_toUInt8 (by omega)]
      simp only [if_pos hx]
      rw [if_neg (by omega)]
    · have hpow : 2 ^ (7 * (i + 1)) = 2 ^ (7 * i) * 0x80 := by
        rw [Nat.mul_succ, Nat.pow_add]
      have hle : 2 ^ (7 * (i + 1)) ≤ x * 2 ^ (7 * i) := by
        rw [hpow, Nat.mul_comm (2 ^ (7 * i))]
        exact Nat.mul_le_mul_right _ (by omega)
      have hi' : i + 1 ≤ 9 := by
        have := (Nat.pow_lt_pow_iff_right (by norm_num : 1 < 2)).mp (lt_of_le_of_lt hle hfit)
        omega
      have hfit' : x / 0x80 * 2 ^ (7 * (i + 1)) < 2 ^ 64 := by
        rw [hpow, ← Nat.mul_assoc, Nat.mul_right_comm]
        exact lt_of_le_of_lt (Nat.mul_le_mul_right _ (Nat.div_mul_le_self x 0x80)) hfit
      rw [putUvarint_of_ge hx, List.cons_append, readUvarintFrom, toNat_toUInt8 (by omega),
        if_neg (by omega), show 7 * i + 7 = 7 * (i + 1) by ring,
        ih (x / 0x80) (by omega) _ (i + 1) hi' hfit', hpow]
      congr 2
      have hx := Nat.mod_add_div x 0x80
      calc acc + (x % 0x80 + 0x80) % 0x80 * 2 ^ (7 * i) + x / 0x80 * (2 ^ (7 * i) * 0x80)
          = acc + (x % 0x80 + 0x80 * (x / 0x80)) * 2 ^ (7 * i) := by
            rw [Nat.add_mod_right, Nat.mod_mod]
            ring
        _ = acc + x * 2 ^ (7 * i) := by rw [hx]

/-- `ReadUvarint` reads back every 64-bit varint `PutUvarint` writes. -/
theorem readUvarint_putUvarint {x : Nat} (hx : x < 2 ^ 64) (rest : List UInt8) :
    readUvarint (putUvarint x ++ rest) = .ok (x, rest) := by
  simpa using readUvarintFrom_putUvarint rest x 0 0 (by omega) (by simpa using hx)

/-- `Pack(m)`, with `marshal` for `proto.Marshal` and `messageName` for `proto.MessageName`. -/
def pack {Msg : Type} (marshal : Msg → Except String (List UInt8)) (messageName : Msg → String)
    (m : Msg) : Except String (List UInt8) := do
  let raw ← marshal m
  return getTypeFromName (messageName m) :: (putUvarint raw.length ++ raw)

/-! ### Where `Unpack` panics -/

/-- The type bytes that pass the guard of `Unpack` but name no registered message type. -/
def panicTags : List UInt8 := [4, 5, 6, 9, 11]

/-- The type bytes of the registered message types. -/
def registeredTags : List UInt8 := [1, 2, 3, 7, 8, 10]

/-- What `Unpack` makes of the type byte alone: rejected, a panic, or the message type to decode. -/
def tagOutcome (b : UInt8) : Option (Option MessageKind) :=
  if b = 0 ∨ b.toNat > typeIdentifiers.length then none
  else some ((typeIdentifiers[b.toNat]?).bind messageType)

section
variable {Msg : Type} (unmarshal : MessageKind → List UInt8 → Except String Msg)

theorem unpack_of_tagOutcome_none {b : UInt8} (h : tagOutcome b = none) (input : List UInt8) :
    unpack unmarshal (b :: input) = .error .badWireType := by
  unfold tagOutcome at h
  split_ifs at h with hg
  simp [unpack, hg]

theorem unpack_of_tagOutcome_kind {b : UInt8} {kind : MessageKind}
    (h : tagOutcome b = some (some kind)) (input : List UInt8) :
    unpack unmarshal (b :: input) = unpackBody unmarshal kind input := by
  unfold tagOutcome at h
  split_ifs at h with hg
  obtain ⟨name, hn, hk⟩ := Option.bind_eq_some.mp (Option.some.inj h)
  simp [unpack, hg, hn, hk]

theorem unpack_of_tagOutcome_panic {b : UInt8} (h : tagOutcome b = some none)
    (input : List UInt8) : ∃ reason, unpack unmarshal (b :: input) = .panic reason := by
  unfold tagOutcome at h
  split_ifs at h with hg
  simp only [unpack, hg, if_false]
  cases hn : typeIdentifiers[b.toNat]? with
  | none => exact ⟨_, rfl⟩
  | some name =>
    rw [hn, Option.some_bind] at h
    simp [Option.some.inj h]

theorem unpackBody_ne_panic (kind : MessageKind) (input : List UInt8) (reason : String) :
    unpackBody unmarshal kind input ≠ .panic reason := by
  unfold unpackBody
  split
  · simp
  · split_ifs
    · simp
    · split
      · simp
      · split <;> simp

/-- `Unpack` succeeds exactly when the length varint is well formed, at most `2^30`, followed by that
many bytes, and the codec decodes them; every other stream after a registered type byte is an
error. -/
theorem unpackBody_eq_ok_iff (kind : MessageKind) (input : List UInt8) (m : Msg)
    (rest : List UInt8) :
    unpackBody unmarshal kind input = .ok m rest ↔ ∃ l body, readUvarint input = .ok (l, body) ∧
      l ≤ 2 ^ 30 ∧ l ≤ body.length ∧ unmarshal kind (body.take l) = .ok m ∧
      rest = body.drop l := by
  unfold unpackBody
  constructor
  · intro h
    cases hv : readUvarint input with
    | error e => simp [hv] at h
    | ok p =>
      obtain ⟨l, body⟩ := p
      simp only [hv] at h
      split_ifs at h with hl
      unfold readFull at h
      split_ifs at h with hb
      cases hu : unmarshal kind (body.take l) with
      | error e => simp [hu] at h
      | ok m' =>
        simp only [hu, Outcome.ok.injEq] at h
        obtain ⟨rfl, rfl⟩ := h
        exact ⟨l, body, rfl, by omega, hb, hu, rfl⟩
  · rintro ⟨l, body, hv, hl, hb, hu, rfl⟩
    simp only [hv, readFull, hb, hu, if_true, gt_iff_lt, not_lt.mpr hl, if_false]

end

theorem tagOutcome_gt {b : UInt8} (h : 11 < b.toNat) : tagOutcome b = none := by
  simp [tagOutcome, typeIdentifiers, h]

theorem toUInt8_toNat (b : UInt8) : b.toNat.toUInt8 = b :=
  UInt8.toNat.inj (UInt8.toNat_ofNat_of_lt (UInt8.toNat_lt_size b))

/-- The type bytes that panic: exactly `4`, `5`, `6`, `9` and `11`. -/
theorem tagOutcome_eq_some_none_iff (b : UInt8) : tagOutcome b = some none ↔ b ∈ panicTags := by
  by_cases h : b.toNat < 12
  · have key : ∀ n < 12, (tagOutcome n.toUInt8 = some none ↔ n.toUInt8 ∈ panicTags) := by decide
    simpa [toUInt8_toNat] using key b.toNat h
  · rw [tagOutcome_gt (by omega)]
    simp only [panicTags, List.mem_cons, List.mem_singleton, List.not_mem_nil, or_false,
      reduceCtorEq, false_iff]
    rintro (rfl | rfl | rfl | rfl | rfl) <;> exact h (by decide)

/-- The type bytes that decode: exactly the registered ones. -/
theorem tagOutcome_eq_some_some_iff (b : UInt8) :
    (∃ kind, tagOutcome b = some (some kind)) ↔ b ∈ registeredTags := by
  by_cases h : b.toNat < 12
  · have key : ∀ n < 12, ((∃ kind, tagOutcome n.toUInt8 = some (some kind)) ↔
        n.toUInt8 ∈ registeredTags) := by decide
    simpa [toUInt8_toNat] using key b.toNat h
  · rw [tagOutcome_gt (by omega)]
    simp only [registeredTags, List.mem_cons, List.mem_singleton, List.not_mem_nil, or_false,
      reduceCtorEq, exists_false, false_iff]
    rintro (rfl | rfl | rfl | rfl | rfl | rfl) <;> exact h (by decide)

/-- `Unpack` panics exactly on the streams that start with `4`, `5`, `6`, `9` or `11`, whatever
follows and whatever the codec. -/
theorem unpack_panics_iff {Msg : Type} (unmarshal : MessageKind → List UInt8 → Except String Msg)
    (input : List UInt8) :
    (∃ reason, unpack unmarshal input = .panic reason) ↔
      ∃ b rest, input = b :: rest ∧ b ∈ panicTags := by
  cases input with
  | nil => simp [unpack]
  | cons b rest =>
    simp only [List.cons.injEq, exists_and_left, exists_eq_left', ← tagOutcome_eq_some_none_iff]
    rcases htag : tagOutcome b with _ | _ | kind
    · simp [unpack_of_tagOutcome_none unmarshal htag, htag]
    · simpa [htag] using unpack_of_tagOutcome_panic unmarshal htag rest
    · simp [unpack_of_tagOutcome_kind unmarshal htag, unpackBody_ne_panic, htag]

/-- The byte `11` passes the guard and indexes past the end of `typeIdentifiers`; the byte `4`
names `"reserved"`, whose message type is nil. -/
theorem unpack_panics_on_unregistered_tags {Msg : Type}
    (unmarshal : MessageKind → List UInt8 → Except String Msg) :
    unpack unmarshal [0x0b] = .panic "index out of range" ∧
      unpack unmarshal [0x04] = .panic "invalid memory address or nil pointer dereference" :=
  ⟨rfl, rfl⟩

/-! ### `Unpack` reads back what `Pack` writes -/

/-- The type byte `Pack` writes for a message type leads `Unpack` back to that type. -/
theorem tagOutcome_getTypeFromName (kind : MessageKind) :
    tagOutcome (getTypeFromName kind.name) = some (some kind) := by
  cases kind <;> decide

/-- `Unpack` reads back the message `Pack` wrote and leaves the bytes after it unread, when the
body is at most `2^30` bytes and the codec decodes what it encodes. -/
theorem unpack_pack {Msg : Type} {marshal : Msg → Except String (List UInt8)}
    {messageName : Msg → String} {unmarshal : MessageKind → List UInt8 → Except String Msg}
    {m : Msg} {kind : MessageKind} {raw : List UInt8} (hname : messageName m = kind.name)
    (hm : marshal m = .ok raw) (hlen : raw.length ≤ 2 ^ 30) (hu : unmarshal kind raw = .ok m)
    (rest : List UInt8) :
    pack marshal messageName m = .ok (getTypeFromName kind.name :: (putUvarint raw.length ++ raw)) ∧
      unpack unmarshal (getTypeFromName kind.name :: (putUvarint raw.length ++ raw) ++ rest) =
        .ok m rest := by
  refine ⟨by rw [pack, hm, hname]; rfl, ?_⟩
  rw [List.cons_append, unpack_of_tagOutcome_kind unmarshal (tagOutcome_getTypeFromName kind),
    unpackBody_eq_ok_iff]
  exact ⟨raw.length, raw ++ rest, by rw [List.append_assoc, readUvarint_putUvarint (by omega)],
    hlen, by simp, by simp [hu], by simp⟩

/-- A query whose body is the two bytes `[1, 2]`, followed on the stream by the byte `7`, with the
identity for codec. -/
theorem unpack_pack_query :
    pack (fun m : List UInt8 => .ok m) (fun _ => MessageKind.query.name) [1, 2] =
        .ok (getTypeFromName MessageKind.query.name :: (putUvarint [1, 2].length ++ [1, 2])) ∧
      unpack (fun _ b => .ok b)
        (getTypeFromName MessageKind.query.name :: (putUvarint [1, 2].length ++ [1, 2]) ++ [7]) =
        .ok [1, 2] [7] :=
  @unpack_pack _ (fun m => .ok m) (fun _ => MessageKind.query.name) (fun _ b => .ok b) [1, 2] .query
    [1, 2] rfl rfl (by decide) rfl [7]

end PnyxDB.Network.Protocol
