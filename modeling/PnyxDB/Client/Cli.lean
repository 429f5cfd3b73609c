import PnyxDB.Consensus.Hash

/-!
The command line of the client (`client` and `Client.processGeneric2`): `Run` splits an expression
at its first space into a command, upper-cased, and an argument; the write commands split the
argument again at its first space into a key and data, and submit a transaction of that one
operation.

* `run_write` — `OP key data`, for any spelling of a write command and a key without a space,
  submits the one operation `(key, OP, data)`, with the client's policy and deadline; the data may
  hold spaces.
* `run_submit_key` — every key the command line writes is free of spaces, while `run_get` reads a
  key with spaces as well: a key with a space can be read from the command line but never written.
  A write command without data fails (`run_write_without_data`).

`strings.ToUpper` is Go's, on Unicode letters: it is the argument `toUpper`. `Operation_Op_value`,
generated from the protobuf file, maps each write command's name to its opcode; the map of commands
holds each write command with its opcode.
-/

namespace PnyxDB.Cli

open PnyxDB.Consensus

/-- The separator of `strings.SplitN(s, " ", 2)`. -/
def space : Char := Char.ofNat 32

/-- The characters before the first space, and those after it if there is one. -/
def splitFirst : List Char → List Char × Option (List Char)
  | [] => ([], none)
  | c :: rest =>
    if c = space then ([], some rest)
    else ((splitFirst rest).1.cons c, (splitFirst rest).2)

/-- `strings.SplitN(s, " ", 2)`: the text before the first space and the text after it, or the whole
text. -/
def splitN2 (s : String) : List String :=
  match splitFirst s.toList with
  | (a, none) => [String.mk a]
  | (a, some b) => [String.mk a, String.mk b]

/-- `io.ErrUnexpectedEOF`. -/
def errUnexpectedEOF : String := "unexpected EOF"

/-- `split2args(arg)`: the text before the first space and the text after it, or
`io.ErrUnexpectedEOF` without a space. -/
def split2args (arg : String) : Except String (String × String) :=
  match splitN2 arg with
  | [arg1, arg2] => .ok (arg1, arg2)
  | _ => .error errUnexpectedEOF

/-- `api.Transaction` as the client fills it. -/
structure Transaction where
  operations : List Operation
  policy : String
  deadline : Option Timestamp
  deriving DecidableEq, Repr

/-- The fields of `Client` the commands read: the policy `POL` sets and the timeout `TIMEOUT` sets,
in nanoseconds. -/
structure Client where
  policy : String
  txTimeout : Int

/-- What a command does once its argument is parsed. -/
inductive Action
  | help
  /-- `processGET`, `processVERSION`, `processMEMBERS`: a read of the key. -/
  | get (key : String)
  | version (key : String)
  | members (key : String)
  /-- `processCONTAINS`: whether the set of `key` holds `value`. -/
  | contains (key : String) (value : Bytes)
  /-- `processGeneric2`: the transaction submitted. -/
  | submit (tx : Transaction)
  /-- `SetPolicy`, `SetTxTimeout` (whose `time.ParseDuration` is Go's). -/
  | setPolicy (pol : String)
  | setTxTimeout (timeout : String)
  deriving DecidableEq, Repr

/-- The deadline `processGeneric2` gives a transaction at the time `now` (in nanoseconds):
`txTimeout`, or five seconds if it is zero, from now. -/
def Client.deadline (c : Client) (now : Int) : Timestamp :=
  let timeout := if c.txTimeout = 0 then 5000000000 else c.txTimeout
  ⟨(now + timeout) / 1000000000, (now + timeout) % 1000000000⟩

/-- `processGeneric2(op)(arg)`: a transaction of the one operation `op` on the key and the data
`split2args` cuts the argument into. -/
def processGeneric2 (c : Client) (now : Int) (op : Op) (arg : String) : Except String Action := do
  let (arg1, arg2) ← split2args arg
  return .submit ⟨[⟨arg1, op, stringBytes arg2⟩], c.policy, some (c.deadline now)⟩

/-- `processCONTAINS(arg)`. -/
def processContains (arg : String) : Except String Action := do
  let (arg1, arg2) ← split2args arg
  return .contains arg1 (stringBytes arg2)

/-- `getCLIMap()`: the command of each name. -/
def getCLIMap (c : Client) (now : Int) : String → Option (String → Except String Action)
  | "HELP" => some fun _ => .ok .help
  | "GET" => some fun arg => .ok (.get arg)
  | "VERSION" => some fun arg => .ok (.version arg)
  | "SET" => some (processGeneric2 c now .set)
  | "CONCAT" => some (processGeneric2 c now .concat)
  | "ADD" => some (processGeneric2 c now .add)
  | "MUL" => some (processGeneric2 c now .mul)
  | "SADD" => some (processGeneric2 c now .sadd)
  | "SREM" => some (processGeneric2 c now .srem)
  | "SMEMBERS" => some fun arg => .ok (.members arg)
  | "SCONTAINS" => some processContains
  | "POL" => some fun arg => .ok (.setPolicy arg)
  | "TIMEOUT" => some fun arg => .ok (.setTxTimeout arg)
  | _ => none

/-- `Client.Run(expression)`: the command named by the upper-cased text before the first space, on
the text after it (empty without a space). -/
def run (toUpper : String → String) (c : Client) (now : Int) (expression : String) :
    Except String Action :=
  let args := splitN2 expression
  match getCLIMap c now (toUpper (args.headD "")) with
  | none => .error "invalid command"
  | some f => f (args.getD 1 "")

/-! ### Splitting at the first space -/

theorem splitFirst_of_not_mem : ∀ {a : List Char}, space ∉ a → splitFirst a = (a, none)
  | [], _ => rfl
  | c :: rest, h => by
    have hc : c ≠ space := fun hc => h (hc ▸ List.mem_cons_self _ _)
    simp [splitFirst, hc, splitFirst_of_not_mem fun hm => h (List.mem_cons_of_mem _ hm)]

theorem splitFirst_append : ∀ {a : List Char} (b : List Char), space ∉ a →
    splitFirst (a ++ space :: b) = (a, some b)
  | [], _, _ => by simp [splitFirst]
  | c :: rest, b, h => by
    have hc : c ≠ space := fun hc => h (hc ▸ List.mem_cons_self _ _)
    simp [splitFirst, hc, splitFirst_append b fun hm => h (List.mem_cons_of_mem _ hm)]

/-- The text before the first space has no space. -/
theorem not_mem_splitFirst : ∀ (a : List Char), space ∉ (splitFirst a).1
  | [] => by simp [splitFirst]
  | c :: rest => by
    unfold splitFirst
    split_ifs with hc
    · simp
    · simpa [Ne.symm hc] using not_mem_splitFirst rest

theorem splitN2_append {a : String} (b : String) (h : space ∉ a.toList) :
    splitN2 (a ++ " " ++ b) = [a, b] := by
  have : (a ++ " " ++ b).toList = a.toList ++ space :: b.toList := by simp [space]
  unfold splitN2
  rw [this, splitFirst_append _ h]
  rfl

theorem splitN2_of_not_mem {a : String} (h : space ∉ a.toList) : splitN2 a = [a] := by
  unfold splitN2
  rw [splitFirst_of_not_mem h]
  rfl

/-! ### The command line -/

/-- The write commands, each under the name `Operation_Op_value` maps to its opcode. -/
def writeOps : List Op := [.set, .concat, .add, .mul, .sadd, .srem]

theorem getCLIMap_write {c : Client} {now : Int} {op : Op} (h : op ∈ writeOps) :
    getCLIMap c now op.toString = some (processGeneric2 c now op) := by
  simp only [writeOps, List.mem_cons, List.mem_singleton, List.not_mem_nil, or_false] at h
  rcases h with rfl | rfl | rfl | rfl | rfl | rfl <;> rfl

/-- A write command, spelled in any case, with a key free of spaces and any data submits the one
operation of that key, opcode and data, with the client's policy and deadline. -/
theorem run_write {toUpper : String → String} (c : Client) (now : Int) {cmd : String} {op : Op}
    (hop : op ∈ writeOps) (hcmd : toUpper cmd = op.toString) (hspace : space ∉ cmd.toList)
    {key : String} (hkey : space ∉ key.toList) (data : String) :
    run toUpper c now (cmd ++ " " ++ key ++ " " ++ data) =
      .ok (.submit ⟨[⟨key, op, stringBytes data⟩], c.policy, some (c.deadline now)⟩) := by
  have hexpr : cmd ++ " " ++ key ++ " " ++ data = cmd ++ " " ++ (key ++ " " ++ data) := by
    simp [String.append_assoc]
  simp only [run, hexpr, splitN2_append _ hspace, List.headD_cons, hcmd, getCLIMap_write hop]
  simp [processGeneric2, split2args, splitN2_append _ hkey]

/-- `strings.ToUpper` on ASCII letters. -/
def asciiUpper (s : String) : String := String.mk (s.toList.map Char.toUpper)

theorem run_write_lower_case :
    run asciiUpper ⟨"", 0⟩ 0 ("set" ++ " " ++ "k" ++ " " ++ "a b") =
      .ok (.submit ⟨[⟨"k", .set, stringBytes "a b"⟩], "", some (Client.deadline ⟨"", 0⟩ 0)⟩) :=
  run_write _ _ (by decide) (by decide) (by decide) (by decide) "a b"

/-- A write command with a key and no data fails with `io.ErrUnexpectedEOF`. -/
theorem run_write_without_data {toUpper : String → String} (c : Client) (now : Int) {cmd : String}
    {op : Op} (hop : op ∈ writeOps) (hcmd : toUpper cmd = op.toString) (hspace : space ∉ cmd.toList)
    {key : String} (hkey : space ∉ key.toList) :
    run toUpper c now (cmd ++ " " ++ key) = .error errUnexpectedEOF := by
  simp only [run, splitN2_append _ hspace, List.headD_cons, hcmd, getCLIMap_write hop]
  simp [processGeneric2, split2args, splitN2_of_not_mem hkey]

theorem split2args_key {arg arg1 arg2 : String} (h : split2args arg = .ok (arg1, arg2)) :
    space ∉ arg1.toList := by
  have hkey := not_mem_splitFirst arg.toList
  unfold split2args splitN2 at h
  rcases hs : splitFirst arg.toList with ⟨a, _ | b⟩ <;> simp only [hs] at h hkey
  · cases h
  · simp only [Except.ok.injEq, Prod.mk.injEq] at h
    rw [← h.1]
    exact hkey

theorem processGeneric2_submit {c : Client} {now : Int} {op : Op} {arg : String} {tx : Transaction}
    (h : processGeneric2 c now op arg = .ok (.submit tx)) :
    ∃ arg1 arg2, split2args arg = .ok (arg1, arg2) ∧ tx.operations = [⟨arg1, op, stringBytes arg2⟩] := by
  unfold processGeneric2 at h
  rcases hs : split2args arg with e | ⟨arg1, arg2⟩ <;> rw [hs] at h
  · cases h
  · cases h
    exact ⟨arg1, arg2, rfl, rfl⟩

theorem processContains_ne_submit {arg : String} {tx : Transaction} :
    processContains arg ≠ .ok (.submit tx) := by
  unfold processContains
  rcases split2args arg with e | ⟨arg1, arg2⟩ <;> nofun

/-- Only the write commands submit. -/
theorem getCLIMap_submit {c : Client} {now : Int} {name arg : String}
    {f : String → Except String Action} {tx : Transaction} (h : getCLIMap c now name = some f)
    (hf : f arg = .ok (.submit tx)) : ∃ op, processGeneric2 c now op arg = .ok (.submit tx) := by
  unfold getCLIMap at h
  split at h <;> cases h
  all_goals first
    | exact ⟨_, hf⟩
    | exact absurd hf processContains_ne_submit
    | cases hf

/-- Every transaction the command line submits holds one operation, on a key free of spaces. -/
theorem run_submit_key {toUpper : String → String} {c : Client} {now : Int} {expression : String}
    {tx : Transaction} (h : run toUpper c now expression = .ok (.submit tx)) :
    ∃ o, tx.operations = [o] ∧ space ∉ o.key.toList := by
  simp only [run] at h
  split at h
  · cases h
  · rename_i f hf
    obtain ⟨op, hop⟩ := getCLIMap_submit hf h
    obtain ⟨arg1, arg2, hs, htx⟩ := processGeneric2_submit hop
    exact ⟨_, htx, split2args_key hs⟩

theorem run_submit_key_set :
    run asciiUpper ⟨"", 0⟩ 0 "set k a b" =
        .ok (.submit ⟨[⟨"k", .set, stringBytes "a b"⟩], "", some (Client.deadline ⟨"", 0⟩ 0)⟩) ∧
      ∃ o, [(⟨"k", .set, stringBytes "a b"⟩ : Operation)] = [o] ∧ space ∉ o.key.toList := by
  have h : run asciiUpper ⟨"", 0⟩ 0 "set k a b" =
      .ok (.submit ⟨[⟨"k", .set, stringBytes "a b"⟩], "", some (Client.deadline ⟨"", 0⟩ 0)⟩) :=
    rfl
  exact ⟨h, run_submit_key h⟩

/-- `GET` reads the whole text after the command as the key, spaces included. -/
theorem run_get {toUpper : String → String} (c : Client) (now : Int) {cmd : String}
    (hcmd : toUpper cmd = "GET") (hspace : space ∉ cmd.toList) (key : String) :
    run toUpper c now (cmd ++ " " ++ key) = .ok (.get key) := by
  simp [run, splitN2_append _ hspace, hcmd, getCLIMap]

end PnyxDB.Cli
